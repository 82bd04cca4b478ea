import CaeloCms.Redirect.Edges

/-!
# The Caddy snippet is read back as the plan's table

Every line the emitter writes is read as the tokens it was put together from (`LineReads`), so the snippet's `map` is
the table of the plan (`caddyConfig_emit`) and the `redir` of the mapped status answers.  With it all four edges agree
(`edges_agree`).
-/

namespace CaeloCms.Redirect

/-! ### Tokens -/

variable {status : Nat} {c : Char} {r : PlannedRedirect} {ws : List (List Char)} {w : List Char}

theorem isBlank_of_goSpace (h : goSpace c = true) : isBlank c = true := by
  unfold goSpace at h
  unfold isBlank isSpace isControl
  simp only [Bool.or_eq_true, Bool.and_eq_true, decide_eq_true_eq] at h ⊢
  omega

structure TokenOk (w : List Char) : Prop where
  ne_nil : w ≠ []
  space : ∀ c ∈ w, goSpace c = false
  quoting : ∀ c ∈ w, caddyQuoting c = false
  comment : w.head? ≠ some '#'

/-- Tokens with a space between each two of them. -/
def spaced : List (List Char) → List Char
  | [] => []
  | [w] => w
  | w :: w' :: ws => w ++ ' ' :: spaced (w' :: ws)

theorem words_spaced (h : ∀ w ∈ ws, TokenOk w) : Words.words goSpace (spaced ws) = ws := by
  induction ws with
  | nil => rfl
  | cons w ws ih =>
    have hw := h w List.mem_cons_self
    have ih' := ih fun w' hw' => h w' (List.mem_cons_of_mem _ hw')
    cases ws with
    | nil => exact Words.words_word hw.ne_nil hw.space
    | cons w' ws => rw [spaced, Words.words_append hw.ne_nil hw.space (by decide), ih']

theorem mem_spaced (hc : c ∈ spaced ws) : c = ' ' ∨ ∃ w ∈ ws, c ∈ w := by
  induction ws with
  | nil => cases hc
  | cons w ws ih =>
    cases ws with
    | nil => exact Or.inr ⟨w, List.mem_cons_self, hc⟩
    | cons w' ws =>
      rw [spaced, List.mem_append, List.mem_cons] at hc
      rcases hc with hc | hc | hc
      · exact Or.inr ⟨w, List.mem_cons_self, hc⟩
      · exact Or.inl hc
      · rcases ih hc with hspace | ⟨w'', hw'', hc⟩
        · exact Or.inl hspace
        · exact Or.inr ⟨w'', List.mem_cons_of_mem _ hw'', hc⟩

def LineReads (line : List Char) (tokens : List (List Char)) : Prop :=
  '\n' ∉ line ∧ caddyTokens line = some tokens

instance (line : List Char) (tokens : List (List Char)) : Decidable (LineReads line tokens) :=
  inferInstanceAs (Decidable (_ ∧ _))

theorem lineReads_row (h : ∀ w ∈ ws, TokenOk w) : LineReads ('\t' :: spaced ws) ws := by
  constructor
  · intro hmem
    rcases List.mem_cons.1 hmem with heq | hmem
    · cases heq
    · rcases mem_spaced hmem with heq | ⟨w, hw, hc⟩
      · cases heq
      · exact absurd ((h w hw).space _ hc) (by decide)
  · have hquoting : ('\t' :: spaced ws).any caddyQuoting = false := by
      refine List.any_eq_false.2 fun c hc => ?_
      rcases List.mem_cons.1 hc with rfl | hc
      · decide
      · rcases mem_spaced hc with rfl | ⟨w, hw, hc⟩
        · decide
        · simp [(h w hw).quoting c hc]
    have hcomment : ∀ w ∈ ws, (w.head? != some '#') = true := by
      intro w hw
      simpa using (h w hw).comment
    rw [caddyTokens, hquoting, Words.words_cons_blank (by decide), words_spaced h,
      List.takeWhile_eq_self_iff.2 hcomment]
    rfl

theorem caddyConfig_unlines {ls : List (List Char)} {tokens : List (List (List Char))}
    (h : List.Forall₂ LineReads ls tokens) :
    caddyConfig (Words.unlines '\n' ls) =
      (caddyRun (.empty, .site) (tokens ++ [[]])).bind fun s => if s.2 = .site then some s.1 else none := by
  have hlines : ∀ l ∈ ls, '\n' ∉ l := by
    induction h with
    | nil =>
      intro l hl
      cases hl
    | cons hline _ ih =>
      intro l hl
      rcases List.mem_cons.1 hl with rfl | hl
      · exact hline.1
      · exact ih l hl
  have htokens : ∀ rest, caddyTokens rest = some [] → (ls ++ [rest]).mapM caddyTokens = some (tokens ++ [[]]) := by
    clear hlines
    intro rest hrest
    induction h with
    | nil => simp [hrest]
    | cons hline _ ih => simp [hline.2, ih]
  unfold caddyConfig
  rw [Words.lines_unlines hlines, htokens [] rfl, Option.bind_some]

/-! ### Running the lines -/

theorem caddyRun_append (s : CaddyConfig × CaddyBlock) (a b : List (List (List Char))) :
    caddyRun s (a ++ b) = (caddyRun s a).bind fun s' => caddyRun s' b := List.foldlM_append

def rowTokens (row : List Char × List Char × List Char) : List (List Char) := [row.1, row.2.1, row.2.2]

theorem caddyRun_rows {rows : List (List Char × List Char × List Char)} (h : ∀ row ∈ rows, row.1.head? = some '/') :
    ∀ c, caddyRun (c, .map) (rows.map rowTokens) = some ({ c with rows := c.rows ++ rows }, .map) := by
  induction rows with
  | nil =>
    intro c
    rw [List.append_nil]
    rfl
  | cons row rows ih =>
    intro c
    have hhead := h row List.mem_cons_self
    have hplain : ¬(row.1 = "default".toList ∨ row.1.head? = some '~') := by
      rintro (heq | heq)
      · rw [heq] at hhead
        exact absurd hhead (by decide)
      · rw [heq] at hhead
        cases hhead
    have hline : caddyLine c .map (rowTokens row) = some ({ c with rows := c.rows ++ [row] }, .map) := if_neg hplain
    show ((caddyLine c .map (rowTokens row)).bind fun s => caddyRun s (rows.map rowTokens)) = _
    rw [hline, Option.bind_some, ih fun row' hrow' => h row' (List.mem_cons_of_mem _ hrow')]
    simp

/-- The matcher and the `redir` of a status. -/
def statusMatcher (status : Nat) : List Char × List Char × List Char :=
  (caddyMatcherName status, placeholder placeholderStatus, natText status)

def statusRedir (status : Nat) : List Char × List Char × List Char :=
  (caddyMatcherName status, placeholder placeholderTarget, natText status)

def statusTokens (status : Nat) : List (List (List Char)) :=
  [[caddyMatcherName status, "vars".toList, placeholder placeholderStatus, natText status],
    ["redir".toList, caddyMatcherName status, placeholder placeholderTarget, natText status]]

theorem caddyRun_statuses (statuses : List Nat) : ∀ c,
    caddyRun (c, .site) (statuses.flatMap statusTokens) =
      some ({ c with
        matchers := c.matchers ++ statuses.map statusMatcher
        redirs := c.redirs ++ statuses.map statusRedir }, .site) := by
  induction statuses with
  | nil =>
    intro c
    simp [caddyRun]
  | cons status statuses ih =>
    intro c
    have hname : caddyMatcherName status ≠ "vars".toList := by
      intro heq
      cases heq
    have hlines : caddyRun (c, .site) (statusTokens status) =
        some ({ c with
          matchers := c.matchers ++ [statusMatcher status]
          redirs := c.redirs ++ [statusRedir status] }, .site) := by
      show ((some ({ c with matchers := c.matchers ++ [statusMatcher status] }, CaddyBlock.site)).bind fun s =>
        (caddyLine s.1 s.2 ["redir".toList, caddyMatcherName status, placeholder placeholderTarget,
          natText status]).bind some) = _
      rw [Option.bind_some]
      dsimp only [caddyLine]
      rw [if_neg hname, if_pos rfl]
      rfl
    rw [List.flatMap_cons, caddyRun_append, hlines, Option.bind_some, ih]
    simp

/-! ### What the emitter writes -/

theorem ok_of_assertCaddySafe {fromPath location : List Char} {u : Unit}
    (h : assertCaddySafe fromPath location = .ok u) :
    fromPath.any caddyUnsafe = false ∧ location.any caddyUnsafe = false := by
  unfold assertCaddySafe at h
  split at h
  · cases h
  · rename_i hnone
    rw [List.find?_eq_none] at hnone
    exact ⟨by simpa using hnone fromPath (by simp), by simpa using hnone location (by simp)⟩

theorem caddyRedirectRows_ok {rows : List (List Char)} (h : caddyRedirectRows r = .ok rows) :
    rows = r.matchPaths.map (fun path => caddyMapRow path (caddyTarget r) (natText r.statusCode)) ∧
      r.fromPath.any caddyUnsafe = false ∧ r.location.any caddyUnsafe = false := by
  unfold caddyRedirectRows at h
  cases hsafe : assertCaddySafe r.fromPath r.location with
  | error e =>
    rw [hsafe] at h
    cases h
  | ok u =>
    rw [hsafe] at h
    cases h
    exact ⟨rfl, ok_of_assertCaddySafe hsafe⟩

theorem caddyGoneRows_ok {g : PlannedGone} {rows : List (List Char)} (h : caddyGoneRows g = .ok rows) :
    rows = g.matchPaths.map (fun path => caddyMapRow path ['-'] (natText goneStatus)) ∧
      g.fromPath.any caddyUnsafe = false := by
  unfold caddyGoneRows at h
  cases hsafe : assertCaddySafe g.fromPath [] with
  | error e =>
    rw [hsafe] at h
    cases h
  | ok u =>
    rw [hsafe] at h
    cases h
    exact ⟨rfl, (ok_of_assertCaddySafe hsafe).1⟩

/-- The rows of the `map`: the table of the plan. -/
def caddyTable (plan : RedirectPlan) : List (List Char × List Char × List Char) :=
  Table.pairs (·.matchPaths) (fun r => (caddyTarget r, natText r.statusCode)) plan.redirects ++
    Table.pairs (·.matchPaths) (fun _ => (['-'], natText goneStatus)) plan.gone

def rowLine (row : List Char × List Char × List Char) : List Char := caddyMapRow row.1 row.2.1 row.2.2

/-- An accepted snippet: its lines, and that no path or Location needs quoting. -/
theorem emitCaddyRedirects_ok {text : List Char} (h : emitCaddyRedirects plan = .ok text) :
    (∀ r ∈ plan.redirects, r.fromPath.any caddyUnsafe = false ∧ r.location.any caddyUnsafe = false) ∧
    (∀ g ∈ plan.gone, g.fromPath.any caddyUnsafe = false) ∧
    ((plan.redirects = [] ∧ plan.gone = [] ∧ text = Words.unlines '\n' [caddyHeader]) ∨
      text = Words.unlines '\n' ([caddyHeader, caddyMapLine] ++ (caddyTable plan).map rowLine ++ [['\x7d']] ++
        (caddyStatuses plan).flatMap caddyStatusLines ++ if plan.gone.isEmpty then [] else caddyGoneLines)) := by
  unfold emitCaddyRedirects at h
  split at h
  · rename_i hempty
    have hredirects : plan.redirects = [] := by simpa using hempty.1
    have hgone : plan.gone = [] := by simpa using hempty.2
    cases h
    refine ⟨fun r hr => ?_, fun g hg => ?_, Or.inl ⟨hredirects, hgone, rfl⟩⟩
    · rw [hredirects] at hr
      cases hr
    · rw [hgone] at hg
      cases hg
  · cases hr : plan.redirects.mapM caddyRedirectRows with
    | error e =>
      rw [hr] at h
      cases h
    | ok redirectRows =>
      cases hg : plan.gone.mapM caddyGoneRows with
      | error e =>
        rw [hr, hg] at h
        cases h
      | ok goneRows =>
        rw [hr, hg] at h
        cases h
        have hredirectRows := map_of_mapM_ok (g := id) (fun r rows hrows => (caddyRedirectRows_ok hrows).1) hr
        have hgoneRows := map_of_mapM_ok (g := id) (fun g rows hrows => (caddyGoneRows_ok hrows).1) hg
        have htable : redirectRows.flatten ++ goneRows.flatten = (caddyTable plan).map rowLine := by
          rw [List.map_id] at hredirectRows hgoneRows
          rw [hredirectRows, hgoneRows, caddyTable, List.map_append, Table.pairs, Table.pairs, List.map_flatMap,
            List.map_flatMap, ← List.flatMap_def, ← List.flatMap_def]
          simp only [List.map_map]
          rfl
        refine ⟨fun r hr' => ?_, fun g hg' => ?_, Or.inr ?_⟩
        · obtain ⟨rows, hrows⟩ := ok_of_mapM_ok hr r hr'
          exact (caddyRedirectRows_ok hrows).2
        · obtain ⟨rows, hrows⟩ := ok_of_mapM_ok hg g hg'
          exact (caddyGoneRows_ok hrows).2
        · rw [← htable]
          simp only [List.append_assoc]

/-! ### Its tokens -/

theorem caddyUnsafe_of_quoting (h : caddyQuoting c = true) : caddyUnsafe c = true := by
  unfold caddyQuoting at h
  unfold caddyUnsafe
  simp only [List.contains_cons, Bool.or_eq_true] at h ⊢
  tauto

theorem tokenOk_of {first : Char} (hhead : w.head? = some first) (hfirst : first ≠ '#')
    (hblank : ∀ c ∈ w, isBlank c = false) (hquoting : ∀ c ∈ w, caddyQuoting c = false) : TokenOk w where
  ne_nil := by
    intro hnil
    rw [hnil] at hhead
    cases hhead
  space := by
    intro c hc
    by_contra hspace
    have hb := isBlank_of_goSpace (by simpa using hspace)
    rw [hblank c hc] at hb
    cases hb
  quoting := hquoting
  comment := by
    rw [hhead]
    intro heq
    exact hfirst (Option.some.inj heq)

theorem not_quoting_of_safe (h : w.any caddyUnsafe = false) : ∀ c ∈ w, caddyQuoting c = false := by
  intro c hc
  by_contra hquoting
  exact List.any_eq_false.1 h c hc (caddyUnsafe_of_quoting (by simpa using hquoting))

def isPlain (c : Char) : Bool := !isBlank c && !caddyQuoting c

theorem plain_of_all (h : w.all isPlain = true) (hc : c ∈ w) :
    isBlank c = false ∧ caddyQuoting c = false := by
  have hplain := List.all_eq_true.1 h c hc
  simpa [isPlain] using hplain

theorem tokenOk_natText (h : status ∈ redirectStatuses ∨ status = goneStatus) :
    TokenOk (natText status) := by
  have hall : ∀ s ∈ goneStatus :: redirectStatuses, (natText s).head? ≠ none ∧ (natText s).head? ≠ some '#' ∧
      (natText s).all isPlain = true := by decide
  obtain ⟨hne, hcomment, hchars⟩ := hall status (h.elim (List.mem_cons_of_mem _) fun heq => heq ▸ List.mem_cons_self)
  obtain ⟨first, hfirst⟩ := Option.ne_none_iff_exists'.1 hne
  refine tokenOk_of hfirst ?_ (fun c hc => (plain_of_all hchars hc).1) fun c hc => (plain_of_all hchars hc).2
  intro heq
  rw [hfirst, heq] at hcomment
  exact hcomment rfl

theorem tokenOk_matchPath {bare path : List Char} (hpath : path ∈ matchPathsFor bare)
    (hok : path.head? = some '/' ∧ ∀ c ∈ path, isBlank c = false) (hsafe : bare.any caddyUnsafe = false) :
    TokenOk path := by
  refine tokenOk_of hok.1 (by decide) hok.2 fun c hc => ?_
  have hbare := not_quoting_of_safe hsafe
  rcases mem_matchPathsFor hpath with rfl | rfl
  · exact hbare c hc
  · rcases List.mem_append.1 hc with hc | hc
    · exact hbare c hc
    · rw [List.mem_singleton.1 hc]
      decide

theorem PlanOk.location_chars (h : PlanOk parseUrl style live plan) (hr : r ∈ plan.redirects) :
    (r.location.head? = some '/' ∨ r.location.head? = some 'h') ∧ ∀ c ∈ r.location, isBlank c = false := by
  obtain ⟨_, _, _, _, target, hentry⟩ := h.redirects r hr
  have hhead : target.head? = some '/' ∨ target.head? = some 'h' := by
    rcases servable_cases hentry.servable with ⟨hext, -⟩ | ⟨-, hslash, -⟩
    · exact Or.inr (head_of_external hext)
    · exact Or.inl hslash
  have hne : target ≠ [] := by
    intro hnil
    rw [hnil] at hhead
    rcases hhead with hhead | hhead <;> cases hhead
  rw [hentry.location]
  rcases locationFor_cases target style with heq | ⟨heq, -, -⟩
  · rw [heq]
    exact ⟨hhead, fun c hc => not_blank_of_servable hentry.servable hc⟩
  · rw [heq, List.head?_append_of_ne_nil _ hne]
    refine ⟨hhead, fun c hc => ?_⟩
    rcases List.mem_append.1 hc with hc | hc
    · exact not_blank_of_servable hentry.servable hc
    · rw [List.mem_singleton.1 hc]
      decide

theorem PlanOk.tokenOk_target (h : PlanOk parseUrl style live plan) (hr : r ∈ plan.redirects)
    (hsafe : r.location.any caddyUnsafe = false) : TokenOk (caddyTarget r) := by
  obtain ⟨hhead, hblank⟩ := h.location_chars hr
  have hquoting := not_quoting_of_safe hsafe
  have hmark : (placeholder "?query".toList).all isPlain = true := by decide
  have hlocation : ∃ first, r.location.head? = some first ∧ first ≠ '#' := by
    rcases hhead with hhead | hhead
    · exact ⟨'/', hhead, by decide⟩
    · exact ⟨'h', hhead, by decide⟩
  obtain ⟨first, hfirst, hne⟩ := hlocation
  unfold caddyTarget
  split
  · refine tokenOk_of (?_ : _ = some first) hne (fun c hc => ?_) fun c hc => ?_
    · rw [List.head?_append, hfirst]
      rfl
    · exact (List.mem_append.1 hc).elim (hblank c) fun hc => (plain_of_all hmark hc).1
    · exact (List.mem_append.1 hc).elim (hquoting c) fun hc => (plain_of_all hmark hc).2
  · exact tokenOk_of hfirst hne hblank hquoting

theorem PlanOk.tokenOk_table (h : PlanOk parseUrl style live plan)
    (hredirects : ∀ r ∈ plan.redirects, r.fromPath.any caddyUnsafe = false ∧ r.location.any caddyUnsafe = false)
    (hgone : ∀ g ∈ plan.gone, g.fromPath.any caddyUnsafe = false) {row : List Char × List Char × List Char}
    (hrow : row ∈ caddyTable plan) : row.1.head? = some '/' ∧ ∀ w ∈ rowTokens row, TokenOk w := by
  rcases List.mem_append.1 hrow with hrow | hrow
  · obtain ⟨r, hr, hrow⟩ := List.mem_flatMap.1 hrow
    obtain ⟨path, hpath, rfl⟩ := List.mem_map.1 hrow
    have hok := h.redirect_rowOk hr hpath
    have hmatch : path ∈ matchPathsFor r.fromPath := h.redirect_matchPaths hr ▸ hpath
    have hstatus : TokenOk (natText r.statusCode) := tokenOk_natText (Or.inl (h.status_mem hr))
    refine ⟨hok.1, fun w hw => ?_⟩
    simp only [rowTokens, List.mem_cons, List.not_mem_nil, or_false] at hw
    rcases hw with rfl | rfl | rfl
    · exact tokenOk_matchPath hmatch hok (hredirects r hr).1
    · exact h.tokenOk_target hr (hredirects r hr).2
    · exact hstatus
  · obtain ⟨g, hg, hrow⟩ := List.mem_flatMap.1 hrow
    obtain ⟨path, hpath, rfl⟩ := List.mem_map.1 hrow
    have hok := h.gone_rowOk hg hpath
    have hmatch : path ∈ matchPathsFor g.fromPath := h.gone_matchPaths hg ▸ hpath
    have hstatus : TokenOk (natText goneStatus) := tokenOk_natText (Or.inr rfl)
    refine ⟨hok.1, fun w hw => ?_⟩
    simp only [rowTokens, List.mem_cons, List.not_mem_nil, or_false] at hw
    rcases hw with rfl | rfl | rfl
    · exact tokenOk_matchPath hmatch hok (hgone g hg)
    · have hplain : ['-'].all isPlain = true := by decide
      exact tokenOk_of (Eq.refl (some '-')) (by decide) (fun c hc => (plain_of_all hplain hc).1) fun c hc =>
        (plain_of_all hplain hc).2
    · exact hstatus

theorem mem_caddyStatuses :
    status ∈ caddyStatuses plan ↔ ∃ r ∈ plan.redirects, r.statusCode = status := by
  unfold caddyStatuses
  rw [List.mem_mergeSort, OrderedSet.mem_addAll, List.mem_map]
  simp

theorem PlanOk.statuses_subset (h : PlanOk parseUrl style live plan)
    (hstatus : status ∈ caddyStatuses plan) : status ∈ redirectStatuses := by
  obtain ⟨r, hr, rfl⟩ := mem_caddyStatuses.1 hstatus
  exact h.status_mem hr

def mapTokens : List (List Char) :=
  ["map".toList, placeholder "path".toList, placeholder placeholderTarget, placeholder placeholderStatus, ['\x7b']]

def goneMatcher : List Char × List Char × List Char :=
  (caddyGoneName, placeholder placeholderStatus, natText goneStatus)

def goneTokens : List (List (List Char)) :=
  [[caddyGoneName, "vars".toList, placeholder placeholderStatus, natText goneStatus],
    ["handle".toList, caddyGoneName, ['\x7b']], ["respond".toList, natText goneStatus], [['\x7d']]]

theorem lineReads_fixed : LineReads caddyHeader [] ∧ LineReads caddyMapLine mapTokens ∧
    LineReads ['\x7d'] [['\x7d']] := by
  decide +kernel

theorem lineReads_gone : List.Forall₂ LineReads caddyGoneLines goneTokens := by
  have h : ∀ p ∈ caddyGoneLines.zip goneTokens, LineReads p.1 p.2 := by decide +kernel
  refine List.forall₂_iff_zip.2 ⟨rfl, fun {a b} hab => h (a, b) hab⟩

theorem lineReads_status (h : status ∈ redirectStatuses) :
    List.Forall₂ LineReads (caddyStatusLines status) (statusTokens status) := by
  have hall : ∀ s ∈ redirectStatuses, ∀ p ∈ (caddyStatusLines s).zip (statusTokens s), LineReads p.1 p.2 := by
    decide +kernel
  refine List.forall₂_iff_zip.2 ⟨rfl, fun {a b} hab => hall status h (a, b) hab⟩

/-- The snippet's directives. -/
def planConfig (plan : RedirectPlan) : CaddyConfig where
  outputs := (placeholder placeholderTarget, placeholder placeholderStatus)
  rows := caddyTable plan
  matchers := (caddyStatuses plan).map statusMatcher ++ if plan.gone.isEmpty then [] else [goneMatcher]
  redirs := (caddyStatuses plan).map statusRedir

theorem PlanOk.caddyConfig_lines (h : PlanOk parseUrl style live plan)
    (hredirects : ∀ r ∈ plan.redirects, r.fromPath.any caddyUnsafe = false ∧ r.location.any caddyUnsafe = false)
    (hgone : ∀ g ∈ plan.gone, g.fromPath.any caddyUnsafe = false) :
    caddyConfig (Words.unlines '\n' ([caddyHeader, caddyMapLine] ++ (caddyTable plan).map rowLine ++ [['\x7d']] ++
      (caddyStatuses plan).flatMap caddyStatusLines ++ if plan.gone.isEmpty then [] else caddyGoneLines)) =
      some (planConfig plan) := by
  obtain ⟨hheader, hmap, hclosing⟩ := lineReads_fixed
  have hrows : List.Forall₂ LineReads ((caddyTable plan).map rowLine) ((caddyTable plan).map rowTokens) := by
    rw [List.forall₂_map_left_iff, List.forall₂_map_right_iff, List.forall₂_same]
    intro row hrow
    exact lineReads_row (h.tokenOk_table hredirects hgone hrow).2
  have hstatuses : List.Forall₂ LineReads ((caddyStatuses plan).flatMap caddyStatusLines)
      ((caddyStatuses plan).flatMap statusTokens) := by
    have hsame : List.Forall₂ (fun s s' => s = s' ∧ s ∈ redirectStatuses) (caddyStatuses plan) (caddyStatuses plan) :=
      List.forall₂_same.2 fun s hs => ⟨rfl, h.statuses_subset hs⟩
    refine List.rel_flatMap hsame ?_
    rintro s _ ⟨rfl, hs⟩
    exact lineReads_status hs
  have hend : List.Forall₂ LineReads (if plan.gone.isEmpty then [] else caddyGoneLines)
      (if plan.gone.isEmpty then [] else goneTokens) := by
    split
    · exact .nil
    · exact lineReads_gone
  have hlines := List.rel_append (List.rel_append (List.rel_append (List.rel_append
    (List.Forall₂.cons hheader (.cons hmap .nil)) hrows) (List.Forall₂.cons hclosing .nil)) hstatuses) hend
  rw [caddyConfig_unlines hlines]
  have hopen : caddyRun (.empty, .site) [[], mapTokens] =
      some (⟨(placeholder placeholderTarget, placeholder placeholderStatus), [], [], []⟩, .map) := by decide
  have hclose : ∀ c, caddyRun (c, .map) [[['\x7d']]] = some (c, .site) := fun _ => rfl
  have hlast : ∀ c : CaddyConfig, caddyRun (c, .site) (if plan.gone.isEmpty then [] else goneTokens) =
      some ({ c with matchers := c.matchers ++ if plan.gone.isEmpty then [] else [goneMatcher] }, .site) := by
    intro c
    split
    · simp [caddyRun]
    · rfl
  have hempty : ∀ s : CaddyConfig × CaddyBlock, caddyRun s [[]] = some s := fun _ => rfl
  rw [caddyRun_append, caddyRun_append, caddyRun_append, caddyRun_append, caddyRun_append, hopen, Option.bind_some,
    caddyRun_rows fun row hrow => (h.tokenOk_table hredirects hgone hrow).1, Option.bind_some, hclose,
    Option.bind_some, caddyRun_statuses, Option.bind_some, hlast, Option.bind_some, hempty, Option.bind_some, if_pos rfl]
  rfl

/-! ### What the snippet answers -/

theorem expand_placeholder_eq {env : List Char → List Char} {name : List Char} (h : '\x7d' ∉ name) :
    Words.expand '\x7b' '\x7d' env (placeholder name) = env name := by
  unfold placeholder
  rw [Words.expand_placeholder h]
  exact List.append_nil _

theorem expand_of_no_brace {env : List Char → List Char} {s : List Char} (h : '\x7b' ∉ s) :
    Words.expand '\x7b' '\x7d' env s = s := by
  have happend := @Words.expand_append _ _ _ '\x7d' env _ h []
  rw [List.append_nil] at happend
  rw [happend]
  exact List.append_nil _

theorem natText_injective {a b : Nat} (h : natText a = natText b) : a = b := by
  have ha : Nat.ofDigitChars 10 (natText a) 0 = a := Nat.ofDigitChars_ten_toDigits
  rw [← ha, h]
  exact Nat.ofDigitChars_ten_toDigits

theorem mapOutput_target (hhead : r.location.head? = some '/' ∨ r.location.head? = some 'h')
    (hsafe : r.location.any caddyUnsafe = false) (path query : List Char) :
    mapOutput path query (caddyTarget r) = if r.preserveQuery then withQuery r.location query else r.location := by
  have hbrace : '\x7b' ∉ r.location := fun hmem => List.any_eq_false.1 hsafe _ hmem (by decide)
  have hne : caddyTarget r ≠ ['-'] := by
    intro heq
    have hfirst : (caddyTarget r).head? = r.location.head? := by
      have hnil : r.location ≠ [] := by
        intro hnil
        rw [hnil] at hhead
        rcases hhead with hhead | hhead <;> cases hhead
      unfold caddyTarget
      split
      · exact List.head?_append_of_ne_nil _ hnil
      · rfl
    rw [heq] at hfirst
    rw [← hfirst] at hhead
    rcases hhead with hhead | hhead <;> cases hhead
  unfold mapOutput
  rw [if_neg hne]
  unfold caddyTarget
  split
  · rw [Words.expand_append hbrace, expand_placeholder_eq (by decide)]
    show r.location ++ withQuery [] query = withQuery r.location query
    unfold withQuery
    split
    · exact List.append_nil _
    · rfl
  · exact expand_of_no_brace hbrace

theorem mapOutput_status (h : status ∈ redirectStatuses ∨ status = goneStatus) (path query : List Char) :
    mapOutput path query (natText status) = natText status := by
  have hall : ∀ s ∈ goneStatus :: redirectStatuses, natText s ≠ ['-'] ∧ '\x7b' ∉ natText s := by decide
  obtain ⟨hne, hbrace⟩ := hall status (h.elim (List.mem_cons_of_mem _) fun heq => heq ▸ List.mem_cons_self)
  unfold mapOutput
  rw [if_neg hne]
  exact expand_of_no_brace hbrace

theorem find_redir (plan : RedirectPlan) {path query mapped : List Char}
    (hmapped : (planConfig plan).value path query placeholderStatus = mapped) :
    (planConfig plan).redirs.find? (fun redir => (planConfig plan).matcherHolds path query redir.1) =
      ((caddyStatuses plan).find? fun status => mapped == natText status).map statusRedir := by
  have hholds : ∀ status ∈ caddyStatuses plan,
      (planConfig plan).matcherHolds path query (statusRedir status).1 = (mapped == natText status) := by
    intro status hstatus
    have hlookup : (planConfig plan).matchers.lookup (caddyMatcherName status) =
        some (placeholder placeholderStatus, natText status) := by
      have hstatuses : ((caddyStatuses plan).map statusMatcher).lookup (caddyMatcherName status) =
          some (placeholder placeholderStatus, natText status) := by
        refine Table.lookup_map (f := caddyMatcherName) (g := fun s => (placeholder placeholderStatus, natText s))
          hstatus fun s _ heq => ?_
        rw [List.append_cancel_left heq]
      show ((caddyStatuses plan).map statusMatcher ++ _).lookup _ = _
      rw [List.lookup_append, hstatuses]
      rfl
    have hexpand : (planConfig plan).expand path query (placeholder placeholderStatus) = mapped := by
      rw [← hmapped]
      exact expand_placeholder_eq (by decide)
    show (planConfig plan).matcherHolds path query (caddyMatcherName status) = _
    unfold CaddyConfig.matcherHolds
    rw [hlookup]
    show ((planConfig plan).expand path query (placeholder placeholderStatus) == natText status) = _
    rw [hexpand]
  show ((caddyStatuses plan).map statusRedir).find? _ = _
  rw [List.find?_map]
  refine congrArg (Option.map statusRedir) ?_
  exact List.find?_congr hholds

theorem lookup_caddyTable (plan : RedirectPlan) (path : List Char) :
    (caddyTable plan).lookup path =
      ((plan.redirectAt path).map fun r => (caddyTarget r, natText r.statusCode)).or
        ((plan.gone.find? fun g => g.matchPaths.contains path).map fun _ => (['-'], natText goneStatus)) := by
  unfold caddyTable
  rw [List.lookup_append, Table.lookup_pairs, Table.lookup_pairs]
  rfl

theorem PlanOk.caddy_answer (h : PlanOk parseUrl style live plan)
    (hsafe : ∀ r ∈ plan.redirects, r.fromPath.any caddyUnsafe = false ∧ r.location.any caddyUnsafe = false)
    (path query : List Char) : (planConfig plan).answer path query = plan.answer path query := by
  have hlookup := lookup_caddyTable plan path
  have hstatusValue : (planConfig plan).value path query placeholderStatus =
      (((caddyTable plan).lookup path).map fun row => mapOutput path query row.2).getD [] := by
    have hne : placeholder placeholderStatus ≠ placeholder placeholderTarget := by decide
    unfold CaddyConfig.value
    rw [show (planConfig plan).outputs.1 = placeholder placeholderTarget from rfl, if_neg hne]
    exact if_pos rfl
  have htargetValue : (planConfig plan).value path query placeholderTarget =
      (((caddyTable plan).lookup path).map fun row => mapOutput path query row.1).getD [] := if_pos rfl
  unfold CaddyConfig.answer
  rw [find_redir plan rfl, hstatusValue, hlookup]
  unfold RedirectPlan.answer
  cases hat : plan.redirectAt path with
  | some r =>
    have hr := (redirectAt_spec hat).1
    have hstatus := h.status_mem hr
    have hmem : r.statusCode ∈ caddyStatuses plan := mem_caddyStatuses.2 ⟨r, hr, rfl⟩
    have hmapped : mapOutput path query (natText r.statusCode) = natText r.statusCode :=
      mapOutput_status (Or.inl hstatus) path query
    have hfind : (caddyStatuses plan).find? (fun status => natText r.statusCode == natText status) =
        some r.statusCode := by
      cases hf : (caddyStatuses plan).find? fun status => natText r.statusCode == natText status with
      | none => exact absurd (List.find?_eq_none.1 hf _ hmem) (by simp)
      | some status =>
        have heq : natText r.statusCode = natText status := by simpa using List.find?_some hf
        rw [natText_injective heq]
    have hexpand : (planConfig plan).expand path query (placeholder placeholderTarget) =
        if r.preserveQuery then withQuery r.location query else r.location := by
      rw [hat] at hlookup
      rw [CaddyConfig.expand, expand_placeholder_eq (by decide), htargetValue, hlookup]
      exact mapOutput_target (h.location_chars hr).1 (hsafe r hr).2 path query
    show Option.map _ (Option.map statusRedir ((caddyStatuses plan).find? fun status =>
      mapOutput path query (natText r.statusCode) == natText status)) = _
    rw [hmapped, hfind]
    show some (Nat.ofDigitChars 10 (natText r.statusCode) 0,
      (planConfig plan).expand path query (placeholder placeholderTarget)) = _
    rw [hexpand]
    exact congrArg (fun s => some (s, _)) Nat.ofDigitChars_ten_toDigits
  | none =>
    -- nothing is mapped, or the mapped status is that of a path that is gone
    have hnone : ∀ mapped, (∀ status ∈ redirectStatuses, mapped ≠ natText status) →
        (caddyStatuses plan).find? (fun status => mapped == natText status) = none := by
      intro mapped hmapped
      refine List.find?_eq_none.2 fun status hstatus heq => ?_
      exact hmapped status (h.statuses_subset hstatus) (by simpa using heq)
    cases hgone : plan.gone.find? fun g => g.matchPaths.contains path with
    | none =>
      show Option.map _ (Option.map statusRedir ((caddyStatuses plan).find? fun status => [] == natText status)) = _
      rw [hnone [] (by decide)]
      rfl
    | some g =>
      show Option.map _ (Option.map statusRedir ((caddyStatuses plan).find? fun status =>
        mapOutput path query (natText goneStatus) == natText status)) = _
      rw [mapOutput_status (Or.inr rfl), hnone _ (by decide)]
      rfl

/-! ### The edges -/

/-- Where the four emitters accept a plan, the four edges answer every request as the plan does: no redirect for the
same requests, else the same status and Location, with the query of the request where the entry keeps it. -/
theorem edges_agree {rows : List RedirectTableRow} {servedFiles : List (List Char)} {snippet : List Char}
    {entries : List CloudFrontKvsEntry} {frontDoor : List FrontDoorRedirectRule} {gcp : List GcpPathRule}
    (hplan : buildRedirectPlan parseUrl rows style servedFiles = .ok plan)
    (hcaddy : emitCaddyRedirects plan = .ok snippet) (hcloudFront : cloudFrontKeyValueEntries plan = .ok entries)
    (hfrontDoor : frontDoorRedirectRules plan = .ok frontDoor)
    (hgcp : gcpRedirectPathRules parseUrl plan = .ok gcp) :
    ∃ config, caddyConfig snippet = some config ∧ ∀ path query,
      config.answer path query = plan.answer path query ∧
      cloudFrontAnswer entries path query = plan.answer path query ∧
      frontDoorAnswer frontDoor path query = plan.answer path query ∧
      gcpAnswer gcp path query = plan.answer path query := by
  obtain ⟨live, h⟩ := buildRedirectPlan_ok hplan
  have hquery : ∀ r ∈ plan.redirects, r.preserveQuery = true := by
    intro r hr
    obtain ⟨rule, hrule⟩ := ok_of_mapM_ok hgcp r hr
    exact (toPathRule_spec hrule).1
  have hext : ∀ r ∈ plan.redirects, isExternalRedirectTarget r.location = false :=
    fun r hr => frontDoor_local hfrontDoor hr
  obtain ⟨hredirects, hgone, hlines⟩ := emitCaddyRedirects_ok hcaddy
  have hothers : ∀ path query, cloudFrontAnswer entries path query = plan.answer path query ∧
      frontDoorAnswer frontDoor path query = plan.answer path query ∧
      gcpAnswer gcp path query = plan.answer path query := fun path query =>
    ⟨h.cloudFront_answer hcloudFront path query, h.frontDoor_answer hfrontDoor hquery path query,
      h.gcp_answer hgcp hext path query⟩
  rcases hlines with ⟨hnone, -, rfl⟩ | rfl
  · refine ⟨.empty, by decide +kernel, fun path query => ⟨?_, hothers path query⟩⟩
    unfold RedirectPlan.answer RedirectPlan.redirectAt
    rw [hnone]
    rfl
  · exact ⟨planConfig plan, h.caddyConfig_lines hredirects hgone, fun path query =>
      ⟨h.caddy_answer hredirects path query, hothers path query⟩⟩

/-- A chain, a file-like path and a path that is gone, accepted by all four. -/
def edgeRows : List RedirectTableRow :=
  [⟨"/a".toList, "/b".toList, 301⟩, ⟨"/b/".toList, "/c".toList, 302⟩, ⟨"/old.html".toList, "/new".toList, 308⟩,
    ⟨"/g".toList, "/".toList, 410⟩]

def edgePlan : RedirectPlan := (buildRedirectPlan (fun _ => none) edgeRows .directory []).toOption.get (by decide)

theorem edges_agree_sample :
    edgePlan.answer "/a/".toList "x=1".toList = some (302, "/c/?x=1".toList) ∧
    ∃ config, (emitCaddyRedirects edgePlan).toOption.bind caddyConfig = some config ∧
      config.answer "/a/".toList "x=1".toList = some (302, "/c/?x=1".toList) := by
  have hplan : buildRedirectPlan (fun _ => none) edgeRows .directory [] = .ok edgePlan := rfl
  have hanswer : edgePlan.answer "/a/".toList "x=1".toList = some (302, "/c/?x=1".toList) := by decide
  obtain ⟨snippet, hcaddy⟩ : ∃ snippet, emitCaddyRedirects edgePlan = .ok snippet := ⟨_, rfl⟩
  obtain ⟨entries, hcloudFront⟩ : ∃ entries, cloudFrontKeyValueEntries edgePlan = .ok entries := by
    exact cloudFrontKeyValueEntries_of_fits (by decide) (by decide)
  obtain ⟨frontDoor, hfrontDoor⟩ : ∃ rules, frontDoorRedirectRules edgePlan = .ok rules := ⟨_, rfl⟩
  obtain ⟨gcp, hgcp⟩ : ∃ rules, gcpRedirectPathRules (fun _ => none) edgePlan = .ok rules := ⟨_, rfl⟩
  obtain ⟨config, hconfig, hagree⟩ := edges_agree hplan hcaddy hcloudFront hfrontDoor hgcp
  refine ⟨hanswer, config, ?_, (hagree _ _).1.trans hanswer⟩
  rw [hcaddy]
  exact hconfig

end CaeloCms.Redirect
