import CaeloCms.Redirect.Edges

/-!
# The rows of a plan and the paths they are stored under

Normalising keeps every row, under its path without trailing slashes, and accepts exactly the rows that pass their checks
and do not contradict each other (`normaliseRows_ok_iff`), in whatever order they come.  A row is then matched on the
paths made of that bare path; they hold the stored path when it is plainly spelled (`PlainlySpelled`).
-/

namespace CaeloCms.Redirect

variable {parseUrl : List Char → Option Url}

/-! ### What normalising keeps -/

/-- What `normaliseRows` makes of a row. -/
def RedirectTableRow.normalised (row : RedirectTableRow) : NormalisedRow :=
  ⟨stripTrailingSlash row.fromPath, row.toPath, row.statusCode⟩

/-- The rows pass their checks, and no two answer one path differently. -/
structure Consistent (parseUrl : List Char → Option Url) (rows : List RedirectTableRow) (out : List NormalisedRow) :
    Prop where
  issues : ∀ row ∈ rows, rowIssue parseUrl row = none
  agree : ∀ a ∈ out ++ rows.map (·.normalised), ∀ b ∈ out ++ rows.map (·.normalised), a.bare = b.bare → a = b

variable {path : List Char} {rows : List RedirectTableRow}

theorem normaliseFrom_spec : ∀ {out res : List NormalisedRow},
    (∀ a ∈ out, ∀ b ∈ out, a.bare = b.bare → a = b) → normaliseFrom parseUrl out rows = .ok res →
      Consistent parseUrl rows out ∧ ∀ r, r ∈ res ↔ r ∈ out ++ rows.map (·.normalised) := by
  induction rows with
  | nil =>
    intro out res hout h
    cases h
    refine ⟨⟨by simp, by simpa using hout⟩, by simp⟩
  | cons row rows ih =>
    intro out res hout h
    unfold normaliseFrom at h
    split at h
    · cases h
    rename_i hissue
    dsimp only at h
    split at h
    · rename_i hnone
      -- the row is put out
      have hfresh : ∀ a ∈ out, a.bare ≠ row.normalised.bare := by
        intro a ha heq
        exact List.find?_eq_none.1 hnone a ha (by simpa [RedirectTableRow.normalised] using heq)
      have hout' : ∀ a ∈ out ++ [row.normalised], ∀ b ∈ out ++ [row.normalised], a.bare = b.bare → a = b := by
        intro a ha b hb heq
        rcases List.mem_append.1 ha with ha | ha <;> rcases List.mem_append.1 hb with hb | hb
        · exact hout a ha b hb heq
        · rw [List.mem_singleton.1 hb] at heq
          exact absurd heq (hfresh a ha)
        · rw [List.mem_singleton.1 ha] at heq
          exact absurd heq.symm (hfresh b hb)
        · rw [List.mem_singleton.1 ha, List.mem_singleton.1 hb]
      obtain ⟨hcons, hmem⟩ := ih hout' h
      have happ : out ++ (row :: rows).map (·.normalised) = out ++ [row.normalised] ++ rows.map (·.normalised) := by
        simp
      refine ⟨⟨?_, by rw [happ]; exact hcons.agree⟩, by rw [happ]; exact hmem⟩
      intro r hr
      rcases List.mem_cons.1 hr with rfl | hr
      · exact hissue
      · exact hcons.issues r hr
    · rename_i existing hexisting
      split at h
      · -- the row is there already
        rename_i hsame
        have hbare : existing.bare = stripTrailingSlash row.fromPath := by simpa using List.find?_some hexisting
        have heq : existing = row.normalised := by
          cases existing
          simp only [RedirectTableRow.normalised, NormalisedRow.mk.injEq]
          exact ⟨hbare, hsame.1, hsame.2⟩
        have hin : row.normalised ∈ out := heq ▸ List.mem_of_find?_eq_some hexisting
        obtain ⟨hcons, hmem⟩ := ih hout h
        have hiff : ∀ r, r ∈ out ++ (row :: rows).map (·.normalised) ↔ r ∈ out ++ rows.map (·.normalised) := by
          intro r
          simp only [List.map_cons, List.mem_append, List.mem_cons]
          constructor
          · rintro (hr | rfl | hr)
            · exact Or.inl hr
            · exact Or.inl hin
            · exact Or.inr hr
          · rintro (hr | hr)
            · exact Or.inl hr
            · exact Or.inr (Or.inr hr)
        refine ⟨⟨?_, ?_⟩, fun r => (hmem r).trans (hiff r).symm⟩
        · intro r hr
          rcases List.mem_cons.1 hr with rfl | hr
          · exact hissue
          · exact hcons.issues r hr
        · intro a ha b hb
          exact hcons.agree a ((hiff a).1 ha) b ((hiff b).1 hb)
      · cases h

theorem normaliseFrom_of_consistent : ∀ {out : List NormalisedRow},
    Consistent parseUrl rows out → ∃ res, normaliseFrom parseUrl out rows = .ok res := by
  induction rows with
  | nil => exact fun _ => ⟨_, rfl⟩
  | cons row rows ih =>
    intro out hcons
    unfold normaliseFrom
    rw [hcons.issues row List.mem_cons_self]
    dsimp only
    have hrow : row.normalised ∈ out ++ (row :: rows).map (·.normalised) := by simp
    have htail : ∀ r ∈ rows, rowIssue parseUrl r = none := fun r hr => hcons.issues r (List.mem_cons_of_mem _ hr)
    split
    · refine ih ⟨htail, ?_⟩
      have happ : out ++ (row :: rows).map (·.normalised) = out ++ [row.normalised] ++ rows.map (·.normalised) := by
        simp
      have hagree := hcons.agree
      rw [happ] at hagree
      exact hagree
    · rename_i existing hexisting
      have hbare : existing.bare = stripTrailingSlash row.fromPath := by simpa using List.find?_some hexisting
      have heq := hcons.agree existing (List.mem_append_left _ (List.mem_of_find?_eq_some hexisting)) _ hrow hbare
      rw [if_pos ⟨by rw [heq]; rfl, by rw [heq]; rfl⟩]
      refine ih ⟨htail, ?_⟩
      intro a ha b hb
      have hsub : ∀ c ∈ out ++ rows.map (·.normalised), c ∈ out ++ (row :: rows).map (·.normalised) := by
        intro c hc
        rcases List.mem_append.1 hc with hc | hc
        · exact List.mem_append_left _ hc
        · exact List.mem_append_right _ (List.mem_cons_of_mem _ hc)
      exact hcons.agree a (hsub a ha) b (hsub b hb)

theorem normaliseRows_ok_iff :
    (∃ res, normaliseRows parseUrl rows = .ok res) ↔ Consistent parseUrl rows [] := by
  constructor
  · rintro ⟨res, h⟩
    exact (normaliseFrom_spec (by simp) h).1
  · exact normaliseFrom_of_consistent

theorem mem_normaliseRows {res : List NormalisedRow}
    (h : normaliseRows parseUrl rows = .ok res) (r : NormalisedRow) : r ∈ res ↔ r ∈ rows.map (·.normalised) := by
  have hmem := (normaliseFrom_spec (by simp) h).2 r
  rwa [List.nil_append] at hmem

/-! ### The plan of accepted rows -/

theorem exists_of_bind_ok {α β : Type} {x : Except String α} {f : α → Except String β} {b : β} (h : (x >>= f) = .ok b) :
    ∃ a, x = .ok a ∧ f a = .ok b := by
  cases x with
  | error e => cases h
  | ok a => exact ⟨a, rfl, h⟩

theorem buildRedirectPlan_eq_ok {style : RedirectPageUrlStyle}
    {servedFiles : List (List Char)} {plan : RedirectPlan} :
    buildRedirectPlan parseUrl rows style servedFiles = .ok plan ↔
      ∃ normalised redirects, normaliseRows parseUrl rows = .ok normalised ∧
        ((liveRows normalised servedFiles).filter fun row => row.statusCode ≠ goneStatus).mapM
          (planRedirect style (liveRows normalised servedFiles)) = .ok redirects ∧
        plan =
          { redirects := redirects
            gone := ((liveRows normalised servedFiles).filter fun row => row.statusCode = goneStatus).map
              fun row => ⟨row.bare, matchPathsFor row.bare⟩
            shadowedByBuild := (normalised.filter fun row => servedByBuild row.bare servedFiles).map (·.bare) } := by
  constructor
  · intro h
    obtain ⟨normalised, hn, h⟩ := exists_of_bind_ok h
    obtain ⟨redirects, hr, h⟩ := exists_of_bind_ok h
    exact ⟨normalised, redirects, hn, hr, (Except.ok.inj h).symm⟩
  · rintro ⟨normalised, redirects, hn, hr, rfl⟩
    unfold buildRedirectPlan
    rw [hn]
    simp only [bind, Except.bind]
    rw [hr]
    rfl

/-! ### Stored paths -/

def trailingSlashTwin (path : List Char) : Option (List Char) :=
  if path = ['/'] then none
  else if path.getLast? = some '/' then some path.dropLast
  else some (path ++ ['/'])

/-- The paths each entry answers. -/
def RedirectPlan.entries (plan : RedirectPlan) : List (List (List Char)) :=
  plan.redirects.map (·.matchPaths) ++ plan.gone.map (·.matchPaths)

def RedirectPlan.AnswersOnce (plan : RedirectPlan) (path : List Char) : Prop :=
  ∃ paths, plan.entries.filter (·.contains path) = [paths] ∧
    (looksLikeFile path = false → ∀ twin, trailingSlashTwin path = some twin → twin ∈ paths)

/-- At most one trailing slash, and none after what names a file. -/
def PlainlySpelled (path : List Char) : Prop :=
  path = ['/'] ∨ path.getLast? ≠ some '/' ∨
    (path.dropLast.getLast? ≠ some '/' ∧ looksLikeFile path.dropLast = false ∧ path.dropLast ≠ [])

theorem trim_of_last_ne (h : path.getLast? ≠ some '/') : trimTrailingSlashes path = path := by
  rw [trim_eq, List.rdropWhile_eq_self_iff]
  intro hne hlast
  rw [List.getLast?_eq_some_getLast hne] at h
  exact h (congrArg some (by simpa using hlast))

theorem strip_of_last_ne (hhead : path.head? = some '/') (h : path.getLast? ≠ some '/') :
    stripTrailingSlash path = path := by
  have hne : path ≠ [] := by
    rintro rfl
    cases hhead
  rcases strip_cases hhead with ⟨ht, -⟩ | ⟨-, hs⟩
  · rw [trim_of_last_ne h] at ht
    exact absurd ht hne
  · rw [hs, trim_of_last_ne h]

theorem eq_append_slash (h : path.getLast? = some '/') : path = path.dropLast ++ ['/'] :=
  (List.dropLast_append_getLast? '/' h).symm

theorem head_dropLast (hhead : path.head? = some '/') (hne : path.dropLast ≠ []) :
    path.dropLast.head? = some '/' := by
  obtain ⟨rest, hrest⟩ := List.dropLast_prefix path
  rw [← hrest, List.head?_append_of_ne_nil _ hne] at hhead
  exact hhead

theorem dropLast_ne_nil (hhead : path.head? = some '/') (hroot : path ≠ ['/']) : path.dropLast ≠ [] := by
  intro h
  cases path with
  | nil => cases hhead
  | cons c rest =>
    cases rest with
    | nil =>
      obtain rfl : c = '/' := Option.some.inj hhead
      exact hroot rfl
    | cons d rest => simp at h

/-- A row is matched on its stored path exactly when that is plainly spelled, and then on its twin as well. -/
theorem mem_matchPathsFor_strip (hhead : path.head? = some '/') :
    path ∈ matchPathsFor (stripTrailingSlash path) ↔ PlainlySpelled path := by
  by_cases hroot : path = ['/']
  · subst hroot
    exact ⟨fun _ => Or.inl rfl, fun _ => by decide⟩
  by_cases hlast : path.getLast? = some '/'
  · have hne := dropLast_ne_nil hhead hroot
    have hhead' := head_dropLast hhead hne
    have hpath := eq_append_slash hlast
    have hstrip : stripTrailingSlash path = stripTrailingSlash path.dropLast := by
      conv_lhs => rw [hpath]
      exact strip_append_slash hhead'
    rw [hstrip]
    by_cases htwice : path.dropLast.getLast? = some '/'
    · -- two slashes at the end are more than a match path has
      constructor
      · intro h
        have hlen : (stripTrailingSlash path.dropLast).length < path.dropLast.length ∨ path.dropLast = ['/'] := by
          rcases strip_cases hhead' with ⟨ht, hs⟩ | ⟨ht, hs⟩
          · rw [hs]
            by_cases hone : path.dropLast = ['/']
            · exact Or.inr hone
            · left
              have hpos := List.length_pos_iff.2 (dropLast_ne_nil hhead' hone)
              rw [List.length_dropLast] at hpos
              rw [List.length_singleton]
              omega
          · left
            have hpath' := eq_append_slash htwice
            have htrim : trimTrailingSlashes path.dropLast = trimTrailingSlashes path.dropLast.dropLast := by
              conv_lhs => rw [hpath']
              exact trim_append_slash _
            rw [hs, htrim, trim_eq]
            have hle := (List.rdropWhile_prefix (fun c : Char => c == '/') path.dropLast.dropLast).length_le
            have hlen := congrArg List.length hpath'
            rw [List.length_append, List.length_singleton] at hlen
            omega
        rcases hlen with hlen | hone
        · have hlenPath := congrArg List.length hpath
          rw [List.length_append, List.length_singleton] at hlenPath
          rcases mem_matchPathsFor h with heq | heq
          · have := congrArg List.length heq
            omega
          · have := congrArg List.length heq
            rw [List.length_append, List.length_singleton] at this
            omega
        · rw [hone] at h hpath
          rw [hpath] at h
          exact absurd h (by decide)
      · rintro (h | h | h)
        · exact absurd h hroot
        · exact absurd hlast h
        · exact absurd htwice h.1
    · rw [strip_of_last_ne hhead' htwice]
      unfold matchPathsFor
      have hne' : path ≠ path.dropLast := by
        intro heq
        have hlen := congrArg List.length hpath
        rw [List.length_append, List.length_singleton, ← heq] at hlen
        omega
      have hdrop : path.dropLast ≠ ['/'] := by
        intro heq
        rw [heq] at htwice
        exact htwice rfl
      split
      · rename_i hfile
        have hfile : looksLikeFile path.dropLast = true := hfile.resolve_left hdrop
        constructor
        · intro h
          exact absurd (List.mem_singleton.1 h) hne'
        · rintro (h | h | h)
          · exact absurd h hroot
          · exact absurd hlast h
          · rw [hfile] at h
            exact absurd h.2.1 (by decide)
      · rename_i hfile
        have hfile : looksLikeFile path.dropLast = false := by simpa using (not_or.1 hfile).2
        constructor
        · intro _
          exact Or.inr (Or.inr ⟨htwice, hfile, hne⟩)
        · intro _
          rw [← hpath]
          simp
  · rw [strip_of_last_ne hhead hlast]
    constructor
    · intro _
      exact Or.inr (Or.inl hlast)
    · intro _
      unfold matchPathsFor
      split <;> simp

theorem twin_mem_matchPathsFor (hhead : path.head? = some '/') (hplain : PlainlySpelled path)
    (hfile : looksLikeFile path = false) {twin : List Char} (htwin : trailingSlashTwin path = some twin) :
    twin ∈ matchPathsFor (stripTrailingSlash path) := by
  unfold trailingSlashTwin at htwin
  split at htwin
  · cases htwin
  rename_i hroot
  split at htwin
  · rename_i hlast
    obtain rfl := Option.some.inj htwin
    obtain ⟨htwice, -, hne⟩ := (hplain.resolve_left hroot).resolve_left (fun h => h hlast)
    have hhead' := head_dropLast hhead hne
    have hstrip : stripTrailingSlash path = path.dropLast := by
      conv_lhs => rw [eq_append_slash hlast]
      rw [strip_append_slash hhead', strip_of_last_ne hhead' htwice]
    rw [hstrip]
    unfold matchPathsFor
    split <;> simp
  · rename_i hlast
    obtain rfl := Option.some.inj htwin
    rw [strip_of_last_ne hhead hlast]
    unfold matchPathsFor
    rw [if_neg (by simp [hroot, hfile])]
    simp

/-! ### Every stored row is answered -/

theorem filter_eq_singleton {α : Type} [BEq α] [LawfulBEq α] {l : List (List α)} (h : l.Pairwise List.Disjoint)
    {e : List α} (he : e ∈ l) {x : α} (hx : x ∈ e) : l.filter (·.contains x) = [e] := by
  have hsub : (l.filter (·.contains x)).Pairwise List.Disjoint := h.sublist List.filter_sublist
  have hall : ∀ a ∈ l.filter (·.contains x), x ∈ a := fun a ha => by simpa using (List.mem_filter.1 ha).2
  have hmem : e ∈ l.filter (·.contains x) := List.mem_filter.2 ⟨he, by simpa using hx⟩
  generalize l.filter (·.contains x) = found at hsub hall hmem
  match found with
  | [] => cases hmem
  | [a] => rw [List.mem_singleton.1 hmem]
  | a :: b :: rest =>
    have hdisjoint := (List.pairwise_cons.1 hsub).1 b List.mem_cons_self
    exact absurd (hall b (by simp)) (hdisjoint (hall a List.mem_cons_self))

section Plan

variable {rows : List RedirectTableRow} {style : RedirectPageUrlStyle} {servedFiles : List (List Char)} {plan : RedirectPlan}

theorem pairwise_entries (h : buildRedirectPlan parseUrl rows style servedFiles = .ok plan) :
    plan.entries.Pairwise List.Disjoint := by
  obtain ⟨live, hplan⟩ := buildRedirectPlan_ok h
  have hnodup := hplan.nodup_matchPaths
  rw [List.flatMap_def, List.flatMap_def, ← List.flatten_append] at hnodup
  exact (List.nodup_flatten.1 hnodup).2

theorem mem_entries (h : buildRedirectPlan parseUrl rows style servedFiles = .ok plan) (paths : List (List Char)) :
    paths ∈ plan.entries ↔ ∃ row ∈ rows, servedByBuild (stripTrailingSlash row.fromPath) servedFiles = false ∧
      paths = matchPathsFor (stripTrailingSlash row.fromPath) := by
  obtain ⟨normalised, redirects, hn, hr, rfl⟩ := buildRedirectPlan_eq_ok.1 h
  have hlive : ∀ r, r ∈ liveRows normalised servedFiles ↔
      ∃ row ∈ rows, servedByBuild (stripTrailingSlash row.fromPath) servedFiles = false ∧ row.normalised = r := by
    intro r
    unfold liveRows
    rw [List.mem_filter, mem_normaliseRows hn, List.mem_map]
    constructor
    · rintro ⟨⟨row, hrow, rfl⟩, hserved⟩
      exact ⟨row, hrow, by simpa [RedirectTableRow.normalised] using hserved, rfl⟩
    · rintro ⟨row, hrow, hserved, rfl⟩
      exact ⟨⟨row, hrow, rfl⟩, by simpa [RedirectTableRow.normalised] using hserved⟩
  have hmatch : redirects.map (·.matchPaths) =
      ((liveRows normalised servedFiles).filter fun row => row.statusCode ≠ goneStatus).map
        fun row => matchPathsFor row.bare := by
    refine map_of_mapM_ok (fun row r hrow => ?_) hr
    obtain ⟨collapsed, -, rfl⟩ := exists_of_map_ok hrow
    rfl
  unfold RedirectPlan.entries
  dsimp only
  rw [hmatch, List.mem_append, List.map_map]
  constructor
  · rintro (hp | hp) <;> obtain ⟨r, hr, rfl⟩ := List.mem_map.1 hp <;>
      obtain ⟨row, hrow, hserved, rfl⟩ := (hlive r).1 (List.mem_filter.1 hr).1 <;>
      exact ⟨row, hrow, hserved, rfl⟩
  · rintro ⟨row, hrow, hserved, rfl⟩
    have hmem := (hlive row.normalised).2 ⟨row, hrow, hserved, rfl⟩
    by_cases hgone : row.statusCode = goneStatus
    · right
      exact List.mem_map.2 ⟨row.normalised, List.mem_filter.2 ⟨hmem, decide_eq_true hgone⟩, rfl⟩
    · left
      exact List.mem_map.2 ⟨row.normalised, List.mem_filter.2 ⟨hmem, decide_eq_true hgone⟩, rfl⟩

theorem head_of_accepted (h : buildRedirectPlan parseUrl rows style servedFiles = .ok plan) {row : RedirectTableRow}
    (hrow : row ∈ rows) : row.fromPath.head? = some '/' := by
  obtain ⟨normalised, _, hn, -, -⟩ := buildRedirectPlan_eq_ok.1 h
  have hissue := (normaliseRows_ok_iff.1 ⟨normalised, hn⟩).issues row hrow
  unfold rowIssue at hissue
  dsimp only at hissue
  split at hissue
  · cases hissue
  · rename_i hpath
    simpa using (not_or.1 hpath).1

/-- The stored paths of an accepted table are each answered by one entry, and no path by two, exactly when the stored paths
that the build does not serve are plainly spelled. -/
theorem buildRedirectPlan_answers_once (h : buildRedirectPlan parseUrl rows style servedFiles = .ok plan) :
    ((∀ row ∈ rows, servedByBuild (stripTrailingSlash row.fromPath) servedFiles = false →
        plan.AnswersOnce row.fromPath) ∧ plan.entries.Pairwise List.Disjoint) ↔
      ∀ row ∈ rows, servedByBuild (stripTrailingSlash row.fromPath) servedFiles = false →
        PlainlySpelled row.fromPath := by
  constructor
  · rintro ⟨hanswers, -⟩ row hrow hserved
    obtain ⟨paths, hpaths, -⟩ := hanswers row hrow hserved
    have hmem : paths ∈ plan.entries.filter (·.contains row.fromPath) := by
      rw [hpaths]
      exact List.mem_singleton_self _
    obtain ⟨hentry, hcontains⟩ := List.mem_filter.1 hmem
    have hcontains : row.fromPath ∈ paths := by simpa using hcontains
    obtain ⟨other, hother, -, rfl⟩ := (mem_entries h paths).1 hentry
    have hhead := head_of_accepted h hother
    have hstrip := strip_of_mem_matchPathsFor (head_strip hhead) (strip_strip hhead) hcontains
    rw [← hstrip] at hcontains
    exact (mem_matchPathsFor_strip (head_of_accepted h hrow)).1 hcontains
  · intro hplain
    refine ⟨fun row hrow hserved => ?_, pairwise_entries h⟩
    have hhead := head_of_accepted h hrow
    have hentry := (mem_entries h _).2 ⟨row, hrow, hserved, rfl⟩
    have hown := (mem_matchPathsFor_strip hhead).2 (hplain row hrow hserved)
    refine ⟨_, filter_eq_singleton (pairwise_entries h) hentry hown, ?_⟩
    intro hfile twin htwin
    exact twin_mem_matchPathsFor hhead (hplain row hrow hserved) hfile htwin

theorem buildRedirectPlan_answers_once_sample :
    ((∀ row ∈ sampleRows, servedByBuild (stripTrailingSlash row.fromPath) [] = false →
        samplePlan.AnswersOnce row.fromPath) ∧ samplePlan.entries.Pairwise List.Disjoint) ↔
      ∀ row ∈ sampleRows, servedByBuild (stripTrailingSlash row.fromPath) [] = false → PlainlySpelled row.fromPath := by
  have hplan : buildRedirectPlan (fun _ => none) sampleRows .directory [] = .ok samplePlan := rfl
  exact buildRedirectPlan_answers_once hplan

/-- A version number under a path with a trailing slash. -/
def versionRows : List RedirectTableRow := [⟨"/docs/v1.0/".toList, "/docs".toList, 301⟩]

def versionPlan : RedirectPlan :=
  (buildRedirectPlan (fun _ => none) versionRows .directory []).toOption.get (by decide)

theorem buildRedirectPlan_misses_stored :
    ¬ ∀ (parseUrl : List Char → Option Url) (rows : List RedirectTableRow) (style : RedirectPageUrlStyle)
      (servedFiles : List (List Char)) (plan : RedirectPlan), buildRedirectPlan parseUrl rows style servedFiles = .ok plan →
        (∀ row ∈ rows, servedByBuild (stripTrailingSlash row.fromPath) servedFiles = false →
          plan.AnswersOnce row.fromPath) ∧ plan.entries.Pairwise List.Disjoint := by
  intro hall
  obtain ⟨hanswers, -⟩ := hall (fun _ => none) versionRows .directory [] versionPlan rfl
  obtain ⟨paths, hpaths, -⟩ := hanswers _ List.mem_cons_self (by decide)
  have hnone : versionPlan.entries.filter (·.contains "/docs/v1.0/".toList) = [] := by decide
  rw [hnone] at hpaths
  cases hpaths

end Plan

end CaeloCms.Redirect
