import CaeloCms.Lib.Words
import CaeloCms.Link.Canonicalise
import CaeloCms.Link.Resolve

/-!
# A clean save and the links it renders

A save without issues stores HTML whose references the save has checked, but for those outside of the positions it
reads: in text, in other or unquoted attributes, in values with a placeholder, inside a longer value.  The render reports
no failure exactly when these have their targets (`cleanSave_resolves`).
-/

namespace CaeloCms.Link

open Redirect (isSpace Url)

/-! ### What the save looks at -/

section Checked

variable (parseUrl : List Char → Option Url) (lookup : LinkTargetLookup)

/-- The trimmed value is a link to this site that names a page or a media path. -/
def namesTarget (scope : Scope) (v : List Char) : Bool :=
  (localPart parseUrl lookup v).any fun path =>
    let t := splitPathTail path
    (mediaSegments t.path).isSome ||
      (scope == .pagesAndMedia && !isReservedPath t.path && (lookup.pageIdForPath (normaliseLinkPath t.path)).isSome)

/-- The save looks the value up: a whole reference, or a link to a page or a media path. -/
def checked (scope : Scope) (value : List Char) : Bool :=
  let v := trim value
  !hasPlaceholder v && ((parseRef v).isSome || namesTarget parseUrl lookup scope v)

def refsIn (before s : List Char) : List LinkRef := (Scan.finds matchRef before s).filterMap (·.1)

/-- The references in a value that the save does not look up. -/
def looseInUrl (scope : Scope) (before value : List Char) : List LinkRef :=
  if checked parseUrl lookup scope value then [] else refsIn before value

def looseInCandidate (before entry : List Char) : List LinkRef :=
  let lead := entry.takeWhile isSpace
  let body := entry.dropWhile isSpace
  let url := body.takeWhile fun c => !isSpace c
  let rest := body.dropWhile fun c => !isSpace c
  looseInUrl parseUrl lookup .media (lead.reverse ++ before) url ++ refsIn (url.reverse ++ (lead.reverse ++ before)) rest

def looseInCandidates (before : List Char) : List (List Char) → List LinkRef
  | [] => []
  | e :: es => looseInCandidate parseUrl lookup before e ++ looseInCandidates [','] es

def looseInAttr (a : Attr) : List LinkRef :=
  match a.name with
  | .href => looseInUrl parseUrl lookup .pagesAndMedia [a.quote] a.value
  | .srcset => looseInCandidates parseUrl lookup [a.quote] (a.value.splitOn ',')
  | .src => looseInUrl parseUrl lookup .media [a.quote] a.value
  | .poster => looseInUrl parseUrl lookup .media [a.quote] a.value

/-- The references in the HTML that the save does not look up. -/
def looseRefs (html : List Char) : List LinkRef :=
  let ps := htmlPieces html
  refsIn [] (htmlText (skeleton ps)) ++ ps.flatMap fun p => match p with
    | .text _ => []
    | .attr a => looseInAttr parseUrl lookup a

end Checked

/-! ### Runs without issues -/

structure Run.Grows (run run' : Run) : Prop where
  grandfathered : run'.grandfathered = run.grandfathered
  issues : run.issues <+: run'.issues

theorem Run.Grows.refl (run : Run) : run.Grows run := ⟨rfl, List.prefix_rfl⟩

theorem Run.Grows.trans {r₁ r₂ r₃ : Run} (h : r₁.Grows r₂) (h' : r₂.Grows r₃) : r₁.Grows r₃ :=
  ⟨h'.grandfathered.trans h.grandfathered, h.issues.trans h'.issues⟩

theorem Run.Grows.clean {run run' : Run} (h : run.Grows run') (hclean : run'.issues = []) : run.issues = [] :=
  List.prefix_nil.1 (hclean ▸ h.issues)

theorem Run.grows_issue (run : Run) (kind : IssueKind) (value : List Char) (place : String) :
    run.Grows (run.issue kind value place) := by
  unfold Run.issue
  split
  · exact Run.Grows.refl run
  · exact ⟨rfl, List.prefix_append _ _⟩

theorem Run.issue_ne_nil {run : Run} (h : run.grandfathered = []) (kind : IssueKind) (value : List Char) (place : String) :
    (run.issue kind value place).issues ≠ [] := by
  unfold Run.issue
  rw [h, if_neg List.not_mem_nil]
  exact List.append_ne_nil_of_right_ne_nil _ (List.cons_ne_nil _ _)

section Spec

variable {parseUrl : List Char → Option Url} {lookup : LinkTargetLookup}

/-- What a value becomes in a run without issues: it stays, unchecked, or is a reference with a target. -/
def UrlOutcome (parseUrl : List Char → Option Url) (lookup : LinkTargetLookup) (scope : Scope) (value out : List Char) : Prop :=
  (out = value ∧ checked parseUrl lookup scope value = false) ∨
  (checked parseUrl lookup scope value = true ∧ ∃ ref, parseRef out = some ref ∧ targetExists lookup ref = true)

variable {before out v value s : List Char} {run run' : Run} {place : String} {c : Char} {ref : LinkRef}

theorem formatLinkRef_page {pageId : String} {query anchor : Option String}
    (hid : isUuid pageId.toList = true) (hquery : PartOk queryOk query) (hanchor : PartOk anchorOk anchor)
    (h : formatLinkRef (.page pageId query anchor) = some out) : parseRef out = some (.page pageId query anchor) := by
  unfold formatLinkRef at h
  rw [Option.ite_none_right_eq_some, Option.some.injEq] at h
  rw [← h.2]
  exact parseRef_page hid hquery hanchor

theorem formatLinkRef_media {mediaId : String} {variant : Option String}
    (hid : isUuid mediaId.toList = true) (hvariant : PartOk variantOk variant)
    (h : formatLinkRef (.media mediaId variant) = some out) : parseRef out = some (.media mediaId variant) := by
  unfold formatLinkRef at h
  rw [Option.ite_none_right_eq_some, Option.some.injEq] at h
  rw [← h.2]
  exact parseRef_media hid hvariant

theorem partOk_of_all {ok : List Char → Bool} {part : Option (List Char)} (h : part.all ok = true) :
    PartOk ok (part.map String.ofList) := by
  intro s hs
  obtain ⟨p, rfl, rfl⟩ := Option.map_eq_some_iff.1 hs
  simpa using h

theorem mediaSegments_variant {path first : List Char} {variant : Option (List Char)}
    (h : mediaSegments path = some (first, variant)) : variant.all variantOk = true := by
  unfold mediaSegments at h
  split at h
  · cases h
  · rename_i rest hrest
    dsimp only at h
    rw [Option.ite_none_left_eq_some, Option.some.injEq, Prod.mk.injEq] at h
    obtain ⟨hok, -, hvariant⟩ := h
    rw [hvariant] at hok
    cases variant with
    | none => rfl
    | some v =>
      simp only [Option.any_some, Bool.or_eq_true, Bool.not_eq_true', not_or, Bool.not_eq_false] at hok
      exact hok.2

theorem canonicaliseMediaPath_spec {first : List Char} {variant : Option (List Char)} {raw : List Char}
    {hasSuffix : Bool} (hvariant : variant.all variantOk = true)
    (h : canonicaliseMediaPath lookup first variant raw hasSuffix run place = some (out, run')) :
    run.Grows run' ∧ (run.grandfathered = [] → run'.issues = [] →
      ∃ ref, parseRef out = some ref ∧ targetExists lookup ref = true) := by
  have refuse : ∀ kind, some (raw, run.issue kind raw place) = some (out, run') →
      run.Grows run' ∧ (run.grandfathered = [] → run'.issues = [] →
        ∃ ref, parseRef out = some ref ∧ targetExists lookup ref = true) := by
    intro kind heq
    cases heq
    exact ⟨run.grows_issue .., fun hg hclean => absurd hclean (Run.issue_ne_nil hg _ _ _)⟩
  unfold canonicaliseMediaPath at h
  dsimp only at h
  split at h
  · exact refuse _ h
  · rename_i id hid
    split at h
    · exact refuse _ h
    · rename_i hexists
      have hexists : lookup.mediaExists id = true := by simpa using hexists
      split at h
      · exact refuse _ h
      · obtain ⟨o, hformat, heq⟩ := Option.map_eq_some_iff.1 h
        cases heq
        refine ⟨Run.Grows.refl run, fun _ _ => ⟨_, formatLinkRef_media (lookup.mediaIds id hexists) ?_ hformat, hexists⟩⟩
        apply partOk_of_all
        split
        · rfl
        · exact hvariant

theorem canonicalisePagePath_spec {t : PathTail}
    (h : canonicalisePagePath lookup value v t run place = some (out, run')) :
    run.Grows run' ∧ (run.grandfathered = [] → run'.issues = [] →
      (out = value ∧ lookup.pageIdForPath (normaliseLinkPath t.path) = none) ∨
      ((lookup.pageIdForPath (normaliseLinkPath t.path)).isSome = true ∧
        ∃ ref, parseRef out = some ref ∧ targetExists lookup ref = true)) := by
  unfold canonicalisePagePath at h
  dsimp only at h
  split at h
  · rename_i hnone
    have keep : ∀ run₁, run.Grows run₁ → some (value, run₁) = some (out, run') →
        run.Grows run' ∧ (run.grandfathered = [] → run'.issues = [] →
          (out = value ∧ lookup.pageIdForPath (normaliseLinkPath t.path) = none) ∨
          ((lookup.pageIdForPath (normaliseLinkPath t.path)).isSome = true ∧
            ∃ ref, parseRef out = some ref ∧ targetExists lookup ref = true)) := by
      intro run₁ hgrows heq
      cases heq
      exact ⟨hgrows, fun _ _ => Or.inl ⟨rfl, hnone⟩⟩
    split at h
    · exact keep { run with pending := run.pending ++ [⟨v, normaliseLinkPath t.path, place⟩] } ⟨rfl, List.prefix_rfl⟩ h
    · split at h
      · refine keep _ ?_ h
        split
        · exact Run.Grows.refl run
        · exact run.grows_issue ..
      · split at h
        · exact keep _ (Run.Grows.refl run) h
        · exact keep _ (run.grows_issue ..) h
  · rename_i pageId hpage
    split at h
    · cases h
      exact ⟨run.grows_issue .., fun hg hclean => absurd hclean (Run.issue_ne_nil hg _ _ _)⟩
    · rename_i hok
      rw [Bool.not_eq_true, Bool.not_eq_false', suffixOk, Bool.and_eq_true] at hok
      obtain ⟨o, hformat, heq⟩ := Option.map_eq_some_iff.1 h
      cases heq
      have hexists := lookup.served _ pageId hpage
      exact ⟨Run.Grows.refl run, fun _ _ => Or.inr ⟨by rw [hpage]; rfl, _,
        formatLinkRef_page (lookup.pageIds pageId hexists) (partOk_of_all hok.1) (partOk_of_all hok.2) hformat, hexists⟩⟩

theorem canonicaliseUrl_spec {scope : Scope}
    (h : canonicaliseUrl parseUrl lookup value run place scope = some (out, run')) :
    run.Grows run' ∧ (run.grandfathered = [] → run'.issues = [] → UrlOutcome parseUrl lookup scope value out) := by
  unfold canonicaliseUrl at h
  dsimp only at h
  split at h
  · rename_i hskip
    cases h
    refine ⟨Run.Grows.refl run, fun _ _ => Or.inl ⟨rfl, ?_⟩⟩
    unfold checked
    rcases hskip with hnil | hplace
    · simp [hnil, namesTarget, localPart, isHttp, parseRef, scanRef, List.isPrefixOf?]
    · simp [hplace]
  · rename_i hskip
    rw [not_or, Bool.not_eq_true] at hskip
    split at h
    · rename_i ref hparse
      cases h
      split
      · rename_i hexists
        exact ⟨Run.Grows.refl run, fun _ _ => Or.inr ⟨by simp [checked, hskip.2, hparse], ref, hparse, hexists⟩⟩
      · exact ⟨run.grows_issue .., fun hg hclean => absurd hclean (Run.issue_ne_nil hg _ _ _)⟩
    · rename_i hparse
      have hchecked : checked parseUrl lookup scope value = namesTarget parseUrl lookup scope (trim value) := by
        simp [checked, hskip.2, hparse]
      unfold UrlOutcome
      rw [hchecked]
      unfold namesTarget
      split at h
      · cases h
        exact ⟨run.grows_issue .., fun hg hclean => absurd hclean (Run.issue_ne_nil hg _ _ _)⟩
      · split at h
        · rename_i hlocal
          cases h
          exact ⟨Run.Grows.refl run, fun _ _ => Or.inl ⟨rfl, by rw [hlocal]; rfl⟩⟩
        · rename_i path hlocal
          simp only [hlocal, Option.any_some]
          split at h
          · rename_i first variant hsegs
            obtain ⟨hgrows, hspec⟩ := canonicaliseMediaPath_spec (mediaSegments_variant hsegs) h
            exact ⟨hgrows, fun hg hclean => Or.inr ⟨by rw [hsegs]; rfl, hspec hg hclean⟩⟩
          · rename_i hsegs
            simp only [hsegs, Option.isSome_none, Bool.false_or]
            split at h
            · rename_i hkept
              cases h
              refine ⟨Run.Grows.refl run, fun _ _ => Or.inl ⟨rfl, ?_⟩⟩
              rcases hkept with rfl | hreserved
              · rfl
              · simp [hreserved]
            · rename_i hkept
              rw [not_or, Bool.not_eq_true] at hkept
              have hscope : scope = .pagesAndMedia := by
                cases scope with
                | pagesAndMedia => rfl
                | media => exact absurd rfl hkept.1
              obtain ⟨hgrows, hspec⟩ := canonicalisePagePath_spec h
              refine ⟨hgrows, fun hg hclean => ?_⟩
              rcases hspec hg hclean with ⟨hout, hnone⟩ | ⟨hsome, href⟩
              · exact Or.inl ⟨hout, by simp [hnone]⟩
              · exact Or.inr ⟨by simp [hscope, hkept.2, hsome], href⟩

/-! ### What is found in a value -/

/-- A match that the render resolves. -/
def Sound (lookup : LinkTargetLookup) (x : Option LinkRef × List Char) : Prop :=
  ∃ ref, x.1 = some ref ∧ targetExists lookup ref = true

/-- The text has no malformed reference. -/
def WellFormedIn (before s : List Char) : Prop := ∀ x ∈ Scan.finds matchRef before s, x.1.isSome = true

def SoundIn (lookup : LinkTargetLookup) (before s : List Char) : Prop := ∀ x ∈ Scan.finds matchRef before s, Sound lookup x

def Exist (lookup : LinkTargetLookup) (refs : List LinkRef) : Prop := ∀ ref ∈ refs, targetExists lookup ref = true

theorem exist_append {refs refs' : List LinkRef} :
    Exist lookup (refs ++ refs') ↔ Exist lookup refs ∧ Exist lookup refs' := List.forall_mem_append

theorem soundIn_iff (h : WellFormedIn before s) :
    SoundIn lookup before s ↔ Exist lookup (refsIn before s) := by
  constructor
  · intro hs ref href
    obtain ⟨x, hx, hxref⟩ := List.mem_filterMap.1 href
    obtain ⟨ref', heq, hexists⟩ := hs x hx
    rw [hxref, Option.some.injEq] at heq
    exact heq ▸ hexists
  · intro hs x hx
    obtain ⟨ref, href⟩ := Option.isSome_iff_exists.1 (h x hx)
    exact ⟨ref, href, hs ref (List.mem_filterMap.2 ⟨x, hx, href⟩)⟩

theorem scanRef_of_parseRef (h : parseRef v = some ref) : scanRef v = some (ref, []) := by
  unfold parseRef at h
  split at h
  · rename_i r hscan
    cases h
    exact hscan
  · cases h

theorem parseRef_no_delimiter (h : parseRef v = some ref) {d : Char}
    (hd : isDelimiter d = true) : d ∉ v := by
  intro hmem
  obtain ⟨s, rest, rfl⟩ := List.append_of_mem hmem
  have hscan := scanRef_of_parseRef h
  rw [scanRef_append hd, Option.map_eq_some_iff] at hscan
  obtain ⟨r, -, heq⟩ := hscan
  have hnil : r.2 ++ d :: rest = [] := congrArg Prod.snd heq
  exact absurd hnil (List.append_ne_nil_of_right_ne_nil _ (List.cons_ne_nil _ _))

/-- A place where a reference can start. -/
def Starts (before : List Char) : Prop := before.head?.any isSchemeChar = false

theorem finds_ref (hb : Starts before) (h : parseRef v = some ref) :
    Scan.finds matchRef before v = [(some ref, v)] := by
  have hscan := scanRef_of_parseRef h
  have hlen := scanRef_rest hscan
  have hmatch : matchRef before v = some (some ref, v.length) := by
    unfold matchRef
    rw [if_neg (by rw [hb]; exact Bool.false_ne_true), hscan]
    rfl
  rw [Scan.finds, Scan.scan_whole (List.ne_nil_of_length_pos (by simpa using hlen)) hmatch]
  rfl

theorem isSchemeChar_not_delimiter (h : isSchemeChar c = true) : isDelimiter c = false :=
  isDelimiter_of_class (by decide) h

theorem starts_of_delimiter {d : Char} (hd : isDelimiter d = true) (before : List Char) : Starts (d :: before) := by
  unfold Starts
  rw [List.head?_cons, Option.any_some]
  by_contra h
  rw [Bool.not_eq_false] at h
  rw [isSchemeChar_not_delimiter h] at hd
  cases hd

theorem outcome_sound {scope : Scope} (hb : Starts before)
    (h : UrlOutcome parseUrl lookup scope value out) (hwell : WellFormedIn before value) :
    SoundIn lookup before out ↔ Exist lookup (looseInUrl parseUrl lookup scope before value) := by
  unfold looseInUrl
  rcases h with ⟨rfl, hunchecked⟩ | ⟨hchecked, ref, hparse, hexists⟩
  · rw [hunchecked]
    exact soundIn_iff hwell
  · rw [if_pos hchecked]
    refine ⟨fun _ ref' href => absurd href List.not_mem_nil, fun _ x hx => ?_⟩
    rw [finds_ref hb hparse, List.mem_singleton] at hx
    exact ⟨ref, by rw [hx], hexists⟩

/-! ### What is found in a `srcset` -/

theorem isDelimiter_of_isSpace (h : isSpace c = true) : isDelimiter c = true := by
  unfold isDelimiter
  rw [h, Bool.true_or]

theorem finds_space {lead : List Char} (h : ∀ c ∈ lead, isSpace c = true) (before s : List Char) :
    Scan.finds matchRef before (lead ++ s) = Scan.finds matchRef (lead.reverse ++ before) s := by
  induction lead generalizing before with
  | nil => rfl
  | cons c lead ih =>
    have hd := matchRef_delimits (isDelimiter_of_isSpace (h c List.mem_cons_self))
    have hc := Scan.finds_append hd before [] (lead ++ s)
    rw [List.nil_append] at hc
    rw [List.cons_append, hc, List.reverse_nil, List.nil_append, ih fun e he => h e (List.mem_cons_of_mem _ he)]
    simp [Scan.finds]

/-- The text before a text that starts with white space matters by one comma only. -/
theorem finds_after {before' rest : List Char} (hrest : ∀ c, rest.head? = some c → isSpace c = true)
    (hb : before.head? ≠ some ',') (hb' : before'.head? ≠ some ',') :
    Scan.finds matchRef before rest = Scan.finds matchRef before' rest := by
  cases rest with
  | nil => simp [Scan.finds]
  | cons w rest =>
    have hspace := hrest w rfl
    have halike : Alike (w :: before) (w :: before') := by
      refine ⟨rfl, ?_⟩
      have h : (before.head? == some ',') = false := by simpa using hb
      have h' : (before'.head? == some ',') = false := by simpa using hb'
      simp only [linkPosition, h, h']
    have hw : ∀ c ∈ [w], isSpace c = true := by
      intro c hc
      rwa [List.mem_singleton.1 hc]
    have h₁ := finds_space hw before rest
    have h₂ := finds_space hw before' rest
    rw [List.singleton_append] at h₁ h₂
    rw [h₁, h₂]
    exact finds_alike halike rest

theorem head?_dropWhile_space {p : Char → Bool} (h : (s.dropWhile p).head? = some c) :
    p c = false := by
  have := List.head?_dropWhile_not p s
  rw [h] at this
  exact this

theorem starts_append {lead : List Char} (h : ∀ c ∈ lead, isSpace c = true) (hb : Starts before) :
    Starts (lead.reverse ++ before) := by
  cases hl : lead.reverse with
  | nil => exact hb
  | cons c cs =>
    have hc : c ∈ lead := by
      rw [← List.mem_reverse, hl]
      exact List.mem_cons_self
    exact starts_of_delimiter (isDelimiter_of_isSpace (h c hc)) _

theorem finds_url_rest {url rest : List Char} (hrest : ∀ c, rest.head? = some c → isSpace c = true) :
    Scan.finds matchRef before (url ++ rest) =
      Scan.finds matchRef before url ++ Scan.finds matchRef (url.reverse ++ before) rest := by
  cases rest with
  | nil => simp [Scan.finds]
  | cons w rest =>
    have hspace := hrest w rfl
    have hw : ∀ c ∈ [w], isSpace c = true := by
      intro c hc
      rwa [List.mem_singleton.1 hc]
    have h := finds_space hw (url.reverse ++ before) rest
    rw [List.singleton_append] at h
    rw [Scan.finds_append (matchRef_delimits (isDelimiter_of_isSpace hspace)), h]
    rfl

theorem head?_reverse_append (hne : s ≠ []) (hc : c ∉ s) :
    (s.reverse ++ before).head? ≠ some c := by
  intro h
  cases hr : s.reverse with
  | nil => exact hne (List.reverse_eq_nil_iff.1 hr)
  | cons e es =>
    rw [hr, List.cons_append, List.head?_cons, Option.some.injEq] at h
    apply hc
    rw [← List.mem_reverse, hr, h]
    exact List.mem_cons_self

theorem candidate_sound {entry url' : List Char} (hb : Starts before) (hcomma : ',' ∉ entry)
    (h : UrlOutcome parseUrl lookup .media ((entry.dropWhile isSpace).takeWhile fun c => !isSpace c) url')
    (hwell : WellFormedIn before entry) :
    SoundIn lookup before
        (entry.takeWhile isSpace ++ url' ++ (entry.dropWhile isSpace).dropWhile fun c => !isSpace c) ↔
      Exist lookup (looseInCandidate parseUrl lookup before entry) := by
  unfold looseInCandidate
  dsimp only
  have hentry : entry = entry.takeWhile isSpace ++ (((entry.dropWhile isSpace).takeWhile fun c => !isSpace c) ++
      (entry.dropWhile isSpace).dropWhile fun c => !isSpace c) := by
    rw [List.takeWhile_append_dropWhile, List.takeWhile_append_dropWhile]
  have hlead : ∀ c ∈ entry.takeWhile isSpace, isSpace c = true := fun c hc => List.mem_takeWhile_imp hc
  have hrest : ∀ c, ((entry.dropWhile isSpace).dropWhile fun c => !isSpace c).head? = some c → isSpace c = true := by
    intro c hc
    simpa using head?_dropWhile_space hc
  have hbody : ((entry.dropWhile isSpace).dropWhile fun c => !isSpace c) ≠ [] →
      ((entry.dropWhile isSpace).takeWhile fun c => !isSpace c) ≠ [] := by
    intro hne hnil
    cases hd : entry.dropWhile isSpace with
    | nil =>
      rw [hd] at hne
      exact hne rfl
    | cons c cs =>
      have hc : isSpace c = false := head?_dropWhile_space (by rw [hd]; rfl)
      rw [hd, List.takeWhile_cons, hc] at hnil
      cases hnil
  have hurl : ',' ∉ (entry.dropWhile isSpace).takeWhile fun c => !isSpace c := by
    intro hc
    exact hcomma ((List.dropWhile_sublist _).subset ((List.takeWhile_sublist _).subset hc))
  generalize entry.takeWhile isSpace = lead at *
  generalize ((entry.dropWhile isSpace).takeWhile fun c => !isSpace c) = url at *
  generalize ((entry.dropWhile isSpace).dropWhile fun c => !isSpace c) = rest at *
  subst hentry
  have hstart := starts_append hlead hb
  -- what is found in the candidate, before and after
  have hbefore : Scan.finds matchRef before (lead ++ (url ++ rest)) =
      Scan.finds matchRef (lead.reverse ++ before) url ++
        Scan.finds matchRef (url.reverse ++ (lead.reverse ++ before)) rest := by
    rw [finds_space hlead, finds_url_rest hrest]
  have hafter : Scan.finds matchRef before (lead ++ url' ++ rest) =
      Scan.finds matchRef (lead.reverse ++ before) url' ++
        Scan.finds matchRef (url.reverse ++ (lead.reverse ++ before)) rest := by
    rw [List.append_assoc, finds_space hlead, finds_url_rest hrest]
    congr 1
    rcases h with ⟨rfl, -⟩ | ⟨-, ref, hparse, -⟩
    · rfl
    · by_cases hne : rest = []
      · subst hne
        simp [Scan.finds]
      · have hurl' : ',' ∉ url' := parseRef_no_delimiter hparse (by decide)
        have hne' : url' ≠ [] := by
          rintro rfl
          cases hparse
        exact finds_after hrest (head?_reverse_append hne' hurl') (head?_reverse_append (hbody hne) hurl)
  unfold SoundIn
  rw [hafter, List.forall_mem_append, exist_append]
  unfold WellFormedIn at hwell
  rw [hbefore, List.forall_mem_append] at hwell
  exact and_congr (outcome_sound hstart h hwell.1) (soundIn_iff hwell.2)

theorem intercalate_cons_cons (d : Char) (x y : List Char) (l : List (List Char)) :
    [d].intercalate (x :: y :: l) = x ++ d :: [d].intercalate (y :: l) := by
  simp [List.intercalate]

def CandidateOutcome (parseUrl : List Char → Option Url) (lookup : LinkTargetLookup) (entry out : List Char) : Prop :=
  ∃ url', UrlOutcome parseUrl lookup .media ((entry.dropWhile isSpace).takeWhile fun c => !isSpace c) url' ∧
    out = entry.takeWhile isSpace ++ url' ++ (entry.dropWhile isSpace).dropWhile fun c => !isSpace c

theorem alike_comma (before before' : List Char) : Alike (',' :: before) (',' :: before') := ⟨rfl, rfl⟩

theorem finds_intercalate (before x y : List Char) (l : List (List Char)) :
    Scan.finds matchRef before ([','].intercalate (x :: y :: l)) =
      Scan.finds matchRef before x ++ Scan.finds matchRef [','] ([','].intercalate (y :: l)) := by
  rw [intercalate_cons_cons, Scan.finds_append (matchRef_delimits (by decide))]
  rw [finds_alike (alike_comma (x.reverse ++ before) [])]

theorem candidates_sound (hb : Starts before) {entries outs : List (List Char)}
    (hcomma : ∀ e ∈ entries, ',' ∉ e) (h : List.Forall₂ (CandidateOutcome parseUrl lookup) entries outs)
    (hwell : WellFormedIn before ([','].intercalate entries)) :
    SoundIn lookup before ([','].intercalate outs) ↔ Exist lookup (looseInCandidates parseUrl lookup before entries) := by
  induction h generalizing before with
  | nil => simp [SoundIn, Exist, Scan.finds, looseInCandidates, List.intercalate]
  | @cons e out es outs he hes ih =>
    obtain ⟨url', hurl, rfl⟩ := he
    have hcomma' := hcomma e List.mem_cons_self
    cases hes with
    | nil =>
      have hwell' : WellFormedIn before e := by simpa [List.intercalate] using hwell
      have hone := candidate_sound hb hcomma' hurl hwell'
      simpa [looseInCandidates, List.intercalate] using hone
    | cons he' hes' =>
      unfold WellFormedIn at hwell
      rw [finds_intercalate, List.forall_mem_append] at hwell
      have hone := candidate_sound hb hcomma' hurl hwell.1
      have hrest := ih (starts_of_delimiter (by decide) []) (fun e he => hcomma e (List.mem_cons_of_mem _ he)) hwell.2
      unfold SoundIn at hone hrest ⊢
      rw [finds_intercalate, List.forall_mem_append, looseInCandidates, exist_append]
      exact and_congr hone hrest

/-! ### The whole save -/

theorem mapRun_spec {α β : Type} {f : α → Run → Option (β × Run)} {R : α → β → Prop}
    (hf : ∀ x run y run', f x run = some (y, run') →
      run.Grows run' ∧ (run.grandfathered = [] → run'.issues = [] → R x y))
    {xs : List α} {ys : List β} (h : mapRun f xs run = some (ys, run')) :
    run.Grows run' ∧ (run.grandfathered = [] → run'.issues = [] → List.Forall₂ R xs ys) := by
  induction xs generalizing ys run with
  | nil =>
    cases h
    exact ⟨Run.Grows.refl _, fun _ _ => .nil⟩
  | cons x xs ih =>
    obtain ⟨⟨y, run₁⟩, hx, h⟩ := Option.bind_eq_some_iff.1 h
    obtain ⟨⟨ys', run₂⟩, hxs, heq⟩ := Option.map_eq_some_iff.1 h
    cases heq
    obtain ⟨hgrows, hone⟩ := hf x run y run₁ hx
    obtain ⟨hgrows', hrest⟩ := ih hxs
    refine ⟨hgrows.trans hgrows', fun hg hclean => .cons (hone hg (hgrows'.clean hclean)) (hrest ?_ hclean)⟩
    rw [hgrows.grandfathered, hg]

/-- In a run without issues the value is sound exactly when its loose references have targets. -/
def ValueOutcome (parseUrl : List Char → Option Url) (lookup : LinkTargetLookup) (a : Attr) (out : List Char) : Prop :=
  isQuote a.quote = true → WellFormedIn [a.quote] a.value →
    (SoundIn lookup [a.quote] out ↔ Exist lookup (looseInAttr parseUrl lookup a))

theorem canonicaliseCandidate_spec {entry : List Char}
    (h : canonicaliseCandidate parseUrl lookup entry run place = some (out, run')) :
    run.Grows run' ∧ (run.grandfathered = [] → run'.issues = [] → CandidateOutcome parseUrl lookup entry out) := by
  obtain ⟨⟨url', run₁⟩, hurl, heq⟩ := Option.map_eq_some_iff.1 h
  cases heq
  obtain ⟨hgrows, hspec⟩ := canonicaliseUrl_spec hurl
  exact ⟨hgrows, fun hg hclean => ⟨url', hspec hg hclean, rfl⟩⟩

theorem canonicaliseAttr_spec {a : Attr}
    (h : canonicaliseAttr parseUrl lookup a run place = some (out, run')) :
    run.Grows run' ∧ (run.grandfathered = [] → run'.issues = [] → ValueOutcome parseUrl lookup a out) := by
  have url : ∀ scope, looseInAttr parseUrl lookup a = looseInUrl parseUrl lookup scope [a.quote] a.value →
      canonicaliseUrl parseUrl lookup a.value run place scope = some (out, run') →
      run.Grows run' ∧ (run.grandfathered = [] → run'.issues = [] → ValueOutcome parseUrl lookup a out) := by
    intro scope hloose hurl
    obtain ⟨hgrows, hspec⟩ := canonicaliseUrl_spec hurl
    refine ⟨hgrows, fun hg hclean hq hwell => ?_⟩
    rw [hloose]
    exact outcome_sound (starts_of_delimiter (isDelimiter_of_isQuote hq) []) (hspec hg hclean) hwell
  unfold canonicaliseAttr at h
  split at h
  · rename_i hname
    exact url .pagesAndMedia (by rw [looseInAttr, hname]) h
  · rename_i hname
    obtain ⟨⟨outs, run₁⟩, hmap, heq⟩ := Option.map_eq_some_iff.1 h
    cases heq
    have hone : ∀ e run out run', canonicaliseCandidate parseUrl lookup e run place = some (out, run') → run.Grows run' ∧
        (run.grandfathered = [] → run'.issues = [] → CandidateOutcome parseUrl lookup e out) :=
      fun _ _ _ _ => canonicaliseCandidate_spec
    obtain ⟨hgrows, hspec⟩ := mapRun_spec hone hmap
    refine ⟨hgrows, fun hg hclean hq hwell => ?_⟩
    rw [looseInAttr, hname]
    refine candidates_sound (starts_of_delimiter (isDelimiter_of_isQuote hq) []) (fun e he hc => ?_) (hspec hg hclean) ?_
    · simpa using Words.splitOnP_clean he ',' hc
    · rwa [List.intercalate_splitOn]
  · rename_i hname
    exact url .media (by rw [looseInAttr, hname]) h
  · rename_i hname
    exact url .media (by rw [looseInAttr, hname]) h

inductive PieceOutcome (parseUrl : List Char → Option Url) (lookup : LinkTargetLookup) : HtmlPiece → HtmlPiece → Prop
  | text (c : Char) : PieceOutcome parseUrl lookup (.text c) (.text c)
  | attr (a : Attr) (out : List Char) (h : ValueOutcome parseUrl lookup a out) :
    PieceOutcome parseUrl lookup (.attr a) (.attr { a with value := out })

theorem canonicalisePiece_spec {p p' : HtmlPiece}
    (h : canonicalisePiece parseUrl lookup place p run = some (p', run')) :
    run.Grows run' ∧ (run.grandfathered = [] → run'.issues = [] → PieceOutcome parseUrl lookup p p') := by
  cases p with
  | text c =>
    cases h
    exact ⟨Run.Grows.refl run, fun _ _ => .text c⟩
  | attr a =>
    obtain ⟨⟨out, run₁⟩, hattr, heq⟩ := Option.map_eq_some_iff.1 h
    cases heq
    obtain ⟨hgrows, hspec⟩ := canonicaliseAttr_spec hattr
    exact ⟨hgrows, fun hg hclean => .attr a out (hspec hg hclean)⟩

theorem skeleton_outcome {ps ps' : List HtmlPiece} (h : List.Forall₂ (PieceOutcome parseUrl lookup) ps ps') :
    skeleton ps' = skeleton ps := by
  induction h with
  | nil => rfl
  | cons hp hps ih =>
    unfold skeleton at ih ⊢
    rw [List.map_cons, List.map_cons, ih]
    cases hp <;> rfl

/-- The attributes of the stored text, with the ones they were made of. -/
theorem attr_outcome {ps ps' : List HtmlPiece} (h : List.Forall₂ (PieceOutcome parseUrl lookup) ps ps') :
    (∀ a', .attr a' ∈ ps' → ∃ a out, .attr a ∈ ps ∧ a' = { a with value := out } ∧ ValueOutcome parseUrl lookup a out) ∧
    ∀ a, .attr a ∈ ps → ∃ out, .attr { a with value := out } ∈ ps' ∧ ValueOutcome parseUrl lookup a out := by
  induction h with
  | nil => exact ⟨fun a ha => absurd ha List.not_mem_nil, fun a ha => absurd ha List.not_mem_nil⟩
  | cons hp hps ih =>
    refine ⟨fun a' ha' => ?_, fun a ha => ?_⟩
    · rcases List.mem_cons.1 ha' with heq | ha'
      · cases hp with
        | text c => cases heq
        | attr a out hout =>
          cases heq
          exact ⟨a, out, List.mem_cons_self, rfl, hout⟩
      · obtain ⟨a, out, ha, heq, hout⟩ := ih.1 a' ha'
        exact ⟨a, out, List.mem_cons_of_mem _ ha, heq, hout⟩
    · rcases List.mem_cons.1 ha with heq | ha
      · cases hp with
        | text c => cases heq
        | attr a out hout =>
          cases heq
          exact ⟨out, List.mem_cons_self, hout⟩
      · obtain ⟨out, hmem, hout⟩ := ih.2 a ha
        exact ⟨out, List.mem_cons_of_mem _ hmem, hout⟩

theorem reportMalformedRefs_spec {text : List Char} (hg : run.grandfathered = [])
    (hclean : (reportMalformedRefs text run place).issues = []) :
    run.issues = [] ∧ findMalformedLinkRefs text = [] := by
  unfold reportMalformedRefs at hclean
  generalize findMalformedLinkRefs text = raws at hclean
  induction raws generalizing run with
  | nil => exact ⟨hclean, rfl⟩
  | cons raw raws ih =>
    rw [List.foldl_cons] at hclean
    by_cases hseen : (run.issues.any fun i =>
        i.kind == .malformedLinkRef && i.place == place && raw.isPrefixOf i.value) = true
    · rw [if_pos hseen] at hclean
      have hnil := (ih hg hclean).1
      rw [hnil] at hseen
      cases hseen
    · rw [if_neg hseen] at hclean
      have hg' : (run.issue .malformedLinkRef raw place).grandfathered = [] :=
        (run.grows_issue ..).grandfathered.trans hg
      exact absurd (ih hg' hclean).1 (Run.issue_ne_nil hg _ _ _)

theorem attr_assigns {a : Attr} (h : a.WellFormed) : '=' ∈ a.lead := by
  have hname := h.name
  cases hl : a.lead with
  | nil =>
    rw [hl] at hname
    cases hname
  | cons c rest =>
    rw [hl] at hname
    unfold attrOf at hname
    dsimp only at hname
    rw [Option.ite_none_right_eq_some] at hname
    obtain ⟨hassign, -⟩ := hname
    simp only [Bool.and_eq_true, beq_iff_eq] at hassign
    have hmem := List.mem_of_mem_head? hassign.1.2
    exact List.mem_cons_of_mem _ (List.mem_of_mem_drop ((List.dropWhile_sublist _).subset hmem))

/-- Without an equals sign there is no attribute, and the general way gives the same. -/
theorem canonicaliseHtmlLinks_eq (html : List Char) (run : Run) (place : String) :
    canonicaliseHtmlLinks parseUrl lookup html run place =
      (mapRun (canonicalisePiece parseUrl lookup place) (htmlPieces html) run).map fun r =>
        (htmlText r.1, reportMalformedRefs html r.2 place) := by
  unfold canonicaliseHtmlLinks
  split
  · rename_i hassign
    have htext : ∀ p ∈ htmlPieces html, ∃ c, p = .text c := by
      intro p hp
      cases p with
      | text c => exact ⟨c, rfl⟩
      | attr a =>
        exfalso
        apply hassign
        have hmem : '=' ∈ htmlText (htmlPieces html) := by
          refine List.mem_flatMap.2 ⟨.attr a, hp, ?_⟩
          exact List.mem_append_left _ (attr_assigns (wellFormed_of_mem hp))
        rwa [htmlText_htmlPieces] at hmem
    have hmap : ∀ ps : List HtmlPiece, (∀ p ∈ ps, ∃ c, p = .text c) →
        mapRun (canonicalisePiece parseUrl lookup place) ps run = some (ps, run) := by
      intro ps
      induction ps with
      | nil => exact fun _ => rfl
      | cons p ps ih =>
        intro hps
        obtain ⟨c, rfl⟩ := hps p List.mem_cons_self
        simp [mapRun, canonicalisePiece, ih fun q hq => hps q (List.mem_cons_of_mem _ hq)]
    rw [hmap _ htext, Option.map_some, htmlText_htmlPieces]
  · rfl

/-! ### The render -/

structure SiteLinkIndexInput.Of (input : SiteLinkIndexInput) (lookup : LinkTargetLookup) : Prop where
  pages : ∀ id, (input.page id).isSome = lookup.pageExists id
  media : ∀ id, (input.asset id).isSome = lookup.mediaExists id
  variants : input.pageVariants = []

theorem resolveRef_fails {input : SiteLinkIndexInput} (h : input.Of lookup) {renderingPageId : Option String}
    {resolver : LinkRef → LinkResolution} (hr : forPage input renderingPageId = some resolver) (ref : LinkRef) :
    (resolveRef (some resolver) ref).getRight? = none ↔ targetExists lookup ref = true := by
  have hvariant : ∀ pageId, input.variantOf pageId = none := by
    intro pageId
    rw [SiteLinkIndexInput.variantOf, h.variants]
    rfl
  unfold forPage at hr
  rw [Option.ite_none_right_eq_some, Option.some.injEq] at hr
  have hbind : renderingPageId.bind input.variantOf = none := by
    cases renderingPageId with
    | none => rfl
    | some id => exact hvariant id
  rw [hbind] at hr
  rw [← hr.2]
  unfold resolveRef
  cases ref with
  | media mediaId variant =>
    have hexists := h.media mediaId
    unfold SiteLinkIndexInput.resolve targetExists
    cases ha : input.asset mediaId with
    | none => simp [← hexists, ha]
    | some asset => simp [← hexists, ha]
  | page pageId query anchor =>
    have hexists := h.pages pageId
    unfold SiteLinkIndexInput.resolve targetExists SiteLinkIndexInput.pageInVariant
    cases hp : input.page pageId with
    | none => simp [← hexists, hp]
    | some page =>
      simp only [Option.map_none, Option.bind_some, hp, ← hexists, Option.isSome_some, iff_true]
      split <;> rename_i heq <;> split at heq <;> cases heq <;> rfl

theorem markers_nil_iff {input : SiteLinkIndexInput} (h : input.Of lookup) {renderingPageId : Option String}
    {resolver : LinkRef → LinkResolution} (hr : forPage input renderingPageId = some resolver) (html : List Char) :
    (resolveLinkRefsInHtml html (some resolver)).2 = [] ↔ SoundIn lookup [] html := by
  have hfails := resolveRef_fails h hr
  unfold resolveLinkRefsInHtml
  rw [List.append_eq_nil_iff, List.map_eq_nil_iff]
  constructor
  · rintro ⟨hmalformed, hrefs⟩ x hx
    cases hxref : x.1 with
    | none =>
      have hmem : x.2 ∈ findMalformedLinkRefs html := by
        refine List.mem_filterMap.2 ⟨x, hx, ?_⟩
        simp [hxref]
      rw [hmalformed] at hmem
      cases hmem
    | some ref =>
      have hmem : ref ∈ findLinkRefs html := List.mem_filterMap.2 ⟨x, hx, hxref⟩
      exact ⟨ref, hxref, (hfails ref).1 (List.filterMap_eq_nil_iff.1 hrefs ref hmem)⟩
  · intro hs
    refine ⟨List.filterMap_eq_nil_iff.2 fun x hx => ?_, List.filterMap_eq_nil_iff.2 fun ref href => ?_⟩
    · obtain ⟨ref, href, -⟩ := hs x hx
      simp [href]
    · obtain ⟨x, hx, hxref⟩ := List.mem_filterMap.1 href
      obtain ⟨ref', heq, hexists⟩ := hs x hx
      rw [hxref, Option.some.injEq] at heq
      exact (hfails ref).2 (heq ▸ hexists)

theorem wellFormedIn_of_findMalformed {html : List Char} (h : findMalformedLinkRefs html = []) : WellFormedIn [] html := by
  intro x hx
  have hnone := List.filterMap_eq_nil_iff.1 h x hx
  cases hxref : x.1 with
  | none => simp [hxref] at hnone
  | some ref => rfl

/-- A stored text without issues renders without link failures exactly when every reference of the input that the save
did not look up has its target. -/
theorem cleanSave_resolves {html out : List Char} {place : String} {run : Run}
    (hsave : canonicaliseHtmlLinks parseUrl lookup html (linkCanonicaliseRun []) place = some (out, run))
    (hclean : run.issues = []) {input : SiteLinkIndexInput} (hinput : input.Of lookup) {renderingPageId : Option String}
    {resolver : LinkRef → LinkResolution} (hresolver : forPage input renderingPageId = some resolver) :
    (resolveLinkRefsInHtml out (some resolver)).2 = [] ↔
      ∀ ref ∈ looseRefs parseUrl lookup html, targetExists lookup ref = true := by
  rw [markers_nil_iff hinput hresolver]
  rw [canonicaliseHtmlLinks_eq] at hsave
  obtain ⟨⟨ps', run₁⟩, hmap, heq⟩ := Option.map_eq_some_iff.1 hsave
  cases heq
  have hpiece : ∀ p run p' run', canonicalisePiece parseUrl lookup place p run = some (p', run') → run.Grows run' ∧
      (run.grandfathered = [] → run'.issues = [] → PieceOutcome parseUrl lookup p p') :=
    fun _ _ _ _ => canonicalisePiece_spec
  obtain ⟨hgrows, hspec⟩ := mapRun_spec hpiece hmap
  obtain ⟨hclean₁, hmalformed⟩ := reportMalformedRefs_spec hgrows.grandfathered hclean
  have houtcome := hspec rfl hclean₁
  have hquoted : Quoted (htmlPieces html) := fun a ha => (wellFormed_of_mem ha).quote
  have hquoted' : Quoted ps' := by
    intro a' ha'
    obtain ⟨a, out, ha, rfl, -⟩ := (attr_outcome houtcome).1 a' ha'
    exact hquoted a ha
  have hwell := wellFormedIn_of_findMalformed hmalformed
  rw [← htmlText_htmlPieces html] at hwell
  have hwellSkeleton : WellFormedIn [] (htmlText (skeleton (htmlPieces html))) := by
    intro x hx
    exact hwell x ((mem_finds_pieces hquoted [] [] x).2 (Or.inl hx))
  have hwellValue : ∀ a, .attr a ∈ htmlPieces html → WellFormedIn [a.quote] a.value := by
    intro a ha x hx
    exact hwell x ((mem_finds_pieces hquoted [] [] x).2 (Or.inr ⟨a, ha, hx⟩))
  -- the stored text is sound when its skeleton and its values are
  have hsplit : SoundIn lookup [] (htmlText ps') ↔ SoundIn lookup [] (htmlText (skeleton (htmlPieces html))) ∧
      ∀ a', .attr a' ∈ ps' → SoundIn lookup [a'.quote] a'.value := by
    rw [← skeleton_outcome houtcome]
    constructor
    · intro hs
      exact ⟨fun x hx => hs x ((mem_finds_pieces hquoted' [] [] x).2 (Or.inl hx)),
        fun a' ha' x hx => hs x ((mem_finds_pieces hquoted' [] [] x).2 (Or.inr ⟨a', ha', hx⟩))⟩
    · rintro ⟨hskeleton, hvalues⟩ x hx
      rcases (mem_finds_pieces hquoted' [] [] x).1 hx with hx | ⟨a', ha', hx⟩
      · exact hskeleton x hx
      · exact hvalues a' ha' x hx
  have hloose : (∀ ref ∈ looseRefs parseUrl lookup html, targetExists lookup ref = true) ↔
      Exist lookup (refsIn [] (htmlText (skeleton (htmlPieces html)))) ∧
        ∀ a, .attr a ∈ htmlPieces html → Exist lookup (looseInAttr parseUrl lookup a) := by
    unfold looseRefs Exist
    rw [List.forall_mem_append]
    refine and_congr_right fun _ => ⟨fun h a ha ref href => ?_, fun h ref href => ?_⟩
    · exact h ref (List.mem_flatMap.2 ⟨.attr a, ha, href⟩)
    · obtain ⟨p, hp, href⟩ := List.mem_flatMap.1 href
      cases p with
      | text c => cases href
      | attr a => exact h a hp ref href
  rw [hsplit, hloose, soundIn_iff hwellSkeleton]
  refine and_congr_right fun _ => ⟨fun h a ha => ?_, fun h a' ha' => ?_⟩
  · obtain ⟨out, hmem, hout⟩ := (attr_outcome houtcome).2 a ha
    exact (hout (hquoted a ha) (hwellValue a ha)).1 (h _ hmem)
  · obtain ⟨a, out, ha, rfl, hout⟩ := (attr_outcome houtcome).1 a' ha'
    exact (hout (hquoted a ha) (hwellValue a ha)).2 (h a ha)

end Spec

/-! ### Two saves -/

/-- No URL is valid; the sites below are not addressed by absolute ones. -/
def noUrl (_ : List Char) : Option Url := none

def aboutId : String := "00000000-0000-4000-8000-000000000001"

/-- A site of one page, `/about`. -/
def aboutSite : LinkTargetLookup where
  pageIdForPath path := if path = "/about".toList then some aboutId else none
  mediaIdForSlug _ := none
  pageExists id := id == aboutId
  mediaExists _ := false
  isOwnHost _ := false
  isPendingPagePath _ := false
  pageIds id h := by
    rw [eq_of_beq h]
    decide
  mediaIds id h := by cases h
  served path id h := by
    rw [Option.ite_none_right_eq_some, Option.some.injEq] at h
    exact beq_iff_eq.2 h.2.symm

def aboutIndex : SiteLinkIndexInput :=
  { pages := [⟨aboutId, "/about".toList, true⟩], media := [], env := .production, pageUrlStyle := .directory,
    pageVariants := [] }

theorem aboutIndex_of : aboutIndex.Of aboutSite where
  pages id := by
    by_cases h : aboutId = id
    · subst h
      decide
    · simp [SiteLinkIndexInput.page, aboutIndex, aboutSite, h, Ne.symm h]
  media id := rfl
  variants := rfl

theorem aboutIndex_forPage : forPage aboutIndex none = some (aboutIndex.resolve none) := if_pos (by decide)

theorem cleanSave_resolves_about :
    (resolveLinkRefsInHtml "<a href=\"caelo:page/00000000-0000-4000-8000-000000000001#team\">".toList
      (some (aboutIndex.resolve none))).2 = [] := by
  have hsave : canonicaliseHtmlLinks noUrl aboutSite "<a href=\"/about#team\">".toList (linkCanonicaliseRun []) "html" =
      some ("<a href=\"caelo:page/00000000-0000-4000-8000-000000000001#team\">".toList, linkCanonicaliseRun []) := by
    decide
  exact (cleanSave_resolves hsave rfl aboutIndex_of aboutIndex_forPage).2 (by decide)

/-- A reference in text is stored as it is, whatever it refers to. -/
theorem cleanSave_dangles : ¬ ∀ (parseUrl : List Char → Option Url) (lookup : LinkTargetLookup) (html out : List Char)
    (place : String) (run : Run),
    canonicaliseHtmlLinks parseUrl lookup html (linkCanonicaliseRun []) place = some (out, run) → run.issues = [] →
    ∀ (input : SiteLinkIndexInput), input.Of lookup → ∀ (renderingPageId : Option String)
      (resolver : LinkRef → LinkResolution), forPage input renderingPageId = some resolver →
      (resolveLinkRefsInHtml out (some resolver)).2 = [] := by
  intro h
  have hsave : canonicaliseHtmlLinks noUrl aboutSite "<p>caelo:page/00000000-0000-4000-8000-000000000002</p>".toList
      (linkCanonicaliseRun []) "html" =
      some ("<p>caelo:page/00000000-0000-4000-8000-000000000002</p>".toList, linkCanonicaliseRun []) := by
    decide
  have hmarkers := h _ _ _ _ _ _ hsave rfl aboutIndex aboutIndex_of none _ aboutIndex_forPage
  revert hmarkers
  decide

end CaeloCms.Link
