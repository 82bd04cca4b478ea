import CaeloCms.Link.RoundTrip
import CaeloCms.Link.WellFormed

/-!
# Saving twice

What a save reports about a URL depends on the trimmed URL and on the site (`urlIssue`).  A URL that is stored unchanged,
or trimmed, is reported again by a second save; a reference that the first save wrote has its target and is not reported.
The malformed references of a stored text are malformed references of the text it was made of.

A malformed reference is not reported next to a longer one at the same place that it is the start of.  Where the first
save turns the longer one into the query of a reference, the second save reports the shorter one: what it reports is
covered by the first report, not always part of it.
-/

namespace CaeloCms.Link

open Redirect (isSpace Url)

/-! ### What a URL is reported for -/

section Issue

variable (parseUrl : List Char → Option Url) (lookup : LinkTargetLookup)

def mediaIssue (first : List Char) (variant : Option (List Char)) (hasSuffix : Bool) : Option IssueKind :=
  match assetId lookup first variant with
  | none => some .unknownMedia
  | some id =>
    if !lookup.mediaExists id then some .unknownMedia
    else if hasSuffix then some .unsupportedLinkForm
    else none

def pageIssue (t : PathTail) : Option IssueKind :=
  let normalised := normaliseLinkPath t.path
  match lookup.pageIdForPath normalised with
  | none =>
    if lookup.isPendingPagePath normalised then none
    else if normalised = ['/'] then if suffixOk t then none else some .unsupportedLinkForm
    else if isFilePath t.path && siteServedFiles.contains t.path then none
    else some (if isFilePath t.path then .unknownFile else .unknownPagePath)
  | some _ => if suffixOk t then none else some .unsupportedLinkForm

def urlIssue (scope : Scope) (v : List Char) : Option IssueKind :=
  if v = [] ∨ hasPlaceholder v = true then none
  else
    match parseRef v with
    | some ref => if targetExists lookup ref then none else some (danglingKind ref)
    | none =>
      if refLike v then some .malformedLinkRef
      else
        match localPart parseUrl lookup v with
        | none => none
        | some path =>
          let t := splitPathTail path
          match mediaSegments t.path with
          | some (first, variant) => mediaIssue lookup first variant (t.query.isSome || t.anchor.isSome)
          | none => if scope = .media ∨ isReservedPath t.path = true then none else pageIssue lookup t

end Issue

def Run.report (run : Run) (kind : Option IssueKind) (value : List Char) (place : String) : Run :=
  kind.elim run fun kind => run.issue kind value place

section Spec

variable {parseUrl : List Char → Option Url} {lookup : LinkTargetLookup}

variable {run again run' : Run} {value before raw : List Char} {place : String} {old : List Issue}
  {r : List Char × Run} {i : Issue} {ref : LinkRef}

theorem canonicaliseMediaPath_report {first : List Char} {variant : Option (List Char)}
    {hasSuffix : Bool}
    (h : canonicaliseMediaPath lookup first variant raw hasSuffix run place = some r) :
    r.2 = run.report (mediaIssue lookup first variant hasSuffix) raw place := by
  have hid : (if (isUuid first && variant.isSome) = true then some (String.ofList first)
      else lookup.mediaIdForSlug first) = assetId lookup first variant := rfl
  unfold canonicaliseMediaPath at h
  unfold mediaIssue
  dsimp only at h ⊢
  rw [hid] at h
  cases hasset : assetId lookup first variant with
  | none =>
    rw [hasset] at h
    cases h
    rfl
  | some id =>
    rw [hasset] at h
    dsimp only at h ⊢
    split at h
    · rename_i hmissing
      cases h
      rw [if_pos hmissing]
      rfl
    · rename_i hfound
      rw [if_neg hfound]
      split at h
      · rename_i hsuffix
        cases h
        rw [if_pos hsuffix]
        rfl
      · rename_i hsuffix
        obtain ⟨out, -, rfl⟩ := Option.map_eq_some_iff.1 h
        rw [if_neg hsuffix]
        rfl

theorem canonicalisePagePath_report {v : List Char} {t : PathTail}
    (h : canonicalisePagePath lookup value v t run place = some r) :
    r.2.issues = (run.report (pageIssue lookup t) v place).issues ∧ r.2.grandfathered = run.grandfathered := by
  have hgrandfathered : ∀ kind, (run.report kind v place).grandfathered = run.grandfathered := by
    intro kind
    cases kind with
    | none => rfl
    | some kind => exact (run.grows_issue ..).grandfathered
  unfold canonicalisePagePath at h
  unfold pageIssue
  dsimp only at h ⊢
  cases hpage : lookup.pageIdForPath (normaliseLinkPath t.path) with
  | some id =>
    rw [hpage] at h
    dsimp only at h ⊢
    by_cases hsuffix : suffixOk t = true
    · rw [hsuffix] at h ⊢
      obtain ⟨out, -, rfl⟩ := Option.map_eq_some_iff.1 h
      exact ⟨rfl, rfl⟩
    · rw [Bool.not_eq_true] at hsuffix
      rw [hsuffix] at h ⊢
      cases h
      exact ⟨rfl, hgrandfathered (some .unsupportedLinkForm)⟩
  | none =>
    rw [hpage] at h
    dsimp only at h ⊢
    split at h
    · rename_i hpending
      cases h
      rw [if_pos hpending]
      exact ⟨rfl, rfl⟩
    · rename_i hpending
      rw [if_neg hpending]
      split at h
      · rename_i hroot
        cases h
        rw [if_pos hroot]
        split
        · exact ⟨rfl, rfl⟩
        · exact ⟨rfl, hgrandfathered (some .unsupportedLinkForm)⟩
      · rename_i hroot
        rw [if_neg hroot]
        have hfile : (isFilePath t.path && siteServedFiles.contains t.path) = true ↔
            isFilePath t.path = true ∧ t.path ∈ siteServedFiles := by
          rw [Bool.and_eq_true, List.contains_iff_mem]
        split at h
        · rename_i hserved
          cases h
          rw [if_pos (hfile.2 hserved)]
          exact ⟨rfl, rfl⟩
        · rename_i hserved
          cases h
          rw [if_neg (mt hfile.1 hserved)]
          exact ⟨rfl, hgrandfathered (some _)⟩

theorem Run.report_grows (run : Run) (kind : Option IssueKind) (value : List Char) (place : String) :
    run.Grows (run.report kind value place) := by
  cases kind with
  | none => exact Run.Grows.refl run
  | some kind => exact run.grows_issue kind value place

theorem canonicaliseUrl_issues {scope : Scope}
    (h : canonicaliseUrl parseUrl lookup value run place scope = some r) :
    r.2.issues = (run.report (urlIssue parseUrl lookup scope (trim value)) (trim value) place).issues ∧
      r.2.grandfathered = run.grandfathered := by
  have hgrandfathered : ∀ kind, (run.report kind (trim value) place).grandfathered = run.grandfathered :=
    fun kind => (run.report_grows kind (trim value) place).grandfathered
  unfold canonicaliseUrl at h
  unfold urlIssue
  dsimp only at h ⊢
  by_cases hskip : trim value = [] ∨ hasPlaceholder (trim value) = true
  · rw [if_pos hskip] at h ⊢
    cases h
    exact ⟨rfl, rfl⟩
  · rw [if_neg hskip] at h ⊢
    cases hparse : parseRef (trim value) with
    | some ref =>
      rw [hparse] at h
      cases h
      dsimp only
      split
      · exact ⟨rfl, rfl⟩
      · exact ⟨rfl, hgrandfathered (some (danglingKind ref))⟩
    | none =>
      rw [hparse] at h
      dsimp only at h ⊢
      split at h
      · rename_i hlike
        cases h
        rw [if_pos hlike]
        exact ⟨rfl, hgrandfathered (some .malformedLinkRef)⟩
      · rename_i hlike
        rw [if_neg hlike]
        cases hlocal : localPart parseUrl lookup (trim value) with
        | none =>
          rw [hlocal] at h
          cases h
          exact ⟨rfl, rfl⟩
        | some path =>
          rw [hlocal] at h
          dsimp only at h ⊢
          cases hsegs : mediaSegments (splitPathTail path).path with
          | some segs =>
            rw [hsegs] at h
            have hreport := canonicaliseMediaPath_report h
            dsimp only at hreport ⊢
            rw [hreport]
            exact ⟨rfl, hgrandfathered _⟩
          | none =>
            rw [hsegs] at h
            dsimp only at h ⊢
            split at h
            · rename_i hkept
              cases h
              rw [if_pos hkept]
              exact ⟨rfl, rfl⟩
            · rename_i hkept
              rw [if_neg hkept]
              exact canonicalisePagePath_report h

theorem canonicaliseUrl_report (scope : Scope) (value : List Char) (run : Run) (place : String) :
    ∃ run', canonicaliseUrl parseUrl lookup value run place scope = some (urlText parseUrl lookup scope value, run') ∧
      run'.issues = (run.report (urlIssue parseUrl lookup scope (trim value)) (trim value) place).issues ∧
      run'.grandfathered = run.grandfathered := by
  obtain ⟨run', htext⟩ := canonicaliseUrl_text scope value run place
  exact ⟨run', htext, canonicaliseUrl_issues htext⟩

/-! ### The first report covers the second -/

def Run.Covers (run : Run) (i : Issue) : Prop :=
  ∃ j ∈ run.issues, j.kind = i.kind ∧ j.place = i.place ∧
    (j.value = i.value ∨ i.kind = .malformedLinkRef ∧ i.value <+: j.value)

/-- A second run that goes along with a first one: its issues were there before, or are covered. -/
structure Echoes (old : List Issue) (run again : Run) : Prop where
  grandfathered : again.grandfathered = run.grandfathered
  issues : ∀ i ∈ again.issues, i ∈ old ∨ run.Covers i

theorem Run.Covers.mono (h : run.Covers i) (hgrows : run.issues <+: run'.issues) :
    run'.Covers i := by
  obtain ⟨j, hj, hcovers⟩ := h
  exact ⟨j, hgrows.subset hj, hcovers⟩

theorem Run.covers_self (h : i ∈ run.issues) : run.Covers i := ⟨i, h, rfl, rfl, Or.inl rfl⟩

theorem Echoes.congr {again' : Run} (h : Echoes old run again)
    (hrun : run'.issues = run.issues ∧ run'.grandfathered = run.grandfathered)
    (hagain : again'.issues = again.issues ∧ again'.grandfathered = again.grandfathered) : Echoes old run' again' where
  grandfathered := by rw [hagain.2, hrun.2, h.grandfathered]
  issues i hi := by
    rw [hagain.1] at hi
    exact (h.issues i hi).imp_right fun hcovers => hcovers.mono (by rw [hrun.1])

theorem Echoes.grow (h : Echoes old run again) (hrun : run.Grows run') :
    Echoes old run' again where
  grandfathered := h.grandfathered.trans hrun.grandfathered.symm
  issues i hi := (h.issues i hi).imp_right fun hcovers => hcovers.mono hrun.issues

theorem Run.mem_issue {kind : IssueKind}
    (h : i ∈ (run.issue kind value place).issues) :
    i ∈ run.issues ∨ value ∉ run.grandfathered ∧ i = ⟨kind, value, place⟩ := by
  unfold Run.issue at h
  split at h
  · exact Or.inl h
  · rename_i hnew
    rw [List.mem_append, List.mem_singleton] at h
    exact h.imp_right fun heq => ⟨hnew, heq⟩

theorem Echoes.report (h : Echoes old run again) (kind : Option IssueKind)
    (value : List Char) (place : String) : Echoes old (run.report kind value place) (again.report kind value place) where
  grandfathered := by
    rw [(run.report_grows kind value place).grandfathered, (again.report_grows kind value place).grandfathered,
      h.grandfathered]
  issues i hi := by
    have hgrows := (run.report_grows kind value place).issues
    cases kind with
    | none => exact h.issues i hi
    | some kind =>
      rcases Run.mem_issue hi with hi | ⟨hnew, rfl⟩
      · exact (h.issues i hi).imp_right fun hcovers => hcovers.mono hgrows
      · rw [h.grandfathered] at hnew
        refine Or.inr (Run.covers_self ?_)
        unfold Run.report Run.issue
        rw [Option.elim_some, if_neg hnew]
        exact List.mem_append_right _ List.mem_cons_self

/-! ### A URL -/

theorem trim_refText (h : WellMade lookup ref) : trim (refText ref) = refText ref :=
  trim_of_no_space fun _ hc => not_space_of_isUrlChar (isUrlChar_refText h hc)

theorem urlText_refText (h : WellMade lookup ref) (scope : Scope) :
    urlText parseUrl lookup scope (refText ref) = refText ref := by
  have hskipped : skipped (refText ref) = true := by
    unfold skipped
    rw [refLike_of_parseRef h.parse, Bool.or_true]
  have hlink : urlLink parseUrl lookup scope (trim (refText ref)) = none := by
    unfold urlLink
    rw [trim_refText h, if_pos hskipped]
  rw [urlText_of_none hlink, trim_refText h, ite_self]

theorem urlIssue_refText (h : WellMade lookup ref) (scope : Scope) :
    urlIssue parseUrl lookup scope (refText ref) = none := by
  have hexists : targetExists lookup ref = true := by
    cases ref with
    | page pageId query anchor => exact h.1
    | media mediaId variant => exact h.1
  unfold urlIssue
  split
  · rfl
  · rw [h.parse]
    dsimp only
    rw [if_pos hexists]

theorem urlText_idem (scope : Scope) (value : List Char) :
    urlText parseUrl lookup scope (urlText parseUrl lookup scope value) = urlText parseUrl lookup scope value := by
  cases hlink : urlLink parseUrl lookup scope (trim value) with
  | none => exact urlText_again hlink
  | some ref => rw [urlText_of_link hlink, urlText_refText (urlLink_wellMade hlink)]

theorem trim_urlText {scope : Scope} (h : urlLink parseUrl lookup scope (trim value) = none) :
    trim (urlText parseUrl lookup scope value) = trim value := by
  rw [urlText_of_none h]
  split
  · exact trim_trim value
  · rfl

/-- What was stored for a value is stored again, and the second report is covered by the first. -/
def Steady {α : Type} (f : α → Run → Option (α × Run)) (g : α → α) (x : α) : Prop :=
  ∀ old run again, Echoes old run again →
    ∃ run' again', f x run = some (g x, run') ∧ f (g x) again = some (g x, again') ∧ Echoes old run' again'

theorem canonicaliseUrl_steady (scope : Scope) (place : String) (value : List Char) :
    Steady (fun v run => canonicaliseUrl parseUrl lookup v run place scope) (urlText parseUrl lookup scope) value := by
  intro old run again h
  obtain ⟨run', htext, hrun⟩ := @canonicaliseUrl_report parseUrl lookup scope value run place
  obtain ⟨again', hagain, hissues⟩ :=
    @canonicaliseUrl_report parseUrl lookup scope (urlText parseUrl lookup scope value) again place
  rw [urlText_idem] at hagain
  refine ⟨run', again', htext, hagain, ?_⟩
  rw [← (run.report_grows (urlIssue parseUrl lookup scope (trim value)) (trim value) place).grandfathered] at hrun
  cases hlink : urlLink parseUrl lookup scope (trim value) with
  | none =>
    rw [trim_urlText hlink,
      ← (again.report_grows (urlIssue parseUrl lookup scope (trim value)) (trim value) place).grandfathered] at hissues
    exact (h.report _ _ place).congr hrun hissues
  | some ref =>
    have hwell := urlLink_wellMade hlink
    rw [urlText_of_link hlink, trim_refText hwell, urlIssue_refText hwell] at hissues
    exact (h.grow (run.report_grows _ _ place)).congr hrun hissues

/-! ### An attribute -/

theorem mapRun_steady {α : Type} {f : α → Run → Option (α × Run)} {g : α → α} {xs : List α}
    (hf : ∀ x ∈ xs, Steady f g x) : Steady (mapRun f) (List.map g) xs := by
  intro old run again h
  induction xs generalizing run again with
  | nil => exact ⟨run, again, rfl, rfl, h⟩
  | cons x xs ih =>
    obtain ⟨run₁, again₁, hrun₁, hagain₁, h₁⟩ := hf x List.mem_cons_self old run again h
    obtain ⟨run₂, again₂, hrun₂, hagain₂, h₂⟩ := ih (fun y hy => hf y (List.mem_cons_of_mem x hy)) run₁ again₁ h₁
    refine ⟨run₂, again₂, ?_, ?_, h₂⟩
    · rw [mapRun, hrun₁, Option.bind_some, hrun₂]
      rfl
    · rw [List.map_cons, mapRun, hagain₁, Option.bind_some, hagain₂]
      rfl

theorem canonicaliseCandidate_eq (entry : List Char) (run : Run) (place : String) :
    canonicaliseCandidate parseUrl lookup entry run place =
      (canonicaliseUrl parseUrl lookup (candidateUrl entry) run place .media).map fun r =>
        (mapCandidate (fun _ => r.1) entry, r.2) := rfl

theorem canonicaliseCandidate_steady (place : String) (entry : List Char) :
    Steady (fun e run => canonicaliseCandidate parseUrl lookup e run place)
      (mapCandidate (urlText parseUrl lookup .media)) entry := by
  intro old run again h
  have htame : Tame (urlText parseUrl lookup .media) := tame_urlText .media
  obtain ⟨run', again', hrun, hagain, h'⟩ := canonicaliseUrl_steady .media place (candidateUrl entry) old run again h
  refine ⟨run', again', ?_, ?_, h'⟩
  · dsimp only at hrun ⊢
    rw [canonicaliseCandidate_eq, hrun]
    rfl
  · dsimp only at hagain ⊢
    rw [canonicaliseCandidate_eq, candidateUrl_mapCandidate htame, hagain]
    dsimp only [Option.map_some]
    rw [mapCandidate_mapCandidate htame]
    rfl

theorem canonicaliseAttr_steady (place : String) (a : Attr) (old : List Issue) (run again : Run)
    (h : Echoes old run again) : ∃ run' again',
      canonicaliseAttr parseUrl lookup a run place = some (attrText parseUrl lookup a, run') ∧
      canonicaliseAttr parseUrl lookup { a with value := attrText parseUrl lookup a } again place =
        some (attrText parseUrl lookup a, again') ∧ Echoes old run' again' := by
  unfold canonicaliseAttr attrText mapUrls
  cases a.name with
  | href => exact canonicaliseUrl_steady .pagesAndMedia place a.value old run again h
  | src => exact canonicaliseUrl_steady .media place a.value old run again h
  | poster => exact canonicaliseUrl_steady .media place a.value old run again h
  | srcset =>
    have hentries : ∀ e ∈ a.value.splitOn ',', Steady (fun e run => canonicaliseCandidate parseUrl lookup e run place)
        (mapCandidate (urlText parseUrl lookup .media)) e := fun e _ => canonicaliseCandidate_steady place e
    obtain ⟨run', again', hrun, hagain, h'⟩ := mapRun_steady hentries old run again h
    refine ⟨run', again', ?_, ?_, h'⟩
    · dsimp only
      unfold canonicaliseSrcset
      rw [hrun]
      rfl
    · dsimp only
      unfold canonicaliseSrcset
      rw [splitOn_mapSrcset (tame_urlText .media), hagain]
      rfl

/-! ### Malformed references -/

def NoNew (before new old : List Char) : Prop :=
  ∀ x ∈ Scan.finds matchRef before new, x.1 = none → x ∈ Scan.finds matchRef before old

/-- No reference starts with another letter than its scheme, and what comes after does not see what was before. -/
theorem finds_other {c : Char} (hc : c ≠ 'c') (hspace : isSpace c = false) (before before' s : List Char) :
    Scan.finds matchRef before (c :: s) = Scan.finds matchRef before' (c :: s) := by
  have hno : ∀ before, Scan.NoMatch matchRef before (c :: s) := by
    intro before a n h
    have hscheme : "caelo:".toList <+: c :: s := scheme_of_matchRef h
    obtain ⟨t, ht⟩ := hscheme
    exact hc (List.cons.inj ht).1.symm
  have hblank : (c == ' ') = false := by
    by_contra h
    rw [Bool.not_eq_false, beq_iff_eq] at h
    rw [h] at hspace
    revert hspace
    decide
  have halike : Alike (c :: before) (c :: before') := by
    refine ⟨rfl, ?_⟩
    simp only [linkPosition, hblank, Bool.false_and]
  have htail := finds_alike halike s
  unfold Scan.finds at htail ⊢
  rw [Scan.scan_plain (hno before), Scan.scan_plain (hno before'), List.filterMap_cons_none rfl,
    List.filterMap_cons_none rfl, htail]

theorem trim_split (value : List Char) : ∃ lead rest, value = lead ++ (trim value ++ rest) ∧
    (∀ c ∈ lead, isSpace c = true) ∧ (∀ c ∈ rest, isSpace c = true) := by
  refine ⟨value.takeWhile isSpace, (value.dropWhile isSpace).rtakeWhile isSpace, ?_, ?_, ?_⟩
  · rw [trim_eq, List.rdropWhile_append_rtakeWhile, List.takeWhile_append_dropWhile]
  · exact fun c hc => List.mem_takeWhile_imp hc
  · exact fun c hc => List.mem_rtakeWhile_imp hc

theorem head_trim {s : List Char} {c : Char} (h : trim value = c :: s) : isSpace c = false := by
  obtain ⟨t, ht⟩ := List.rdropWhile_prefix isSpace (value.dropWhile isSpace)
  rw [trim_eq] at h
  rw [h] at ht
  exact head?_dropWhile_space (s := value) (by rw [← ht]; rfl)

theorem localPart_head {v path : List Char} (h : localPart parseUrl lookup v = some path) :
    ∃ c s, v = c :: s ∧ c ≠ 'c' := by
  unfold localPart at h
  cases v with
  | nil =>
    simp [isHttp] at h
  | cons c s =>
    refine ⟨c, s, rfl, ?_⟩
    rintro rfl
    simp [isHttp] at h

theorem noNew_trim (hb : Starts before)
    (h : storedTrimmed parseUrl lookup (trim value) = true) : NoNew before (trim value) value := by
  intro x hx hnone
  unfold storedTrimmed at h
  cases hparse : parseRef (trim value) with
  | some ref =>
    rw [finds_ref hb hparse, List.mem_singleton] at hx
    rw [hx] at hnone
    cases hnone
  | none =>
    rw [hparse, Bool.and_eq_true, Option.isSome_none, Bool.false_or, Bool.and_eq_true, Option.any_eq_true] at h
    obtain ⟨-, -, path, hlocal, -⟩ := h
    obtain ⟨c, s, hv, hc⟩ := localPart_head hlocal
    obtain ⟨lead, rest, hvalue, hlead, hrest⟩ := trim_split value
    have hafter : ∀ d, rest.head? = some d → isSpace d = true := fun d hd => hrest d (List.mem_of_mem_head? hd)
    rw [hv, finds_other hc (head_trim hv) before (lead.reverse ++ before), ← hv] at hx
    rw [hvalue, finds_space hlead, finds_url_rest hafter]
    exact List.mem_append_left _ hx

theorem noNew_url (hb : Starts before) (scope : Scope) (value : List Char) :
    NoNew before (urlText parseUrl lookup scope value) value := by
  cases hlink : urlLink parseUrl lookup scope (trim value) with
  | some ref =>
    intro x hx hnone
    rw [urlText_of_link hlink, finds_ref hb (urlLink_wellMade hlink).parse, List.mem_singleton] at hx
    rw [hx] at hnone
    cases hnone
  | none =>
    rw [urlText_of_none hlink]
    split
    · rename_i htrimmed
      exact noNew_trim hb htrimmed
    · exact fun x hx _ => hx

theorem noNew_candidate {entry : List Char} (hb : Starts before) (hcomma : ',' ∉ entry) :
    NoNew before (mapCandidate (urlText parseUrl lookup .media) entry) entry := by
  have htame : Tame (urlText parseUrl lookup .media) := tame_urlText .media
  obtain ⟨lead, rest, hentry, hlead, hurl, hrest, hempty, hmap⟩ := candidate_split entry
  have hcomma' : ',' ∉ candidateUrl entry := by
    intro hc
    apply hcomma
    rw [hentry]
    exact List.mem_append_right _ (List.mem_append_left _ hc)
  have hstart := starts_append hlead hb
  have hbefore : Scan.finds matchRef before entry = Scan.finds matchRef (lead.reverse ++ before) (candidateUrl entry) ++
      Scan.finds matchRef ((candidateUrl entry).reverse ++ (lead.reverse ++ before)) rest := by
    conv_lhs => rw [hentry]
    rw [finds_space hlead, finds_url_rest hrest]
  have hafter : ∀ (url : List Char), (url = [] → candidateUrl entry = []) → ',' ∉ url →
      Scan.finds matchRef (url.reverse ++ (lead.reverse ++ before)) rest =
        Scan.finds matchRef ((candidateUrl entry).reverse ++ (lead.reverse ++ before)) rest := by
    intro url hnil hclean
    by_cases hne : candidateUrl entry = []
    · rw [hempty hne]
      simp [Scan.finds]
    · exact finds_after hrest (head?_reverse_append (fun h => hne (hnil h)) hclean) (head?_reverse_append hne hcomma')
  intro x hx hnone
  rw [hmap, finds_space hlead, finds_url_rest hrest, hafter _ (htame.empty _) (htame.comma _ hcomma'),
    List.mem_append] at hx
  rw [hbefore, List.mem_append]
  exact hx.imp_left fun hx => noNew_url hstart .media (candidateUrl entry) x hx hnone

theorem noNew_candidates (hb : Starts before) {entries : List (List Char)}
    (hcomma : ∀ e ∈ entries, ',' ∉ e) :
    NoNew before ([','].intercalate (entries.map (mapCandidate (urlText parseUrl lookup .media))))
      ([','].intercalate entries) := by
  induction entries generalizing before with
  | nil => exact fun x hx _ => hx
  | cons e es ih =>
    have hone : NoNew before (mapCandidate (urlText parseUrl lookup .media) e) e :=
      noNew_candidate hb (hcomma e List.mem_cons_self)
    cases es with
    | nil => simpa [List.intercalate] using hone
    | cons e' es =>
      have hmore := ih (starts_of_delimiter (show isDelimiter ',' = true by decide) []) fun e he => hcomma e (List.mem_cons_of_mem _ he)
      intro x hx hnone
      rw [List.map_cons, List.map_cons, finds_intercalate, ← List.map_cons, List.mem_append] at hx
      rw [finds_intercalate, List.mem_append]
      exact hx.imp (fun hx => hone x hx hnone) fun hx => hmore x hx hnone

theorem noNew_attr {a : Attr} (hq : isQuote a.quote = true) : NoNew [a.quote] (attrText parseUrl lookup a) a.value := by
  have hb : Starts [a.quote] := starts_of_delimiter (isDelimiter_of_isQuote hq) []
  unfold attrText mapUrls
  cases a.name with
  | href => exact noNew_url hb .pagesAndMedia a.value
  | src => exact noNew_url hb .media a.value
  | poster => exact noNew_url hb .media a.value
  | srcset =>
    have hcomma : ∀ e ∈ a.value.splitOn ',', ',' ∉ e := by
      intro e he hc
      simpa using Words.splitOnP_clean he ',' hc
    have hcandidates := @noNew_candidates parseUrl lookup [a.quote] hb _ hcomma
    rw [List.intercalate_splitOn] at hcandidates
    exact hcandidates

theorem findMalformed_savedHtml {html : List Char}
    (h : raw ∈ findMalformedLinkRefs (savedHtml parseUrl lookup html)) : raw ∈ findMalformedLinkRefs html := by
  have hquoted := quoted_htmlPieces html
  obtain ⟨x, hx, hraw⟩ := List.mem_filterMap.1 h
  rw [Option.ite_none_right_eq_some, Option.some.injEq, Option.isNone_iff_eq_none] at hraw
  have hpieces : x ∈ Scan.finds matchRef [] (htmlText (htmlPieces html)) := by
    refine (mem_finds_pieces hquoted [] [] x).2 ?_
    rcases (mem_finds_pieces (quoted_mapValues hquoted) [] [] x).1 hx with hskeleton | ⟨a', ha', hvalue⟩
    · rw [skeleton_mapValues] at hskeleton
      exact Or.inl hskeleton
    · obtain ⟨a, ha, rfl⟩ := mem_mapValues ha'
      exact Or.inr ⟨a, ha, noNew_attr (hquoted a ha) x hvalue hraw.1⟩
  rw [htmlText_htmlPieces] at hpieces
  refine List.mem_filterMap.2 ⟨x, hpieces, ?_⟩
  rw [hraw.1, ← hraw.2]
  rfl

/-! ### The report on malformed references -/

def reportMalformedRef (place : String) (run : Run) (raw : List Char) : Run :=
  if run.issues.any fun i => i.kind == .malformedLinkRef && i.place == place && raw.isPrefixOf i.value then run
  else run.issue .malformedLinkRef raw place

theorem reportMalformedRefs_eq (text : List Char) (run : Run) (place : String) :
    reportMalformedRefs text run place = (findMalformedLinkRefs text).foldl (reportMalformedRef place) run := rfl

theorem reportMalformedRef_grows (place : String) (run : Run) (raw : List Char) :
    run.Grows (reportMalformedRef place run raw) := by
  unfold reportMalformedRef
  split
  · exact Run.Grows.refl run
  · exact run.grows_issue ..

theorem foldl_grows (place : String) (raws : List (List Char)) (run : Run) :
    run.Grows (raws.foldl (reportMalformedRef place) run) := by
  induction raws generalizing run with
  | nil => exact Run.Grows.refl run
  | cons raw raws ih => exact (reportMalformedRef_grows place run raw).trans (ih _)

/-- Each malformed reference is grandfathered, or its issue is covered. -/
theorem foldl_covers (place : String) {raws : List (List Char)} (run : Run) (h : raw ∈ raws) :
    raw ∈ run.grandfathered ∨ (raws.foldl (reportMalformedRef place) run).Covers ⟨.malformedLinkRef, raw, place⟩ := by
  induction raws generalizing run with
  | nil => cases h
  | cons first raws ih =>
    have hgrows := foldl_grows place raws (reportMalformedRef place run first)
    rcases List.mem_cons.1 h with rfl | h
    · by_cases hseen : (run.issues.any fun i =>
          i.kind == .malformedLinkRef && i.place == place && raw.isPrefixOf i.value) = true
      · obtain ⟨j, hj, hsame⟩ := List.any_eq_true.1 hseen
        simp only [Bool.and_eq_true, beq_iff_eq, List.isPrefixOf_iff_prefix] at hsame
        have hcovers : run.Covers ⟨.malformedLinkRef, raw, place⟩ :=
          ⟨j, hj, hsame.1.1, hsame.1.2, Or.inr ⟨rfl, hsame.2⟩⟩
        exact Or.inr (hcovers.mono (foldl_grows place (raw :: raws) run).issues)
      · by_cases hold : raw ∈ run.grandfathered
        · exact Or.inl hold
        · have hmem : ⟨.malformedLinkRef, raw, place⟩ ∈ (reportMalformedRef place run raw).issues := by
            unfold reportMalformedRef Run.issue
            rw [if_neg hseen, if_neg hold]
            exact List.mem_append_right _ List.mem_cons_self
          exact Or.inr ((Run.covers_self hmem).mono hgrows.issues)
    · have hgrandfathered := (reportMalformedRef_grows place run first).grandfathered
      rw [← hgrandfathered]
      exact ih _ h

theorem reportMalformedRefs_echoes (h : Echoes old run again)
    {text text' : List Char} (hmore : ∀ raw ∈ findMalformedLinkRefs text', raw ∈ findMalformedLinkRefs text)
    (place : String) : Echoes old (reportMalformedRefs text run place) (reportMalformedRefs text' again place) := by
  rw [reportMalformedRefs_eq, reportMalformedRefs_eq]
  have hgrows := foldl_grows place (findMalformedLinkRefs text) run
  have hcovers : ∀ raw ∈ findMalformedLinkRefs text', raw ∈ run.grandfathered ∨
      ((findMalformedLinkRefs text).foldl (reportMalformedRef place) run).Covers ⟨.malformedLinkRef, raw, place⟩ :=
    fun raw hraw => foldl_covers place run (hmore raw hraw)
  rw [← hgrows.grandfathered] at hcovers
  have hstart := h.grow hgrows
  generalize (findMalformedLinkRefs text).foldl (reportMalformedRef place) run = first at hcovers hstart
  generalize findMalformedLinkRefs text' = raws at hcovers
  clear h
  induction raws generalizing again with
  | nil => exact hstart
  | cons raw raws ih =>
    refine ih ⟨?_, fun i hi => ?_⟩ fun raw' hraw' => hcovers raw' (List.mem_cons_of_mem _ hraw')
    · rw [(reportMalformedRef_grows place again raw).grandfathered, hstart.grandfathered]
    · unfold reportMalformedRef at hi
      split at hi
      · exact hstart.issues i hi
      · rcases Run.mem_issue hi with hi | ⟨hnew, rfl⟩
        · exact hstart.issues i hi
        · rw [hstart.grandfathered] at hnew
          exact Or.inr ((hcovers raw List.mem_cons_self).resolve_left hnew)

/-! ### HTML and JSON -/

def storedPiece (parseUrl : List Char → Option Url) (lookup : LinkTargetLookup) (p : HtmlPiece) : HtmlPiece :=
  match p with
  | .text c => .text c
  | .attr a => .attr { a with value := attrText parseUrl lookup a }

theorem canonicalisePiece_steady (place : String) (p : HtmlPiece) :
    Steady (canonicalisePiece parseUrl lookup place) (storedPiece parseUrl lookup) p := by
  intro old run again h
  cases p with
  | text c => exact ⟨run, again, rfl, rfl, h⟩
  | attr a =>
    obtain ⟨run', again', hrun, hagain, h'⟩ := canonicaliseAttr_steady place a old run again h
    refine ⟨run', again', ?_, ?_, h'⟩
    · unfold canonicalisePiece storedPiece
      dsimp only
      rw [hrun]
      rfl
    · unfold canonicalisePiece storedPiece
      dsimp only
      rw [hagain]
      rfl

theorem canonicaliseHtmlLinks_steady (place : String) {html : List Char} (haligned : Aligned parseUrl lookup html) :
    Steady (fun html run => canonicaliseHtmlLinks parseUrl lookup html run place) (savedHtml parseUrl lookup) html := by
  intro old run again h
  have hpieces : ∀ p ∈ htmlPieces html,
      Steady (canonicalisePiece parseUrl lookup place) (storedPiece parseUrl lookup) p :=
    fun p _ => canonicalisePiece_steady place p
  obtain ⟨run', again', hrun, hagain, h'⟩ := mapRun_steady hpieces old run again h
  refine ⟨reportMalformedRefs html run' place, reportMalformedRefs (savedHtml parseUrl lookup html) again' place,
    ?_, ?_, reportMalformedRefs_echoes h' (fun _ => findMalformed_savedHtml) place⟩
  · dsimp only
    rw [canonicaliseHtmlLinks_eq, hrun]
    rfl
  · have hcut : htmlPieces (savedHtml parseUrl lookup html) = (htmlPieces html).map (storedPiece parseUrl lookup) := haligned
    dsimp only
    rw [canonicaliseHtmlLinks_eq, hcut, hagain]
    rfl

/-- Every string that is saved as HTML is stored with the same attributes. -/
def AllAligned (parseUrl : List Char → Option Url) (lookup : LinkTargetLookup) (strings : List (Bool × List Char)) : Prop :=
  ∀ x ∈ strings, x.1 = false → Aligned parseUrl lookup x.2

theorem canonicaliseString_steady (place : String) {asUrl : Bool} {s : String}
    (haligned : asUrl = false → Aligned parseUrl lookup s.toList) :
    Steady (fun value run => canonicaliseJsonLinks parseUrl lookup value run place asUrl)
      (fun value => savedJson parseUrl lookup value asUrl) (.str s) := by
  intro old run again h
  cases asUrl with
  | true =>
    obtain ⟨run', again', hrun, hagain, h'⟩ := canonicaliseUrl_steady .pagesAndMedia place s.toList old run again h
    dsimp only at hrun hagain
    refine ⟨run', again', ?_, ?_, h'⟩
    · dsimp only
      rw [canonicaliseJsonLinks, if_pos rfl, hrun]
      rfl
    · dsimp only
      rw [savedJson, canonicaliseJsonLinks, if_pos rfl, String.toList_ofList]
      unfold savedString
      rw [if_pos rfl, hagain]
      rfl
  | false =>
    by_cases hlt : '<' ∈ s.toList
    · have hstored : '<' ∈ savedHtml parseUrl lookup s.toList := lt_mem_mapValues _ hlt
      obtain ⟨run', again', hrun, hagain, h'⟩ := canonicaliseHtmlLinks_steady place (haligned rfl) old run again h
      dsimp only at hrun hagain
      have hsaved : savedJson parseUrl lookup (.str s) false = .str (String.ofList (savedHtml parseUrl lookup s.toList)) := by
        rw [savedJson]
        unfold savedString
        rw [if_neg Bool.false_ne_true, if_pos hlt]
      refine ⟨run', again', ?_, ?_, h'⟩
      · dsimp only
        rw [canonicaliseJsonLinks, if_neg Bool.false_ne_true, if_pos hlt, hrun, hsaved]
        rfl
      · dsimp only
        rw [hsaved, canonicaliseJsonLinks, if_neg Bool.false_ne_true, String.toList_ofList, if_pos hstored, hagain]
        rfl
    · have hsaved : savedJson parseUrl lookup (.str s) false = .str s := by
        rw [savedJson]
        unfold savedString
        rw [if_neg Bool.false_ne_true, if_neg hlt, String.ofList_toList]
      refine ⟨reportMalformedRefs s.toList run place, reportMalformedRefs s.toList again place, ?_, ?_,
        reportMalformedRefs_echoes h (fun _ hraw => hraw) place⟩
      · dsimp only
        rw [canonicaliseJsonLinks, if_neg Bool.false_ne_true, if_neg hlt, hsaved]
      · dsimp only
        rw [hsaved, canonicaliseJsonLinks, if_neg Bool.false_ne_true, if_neg hlt]

mutual

theorem canonicaliseJsonLinks_steady (value : Json) (place : String) (asUrl : Bool)
    (haligned : AllAligned parseUrl lookup (jsonStrings value asUrl)) :
    Steady (fun value run => canonicaliseJsonLinks parseUrl lookup value run place asUrl)
      (fun value => savedJson parseUrl lookup value asUrl) value := by
  intro old run again h
  cases value with
  | str s => exact canonicaliseString_steady place (haligned (asUrl, s.toList) List.mem_cons_self) old run again h
  | arr items =>
    obtain ⟨run', again', hrun, hagain, h'⟩ := canonicaliseItems_steady items 0 place asUrl haligned old run again h
    refine ⟨run', again', ?_, ?_, h'⟩
    · dsimp only
      rw [canonicaliseJsonLinks, hrun, savedJson]
      rfl
    · dsimp only
      rw [savedJson, canonicaliseJsonLinks, hagain]
      rfl
  | obj fields =>
    obtain ⟨run', again', hrun, hagain, h'⟩ := canonicaliseFields_steady fields place haligned old run again h
    refine ⟨run', again', ?_, ?_, h'⟩
    · dsimp only
      rw [canonicaliseJsonLinks, hrun, savedJson]
      rfl
    · dsimp only
      rw [savedJson, canonicaliseJsonLinks, hagain]
      rfl
  | null => exact ⟨run, again, rfl, rfl, h⟩
  | bool b => exact ⟨run, again, rfl, rfl, h⟩
  | num t => exact ⟨run, again, rfl, rfl, h⟩

theorem canonicaliseItems_steady (items : List Json) (i : Nat) (place : String) (asUrl : Bool)
    (haligned : AllAligned parseUrl lookup (itemStrings items asUrl)) (old : List Issue) (run again : Run)
    (h : Echoes old run again) : ∃ run' again',
      canonicaliseItems parseUrl lookup items i run place asUrl = some (savedItems parseUrl lookup items asUrl, run') ∧
      canonicaliseItems parseUrl lookup (savedItems parseUrl lookup items asUrl) i again place asUrl =
        some (savedItems parseUrl lookup items asUrl, again') ∧ Echoes old run' again' := by
  cases items with
  | nil => exact ⟨run, again, rfl, rfl, h⟩
  | cons v vs =>
    obtain ⟨hone, hmore⟩ := List.forall_mem_append.1 haligned
    obtain ⟨run₁, again₁, hrun₁, hagain₁, h₁⟩ :=
      canonicaliseJsonLinks_steady v s!"{place}[{i}]" asUrl hone old run again h
    obtain ⟨run₂, again₂, hrun₂, hagain₂, h₂⟩ := canonicaliseItems_steady vs (i + 1) place asUrl hmore old run₁ again₁ h₁
    dsimp only at hrun₁ hagain₁
    refine ⟨run₂, again₂, ?_, ?_, h₂⟩
    · rw [canonicaliseItems, hrun₁, Option.bind_some, hrun₂, savedItems]
      rfl
    · rw [savedItems, canonicaliseItems, hagain₁, Option.bind_some, hagain₂]
      rfl

theorem canonicaliseFields_steady (fields : List (String × Json)) (place : String)
    (haligned : AllAligned parseUrl lookup (fieldStrings fields)) (old : List Issue) (run again : Run)
    (h : Echoes old run again) : ∃ run' again',
      canonicaliseFields parseUrl lookup fields run place = some (savedFields parseUrl lookup fields, run') ∧
      canonicaliseFields parseUrl lookup (savedFields parseUrl lookup fields) again place =
        some (savedFields parseUrl lookup fields, again') ∧ Echoes old run' again' := by
  match fields with
  | [] => exact ⟨run, again, rfl, rfl, h⟩
  | (k, v) :: fs =>
    obtain ⟨hone, hmore⟩ := List.forall_mem_append.1 haligned
    obtain ⟨run₁, again₁, hrun₁, hagain₁, h₁⟩ :=
      canonicaliseJsonLinks_steady v s!"{place}.{k}" (isLinkKeyName k) hone old run again h
    obtain ⟨run₂, again₂, hrun₂, hagain₂, h₂⟩ := canonicaliseFields_steady fs place hmore old run₁ again₁ h₁
    dsimp only at hrun₁ hagain₁
    refine ⟨run₂, again₂, ?_, ?_, h₂⟩
    · rw [canonicaliseFields, hrun₁, Option.bind_some, hrun₂, savedFields]
      rfl
    · rw [savedFields, canonicaliseFields, hagain₁, Option.bind_some, hagain₂]
      rfl

end

end Spec

/-- Where a stored text is cut into the attributes it was made of, storing it again changes nothing, and what the second
save reports was reported by the first, or as part of a longer malformed reference. -/
theorem canonicalise_again (parseUrl : List Char → Option Url) (lookup : LinkTargetLookup) :
    (∀ (html : List Char) (run again : Run) (place : String), Aligned parseUrl lookup html →
      again.grandfathered = run.grandfathered → ∃ out run' again',
        canonicaliseHtmlLinks parseUrl lookup html run place = some (out, run') ∧
        canonicaliseHtmlLinks parseUrl lookup out again place = some (out, again') ∧
        ∀ i ∈ again'.issues, i ∈ again.issues ∨ run'.Covers i) ∧
    ∀ (value : Json) (run again : Run) (place : String) (asUrl : Bool),
      AllAligned parseUrl lookup (jsonStrings value asUrl) → again.grandfathered = run.grandfathered →
      ∃ out run' again',
        canonicaliseJsonLinks parseUrl lookup value run place asUrl = some (out, run') ∧
        canonicaliseJsonLinks parseUrl lookup out again place asUrl = some (out, again') ∧
        ∀ i ∈ again'.issues, i ∈ again.issues ∨ run'.Covers i := by
  have hstart : ∀ run again : Run, again.grandfathered = run.grandfathered → Echoes again.issues run again :=
    fun run again hg => ⟨hg, fun i hi => Or.inl hi⟩
  constructor
  · intro html run again place haligned hg
    obtain ⟨run', again', hrun, hagain, h⟩ := canonicaliseHtmlLinks_steady place haligned _ _ _ (hstart run again hg)
    exact ⟨_, run', again', hrun, hagain, h.issues⟩
  · intro value run again place asUrl haligned hg
    obtain ⟨run', again', hrun, hagain, h⟩ :=
      canonicaliseJsonLinks_steady value place asUrl haligned _ _ _ (hstart run again hg)
    exact ⟨_, run', again', hrun, hagain, h.issues⟩

theorem canonicalise_again_about :
    (∃ out run' again',
      canonicaliseHtmlLinks noUrl aboutSite "<a href=\" /about#team\">".toList (linkCanonicaliseRun []) "html" =
        some (out, run') ∧
      canonicaliseHtmlLinks noUrl aboutSite out (linkCanonicaliseRun []) "html" = some (out, again') ∧
      ∀ i ∈ again'.issues, i ∈ (linkCanonicaliseRun []).issues ∨ run'.Covers i) ∧
    ∃ out run' again',
      canonicaliseJsonLinks noUrl aboutSite (.obj [("href", .str "/about")]) (linkCanonicaliseRun []) "cta" false =
        some (out, run') ∧
      canonicaliseJsonLinks noUrl aboutSite out (linkCanonicaliseRun []) "cta" false = some (out, again') ∧
      ∀ i ∈ again'.issues, i ∈ (linkCanonicaliseRun []).issues ∨ run'.Covers i := by
  have hstrings : jsonStrings (.obj [("href", .str "/about")]) false = [(true, "/about".toList)] := by decide
  have haligned : AllAligned noUrl aboutSite (jsonStrings (.obj [("href", .str "/about")]) false) := by
    rw [hstrings]
    intro x hx hhtml
    rw [List.mem_singleton.1 hx] at hhtml
    cases hhtml
  refine ⟨(canonicalise_again noUrl aboutSite).1 _ _ _ _ ?_ rfl, (canonicalise_again noUrl aboutSite).2 _ _ _ _ _ haligned rfl⟩
  unfold Aligned
  decide

/-! ### Two saves that go on -/

/-- One absolute URL of the site is valid; its query is stored with the quotation mark escaped. -/
def shopUrl (v : List Char) : Option Url :=
  if v = "https://shop.example/about?q='".toList then
    some ⟨"https:".toList, [], [], "shop.example".toList, [], "/about".toList, "?q=%27".toList, [],
      "https://shop.example/about?q=%27".toList⟩
  else none

def shopSite : LinkTargetLookup := { aboutSite with isOwnHost := fun host => host == "shop.example".toList }

/-- The second save reports a malformed reference that the first had seen in a longer one, and a rewritten value with a
quotation mark lets a tag end later, so that the second save finds another link. -/
theorem canonicalise_twice_differs :
    (canonicaliseHtmlLinks noUrl aboutSite
        "<a href=\"/about?x=caelo:page/zzlong\"></a><b title=\"caelo:page/zz\">".toList (linkCanonicaliseRun []) "html" =
      some ("<a href=\"caelo:page/00000000-0000-4000-8000-000000000001?x=caelo:page/zzlong\"></a><b title=\"caelo:page/zz\">".toList,
        ⟨[], [⟨.malformedLinkRef, "caelo:page/zzlong".toList, "html"⟩], []⟩) ∧
    canonicaliseHtmlLinks noUrl aboutSite
        "<a href=\"caelo:page/00000000-0000-4000-8000-000000000001?x=caelo:page/zzlong\"></a><b title=\"caelo:page/zz\">".toList
        (linkCanonicaliseRun []) "html" =
      some ("<a href=\"caelo:page/00000000-0000-4000-8000-000000000001?x=caelo:page/zzlong\"></a><b title=\"caelo:page/zz\">".toList,
        ⟨[], [⟨.malformedLinkRef, "caelo:page/zz".toList, "html"⟩], []⟩)) ∧
    canonicaliseHtmlLinks shopUrl shopSite
        "<a title='x\" href=\"https://shop.example/about?q='\" y\"> href=\"/about\" '>".toList (linkCanonicaliseRun []) "html" =
      some ("<a title='x\" href=\"caelo:page/00000000-0000-4000-8000-000000000001?q=%27\" y\"> href=\"/about\" '>".toList,
        linkCanonicaliseRun []) ∧
    canonicaliseHtmlLinks shopUrl shopSite
        "<a title='x\" href=\"caelo:page/00000000-0000-4000-8000-000000000001?q=%27\" y\"> href=\"/about\" '>".toList
        (linkCanonicaliseRun []) "html" =
      some ("<a title='x\" href=\"caelo:page/00000000-0000-4000-8000-000000000001?q=%27\" y\"> href=\"caelo:page/00000000-0000-4000-8000-000000000001\" '>".toList,
        linkCanonicaliseRun []) := by
  refine ⟨⟨?_, ?_⟩, ?_, ?_⟩ <;> decide +kernel

end CaeloCms.Link
