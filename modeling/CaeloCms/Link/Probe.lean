import CaeloCms.Link.Asking

/-!
# The probe

A computation that neither asks nor records has done nothing but give back what it was given (`Honest`), whatever the
lookup and the run are.  This goes from one URL through every position of a link to the whole of a write.
-/

namespace CaeloCms.Link.Asking

open Redirect (isSpace Url)

variable {α β : Type} {parseUrl : List Char → Option Url} {m : Canon α} {next : α → Canon β} {lookup : LinkTargets}
  {run : Run} {place : String}

/-! ### Steps -/

theorem result_bind :
    ((m >>= next) lookup run).result = (m lookup run).result.bind fun r => (next r.1 lookup r.2).result := by
  show (Canon.bind m next lookup run).result = _
  unfold Canon.bind
  cases (m lookup run).result <;> rfl

theorem bind_of_result {r : α × Run} (h : (m lookup run).result = some r) :
    (m >>= next) lookup run = ⟨(next r.1 lookup r.2).result, (m lookup run).asked || (next r.1 lookup r.2).asked⟩ := by
  show Canon.bind m next lookup run = _
  unfold Canon.bind
  rw [h]

theorem asked_of_asked_bind (h : ((m >>= next) lookup run).asked = false) : (m lookup run).asked = false := by
  change (Canon.bind m next lookup run).asked = false at h
  unfold Canon.bind at h
  split at h
  · exact h
  · exact (Bool.or_eq_false_iff.mp h).1

@[simp]
theorem pure_apply (a : α) : (pure a : Canon α) lookup run = ⟨some (a, run), false⟩ := rfl

@[simp]
theorem ask_apply (question : LinkTargets → α) : ask question lookup run = ⟨some (question lookup, run), true⟩ := rfl

/-- Issues that are recorded stay. -/
structure Growing (m : Canon α) : Prop where
  grows : ∀ lookup run r, (m lookup run).result = some r → run.Grows r.2

theorem Growing.pure (a : α) : Growing (pure a : Canon α) where
  grows := by
    rintro lookup run r ⟨⟩
    exact .refl run

theorem Growing.bind (hm : Growing m) (hnext : ∀ a, Growing (next a)) : Growing (m >>= next) where
  grows lookup run r h := by
    rw [result_bind] at h
    obtain ⟨r₁, h₁, h₂⟩ := Option.bind_eq_some_iff.mp h
    exact (hm.grows lookup run r₁ h₁).trans ((hnext r₁.1).grows lookup r₁.2 r h₂)

theorem Growing.ask (question : LinkTargets → α) : Growing (ask question) where
  grows := by
    rintro lookup run r ⟨⟩
    exact .refl run

theorem Growing.isPendingPagePath (path : List Char) : Growing (isPendingPagePath path) where
  grows := by
    rintro lookup run r ⟨⟩
    exact .refl run

theorem Growing.issue (kind : IssueKind) (value : List Char) (place : String) : Growing (issue kind value place) where
  grows := by
    rintro lookup run r ⟨⟩
    exact run.grows_issue ..

theorem Growing.issueUnless (fine : Bool) (kind : IssueKind) (value : List Char) (place : String) :
    Growing (issueUnless fine kind value place) := by
  unfold Asking.issueUnless
  split
  · exact .pure _
  · exact .issue ..

theorem Growing.pending (p : Pending) : Growing (pending p) where
  grows := by
    rintro lookup run r ⟨⟩
    exact ⟨rfl, List.prefix_rfl⟩

theorem Growing.orThrow (x : Option α) : Growing (orThrow x) where
  grows lookup run r h := by
    obtain ⟨a, _, rfl⟩ := Option.map_eq_some_iff.mp h
    exact .refl run

theorem grows_reportMalformedRefs (text : List Char) (run : Run) (place : String) :
    run.Grows (Link.reportMalformedRefs text run place) := by
  unfold Link.reportMalformedRefs
  generalize findMalformedLinkRefs text = raws
  induction raws generalizing run with
  | nil => exact .refl run
  | cons raw raws ih =>
    rw [List.foldl_cons]
    refine Run.Grows.trans ?_ (ih _)
    split
    · exact .refl run
    · exact run.grows_issue ..

theorem Growing.reportMalformedRefs (text : List Char) (place : String) : Growing (reportMalformedRefs text place) where
  grows := by
    rintro lookup run r ⟨⟩
    exact grows_reportMalformedRefs text run place

/-! ### Computations that give back what they were given -/

/-- Where the probe sees nothing, the result is `x` and the run is as it was, with every lookup. -/
structure Honest (m : Canon α) (x : α) : Prop where
  growing : Growing m
  quiet : ∀ run r, run.grandfathered = [] → (m nothing run).asked = false → (m nothing run).result = some r →
    r.2.issues = [] → r = (x, run) ∧ ∀ lookup real, m lookup real = ⟨some (x, real), false⟩

/-- It asks, or records an issue. -/
structure Loud (m : Canon α) : Prop where
  loud : ∀ run r, run.grandfathered = [] → (m nothing run).result = some r →
    (m nothing run).asked = true ∨ r.2.issues ≠ []

theorem Honest.of_loud (hgrowing : Growing m) (hloud : Loud m) (x : α) : Honest m x where
  growing := hgrowing
  quiet run r hg hasked hresult hissues := by
    rcases hloud.loud run r hg hresult with h | h
    · rw [h] at hasked
      cases hasked
    · exact absurd hissues h

theorem Honest.pure (a : α) : Honest (pure a : Canon α) a where
  growing := .pure a
  quiet := by
    rintro run r hg _ ⟨⟩ _
    exact ⟨rfl, fun _ _ => rfl⟩

theorem Honest.bind {x : α} {y : β} (hm : Honest m x) (hnext : ∀ a, Growing (next a)) (hy : Honest (next x) y) :
    Honest (m >>= next) y where
  growing := hm.growing.bind hnext
  quiet run r hg hasked hresult hissues := by
    have hfirst := asked_of_asked_bind hasked
    rw [result_bind] at hresult
    obtain ⟨r₁, h₁, h₂⟩ := Option.bind_eq_some_iff.mp hresult
    obtain ⟨rfl, hreal⟩ := hm.quiet run r₁ hg hfirst h₁ (((hnext r₁.1).grows nothing r₁.2 r h₂).clean hissues)
    rw [bind_of_result h₁] at hasked
    obtain ⟨rfl, hreal'⟩ := hy.quiet run r hg (Bool.or_eq_false_iff.mp hasked).2 h₂ hissues
    refine ⟨rfl, fun lookup real => ?_⟩
    have hone : (m lookup real).result = some (x, real) := by rw [hreal]
    rw [bind_of_result hone, hreal, hreal']
    rfl

theorem Honest.mapCanon {f : α → Canon α} (hf : ∀ x, Honest (f x) x) (xs : List α) : Honest (mapCanon f xs) xs := by
  induction xs with
  | nil => exact .pure _
  | cons x xs ih =>
    have hrest : ∀ y, Growing (Asking.mapCanon f xs >>= fun ys => Pure.pure (y :: ys)) :=
      fun y => ih.growing.bind fun ys => .pure _
    exact (hf x).bind hrest (ih.bind (fun ys => .pure _) (.pure _))

theorem loud_ask (question : LinkTargets → α) (next : α → Canon β) : Loud (ask question >>= next) where
  loud run r _ _ := by
    left
    have hone : (ask question nothing run).result = some (question nothing, run) := rfl
    rw [bind_of_result hone]
    rfl

theorem loud_issue (kind : IssueKind) (value : List Char) (place : String) {next : Unit → Canon β}
    (hnext : Growing (next ())) : Loud (issue kind value place >>= next) where
  loud run r hg h := by
    right
    rw [result_bind] at h
    intro hissues
    exact Run.issue_ne_nil hg kind value place ((hnext.grows nothing _ r h).clean hissues)

theorem honest_reportMalformedRefs (text : List Char) (place : String) : Honest (reportMalformedRefs text place) () where
  growing := .reportMalformedRefs text place
  quiet := by
    rintro run r hg _ ⟨⟩ hissues
    obtain ⟨_, hnone⟩ := reportMalformedRefs_spec hg hissues
    have hsame : ∀ real : Run, Link.reportMalformedRefs text real place = real := by
      intro real
      unfold Link.reportMalformedRefs
      rw [hnone]
      rfl
    refine ⟨by rw [hsame], fun lookup real => ?_⟩
    show Outcome.mk (some ((), Link.reportMalformedRefs text real place)) false = _
    rw [hsame]

/-! ### One URL -/

theorem growing_mediaIdFor (first : List Char) (variant : Option (List Char)) : Growing (mediaIdFor first variant) := by
  unfold mediaIdFor
  split
  · exact .pure _
  · exact .ask _

theorem growing_refuse (kind : IssueKind) (value out : List Char) (place : String) :
    Growing (issue kind value place >>= fun _ => pure out) :=
  (Growing.issue kind value place).bind fun _ => .pure out

theorem growing_canonicaliseMediaPath (first : List Char) (variant : Option (List Char)) (raw : List Char)
    (hasSuffix : Bool) (place : String) : Growing (canonicaliseMediaPath first variant raw hasSuffix place) := by
  unfold canonicaliseMediaPath
  refine (growing_mediaIdFor first variant).bind fun id => ?_
  cases id with
  | none => exact growing_refuse ..
  | some id =>
    refine (Growing.ask _).bind fun live => ?_
    split
    · exact growing_refuse ..
    · split
      · exact growing_refuse ..
      · exact .orThrow _

theorem growing_canonicalisePagePath (value v : List Char) (t : PathTail) (place : String) :
    Growing (canonicalisePagePath value v t place) := by
  unfold canonicalisePagePath
  refine (Growing.ask _).bind fun found => ?_
  cases found with
  | none =>
    refine (Growing.isPendingPagePath _).bind fun planned => ?_
    split
    · exact (Growing.pending _).bind fun _ => .pure _
    · split
      · exact (Growing.issueUnless ..).bind fun _ => .pure _
      · dsimp only
        split
        · exact .pure _
        · exact growing_refuse ..
  | some pageId =>
    dsimp only
    split
    · exact growing_refuse ..
    · exact .orThrow _

theorem loud_canonicaliseMediaPath (first : List Char) (variant : Option (List Char)) (raw : List Char)
    (hasSuffix : Bool) (place : String) : Loud (canonicaliseMediaPath first variant raw hasSuffix place) := by
  unfold canonicaliseMediaPath mediaIdFor
  split
  · exact ⟨fun run r _ _ => .inl rfl⟩
  · exact loud_ask _ _

theorem honest_localPart (v : List Char) {y : β} {next : Option (List Char) → Canon β}
    (hhonest : ∀ path, Honest (next path) y) : Honest (localPart parseUrl v >>= next) y := by
  have hnext : ∀ path, Growing (next path) := fun path => (hhonest path).growing
  have hpure : ∀ path : Option (List Char), Honest (Pure.pure path >>= next) y :=
    fun path => (Honest.pure path).bind hnext (hhonest path)
  unfold localPart
  split
  · split
    · exact hpure none
    next u _ =>
      have hask : Growing (ask fun lookup => lookup.isOwnHost ((hostOf u).map Char.toLower)) := .ask _
      refine .of_loud ((hask.bind fun own => .pure _).bind hnext) ⟨fun run r _ h => ?_⟩ y
      left
      rw [result_bind] at h
      obtain ⟨r₁, h₁, _⟩ := Option.bind_eq_some_iff.mp h
      rw [bind_of_result h₁]
      rfl
  · exact hpure _

theorem honest_canonicaliseUrl (value : List Char) (place : String) (scope : Scope) :
    Honest (canonicaliseUrl parseUrl value place scope) value := by
  unfold canonicaliseUrl
  dsimp only
  split
  · exact .pure _
  · split
    · exact .of_loud ((Growing.ask _).bind fun live => (Growing.issueUnless ..).bind fun _ => .pure _) (loud_ask _ _) _
    · split
      · exact .of_loud (growing_refuse ..) (loud_issue _ _ _ (.pure _)) _
      · refine honest_localPart _ fun path => ?_
        cases path with
        | none => exact .pure _
        | some path =>
          dsimp only
          split
          · exact .of_loud (growing_canonicaliseMediaPath ..) (loud_canonicaliseMediaPath ..) _
          · split
            · exact .pure _
            · exact .of_loud (growing_canonicalisePagePath ..) (loud_ask _ _) _

/-! ### Every position -/

theorem takeWhile_split (entry : List Char) :
    entry.takeWhile isSpace ++ ((entry.dropWhile isSpace).takeWhile fun c => !isSpace c) ++
      ((entry.dropWhile isSpace).dropWhile fun c => !isSpace c) = entry := by
  rw [List.append_assoc, List.takeWhile_append_dropWhile, List.takeWhile_append_dropWhile]

theorem honest_canonicaliseCandidate (entry : List Char) (place : String) :
    Honest (canonicaliseCandidate parseUrl entry place) entry := by
  unfold canonicaliseCandidate
  refine (honest_canonicaliseUrl _ place .media).bind (fun next => .pure _) ?_
  rw [takeWhile_split]
  exact .pure _

theorem honest_canonicaliseAttr (a : Attr) (place : String) : Honest (canonicaliseAttr parseUrl a place) a.value := by
  unfold canonicaliseAttr
  cases a.name with
  | href => exact honest_canonicaliseUrl ..
  | src => exact honest_canonicaliseUrl ..
  | poster => exact honest_canonicaliseUrl ..
  | srcset =>
    dsimp only
    unfold canonicaliseSrcset
    refine (Honest.mapCanon (fun entry => honest_canonicaliseCandidate entry place) (a.value.splitOn ',')).bind
      (fun _ => .pure _) ?_
    rw [List.intercalate_splitOn]
    exact .pure _

theorem honest_canonicalisePiece (place : String) (p : HtmlPiece) : Honest (canonicalisePiece parseUrl place p) p := by
  cases p with
  | text c => exact .pure _
  | attr a => exact (honest_canonicaliseAttr a place).bind (fun _ => .pure _) (.pure _)

theorem honest_canonicaliseHtmlLinks (html : List Char) (place : String) :
    Honest (canonicaliseHtmlLinks parseUrl html place) html := by
  have hreport : ∀ out : List Char, Honest (reportMalformedRefs html place >>= fun _ => pure out) out :=
    fun out => (honest_reportMalformedRefs html place).bind (fun _ => .pure _) (.pure _)
  unfold canonicaliseHtmlLinks
  split
  · exact hreport html
  · refine (Honest.mapCanon (honest_canonicalisePiece place) (htmlPieces html)).bind (fun ps => (hreport _).growing) ?_
    rw [htmlText_htmlPieces]
    exact hreport html

mutual

theorem honest_canonicaliseJsonLinks (value : Json) (place : String) (asUrl : Bool) :
    Honest (canonicaliseJsonLinks parseUrl value place asUrl) value := by
  cases value with
  | str s =>
    unfold canonicaliseJsonLinks
    split
    · refine (honest_canonicaliseUrl ..).bind (fun _ => .pure _) ?_
      rw [String.ofList_toList]
      exact .pure _
    · split
      · refine (honest_canonicaliseHtmlLinks ..).bind (fun _ => .pure _) ?_
        rw [String.ofList_toList]
        exact .pure _
      · exact (honest_reportMalformedRefs ..).bind (fun _ => .pure _) (.pure _)
  | arr items =>
    unfold canonicaliseJsonLinks
    exact (honest_canonicaliseItems items 0 place asUrl).bind (fun _ => .pure _) (.pure _)
  | obj fields =>
    unfold canonicaliseJsonLinks
    exact (honest_canonicaliseFields fields place).bind (fun _ => .pure _) (.pure _)
  | null => exact .pure _
  | bool b => exact .pure _
  | num t => exact .pure _

theorem honest_canonicaliseItems (items : List Json) (i : Nat) (place : String) (asUrl : Bool) :
    Honest (canonicaliseItems parseUrl items i place asUrl) items := by
  cases items with
  | nil => exact .pure _
  | cons v vs =>
    have hrest := honest_canonicaliseItems vs (i + 1) place asUrl
    exact (honest_canonicaliseJsonLinks v s!"{place}[{i}]" asUrl).bind (fun _ => hrest.growing.bind fun _ => .pure _)
      (hrest.bind (fun _ => .pure _) (.pure _))

theorem honest_canonicaliseFields (fields : List (String × Json)) (place : String) :
    Honest (canonicaliseFields parseUrl fields place) fields := by
  match fields with
  | [] => exact .pure _
  | (k, v) :: fs =>
    have hrest := honest_canonicaliseFields fs place
    exact (honest_canonicaliseJsonLinks v s!"{place}.{k}" (isLinkKeyName k)).bind
      (fun _ => hrest.growing.bind fun _ => .pure _) (hrest.bind (fun _ => .pure _) (.pure _))

end

theorem honest_canonicaliseFieldValue (field : Option Json) (name : String) (value : Json) (place : String)
    (urlNames : Option (List (List Char))) :
    Honest (canonicaliseFieldValue parseUrl field name value place urlNames) value := by
  unfold canonicaliseFieldValue
  split
  · exact .pure _
  · split
    · exact honest_canonicaliseJsonLinks ..
    · exact honest_canonicaliseJsonLinks ..

theorem honest_canonicaliseContentValues (fields : List Json) (values : List (String × Json))
    (urlNames : Option (List (List Char))) :
    Honest (canonicaliseContentValues parseUrl fields values urlNames) values := by
  unfold canonicaliseContentValues
  refine .mapCanon (fun entry => ?_) values
  exact (honest_canonicaliseFieldValue ..).bind (fun _ => .pure _) (.pure _)

theorem withDefault_self {value : Json} {entries : List (String × Json)}
    (h : (Json.obj entries).field "default" = some value) : withDefault value entries = entries := by
  induction entries with
  | nil => rfl
  | cons e entries ih =>
    obtain ⟨k, v⟩ := e
    unfold withDefault
    by_cases hk : k = "default"
    · subst hk
      have hv : v = value := by simpa [Json.field] using h
      rw [if_pos rfl, hv]
    · rw [if_neg hk, ih (by simpa [Json.field, hk] using h)]

theorem setDefault_self {f value : Json} (h : f.field "default" = some value) : setDefault f value = f := by
  cases f with
  | obj entries => rw [setDefault, withDefault_self h]
  | null => rfl
  | bool b => rfl
  | num t => rfl
  | str s => rfl
  | arr items => rfl

theorem honest_canonicaliseFieldDefault (urlNames : Option (List (List Char))) (f : Json) :
    Honest (canonicaliseFieldDefault parseUrl urlNames f) f := by
  unfold canonicaliseFieldDefault
  split
  · exact .pure _
  · exact .pure _
  next value hvalue =>
    refine (honest_canonicaliseFieldValue ..).bind (fun _ => .pure _) ?_
    rw [setDefault_self hvalue]
    exact .pure _

theorem honest_canonicaliseFieldDefaults (fields : List Json) (urlNames : Option (List (List Char))) :
    Honest (canonicaliseFieldDefaults parseUrl fields urlNames) fields :=
  .mapCanon (honest_canonicaliseFieldDefault urlNames) fields

theorem honest_pluginApply (column : String) (value : Json) (fields : Option (List Json)) :
    Honest (pluginApply parseUrl column value fields) value := by
  unfold pluginApply
  split
  · exact (honest_canonicaliseContentValues ..).bind (fun _ => .pure _) (.pure _)
  · exact honest_canonicaliseJsonLinks ..

/-! ### Without the flag -/

structure Computes (m : Canon α) (f : LinkTargets → Run → Option (α × Run)) : Prop where
  result : ∀ lookup run, (m lookup run).result = f lookup run

theorem Computes.map {f : LinkTargets → Run → Option (α × Run)} {g : α → β} (h : Computes m f) :
    Computes (m >>= fun a => pure (g a)) fun lookup run => (f lookup run).map fun r => (g r.1, r.2) where
  result lookup run := by
    rw [result_bind, h.result lookup run]
    cases f lookup run <;> rfl

theorem Computes.pair {γ : Type} {m' : Canon β} {f : LinkTargets → Run → Option (α × Run)}
    {f' : LinkTargets → Run → Option (β × Run)} {g : α → β → γ} (h : Computes m f) (h' : Computes m' f') :
    Computes (m >>= fun a => m' >>= fun b => pure (g a b)) fun lookup run =>
      (f lookup run).bind fun r => (f' lookup r.2).map fun rs => (g r.1 rs.1, rs.2) where
  result lookup run := by
    rw [result_bind, h.result lookup run]
    cases f lookup run with
    | none => rfl
    | some r => exact h'.map.result lookup r.2

theorem computes_canonicaliseMediaPath (first : List Char) (variant : Option (List Char)) (raw : List Char)
    (hasSuffix : Bool) (place : String) :
    Computes (canonicaliseMediaPath first variant raw hasSuffix place) fun lookup run =>
      Link.canonicaliseMediaPath lookup first variant raw hasSuffix run place where
  result lookup run := by
    have hid : (mediaIdFor first variant lookup run).result = some (if isUuid first && variant.isSome then
        some (String.ofList first) else lookup.mediaIdForSlug first, run) := by
      unfold mediaIdFor
      split <;> rfl
    unfold canonicaliseMediaPath Link.canonicaliseMediaPath
    rw [result_bind, hid, Option.bind_some]
    dsimp only
    generalize (if (isUuid first && variant.isSome) = true then some (String.ofList first) else
      lookup.mediaIdForSlug first) = id
    cases id with
    | none => rfl
    | some id =>
      dsimp only
      rw [result_bind, ask_apply, Option.bind_some]
      dsimp only
      split
      · rfl
      · split <;> rfl

theorem computes_canonicalisePagePath (value v : List Char) (t : PathTail) (place : String) :
    Computes (canonicalisePagePath value v t place) fun lookup run =>
      Link.canonicalisePagePath lookup value v t run place where
  result lookup run := by
    unfold canonicalisePagePath Link.canonicalisePagePath
    rw [result_bind, ask_apply, Option.bind_some]
    dsimp only
    cases lookup.pageIdForPath (normaliseLinkPath t.path) with
    | none =>
      dsimp only
      have hplanned : (isPendingPagePath (normaliseLinkPath t.path) lookup run).result =
          some (lookup.isPendingPagePath (normaliseLinkPath t.path), run) := rfl
      rw [result_bind, hplanned, Option.bind_some]
      dsimp only
      split
      · rfl
      · split
        · unfold issueUnless
          split <;> rfl
        · have hserved : (isFilePath t.path && siteServedFiles.contains t.path) = true ↔
              isFilePath t.path = true ∧ t.path ∈ siteServedFiles := by simp
          simp only [hserved]
          split <;> rfl
    | some pageId =>
      dsimp only
      split <;> rfl

theorem result_localPart (v : List Char) :
    (localPart parseUrl v lookup run).result = some (Link.localPart parseUrl lookup v, run) := by
  unfold localPart Link.localPart
  by_cases hhttp : isHttp v = true
  · rw [if_pos hhttp, if_pos hhttp]
    cases parseUrl v <;> rfl
  · rw [if_neg hhttp, if_neg hhttp]
    rfl

theorem computes_canonicaliseUrl (value : List Char) (place : String) (scope : Scope) :
    Computes (canonicaliseUrl parseUrl value place scope) fun lookup run =>
      Link.canonicaliseUrl parseUrl lookup value run place scope where
  result lookup run := by
    unfold canonicaliseUrl Link.canonicaliseUrl
    dsimp only
    by_cases hskip : trim value = [] ∨ hasPlaceholder (trim value) = true
    · rw [if_pos hskip, if_pos hskip]
      rfl
    · rw [if_neg hskip, if_neg hskip]
      cases parseRef (trim value) with
      | some ref =>
        dsimp only
        rw [result_bind, ask_apply, Option.bind_some]
        dsimp only
        unfold issueUnless
        cases targetExists lookup ref <;> rfl
      | none =>
        dsimp only
        by_cases hlike : refLike (trim value) = true
        · rw [if_pos hlike, if_pos hlike]
          rfl
        · rw [if_neg hlike, if_neg hlike, result_bind, result_localPart, Option.bind_some]
          dsimp only
          cases Link.localPart parseUrl lookup (trim value) with
          | none => rfl
          | some path =>
            dsimp only
            cases mediaSegments (splitPathTail path).path with
            | some segs => exact (computes_canonicaliseMediaPath ..).result lookup run
            | none =>
              dsimp only
              split
              · rfl
              · exact (computes_canonicalisePagePath ..).result lookup run

theorem Computes.mapCanon {f : α → Canon β} {g : LinkTargets → α → Run → Option (β × Run)}
    (h : ∀ x, Computes (f x) fun lookup run => g lookup x run) (xs : List α) :
    Computes (mapCanon f xs) fun lookup run => mapRun (g lookup) xs run := by
  induction xs with
  | nil => exact ⟨fun _ _ => rfl⟩
  | cons x xs ih => exact (h x).pair ih

theorem computes_canonicaliseCandidate (entry : List Char) (place : String) :
    Computes (canonicaliseCandidate parseUrl entry place) fun lookup run =>
      Link.canonicaliseCandidate parseUrl lookup entry run place :=
  (computes_canonicaliseUrl ..).map

theorem computes_canonicaliseAttr (a : Attr) (place : String) :
    Computes (canonicaliseAttr parseUrl a place) fun lookup run =>
      Link.canonicaliseAttr parseUrl lookup a run place where
  result lookup run := by
    unfold canonicaliseAttr Link.canonicaliseAttr
    cases a.name with
    | href => exact (computes_canonicaliseUrl ..).result lookup run
    | src => exact (computes_canonicaliseUrl ..).result lookup run
    | poster => exact (computes_canonicaliseUrl ..).result lookup run
    | srcset =>
      exact (Computes.mapCanon (fun entry => computes_canonicaliseCandidate entry place) _).map.result lookup run

theorem computes_canonicalisePiece (place : String) (p : HtmlPiece) :
    Computes (canonicalisePiece parseUrl place p) fun lookup run =>
      Link.canonicalisePiece parseUrl lookup place p run where
  result lookup run := by
    cases p with
    | text c => rfl
    | attr a => exact (computes_canonicaliseAttr a place).map.result lookup run

theorem computes_canonicaliseHtmlLinks (html : List Char) (place : String) :
    Computes (canonicaliseHtmlLinks parseUrl html place) fun lookup run =>
      Link.canonicaliseHtmlLinks parseUrl lookup html run place where
  result lookup run := by
    unfold canonicaliseHtmlLinks Link.canonicaliseHtmlLinks
    by_cases hassign : '=' ∉ html
    · rw [if_pos hassign, if_pos hassign]
      rfl
    · rw [if_neg hassign, if_neg hassign, result_bind,
        (Computes.mapCanon (computes_canonicalisePiece place) _).result lookup run]
      cases mapRun (Link.canonicalisePiece parseUrl lookup place) (htmlPieces html) run <;> rfl

mutual

theorem computes_canonicaliseJsonLinks (value : Json) (place : String) (asUrl : Bool) :
    Computes (canonicaliseJsonLinks parseUrl value place asUrl) fun lookup run =>
      Link.canonicaliseJsonLinks parseUrl lookup value run place asUrl where
  result lookup run := by
    cases value with
    | str s =>
      unfold canonicaliseJsonLinks Link.canonicaliseJsonLinks
      cases asUrl with
      | true =>
        exact (computes_canonicaliseUrl s.toList place .pagesAndMedia).map.result lookup run
      | false =>
        rw [if_neg Bool.false_ne_true, if_neg Bool.false_ne_true]
        by_cases htag : '<' ∈ s.toList
        · rw [if_pos htag, if_pos htag]
          exact (computes_canonicaliseHtmlLinks s.toList place).map.result lookup run
        · rw [if_neg htag, if_neg htag]
          rfl
    | arr items =>
      unfold canonicaliseJsonLinks Link.canonicaliseJsonLinks
      exact (computes_canonicaliseItems items 0 place asUrl).map.result lookup run
    | obj fields =>
      unfold canonicaliseJsonLinks Link.canonicaliseJsonLinks
      exact (computes_canonicaliseFields fields place).map.result lookup run
    | null => rfl
    | bool b => rfl
    | num t => rfl

theorem computes_canonicaliseItems (items : List Json) (i : Nat) (place : String) (asUrl : Bool) :
    Computes (canonicaliseItems parseUrl items i place asUrl) fun lookup run =>
      Link.canonicaliseItems parseUrl lookup items i run place asUrl where
  result lookup run := by
    cases items with
    | nil => rfl
    | cons v vs =>
      unfold canonicaliseItems Link.canonicaliseItems
      exact ((computes_canonicaliseJsonLinks v _ asUrl).pair (computes_canonicaliseItems vs (i + 1) place asUrl)).result
        lookup run

theorem computes_canonicaliseFields (fields : List (String × Json)) (place : String) :
    Computes (canonicaliseFields parseUrl fields place) fun lookup run =>
      Link.canonicaliseFields parseUrl lookup fields run place where
  result lookup run := by
    match fields with
    | [] => rfl
    | (k, v) :: fs =>
      unfold canonicaliseFields Link.canonicaliseFields
      exact ((computes_canonicaliseJsonLinks v _ _).pair (computes_canonicaliseFields fs place)).result lookup run

end

end CaeloCms.Link.Asking
