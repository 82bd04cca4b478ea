import CaeloCms.Link.CleanSave

/-!
# What a save stores

The text a save stores depends on the text it gets and on the site, not on its run: a URL is stored as `urlText`, HTML as
`savedHtml`, a JSON value as `savedJson`.
-/

namespace CaeloCms.Link

open Redirect (isSpace Url)

section Stored

variable (parseUrl : List Char → Option Url) (lookup : LinkTargetLookup)

/-- The reference to the media asset of a path with these segments. -/
def mediaLink (first : List Char) (variant : Option (List Char)) (hasSuffix : Bool) : Option LinkRef :=
  let id := if isUuid first && variant.isSome then some (String.ofList first) else lookup.mediaIdForSlug first
  let kept := if variant = some "orig".toList then none else variant
  id.bind fun id =>
    if lookup.mediaExists id && !hasSuffix then some (.media id (kept.map String.ofList)) else none

def pageLink (t : PathTail) : Option LinkRef :=
  if suffixOk t then
    (lookup.pageIdForPath (normaliseLinkPath t.path)).map fun id =>
      .page id (t.query.map String.ofList) (t.anchor.map String.ofList)
  else none

def pathLink (scope : Scope) (path : List Char) : Option LinkRef :=
  let t := splitPathTail path
  match mediaSegments t.path with
  | some (first, variant) => mediaLink lookup first variant (t.query.isSome || t.anchor.isSome)
  | none => if scope = .media ∨ isReservedPath t.path = true then none else pageLink lookup t

/-- A trimmed value that is taken for no link. -/
def skipped (v : List Char) : Bool := v == [] || hasPlaceholder v || refLike v

/-- The reference a trimmed value is rewritten to. -/
def urlLink (scope : Scope) (v : List Char) : Option LinkRef :=
  if skipped v then none else (localPart parseUrl lookup v).bind (pathLink lookup scope)

def storedTrimmed (v : List Char) : Bool :=
  !(v == [] || hasPlaceholder v) && ((parseRef v).isSome ||
    !refLike v && (localPart parseUrl lookup v).any fun path => (mediaSegments (splitPathTail path).path).isSome)

def refText : LinkRef → List Char
  | .media mediaId variant => "caelo:media/".toList ++ mediaId.toList ++ formatPart '/' variant
  | .page pageId query anchor => "caelo:page/".toList ++ pageId.toList ++ formatPart '?' query ++ formatPart '#' anchor

def urlText (scope : Scope) (value : List Char) : List Char :=
  match urlLink parseUrl lookup scope (trim value) with
  | some ref => refText ref
  | none => if storedTrimmed parseUrl lookup (trim value) then trim value else value

/-- A candidate of a `srcset`, with its URL changed. -/
def mapCandidate (f : List Char → List Char) (entry : List Char) : List Char :=
  entry.takeWhile isSpace ++ f ((entry.dropWhile isSpace).takeWhile fun c => !isSpace c) ++
    (entry.dropWhile isSpace).dropWhile fun c => !isSpace c

def mapSrcset (f : List Char → List Char) (srcset : List Char) : List Char :=
  [','].intercalate ((srcset.splitOn ',').map (mapCandidate f))

def mapUrls (f : Scope → List Char → List Char) (a : Attr) : List Char :=
  match a.name with
  | .href => f .pagesAndMedia a.value
  | .srcset => mapSrcset (f .media) a.value
  | .src => f .media a.value
  | .poster => f .media a.value

def attrText (a : Attr) : List Char := mapUrls (urlText parseUrl lookup) a

def savedHtml (html : List Char) : List Char := htmlText (mapValues (attrText parseUrl lookup) (htmlPieces html))

def savedString (asUrl : Bool) (s : List Char) : List Char :=
  if asUrl then urlText parseUrl lookup .pagesAndMedia s
  else if '<' ∈ s then savedHtml parseUrl lookup s
  else s

mutual

def savedJson (value : Json) (asUrl : Bool) : Json :=
  match value with
  | .str s => .str (String.ofList (savedString parseUrl lookup asUrl s.toList))
  | .arr items => .arr (savedItems items asUrl)
  | .obj fields => .obj (savedFields fields)
  | .null => .null
  | .bool b => .bool b
  | .num t => .num t

def savedItems (items : List Json) (asUrl : Bool) : List Json :=
  match items with
  | [] => []
  | v :: vs => savedJson v asUrl :: savedItems vs asUrl

def savedFields (fields : List (String × Json)) : List (String × Json) :=
  match fields with
  | [] => []
  | (k, v) :: fs => (k, savedJson v (isLinkKeyName k)) :: savedFields fs

end

end Stored

section Spec

variable {parseUrl : List Char → Option Url} {lookup : LinkTargetLookup}

/-! ### References of the site -/

/-- The reference has a target, and parts that are written and read back. -/
def WellMade (lookup : LinkTargetLookup) : LinkRef → Prop
  | .page pageId query anchor => lookup.pageExists pageId = true ∧ PartOk queryOk query ∧ PartOk anchorOk anchor
  | .media mediaId variant => lookup.mediaExists mediaId = true ∧ PartOk variantOk variant

variable {ref : LinkRef} {scope : Scope} {v : List Char}

theorem WellMade.parse (h : WellMade lookup ref) : parseRef (refText ref) = some ref := by
  cases ref with
  | page pageId query anchor => exact parseRef_page (lookup.pageIds pageId h.1) h.2.1 h.2.2
  | media mediaId variant => exact parseRef_media (lookup.mediaIds mediaId h.1) h.2

theorem formatLinkRef_eq (ref : LinkRef) :
    formatLinkRef ref = if (parseRef (refText ref)).isSome then some (refText ref) else none := by
  cases ref <;> rfl

theorem WellMade.format (h : WellMade lookup ref) : formatLinkRef ref = some (refText ref) := by
  rw [formatLinkRef_eq, h.parse]
  rfl

theorem mediaLink_wellMade {first : List Char} {variant : Option (List Char)} {hasSuffix : Bool}
    (hvariant : variant.all variantOk = true) (h : mediaLink lookup first variant hasSuffix = some ref) :
    WellMade lookup ref := by
  unfold mediaLink at h
  obtain ⟨id, -, h⟩ := Option.bind_eq_some_iff.1 h
  rw [Option.ite_none_right_eq_some, Option.some.injEq, Bool.and_eq_true] at h
  obtain ⟨⟨hexists, -⟩, rfl⟩ := h
  refine ⟨hexists, partOk_of_all ?_⟩
  split
  · rfl
  · exact hvariant

theorem pageLink_wellMade {t : PathTail} (h : pageLink lookup t = some ref) : WellMade lookup ref := by
  unfold pageLink at h
  rw [Option.ite_none_right_eq_some] at h
  obtain ⟨hok, h⟩ := h
  obtain ⟨id, hid, rfl⟩ := Option.map_eq_some_iff.1 h
  rw [suffixOk, Bool.and_eq_true] at hok
  exact ⟨lookup.served _ id hid, partOk_of_all hok.1, partOk_of_all hok.2⟩

theorem urlLink_some (h : urlLink parseUrl lookup scope v = some ref) :
    skipped v = false ∧ ∃ path, localPart parseUrl lookup v = some path ∧ pathLink lookup scope path = some ref := by
  unfold urlLink at h
  rw [Option.ite_none_left_eq_some] at h
  exact ⟨by simpa using h.1, Option.bind_eq_some_iff.1 h.2⟩

theorem urlLink_wellMade
    (h : urlLink parseUrl lookup scope v = some ref) : WellMade lookup ref := by
  obtain ⟨-, path, -, h⟩ := urlLink_some h
  unfold pathLink at h
  dsimp only at h
  split at h
  · rename_i first variant hsegs
    exact mediaLink_wellMade (mediaSegments_variant hsegs) h
  · rw [Option.ite_none_left_eq_some] at h
    exact pageLink_wellMade h.2

theorem urlText_of_link {value : List Char}
    (h : urlLink parseUrl lookup scope (trim value) = some ref) : urlText parseUrl lookup scope value = refText ref := by
  unfold urlText
  rw [h]

theorem urlText_of_none {value : List Char}
    (h : urlLink parseUrl lookup scope (trim value) = none) :
    urlText parseUrl lookup scope value = if storedTrimmed parseUrl lookup (trim value) then trim value else value := by
  unfold urlText
  rw [h]

/-! ### The save stores it -/

theorem refLike_of_parseRef (h : parseRef v = some ref) : refLike v = true := by
  have hscan := scanRef_of_parseRef h
  unfold scanRef at hscan
  unfold refLike
  split at hscan
  · rename_i body hbody
    rw [Bool.or_eq_true]
    exact Or.inl (List.isPrefixOf_iff_prefix.2 ⟨body, (eq_append_of_isPrefixOf hbody).symm⟩)
  · rename_i body _ hbody
    rw [Bool.or_eq_true]
    exact Or.inr (List.isPrefixOf_iff_prefix.2 ⟨body, (eq_append_of_isPrefixOf hbody).symm⟩)
  · cases hscan

theorem canonicaliseMediaPath_text {first : List Char} {variant : Option (List Char)} {raw : List Char}
    {hasSuffix : Bool} (run : Run) (place : String) (hvariant : variant.all variantOk = true) :
    ∃ run', canonicaliseMediaPath lookup first variant raw hasSuffix run place =
      some ((mediaLink lookup first variant hasSuffix).elim raw refText, run') := by
  have hwell : ∀ ref, mediaLink lookup first variant hasSuffix = some ref → WellMade lookup ref :=
    fun _ h => mediaLink_wellMade hvariant h
  unfold mediaLink at hwell ⊢
  unfold canonicaliseMediaPath
  dsimp only at hwell ⊢
  generalize (if (isUuid first && variant.isSome) = true then some (String.ofList first) else lookup.mediaIdForSlug first) =
    found at hwell ⊢
  generalize (if variant = some "orig".toList then none else variant) = kept at hwell ⊢
  cases found with
  | none => exact ⟨_, rfl⟩
  | some id =>
    simp only [Option.bind_some] at hwell ⊢
    by_cases hexists : lookup.mediaExists id = true
    · cases hasSuffix with
      | true => simp [hexists]
      | false =>
        have hformat := (hwell _ (if_pos (by rw [hexists]; rfl))).format
        simp [hexists, hformat]
    · simp [hexists]

theorem canonicalisePagePath_text (value v : List Char) (t : PathTail) (run : Run) (place : String) :
    ∃ run', canonicalisePagePath lookup value v t run place = some ((pageLink lookup t).elim value refText, run') := by
  have hwell : ∀ ref, pageLink lookup t = some ref → WellMade lookup ref := fun _ h => pageLink_wellMade h
  unfold canonicalisePagePath pageLink at *
  dsimp only at hwell ⊢
  cases hpage : lookup.pageIdForPath (normaliseLinkPath t.path) with
  | none =>
    rw [Option.map_none, ite_self, Option.elim_none]
    dsimp only
    split
    · exact ⟨_, rfl⟩
    · split
      · exact ⟨_, rfl⟩
      · split <;> exact ⟨_, rfl⟩
  | some pageId =>
    rw [hpage] at hwell
    by_cases hok : suffixOk t = true
    · have hformat := (hwell _ (if_pos hok)).format
      simp [hok, hformat]
    · simp [hok]

theorem canonicaliseUrl_text (scope : Scope) (value : List Char) (run : Run) (place : String) :
    ∃ run', canonicaliseUrl parseUrl lookup value run place scope = some (urlText parseUrl lookup scope value, run') := by
  unfold canonicaliseUrl urlText urlLink storedTrimmed skipped
  dsimp only
  by_cases hskip : trim value = [] ∨ hasPlaceholder (trim value) = true
  · have hskipped : (trim value == [] || hasPlaceholder (trim value)) = true := by simpa using hskip
    rw [if_pos hskip, hskipped]
    exact ⟨run, rfl⟩
  · have hskipped : (trim value == [] || hasPlaceholder (trim value)) = false := by simpa using hskip
    rw [if_neg hskip, hskipped, Bool.false_or, Bool.not_false, Bool.true_and]
    cases hparse : parseRef (trim value) with
    | some ref =>
      rw [refLike_of_parseRef hparse]
      exact ⟨_, rfl⟩
    | none =>
      dsimp only
      by_cases hlike : refLike (trim value) = true
      · rw [hlike]
        exact ⟨_, rfl⟩
      · rw [Bool.not_eq_true] at hlike
        rw [hlike]
        cases hlocal : localPart parseUrl lookup (trim value) with
        | none => exact ⟨run, rfl⟩
        | some path =>
          simp only [Bool.false_eq_true, if_false, Option.bind_some, Option.isSome_none, Bool.not_false, Bool.true_and,
            Bool.false_or, Option.any_some]
          unfold pathLink
          dsimp only
          cases hsegs : mediaSegments (splitPathTail path).path with
          | some segs =>
            obtain ⟨first, variant⟩ := segs
            obtain ⟨run', htext⟩ := canonicaliseMediaPath_text run place (mediaSegments_variant hsegs)
            refine ⟨run', htext.trans ?_⟩
            dsimp only
            cases mediaLink lookup first variant
              ((splitPathTail path).query.isSome || (splitPathTail path).anchor.isSome) <;> rfl
          | none =>
            dsimp only
            by_cases hkept : scope = .media ∨ isReservedPath (splitPathTail path).path = true
            · rw [if_pos hkept, if_pos hkept]
              exact ⟨run, rfl⟩
            · rw [if_neg hkept, if_neg hkept]
              obtain ⟨run', htext⟩ := canonicalisePagePath_text value (trim value) (splitPathTail path) run place
              refine ⟨run', htext.trans ?_⟩
              cases pageLink lookup (splitPathTail path) <;> rfl

theorem mapRun_text {α β : Type} {f : α → Run → Option (β × Run)} {g : α → β}
    (hf : ∀ x run, ∃ run', f x run = some (g x, run')) (xs : List α) (run : Run) :
    ∃ run', mapRun f xs run = some (xs.map g, run') := by
  induction xs generalizing run with
  | nil => exact ⟨run, rfl⟩
  | cons x xs ih =>
    obtain ⟨run₁, hx⟩ := hf x run
    obtain ⟨run₂, hxs⟩ := ih run₁
    refine ⟨run₂, ?_⟩
    rw [mapRun, hx, Option.bind_some, hxs]
    rfl

theorem canonicaliseAttr_text (a : Attr) (run : Run) (place : String) :
    ∃ run', canonicaliseAttr parseUrl lookup a run place = some (attrText parseUrl lookup a, run') := by
  unfold canonicaliseAttr attrText mapUrls
  cases a.name with
  | href => exact canonicaliseUrl_text ..
  | src => exact canonicaliseUrl_text ..
  | poster => exact canonicaliseUrl_text ..
  | srcset =>
    have hcandidate : ∀ entry run, ∃ run', canonicaliseCandidate parseUrl lookup entry run place =
        some (mapCandidate (urlText parseUrl lookup .media) entry, run') := by
      intro entry run
      obtain ⟨run', hurl⟩ := canonicaliseUrl_text .media
        ((entry.dropWhile isSpace).takeWhile fun c => !isSpace c) run place
      refine ⟨run', ?_⟩
      unfold canonicaliseCandidate
      dsimp only
      rw [hurl]
      rfl
    obtain ⟨run', hmap⟩ := mapRun_text hcandidate (a.value.splitOn ',') run
    refine ⟨run', ?_⟩
    dsimp only
    unfold canonicaliseSrcset
    rw [hmap]
    rfl

theorem canonicaliseHtmlLinks_text (html : List Char) (run : Run) (place : String) :
    ∃ run', canonicaliseHtmlLinks parseUrl lookup html run place = some (savedHtml parseUrl lookup html, run') := by
  have hpiece : ∀ p run, ∃ run', canonicalisePiece parseUrl lookup place p run =
      some ((mapValues (attrText parseUrl lookup) [p]).headD p, run') := by
    intro p run
    cases p with
    | text c => exact ⟨run, rfl⟩
    | attr a =>
      obtain ⟨run', hattr⟩ := canonicaliseAttr_text a run place
      refine ⟨run', ?_⟩
      unfold canonicalisePiece
      dsimp only
      rw [hattr]
      rfl
  obtain ⟨run', hmap⟩ := mapRun_text hpiece (htmlPieces html) run
  refine ⟨reportMalformedRefs html run' place, ?_⟩
  rw [canonicaliseHtmlLinks_eq, hmap]
  rfl

theorem canonicaliseString_text (asUrl : Bool) (s : String) (run : Run) (place : String) :
    ∃ run', canonicaliseJsonLinks parseUrl lookup (.str s) run place asUrl =
      some (savedJson parseUrl lookup (.str s) asUrl, run') := by
  unfold canonicaliseJsonLinks savedJson savedString
  cases asUrl with
  | true =>
    obtain ⟨run', hurl⟩ := canonicaliseUrl_text .pagesAndMedia s.toList run place
    refine ⟨run', ?_⟩
    rw [if_pos rfl, if_pos rfl, hurl]
    rfl
  | false =>
    rw [if_neg Bool.false_ne_true, if_neg Bool.false_ne_true]
    split
    · obtain ⟨run', hhtml⟩ := canonicaliseHtmlLinks_text s.toList run place
      refine ⟨run', ?_⟩
      rw [hhtml]
      rfl
    · refine ⟨reportMalformedRefs s.toList run place, ?_⟩
      rw [String.ofList_toList]

mutual

theorem canonicaliseJsonLinks_text (value : Json) (run : Run) (place : String) (asUrl : Bool) :
    ∃ run', canonicaliseJsonLinks parseUrl lookup value run place asUrl =
      some (savedJson parseUrl lookup value asUrl, run') := by
  cases value with
  | str s => exact canonicaliseString_text asUrl s run place
  | arr items =>
    obtain ⟨run', hitems⟩ := canonicaliseItems_text items 0 run place asUrl
    refine ⟨run', ?_⟩
    rw [canonicaliseJsonLinks, hitems, savedJson]
    rfl
  | obj fields =>
    obtain ⟨run', hfields⟩ := canonicaliseFields_text fields run place
    refine ⟨run', ?_⟩
    rw [canonicaliseJsonLinks, hfields, savedJson]
    rfl
  | null => exact ⟨run, rfl⟩
  | bool b => exact ⟨run, rfl⟩
  | num t => exact ⟨run, rfl⟩

theorem canonicaliseItems_text (items : List Json) (i : Nat) (run : Run) (place : String) (asUrl : Bool) :
    ∃ run', canonicaliseItems parseUrl lookup items i run place asUrl =
      some (savedItems parseUrl lookup items asUrl, run') := by
  cases items with
  | nil => exact ⟨run, rfl⟩
  | cons v vs =>
    obtain ⟨run₁, hone⟩ := canonicaliseJsonLinks_text v run s!"{place}[{i}]" asUrl
    obtain ⟨run₂, hrest⟩ := canonicaliseItems_text vs (i + 1) run₁ place asUrl
    refine ⟨run₂, ?_⟩
    rw [canonicaliseItems, hone, Option.bind_some, hrest, savedItems]
    rfl

theorem canonicaliseFields_text (fields : List (String × Json)) (run : Run) (place : String) :
    ∃ run', canonicaliseFields parseUrl lookup fields run place = some (savedFields parseUrl lookup fields, run') := by
  match fields with
  | [] => exact ⟨run, rfl⟩
  | (k, v) :: fs =>
    obtain ⟨run₁, hone⟩ := canonicaliseJsonLinks_text v run s!"{place}.{k}" (isLinkKeyName k)
    obtain ⟨run₂, hrest⟩ := canonicaliseFields_text fs run₁ place
    refine ⟨run₂, ?_⟩
    rw [canonicaliseFields, hone, Option.bind_some, hrest, savedFields]
    rfl

end

end Spec

end CaeloCms.Link
