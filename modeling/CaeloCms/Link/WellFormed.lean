import CaeloCms.Link.Stored

/-!
# One URL

`canonicaliseUrl` answers every string.  A string that it changes by more than trimming becomes a reference to the
target that the site gives for the path of the link, with the query and the anchor of the link.  A media path of the
older form, `/_caelo/media/<uuid>/<variant>`, names its asset itself: of the site it is only asked whether the asset is
there.
-/

namespace CaeloCms.Link

open Redirect (isSpace Url)

/-- The ids the site answers with are those of rows. -/
structure LinkTargets.UuidIds (lookup : LinkTargets) : Prop where
  page : ∀ path id, lookup.pageIdForPath path = some id → isUuid id.toList = true
  media : ∀ slug id, lookup.mediaIdForSlug slug = some id → isUuid id.toList = true

/-- The asset of a media path with these segments. -/
def assetId (lookup : LinkTargets) (first : List Char) (variant : Option (List Char)) : Option String :=
  if isUuid first && variant.isSome then some (String.ofList first) else lookup.mediaIdForSlug first

inductive StandsFor (lookup : LinkTargets) (t : PathTail) : LinkRef → Prop
  | page {id : String} (notMedia : mediaSegments t.path = none)
      (answer : lookup.pageIdForPath (normaliseLinkPath t.path) = some id) :
      StandsFor lookup t (.page id (t.query.map String.ofList) (t.anchor.map String.ofList))
  | media {id : String} {first : List Char} {variant : Option (List Char)}
      (segments : mediaSegments t.path = some (first, variant)) (answer : assetId lookup first variant = some id)
      (found : lookup.mediaExists id = true) (noQuery : t.query = none) (noAnchor : t.anchor = none) :
      StandsFor lookup t
        (.media id ((if variant = some "orig".toList then none else variant).map String.ofList))

section

variable {parseUrl : List Char → Option Url} {lookup : LinkTargets} (hids : lookup.UuidIds)
include hids

theorem StandsFor.parse {t : PathTail} {ref : LinkRef} (h : StandsFor lookup t ref) (hsuffix : suffixOk t = true) :
    parseRef (refText ref) = some ref := by
  cases h with
  | page _ answer =>
    rw [suffixOk, Bool.and_eq_true] at hsuffix
    exact parseRef_page (hids.page _ _ answer) (partOk_of_all hsuffix.1) (partOk_of_all hsuffix.2)
  | @media id first variant segments answer _ _ _ =>
    have hid : isUuid id.toList = true := by
      unfold assetId at answer
      split at answer
      · rename_i huuid
        rw [Option.some.injEq] at answer
        rw [← answer, String.toList_ofList]
        exact (Bool.and_eq_true_iff.1 huuid).1
      · exact hids.media _ _ answer
    refine parseRef_media hid (partOk_of_all ?_)
    split
    · rfl
    · exact mediaSegments_variant segments

theorem StandsFor.format {t : PathTail} {ref : LinkRef} (h : StandsFor lookup t ref) (hsuffix : suffixOk t = true) :
    formatLinkRef ref = some (refText ref) := by
  rw [formatLinkRef_eq, h.parse hids hsuffix]
  rfl

theorem canonicaliseMediaPath_cases {t : PathTail} {first : List Char} {variant : Option (List Char)}
    (hsegs : mediaSegments t.path = some (first, variant)) (raw : List Char) (run : Run) (place : String) :
    ∃ out run', canonicaliseMediaPath lookup first variant raw (t.query.isSome || t.anchor.isSome) run place =
        some (out, run') ∧
      (out = raw ∨ ∃ ref, parseRef out = some ref ∧ StandsFor lookup t ref) := by
  have hid : (if (isUuid first && variant.isSome) = true then some (String.ofList first)
      else lookup.mediaIdForSlug first) = assetId lookup first variant := rfl
  unfold canonicaliseMediaPath
  dsimp only
  rw [hid]
  cases hanswer : assetId lookup first variant with
  | none => exact ⟨raw, _, rfl, Or.inl rfl⟩
  | some id =>
    dsimp only
    by_cases hfound : lookup.mediaExists id = true
    · by_cases hmore : (t.query.isSome || t.anchor.isSome) = true
      · exact ⟨raw, _, by rw [hfound, hmore]; rfl, Or.inl rfl⟩
      · have hnone : t.query = none ∧ t.anchor = none := by simpa using hmore
        have hstands := StandsFor.media hsegs hanswer hfound hnone.1 hnone.2
        have hsuffix : suffixOk t = true := by simp [suffixOk, hnone]
        refine ⟨_, run, ?_, Or.inr ⟨_, hstands.parse hids hsuffix, hstands⟩⟩
        rw [hfound, if_neg (by decide), if_neg hmore, hstands.format hids hsuffix]
        rfl
    · exact ⟨raw, _, by rw [if_pos (by simpa using hfound)], Or.inl rfl⟩

theorem canonicalisePagePath_cases {t : PathTail} (hsegs : mediaSegments t.path = none) (value v : List Char)
    (run : Run) (place : String) :
    ∃ out run', canonicalisePagePath lookup value v t run place = some (out, run') ∧
      (out = value ∨ ∃ ref, parseRef out = some ref ∧ StandsFor lookup t ref) := by
  unfold canonicalisePagePath
  dsimp only
  cases hpage : lookup.pageIdForPath (normaliseLinkPath t.path) with
  | none =>
    dsimp only
    split
    · exact ⟨value, _, rfl, Or.inl rfl⟩
    · split
      · exact ⟨value, _, rfl, Or.inl rfl⟩
      · split <;> exact ⟨value, _, rfl, Or.inl rfl⟩
  | some id =>
    dsimp only
    have hstands := StandsFor.page hsegs hpage
    by_cases hsuffix : suffixOk t = true
    · refine ⟨_, run, ?_, Or.inr ⟨_, hstands.parse hids hsuffix, hstands⟩⟩
      rw [hsuffix, hstands.format hids hsuffix]
      rfl
    · exact ⟨value, _, by rw [if_pos (by simpa using hsuffix)], Or.inl rfl⟩

/-- What becomes of a string: it stays, it is trimmed, or it is a reference that its link stands for. -/
theorem canonicaliseUrl_wellFormed (value : List Char) (run : Run) (place : String) (scope : Scope) :
    ∃ out run', canonicaliseUrl parseUrl lookup value run place scope = some (out, run') ∧
      (out = value ∨ out = trim value ∨ ∃ path ref, localPart parseUrl lookup (trim value) = some path ∧
        parseRef out = some ref ∧ StandsFor lookup (splitPathTail path) ref) := by
  unfold canonicaliseUrl
  dsimp only
  split
  · exact ⟨value, run, rfl, Or.inl rfl⟩
  · cases hparse : parseRef (trim value) with
    | some ref => exact ⟨_, _, rfl, Or.inr (Or.inl rfl)⟩
    | none =>
      dsimp only
      split
      · exact ⟨value, _, rfl, Or.inl rfl⟩
      · cases hlocal : localPart parseUrl lookup (trim value) with
        | none => exact ⟨value, run, rfl, Or.inl rfl⟩
        | some path =>
          dsimp only
          cases hsegs : mediaSegments (splitPathTail path).path with
          | some segs =>
            obtain ⟨first, variant⟩ := segs
            obtain ⟨out, run', hout, hcases⟩ := canonicaliseMediaPath_cases hids hsegs (trim value) run place
            refine ⟨out, run', hout, Or.inr (hcases.imp_right ?_)⟩
            rintro ⟨ref, hread, hstands⟩
            exact ⟨path, ref, rfl, hread, hstands⟩
          | none =>
            dsimp only
            split
            · exact ⟨value, run, rfl, Or.inl rfl⟩
            · obtain ⟨out, run', hout, hcases⟩ := canonicalisePagePath_cases hids hsegs value (trim value) run place
              refine ⟨out, run', hout, hcases.imp_right ?_⟩
              rintro ⟨ref, hread, hstands⟩
              exact Or.inr ⟨path, ref, rfl, hread, hstands⟩

end

/-! ### A site with one page and one asset -/

/-- A site with a page at `/about` and an asset that has no slug. -/
def smallSite : LinkTargets where
  pageIdForPath path := if path = "/about".toList then some "4f1c2d7e-90ab-4c35-8e61-b2d3f4a5c687" else none
  mediaIdForSlug _ := none
  pageExists id := id == "4f1c2d7e-90ab-4c35-8e61-b2d3f4a5c687"
  mediaExists id := id == "0b7e6f0a-3c1d-4f58-9a2b-6d4e8c1f0a37"
  isOwnHost _ := false
  isPendingPagePath _ := false

theorem smallSite_uuidIds : smallSite.UuidIds where
  page path id h := by
    unfold smallSite at h
    dsimp only at h
    rw [Option.ite_none_right_eq_some, Option.some.injEq] at h
    rw [← h.2]
    decide
  media slug id h := by cases h

theorem canonicaliseUrl_wellFormed_about :
    ∃ out run', canonicaliseUrl (fun _ => none) smallSite " /about?ref=nav#team".toList (linkCanonicaliseRun []) "html"
        .pagesAndMedia = some (out, run') ∧
      (out = " /about?ref=nav#team".toList ∨ out = trim " /about?ref=nav#team".toList ∨
        ∃ path ref, localPart (fun _ => none) smallSite (trim " /about?ref=nav#team".toList) = some path ∧
          parseRef out = some ref ∧ StandsFor smallSite (splitPathTail path) ref) :=
  canonicaliseUrl_wellFormed smallSite_uuidIds _ _ _ _

/-- The reference to the asset has its id from the link: the site gives this id for no path and no slug. -/
theorem canonicaliseUrl_own_id :
    smallSite.UuidIds ∧
      canonicaliseUrl (fun _ => none) smallSite
          "/_caelo/media/0b7e6f0a-3c1d-4f58-9a2b-6d4e8c1f0a37/webp-800".toList (linkCanonicaliseRun []) "html" .media =
        some ("caelo:media/0b7e6f0a-3c1d-4f58-9a2b-6d4e8c1f0a37/webp-800".toList, linkCanonicaliseRun []) ∧
      parseRef "caelo:media/0b7e6f0a-3c1d-4f58-9a2b-6d4e8c1f0a37/webp-800".toList =
        some (.media "0b7e6f0a-3c1d-4f58-9a2b-6d4e8c1f0a37" (some "webp-800")) ∧
      (∀ path, smallSite.pageIdForPath path ≠ some "0b7e6f0a-3c1d-4f58-9a2b-6d4e8c1f0a37") ∧
      ∀ slug, smallSite.mediaIdForSlug slug ≠ some "0b7e6f0a-3c1d-4f58-9a2b-6d4e8c1f0a37" := by
  refine ⟨smallSite_uuidIds, by decide, by decide, fun path h => ?_, fun slug h => by cases h⟩
  unfold smallSite at h
  dsimp only at h
  rw [Option.ite_none_right_eq_some, Option.some.injEq] at h
  exact absurd h.2 (by decide)

end CaeloCms.Link
