import Mathlib

/-!
# Internal references

The grammar of `link-refs.ts`:

* `caelo:page/<pageId>[?query][#anchor]`
* `caelo:media/<mediaId>[/<variant>]`

with ids that are lowercase UUIDs.  A scan reads the longest reference at the start of a text and leaves the rest; no
alternative of the grammar can be continued in two ways, so the longest match is the only one.
-/

namespace CaeloCms.Link

/-- `[0-9a-f]` -/
def isHex (c : Char) : Bool := c.isDigit || ('a' ≤ c && c ≤ 'f')

/-- `[A-Za-z0-9]` -/
def isAlphanum (c : Char) : Bool := c.isDigit || ('a' ≤ c && c ≤ 'z') || ('A' ≤ c && c ≤ 'Z')

/-- `QUERY_SRC` -/
def isQueryChar (c : Char) : Bool := isAlphanum c || "_-.~%=&;+/:@!$()*".toList.contains c

/-- `ANCHOR_SRC` -/
def isAnchorChar (c : Char) : Bool := isAlphanum c || "_-.~%:".toList.contains c

/-- `[a-z0-9-]` -/
def isVariantChar (c : Char) : Bool := c.isDigit || ('a' ≤ c && c ≤ 'z') || c == '-'

/-- The characters `ID_END_SRC` looks out for. -/
def isIdChar (c : Char) : Bool := isAlphanum c || "_/-".toList.contains c

def uuidShape : List Bool :=
  let group := fun n => List.replicate n false
  group 8 ++ true :: (group 4 ++ true :: (group 4 ++ true :: (group 4 ++ true :: group 12)))

/-- `UUID_SRC`, as a test of a whole text. -/
def isUuid (s : List Char) : Bool :=
  s.length == 36 && (s.zip uuidShape).all fun p => if p.2 then p.1 == '-' else isHex p.1

/-- An internal reference. -/
inductive LinkRef
  | page (pageId : String) (query anchor : Option String)
  | media (mediaId : String) (variant : Option String)
deriving DecidableEq, Repr

def scanPart (mark : Char) (chars : Char → Bool) (most : Nat) (s : List Char) : Option String × List Char :=
  let part := (s.tail.take most).takeWhile chars
  if s.head? = some mark ∧ part ≠ [] then (some (String.ofList part), s.tail.drop part.length) else (none, s)

/-- `ID_END_SRC` -/
def idEnds (s : List Char) : Bool := !(s.head?.any isIdChar)

/-- `PAGE_BODY_SRC`, after `page/`. -/
def scanPage (s : List Char) : Option (LinkRef × List Char) :=
  if isUuid (s.take 36) ∧ idEnds (s.drop 36) then
    let query := scanPart '?' isQueryChar 512 (s.drop 36)
    let anchor := scanPart '#' isAnchorChar 256 query.2
    some (.page (String.ofList (s.take 36)) query.1 anchor.1, anchor.2)
  else none

/-- `(?:/(<VARIANT_SRC>))?` -/
def scanVariant (s : List Char) : Option String × List Char :=
  if s.tail.head?.any fun c => 'a' ≤ c && c ≤ 'z' then scanPart '/' isVariantChar 64 s else (none, s)

/-- `MEDIA_BODY_SRC`, after `media/`. -/
def scanMedia (s : List Char) : Option (LinkRef × List Char) :=
  let variant := scanVariant (s.drop 36)
  if isUuid (s.take 36) ∧ idEnds variant.2 then
    some (.media (String.ofList (s.take 36)) variant.1, variant.2)
  else none

/-- The reference at the start of a text, and the text after it. -/
def scanRef (s : List Char) : Option (LinkRef × List Char) :=
  match "caelo:page/".toList.isPrefixOf? s, "caelo:media/".toList.isPrefixOf? s with
  | some body, _ => scanPage body
  | none, some body => scanMedia body
  | none, none => none

def parseLinkRef (value : String) : Option LinkRef :=
  match scanRef value.toList with
  | some (ref, []) => some ref
  | _ => none

/-! ### References without query and anchor -/

theorem isPrefixOf_append {α : Type} [BEq α] [LawfulBEq α] (pre rest : List α) :
    pre.isPrefixOf? (pre ++ rest) = some rest := by
  induction pre with
  | nil => rfl
  | cons c pre ih =>
    simp only [List.cons_append, List.isPrefixOf?, beq_self_eq_true, if_true]
    exact ih

theorem eq_append_of_isPrefixOf {α : Type} [BEq α] [LawfulBEq α] {pre s rest : List α}
    (h : pre.isPrefixOf? s = some rest) : s = pre ++ rest := by
  induction pre generalizing s with
  | nil =>
    cases h
    rfl
  | cons c pre ih =>
    cases s with
    | nil => cases h
    | cons d s =>
      unfold List.isPrefixOf? at h
      split at h
      · rename_i hcd
        rw [ih h, eq_of_beq hcd]
        rfl
      · cases h

@[simp] theorem scanPart_nil (mark : Char) (chars : Char → Bool) (most : Nat) :
    scanPart mark chars most [] = (none, []) := by
  simp [scanPart]

@[simp] theorem scanVariant_nil : scanVariant [] = (none, []) := rfl

@[simp] theorem idEnds_nil : idEnds [] = true := rfl

theorem scanRef_page (body : List Char) : scanRef ("caelo:page/".toList ++ body) = scanPage body := by
  unfold scanRef
  rw [isPrefixOf_append]

theorem scanRef_media (body : List Char) : scanRef ("caelo:media/".toList ++ body) = scanMedia body := by
  have hpage : "caelo:page/".toList.isPrefixOf? ("caelo:media/".toList ++ body) = none := by
    simp [List.isPrefixOf?]
  unfold scanRef
  rw [hpage, isPrefixOf_append]

/-- Of a text of 36 characters after `caelo:page/`, exactly a UUID is read as a reference. -/
theorem parseLinkRef_page {value : String} {id : List Char} (hvalue : value.toList = "caelo:page/".toList ++ id)
    (hlen : id.length = 36) :
    parseLinkRef value = if isUuid id then some (.page (String.ofList id) none none) else none := by
  have htake : id.take 36 = id := List.take_of_length_le (by omega)
  have hdrop : id.drop 36 = [] := List.drop_of_length_le (by omega)
  unfold parseLinkRef
  rw [hvalue, scanRef_page]
  unfold scanPage
  rw [htake, hdrop]
  by_cases h : isUuid id = true
  · simp [h]
  · simp [h]

/-- `(?:/[a-z][a-z0-9-]{0,63})?`, of a text whose characters after the slash are in `[a-z0-9-]`. -/
def isVariantTail (s : List Char) : Bool :=
  s.isEmpty || ((s.tail.head?.any fun c => 'a' ≤ c && c ≤ 'z') && s.length ≤ 65)

theorem isIdChar_of_isVariantChar {c : Char} (h : isVariantChar c = true) : isIdChar c = true := by
  unfold isVariantChar at h
  unfold isIdChar isAlphanum
  simp only [Bool.or_eq_true, beq_iff_eq] at h
  rcases h with (h | h) | h
  · simp [h]
  · simp [h]
  · subst h
    rfl

/-- The variant after a media id is read to its end exactly when it has the shape of one. -/
theorem scanVariant_of_chars {variant : List Char} (hne : variant ≠ []) (hchars : variant.all isVariantChar = true) :
    if isVariantTail ('/' :: variant) then scanVariant ('/' :: variant) = (some (String.ofList variant), [])
    else idEnds (scanVariant ('/' :: variant)).2 = false := by
  obtain ⟨c, rest, rfl⟩ := List.exists_cons_of_ne_nil hne
  have hpart : ((c :: rest).take 64).takeWhile isVariantChar = (c :: rest).take 64 := by
    apply List.takeWhile_eq_self_iff.2
    intro d hd
    exact List.all_eq_true.1 hchars d (List.mem_of_mem_take hd)
  have hscan : scanPart '/' isVariantChar 64 ('/' :: c :: rest) =
      (some (String.ofList ((c :: rest).take 64)), (c :: rest).drop 64) := by
    have hdrop : (c :: rest).drop (min 64 (c :: rest).length) = (c :: rest).drop 64 := by
      rcases Nat.le_total (c :: rest).length 64 with hle | hle
      · rw [Nat.min_eq_right hle, List.drop_of_length_le (Nat.le_refl _), List.drop_of_length_le hle]
      · rw [Nat.min_eq_left hle]
    unfold scanPart
    rw [List.tail_cons, hpart, if_pos ⟨rfl, by simp⟩, List.length_take, hdrop]
  by_cases hletter : ('a' ≤ c && c ≤ 'z') = true
  · have hvariant : scanVariant ('/' :: c :: rest) = scanPart '/' isVariantChar 64 ('/' :: c :: rest) := by
      unfold scanVariant
      simp only [List.tail_cons, List.head?_cons, Option.any_some, hletter, if_true]
    rw [hvariant, hscan]
    by_cases hlen : (c :: rest).length ≤ 64
    · have htail : isVariantTail ('/' :: c :: rest) = true := by
        simp only [isVariantTail, List.tail_cons, List.head?_cons, Option.any_some, hletter]
        simp at hlen ⊢
        omega
      rw [if_pos htail, List.take_of_length_le hlen, List.drop_of_length_le hlen]
    · have htail : ¬isVariantTail ('/' :: c :: rest) = true := by
        simp only [isVariantTail, List.tail_cons, List.head?_cons, Option.any_some, hletter]
        simp at hlen ⊢
        omega
      rw [if_neg htail]
      obtain ⟨d, rest', hdrop⟩ : ∃ d rest', (c :: rest).drop 64 = d :: rest' := by
        apply List.exists_cons_of_ne_nil
        intro hnil
        exact hlen (List.drop_eq_nil_iff.1 hnil)
      have hd : isVariantChar d = true := by
        apply List.all_eq_true.1 hchars d
        apply List.mem_of_mem_drop
        rw [hdrop]
        exact List.mem_cons_self
      simp [hdrop, idEnds, isIdChar_of_isVariantChar hd]
  · have htail : ¬isVariantTail ('/' :: c :: rest) = true := by
      simp [isVariantTail, hletter]
    have hvariant : scanVariant ('/' :: c :: rest) = (none, '/' :: c :: rest) := by
      unfold scanVariant
      simp only [List.tail_cons, List.head?_cons, Option.any_some, hletter]
      rfl
    rw [if_neg htail, hvariant]
    rfl

/-- Of a text of 36 characters after `caelo:media/`, with or without a variant, exactly a UUID without a variant or
with one of its shape is read as a reference. -/
theorem parseLinkRef_media {value : String} {body : List Char} (hvalue : value.toList = "caelo:media/".toList ++ body)
    (htail : body.drop 36 = [] ∨ ∃ variant, body.drop 36 = '/' :: variant ∧ variant ≠ [] ∧
      variant.all isVariantChar = true) :
    (isUuid (body.take 36) && isVariantTail (body.drop 36)) = true ∧
        (∃ variant, parseLinkRef value = some (.media (String.ofList (body.take 36)) variant)) ∨
      (isUuid (body.take 36) && isVariantTail (body.drop 36)) = false ∧ parseLinkRef value = none := by
  have hparse : parseLinkRef value = match scanMedia body with
      | some (ref, []) => some ref
      | _ => none := by
    unfold parseLinkRef
    rw [hvalue, scanRef_media]
  rw [hparse]
  unfold scanMedia
  by_cases hid : isUuid (body.take 36) = true
  · rcases htail with hnil | ⟨variant, hdrop, hne, hchars⟩
    · left
      simp [hid, hnil, isVariantTail]
    · have hscan := scanVariant_of_chars hne hchars
      rw [hdrop]
      by_cases hshape : isVariantTail ('/' :: variant) = true
      · left
        rw [if_pos hshape] at hscan
        simp [hid, hshape, hscan]
      · right
        rw [if_neg hshape] at hscan
        simp [hid, hshape, hscan]
  · right
    simp [hid]

end CaeloCms.Link
