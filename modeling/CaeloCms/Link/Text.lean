import CaeloCms.Lib.Scan
import CaeloCms.Link.Ref
import CaeloCms.Redirect.Target

/-!
# References in texts

The scanner of `link-refs.ts` finds references anywhere in a text, and text that starts like one in a link position and
breaks the grammar.  Quotation marks, commas, angle brackets and white space delimit it (`matchRef_delimits`).
`formatLinkRef` writes a reference; what it writes is read back (`parseRef_format`).
-/

namespace CaeloCms.Link

open Redirect (isSpace)

/-! ### The scanner -/

/-- `[A-Za-z0-9+.\-]`, the characters `REF_START_SRC` refuses before a reference. -/
def isSchemeChar (c : Char) : Bool := isAlphanum c || "+.-".toList.contains c

/-- `[^\s"'<>,]` -/
def isDelimiter (c : Char) : Bool := isSpace c || "\"'<>,".toList.contains c

/-- The look-behind of `MALFORMED_SRC`, `(?<=^|["'=,]|, )`; the text before the place comes nearest first. -/
def linkPosition (before : List Char) : Bool :=
  match before with
  | [] => true
  | c :: rest => "\"'=,".toList.contains c || (c == ' ' && rest.head? == some ',')

def refLike (s : List Char) : Bool := "caelo:page/".toList.isPrefixOf s || "caelo:media/".toList.isPrefixOf s

/-- The length of what `caelo:(?:page|media)/[^\s"'<>,]{0,96}` matches. -/
def malformedLength (s : List Char) : Nat :=
  let start := if "caelo:page/".toList.isPrefixOf s then 11 else 12
  start + (((s.drop start).take 96).takeWhile fun c => !isDelimiter c).length

/-- `linkRefScanner` at one place: a reference, or `none` for a malformed one. -/
def matchRef (before s : List Char) : Option (Option LinkRef × Nat) :=
  match if before.head?.any isSchemeChar then none else scanRef s with
  | some (ref, rest) => some (some ref, s.length - rest.length)
  | none => if linkPosition before && refLike s then some (none, malformedLength s) else none

def findLinkRefs (text : List Char) : List LinkRef := (Scan.finds matchRef [] text).filterMap (·.1)

/-- The pieces of a text that start like a reference and break the grammar. -/
def findMalformedLinkRefs (text : List Char) : List (List Char) :=
  (Scan.finds matchRef [] text).filterMap fun m => if m.1.isNone then some m.2 else none

def replaceLinkRefs (f : LinkRef → List Char → List Char) (text : List Char) : List Char :=
  Scan.replace matchRef (fun ref raw => match ref with
    | some ref => f ref raw
    | none => raw) [] text

/-! ### Reading and writing one reference -/

def parseRef (s : List Char) : Option LinkRef :=
  match scanRef s with
  | some (ref, []) => some ref
  | _ => none

def formatPart (mark : Char) : Option String → List Char
  | none => []
  | some part => if part = "" then [] else mark :: part.toList

/-- `formatLinkRef`; `none` where it throws. -/
def formatLinkRef (ref : LinkRef) : Option (List Char) :=
  let out := match ref with
    | .media mediaId variant => "caelo:media/".toList ++ mediaId.toList ++ formatPart '/' variant
    | .page pageId query anchor =>
      "caelo:page/".toList ++ pageId.toList ++ formatPart '?' query ++ formatPart '#' anchor
  if (parseRef out).isSome then some out else none

/-- `LINK_REF_PART_PATTERNS.query` -/
def queryOk (s : List Char) : Bool := s.all isQueryChar && 1 ≤ s.length && s.length ≤ 512

/-- `LINK_REF_PART_PATTERNS.anchor` -/
def anchorOk (s : List Char) : Bool := s.all isAnchorChar && 1 ≤ s.length && s.length ≤ 256

/-- `LINK_REF_PART_PATTERNS.variant` -/
def variantOk (s : List Char) : Bool :=
  s.head?.any (fun c => 'a' ≤ c && c ≤ 'z') && s.all isVariantChar && s.length ≤ 64

/-! ### Characters -/

variable {c : Char}

theorem isAlphanum_toNat (h : isAlphanum c = true) : 48 ≤ c.toNat ∧ c.toNat ≤ 122 := by
  have hle : ∀ a b : Char, a ≤ b → a.toNat ≤ b.toNat := fun a b hab => hab
  unfold isAlphanum Char.isDigit at h
  simp only [Bool.or_eq_true, Bool.and_eq_true, decide_eq_true_eq] at h
  rcases h with (⟨h₁, h₂⟩ | ⟨h₁, h₂⟩) | ⟨h₁, h₂⟩
  · exact ⟨h₁, Nat.le_trans h₂ (by decide)⟩
  · exact ⟨Nat.le_trans (by decide) (hle _ _ h₁), hle _ _ h₂⟩
  · exact ⟨Nat.le_trans (by decide) (hle _ _ h₁), Nat.le_trans (hle _ _ h₂) (by decide)⟩

theorem isDelimiter_toNat (h : isDelimiter c = true) :
    c.toNat < 33 ∨ 127 < c.toNat ∨ c = '"' ∨ c = '\'' ∨ c = '<' ∨ c = '>' ∨ c = ',' := by
  unfold isDelimiter isSpace at h
  simp only [Bool.or_eq_true, Bool.and_eq_true, decide_eq_true_eq, List.contains_eq_mem] at h
  rcases h with h | h
  · omega
  · simpa using Or.inr (Or.inr h)

/-- A character of the printable range that is none of the five marks is no delimiter. -/
theorem not_isDelimiter (hlow : 33 ≤ c.toNat) (hhigh : c.toNat ≤ 127)
    (hmark : "\"'<>,".toList.contains c = false) : isDelimiter c = false := by
  by_contra h
  rw [Bool.not_eq_false] at h
  have hmem : c ∉ ['"', '\'', '<', '>', ','] := by simpa using hmark
  simp only [List.mem_cons, List.not_mem_nil, or_false, not_or] at hmem
  rcases isDelimiter_toNat h with h | h | h | h | h | h | h
  · omega
  · omega
  · exact hmem.1 h
  · exact hmem.2.1 h
  · exact hmem.2.2.1 h
  · exact hmem.2.2.2.1 h
  · exact hmem.2.2.2.2 h

theorem isAlphanum_not_delimiter (h : isAlphanum c = true) : isDelimiter c = false := by
  obtain ⟨hlow, hhigh⟩ := isAlphanum_toNat h
  refine not_isDelimiter (by omega) (by omega) ?_
  have hnot : ("\"'<>,".toList.all fun d => !isAlphanum d) = true := by decide
  by_contra hmem
  rw [Bool.not_eq_false, List.contains_iff_mem] at hmem
  have hc := List.all_eq_true.1 hnot c hmem
  rw [h] at hc
  cases hc

theorem isDelimiter_of_class {chars : List Char} (hchars : (chars.all fun d => !isDelimiter d) = true)
    (h : (isAlphanum c || chars.contains c) = true) : isDelimiter c = false := by
  rw [Bool.or_eq_true, List.contains_iff_mem] at h
  rcases h with h | h
  · exact isAlphanum_not_delimiter h
  · simpa using List.all_eq_true.1 hchars c h

theorem isQueryChar_not_delimiter (h : isQueryChar c = true) : isDelimiter c = false :=
  isDelimiter_of_class (by decide) h

theorem isAnchorChar_not_delimiter (h : isAnchorChar c = true) : isDelimiter c = false :=
  isDelimiter_of_class (by decide) h

theorem isIdChar_not_delimiter (h : isIdChar c = true) : isDelimiter c = false :=
  isDelimiter_of_class (by decide) h

/-! ### What delimits a reference -/

section Delimiter

variable {d : Char}

theorem takeWhile_take_append {p : Char → Bool} (hd : p d = false) (s rest : List Char) (n : Nat) :
    ((s ++ d :: rest).take n).takeWhile p = (s.take n).takeWhile p := by
  induction s generalizing n with
  | nil => cases n <;> simp [hd]
  | cons c s ih =>
    cases n with
    | zero => rfl
    | succ n =>
      rw [List.cons_append, List.take_succ_cons, List.take_succ_cons, List.takeWhile_cons, List.takeWhile_cons, ih]

theorem isPrefixOf_append_delimiter {pre : List Char} (hpre : d ∉ pre) (s rest : List Char) :
    pre.isPrefixOf (s ++ d :: rest) = pre.isPrefixOf s := by
  induction pre generalizing s with
  | nil => cases s <;> rfl
  | cons c pre ih =>
    have hne : c ≠ d := fun h => hpre (h ▸ List.mem_cons_self)
    cases s with
    | nil => simp [List.isPrefixOf, hne]
    | cons e s => simp [List.isPrefixOf, ih (fun h => hpre (List.mem_cons_of_mem _ h)) s]

theorem isPrefixOf?_append_delimiter {pre : List Char} (hpre : d ∉ pre) (s rest : List Char) :
    pre.isPrefixOf? (s ++ d :: rest) = (pre.isPrefixOf? s).map (· ++ d :: rest) := by
  induction pre generalizing s with
  | nil => cases s <;> rfl
  | cons c pre ih =>
    have hne : c ≠ d := fun h => hpre (h ▸ List.mem_cons_self)
    cases s with
    | nil => simp [List.isPrefixOf?, hne]
    | cons e s =>
      simp only [List.cons_append, List.isPrefixOf?]
      split
      · exact ih (fun h => hpre (List.mem_cons_of_mem _ h)) s
      · rfl

theorem scanPart_append {mark : Char} {chars : Char → Bool} (hmark : d ≠ mark) (hd : chars d = false) (most : Nat)
    (s rest : List Char) :
    scanPart mark chars most (s ++ d :: rest) =
      ((scanPart mark chars most s).1, (scanPart mark chars most s).2 ++ d :: rest) := by
  cases s with
  | nil => simp [scanPart, hmark]
  | cons c s =>
    have hle : ((s.take most).takeWhile chars).length ≤ s.length :=
      ((List.takeWhile_sublist _).trans (List.take_sublist most s)).length_le
    have htake := takeWhile_take_append hd s rest most
    by_cases hpart : c = mark ∧ (s.take most).takeWhile chars ≠ []
    · simp [scanPart, htake, hpart, List.drop_append_of_le_length hle]
    · have hpart' : ¬(some c = some mark ∧ (s.take most).takeWhile chars ≠ []) := by simpa using hpart
      simp only [scanPart, List.cons_append, List.tail_cons, List.head?_cons, htake, hpart', if_false]

theorem scanVariant_cons_cons (c e : Char) (s : List Char) : scanVariant (c :: e :: s) =
    if ('a' ≤ e && e ≤ 'z') = true then scanPart '/' isVariantChar 64 (c :: e :: s) else (none, c :: e :: s) := rfl

theorem scanVariant_append (hd : isIdChar d = false) (s rest : List Char) :
    scanVariant (s ++ d :: rest) = ((scanVariant s).1, (scanVariant s).2 ++ d :: rest) := by
  have hslash : d ≠ '/' := fun h => by rw [h] at hd; cases hd
  have hvariant : isVariantChar d = false := by
    by_contra h
    rw [Bool.not_eq_false] at h
    rw [isIdChar_of_isVariantChar h] at hd
    cases hd
  have hletter : ¬('a' ≤ d && d ≤ 'z') = true := by
    intro h
    unfold isVariantChar at hvariant
    rw [h] at hvariant
    simp at hvariant
  match s with
  | [] =>
    unfold scanVariant
    have hpart : scanPart '/' isVariantChar 64 (d :: rest) = (none, d :: rest) := by simp [scanPart, hslash]
    simp only [List.nil_append, hpart, ite_self]
    rfl
  | [c] =>
    unfold scanVariant
    simp [hletter]
  | c :: e :: s =>
    rw [List.cons_append, List.cons_append, scanVariant_cons_cons, scanVariant_cons_cons]
    by_cases he : ('a' ≤ e && e ≤ 'z') = true
    · rw [if_pos he, if_pos he]
      exact scanPart_append hslash hvariant 64 (c :: e :: s) rest
    · rw [if_neg he, if_neg he]
      rfl

theorem idEnds_append (hd : isIdChar d = false) (s rest : List Char) : idEnds (s ++ d :: rest) = idEnds s := by
  cases s with
  | nil => simp [idEnds, hd]
  | cons c s => rfl

variable {s : List Char} {c : Char}

theorem isUuid_mem (h : isUuid s = true) (hc : c ∈ s) : isHex c = true ∨ c = '-' := by
  unfold isUuid at h
  rw [Bool.and_eq_true, beq_iff_eq, List.all_eq_true] at h
  have hfst : (s.zip uuidShape).map Prod.fst = s := List.map_fst_zip (by rw [h.1]; decide)
  rw [← hfst, List.mem_map] at hc
  obtain ⟨p, hp, rfl⟩ := hc
  have hshape := h.2 p hp
  split at hshape
  · exact Or.inr (by simpa using hshape)
  · exact Or.inl hshape

theorem isUuid_length (h : isUuid s = true) : s.length = 36 := by
  unfold isUuid at h
  rw [Bool.and_eq_true, beq_iff_eq] at h
  exact h.1

theorem isIdChar_of_isHex (h : isHex c = true) : isIdChar c = true := by
  unfold isHex at h
  unfold isIdChar isAlphanum
  simp only [Bool.or_eq_true, Bool.and_eq_true, decide_eq_true_eq] at h ⊢
  rcases h with h | ⟨hlow, hhigh⟩
  · exact Or.inl (Or.inl (Or.inl h))
  · exact Or.inl (Or.inl (Or.inr ⟨hlow, Nat.le_trans hhigh (by decide)⟩))

theorem isIdChar_of_isUuid (h : isUuid s = true) (hc : c ∈ s) : isIdChar c = true := by
  rcases isUuid_mem h hc with hhex | rfl
  · exact isIdChar_of_isHex hhex
  · decide

theorem isUuid_take_append (hd : isIdChar d = false) (s rest : List Char) :
    isUuid ((s ++ d :: rest).take 36) = isUuid (s.take 36) := by
  rcases Nat.lt_or_ge s.length 36 with hlt | hge
  · have hleft : isUuid ((s ++ d :: rest).take 36) = false := by
      by_contra h
      rw [Bool.not_eq_false] at h
      have hmem : d ∈ (s ++ d :: rest).take 36 := by
        rw [List.take_append, List.mem_append]
        obtain ⟨k, hk⟩ : ∃ k, 36 - s.length = k + 1 := ⟨35 - s.length, by omega⟩
        rw [hk, List.take_succ_cons]
        exact Or.inr List.mem_cons_self
      rw [isIdChar_of_isUuid h hmem] at hd
      cases hd
    have hright : isUuid (s.take 36) = false := by
      by_contra h
      rw [Bool.not_eq_false] at h
      have := isUuid_length h
      rw [List.length_take] at this
      omega
    rw [hleft, hright]
  · rw [List.take_append_of_le_length hge]

theorem scanRef_append (hd : isDelimiter d = true) (s rest : List Char) :
    scanRef (s ++ d :: rest) = (scanRef s).map fun r => (r.1, r.2 ++ d :: rest) := by
  have class_false : ∀ {p : Char → Bool}, (∀ {c}, p c = true → isDelimiter c = false) → p d = false := by
    intro p hp
    by_contra h
    rw [Bool.not_eq_false] at h
    rw [hp h] at hd
    cases hd
  have hid : isIdChar d = false := class_false isIdChar_not_delimiter
  have hquery : isQueryChar d = false := class_false isQueryChar_not_delimiter
  have hanchor : isAnchorChar d = false := class_false isAnchorChar_not_delimiter
  have hmem : ∀ {pre : List Char}, (pre.all fun c => !isDelimiter c) = true → d ∉ pre := by
    intro pre hpre hmem
    have := List.all_eq_true.1 hpre d hmem
    rw [hd] at this
    cases this
  have hpage : ∀ s, scanPage (s ++ d :: rest) = (scanPage s).map fun r => (r.1, r.2 ++ d :: rest) := by
    intro s
    unfold scanPage
    rw [isUuid_take_append hid]
    by_cases hu : isUuid (s.take 36) = true
    · have hlen : 36 ≤ s.length := by
        have := isUuid_length hu
        rw [List.length_take] at this
        omega
      have hquerys := scanPart_append (show d ≠ '?' by rintro rfl; cases hd) hquery 512
      have hanchors := scanPart_append (show d ≠ '#' by rintro rfl; cases hd) hanchor 256
      rw [List.drop_append_of_le_length hlen, List.take_append_of_le_length hlen, idEnds_append hid]
      simp only [hquerys, hanchors]
      split <;> rfl
    · simp [hu]
  have hmedia : ∀ s, scanMedia (s ++ d :: rest) = (scanMedia s).map fun r => (r.1, r.2 ++ d :: rest) := by
    intro s
    unfold scanMedia
    rw [isUuid_take_append hid]
    by_cases hu : isUuid (s.take 36) = true
    · have hlen : 36 ≤ s.length := by
        have := isUuid_length hu
        rw [List.length_take] at this
        omega
      rw [List.drop_append_of_le_length hlen, List.take_append_of_le_length hlen, scanVariant_append hid]
      simp only [idEnds_append hid]
      split <;> rfl
    · simp [hu]
  unfold scanRef
  rw [isPrefixOf?_append_delimiter (hmem (by decide)), isPrefixOf?_append_delimiter (hmem (by decide))]
  cases hp : "caelo:page/".toList.isPrefixOf? s with
  | some body => exact hpage body
  | none =>
    cases hm : "caelo:media/".toList.isPrefixOf? s with
    | some body => exact hmedia body
    | none => rfl

/-- A reference that is read is not empty, and the rest is the end of the text. -/
theorem scanRef_rest {rest : List Char} {ref : LinkRef} (h : scanRef s = some (ref, rest)) :
    rest.length < s.length := by
  have hpart : ∀ mark chars most (s : List Char), (scanPart mark chars most s).2.length ≤ s.length := by
    intro mark chars most s
    unfold scanPart
    dsimp only
    split
    · rw [List.length_drop, List.length_tail]
      omega
    · exact Nat.le_refl _
  have hvariant : ∀ s, (scanVariant s).2.length ≤ s.length := by
    intro s
    unfold scanVariant
    split
    · exact hpart ..
    · exact Nat.le_refl _
  unfold scanRef at h
  split at h
  · rename_i body hbody
    rw [eq_append_of_isPrefixOf hbody, List.length_append]
    unfold scanPage at h
    rw [Option.ite_none_right_eq_some, Option.some.injEq, Prod.mk.injEq] at h
    have h₁ := hpart '#' isAnchorChar 256 (scanPart '?' isQueryChar 512 (body.drop 36)).2
    have h₂ := hpart '?' isQueryChar 512 (body.drop 36)
    rw [h.2.2] at h₁
    rw [List.length_drop] at h₂
    have hstart : "caelo:page/".toList.length = 11 := rfl
    omega
  · rename_i body hpage hbody
    rw [eq_append_of_isPrefixOf hbody, List.length_append]
    unfold scanMedia at h
    rw [Option.ite_none_right_eq_some, Option.some.injEq, Prod.mk.injEq] at h
    have h₁ := hvariant (body.drop 36)
    rw [h.2.2, List.length_drop] at h₁
    have hstart : "caelo:media/".toList.length = 12 := rfl
    omega
  · cases h

theorem refLike_length (h : refLike s = true) :
    (if "caelo:page/".toList.isPrefixOf s then 11 else 12) ≤ s.length := by
  unfold refLike at h
  split
  · rename_i hpage
    exact (List.isPrefixOf_iff_prefix.1 hpage).length_le
  · rename_i hpage
    rw [Bool.or_eq_true] at h
    exact (List.isPrefixOf_iff_prefix.1 (h.resolve_left hpage)).length_le

theorem matchRef_delimits (hd : isDelimiter d = true) : Scan.Delimits matchRef d where
  apart before s rest hne := by
    have hmem : ∀ {pre : List Char}, (pre.all fun c => !isDelimiter c) = true → d ∉ pre := by
      intro pre hpre hmem
      have := List.all_eq_true.1 hpre d hmem
      rw [hd] at this
      cases this
    have hpage := isPrefixOf_append_delimiter (hmem (show ("caelo:page/".toList.all fun c => !isDelimiter c) = true by decide))
      s rest
    have hmedia := isPrefixOf_append_delimiter
      (hmem (show ("caelo:media/".toList.all fun c => !isDelimiter c) = true by decide)) s rest
    have hlike : refLike (s ++ d :: rest) = refLike s := by
      unfold refLike
      rw [hpage, hmedia]
    have hlength : refLike s = true → malformedLength (s ++ d :: rest) = malformedLength s := by
      intro hs
      have hle := refLike_length hs
      unfold malformedLength
      dsimp only
      rw [hpage, List.drop_append_of_le_length hle, takeWhile_take_append (by rw [hd]; rfl)]
    unfold matchRef
    rw [hlike, scanRef_append hd]
    split <;> rename_i heq
    · rename_i ref rest'
      by_cases hb : before.head?.any isSchemeChar = true
      · rw [if_pos hb] at heq
        cases heq
      · rw [if_neg hb] at heq ⊢
        obtain ⟨⟨ref', rest₀⟩, hscan, hr⟩ := Option.map_eq_some_iff.1 heq
        cases hr
        rw [hscan]
        have := scanRef_rest hscan
        simp only [List.length_append, List.length_cons, Option.some.injEq, Prod.mk.injEq, true_and]
        omega
    · have hnone : (if before.head?.any isSchemeChar = true then none else scanRef s) = none := by
        by_cases hb : before.head?.any isSchemeChar = true
        · rw [if_pos hb]
        · rw [if_neg hb] at heq ⊢
          exact Option.map_eq_none_iff.1 heq
      rw [hnone]
      by_cases hs : (linkPosition before && refLike s) = true
      · rw [if_pos hs, if_pos hs, hlength (Bool.and_eq_true_iff.1 hs).2]
      · rw [if_neg hs, if_neg hs]
  here before rest a n h := by
    have hc : 'c' ≠ d := by rintro rfl; cases hd
    have hscan : scanRef (d :: rest) = none := by
      unfold scanRef
      simp [List.isPrefixOf?, hc]
    have hlike : refLike (d :: rest) = false := by
      unfold refLike
      simp [List.isPrefixOf, hc]
    unfold matchRef at h
    rw [hscan, ite_self, hlike, Bool.and_false] at h
    cases h
  inside before s a n h := by
    unfold matchRef at h
    split at h
    · cases h
      exact Nat.sub_le ..
    · rw [Option.ite_none_right_eq_some, Option.some.injEq, Prod.mk.injEq] at h
      have hle := refLike_length (Bool.and_eq_true_iff.1 h.1).2
      rw [← h.2.2]
      unfold malformedLength
      dsimp only
      have hmore := ((List.takeWhile_sublist (fun c => !isDelimiter c)).trans
        (List.take_sublist 96 (s.drop (if "caelo:page/".toList.isPrefixOf s then 11 else 12)))).length_le
      rw [List.length_drop] at hmore
      omega

end Delimiter

/-! ### What is written is read back -/

theorem scanPart_read (mark : Char) {chars : Char → Bool} {most : Nat} {part rest : List Char}
    (hchars : part.all chars = true) (hne : part ≠ []) (hlen : part.length ≤ most)
    (hrest : rest.head?.any chars = false) :
    scanPart mark chars most (mark :: (part ++ rest)) = (some (String.ofList part), rest) := by
  have htake : ((part ++ rest).take most).takeWhile chars = part := by
    rw [List.take_append, List.take_of_length_le hlen, List.takeWhile_append_of_pos fun c hc =>
      List.all_eq_true.1 hchars c hc]
    cases rest with
    | nil => simp
    | cons c rest =>
      have hc : chars c = false := by simpa using hrest
      cases most - part.length <;> simp [hc]
  simp [scanPart, htake, hne]

theorem scanPart_skip {mark : Char} {chars : Char → Bool} {most : Nat} {s : List Char} (h : s.head? ≠ some mark) :
    scanPart mark chars most s = (none, s) := by
  simp [scanPart, h]

/-- The parts of a page reference, as `canonicaliseUrl` checks them. -/
def PartOk (ok : List Char → Bool) (part : Option String) : Prop := ∀ s, part = some s → ok s.toList = true

theorem formatPart_of_ok {ok : List Char → Bool} {part : Option String} (h : PartOk ok part) (hok : ok [] = false)
    (mark : Char) : formatPart mark part = (part.map fun s => mark :: s.toList).getD [] := by
  cases part with
  | none => rfl
  | some s =>
    have hs : s ≠ "" := by
      rintro rfl
      have := h "" rfl
      rw [show ("" : String).toList = [] from rfl, hok] at this
      cases this
    simp [formatPart, hs]

theorem parseRef_page {pageId : String} {query anchor : Option String} (hid : isUuid pageId.toList = true)
    (hquery : PartOk queryOk query) (hanchor : PartOk anchorOk anchor) :
    parseRef ("caelo:page/".toList ++ pageId.toList ++ formatPart '?' query ++ formatPart '#' anchor) =
      some (.page pageId query anchor) := by
  have hanchorPart : scanPart '#' isAnchorChar 256 (formatPart '#' anchor) = (anchor, []) := by
    rw [formatPart_of_ok hanchor rfl]
    cases anchor with
    | none => simp
    | some a =>
      have ha := hanchor a rfl
      unfold anchorOk at ha
      simp only [Bool.and_eq_true, decide_eq_true_eq] at ha
      have hread := scanPart_read '#' ha.1.1 (List.ne_nil_of_length_pos ha.1.2) ha.2 (show ([] : List Char).head?.any isAnchorChar = false from rfl)
      simpa using hread
  have hhash : ∀ p : Char → Bool, p '#' = false → (formatPart '#' anchor).head?.any p = false := by
    intro p hp
    rw [formatPart_of_ok hanchor rfl]
    cases anchor <;> simp [hp]
  have hqueryPart : scanPart '?' isQueryChar 512 (formatPart '?' query ++ formatPart '#' anchor) =
      (query, formatPart '#' anchor) := by
    rw [formatPart_of_ok hquery rfl]
    cases query with
    | none =>
      refine scanPart_skip fun h => ?_
      have hmark := hhash (fun c => c == '?') rfl
      have hhead : (formatPart '#' anchor).head? = some '?' := h
      rw [hhead] at hmark
      cases hmark
    | some q =>
      have hq := hquery q rfl
      unfold queryOk at hq
      simp only [Bool.and_eq_true, decide_eq_true_eq] at hq
      have hread := scanPart_read '?' hq.1.1 (List.ne_nil_of_length_pos hq.1.2) hq.2 (hhash isQueryChar rfl)
      simpa using hread
  have hends : idEnds (formatPart '?' query ++ formatPart '#' anchor) = true := by
    unfold idEnds
    rw [Bool.not_eq_true']
    rw [formatPart_of_ok hquery rfl]
    cases query with
    | none => exact hhash isIdChar rfl
    | some q => rfl
  have hlen := isUuid_length hid
  unfold parseRef
  rw [List.append_assoc, List.append_assoc, scanRef_page]
  unfold scanPage
  rw [List.take_append_of_le_length (Nat.le_of_eq hlen.symm), List.take_of_length_le (Nat.le_of_eq hlen),
    List.drop_append_of_le_length (Nat.le_of_eq hlen.symm), List.drop_of_length_le (Nat.le_of_eq hlen), List.nil_append]
  simp [hid, hends, hqueryPart, hanchorPart]

theorem parseRef_media {mediaId : String} {variant : Option String} (hid : isUuid mediaId.toList = true)
    (hvariant : PartOk variantOk variant) :
    parseRef ("caelo:media/".toList ++ mediaId.toList ++ formatPart '/' variant) = some (.media mediaId variant) := by
  have hpart : scanVariant (formatPart '/' variant) = (variant, []) := by
    rw [formatPart_of_ok hvariant rfl]
    cases variant with
    | none => rfl
    | some v =>
      have hv := hvariant v rfl
      unfold variantOk at hv
      simp only [Bool.and_eq_true, decide_eq_true_eq] at hv
      have hne : v.toList ≠ [] := by
        intro h
        rw [h] at hv
        cases hv.1.1
      have htail : isVariantTail ('/' :: v.toList) = true := by
        simp only [isVariantTail, List.tail_cons, hv.1.1, List.length_cons, Bool.true_and, Bool.or_eq_true,
          decide_eq_true_eq]
        exact Or.inr (by omega)
      have hscan := scanVariant_of_chars hne hv.1.2
      rw [if_pos htail] at hscan
      simpa using hscan
  have hlen := isUuid_length hid
  unfold parseRef
  rw [List.append_assoc, scanRef_media]
  unfold scanMedia
  rw [List.take_append_of_le_length (Nat.le_of_eq hlen.symm), List.take_of_length_le (Nat.le_of_eq hlen),
    List.drop_append_of_le_length (Nat.le_of_eq hlen.symm), List.drop_of_length_le (Nat.le_of_eq hlen), List.nil_append]
  simp [hid, hpart]

end CaeloCms.Link
