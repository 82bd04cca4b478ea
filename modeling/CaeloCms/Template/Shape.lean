import CaeloCms.Template.Engine

/-!
# What the passes see of a sentinel

A scanner tells a sentinel from a character, and does not see what the sentinel stands for: each scanner commutes with
`shape`, which forgets it.
-/

namespace CaeloCms.Template

open Redirect (isSpace)

/-- The symbol without what it stands for. -/
def Sym.shape : Sym → Sym
  | char c => char c
  | mask _ => mask []

/-- The text without what its sentinels stand for. -/
def shape (s : List Sym) : List Sym := s.map Sym.shape

@[simp] theorem shape_nil : shape [] = [] := rfl

@[simp] theorem shape_cons (x : Sym) (s : List Sym) : shape (x :: s) = x.shape :: shape s := rfl

@[simp] theorem length_shape (s : List Sym) : (shape s).length = s.length := List.length_map _

@[simp] theorem shape_take (n : Nat) (s : List Sym) : shape (s.take n) = (shape s).take n := List.map_take

@[simp] theorem shape_drop (n : Nat) (s : List Sym) : shape (s.drop n) = (shape s).drop n := List.map_drop

@[simp] theorem shape_reverse (s : List Sym) : shape s.reverse = (shape s).reverse := List.map_reverse

variable {s rest : List Sym}

@[simp] theorem shape_eq_nil : shape s = [] ↔ s = [] := List.map_eq_nil_iff

namespace Sym

@[simp] theorem isA_shape (p : Char → Bool) (x : Sym) : x.shape.isA p = x.isA p := by
  cases x <;> rfl

@[simp] theorem is_shape (c : Char) (x : Sym) : x.shape.is c = x.is c := isA_shape _ x

@[simp] theorem isBlank_shape (x : Sym) : x.shape.isBlank = x.isBlank := isA_shape _ x

end Sym

/-! ### Scanners -/

theorem head?_shape (p : Sym → Bool) (hp : ∀ x, p x.shape = p x) (s : List Sym) : (shape s).head?.any p = s.head?.any p := by
  cases s with
  | nil => rfl
  | cons x s => exact hp x

theorem skipBlanks_shape (s : List Sym) : skipBlanks (shape s) = shape (skipBlanks s) := by
  induction s with
  | nil => rfl
  | cons x s ih =>
    unfold skipBlanks at ih ⊢
    by_cases h : x.isBlank = true
    · simpa [h] using ih
    · simp [h]

theorem spanChars_shape (p : Char → Bool) (s : List Sym) :
    spanChars p (shape s) = ((spanChars p s).1, shape (spanChars p s).2) := by
  induction s with
  | nil => rfl
  | cons x s ih =>
    cases x with
    | mask t => rfl
    | char c =>
      by_cases h : p c = true
      · simp [spanChars, Sym.shape, h, ih]
      · simp [spanChars, Sym.shape, h]

theorem scanSigil_shape (s : List Sym) : scanSigil (shape s) = ((scanSigil s).1, shape (scanSigil s).2) := by
  cases s with
  | nil => rfl
  | cons x s =>
    cases x with
    | mask t => rfl
    | char c =>
      by_cases h : Sigil.ofChar c = .none
      · simp [scanSigil, Sym.shape, h]
      · simp [scanSigil, Sym.shape, h, skipBlanks_shape]

theorem scanPath_of_ne {most : Nat} {c : Char} (hc : c ≠ '.') :
    scanPath (most + 1) (.char c :: s) = ([], .char c :: s) := by
  rw [scanPath]
  rintro rest heq
  cases heq
  exact hc rfl

theorem scanPath_shape (most : Nat) (s : List Sym) :
    scanPath most (shape s) = ((scanPath most s).1, shape (scanPath most s).2) := by
  induction most generalizing s with
  | zero => rfl
  | succ most ih =>
    cases s with
    | nil => rfl
    | cons x s =>
      cases x with
      | mask t => rfl
      | char c =>
        by_cases hc : c = '.'
        · subst hc
          by_cases h : (spanChars isWord s).1 = []
          · simp [scanPath, Sym.shape, spanChars_shape, h]
          · simp [scanPath, Sym.shape, spanChars_shape, h, ih]
        · rw [shape_cons, Sym.shape, scanPath_of_ne hc, scanPath_of_ne hc]
          rfl

theorem scanName_shape (s : List Sym) : scanName (shape s) = (scanName s).map fun r => (r.1, shape r.2) := by
  unfold scanName
  rw [head?_shape _ (Sym.isA_shape isLetter)]
  split
  · simp [spanChars_shape, scanPath_shape]
  · rfl

theorem after_shape (text : List Char) (s : List Sym) : after text (shape s) = (after text s).map shape := by
  induction text generalizing s with
  | nil => rfl
  | cons c text ih =>
    cases s with
    | nil => rfl
    | cons x s =>
      cases x with
      | mask t => rfl
      | char d =>
        rw [shape_cons, Sym.shape, after, after]
        split
        · exact ih s
        · rfl

theorem scanClose_shape (s : List Sym) : scanClose (shape s) = (scanClose s).map shape := by
  rw [scanClose, skipBlanks_shape, after_shape, scanClose]

theorem scanOpen_shape (s : List Sym) : scanOpen (shape s) = (scanOpen s).map shape := by
  rw [scanOpen, after_shape, scanOpen, Option.map_map, Option.map_map]
  congr 1
  funext s
  exact skipBlanks_shape s

theorem scanTag_shape (s : List Sym) : scanTag (shape s) = (scanTag s).map fun r => (r.1, shape r.2) := by
  unfold scanTag
  rw [scanOpen_shape]
  cases scanOpen s with
  | none => rfl
  | some inner =>
    simp only [Option.map_some, Option.bind_some, scanSigil_shape, scanName_shape]
    cases scanName (scanSigil inner).2 with
    | none => rfl
    | some found =>
      simp only [Option.map_some, Option.bind_some, scanClose_shape]
      cases scanClose found.2 <;> rfl

theorem matchTag_shape (before before' s : List Sym) : matchTag before (shape s) = matchTag before' s := by
  unfold matchTag
  rw [scanTag_shape, length_shape, Option.map_map]
  congr 1
  funext r
  simp

theorem matchPrimitive_shape (before before' s : List Sym) : matchPrimitive before (shape s) = matchPrimitive before' s := by
  rw [matchPrimitive, matchPrimitive, matchTag_shape before before']

theorem isLiteralStart_shape (x : Sym) : isLiteralStart x.shape = isLiteralStart x := by
  rw [isLiteralStart, Sym.isBlank_shape, Sym.isA_shape, isLiteralStart]

theorem isInside_shape (x : Sym) : isInside x.shape = isInside x := by
  rw [isInside, Sym.is_shape, Sym.is_shape, isInside]

theorem takeWhile_shape (p : Sym → Bool) (hp : ∀ x, p x.shape = p x) (s : List Sym) :
    (shape s).takeWhile p = shape (s.takeWhile p) := by
  rw [shape, List.takeWhile_map, Function.comp_def, funext hp, shape]

theorem dropWhile_shape (p : Sym → Bool) (hp : ∀ x, p x.shape = p x) (s : List Sym) :
    (shape s).dropWhile p = shape (s.dropWhile p) := by
  rw [shape, List.dropWhile_map, Function.comp_def, funext hp, shape]

theorem matchLiteral_shape (before before' s : List Sym) :
    matchLiteral before (shape s) = (matchLiteral before' s).map fun r => (shape r.1, r.2) := by
  unfold matchLiteral
  rw [scanOpen_shape]
  cases scanOpen s with
  | none => rfl
  | some inner =>
    rw [Option.map_some, Option.bind_some, Option.bind_some, head?_shape _ isLiteralStart_shape]
    split
    · rw [dropWhile_shape _ isInside_shape, after_shape, takeWhile_shape _ isInside_shape, Option.map_map, Option.map_map]
      congr 1
      funext rest
      simp
    · rfl

theorem isIdentifier_shape (name : List Sym) : isIdentifier (shape name) = isIdentifier name := by
  unfold isIdentifier
  rw [skipBlanks_shape, ← shape_reverse, skipBlanks_shape, ← shape_reverse]
  dsimp only
  rw [head?_shape _ (Sym.isA_shape isLetter)]
  congr 1
  rw [shape, List.all_map]
  congr 1
  funext x
  exact Sym.isA_shape _ x

/-! ### What a scanner reads -/

theorem chars_append (a b : List Char) : chars (a ++ b) = chars a ++ chars b := List.map_append

theorem after_eq_some {text : List Char} (h : after text s = some rest) : s = chars text ++ rest := by
  induction text generalizing s with
  | nil =>
    cases h
    rfl
  | cons c text ih =>
    cases s with
    | nil => cases h
    | cons x s =>
      cases x with
      | mask t => cases h
      | char d =>
        rw [after, Option.ite_none_right_eq_some] at h
        rw [h.1, ih h.2]
        rfl

theorem skipBlanks_read (s : List Sym) : ∃ cs, s = chars cs ++ skipBlanks s := by
  induction s with
  | nil => exact ⟨[], rfl⟩
  | cons x s ih =>
    unfold skipBlanks at ih ⊢
    by_cases h : x.isBlank = true
    · obtain ⟨cs, hcs⟩ := ih
      cases x with
      | mask t => cases h
      | char c =>
        refine ⟨c :: cs, ?_⟩
        rw [List.dropWhile_cons_of_pos h]
        exact congrArg (Sym.char c :: ·) hcs
    · exact ⟨[], by rw [List.dropWhile_cons_of_neg h]; rfl⟩

theorem spanChars_read (p : Char → Bool) (s : List Sym) : s = chars (spanChars p s).1 ++ (spanChars p s).2 := by
  induction s with
  | nil => rfl
  | cons x s ih =>
    cases x with
    | mask t => rfl
    | char c =>
      rw [spanChars]
      split
      · exact congrArg (Sym.char c :: ·) ih
      · rfl

theorem scanSigil_read (s : List Sym) : ∃ cs, s = chars cs ++ (scanSigil s).2 := by
  cases s with
  | nil => exact ⟨[], rfl⟩
  | cons x s =>
    cases x with
    | mask t => exact ⟨[], rfl⟩
    | char c =>
      by_cases h : Sigil.ofChar c = .none
      · exact ⟨[], by rw [scanSigil, if_pos h]; rfl⟩
      · obtain ⟨cs, hcs⟩ := skipBlanks_read s
        refine ⟨c :: cs, ?_⟩
        rw [scanSigil, if_neg h]
        exact congrArg (Sym.char c :: ·) hcs

theorem scanPath_read (most : Nat) (s : List Sym) : ∃ cs, s = chars cs ++ (scanPath most s).2 := by
  induction most generalizing s with
  | zero => exact ⟨[], rfl⟩
  | succ most ih =>
    cases s with
    | nil => exact ⟨[], rfl⟩
    | cons x s =>
      cases x with
      | mask t => exact ⟨[], rfl⟩
      | char c =>
        by_cases hc : c = '.'
        · subst hc
          rw [scanPath]
          split
          · exact ⟨[], rfl⟩
          · obtain ⟨cs, hcs⟩ := ih (spanChars isWord s).2
            refine ⟨'.' :: ((spanChars isWord s).1 ++ cs), ?_⟩
            have hrest := spanChars_read isWord s
            rw [hcs, ← List.append_assoc, ← chars_append] at hrest
            exact congrArg (Sym.char '.' :: ·) hrest
        · exact ⟨[], by rw [scanPath_of_ne hc]; rfl⟩

theorem scanName_read {name : Name} (h : scanName s = some (name, rest)) : ∃ cs, s = chars cs ++ rest := by
  unfold scanName at h
  rw [Option.ite_none_right_eq_some, Option.some.injEq, Prod.mk.injEq] at h
  obtain ⟨-, -, rfl⟩ := h
  obtain ⟨cs, hcs⟩ := scanPath_read s.length (spanChars isWord s).2
  refine ⟨(spanChars isWord s).1 ++ cs, ?_⟩
  rw [chars_append, List.append_assoc, ← hcs]
  exact spanChars_read isWord s

theorem scanTag_read {t : Tag} (h : scanTag s = some (t, rest)) : ∃ cs, s = chars cs ++ rest := by
  obtain ⟨inner, hopen, h⟩ := Option.bind_eq_some_iff.1 h
  obtain ⟨found, hname, h⟩ := Option.bind_eq_some_iff.1 h
  obtain ⟨rest', hclose, heq⟩ := Option.map_eq_some_iff.1 h
  cases heq
  obtain ⟨start, hafter, rfl⟩ := Option.map_eq_some_iff.1 hopen
  obtain ⟨blanks, hblanks⟩ := skipBlanks_read start
  obtain ⟨sigil, hsigil⟩ := scanSigil_read (skipBlanks start)
  obtain ⟨name, hname⟩ := scanName_read hname
  obtain ⟨blanks', hblanks'⟩ := skipBlanks_read found.2
  refine ⟨['\x7b', '\x7b'] ++ (blanks ++ (sigil ++ (name ++ (blanks' ++ ['\x7d', '\x7d'])))), ?_⟩
  simp only [chars_append, List.append_assoc]
  rw [← after_eq_some hclose, ← hblanks', ← hname, ← hsigil, ← hblanks]
  exact after_eq_some hafter

theorem matchTag_read {before : List Sym} {t : Tag} {n : Nat} (h : matchTag before s = some (t, n)) :
    ∃ cs, s.take n = chars cs := by
  obtain ⟨r, hr, heq⟩ := Option.map_eq_some_iff.1 h
  cases heq
  obtain ⟨cs, hcs⟩ : ∃ cs, s = chars cs ++ r.2 := scanTag_read hr
  refine ⟨cs, ?_⟩
  have hlength : s.length - r.2.length = (chars cs).length := by
    rw [hcs, List.length_append, Nat.add_sub_cancel]
  rw [hlength, hcs, List.take_left]

/-! ### The place of the attribute -/

theorem afterComment_shape (s : List Sym) : afterComment (shape s) = (afterComment s).map shape := by
  induction s with
  | nil => rfl
  | cons x s ih =>
    rw [shape_cons, afterComment, ih, ← shape_cons, after_shape, afterComment]
    cases after "-->".toList (x :: s) <;> rfl

theorem skipComments_shape (most : Nat) (s : List Sym) : skipComments most (shape s) = (skipComments most s).map shape := by
  induction most generalizing s with
  | zero => simp [skipComments, skipBlanks_shape]
  | succ most ih =>
    rw [skipComments, skipBlanks_shape, after_shape, skipComments]
    cases after "<!--".toList (skipBlanks s) with
    | none => rfl
    | some rest =>
      simp only [Option.map_some, afterComment_shape]
      cases afterComment rest with
      | none => rfl
      | some rest => exact ih rest

theorem tagEnd_shape (quote : Option Char) (s : List Sym) : tagEnd quote (shape s) = tagEnd quote s := by
  induction s generalizing quote with
  | nil => cases quote <;> rfl
  | cons x s ih =>
    cases x with
    | mask t => cases quote <;> simp [tagEnd, Sym.shape, ih]
    | char c => cases quote <;> simp [tagEnd, Sym.shape, ih]

theorem includes_shape (text : List Char) (s : List Sym) : includes text (shape s) = includes text s := by
  induction s with
  | nil => rfl
  | cons x s ih => rw [shape_cons, includes, ← shape_cons, after_shape, ih, Option.isSome_map, includes]

theorem getLast?_shape (s : List Sym) (c : Char) : (shape s).getLast?.any (Sym.is c) = s.getLast?.any (Sym.is c) := by
  rw [shape, List.getLast?_map]
  cases s.getLast? with
  | none => rfl
  | some x => exact Sym.is_shape c x

theorem stampPlace_shape (html : List Sym) : stampPlace (shape html) = stampPlace html := by
  unfold stampPlace
  rw [length_shape, skipComments_shape]
  cases skipComments html.length html with
  | none => rfl
  | some s =>
    simp only [Option.map_some, Option.bind_some, after_shape]
    cases after ['<'] s with
    | none => rfl
    | some tag =>
      simp only [Option.map_some, Option.bind_some, head?_shape _ (Sym.isA_shape isLetter), tagEnd_shape, length_shape,
        ← shape_take, includes_shape, getLast?_shape]

end CaeloCms.Template
