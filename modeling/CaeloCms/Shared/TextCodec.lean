import CaeloCms.Shared.Units
import CaeloCms.Shared.WebEncode

/-!
# Texts as streams of bytes

The `TextDecoder` that is given a text chunk by chunk, and the `TextEncoder`, which writes a replacement character for
each half of a surrogate pair that stands alone.  Decoding does not depend on the chunks (`decodeChunks_eq`), encoding
does: a pair that is cut is lost (`usvChars_flatten_iff`).
-/

namespace CaeloCms.Web

/-! ### `TextDecoder` -/

def utf8Feed : Option Utf8State → List Nat → List (Option Char) × Option Utf8State
  | s, [] => ([], s)
  | s, b :: rest =>
    ((utf8Step b s).1 ++ (utf8Feed (utf8Step b s).2 rest).1, (utf8Feed (utf8Step b s).2 rest).2)

/-- A decoder between two chunks: the character it is in the middle of, and whether the text has started. -/
structure Decoder where
  utf8 : Option Utf8State
  started : Bool

def Decoder.start : Decoder := ⟨none, false⟩

def orReplacement (c : Option Char) : Char := c.getD '\uFFFD'

/-- The first character is dropped if it is a byte order mark. -/
def dropMark (started : Bool) : List Char → List Char
  | [] => []
  | c :: s => if ¬started ∧ c = '\uFEFF' then s else c :: s

/-- `decoder.decode(chunk, { stream: true })` -/
def Decoder.decode (d : Decoder) (chunk : List Nat) : Decoder × List Char :=
  let s := (utf8Feed d.utf8 chunk).1.map orReplacement
  (⟨(utf8Feed d.utf8 chunk).2, d.started || !s.isEmpty⟩, dropMark d.started s)

def Decoder.flush (d : Decoder) : List Char := dropMark d.started ((utf8Chars d.utf8 []).map orReplacement)

def decodeChunks : Decoder → List (List Nat) → List Char
  | d, [] => d.flush
  | d, chunk :: chunks => (d.decode chunk).2 ++ decodeChunks (d.decode chunk).1 chunks

theorem utf8Chars_append (s : Option Utf8State) (chunk rest : List Nat) :
    utf8Chars s (chunk ++ rest) = (utf8Feed s chunk).1 ++ utf8Chars (utf8Feed s chunk).2 rest := by
  induction chunk generalizing s with
  | nil => rfl
  | cons b chunk ih =>
    rw [List.cons_append, utf8Feed, List.append_assoc, ← ih]
    cases s <;> rw [utf8Chars]

theorem dropMark_append (started : Bool) (s t : List Char) :
    dropMark started (s ++ t) = dropMark started s ++ dropMark (started || !s.isEmpty) t := by
  cases s with
  | nil => simp [dropMark]
  | cons c s =>
    have hrest : dropMark (started || !(c :: s).isEmpty) t = t := by
      cases t <;> simp [dropMark]
    rw [hrest, List.cons_append, dropMark, dropMark]
    split <;> rfl

theorem decodeChunks_eq (d : Decoder) (chunks : List (List Nat)) :
    decodeChunks d chunks = dropMark d.started ((utf8Chars d.utf8 chunks.flatten).map orReplacement) := by
  induction chunks generalizing d with
  | nil => rfl
  | cons chunk chunks ih =>
    rw [decodeChunks, ih, List.flatten_cons, utf8Chars_append, List.map_append, dropMark_append]
    rfl

theorem decodeChunks_utf8 {text : List Char} {chunks : List (List Nat)} (h : chunks.flatten = utf8 text) :
    decodeChunks Decoder.start chunks = dropMark false text := by
  have hdecoded : (utf8Chars none (utf8 text)).map orReplacement = text := by
    rw [utf8Chars_utf8, List.map_map]
    exact List.map_id text
  rw [decodeChunks_eq, h]
  exact congrArg (dropMark false) hdecoded

theorem utf8_injective {s t : List Char} (h : utf8 s = utf8 t) : s = t := by
  have heq := congrArg (utf8Chars none) h
  rw [utf8Chars_utf8, utf8Chars_utf8] at heq
  exact List.map_injective_iff.2 (Option.some_injective Char) heq

theorem utf8_append (s t : List Char) : utf8 (s ++ t) = utf8 s ++ utf8 t := List.flatMap_append

/-! ### `TextEncoder` -/

def isHighSurrogate (u : UInt16) : Bool := 0xD800 ≤ u && u ≤ 0xDBFF

def isLowSurrogate (u : UInt16) : Bool := 0xDC00 ≤ u && u ≤ 0xDFFF

def pairChar (high low : UInt16) : Char :=
  Char.ofNat (0x10000 + (high.toNat - 0xD800) * 0x400 + (low.toNat - 0xDC00))

def loneChar (u : UInt16) : Char := if isHighSurrogate u || isLowSurrogate u then '\uFFFD' else unitChar u

/-- The characters of a text. -/
def usvChars : Units → List Char
  | [] => []
  | [u] => [loneChar u]
  | u :: v :: s =>
    if isHighSurrogate u && isLowSurrogate v then pairChar u v :: usvChars s else loneChar u :: usvChars (v :: s)

/-- `new TextEncoder().encode(text)` -/
def textEncode (text : Units) : List Nat := utf8 (usvChars text)

def CutsPair (p q : Units) : Prop := p.getLast?.any isHighSurrogate = true ∧ q.head?.any isLowSurrogate = true

def NoCutPair : List Units → Prop
  | [] => True
  | p :: ps => ¬CutsPair p ps.flatten ∧ NoCutPair ps

instance (p q : Units) : Decidable (CutsPair p q) := inferInstanceAs (Decidable (_ ∧ _))

variable {p q s : Units} {u v : UInt16}

theorem not_high_of_low (h : isLowSurrogate u = true) : ¬isHighSurrogate u = true := by
  simp only [isLowSurrogate, isHighSurrogate, Bool.and_eq_true, decide_eq_true_eq, UInt16.le_iff_toNat_le] at h ⊢
  have hlow : (0xDC00 : UInt16).toNat = 0xDC00 := rfl
  have hhigh : (0xDBFF : UInt16).toNat = 0xDBFF := rfl
  omega

theorem CutsPair.cons (h : CutsPair s q) : CutsPair (u :: s) q := by
  cases s with
  | nil => cases h.1
  | cons v s => exact h

theorem usvChars_pair (hu : isHighSurrogate u = true) (hv : isLowSurrogate v = true) :
    usvChars (u :: v :: s) = pairChar u v :: usvChars s := by
  rw [usvChars, if_pos (by rw [hu, hv]; rfl)]

theorem usvChars_lone (h : ¬CutsPair [u] s) : usvChars (u :: s) = loneChar u :: usvChars s := by
  cases s with
  | nil => rfl
  | cons v s =>
    rw [usvChars, if_neg]
    intro hpair
    rw [Bool.and_eq_true] at hpair
    exact h hpair

theorem usvChars_append (h : ¬CutsPair p q) : usvChars (p ++ q) = usvChars p ++ usvChars q := by
  fun_induction usvChars p with
  | case1 => rfl
  | case2 u => exact usvChars_lone h
  | case3 u v s hpair ih =>
    rw [Bool.and_eq_true] at hpair
    have hs : ¬CutsPair s q := fun hs => h hs.cons.cons
    rw [List.cons_append, List.cons_append, usvChars_pair hpair.1 hpair.2, ih hs, List.cons_append]
  | case4 u v s hpair ih =>
    have hlone : ¬CutsPair [u] (v :: (s ++ q)) := fun hcut => hpair (Bool.and_eq_true_iff.2 hcut)
    rw [List.cons_append, List.cons_append, usvChars_lone hlone, ← List.cons_append, ih h, List.cons_append]

theorem length_usvChars_append (h : CutsPair p q) :
    (usvChars (p ++ q)).length + 1 = (usvChars p ++ usvChars q).length := by
  fun_induction usvChars p with
  | case1 => cases h.1
  | case2 u =>
    cases q with
    | nil => cases h.2
    | cons v q =>
      have hv : ¬CutsPair [v] q := fun hcut => not_high_of_low h.2 hcut.1
      have hpair : usvChars (u :: v :: q) = pairChar u v :: usvChars q := usvChars_pair h.1 h.2
      rw [List.singleton_append, hpair, usvChars_lone hv, List.length_cons, List.singleton_append, List.length_cons,
        List.length_cons]
  | case3 u v s hpair ih =>
    rw [Bool.and_eq_true] at hpair
    have hs : CutsPair s q := by
      cases s with
      | nil => exact absurd h.1 (not_high_of_low hpair.2)
      | cons w s => exact h
    rw [List.cons_append, List.cons_append, usvChars_pair hpair.1 hpair.2, List.cons_append, List.length_cons,
      List.length_cons, ih hs]
  | case4 u v s hpair ih =>
    have hlone : ¬CutsPair [u] (v :: (s ++ q)) := fun hcut => hpair (Bool.and_eq_true_iff.2 hcut)
    rw [List.cons_append, List.cons_append, usvChars_lone hlone, List.cons_append, List.length_cons, List.length_cons,
      ← List.cons_append, ih h]

theorem usvChars_flatten {ps : List Units} (h : NoCutPair ps) : usvChars ps.flatten = ps.flatMap usvChars := by
  induction ps with
  | nil => rfl
  | cons p ps ih => rw [List.flatten_cons, usvChars_append h.1, ih h.2, List.flatMap_cons]

theorem length_usvChars_flatten_le (ps : List Units) :
    (usvChars ps.flatten).length ≤ (ps.flatMap usvChars).length := by
  induction ps with
  | nil => exact le_refl _
  | cons p ps ih =>
    have hp : (usvChars (p ++ ps.flatten)).length ≤ (usvChars p ++ usvChars ps.flatten).length := by
      by_cases h : CutsPair p ps.flatten
      · exact (Nat.le_succ _).trans (length_usvChars_append h).le
      · rw [usvChars_append h]
    rw [List.length_append] at hp
    rw [List.flatten_cons, List.flatMap_cons, List.length_append]
    omega

theorem usvChars_flatten_iff {ps : List Units} : usvChars ps.flatten = ps.flatMap usvChars ↔ NoCutPair ps := by
  refine ⟨fun h => ?_, usvChars_flatten⟩
  induction ps with
  | nil => trivial
  | cons p ps ih =>
    rw [List.flatten_cons, List.flatMap_cons] at h
    by_cases hcut : CutsPair p ps.flatten
    · have hlength := length_usvChars_append hcut
      have hle := length_usvChars_flatten_le ps
      rw [h, List.length_append, List.length_append] at hlength
      omega
    · rw [usvChars_append hcut] at h
      exact ⟨hcut, ih (List.append_cancel_left h)⟩

/-! ### The units that encoding keeps -/

/-- A unit that is a character of its own. -/
def isPlain (u : UInt16) : Bool := !(isHighSurrogate u || isLowSurrogate u) && u != 0xFFFD

def plainUnit (c : Char) : Option UInt16 := if c = '\uFFFD' ∨ 0x10000 ≤ c.toNat then none else some (unit c)

theorem toNat_ofNat {n : Nat} (h : n.isValidChar) : (Char.ofNat n).toNat = n := by
  rw [Char.ofNat, dif_pos h]
  rfl

theorem isSurrogate_iff : (isHighSurrogate u || isLowSurrogate u) = true ↔ 0xD800 ≤ u.toNat ∧ u.toNat ≤ 0xDFFF := by
  simp only [isLowSurrogate, isHighSurrogate, Bool.or_eq_true, Bool.and_eq_true, decide_eq_true_eq,
    UInt16.le_iff_toNat_le]
  have hlow : (0xDC00 : UInt16).toNat = 0xDC00 ∧ (0xDFFF : UInt16).toNat = 0xDFFF := ⟨rfl, rfl⟩
  have hhigh : (0xD800 : UInt16).toNat = 0xD800 ∧ (0xDBFF : UInt16).toNat = 0xDBFF := ⟨rfl, rfl⟩
  omega

theorem plainUnit_loneChar (u : UInt16) : plainUnit (loneChar u) = if isPlain u then some u else none := by
  rw [loneChar, isPlain]
  by_cases h : (isHighSurrogate u || isLowSurrogate u) = true
  · rw [if_pos h, h, plainUnit, if_pos (.inl rfl)]
    rfl
  · have hlt := u.toNat_lt
    have hvalue : (unitChar u).toNat = u.toNat := by
      rw [isSurrogate_iff] at h
      refine toNat_ofNat ?_
      change u.toNat < 0xD800 ∨ 0xDFFF < u.toNat ∧ u.toNat < 0x110000
      omega
    have hunit : unit (unitChar u) = u := by
      rw [unit, hvalue]
      exact UInt16.ofNat_toNat
    rw [if_neg h, Bool.eq_false_iff.2 h, plainUnit, hunit]
    by_cases hmark : u = 0xFFFD
    · subst hmark
      rfl
    · have hne : ¬(unitChar u = '\uFFFD' ∨ 0x10000 ≤ (unitChar u).toNat) := by
        rintro (heq | hle)
        · rw [← hunit, heq] at hmark
          exact hmark rfl
        · omega
      have hne' : (u != 0xFFFD) = true := bne_iff_ne.2 hmark
      rw [if_neg hne, hne']
      rfl

theorem plainUnit_pairChar (hu : isHighSurrogate u = true) (hv : isLowSurrogate v = true) :
    plainUnit (pairChar u v) = none := by
  simp only [isLowSurrogate, isHighSurrogate, Bool.and_eq_true, decide_eq_true_eq, UInt16.le_iff_toNat_le] at hu hv
  have hlow : (0xDC00 : UInt16).toNat = 0xDC00 ∧ (0xDFFF : UInt16).toNat = 0xDFFF := ⟨rfl, rfl⟩
  have hhigh : (0xD800 : UInt16).toNat = 0xD800 ∧ (0xDBFF : UInt16).toNat = 0xDBFF := ⟨rfl, rfl⟩
  have hvalue := toNat_ofNat (n := 0x10000 + (u.toNat - 0xD800) * 0x400 + (v.toNat - 0xDC00)) (by
    change _ < 0xD800 ∨ 0xDFFF < _ ∧ _ < 0x110000
    omega)
  rw [plainUnit, if_pos]
  right
  rw [pairChar, hvalue]
  omega

theorem not_plain (h : (isHighSurrogate u || isLowSurrogate u) = true) : ¬isPlain u = true := by
  rw [isPlain, h]
  exact Bool.false_ne_true

theorem filterMap_lone (u : UInt16) (t : List Char) :
    (loneChar u :: t).filterMap plainUnit = [u].filter isPlain ++ t.filterMap plainUnit := by
  rw [List.filterMap_cons, plainUnit_loneChar]
  by_cases hu : isPlain u = true
  · rw [if_pos hu, List.filter_cons_of_pos hu]
    rfl
  · rw [if_neg hu, List.filter_cons_of_neg hu]
    rfl

theorem filterMap_usvChars (s : Units) : (usvChars s).filterMap plainUnit = s.filter isPlain := by
  fun_induction usvChars s with
  | case1 => rfl
  | case2 u => rw [filterMap_lone, List.filterMap_nil, List.append_nil]
  | case3 u v s hpair ih =>
    rw [Bool.and_eq_true] at hpair
    have hu : ¬isPlain u = true := not_plain (Bool.or_eq_true_iff.2 (.inl hpair.1))
    have hv : ¬isPlain v = true := not_plain (Bool.or_eq_true_iff.2 (.inr hpair.2))
    rw [List.filterMap_cons, plainUnit_pairChar hpair.1 hpair.2, ih, List.filter_cons_of_neg hu, List.filter_cons_of_neg hv]
  | case4 u v s hpair ih => rw [filterMap_lone, ih, ← List.filter_append, List.singleton_append]

theorem filterMap_flatMap_usvChars (ps : List Units) :
    (ps.flatMap usvChars).filterMap plainUnit = ps.flatten.filter isPlain := by
  induction ps with
  | nil => rfl
  | cons p ps ih =>
    rw [List.flatMap_cons, List.filterMap_append, filterMap_usvChars, ih, List.flatten_cons, List.filter_append]

end CaeloCms.Web
