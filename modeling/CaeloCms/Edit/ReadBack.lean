import CaeloCms.Edit.Markers

/-!
# Reading markers back

An opening comment encodes its placement and its path so that no blank and no `-` is left, and both are decoded again
(`decodeURIComponent_attr`).  What is read is what was written for one page at most and for the path of a field, or of a
field with a number (`parseEditMarker_openComment`): the count of pages is read as one digit, `0` or `1`, and of a path
the first two parts.
-/

namespace CaeloCms.Edit

open Redirect (decimalInteger digitsValue hexValue integerNumber isSpace naturalOf natText scaled signedOf trimSpace)
open Template (afterText)
open Web (StandsFor decodeURIComponent decodeURIComponent_escaped encodeURIComponent escapeByte escapeChar isUnescaped
  upperHexDigit utf8 utf8_lt)

/-! ### Encoded texts -/

/-- A character in `attr`. -/
def attrChar (c : Char) : List Char := if c = '-' then "%2D".toList else escapeChar c

theorem upperHexDigit_plain {n : Nat} (h : n < 16) : upperHexDigit n ≠ '-' ∧ isSpace (upperHexDigit n) = false := by
  have hall : ∀ n < 16, upperHexDigit n ≠ '-' ∧ isSpace (upperHexDigit n) = false := by decide
  exact hall n h

variable {c : Char} {s : List Char}

theorem escapeByte_plain {b : Nat} (hb : b < 256) (h : c ∈ escapeByte b) : c ≠ '-' ∧ isSpace c = false := by
  rw [escapeByte, List.mem_cons, List.mem_cons, List.mem_singleton] at h
  rcases h with rfl | rfl | rfl
  · decide
  · exact upperHexDigit_plain (by omega)
  · exact upperHexDigit_plain (by omega)

theorem escapedBytes_plain {d : Char} (h : d ∈ (utf8 [c]).flatMap escapeByte) : d ≠ '-' ∧ isSpace d = false := by
  obtain ⟨b, hb, hd⟩ := List.mem_flatMap.1 h
  exact escapeByte_plain (utf8_lt hb) hd

theorem flatMap_dash (h : '-' ∉ s) : (s.flatMap fun c => if c = '-' then "%2D".toList else [c]) = s := by
  induction s with
  | nil => rfl
  | cons c s ih =>
    rw [List.mem_cons, not_or] at h
    rw [List.flatMap_cons, if_neg (Ne.symm h.1), ih h.2, List.singleton_append]

theorem attr_eq (s : List Char) : attr s = s.flatMap attrChar := by
  rw [attr, encodeURIComponent, List.flatMap_assoc]
  apply List.flatMap_congr
  intro c hc
  by_cases hdash : c = '-'
  · subst hdash
    decide
  · rw [attrChar, if_neg hdash]
    apply flatMap_dash
    unfold escapeChar
    split
    · rw [List.mem_singleton]
      exact fun h => hdash h.symm
    · exact fun h => (escapedBytes_plain h).1 rfl

theorem standsFor_attrChar : StandsFor attrChar := by
  intro c
  by_cases hdash : c = '-'
  · subst hdash
    exact .inr (by decide)
  · rw [attrChar, if_neg hdash]
    exact Web.standsFor_escapeChar c

theorem decodeURIComponent_attr (s : List Char) : decodeURIComponent (attr s) = some s := by
  rw [attr_eq]
  exact decodeURIComponent_escaped standsFor_attrChar s

theorem isSpace_of_unescaped (h : isUnescaped c = true) : isSpace c = false := by
  have hascii : c.toNat < 128 := by
    simp only [isUnescaped, Bool.or_eq_true, Bool.and_eq_true, decide_eq_true_eq, Char.le_def, UInt32.le_iff_toNat_le] at h
    rcases h with ((h | h) | h) | h
    · exact Nat.lt_of_le_of_lt h.2 (by decide)
    · exact Nat.lt_of_le_of_lt h.2 (by decide)
    · exact Nat.lt_of_le_of_lt h.2 (by decide)
    · have hall : ("-_.!~*'()".toList.all fun c => c.toNat < 128) = true := by decide
      exact of_decide_eq_true (List.all_eq_true.1 hall c (List.contains_iff_mem.1 h))
  have hall : ∀ n < 128, isUnescaped (Char.ofNat n) = true → isSpace (Char.ofNat n) = false := by decide +kernel
  have hc := hall c.toNat hascii
  rw [Char.ofNat_toNat] at hc
  exact hc h

theorem isSpace_attrChar {d : Char} (h : d ∈ attrChar c) : isSpace d = false := by
  unfold attrChar escapeChar at h
  split_ifs at h with hdash hplain
  · have hall : ("%2D".toList.all fun d => !isSpace d) = true := by decide
    simpa using List.all_eq_true.1 hall d h
  · rw [List.mem_singleton] at h
    rw [h]
    exact isSpace_of_unescaped hplain
  · exact (escapedBytes_plain h).2

theorem isSpace_attr (h : c ∈ attr s) : isSpace c = false := by
  rw [attr_eq, List.mem_flatMap] at h
  obtain ⟨d, hd, hc⟩ := h
  exact isSpace_attrChar hc

theorem attr_eq_nil : attr s = [] ↔ s = [] := by
  constructor
  · intro h
    have hdecode := decodeURIComponent_attr s
    rw [h] at hdecode
    exact (Option.some.inj hdecode).symm
  · rintro rfl
    rfl

/-! ### Numbers -/

theorem isDigit_natText {n : Nat} (h : c ∈ natText n) : c.isDigit = true :=
  Nat.isDigit_of_mem_toDigits (by omega) (by omega) h

theorem natText_ne_nil (n : Nat) : natText n ≠ [] := Nat.toDigits_ne_nil

theorem digitsValue_digits (h : ∀ c ∈ s, c.isDigit = true) (acc : Nat) :
    digitsValue 10 acc s = some (Nat.ofDigitChars 10 s acc) := by
  induction s generalizing acc with
  | nil => rfl
  | cons c s ih =>
    obtain ⟨hc, hs⟩ := List.forall_mem_cons.1 h
    have hval : 48 ≤ c.toNat ∧ c.toNat ≤ 57 := by
      simp only [Char.isDigit, Bool.and_eq_true, decide_eq_true_eq, UInt32.le_iff_toNat_le] at hc
      exact hc
    have hhex : hexValue c = some (c.toNat - 48) := by
      rw [hexValue, if_pos]
      simp only [Char.le_def, UInt32.le_iff_toNat_le]
      exact hval
    rw [digitsValue, hhex, Option.bind_some, if_pos (by omega), ih hs, Nat.ofDigitChars_cons]
    rw [Nat.mul_comm]
    rfl

theorem naturalOf_natText (n : Nat) : naturalOf 10 (natText n) = some n := by
  have hne : (natText n).isEmpty = false := by
    rw [List.isEmpty_eq_false_iff]
    exact natText_ne_nil n
  rw [naturalOf, hne, if_neg (by decide), digitsValue_digits fun c hc => isDigit_natText hc]
  exact congrArg some Nat.ofDigitChars_ten_toDigits

/-- `String(i)` of an integer. -/
def indexText (i : Int) : List Char := if i < 0 then '-' :: natText i.natAbs else natText i.natAbs

theorem mem_indexText {i : Int} (h : c ∈ indexText i) : c = '-' ∨ c.isDigit = true := by
  unfold indexText at h
  split at h
  · rcases List.mem_cons.1 h with rfl | h
    · exact .inl rfl
    · exact .inr (isDigit_natText h)
  · exact .inr (isDigit_natText h)

theorem isSpace_of_isDigit (h : c.isDigit = true) : isSpace c = false :=
  isSpace_of_unescaped (by
    simp only [Char.isDigit, Bool.and_eq_true, decide_eq_true_eq] at h
    simp only [isUnescaped, Bool.or_eq_true, Bool.and_eq_true, decide_eq_true_eq]
    exact .inl (.inr h))

theorem isSpace_indexText {i : Int} (h : c ∈ indexText i) : isSpace c = false := by
  rcases mem_indexText h with rfl | h
  · decide
  · exact isSpace_of_isDigit h

theorem trimSpace_clean (h : ∀ c ∈ s, isSpace c = false) : trimSpace s = s :=
  Words.trim_eq_self (fun c hc => h c (List.mem_of_mem_head? hc)) fun c hc => h c (List.mem_of_mem_getLast? hc)

theorem decimalInteger_natText (n : Nat) : decimalInteger (natText n) = some n := by
  have hmark : ∀ c ∈ natText n, Redirect.isExponentMark c = false := by
    intro c hc
    have hdigit := isDigit_natText hc
    rw [Redirect.isExponentMark, Bool.or_eq_false_iff, beq_eq_false_iff_ne, beq_eq_false_iff_ne]
    constructor
    · rintro rfl
      exact absurd hdigit (by decide)
    · rintro rfl
      exact absurd hdigit (by decide)
  have hpoint : ∀ c ∈ natText n, (c != '.') = true := by
    intro c hc
    rw [bne_iff_ne]
    rintro rfl
    exact absurd (isDigit_natText hc) (by decide)
  have hmantissa : (natText n).takeWhile (fun c => !Redirect.isExponentMark c) = natText n := by
    rw [List.takeWhile_eq_self_iff]
    intro c hc
    rw [hmark c hc]
    rfl
  have hexponent : (natText n).dropWhile (fun c => !Redirect.isExponentMark c) = [] := by
    rw [List.dropWhile_eq_nil_iff]
    intro c hc
    rw [hmark c hc]
    rfl
  unfold decimalInteger
  simp only [hmantissa, hexponent]
  rw [List.takeWhile_eq_self_iff.2 hpoint, List.dropWhile_eq_nil_iff.2 hpoint, List.drop_nil, List.append_nil,
    naturalOf_natText, Option.bind_some, Option.bind_some, scaled, if_pos (by decide)]
  simp

theorem integerNumber_indexText (i : Int) : integerNumber (indexText i) = some i := by
  have hletter : ∀ {c d : Char} {rest : List Char}, indexText i = c :: d :: rest → d ∉ ['x', 'X', 'o', 'O', 'b', 'B'] := by
    intro c d rest h hmem
    have hd : d ∈ indexText i := by
      rw [h]
      exact List.mem_cons_of_mem _ List.mem_cons_self
    rcases mem_indexText hd with rfl | hdigit
    · exact absurd hmem (by decide)
    · simp only [List.mem_cons, List.not_mem_nil, or_false] at hmem
      rcases hmem with rfl | rfl | rfl | rfl | rfl | rfl <;> exact absurd hdigit (by decide)
  have hsigned : signedOf decimalInteger (indexText i) = some i := by
    unfold indexText
    split
    · rw [signedOf, decimalInteger_natText]
      change some (-(i.natAbs : Int)) = some i
      congr 1
      omega
    · cases htext : natText i.natAbs with
      | nil => exact absurd htext (natText_ne_nil _)
      | cons c s =>
        have hdigit : c.isDigit = true := isDigit_natText (htext ▸ List.mem_cons_self)
        have hc : c ≠ '-' ∧ c ≠ '+' := by
          constructor
          · rintro rfl
            exact absurd hdigit (by decide)
          · rintro rfl
            exact absurd hdigit (by decide)
        rw [signedOf]
        · rw [← htext, decimalInteger_natText]
          change some (i.natAbs : Int) = some i
          congr 1
          omega
        · exact fun rest h => hc.1 (List.cons.inj h).1
        · exact fun rest h => hc.2 (List.cons.inj h).1
  have hne : indexText i ≠ [] := by
    unfold indexText
    split
    · exact List.cons_ne_nil _ _
    · exact natText_ne_nil _
  unfold integerNumber
  rw [trimSpace_clean fun c hc => isSpace_indexText hc]
  split
  next h => exact absurd h hne
  next h => exact absurd (by decide) (hletter h)
  next h => exact absurd (by decide) (hletter h)
  next h => exact absurd (by decide) (hletter h)
  next h => exact absurd (by decide) (hletter h)
  next h => exact absurd (by decide) (hletter h)
  next h => exact absurd (by decide) (hletter h)
  next => exact hsigned

theorem integerNumber_natText (n : Nat) : integerNumber (natText n) = some (n : Int) := by
  have h := integerNumber_indexText n
  rwa [indexText, if_neg (by omega), Int.natAbs_natCast] at h

/-! ### The parts of a comment -/

def placementKey (blockName : List Char) (position : Nat) : List Char := blockName ++ '#' :: natText position

theorem placementKey_ne_nil (blockName : List Char) (position : Nat) : placementKey blockName position ≠ [] :=
  List.append_ne_nil_of_right_ne_nil _ (List.cons_ne_nil _ _)

theorem splitHash_placementKey (blockName : List Char) (position : Nat) :
    splitHash (placementKey blockName position) = some (blockName, natText position) := by
  have hdigits : ∀ c ∈ (natText position).reverse, (c != '#') = true := by
    intro c hc
    rw [bne_iff_ne]
    rintro rfl
    exact absurd (isDigit_natText (List.mem_reverse.1 hc)) (by decide)
  have hrev : (placementKey blockName position).reverse = (natText position).reverse ++ '#' :: blockName.reverse := by
    simp [placementKey]
  rw [splitHash, if_pos (by simp [placementKey]), hrev, List.dropWhile_append_of_pos hdigits,
    List.takeWhile_append_of_pos hdigits, List.dropWhile_cons_of_neg (by decide), List.takeWhile_cons_of_neg (by decide)]
  simp

theorem afterText_append (text : String) (s : List Char) : afterText text (text.toList ++ s) = some s := by
  rw [afterText, if_pos (by simp), List.drop_left]

theorem trimSpace_openComment (placement path : List Char) (sharedPages : Nat) :
    trimSpace (openComment placement sharedPages path) = openComment placement sharedPages path := by
  apply Words.trim_eq_self
  · intro c hc
    have hhead : (openComment placement sharedPages path).head? = some 'c' := rfl
    rw [hhead] at hc
    cases hc
    decide
  · intro c hc
    rw [openComment, List.getLast?_append] at hc
    cases hlast : (attr path).getLast? with
    | some d =>
      rw [hlast] at hc
      cases hc
      exact isSpace_attr (List.mem_of_getLast? hlast)
    | none =>
      rw [hlast, Option.none_or, List.getLast?_append] at hc
      cases hc
      decide

theorem takeWhile_attr (s : List Char) {rest : List Char} (h : ∀ c, rest.head? = some c → isSpace c = true) :
    (attr s ++ rest).takeWhile (fun c => !isSpace c) = attr s := by
  have hattr : ∀ c ∈ attr s, (!isSpace c) = true := by
    intro c hc
    rw [isSpace_attr hc]
    rfl
  rw [List.takeWhile_append_of_pos hattr]
  cases rest with
  | nil => rw [List.takeWhile_nil, List.append_nil]
  | cons c rest => rw [List.takeWhile_cons_of_neg (by rw [h c rfl]; decide), List.append_nil]

theorem natText_cases (n : Nat) : (n = 0 ∧ natText n = ['0']) ∨ (n = 1 ∧ natText n = ['1']) ∨
    ∃ c s, 2 ≤ n ∧ natText n = c :: s ∧ ((c ≠ '0' ∧ c ≠ '1') ∨ s ≠ []) ∧ ∀ d ∈ s, d ≠ ' ' := by
  rcases Nat.lt_or_ge n 2 with hlt | hge
  · rcases Nat.lt_or_ge n 1 with hzero | hone
    · obtain rfl : n = 0 := by omega
      exact .inl ⟨rfl, by decide⟩
    · obtain rfl : n = 1 := by omega
      exact .inr (.inl ⟨rfl, by decide⟩)
  · obtain ⟨c, s, htext⟩ := List.exists_cons_of_ne_nil (natText_ne_nil n)
    refine .inr (.inr ⟨c, s, hge, htext, ?_, ?_⟩)
    · by_contra hnot
      rw [not_or, not_and_or, not_not, not_not, not_not] at hnot
      obtain ⟨hc, rfl⟩ := hnot
      have hvalue := Nat.ofDigitChars_ten_toDigits (n := n)
      change Nat.ofDigitChars 10 (natText n) 0 = n at hvalue
      rw [htext] at hvalue
      rcases hc with rfl | rfl
      · rw [show Nat.ofDigitChars 10 ['0'] 0 = 0 by decide] at hvalue
        omega
      · rw [show Nat.ofDigitChars 10 ['1'] 0 = 1 by decide] at hvalue
        omega
    · rintro d hd rfl
      have hdigit : Char.isDigit ' ' = true := isDigit_natText (n := n) (by rw [htext]; exact List.mem_cons_of_mem _ hd)
      exact absurd hdigit (by decide)

theorem markerParts_openComment {placement path : List Char} (hplacement : placement ≠ []) (sharedPages : Nat) :
    markerParts (openComment placement sharedPages path) =
      if sharedPages ≤ 1 ∧ path ≠ [] then some (attr placement, if sharedPages = 0 then '0' else '1', attr path) else none := by
  have hsplit : openComment placement sharedPages path = "caelo:f p=".toList ++ (attr placement ++
      (" s=".toList ++ (natText sharedPages ++ (" f=".toList ++ attr path)))) := by
    simp [openComment, EDIT_MARKER_PREFIX]
  have hne : attr placement ≠ [] := fun h => hplacement (attr_eq_nil.1 h)
  have hword : (attr placement ++ (" s=".toList ++ (natText sharedPages ++ (" f=".toList ++ attr path)))).takeWhile
      (fun c => !isSpace c) = attr placement := by
    apply takeWhile_attr
    intro c hc
    cases hc
    decide
  have hfield : (attr path).all (fun c => !isSpace c) = true := by
    rw [List.all_eq_true]
    intro c hc
    rw [isSpace_attr hc]
    rfl
  rw [markerParts, trimSpace_openComment, hsplit, afterText_append, Option.bind_some]
  dsimp only
  rw [hword, if_neg hne, List.drop_left, afterText_append, Option.bind_some]
  rcases natText_cases sharedPages with ⟨rfl, htext⟩ | ⟨rfl, htext⟩ | ⟨c, s, hge, htext, hcs, hblank⟩
  · rw [htext, List.singleton_append]
    dsimp only
    rw [if_pos (.inl rfl), afterText_append, Option.filter_some, hfield, Bool.and_true]
    by_cases hpath : path = []
    · subst hpath
      rfl
    · have hattr : (attr path).isEmpty = false := List.isEmpty_eq_false_iff.2 fun h => hpath (attr_eq_nil.1 h)
      simp [hattr, hpath]
  · rw [htext, List.singleton_append]
    dsimp only
    rw [if_pos (.inr rfl), afterText_append, Option.filter_some, hfield, Bool.and_true]
    by_cases hpath : path = []
    · subst hpath
      rfl
    · have hattr : (attr path).isEmpty = false := List.isEmpty_eq_false_iff.2 fun h => hpath (attr_eq_nil.1 h)
      simp [hattr, hpath]
  · rw [htext, List.cons_append, if_neg (by omega)]
    dsimp only
    split
    next hdigit =>
      rcases hcs with hcs | hs
      · exact absurd hdigit (by simp [hcs])
      · obtain ⟨d, s, rfl⟩ := List.exists_cons_of_ne_nil hs
        have hd : d ≠ ' ' := hblank d List.mem_cons_self
        have hafter : afterText " f=" (d :: s ++ (" f=".toList ++ attr path)) = none := by
          rw [afterText, if_neg]
          intro hprefix
          have hhead := (List.isPrefixOf_iff_prefix.1 hprefix)
          exact hd (List.cons_prefix_cons.1 hhead).1.symm
        rw [hafter]
        rfl
    next => rfl

/-! ### What is read -/

def EditMarker.pages (m : EditMarker) : Nat := if m.synced then 1 else 0

def EditMarker.path (m : EditMarker) : Option (List Char) :=
  match m.index with
  | none => some m.field
  | some none => none
  | some (some i) => some (m.field ++ '.' :: indexText i)

def ReadsBack (blockName : List Char) (position sharedPages : Nat) (path : List Char) : Prop :=
  ∃ m, parseEditMarker (openComment (placementKey blockName position) sharedPages path) = some (some m) ∧
    m.blockName = blockName ∧ m.position = position ∧ m.pages = sharedPages ∧ m.path = some path

/-- A field, or a field and a number. -/
def PlainPath (path : List Char) : Prop :=
  ∃ field, field ≠ [] ∧ '.' ∉ field ∧ (path = field ∨ ∃ i, path = field ++ '.' :: indexText i)

theorem splitOn_dot {field : List Char} (hfield : '.' ∉ field) : field.splitOn '.' = [field] :=
  List.splitOnP_eq_singleton fun _ hc => beq_eq_false_iff_ne.2 fun h => hfield (h ▸ hc)

theorem splitOn_dot_cons {field : List Char} (hfield : '.' ∉ field) (rest : List Char) :
    (field ++ '.' :: rest).splitOn '.' = field :: rest.splitOn '.' := by
  rw [List.splitOn, List.splitOnP_append_cons _ _ (by decide)]
  exact congrArg (· ++ _) (splitOn_dot hfield)

def markerOf (blockName : List Char) (position sharedPages : Nat) : List (List Char) → Option EditMarker
  | [] => none
  | field :: parts =>
    if field = [] then none
    else some ⟨blockName, position, sharedPages == 1, field, parts.head?.map integerNumber⟩

theorem parseEditMarker_openComment (blockName : List Char) (position sharedPages : Nat) (path : List Char) :
    parseEditMarker (openComment (placementKey blockName position) sharedPages path) =
      some (if blockName ≠ [] ∧ sharedPages ≤ 1 then markerOf blockName position sharedPages (path.splitOn '.') else none) := by
  unfold parseEditMarker
  rw [markerParts_openComment (placementKey_ne_nil _ _)]
  by_cases hpages : sharedPages ≤ 1
  · by_cases hpath : path = []
    · subst hpath
      have hnone : markerOf blockName position sharedPages (List.splitOn '.' []) = none := rfl
      rw [if_neg (by simp), hnone, ite_self]
    · rw [if_pos ⟨hpages, hpath⟩]
      dsimp only
      rw [decodeURIComponent_attr, Option.bind_some, splitHash_placementKey]
      by_cases hblock : blockName = []
      · subst hblock
        rfl
      · have hempty : blockName.isEmpty = false := List.isEmpty_eq_false_iff.2 hblock
        have hfilter : (some (blockName, natText position)).filter (fun at_ => !at_.1.isEmpty) =
            some (blockName, natText position) := by
          rw [Option.filter_some, hempty]
          rfl
        rw [hfilter, if_pos (And.intro hblock hpages)]
        dsimp only
        rw [integerNumber_natText]
        dsimp only
        rw [decodeURIComponent_attr, Option.map_some]
        have hsynced : ((if sharedPages = 0 then '0' else '1') == '1') = (sharedPages == 1) := by
          rcases Nat.le_one_iff_eq_zero_or_eq_one.1 hpages with rfl | rfl <;> rfl
        rw [hsynced]
        cases path.splitOn '.' <;> rfl
  · rw [if_neg (fun h => hpages h.1), if_neg fun h => hpages h.2]

theorem readsBack_iff (blockName : List Char) (position sharedPages : Nat) (path : List Char) :
    ReadsBack blockName position sharedPages path ↔ blockName ≠ [] ∧ sharedPages ≤ 1 ∧ PlainPath path := by
  unfold ReadsBack
  rw [parseEditMarker_openComment]
  constructor
  · rintro ⟨m, hparse, hblock, -, hpages, hpath⟩
    have hparse := Option.some.inj hparse
    split at hparse
    next hcond =>
      refine ⟨hcond.1, hcond.2, ?_⟩
      have hclean : ∀ part ∈ path.splitOn '.', '.' ∉ part := by
        intro part hpart hdot
        exact absurd (Words.splitOnP_clean hpart '.' hdot) (by decide)
      cases hparts : path.splitOn '.' with
      | nil =>
        rw [hparts] at hparse
        cases hparse
      | cons field parts =>
        rw [hparts] at hparse hclean
        by_cases hfield : field = []
        · rw [markerOf, if_pos hfield] at hparse
          cases hparse
        · rw [markerOf, if_neg hfield] at hparse
          obtain rfl := Option.some.inj hparse
          refine ⟨field, hfield, hclean field List.mem_cons_self, ?_⟩
          cases parts with
          | nil => exact .inl (Option.some.inj hpath).symm
          | cons index parts =>
            unfold EditMarker.path at hpath
            rw [List.head?_cons, Option.map_some] at hpath
            cases hnumber : integerNumber index with
            | none =>
              rw [hnumber] at hpath
              cases hpath
            | some i =>
              rw [hnumber] at hpath
              exact .inr ⟨i, (Option.some.inj hpath).symm⟩
    next => cases hparse
  · rintro ⟨hblock, hpages, field, hfield, hdot, hpath⟩
    rw [if_pos ⟨hblock, hpages⟩]
    have hcount : (if (sharedPages == 1) = true then 1 else 0) = sharedPages := by
      rcases Nat.le_one_iff_eq_zero_or_eq_one.1 hpages with rfl | rfl <;> rfl
    rcases hpath with rfl | ⟨i, rfl⟩
    · refine ⟨⟨blockName, position, sharedPages == 1, path, none⟩, ?_, rfl, rfl, hcount, rfl⟩
      rw [splitOn_dot hdot, markerOf, if_neg hfield]
      rfl
    · have hindex : '.' ∉ indexText i := by
        intro hmem
        rcases mem_indexText hmem with h | h
        · exact absurd h (by decide)
        · exact absurd h (by decide)
      refine ⟨⟨blockName, position, sharedPages == 1, field, some (some i)⟩, ?_, rfl, rfl, hcount, rfl⟩
      rw [splitOn_dot_cons hdot, splitOn_dot hindex, markerOf, if_neg hfield, List.head?_cons, Option.map_some,
        integerNumber_indexText]

/-- Every opening comment of a document is read back if and only if it stands for one page at most and marks a field
and not the entry of a list. -/
theorem openings_readBack_iff (html blockName : List Char) (position sharedPages : Nat) :
    (∀ path, .opening path ∈ editMarkers html → ReadsBack blockName position sharedPages path) ↔
      ∀ path, .opening path ∈ editMarkers html → blockName ≠ [] ∧ sharedPages ≤ 1 ∧ PlainPath path := by
  constructor
  · intro h path hpath
    exact (readsBack_iff blockName position sharedPages path).1 (h path hpath)
  · intro h path hpath
    exact (readsBack_iff blockName position sharedPages path).2 (h path hpath)

/-- A title that four pages share, and a label in a list. -/
theorem openings_readBack_fails :
    (.opening "title".toList ∈ editMarkers (wrap "title".toList "Hi".toList) ∧
      ¬ReadsBack "content".toList 2 4 "title".toList) ∧
    (.opening "links.00000000-0000-4000-9000-000000000003.label".toList ∈
        editMarkers (wrap "links.00000000-0000-4000-9000-000000000003.label".toList "Docs".toList) ∧
      ¬ReadsBack "content".toList 2 0 "links.00000000-0000-4000-9000-000000000003.label".toList) := by
  refine ⟨⟨by decide +kernel, ?_⟩, by decide +kernel, ?_⟩
  · rintro ⟨m, hparse, -⟩
    have hnull : parseEditMarker (openComment (placementKey "content".toList 2) 4 "title".toList) = some none := by
      decide +kernel
    rw [hnull] at hparse
    cases hparse
  · rintro ⟨m, hparse, -, -, -, hpath⟩
    have hread : (parseEditMarker (openComment (placementKey "content".toList 2) 0
        "links.00000000-0000-4000-9000-000000000003.label".toList)).map (·.map EditMarker.path) = some (some none) := by
      decide +kernel
    rw [hparse, Option.map_some, Option.map_some, hpath] at hread
    cases hread

end CaeloCms.Edit
