import CaeloCms.Shared.WebText

/-!
# Escaped texts

`encodeURIComponent`, and that what it writes is read back: the bytes of a character are read as this character
(`utf8Chars_utf8`), and an escaped text as the bytes of what it stands for (`decodeURIComponent_escaped`).
-/

namespace CaeloCms.Web

def upperHexDigit (n : Nat) : Char := if n < 10 then Char.ofNat (48 + n) else Char.ofNat (55 + n)

/-- `%XX` -/
def escapeByte (b : Nat) : List Char := ['%', upperHexDigit (b / 16), upperHexDigit (b % 16)]

/-- The characters that `encodeURIComponent` leaves as they are. -/
def isUnescaped (c : Char) : Bool :=
  ('A' ≤ c && c ≤ 'Z') || ('a' ≤ c && c ≤ 'z') || ('0' ≤ c && c ≤ '9') || "-_.!~*'()".toList.contains c

def escapeChar (c : Char) : List Char := if isUnescaped c then [c] else (utf8 [c]).flatMap escapeByte

def encodeURIComponent (s : List Char) : List Char := s.flatMap escapeChar

/-! ### Bytes of a character -/

theorem utf8_cons (c : Char) (s : List Char) : utf8 (c :: s) = utf8 [c] ++ utf8 s := by
  simp [utf8]

theorem utf8_lt {c : Char} {b : Nat} (h : b ∈ utf8 [c]) : b < 256 := by
  obtain ⟨c', hc', hb⟩ := List.mem_flatMap.1 h
  obtain ⟨w, hw, rfl⟩ := List.mem_map.1 hb
  exact w.toNat_lt

theorem toNat_range (c : Char) : c.toNat < 0x110000 ∧ (c.toNat < 0xD800 ∨ 0xDFFF < c.toNat) := by
  have h := c.valid
  simp only [UInt32.isValidChar, Nat.isValidChar] at h
  change c.toNat < 0xD800 ∨ 0xDFFF < c.toNat ∧ c.toNat < 0x110000 at h
  omega

theorem utf8_singleton (c : Char) : utf8 [c] =
    if c.toNat ≤ 0x7F then [c.toNat]
    else if c.toNat ≤ 0x7FF then [c.toNat / 64 + 0xC0, c.toNat % 64 + 0x80]
    else if c.toNat ≤ 0xFFFF then [c.toNat / 4096 + 0xE0, c.toNat / 64 % 64 + 0x80, c.toNat % 64 + 0x80]
    else [c.toNat / 262144 + 0xF0, c.toNat / 4096 % 64 + 0x80, c.toNat / 64 % 64 + 0x80, c.toNat % 64 + 0x80] := by
  have hrange := toNat_range c
  have hval : c.val.toNat = c.toNat := rfl
  rw [utf8, List.flatMap_singleton]
  unfold String.utf8EncodeChar
  simp only [hval]
  split_ifs <;> simp <;> omega

theorem utf8Chars_more {value n lower upper d : Nat} (hd : d < 64) (hlower : lower ≤ d + 0x80) (hupper : d + 0x80 ≤ upper)
    (bytes : List Nat) : utf8Chars (some ⟨value, n + 2, lower, upper⟩) ((d + 0x80) :: bytes) =
      utf8Chars (some ⟨value * 64 + d, n + 1, 0x80, 0xBF⟩) bytes := by
  have hmod : (d + 0x80) % 64 = d := by omega
  rw [utf8Chars]
  unfold utf8Step
  simp only [hlower, hupper, and_self, if_true, hmod]
  rw [if_neg (by omega)]
  rfl

theorem utf8Chars_last {value lower upper d : Nat} (hd : d < 64) (hlower : lower ≤ d + 0x80) (hupper : d + 0x80 ≤ upper)
    (bytes : List Nat) : utf8Chars (some ⟨value, 1, lower, upper⟩) ((d + 0x80) :: bytes) =
      some (Char.ofNat (value * 64 + d)) :: utf8Chars none bytes := by
  have hmod : (d + 0x80) % 64 = d := by omega
  rw [utf8Chars]
  unfold utf8Step
  simp only [hlower, hupper, and_self, if_true, hmod]
  rfl

theorem utf8Chars_char (c : Char) (bytes : List Nat) : utf8Chars none (utf8 [c] ++ bytes) = some c :: utf8Chars none bytes := by
  obtain ⟨hlt, hsurrogate⟩ := toNat_range c
  rw [utf8_singleton]
  split_ifs with h1 h2 h3
  · have hfirst : utf8First c.toNat = ([some c], none) := by
      rw [utf8First, if_pos (by omega), Char.ofNat_toNat]
    rw [List.singleton_append, utf8Chars]
    unfold utf8Step
    rw [hfirst]
    rfl
  · have hfirst : utf8First (c.toNat / 64 + 0xC0) = ([], some ⟨c.toNat / 64, 1, 0x80, 0xBF⟩) := by
      rw [utf8First, if_neg (by omega), if_pos (by omega), show (c.toNat / 64 + 0xC0) % 32 = c.toNat / 64 by omega]
    rw [List.cons_append, utf8Chars]
    unfold utf8Step
    rw [hfirst, List.nil_append, List.singleton_append, utf8Chars_last (by omega) (by omega) (by omega),
      show c.toNat / 64 * 64 + c.toNat % 64 = c.toNat by omega, Char.ofNat_toNat]
  · have hfirst : utf8First (c.toNat / 4096 + 0xE0) = ([], some ⟨c.toNat / 4096, 2,
        if c.toNat / 4096 = 0 then 0xA0 else 0x80, if c.toNat / 4096 = 13 then 0x9F else 0xBF⟩) := by
      rw [utf8First, if_neg (by omega), if_neg (by omega), if_pos (by omega),
        show (c.toNat / 4096 + 0xE0) % 16 = c.toNat / 4096 by omega]
      simp only [show (c.toNat / 4096 + 0xE0 = 0xE0) = (c.toNat / 4096 = 0) by apply propext; omega,
        show (c.toNat / 4096 + 0xE0 = 0xED) = (c.toNat / 4096 = 13) by apply propext; omega]
    rw [List.cons_append, utf8Chars]
    unfold utf8Step
    rw [hfirst, List.nil_append, List.cons_append, utf8Chars_more (by omega) (by split <;> omega) (by split <;> omega),
      List.singleton_append, utf8Chars_last (by omega) (by omega) (by omega),
      show (c.toNat / 4096 * 64 + c.toNat / 64 % 64) * 64 + c.toNat % 64 = c.toNat by omega, Char.ofNat_toNat]
  · have hfirst : utf8First (c.toNat / 262144 + 0xF0) = ([], some ⟨c.toNat / 262144, 3,
        if c.toNat / 262144 = 0 then 0x90 else 0x80, if c.toNat / 262144 = 4 then 0x8F else 0xBF⟩) := by
      rw [utf8First, if_neg (by omega), if_neg (by omega), if_neg (by omega), if_pos (by omega),
        show (c.toNat / 262144 + 0xF0) % 8 = c.toNat / 262144 by omega]
      simp only [show (c.toNat / 262144 + 0xF0 = 0xF0) = (c.toNat / 262144 = 0) by apply propext; omega,
        show (c.toNat / 262144 + 0xF0 = 0xF4) = (c.toNat / 262144 = 4) by apply propext; omega]
    rw [List.cons_append, utf8Chars]
    unfold utf8Step
    rw [hfirst, List.nil_append, List.cons_append, utf8Chars_more (by omega) (by split <;> omega) (by split <;> omega),
      List.cons_append, utf8Chars_more (by omega) (by omega) (by omega), List.singleton_append,
      utf8Chars_last (by omega) (by omega) (by omega),
      show ((c.toNat / 262144 * 64 + c.toNat / 4096 % 64) * 64 + c.toNat / 64 % 64) * 64 + c.toNat % 64 = c.toNat by omega,
      Char.ofNat_toNat]

theorem utf8Chars_utf8 (s : List Char) : utf8Chars none (utf8 s) = s.map some := by
  induction s with
  | nil => rfl
  | cons c s ih => rw [utf8_cons, utf8Chars_char, ih, List.map_cons]

/-! ### Escaped texts -/

theorem hexDigitValue_upperHexDigit {n : Nat} (h : n < 16) : hexDigitValue (upperHexDigit n) = some n := by
  have hall : ∀ n < 16, hexDigitValue (upperHexDigit n) = some n := by decide
  exact hall n h

theorem percentBytes_escapeByte {b : Nat} (h : b < 256) (s : List Char) :
    percentBytes (escapeByte b ++ s) = some b :: percentBytes s := by
  have hbyte : escapedByte (upperHexDigit (b / 16)) (upperHexDigit (b % 16)) = some b := by
    rw [escapedByte, hexDigitValue_upperHexDigit (by omega), hexDigitValue_upperHexDigit (by omega)]
    simp only [Option.bind_some, Option.map_some, Option.some.injEq]
    omega
  change percentBytes ('%' :: upperHexDigit (b / 16) :: upperHexDigit (b % 16) :: s) = _
  rw [percentBytes, hbyte]

theorem percentBytes_escapeBytes {bytes : List Nat} (h : ∀ b ∈ bytes, b < 256) (s : List Char) :
    percentBytes (bytes.flatMap escapeByte ++ s) = bytes.map some ++ percentBytes s := by
  induction bytes with
  | nil => rfl
  | cons b bytes ih =>
    obtain ⟨hb, hbytes⟩ := List.forall_mem_cons.1 h
    rw [List.flatMap_cons, List.append_assoc, percentBytes_escapeByte hb, ih hbytes, List.map_cons, List.cons_append]

theorem percentBytes_plain {c : Char} (h : c ≠ '%') (s : List Char) :
    percentBytes (c :: s) = (utf8 [c]).map some ++ percentBytes s := by
  rw [percentBytes]
  · intro high low rest hc
    exact absurd hc h
  · exact h

def StandsFor (escape : Char → List Char) : Prop :=
  ∀ c, escape c = [c] ∧ c ≠ '%' ∨ escape c = (utf8 [c]).flatMap escapeByte

theorem percentBytes_escaped {escape : Char → List Char} (h : StandsFor escape) (s : List Char) :
    percentBytes (s.flatMap escape) = (utf8 s).map some := by
  induction s with
  | nil => rfl
  | cons c s ih =>
    rw [List.flatMap_cons, utf8_cons, List.map_append, ← ih]
    rcases h c with ⟨heq, hc⟩ | heq
    · rw [heq, List.singleton_append, percentBytes_plain hc]
    · rw [heq, percentBytes_escapeBytes fun b hb => utf8_lt hb]

theorem mapM_some {α : Type} (l : List α) : (l.map some).mapM id = some l := by
  induction l with
  | nil => rfl
  | cons a l ih => simp [List.mapM_cons, ih]

theorem decodeURIComponent_escaped {escape : Char → List Char} (h : StandsFor escape) (s : List Char) :
    decodeURIComponent (s.flatMap escape) = some s := by
  rw [decodeURIComponent, percentBytes_escaped h, mapM_some, Option.bind_some, utf8Chars_utf8, mapM_some]

theorem standsFor_escapeChar : StandsFor escapeChar := by
  intro c
  unfold escapeChar
  split
  · rename_i hc
    refine .inl ⟨rfl, ?_⟩
    rintro rfl
    exact absurd hc (by decide)
  · exact .inr rfl

theorem decodeURIComponent_encodeURIComponent (s : List Char) : decodeURIComponent (encodeURIComponent s) = some s :=
  decodeURIComponent_escaped standsFor_escapeChar s

example : encodeURIComponent "é#1-a".toList = "%C3%A9%231-a".toList := by decide +kernel

end CaeloCms.Web
