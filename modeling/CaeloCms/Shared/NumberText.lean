import CaeloCms.Lib.Binary64
import CaeloCms.Redirect.JsonText

/-!
# The text of a whole number

`String(x)` for a whole number that is a double: the shortest digits that are read back as the number, with zeros up to its
magnitude or, from `10 ^ 21` on, with an exponent.  Up to `2 ^ 53` these are its decimal digits.
-/

namespace CaeloCms

open Redirect (natText)

/-- The multiples of `unit` around a number, the nearer one first, as their quotients. -/
def nearMultiples (n unit : Nat) : List Nat :=
  if 2 * (n % unit) < unit ∨ 2 * (n % unit) = unit ∧ n / unit % 2 = 0 then [n / unit, n / unit + 1]
  else [n / unit + 1, n / unit]

/-- The first digits of a number and the unit they count, with as few digits as are read back as the number. -/
def shortestDigits (n : Nat) : Nat × Nat :=
  let length := (natText n).length
  ((List.range 17).findSome? fun k =>
    ((nearMultiples n (10 ^ (length - (k + 1)))).find? fun s =>
      Binary64.ofNat (s * 10 ^ (length - (k + 1))) = Binary64.ofNat n).map fun s => (s, length - (k + 1))).getD (n, 0)

/-- A number from `2 ^ 53` on. -/
def largeText (n : Nat) : List Char :=
  let s := shortestDigits n
  let magnitude := (natText s.1).length + s.2
  let digits := (natText s.1).rdropWhile fun c => c = '0'
  if magnitude ≤ 21 then digits ++ List.replicate (magnitude - digits.length) '0'
  else
    digits.take 1 ++ (if digits.length ≤ 1 then [] else '.' :: digits.drop 1) ++ 'e' :: '+' :: natText (magnitude - 1)

/-- `String(n)` -/
def numberText (n : Nat) : List Char := if n < 2 ^ 53 then natText n else largeText n

example : numberText (2 ^ 69) = "590295810358705700000".toList := by decide +kernel
example : numberText (10 ^ 23) = "1e+23".toList := by decide +kernel

theorem div_le_nearMultiples {n unit s : Nat} (h : s ∈ nearMultiples n unit) : n / unit ≤ s := by
  unfold nearMultiples at h
  split at h <;> rcases List.mem_pair.1 h with rfl | rfl <;> omega

theorem div_le_shortestDigits (n : Nat) : n / 10 ^ (shortestDigits n).2 ≤ (shortestDigits n).1 := by
  unfold shortestDigits
  dsimp only
  cases hfind : (List.range 17).findSome? fun k =>
      ((nearMultiples n (10 ^ ((natText n).length - (k + 1)))).find? fun s =>
        Binary64.ofNat (s * 10 ^ ((natText n).length - (k + 1))) = Binary64.ofNat n).map
          fun s => (s, (natText n).length - (k + 1)) with
  | none => exact Nat.div_le_self n _
  | some digits =>
    obtain ⟨k, -, hk⟩ := List.exists_of_findSome?_eq_some hfind
    obtain ⟨s, hs, rfl⟩ := Option.map_eq_some_iff.1 hk
    exact div_le_nearMultiples (List.mem_of_find?_eq_some hs)

theorem length_natText_le_iff {n k : Nat} (hk : 0 < k) : (natText n).length ≤ k ↔ n < 10 ^ k :=
  Nat.length_toDigits_le_iff (by omega) hk

theorem length_natText_pos (n : Nat) : 0 < (natText n).length := Nat.length_toDigits_pos

theorem length_natText_le_shortestDigits (n : Nat) :
    (natText n).length ≤ (natText (shortestDigits n).1).length + (shortestDigits n).2 := by
  have hdiv := div_le_shortestDigits n
  have hpos := length_natText_pos (shortestDigits n).1
  have hlt : (shortestDigits n).1 < 10 ^ (natText (shortestDigits n).1).length :=
    (length_natText_le_iff hpos).1 (Nat.le_refl _)
  rw [length_natText_le_iff (by omega), Nat.pow_add]
  exact (Nat.div_lt_iff_lt_mul (Nat.pow_pos (by omega))).1 (Nat.lt_of_le_of_lt hdiv hlt)

theorem isDigit_natText' {n : Nat} {c : Char} (h : c ∈ natText n) : c.isDigit = true :=
  Nat.isDigit_of_mem_toDigits (by omega) (by omega) h

theorem numberText_of_le {n : Nat} (h : 10 ^ 12 ≤ n) :
    '+' ∈ numberText n ∨ (∀ c ∈ numberText n, c.isDigit = true) ∧ 13 ≤ (numberText n).length := by
  have hlength : 13 ≤ (natText n).length := by
    by_contra hlt
    exact absurd ((length_natText_le_iff (by omega)).1 (Nat.le_of_lt_succ (Nat.not_le.1 hlt))) (by omega)
  unfold numberText
  by_cases hsmall : n < 2 ^ 53
  · rw [if_pos hsmall]
    exact Or.inr ⟨fun c => isDigit_natText', hlength⟩
  · rw [if_neg hsmall]
    unfold largeText
    dsimp only
    split
    · refine Or.inr ⟨?_, ?_⟩
      · intro c hc
        rcases List.mem_append.1 hc with hc | hc
        · exact isDigit_natText' ((List.rdropWhile_prefix _ _).subset hc)
        · rw [(List.mem_replicate.1 hc).2]
          rfl
      · have hmagnitude := length_natText_le_shortestDigits n
        rw [List.length_append, List.length_replicate]
        omega
    · exact Or.inl (by simp)

end CaeloCms
