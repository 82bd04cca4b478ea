import Mathlib

/-!
# Natural numbers as binary floating point

`Binary64.ofNat n` is the double nearest to a natural number, ties to even: 53 binary digits are kept, and from `2 ^ 1024` on
the result is infinite.  Rounding keeps the order (`ofNat_mono`) but not its strictness; below `2 ^ 53` it is exact.
-/

namespace Binary64

def lastPlace (n : Nat) : Nat := 2 ^ (n.log2 - 52)

/-- A quotient rounded to the nearest number, ties to even. -/
def roundDiv (n d : Nat) : Nat := if 2 * (n % d) < d ∨ 2 * (n % d) = d ∧ n / d % 2 = 0 then n / d else n / d + 1

def round (n : Nat) : Nat := roundDiv n (lastPlace n) * lastPlace n

def maxExponent : Nat := 1024

/-- The first power of two that is no double. -/
def overflow : Nat := 2 ^ maxExponent

/-- The double nearest to a number. -/
def ofNat (n : Nat) : WithTop Nat := if round n < overflow then (round n : WithTop Nat) else ⊤

theorem div_le_roundDiv (n d : Nat) : n / d ≤ roundDiv n d := by
  unfold roundDiv
  split <;> omega

theorem roundDiv_le (n d : Nat) : roundDiv n d ≤ n / d + 1 := by
  unfold roundDiv
  split <;> omega

theorem roundDiv_mono {m n d : Nat} (h : m ≤ n) : roundDiv m d ≤ roundDiv n d := by
  have hdiv : m / d ≤ n / d := Nat.div_le_div_right h
  rcases Nat.lt_or_eq_of_le hdiv with hlt | heq
  · calc roundDiv m d ≤ m / d + 1 := roundDiv_le m d
      _ ≤ n / d := hlt
      _ ≤ roundDiv n d := div_le_roundDiv n d
  · have hmod : m % d ≤ n % d := by
      have hm := Nat.div_add_mod m d
      have hn := Nat.div_add_mod n d
      rw [heq] at hm
      omega
    unfold roundDiv
    rw [heq]
    split <;> split <;> omega

theorem lastPlace_pos (n : Nat) : 0 < lastPlace n := Nat.two_pow_pos _

theorem lastPlace_of_lt {n : Nat} (h : n < 2 ^ 53) : lastPlace n = 1 := by
  have hlog : n.log2 ≤ 52 := by
    by_cases hn : n = 0
    · subst hn
      decide
    · exact Nat.le_of_lt_succ ((Nat.log2_lt hn).2 h)
  rw [lastPlace, Nat.sub_eq_zero_of_le hlog, Nat.pow_zero]

theorem round_of_lt {n : Nat} (h : n < 2 ^ 53) : round n = n := by
  rw [round, lastPlace_of_lt h, roundDiv, Nat.mod_one, Nat.div_one, Nat.mul_one, if_pos (Or.inl (by omega))]

/-- Rounding stays between the powers of two around a number. -/
theorem round_bounds {n : Nat} (hn : n ≠ 0) : 2 ^ n.log2 ≤ round n ∧ round n ≤ 2 ^ (n.log2 + 1) := by
  have hlow := Nat.log2_self_le hn
  have hhigh := Nat.lt_log2_self (n := n)
  by_cases hsmall : n.log2 ≤ 52
  · have hlt : n < 2 ^ 53 := lt_of_lt_of_le hhigh (Nat.pow_le_pow_right (by omega) (by omega))
    rw [round_of_lt hlt]
    exact ⟨hlow, Nat.le_of_lt hhigh⟩
  · have hpow : 2 ^ n.log2 = 2 ^ 52 * lastPlace n := by
      rw [lastPlace, ← Nat.pow_add]
      congr 1
      omega
    have hpow' : 2 ^ (n.log2 + 1) = 2 ^ 53 * lastPlace n := by
      rw [Nat.pow_succ, hpow]
      ring
    rw [hpow] at hlow
    rw [hpow'] at hhigh
    have hdivlow : 2 ^ 52 ≤ n / lastPlace n := (Nat.le_div_iff_mul_le (lastPlace_pos n)).2 hlow
    have hdivhigh : n / lastPlace n < 2 ^ 53 := (Nat.div_lt_iff_lt_mul (lastPlace_pos n)).2 hhigh
    rw [hpow, hpow', round]
    constructor
    · exact Nat.mul_le_mul_right _ (le_trans hdivlow (div_le_roundDiv n _))
    · exact Nat.mul_le_mul_right _ (le_trans (roundDiv_le n _) hdivhigh)

theorem round_mono {m n : Nat} (h : m ≤ n) : round m ≤ round n := by
  by_cases hm : m = 0
  · subst hm
    exact le_of_eq_of_le (round_of_lt (by decide)) (Nat.zero_le _)
  · have hn : n ≠ 0 := by omega
    have hlog : m.log2 ≤ n.log2 := by
      rw [Nat.log2_eq_log_two, Nat.log2_eq_log_two]
      exact Nat.log_mono_right h
    rcases Nat.lt_or_eq_of_le hlog with hlt | heq
    · calc round m ≤ 2 ^ (m.log2 + 1) := (round_bounds hm).2
        _ ≤ 2 ^ n.log2 := Nat.pow_le_pow_right (by omega) hlt
        _ ≤ round n := (round_bounds hn).1
    · have hplace : lastPlace m = lastPlace n := by rw [lastPlace, lastPlace, heq]
      rw [round, round, hplace]
      exact Nat.mul_le_mul_right _ (roundDiv_mono h)

theorem ofNat_mono {m n : Nat} (h : m ≤ n) : ofNat m ≤ ofNat n := by
  have hround := round_mono h
  unfold ofNat
  by_cases hn : round n < overflow
  · rw [if_pos hn, if_pos (lt_of_le_of_lt hround hn)]
    exact WithTop.coe_le_coe.2 hround
  · rw [if_neg hn]
    exact le_top

/-- Doubles that differ are in the order of the numbers. -/
theorem ofNat_lt_iff {m n : Nat} (h : ofNat m ≠ ofNat n) : ofNat m < ofNat n ↔ m < n := by
  constructor
  · intro hlt
    by_contra hle
    exact absurd hlt (not_lt_of_ge (ofNat_mono (Nat.not_lt.1 hle)))
  · intro hlt
    exact lt_of_le_of_ne (ofNat_mono (Nat.le_of_lt hlt)) h

example : ofNat (2 ^ 53 + 1) = ofNat (2 ^ 53) := by decide +kernel

end Binary64
