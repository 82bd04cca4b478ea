import Mathlib

/-!
# Clocks that show the minutes of a day

A clock shows for every minute how many minutes of the day are over.  It is steady at a minute where it goes on by one,
and starts again at midnight; anywhere else it jumps.  `firstMinute` searches minute by minute for one with a property.

A clock that jumps at most once within two days shows every minute of the day in these two days (`exists_shown`).
-/

namespace MinuteClock

/-- The first with the property of the minute `k` and the `n` minutes behind it. -/
def firstMinute (n : Nat) (p : Int → Bool) (k : Int) : Option Int :=
  ((List.range (n + 1)).find? fun m : Nat => p (k + m)).map fun m : Nat => k + m

variable {n : Nat} {p : Int → Bool} {k t : Int}

theorem firstMinute_eq_some (h : firstMinute n p k = some t) :
    p t = true ∧ k ≤ t ∧ ∀ i, k ≤ i → i < t → p i = false := by
  obtain ⟨m, hm, rfl⟩ := Option.map_eq_some_iff.1 h
  obtain ⟨hp, -, hbefore⟩ := List.find?_range_eq_some.1 hm
  refine ⟨hp, by omega, ?_⟩
  intro i hi hlt
  obtain ⟨j, rfl⟩ : ∃ j : Nat, i = k + j := ⟨(i - k).toNat, by omega⟩
  simpa using hbefore j (by omega)

theorem firstMinute_eq_none (h : firstMinute n p k = none) : ∀ i, k ≤ i → i ≤ k + n → p i = false := by
  intro i hi hle
  obtain ⟨j, rfl⟩ : ∃ j : Nat, i = k + j := ⟨(i - k).toNat, by omega⟩
  have hnone := List.find?_eq_none.1 (Option.map_eq_none_iff.1 h) j (List.mem_range.2 (by omega))
  simpa using hnone

variable (clock : Int → Nat)

def Steady (i : Int) : Prop := clock (i + 1) = (clock i + 1) % 1440

/-- The clock shows minutes of a day, and two of its jumps lie more than two days apart. -/
structure JumpsRarely : Prop where
  shown : ∀ i, clock i < 1440
  apart : ∀ i j, i < j → j ≤ i + 2880 → Steady clock i ∨ Steady clock j

variable {clock}

theorem clock_add (h0 : clock k < 1440) (h : ∀ j : Nat, j < n → Steady clock (k + j)) :
    clock (k + n) = (clock k + n) % 1440 := by
  induction n with
  | zero => rw [Nat.cast_zero, add_zero, add_zero, Nat.mod_eq_of_lt h0]
  | succ n ih =>
    have hstep : clock (k + n + 1) = _ := h n (Nat.lt_succ_self n)
    rw [Nat.cast_succ, ← add_assoc, hstep, ih fun j hj => h j (Nat.lt_succ_of_lt hj), Nat.mod_add_mod, add_assoc]

theorem exists_shown_of_steady (h0 : clock k < 1440) (h : ∀ j : Nat, j < 1439 → Steady clock (k + j)) {w : Nat}
    (hw : w < 1440) : ∃ m : Nat, m < 1440 ∧ clock (k + m) = w := by
  refine ⟨(w + 1440 - clock k) % 1440, by omega, ?_⟩
  rw [clock_add h0 fun j hj => h j (by omega)]
  omega

theorem exists_shown (h : JumpsRarely clock) (k : Int) {w : Nat} (hw : w < 1440) :
    ∃ m : Nat, m ≤ 2880 ∧ clock (k + m) = w := by
  by_cases hsteady : ∀ j : Nat, j < 1439 → Steady clock (k + j)
  · obtain ⟨m, hm, hclock⟩ := exists_shown_of_steady (h.shown k) hsteady hw
    exact ⟨m, by omega, hclock⟩
  · obtain ⟨i, hi⟩ := not_forall.1 hsteady
    obtain ⟨hlt, hjump⟩ := Classical.not_imp.1 hi
    -- Behind a jump the clock is steady for two days.
    have hrest : ∀ j : Nat, j < 1439 → Steady clock (k + i + 1 + j) := by
      intro j hj
      exact (h.apart (k + i) _ (by omega) (by omega)).resolve_left hjump
    obtain ⟨m, hm, hclock⟩ := exists_shown_of_steady (h.shown _) hrest hw
    refine ⟨i + 1 + m, by omega, ?_⟩
    rw [← hclock, Nat.cast_add, Nat.cast_add, Nat.cast_one, ← add_assoc, ← add_assoc]

end MinuteClock
