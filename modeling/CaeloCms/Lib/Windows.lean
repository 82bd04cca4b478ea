import Mathlib

/-!
# Windows of a list

A list cut into windows of one size: the windows, one after the other, are the list, and each window that starts inside
the list has an element.
-/

namespace CaeloCms.Lib

variable {α : Type}

/-- Window `i` of a list, counted from 0. -/
def window (size i : Nat) (l : List α) : List α := (l.drop (i * size)).take size

/-- How many windows hold `total` elements, at least one. -/
def windowCount (size total : Nat) : Nat := max 1 ((total + size - 1) / size)

theorem windowCount_pos (size total : Nat) : 0 < windowCount size total :=
  lt_of_lt_of_le Nat.one_pos (le_max_left _ _)

theorem le_windowCount_mul {size : Nat} (hsize : 0 < size) (total : Nat) : total ≤ windowCount size total * size := by
  have hdiv : total ≤ (total + size - 1) / size * size := by
    have hmod := Nat.mod_lt (total + size - 1) hsize
    have hsplit := Nat.div_add_mod (total + size - 1) size
    rw [Nat.mul_comm] at hsplit
    omega
  exact hdiv.trans (Nat.mul_le_mul_right size (le_max_right _ _))

theorem start_lt_of_lt_windowCount {size total i : Nat} (hsize : 0 < size) (hi : i + 1 < windowCount size total) :
    (i + 1) * size < total := by
  have hlt : i + 1 < (total + size - 1) / size := by
    rcases lt_max_iff.mp hi with h | h
    · omega
    · exact h
  have hle := (Nat.le_div_iff_mul_le hsize).mp hlt
  rw [Nat.succ_mul] at hle
  omega

theorem window_ne_nil {size i : Nat} {l : List α} (hsize : 0 < size) (h : i * size < l.length) : window size i l ≠ [] := by
  intro hnil
  have hlen := congrArg List.length hnil
  rw [window, List.length_take, List.length_drop, List.length_nil] at hlen
  omega

theorem flatMap_window (size : Nat) (l : List α) (count : Nat) :
    ((List.range count).flatMap fun i => window size i l) = l.take (count * size) := by
  induction count with
  | zero => simp
  | succ count ih =>
    rw [List.range_succ, List.flatMap_append, ih, List.flatMap_singleton, window, Nat.succ_mul, List.take_add]

theorem flatMap_window_windowCount {size : Nat} (hsize : 0 < size) (l : List α) :
    ((List.range (windowCount size l.length)).flatMap fun i => window size i l) = l := by
  rw [flatMap_window]
  exact List.take_of_length_le (le_windowCount_mul hsize l.length)

end CaeloCms.Lib
