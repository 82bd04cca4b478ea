import Mathlib

/-!
# Sets that keep their insertion order

A JavaScript `Set` is iterated in the order of insertion and keeps one copy of each element.  It is modelled as a
list without repetitions: `add` appends an absent element, `addAll` adds the elements of a list one after the other.
Only membership matters to most users (`mem_add`, `mem_addAll`).
-/

namespace OrderedSet

variable {α : Type*} [DecidableEq α]

/-- `set.add(a)` -/
def add (s : List α) (a : α) : List α := if a ∈ s then s else s ++ [a]

/-- `for (const a of l) set.add(a)` -/
def addAll (s l : List α) : List α := l.foldl add s

@[simp] theorem mem_add {s : List α} {a b : α} : b ∈ add s a ↔ b ∈ s ∨ b = a := by
  unfold add
  split
  · rename_i h
    exact ⟨Or.inl, fun hb => hb.elim id (fun e => e ▸ h)⟩
  · simp

@[simp] theorem mem_addAll {s l : List α} {b : α} : b ∈ addAll s l ↔ b ∈ s ∨ b ∈ l := by
  induction l generalizing s with
  | nil => simp [addAll]
  | cons a l ih =>
    show b ∈ addAll (add s a) l ↔ _
    rw [ih, mem_add, List.mem_cons, or_assoc]

theorem nodup_add {s : List α} (h : s.Nodup) (a : α) : (add s a).Nodup := by
  unfold add
  split
  · exact h
  · rename_i ha
    rw [List.nodup_append]
    refine ⟨h, List.nodup_singleton a, ?_⟩
    intro x hx y hy
    rw [List.mem_singleton] at hy
    exact fun e => ha (hy ▸ e ▸ hx)

theorem nodup_addAll {s : List α} (h : s.Nodup) (l : List α) : (addAll s l).Nodup := by
  induction l generalizing s with
  | nil => exact h
  | cons a l ih => exact ih (nodup_add h a)

theorem addAll_eq_append_iff {s : List α} (h : s.Nodup) (l : List α) : addAll s l = s ++ l ↔ (s ++ l).Nodup := by
  constructor
  · intro heq
    exact heq ▸ nodup_addAll h l
  · intro hnodup
    induction l generalizing s with
    | nil => exact (List.append_nil s).symm
    | cons a l ih =>
      have hsplit : s ++ a :: l = (s ++ [a]) ++ l := by simp
      have ha : a ∉ s := by
        intro ha
        exact (List.nodup_append.1 hnodup).2.2 a ha a List.mem_cons_self rfl
      show addAll (add s a) l = _
      rw [hsplit] at hnodup ⊢
      rw [add, if_neg ha, ih (List.nodup_append.1 hnodup).1 hnodup]

end OrderedSet
