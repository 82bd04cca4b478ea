import Mathlib

/-!
# Least closed sets and the loop that computes them

A rule `R : Set α → Set α` names, for a set, what it pulls in.  A set is *closed* when it contains the base and what
the rule pulls in from it; for a monotone rule there is a least such set (`leastClosed_isLeast`).  The usual way to
compute it is a loop that adds elements until a round adds none: `untilStable` is that loop, and the three facts
about it (a step keeps the invariant, a changing round lowers a measure, the last round changed nothing) are all a
user needs to show that the loop ends with the least closed set.

Two rules, one pulling in more than the other: `isLeast_iff_of_le` tells when the least set of the smaller rule is
also the least set of the larger one.
-/

namespace Fixpoint

variable {α σ : Type*}

/-! ### Closed sets -/

/-- `S` contains the base and everything the rule pulls in from it. -/
def Closed (base : Set α) (rule : Set α → Set α) (S : Set α) : Prop := base ⊆ S ∧ rule S ⊆ S

def leastClosed (base : Set α) (rule : Set α → Set α) : Set α := ⋂₀ {S | Closed base rule S}

theorem leastClosed_subset {base : Set α} {rule : Set α → Set α} {T : Set α} (hT : Closed base rule T) :
    leastClosed base rule ⊆ T :=
  Set.sInter_subset_of_mem hT

theorem leastClosed_isLeast (base : Set α) {rule : Set α → Set α} (hmono : Monotone rule) :
    IsLeast {S | Closed base rule S} (leastClosed base rule) := by
  refine ⟨⟨?_, ?_⟩, fun T hT => leastClosed_subset hT⟩
  · exact Set.subset_sInter fun T hT => hT.1
  · refine Set.subset_sInter fun T hT => ?_
    exact (hmono (leastClosed_subset hT)).trans hT.2

theorem isLeast_of_closed {base : Set α} {rule : Set α → Set α} {S : Set α} (hS : Closed base rule S)
    (hle : ∀ T, Closed base rule T → S ⊆ T) : IsLeast {S | Closed base rule S} S :=
  ⟨hS, fun T hT => hle T hT⟩

theorem IsLeast.eq_leastClosed {base : Set α} {rule : Set α → Set α} {S : Set α} (hmono : Monotone rule)
    (h : IsLeast {S | Closed base rule S} S) : S = leastClosed base rule :=
  h.unique (leastClosed_isLeast base hmono)

/-- A rule that pulls in from each element on its own: the least sets of two bases make up the one of both. -/
theorem leastClosed_union {A B : Set α} {rule : Set α → Set α} (hmono : Monotone rule)
    (hunion : ∀ S T, rule (S ∪ T) ⊆ rule S ∪ rule T) :
    leastClosed (A ∪ B) rule = leastClosed A rule ∪ leastClosed B rule := by
  have hA := (leastClosed_isLeast A hmono).1
  have hB := (leastClosed_isLeast B hmono).1
  refine Set.Subset.antisymm (leastClosed_subset ⟨?_, ?_⟩) (Set.union_subset ?_ ?_)
  · exact Set.union_subset_union hA.1 hB.1
  · exact (hunion _ _).trans (Set.union_subset_union hA.2 hB.2)
  · exact Set.subset_sInter fun T hT => leastClosed_subset ⟨Set.subset_union_left.trans hT.1, hT.2⟩
  · exact Set.subset_sInter fun T hT => leastClosed_subset ⟨Set.subset_union_right.trans hT.1, hT.2⟩

theorem isLeast_iff_of_le {base : Set α} {R R' : Set α → Set α} (hle : ∀ S, R S ⊆ R' S) {S : Set α}
    (h : IsLeast {S | Closed base R S} S) : IsLeast {S | Closed base R' S} S ↔ R' S ⊆ S := by
  constructor
  · intro h'
    exact h'.1.2
  · intro hR'
    refine isLeast_of_closed ⟨h.1.1, hR'⟩ fun T hT => h.2 ⟨hT.1, (hle T).trans hT.2⟩

/-! ### The loop -/

/-- `while (changed) { … }`: run `round` until it reports that it changed nothing, for at most `n` rounds. -/
def untilStable (round : σ → σ × Bool) : Nat → σ → Option σ
  | 0, _ => none
  | n + 1, s => if (round s).2 then untilStable round n (round s).1 else some (round s).1

variable {round : σ → σ × Bool} {Inv : σ → Prop}

/-- The result of the loop is the result of a round that changed nothing, started in a state with the invariant. -/
theorem untilStable_last (hstep : ∀ s, Inv s → Inv (round s).1) {n : Nat} {s t : σ} (hs : Inv s)
    (h : untilStable round n s = some t) : ∃ r, Inv r ∧ (round r).2 = false ∧ (round r).1 = t := by
  induction n generalizing s with
  | zero => simp [untilStable] at h
  | succ n ih =>
    unfold untilStable at h
    split at h
    · exact ih (hstep s hs) h
    · rename_i hc
      exact ⟨s, hs, by simpa using hc, by simpa using h⟩

theorem untilStable_isSome (hstep : ∀ s, Inv s → Inv (round s).1) (μ : σ → Nat)
    (hμ : ∀ s, Inv s → (round s).2 = true → μ (round s).1 < μ s) {n : Nat} {s : σ} (hs : Inv s) (hn : μ s < n) :
    ∃ t, untilStable round n s = some t := by
  induction n generalizing s with
  | zero => omega
  | succ n ih =>
    unfold untilStable
    split
    · rename_i hc
      have := hμ s hs hc
      exact ih (hstep s hs) (by omega)
    · exact ⟨_, rfl⟩

end Fixpoint
