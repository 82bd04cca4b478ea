import Mathlib

/-!
# A queue made of promises

Whoever arrives waits for the promise of the one that arrived before it, and leaves a promise of its own, which is kept
once the one before it is kept and it has let go itself.  A promise that is kept and still the last one is forgotten: the
next to arrive waits for nobody.

Those that have their turn have all earlier ones gone (`Ordered.letGo_of_ready`), in whatever order promises are kept and
forgotten and wherever the ones that wait let go; and when all earlier ones are gone, keeping promises is all it takes to
have the turn (`Ordered.exists_ready`).
-/

namespace PromiseChain

structure Chain where
  arrived : Nat
  /-- Whose promise each one waits for. -/
  previous : Nat → Option Nat
  letGo : Nat → Bool
  /-- Whose promise is kept. -/
  settled : Nat → Bool
  /-- Whose promise the next one to arrive waits for. -/
  last : Option Nat

namespace Chain

def empty : Chain := ⟨0, fun _ => none, fun _ => false, fun _ => false, none⟩

def arrive (q : Chain) : Chain :=
  { q with arrived := q.arrived + 1, previous := Function.update q.previous q.arrived q.last, last := some q.arrived }

def release (q : Chain) (k : Nat) : Chain := { q with letGo := Function.update q.letGo k true }

/-- What it waits for is there. -/
def ready (q : Chain) (k : Nat) : Bool := (q.previous k).all q.settled

def settle (q : Chain) (k : Nat) : Chain :=
  if q.ready k && q.letGo k then { q with settled := Function.update q.settled k true } else q

def forget (q : Chain) (k : Nat) : Chain := if q.settled k && q.last == some k then { q with last := none } else q

end Chain

/-- Nobody is passed over. -/
structure Ordered (q : Chain) : Prop where
  inside : ∀ k, q.letGo k = true → k < q.arrived
  settled : ∀ k, q.settled k = true → ∀ j ≤ k, q.letGo j = true
  previous : ∀ k < q.arrived, ∀ j < k, q.letGo j = true ∨ ∃ p, q.previous k = some p ∧ j ≤ p
  before : ∀ k < q.arrived, ∀ p, q.previous k = some p → p < k
  last : ∀ j < q.arrived, q.letGo j = true ∨ ∃ p, q.last = some p ∧ j ≤ p
  arrived : ∀ p, q.last = some p → p < q.arrived

variable {q : Chain}

theorem Ordered.empty : Ordered Chain.empty where
  inside k h := by cases h
  settled k h := by cases h
  previous k h := absurd h (Nat.not_lt_zero k)
  before k h := absurd h (Nat.not_lt_zero k)
  last j h := absurd h (Nat.not_lt_zero j)
  arrived p h := by cases h

theorem Ordered.letGo_of_ready (h : Ordered q) {k : Nat} (hk : k < q.arrived) (hready : q.ready k = true) {j : Nat}
    (hj : j < k) : q.letGo j = true := by
  rcases h.previous k hk j hj with hgone | ⟨p, hp, hjp⟩
  · exact hgone
  · unfold Chain.ready at hready
    rw [hp, Option.all_some] at hready
    exact h.settled p hready j hjp

/-! ### What keeps the order -/

theorem Ordered.arrive (h : Ordered q) : Ordered q.arrive where
  inside k hk := Nat.lt_succ_of_lt (h.inside k hk)
  settled := h.settled
  previous k hk j hj := by
    unfold Chain.arrive at hk ⊢
    dsimp only at hk ⊢
    by_cases hnew : k = q.arrived
    · subst hnew
      rw [Function.update_self]
      exact h.last j hj
    · rw [Function.update_of_ne hnew]
      exact h.previous k (by omega) j hj
  before k hk p hp := by
    unfold Chain.arrive at hk hp
    dsimp only at hk hp
    by_cases hnew : k = q.arrived
    · subst hnew
      rw [Function.update_self] at hp
      exact h.arrived p hp
    · rw [Function.update_of_ne hnew] at hp
      exact h.before k (by omega) p hp
  last j hj := Or.inr ⟨q.arrived, rfl, Nat.lt_succ_iff.1 hj⟩
  arrived p hp := by
    cases hp
    exact Nat.lt_succ_self q.arrived

theorem letGo_release {k j : Nat} (h : q.letGo j = true) : (q.release k).letGo j = true := by
  unfold Chain.release
  dsimp only
  by_cases hjk : j = k
  · rw [hjk, Function.update_self]
  · rwa [Function.update_of_ne hjk]

theorem Ordered.release (h : Ordered q) {k : Nat} (hk : k < q.arrived) : Ordered (q.release k) where
  inside j hj := by
    unfold Chain.release at hj
    dsimp only at hj
    by_cases hjk : j = k
    · exact hjk ▸ hk
    · rw [Function.update_of_ne hjk] at hj
      exact h.inside j hj
  settled j hj i hi := letGo_release (h.settled j hj i hi)
  previous j hj i hi := (h.previous j hj i hi).imp_left letGo_release
  before := h.before
  last j hj := (h.last j hj).imp_left letGo_release
  arrived := h.arrived

theorem Ordered.settle (h : Ordered q) (k : Nat) : Ordered (q.settle k) := by
  unfold Chain.settle
  split
  · rename_i hk
    rw [Bool.and_eq_true] at hk
    refine ⟨h.inside, fun j hj i hi => ?_, h.previous, h.before, h.last, h.arrived⟩
    dsimp only at hj ⊢
    by_cases hjk : j = k
    · subst hjk
      rcases Nat.lt_or_eq_of_le hi with hi | rfl
      · exact h.letGo_of_ready (h.inside j hk.2) hk.1 hi
      · exact hk.2
    · rw [Function.update_of_ne hjk] at hj
      exact h.settled j hj i hi
  · exact h

theorem Ordered.forget (h : Ordered q) (k : Nat) : Ordered (q.forget k) := by
  unfold Chain.forget
  split
  · rename_i hk
    rw [Bool.and_eq_true, beq_iff_eq] at hk
    refine ⟨h.inside, h.settled, h.previous, h.before, fun j hj => Or.inl ?_, fun p hp => by cases hp⟩
    rcases h.last j hj with hgone | ⟨p, hp, hjp⟩
    · exact hgone
    · rw [hk.2, Option.some.injEq] at hp
      exact h.settled k hk.1 j (hp ▸ hjp)
  · exact h

/-! ### Keeping promises is enough -/

/-- Some promises are kept. -/
def Settles : Chain → Chain → Prop := Relation.ReflTransGen fun q q' => ∃ k, q' = q.settle k

theorem settle_same (q : Chain) (k : Nat) :
    (q.settle k).arrived = q.arrived ∧ (q.settle k).previous = q.previous ∧ (q.settle k).letGo = q.letGo := by
  unfold Chain.settle
  split <;> exact ⟨rfl, rfl, rfl⟩

theorem Settles.same {q' : Chain} (h : Settles q q') : q'.arrived = q.arrived ∧ q'.previous = q.previous ∧
    q'.letGo = q.letGo := by
  induction h with
  | refl => exact ⟨rfl, rfl, rfl⟩
  | tail _ hstep ih =>
    obtain ⟨k, rfl⟩ := hstep
    obtain ⟨harrived, hprevious, hletGo⟩ := settle_same _ k
    exact ⟨harrived.trans ih.1, hprevious.trans ih.2.1, hletGo.trans ih.2.2⟩

/-- When all earlier ones are gone, keeping promises gives the turn. -/
theorem Ordered.exists_ready (h : Ordered q) {k : Nat} (hk : k < q.arrived) (hgone : ∀ j < k, q.letGo j = true) :
    ∃ q', Settles q q' ∧ q'.ready k = true := by
  induction k using Nat.strong_induction_on with
  | _ k ih =>
    cases hp : q.previous k with
    | none => exact ⟨q, .refl, by unfold Chain.ready; rw [hp]; rfl⟩
    | some p =>
      have hlt := h.before k hk p hp
      obtain ⟨q', hsettles, hready⟩ := ih p hlt (hlt.trans hk) fun j hj => hgone j (hj.trans hlt)
      obtain ⟨-, hprevious, hletGo⟩ := hsettles.same
      have hsettled : (q'.settle p).settled p = true := by
        have hgone' : q'.letGo p = true := by
          rw [hletGo]
          exact hgone p hlt
        unfold Chain.settle
        rw [hready, hgone']
        exact Function.update_self ..
      refine ⟨q'.settle p, hsettles.tail ⟨p, rfl⟩, ?_⟩
      unfold Chain.ready
      rw [(settle_same q' p).2.1, hprevious, hp]
      exact hsettled

end PromiseChain
