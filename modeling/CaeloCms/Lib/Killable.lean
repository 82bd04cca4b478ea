import Mathlib

/-!
# Computations that can be killed

A computation over a state makes calls that succeed or fail, and can be killed before each of them.  The answers of its calls
are a list; it is killed where they end.  `Killable.Keeps` is an invariant, which holds where it is killed too;
`Killable.Ends` is about what it ends with.
-/

/-- From a state and the answers, what it ends with and the answers that are left, or `none` where it is killed. -/
def Killable (σ α : Type) : Type := σ → List Bool → Option (α × List Bool) × σ

namespace Killable

variable {σ α β : Type}

instance : Monad (Killable σ) where
  pure a := fun s answers => (some (a, answers), s)
  bind x f := fun s answers =>
    match x s answers with
    | (some (a, rest), s') => f a s' rest
    | (none, s') => (none, s')

def call (f : Bool → σ → σ) : Killable σ Bool := fun s answers =>
  match answers with
  | [] => (none, s)
  | a :: rest => (some (a, rest), f a s)

def ask : Killable σ Bool := call fun _ s => s

/-- A call whose failure ends the computation. -/
def insist : Killable σ Unit := fun s answers =>
  match answers with
  | true :: rest => (some ((), rest), s)
  | _ => (none, s)

/-- What the state says, and what becomes of it. -/
def read (f : σ → α) : Killable σ α := fun s answers => (some (f s, answers), s)

def modify (f : σ → σ) : Killable σ Unit := fun s answers => (some ((), answers), f s)

/-! ### Ends -/

/-- The computation ends with such a result, or is killed in such a state. -/
def Ends (Q : α → σ → Prop) (E : σ → Prop) (x : Killable σ α) (s : σ) : Prop :=
  ∀ answers, (∀ a rest s', x s answers = (some (a, rest), s') → Q a s') ∧ ∀ s', x s answers = (none, s') → E s'

variable {Q : α → σ → Prop} {E : σ → Prop} {s : σ}

theorem ends_pure {a : α} (h : Q a s) : Ends Q E (pure a : Killable σ α) s := by
  intro answers
  refine ⟨fun b rest s' heq => ?_, fun s' heq => ?_⟩
  · cases heq
    exact h
  · cases heq

theorem ends_bind {R : β → σ → Prop} {x : Killable σ α} {f : α → Killable σ β}
    (h : Ends (fun a => Ends R E (f a)) E x s) : Ends R E (x >>= f) s := by
  intro answers
  have hx := h answers
  have hbind : (x >>= f) s answers = match x s answers with
    | (some (a, rest), s') => f a s' rest
    | (none, s') => (none, s') := rfl
  rw [hbind]
  cases hr : x s answers with
  | mk r s₁ =>
    rw [hr] at hx
    cases r with
    | none =>
      refine ⟨fun b rest s' heq => (by cases heq), fun s' heq => ?_⟩
      cases heq
      exact hx.2 s₁ rfl
    | some r => exact hx.1 r.1 r.2 s₁ rfl r.2

theorem ends_mono {R : α → σ → Prop} {F : σ → Prop} {x : Killable σ α} (h : Ends Q E x s) (hQ : ∀ a s', Q a s' → R a s')
    (hE : ∀ s', E s' → F s') : Ends R F x s := by
  intro answers
  exact ⟨fun a rest s' heq => hQ a s' ((h answers).1 a rest s' heq), fun s' heq => hE s' ((h answers).2 s' heq)⟩

theorem ends_call {Q : Bool → σ → Prop} {f : Bool → σ → σ} (hkilled : E s) (h : ∀ a, Q a (f a s)) :
    Ends Q E (call f) s := by
  intro answers
  cases answers with
  | nil =>
    refine ⟨fun a rest s' heq => (by cases heq), fun s' heq => ?_⟩
    cases heq
    exact hkilled
  | cons b answers =>
    refine ⟨fun a rest s' heq => ?_, fun s' heq => (by cases heq)⟩
    cases heq
    exact h b

theorem ends_ask {Q : Bool → σ → Prop} (hkilled : E s) (h : ∀ a, Q a s) : Ends Q E ask s := ends_call hkilled h

theorem ends_insist {Q : Unit → σ → Prop} (hkilled : E s) (h : Q () s) : Ends Q E insist s := by
  intro answers
  rcases answers with _ | ⟨b, answers⟩
  · refine ⟨fun a rest s' heq => (by cases heq), fun s' heq => ?_⟩
    cases heq
    exact hkilled
  · cases b with
    | false =>
      refine ⟨fun a rest s' heq => (by cases heq), fun s' heq => ?_⟩
      cases heq
      exact hkilled
    | true =>
      refine ⟨fun a rest s' heq => ?_, fun s' heq => (by cases heq)⟩
      cases heq
      exact h

theorem ends_read {f : σ → α} (h : Q (f s) s) : Ends Q E (read f) s := by
  intro answers
  refine ⟨fun a rest s' heq => ?_, fun s' heq => (by cases heq)⟩
  cases heq
  exact h

theorem ends_modify {Q : Unit → σ → Prop} {f : σ → σ} (h : Q () (f s)) : Ends Q E (modify f) s := by
  intro answers
  refine ⟨fun a rest s' heq => ?_, fun s' heq => (by cases heq)⟩
  cases heq
  exact h

theorem ends_ite {c : Prop} [Decidable c] {x y : Killable σ α} (hx : c → Ends Q E x s) (hy : ¬c → Ends Q E y s) :
    Ends Q E (if c then x else y) s := by
  by_cases h : c
  · rw [if_pos h]
    exact hx h
  · rw [if_neg h]
    exact hy h

/-! ### Invariants -/

/-- The invariant holds after the computation, and where it is killed. -/
def Keeps (I : σ → Prop) (x : Killable σ α) : Prop := ∀ s, I s → Ends (fun _ => I) I x s

variable {I : σ → Prop}

theorem keeps_pure (a : α) : Keeps I (pure a : Killable σ α) := fun _ h => ends_pure h

theorem keeps_bind {x : Killable σ α} {f : α → Killable σ β} (hx : Keeps I x) (hf : ∀ a, Keeps I (f a)) :
    Keeps I (x >>= f) := by
  intro s h
  exact ends_bind (ends_mono (hx s h) (fun a s' hs' => hf a s' hs') fun _ hs' => hs')

theorem keeps_call {f : Bool → σ → σ} (hf : ∀ a s, I s → I (f a s)) : Keeps I (call f) :=
  fun s h => ends_call h fun a => hf a s h

theorem keeps_ask : Keeps I (ask : Killable σ Bool) := keeps_call fun _ _ h => h

theorem keeps_insist : Keeps I (insist : Killable σ Unit) := fun _ h => ends_insist h h

theorem keeps_read (f : σ → α) : Keeps I (read f) := fun _ h => ends_read h

theorem keeps_ite {c : Prop} [Decidable c] {x y : Killable σ α} (hx : Keeps I x) (hy : Keeps I y) :
    Keeps I (if c then x else y) := fun s h => ends_ite (fun _ => hx s h) fun _ => hy s h

end Killable
