import Mathlib

/-!
# One row under row locks

A row that several transactions read and write at READ COMMITTED.  At most one transaction holds the row's lock; it
sees the version it will commit, everybody else sees the committed one.  `selectSkipLocked` is `SELECT … FOR UPDATE
SKIP LOCKED`, `update` is `UPDATE … WHERE` (and, with the identity as the new value, `SELECT … WHERE … FOR UPDATE`):
a statement whose condition holds waits for a transaction that locked the row, and is then decided on the version of
that moment.

`Row.Forall P` says that every version there is has `P`.  An operation keeps it when the version it writes has `P`.
-/

namespace LockedRow

structure Row (τ ρ : Type*) where
  committed : ρ
  /-- The transaction that locked the row, with the version it sees. -/
  lock : Option (τ × ρ)
deriving DecidableEq

variable {τ ρ : Type*} [DecidableEq τ]

def Row.visible (r : Row τ ρ) (tx : τ) : ρ :=
  match r.lock with
  | some (owner, v) => if owner = tx then v else r.committed
  | none => r.committed

def Row.lockedByOther (r : Row τ ρ) (tx : τ) : Bool :=
  match r.lock with
  | some (owner, _) => decide (owner ≠ tx)
  | none => false

/-- `tx` locks the row and sees `v` from now on. -/
def Row.write (r : Row τ ρ) (tx : τ) (v : ρ) : Row τ ρ := { r with lock := some (tx, v) }

/-- `none`: another transaction locked the row, which is skipped. -/
def Row.selectSkipLocked (r : Row τ ρ) (tx : τ) : Option (Row τ ρ) :=
  if r.lockedByOther tx then none else some (r.write tx (r.visible tx))

/-- `none`: the statement waits.  Otherwise the row after it, and the version written when the row matched. -/
def Row.update (r : Row τ ρ) (tx : τ) (p : ρ → Bool) (f : ρ → ρ) : Option (Row τ ρ × Option ρ) :=
  if p (r.visible tx) then
    if r.lockedByOther tx then none else some (r.write tx (f (r.visible tx)), some (f (r.visible tx)))
  else some (r, none)

def Row.commit (r : Row τ ρ) (tx : τ) : Row τ ρ :=
  match r.lock with
  | some (owner, v) => if owner = tx then ⟨v, none⟩ else r
  | none => r

def Row.abort (r : Row τ ρ) (tx : τ) : Row τ ρ :=
  match r.lock with
  | some (owner, _) => if owner = tx then { r with lock := none } else r
  | none => r

/-- Every version of the row, committed or not, has `P`. -/
def Row.Forall (P : ρ → Prop) (r : Row τ ρ) : Prop := P r.committed ∧ ∀ tx v, r.lock = some (tx, v) → P v

/-! ### What a transaction sees -/

theorem visible_of_lock {r : Row τ ρ} {tx : τ} {v : ρ} (h : r.lock = some (tx, v)) : r.visible tx = v := by
  simp [Row.visible, h]

@[simp] theorem visible_write (r : Row τ ρ) (tx : τ) (v : ρ) : (r.write tx v).visible tx = v := by
  simp [Row.visible, Row.write]

theorem not_lockedByOther_of_lock {r : Row τ ρ} {tx : τ} {v : ρ} (h : r.lock = some (tx, v)) :
    r.lockedByOther tx = false := by
  simp [Row.lockedByOther, h]

theorem lockedByOther_of_ne {r : Row τ ρ} {tx tx' : τ} {v : ρ} (h : r.lock = some (tx, v)) (hne : tx' ≠ tx) :
    r.lockedByOther tx' = true := by
  simp [Row.lockedByOther, h, hne.symm]

theorem commit_of_ne {r : Row τ ρ} {tx tx' : τ} {v : ρ} (h : r.lock = some (tx, v)) (hne : tx' ≠ tx) :
    r.commit tx' = r := by
  simp [Row.commit, h, hne.symm]

theorem abort_of_ne {r : Row τ ρ} {tx tx' : τ} {v : ρ} (h : r.lock = some (tx, v)) (hne : tx' ≠ tx) :
    r.abort tx' = r := by
  simp [Row.abort, h, hne.symm]

theorem visible_of_lock_none {r : Row τ ρ} (h : r.lock = none) (tx : τ) : r.visible tx = r.committed := by
  simp [Row.visible, h]

theorem visible_of_lock_ne {r : Row τ ρ} {tx tx' : τ} {v : ρ} (h : r.lock = some (tx, v)) (hne : tx' ≠ tx) :
    r.visible tx' = r.committed := by
  simp [Row.visible, h, hne.symm]

theorem visible_of_not_lockedByOther {r : Row τ ρ} {tx tx' : τ} (h : r.lockedByOther tx = false) (hne : tx' ≠ tx) :
    r.visible tx' = r.committed := by
  cases hl : r.lock with
  | none => exact visible_of_lock_none hl tx'
  | some p =>
    obtain ⟨owner, v⟩ := p
    have howner : owner = tx := by simpa [Row.lockedByOther, hl] using h
    exact visible_of_lock_ne hl (howner ▸ hne)

theorem commit_committed (r : Row τ ρ) (tx : τ) : (r.commit tx).committed = r.visible tx := by
  unfold Row.commit Row.visible
  cases r.lock with
  | none => rfl
  | some p => dsimp only; split <;> rfl

theorem commit_of_lock_none {r : Row τ ρ} (h : r.lock = none) (tx : τ) : r.commit tx = r := by
  simp [Row.commit, h]

theorem abort_of_lock_none {r : Row τ ρ} (h : r.lock = none) (tx : τ) : r.abort tx = r := by
  simp [Row.abort, h]

@[simp] theorem abort_committed (r : Row τ ρ) (tx : τ) : (r.abort tx).committed = r.committed := by
  unfold Row.abort
  cases r.lock with
  | none => rfl
  | some p => dsimp only; split <;> rfl

/-- The end of a transaction takes its own lock away and no other one. -/
theorem lock_commit_iff {r : Row τ ρ} {tx tx' : τ} {v : ρ} :
    (r.commit tx).lock = some (tx', v) ↔ tx' ≠ tx ∧ r.lock = some (tx', v) := by
  cases hl : r.lock with
  | none => simp [Row.commit, hl]
  | some p =>
    obtain ⟨owner, w⟩ := p
    by_cases howner : owner = tx
    · subst howner
      simpa [Row.commit, hl] using fun hne heq _ => hne heq.symm
    · rw [commit_of_ne hl (Ne.symm howner), hl]
      constructor
      · intro h
        have heq : owner = tx' := congrArg Prod.fst (Option.some.inj h)
        exact ⟨heq ▸ howner, h⟩
      · exact fun h => h.2

theorem lock_abort_iff {r : Row τ ρ} {tx tx' : τ} {v : ρ} :
    (r.abort tx).lock = some (tx', v) ↔ tx' ≠ tx ∧ r.lock = some (tx', v) := by
  rw [← lock_commit_iff]
  cases hl : r.lock with
  | none => simp [Row.commit, Row.abort, hl]
  | some p =>
    obtain ⟨owner, w⟩ := p
    by_cases howner : owner = tx
    · simp [Row.commit, Row.abort, hl, howner]
    · rw [commit_of_ne hl (Ne.symm howner), abort_of_ne hl (Ne.symm howner)]

theorem visible_abort_of_ne {tx tx' : τ} (r : Row τ ρ) (hne : tx' ≠ tx) :
    (r.abort tx).visible tx' = r.visible tx' := by
  cases hl : r.lock with
  | none => rw [abort_of_lock_none hl]
  | some p =>
    obtain ⟨owner, v⟩ := p
    by_cases howner : owner = tx
    · subst howner
      rw [visible_of_lock_ne hl hne]
      simp [Row.abort, Row.visible, hl]
    · rw [abort_of_ne hl (Ne.symm howner)]

/-- A statement that ran either matched nothing and changed nothing, or wrote the row nobody else had locked. -/
theorem update_cases {r r' : Row τ ρ} {tx : τ} {p : ρ → Bool} {f : ρ → ρ} {res : Option ρ}
    (h : r.update tx p f = some (r', res)) :
    (p (r.visible tx) = false ∧ r' = r ∧ res = none) ∨
    (p (r.visible tx) = true ∧ r.lockedByOther tx = false ∧ r' = r.write tx (f (r.visible tx)) ∧
      res = some (f (r.visible tx))) := by
  unfold Row.update at h
  by_cases hp : p (r.visible tx) = true
  · rw [if_pos hp] at h
    by_cases hl : r.lockedByOther tx = true
    · rw [if_pos hl] at h
      cases h
    · rw [if_neg hl, Option.some.injEq, Prod.mk.injEq] at h
      exact Or.inr ⟨hp, by simpa using hl, h.1.symm, h.2.symm⟩
  · rw [if_neg hp, Option.some.injEq, Prod.mk.injEq] at h
    exact Or.inl ⟨by simpa using hp, h.1.symm, h.2.symm⟩

theorem update_visible {r : Row τ ρ} {tx : τ} {p : ρ → Bool} {f : ρ → ρ} {res : Row τ ρ × Option ρ}
    (h : r.update tx p f = some res) :
    res.1.committed = r.committed ∧
      (res.1.visible tx = r.visible tx ∨ (p (r.visible tx) = true ∧ res.1.visible tx = f (r.visible tx))) := by
  rcases update_cases h with ⟨-, hr, -⟩ | ⟨hp, -, hr, -⟩
  · rw [hr]
    exact ⟨rfl, Or.inl rfl⟩
  · rw [hr]
    exact ⟨rfl, Or.inr ⟨hp, visible_write r tx _⟩⟩

theorem selectSkipLocked_cases (r : Row τ ρ) (tx : τ) :
    (r.lockedByOther tx = true ∧ r.selectSkipLocked tx = none) ∨
    (r.lockedByOther tx = false ∧ r.selectSkipLocked tx = some (r.write tx (r.visible tx))) := by
  unfold Row.selectSkipLocked
  cases hl : r.lockedByOther tx
  · exact Or.inr ⟨rfl, by simp⟩
  · exact Or.inl ⟨rfl, by simp⟩

/-! ### Every version -/

section Forall

variable {P Q : ρ → Prop} {r : Row τ ρ}

omit [DecidableEq τ] in
theorem Forall.mono (h : r.Forall P) (hPQ : ∀ v, P v → Q v) : r.Forall Q :=
  ⟨hPQ _ h.1, fun tx v hl => hPQ v (h.2 tx v hl)⟩

omit [DecidableEq τ] in
theorem Forall.write (h : r.Forall P) (tx : τ) {v : ρ} (hv : P v) : (r.write tx v).Forall P := by
  refine ⟨h.1, fun tx' v' hl => ?_⟩
  have hvv : v = v' := congrArg Prod.snd (Option.some.inj hl)
  exact hvv ▸ hv

theorem Forall.visible (h : r.Forall P) (tx : τ) : P (r.visible tx) := by
  cases hl : r.lock with
  | none =>
    have : r.visible tx = r.committed := by simp [Row.visible, hl]
    rw [this]
    exact h.1
  | some p =>
    obtain ⟨owner, v⟩ := p
    by_cases ho : owner = tx
    · subst ho
      rw [visible_of_lock hl]
      exact h.2 owner v hl
    · have : r.visible tx = r.committed := by simp [Row.visible, hl, ho]
      rw [this]
      exact h.1

theorem Forall.commit (h : r.Forall P) (tx : τ) : (r.commit tx).Forall P := by
  unfold Row.commit
  cases hl : r.lock with
  | none => exact h
  | some p =>
    obtain ⟨owner, v⟩ := p
    by_cases ho : owner = tx
    · simp only [ho, ↓reduceIte]
      exact ⟨h.2 owner v hl, fun _ _ hl' => by cases hl'⟩
    · simp only [ho, ↓reduceIte]
      exact h

theorem Forall.abort (h : r.Forall P) (tx : τ) : (r.abort tx).Forall P := by
  unfold Row.abort
  cases hl : r.lock with
  | none => exact h
  | some p =>
    obtain ⟨owner, v⟩ := p
    by_cases ho : owner = tx
    · simp only [ho, ↓reduceIte]
      exact ⟨h.1, fun _ _ hl' => by cases hl'⟩
    · simp only [ho, ↓reduceIte]
      exact h

end Forall

end LockedRow
