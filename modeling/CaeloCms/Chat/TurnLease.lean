import Mathlib

/-!
# The lease of a chat

`ops/chat/turn-leases.ts`, on the row of one chat in `chat_turn_leases`.  Every operation takes effect at one time of the
database clock, which runs in microseconds.
-/

namespace CaeloCms.Chat

/-- An admin process. -/
abbrev Instance := Nat

/-- A turn of the chat, by the process it runs in and its number there.  It stands for the random `holderId` as well. -/
@[ext]
structure TurnId where
  host : Instance
  ticket : Nat
deriving DecidableEq, Repr

/-- A row of `chat_turn_leases`. -/
structure TurnLease where
  holderId : TurnId
  acquiredAt : Nat
  renewedAt : Nat
  expiresAt : Nat
deriving DecidableEq, Repr

inductive Answer
  | acquired (tookOverExpiredHolderId : Option TurnId)
  | refused (heldSince : Nat)
  | renewed (held : Bool)
  | released (released : Bool)
deriving DecidableEq, Repr

inductive LeaseOp
  | acquire
  | renew
  | release
deriving DecidableEq, Repr

/-- `chat.acquire_turn_lease` -/
def acquireTurnLease (now : Nat) (holderId : TurnId) (ttlMs : Nat) (existing : Option TurnLease) :
    Option TurnLease × Answer :=
  match existing with
  | none => (some ⟨holderId, now, now, now + 1000 * ttlMs⟩, .acquired none)
  | some l =>
    if now < l.expiresAt ∧ l.holderId ≠ holderId then (some l, .refused l.acquiredAt)
    else
      let acquiredAt := if l.holderId = holderId then l.acquiredAt else now
      let tookOver := if l.expiresAt ≤ now ∧ l.holderId ≠ holderId then some l.holderId else none
      (some ⟨holderId, acquiredAt, now, now + 1000 * ttlMs⟩, .acquired tookOver)

/-- `chat.renew_turn_lease` -/
def renewTurnLease (now : Nat) (holderId : TurnId) (ttlMs : Nat) (existing : Option TurnLease) :
    Option TurnLease × Answer :=
  match existing with
  | none => (none, .renewed false)
  | some l =>
    if l.holderId = holderId then (some { l with renewedAt := now, expiresAt := now + 1000 * ttlMs }, .renewed true)
    else (some l, .renewed false)

/-- `chat.release_turn_lease` -/
def releaseTurnLease (holderId : TurnId) (existing : Option TurnLease) : Option TurnLease × Answer :=
  match existing with
  | none => (none, .released false)
  | some l => if l.holderId = holderId then (none, .released true) else (some l, .released false)

def runLeaseOp (op : LeaseOp) (now : Nat) (holderId : TurnId) (ttlMs : Nat) (existing : Option TurnLease) :
    Option TurnLease × Answer :=
  match op with
  | .acquire => acquireTurnLease now holderId ttlMs existing
  | .renew => renewTurnLease now holderId ttlMs existing
  | .release => releaseTurnLease holderId existing

/-! ### What an operation does to the lease of a turn -/

def LeasedUntil (row : Option TurnLease) (t : TurnId) (time : Nat) : Prop :=
  ∃ l, row = some l ∧ l.holderId = t ∧ time ≤ l.expiresAt

theorem LeasedUntil.unique {row : Option TurnLease} {t t' : TurnId} {time time' : Nat} (h : LeasedUntil row t time)
    (h' : LeasedUntil row t' time') : t = t' := by
  obtain ⟨l, hl, rfl, -⟩ := h
  obtain ⟨l', hl', rfl, -⟩ := h'
  rw [hl, Option.some.injEq] at hl'
  rw [hl']

theorem LeasedUntil.mono {row : Option TurnLease} {t : TurnId} {time time' : Nat} (h : LeasedUntil row t time)
    (hle : time' ≤ time) : LeasedUntil row t time' := by
  obtain ⟨l, hl, hholder, htime⟩ := h
  exact ⟨l, hl, hholder, hle.trans htime⟩

def LeaseBounded (ttlMs : TurnId → Nat) (now : Nat) (row : Option TurnLease) : Prop :=
  ∀ l, row = some l → l.expiresAt ≤ now + 1000 * ttlMs l.holderId

section Run

variable {ttlMs : TurnId → Nat} {now : Nat} {row : Option TurnLease} (op : LeaseOp) (holder : TurnId)

theorem LeaseBounded.run (h : LeaseBounded ttlMs now row) :
    LeaseBounded ttlMs now (runLeaseOp op now holder (ttlMs holder) row).1 := by
  intro l hl
  cases row with
  | none =>
    cases op with
    | acquire =>
      cases hl
      exact le_rfl
    | renew => cases hl
    | release => cases hl
  | some old =>
    have hold := h old rfl
    cases op with
    | acquire =>
      unfold runLeaseOp acquireTurnLease at hl
      dsimp only at hl
      split at hl
      · cases hl
        exact hold
      · cases hl
        exact le_rfl
    | renew =>
      unfold runLeaseOp renewTurnLease at hl
      dsimp only at hl
      split at hl
      · rename_i hown
        cases hl
        dsimp only
        rw [hown]
      · cases hl
        exact hold
    | release =>
      unfold runLeaseOp releaseTurnLease at hl
      dsimp only at hl
      split at hl
      · cases hl
      · cases hl
        exact hold

/-- A lease stays its holder's, unless it has lapsed or the holder gives it back. -/
theorem LeasedUntil.run (hbound : LeaseBounded ttlMs now row) {t : TurnId} {time : Nat} (h : LeasedUntil row t time) :
    LeasedUntil (runLeaseOp op now holder (ttlMs holder) row).1 t time ∨ time ≤ now ∨ op = .release ∧ holder = t := by
  obtain ⟨l, rfl, rfl, htime⟩ := h
  have hle := hbound l rfl
  cases op with
  | acquire =>
    unfold runLeaseOp acquireTurnLease
    dsimp only
    by_cases hforeign : now < l.expiresAt ∧ l.holderId ≠ holder
    · rw [if_pos hforeign]
      exact Or.inl ⟨l, rfl, rfl, htime⟩
    · rw [if_neg hforeign]
      by_cases hown : l.holderId = holder
      · refine Or.inl ⟨_, rfl, hown.symm, ?_⟩
        rw [hown] at hle
        exact htime.trans hle
      · exact Or.inr (Or.inl (htime.trans (not_lt.1 fun hlt => hforeign ⟨hlt, hown⟩)))
  | renew =>
    unfold runLeaseOp renewTurnLease
    dsimp only
    by_cases hown : l.holderId = holder
    · rw [if_pos hown]
      refine Or.inl ⟨_, rfl, rfl, ?_⟩
      rw [hown] at hle
      exact htime.trans hle
    · rw [if_neg hown]
      exact Or.inl ⟨l, rfl, rfl, htime⟩
  | release =>
    unfold runLeaseOp releaseTurnLease
    dsimp only
    by_cases hown : l.holderId = holder
    · exact Or.inr (Or.inr ⟨rfl, hown.symm⟩)
    · rw [if_neg hown]
      exact Or.inl ⟨l, rfl, rfl, htime⟩

/-- Whoever is told that it holds the chat has the lease for its whole lifetime. -/
theorem leasedUntil_of_answer {answer : Answer} (h : (runLeaseOp op now holder (ttlMs holder) row).2 = answer)
    (hheld : (∃ tookOver, answer = .acquired tookOver) ∨ answer = .renewed true) :
    LeasedUntil (runLeaseOp op now holder (ttlMs holder) row).1 holder (now + 1000 * ttlMs holder) := by
  subst h
  cases row with
  | none =>
    cases op with
    | acquire => exact ⟨_, rfl, rfl, le_rfl⟩
    | renew => simp [runLeaseOp, renewTurnLease] at hheld
    | release => simp [runLeaseOp, releaseTurnLease] at hheld
  | some l =>
    cases op with
    | acquire =>
      unfold runLeaseOp acquireTurnLease at hheld ⊢
      dsimp only at hheld ⊢
      split at hheld
      · simp at hheld
      · rename_i hforeign
        rw [if_neg hforeign]
        exact ⟨_, rfl, rfl, le_rfl⟩
    | renew =>
      unfold runLeaseOp renewTurnLease at hheld ⊢
      dsimp only at hheld ⊢
      split at hheld
      · rename_i hown
        rw [if_pos hown]
        exact ⟨_, rfl, hown, le_rfl⟩
      · simp at hheld
    | release =>
      unfold runLeaseOp releaseTurnLease at hheld
      dsimp only at hheld
      split at hheld <;> simp at hheld

end Run

end CaeloCms.Chat
