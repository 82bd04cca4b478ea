import Mathlib

/-!
# Savepoints

An open transaction of a database with named savepoints.  `RELEASE n` forgets the savepoint `n` and every one established
after it; `ROLLBACK TO n` goes back to the state at `n`, forgets the later ones and keeps `n` itself.  After a statement that
failed only a rollback is accepted.

A savepoint that was rolled back to stays on the stack, so what a caller regards as its open savepoints are the names of a
sublist of the stack.
-/

structure Savepoints (ν σ : Type) where
  state : σ
  /-- Newest first. -/
  saved : List (ν × σ)
  aborted : Bool

namespace Savepoints

variable {ν σ : Type}

/-- `BEGIN` -/
def start (state : σ) : Savepoints ν σ := ⟨state, [], false⟩

/-- A statement, and whether it succeeded. -/
def exec (c : Savepoints ν σ) (f : σ → σ) (ok : Bool) : Savepoints ν σ × Bool :=
  if c.aborted then (c, false)
  else if ok then ({ c with state := f c.state }, true)
  else ({ c with aborted := true }, false)

def savepoint (c : Savepoints ν σ) (n : ν) : Savepoints ν σ × Bool :=
  if c.aborted then (c, false) else ({ c with saved := (n, c.state) :: c.saved }, true)

def names (c : Savepoints ν σ) : List ν := c.saved.map Prod.fst

variable {c : Savepoints ν σ} {f : σ → σ} {n : ν} {ok : Bool}

theorem exec_of_ok (h : (c.exec f ok).2 = true) :
    c.aborted = false ∧ (c.exec f ok).1 = { c with state := f c.state } := by
  unfold exec at h ⊢
  split at h
  · cases h
  · rename_i habort
    split at h
    · rename_i hok
      exact ⟨by simpa using habort, by simp [habort, hok]⟩
    · cases h

theorem exec_of_fail (h : (c.exec f ok).2 = false) : (c.exec f ok).1 = { c with aborted := true } := by
  unfold exec at h ⊢
  split at h
  · rename_i habort
    rw [if_pos habort, ← habort]
  · rename_i habort
    split at h
    · cases h
    · rename_i hok
      rw [if_neg habort, if_neg hok]

theorem savepoint_of_ok (h : (c.savepoint n).2 = true) :
    c.aborted = false ∧ (c.savepoint n).1 = { c with saved := (n, c.state) :: c.saved } := by
  unfold savepoint at h ⊢
  split at h
  · cases h
  · rename_i habort
    exact ⟨by simpa using habort, by simp [habort]⟩

variable [DecidableEq ν]

/-- The stack from the savepoint `n` on. -/
def upTo (c : Savepoints ν σ) (n : ν) : List (ν × σ) := c.saved.dropWhile fun p => p.1 ≠ n

def release (c : Savepoints ν σ) (n : ν) : Savepoints ν σ × Bool :=
  match c.aborted, c.upTo n with
  | false, _ :: rest => ({ c with saved := rest }, true)
  | _, _ => ({ c with aborted := true }, false)

def rollbackTo (c : Savepoints ν σ) (n : ν) : Savepoints ν σ × Bool :=
  match c.upTo n with
  | p :: rest => (⟨p.2, p :: rest, false⟩, true)
  | [] => ({ c with aborted := true }, false)

variable {rest : List ν}

/-- The open savepoint established last is found, and the older ones lie below it. -/
theorem upTo_of_sublist {saved : List (ν × σ)} (h : (n :: rest).Sublist (saved.map Prod.fst))
    (hnd : (saved.map Prod.fst).Nodup) :
    ∃ st tail, saved.dropWhile (fun p => p.1 ≠ n) = (n, st) :: tail ∧ rest.Sublist (tail.map Prod.fst) ∧
      ((n, st) :: tail).Sublist saved := by
  induction saved with
  | nil => cases h
  | cons p saved ih =>
    by_cases hp : p.1 = n
    · subst hp
      refine ⟨p.2, saved, by simp, ?_, List.Sublist.refl _⟩
      exact List.Sublist.of_cons_cons h
    · have hrest : (n :: rest).Sublist (saved.map Prod.fst) := by
        rcases List.sublist_cons_iff.1 h with h' | ⟨r, hr, _⟩
        · exact h'
        · exact absurd (List.cons.inj hr).1.symm hp
      obtain ⟨st, tail, heq, hsub, hsaved⟩ := ih hrest (List.nodup_cons.1 hnd).2
      refine ⟨st, tail, ?_, hsub, hsaved.trans (List.sublist_cons_self _ _)⟩
      simpa [hp] using heq

theorem release_of_open (h : (n :: rest).Sublist c.names) (hnd : c.names.Nodup) (habort : c.aborted = false) :
    ∃ saved, c.release n = ({ c with saved := saved }, true) ∧ rest.Sublist (saved.map Prod.fst) ∧
      saved.Sublist c.saved := by
  obtain ⟨st, tail, heq, hsub, hsaved⟩ := upTo_of_sublist h hnd
  refine ⟨tail, ?_, hsub, (List.sublist_cons_self _ _).trans hsaved⟩
  unfold release
  rw [habort, show c.upTo n = (n, st) :: tail from heq]

theorem release_of_aborted (habort : c.aborted = true) : c.release n = ({ c with aborted := true }, false) := by
  unfold release
  rw [habort]

theorem rollbackTo_of_open (h : (n :: rest).Sublist c.names) (hnd : c.names.Nodup) :
    ∃ st saved, (n, st) ∈ c.saved ∧ c.rollbackTo n = (⟨st, saved, false⟩, true) ∧ rest.Sublist (saved.map Prod.fst) ∧
      saved.Sublist c.saved := by
  obtain ⟨st, tail, heq, hsub, hsaved⟩ := upTo_of_sublist h hnd
  refine ⟨st, (n, st) :: tail, hsaved.subset (List.mem_cons_self ..), ?_, ?_, hsaved⟩
  · unfold rollbackTo
    rw [show c.upTo n = (n, st) :: tail from heq]
  · exact hsub.trans (List.sublist_cons_self _ _)

end Savepoints
