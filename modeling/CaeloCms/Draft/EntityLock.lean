import CaeloCms.Lib.LockedRow

/-!
# The entity lock of the shared draft

One entity, the ops of any number of chats that read or write it, each op one READ COMMITTED transaction
(`locks.ts`, `emit.ts`).  `checkAndAcquireEntityLock` is a sequence of statements; the lock row is held from its
`SELECT … FOR UPDATE` to the end of the transaction.

Times are those of the database clock.  `now()` is a transaction's start, a snapshot header carries the clock time of
its write, a change a takeover moves a time just before `now()`.  The sibling lease and the tool-call version are not
modelled: a write may be refused over either whenever the code asks for it.
-/

namespace CaeloCms.EntityLock

open LockedRow

inductive Branch
  | draft
  | isolated (id : Nat)
deriving DecidableEq, Repr

/-- A snapshot header of the entity: the chat that owns it, the branch it is on, its `created_at`. -/
structure Change where
  header : Nat
  owner : Option Nat
  branch : Branch
  createdAt : Int
deriving DecidableEq, Repr

/-- A row of `chat_entity_locks`. -/
structure LockRow where
  session : Nat
  branch : Branch
deriving DecidableEq, Repr

structure ReadCall where
  began : Int
  view : List Change
deriving DecidableEq, Repr

/-- What an op does: it reads the entity, it records a read (`chat.observe_draft_reads`), or it writes. -/
inductive OpKind
  | read (began : Int)
  | observe (call : ReadCall)
  | write
deriving DecidableEq, Repr

/-- Why `checkAndAcquireEntityLock` refuses a write. -/
inductive Refusal
  | siblingLease
  | concurrentCall
  | staleDraft (newest : Option Change)
deriving DecidableEq, Repr

/-- Where the call of `checkAndAcquireEntityLock` stands. -/
inductive Check
  | notCalled
  | inserted
  | locked (row : LockRow)
  | checked (stale : List Change)
  | adopted
  | refused (why : Refusal)
  | permitted
deriving DecidableEq, Repr

/-- The op may call `checkAndAcquireEntityLock`, for the first time or again. -/
def Check.callable : Check → Bool
  | notCalled => true
  | refused _ => true
  | permitted => true
  | _ => false

/-- An open transaction. -/
structure Tx where
  /-- The writing chat (`caelo_chat_owner` of the caller, or the branch's first chat), or the chat that reads. -/
  chat : Nat
  branch : Branch
  /-- The caller's own session is known and on the branch. -/
  isCaller : Bool
  start : Int
  kind : OpKind
  /-- What the op read of the entity. -/
  view : Option (List Change)
  /-- `observeDraftReads` ran. -/
  recorded : Bool
  check : Check
  wrote : List Change
  /-- The changes a takeover moved. -/
  moved : List Change
deriving DecidableEq, Repr

structure Db where
  clock : Int
  nextHeader : Nat
  /-- The committed snapshot headers of the entity. -/
  changes : List Change
  /-- The headers that were staged or undone. -/
  consumed : List Nat
  lock : Row Nat (Option LockRow)
  /-- `draft_entity_observations.seen_at`, by chat. -/
  seen : Nat → Row Nat (Option Int)
  txs : Nat → Option Tx
  /-- The reads a chat has finished. -/
  reads : Nat → List ReadCall
  /-- What the chat has read in a transaction that recorded the read. -/
  readBy : Nat → List Change
  /-- The conflicts a refusal reported to the chat, each with the changes it is over. -/
  conflicts : Nat → List (List Change)

def init : Db :=
  { clock := 0, nextHeader := 0, changes := [], consumed := [], lock := ⟨none, none⟩, seen := fun _ => ⟨none, none⟩,
    txs := fun _ => none, reads := fun _ => [], readBy := fun _ => [], conflicts := fun _ => [] }

namespace Db

variable (s : Db)

def pending (c : Change) : Bool := !s.consumed.contains c.header

def setTx (tx : Nat) (t : Tx) : Db := { s with txs := Function.update s.txs tx (some t) }

def setCheck (tx : Nat) (t : Tx) (check : Check) : Db := s.setTx tx { t with check }

end Db

/-! ### Reads -/

/-- `GREATEST(seen_at, at)`, where no row is no time. -/
def latest (at_ : Int) : Option Int → Option Int
  | none => some at_
  | some seen => some (max seen at_)

/-- The upsert into `draft_entity_observations`; `none` when it waits. -/
def observeAt (s : Db) (tx chat : Nat) (at_ : Int) : Option Db :=
  ((s.seen chat).update tx (fun _ => true) (latest at_)).map fun r =>
    { s with seen := Function.update s.seen chat r.1 }

/-- A statement of the op reads the entity's pending state on the draft. -/
def readEntity (s : Db) (tx : Nat) (t : Tx) : Option Db :=
  match t.kind with
  | .read _ => some (s.setTx tx { t with view := some s.changes })
  | _ => none

/-- `observeDraftReads`: at `now()`, or at the time the tool call began when that was passed on. -/
def observeDraftReads (s : Db) (tx : Nat) (t : Tx) : Option Db :=
  if t.branch = .draft then
    match t.kind with
    | .read _ => (observeAt s tx t.chat t.start).map fun s => s.setTx tx { t with recorded := true }
    | .observe call => (observeAt s tx t.chat (min call.began t.start)).map fun s => s.setTx tx { t with recorded := true }
    | .write => none
  else none

/-! ### `checkAndAcquireEntityLock` -/

/-- `INSERT … ON CONFLICT DO NOTHING`; it waits for a row that another transaction inserts. -/
def insertLock (s : Db) (tx : Nat) (t : Tx) : Option Db :=
  match s.lock.committed with
  | some _ => some (s.setCheck tx t .inserted)
  | none =>
    if s.lock.lockedByOther tx then none
    else
      let row := (s.lock.visible tx).getD ⟨t.chat, t.branch⟩
      some ({ s with lock := s.lock.write tx (some row) }.setCheck tx t .inserted)

/-- `SELECT … FOR UPDATE`; without a row the write is permitted. -/
def lockRow (s : Db) (tx : Nat) (t : Tx) : Option Db :=
  if s.lock.lockedByOther tx then none
  else
    match s.lock.visible tx with
    | none => some (s.setCheck tx t .permitted)
    | some row => some ({ s with lock := s.lock.write tx (some row) }.setCheck tx t (.locked row))

/-- `c.created_at > COALESCE(seen_at, '-infinity')` -/
def newer (seen : Option Int) (c : Change) : Bool := seen.all fun at_ => at_ < c.createdAt

/-- The pending changes of other chats on the branch that are newer than what the chat has seen. -/
def staleChanges (s : Db) (tx : Nat) (t : Tx) : List Change :=
  s.changes.filter fun c => decide (c.branch = t.branch) && s.pending c && decide (c.owner ≠ some t.chat) &&
    newer ((s.seen t.chat).visible tx) c

/-- `ORDER BY created_at DESC LIMIT 1` -/
def newestOf : List Change → Option Change
  | [] => none
  | c :: cs =>
    match newestOf cs with
    | none => some c
    | some d => if d.createdAt < c.createdAt then some c else some d

/-- The SELECT of `draftConflict`. -/
def draftConflict (s : Db) (tx : Nat) (t : Tx) : Db := s.setCheck tx t (.checked (staleChanges s tx t))

/-- The changes `takeOverEntity` moves: the pending ones on the holder's branch. -/
def takenOver (s : Db) (row : LockRow) : List Change :=
  s.changes.filter fun c => decide (c.branch = row.branch) && s.pending c

/-- The new headers on the taker's branch, oldest first, one microsecond apart before `now()`. -/
def adopt (t : Tx) (nextHeader : Nat) (moved : List Change) : List Change :=
  ((moved.mergeSort fun a b => a.createdAt ≤ b.createdAt).zipIdx).map fun m =>
    { header := nextHeader + m.2, owner := some t.chat, branch := t.branch, createdAt := t.start - ((moved.length : Int) - m.2) }

def takeOverEntity (s : Db) (tx : Nat) (t : Tx) (row : LockRow) : Db :=
  let moved := takenOver s row
  let t := { t with
    moved := t.moved ++ moved
    wrote := t.wrote ++ adopt t s.nextHeader moved
    check := if t.branch = Branch.draft ∧ t.isCaller = true then Check.adopted else .permitted }
  { s with lock := s.lock.write tx (some ⟨t.chat, t.branch⟩), nextHeader := s.nextHeader + moved.length }.setTx tx t

/-- What follows the lock row: a refusal, the draft check, a takeover, or the permission. -/
inductive Branching
  | refuseLease
  | refuseCall
  | check
  | takeOver
  | pass

def afterLock (s : Db) (tx : Nat) (t : Tx) (row : LockRow) (b : Branching) : Option Db :=
  match b with
  | .refuseLease =>
    if t.branch ≠ .draft ∨ t.isCaller then some (s.setCheck tx t (.refused .siblingLease)) else none
  | .refuseCall => if row.branch = t.branch then some (s.setCheck tx t (.refused .concurrentCall)) else none
  | .check =>
    if row.branch = t.branch ∧ t.branch = .draft ∧ t.isCaller then some (draftConflict s tx t) else none
  | .takeOver => if row.branch ≠ t.branch then some (takeOverEntity s tx t row) else none
  | .pass =>
    if row.branch = t.branch ∧ ¬(t.branch = .draft ∧ t.isCaller) then some (s.setCheck tx t .permitted) else none

/-- `observeDraftEntity`, at the end of the draft check and after a takeover. -/
def observeDraftEntity (s : Db) (tx : Nat) (t : Tx) : Option Db :=
  match t.check with
  | .checked stale =>
    (observeAt s tx t.chat t.start).map fun s =>
      if stale.isEmpty then s.setCheck tx t .permitted
      else
        { s with conflicts := Function.update s.conflicts t.chat (s.conflicts t.chat ++ [stale]) }.setCheck tx t
          (.refused (.staleDraft (newestOf stale)))
  | .adopted => (observeAt s tx t.chat t.start).map fun s => s.setCheck tx t .permitted
  | _ => none

/-! ### Steps -/

inductive Action
  | tick (n : Nat)
  | beginRead (tx chat : Nat) (branch : Branch) (began : Int)
  | beginObserve (tx chat : Nat) (branch : Branch) (call : ReadCall)
  | beginWrite (tx chat : Nat) (branch : Branch) (isCaller : Bool)
  | readEntity (tx : Nat)
  | observeDraftReads (tx : Nat)
  | insertLock (tx : Nat)
  | lockRow (tx : Nat)
  | afterLock (tx : Nat) (b : Branching)
  | observeDraftEntity (tx : Nat)
  /-- The op writes; the owner is free where the caller is not identified. -/
  | emitSnapshot (tx : Nat) (owner : Option Nat)
  | commit (tx : Nat)
  | abort (tx : Nat)
  /-- A Stage or an undo committed. -/
  | consume (headers : List Nat)

def newTx (s : Db) (tx : Nat) (chat : Nat) (branch : Branch) (isCaller : Bool) (kind : OpKind) : Option Db :=
  if (s.txs tx).isNone then
    some (s.setTx tx { chat, branch, isCaller, start := s.clock, kind, view := none, recorded := false,
                       check := .notCalled, wrote := [], moved := [] })
  else none

def emitSnapshot (s : Db) (tx : Nat) (t : Tx) (owner : Option Nat) : Option Db :=
  if t.check = .permitted ∧ (t.isCaller → owner = some t.chat) then
    let change := { header := s.nextHeader, owner, branch := t.branch, createdAt := s.clock }
    some ({ s with nextHeader := s.nextHeader + 1 }.setTx tx { t with wrote := t.wrote ++ [change] })
  else none

/-- The op is at its end. -/
def Tx.finished (t : Tx) : Bool :=
  match t.check with
  | .notCalled => !t.recorded || t.view.isSome || (match t.kind with | .observe _ => true | _ => false)
  | .refused _ => true
  | .permitted => true
  | _ => false

def Tx.readView (t : Tx) : List Change :=
  if t.recorded then
    match t.kind with
    | .observe call => call.view
    | _ => t.view.getD []
  else []

def Tx.readCall (t : Tx) : List ReadCall :=
  match t.kind, t.view with
  | .read began, some view => [⟨began, view⟩]
  | _, _ => []

def commit (s : Db) (tx : Nat) (t : Tx) : Option Db :=
  if t.finished then
    some { s with
      changes := s.changes.filter (fun c => !t.moved.contains c) ++ t.wrote
      lock := s.lock.commit tx
      seen := fun chat => (s.seen chat).commit tx
      txs := Function.update s.txs tx none
      reads := Function.update s.reads t.chat (s.reads t.chat ++ t.readCall)
      readBy := Function.update s.readBy t.chat (s.readBy t.chat ++ t.readView) }
  else none

def abort (s : Db) (tx : Nat) : Db :=
  { s with lock := s.lock.abort tx, seen := fun chat => (s.seen chat).abort tx, txs := Function.update s.txs tx none }

def step (s : Db) : Action → Option Db
  | .tick n => some { s with clock := s.clock + n }
  | .beginRead tx chat branch began =>
    if began ≤ s.clock then newTx s tx chat branch true (.read began) else none
  | .beginObserve tx chat branch call =>
    if call ∈ s.reads chat then newTx s tx chat branch true (.observe call) else none
  | .beginWrite tx chat branch isCaller => newTx s tx chat branch isCaller .write
  | .readEntity tx => (s.txs tx).bind fun t => readEntity s tx t
  | .observeDraftReads tx => (s.txs tx).bind fun t => observeDraftReads s tx t
  | .insertLock tx => (s.txs tx).bind fun t =>
    if t.kind = .write ∧ t.check.callable then insertLock s tx t else none
  | .lockRow tx => (s.txs tx).bind fun t => if t.check = .inserted then lockRow s tx t else none
  | .afterLock tx b => (s.txs tx).bind fun t =>
    match t.check with
    | .locked row => afterLock s tx t row b
    | _ => none
  | .observeDraftEntity tx => (s.txs tx).bind fun t => observeDraftEntity s tx t
  | .emitSnapshot tx owner => (s.txs tx).bind fun t => emitSnapshot s tx t owner
  | .commit tx => (s.txs tx).bind fun t => commit s tx t
  | .abort tx => (s.txs tx).map fun _ => abort s tx
  | .consume headers => some { s with consumed := s.consumed ++ headers }

def runs (s : Db) : List Action → Option Db
  | [] => some s
  | a :: as => (step s a).bind fun s => runs s as

end CaeloCms.EntityLock
