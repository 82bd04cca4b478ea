import CaeloCms.Lib.LockedRow

/-!
# The row of a deploy lease and the calls on it

One row of `deploy_leases`, used by deploy runs (`holder_run_id`), redirect syncs (`holder_sync_id`) and short
transactions that only lock the row.  Each call is the sequence of SQL statements the source executes, in a transaction
that may make any number of calls; a statement is atomic and reads the database clock once.  What a call remembers
between two statements is a `Pending`.  The row exists from the start, so `ensureLeaseRow` changes nothing and takes
no lock.

Two things are recorded that the database does not store: a version of the row carries the claims that led to it
(`LeaseVersion.claims`, so a rolled back claim leaves no trace), and the state carries the versions that
`lockLeaseRow` locked (`LeaseDb.locks`).
-/

namespace CaeloCms.Deploy

open LockedRow

abbrev Uuid := String

/-- A transaction. -/
abbrev Tx := Nat

/-- A row of `deploy_leases`; times in milliseconds. -/
structure LeaseRow where
  holderRunId : Option Uuid
  holderSyncId : Option Uuid
  acquiredAt : Option Int
  expiresAt : Option Int
deriving DecidableEq, Repr

inductive Holder
  | run (runId : Uuid)
  | sync (syncId : Uuid)
deriving DecidableEq, Repr

/-- `expires_at > clock_timestamp()` -/
def LeaseRow.unexpired (r : LeaseRow) (clock : Int) : Bool :=
  match r.expiresAt with
  | none => false
  | some e => decide (clock < e)

/-- `FREE_SQL` -/
def LeaseRow.free (r : LeaseRow) (clock : Int) : Bool :=
  (r.holderRunId.isNone && r.holderSyncId.isNone) ||
    match r.expiresAt with
    | none => true
    | some e => decide (e ≤ clock)

def LeaseRow.names (r : LeaseRow) : Holder → Bool
  | .run runId => r.holderRunId == some runId
  | .sync syncId => r.holderSyncId == some syncId

def LeaseRow.holds (r : LeaseRow) (clock : Int) (h : Holder) : Bool := r.names h && r.unexpired clock

structure LeaseVersion where
  row : LeaseRow
  /-- The claims that took effect, the newest first. -/
  claims : List Holder
deriving DecidableEq, Repr

/-! ### The assignments -/

def LeaseVersion.claim (v : LeaseVersion) (h : Holder) (clock ttlMs : Int) : LeaseVersion :=
  { row :=
      { holderRunId := match h with | .run runId => some runId | .sync _ => none
        holderSyncId := match h with | .run _ => none | .sync syncId => some syncId
        acquiredAt := some clock
        expiresAt := some (clock + ttlMs) }
    claims := h :: v.claims }

def LeaseVersion.expireAt (v : LeaseVersion) (e : Int) : LeaseVersion :=
  { v with row := { v.row with expiresAt := some e } }

def LeaseVersion.clear (v : LeaseVersion) : Holder → LeaseVersion
  | .run _ => { v with row := { v.row with holderRunId := none, acquiredAt := none, expiresAt := none } }
  | .sync _ => { v with row := { v.row with holderSyncId := none, acquiredAt := none, expiresAt := none } }

/-! ### The calls -/

inductive Call
  | claimLease (runId : Uuid) (ttlMs : Int)
  | renewLease (runId : Uuid) (ttlMs : Int)
  | releaseLease (runId : Uuid)
  | claimSyncLease (syncId : Uuid) (ttlMs : Int)
  | renewSyncLease (syncId : Uuid) (ttlMs : Int)
  | releaseSyncLease (syncId : Uuid)
  | lockLeaseRow (skipLocked : Bool)
deriving DecidableEq, Repr

/-- A call between two of its statements, named by the statement that is next. -/
inductive Pending
  | claimUpdate (h : Holder) (ttlMs : Int)
  | releaseUpdate (runId : Uuid) (live : Bool)
  | leaseHolder
  | syncHoldsLease
  | lockAgain
deriving DecidableEq, Repr

structure DeployLeaseHolder where
  runId : Uuid
  expiresAt : Int
deriving DecidableEq, Repr

/-- What a call returns, with the caller's id. -/
inductive Reply
  | acquired (runId : Uuid)
  | notAcquired (runId : Uuid) (heldBy : Option DeployLeaseHolder)
  | renewed (runId : Uuid)
  | lost (runId : Uuid)
  | notHeld (runId : Uuid)
  | released (runId : Uuid) (live : Option Bool)
  | syncClaimed (syncId : Uuid) (acquired : Bool)
  | syncRenewed (syncId : Uuid) (renewed : Bool)
  | syncReleased (syncId : Uuid)
  | locked
  | notLocked (heldBy : Option DeployLeaseHolder)
deriving DecidableEq, Repr

structure LeaseDb where
  clock : Int
  lease : Row Tx LeaseVersion
  pending : Tx → Option Pending
  /-- The versions `lockLeaseRow` locked for a transaction that had not changed the row. -/
  locks : List LeaseVersion

def LeaseDb.setLease (s : LeaseDb) (lease : Row Tx LeaseVersion) : LeaseDb := { s with lease := lease }

def LeaseDb.setPending (s : LeaseDb) (tx : Tx) (p : Option Pending) : LeaseDb :=
  { s with pending := Function.update s.pending tx p }

def LeaseDb.noteLock (s : LeaseDb) (tx : Tx) : LeaseDb :=
  if s.lease.visible tx = s.lease.committed then { s with locks := s.lease.committed :: s.locks } else s

/-- `row.run_id !== null && row.expires_at !== null ? { runId, expiresAt } : null` -/
def LeaseRow.heldBy (r : LeaseRow) : Option DeployLeaseHolder :=
  match r.holderRunId, r.expiresAt with
  | some runId, some e => some ⟨runId, e⟩
  | _, _ => none

/-- A statement: `none` while it waits for a lock, else the state after it and the reply if the call returns. -/
abbrev Stmt := Option (LeaseDb × Option Reply)

/-- The first statement of both claims.  `refused` makes the reply for a row that is not claimable. -/
def claimSelect (s : LeaseDb) (tx : Tx) (h : Holder) (ttlMs : Int) (claimable : LeaseRow → Bool)
    (refused : Option DeployLeaseHolder → Reply) : Stmt :=
  match s.lease.selectSkipLocked tx with
  | none => some (s, some (refused none))
  | some lease =>
    if claimable (lease.visible tx).row then
      some ((s.setLease lease).setPending tx (some (.claimUpdate h ttlMs)), none)
    else some (s.setLease lease, some (refused (lease.visible tx).row.heldBy))

def claimLease (s : LeaseDb) (tx : Tx) (runId : Uuid) (ttlMs : Int) : Stmt :=
  claimSelect s tx (.run runId) ttlMs (fun r => r.free s.clock || r.holderRunId == some runId) (.notAcquired runId)

def claimSyncLease (s : LeaseDb) (tx : Tx) (syncId : Uuid) (ttlMs : Int) : Stmt :=
  claimSelect s tx (.sync syncId) ttlMs (fun r => r.free s.clock) fun _ => .syncClaimed syncId false

def claimUpdate (s : LeaseDb) (tx : Tx) (h : Holder) (ttlMs : Int) : Stmt :=
  (s.lease.update tx (fun _ => true) fun v => v.claim h s.clock ttlMs).map fun res =>
    (s.setLease res.1, some (match h with | .run runId => .acquired runId | .sync syncId => .syncClaimed syncId true))

def renewLease (s : LeaseDb) (tx : Tx) (runId : Uuid) (ttlMs : Int) : Stmt :=
  (s.lease.update tx (fun v => v.row.names (.run runId)) fun v =>
      if v.row.unexpired s.clock then v.expireAt (s.clock + ttlMs) else v).map fun res =>
    (s.setLease res.1,
      some (match res.2 with
        | none => .notHeld runId
        | some v => if v.row.unexpired s.clock then .renewed runId else .lost runId))

def renewSyncLease (s : LeaseDb) (tx : Tx) (syncId : Uuid) (ttlMs : Int) : Stmt :=
  (s.lease.update tx (fun v => v.row.holds s.clock (.sync syncId)) fun v => v.expireAt (s.clock + ttlMs)).map fun res =>
    (s.setLease res.1, some (.syncRenewed syncId res.2.isSome))

/-- `SELECT … WHERE holder_run_id = … FOR UPDATE` -/
def releaseLease (s : LeaseDb) (tx : Tx) (runId : Uuid) : Stmt :=
  (s.lease.update tx (fun v => v.row.names (.run runId)) id).map fun res =>
    match res.2 with
    | none => (s.setLease res.1, some (.released runId none))
    | some v => ((s.setLease res.1).setPending tx (some (.releaseUpdate runId (v.row.unexpired s.clock))), none)

def releaseUpdate (s : LeaseDb) (tx : Tx) (runId : Uuid) (live : Bool) : Stmt :=
  (s.lease.update tx (fun v => v.row.names (.run runId)) fun v => v.clear (.run runId)).map fun res =>
    (s.setLease res.1, some (.released runId (some live)))

def releaseSyncLease (s : LeaseDb) (tx : Tx) (syncId : Uuid) : Stmt :=
  (s.lease.update tx (fun v => v.row.names (.sync syncId)) fun v => v.clear (.sync syncId)).map fun res =>
    (s.setLease res.1, some (.syncReleased syncId))

/-- The skipping `SELECT … FOR UPDATE SKIP LOCKED`, or the waiting `UPDATE … SET name = name WHERE FREE_SQL`. -/
def lockLeaseRow (s : LeaseDb) (tx : Tx) (skipLocked : Bool) : Stmt :=
  if skipLocked then
    match s.lease.selectSkipLocked tx with
    | none => some (s, some (.notLocked none))
    | some lease =>
      if (lease.visible tx).row.free s.clock then some ((s.setLease lease).noteLock tx, some .locked)
      else some (s.setLease lease, some (.notLocked (lease.visible tx).row.heldBy))
  else
    (s.lease.update tx (fun v => v.row.free s.clock) id).map fun res =>
      match res.2 with
      | some _ => ((s.setLease res.1).noteLock tx, some .locked)
      | none => ((s.setLease res.1).setPending tx (some .leaseHolder), none)

/-- `leaseHolder(tx, name)`, then `syncHoldsLease` unless a run holds the lease. -/
def leaseHolder (s : LeaseDb) (tx : Tx) : Stmt :=
  let r := (s.lease.visible tx).row
  if r.holderRunId.isSome && r.unexpired s.clock then some (s, some (.notLocked r.heldBy))
  else some (s.setPending tx (some .syncHoldsLease), none)

/-- `syncHoldsLease(tx, name)`, then `lockLeaseRow` again when the lease lapsed between the statements. -/
def syncHoldsLease (s : LeaseDb) (tx : Tx) : Stmt :=
  let r := (s.lease.visible tx).row
  if r.holderSyncId.isSome && r.unexpired s.clock then some (s, some (.notLocked none))
  else some (s.setPending tx (some .lockAgain), none)

/-! ### Steps -/

inductive Action
  /-- The database clock advances. -/
  | tick (ms : Nat)
  /-- The first statement of a call. -/
  | call (tx : Tx) (c : Call)
  /-- The next statement of the call the transaction is in. -/
  | resume (tx : Tx)
  | commit (tx : Tx)
  | abort (tx : Tx)
deriving DecidableEq, Repr

def firstStatement (s : LeaseDb) (tx : Tx) : Call → Stmt
  | .claimLease runId ttlMs => claimLease s tx runId ttlMs
  | .renewLease runId ttlMs => renewLease s tx runId ttlMs
  | .releaseLease runId => releaseLease s tx runId
  | .claimSyncLease syncId ttlMs => claimSyncLease s tx syncId ttlMs
  | .renewSyncLease syncId ttlMs => renewSyncLease s tx syncId ttlMs
  | .releaseSyncLease syncId => releaseSyncLease s tx syncId
  | .lockLeaseRow skipLocked => lockLeaseRow s tx skipLocked

def nextStatement (s : LeaseDb) (tx : Tx) : Pending → Stmt
  | .claimUpdate h ttlMs => claimUpdate s tx h ttlMs
  | .releaseUpdate runId live => releaseUpdate s tx runId live
  | .leaseHolder => leaseHolder s tx
  | .syncHoldsLease => syncHoldsLease s tx
  | .lockAgain => lockLeaseRow s tx false

/-- One step; `none` where it is not enabled.  A transaction is in one call at a time and commits between calls; it
may abort at any time (an error, a crash of its instance). -/
def step (s : LeaseDb) : Action → Stmt
  | .tick ms => some ({ s with clock := s.clock + ms }, none)
  | .call tx c =>
    match s.pending tx with
    | none => firstStatement s tx c
    | some _ => none
  | .resume tx =>
    match s.pending tx with
    | none => none
    | some p => nextStatement (s.setPending tx none) tx p
  | .commit tx =>
    match s.pending tx with
    | none => some (s.setLease (s.lease.commit tx), none)
    | some _ => none
  | .abort tx => some ((s.setLease (s.lease.abort tx)).setPending tx none, none)

/-- A free row, no transaction open. -/
def LeaseDb.Initial (s : LeaseDb) : Prop :=
  s.lease.lock = none ∧ s.lease.committed.claims = [] ∧ s.lease.committed.row.free s.clock = true ∧
    (s.lease.committed.row.holderRunId = none ∨ s.lease.committed.row.holderSyncId = none) ∧
    (∀ tx, s.pending tx = none) ∧ s.locks = []

inductive Reachable : LeaseDb → Prop
  | init {s : LeaseDb} (h : s.Initial) : Reachable s
  | step {s s' : LeaseDb} {a : Action} {rep : Option Reply} (hs : Reachable s) (h : step s a = some (s', rep)) :
    Reachable s'

def run (s : LeaseDb) : List Action → Option LeaseDb
  | [] => some s
  | a :: as => (step s a).bind fun res => run res.1 as

theorem Reachable.run {s s' : LeaseDb} {as : List Action} (hs : Reachable s) (h : run s as = some s') :
    Reachable s' := by
  induction as generalizing s with
  | nil =>
    have : s = s' := by simpa [Deploy.run] using h
    exact this ▸ hs
  | cons a as ih =>
    obtain ⟨res, hres, hrun⟩ := Option.bind_eq_some_iff.1 h
    exact ih (hs.step hres) hrun

end CaeloCms.Deploy
