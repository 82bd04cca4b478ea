import CaeloCms.Deploy.Lease
import CaeloCms.Redirect.Plan

/-!
# The redirect sync

`redirect-sync.ts`, with everything that acts on the same rows: redirects are saved, builds are released, and syncs
prepare (one transaction), push (no transaction) and record (one transaction) their rounds.  A transaction of the
prepare step runs statement by statement; another transaction sees what it wrote when it commits, and a statement that
needs a row it has locked waits.  A push reaches the provider at any time after it started, also when its sync has
given it up or is gone, and then replaces the provider's whole table; it may also never reach it.
-/

namespace CaeloCms.Deploy

open LockedRow Redirect

inductive Env
  | staging
  | production
deriving DecidableEq, Repr

structure DeployTarget where
  id : Uuid
  env : Env
  pageUrlStyle : RedirectPageUrlStyle
deriving DecidableEq, Repr

/-- The deploy targets of the synced environments, in the order a sync pushes them; what is outside the database. -/
structure Hosting where
  targets : List DeployTarget
  parseUrl : List Char → Option Url
  /-- The files of a run's build. -/
  files : Uuid → List (List Char)

/-- The table a publisher puts live for `rows` on the build of `runId`; `none` where `planRedirectSync` throws. -/
def Hosting.planRedirectSync (h : Hosting) (t : DeployTarget) (rows : List RedirectTableRow) (runId : Uuid) :
    Option RedirectPlan :=
  (buildRedirectPlan h.parseUrl rows t.pageUrlStyle (h.files runId)).toOption

inductive RedirectSyncTrigger
  | save
  | build
  | publish
  | rollback
  | retry
  | manual
deriving DecidableEq, Repr

def servedBuildChanged : List RedirectSyncTrigger := [.build, .publish, .rollback]

def pushAllTriggers : List RedirectSyncTrigger := servedBuildChanged ++ [.manual]

/-- A row of `redirect_sync_state`. -/
structure SyncState where
  wantedRevision : Nat
  syncedRevision : Nat
  failedAttempts : Nat
  nextAttemptAt : Option Int
deriving DecidableEq, Repr

/-- A row of `redirect_changes`, with the open transaction that deleted it. -/
structure RedirectChange where
  xid : Nat
  deletedBy : Option Tx
deriving DecidableEq, Repr

structure SyncRedirectsArgs where
  trigger : RedirectSyncTrigger
  targetIds : Option (List Uuid)
deriving DecidableEq, Repr

/-- A target of a round with the revision the round read. -/
structure TargetRow where
  target : DeployTarget
  wantedRevision : Nat
deriving DecidableEq, Repr

structure PlannedTarget where
  target : DeployTarget
  revision : Nat
  /-- `none`: the target serves no build yet. -/
  servedRunId : Option Uuid
deriving DecidableEq, Repr

structure RoundPlan where
  claimed : List Env
  targets : List PlannedTarget
  table : List RedirectTableRow
deriving DecidableEq, Repr

/-- `applied`, `unchanged` and `not-served` are recorded alike. -/
inductive RedirectSyncStatus
  | applied
  | nothingLive
  | failed
deriving DecidableEq, Repr

structure PushResult where
  planned : PlannedTarget
  status : RedirectSyncStatus
deriving DecidableEq, Repr

/-- The statement of `prepareRound` that is next. -/
inductive Statement
  | foldDelete
  | foldUpdate
  | wanted
  | claim (envs : List Env)
  | markBehind
  | targets
  | table (rows : List TargetRow)
  | served (rows : List TargetRow)
  | commit
deriving DecidableEq, Repr

inductive Phase
  | widen
  | prepare (next : Statement)
  /-- The targets that are left, the push that runs, the results so far. -/
  | push (left : List PlannedTarget) (running : Option Nat) (results : List PushResult)
  | moreDue
deriving DecidableEq, Repr

/-- A run of `syncRedirects`. -/
structure SyncRun where
  syncId : Uuid
  args : SyncRedirectsArgs
  round : Nat
  plan : RoundPlan
  phase : Phase
deriving DecidableEq, Repr

inductive PushState
  | inFlight
  | landed
  | lost
deriving DecidableEq, Repr

/-- A call of a publisher's `syncRedirects`. -/
structure Push where
  target : DeployTarget
  revision : Nat
  rows : List RedirectTableRow
  servedRunId : Uuid
  state : PushState
deriving DecidableEq, Repr

structure RedirectDb where
  clock : Int
  redirects : List RedirectTableRow
  changes : List RedirectChange
  nextXid : Nat
  sync : DeployTarget → Row Tx SyncState
  /-- The run whose build a target serves, as `servedRun` reads it. -/
  served : DeployTarget → Option Uuid
  leases : Env → LeaseDb
  syncs : Nat → Option SyncRun
  pushes : List Push
  /-- The table the provider of a target answers. -/
  provider : DeployTarget → RedirectPlan
  /-- The run whose build just went live on a target and is not recorded yet. -/
  releasing : DeployTarget → Option Uuid

def syncLeaseTtlMs : Int := 2 * 60000

def maxRounds : Nat := 5

def maxBackoffMinutes : Nat := 60

variable (h : Hosting)

def syncTx (i : Nat) : Tx := 2 * i

def RedirectDb.setSync (s : RedirectDb) (i : Nat) (r : Option SyncRun) : RedirectDb :=
  { s with syncs := Function.update s.syncs i r }

def RedirectDb.setLease (s : RedirectDb) (e : Env) (l : LeaseDb) : RedirectDb :=
  { s with leases := Function.update s.leases e l }

def RedirectDb.writeRows (s : RedirectDb) (tx : Tx) (p : DeployTarget → Bool) (f : SyncState → SyncState) : RedirectDb :=
  { s with sync := fun t =>
      if h.targets.contains t && p t then (s.sync t).write tx (f ((s.sync t).visible tx)) else s.sync t }

/-- `UPDATE redirect_sync_state … WHERE p`; `none` while another transaction has locked one of the rows. -/
def RedirectDb.updateRows (s : RedirectDb) (tx : Tx) (p : DeployTarget → Bool) (f : SyncState → SyncState) :
    Option RedirectDb :=
  if h.targets.any fun t => p t && (s.sync t).lockedByOther tx then none else some (s.writeRows h tx p f)

/-! ### The prepare step -/

def SyncRedirectsArgs.only (args : SyncRedirectsArgs) (t : DeployTarget) : Bool :=
  match args.targetIds with
  | none => true
  | some ids => ids.contains t.id

def SyncState.bump (r : SyncState) : SyncState := { r with wantedRevision := r.wantedRevision + 1 }

def SyncState.behindAndDue (r : SyncState) (clock : Int) : Bool :=
  decide (r.syncedRevision < r.wantedRevision) && (r.nextAttemptAt.map fun at' => decide (at' ≤ clock)).getD true

/-- `DELETE FROM redirect_changes`; `none` while it waits for another transaction that deletes one of the rows. -/
def foldDelete (s : RedirectDb) (tx : Tx) : Option RedirectDb :=
  if s.changes.any fun c => decide (c.deletedBy ≠ none) && decide (c.deletedBy ≠ some tx) then none
  else some { s with changes := s.changes.map fun c => { c with deletedBy := some tx } }

/-- A new change also restarts a failing target's backoff. -/
def foldUpdate (s : RedirectDb) (tx : Tx) : Option RedirectDb :=
  s.updateRows h tx (fun _ => true) fun r => { r.bump with failedAttempts := 0, nextAttemptAt := none }

def SyncRun.pushAll (r : SyncRun) : Bool := r.round == 0 && pushAllTriggers.contains r.args.trigger

def wantedTargets (s : RedirectDb) (tx : Tx) (r : SyncRun) : List DeployTarget :=
  h.targets.filter fun t => r.args.only t && (r.pushAll || ((s.sync t).visible tx).behindAndDue s.clock)

/-- `claimLiveReleaseForSync`, `claimStagingPublicationForSync`: whether the lease was acquired. -/
def claimForSync (s : RedirectDb) (tx : Tx) (syncId : Uuid) (e : Env) : Option (RedirectDb × Bool) :=
  match claimSyncLease (s.leases e) tx syncId syncLeaseTtlMs with
  | none => none
  | some (l, some _) => some (s.setLease e l, false)
  | some (l, none) =>
    (claimUpdate (l.setPending tx none) tx (.sync syncId) syncLeaseTtlMs).map fun res => (s.setLease e res.1, true)

/-- A new served build carries the redirects of its own build time. -/
def markClaimedBehind (s : RedirectDb) (tx : Tx) (r : SyncRun) : Option RedirectDb :=
  if r.round == 0 && servedBuildChanged.contains r.args.trigger then
    s.updateRows h tx (fun t => r.plan.claimed.contains t.env && r.args.only t) SyncState.bump
  else some s

def targetRows (s : RedirectDb) (tx : Tx) (r : SyncRun) : List TargetRow :=
  ((wantedTargets h s tx r).filter fun t => r.plan.claimed.contains t.env).map fun t =>
    ⟨t, ((s.sync t).visible tx).wantedRevision⟩

def RedirectDb.commit (s : RedirectDb) (tx : Tx) : RedirectDb :=
  { s with
    changes := s.changes.filter fun c => c.deletedBy ≠ some tx
    sync := fun t => (s.sync t).commit tx
    leases := fun e => (s.leases e).setLease ((s.leases e).lease.commit tx) }

def RedirectDb.abort (s : RedirectDb) (tx : Tx) : RedirectDb :=
  { s with
    changes := s.changes.map fun c => if c.deletedBy = some tx then { c with deletedBy := none } else c
    sync := fun t => (s.sync t).abort tx
    leases := fun e => ((s.leases e).setLease ((s.leases e).lease.abort tx)).setPending tx none }

def SyncRun.next (r : SyncRun) (st : Statement) : SyncRun := { r with phase := .prepare st }

/-- One statement of `prepareRound`; `none` while it waits. -/
def prepareStatement (s : RedirectDb) (i : Nat) (r : SyncRun) : Statement → Option RedirectDb
  | .foldDelete =>
    -- only an unrestricted sync folds the changes
    if r.args.targetIds.isSome then some (s.setSync i (r.next .wanted))
    else (foldDelete s (syncTx i)).map fun u =>
      u.setSync i (r.next (if s.changes.isEmpty then .wanted else .foldUpdate))
  | .foldUpdate => (foldUpdate h s (syncTx i)).map fun u => u.setSync i (r.next .wanted)
  | .wanted =>
    let envs := (wantedTargets h s (syncTx i) r).map (·.env)
    some (s.setSync i (r.next (if envs.isEmpty then .commit
      else .claim ([Env.production, Env.staging].filter fun e => envs.contains e))))
  | .claim [] => some (s.setSync i (r.next (if r.plan.claimed.isEmpty then .commit else .markBehind)))
  | .claim (e :: envs) =>
    (claimForSync s (syncTx i) r.syncId e).map fun res =>
      let plan := { r.plan with claimed := if res.2 then r.plan.claimed ++ [e] else r.plan.claimed }
      res.1.setSync i ({ r with plan := plan }.next (.claim envs))
  | .markBehind => (markClaimedBehind h s (syncTx i) r).map fun u => u.setSync i (r.next .targets)
  -- the revision first, then the rows
  | .targets => some (s.setSync i (r.next (.table (targetRows h s (syncTx i) r))))
  | .table rows => some (s.setSync i ({ r with plan := { r.plan with table := s.redirects } }.next (.served rows)))
  | .served [] => some (s.setSync i (r.next .commit))
  | .served (row :: rows) =>
    let planned : PlannedTarget := ⟨row.target, row.wantedRevision, s.served row.target⟩
    some (s.setSync i ({ r with plan := { r.plan with targets := r.plan.targets ++ [planned] } }.next (.served rows)))
  | .commit =>
    let u := s.commit (syncTx i)
    some (u.setSync i (if r.plan.claimed.isEmpty then none
      else some { r with phase := .push r.plan.targets none [] }))

/-! ### Pushes -/

def RedirectDb.setPush (s : RedirectDb) (k : Nat) (st : PushState) : RedirectDb :=
  { s with pushes := s.pushes.modify k fun p => { p with state := st } }

/-- `pushTarget` calls the publisher, unless nothing is live. -/
def pushTarget (s : RedirectDb) (i : Nat) (r : SyncRun) (p : PlannedTarget) (left : List PlannedTarget)
    (results : List PushResult) : RedirectDb :=
  match p.servedRunId with
  | none => s.setSync i (some { r with phase := .push left none (results ++ [⟨p, .nothingLive⟩]) })
  | some runId =>
    let call : Push := ⟨p.target, p.revision, r.plan.table, runId, .inFlight⟩
    { s with pushes := s.pushes ++ [call] }.setSync i
      (some { r with phase := .push (p :: left) (some s.pushes.length) results })

/-- The push reaches the provider.  A publisher that cannot plan the rows throws and changes nothing. -/
def landPush (s : RedirectDb) (k : Nat) : Option RedirectDb :=
  match s.pushes[k]? with
  | none => none
  | some p =>
    if p.state = .inFlight then
      (h.planRedirectSync p.target p.rows p.servedRunId).map fun plan =>
        { s.setPush k .landed with provider := Function.update s.provider p.target plan }
    else none

/-! ### The record step -/

/-- `record`: the revision the push read, never further; a failure backs off while no newer change is waiting. -/
def SyncState.record (r : SyncState) (clock : Int) (res : PushResult) : SyncState :=
  match res.status with
  | .failed =>
    { r with
      failedAttempts := r.failedAttempts + 1
      nextAttemptAt :=
        if res.planned.revision < r.wantedRevision then none
        else some (clock + 60000 * (min (2 ^ min r.failedAttempts 10) maxBackoffMinutes : Nat)) }
  | _ =>
    { r with syncedRevision := max r.syncedRevision res.planned.revision, failedAttempts := 0, nextAttemptAt := none }

def recordResult (s : RedirectDb) (tx : Tx) (res : PushResult) : Option RedirectDb :=
  s.updateRows h tx (fun t => t == res.planned.target) fun r => r.record s.clock res

def recordResults (s : RedirectDb) (tx : Tx) : List PushResult → Option RedirectDb
  | [] => some s
  | res :: results => (recordResult h s tx res).bind fun u => recordResults u tx results

def releaseClaims (s : RedirectDb) (tx : Tx) (syncId : Uuid) : List Env → Option RedirectDb
  | [] => some s
  | e :: envs => (releaseSyncLease (s.leases e) tx syncId).bind fun res =>
      releaseClaims (s.setLease e res.1) tx syncId envs

def recordRound (s : RedirectDb) (i : Nat) (r : SyncRun) (results : List PushResult) : Option RedirectDb :=
  ((recordResults h s (syncTx i) results).bind fun u =>
    releaseClaims u (syncTx i) r.syncId r.plan.claimed.reverse).map fun u =>
      (u.commit (syncTx i)).setSync i (if r.args.targetIds.isSome then none else some { r with phase := .moreDue })

def moreDue (s : RedirectDb) (tx : Tx) : Bool :=
  !s.changes.isEmpty || h.targets.any fun t =>
    let r := (s.sync t).visible tx
    decide (r.syncedRevision < r.wantedRevision) && r.nextAttemptAt.isNone

def emptyPlan : RoundPlan := ⟨[], [], []⟩

def syncStatement (s : RedirectDb) (i : Nat) : Option RedirectDb :=
  match s.syncs i with
  | none => none
  | some r =>
    match r.phase with
    | .widen =>
      -- `widenManualRetry`
      let widened := r.args.trigger = .manual ∧ r.args.targetIds.isSome = true ∧ s.changes.isEmpty = false
      let args := if widened then { r.args with targetIds := none } else r.args
      some (s.setSync i ({ r with args := args }.next .foldDelete))
    | .prepare st => prepareStatement h s i r st
    | .push [] none results => recordRound h s i r results
    | .push _ _ _ => none
    | .moreDue =>
      if moreDue h s (syncTx i) && decide (r.round + 1 < maxRounds) then
        some (s.setSync i ({ r with round := r.round + 1, plan := emptyPlan }.next .foldDelete))
      else some (s.setSync i none)

/-! ### Steps -/

inductive SyncAction
  | tick (ms : Nat)
  /-- A transaction that changed the redirects commits. -/
  | save (rows : List RedirectTableRow)
  /-- A build goes live, with the redirects of its build time. -/
  | release (t : DeployTarget) (runId : Uuid) (plan : RedirectPlan)
  /-- The release is recorded, in the transaction that calls `markRedirectsBehind`. -/
  | recordRelease (t : DeployTarget)
  /-- A statement of a deploy run's call on a lease. -/
  | lease (e : Env) (a : Action)
  | request (i : Nat) (syncId : Uuid) (args : SyncRedirectsArgs)
  | statement (i : Nat)
  | push (i : Nat)
  | land (k : Nat)
  | lose (k : Nat)
  /-- The publisher returns to its sync, or throws. -/
  | answer (i : Nat) (ok : Bool)
  | renew (i : Nat)
  | crash (i : Nat)

/-- A lease call of a transaction that is no sync's. -/
def ofRun : Action → Bool
  | .tick _ => false
  | .call tx _ => tx % 2 = 1
  | .resume tx => tx % 2 = 1
  | .commit tx => tx % 2 = 1
  | .abort tx => tx % 2 = 1

/-- `renewLiveReleaseForSync`, `renewStagingPublicationForSync`, in a transaction of their own. -/
def renewClaims (s : RedirectDb) (tx : Tx) (syncId : Uuid) : List Env → Option RedirectDb
  | [] => some s
  | e :: envs => (renewSyncLease (s.leases e) tx syncId syncLeaseTtlMs).bind fun res =>
      renewClaims (s.setLease e res.1) tx syncId envs

/-- The triggers on `redirects` leave a row of the transaction. -/
def RedirectDb.saveRedirects (s : RedirectDb) (rows : List RedirectTableRow) : RedirectDb :=
  { s with redirects := rows, changes := s.changes ++ [⟨s.nextXid, none⟩], nextXid := s.nextXid + 1 }

/-- `markRedirectsBehind`, in the transaction that records the run. -/
def RedirectDb.recordRelease (s : RedirectDb) (t : DeployTarget) (runId : Uuid) : RedirectDb :=
  { s with
    sync := Function.update s.sync t ⟨(s.sync t).committed.bump, none⟩
    served := Function.update s.served t (some runId)
    releasing := Function.update s.releasing t none }

/-- One step; `none` where it is not enabled. -/
def syncStep (s : RedirectDb) : SyncAction → Option RedirectDb
  | .tick ms =>
    some { s with clock := s.clock + ms, leases := fun e => { s.leases e with clock := (s.leases e).clock + ms } }
  | .save rows => some (s.saveRedirects rows)
  | .release t runId plan =>
    some { s with
      provider := Function.update s.provider t plan
      releasing := Function.update s.releasing t (some runId) }
  | .recordRelease t =>
    match s.releasing t with
    | none => none
    | some runId => if (s.sync t).lock.isSome then none else some (s.recordRelease t runId)
  | .lease e a => if ofRun a then (Deploy.step (s.leases e) a).map fun res => s.setLease e res.1 else none
  | .request i syncId args =>
    match s.syncs i with
    | none => some (s.setSync i (some ⟨syncId, args, 0, emptyPlan, .widen⟩))
    | some _ => none
  | .statement i => syncStatement h s i
  | .push i =>
    match s.syncs i with
    | none => none
    | some r =>
      match r.phase with
      | .push (p :: left) none results => some (pushTarget s i r p left results)
      | _ => none
  | .land k => landPush h s k
  | .lose k =>
    match s.pushes[k]? with
    | none => none
    | some p => if p.state = .inFlight then some (s.setPush k .lost) else none
  | .answer i ok =>
    match s.syncs i with
    | none => none
    | some r =>
      match r.phase with
      | .push (p :: left) (some k) results =>
        -- a publisher that returns has put the table live
        if ok && (s.pushes[k]?.map (·.state)) != some .landed then none
        else some (s.setSync i (some { r with
          phase := .push left none (results ++ [⟨p, if ok then .applied else .failed⟩]) }))
      | _ => none
  | .renew i =>
    match s.syncs i with
    | none => none
    | some r =>
      match r.phase with
      | .push _ _ _ => (renewClaims s (syncTx i) r.syncId r.plan.claimed).map fun u => u.commit (syncTx i)
      | _ => none
  | .crash i =>
    match s.syncs i with
    | none => none
    | some _ => some ((s.abort (syncTx i)).setSync i none)

/-- Nothing is published, nothing runs, no change waits. -/
structure RedirectDb.Initial (s : RedirectDb) : Prop where
  changes : s.changes = []
  sync : ∀ t, s.sync t = ⟨⟨0, 0, 0, none⟩, none⟩
  served : ∀ t, s.served t = none
  leases : ∀ e, (s.leases e).Initial
  syncs : ∀ i, s.syncs i = none
  pushes : s.pushes = []
  releasing : ∀ t, s.releasing t = none

/-- `s` is reached by a run whose steps all meet `ok`. -/
inductive SyncReachable (ok : RedirectDb → SyncAction → Prop) : RedirectDb → Prop
  | init {s : RedirectDb} (hs : s.Initial) : SyncReachable ok s
  | step {s u : RedirectDb} {a : SyncAction} (hs : SyncReachable ok s) (ha : ok s a) (hu : syncStep h s a = some u) :
    SyncReachable ok u

def syncRun (s : RedirectDb) : List SyncAction → Option RedirectDb
  | [] => some s
  | a :: as => (syncStep h s a).bind fun u => syncRun u as

end CaeloCms.Deploy
