import CaeloCms.Journal.Consumer

/-!
# Draining a plugin's change consumer

`drainOne` of the plugin host, as the steps of any number of instances on the journal's tables: the claim, the rebuild
operation, the batches with their dispatches, and the claim given back.  Each `plugin_changes.*` operation is one transaction of
the functions of the journal; an instance may fail or crash between any two of them.

`rebuilt` only records what happened: for each consumer, which transactions had ended when a rebuild that succeeded began to
read.
-/

namespace CaeloCms.Journal

open Mvcc

/-- A run of the rebuild operation: the cursor of the consumer's last begin (or registration) when it began to read, and the
transactions that had ended. -/
structure Rebuild where
  since : Snapshot
  began : List Nat

/-- Where `drainOne` stands.  `left` batches may follow the one at hand. -/
inductive Drain
  | idle
  | rebuilds (left : Nat)
  /-- The rebuild operation runs, and a renewal may have found the claim lost. -/
  | rebuilding (left : Nat) (lost : Bool) (r : Rebuild)
  | rebuilt (left : Nat) (r : Rebuild)
  | polls (left : Nat)
  | begins (left : Nat)
  /-- These branches of the batch are still to be dispatched. -/
  | dispatches (left : Nat) (lost : Bool) (branches : List (Option Uuid))
  | commits (left : Nat)
  | renews (left : Nat)
  | releases

/-- Which instance drains which consumer, and the limits of a drain. -/
structure Fleet where
  /-- `hostInstanceId()` -/
  holder : Nat → String
  /-- `changeConsumerName(plugin.pluginId)` -/
  consumer : Nat → String
  batchSize : Nat := 500
  maxBatches : Nat := 40
  claimMs : Int := 60000

structure Drains where
  db : JournalDb
  drains : Nat → Drain
  rebuilt : String → List (List Nat)

inductive DrainAction
  /-- `skipped`: another transaction writes the row right now. -/
  | claim (i : Nat) (skipped : Bool)
  | renew (i : Nat) (skipped : Bool)
  | startRebuild (i : Nat)
  | endRebuild (i : Nat) (ok : Bool)
  | finishRebuild (i : Nat)
  | load (i : Nat)
  | read (i : Nat)
  | beginRebuild (i : Nat)
  | dispatch (i : Nat) (ok : Bool)
  | dispatched (i : Nat)
  | commit (i : Nat)
  | fail (i : Nat)
  | release (i : Nat)
  | crash (i : Nat)
  /-- The clock, the writers and garbage collection. -/
  | core (a : Action)

/-- The loop goes on, or ends. -/
def nextPoll : Nat → Drain
  | 0 => .releases
  | left + 1 => .polls left

def byBranch (batch : ChangeBatch) : List (Option Uuid) := (batch.changes.map (·.value.chatBranchId)).eraseDups

variable (fl : Fleet) (filter : String → JournalFilter)

def Drains.setDrain (s : Drains) (i : Nat) (d : Drain) : Drains := { s with drains := Function.update s.drains i d }

def Drains.setDb (s : Drains) (db : JournalDb) : Drains := { s with db := db }

/-- The claim or its renewal, and whether the instance holds it now. -/
def tryClaim (db : JournalDb) (i : Nat) (skipped : Bool) : JournalDb × Bool :=
  if skipped then (db, false)
  else
    let db' := claimConsumer db (fl.consumer i) (fl.holder i) fl.claimMs
    (db', (db'.consumer? (fl.consumer i)).any fun k => k.claimedBy == some (fl.holder i))

def Drains.stop (s : Drains) (i : Nat) (d : Drain) : Drains := (s.setDb (s.db.setInstance i .idle)).setDrain i d

def Action.ofCore : Action → Bool
  | .tick _ => true
  | a => a.onTables

/-- What a renewal that answered `claimed` changes for the work it keeps the claim for. -/
def Drain.renewed (claimed : Bool) : Drain → Drain
  | .rebuilding left lost r => .rebuilding left (lost || !claimed) r
  | .dispatches left lost branches => .dispatches left (lost || !claimed) branches
  | .renews left => nextPoll left
  | d => d

def drainStep (s : Drains) : DrainAction → Option Drains
  | .claim i skipped =>
    match s.drains i with
    | .idle =>
      let r := tryClaim fl (registerConsumer s.db none (fl.consumer i)) i skipped
      let s' := s.setDb r.1
      if r.2 then
        let rebuildPending := (r.1.consumer? (fl.consumer i)).any (·.rebuildPending)
        some (s'.setDrain i (if rebuildPending then .rebuilds fl.maxBatches else nextPoll fl.maxBatches))
      else some s'
    | _ => none
  | .renew i skipped =>
    let r := tryClaim fl s.db i skipped
    some ((s.setDb r.1).setDrain i ((s.drains i).renewed r.2))
  | .startRebuild i =>
    match s.drains i with
    | .rebuilds left =>
      (s.db.consumer? (fl.consumer i)).map fun k => s.setDrain i (.rebuilding left false ⟨k.since, s.db.log.done⟩)
    | _ => none
  | .endRebuild i ok =>
    match s.drains i with
    | .rebuilding left lost r =>
      if ok then
        let s' := { s with rebuilt := Function.update s.rebuilt (fl.consumer i) (r.began :: s.rebuilt (fl.consumer i)) }
        some (s'.setDrain i (if lost then .releases else .rebuilt left r))
      else some (s.setDrain i .releases)
    | _ => none
  | .finishRebuild i =>
    match s.drains i with
    | .rebuilt left _ =>
      if (s.db.consumer? (fl.consumer i)).any fun k => claimHeld k (some (fl.holder i)) s.db.clock then
        some ((s.setDb (finishConsumerRebuild s.db (fl.consumer i) (some (fl.holder i)))).setDrain i (nextPoll left))
      else some (s.setDrain i .releases)
    | _ => none
  | .load i =>
    match s.drains i with
    | .polls _ => (step filter s.db (.load i (fl.consumer i))).map s.setDb
    | _ => none
  | .read i =>
    match s.drains i with
    | .polls left =>
      (step filter s.db (.read i fl.batchSize)).bind fun db =>
        match db.instances i with
        | .polled _ batch =>
          if batch.needsRebuild then some ((s.setDb db).stop i (.begins left))
          else some ((s.setDb db).setDrain i (.dispatches left false (byBranch batch)))
        | _ => some ((s.setDb db).stop i .releases)
    | _ => none
  | .beginRebuild i =>
    match s.drains i with
    | .begins left => some ((s.setDb (beginConsumerRebuild s.db none (fl.consumer i))).setDrain i (.rebuilds left))
    | _ => none
  | .dispatch i ok =>
    match s.drains i with
    | .dispatches left lost (_ :: branches) =>
      if ok && !lost then some (s.setDrain i (.dispatches left false branches)) else some (s.stop i .releases)
    | _ => none
  | .dispatched i =>
    match s.drains i with
    | .dispatches left _ [] => (step filter s.db (.handle i)).map fun db => (s.setDb db).setDrain i (.commits left)
    | _ => none
  | .commit i =>
    match s.drains i, s.db.instances i with
    | .commits left, .handledBatch _ batch =>
      match commitChanges s.db batch (some (fl.holder i)) with
      | none => some (s.stop i .releases)
      | some db =>
        let db := db.setInstance i .idle
        -- the last batch commits and releases in one transaction
        if !batch.more || left == 0 then
          some ((s.setDb (releaseConsumer db (fl.consumer i) (fl.holder i))).setDrain i .idle)
        else some ((s.setDb db).setDrain i (.renews left))
    | _, _ => none
  | .fail i =>
    match s.drains i with
    | .idle => none
    | _ => some (s.stop i .releases)
  | .release i =>
    match s.drains i with
    | .releases => some ((s.setDb (releaseConsumer s.db (fl.consumer i) (fl.holder i))).setDrain i .idle)
    | _ => none
  | .crash i => some (s.stop i .idle)
  | .core a => if a.ofCore then (step filter s.db a).map s.setDb else none

def Drains.empty : Drains := ⟨JournalDb.empty, fun _ => .idle, fun _ => []⟩

end CaeloCms.Journal
