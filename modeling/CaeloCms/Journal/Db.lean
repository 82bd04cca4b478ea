import CaeloCms.Journal.Filter
import CaeloCms.Lib.Mvcc
import CaeloCms.Lib.Page

/-!
# The change journal: its tables and the statements on them

`JournalDb` holds the transactions, the journal (`entity_changes`), the horizons of garbage collection
(`entity_change_horizons`), the persisted consumers (`change_consumers`) and, per instance, where it stands between
the statements of a poll.  Every function is one SQL statement of the source, under its name, with what the instance
computes around it.

Two lists of a consumer are not stored by the database and only record what happened: the keys handed to completed
handlers (`handled`), and those of batches whose commit was recorded (`recorded`).  `since` is the cursor of the
registration, or of the last rebuild that was begun.
-/

namespace CaeloCms.Journal

open Mvcc

/-- `(xid, table_name, row_id)` -/
abbrev RowKey := Nat ×ₗ String ×ₗ String

def changeKey (t : Tuple Change) : RowKey := toLex (t.insertedBy, toLex (t.value.table, t.value.rowId))

/-- A row of `change_consumers`. -/
structure Consumer where
  name : String
  cursor : Snapshot
  pageTarget : Option Snapshot := none
  pageAfter : Option RowKey := none
  rebuildPending : Bool := true
  claimedBy : Option String := none
  claimExpiresAt : Option Int := none
  since : Snapshot
  handled : List RowKey := []
  recorded : List RowKey := []

structure ConsumerState where
  cursor : Snapshot
  target : Option Snapshot
  after : Option RowKey

structure Token where
  name : String
  from' : Snapshot
  cursor : Snapshot
  target : Option Snapshot
  after : Option RowKey

structure ChangeBatch where
  changes : List (Tuple Change)
  token : Token
  more : Bool
  needsRebuild : Bool

/-- Where an instance stands between the steps of a poll of the consumer `name`. -/
inductive Instance
  | idle
  | loaded (name : String) (state : ConsumerState)
  | polled (name : String) (batch : ChangeBatch)
  | handledBatch (name : String) (batch : ChangeBatch)

/-- `entity_changes` and `entity_change_horizons`, with the transactions that write them. -/
structure Tables where
  log : TxLog
  changes : List (Tuple Change)
  horizons : List (Tuple Nat)

structure JournalDb extends Tables where
  consumers : List Consumer
  clock : Int
  instances : Nat → Instance

variable (filter : String → JournalFilter)

/-! ### Reading -/

/-- What a statement of the transaction `own` sees now. -/
def Tables.view (s : Tables) (own : Option Nat) : View := ⟨s.log.snapshot own, own⟩

def Tables.visibleChanges (s : Tables) (v : View) : List (Tuple Change) := s.changes.filter (·.visibleIn v)

def Tables.visibleHorizons (s : Tables) (v : View) : List (Tuple Nat) := s.horizons.filter (·.visibleIn v)

/-- The rows the snapshot `c` has not seen: two index ranges, and the marked transaction's own rows. -/
def unseenRows (c : Snapshot) (own : Option Nat) (rows : List (Tuple Change)) : List (Tuple Change) :=
  rows.filter fun t => decide (c.xmax ≤ t.insertedBy) || decide (t.insertedBy ∈ c.xip) || decide (own = some t.insertedBy)

/-- `EXISTS (… WHERE h.horizon >= pg_snapshot_xmin(c.s))` -/
def Tables.lost (s : Tables) (v : View) (c : Snapshot) : Bool :=
  (s.visibleHorizons v).any fun h => decide (c.xmin ≤ h.value)

def JournalDb.consumer? (s : JournalDb) (name : String) : Option Consumer := s.consumers.find? fun k => k.name == name

def loadConsumer (s : JournalDb) (name : String) : Option ConsumerState :=
  (s.consumer? name).map fun k => ⟨k.cursor, k.pageTarget, k.pageAfter⟩

/-- The rows between `cursor` and `target`, after `after`, that the filter matches. -/
def pageRows (rows : List (Tuple Change)) (cursor target : Snapshot) (after : Option RowKey) (f : JournalFilter) :
    List (Tuple Change) :=
  (unseenRows cursor none rows).filter fun t =>
    !cursor.visible t.insertedBy && target.visible t.insertedBy &&
      (after.map fun a => decide (a < changeKey t)).getD true && f.filterSql t.value

structure ReadResult where
  changes : List (Tuple Change)
  target : Snapshot
  needsRebuild : Bool
  more : Bool

def readChanges (s : Tables) (state : ConsumerState) (f : JournalFilter) (limit : Nat) : ReadResult :=
  let v := s.view none
  let target := state.target.getD v.snap
  if s.lost v state.cursor then ⟨[], target, true, false⟩
  else
    let page := Page.page changeKey limit (pageRows (s.visibleChanges v) state.cursor target state.after f)
    ⟨page.1, target, false, page.2⟩

/-- What `pollChanges` returns for what it loaded and read. -/
def pollChanges (name : String) (state : ConsumerState) (read : ReadResult) : ChangeBatch :=
  { changes := read.changes
    token :=
      if read.more then
        ⟨name, state.cursor, state.cursor, some read.target, (read.changes.getLast?.map changeKey).or state.after⟩
      else ⟨name, state.cursor, read.target, none, none⟩
    more := read.more
    needsRebuild := read.needsRebuild }

/-! ### Consumers -/

def JournalDb.setConsumer (s : JournalDb) (name : String) (f : Consumer → Consumer) : JournalDb :=
  { s with consumers := s.consumers.map fun k => if k.name = name then f k else k }

def JournalDb.setInstance (s : JournalDb) (i : Nat) (st : Instance) : JournalDb :=
  { s with instances := Function.update s.instances i st }

/-- `INSERT … ON CONFLICT (name) DO NOTHING`, with the cursor at "now". -/
def registerConsumer (s : JournalDb) (own : Option Nat) (name : String) : JournalDb :=
  if (s.consumer? name).isSome then s
  else
    { s with consumers := s.consumers ++
        [{ name := name, cursor := s.log.snapshot own, since := s.log.snapshot own }] }

/-- The cursor moves to "now" before the rebuild reads its source. -/
def beginConsumerRebuild (s : JournalDb) (own : Option Nat) (name : String) : JournalDb :=
  s.setConsumer name fun k =>
    { k with cursor := s.log.snapshot own, pageTarget := none, pageAfter := none, rebuildPending := true
             since := s.log.snapshot own }

/-- `claimed_by = holder AND claim_expires_at >= now()`; no fence without a holder. -/
def claimHeld (k : Consumer) (holder : Option String) (now : Int) : Bool :=
  match holder with
  | none => true
  | some h => k.claimedBy == some h && (k.claimExpiresAt.map fun e => decide (now ≤ e)).getD false

def finishConsumerRebuild (s : JournalDb) (name : String) (holder : Option String) : JournalDb :=
  s.setConsumer name fun k => if claimHeld k holder s.clock then { k with rebuildPending := false } else k

def claimConsumer (s : JournalDb) (name holder : String) (leaseMs : Int) : JournalDb :=
  s.setConsumer name fun k =>
    if k.claimedBy.isNone || k.claimedBy == some holder || (k.claimExpiresAt.map fun e => decide (e < s.clock)).getD false
    then { k with claimedBy := some holder, claimExpiresAt := some (s.clock + leaseMs) } else k

def releaseConsumer (s : JournalDb) (name holder : String) : JournalDb :=
  s.setConsumer name fun k =>
    if k.claimedBy == some holder then { k with claimedBy := none, claimExpiresAt := none } else k

/-- The `WHERE` of a commit. -/
def commitMatches (k : Consumer) (token : Token) (holder : Option String) (now : Int) : Bool :=
  k.name == token.name && decide (k.cursor = token.from') && claimHeld k holder now

/-- `none`: the commit throws, because the cursor moved or the claim lapsed. -/
def commitChanges (s : JournalDb) (batch : ChangeBatch) (holder : Option String) : Option JournalDb :=
  if s.consumers.any fun k => commitMatches k batch.token holder s.clock then
    some (s.setConsumer batch.token.name fun k =>
      if commitMatches k batch.token holder s.clock then
        { k with cursor := batch.token.cursor, pageTarget := batch.token.target, pageAfter := batch.token.after
                 recorded := k.recorded ++ batch.changes.map changeKey }
      else k)
  else none

/-! ### Garbage collection -/

/-- The consumer's first undelivered row (lowest xid) is older than the stall window. -/
def stalled (rows : List (Tuple Change)) (now stalledMs : Int) (k : Consumer) : Bool :=
  match Page.ordered Tuple.insertedBy (rows.filter fun t =>
      decide (k.cursor.xmin ≤ t.insertedBy) && !k.cursor.visible t.insertedBy) with
  | [] => false
  | oldest :: _ => decide (oldest.value.createdAt < now - stalledMs)

/-- The lowest cursor xmin of every consumer that is not stalled. -/
def held (s : JournalDb) (v : View) (now stalledMs : Int) : Option Nat :=
  ((s.consumers.filter fun k => !stalled (s.visibleChanges v) now stalledMs k).map (·.cursor.xmin)).min?

/-- The rows a pass of `collectJournalGarbage` deletes; a row another pass has locked is skipped. -/
def victims (s : JournalDb) (x : Nat) (now retentionMs stalledMs : Int) (batch : Nat) : List (Tuple Change) :=
  let v := s.view (some x)
  (Page.ordered Tuple.insertedBy ((s.visibleChanges v).filter fun t =>
    decide (t.value.createdAt < now - retentionMs) && decide (t.insertedBy < v.snap.xmin) &&
      ((held s v now stalledMs).map fun h => decide (t.insertedBy < h)).getD true && t.deletedBy.isNone)).take batch

def recordHorizon (x newest : Nat) (horizons : List (Tuple Nat)) : List (Tuple Nat) :=
  if horizons.any fun h => decide (h.insertedBy = x) && h.deletedBy.isNone then
    horizons.map fun h =>
      if h.insertedBy = x ∧ h.deletedBy = none then { h with value := max h.value newest } else h
  else horizons ++ [{ insertedBy := x, value := newest }]

/-- The first statement of `collectJournalGarbage` in the transaction `x`, for the rows `removed`. -/
def Tables.delete (s : Tables) (x : Nat) (removed : List (Tuple Change)) : Tables :=
  { s with
    changes := s.changes.map fun t => if t ∈ removed then { t with deletedBy := some x } else t
    horizons :=
      match (removed.map (·.insertedBy)).max? with
      | none => s.horizons
      | some newest => recordHorizon x newest s.horizons }

/-- The second statement: only the newest horizon decides anything.  `none`: it waits for another pass that is
deleting one of the rows. -/
def deleteOldHorizons (s : Tables) (x : Nat) : Option Tables :=
  let visible := s.visibleHorizons (s.view (some x))
  match (visible.map (·.value)).max? with
  | none => some s
  | some newest =>
    if visible.any fun h => decide (h.value < newest) && h.deletedBy.isSome then none
    else some { s with horizons := s.horizons.map fun h =>
      if h ∈ visible ∧ h.value < newest then { h with deletedBy := some x } else h }

/-! ### Marks -/

structure JournalMark where
  snapshot : Snapshot
  ownXid : Option Nat
  dirty : Bool

structure JournalCheck where
  fresh : Bool
  mark : JournalMark

/-- One statement of a reader with the view `r`: prove `cached` still fresh, and take the mark of a read that starts
now. -/
def checkJournalMark (s : Tables) (r : View) (cached : Option (Snapshot × Option Nat)) (f : JournalFilter) :
    JournalCheck :=
  let rows := s.visibleChanges r
  { fresh :=
      match cached with
      | none => false
      | some (c, own) =>
        decide (c.xmax ≤ r.snap.xmax) &&
        !(r.snap.xip.any fun x => decide (x < c.xmax) && c.visible x) &&
        !((unseenRows c own rows).any fun t =>
          (!c.visible t.insertedBy || decide (own = some t.insertedBy)) && f.filterSql t.value) &&
        !s.lost r c
    mark :=
      { snapshot := r.snap
        ownXid := r.own
        dirty := rows.any fun t => decide (r.own = some t.insertedBy) && f.filterSql t.value } }

/-! ### Steps -/

/-- `INSERT … ON CONFLICT DO UPDATE` of the journal trigger, in the transaction `x`. -/
def writeChange (x : Nat) (c : Change) (rows : List (Tuple Change)) : List (Tuple Change) :=
  if rows.any fun t => decide (changeKey t = changeKey ⟨x, none, c⟩) then
    rows.map fun t => if changeKey t = changeKey ⟨x, none, c⟩ then { t with value := t.value.merge c } else t
  else rows ++ [⟨x, none, c⟩]

inductive Action
  | tick (ms : Int)
  /-- A transaction gets its id. -/
  | start
  | write (x : Nat) (c : Change)
  | commit (x : Nat)
  | abort (x : Nat)
  | register (own : Option Nat) (name : String)
  | claim (name holder : String) (leaseMs : Int)
  | release (name holder : String)
  /-- The two statements of a poll, its handler, its commit; a crash anywhere between. -/
  | load (i : Nat) (name : String)
  | read (i : Nat) (limit : Nat)
  | handle (i : Nat)
  | commitBatch (i : Nat) (holder : Option String)
  | crash (i : Nat)
  | beginRebuild (own : Option Nat) (name : String)
  | finishRebuild (name : String) (holder : Option String)
  /-- The two statements of `collectJournalGarbage` in the transaction `x`. -/
  | deleteVictims (x : Nat) (now retentionMs stalledMs : Int) (batch : Nat)
  | deleteOldHorizons (x : Nat)

/-- One step; `none` where it is not enabled. -/
def step (s : JournalDb) : Action → Option JournalDb
  | .tick ms => some { s with clock := s.clock + ms }
  | .start => some { s with log := s.log.start }
  | .write x c => if x ∈ s.log.active then some { s with changes := writeChange x c s.changes } else none
  | .commit x => if hx : x ∈ s.log.active then some { s with log := s.log.finish x hx } else none
  | .abort x =>
    if hx : x ∈ s.log.active then
      some { s with log := s.log.finish x hx, changes := abortTuples x s.changes, horizons := abortTuples x s.horizons }
    else none
  | .register own name => some (registerConsumer s own name)
  | .claim name holder leaseMs => some (claimConsumer s name holder leaseMs)
  | .release name holder => some (releaseConsumer s name holder)
  | .load i name =>
    match s.instances i with
    | .idle => (loadConsumer s name).map fun state => s.setInstance i (.loaded name state)
    | _ => none
  | .read i limit =>
    match s.instances i with
    | .loaded name state =>
      -- the limit must be 1..5000, else readChanges throws
      if limit = 0 ∨ 5000 < limit then some (s.setInstance i .idle)
      else some (s.setInstance i (.polled name (pollChanges name state (readChanges s.toTables state (filter name) limit))))
    | _ => none
  | .handle i =>
    match s.instances i with
    | .polled name batch =>
      -- a consumer that lost rows rebuilds instead
      if batch.needsRebuild then some (s.setInstance i .idle)
      else some ((s.setConsumer name fun k => { k with handled := k.handled ++ batch.changes.map changeKey }).setInstance i
        (.handledBatch name batch))
    | _ => none
  | .commitBatch i holder =>
    match s.instances i with
    | .handledBatch _ batch => some (((commitChanges s batch holder).getD s).setInstance i .idle)
    | _ => none
  | .crash i => some (s.setInstance i .idle)
  | .beginRebuild own name => some (beginConsumerRebuild s own name)
  | .finishRebuild name holder => some (finishConsumerRebuild s name holder)
  | .deleteVictims x now retentionMs stalledMs batch =>
    if x ∈ s.log.active then
      some { s with toTables := s.toTables.delete x (victims s x now retentionMs stalledMs batch) }
    else none
  | .deleteOldHorizons x =>
    if x ∈ s.log.active then (deleteOldHorizons s.toTables x).map fun t => { s with toTables := t } else none

def JournalDb.empty : JournalDb :=
  { log := TxLog.initial, changes := [], horizons := [], consumers := [], clock := 0, instances := fun _ => .idle }

/-- `s'` is reached from `s` by any interleaving of steps. -/
inductive Reaches : JournalDb → JournalDb → Prop
  | refl (s : JournalDb) : Reaches s s
  | step {s t u : JournalDb} {a : Action} (h : Reaches s t) (hu : step filter t a = some u) : Reaches s u

def Reachable (s : JournalDb) : Prop := Reaches filter JournalDb.empty s

def run (s : JournalDb) : List Action → Option JournalDb
  | [] => some s
  | a :: as => (step filter s a).bind fun s' => run s' as

end CaeloCms.Journal
