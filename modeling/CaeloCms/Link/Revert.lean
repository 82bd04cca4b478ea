import CaeloCms.Lib.InsertionMap
import CaeloCms.Lib.OrderedSet
import CaeloCms.Link.Asking

/-!
# Reverting a link migration

`migrate-revert.ts`, with the writes of `migrate.ts` it uses.  A run is the list of its changes, each with what a part
held before and after.  The revert runs in one transaction: a thrown error writes nothing.  A chat's work is the
latest pending state of an entity on its branch, with the task that owns it; a row that was deleted, or a state that is
no longer pending, is absent.
-/

namespace CaeloCms.Link.Migration

open Asking (sameStableJson)

structure ModulePart where
  html : String
  fields : Json

structure PluginRowRef where
  pluginId : String
  schema : String
  table : String
  rowId : String
deriving DecidableEq, Repr

/-- `LinkMigrationChange`; `removed` is of a kind whose table is gone. -/
inductive Change
  | module (entityId : String) (branchId : Option String) (before after : ModulePart)
  | contentInstance (entityId : String) (branchId : Option String) (before after : Json)
  | layout (entityId : String) (before after : String)
  | pluginRow (ref : PluginRowRef) (branchId : Option String) (column : String) (before after : Json)
  | removed (entityKind entityId : String) (branchId : Option String) (before after : Json)

structure RevertConflict where
  entityKind : String
  entityId : String
  branchId : Option String
  reason : String
deriving DecidableEq, Repr

structure RevertOutcome where
  restored : Nat
  conflicts : List RevertConflict
  siteSnapshotId : Option Nat
deriving DecidableEq, Repr

/-! ### The database -/

structure ModuleState where
  html : String
  fields : Json
  others : Json

structure ContentInstanceState where
  values : Json
  version : Nat
  others : Json

structure PluginRowState where
  values : List (String × Json)
  deletedAt : Option String
  version : Nat

structure BranchState (σ : Type) where
  state : σ
  chatTaskId : Option String

structure RowKey where
  branchId : String
  pluginId : String
  table : String
  rowId : String
deriving DecidableEq, Repr

structure Site where
  modules : String → Option ModuleState
  instances : String → Option ContentInstanceState
  layouts : String → Option String
  pluginRows : PluginRowRef → Option PluginRowState
  branchModules : String × String → Option (BranchState ModuleState)
  branchInstances : String × String → Option (BranchState ContentInstanceState)
  branchRows : RowKey → Option (BranchState PluginRowState)
  /-- How the chat that owns a task was closed. -/
  closed : String → Option String
  snapshots : Nat

/-! ### Snapshots -/

inductive SnapshotEntity
  | module (entityId : String) (state : ModuleState)
  | contentInstance (entityId : String) (state : ContentInstanceState)

/-- What is added to a batch: an entity, the row of a plugin, or a write without an entity. -/
inductive Addition
  | entity (e : SnapshotEntity)
  | pluginRow (ref : PluginRowRef) (state : PluginRowState)
  | touched

structure Added where
  branchId : Option String
  task : Option String
  what : Addition

/-- The `ScopeBatch` of each scope, in the order they were made, and what was added to them. -/
structure Batches where
  scopes : List (Option String)
  added : List Added

def Batches.batchFor (bs : Batches) (branchId : Option String) : Batches :=
  { bs with scopes := OrderedSet.add bs.scopes branchId }

def Batches.add (bs : Batches) (branchId task : Option String) (what : Addition) : Batches :=
  { bs.batchFor branchId with added := bs.added ++ [⟨branchId, task, what⟩] }

def Addition.isEntity : Addition → Bool
  | .entity _ => true
  | _ => false

def Addition.isPluginRow : Addition → Bool
  | .pluginRow _ _ => true
  | _ => false

def Batches.tasks (bs : Batches) (branchId : Option String) : List (Option String) :=
  let own := bs.added.filter fun a => a.branchId = branchId
  let tasks := OrderedSet.addAll (OrderedSet.addAll [] ((own.filter (·.what.isEntity)).map (·.task)))
    ((own.filter (·.what.isPluginRow)).map (·.task))
  if tasks = [] ∧ own ≠ [] then [none] else tasks

/-- Records a state on the branch; a main-line snapshot changes nothing that is read here. -/
def Site.record (s : Site) (a : Added) : Site :=
  match a.branchId, a.what with
  | some b, .entity (.module id state) =>
    { s with branchModules := Function.update s.branchModules (b, id) (some ⟨state, a.task⟩) }
  | some b, .entity (.contentInstance id state) =>
    { s with branchInstances := Function.update s.branchInstances (b, id) (some ⟨state, a.task⟩) }
  | some b, .pluginRow ref state =>
    { s with branchRows :=
      Function.update s.branchRows ⟨b, ref.pluginId, ref.table, ref.rowId⟩ (some ⟨state, a.task⟩) }
  | _, _ => s

def closedMessage (how : String) : String :=
  s!"this chat was {how}, so the change was not saved. Continue in an open chat: reload Live Edit (or pick or start a chat in the chat list) and make the change there."

/-- `emitSnapshot`, with the plugin rows of the task after its entities. -/
def emitSnapshot (added : List Added) (s : Site) (branchId task : Option String) : Except String Site :=
  match task.bind s.closed with
  | some how => .error (closedMessage how)
  | none =>
    let own := added.filter fun a => a.branchId = branchId ∧ a.task = task
    let recorded := (own.filter (·.what.isEntity) ++ own.filter (·.what.isPluginRow)).foldl Site.record s
    .ok { recorded with snapshots := s.snapshots + 1 }

def Batches.headers (bs : Batches) : List (Option String × Option String) :=
  bs.scopes.flatMap fun b => (bs.tasks b).map fun task => (b, task)

/-- `batch.emit` of every batch that is not empty; the first snapshot of the main line is the one that is named. -/
def Batches.emit (bs : Batches) (s : Site) : Except String (Site × Option Nat) :=
  bs.headers.foldlM (fun r header =>
    (emitSnapshot bs.added r.1 header.1 header.2).map fun s' =>
      (s', if header.1 = none then r.2.or (some r.1.snapshots) else r.2)) (s, none)

/-! ### Checks -/

def ModulePart.json (m : ModulePart) : Json := .obj [("html", .str m.html), ("fields", m.fields)]

/-- `values[column] ?? null` -/
def PluginRowState.column (row : PluginRowState) (column : String) : Json :=
  (InsertionMap.get row.values column).getD .null

def PluginRowState.withColumn (row : PluginRowState) (column : String) (value : Json) : PluginRowState :=
  { row with values := InsertionMap.set row.values column value }

def edited : String := "edited after the migration — restoring it would discard that edit"
def gone : String := "no longer pending on that chat (staged or undone since)"
def deleted : String := "deleted since the migration"
def removedKind : String := "this kind of content no longer exists (removed by migration 0354)"

/-- What `apply` writes. -/
inductive Plan
  | module (entityId : String) (before : ModulePart)
  | contentInstance (entityId : String) (before : Json)
  | layout (entityId before : String)
  | pluginColumn (ref : PluginRowRef) (column : String) (before : Json)
  | branchModule (branchId entityId : String) (task : Option String) (state : ModuleState)
  | branchInstance (branchId entityId : String) (task : Option String) (state : ContentInstanceState)

/-- A row's part that is to be restored: what is checked is compared by its stable JSON. -/
def planned {α : Type} (row : Option α) (absent : String) (holds : α → Bool) (plan : α → Plan) : Except String Plan :=
  match row with
  | none => .error absent
  | some r => if holds r then .ok (plan r) else .error edited

/-- `planMain` and `planBranch`; the error is the reason of the conflict.  The columns of a branch's plugin row are
planned together (`Progress.foldColumn`). -/
def planChange (s : Site) : Change → Except String Plan
  | .module id none before after =>
    planned (s.modules id) deleted (fun r => sameStableJson (ModulePart.json ⟨r.html, r.fields⟩) after.json)
      fun _ => .module id before
  | .module id (some b) before after =>
    planned (s.branchModules (b, id)) gone
      (fun r => sameStableJson (ModulePart.json ⟨r.state.html, r.state.fields⟩) after.json)
      fun r => .branchModule b id r.chatTaskId { r.state with html := before.html, fields := before.fields }
  | .contentInstance id none before after =>
    planned (s.instances id) deleted (fun r => sameStableJson r.values after) fun _ => .contentInstance id before
  | .contentInstance id (some b) before after =>
    planned (s.branchInstances (b, id)) gone (fun r => sameStableJson r.state.values after)
      fun r => .branchInstance b id r.chatTaskId { r.state with values := before }
  | .layout id before after => planned (s.layouts id) deleted (fun html => html == after) fun _ => .layout id before
  | .pluginRow ref _ column before after =>
    planned (s.pluginRows ref) deleted (fun r => sameStableJson (r.column column) after)
      fun _ => .pluginColumn ref column before
  | .removed _ _ _ _ _ => .error removedKind

/-! ### Planning -/

/-- A plugin row of a branch, with the columns that are restored. -/
structure Entry where
  ref : PluginRowRef
  branchId : String
  state : PluginRowState
  task : Option String
  touched : Bool

structure Progress where
  conflicts : List RevertConflict
  plans : List Plan
  batches : Batches
  branchRows : List (RowKey × Entry)

def Progress.start : Progress := ⟨[], [], ⟨[], []⟩, []⟩

def Change.conflict (c : Change) (reason : String) : RevertConflict :=
  match c with
  | .module id b _ _ => ⟨"module", id, b, reason⟩
  | .contentInstance id b _ _ => ⟨"contentInstance", id, b, reason⟩
  | .layout id _ _ => ⟨"layout", id, none, reason⟩
  | .pluginRow ref b _ _ _ => ⟨"pluginRow", ref.rowId, b, reason⟩
  | .removed kind id b _ _ => ⟨kind, id, b, reason⟩

def Progress.addConflict (p : Progress) (c : Change) (reason : String) : Progress :=
  { p with conflicts := p.conflicts ++ [c.conflict reason] }

def Progress.entry (s : Site) (p : Progress) (key : RowKey) (ref : PluginRowRef) : Option Entry :=
  match InsertionMap.get p.branchRows key with
  | some entry => some entry
  | none => (s.branchRows key).map fun r => ⟨ref, key.branchId, r.state, r.chatTaskId, false⟩

def Progress.foldColumn (s : Site) (p : Progress) (c : Change) (ref : PluginRowRef) (branchId column : String)
    (before after : Json) : Progress :=
  let key : RowKey := ⟨branchId, ref.pluginId, ref.table, ref.rowId⟩
  match p.entry s key ref with
  | none => p.addConflict c gone
  | some entry =>
    if sameStableJson (entry.state.column column) after then
      let entry := { entry with state := entry.state.withColumn column before, touched := true }
      { p with branchRows := InsertionMap.set p.branchRows key entry }
    else Progress.addConflict { p with branchRows := InsertionMap.set p.branchRows key entry } c edited

def Progress.plan (p : Progress) (c : Change) (branchId : Option String) (planned : Except String Plan) : Progress :=
  let p := { p with batches := p.batches.batchFor branchId }
  match planned with
  | .ok plan => { p with plans := p.plans ++ [plan] }
  | .error reason => p.addConflict c reason

def Progress.next (s : Site) (p : Progress) (c : Change) : Progress :=
  match c with
  | .removed _ _ _ _ _ => p.addConflict c removedKind
  | .module _ b _ _ => p.plan c b (planChange s c)
  | .contentInstance _ b _ _ => p.plan c b (planChange s c)
  | .layout _ _ _ => p.plan c none (planChange s c)
  | .pluginRow _ none _ _ _ => p.plan c none (planChange s c)
  | .pluginRow ref (some b) column before after => p.foldColumn s c ref b column before after

/-! ### Applying -/

def written {α : Type} (row : Option α) (what id : String) : Except String α :=
  match row with
  | none => .error s!"link migration: {what} {id} vanished mid-write"
  | some r => .ok r

def Plan.apply (r : Site × Batches) : Plan → Except String (Site × Batches)
  | .module id before =>
    (written (r.1.modules id) "module" id).map fun m =>
      let state := { m with html := before.html, fields := before.fields }
      ({ r.1 with modules := Function.update r.1.modules id (some state) },
        r.2.add none none (.entity (.module id state)))
  | .contentInstance id before =>
    (written (r.1.instances id) "content instance" id).map fun m =>
      let state := { m with values := before, version := m.version + 1 }
      ({ r.1 with instances := Function.update r.1.instances id (some state) },
        r.2.add none none (.entity (.contentInstance id state)))
  | .layout id before =>
    .ok ({ r.1 with layouts := Function.update r.1.layouts id ((r.1.layouts id).map fun _ => before) },
      r.2.add none none .touched)
  | .pluginColumn ref column before =>
    (written (r.1.pluginRows ref) s!"{ref.schema}.{ref.table}" ref.rowId).map fun row =>
      let state := { row.withColumn column before with version := row.version + 1 }
      ({ r.1 with pluginRows := Function.update r.1.pluginRows ref (some state) },
        r.2.add none none (.pluginRow ref state))
  | .branchModule b id task state => .ok (r.1, r.2.add (some b) task (.entity (.module id state)))
  | .branchInstance b id task state => .ok (r.1, r.2.add (some b) task (.entity (.contentInstance id state)))

def revertLinkMigration (s : Site) (changes : List Change) (skipConflicts : Bool) :
    Except String (Site × RevertOutcome) :=
  let progress := changes.reverse.foldl (Progress.next s) .start
  if progress.conflicts ≠ [] ∧ skipConflicts = false then .ok (s, ⟨0, progress.conflicts, none⟩)
  else do
    let applied ← progress.plans.foldlM Plan.apply (s, progress.batches)
    let touchedRows := (progress.branchRows.map (·.2)).filter (·.touched)
    let batches := touchedRows.foldl (fun bs e => bs.add (some e.branchId) e.task (.pluginRow e.ref e.state)) applied.2
    let emitted ← batches.emit applied.1
    return (emitted.1, ⟨progress.plans.length + touchedRows.length, progress.conflicts, emitted.2⟩)

end CaeloCms.Link.Migration
