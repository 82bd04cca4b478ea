import Mathlib

/-!
# Journal rows and the filters of their readers

The columns of `entity_changes` (its `xid` is the transaction that inserted the row and is kept by the table), how a
second statement of a transaction merges into its row, and which rows a `JournalFilter` matches (`filterSql`).  A
comparison with a NULL column is not true, and nothing negates one, so it is modelled as false.
-/

namespace CaeloCms.Journal

abbrev Uuid := String

inductive Op
  | insert | update | delete | truncate
deriving DecidableEq, Repr

structure Change where
  table : String
  rowId : String
  kind : String
  op : Op
  /-- `none` = every column. -/
  changedColumns : Option (List String) := none
  parentId : Option String := none
  pluginId : Option Uuid := none
  chatBranchId : Option Uuid := none
  ownerChatSessionId : Option Uuid := none
  siteSnapshotId : Option Uuid := none
  prevSnapshotId : Option Uuid := none
  opName : Option String := none
  createdAt : Int := 0
deriving DecidableEq, Repr

/-- `ON CONFLICT (xid, table_name, row_id) DO UPDATE`: a later statement of the same transaction on the same row.
(The sorting of the united columns is left out.) -/
def Change.merge (ec excluded : Change) : Change :=
  { ec with
    op := if ec.op = .truncate ∨ excluded.op = .truncate then .truncate
      else if ec.op = .delete ∨ excluded.op = .delete then .delete else ec.op
    changedColumns :=
      match ec.changedColumns, excluded.changedColumns with
      | some a, some b => some (a ++ b.filter fun c => decide (c ∉ a))
      | _, _ => none
    siteSnapshotId := excluded.siteSnapshotId.or ec.siteSnapshotId
    prevSnapshotId := ec.prevSnapshotId.or excluded.prevSnapshotId
    chatBranchId := excluded.chatBranchId.or ec.chatBranchId
    ownerChatSessionId := excluded.ownerChatSessionId.or ec.ownerChatSessionId
    opName := ec.opName.or excluded.opName }

/-- Which journal rows a reader cares about. -/
structure JournalFilter where
  kinds : List String
  /-- `some none`: only rows of main. -/
  branchId : Option (Option Uuid) := none
  unscopedKinds : List String := []
  unscopedOps : List Op := []
  kindOps : List (String × List Op) := []
  columns : List (String × List String) := []
  pluginIds : Option (List Uuid) := none
  pluginTables : Option (List String) := none
  branchOnlyKinds : List String := []

/-- `filter.branchId`, where it names a branch. -/
def JournalFilter.branch? (f : JournalFilter) : Option Uuid := f.branchId.join

/-- The operations that count for a kind; four of them are every operation, and the query does not test for any. -/
def JournalFilter.countsOp (f : JournalFilter) (kind : String) (op : Op) : Bool :=
  match f.kindOps.lookup kind with
  | none => true
  | some ops => ops.length == 4 || ops.contains op

def JournalFilter.kindOpsSql (f : JournalFilter) (c : Change) : Bool :=
  f.kinds.any fun kind =>
    !(f.branchOnlyKinds.contains kind && f.branch?.isNone) && c.kind == kind && f.countsOp kind c.op

def splitPart2 (tableName : String) : String := String.ofList ((tableName.toList.splitOn '.').getD 1 [])

def JournalFilter.filterSql (f : JournalFilter) (c : Change) : Bool :=
  f.kindOpsSql c &&
  (match f.branch? with
    | some b => !f.branchOnlyKinds.contains c.kind || c.chatBranchId == some b || f.unscopedOps.contains c.op
    | none => true) &&
  (match f.branchId with
    | none => true
    | some branch =>
      f.unscopedKinds.contains c.kind || f.unscopedOps.contains c.op || c.chatBranchId.isNone ||
        (branch.isSome && c.chatBranchId == branch)) &&
  f.columns.all (fun p => c.kind != p.1 || c.op != .update ||
    (c.changedColumns.map fun cols => cols.any p.2.contains).getD true) &&
  (match f.pluginIds with
    | none => true
    | some ids => !(["plugin_storage", "plugin_row", "plugin_file"].contains c.kind) ||
        (c.pluginId.map ids.contains).getD false) &&
  (match f.pluginTables with
    | none => true
    | some tables => !(["plugin_storage", "plugin_row"].contains c.kind) ||
        (if c.kind = "plugin_row" then (c.parentId.map tables.contains).getD false
          else tables.contains (splitPart2 c.table)))

end CaeloCms.Journal
