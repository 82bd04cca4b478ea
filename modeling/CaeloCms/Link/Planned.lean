import CaeloCms.Link.Revert

/-!
# What a revert plans

A change is about one part of the site.  A part is checked against the state before the revert, except for the columns
of a branch's plugin row, which are folded.  `next_adds` says what a round of the loop adds to its progress.
-/

namespace CaeloCms.Link.Migration

open Asking (sameStableJson sameText)

/-! ### Parts -/

/-- What a change is about. -/
inductive Part
  | module (branchId : Option String) (id : String)
  | contentInstance (branchId : Option String) (id : String)
  | layout (id : String)
  | mainColumn (ref : PluginRowRef) (column : String)
  | branchColumn (key : RowKey) (column : String)
  | removed (kind id : String) (branchId : Option String)
deriving DecidableEq

inductive PartValue
  | module (m : ModulePart)
  | values (v : Json)
  | html (s : String)
  | column (v : Json)

/-- Equal in their stable JSON. -/
def PartValue.same : PartValue → PartValue → Bool
  | .module m, .module n => sameStableJson m.json n.json
  | .values v, .values w => sameStableJson v w
  | .html s, .html t => s == t
  | .column v, .column w => sameStableJson v w
  | _, _ => false

def Change.part : Change → Part
  | .module id b _ _ => .module b id
  | .contentInstance id b _ _ => .contentInstance b id
  | .layout id _ _ => .layout id
  | .pluginRow ref none column _ _ => .mainColumn ref column
  | .pluginRow ref (some b) column _ _ => .branchColumn ⟨b, ref.pluginId, ref.table, ref.rowId⟩ column
  | .removed kind id b _ _ => .removed kind id b

def Change.before : Change → PartValue
  | .module _ _ before _ => .module before
  | .contentInstance _ _ before _ => .values before
  | .layout _ before _ => .html before
  | .pluginRow _ _ _ before _ => .column before
  | .removed _ _ _ before _ => .values before

def Change.after : Change → PartValue
  | .module _ _ _ after => .module after
  | .contentInstance _ _ _ after => .values after
  | .layout _ _ after => .html after
  | .pluginRow _ _ _ _ after => .column after
  | .removed _ _ _ _ after => .values after

def ModuleState.part (m : ModuleState) : PartValue := .module ⟨m.html, m.fields⟩

/-- What a part holds, where it is still there. -/
def Site.value (s : Site) : Part → Option PartValue
  | .module none id => (s.modules id).map ModuleState.part
  | .module (some b) id => (s.branchModules (b, id)).map fun r => r.state.part
  | .contentInstance none id => (s.instances id).map fun r => .values r.values
  | .contentInstance (some b) id => (s.branchInstances (b, id)).map fun r => .values r.state.values
  | .layout id => (s.layouts id).map .html
  | .mainColumn ref column => (s.pluginRows ref).map fun r => .column (r.column column)
  | .branchColumn key column => (s.branchRows key).map fun r => .column (r.state.column column)
  | .removed _ _ _ => none

def Site.owner (s : Site) : Part → Option String
  | .module (some b) id => (s.branchModules (b, id)).bind (·.chatTaskId)
  | .contentInstance (some b) id => (s.branchInstances (b, id)).bind (·.chatTaskId)
  | .branchColumn key _ => (s.branchRows key).bind (·.chatTaskId)
  | _ => none

def holdsAfter (now : Option PartValue) (after : PartValue) : Bool := now.any fun v => v.same after

/-! ### Plans -/

def Plan.part : Plan → Part
  | .module id _ => .module none id
  | .contentInstance id _ => .contentInstance none id
  | .layout id _ => .layout id
  | .pluginColumn ref column _ => .mainColumn ref column
  | .branchModule b id _ _ => .module (some b) id
  | .branchInstance b id _ _ => .contentInstance (some b) id

def Plan.value : Plan → PartValue
  | .module _ before => .module before
  | .contentInstance _ before => .values before
  | .layout _ before => .html before
  | .pluginColumn _ _ before => .column before
  | .branchModule _ _ _ state => state.part
  | .branchInstance _ _ _ state => .values state.values

def Plan.task : Plan → Option String
  | .branchModule _ _ task _ => task
  | .branchInstance _ _ task _ => task
  | _ => none

def Change.isBranchColumn : Change → Bool
  | .pluginRow _ (some _) _ _ _ => true
  | _ => false

theorem planned_cases {α : Type} (row : Option α) (absent : String) {holds : α → Bool} {plan : α → Plan}
    {read : α → PartValue} {after before : PartValue} {p : Part} {task : Option String}
    (hholds : ∀ r, holds r = (read r).same after)
    (hplan : ∀ r, row = some r → (plan r).part = p ∧ (plan r).value = before ∧ (plan r).task = task) :
    (∃ π, planned row absent holds plan = .ok π ∧ holdsAfter (row.map read) after = true ∧ π.part = p ∧
        π.value = before ∧ π.task = task) ∨
      (holdsAfter (row.map read) after = false ∧ ∃ reason, planned row absent holds plan = .error reason) := by
  cases row with
  | none => exact Or.inr ⟨rfl, absent, rfl⟩
  | some r =>
    have hread : holdsAfter ((some r).map read) after = holds r := (hholds r).symm
    cases h : holds r with
    | true => exact Or.inl ⟨plan r, by rw [planned, h, if_pos rfl], hread.trans h, hplan r rfl⟩
    | false => exact Or.inr ⟨hread.trans h, edited, by rw [planned, h, if_neg (by decide)]⟩

variable {p q : Progress} {s : Site} {key : RowKey} {e : Entry} {c : Change} {ref : PluginRowRef}

/-- What a change plans, or that its part does not hold what it wrote. -/
theorem planChange_cases (s : Site) (hc : c.isBranchColumn = false) :
    (∃ plan, planChange s c = .ok plan ∧ holdsAfter (s.value c.part) c.after = true ∧ plan.part = c.part ∧
        plan.value = c.before ∧ plan.task = s.owner c.part) ∨
      (holdsAfter (s.value c.part) c.after = false ∧ ∃ reason, planChange s c = .error reason) := by
  cases c with
  | module id b before after =>
    cases b with
    | none => exact planned_cases _ _ (fun _ => rfl) fun _ _ => ⟨rfl, rfl, rfl⟩
    | some b =>
      refine planned_cases _ _ (fun _ => rfl) fun r hr => ⟨rfl, rfl, ?_⟩
      simp [Change.part, Site.owner, hr, Plan.task]
  | contentInstance id b before after =>
    cases b with
    | none => exact planned_cases _ _ (fun _ => rfl) fun _ _ => ⟨rfl, rfl, rfl⟩
    | some b =>
      refine planned_cases _ _ (fun _ => rfl) fun r hr => ⟨rfl, rfl, ?_⟩
      simp [Change.part, Site.owner, hr, Plan.task]
  | layout id before after => exact planned_cases _ _ (fun _ => rfl) fun _ _ => ⟨rfl, rfl, rfl⟩
  | pluginRow ref b column before after =>
    cases b with
    | none => exact planned_cases _ _ (fun _ => rfl) fun _ _ => ⟨rfl, rfl, rfl⟩
    | some b => cases hc
  | removed kind id b before after => exact Or.inr ⟨rfl, _, rfl⟩

/-! ### Planning -/

def progress (s : Site) (changes : List Change) : Progress := changes.reverse.foldl (Progress.next s) .start

theorem progress_cons (s : Site) (c : Change) (changes : List Change) :
    progress s (c :: changes) = (progress s changes).next s c := by
  rw [progress, List.reverse_cons, List.foldl_append]
  rfl

def Progress.column (s : Site) (p : Progress) (key : RowKey) (column : String) : Option Json :=
  match InsertionMap.get p.branchRows key with
  | some entry => some (entry.state.column column)
  | none => (s.branchRows key).map fun r => r.state.column column

def Progress.value (s : Site) (p : Progress) : Part → Option PartValue
  | .branchColumn key column => (p.column s key column).map .column
  | part => s.value part

/-- The entries stand for rows of the branches, and one that was not touched is as it was loaded. -/
structure Progress.Loaded (s : Site) (p : Progress) : Prop where
  nodup : (p.branchRows.map Prod.fst).Nodup
  key : ∀ key e, InsertionMap.get p.branchRows key = some e → key = ⟨e.branchId, e.ref.pluginId, e.ref.table, e.ref.rowId⟩
  row : ∀ key e, InsertionMap.get p.branchRows key = some e →
    ∃ r, s.branchRows key = some r ∧ e.task = r.chatTaskId ∧ (e.touched = false → e.state = r.state)

def Progress.touches (p : Progress) (key : RowKey) : Bool := (InsertionMap.get p.branchRows key).any (·.touched)

/-- What a round adds: a plan, a column of a branch's row, or a conflict. -/
structure Progress.Adds (s : Site) (p : Progress) (c : Change) (q : Progress) : Prop where
  plans : ∀ π, π ∈ q.plans ↔ π ∈ p.plans ∨ (c.isBranchColumn = false ∧ planChange s c = .ok π)
  conflicts : if holdsAfter (p.value s c.part) c.after = true then q.conflicts = p.conflicts
    else ∃ reason, q.conflicts = p.conflicts ++ [c.conflict reason]
  value : ∀ part, q.value s part =
    if c.isBranchColumn = true ∧ part = c.part ∧ holdsAfter (p.value s c.part) c.after = true then some c.before
    else p.value s part
  touches : ∀ key, q.touches key = true ↔ p.touches key = true ∨
    (c.isBranchColumn = true ∧ (∃ column, c.part = .branchColumn key column) ∧
      holdsAfter (p.value s c.part) c.after = true)
  loaded : q.Loaded s

theorem Progress.value_eq (h : q.branchRows = p.branchRows) (part : Part) :
    q.value s part = p.value s part := by
  cases part with
  | branchColumn key column => simp only [Progress.value, Progress.column, h]
  | _ => rfl

theorem Progress.Loaded.of_eq (h : p.Loaded s) (heq : q.branchRows = p.branchRows) :
    q.Loaded s := by
  refine ⟨?_, ?_, ?_⟩
  · rw [heq]
    exact h.nodup
  · rw [heq]
    exact h.key
  · rw [heq]
    exact h.row

theorem value_of_not_branchColumn (s : Site) (p : Progress) (hc : c.isBranchColumn = false) :
    p.value s c.part = s.value c.part := by
  cases c with
  | pluginRow ref b column before after =>
    cases b with
    | none => rfl
    | some b => cases hc
  | _ => rfl

theorem plan_adds (h : p.Loaded s) (hc : c.isBranchColumn = false)
    (b : Option String) : p.Adds s c (p.plan c b (planChange s c)) := by
  have hread := value_of_not_branchColumn s p hc
  rcases planChange_cases s hc with ⟨π, hπ, hholds, -⟩ | ⟨hno, reason, hreason⟩
  · rw [hπ]
    refine ⟨fun π' => ?_, ?_, fun part => ?_, fun key => ?_, h.of_eq rfl⟩
    · simp [Progress.plan, hc, hπ, eq_comm]
    · rw [hread, hholds]
      rfl
    · rw [if_neg (by simp [hc])]
      exact Progress.value_eq rfl part
    · simp [hc, Progress.touches, Progress.plan]
  · rw [hreason]
    refine ⟨fun π' => ?_, ?_, fun part => ?_, fun key => ?_, h.of_eq rfl⟩
    · simp [Progress.plan, Progress.addConflict, hreason]
    · rw [hread, hno]
      exact ⟨reason, rfl⟩
    · rw [if_neg (by simp [hc])]
      exact Progress.value_eq rfl part
    · simp [hc, Progress.touches, Progress.plan, Progress.addConflict]

theorem removed_adds (h : p.Loaded s) (hc : c.isBranchColumn = false)
    {reason : String} (hreason : planChange s c = .error reason) : p.Adds s c (p.addConflict c reason) := by
  rcases planChange_cases s hc with ⟨π, hπ, -⟩ | ⟨hno, -⟩
  · rw [hreason] at hπ
    cases hπ
  refine ⟨fun π' => ?_, ?_, fun part => ?_, fun key => ?_, h.of_eq rfl⟩
  · simp [Progress.addConflict, hreason]
  · rw [value_of_not_branchColumn s p hc, hno]
    exact ⟨reason, rfl⟩
  · rw [if_neg (by simp [hc])]
    exact Progress.value_eq rfl part
  · simp [hc, Progress.touches, Progress.addConflict]

@[simp] theorem column_withColumn_self (row : PluginRowState) (column : String) (value : Json) :
    (row.withColumn column value).column column = value := by
  simp [PluginRowState.column, PluginRowState.withColumn, InsertionMap.get_set_self]

theorem column_withColumn_of_ne (row : PluginRowState) {column column' : String} (h : column' ≠ column) (value : Json) :
    (row.withColumn column value).column column' = row.column column' := by
  simp [PluginRowState.column, PluginRowState.withColumn, InsertionMap.get_set_of_ne h]

theorem column_of_entry
    (h : p.entry s key ref = some e) (column : String) : p.column s key column = some (e.state.column column) := by
  unfold Progress.entry at h
  unfold Progress.column
  cases hget : InsertionMap.get p.branchRows key with
  | some e' =>
    rw [hget] at h
    rw [Option.some.inj h]
  | none =>
    rw [hget] at h
    obtain ⟨r, hr, rfl⟩ := Option.map_eq_some_iff.1 h
    rw [hr]
    rfl

theorem column_of_no_entry
    (h : p.entry s key ref = none) (column : String) : p.column s key column = none := by
  unfold Progress.entry at h
  unfold Progress.column
  cases hget : InsertionMap.get p.branchRows key with
  | some e' =>
    rw [hget] at h
    cases h
  | none =>
    rw [hget] at h
    rw [Option.map_eq_none_iff.1 h]
    rfl

theorem entry_spec (h : p.Loaded s) {b : String}
    (he : p.entry s ⟨b, ref.pluginId, ref.table, ref.rowId⟩ ref = some e) :
    (⟨b, ref.pluginId, ref.table, ref.rowId⟩ : RowKey) = ⟨e.branchId, e.ref.pluginId, e.ref.table, e.ref.rowId⟩ ∧
      (∃ r, s.branchRows ⟨b, ref.pluginId, ref.table, ref.rowId⟩ = some r ∧ e.task = r.chatTaskId ∧
        (e.touched = false → e.state = r.state)) ∧
      p.touches ⟨b, ref.pluginId, ref.table, ref.rowId⟩ = e.touched := by
  unfold Progress.entry at he
  unfold Progress.touches
  cases hget : InsertionMap.get p.branchRows ⟨b, ref.pluginId, ref.table, ref.rowId⟩ with
  | some e' =>
    rw [hget] at he
    obtain rfl := Option.some.inj he
    exact ⟨h.key _ _ hget, h.row _ _ hget, rfl⟩
  | none =>
    rw [hget] at he
    obtain ⟨r, hr, rfl⟩ := Option.map_eq_some_iff.1 he
    exact ⟨rfl, ⟨r, hr, rfl, fun _ => rfl⟩, rfl⟩

theorem loaded_set (h : p.Loaded s)
    (hq : q.branchRows = InsertionMap.set p.branchRows key e)
    (hkey : key = ⟨e.branchId, e.ref.pluginId, e.ref.table, e.ref.rowId⟩)
    (hrow : ∃ r, s.branchRows key = some r ∧ e.task = r.chatTaskId ∧ (e.touched = false → e.state = r.state)) :
    q.Loaded s := by
  refine ⟨?_, fun key' e' hget => ?_, fun key' e' hget => ?_⟩
  · rw [hq]
    exact InsertionMap.nodup_set h.nodup key e
  · rw [hq] at hget
    by_cases hk : key' = key
    · subst hk
      rw [InsertionMap.get_set_self] at hget
      rw [← Option.some.inj hget]
      exact hkey
    · rw [InsertionMap.get_set_of_ne hk] at hget
      exact h.key _ _ hget
  · rw [hq] at hget
    by_cases hk : key' = key
    · subst hk
      rw [InsertionMap.get_set_self] at hget
      rw [← Option.some.inj hget]
      exact hrow
    · rw [InsertionMap.get_set_of_ne hk] at hget
      exact h.row _ _ hget

theorem column_set
    (hq : q.branchRows = InsertionMap.set p.branchRows key e) (key' : RowKey) (column : String) :
    q.column s key' column = if key' = key then some (e.state.column column) else p.column s key' column := by
  unfold Progress.column
  rw [hq]
  by_cases hk : key' = key
  · subst hk
    rw [InsertionMap.get_set_self, if_pos rfl]
  · rw [InsertionMap.get_set_of_ne hk, if_neg hk]

theorem touches_set
    (hq : q.branchRows = InsertionMap.set p.branchRows key e) (key' : RowKey) :
    q.touches key' = if key' = key then e.touched else p.touches key' := by
  unfold Progress.touches
  rw [hq]
  by_cases hk : key' = key
  · subst hk
    rw [InsertionMap.get_set_self, if_pos rfl]
    rfl
  · rw [InsertionMap.get_set_of_ne hk, if_neg hk]

theorem foldColumn_adds (h : p.Loaded s) (ref : PluginRowRef) (b column : String)
    (before after : Json) : p.Adds s (.pluginRow ref (some b) column before after)
      (p.foldColumn s (.pluginRow ref (some b) column before after) ref b column before after) := by
  unfold Progress.foldColumn
  dsimp only
  set key : RowKey := ⟨b, ref.pluginId, ref.table, ref.rowId⟩ with hk
  have hpart : (Change.pluginRow ref (some b) column before after).part = .branchColumn key column := rfl
  cases he : p.entry s key ref with
  | none =>
    have hno : holdsAfter (p.value s (.branchColumn key column)) (.column after) = false := by
      rw [Progress.value, column_of_no_entry he]
      rfl
    refine ⟨fun π => ?_, ?_, fun part => ?_, fun key' => ?_, h.of_eq rfl⟩
    · simp [Progress.addConflict, Change.isBranchColumn]
    · rw [hpart, Change.after, hno]
      exact ⟨gone, rfl⟩
    · rw [if_neg fun hcond => ?_]
      · exact Progress.value_eq rfl part
      · rw [hpart, Change.after, hno] at hcond
        exact absurd hcond.2.2 (by decide)
    · rw [hpart, Change.after, hno]
      simp [Progress.touches, Progress.addConflict]
  | some e =>
    obtain ⟨hkey, hrow, htouches⟩ := entry_spec h he
    have hcolumn := column_of_entry he
    have hread : holdsAfter (p.value s (.branchColumn key column)) (.column after) =
        sameStableJson (e.state.column column) after := by
      rw [Progress.value, hcolumn]
      rfl
    dsimp only
    cases hsame : sameStableJson (e.state.column column) after with
    | true =>
      rw [if_pos rfl]
      refine ⟨fun π => ?_, ?_, fun part => ?_, fun key' => ?_, loaded_set h rfl hkey ?_⟩
      · simp [Change.isBranchColumn]
      · rw [hpart, Change.after, hread, hsame, if_pos rfl]
      · rw [hpart, Change.after, hread, hsame]
        cases part with
        | branchColumn key' column' =>
          simp only [Progress.value]
          rw [column_set rfl]
          by_cases hk' : key' = key
          · subst hk'
            rw [if_pos rfl]
            by_cases hc' : column' = column
            · subst hc'
              rw [column_withColumn_self, if_pos ⟨rfl, rfl, trivial⟩]
              rfl
            · rw [column_withColumn_of_ne _ hc', if_neg fun hcond => hc' (Part.branchColumn.inj hcond.2.1).2, hcolumn]
          · rw [if_neg hk', if_neg fun hcond => hk' (Part.branchColumn.inj hcond.2.1).1]
        | _ => exact (if_neg fun hcond => by cases hcond.2.1).symm
      · rw [touches_set rfl, hpart, Change.after, hread, hsame]
        by_cases hk' : key' = key
        · subst hk'
          rw [if_pos rfl]
          exact ⟨fun _ => Or.inr ⟨rfl, ⟨column, rfl⟩, rfl⟩, fun _ => rfl⟩
        · rw [if_neg hk']
          refine ⟨Or.inl, ?_⟩
          rintro (ht | ⟨-, ⟨column', hc'⟩, -⟩)
          · exact ht
          · exact absurd (Part.branchColumn.inj hc').1.symm hk'
      · obtain ⟨r, hr, htask, -⟩ := hrow
        exact ⟨r, hr, htask, fun ht => by cases ht⟩
    | false =>
      rw [if_neg (by decide)]
      refine ⟨fun π => ?_, ?_, fun part => ?_, fun key' => ?_, loaded_set h rfl hkey hrow⟩
      · simp [Progress.addConflict, Change.isBranchColumn]
      · rw [hpart, Change.after, hread, hsame, if_neg (by decide)]
        exact ⟨edited, rfl⟩
      · rw [hpart, Change.after, hread, hsame, if_neg (by simp)]
        cases part with
        | branchColumn key' column' =>
          simp only [Progress.value]
          rw [column_set rfl]
          by_cases hk' : key' = key
          · subst hk'
            rw [if_pos rfl, hcolumn]
          · rw [if_neg hk']
        | _ => rfl
      · rw [hpart, Change.after, hread, hsame, touches_set rfl]
        by_cases hk' : key' = key
        · subst hk'
          rw [if_pos rfl, htouches]
          simp
        · rw [if_neg hk']
          simp

theorem next_adds (h : p.Loaded s) (c : Change) : p.Adds s c (p.next s c) := by
  cases c with
  | module id b before after => exact plan_adds h rfl b
  | contentInstance id b before after => exact plan_adds h rfl b
  | layout id before after => exact plan_adds h rfl none
  | pluginRow ref b column before after =>
    cases b with
    | none => exact plan_adds h rfl none
    | some b => exact foldColumn_adds h ref b column before after
  | removed kind id b before after => exact removed_adds h rfl rfl

theorem progress_loaded (s : Site) (changes : List Change) : (progress s changes).Loaded s := by
  induction changes with
  | nil =>
    refine ⟨List.nodup_nil, fun key e h => ?_, fun key e h => ?_⟩
    · cases h
    · cases h
  | cons c changes ih =>
    rw [progress_cons]
    exact (next_adds ih c).loaded

theorem progress_adds (s : Site) (c : Change) (changes : List Change) :
    (progress s changes).Adds s c (progress s (c :: changes)) := by
  rw [progress_cons]
  exact next_adds (progress_loaded s changes) c

end CaeloCms.Link.Migration
