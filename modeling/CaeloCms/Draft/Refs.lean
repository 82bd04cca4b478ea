import CaeloCms.Draft.Headers

/-!
# References between branch states

`referencedEntities` reads, from a snapshot state, the ids that may be rows created on a branch.  Only the shapes
listed there are inspected: a page's `parentPageId` and the page a section or content state belongs to are not.
-/

namespace CaeloCms.Draft

/-- `[0-9a-f-]` -/
def isUuidChar (c : Char) : Bool := c.isDigit || ('a' ≤ c && c ≤ 'f') || c == '-'

/-- `s` without the prefix `p`, when it starts with it. -/
def stripPrefix? (p s : List Char) : Option (List Char) := if s.take p.length = p then some (s.drop p.length) else none

/-- The 36 id characters `s` begins with, and the rest. -/
def takeUuid? (s : List Char) : Option (String × List Char) :=
  if (s.take 36).length = 36 ∧ (s.take 36).all isUuidChar then some (String.ofList (s.take 36), s.drop 36) else none

/-- `TERM_LIST_RE.exec(t)?.[1]` -/
def termListId (t : String) : Option Id :=
  (stripPrefix? "caelo:term/".toList t.toList).bind fun rest =>
    (takeUuid? rest).bind fun m => if m.2.head? = some '/' then some m.1 else none

/-- `LIST_REF_RE.exec(s)?.[1]` -/
def listRefId (s : String) : Option Id :=
  (stripPrefix? "caelo:list/".toList s.toList).bind fun rest =>
    (takeUuid? rest).bind fun m => if m.2 = [] then some m.1 else none

mutual

/-- Every `caelo:list/<id>` string at any depth (bound shared lists). -/
def collectListRefs : Json → List Key
  | .str s => ((listRefId s).map fun id => ⟨.list, id⟩).toList
  | .arr items => collectListRefsItems items
  | .obj fields => collectListRefsFields fields
  | _ => []

def collectListRefsItems : List Json → List Key
  | [] => []
  | v :: vs => collectListRefs v ++ collectListRefsItems vs

def collectListRefsFields : List (String × Json) → List Key
  | [] => []
  | (_, v) :: fs => collectListRefs v ++ collectListRefsFields fs

end

/-- `if (typeof v[name] === "string") out.push({ kind, id: v[name] })` -/
def refField (kind : EntityKind) (name : String) (v : Json) : List Key :=
  ((v.stringField name).map fun id => ⟨kind, id⟩).toList

mutual

/-- `{ moduleId, contentInstanceId }` at any depth of a content value. -/
def collectNestedRefs : Json → List Key
  | .arr items => collectNestedRefsItems items
  | .obj fields =>
    refField .module "moduleId" (.obj fields) ++ refField .contentInstance "contentInstanceId" (.obj fields) ++
      collectNestedRefsFields fields
  | _ => []

def collectNestedRefsItems : List Json → List Key
  | [] => []
  | v :: vs => collectNestedRefs v ++ collectNestedRefsItems vs

def collectNestedRefsFields : List (String × Json) → List Key
  | [] => []
  | (_, v) :: fs => collectNestedRefs v ++ collectNestedRefsFields fs

end

def stringElements (v : List Json) : List String := v.filterMap Json.asString?

def layoutBlockRefs (block : Json) : List Key :=
  (stringElements (block.arrayField "moduleIds")).map (⟨.module, ·⟩) ++
    (block.arrayField "placements").flatMap fun p =>
      refField .module "moduleId" p ++ refField .contentInstance "contentInstanceId" p

def isArrayField (name : String) (v : Json) : Bool :=
  match v.field name with
  | some (.arr _) => true
  | _ => false

def isObjectField (name : String) (v : Json) : Bool :=
  match v.field name with
  | some (.arr _) => true
  | some (.obj _) => true
  | _ => false

/-- The value under `name`, `undefined` read as no value. -/
def fieldOrNull (name : String) (v : Json) : Json := (v.field name).getD .null

/-- Ids a snapshot state points at that may be rows created on a branch. -/
def referencedEntities (kind : EntityKind) (table : EntityTable) (state : Json) : List Key :=
  if table = .page_layout_snapshots && isArrayField "blocks" state then
    (state.arrayField "blocks").flatMap layoutBlockRefs
  else if table = .layout_module_snapshots && isArrayField "moduleIds" state then
    (stringElements (state.arrayField "moduleIds")).map (⟨.module, ·⟩)
  else if table = .page_snapshots then
    refField .template "templateId" state ++ refField .pageType "pageTypeId" state ++
      ((stringElements (state.arrayField "terms")).filterMap termListId).map (⟨.list, ·⟩)
  else if kind = .contentInstance then
    refField .module "moduleId" state ++ collectNestedRefs (fieldOrNull "values" state) ++
      collectListRefs (fieldOrNull "values" state)
  else if table = .page_module_content_snapshots then
    collectNestedRefs (fieldOrNull "contentValues" state)
  else if table = .module_snapshots then
    collectListRefs (fieldOrNull "fields" state)
  else if table = .list_snapshots then
    refField .listType "listTypeId" state ++ collectNestedRefs (fieldOrNull "items" state) ++
      collectListRefs (fieldOrNull "items" state)
  else if table = .page_type_snapshots && isObjectField "definition" state then
    let definition := fieldOrNull "definition" state
    (stringElements (definition.arrayField "templates")).map (⟨.template, ·⟩) ++
      (definition.arrayField "vocabularies").flatMap (refField .list "list")
  else []

/-- Keys of the rows created in the draft (not yet merged) that the entity states under `headerIds` reference. -/
def branchCreatedRefs (db : DraftDb) (branchId : Id) (headerIds : List Id) : List Key :=
  let states := db.entityRows.filter fun r => decide (r.table ≠ .plugin_row_snapshots) && headerIds.contains r.siteSnapshotId
  let refs := states.flatMap fun r => referencedEntities r.table.refKind r.table r.state
  OrderedSet.addAll [] (refs.filter fun k => createdOnBranch db k branchId)

/-- The header's states reference the row `k` in a shape `referencedEntities` reads, and `k` was created in the
draft. -/
def readsRef (db : DraftDb) (branchId headerId : Id) (k : Key) : Prop := k ∈ branchCreatedRefs db branchId [headerId]

theorem mem_branchCreatedRefs {db : DraftDb} {branchId : Id} {headerIds : List Id} {k : Key} :
    k ∈ branchCreatedRefs db branchId headerIds ↔ ∃ id ∈ headerIds, readsRef db branchId id k := by
  unfold readsRef branchCreatedRefs
  simp only [OrderedSet.mem_addAll, List.not_mem_nil, false_or, List.mem_filter, List.mem_flatMap, Bool.and_eq_true,
    List.contains_iff_mem, List.mem_singleton]
  constructor
  · rintro ⟨⟨r, ⟨hr, ht, hid⟩, hk⟩, hc⟩
    exact ⟨r.siteSnapshotId, hid, ⟨r, ⟨hr, ht, rfl⟩, hk⟩, hc⟩
  · rintro ⟨id, hid, ⟨r, ⟨hr, ht, rfl⟩, hk⟩, hc⟩
    exact ⟨⟨r, ⟨hr, ht, hid⟩, hk⟩, hc⟩

theorem readsRef_created {db : DraftDb} {branchId headerId : Id} {k : Key} (h : readsRef db branchId headerId k) :
    createdOnBranch db k branchId = true := by
  unfold readsRef branchCreatedRefs at h
  simp only [OrderedSet.mem_addAll, List.not_mem_nil, false_or, List.mem_filter] at h
  exact h.2

end CaeloCms.Draft
