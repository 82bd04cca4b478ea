import CaeloCms.Lists.ListType

/-!
# List entries

Entries as they are stored (`ListItem`), the input they are written from, and the validation of an input against a
list type (`validateListItems`, `items.ts`), which gives every entry an id and reports what is wrong.
-/

namespace CaeloCms.Lists

/-- A stored entry.  Without children it stores no `children`. -/
structure ListItem where
  id : String
  node : String
  values : Fields
  children : List ListItem
  query : Option Fields

/-- An entry as it is written; the id is optional. -/
structure ListItemInput where
  id : Option String
  node : String
  values : Fields
  children : List ListItemInput
  query : Option Fields

mutual

/-- A stored entry as it is written again, its id set. -/
def asInput : ListItem → ListItemInput
  | ⟨id, node, values, children, query⟩ => ⟨some id, node, values, asInputs children, query⟩

def asInputs : List ListItem → List ListItemInput
  | [] => []
  | it :: rest => asInput it :: asInputs rest

end

theorem asInputs_eq_map (items : List ListItem) : asInputs items = items.map asInput := by
  induction items with
  | nil => rfl
  | cons it rest ih =>
    unfold asInputs
    rw [ih, List.map_cons]

/-! ### The input schema -/

/-- `z.string().regex(UUID_RE).optional()` -/
def idValue : Option Json → Option (Option String)
  | none => some none
  | some (.str s) => if Link.isUuid s.toList then some (some s) else none
  | some _ => none

/-- `z.string().min(1).max(64)` -/
def nodeValue : Option Json → Option String
  | some (.str s) => if 1 ≤ s.length ∧ Redirect.utf16Length s.toList ≤ 64 then some s else none
  | _ => none

/-- `z.record(z.string(), z.unknown())` -/
def recordValue : Json → Option Fields
  | .obj fields => some fields
  | _ => none

/-- The keys of `listItemInputSchema`. -/
def isItemKey (key : String) : Bool := ["id", "node", "values", "children", "query"].contains key

mutual

/-- `listItemInputSchema` -/
def parseItem : Json → Option ListItemInput
  | .obj fields => do
    let id ← idValue (lookup "id" fields)
    let node ← nodeValue (lookup "node" fields)
    let values ← ((lookup "values" fields).map recordValue).getD (some [])
    let children ← parseChildren fields
    let query ← optional recordValue (lookup "query" fields)
    if fields.all fun f => isItemKey f.1 then some { id, node, values, children, query } else none
  | _ => none

/-- `z.array(listItemInputSchema)` -/
def parseItems : List Json → Option (List ListItemInput)
  | [] => some []
  | v :: vs => do
    let item ← parseItem v
    let items ← parseItems vs
    some (item :: items)

/-- The `children` of an object; none when it has no such property. -/
def parseChildren : Fields → Option (List ListItemInput)
  | [] => some []
  | f :: fs => if f.1 = "children" then parseChildArray f.2 else parseChildren fs

def parseChildArray : Json → Option (List ListItemInput)
  | .arr items => parseItems items
  | _ => none

end

def parseListItems : Json → Option (List ListItemInput)
  | .arr items => parseItems items
  | _ => none

/-! ### Validation -/

/-- What the walk has seen so far: the entries it counted, their ids, the ids it minted, and the issues. -/
structure WalkState where
  count : Nat
  ids : List String
  minted : Nat
  issues : List ListIssue

def WalkState.report (s : WalkState) (issues : List ListIssue) : WalkState := { s with issues := s.issues ++ issues }

variable (zodIssues : ZodIssues) (type : ListTypeDef) (newId : Nat → String)

def takeId (it : ListItemInput) (at_ : String) (s : WalkState) : String × WalkState :=
  let id := it.id.getD (newId s.minted)
  let duplicate := if s.ids.contains id then [ListIssue.mk s!"{at_}.id" s!"duplicate entry id {id}."] else []
  (id, { count := s.count + 1, ids := id :: s.ids, minted := if it.id.isNone then s.minted + 1 else s.minted,
         issues := s.issues ++ duplicate })

def storedValue (f : FieldDef) (values : Fields) : Option Json := (lookup f.name values).or f.default

def checkValues (it : ListItemInput) (node : NodeDef) (at_ : String) : List ListIssue :=
  node.fields.flatMap (fun f => validateFieldValue zodIssues f (storedValue f it.values) s!"{at_}.values.{f.name}") ++
  (it.values.filter fun v => !node.fields.any fun f => f.name == v.1).map fun v =>
    ⟨s!"{at_}.values.{v.1}", s!"node \"{it.node}\" has no field \"{v.1}\" — add the field to the type or drop the value."⟩

def valuesOf (it : ListItemInput) (node : NodeDef) : Fields :=
  node.fields.filterMap fun f => (storedValue f it.values).map fun v => (f.name, v)

def restatesDefault (source : QuerySource) (k : String) (v : Json) : Bool :=
  (lookup k source.defaults).any fun d => stringify v == stringify d

def checkQuery (it : ListItemInput) (node : NodeDef) (at_ : String) : List ListIssue :=
  match it.query, node.source with
  | none, _ => []
  | some query, some (.query source) =>
    (if isPartialQuery query then []
      else
        let issues := zodIssues .pageQueryPartial (.obj query)
        [ListIssue.mk s!"{at_}.query" s!"invalid query: {(issues.1.head issues.2).message}"]) ++
    (query.filter fun f => !(editableNames source).contains f.1 && !restatesDefault source f.1 f.2).map fun f =>
      let editable := if source.editable.isEmpty then "none" else ", ".intercalate (editableNames source)
      ⟨s!"{at_}.query.{f.1}", s!"\"{f.1}\" is not editable on \"{it.node}\" — editable: {editable}."⟩
  | some _, _ => [⟨s!"{at_}.query", s!"node \"{it.node}\" has no query source."⟩]

/-- The overrides an entry stores: the editable knobs of its query. -/
def queryOf (it : ListItemInput) (node : NodeDef) : Option Fields :=
  match it.query, node.source with
  | some query, some (.query source) => some (query.filter fun f => (editableNames source).contains f.1)
  | _, _ => none

/-- How many entries a level may hold. -/
def checkMax (items : List ListItemInput) (max : Option Nat) (path : String) : List ListIssue :=
  if max.any fun m => m < items.length then
    [⟨path, s!"at most {max.getD 0} entries allowed here, got {items.length}."⟩]
  else []

/-- What is wrong with an entry of a known kind itself, its children apart. -/
def checkItem (it : ListItemInput) (node : NodeDef) (allow : List String) (depth : Nat) (at_ : String) :
    List ListIssue :=
  (if allow.contains it.node then []
    else
      let allowed := ", ".intercalate allow
      [ListIssue.mk s!"{at_}.node" s!"\"{it.node}\" is not allowed here — allowed: {allowed}."]) ++
  (if type.effectiveMaxDepth < depth then
    [ListIssue.mk at_ s!"nesting deeper than {type.effectiveMaxDepth} levels."] else []) ++
  checkValues zodIssues it node at_ ++ checkQuery zodIssues it node at_

mutual

/-- One entry of a level. -/
def walkItem (it : ListItemInput) (allow : List String) (depth : Nat) (at_ : String) (s : WalkState) :
    ListItem × WalkState :=
  match it with
  | ⟨inputId, kind, values, children, query⟩ =>
    let it : ListItemInput := ⟨inputId, kind, values, children, query⟩
    let taken := takeId newId it at_ s
    match type.node kind with
    | none =>
      let defined := ", ".intercalate type.kinds
      (⟨taken.1, kind, values, [], none⟩,
        taken.2.report [⟨s!"{at_}.node", s!"unknown node kind \"{kind}\" — the type defines {defined}."⟩])
    | some node =>
      let checked := taken.2.report (checkItem zodIssues type it node allow depth at_)
      let below :=
        if children.isEmpty then ([], checked)
        else
          match node.children with
          | none => ([], checked.report [⟨s!"{at_}.children", s!"node \"{kind}\" takes no children."⟩])
          | some c =>
            walkItems children 0 c.allow (depth + 1) s!"{at_}.children"
              (checked.report (checkMax children c.max s!"{at_}.children"))
      (⟨taken.1, kind, valuesOf it node, below.1, queryOf it node⟩, below.2)

/-- The entries of a level from the `i`th on. -/
def walkItems (items : List ListItemInput) (i : Nat) (allow : List String) (depth : Nat) (path : String)
    (s : WalkState) : List ListItem × WalkState :=
  match items with
  | [] => ([], s)
  | it :: rest =>
    let first := walkItem it allow depth s!"{path}[{i}]" s
    let others := walkItems rest (i + 1) allow depth path first.2
    (first.1 :: others.1, others.2)

end

structure ValidatedItems where
  items : List ListItem
  issues : List ListIssue

def issuePath (path : List PathPart) : String :=
  String.join (path.map fun
    | .index i => s!"[{i}]"
    | .key name => s!".{name}")

/-- `validateListItems(type, input, { newId, path: root })`; `newId k` is the `k`th id minted. -/
def validateListItems (input : Json) (root : String) : ValidatedItems :=
  match parseListItems input with
  | none =>
    ⟨[], ((zodIssues .listItems input).1.take 10).map fun issue => ⟨root ++ issuePath issue.path, issue.message⟩⟩
  | some items =>
    let start : WalkState := ⟨0, [], 0, checkMax items type.root.max root⟩
    let walked := walkItems zodIssues type newId items 0 type.root.allow 1 root start
    let tooMany := if LIST_MAX_ITEMS < walked.2.count then
        [ListIssue.mk root s!"a list holds at most {LIST_MAX_ITEMS} entries, got {walked.2.count}."] else []
    ⟨walked.1, walked.2.issues ++ tooMany⟩

end CaeloCms.Lists
