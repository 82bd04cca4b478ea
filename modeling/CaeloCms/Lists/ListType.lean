import CaeloCms.Lists.Query

/-!
# List types

The definition of a list type (`list-type.ts`): node kinds, what each may hold, where generated entries come from.
`checkListTypeDef` lists what is wrong with a definition; `effectiveMaxDepth` is the depth an entry tree of the type
may reach.
-/

namespace CaeloCms.Lists

def LIST_MAX_DEPTH : Nat := 8
def LIST_MAX_ITEMS : Nat := 500

inductive SystemSourceName
  | breadcrumbs
  | children
  | siblings
  | page_terms
  | term_pages
  | pagination
deriving DecidableEq

inductive SourceDef
  | query (source : QuerySource)
  | system (name : SystemSourceName)
  | plugin (name : String)

structure ChildrenDef where
  name : String
  allow : List String
  max : Option Nat

structure NodeDef where
  fields : List FieldDef
  children : Option ChildrenDef
  current_from : Option String
  source : Option SourceDef

inductive ListTypeRole
  | navigation
  | vocabulary
  | content
deriving DecidableEq

structure RootDef where
  allow : List String
  max : Option Nat

structure ListTypeDef where
  slug : String
  role : ListTypeRole
  root : RootDef
  /-- The node kinds in their order. -/
  nodes : List (String × NodeDef)
  max_depth : Option Nat

namespace ListTypeDef

variable (def_ : ListTypeDef)

/-- `Object.keys(def.nodes)` -/
def kinds : List String := def_.nodes.map (·.1)

/-- `def.nodes[kind]`; a name that every object inherits is no kind. -/
def node (kind : String) : Option NodeDef := (def_.nodes.find? fun n => n.1 == kind).map (·.2)

/-- `def.nodes[kind]?.children?.allow ?? []` -/
def allowed (kind : String) : List String := (((def_.node kind).bind NodeDef.children).map ChildrenDef.allow).getD []

theorem mem_kinds_of_allowed {kind child : String} (h : child ∈ def_.allowed kind) : kind ∈ def_.kinds := by
  unfold allowed node at h
  cases hfind : def_.nodes.find? fun n => n.1 == kind with
  | none => simp [hfind] at h
  | some n =>
    have hmem := List.mem_of_find?_eq_some hfind
    have hkey : n.1 = kind := by simpa using List.find?_some hfind
    exact List.mem_map.2 ⟨n, hmem, hkey⟩

/-- The kinds outside `seen`, which bounds the recursion over kinds. -/
def unseen (seen : List String) : List String := def_.kinds.filter fun k => !seen.contains k

theorem unseen_cons_lt {kind : String} {seen : List String} (hkind : kind ∈ def_.kinds) (hnew : kind ∉ seen) :
    (def_.unseen (kind :: seen)).length < (def_.unseen seen).length := by
  have hsub : def_.unseen (kind :: seen) = (def_.unseen seen).filter fun k => k != kind := by
    unfold unseen
    rw [List.filter_filter]
    apply List.filter_congr
    intro k _
    simp [bne, Bool.not_or, Bool.beq_eq_decide_eq]
  have hmem : kind ∈ def_.unseen seen := by
    unfold unseen
    simpa using ⟨hkind, hnew⟩
  rw [hsub]
  exact List.length_filter_lt_length_iff_exists.2 ⟨kind, hmem, by simp⟩

theorem unseen_cons_le (kind : String) (seen : List String) :
    (def_.unseen (kind :: seen)).length ≤ (def_.unseen seen).length := by
  unfold unseen
  rw [← List.countP_eq_length_filter, ← List.countP_eq_length_filter]
  apply List.countP_mono_left
  intro k _ hk
  simp at hk ⊢
  exact hk.2

/-! ### Depth -/

def longest (k : String) (seen : List String) : Nat :=
  if _h : k ∈ seen then LIST_MAX_DEPTH
  else 1 + (def_.allowed k).attach.foldl (fun m c => Nat.max m (longest c.1 (k :: seen))) 0
termination_by (def_.unseen seen).length
decreasing_by exact def_.unseen_cons_lt (def_.mem_kinds_of_allowed c.2) _h

def effectiveMaxDepth : Nat :=
  match def_.max_depth with
  | some d => d
  | none => min LIST_MAX_DEPTH (def_.root.allow.foldl (fun m k => max m (def_.longest k [])) 0)

mutual

/-- `visit(k)`: `none` when it comes back to a kind it is visiting, else the kinds that are done. -/
def visit (k : String) (visiting done : List String) : Option (List String) :=
  if _h : k ∈ visiting then none
  else if k ∈ done then some done
  else (visitAll (def_.allowed k) (k :: visiting) done).map (k :: ·)
termination_by ((def_.unseen visiting).length, 1)
decreasing_by
  -- a kind that is not defined has no children, so nothing is visited below it
  by_cases hk : k ∈ def_.kinds
  · exact Prod.Lex.left _ _ (def_.unseen_cons_lt hk _h)
  · have hnone : def_.allowed k = [] :=
      List.eq_nil_iff_forall_not_mem.2 fun c hc => hk (def_.mem_kinds_of_allowed hc)
    have hle := def_.unseen_cons_le k visiting
    rw [hnone]
    rcases Nat.lt_or_eq_of_le hle with hlt | heq
    · exact Prod.Lex.left _ _ hlt
    · rw [heq]
      exact Prod.Lex.right _ (by simp)

def visitAll (kids visiting done : List String) : Option (List String) :=
  match kids with
  | [] => some done
  | c :: cs => (visit c visiting done).bind fun done => visitAll cs visiting done
termination_by ((def_.unseen visiting).length, 2 * kids.length)
decreasing_by
  all_goals exact Prod.Lex.right _ (by simp; try omega)

end

/-- A kind that can, over any number of levels, contain itself. -/
def hasRecursion : Bool := (def_.visitAll def_.kinds [] []).isNone

end ListTypeDef

/-! ### Checks -/

/-- `missingQueryDefaults(defaults, "node")` -/
def missingQueryDefaults (defaults : Fields) : Option String :=
  let order := if (lookup "order" defaults).isNone then
      ["order (\"published_desc\", \"published_asc\", \"title_asc\", or \"prop_desc:<property>\" / \"prop_asc:<property>\")"]
    else []
  let limit := if (lookup "limit" defaults).isNone then ["limit (1–50)"] else []
  let missing := order ++ limit
  let needed := " and ".intercalate missing
  if missing.isEmpty then none
  else some s!"a query source needs {needed} in source.defaults — e.g. {QUERY_SOURCE_EXAMPLE}."

def checkAllow (def_ : ListTypeDef) (allow : List String) (path : String) : List ListIssue :=
  (allow.filter fun k => !def_.kinds.contains k).map fun k =>
    ⟨path, s!"node kind \"{k}\" is not defined — add it under nodes or remove it from allow."⟩

variable (zodIssues : ZodIssues)

/-- The declared fields of a node; `seen` are the names before them. -/
def checkFields (at_ : String) : Nat → List String → List FieldDef → List ListIssue
  | _, _, [] => []
  | i, seen, f :: fs =>
    let fp := s!"{at_}.fields[{i}]"
    (if seen.contains f.name then [ListIssue.mk fp s!"duplicate field name \"{f.name}\"."] else []) ++
      checkFieldDef zodIssues f fp ++ checkFields at_ (i + 1) (f.name :: seen) fs

def checkChildren (def_ : ListTypeDef) (at_ : String) (node : NodeDef) (children : ChildrenDef) : List ListIssue :=
  (if isReservedListName children.name then
    [ListIssue.mk s!"{at_}.children.name" s!"children name \"{children.name}\" is reserved ({LIST_RESERVED_NAMES_CLAUSE}) — pick another loop name."]
    else []) ++
  (if node.fields.any fun f => f.name == children.name then
    [ListIssue.mk s!"{at_}.children.name" s!"children name \"{children.name}\" collides with a field of the same node."]
    else []) ++
  checkAllow def_ children.allow s!"{at_}.children.allow"

def checkQueryDefaults (at_ : String) (defaults : Fields) : List ListIssue :=
  if isPartialQuery defaults then
    ((missingQueryDefaults defaults).map (ListIssue.mk s!"{at_}.source.defaults")).toList
  else [⟨s!"{at_}.source.defaults", "query defaults are invalid."⟩]

def checkNode (def_ : ListTypeDef) (kind : String) (node : NodeDef) : List ListIssue :=
  let at_ := s!"nodes.{kind}"
  (if isReservedListName kind then
    [ListIssue.mk at_ s!"node kind \"{kind}\" is a reserved name ({LIST_RESERVED_NAMES_CLAUSE}) — rename it."]
    else []) ++
  checkFields zodIssues at_ 0 [] node.fields ++
  (match node.children with
    | some children => checkChildren def_ at_ node children
    | none => []) ++
  (if node.children.isSome ∧ node.source.isSome then
    [ListIssue.mk at_ "a node has either stored children or a source, not both — remove one."]
    else []) ++
  (match node.current_from with
    | some name =>
      if (node.fields.find? fun f => f.name == name).any fun f => f.type == .link then []
      else [⟨s!"{at_}.current_from", s!"current_from must name a link field of this node (\"{name}\" is not one)."⟩]
    | none => []) ++
  (match node.source with
    | some (.query source) => checkQueryDefaults at_ source.defaults
    | _ => [])

def checkVocabularyNode (def_ : ListTypeDef) (k : String) : List ListIssue :=
  match def_.node k with
  | none => []
  | some node =>
    let hasText := fun n => node.fields.any fun f => f.name == n && f.type.name == "text"
    (if !hasText "name" || !hasText "slug" then
      [ListIssue.mk s!"nodes.{k}" "vocabulary entries need a text field \"name\" and a text field \"slug\"."]
      else []) ++
    (if node.source.isSome then [ListIssue.mk s!"nodes.{k}" "vocabulary entries cannot have a source."] else [])

def checkListTypeDef (def_ : ListTypeDef) : List ListIssue :=
  (if def_.nodes.isEmpty then [ListIssue.mk "nodes" "a list type needs at least one node kind."] else []) ++
  checkAllow def_ def_.root.allow "root.allow" ++
  def_.nodes.flatMap (fun n => checkNode zodIssues def_ n.1 n.2) ++
  (if def_.max_depth.isNone ∧ def_.hasRecursion then
    [ListIssue.mk "max_depth" "this type nests a node kind inside itself — set max_depth (1–8)."]
    else []) ++
  (if def_.role = .vocabulary then def_.root.allow.flatMap (checkVocabularyNode def_) else [])

/-! ### Checked types -/

structure CompleteDefaults (source : QuerySource) : Prop where
  partialQuery : isPartialQuery source.defaults = true
  order : lookup "order" source.defaults ≠ none
  limit : lookup "limit" source.defaults ≠ none

theorem completeDefaults_of_check {at_ : String} {source : QuerySource}
    (h : checkQueryDefaults at_ source.defaults = []) : CompleteDefaults source := by
  unfold checkQueryDefaults at h
  split at h
  · rename_i hadmitted
    have hmissing : missingQueryDefaults source.defaults = none := by simpa using h
    unfold missingQueryDefaults at hmissing
    refine ⟨hadmitted, ?_, ?_⟩
    · intro horder
      simp [horder] at hmissing
    · intro hlimit
      simp [hlimit] at hmissing
  · cases h

theorem checkNode_of_checkListTypeDef {def_ : ListTypeDef} (h : checkListTypeDef zodIssues def_ = [])
    {n : String × NodeDef} (hn : n ∈ def_.nodes) : checkNode zodIssues def_ n.1 n.2 = [] := by
  unfold checkListTypeDef at h
  simp only [List.append_eq_nil_iff] at h
  exact List.flatMap_eq_nil_iff.1 h.1.1.2 n hn

theorem completeDefaults_of_checkListTypeDef {def_ : ListTypeDef} (h : checkListTypeDef zodIssues def_ = [])
    {kind : String} {node : NodeDef} (hnode : def_.node kind = some node) {source : QuerySource}
    (hsource : node.source = some (.query source)) : CompleteDefaults source := by
  obtain ⟨n, hfind, rfl⟩ := Option.map_eq_some_iff.1 hnode
  have hcheck := checkNode_of_checkListTypeDef zodIssues h (List.mem_of_find?_eq_some hfind)
  unfold checkNode at hcheck
  simp only [List.append_eq_nil_iff] at hcheck
  have hdefaults := hcheck.2
  rw [hsource] at hdefaults
  exact completeDefaults_of_check hdefaults

end CaeloCms.Lists
