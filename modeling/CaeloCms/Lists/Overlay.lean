import CaeloCms.Lists.Address
import CaeloCms.Lists.Render
import CaeloCms.Lib.InsertionMap

/-!
# Overlays of list values

An overlay replaces stored values by their addresses (`prepareOverlays`, `resolve.ts`).  While a page renders, the
resolver reads an overlay's values by the ids and names of what it renders, and reports the values it refuses under
addresses it writes itself.  `addresses_round_trip` says that these are the addresses the overlay gave.
-/

namespace CaeloCms.Lists

open InsertionMap (get set)

/-! ### What is loaded -/

structure LoadedList where
  id : String
  typeSlug : String
  items : List ListItem

structure ListVariantOverlay where
  values : Fields
  hidden : List String

structure OverlayRenderData extends ListRenderData where
  /-- By slug. -/
  listTypes : List (String × ListTypeDef)
  lists : List LoadedList
  /-- The properties of a page type, by slug. -/
  pageTypes : List (String × List FieldDef)
  /-- By variant. -/
  overlays : List (String × ListVariantOverlay)

structure ListOverlayIssue where
  variant : String
  address : String
  reason : String
deriving DecidableEq

structure PreparedOverlay where
  /-- `<listId>/<itemId>` → field → value. -/
  listValues : List (String × Fields)
  listHidden : List String
  /-- `<ciId>/<field>/<itemId>` → item field → value. -/
  instanceValues : List (String × Fields)
  instanceHidden : List String
  /-- pageId → property → value. -/
  pageProps : List (String × Fields)

def PreparedOverlay.empty : PreparedOverlay := ⟨[], [], [], [], []⟩

variable (zodIssues : ZodIssues)

/-! ### Preparing an overlay -/

def setIn (m : List (String × Fields)) (k f : String) (v : Json) : List (String × Fields) :=
  set m k (set ((get m k).getD []) f v)

mutual

def entriesBelow : ListItem → List (String × String)
  | ⟨id, node, _, children, _⟩ => (id, node) :: allEntriesBelow children

def allEntriesBelow : List ListItem → List (String × String)
  | [] => []
  | it :: rest => entriesBelow it ++ allEntriesBelow rest

end

/-- `<listId>/<itemId>` → the type of the list and the node of the entry. -/
def itemIndex (data : OverlayRenderData) : List (String × String × String) :=
  data.lists.foldl (fun index list => (allEntriesBelow list.items).foldl
    (fun index entry => set index s!"{list.id}/{entry.1}" (list.typeSlug, entry.2)) index) []

def fieldOf (data : OverlayRenderData) (typeSlug node fieldName : String) : Option FieldDef :=
  ((get data.listTypes typeSlug).bind fun def_ => def_.node node).bind fun n =>
    n.fields.find? fun f => f.name == fieldName

/-- Why an overlay value cannot replace a stored one; none when it can. -/
def overlayValueProblem (field : Option FieldDef) (value : Json) (address : String) : Option String :=
  match field with
  | none => some "the entry's node declares no such field"
  | some field =>
    match field.type with
    | .module | .term _ _ =>
      some s!"a {field.type.name} field changes structure, an overlay may only replace values"
    | _ => (validateFieldValue zodIssues { field with required := false } (some value) address).head?.map (·.message)

/-- What preparing has made so far: the overlay, and what it refused. -/
structure Preparing where
  overlay : PreparedOverlay
  issues : List ListOverlayIssue

def Preparing.refuse (s : Preparing) (variant address reason : String) : Preparing :=
  { s with issues := s.issues ++ [⟨variant, address, reason⟩] }

def addValue (data : OverlayRenderData) (variant : String) (s : Preparing) (entry : String × Json) : Preparing :=
  let address := entry.1
  let value := entry.2
  let parts := segments address
  match exec LIST_VALUE_RE parts with
  | some [listId, itemId, fieldName] =>
    match get (itemIndex data) s!"{listId}/{itemId}" with
    | none => s.refuse variant address "no such list entry"
    | some hit =>
      match overlayValueProblem zodIssues (fieldOf data hit.1 hit.2 fieldName) value address with
      | some problem => s.refuse variant address problem
      | none => { s with overlay.listValues := setIn s.overlay.listValues s!"{listId}/{itemId}" fieldName value }
  | _ =>
    match exec INSTANCE_VALUE_RE parts with
    | some [ci, f, itemId, itemField] =>
      { s with overlay.instanceValues := setIn s.overlay.instanceValues s!"{ci}/{f}/{itemId}" itemField value }
    | _ =>
      match exec PAGE_PROP_RE parts with
      | some [pageId, prop] =>
        match data.pages.find? fun p => p.id == pageId with
        | none => s.refuse variant address "no such page"
        | some page =>
          let field := (get data.pageTypes page.pageTypeSlug).bind fun props => props.find? fun p => p.name == prop
          match overlayValueProblem zodIssues field value address with
          | some problem => s.refuse variant address problem
          | none => { s with overlay.pageProps := setIn s.overlay.pageProps pageId prop value }
      | _ => s.refuse variant address "not a rendered value address"

def LIST_HIDDEN_RE : List Piece := [.word "list", .group isSeg, .word "item", .group isSeg]

def INSTANCE_HIDDEN_RE : List Piece := [.word "instance", .group isSeg, .group isSeg, .word "item", .group isSeg]

def addHidden (data : OverlayRenderData) (variant : String) (s : Preparing) (address : String) : Preparing :=
  match exec LIST_HIDDEN_RE (segments address) with
  | some [listId, itemId] =>
    let key := s!"{listId}/{itemId}"
    if InsertionMap.has (itemIndex data) key then { s with overlay.listHidden := s.overlay.listHidden ++ [key] }
    else s.refuse variant address "no such list entry"
  | _ =>
    match exec INSTANCE_HIDDEN_RE (segments address) with
    | some [ci, f, itemId] => { s with overlay.instanceHidden := s.overlay.instanceHidden ++ [s!"{ci}/{f}/{itemId}"] }
    | _ => s.refuse variant address "not an entry address"

def prepareOverlay (data : OverlayRenderData) (variant : String) (overlay : ListVariantOverlay) : Preparing :=
  overlay.hidden.foldl (addHidden data variant)
    (overlay.values.foldl (addValue zodIssues data variant) ⟨.empty, []⟩)

def preparedOf (data : OverlayRenderData) (variant : String) : Option PreparedOverlay :=
  (get data.overlays variant).map fun overlay => (prepareOverlay zodIssues data variant overlay).overlay

/-! ### Reading an overlay -/

namespace PreparedOverlay

def listValue (o : PreparedOverlay) (listId itemId field : String) : Option Json :=
  (get o.listValues s!"{listId}/{itemId}").bind fun inner => get inner field

def instanceValue (o : PreparedOverlay) (ci field itemId itemField : String) : Option Json :=
  (get o.instanceValues s!"{ci}/{field}/{itemId}").bind fun inner => get inner itemField

def pageProp (o : PreparedOverlay) (pageId prop : String) : Option Json :=
  (get o.pageProps pageId).bind fun inner => get inner prop

end PreparedOverlay

/-! ### A page's own lists -/

/-- What the resolver needs of a module field that stores its own entries. -/
structure LocalField where
  name : String
  listType : String
  default : Option Json

/-- A text property of a stored entry that was checked. -/
def textOf (name : String) (fields : Fields) : String :=
  match lookup name fields with
  | some (.str s) => s
  | _ => ""

mutual

/-- The ids of checked entries with their nodes, each before its children. -/
def checkedEntry : Json → List (String × String)
  | .obj fields => (textOf "id" fields, textOf "node" fields) :: checkedChildren fields
  | _ => []

def checkedEntries : List Json → List (String × String)
  | [] => []
  | v :: rest => checkedEntry v ++ checkedEntries rest

def checkedChildren : Fields → List (String × String)
  | [] => []
  | f :: fs => if f.1 = "children" then checkedArray f.2 else checkedChildren fs

def checkedArray : Json → List (String × String)
  | .arr items => checkedEntries items
  | _ => []

end

/-- The issues of a page, with a new one unless its address has one already. -/
def report (issues : List ListOverlayIssue) (issue : ListOverlayIssue) : List ListOverlayIssue :=
  if issues.any fun i => i.address == issue.address then issues else issues ++ [issue]

structure PageOverlay where
  variant : Option String
  overlay : Option PreparedOverlay

def pageOverlay (data : OverlayRenderData) (pageId : Option String) : PageOverlay :=
  let variant := pageId.bind data.variantOf
  ⟨variant, variant.bind (preparedOf zodIssues data)⟩

namespace Overlay

variable (data : OverlayRenderData) (page : PageOverlay)

def unknownValues (variant ci field itemId : String) (node : Option NodeDef) (issues : List ListOverlayIssue)
    (values : Fields) : List ListOverlayIssue :=
  values.foldl (fun issues value =>
    let address := s!"instance/{ci}/{field}/item/{itemId}/{value.1}"
    if node.any fun n => n.fields.any fun x => x.name == value.1 then issues
    else report issues ⟨variant, address,
      if node.isSome then "the entry's node declares no such field" else "no such list entry"⟩) issues

/-- The values of one key of the overlay, when it is a key of this list. -/
def unknownEntry (variant ci field : String) (fieldsByItem : List (String × Option NodeDef))
    (issues : List ListOverlayIssue) (entry : String × Fields) : List ListOverlayIssue :=
  let prefix_ := s!"{ci}/{field}/"
  if prefix_.toList.isPrefixOf entry.1.toList then
    let itemId := String.ofList (entry.1.toList.drop prefix_.toList.length)
    unknownValues variant ci field itemId ((get fieldsByItem itemId).join) issues entry.2
  else issues

def unknownEntries (variant ci field : String) (type : ListTypeDef) (items : List Json) (o : PreparedOverlay)
    (issues : List ListOverlayIssue) : List ListOverlayIssue :=
  let fieldsByItem := InsertionMap.setAll [] ((checkedEntries items).map fun e => (e.1, type.node e.2))
  o.instanceValues.foldl (unknownEntry variant ci field fieldsByItem) issues

/-- `resolveField` of a field that stores its own entries: the checked entries or a marker, and the page's issues. -/
def resolveLocal (field : LocalField) (value : Option Json) (ci : Option String) (issues : List ListOverlayIssue) :
    Except String (List Json) × List ListOverlayIssue :=
  match get data.listTypes field.listType with
  | none => (.error s!"list-type-missing:{field.listType}", issues)
  | some type =>
    let present := fun (v : Option Json) => v.filter fun
      | .null => false
      | _ => true
    match present ((present value).or field.default) with
    | none => (.ok [], issues)
    | some raw =>
      match checkTree type raw field.name with
      | .error marker => (.error marker, issues)
      | .ok items =>
        match ci, page.overlay, page.variant with
        | some ci, some o, some variant => (.ok items, unknownEntries variant ci field.name type items o issues)
        | _, _, _ => (.ok items, issues)

/-- `checkOverlay(item, f, v)`: whether the overlay's value is used, and the page's issues. -/
def checkOverlay (field : LocalField) (ci itemId : String) (f : FieldDef) (v : Json) (issues : List ListOverlayIssue) :
    Bool × List ListOverlayIssue :=
  let address := s!"instance/{ci}/{field.name}/item/{itemId}/{f.name}"
  match overlayValueProblem zodIssues (some f) v address, page.variant with
  | none, _ => (true, issues)
  | some problem, some variant => (false, report issues ⟨variant, address, problem⟩)
  | some _, none => (false, issues)

/-- `storedValue(f)` of an entry of a list the field stores: the value, and the page's issues. -/
def storedValue (field : LocalField) (ci : Option String) (itemId : String) (values : Fields) (f : FieldDef)
    (issues : List ListOverlayIssue) : Option Json × List ListOverlayIssue :=
  let stored := lookup f.name values
  match ci, page.overlay with
  | some ci, some o =>
    match o.instanceValue ci field.name itemId f.name with
    | none => (stored, issues)
    | some v =>
      let (used, issues) := checkOverlay zodIssues page field ci itemId f v issues
      (if used then some v else stored, issues)
  | _, _ => (stored, issues)

/-- What the render of a page asks of the lists its modules store. -/
inductive Ask
  | resolve (field : LocalField) (value : Option Json) (ci : Option String)
  | read (field : LocalField) (ci : Option String) (itemId : String) (values : Fields) (f : FieldDef)

def ask (issues : List ListOverlayIssue) : Ask → List ListOverlayIssue
  | .resolve field value ci => (resolveLocal data page field value ci issues).2
  | .read field ci itemId values f => (storedValue zodIssues page field ci itemId values f issues).2

def asks (asked : List Ask) : List ListOverlayIssue := asked.foldl (ask zodIssues data page) []

end Overlay

/-! ### Keys -/

theorem segments_slash (a b : String) : segments (a ++ "/" ++ b) = segments a ++ segments b := by
  have hlist : (a ++ "/" ++ b).toList = a.toList ++ '/' :: b.toList := by simp
  rw [segments, hlist, List.splitOn_append_cons_self, List.map_append]
  rfl

theorem segments_ne_nil (s : String) : segments s ≠ [] := by
  intro h
  exact List.splitOn_ne_nil _ _ (List.map_eq_nil_iff.1 h)

theorem eq_of_segments {s p : String} (h : segments s = [p]) : s = p := by
  have hjoined := joined_segments s
  rw [h] at hjoined
  rw [← hjoined]
  simp [joined, List.intercalate]

theorem segments_of_isSeg {s : String} (h : isSeg s = true) : segments s = [s] := by
  rw [segments, List.splitOn_eq_singleton (slash_of_isSeg h)]
  simp

variable {i : ListOverlayIssue} {variant ci field itemId address : String} {data : OverlayRenderData}
  {values : Fields} {s : Preparing} {issues : List ListOverlayIssue} {o : PreparedOverlay}

theorem names_of_key {c f i : String} (hc : isSeg c = true) (hf : isSeg f = true) (hi : isSeg i = true)
    (h : ci ++ "/" ++ field ++ "/" ++ itemId = c ++ "/" ++ f ++ "/" ++ i) : ci = c ∧ field = f ∧ itemId = i := by
  have hsegments := congrArg segments h
  simp only [segments_slash, segments_of_isSeg hc, segments_of_isSeg hf, segments_of_isSeg hi] at hsegments
  obtain ⟨x, xs, hx⟩ := List.exists_cons_of_ne_nil (segments_ne_nil ci)
  obtain ⟨y, ys, hy⟩ := List.exists_cons_of_ne_nil (segments_ne_nil field)
  obtain ⟨z, zs, hz⟩ := List.exists_cons_of_ne_nil (segments_ne_nil itemId)
  rw [hx, hy, hz] at hsegments
  have hlength := congrArg List.length hsegments
  simp only [List.length_append, List.length_cons, List.length_nil] at hlength
  obtain rfl := List.length_eq_zero_iff.1 (by omega : xs.length = 0)
  obtain rfl := List.length_eq_zero_iff.1 (by omega : ys.length = 0)
  obtain rfl := List.length_eq_zero_iff.1 (by omega : zs.length = 0)
  simp only [List.cons_append, List.nil_append, List.cons.injEq, and_true] at hsegments
  exact ⟨(eq_of_segments hx).trans hsegments.1, (eq_of_segments hy).trans hsegments.2.1,
    (eq_of_segments hz).trans hsegments.2.2⟩

theorem names_of_listKey {listId l i : String} (hl : isSeg l = true) (hi : isSeg i = true)
    (h : listId ++ "/" ++ itemId = l ++ "/" ++ i) : listId = l ∧ itemId = i := by
  have hsegments := congrArg segments h
  simp only [segments_slash, segments_of_isSeg hl, segments_of_isSeg hi] at hsegments
  obtain ⟨x, xs, hx⟩ := List.exists_cons_of_ne_nil (segments_ne_nil listId)
  obtain ⟨y, ys, hy⟩ := List.exists_cons_of_ne_nil (segments_ne_nil itemId)
  rw [hx, hy] at hsegments
  have hlength := congrArg List.length hsegments
  simp only [List.length_append, List.length_cons, List.length_nil] at hlength
  obtain rfl := List.length_eq_zero_iff.1 (by omega : xs.length = 0)
  obtain rfl := List.length_eq_zero_iff.1 (by omega : ys.length = 0)
  simp only [List.cons_append, List.nil_append, List.cons.injEq, and_true] at hsegments
  exact ⟨(eq_of_segments hx).trans hsegments.1, (eq_of_segments hy).trans hsegments.2⟩

theorem format_of_exec {a : ValueAddress} {s : String} (h : exec a.pattern (segments s) = some a.names) :
    a.WellSpelled ∧ formatValueAddress a = s := by
  obtain ⟨hfits, hfill⟩ := exec_eq_some_iff.1 h
  exact ⟨hfits, by rw [formatValueAddress_eq, ← hfill, joined_segments]⟩

/-! ### Where the values come from -/

def Sourced (values : Fields) (denotes : String → String → ValueAddress → Prop) (m : List (String × Fields)) : Prop :=
  ∀ p ∈ m, ∀ q ∈ p.2, ∃ a : ValueAddress, denotes p.1 q.1 a ∧ a.WellSpelled ∧ (formatValueAddress a, q.2) ∈ values

theorem Sourced.setIn {denotes : String → String → ValueAddress → Prop} {m : List (String × Fields)}
    {k f : String} {v : Json} {a : ValueAddress} (h : Sourced values denotes m) (ha : denotes k f a)
    (hspelled : a.WellSpelled) (hmem : (formatValueAddress a, v) ∈ values) :
    Sourced values denotes (setIn m k f v) := by
  intro p hp q hq
  rcases InsertionMap.mem_of_mem_set hp with hp | rfl
  · exact h p hp q hq
  · rcases InsertionMap.mem_of_mem_set hq with hq | rfl
    · cases hget : get m k with
      | none =>
        rw [hget] at hq
        cases hq
      | some inner =>
        rw [hget] at hq
        exact h _ (InsertionMap.mem_of_get hget) q hq
    · exact ⟨a, ha, hspelled, hmem⟩

structure SourcedOverlay (values : Fields) (o : PreparedOverlay) : Prop where
  lists : Sourced values (fun k f a => ∃ l i, a = .list l i f ∧ k = l ++ "/" ++ i) o.listValues
  instances : Sourced values (fun k g a => ∃ c f i, a = .instance_ c f i g ∧ k = c ++ "/" ++ f ++ "/" ++ i) o.instanceValues
  pages : Sourced values (fun k f a => a = .pageProp k f) o.pageProps

theorem SourcedOverlay.empty (values : Fields) : SourcedOverlay values .empty := by
  constructor <;> exact fun p hp => (List.not_mem_nil hp).elim

theorem sourced_addValue
    {entry : String × Json} (h : SourcedOverlay values s.overlay) (hentry : entry ∈ values) :
    SourcedOverlay values (addValue zodIssues data variant s entry).overlay := by
  obtain ⟨address, value⟩ := entry
  have hgiven : ∀ {a : ValueAddress}, exec a.pattern (segments address) = some a.names →
      a.WellSpelled ∧ (formatValueAddress a, value) ∈ values := by
    intro a hexec
    obtain ⟨hspelled, rfl⟩ := format_of_exec hexec
    exact ⟨hspelled, hentry⟩
  unfold addValue
  dsimp only
  split
  · rename_i listId itemId fieldName hexec
    obtain ⟨hspelled, hmem⟩ := @hgiven (.list listId itemId fieldName) hexec
    split
    · exact h
    · split
      · exact h
      · exact ⟨h.lists.setIn ⟨_, _, rfl, rfl⟩ hspelled hmem, h.instances, h.pages⟩
  · split
    · rename_i ci f itemId itemField hexec
      obtain ⟨hspelled, hmem⟩ := @hgiven (.instance_ ci f itemId itemField) hexec
      exact ⟨h.lists, h.instances.setIn ⟨_, _, _, rfl, rfl⟩ hspelled hmem, h.pages⟩
    · split
      · rename_i pageId prop hexec
        obtain ⟨hspelled, hmem⟩ := @hgiven (.pageProp pageId prop) hexec
        split
        · exact h
        · split
          · exact h
          · exact ⟨h.lists, h.instances, h.pages.setIn rfl hspelled hmem⟩
      · exact h

theorem sourced_addHidden (h : SourcedOverlay values s.overlay) :
    SourcedOverlay values (addHidden data variant s address).overlay := by
  unfold addHidden
  split
  · dsimp only
    split <;> exact ⟨h.lists, h.instances, h.pages⟩
  · split <;> exact ⟨h.lists, h.instances, h.pages⟩

theorem sourced_prepareOverlay (data : OverlayRenderData) (variant : String) (overlay : ListVariantOverlay) :
    SourcedOverlay overlay.values (prepareOverlay zodIssues data variant overlay).overlay := by
  have hvalues : ∀ (entries : Fields) (s : Preparing), (∀ e ∈ entries, e ∈ overlay.values) →
      SourcedOverlay overlay.values s.overlay →
      SourcedOverlay overlay.values (entries.foldl (addValue zodIssues data variant) s).overlay := by
    intro entries
    induction entries with
    | nil => exact fun s _ h => h
    | cons e entries ih =>
      intro s hmem h
      exact ih _ (fun e he => hmem e (List.mem_cons_of_mem _ he))
        (sourced_addValue zodIssues h (hmem e List.mem_cons_self))
  have hhidden : ∀ (addresses : List String) (s : Preparing), SourcedOverlay overlay.values s.overlay →
      SourcedOverlay overlay.values (addresses.foldl (addHidden data variant) s).overlay := by
    intro addresses
    induction addresses with
    | nil => exact fun s h => h
    | cons a addresses ih => exact fun s h => ih _ (sourced_addHidden h)
  exact hhidden _ _ (hvalues _ _ (fun _ he => he) (SourcedOverlay.empty _))

/-! ### What a page reports -/

theorem mem_report {issue : ListOverlayIssue} (h : i ∈ report issues issue) :
    i ∈ issues ∨ i = issue := by
  unfold report at h
  split at h
  · exact Or.inl h
  · rcases List.mem_append.1 h with h | h
    · exact Or.inl h
    · exact Or.inr (List.mem_singleton.1 h)

theorem SourcedOverlay.instance (h : SourcedOverlay values o) {inner : Fields} {q : String × Json}
    (hmem : (ci ++ "/" ++ field ++ "/" ++ itemId, inner) ∈ o.instanceValues) (hq : q ∈ inner) :
    (ValueAddress.instance_ ci field itemId q.1).WellSpelled ∧
      (formatValueAddress (.instance_ ci field itemId q.1), q.2) ∈ values := by
  obtain ⟨a, ⟨c, f, i, rfl, hkey⟩, hspelled, hgiven⟩ := h.instances _ hmem q hq
  have hspelled' := hspelled
  obtain ⟨hc, hf, hi, -⟩ := hspelled'
  obtain ⟨rfl, rfl, rfl⟩ := names_of_key hc hf hi hkey
  exact ⟨hspelled, hgiven⟩

structure ReadAtAddress (values : Fields) (o : PreparedOverlay) : Prop where
  list : ∀ l i f v, o.listValue l i f = some v → (formatValueAddress (.list l i f), v) ∈ values
  instance_ : ∀ c f i g v, o.instanceValue c f i g = some v → (formatValueAddress (.instance_ c f i g), v) ∈ values
  page : ∀ p f v, o.pageProp p f = some v → (formatValueAddress (.pageProp p f), v) ∈ values

theorem SourcedOverlay.readAtAddress (h : SourcedOverlay values o) :
    ReadAtAddress values o := by
  refine ⟨fun l i f v hv => ?_, fun c f i g v hv => ?_, fun p f v hv => ?_⟩
  · obtain ⟨inner, hinner, hv⟩ := Option.bind_eq_some_iff.1 hv
    obtain ⟨a, ⟨l', i', rfl, hkey⟩, hspelled, hgiven⟩ :=
      h.lists _ (InsertionMap.mem_of_get hinner) _ (InsertionMap.mem_of_get hv)
    obtain ⟨rfl, rfl⟩ := names_of_listKey hspelled.1 hspelled.2.1 hkey
    exact hgiven
  · obtain ⟨inner, hinner, hv⟩ := Option.bind_eq_some_iff.1 hv
    exact (h.instance (InsertionMap.mem_of_get hinner) (InsertionMap.mem_of_get hv)).2
  · obtain ⟨inner, hinner, hv⟩ := Option.bind_eq_some_iff.1 hv
    obtain ⟨a, rfl, -, hgiven⟩ := h.pages _ (InsertionMap.mem_of_get hinner) _ (InsertionMap.mem_of_get hv)
    exact hgiven

def Overlay.Ask.Denotes : Overlay.Ask → ValueAddress → Prop
  | .resolve field _ ci, a => ∃ c i g, ci = some c ∧ a = .instance_ c field.name i g
  | .read field ci itemId _ f, a => ∃ c, ci = some c ∧ a = .instance_ c field.name itemId f.name

def Addressed (values : Fields) (q : Overlay.Ask) (i : ListOverlayIssue) : Prop :=
  ∃ a : ValueAddress, q.Denotes a ∧ a.WellSpelled ∧ i.address = formatValueAddress a ∧ ∃ v, (i.address, v) ∈ values

theorem mem_unknownValues {node : Option NodeDef} :
    ∀ {values : Fields} {issues : List ListOverlayIssue},
      i ∈ Overlay.unknownValues variant ci field itemId node issues values →
      i ∈ issues ∨ ∃ q ∈ values, i.address = formatValueAddress (.instance_ ci field itemId q.1) := by
  intro values
  induction values with
  | nil => exact fun h => Or.inl h
  | cons q values ih =>
    intro issues h
    rcases ih h with h | ⟨q', hq', haddress⟩
    · dsimp only at h
      split at h
      · exact Or.inl h
      · rcases mem_report h with h | rfl
        · exact Or.inl h
        · exact Or.inr ⟨q, List.mem_cons_self, rfl⟩
    · exact Or.inr ⟨q', List.mem_cons_of_mem _ hq', haddress⟩

theorem mem_unknownEntry {fieldsByItem : List (String × Option NodeDef)} {entry : String × Fields}
    (h : i ∈ Overlay.unknownEntry variant ci field fieldsByItem issues entry) :
    i ∈ issues ∨ ∃ itemId, entry.1 = ci ++ "/" ++ field ++ "/" ++ itemId ∧
      ∃ q ∈ entry.2, i.address = formatValueAddress (.instance_ ci field itemId q.1) := by
  unfold Overlay.unknownEntry at h
  dsimp only at h
  split at h
  · rename_i hprefix
    rcases mem_unknownValues h with h | ⟨q, hq, haddress⟩
    · exact Or.inl h
    · obtain ⟨rest, hrest⟩ := List.isPrefixOf_iff_prefix.1 hprefix
      refine Or.inr ⟨_, ?_, q, hq, haddress⟩
      apply String.toList_injective
      rw [← hrest, List.drop_left]
      simp [toString]
  · exact Or.inl h

theorem mem_unknownEntries {type : ListTypeDef} {items : List Json}
    (h : i ∈ Overlay.unknownEntries variant ci field type items o issues) :
    i ∈ issues ∨ ∃ itemId inner, (ci ++ "/" ++ field ++ "/" ++ itemId, inner) ∈ o.instanceValues ∧
      ∃ q ∈ inner, i.address = formatValueAddress (.instance_ ci field itemId q.1) := by
  unfold Overlay.unknownEntries at h
  dsimp only at h
  generalize InsertionMap.setAll [] ((checkedEntries items).map fun e => (e.1, type.node e.2)) = fieldsByItem at h
  generalize o.instanceValues = entries at h ⊢
  induction entries generalizing issues with
  | nil => exact Or.inl h
  | cons entry entries ih =>
    rcases ih h with h | ⟨itemId, inner, hinner, hq⟩
    · rcases mem_unknownEntry h with h | ⟨itemId, hkey, hq⟩
      · exact Or.inl h
      · exact Or.inr ⟨itemId, entry.2, by rw [← hkey]; exact List.mem_cons_self, hq⟩
    · exact Or.inr ⟨itemId, inner, List.mem_cons_of_mem _ hinner, hq⟩

theorem mem_ask {page : PageOverlay}
    {q : Overlay.Ask} (hsourced : ∀ o, page.overlay = some o → SourcedOverlay values o)
    (h : i ∈ Overlay.ask zodIssues data page issues q) : i ∈ issues ∨ Addressed values q i := by
  cases q with
  | resolve field value ci =>
    unfold Overlay.ask Overlay.resolveLocal at h
    dsimp only at h
    split at h
    · exact Or.inl h
    split at h
    · exact Or.inl h
    split at h
    · exact Or.inl h
    split at h
    · rename_i ci o variant hoverlay _
      rcases mem_unknownEntries h with h | ⟨itemId, inner, hinner, q, hq, haddress⟩
      · exact Or.inl h
      · obtain ⟨hspelled, hgiven⟩ := (hsourced o hoverlay).instance hinner hq
        rw [← haddress] at hgiven
        exact Or.inr ⟨_, ⟨_, _, _, rfl, rfl⟩, hspelled, haddress, _, hgiven⟩
    · exact Or.inl h
  | read field ci itemId fields f =>
    unfold Overlay.ask Overlay.storedValue at h
    dsimp only at h
    split at h
    · rename_i ci o hoverlay
      split at h
      · exact Or.inl h
      · rename_i v hvalue
        unfold Overlay.checkOverlay at h
        dsimp only at h
        split at h
        · exact Or.inl h
        · rcases mem_report h with h | rfl
          · exact Or.inl h
          · obtain ⟨inner, hinner, hv⟩ := Option.bind_eq_some_iff.1 hvalue
            obtain ⟨hspelled, hgiven⟩ := (hsourced o hoverlay).instance (InsertionMap.mem_of_get hinner)
              (InsertionMap.mem_of_get hv)
            exact Or.inr ⟨_, ⟨_, rfl, rfl⟩, hspelled, rfl, _, hgiven⟩
        · exact Or.inl h
    · exact Or.inl h

theorem mem_asks {page : PageOverlay}
    (hsourced : ∀ o, page.overlay = some o → SourcedOverlay values o) (asked : List Overlay.Ask)
    (h : i ∈ Overlay.asks zodIssues data page asked) : ∃ q ∈ asked, Addressed values q i := by
  suffices hleft : ∀ (asked : List Overlay.Ask) (issues : List ListOverlayIssue),
      i ∈ asked.foldl (Overlay.ask zodIssues data page) issues → i ∈ issues ∨ ∃ q ∈ asked, Addressed values q i by
    rcases hleft asked [] h with h | h
    · cases h
    · exact h
  intro asked
  induction asked with
  | nil => exact fun issues h => Or.inl h
  | cons q asked ih =>
    intro issues h
    rcases ih _ h with h | ⟨q', hq', haddressed⟩
    · rcases mem_ask zodIssues hsourced h with h | haddressed
      · exact Or.inl h
      · exact Or.inr ⟨q, List.mem_cons_self, haddressed⟩
    · exact Or.inr ⟨q', List.mem_cons_of_mem _ hq', haddressed⟩

theorem sourced_pageOverlay {pageId : Option String}
    (h : (pageOverlay zodIssues data pageId).overlay = some o) :
    ∃ variant overlay, get data.overlays variant = some overlay ∧ pageId.bind data.variantOf = some variant ∧
      SourcedOverlay overlay.values o := by
  obtain ⟨variant, hvariant, hprepared⟩ := Option.bind_eq_some_iff.1 h
  obtain ⟨overlay, hoverlay, rfl⟩ := Option.map_eq_some_iff.1 hprepared
  exact ⟨variant, overlay, hoverlay, hvariant, sourced_prepareOverlay zodIssues data variant overlay⟩

/-! ### What preparing an overlay reports -/

/-- An issue found while an overlay is prepared: its address is one the overlay gave, and one of a value unless it is
refused as none. -/
def Repeated (overlay : ListVariantOverlay) (i : ListOverlayIssue) : Prop :=
  (∃ v, (i.address, v) ∈ overlay.values ∧
      (i.reason = "not a rendered value address" ∨ ∃ a, parseValueAddress i.address = some a)) ∨
    i.address ∈ overlay.hidden

theorem mem_refuse {reason : String}
    (h : i ∈ (s.refuse variant address reason).issues) : i ∈ s.issues ∨ i = ⟨variant, address, reason⟩ := by
  rcases List.mem_append.1 h with h | h
  · exact Or.inl h
  · exact Or.inr (List.mem_singleton.1 h)

theorem mem_addValue {entry : String × Json} (h : i ∈ (addValue zodIssues data variant s entry).issues) :
    i ∈ s.issues ∨ i.address = entry.1 ∧
      (i.reason = "not a rendered value address" ∨ ∃ a, parseValueAddress i.address = some a) := by
  have hparse : ∀ {a : ValueAddress}, exec a.pattern (segments entry.1) = some a.names →
      ∃ a, parseValueAddress entry.1 = some a := by
    intro a hexec
    obtain ⟨hspelled, hformat⟩ := format_of_exec hexec
    exact ⟨a, hformat ▸ (parseValueAddress_format_iff a).2 hspelled⟩
  have hrefused : ∀ {reason}, i ∈ (s.refuse variant entry.1 reason).issues →
      (reason = "not a rendered value address" ∨ ∃ a, parseValueAddress entry.1 = some a) →
      i ∈ s.issues ∨ i.address = entry.1 ∧
        (i.reason = "not a rendered value address" ∨ ∃ a, parseValueAddress i.address = some a) := by
    intro reason hmem hwhy
    rcases mem_refuse hmem with hmem | rfl
    · exact Or.inl hmem
    · exact Or.inr ⟨rfl, hwhy⟩
  unfold addValue at h
  dsimp only at h
  split at h
  · rename_i listId itemId fieldName hexec
    have hvalue : ∀ {r : Prop}, r ∨ ∃ a, parseValueAddress entry.1 = some a := Or.inr (@hparse (.list listId itemId fieldName) hexec)
    split at h
    · exact hrefused h hvalue
    · split at h
      · exact hrefused h hvalue
      · exact Or.inl h
  · split at h
    · exact Or.inl h
    · split at h
      · rename_i pageId prop hexec
        have hvalue : ∀ {r : Prop}, r ∨ ∃ a, parseValueAddress entry.1 = some a := Or.inr (@hparse (.pageProp pageId prop) hexec)
        split at h
        · exact hrefused h hvalue
        · split at h
          · exact hrefused h hvalue
          · exact Or.inl h
      · exact hrefused h (Or.inl rfl)

theorem mem_addHidden (h : i ∈ (addHidden data variant s address).issues) :
    i ∈ s.issues ∨ i.address = address := by
  have hrefused : ∀ {reason}, i ∈ (s.refuse variant address reason).issues → i ∈ s.issues ∨ i.address = address := by
    intro reason hmem
    rcases mem_refuse hmem with hmem | rfl
    · exact Or.inl hmem
    · exact Or.inr rfl
  unfold addHidden at h
  split at h
  · dsimp only at h
    split at h
    · exact Or.inl h
    · exact hrefused h
  · split at h
    · exact Or.inl h
    · exact hrefused h

theorem mem_prepareOverlay {overlay : ListVariantOverlay}
    (h : i ∈ (prepareOverlay zodIssues data variant overlay).issues) : Repeated overlay i := by
  have hvalues : ∀ (entries : Fields) (s : Preparing), (∀ e ∈ entries, e ∈ overlay.values) →
      (∀ i ∈ s.issues, Repeated overlay i) →
      ∀ i ∈ (entries.foldl (addValue zodIssues data variant) s).issues, Repeated overlay i := by
    intro entries
    induction entries with
    | nil => exact fun s _ h => h
    | cons e entries ih =>
      intro s hmem h
      refine ih _ (fun e he => hmem e (List.mem_cons_of_mem _ he)) fun i hi => ?_
      rcases mem_addValue zodIssues hi with hi | ⟨haddress, hwhy⟩
      · exact h i hi
      · refine Or.inl ⟨e.2, ?_, hwhy⟩
        rw [haddress]
        exact hmem e List.mem_cons_self
  have hhidden : ∀ (addresses : List String) (s : Preparing), (∀ a ∈ addresses, a ∈ overlay.hidden) →
      (∀ i ∈ s.issues, Repeated overlay i) →
      ∀ i ∈ (addresses.foldl (addHidden data variant) s).issues, Repeated overlay i := by
    intro addresses
    induction addresses with
    | nil => exact fun s _ h => h
    | cons a addresses ih =>
      intro s hmem h
      refine ih _ (fun a ha => hmem a (List.mem_cons_of_mem _ ha)) fun i hi => ?_
      rcases mem_addHidden hi with hi | rfl
      · exact h i hi
      · exact Or.inr (hmem _ List.mem_cons_self)
  refine hhidden _ _ (fun _ ha => ha) ?_ i h
  exact hvalues _ _ (fun _ he => he) fun i hi => (List.not_mem_nil hi).elim

/-! ### The addresses of a render -/

/-- An address is read back exactly when it is well spelled, and what is read is written as it was.  A page reports
issues under addresses of what was asked for, as its overlay gave them; a value it reads of the overlay is the one at the
address of what renders; and preparing an overlay repeats its own addresses. -/
theorem addresses_round_trip (data : OverlayRenderData) :
    (∀ a, parseValueAddress (formatValueAddress a) = some a ↔ a.WellSpelled) ∧
    (∀ s a, parseValueAddress s = some a → formatValueAddress a = s) ∧
    (∀ pageId asked, ∀ i ∈ Overlay.asks zodIssues data (pageOverlay zodIssues data pageId) asked,
      ∃ q ∈ asked, ∃ a : ValueAddress, q.Denotes a ∧ i.address = formatValueAddress a ∧
        parseValueAddress i.address = some a ∧
        ∃ variant overlay v, pageId.bind data.variantOf = some variant ∧ get data.overlays variant = some overlay ∧
          (i.address, v) ∈ overlay.values) ∧
    (∀ pageId o, (pageOverlay zodIssues data pageId).overlay = some o → ∃ variant overlay,
      get data.overlays variant = some overlay ∧ ReadAtAddress overlay.values o) ∧
    (∀ variant overlay, ∀ i ∈ (prepareOverlay zodIssues data variant overlay).issues, Repeated overlay i) := by
  refine ⟨parseValueAddress_format_iff, fun s a h => formatValueAddress_of_parse h, ?_, fun pageId o ho => ?_,
    fun variant overlay i hi => mem_prepareOverlay zodIssues hi⟩
  case refine_2 =>
    obtain ⟨variant, overlay, hoverlay, -, hsourced⟩ := sourced_pageOverlay zodIssues ho
    exact ⟨variant, overlay, hoverlay, hsourced.readAtAddress⟩
  intro pageId asked i hi
  cases hpage : (pageOverlay zodIssues data pageId).overlay with
  | none =>
    have hnone : ∀ o, (pageOverlay zodIssues data pageId).overlay = some o → SourcedOverlay [] o := by
      rw [hpage]
      rintro o ⟨⟩
    obtain ⟨q, -, a, -, -, -, v, hv⟩ := mem_asks zodIssues hnone asked hi
    cases hv
  | some o =>
    obtain ⟨variant, overlay, hoverlay, hvariant, hsourced⟩ := sourced_pageOverlay zodIssues hpage
    have hown : ∀ o', (pageOverlay zodIssues data pageId).overlay = some o' → SourcedOverlay overlay.values o' := by
      rw [hpage]
      rintro o' ⟨⟩
      exact hsourced
    obtain ⟨q, hq, a, hdenotes, hspelled, haddress, v, hv⟩ := mem_asks zodIssues hown asked hi
    exact ⟨q, hq, a, hdenotes, haddress, haddress ▸ (parseValueAddress_format_iff a).2 hspelled, variant, overlay, v,
      hvariant, hoverlay, hv⟩

/-- An entry id with a capital letter is written, and not read back. -/
theorem capital_not_read_back :
    parseValueAddress (formatValueAddress (.list "menu" "Home" "label")) = none := by
  decide +kernel

namespace Overlay

/-- An overlay with one value, of an entry that the list does not have. -/
def ghostData : OverlayRenderData :=
  { pages := []
    media := []
    pageVariants := [("home", "de")]
    listTypes := [("bullets", ⟨"bullets", .content, ⟨[], none⟩, [], none⟩)]
    lists := []
    pageTypes := []
    overlays := [("de", ⟨[("instance/ci/features/item/x/text", .str "Schnell")], []⟩)] }

def ghostAsk : Ask := .resolve ⟨"features", "bullets", none⟩ (some (.arr [])) (some "ci")

def anyIssue : ZodIssues := fun _ _ => ⟨[⟨.other, [], "invalid"⟩], List.cons_ne_nil _ _⟩

theorem addresses_round_trip_ghost :
    ∃ a, ghostAsk.Denotes a ∧ parseValueAddress "instance/ci/features/item/x/text" = some a := by
  have hissue : ⟨"de", "instance/ci/features/item/x/text", "no such list entry"⟩ ∈
      asks anyIssue ghostData (pageOverlay anyIssue ghostData (some "home")) [ghostAsk] := by decide +kernel
  obtain ⟨q, hq, a, hdenotes, -, hparse, -⟩ :=
    (addresses_round_trip anyIssue ghostData).2.2.1 (some "home") [ghostAsk] _ hissue
  rw [List.mem_singleton] at hq
  subst hq
  exact ⟨a, hdenotes, hparse⟩

end Overlay

end CaeloCms.Lists
