import CaeloCms.Lists.WriteRead

/-!
# Validating a stored tree again

What `validateListItems` stores of an input without issues is a fixed point: its ids, values, queries and children
pass the same checks under the same paths and are stored as they are, and no id is minted again.
-/

namespace CaeloCms.Lists

open Link (isUuid)

/-! ### A stored tree as an input -/

/-- What the input schema asks of a stored entry. -/
def Admitted (e : Nat × ListItem) : Prop :=
  isUuid e.2.id.toList = true ∧ nodeValue (some (.str e.2.node)) = some e.2.node

mutual

theorem parseItem_itemJson (it : ListItem) (depth : Nat) (h : ∀ e ∈ itemEntry depth it, Admitted e) :
    parseItem (itemJson it) = some (asInput it) := by
  obtain ⟨id, node, values, children, query⟩ := it
  obtain ⟨hid, hnode⟩ : Admitted (depth, ⟨id, node, values, children, query⟩) := h _ (by simp [itemEntry])
  have hbelow : parseItems (itemsJson children) = some (asInputs children) :=
    parseItems_itemsJson children (depth + 1) fun e he => h e (by simp [itemEntry, he])
  have hid' : idValue (some (.str id)) = some (some id) := if_pos hid
  unfold itemJson parseItem asInput
  by_cases hempty : children.isEmpty = true
  · have hnil : children = [] := List.isEmpty_iff.1 hempty
    subst hnil
    cases query with
    | none => simp [lookup, optional, recordValue, parseChildren, asInputs, isItemKey, hid', hnode]
    | some q => simp [lookup, optional, recordValue, parseChildren, asInputs, isItemKey, hid', hnode]
  · cases query with
    | none => simp [lookup, optional, recordValue, parseChildren, parseChildArray, isItemKey, hid', hnode, hempty, hbelow]
    | some q => simp [lookup, optional, recordValue, parseChildren, parseChildArray, isItemKey, hid', hnode, hempty, hbelow]

theorem parseItems_itemsJson (items : List ListItem) (depth : Nat) (h : ∀ e ∈ itemEntries depth items, Admitted e) :
    parseItems (itemsJson items) = some (asInputs items) := by
  cases items with
  | nil => rfl
  | cons it rest =>
    have hit := parseItem_itemJson it depth fun e he => h e (by simp [itemEntries, he])
    have hrest := parseItems_itemsJson rest depth fun e he => h e (by simp [itemEntries, he])
    unfold itemsJson parseItems asInputs
    rw [hit, hrest]
    rfl

end

/-! ### What the schema lets through -/

def WellFormedInput (it : ListItemInput) : Prop :=
  (∀ id, it.id = some id → isUuid id.toList = true) ∧ nodeValue (some (.str it.node)) = some it.node

theorem idValue_eq_some {v : Option Json} {id : String} (h : idValue v = some (some id)) : isUuid id.toList = true := by
  unfold idValue at h
  split at h
  · cases h
  · split at h
    · cases h
      assumption
    · cases h
  · cases h

theorem nodeValue_eq_some {v : Option Json} {node : String} (h : nodeValue v = some node) : v = some (.str node) := by
  unfold nodeValue at h
  split at h
  · split at h
    · cases h
      rfl
    · cases h
  · cases h

mutual

theorem parseItem_wellFormed {v : Json} {it : ListItemInput} (h : parseItem v = some it) (depth : Nat) :
    ∀ e ∈ inputEntry depth it, WellFormedInput e.2 := by
  cases v with
  | obj fields =>
    unfold parseItem at h
    simp only [Option.bind_eq_bind, Option.bind_eq_some_iff] at h
    obtain ⟨id, hid, node, hnode, values, -, children, hchildren, query, -, hkeys⟩ := h
    split at hkeys
    · cases hkeys
      intro e he
      rcases List.mem_cons.1 he with rfl | he
      · refine ⟨?_, ?_⟩
        · rintro id rfl
          exact idValue_eq_some hid
        · show nodeValue (some (.str node)) = some node
          rw [← nodeValue_eq_some hnode]
          exact hnode
      · exact parseChildren_wellFormed hchildren (depth + 1) e he
    · cases hkeys
  | null => cases h
  | bool b => cases h
  | num t => cases h
  | str s => cases h
  | arr items => cases h

theorem parseItems_wellFormed {vs : List Json} {items : List ListItemInput} (h : parseItems vs = some items)
    (depth : Nat) : ∀ e ∈ inputEntries depth items, WellFormedInput e.2 := by
  cases vs with
  | nil =>
    cases h
    intro e he
    cases he
  | cons v vs =>
    unfold parseItems at h
    simp only [Option.bind_eq_bind, Option.bind_eq_some_iff] at h
    obtain ⟨it, hit, rest, hrest, hcons⟩ := h
    cases hcons
    intro e he
    rcases List.mem_append.1 he with he | he
    · exact parseItem_wellFormed hit depth e he
    · exact parseItems_wellFormed hrest depth e he

theorem parseChildren_wellFormed {fields : Fields} {items : List ListItemInput} (h : parseChildren fields = some items)
    (depth : Nat) : ∀ e ∈ inputEntries depth items, WellFormedInput e.2 := by
  cases fields with
  | nil =>
    cases h
    intro e he
    cases he
  | cons f fs =>
    unfold parseChildren at h
    split at h
    · obtain ⟨name, v⟩ := f
      cases v with
      | arr vs => exact parseItems_wellFormed h depth
      | null => cases h
      | bool b => cases h
      | num t => cases h
      | str s => cases h
      | obj fields => cases h
    · exact parseChildren_wellFormed h depth

end

theorem parseListItems_wellFormed {input : Json} {items : List ListItemInput} (h : parseListItems input = some items) :
    ∀ e ∈ inputEntries 1 items, WellFormedInput e.2 := by
  unfold parseListItems at h
  split at h
  · exact parseItems_wellFormed h 1
  · cases h

/-! ### The second walk -/

section Walk

variable {zodIssues : ZodIssues} {type : ListTypeDef}

/-- A state of the second walk where the first one was at `s`. -/
structure Follows (s t : WalkState) : Prop where
  count : t.count = s.count
  ids : t.ids = s.ids
  issues : t.issues = []

variable (newId newId' : Nat → String)

variable {it again : ListItemInput} {node : NodeDef} {at_ : String}

theorem storedValue_again (hnodup : (node.fields.map FieldDef.name).Nodup)
    {f : FieldDef} (hf : f ∈ node.fields) : storedValue f (valuesOf it node) = storedValue f it.values := by
  have hlookup : lookup f.name (valuesOf it node) = storedValue f it.values := lookup_valuesOf hnodup hf
  unfold storedValue at hlookup ⊢
  rw [hlookup]
  cases lookup f.name it.values <;> simp

theorem valuesOf_again (hnodup : (node.fields.map FieldDef.name).Nodup) (hvalues : again.values = valuesOf it node) :
    valuesOf again node = valuesOf it node := by
  unfold valuesOf at hvalues ⊢
  apply List.filterMap_congr
  intro f hf
  rw [hvalues]
  exact congrArg _ (storedValue_again hnodup hf)

theorem checkValues_again
    (hnodup : (node.fields.map FieldDef.name).Nodup) (hvalues : again.values = valuesOf it node)
    (h : checkValues zodIssues it node at_ = []) : checkValues zodIssues again node at_ = [] := by
  unfold checkValues at h ⊢
  rw [List.append_eq_nil_iff, List.flatMap_eq_nil_iff] at h ⊢
  constructor
  · intro f hf
    rw [hvalues, storedValue_again hnodup hf]
    exact h.1 f hf
  · -- only declared fields are stored
    rw [hvalues, List.map_eq_nil_iff, List.filter_eq_nil_iff]
    intro v hv
    obtain ⟨f, hf, hstored⟩ := List.mem_filterMap.1 hv
    obtain ⟨w, -, rfl⟩ := Option.map_eq_some_iff.1 hstored
    simpa using ⟨f, hf, rfl⟩

/-- A stored query holds editable knobs only, so it is stored as it is. -/
theorem queryOf_again (hquery : again.query = queryOf it node) :
    queryOf again node = queryOf it node := by
  unfold queryOf at hquery ⊢
  rw [hquery]
  cases it.query with
  | none => rfl
  | some query =>
    cases node.source with
    | none => rfl
    | some source =>
      cases source with
      | query source => simp [List.filter_filter]
      | system name => rfl
      | plugin name => rfl

theorem checkQuery_again
    (hquery : again.query = queryOf it node) (h : checkQuery zodIssues it node at_ = []) :
    checkQuery zodIssues again node at_ = [] := by
  unfold checkQuery
  cases hown : again.query with
  | none => rfl
  | some own =>
    have hq : queryOf it node = some own := hquery.symm.trans hown
    cases hsource : node.source with
    | none => simp [queryOf, hsource] at hq
    | some source =>
      cases source with
      | query source =>
        obtain ⟨hadmitted, heditable⟩ := storedQuery_of_checkQuery hsource h own hq
        simp only [if_pos hadmitted, List.nil_append, List.map_eq_nil_iff, List.filter_eq_nil_iff]
        intro f hf
        rw [heditable f hf]
        simp
      | system name => simp [queryOf, hsource] at hq
      | plugin name => simp [queryOf, hsource] at hq

/-- An id that was no duplicate is none in the second walk, which mints nothing. -/
theorem takeId_again {s t : WalkState} (hfollows : Follows s t)
    (hid : again.id = some (takeId newId it at_ s).1) (h : (takeId newId it at_ s).2.issues = []) :
    (takeId newId' again at_ t).1 = (takeId newId it at_ s).1 ∧
      Follows (takeId newId it at_ s).2 (takeId newId' again at_ t).2 := by
  have htaken : again.id.getD (newId' t.minted) = it.id.getD (newId s.minted) := by
    rw [hid]
    rfl
  unfold takeId at h
  obtain ⟨-, hnew⟩ := List.append_eq_nil_iff.1 h
  refine ⟨htaken, ?_, ?_, ?_⟩
  · exact congrArg (· + 1) hfollows.count
  · unfold takeId
    simp only [htaken, hfollows.ids]
  · unfold takeId
    simp only [htaken, hfollows.ids, hfollows.issues, List.nil_append]
    exact hnew

theorem Follows.report {s t : WalkState} {issues issues' : List ListIssue} (h : Follows s t) (hnone : issues' = []) :
    Follows (s.report issues) (t.report issues') := by
  subst hnone
  exact ⟨h.count, h.ids, by simp [WalkState.report, h.issues]⟩

theorem checkItem_again {allow : List String} {depth : Nat}
    (hnodup : (node.fields.map FieldDef.name).Nodup) (hnode : again.node = it.node)
    (hvalues : again.values = valuesOf it node) (hquery : again.query = queryOf it node)
    (h : checkItem zodIssues type it node allow depth at_ = []) :
    checkItem zodIssues type again node allow depth at_ = [] := by
  unfold checkItem at h ⊢
  simp only [List.append_eq_nil_iff] at h ⊢
  obtain ⟨⟨⟨hallow, hdepth⟩, hchecked⟩, hchecked'⟩ := h
  rw [hnode]
  exact ⟨⟨⟨hallow, hdepth⟩, checkValues_again hnodup hvalues hchecked⟩, checkQuery_again hquery hchecked'⟩

theorem length_walkItems (zodIssues : ZodIssues) (type : ListTypeDef) (items : List ListItemInput) (i depth : Nat)
    (allow : List String) (path : String) (s : WalkState) :
    (walkItems zodIssues type newId items i allow depth path s).1.length = items.length := by
  induction items generalizing i s with
  | nil => rfl
  | cons it rest ih =>
    unfold walkItems
    simp only [List.length_cons, ih]

/-! The walk by the form of an entry. -/

theorem walkItems_cons (it : ListItemInput) (rest : List ListItemInput) (i : Nat) (allow : List String) (depth : Nat)
    (path : String) (s : WalkState) :
    walkItems zodIssues type newId (it :: rest) i allow depth path s =
      ((walkItem zodIssues type newId it allow depth s!"{path}[{i}]" s).1 ::
          (walkItems zodIssues type newId rest (i + 1) allow depth path
            (walkItem zodIssues type newId it allow depth s!"{path}[{i}]" s).2).1,
        (walkItems zodIssues type newId rest (i + 1) allow depth path
          (walkItem zodIssues type newId it allow depth s!"{path}[{i}]" s).2).2) := by
  rw [walkItems]

variable {node : NodeDef} {it : ListItemInput} {allow : List String} {depth : Nat} {at_ : String} {s t : WalkState}

theorem walkItem_leaf (hnode : type.node it.node = some node) (hempty : it.children = []) :
    walkItem zodIssues type newId it allow depth at_ s =
      (⟨(takeId newId it at_ s).1, it.node, valuesOf it node, [], queryOf it node⟩,
        (takeId newId it at_ s).2.report (checkItem zodIssues type it node allow depth at_)) := by
  obtain ⟨id, kind, values, children, query⟩ := it
  cases hempty
  rw [walkItem]
  simp only [hnode, List.isEmpty_nil, if_true]

theorem walkItem_nested {c : ChildrenDef} (hnode : type.node it.node = some node) (hne : it.children.isEmpty = false)
    (hc : node.children = some c) :
    walkItem zodIssues type newId it allow depth at_ s =
      (⟨(takeId newId it at_ s).1, it.node, valuesOf it node,
          (walkItems zodIssues type newId it.children 0 c.allow (depth + 1) s!"{at_}.children"
            (((takeId newId it at_ s).2.report (checkItem zodIssues type it node allow depth at_)).report
              (checkMax it.children c.max s!"{at_}.children"))).1, queryOf it node⟩,
        (walkItems zodIssues type newId it.children 0 c.allow (depth + 1) s!"{at_}.children"
          (((takeId newId it at_ s).2.report (checkItem zodIssues type it node allow depth at_)).report
            (checkMax it.children c.max s!"{at_}.children"))).2) := by
  obtain ⟨id, kind, values, children, query⟩ := it
  rw [walkItem]
  simp only [hnode, hne, hc]
  rfl

/-- An entry walked without an issue is of a known kind, and has children only where its kind takes some. -/
theorem walkItem_forms (h : (walkItem zodIssues type newId it allow depth at_ s).2.issues = []) :
    ∃ node, type.node it.node = some node ∧
      (it.children = [] ∨ it.children.isEmpty = false ∧ ∃ c, node.children = some c) := by
  obtain ⟨id, kind, values, children, query⟩ := it
  rw [walkItem] at h
  cases hnode : type.node kind with
  | none =>
    simp only [hnode] at h
    have hreport := (report_issues h).2
    cases hreport
  | some node =>
    refine ⟨node, rfl, ?_⟩
    simp only [hnode] at h
    cases children with
    | nil => exact .inl rfl
    | cons child children =>
      refine .inr ⟨rfl, ?_⟩
      cases hc : node.children with
      | none =>
        simp only [hc, List.isEmpty_cons, Bool.false_eq_true, if_false] at h
        have hreport := (report_issues h).2
        cases hreport
      | some c => exact ⟨c, rfl⟩

/-- What the second walk makes of the stored entry. -/
def ItemAgain (zodIssues : ZodIssues) (type : ListTypeDef) (it : ListItemInput) : Prop :=
  ∀ allow depth at_ s t, (walkItem zodIssues type newId it allow depth at_ s).2.issues = [] → Follows s t →
    (walkItem zodIssues type newId' (asInput (walkItem zodIssues type newId it allow depth at_ s).1) allow depth at_ t).1 =
        (walkItem zodIssues type newId it allow depth at_ s).1 ∧
      Follows (walkItem zodIssues type newId it allow depth at_ s).2
        (walkItem zodIssues type newId' (asInput (walkItem zodIssues type newId it allow depth at_ s).1) allow depth at_
          t).2

/-- What the second walk makes of a stored level. -/
def ItemsAgain (zodIssues : ZodIssues) (type : ListTypeDef) (items : List ListItemInput) : Prop :=
  ∀ i allow depth path s t, (walkItems zodIssues type newId items i allow depth path s).2.issues = [] → Follows s t →
    (walkItems zodIssues type newId' (asInputs (walkItems zodIssues type newId items i allow depth path s).1) i allow
        depth path t).1 = (walkItems zodIssues type newId items i allow depth path s).1 ∧
      Follows (walkItems zodIssues type newId items i allow depth path s).2
        (walkItems zodIssues type newId' (asInputs (walkItems zodIssues type newId items i allow depth path s).1) i allow
          depth path t).2

theorem checked_again (htype : checkListTypeDef zodIssues type = []) (again : ListItemInput) (hfollows : Follows s t) (hnode : type.node it.node = some node)
    (hid : again.id = some (takeId newId it at_ s).1) (hkind : again.node = it.node)
    (hvalues : again.values = valuesOf it node) (hquery : again.query = queryOf it node)
    (h : ((takeId newId it at_ s).2.report (checkItem zodIssues type it node allow depth at_)).issues = []) :
    (takeId newId' again at_ t).1 = (takeId newId it at_ s).1 ∧
      valuesOf again node = valuesOf it node ∧ queryOf again node = queryOf it node ∧
      Follows ((takeId newId it at_ s).2.report (checkItem zodIssues type it node allow depth at_))
        ((takeId newId' again at_ t).2.report (checkItem zodIssues type again node allow depth at_)) := by
  have hnodup := names_nodup_of_checkListTypeDef htype hnode
  obtain ⟨htaken, hchecked⟩ := report_issues h
  obtain ⟨hsame, htake⟩ := takeId_again newId newId' hfollows hid htaken
  exact ⟨hsame, valuesOf_again hnodup hvalues, queryOf_again hquery,
    htake.report (checkItem_again hnodup hkind hvalues hquery hchecked)⟩

theorem walkItem_again (htype : checkListTypeDef zodIssues type = [])
    (hchildren : ItemsAgain newId newId' zodIssues type it.children) :
    ItemAgain newId newId' zodIssues type it := by
  intro allow depth at_ s t h hfollows
  obtain ⟨node, hnode, hempty | ⟨hne, c, hc⟩⟩ := walkItem_forms newId h
  · rw [walkItem_leaf newId hnode hempty] at h ⊢
    generalize hout : (⟨(takeId newId it at_ s).1, it.node, valuesOf it node, [], queryOf it node⟩ : ListItem) = out
    have hnone : (asInput out).children = [] := by rw [← hout]; rfl
    have hkind : (asInput out).node = it.node := by rw [← hout]; rfl
    have hknown : type.node (asInput out).node = some node := by rw [hkind, hnode]
    obtain ⟨hid, hvalues, hquery, hchecked⟩ := checked_again newId newId' htype (asInput out) hfollows hnode
      (by rw [← hout]; rfl) hkind (by rw [← hout]; rfl) (by rw [← hout]; rfl) h
    rw [walkItem_leaf newId' hknown hnone, hid, hkind, hvalues, hquery]
    exact ⟨hout, hchecked⟩
  · rw [walkItem_nested newId hnode hne hc] at h ⊢
    obtain ⟨hmid, -⟩ := walkItems_stores zodIssues type newId it.children 0 c.allow (depth + 1) _ _ h
    obtain ⟨hself, hmax⟩ := report_issues hmid
    have hrest := fun t => hchildren 0 c.allow (depth + 1) s!"{at_}.children" _ t h
    have hlength := length_walkItems newId zodIssues type it.children 0 (depth + 1) c.allow s!"{at_}.children"
      (((takeId newId it at_ s).2.report (checkItem zodIssues type it node allow depth at_)).report
        (checkMax it.children c.max s!"{at_}.children"))
    generalize walkItems zodIssues type newId it.children 0 c.allow (depth + 1) s!"{at_}.children"
      (((takeId newId it at_ s).2.report (checkItem zodIssues type it node allow depth at_)).report
        (checkMax it.children c.max s!"{at_}.children")) = below at hrest hlength ⊢
    generalize hout : (⟨(takeId newId it at_ s).1, it.node, valuesOf it node, below.1, queryOf it node⟩ : ListItem) = out
    have hbelow : (asInput out).children = asInputs below.1 := by rw [← hout]; rfl
    have hkind : (asInput out).node = it.node := by rw [← hout]; rfl
    have hknown : type.node (asInput out).node = some node := by rw [hkind, hnode]
    have hcount : (asInput out).children.length = it.children.length := by
      rw [hbelow, asInputs_eq_map, List.length_map, hlength]
    have hsome : (asInput out).children.isEmpty = false := by
      rw [List.isEmpty_eq_false_iff, ← List.length_pos_iff] at hne ⊢
      rw [hcount]
      exact hne
    obtain ⟨hid, hvalues, hquery, hchecked⟩ := checked_again newId newId' htype (asInput out) hfollows hnode
      (by rw [← hout]; rfl) hkind (by rw [← hout]; rfl) (by rw [← hout]; rfl) hself
    have hmax' : checkMax (asInput out).children c.max s!"{at_}.children" = [] := by
      unfold checkMax at hmax ⊢
      rw [hcount]
      exact hmax
    rw [walkItem_nested newId' hknown hsome hc, hid, hkind, hvalues, hquery]
    obtain ⟨hsame, hfollows'⟩ := hrest _ (hchecked.report hmax')
    rw [hbelow] at hsame hfollows' ⊢
    rw [hsame]
    exact ⟨hout, hfollows'⟩

mutual

theorem itemAgain (htype : checkListTypeDef zodIssues type = []) (it : ListItemInput) :
    ItemAgain newId newId' zodIssues type it := by
  cases it with
  | mk id kind values children query => exact walkItem_again newId newId' htype (itemsAgain htype children)

theorem itemsAgain (htype : checkListTypeDef zodIssues type = []) (items : List ListItemInput) :
    ItemsAgain newId newId' zodIssues type items := by
  intro i allow depth path s t h hfollows
  cases items with
  | nil => exact ⟨rfl, hfollows⟩
  | cons it rest =>
    rw [walkItems_cons] at h ⊢
    have hmid := (walkItems_stores zodIssues type newId rest (i + 1) allow depth path _ h).1
    obtain ⟨hfirst, hfollows'⟩ := itemAgain htype it allow depth _ s t hmid hfollows
    obtain ⟨hothers, hfollows''⟩ := itemsAgain htype rest (i + 1) allow depth path _ _ h hfollows'
    rw [asInputs, walkItems_cons, hfirst, hothers]
    exact ⟨rfl, hfollows''⟩

end

/-! ### The ids -/

mutual

theorem walkItem_admitted (zodIssues : ZodIssues) (type : ListTypeDef) (hids : ∀ k, isUuid (newId k).toList = true)
    (it : ListItemInput) (allow : List String) (depth : Nat) (at_ : String) (s : WalkState) (h : ∀ e ∈ inputEntry depth it, WellFormedInput e.2) :
    ∀ e ∈ itemEntry depth (walkItem zodIssues type newId it allow depth at_ s).1, Admitted e := by
  obtain ⟨id, kind, values, children, query⟩ := it
  obtain ⟨hid, hkind⟩ : WellFormedInput ⟨id, kind, values, children, query⟩ :=
    h (depth, ⟨id, kind, values, children, query⟩) (by simp [inputEntry])
  have hchildren : ∀ e ∈ inputEntries (depth + 1) children, WellFormedInput e.2 :=
    fun e he => h e (by simp [inputEntry, he])
  have htaken : isUuid (takeId newId ⟨id, kind, values, children, query⟩ at_ s).1.toList = true := by
    cases id with
    | none => exact hids _
    | some id => exact hid id rfl
  rw [walkItem]
  cases hnode : type.node kind with
  | none =>
    intro e he
    rcases List.mem_cons.1 he with rfl | he
    · exact ⟨htaken, hkind⟩
    · cases he
  | some node =>
    simp only
    intro e he
    rcases List.mem_cons.1 he with rfl | he
    · exact ⟨htaken, hkind⟩
    · split at he
      · cases he
      · split at he
        · cases he
        · exact walkItems_admitted zodIssues type hids children 0 _ (depth + 1) _ _ hchildren e he

theorem walkItems_admitted (zodIssues : ZodIssues) (type : ListTypeDef) (hids : ∀ k, isUuid (newId k).toList = true)
    (items : List ListItemInput) (i : Nat) (allow : List String) (depth : Nat) (path : String) (s : WalkState)
    (h : ∀ e ∈ inputEntries depth items, WellFormedInput e.2) :
    ∀ e ∈ itemEntries depth (walkItems zodIssues type newId items i allow depth path s).1, Admitted e := by
  cases items with
  | nil =>
    intro e he
    cases he
  | cons it rest =>
    rw [walkItems_cons]
    intro e he
    rcases List.mem_append.1 he with he | he
    · exact walkItem_admitted zodIssues type hids it allow depth _ s (fun e he => h e (by simp [inputEntries, he])) e he
    · exact walkItems_admitted zodIssues type hids rest (i + 1) allow depth path _ (fun e he => h e (by simp [inputEntries, he])) e he

end

end Walk

/-! ### The result -/

end CaeloCms.Lists
