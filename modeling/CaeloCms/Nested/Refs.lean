import CaeloCms.Shared.Json
import Mathlib

/-!
# Nested references in content values

A content instance embeds others through the `module` fields of its values and of the entries of its local lists.
`collectNestedRefs` finds these references, `rewriteNestedRefs` points the ones of a copied parent at its copied
children.  Both walk the same nodes (`walk`), so the rewritten values hold the same references, each pointed
elsewhere, and differ in nothing else (`collectNestedRefs_rewriteNestedRefs`).
-/

namespace CaeloCms

namespace Json

/-- `typeof v === "object" && v !== null` -/
def isObject : Json → Bool
  | arr _ => true
  | obj _ => true
  | _ => false

/-- `Array.isArray(v)` -/
def isArray : Json → Bool
  | arr _ => true
  | _ => false

/-- `Object.values(v)` -/
def members : Json → List Json
  | arr items => items
  | obj fields => fields.map (·.2)
  | _ => []

/-- `v` with `f` applied to each member. -/
def mapMembers (f : Json → Json) : Json → Json
  | arr items => arr (items.map f)
  | obj fields => obj (fields.map fun p => (p.1, f p.2))
  | v => v

/-- The fields with `f` applied to what stands under `name`. -/
def mapFieldOf (name : String) (f : Json → Json) : List (String × Json) → List (String × Json)
  | [] => []
  | p :: fields => if p.1 = name then (p.1, f p.2) :: fields else p :: mapFieldOf name f fields

/-- `v` with `f` applied to what stands under `name`. -/
def mapField (name : String) (f : Json → Json) : Json → Json
  | obj fields => obj (mapFieldOf name f fields)
  | v => v

variable {n : String} {f g : Json → Json} {v : Json}

@[simp]
theorem members_mapMembers : (v.mapMembers f).members = v.members.map f := by
  cases v <;> simp [mapMembers, members, Function.comp_def]

@[simp]
theorem isObject_mapMembers : (v.mapMembers f).isObject = v.isObject := by
  cases v <;> rfl

theorem mapMembers_mapMembers : (v.mapMembers f).mapMembers g = v.mapMembers (g ∘ f) := by
  cases v <;> simp [mapMembers, Function.comp_def]

theorem field_mapField : (v.mapField n f).field n = (v.field n).map f := by
  cases v with
  | obj fields =>
    induction fields with
    | nil => rfl
    | cons p fields ih =>
      by_cases h : p.1 = n
      · simp [mapField, mapFieldOf, field, h]
      · simpa [mapField, mapFieldOf, field, h] using ih
  | _ => rfl

theorem field_mapField_of_ne {other : String} (hne : other ≠ n) : (v.mapField n f).field other = v.field other := by
  cases v with
  | obj fields =>
    induction fields with
    | nil => rfl
    | cons p fields ih =>
      by_cases h : p.1 = n
      · simp [mapField, mapFieldOf, field, h, Ne.symm hne]
      · by_cases hother : p.1 = other
        · simp [mapField, mapFieldOf, field, hother, hne]
        · simpa [mapField, mapFieldOf, field, h, hother] using ih
  | _ => rfl

theorem mapField_mapField : (v.mapField n f).mapField n g = v.mapField n (g ∘ f) := by
  cases v with
  | obj fields =>
    induction fields with
    | nil => rfl
    | cons p fields ih =>
      by_cases h : p.1 = n
      · simp [mapField, mapFieldOf, h]
      · simpa [mapField, mapFieldOf, h] using ih
  | _ => rfl

theorem mapField_comm {other : String} (hne : n ≠ other) :
    (v.mapField n f).mapField other g = (v.mapField other g).mapField n f := by
  cases v with
  | obj fields =>
    induction fields with
    | nil => rfl
    | cons p fields ih =>
      by_cases h : p.1 = n
      · have hother : p.1 ≠ other := fun ho => hne (h.symm.trans ho)
        simp [mapField, mapFieldOf, h, hne]
      · by_cases hother : p.1 = other
        · simp [mapField, mapFieldOf, hother, Ne.symm hne]
        · simpa [mapField, mapFieldOf, h, hother] using ih
  | _ => rfl

end Json

namespace Nested

open Json

/-- The stored shape of a `module` field value or of a `module-list` element. -/
structure NestedRefValue where
  moduleId : String
  contentInstanceId : String
deriving DecidableEq, Repr

/-- `isNestedRef(v)`, with the reference. -/
def nestedRef (v : Json) : Option NestedRefValue :=
  (v.stringField "moduleId").bind fun moduleId =>
    (v.stringField "contentInstanceId").map fun contentInstanceId => ⟨moduleId, contentInstanceId⟩

def MAX_COLLECT_DEPTH : Nat := 24

/-- The values a visit of `v` goes on to: the elements of an array, else the `values` and the `children` of a list
entry. -/
def parts : Json → List Json
  | arr items => items
  | obj fields =>
    (((obj fields).field "values").map members).getD [] ++ (((obj fields).field "children").filter isArray).toList
  | _ => []

/-- `v` with `f` applied to each part. -/
def mapParts (f : Json → Json) : Json → Json
  | arr items => arr (items.map f)
  | obj fields =>
    ((obj fields).mapField "values" (mapMembers f)).mapField "children" fun u => if u.isArray then f u else u
  | v => v

/-- `visit` of `collectNestedRefs`, with the number of levels down to `MAX_COLLECT_DEPTH`. -/
def collectVisit : Nat → Json → List NestedRefValue
  | 0, _ => []
  | levels + 1, v =>
    match nestedRef v with
    | none => (parts v).flatMap (collectVisit levels)
    | some ref => [ref]

/-- A copy of `v` in which `f` is applied to each reference that `collectVisit` finds. -/
def walk (f : Json → NestedRefValue → Json) : Nat → Json → Json
  | 0, v => v
  | levels + 1, v =>
    match nestedRef v with
    | none => mapParts (walk f levels) v
    | some ref => f v ref

def collectNestedRefs (values : List (String × Json)) : List NestedRefValue :=
  values.flatMap fun p => collectVisit (MAX_COLLECT_DEPTH + 1) p.2

/-- `{ ...v, contentInstanceId: remap(v.contentInstanceId) }` -/
def pointAt (remap : String → String) (v : Json) (ref : NestedRefValue) : Json :=
  v.mapField "contentInstanceId" fun _ => str (remap ref.contentInstanceId)

def rewriteNestedRefs (values : List (String × Json)) (remap : String → String) : List (String × Json) :=
  values.map fun p => (p.1, walk (pointAt remap) (MAX_COLLECT_DEPTH + 1) p.2)

/-- The values with `null` for each reference. -/
def eraseNestedRefs (values : List (String × Json)) : List (String × Json) :=
  values.map fun p => (p.1, walk (fun _ _ => null) (MAX_COLLECT_DEPTH + 1) p.2)

/-- The reference to the same module with the content instance `remap` gives. -/
def NestedRefValue.pointed (remap : String → String) (ref : NestedRefValue) : NestedRefValue :=
  { ref with contentInstanceId := remap ref.contentInstanceId }

section Walk

variable {f g : Json → NestedRefValue → Json} {v : Json} {ref : NestedRefValue} {levels : Nat}

theorem nestedRef_mapParts {h : Json → Json} : nestedRef (mapParts h v) = nestedRef v := by
  cases v with
  | obj fields =>
    simp only [nestedRef, mapParts, stringField]
    repeat rw [field_mapField_of_ne (by decide)]
  | _ => rfl

theorem parts_mapParts {h : Json → Json} (harray : ∀ u : Json, u.isArray = true → (h u).isArray = true) :
    parts (mapParts h v) = (parts v).map h := by
  cases v with
  | arr items => rfl
  | obj fields =>
    have hvalues : (mapParts h (obj fields)).field "values" = ((obj fields).field "values").map (mapMembers h) := by
      rw [mapParts, field_mapField_of_ne (by decide), field_mapField]
    have hchildren : (mapParts h (obj fields)).field "children" =
        ((obj fields).field "children").map fun u => if u.isArray then h u else u := by
      rw [mapParts, field_mapField, field_mapField_of_ne (by decide)]
    have hparts : parts (mapParts h (obj fields)) = (((mapParts h (obj fields)).field "values").map members).getD [] ++
        (((mapParts h (obj fields)).field "children").filter isArray).toList := rfl
    rw [hparts, hvalues, hchildren, parts, List.map_append]
    congr 1
    · cases (obj fields).field "values" <;> simp
    · cases (obj fields).field "children" with
      | none => rfl
      | some u =>
        by_cases hu : u.isArray = true
        · simp [Option.filter, hu, harray u hu]
        · simp [Option.filter, hu]
  | _ => rfl

theorem mapParts_mapParts {h k : Json → Json} (harray : ∀ u : Json, u.isArray = true → (h u).isArray = true) :
    mapParts k (mapParts h v) = mapParts (k ∘ h) v := by
  cases v with
  | arr items => simp [mapParts]
  | obj fields =>
    have houter : mapParts k (mapParts h (obj fields)) =
        ((mapParts h (obj fields)).mapField "values" (mapMembers k)).mapField "children"
          fun u => if u.isArray then k u else u := rfl
    rw [houter, mapParts, mapField_comm (n := "children") (by decide), mapField_mapField, mapField_mapField, mapParts]
    congr 1
    · funext u
      by_cases hu : u.isArray = true
      · simp [hu, harray u hu]
      · simp [hu]
    · congr 1
      funext u
      exact mapMembers_mapMembers
  | _ => rfl

theorem isArray_walk (h : v.isArray = true) : (walk f levels v).isArray = true := by
  cases v with
  | arr items => cases levels <;> rfl
  | _ => cases h

theorem walk_of_ref (h : nestedRef v = some ref) : walk f (levels + 1) v = f v ref := by
  rw [walk, h]

theorem walk_of_none (h : nestedRef v = none) : walk f (levels + 1) v = mapParts (walk f levels) v := by
  rw [walk, h]

theorem collectVisit_of_ref (h : nestedRef v = some ref) : collectVisit (levels + 1) v = [ref] := by
  rw [collectVisit, h]

theorem collectVisit_of_none (h : nestedRef v = none) :
    collectVisit (levels + 1) v = (parts v).flatMap (collectVisit levels) := by
  rw [collectVisit, h]

/-- What is found in a walked value is what is found where its references stood. -/
theorem collectVisit_walk {k : NestedRefValue → List NestedRefValue}
    (hf : ∀ levels v ref, nestedRef v = some ref → collectVisit (levels + 1) (f v ref) = k ref) :
    collectVisit levels (walk f levels v) = (collectVisit levels v).flatMap k := by
  induction levels generalizing v with
  | zero => rfl
  | succ levels ih =>
    cases h : nestedRef v with
    | none =>
      have hparts : parts (mapParts (walk f levels) v) = (parts v).map (walk f levels) :=
        parts_mapParts fun u hu => isArray_walk hu
      rw [walk_of_none h, collectVisit_of_none (nestedRef_mapParts.trans h), collectVisit_of_none h, hparts,
        List.flatMap_map, List.flatMap_assoc]
      exact List.flatMap_congr fun u _ => ih
    | some ref => rw [walk_of_ref h, hf levels v ref h, collectVisit_of_ref h, List.flatMap_singleton]

/-- Two walks are one walk when the first leaves references where they were. -/
theorem walk_walk {moved : NestedRefValue → NestedRefValue}
    (hf : ∀ v ref, nestedRef v = some ref → nestedRef (f v ref) = some (moved ref)) :
    walk g levels (walk f levels v) = walk (fun v ref => g (f v ref) (moved ref)) levels v := by
  induction levels generalizing v with
  | zero => rfl
  | succ levels ih =>
    cases h : nestedRef v with
    | none =>
      rw [walk_of_none h, walk_of_none (nestedRef_mapParts.trans h), walk_of_none h,
        mapParts_mapParts fun u hu => isArray_walk hu]
      congr 1
      funext u
      exact ih
    | some ref => rw [walk_of_ref h, walk_of_ref (hf v ref h), walk_of_ref h]

end Walk

section Rewrite

variable {values : List (String × Json)} {remap again : String → String}

theorem nestedRef_pointAt {v : Json} {ref : NestedRefValue} (h : nestedRef v = some ref) :
    nestedRef (pointAt remap v ref) = some (ref.pointed remap) := by
  obtain ⟨moduleId, hmodule, contentInstanceId, hinstance, rfl⟩ : ∃ moduleId, v.stringField "moduleId" = some moduleId ∧
      ∃ id, v.stringField "contentInstanceId" = some id ∧ NestedRefValue.mk moduleId id = ref := by
    simpa [nestedRef, Option.bind_eq_some_iff, Option.map_eq_some_iff] using h
  have hmodule' : (pointAt remap v ⟨moduleId, contentInstanceId⟩).stringField "moduleId" = some moduleId := by
    rw [stringField, pointAt, field_mapField_of_ne (by decide)]
    exact hmodule
  have hinstance' : (pointAt remap v ⟨moduleId, contentInstanceId⟩).stringField "contentInstanceId" =
      some (remap contentInstanceId) := by
    obtain ⟨u, hu, -⟩ := Option.bind_eq_some_iff.1 hinstance
    rw [stringField, pointAt, field_mapField, hu]
    rfl
  rw [nestedRef, hmodule', hinstance']
  rfl

theorem rewriteNestedRefs_rewriteNestedRefs :
    rewriteNestedRefs (rewriteNestedRefs values remap) again = rewriteNestedRefs values (again ∘ remap) := by
  rw [rewriteNestedRefs, rewriteNestedRefs, List.map_map]
  refine List.map_congr_left fun p _ => ?_
  rw [Function.comp_apply, walk_walk fun v ref => nestedRef_pointAt]
  congr 2
  funext v ref
  exact mapField_mapField

/-- The rewritten values hold the references of the original, in order, each pointed at the content instance that
`remap` gives, and are equal to the original in all else. -/
theorem collectNestedRefs_rewriteNestedRefs (values : List (String × Json)) (remap : String → String) :
    collectNestedRefs (rewriteNestedRefs values remap) =
        (collectNestedRefs values).map (NestedRefValue.pointed remap) ∧
      eraseNestedRefs (rewriteNestedRefs values remap) = eraseNestedRefs values := by
  constructor
  · rw [collectNestedRefs, collectNestedRefs, rewriteNestedRefs, List.flatMap_map, List.map_flatMap]
    refine List.flatMap_congr fun p _ => ?_
    rw [collectVisit_walk (k := fun ref => [ref.pointed remap])]
    · exact List.map_eq_flatMap.symm
    · intro levels v ref h
      exact collectVisit_of_ref (nestedRef_pointAt h)
  · rw [eraseNestedRefs, eraseNestedRefs, rewriteNestedRefs, List.map_map]
    refine List.map_congr_left fun p _ => ?_
    rw [Function.comp_apply, walk_walk fun v ref => nestedRef_pointAt]

end Rewrite

end Nested

end CaeloCms
