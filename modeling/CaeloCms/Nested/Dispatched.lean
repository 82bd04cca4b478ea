import CaeloCms.Nested.Render

/-!
# The references a module dispatches

`dispatchedNestedRefs` renders a module with empty partials to see which references its template asks for.  These are
the references that a render of the module recurses into, whatever the nested modules render to; a reference that
several partials hold is listed for each of them (`dispatchedNestedRefs_exact_iff`).
-/

namespace CaeloCms.Nested

open Template

/-- A reference a module's template dispatches, and the field that holds it. -/
structure DispatchedNestedRef extends NestedRefValue where
  field : String
deriving DecidableEq

def PartialHit.dispatched (hit : PartialHit) : DispatchedNestedRef := ⟨hit.ref, hit.field⟩

namespace Renderer

/-- `dispatchedNestedRefs(html, fields, values, lists)`; `none` when it throws. -/
def dispatchedNestedRefs (r : Renderer) (p : Placement) : Option (List DispatchedNestedRef) :=
  (renderTemplate r.mustache r.sentinel
    ⟨⟨p.fields, p.values, wellFormedPartials p, r.lists, none⟩, p.html, none, none⟩).map fun result =>
      ((firstUses [] result.asks).filterMap fun a => nestedRefForPartial p.fields p.values a.key a.ref).map
        PartialHit.dispatched

def SameLists (r : Renderer) (p : Placement) : Prop := ∀ lists, r.lists = some lists → ∀ spec value,
  lists.resolveField spec value none = lists.resolveField spec value p.listHolder

/-- The references behind the partials that a module's template asks for. -/
def dispatches (r : Renderer) (p : Placement) : List PartialHit :=
  (firstUses [] (r.asksOf p)).filterMap fun a => nestedRefForPartial p.fields p.values a.key a.ref

variable {r : Renderer} {p : Placement}

theorem dispatchedNestedRefs_eq (hlists : r.SameLists p) {refs : List DispatchedNestedRef}
    (h : r.dispatchedNestedRefs p = some refs) : refs = (r.dispatches p).map PartialHit.dispatched := by
  obtain ⟨result, hresult, rfl⟩ := Option.map_eq_some_iff.1 h
  obtain ⟨rendered, -, rfl⟩ := Option.map_eq_some_iff.1 hresult
  have henv : EnvRel (fun _ _ => True) ⟨p.fields, p.values, wellFormedPartials p, r.lists, none⟩
      ⟨p.fields, p.values, wellFormedPartials p, r.lists, p.listHolder⟩ :=
    .of_partials rfl rfl rfl hlists fun _ _ => rfl
  have hasks : (⟨⟨p.fields, p.values, wellFormedPartials p, r.lists, none⟩, p.html, none, none⟩ :
      RenderTemplateInput).prepared.asks = r.asksOf p := by
    rw [asksOf, input]
    exact asks_rel henv rfl
  rw [dispatches, ← hasks]

/-- The preview lists what the render recurses into, each partial at its first use; the references are those of the
render without duplicates exactly when no two partials that the template asks for hold one reference. -/
theorem dispatchedNestedRefs_exact_iff {r : Renderer} {p : Placement} (hlists : r.SameLists p)
    {refs : List DispatchedNestedRef} (h : r.dispatchedNestedRefs p = some refs) :
    refs = (r.recursedInto p).map PartialHit.dispatched ∧
      (refs.map (·.toNestedRefValue) = OrderedSet.addAll [] ((r.recursedInto p).map (·.ref)) ↔
        ((r.dispatches p).map (·.ref)).Nodup) := by
  have hrecursed : r.recursedInto p = r.dispatches p := recursedInto_eq p
  have hrefs := dispatchedNestedRefs_eq hlists h
  refine ⟨hrefs.trans (by rw [hrecursed]), ?_⟩
  have hmap : refs.map (·.toNestedRefValue) = (r.dispatches p).map (·.ref) := by
    rw [hrefs, List.map_map]
    rfl
  rw [hmap, hrecursed, eq_comm]
  exact OrderedSet.addAll_eq_append_iff List.nodup_nil _

end Renderer

def withoutTags : Mustache := fun html _ => some html

def cards (refs : List NestedRefValue) : Placement where
  html := "\x7b\x7b#cards\x7d\x7d\x7b\x7b/cards\x7d\x7d".toList
  fields := [⟨"cards", "module-list", none, none, none, none, none, none⟩]
  values := [("cards", .arr (refs.map fun ref =>
    .obj [("moduleId", .str ref.moduleId), ("contentInstanceId", .str ref.contentInstanceId)]))]
  listHolder := none

/-- Nothing is stored. -/
def emptySite : Renderer where
  resolver := ⟨fun _ => none, fun _ => none⟩
  mustache := withoutTags
  sentinel := []
  themeAssets := none
  lists := none
  linkResolver := none

theorem dispatchedNestedRefs_exact_iff_cards :
    [⟨⟨"card", "a"⟩, "cards"⟩, ⟨⟨"card", "b"⟩, "cards"⟩] =
        (emptySite.recursedInto (cards [⟨"card", "a"⟩, ⟨"card", "b"⟩])).map PartialHit.dispatched ∧
      (([⟨⟨"card", "a"⟩, "cards"⟩, ⟨⟨"card", "b"⟩, "cards"⟩] : List DispatchedNestedRef).map (·.toNestedRefValue) =
          OrderedSet.addAll [] ((emptySite.recursedInto (cards [⟨"card", "a"⟩, ⟨"card", "b"⟩])).map (·.ref)) ↔
        ((emptySite.dispatches (cards [⟨"card", "a"⟩, ⟨"card", "b"⟩])).map (·.ref)).Nodup) :=
  Renderer.dispatchedNestedRefs_exact_iff (fun lists h => by cases h) (by decide +kernel)

/-- A card that is shown twice is listed twice. -/
theorem dispatchedNestedRefs_twice : ¬∀ (r : Renderer) (p : Placement) (refs : List DispatchedNestedRef), r.SameLists p →
    r.dispatchedNestedRefs p = some refs →
      refs.map (·.toNestedRefValue) = OrderedSet.addAll [] ((r.recursedInto p).map (·.ref)) := by
  intro h
  have hlisted : emptySite.dispatchedNestedRefs (cards [⟨"card", "a"⟩, ⟨"card", "a"⟩]) =
      some [⟨⟨"card", "a"⟩, "cards"⟩, ⟨⟨"card", "a"⟩, "cards"⟩] := by decide +kernel
  have hrecursed : OrderedSet.addAll [] ((emptySite.recursedInto (cards [⟨"card", "a"⟩, ⟨"card", "a"⟩])).map (·.ref)) =
      [⟨"card", "a"⟩] := by decide +kernel
  have hrefs := h emptySite _ _ (fun lists h => by cases h) hlisted
  rw [hrecursed] at hrefs
  exact absurd hrefs (by decide)

end CaeloCms.Nested
