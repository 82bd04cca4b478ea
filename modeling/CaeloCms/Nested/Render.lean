import CaeloCms.Lib.OrderedSet
import CaeloCms.Template.Opaque

/-!
# Nested rendering

`nested-module-render.ts`: a module is rendered by the template engine, and each nested reference its template asks for
is rendered in turn, until a reference is on the path already, the path is as long as the limit, or module or content
instance are missing.  A partial is rendered when it is first asked for; its html does not depend on what was rendered
before (`renderInner_html`), the markers do.
-/

namespace CaeloCms.Nested

open Template
open Link (LinkRef LinkResolution)

/-! ### Resources -/

structure NestedModuleResource where
  moduleId : String
  html : List Char
  fields : List TemplateField

structure NestedContentInstanceResource where
  id : String
  moduleId : String
  values : Values
  deletedAt : Option String
  listHolderId : Option String

structure NestedRenderResolver where
  getModule : String → Option NestedModuleResource
  getContentInstance : String → Option NestedContentInstanceResource

/-! ### The module id -/

def MODULE_ID_ATTRIBUTE : String := "data-caelo-module-id"

/-- `[a-zA-Z0-9-]` -/
def isNameChar (c : Char) : Bool := isLetter c || c.isDigit || c == '-'

/-- `\b` between two texts. -/
def boundary (before after : List Char) : Bool := before.getLast?.any isWord != after.head?.any isWord

/-- `<([a-zA-Z][a-zA-Z0-9-]*)\b([^>]*)>` at the front of a text: the name, the rest of the tag, and the text after. -/
def scanOpenTag : List Char → Option (List Char × List Char × List Char)
  | '<' :: s =>
    if s.head?.any isLetter then
      let run := (s.takeWhile isNameChar).length
      match (List.range run).reverse.find? fun k => boundary (s.take (k + 1)) (s.drop (k + 1)) with
      | none => none
      | some k =>
        match (s.drop (k + 1)).dropWhile fun c => c != '>' with
        | [] => none
        | _ :: rest => some (s.take (k + 1), (s.drop (k + 1)).takeWhile fun c => c != '>', rest)
    else none
  | _ => none

/-- `/\sdata-caelo-module-id\s*=/.test(attrs)` -/
def hasModuleId : List Char → Bool
  | [] => false
  | c :: s =>
    (Redirect.isSpace c && ((afterText MODULE_ID_ATTRIBUTE s).any fun rest => (skipSpaces rest).head? == some '=')) ||
      hasModuleId s

def trimEnd (s : List Char) : List Char := (skipSpaces s.reverse).reverse

/-- `tagModuleId(html, moduleId)` -/
def tagModuleId (moduleId : String) : List Char → List Char
  | [] => []
  | c :: s =>
    match scanOpenTag (c :: s) with
    | none => c :: tagModuleId moduleId s
    | some (name, attrs, rest) =>
      if hasModuleId attrs then c :: s
      else
        let closed := (trimEnd attrs).getLast? == some '/'
        '<' :: name ++ (if closed then trimEnd (trimEnd attrs).dropLast else attrs) ++
          (" " ++ MODULE_ID_ATTRIBUTE ++ "=\"" ++ moduleId ++ "\"").toList ++ (if closed then "/>" else ">").toList ++ rest

/-! ### Partials -/

/-- The reference behind a partial, its field, and the step of the field trail. -/
structure PartialHit where
  ref : NestedRefValue
  field : String
  step : String
deriving DecidableEq

/-- `rendersFieldDefault(field, values)` of a `module-list` field. -/
def rendersFieldDefault (field : TemplateField) (values : Values) : Bool := (values.own field.name).isNone

/-- `\d+`, as a number -/
def indexOf (s : List Char) : Option Nat :=
  if s ≠ [] ∧ s.all Char.isDigit then some (s.foldl (fun n c => 10 * n + (c.toNat - '0'.toNat)) 0) else none

/-- The key up to its last `__`, and what is behind it. -/
def splitIndex (key : List Char) : Option (List Char × List Char) :=
  (((List.range key.length).reverse.find? fun sep => ['_', '_'].isPrefixOf (key.drop sep)).filter (0 < ·)).map fun sep =>
    (key.take sep, key.drop (sep + 2))

/-- `key.slice(…).split("/")`, the first three parts. -/
def entryParts (s : List Char) : Option (String × String × String) :=
  match s.splitOn '/' with
  | name :: itemId :: field :: _ =>
    if name = [] ∨ itemId = [] ∨ field = [] then none
    else some (String.ofList name, String.ofList itemId, String.ofList field)
  | _ => none

def nestedRefForPartial (fields : List TemplateField) (values : Values) (key : String) (ref : Option NestedRefValue) :
    Option PartialHit :=
  match afterText "list:" key.toList with
  | some rest =>
    (entryParts rest).bind fun parts => ref.map fun ref =>
      ⟨ref, parts.1, parts.1 ++ "[" ++ parts.2.1 ++ "]." ++ parts.2.2⟩
  | none =>
    match (fieldNamed fields key).filter fun f => f.kind == "module" with
    | some _ => ((values.own key).bind nestedRef).map fun ref => ⟨ref, key, key⟩
    | none =>
      (splitIndex key.toList).bind fun split => (indexOf split.2).bind fun i =>
        ((fieldNamed fields (String.ofList split.1)).filter fun f => f.kind == "module-list").bind fun list =>
          let name := String.ofList split.1
          match if rendersFieldDefault list values then list.default else values.own name with
          | some (.arr items) => (items[i]?.bind nestedRef).map fun ref => ⟨ref, name, name ++ "[" ++ toString i ++ "]"⟩
          | _ => none

def firstUses : List String → List Ask → List Ask
  | _, [] => []
  | seen, a :: asks => if seen.contains a.key then firstUses seen asks else a :: firstUses (a.key :: seen) asks

/-! ### The recursion -/

def MAX_RECURSION_DEPTH : Nat := 8

structure NestedRenderFailure where
  field : String
  reason : String
deriving DecidableEq

/-- What a render collects beside the html; `missing` holds the reasons of the failures. -/
structure Collected where
  touched : List String
  failures : List NestedRenderFailure

/-- `ctx.missing` -/
def Collected.missing (c : Collected) : List String := c.failures.map (·.reason)

/-- `fail(ctx, reason)` -/
def Collected.fail (c : Collected) (via reason : String) : Collected :=
  { c with failures := c.failures ++ [⟨via, reason⟩] }

/-- `isLinkFailureMarker(marker)` -/
def isLinkFailureMarker (marker : String) : Bool :=
  ["link-target-missing:", "link-variant-missing:", "link-ref-malformed:", "link-resolver-unavailable:"].any fun p =>
    p.toList.isPrefixOf marker.toList

/-- The markers of a module's own template, without the echoes of broken links in nested ones. -/
def Collected.report (c : Collected) (via : String) (markers : List Marker) : Collected :=
  markers.foldl (fun c m => if isLinkFailureMarker m.text && c.missing.contains m.text then c else c.fail via m.text) c

structure Renderer where
  resolver : NestedRenderResolver
  mustache : Mustache
  sentinel : List Char
  themeAssets : Option ThemeAssets
  lists : Option ListPageContext
  linkResolver : Option (LinkRef → LinkResolution)

/-- A module as it is rendered: its html, its fields, the values that fill them, and the address of its lists. -/
structure Placement where
  html : List Char
  fields : List TemplateField
  values : Values
  listHolder : Option String

/-- `descend(ctx, step).via` -/
def viaStep (via step : String) : String := if via = "" then step else via ++ " > " ++ step

/-- Renders a reference under a field trail. -/
abbrev Inner := NestedRefValue → String → Collected → Option (List Char × Collected)

namespace Renderer

variable (r : Renderer)

/-- `renderPartial(key, ref, …)`; `none` when it throws. -/
def renderPartial (inner : Inner) (p : Placement) (via : String) (a : Ask) (c : Collected) :
    Option (Option (List Char) × Collected) :=
  match nestedRefForPartial p.fields p.values a.key a.ref with
  | none => some (none, c)
  | some hit => (inner hit.ref (viaStep via hit.step) c).map fun out => (some (tagModuleId hit.ref.moduleId out.1), out.2)

/-- What the engine is given. -/
def input (partials : PartialResolver) (p : Placement) : RenderTemplateInput :=
  ⟨⟨p.fields, p.values, partials, r.lists, p.listHolder⟩, p.html, r.themeAssets, r.linkResolver⟩

/-- The partials that are there, whatever they render to. -/
def wellFormedPartials (p : Placement) : PartialResolver := fun key ref =>
  (nestedRefForPartial p.fields p.values key ref).map fun _ => []

def asksOf (p : Placement) : List Ask := (r.input (wellFormedPartials p) p).prepared.asks

/-- `partials(key, ref)`: what is kept under the key is the partial that was first asked for under it (only the keys of
list entries come with a reference).  What a partial renders to does not depend on what was rendered before; where its
render throws, so does the render of the module. -/
def partials (inner : Inner) (p : Placement) (via : String) : PartialResolver := fun key ref =>
  let first := ((r.asksOf p).find? fun a => a.key == key && a.ref.isSome == ref.isSome).getD ⟨key, ref⟩
  (nestedRefForPartial p.fields p.values key first.ref).map fun hit =>
    ((inner hit.ref (viaStep via hit.step) ⟨[], []⟩).map fun out => tagModuleId hit.ref.moduleId out.1).getD []

def renderPartials (inner : Inner) (p : Placement) (via : String) : List Ask → Collected → Option Collected
  | [], c => some c
  | a :: asks, c => (renderPartial inner p via a c).bind fun out => renderPartials inner p via asks out.2

/-- `substituteWithRecursion(html, fields, values, ctx)` -/
def substituteWithRecursion (inner : Inner) (p : Placement) (via : String) (c : Collected) :
    Option (List Char × Collected) :=
  (renderTemplate r.mustache r.sentinel (r.input (r.partials inner p via) p)).bind fun result =>
    (renderPartials inner p via (firstUses [] result.asks) c).map fun c =>
      (result.html, c.report via result.missingSlots)

def cycleKey (ref : NestedRefValue) : String := ref.moduleId ++ ":" ++ ref.contentInstanceId

/-- `UUID_RE.test(ci.id) ? ci.id : null`, unless the instance names its holder. -/
def listHolderOf (ci : NestedContentInstanceResource) : Option String :=
  ci.listHolderId.or (if Link.isUuid ci.id.toList then some ci.id else none)

/-- `renderInner(moduleId, contentInstanceId, ctx)`, with the levels left down to the limit; `none` when it throws. -/
def renderInner : Nat → List String → Inner
  | 0, _, ref, via, c =>
    some ((caeloComment ("depth-limit-" ++ toString MAX_RECURSION_DEPTH)),
      c.fail via ("depth-limit:" ++ ref.moduleId ++ "/" ++ ref.contentInstanceId))
  | levels + 1, path, ref, via, c =>
    if path.contains (cycleKey ref) then
      some (caeloComment ("cycle " ++ cycleKey ref), c.fail via ("cycle:" ++ cycleKey ref))
    else
      match r.resolver.getModule ref.moduleId with
      | none => some (caeloComment ("module-missing " ++ ref.moduleId), c.fail via ("module-missing:" ++ ref.moduleId))
      | some mod =>
        match (r.resolver.getContentInstance ref.contentInstanceId).filter fun ci => ci.deletedAt.isNone with
        | none => some (caeloComment ("content-instance-missing " ++ ref.contentInstanceId),
            c.fail via ("content-instance-missing:" ++ ref.contentInstanceId))
        | some ci =>
          if ci.moduleId ≠ ref.moduleId then
            some (caeloComment ("content-instance-mismatch " ++ ref.contentInstanceId),
              c.fail via ("content-instance-mismatch:" ++ ref.contentInstanceId ++ " (for " ++ ci.moduleId ++
                ", expected " ++ ref.moduleId ++ ")"))
          else
            r.substituteWithRecursion (renderInner levels (cycleKey ref :: path))
              ⟨mod.html, mod.fields, ci.values, listHolderOf ci⟩ via { c with touched := OrderedSet.add c.touched ref.moduleId }
where
  /-- `comment(reason)` -/
  caeloComment (reason : String) : List Char := (caeloMissingComment reason).toList

/-- `renderPlacedModule(placement, resolver, options)`; the placed module itself is on the first level. -/
def renderPlacedModule (p : Placement) : Option (List Char × Collected) :=
  r.substituteWithRecursion (r.renderInner (MAX_RECURSION_DEPTH - 1) []) p "" ⟨[], []⟩

def renderModuleWithContent (ref : NestedRefValue) : Option (List Char × Collected) :=
  r.renderInner MAX_RECURSION_DEPTH [] ref "" ⟨[], []⟩

/-- The references `renderPlacedModule` recurses into on the first level, in this order. -/
def recursedInto (p : Placement) : List PartialHit :=
  (firstUses [] (r.input (r.partials (r.renderInner (MAX_RECURSION_DEPTH - 1) []) p "") p).prepared.asks).filterMap
    fun a => nestedRefForPartial p.fields p.values a.key a.ref

end Renderer

/-! ### What a render asks for -/

theorem isSome_nestedRefForPartial {fields : List TemplateField} {values : Values} {key : String}
    {ref ref' : Option NestedRefValue} (h : ref.isSome = ref'.isSome) :
    (nestedRefForPartial fields values key ref).isSome = (nestedRefForPartial fields values key ref').isSome := by
  unfold nestedRefForPartial
  cases afterText "list:" key.toList with
  | none => rfl
  | some rest =>
    dsimp only
    cases entryParts rest with
    | none => rfl
    | some parts => simpa using h

namespace Renderer

variable {r : Renderer}

theorem partials_isSome (inner : Inner) (p : Placement) (via : String) (key : String) (ref : Option NestedRefValue) :
    (r.partials inner p via key ref).isSome = (wellFormedPartials p key ref).isSome := by
  have hfirst : ∀ a, ((r.asksOf p).find? fun a => a.key == key && a.ref.isSome == ref.isSome) = some a →
      a.ref.isSome = ref.isSome := by
    intro a ha
    have hfound := List.find?_some (p := fun a : Ask => a.key == key && a.ref.isSome == ref.isSome) ha
    simpa using (Bool.and_eq_true_iff.1 hfound).2
  show (Option.map _ _).isSome = (Option.map _ _).isSome
  rw [Option.isSome_map, Option.isSome_map]
  cases ha : (r.asksOf p).find? fun a => a.key == key && a.ref.isSome == ref.isSome with
  | none => rfl
  | some a => exact isSome_nestedRefForPartial (hfirst a ha)

theorem input_rel (inner : Inner) (p : Placement) (via : String) :
    InputRel (fun _ _ => True) (r.input (r.partials inner p via) p) (r.input (wellFormedPartials p) p) :=
  ⟨.of_partials rfl rfl rfl (fun _ _ _ _ => rfl) (partials_isSome inner p via), rfl, fun _ => rfl⟩

theorem asks_input (inner : Inner) (p : Placement) (via : String) :
    (r.input (r.partials inner p via) p).prepared.asks = r.asksOf p :=
  (prepared_rel (input_rel inner p via)).2.2

theorem missing_input (inner : Inner) (p : Placement) (via : String) :
    (r.input (r.partials inner p via) p).prepared.missing = (r.input (wellFormedPartials p) p).prepared.missing :=
  (prepared_rel (input_rel inner p via)).2.1

theorem recursedInto_eq (p : Placement) : r.recursedInto p =
    (firstUses [] (r.asksOf p)).filterMap fun a => nestedRefForPartial p.fields p.values a.key a.ref := by
  rw [recursedInto, asks_input]

/-- The html of a nested render, and whether it throws, do not depend on what was rendered before. -/
def Steady (inner : Inner) : Prop := ∀ ref via c c', (inner ref via c).map Prod.fst = (inner ref via c').map Prod.fst

theorem renderPartials_isSome {inner : Inner} (h : Steady inner) (p : Placement) (via : String) (asks : List Ask)
    (c c' : Collected) :
    (renderPartials inner p via asks c).isSome = (renderPartials inner p via asks c').isSome := by
  induction asks generalizing c c' with
  | nil => rfl
  | cons a asks ih =>
    simp only [renderPartials, renderPartial]
    cases nestedRefForPartial p.fields p.values a.key a.ref with
    | none => exact ih c c'
    | some hit =>
      have hsteady := h hit.ref (viaStep via hit.step) c c'
      dsimp only
      revert hsteady
      generalize inner hit.ref (viaStep via hit.step) c = x
      generalize inner hit.ref (viaStep via hit.step) c' = x'
      intro hsteady
      cases x with
      | none =>
        cases x' with
        | none => rfl
        | some out' => cases hsteady
      | some out =>
        cases x' with
        | none => cases hsteady
        | some out' => exact ih out.2 out'.2

theorem substituteWithRecursion_html {inner : Inner} (h : Steady inner) (p : Placement) (via : String) (c c' : Collected) :
    (r.substituteWithRecursion inner p via c).map Prod.fst = (r.substituteWithRecursion inner p via c').map Prod.fst := by
  unfold substituteWithRecursion
  cases renderTemplate r.mustache r.sentinel (r.input (r.partials inner p via) p) with
  | none => rfl
  | some result =>
    have hsome := renderPartials_isSome h p via (firstUses [] result.asks) c c'
    simp only [Option.bind_some, Option.map_map]
    revert hsome
    generalize renderPartials inner p via (firstUses [] result.asks) c = x
    generalize renderPartials inner p via (firstUses [] result.asks) c' = x'
    intro hsome
    cases x with
    | none =>
      cases x' with
      | none => rfl
      | some _ => cases hsome
    | some _ =>
      cases x' with
      | none => cases hsome
      | some _ => rfl

end Renderer

end CaeloCms.Nested
