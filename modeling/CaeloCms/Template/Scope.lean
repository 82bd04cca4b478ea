import CaeloCms.Link.Ref
import CaeloCms.Nested.Refs
import CaeloCms.Template.Text

/-!
# What the tags of a template are answered from

The fields of a module, the stored values, and the values a template sees inside a list section.  The list context of a
page (`ListPageContext`) is whatever it is: any function from list fields to entries, any page and site texts.  The
values it gives are finite trees.
-/

namespace CaeloCms.Template

open Link (parseLinkRef LinkRef)
open Nested (NestedRefValue)

/-! ### Fields and values -/

/-- The binding of a `list` field. -/
inductive Bind
  | «local»
  | shared
  | source
deriving DecidableEq, Repr

structure TemplateField where
  name : String
  kind : String
  default : Option Json
  listType : Option String
  bind : Option Bind
  list : Option String
  source : Option Json
  paginate : Option Json

structure ListFieldSpec where
  name : String
  listType : String
  bind : Option Bind
  list : Option String
  source : Option Json
  default : Option Json
  paginate : Option Json

abbrev Values := List (String × Json)

/-- `Object.hasOwn(values, name) ? values[name] : undefined` -/
def Values.own (values : Values) (name : String) : Option Json := (values.find? fun p => p.1 == name).map (·.2)

/-- `new Map(fields.map((f) => [f.name, f])).get(name)` -/
def fieldNamed (fields : List TemplateField) (name : String) : Option TemplateField :=
  fields.reverse.find? fun f => f.name == name

/-- `Object.hasOwn(values, name) ? values[name] : field.default` -/
def TemplateField.stored (field : TemplateField) (values : Values) (name : String) : Option Json :=
  (values.own name).or field.default

/-! ### Scope values -/

mutual

inductive ScopeValue
  | text (text : String)
  | bool (value : Bool)
  | record (text : Option String) (present : Bool) (parts : List (String × ScopeValue))
  | list (entries : List ScopeEntry)
  | module (ref : NestedRefValue)
  | failed (marker : String)

inductive ScopeEntry
  | mk (id : String) (parts : List (String × ScopeValue)) (itemAttr : Option String) (childrenKey : Option String)

end

/-- `get(key)` of a record or an entry. -/
def partAt (parts : List (String × ScopeValue)) (key : String) : Option ScopeValue :=
  (parts.find? fun p => p.1 == key).map (·.2)

namespace ScopeEntry

def id : ScopeEntry → String
  | mk id _ _ _ => id

/-- `entry.get(key)` -/
def get : ScopeEntry → String → Option ScopeValue
  | mk _ parts _ _ => partAt parts

end ScopeEntry

def ScopeValue.kind : ScopeValue → String
  | text _ => "text"
  | bool _ => "bool"
  | record _ _ _ => "record"
  | list _ => "list"
  | module _ => "module"
  | failed _ => "failed"

/-! ### Link fields -/

structure LinkFieldValue where
  href : String
  target : Option String
deriving DecidableEq, Repr

/-- `parseLinkFieldValue(raw)` -/
def parseLinkFieldValue : Option Json → Option LinkFieldValue
  | none => some ⟨"", none⟩
  | some .null => some ⟨"", none⟩
  | some (.str s) => some ⟨s, none⟩
  | some (.obj fields) =>
    ((Json.obj fields).stringField "href").map fun href => ⟨href, (Json.obj fields).stringField "target"⟩
  | some _ => none

/-- `linkValue(v, data)`, with the titles of the pages. -/
def linkValue (titles : String → Option String) (v : LinkFieldValue) : ScopeValue :=
  let title := match if v.href = "" then none else parseLinkRef v.href with
    | some (.page pageId _ _) => (titles pageId).getD ""
    | _ => ""
  .record (some v.href) (v.href ≠ "")
    [("href", .text v.href), ("target", .text (v.target.getD "")), ("title", .text title)]

/-! ### The list context -/

abbrev ListFieldResolution := Except String (List ScopeEntry)

structure ListPageContext where
  resolveField : ListFieldSpec → Option Json → Option String → ListFieldResolution
  pageScope : Option ScopeValue
  siteTextScope : ScopeValue
  /-- The titles of the pages of the build. -/
  titles : String → Option String
  pluginSource : String → Option ListFieldResolution

/-! ### Markers -/

/-- A marker of `missingSlots`. -/
inductive Marker
  | fieldNotDeclared (list : Option String) (name : String)
  | fieldPathUnknown (list : Option String) (name : String)
  | fieldValueEmpty (name : String)
  | listContextUnavailable (name : String)
  | nestedRendererUnavailable (place : String)
  | kindMismatch (name : String) (actual : String)
  | moduleListMalformed (place : String)
  | moduleRefMalformed (name : String)
  | themeAssetUnbound (slot : String)
  /-- The marker of a value or of a list that could not resolve. -/
  | given (text : String)
  /-- A marker of the link pass. -/
  | link (text : String)
deriving DecidableEq, Repr

def under (list : Option String) (name : String) : String := list.elim name fun l => l ++ "." ++ name

def Marker.text : Marker → String
  | fieldNotDeclared list name => "field-not-declared:" ++ under list name
  | fieldPathUnknown list name => "field-path-unknown:" ++ under list name
  | fieldValueEmpty name => "field-value-empty:" ++ name
  | listContextUnavailable name => "list-context-unavailable:" ++ name
  | nestedRendererUnavailable place => "nested-renderer-unavailable:" ++ place
  | kindMismatch name actual => "kind-mismatch:" ++ name ++ " expected=module actual=" ++ actual
  | moduleListMalformed place => "module-list-malformed:" ++ place
  | moduleRefMalformed name => "module-ref-malformed:" ++ name
  | themeAssetUnbound slot => "theme-asset-unbound:" ++ slot
  | given text => text
  | link text => text

def caeloMissingComment (reason : String) : String := "<!-- caelo:missing reason=" ++ reason ++ " -->"

end CaeloCms.Template
