import CaeloCms.Lists.Items

/-!
# What a render reads of a list

The parts of `resolve.ts` and `resolve-values.ts` that read what the write path stored: the structural check of a
stored tree (`checkTree`), the pages a query finds (`queryHits`), and a media value (`mediaValue`).
-/

namespace CaeloCms.Lists

open Link (parseLinkRef LinkRef)

/-! ### Stored trees -/

mutual

/-- A stored entry as the JSON value it is kept as. -/
def itemJson : ListItem → Json
  | ⟨id, node, values, children, query⟩ =>
    .obj ([("id", .str id), ("node", .str node), ("values", .obj values)] ++
      (if children.isEmpty then [] else [("children", .arr (itemsJson children))]) ++
      (query.map fun q => ("query", Json.obj q)).toList)

def itemsJson : List ListItem → List Json
  | [] => []
  | it :: rest => itemJson it :: itemsJson rest

end

/-- `typeof v === "object" && v !== null` -/
def isObject : Json → Bool
  | .obj _ => true
  | .arr _ => true
  | _ => false

section CheckTree

variable (type : ListTypeDef)

def checkEntry (fields : Fields) (depth : Nat) (at_ : String) : Option String :=
  match lookup "id" fields, lookup "node" fields, lookup "values" fields with
  | some (.str _), some (.str node), some values =>
    if !isObject values then some at_
    else if (type.node node).isNone then some s!"{at_}.node"
    else if type.effectiveMaxDepth < depth then some at_
    else none
  | _, _, _ => some at_

mutual

def walkEntry (entry : Json) (depth : Nat) (at_ : String) : Option String :=
  match entry with
  | .obj fields => (checkEntry type fields depth at_).or (walkChildren fields depth at_)
  | _ => some at_

/-- `walk(level, depth, path)`, from the `i`th entry on. -/
def walkEntries (level : List Json) (i : Nat) (depth : Nat) (path : String) : Option String :=
  match level with
  | [] => none
  | v :: rest => (walkEntry v depth s!"{path}[{i}]").or (walkEntries rest (i + 1) depth path)

/-- The `children` of an entry, when it has them. -/
def walkChildren (fields : Fields) (depth : Nat) (at_ : String) : Option String :=
  match fields with
  | [] => none
  | f :: fs => if f.1 = "children" then walkArray f.2 depth at_ else walkChildren fs depth at_

def walkArray (value : Json) (depth : Nat) (at_ : String) : Option String :=
  match value with
  | .arr items => walkEntries items 0 (depth + 1) s!"{at_}.children"
  | _ => some s!"{at_}.children"

end

/-- The entries of a stored tree, or the marker of the place that breaks its structure. -/
def checkTree (items : Json) (field : String) : Except String (List Json) :=
  match items with
  | .arr level =>
    match walkEntries type level 0 1 "items" with
    | none => .ok level
    | some bad => .error s!"list-malformed:{field}[{bad}]"
  | _ => .error s!"list-malformed:{field}[items]"

end CheckTree

/-! ### Render data -/

structure ListPageRecord where
  id : String
  title : String
  parentId : Option String
  pageTypeSlug : String
  properties : Fields
  /-- `caelo:term/<listId>/<itemId>` -/
  terms : List String
  firstPublishedAt : Option String
  updatedAt : String
  inBuild : Bool

structure ListMediaRecord where
  id : String
  alt : Option String
  width : Option Nat
  height : Option Nat

structure ListRenderData where
  pages : List ListPageRecord
  media : List ListMediaRecord
  /-- The variant of a page, by page id. -/
  pageVariants : List (String × String)

namespace ListRenderData

variable (data : ListRenderData)

def variantOf (pageId : String) : Option String :=
  (data.pageVariants.find? fun p => p.1 == pageId).map (·.2)

def mediaRecord (mediaId : String) : Option ListMediaRecord := data.media.find? fun m => m.id == mediaId

end ListRenderData

/-! ### The order of a query's pages -/

def compareIds (a b : String) : Ordering := compare a b

mutual

def stringOf : Json → String
  | .null => "null"
  | .bool b => if b then "true" else "false"
  | .num t => t
  | .str s => s
  | .arr items => ",".intercalate (stringsOf items)
  | .obj _ => "[object Object]"

/-- The parts `Array.prototype.join` joins. -/
def stringsOf : List Json → List String
  | [] => []
  | .null :: vs => "" :: stringsOf vs
  | v :: vs => stringOf v :: stringsOf vs

end

/-- Pages without the sort key sort last. -/
def nullsLast {α : Type} (cmp : α → α → Ordering) : Option α → Option α → Ordering
  | none, none => .eq
  | none, some _ => .gt
  | some _, none => .lt
  | some a, some b => cmp a b

/-- `properties[prop]`, where null counts as absent. -/
def property (p : ListPageRecord) (name : String) : Option Json :=
  (lookup name p.properties).filter fun
    | .null => false
    | _ => true

variable (collate : String → String → Ordering)

def cmpValue : Json → Json → Ordering
  | .num x, .num y => compare (numValue x) (numValue y)
  | x, y => collate (stringOf x) (stringOf y)

def pageOrder (order : String) (a b : ListPageRecord) : Ordering :=
  match order with
  | "published_desc" =>
    ((nullsLast (fun x y => compareIds y x) a.firstPublishedAt b.firstPublishedAt).then
      (compareIds b.updatedAt a.updatedAt)).then (compareIds a.id b.id)
  | "published_asc" =>
    ((nullsLast compareIds a.firstPublishedAt b.firstPublishedAt).then
      (compareIds a.updatedAt b.updatedAt)).then (compareIds a.id b.id)
  | "title_asc" => (collate a.title b.title).then (compareIds a.id b.id)
  | _ =>
    let desc := "prop_desc:".toList.isPrefixOf order.toList
    let prop := String.ofList (order.toList.dropWhile (· != ':')).tail
    let cmp := fun x y => if desc then cmpValue collate y x else cmpValue collate x y
    (nullsLast cmp (property a prop) (property b prop)).then (compareIds a.id b.id)

/-! ### Queries -/

/-- `parseLinkRef(q.parent)?.pageId ?? null`; a reference to a media asset has no page id. -/
def parentOf (q : PageQuery) : Option String :=
  match q.parent.bind parseLinkRef with
  | some (.page pageId _ _) => some pageId
  | _ => none

def hasTerms (q : PageQuery) (p : ListPageRecord) : Bool :=
  let terms := q.terms.getD []
  terms.isEmpty ||
    match q.terms_mode.getD .any with
    | .all => terms.all fun t => p.terms.contains t
    | .any => terms.any fun t => p.terms.contains t

/-- Whether a query of the page `pageId` may return `p`. -/
def isHit (data : ListRenderData) (pageId : Option String) (q : PageQuery) (p : ListPageRecord) : Bool :=
  let variant := pageId.bind data.variantOf
  p.inBuild && (variant.isNone || data.variantOf p.id == variant) &&
    q.page_type.all (fun t => p.pageTypeSlug == t) &&
    (parentOf q).all (fun parent => p.parentId == some parent) &&
    (!q.exclude_current.getD true || some p.id != pageId) && hasTerms q p

def queryHits (data : ListRenderData) (pageId : Option String) (q : PageQuery) : List ListPageRecord :=
  (data.pages.filter (isHit data pageId q)).mergeSort fun a b => (pageOrder collate q.order a b).isLE

/-! ### Media values -/

structure MediaScope where
  url : String
  present : Bool
  alt : String
  width : String
  height : String
deriving DecidableEq, Repr

/-- The scope of `ref`, when it is read as a reference to `asset`. -/
def mediaScope (ref : String) (asset : Option ListMediaRecord) : MediaScope :=
  { url := ref
    present := !ref.isEmpty
    alt := (asset.bind ListMediaRecord.alt).getD ""
    width := ((asset.bind ListMediaRecord.width).map toString).getD ""
    height := ((asset.bind ListMediaRecord.height).map toString).getD "" }

def mediaValue (ref : String) (data : ListRenderData) : MediaScope :=
  mediaScope ref <|
    match parseLinkRef ref with
    | some (.media mediaId _) => data.mediaRecord mediaId
    | _ => none

end CaeloCms.Lists
