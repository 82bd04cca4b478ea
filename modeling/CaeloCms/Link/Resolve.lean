import CaeloCms.Link.Text
import CaeloCms.Shared.Json

/-!
# Resolving references

`createSiteLinkIndex` cuts a resolver for one rendering page from the tables of the site; `resolveLinkRefsInHtml` puts
the URLs in, and leaves a reference that fails where it is, with a marker.  `humaniseLinkRefs` turns references back
into what an author writes.
-/

namespace CaeloCms.Link

/-! ### The index -/

inductive RenderEnv
  | preview
  | staging
  | production
deriving DecidableEq, Repr

inductive PageUrlStyle
  | directory
  | noExtension
deriving DecidableEq, Repr

/-- `LinkIndexPage` -/
structure IndexPage where
  id : String
  path : List Char
  published : Bool
deriving DecidableEq, Repr

/-- `LinkIndexMedia` -/
structure IndexMedia where
  id : String
  slug : List Char
deriving DecidableEq, Repr

/-- `LinkPageVariant`, of one page. -/
structure PageVariant where
  pageId : String
  variant : String
  group : Option String
deriving DecidableEq, Repr

/-- `SiteLinkIndexInput` -/
structure SiteLinkIndexInput where
  pages : List IndexPage
  media : List IndexMedia
  env : RenderEnv
  pageUrlStyle : PageUrlStyle
  pageVariants : List PageVariant
deriving DecidableEq, Repr

inductive LinkResolution
  | resolved (url : List Char)
  | unpublished (url : List Char) (pageId : String)
  | missing
  | noVariant (variant : String) (staged : Option (List Char × String))
deriving DecidableEq, Repr

def trimSlashes (s : List Char) : List Char :=
  ((s.dropWhile fun c => c == '/').reverse.dropWhile fun c => c == '/').reverse

def pageHrefForStyle (path : List Char) (style : PageUrlStyle) : List Char :=
  let trimmed := trimSlashes path
  if trimmed = [] then ['/']
  else match style with
    | .noExtension => '/' :: trimmed
    | .directory => '/' :: trimmed ++ ['/']

def pageRefUrl (query anchor : Option String) (path : List Char) (style : PageUrlStyle) : List Char :=
  pageHrefForStyle path style ++ formatPart '?' query ++ formatPart '#' anchor

def buildMediaUrl (slug : List Char) (variant : String) : List Char :=
  "/_caelo/media/".toList ++ slug ++ if variant = "orig" then [] else '/' :: variant.toList

namespace SiteLinkIndexInput

variable (input : SiteLinkIndexInput)

/-- `pages.get(id)`; of two pages with one id the map keeps the last. -/
def page (id : String) : Option IndexPage := input.pages.reverse.find? fun p => p.id == id

def asset (id : String) : Option IndexMedia := input.media.reverse.find? fun m => m.id == id

def variantOf (pageId : String) : Option PageVariant := input.pageVariants.reverse.find? fun v => v.pageId == pageId

/-- `siblings.get(group)?.get(variant)` -/
def sibling (group variant : String) : Option String :=
  (input.pageVariants.find? fun v => v.group == some group && v.variant == variant && (input.page v.pageId).isSome).map
    (·.pageId)

/-- A group holds at most one page per variant; `createSiteLinkIndex` throws otherwise. -/
def partitioned : Bool :=
  input.pageVariants.all fun v => input.pageVariants.all fun w =>
    !(v.group.isSome && v.group == w.group && v.variant == w.variant && (input.page v.pageId).isSome &&
      (input.page w.pageId).isSome) || v.pageId == w.pageId

def pageInVariant (targetId : String) (variant : Option String) : Option String :=
  match variant, input.variantOf targetId with
  | some variant, some target =>
    if target.variant = variant then some targetId else target.group.bind fun group => input.sibling group variant
  | _, _ => some targetId

/-- The resolver's answer, for a page rendered in `variant`. -/
def resolve (variant : Option String) : LinkRef → LinkResolution
  | .media mediaId mediaVariant =>
    match input.asset mediaId with
    | none => .missing
    | some asset => .resolved (buildMediaUrl asset.slug (mediaVariant.getD "orig"))
  | .page pageId query anchor =>
    match input.page pageId with
    | none => .missing
    | some referenced =>
      match (input.pageInVariant pageId variant).bind input.page with
      | none =>
        .noVariant (variant.getD "") (if input.env = .staging then
          some (pageRefUrl query anchor referenced.path input.pageUrlStyle, pageId) else none)
      | some page =>
        let url := pageRefUrl query anchor page.path input.pageUrlStyle
        if input.env ≠ .preview ∧ page.published = false then .unpublished url page.id else .resolved url

end SiteLinkIndexInput

/-- `createSiteLinkIndex(input).forPage(renderingPageId)`; `none` where it throws. -/
def forPage (input : SiteLinkIndexInput) (renderingPageId : Option String) : Option (LinkRef → LinkResolution) :=
  if input.partitioned then
    some (input.resolve ((renderingPageId.bind input.variantOf).map (·.variant)))
  else none

/-! ### Rendered HTML -/

/-- `linkRefTargetKey` -/
def targetKey : LinkRef → String
  | .page pageId _ _ => "page/" ++ pageId
  | .media mediaId _ => "media/" ++ mediaId

/-- What a reference becomes: its URL, or the marker of its failure. -/
def resolveRef (resolver : Option (LinkRef → LinkResolution)) (ref : LinkRef) : List Char ⊕ String :=
  match resolver with
  | none => .inr ("link-resolver-unavailable:" ++ targetKey ref)
  | some resolve =>
    match resolve ref with
    | .missing => .inr ("link-target-missing:" ++ targetKey ref)
    | .noVariant _ (some (url, _)) => .inl url
    | .noVariant variant none => .inr ("link-variant-missing:" ++ targetKey ref ++ ":" ++ variant)
    | .unpublished url _ => .inl url
    | .resolved url => .inl url

/-- `resolveLinkRefsInHtml`, with the markers it pushes onto `missing`. -/
def resolveLinkRefsInHtml (html : List Char) (resolver : Option (LinkRef → LinkResolution)) : List Char × List String :=
  (replaceLinkRefs (fun ref raw => (resolveRef resolver ref).elim id fun _ => raw) html,
    (findMalformedLinkRefs html).map (fun raw => "link-ref-malformed:" ++ String.ofList raw) ++
      (findLinkRefs html).filterMap fun ref => (resolveRef resolver ref).getRight?)

/-! ### Humanising -/

/-- `LinkHumaniseLookup` -/
structure LinkHumaniseLookup where
  pagePath : String → Option (List Char)
  mediaSlug : String → Option (List Char)

/-- What an author writes for a reference; a broken one stays raw. -/
def humaniseRef (lookup : LinkHumaniseLookup) (ref : LinkRef) (raw : List Char) : List Char :=
  match ref with
  | .media mediaId variant => ((lookup.mediaSlug mediaId).map fun slug => buildMediaUrl slug (variant.getD "orig")).getD raw
  | .page pageId query anchor =>
    ((lookup.pagePath pageId).map fun path => path ++ formatPart '?' query ++ formatPart '#' anchor).getD raw

def humaniseText (lookup : LinkHumaniseLookup) (text : List Char) : List Char :=
  replaceLinkRefs (humaniseRef lookup) text

mutual

def mapLinkRefsDeep (f : LinkRef → List Char → List Char) (value : Json) : Json :=
  match value with
  | .str s => .str (String.ofList (replaceLinkRefs f s.toList))
  | .arr items => .arr (mapLinkRefsItems f items)
  | .obj fields => .obj (mapLinkRefsFields f fields)
  | .null => .null
  | .bool b => .bool b
  | .num t => .num t

def mapLinkRefsItems (f : LinkRef → List Char → List Char) (items : List Json) : List Json :=
  match items with
  | [] => []
  | v :: vs => mapLinkRefsDeep f v :: mapLinkRefsItems f vs

def mapLinkRefsFields (f : LinkRef → List Char → List Char) (fields : List (String × Json)) : List (String × Json) :=
  match fields with
  | [] => []
  | (k, v) :: fs => (k, mapLinkRefsDeep f v) :: mapLinkRefsFields f fs

end

mutual

def collectLinkRefsDeep (value : Json) : List LinkRef :=
  match value with
  | .str s => findLinkRefs s.toList
  | .arr items => collectLinkRefsItems items
  | .obj fields => collectLinkRefsFields fields
  | .null => []
  | .bool _ => []
  | .num _ => []

def collectLinkRefsItems (items : List Json) : List LinkRef :=
  match items with
  | [] => []
  | v :: vs => collectLinkRefsDeep v ++ collectLinkRefsItems vs

def collectLinkRefsFields (fields : List (String × Json)) : List LinkRef :=
  match fields with
  | [] => []
  | (_, v) :: fs => collectLinkRefsDeep v ++ collectLinkRefsFields fs

end

def humaniseLinkRefs (lookup : LinkHumaniseLookup) (value : Json) : Json := mapLinkRefsDeep (humaniseRef lookup) value

end CaeloCms.Link
