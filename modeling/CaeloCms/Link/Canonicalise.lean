import CaeloCms.Link.Html
import CaeloCms.Shared.Json

/-!
# Write-time canonicalisation of links

`link-canonicalise.ts`: authors write paths and media URLs, a write stores references.  `new URL(…)` is the parameter
`parseUrl`, which is `none` where the constructor throws.  A function that can throw, as `formatLinkRef` does, returns
an `Option`.
-/

namespace CaeloCms.Link

open Redirect (isSpace Url)

/-! ### The site and the run -/

/-- The functions of a `LinkTargetLookup`. -/
structure LinkTargets where
  pageIdForPath : List Char → Option String
  mediaIdForSlug : List Char → Option String
  pageExists : String → Bool
  mediaExists : String → Bool
  isOwnHost : List Char → Bool
  /-- Never, where the source leaves it out. -/
  isPendingPagePath : List Char → Bool

/-- `LinkTargetLookup`.  The ids are those of rows, and the page that is served at a path is one of the pages. -/
structure LinkTargetLookup extends LinkTargets where
  pageIds : ∀ id, pageExists id = true → isUuid id.toList = true
  mediaIds : ∀ id, mediaExists id = true → isUuid id.toList = true
  served : ∀ path id, pageIdForPath path = some id → pageExists id = true

instance : Coe LinkTargetLookup LinkTargets := ⟨LinkTargetLookup.toLinkTargets⟩

inductive IssueKind
  | unknownPagePath
  | unknownMedia
  | danglingPageRef
  | danglingMediaRef
  | unknownFile
  | unsupportedLinkForm
  | malformedLinkRef
deriving DecidableEq, Repr

/-- `LinkCanonicaliseIssue`; `place` is its `where`. -/
structure Issue where
  kind : IssueKind
  value : List Char
  place : String
deriving DecidableEq, Repr

structure Pending where
  value : List Char
  path : List Char
  place : String
deriving DecidableEq, Repr

/-- `LinkCanonicaliseRun`.  The mode only decides what the caller does with the issues. -/
structure Run where
  grandfathered : List (List Char)
  issues : List Issue
  pending : List Pending
deriving DecidableEq, Repr

def linkCanonicaliseRun (grandfathered : List (List Char)) : Run := ⟨grandfathered, [], []⟩

def Run.issue (run : Run) (kind : IssueKind) (value : List Char) (place : String) : Run :=
  if value ∈ run.grandfathered then run else { run with issues := run.issues ++ [⟨kind, value, place⟩] }

inductive Scope
  | pagesAndMedia
  | media
deriving DecidableEq, Repr

/-! ### Paths -/

def trim (s : List Char) : List Char := ((s.dropWhile isSpace).reverse.dropWhile isSpace).reverse

/-- `v.includes("\x7b\x7b")` -/
def hasPlaceholder (v : List Char) : Bool := decide (['\x7b', '\x7b'] <:+: v)

structure PathTail where
  path : List Char
  query : Option (List Char)
  anchor : Option (List Char)
deriving DecidableEq, Repr

def nonEmpty (s : List Char) : Option (List Char) := if s = [] then none else some s

def splitPathTail (v : List Char) : PathTail :=
  let rest := v.takeWhile fun c => c != '#'
  { path := rest.takeWhile fun c => c != '?'
    query := nonEmpty (rest.dropWhile fun c => c != '?').tail
    anchor := nonEmpty (v.dropWhile fun c => c != '#').tail }

def normaliseLinkPath (path : List Char) : List Char :=
  let trimmed := (path.reverse.dropWhile fun c => c == '/').reverse
  if trimmed = [] then ['/'] else trimmed

def isMediaSegment (s : List Char) : Bool :=
  s.head?.any (fun c => c.isDigit || ('a' ≤ c && c ≤ 'z')) && s.all isVariantChar && s.length ≤ 64

def mediaUrlPrefix : List Char := "/_caelo/media".toList

/-- The segments of a `/_caelo/media/<slug>[/<variant>]` path; an empty variant is none. -/
def mediaSegments (path : List Char) : Option (List Char × Option (List Char)) :=
  match (mediaUrlPrefix ++ ['/']).isPrefixOf? path with
  | none => none
  | some rest =>
    let segs := rest.splitOn '/'
    let first := segs.headD []
    let variant := (segs[1]?).bind nonEmpty
    if 2 < segs.length || !isMediaSegment first || variant.any (fun v => !variantOk v) then none
    else some (first, variant)

/-- `FILE_EXT_RE` on the last segment of a path. -/
def isFilePath (path : List Char) : Bool :=
  let fromEnd := (path.reverse.takeWhile fun c => c != '/')
  let ext := fromEnd.takeWhile isAlphanum
  1 ≤ ext.length && ext.length ≤ 8 && (fromEnd.drop ext.length).head? == some '.'

def siteServedFiles : List (List Char) := ["/robots.txt".toList, "/sitemap.xml".toList]

/-- The surfaces no page is served under: `/_…` and the gateway. -/
def isReservedPath (path : List Char) : Bool :=
  "/_".toList.isPrefixOf path || path == "/api".toList || "/api/".toList.isPrefixOf path

/-- `/^https?:\/\//i` -/
def isHttp (v : List Char) : Bool :=
  let lower := v.map Char.toLower
  "http://".toList.isPrefixOf lower || "https://".toList.isPrefixOf lower

def hostOf (u : Url) : List Char := u.hostname ++ if u.port = [] then [] else ':' :: u.port

/-! ### One URL -/

section Canonicalise

variable (parseUrl : List Char → Option Url) (lookup : LinkTargets)

def targetExists : LinkRef → Bool
  | .page pageId _ _ => lookup.pageExists pageId
  | .media mediaId _ => lookup.mediaExists mediaId

/-- The path of a link to this site, with its query and anchor. -/
def localPart (v : List Char) : Option (List Char) :=
  if isHttp v then
    match parseUrl v with
    | none => none
    | some u => if lookup.isOwnHost ((hostOf u).map Char.toLower) then some (u.pathname ++ u.search ++ u.hash) else none
  else if "/".toList.isPrefixOf v && !"//".toList.isPrefixOf v then some v
  else none

/-- `canonicaliseMediaPath`, of a path with these segments. -/
def canonicaliseMediaPath (first : List Char) (variant : Option (List Char)) (raw : List Char) (hasSuffix : Bool)
    (run : Run) (place : String) : Option (List Char × Run) :=
  let id := if isUuid first && variant.isSome then some (String.ofList first) else lookup.mediaIdForSlug first
  match id with
  | none => some (raw, run.issue .unknownMedia raw place)
  | some id =>
    if !lookup.mediaExists id then some (raw, run.issue .unknownMedia raw place)
    else if hasSuffix then some (raw, run.issue .unsupportedLinkForm raw place)
    else
      let kept := if variant = some "orig".toList then none else variant
      (formatLinkRef (.media id (kept.map String.ofList))).map fun out => (out, run)

def suffixOk (t : PathTail) : Bool := t.query.all queryOk && t.anchor.all anchorOk

/-- A link to the path of a page; `v` is the link as written, trimmed. -/
def canonicalisePagePath (value v : List Char) (t : PathTail) (run : Run) (place : String) : Option (List Char × Run) :=
  let normalised := normaliseLinkPath t.path
  match lookup.pageIdForPath normalised with
  | none =>
    if lookup.isPendingPagePath normalised then
      some (value, { run with pending := run.pending ++ [⟨v, normalised, place⟩] })
    else if normalised = ['/'] then
      some (value, if suffixOk t then run else run.issue .unsupportedLinkForm v place)
    else
      let isFile := isFilePath t.path
      if isFile ∧ t.path ∈ siteServedFiles then some (value, run)
      else some (value, run.issue (if isFile then .unknownFile else .unknownPagePath) v place)
  | some pageId =>
    if !suffixOk t then some (value, run.issue .unsupportedLinkForm v place)
    else
      (formatLinkRef (.page pageId (t.query.map String.ofList) (t.anchor.map String.ofList))).map fun out => (out, run)

def danglingKind : LinkRef → IssueKind
  | .page .. => .danglingPageRef
  | .media .. => .danglingMediaRef

def canonicaliseUrl (value : List Char) (run : Run) (place : String) (scope : Scope) : Option (List Char × Run) :=
  let v := trim value
  if v = [] ∨ hasPlaceholder v = true then some (value, run)
  else
    match parseRef v with
    | some ref => some (v, if targetExists lookup ref then run else run.issue (danglingKind ref) v place)
    | none =>
      if refLike v then some (value, run.issue .malformedLinkRef v place)
      else
        match localPart parseUrl lookup v with
        | none => some (value, run)
        | some path =>
          let t := splitPathTail path
          match mediaSegments t.path with
          | some (first, variant) =>
            canonicaliseMediaPath lookup first variant v (t.query.isSome || t.anchor.isSome) run place
          | none =>
            if scope = .media ∨ isReservedPath t.path = true then some (value, run)
            else canonicalisePagePath lookup value v t run place

/-! ### HTML -/

def reportMalformedRefs (text : List Char) (run : Run) (place : String) : Run :=
  (findMalformedLinkRefs text).foldl (fun run raw =>
    if run.issues.any fun i => i.kind == .malformedLinkRef && i.place == place && raw.isPrefixOf i.value then run
    else run.issue .malformedLinkRef raw place) run

/-- One candidate of a `srcset`. -/
def canonicaliseCandidate (entry : List Char) (run : Run) (place : String) : Option (List Char × Run) :=
  let lead := entry.takeWhile isSpace
  let body := entry.dropWhile isSpace
  let url := body.takeWhile fun c => !isSpace c
  let rest := body.dropWhile fun c => !isSpace c
  (canonicaliseUrl parseUrl lookup url run place .media).map fun r => (lead ++ r.1 ++ rest, r.2)

def mapRun {α β : Type} (f : α → Run → Option (β × Run)) : List α → Run → Option (List β × Run)
  | [], run => some ([], run)
  | x :: xs, run => (f x run).bind fun r => (mapRun f xs r.2).map fun rs => (r.1 :: rs.1, rs.2)

def canonicaliseSrcset (srcset : List Char) (run : Run) (place : String) : Option (List Char × Run) :=
  (mapRun (fun entry run => canonicaliseCandidate parseUrl lookup entry run place) (srcset.splitOn ',') run).map fun r =>
    ([','].intercalate r.1, r.2)

/-- The value of one link attribute. -/
def canonicaliseAttr (a : Attr) (run : Run) (place : String) : Option (List Char × Run) :=
  match a.name with
  | .href => canonicaliseUrl parseUrl lookup a.value run place .pagesAndMedia
  | .srcset => canonicaliseSrcset parseUrl lookup a.value run place
  | .src => canonicaliseUrl parseUrl lookup a.value run place .media
  | .poster => canonicaliseUrl parseUrl lookup a.value run place .media

/-- `canonicaliseTagAttributes`, and what is outside of tags. -/
def canonicalisePiece (place : String) (p : HtmlPiece) (run : Run) : Option (HtmlPiece × Run) :=
  match p with
  | .text c => some (.text c, run)
  | .attr a => (canonicaliseAttr parseUrl lookup a run place).map fun r => (.attr { a with value := r.1 }, r.2)

def canonicaliseHtmlLinks (html : List Char) (run : Run) (place : String) : Option (List Char × Run) :=
  if '=' ∉ html then some (html, reportMalformedRefs html run place)
  else
    (mapRun (canonicalisePiece parseUrl lookup place) (htmlPieces html) run).map fun r =>
      (htmlText r.1, reportMalformedRefs html r.2 place)

/-! ### JSON -/

/-- `name.toLowerCase()`, as far as the names below go: of the letters outside ASCII the Kelvin sign alone becomes one
of them. -/
def lowerName (name : String) : List Char := name.toList.map fun c => if c.toNat = 0x212A then 'k' else c.toLower

def isLinkKeyName (name : String) : Bool :=
  let n := lowerName name
  ["href", "src", "url", "link"].any (fun k => n == k.toList) ||
    ["_href", "_url", "_link", "_src"].any fun k => k.toList.isSuffixOf n

mutual

def canonicaliseJsonLinks (value : Json) (run : Run) (place : String) (asUrl : Bool) : Option (Json × Run) :=
  match value with
  | .str s =>
    if asUrl then
      (canonicaliseUrl parseUrl lookup s.toList run place .pagesAndMedia).map fun r => (.str (String.ofList r.1), r.2)
    else if '<' ∈ s.toList then
      (canonicaliseHtmlLinks parseUrl lookup s.toList run place).map fun r => (.str (String.ofList r.1), r.2)
    else some (.str s, reportMalformedRefs s.toList run place)
  | .arr items => (canonicaliseItems items 0 run place asUrl).map fun r => (.arr r.1, r.2)
  | .obj fields => (canonicaliseFields fields run place).map fun r => (.obj r.1, r.2)
  | .null => some (.null, run)
  | .bool b => some (.bool b, run)
  | .num t => some (.num t, run)

def canonicaliseItems (items : List Json) (i : Nat) (run : Run) (place : String) (asUrl : Bool) :
    Option (List Json × Run) :=
  match items with
  | [] => some ([], run)
  | v :: vs =>
    (canonicaliseJsonLinks v run s!"{place}[{i}]" asUrl).bind fun r =>
      (canonicaliseItems vs (i + 1) r.2 place asUrl).map fun rs => (r.1 :: rs.1, rs.2)

def canonicaliseFields (fields : List (String × Json)) (run : Run) (place : String) :
    Option (List (String × Json) × Run) :=
  match fields with
  | [] => some ([], run)
  | (k, v) :: fs =>
    (canonicaliseJsonLinks v run s!"{place}.{k}" (isLinkKeyName k)).bind fun r =>
      (canonicaliseFields fs r.2 place).map fun rs => ((k, r.1) :: rs.1, rs.2)

end

end Canonicalise

end CaeloCms.Link
