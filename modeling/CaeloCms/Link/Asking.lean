import CaeloCms.Link.CleanSave

/-!
# Canonicalisers that ask

The canonicaliser once more, with what it does besides its result: it asks the lookup, records issues, and may throw.
`probeLinkLookup` watches whether it asks.  Without the flag this is `Canonicalise` (`computes_canonicaliseHtmlLinks` and
its like).
-/

namespace CaeloCms.Link.Asking

open Redirect (isSpace Url)

/-- What a computation came to, and whether it asked the lookup; without a result it threw. -/
structure Outcome (α : Type) where
  result : Option (α × Run)
  asked : Bool

/-- A computation that may ask the lookup, record in the run, and throw. -/
def Canon (α : Type) : Type := LinkTargets → Run → Outcome α

namespace Canon

def pure {α : Type} (a : α) : Canon α := fun _ run => ⟨some (a, run), false⟩

def bind {α β : Type} (m : Canon α) (next : α → Canon β) : Canon β := fun lookup run =>
  match (m lookup run).result with
  | none => ⟨none, (m lookup run).asked⟩
  | some r => ⟨(next r.1 lookup r.2).result, (m lookup run).asked || (next r.1 lookup r.2).asked⟩

instance : Monad Canon where
  pure := Canon.pure
  bind := Canon.bind

end Canon

def ask {α : Type} (question : LinkTargets → α) : Canon α := fun lookup run => ⟨some (question lookup, run), true⟩

/-- `run.lookup.isPendingPagePath?.(path)`, a function the lookup of the probe does not have. -/
def isPendingPagePath (path : List Char) : Canon Bool := fun lookup run =>
  ⟨some (lookup.isPendingPagePath path, run), false⟩

def issue (kind : IssueKind) (value : List Char) (place : String) : Canon Unit := fun _ run =>
  ⟨some ((), run.issue kind value place), false⟩

def issueUnless (fine : Bool) (kind : IssueKind) (value : List Char) (place : String) : Canon Unit :=
  if fine then pure () else issue kind value place

def pending (p : Pending) : Canon Unit := fun _ run => ⟨some ((), { run with pending := run.pending ++ [p] }), false⟩

def orThrow {α : Type} (x : Option α) : Canon α := fun _ run => ⟨x.map fun a => (a, run), false⟩

def reportMalformedRefs (text : List Char) (place : String) : Canon Unit := fun _ run =>
  ⟨some ((), Link.reportMalformedRefs text run place), false⟩

section Canonicalise

variable (parseUrl : List Char → Option Url)

/-! ### `link-canonicalise.ts` -/

def localPart (v : List Char) : Canon (Option (List Char)) :=
  if isHttp v then
    match parseUrl v with
    | none => pure none
    | some u => do
      let own ← ask fun lookup => lookup.isOwnHost ((hostOf u).map Char.toLower)
      pure (if own then some (u.pathname ++ u.search ++ u.hash) else none)
  else pure (if "/".toList.isPrefixOf v && !"//".toList.isPrefixOf v then some v else none)

/-- The legacy `/_caelo/media/<uuid>/<variant>` names the asset by its id. -/
def mediaIdFor (first : List Char) (variant : Option (List Char)) : Canon (Option String) :=
  if isUuid first && variant.isSome then pure (some (String.ofList first)) else ask fun lookup => lookup.mediaIdForSlug first

def canonicaliseMediaPath (first : List Char) (variant : Option (List Char)) (raw : List Char) (hasSuffix : Bool)
    (place : String) : Canon (List Char) := do
  let id ← mediaIdFor first variant
  match id with
  | none => do
    issue .unknownMedia raw place
    pure raw
  | some id => do
    let live ← ask fun lookup => lookup.mediaExists id
    if !live then do
      issue .unknownMedia raw place
      pure raw
    else if hasSuffix then do
      issue .unsupportedLinkForm raw place
      pure raw
    else
      let kept := if variant = some "orig".toList then none else variant
      orThrow (formatLinkRef (.media id (kept.map String.ofList)))

def canonicalisePagePath (value v : List Char) (t : PathTail) (place : String) : Canon (List Char) := do
  let normalised := normaliseLinkPath t.path
  let found ← ask fun lookup => lookup.pageIdForPath normalised
  match found with
  | none => do
    let planned ← isPendingPagePath normalised
    if planned then do
      pending ⟨v, normalised, place⟩
      pure value
    else if normalised = ['/'] then do
      issueUnless (suffixOk t) .unsupportedLinkForm v place
      pure value
    else
      let isFile := isFilePath t.path
      if isFile && siteServedFiles.contains t.path then pure value
      else do
        issue (if isFile then .unknownFile else .unknownPagePath) v place
        pure value
  | some pageId =>
    if !suffixOk t then do
      issue .unsupportedLinkForm v place
      pure value
    else orThrow (formatLinkRef (.page pageId (t.query.map String.ofList) (t.anchor.map String.ofList)))

def canonicaliseUrl (value : List Char) (place : String) (scope : Scope) : Canon (List Char) :=
  let v := trim value
  if v = [] ∨ hasPlaceholder v = true then pure value
  else
    match parseRef v with
    | some ref => do
      let live ← ask fun lookup => targetExists lookup ref
      issueUnless live (danglingKind ref) v place
      pure v
    | none =>
      if refLike v then do
        issue .malformedLinkRef v place
        pure value
      else do
        let path ← localPart parseUrl v
        match path with
        | none => pure value
        | some path =>
          let t := splitPathTail path
          match mediaSegments t.path with
          | some (first, variant) => canonicaliseMediaPath first variant v (t.query.isSome || t.anchor.isSome) place
          | none =>
            if scope = .media ∨ isReservedPath t.path = true then pure value
            else canonicalisePagePath value v t place

def canonicaliseCandidate (entry : List Char) (place : String) : Canon (List Char) := do
  let lead := entry.takeWhile isSpace
  let body := entry.dropWhile isSpace
  let next ← canonicaliseUrl parseUrl (body.takeWhile fun c => !isSpace c) place .media
  pure (lead ++ next ++ body.dropWhile fun c => !isSpace c)

/-- One after the other. -/
def mapCanon {α β : Type} (f : α → Canon β) : List α → Canon (List β)
  | [] => pure []
  | x :: xs => do
    let y ← f x
    let ys ← mapCanon f xs
    pure (y :: ys)

def canonicaliseSrcset (srcset : List Char) (place : String) : Canon (List Char) := do
  let entries ← mapCanon (fun entry => canonicaliseCandidate parseUrl entry place) (srcset.splitOn ',')
  pure ([','].intercalate entries)

def canonicaliseAttr (a : Attr) (place : String) : Canon (List Char) :=
  match a.name with
  | .href => canonicaliseUrl parseUrl a.value place .pagesAndMedia
  | .srcset => canonicaliseSrcset parseUrl a.value place
  | .src => canonicaliseUrl parseUrl a.value place .media
  | .poster => canonicaliseUrl parseUrl a.value place .media

def canonicalisePiece (place : String) (p : HtmlPiece) : Canon HtmlPiece :=
  match p with
  | .text c => pure (.text c)
  | .attr a => do
    let value ← canonicaliseAttr parseUrl a place
    pure (.attr { a with value := value })

def canonicaliseHtmlLinks (html : List Char) (place : String) : Canon (List Char) :=
  if '=' ∉ html then do
    reportMalformedRefs html place
    pure html
  else do
    let pieces ← mapCanon (canonicalisePiece parseUrl place) (htmlPieces html)
    reportMalformedRefs html place
    pure (htmlText pieces)

mutual

def canonicaliseJsonLinks (value : Json) (place : String) (asUrl : Bool) : Canon Json :=
  match value with
  | .str s =>
    if asUrl then do
      let out ← canonicaliseUrl parseUrl s.toList place .pagesAndMedia
      pure (.str (String.ofList out))
    else if '<' ∈ s.toList then do
      let out ← canonicaliseHtmlLinks parseUrl s.toList place
      pure (.str (String.ofList out))
    else do
      reportMalformedRefs s.toList place
      pure (.str s)
  | .arr items => do
    let out ← canonicaliseItems items 0 place asUrl
    pure (.arr out)
  | .obj fields => do
    let out ← canonicaliseFields fields place
    pure (.obj out)
  | .null => pure .null
  | .bool b => pure (.bool b)
  | .num t => pure (.num t)

def canonicaliseItems (items : List Json) (i : Nat) (place : String) (asUrl : Bool) : Canon (List Json) :=
  match items with
  | [] => pure []
  | v :: vs => do
    let out ← canonicaliseJsonLinks v s!"{place}[{i}]" asUrl
    let outs ← canonicaliseItems vs (i + 1) place asUrl
    pure (out :: outs)

def canonicaliseFields (fields : List (String × Json)) (place : String) : Canon (List (String × Json)) :=
  match fields with
  | [] => pure []
  | (k, v) :: fs => do
    let out ← canonicaliseJsonLinks v s!"{place}.{k}" (isLinkKeyName k)
    let outs ← canonicaliseFields fs place
    pure ((k, out) :: outs)

end

/-- `CanonicaliseField`: a field of a module is a JSON object with a `name` and a `kind`. -/
def isField (f : Json) : Bool := (f.stringField "name").isSome && (f.stringField "kind").isSome

def nameOf (f : Json) : String := (f.stringField "name").getD ""

def kindOf (f : Json) : String := (f.stringField "kind").getD ""

def urlKinds : List String := ["url", "link", "image"]

def nestedKinds : List String := ["module", "module-list"]

/-- `canonicaliseFieldValue`; `urlNames` are in lower case. -/
def canonicaliseFieldValue (field : Option Json) (name : String) (value : Json) (place : String)
    (urlNames : Option (List (List Char))) : Canon Json :=
  if field.any fun f => kindOf f ∈ nestedKinds then pure value
  else if field.any fun f => kindOf f = "list" then canonicaliseJsonLinks parseUrl value place false
  else
    let asUrl := (field.any fun f => kindOf f ∈ urlKinds) || isLinkKeyName name ||
      urlNames.any fun names => names.contains (lowerName name)
    canonicaliseJsonLinks parseUrl value place asUrl

def byName (fields : List Json) (name : String) : Option Json := fields.reverse.find? fun f => nameOf f = name

def canonicaliseContentValues (fields : List Json) (values : List (String × Json))
    (urlNames : Option (List (List Char))) : Canon (List (String × Json)) :=
  mapCanon (fun entry => do
    let out ← canonicaliseFieldValue parseUrl (byName fields entry.1) entry.1 entry.2 s!"values.{entry.1}" urlNames
    pure (entry.1, out)) values

/-- `{ ...f, default: next }`, of a field that has a default. -/
def withDefault (next : Json) : List (String × Json) → List (String × Json)
  | [] => []
  | (k, v) :: entries => if k = "default" then (k, next) :: entries else (k, v) :: withDefault next entries

def setDefault (f next : Json) : Json :=
  match f with
  | .obj entries => .obj (withDefault next entries)
  | _ => f

def canonicaliseFieldDefault (urlNames : Option (List (List Char))) (f : Json) : Canon Json :=
  match f.field "default" with
  | none => pure f
  | some .null => pure f
  | some value => do
    let next ← canonicaliseFieldValue parseUrl (some f) (nameOf f) value s!"fields.{nameOf f}.default" urlNames
    pure (setDefault f next)

def canonicaliseFieldDefaults (fields : List Json) (urlNames : Option (List (List Char))) : Canon (List Json) :=
  mapCanon (canonicaliseFieldDefault parseUrl urlNames) fields

/-! ### `canonicalise.ts` -/

/-- The lookup that only records being asked. -/
def nothing : LinkTargets where
  pageIdForPath _ := none
  mediaIdForSlug _ := none
  pageExists _ := false
  mediaExists _ := false
  isOwnHost _ := false
  isPendingPagePath _ := false

structure Probe (α : Type) where
  needsLookup : Bool
  value : α

/-- `probeLinkLookup`; none where the canonicaliser throws. -/
def probeLinkLookup {α : Type} (apply : Canon α) : Option (Probe α) :=
  let outcome := apply nothing (linkCanonicaliseRun [])
  outcome.result.map fun r => ⟨outcome.asked || !r.2.issues.isEmpty, r.1⟩

inductive Mode
  | strict
  | report
deriving DecidableEq, Repr

/-- `CanonicaliseOutcome` -/
inductive WriteOutcome (α : Type)
  | ok (value : α) (issues : List Issue) (pending : List Pending)
  | refused (issues : List Issue)

/-- `canonicaliseLinksForWrite`, with the lookup of the site and the links of the state that is replaced. -/
def canonicaliseLinksForWrite {α : Type} (apply : Canon α) (lookup : LinkTargets) (mode : Mode)
    (grandfathered : List (List Char)) : Option (WriteOutcome α) :=
  (probeLinkLookup apply).bind fun probe =>
    if !probe.needsLookup then some (.ok probe.value [] [])
    else
      (apply lookup (linkCanonicaliseRun grandfathered)).result.map fun r =>
        if mode = .strict ∧ r.2.issues ≠ [] then .refused r.2.issues else .ok r.1 r.2.issues r.2.pending

/-! ### `migrate-convert.ts` -/

mutual

def sortKeys (v : Json) : Json :=
  match v with
  | .arr items => .arr (sortItems items)
  | .obj fields => .obj ((sortFields fields).mergeSort fun a b => a.1 ≤ b.1)
  | .null => .null
  | .bool b => .bool b
  | .num t => .num t
  | .str s => .str s

def sortItems (items : List Json) : List Json :=
  match items with
  | [] => []
  | v :: vs => sortKeys v :: sortItems vs

def sortFields (fields : List (String × Json)) : List (String × Json) :=
  match fields with
  | [] => []
  | (k, v) :: fs => (k, sortKeys v) :: sortFields fs

end

mutual

def sameText (v w : Json) : Bool :=
  match v, w with
  | .null, .null => true
  | .bool b, .bool c => b == c
  | .num t, .num u => t == u
  | .str s, .str t => s == t
  | .arr vs, .arr ws => sameItems vs ws
  | .obj fs, .obj gs => sameFields fs gs
  | _, _ => false

def sameItems (vs ws : List Json) : Bool :=
  match vs, ws with
  | [], [] => true
  | v :: vs, w :: ws => sameText v w && sameItems vs ws
  | _, _ => false

def sameFields (fs gs : List (String × Json)) : Bool :=
  match fs, gs with
  | [], [] => true
  | (k, v) :: fs, (l, w) :: gs => k == l && sameText v w && sameFields fs gs
  | _, _ => false

end

def sameStableJson (v w : Json) : Bool := sameText (sortKeys v) (sortKeys w)

mutual

def countRefs (v : Json) : Nat :=
  match v with
  | .str s => (findLinkRefs s.toList).length
  | .arr items => countItems items
  | .obj fields => countFields fields
  | .null => 0
  | .bool _ => 0
  | .num _ => 0

def countItems (items : List Json) : Nat :=
  match items with
  | [] => 0
  | v :: vs => countRefs v + countItems vs

def countFields (fields : List (String × Json)) : Nat :=
  match fields with
  | [] => 0
  | (_, v) :: fs => countRefs v + countFields fs

end

structure PartOutcome (α : Type) where
  next : α
  changed : Bool
  converted : Nat
  issues : List Issue

/-- `convert`, of a part that is this JSON. -/
def convert {α : Type} (json : α → Json) (value : α) (lookup : LinkTargets) (apply : Canon α) :
    Option (PartOutcome α) :=
  (probeLinkLookup apply).bind fun probe =>
    if !probe.needsLookup then some ⟨value, false, 0, []⟩
    else
      (apply lookup (linkCanonicaliseRun [])).result.map fun r =>
        let changed := !sameStableJson (json r.1) (json value)
        { next := if changed then r.1 else value
          changed := changed
          converted := if changed then countRefs (json r.1) - countRefs (json value) else 0
          issues := r.2.issues }

def htmlJson (html : List Char) : Json := .str (String.ofList html)

def convertModuleHtml (html : List Char) (lookup : LinkTargets) : Option (PartOutcome (List Char)) :=
  convert htmlJson html lookup (canonicaliseHtmlLinks parseUrl html "html")

def convertFieldDefaults (urlFieldNamesInHtml : List Char → List (List Char)) (fields : List Json) (lookup : LinkTargets)
    (html : List Char) : Option (PartOutcome (List Json)) :=
  let urlNames := urlFieldNamesInHtml html
  convert Json.arr fields lookup
    (mapCanon (fun f => if isField f then canonicaliseFieldDefault parseUrl (some urlNames) f else pure f) fields)

def convertContentValues (urlFieldNamesInHtml : List Char → List (List Char)) (fields : List Json)
    (values : List (String × Json)) (lookup : LinkTargets) (html : Option (List Char)) :
    Option (PartOutcome (List (String × Json))) :=
  convert Json.obj values lookup (canonicaliseContentValues parseUrl fields values (html.map urlFieldNamesInHtml))

def pluginApply (column : String) (value : Json) (fields : Option (List Json)) : Canon Json :=
  match fields, value with
  | some fields, .obj values => do
    let out ← canonicaliseContentValues parseUrl fields values none
    pure (.obj out)
  | _, _ => canonicaliseJsonLinks parseUrl value column (isLinkKeyName column)

def convertPluginValue (column : String) (value : Json) (fields : Option (List Json)) (lookup : LinkTargets) :
    Option (PartOutcome Json) :=
  convert id value lookup (pluginApply parseUrl column value fields)

end Canonicalise

end CaeloCms.Link.Asking
