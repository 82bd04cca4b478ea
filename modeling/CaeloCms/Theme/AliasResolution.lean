import CaeloCms.Lib.MemoGraph
import CaeloCms.Shared.Json

/-!
# Theme tokens and their aliases

A theme document is a JSON tree; an object that carries `$value` is a token, and a string `{group.token}` in a value is
an alias of the token at that path.  `resolveTokenValue` replaces the aliases of a value by the values of their targets.
It remembers the paths it has entered, and a memo of the targets it has resolved is shared by all tokens of a document.
-/

namespace CaeloCms.Theme

open MemoGraph (Memo Outcome andThen)

/-! ### Documents -/

/-- `obj[name]` of a JSON object or array. -/
def property (name : String) : Json → Option Json
  | .obj fields => (Json.obj fields).field name
  | .arr items => (items.zipIdx.find? fun p => toString p.2 == name).map Prod.fst
  | _ => none

def isToken (node : Json) : Bool := (node.field "$value").isSome

def tokenValue (token : Json) : Json := (token.field "$value").getD .null

def splitPath (path : String) : List String := (path.toList.splitOn '.').map String.ofList

def joinPath (parts : List String) : String := String.ofList (['.'].intercalate (parts.map String.toList))

/-- The loop of `lookupPath`. -/
def lookupParts : Json → List String → Option Json
  | cur, [] => some cur
  | cur, p :: parts => (property p cur).bind fun next => lookupParts next parts

def lookupPath (doc : Json) (path : String) : Option Json := (lookupParts doc (splitPath path)).filter isToken

mutual

/-- `walk`: the tokens below a node, each with its path. -/
def walk (names : List String) : Json → List (String × Json)
  | .obj fields =>
    if isToken (.obj fields) then [(joinPath names, .obj fields)] else walkFields names fields
  | .arr items => walkItems names 0 items
  | _ => []

/-- The entries of a group; a name that starts with `$` is metadata. -/
def walkFields (names : List String) : List (String × Json) → List (String × Json)
  | [] => []
  | (k, v) :: fields =>
    if k.toList.head? = some '$' then walkFields names fields
    else walk (names ++ [k]) v ++ walkFields names fields

def walkItems (names : List String) (i : Nat) : List Json → List (String × Json)
  | [] => []
  | v :: items => walk (names ++ [toString i]) v ++ walkItems names (i + 1) items

end

def flattenTokens (tokens : Json) : List (String × Json) := walk [] tokens

/-! ### Resolution -/

inductive ThemeRenderErrorKind
  | cyclicAlias
  | missingAlias
  | invalidSelector
deriving DecidableEq

structure ThemeRenderError where
  kind : ThemeRenderErrorKind
  path : String
  message : String
deriving DecidableEq

/-- `[...seen].join(" → ")` -/
def chainText (seen : List String) : String := " → ".intercalate seen

def cyclicAlias (seen : List String) (targetPath : String) : ThemeRenderError where
  kind := .cyclicAlias
  path := targetPath
  message := "cyclic DTCG alias detected at '" ++ targetPath ++ "' (chain: " ++ chainText seen ++ " → " ++ targetPath ++ ")"

def missingAlias (targetPath : String) : ThemeRenderError where
  kind := .missingAlias
  path := targetPath
  message := "DTCG alias '\x7b" ++ targetPath ++ "\x7d' points at a path that doesn't exist in this theme"

def isAliasChar (c : Char) : Bool := c.isAlphanum || c = '_' || c = '.' || c = '-'

/-- `ALIAS_REGEX`: the path an alias names. -/
def aliasTarget (raw : String) : Option String :=
  let body := raw.toList.tail.dropLast
  if raw.toList.head? = some '\x7b' ∧ raw.toList.tail.getLast? = some '\x7d' ∧ body ≠ [] ∧ body.all isAliasChar = true then
    some (String.ofList body)
  else none

mutual

/-- The cases of `resolveValue`: an alias is handed to `onAlias`, a composite is resolved entry by entry, and anything
else is its own value. -/
def resolveIn (onAlias : String → Memo String Json → Outcome ThemeRenderError Json × Memo String Json) :
    Json → Memo String Json → Outcome ThemeRenderError Json × Memo String Json
  | .str raw, cache =>
    match aliasTarget raw with
    | none => (.value (.str raw), cache)
    | some targetPath => onAlias targetPath cache
  | .obj fields, cache => andThen (resolveFields onAlias fields cache) fun out cache => (.value (.obj out), cache)
  | raw, cache => (.value raw, cache)

def resolveFields (onAlias : String → Memo String Json → Outcome ThemeRenderError Json × Memo String Json) :
    List (String × Json) → Memo String Json → Outcome ThemeRenderError (List (String × Json)) × Memo String Json
  | [], cache => (.value [], cache)
  | (k, v) :: fields, cache =>
    andThen (resolveIn onAlias v cache) fun v' cache =>
    andThen (resolveFields onAlias fields cache) fun out cache => (.value ((k, v') :: out), cache)

end

/-- `resolveValue`, entering at most `depth` values within one another. -/
def resolveValue (doc : Json) : Nat → List String → Json → Memo String Json →
    Outcome ThemeRenderError Json × Memo String Json
  | 0, _, _, cache => (.cut, cache)
  | depth + 1, seen, raw, cache =>
    resolveIn (fun targetPath cache =>
      if targetPath ∈ seen then (.threw (cyclicAlias seen targetPath), cache)
      else
        match cache targetPath with
        | some resolved => (.value resolved, cache)
        | none =>
          match lookupPath doc targetPath with
          | none => (.threw (missingAlias targetPath), cache)
          | some target =>
            andThen (resolveValue doc depth (seen ++ [targetPath]) (tokenValue target) cache) fun resolved cache =>
              (.value resolved, Function.update cache targetPath (some resolved))) raw cache

/-- `resolveTokenValue(token, doc, cache, new Set([path]))` -/
def resolveTokenValue (doc : Json) (depth : Nat) (path : String) (token : Json) (cache : Memo String Json) :
    Outcome ThemeRenderError Json × Memo String Json :=
  resolveValue doc depth [path] (tokenValue token) cache

def cacheAfter (doc : Json) (earlier : List (Nat × String × Json)) : Memo String Json :=
  earlier.foldl (fun cache call => (resolveTokenValue doc call.1 call.2.1 call.2.2 cache).2) fun _ => none

end CaeloCms.Theme
