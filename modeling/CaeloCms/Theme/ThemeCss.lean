import CaeloCms.Lib.CssReader
import CaeloCms.Lib.Words
import CaeloCms.Lists.JsonText
import CaeloCms.Theme.AliasMeaning
import CaeloCms.Theme.TokenWrites

/-!
# The CSS of a theme

`renderThemeCss` resolves the tokens of a document and writes each as one or more custom properties: into the block of the
selector, and the dark values of colours into a second block.
-/

namespace CaeloCms.Theme

open Redirect (isSpace)
open MemoGraph (Memo Outcome andThen)

/-- A custom property: its name and its value. -/
abbrev Line := List Char × List Char

/-! ### Names and values -/

def escapeCssIdentPart (part : List Char) : List Char :=
  part.flatMap fun ch =>
    if ch.toNat = 0 then "\\fffd ".toList
    else if ch.isAlphanum || ch = '_' || ch = '-' || 0x80 ≤ ch.toNat then [ch]
    else '\\' :: Nat.toDigits 16 ch.toNat ++ [' ']

/-- The characters a value loses. -/
def isScrubbed (c : Char) : Bool := c = '<' || c = '>' || c = ';' || c = '\x7b' || c = '\x7d'

def sanitizeCssTokenValue (value : List Char) : List Char := value.filter fun c => !isScrubbed c

def asString : Json → List Char
  | .null => []
  | .str s => sanitizeCssTokenValue s.toList
  | .num text => text.toList
  | .bool b => (if b then "true" else "false").toList
  | v => sanitizeCssTokenValue (Lists.stringify v)

def fieldOr (v : Json) (name fallback : String) : Json :=
  match v.field name with
  | none => .str fallback
  | some .null => .str fallback
  | some w => w

/-! ### One token -/

def emitSimple (baseName : List Char) (value : Json) : List Line := [(baseName, asString value)]

/-- The light and the dark lines of a colour. -/
def emitColor (baseName : List Char) (value : Json) : List Line × List Line :=
  match value.field "light" with
  | none => (emitSimple baseName value, [])
  | some light =>
    match value.field "dark" with
    | none => (emitSimple baseName value, [])
    | some dark => ([(baseName, asString light)], [(baseName, asString dark)])

def typographyFields : List (String × String) :=
  [("fontFamily", "--font-"), ("fontSize", "--text-"), ("fontStyle", "--font-style-"), ("fontWeight", "--font-weight-"),
    ("lineHeight", "--leading-"), ("letterSpacing", "--tracking-")]

def emitTypography (rest : List Char) (value : Json) : List Line :=
  if isObject value then
    typographyFields.filterMap fun f => (value.field f.1).map fun v => (f.2.toList ++ rest, asString v)
  else [("--font-".toList ++ rest, asString value)]

def shadowLayerToCss (layer : Json) : Option (List Char) :=
  if isObject layer then
    some (asString (fieldOr layer "offsetX" "0") ++ ' ' :: asString (fieldOr layer "offsetY" "0") ++
      ' ' :: asString (fieldOr layer "blur" "0") ++
      ((layer.field "spread").map fun v => ' ' :: asString v).getD [] ++
      ' ' :: asString (fieldOr layer "color" "currentColor") ++
      if (layer.field "inset").any (strictEqual (.bool true)) then " inset".toList else [])
  else none

def emitShadow (baseName : List Char) (value : Json) : List Line :=
  match value with
  | .str s =>
    let text := sanitizeCssTokenValue (Words.trim isSpace s.toList)
    if text = [] then [] else [(baseName, text)]
  | .arr items =>
    let layers := items.filterMap shadowLayerToCss
    if layers = [] then [] else [(baseName, [','].intercalate layers)]
  | v => ((shadowLayerToCss v).map fun text => (baseName, text)).toList

def emitEase (baseName : List Char) (value : Json) : List Line :=
  match value with
  | .arr items =>
    if items.length = 4 then
      [(baseName, "cubic-bezier(".toList ++ ", ".toList.intercalate (items.map asString) ++ [')'])]
    else emitSimple baseName value
  | v => emitSimple baseName v

/-- `path.split(".")[0]` -/
def categoryOf (path : String) : List Char := path.toList.takeWhile fun c => c ≠ '.'

/-- The path without its category, as part of a property name; a leaf `DEFAULT` stands for its group. -/
def restOf (path : String) : List Char :=
  let restRaw := path.toList.drop ((categoryOf path).length + 1)
  let kept := if ".DEFAULT".toList <:+ restRaw then restRaw.take (restRaw.length - 8) else restRaw
  escapeCssIdentPart (kept.map fun c => if c = '.' then '-' else c)

def baseName (path : String) : List Char :=
  "--".toList ++ escapeCssIdentPart (categoryOf path) ++ '-' :: restOf path

def emitTokenLines (path : String) (value : Json) : List Line × List Line :=
  let category := categoryOf path
  if category = "color".toList then emitColor (baseName path) value
  else if category = "typography".toList then (emitTypography (restOf path) value, [])
  else if category = "shadow".toList then (emitShadow (baseName path) value, [])
  else if category = "ease".toList then (emitEase (baseName path) value, [])
  else (emitSimple (baseName path) value, [])

/-! ### The document -/

/-- The loop over the tokens: the lines of all of them. -/
def emitTokens (tokens : Json) (depth : Nat) :
    List (String × Json) → Memo String Json → Outcome ThemeRenderError (List Line × List Line) × Memo String Json
  | [], cache => (.value ([], []), cache)
  | (path, token) :: flat, cache =>
    andThen (resolveTokenValue tokens depth path token cache) fun value cache =>
    andThen (emitTokens tokens depth flat cache) fun lines cache =>
      (.value ((emitTokenLines path value).1 ++ lines.1, (emitTokenLines path value).2 ++ lines.2), cache)

def lineText (line : Line) : List Char := line.1 ++ ':' :: line.2 ++ [';']

def block (selector : List Char) (lines : List Line) : List Char :=
  selector ++ '\x7b' :: lines.flatMap lineText ++ ['\x7d']

/-- `/[{};]|<\/style|<!--|--!?>/i` -/
def isUnsafeSelector (selector : List Char) : Bool :=
  selector.any (fun c => c = '\x7b' || c = '\x7d' || c = ';') ||
    ["</style", "<!--", "-->", "--!>"].any fun mark => decide (mark.toList <:+: selector.map Char.toLower)

def invalidSelector (selector : List Char) : ThemeRenderError where
  kind := .invalidSelector
  path := String.ofList selector
  message := "Invalid CSS selector for theme rendering: '" ++ String.ofList selector ++ "'"

/-- `renderThemeCss(tokens, { selector })`, with aliases of at most `depth` values within one another. -/
def renderThemeCss (tokens : Json) (depth : Nat) (option : Option (List Char)) : Outcome ThemeRenderError (List Char) :=
  let selector := option.getD ":root".toList
  if isUnsafeSelector selector then .threw (invalidSelector selector)
  else
    match (emitTokens tokens depth (flattenTokens tokens) fun _ => none).1 with
    | .cut => .cut
    | .threw e => .threw e
    | .value lines =>
      .value (block selector lines.1 ++ if lines.2 = [] then [] else block (selector ++ ".dark".toList) lines.2)

end CaeloCms.Theme
