import CaeloCms.Link.Resolve
import CaeloCms.Template.Sections

/-!
# The template engine

`renderTemplate` of `template-engine.ts`: guards of CDATA sections are taken out, sections are rendered, then the
single partials, then the primitives are written in lower case or put behind sentinels, then the library `mustache`
replaces what is left of the tags, the sentinels are replaced by what they stand for, and last the internal references
by their URLs.  The library is a parameter; it may throw.
-/

namespace CaeloCms.Template

open Link (LinkRef LinkResolution resolveLinkRefsInHtml)
open Redirect (isSpace)

/-! ### Guards -/

/-- The text behind `text`, when it starts the other. -/
def afterText (text : String) (s : List Char) : Option (List Char) :=
  if text.toList.isPrefixOf s then some (s.drop text.toList.length) else none

def skipSpaces (s : List Char) : List Char := s.dropWhile isSpace

/-- `[ \t]*` -/
def skipTabs (s : List Char) : List Char := s.dropWhile fun c => c == ' ' || c == '\t'

/-- One alternative of `CDATA_GUARDS` after the other, with the text after the match. -/
def scanGuard (s : List Char) : Option (List Char) :=
  ((afterText "/*" s).bind fun r => (afterText "<![CDATA[" (skipSpaces r)).bind fun r => afterText "*/" (skipSpaces r)).or <|
  ((afterText "/*" s).bind fun r => (afterText "]]>" (skipSpaces r)).bind fun r => afterText "*/" (skipSpaces r)).or <|
  ((afterText "//" s).bind fun r => afterText "<![CDATA[" (skipTabs r)).or <|
  ((afterText "//" s).bind fun r => afterText "]]>" (skipTabs r)).or <|
  (afterText "<![CDATA[" s).or (afterText "]]>" s)

/-- `CDATA_GUARDS` -/
def matchGuard (_before s : List Char) : Option (Unit × Nat) := (scanGuard s).map fun rest => ((), s.length - rest.length)

def stripCdataGuards (html : List Char) : List Char := Scan.replace matchGuard (fun _ _ => []) [] html

/-! ### Input -/

structure ThemeAssets where
  logo : Option String
  logoDark : Option String
  favicon : Option String
  socialShare : Option String

def ThemeAssets.url (assets : ThemeAssets) (slot : String) : Option String :=
  if slot = "logo" then assets.logo else if slot = "logoDark" then assets.logoDark
  else if slot = "favicon" then assets.favicon else if slot = "socialShare" then assets.socialShare else none

structure RenderTemplateInput extends SectionEnv where
  html : List Char
  themeAssets : Option ThemeAssets
  linkResolver : Option (LinkRef → LinkResolution)

/-- The values by lower-case name. -/
abbrev View := String → Option Json

def assetSlot (name : String) : Option String := (THEME_ASSET_KEY_TO_SLOT.find? fun p => p.1 == name).map (·.2)

/-- `SECTION_KINDS.has(kind)` -/
def isSectionKind (kind : String) : Bool := ["list", "module-list"].contains kind

/-! ### The view -/

/-- The stored values; `null` is the empty string. -/
def storedView (values : Values) : View :=
  values.foldl (fun view p => Function.update view (lower p.1) (some (match p.2 with
    | .null => .str ""
    | v => v))) fun _ => none

def addDefault (view : View) (f : TemplateField) : View :=
  if (view (lower f.name)).isSome || isSectionKind f.kind || f.kind == "module" then view
  else
    match f.default with
    | none => view
    | some .null => view
    | some v => Function.update view (lower f.name) (some v)

def flattenLink (view : View) (f : TemplateField) : View :=
  if f.kind = "link" then
    match view (lower f.name) with
    | some (.obj fields) =>
      match parseLinkFieldValue (some (.obj fields)) with
      | none => view
      | some link => Function.update view (lower f.name) (if link.href = "" then none else some (.str link.href))
    | _ => view
  else view

def addAsset (assets : ThemeAssets) (view : View) (p : String × String) : View :=
  match assets.url p.2 with
  | none => view
  | some url => if url ≠ "" ∧ (view p.1).isNone then Function.update view p.1 (some (.str url)) else view

namespace RenderTemplateInput

variable (input : RenderTemplateInput)

def view : View :=
  let view := input.fields.foldl flattenLink (input.fields.foldl addDefault (storedView input.values))
  match input.themeAssets with
  | none => view
  | some assets => THEME_ASSET_KEY_TO_SLOT.foldl (addAsset assets) view

/-- `declaredFieldNames.has(name) || declaredFieldNames.has(name.toLowerCase())` -/
def declares (name : String) : Bool :=
  input.fields.any fun f => f.name == name || lower f.name == name || f.name == lower name || lower f.name == lower name

end RenderTemplateInput

/-! ### The passes -/

/-- For the value of a `module` field, whether it is a reference; `none` for an empty slot. -/
def slotRef : Option Json → Option Bool
  | none => none
  | some .null => none
  | some ref => some (Nested.nestedRef ref).isSome

/-- `renderPartialRef(match, name, …)` -/
def renderPartialRef (env : SectionEnv) (name : String) (source : List Sym) : Out :=
  match env.field name with
  | none => raw source (.fieldNotDeclared none name)
  | some field =>
    if field.kind ≠ "module" then
      ⟨str (caeloMissingComment (Marker.kindMismatch name field.kind).text), [.kindMismatch name field.kind], []⟩
    else
      match slotRef (env.values.own name) with
      | none => .empty
      | some false => ⟨str (caeloMissingComment ("module-ref-malformed " ++ name)), [.moduleRefMalformed name], []⟩
      | some true =>
        match env.partials name none with
        | none => ⟨str ("<!-- caelo:module " ++ name ++ " needs recursive renderer (compose path) -->"),
            [.nestedRendererUnavailable name], [⟨name, none⟩]⟩
        | some html => ⟨mkSentinel (chars html), [], [⟨name, none⟩]⟩

def renderPrimitive (input : RenderTemplateInput) (name : String) (source : List Sym) : Out :=
  if (input.view (lower name)).isSome then .text (str ("\x7b\x7b" ++ lower name ++ "\x7d\x7d"))
  else
    match assetSlot (lower name) with
    | some slot => raw source (.themeAssetUnbound slot)
    | none => if input.declares name then .text (mkSentinel source) else raw source (.fieldNotDeclared none name)

/-- The callback of the pass over literal tags. -/
def renderLiteral (name source : List Sym) : List Sym := if isIdentifier name then source else mkSentinel source

/-- `html.replace(regexp, callback)` with what the callback reports. -/
def replaceOut {α : Type} (m : List Sym → List Sym → Option (α × Nat)) (f : α → List Sym → Out) (html : List Sym) : Out :=
  Out.concat ((Scan.scan m [] html).map fun p => match p with
    | .plain c => .text [c]
    | .found a source => f a source)

/-- Another pass over the html of an output. -/
def Out.andThen (o : Out) (pass : List Sym → Out) : Out :=
  ⟨(pass o.html).html, o.missing ++ (pass o.html).missing, o.asks ++ (pass o.html).asks⟩

/-- The text after sections, partials and primitives. -/
def RenderTemplateInput.substituted (input : RenderTemplateInput) : Out :=
  ((renderSections input.toSectionEnv (chars (stripCdataGuards input.html))).andThen
    (replaceOut matchPartial (renderPartialRef input.toSectionEnv))).andThen
    (replaceOut matchPrimitive (renderPrimitive input))

/-- The text handed to the library. -/
def RenderTemplateInput.prepared (input : RenderTemplateInput) : Out :=
  { input.substituted with html := Scan.replace matchLiteral renderLiteral [] input.substituted.html }

/-! ### The rest -/

/-- `Mustache.render(html, view)`; `none` when it throws. -/
abbrev Mustache := List Sym → View → Option (List Sym)

/-- The text of a symbol; `key` is the text of a sentinel that is not replaced. -/
def Sym.text (key : List Char) : Sym → List Char
  | char c => [c]
  | mask _ => key

/-- The text with each sentinel replaced by its original, in one pass. -/
def restore (key : List Char) (html : List Sym) : List Char :=
  html.flatMap fun s => match s with
    | .char c => [c]
    | .mask original => original.flatMap (Sym.text key)

structure RenderTemplateOutput where
  html : List Char
  missingSlots : List Marker
  asks : List Ask

/-- `renderTemplate(input)`; `none` when it throws. -/
def renderTemplate (mustache : Mustache) (key : List Char) (input : RenderTemplateInput) : Option RenderTemplateOutput :=
  (mustache input.prepared.html input.view).map fun rendered =>
    let final := resolveLinkRefsInHtml (restore key rendered) input.linkResolver
    ⟨final.1, input.prepared.missing ++ final.2.map Marker.link, input.prepared.asks⟩

end CaeloCms.Template
