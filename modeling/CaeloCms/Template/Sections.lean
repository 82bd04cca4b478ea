import CaeloCms.Template.Scope

/-!
# The section pass

`template-sections.ts`: the template is cut into its tags once, opening tags are paired with closing ones by one stack
per name, and what is between a pair is rendered as a section when the pair lies inside the stretch that is being
rendered.  So the pairs make a tree (`nodesIn`), and `SectionRenderer` is a recursion on it.  Inside a list section the
innermost frame says what `{{>recurse}}` renders.
-/

namespace CaeloCms.Template

open Nested (NestedRefValue)

/-! ### Tags and pairs -/

/-- One tag of the template, with the text before it. -/
structure Token where
  gap : List Sym
  tag : Tag
  source : List Sym

/-- The tokens of a template and the text after the last; `gap` is the text read since the one before. -/
def cut : List Sym → List (Scan.Piece Sym Tag) → List Token × List Sym
  | gap, [] => ([], gap)
  | gap, .plain c :: ps => cut (gap ++ [c]) ps
  | gap, .found tag source :: ps => (⟨gap, tag, source⟩ :: (cut [] ps).1, (cut [] ps).2)

def tokenize (html : List Sym) : List Token × List Sym := cut [] (Scan.scan matchTag [] html)

/-- `#` or `^` -/
def Tag.opens (t : Tag) : Bool := t.sigil == .hash || t.sigil == .caret

/-- `matchSections`, from token `i` on; `stack` holds the open tags, the last first. -/
def matchFrom : Nat → List (Name × Nat) → List Token → List (Nat × Nat)
  | _, _, [] => []
  | i, stack, t :: ts =>
    if !t.tag.name.isSectionName then matchFrom (i + 1) stack ts
    else if t.tag.opens then matchFrom (i + 1) ((t.tag.name, i) :: stack) ts
    else if t.tag.sigil = .slash then
      match stack.find? fun p => p.1 == t.tag.name with
      | none => matchFrom (i + 1) stack ts
      | some p => (p.2, i) :: matchFrom (i + 1) (stack.eraseP fun p => p.1 == t.tag.name) ts
    else matchFrom (i + 1) stack ts

def matchSections (tokens : List Token) : List (Nat × Nat) := matchFrom 0 [] tokens

/-- `pairs.get(i)` -/
def closeOf (pairs : List (Nat × Nat)) (i : Nat) : Option Nat := (pairs.find? fun p => p.1 == i).map (·.2)

/-- A part of a template: text, a tag, or a section. -/
inductive Node
  | text (s : List Sym)
  | tag (t : Tag) (source : List Sym)
  | block (t : Tag) (source : List Sym) (body : List Node)

section Tree

variable (tokens : List Token) (trailing : List Sym) (pairs : List (Nat × Nat))

/-- The text before token `i`. -/
def gapAt (i : Nat) : List Sym := (tokens[i]?.map Token.gap).getD trailing

/-- The text from token `i` to the end of token `close`. -/
def sourceOf (i close : Nat) : List Sym :=
  ((tokens.drop i).take (close + 1 - i)).zipIdx.flatMap fun p => (if p.2 = 0 then [] else p.1.gap) ++ p.1.source

/-- What `range(from, to)` goes through, with `fuel` at least the number of tokens in it. -/
def nodesIn : (fuel i stop : Nat) → List Node
  | 0, i, _ => [.text (gapAt tokens trailing i)]
  | fuel + 1, i, stop =>
    if stop ≤ i then [.text (gapAt tokens trailing i)]
    else
      match tokens[i]? with
      | none => [.text (gapAt tokens trailing i)]
      | some t =>
        match (closeOf pairs i).filter fun close => t.tag.opens && close < stop with
        | none => .text t.gap :: .tag t.tag t.source :: nodesIn fuel (i + 1) stop
        | some close => .text t.gap :: .block t.tag (sourceOf tokens i close) (nodesIn fuel (i + 1) close) ::
            nodesIn fuel (close + 1) stop

end Tree

/-- The tree of a template. -/
def parse (html : List Sym) : List Node :=
  nodesIn (tokenize html).1 (tokenize html).2 (matchSections (tokenize html).1) (tokenize html).1.length 0
    (tokenize html).1.length

/-! ### Output -/

/-- A partial the template asks for, with the reference of an entry's module field. -/
structure Ask where
  key : String
  ref : Option NestedRefValue
deriving DecidableEq

/-- What rendering a part gives: html, markers, and the partials asked for. -/
structure Out where
  html : List Sym
  missing : List Marker
  asks : List Ask

namespace Out

def empty : Out := ⟨[], [], []⟩

instance : Append Out := ⟨fun a b => ⟨a.html ++ b.html, a.missing ++ b.missing, a.asks ++ b.asks⟩⟩

/-- Html and nothing else. -/
def text (s : List Sym) : Out := ⟨s, [], []⟩

/-- The outputs one after the other. -/
def concat : List Out → Out
  | [] => empty
  | o :: os => o ++ concat os

@[simp] theorem html_append (a b : Out) : (a ++ b).html = a.html ++ b.html := rfl

@[simp] theorem missing_append (a b : Out) : (a ++ b).missing = a.missing ++ b.missing := rfl

@[simp] theorem asks_append (a b : Out) : (a ++ b).asks = a.asks ++ b.asks := rfl

end Out

/-- `mkSentinel(original)` -/
def mkSentinel (original : List Sym) : List Sym := [.mask original]

def pasted (text : String) : List Sym := if text = "" then [] else mkSentinel (str text)

/-! ### The environment -/

/-- The partial of a key, or `undefined`. -/
abbrev PartialResolver := String → Option NestedRefValue → Option (List Char)

structure SectionEnv where
  fields : List TemplateField
  values : Values
  partials : PartialResolver
  lists : Option ListPageContext
  holder : Option String

def THEME_ASSET_KEY_TO_SLOT : List (String × String) :=
  [("theme_logo_url", "logo"), ("theme_logo_dark_url", "logoDark"), ("theme_favicon_url", "favicon"),
    ("theme_social_share_url", "socialShare")]

/-- `CONTEXT_HEADS.has(contextHead(name))` -/
def isContextHead (name : Name) : Bool := ["page", "site_text"].contains (lower name.head)

/-- One list entry being rendered, and the name of its section. -/
structure Frame where
  entry : ScopeEntry
  name : String

structure RenderState where
  /-- The innermost frame first. -/
  chain : List Frame
  /-- The value of `{{.}}` and `{{item}}` inside a scalar conditional. -/
  dot : Option String
  /-- What `{{>recurse}}` renders here. -/
  again : Out

/-- `listField(st)`: the name of the outermost frame. -/
def listField (st : RenderState) : Option String := st.chain.getLast?.map (·.name)

/-- What `lookup` finds: no entry key, a dotted part that does not exist, or a value. -/
inductive Found
  | unknown
  | missing
  | value (v : ScopeValue)

def follow : ScopeValue → List String → Found
  | v, [] => .value v
  | .record _ _ parts, p :: path =>
    match partAt parts (lower p) with
    | none => .missing
    | some v => follow v path
  | _, _ :: _ => .missing

/-- `notDeclared(name, st)` -/
def notDeclared (name : Name) (st : RenderState) : Marker := .fieldNotDeclared (listField st) name.text

def linkKey (v : ScopeValue) (path : List String) : Found :=
  match path, v with
  | [], v => .value v
  | key :: rest, .record _ _ parts =>
    ((partAt parts (if rest.isEmpty then lower key else "")).map Found.value).getD .missing
  | _ :: _, v => .value v

namespace SectionEnv

variable (env : SectionEnv)

def field (name : String) : Option TemplateField := fieldNamed env.fields name

def lookup (name : Name) (st : RenderState) : Found :=
  if lower name.head = "page" then
    match env.lists.bind (·.pageScope) with
    | none => if name.dotted || !st.chain.isEmpty then .missing else .unknown
    | some v => follow v name.path
  else if lower name.head = "site_text" then
    match env.lists with
    | none => .missing
    | some lists => follow lists.siteTextScope name.path
  else
    match st.chain.findSome? fun f => f.entry.get (lower name.head) with
    | none => .unknown
    | some v => follow v name.path

def moduleLink (head : String) : Option ScopeValue :=
  match (env.field head).filter fun f => f.kind == "link" with
  | none => none
  | some field =>
    match parseLinkFieldValue (field.stored env.values head) with
    | none => some (.failed ("field-value-malformed:" ++ head))
    | some link => some (linkValue ((env.lists.map (·.titles)).getD fun _ => none) link)

/-- `linkPath(name)` -/
def linkPath (name : Name) : Found :=
  match env.moduleLink (lower name.head) with
  | none => .unknown
  | some v => linkKey v name.path

/-- `linkUnset(name)` -/
def linkUnset (name : Name) : Bool :=
  match env.moduleLink (lower name.head) with
  | some (.record _ present _) => !present
  | _ => false

/-- `isModuleLevel(name)` -/
def isModuleLevel (name : String) : Bool :=
  (env.field name).isSome || (env.field (lower name)).isSome || (THEME_ASSET_KEY_TO_SLOT.map (·.1)).contains (lower name)

def unknownPath (name : Name) (st : RenderState) : Marker :=
  if isContextHead name then
    if env.lists.isNone then .listContextUnavailable (lower name.head) else notDeclared name st
  else .fieldPathUnknown (listField st) name.text

end SectionEnv

def raw (source : List Sym) (marker : Marker) : Out := ⟨mkSentinel source, [marker], []⟩

def valueText (v : ScopeValue) (source : List Sym) (name : Name) (st : RenderState) : Out :=
  match v with
  | .text text => .text (pasted text)
  | .bool value => .text (str (if value then "true" else "false"))
  | .record (some text) _ _ => .text (pasted text)
  | .failed marker => raw source (.given marker)
  | _ => raw source (notDeclared name st)

section Tags

variable (env : SectionEnv)

/-- `tag(t, st)` of a plain tag for which the entries have no value. -/
def fieldTag (t : Tag) (source : List Sym) (st : RenderState) : Out :=
  match env.linkPath t.name with
  | .unknown =>
    if t.name.dotted then
      if env.isModuleLevel t.name.head then raw source (env.unknownPath t.name st)
      else if st.chain.isEmpty then .text source
      else raw source (notDeclared t.name st)
    else if env.isModuleLevel t.name.text then .text source
    else raw source (notDeclared t.name st)
  | .missing => raw source (env.unknownPath t.name st)
  | .value v =>
    if env.linkUnset t.name then
      if t.name.dotted then raw source (.fieldValueEmpty t.name.text) else .text source
    else valueText v source t.name st

/-- `tag(t, st)` of a plain tag, apart from `{{item}}` in a conditional. -/
def valueTag (t : Tag) (source : List Sym) (st : RenderState) : Out :=
  if st.chain.isEmpty && !t.name.dotted && !((env.field (lower t.name.head)).any fun f => f.kind == "link") then
    .text source
  else
    match env.lookup t.name st with
    | .unknown => fieldTag env t source st
    | .missing => raw source (env.unknownPath t.name st)
    | .value v => valueText v source t.name st

def plainTag (t : Tag) (source : List Sym) (st : RenderState) : Out :=
  if t.name = ⟨"item", []⟩ ∧ st.chain.isEmpty then
    match st.dot with
    | none => valueTag env t source st
    | some dot => .text (mkSentinel (str dot))
  else valueTag env t source st

def mismatched (v : ScopeValue) (name : Name) (st : RenderState) : Out :=
  let marker := Marker.kindMismatch (under (listField st) name.text) v.kind
  ⟨str (caeloMissingComment marker.text), [marker], []⟩

/-- `partial(t, source, st)` for a value of the entry `id` or of an enclosing one. -/
def entryPartial (id : String) (v : ScopeValue) (name : Name) (source : List Sym) (st : RenderState) : Out :=
  match v with
  | .module ref =>
    let field := (listField st).getD ""
    let key := "list:" ++ field ++ "/" ++ id ++ "/" ++ name.text
    let place := field ++ "[" ++ id ++ "]." ++ name.text
    match env.partials key (some ref) with
    | none => ⟨str ("<!-- caelo:module " ++ place ++ " needs recursive renderer (compose path) -->"),
        [.nestedRendererUnavailable place], [⟨key, some ref⟩]⟩
    | some html => ⟨mkSentinel (chars html), [], [⟨key, some ref⟩]⟩
  | .text text => if text = "" then .empty else mismatched (.text text) name st
  | .failed marker => raw source (.given marker)
  | v => mismatched v name st

def partialTag (t : Tag) (source : List Sym) (st : RenderState) : Out :=
  match st.chain with
  | [] => .text source
  | frame :: _ =>
    if t.name = ⟨"recurse", []⟩ then st.again
    else
      match env.lookup t.name st with
      | .unknown =>
        if env.isModuleLevel t.name.text then .text source else raw source (notDeclared t.name st)
      | .missing => raw source (notDeclared t.name st)
      | .value v => entryPartial env frame.entry.id v t.name source st

def renderTag (t : Tag) (source : List Sym) (st : RenderState) : Out :=
  match t.sigil with
  | .angle => partialTag env t source st
  | .none => plainTag env t source st
  | _ => .text source

def renderText (s : List Sym) (st : RenderState) : Out :=
  match st.dot with
  | none => .text s
  | some dot => .text (Scan.replace matchDot (fun _ _ => mkSentinel (str dot)) [] s)

end Tags

/-! ### List entries -/

def LIST_ITEM_ATTRIBUTE : String := "data-caelo-list-item"

/-- The text behind the next `-->`. -/
def afterComment : List Sym → Option (List Sym)
  | [] => none
  | x :: s => (after "-->".toList (x :: s)).or (afterComment s)

/-- The text behind the blanks and comments at the front, for at most `most` comments; `none` when one does not end. -/
def skipComments : Nat → List Sym → Option (List Sym)
  | 0, s => some (skipBlanks s)
  | most + 1, s =>
    match after "<!--".toList (skipBlanks s) with
    | none => some (skipBlanks s)
    | some rest => (afterComment rest).bind (skipComments most)

/-- The length of a tag up to its `>`, with the open quotation mark; `none` when the text ends before. -/
def tagEnd : Option Char → List Sym → Option Nat
  | _, [] => none
  | quote, .mask _ :: s => (tagEnd quote s).map (· + 1)
  | some q, .char c :: s => (tagEnd (if c = q then none else some q) s).map (· + 1)
  | none, .char c :: s =>
    if c = '"' || c = '\'' then (tagEnd (some c) s).map (· + 1)
    else if c = '>' then some 0
    else (tagEnd none s).map (· + 1)

def includes (text : List Char) : List Sym → Bool
  | [] => text.isEmpty
  | x :: s => (after text (x :: s)).isSome || includes text s

/-- `attr.replace(/"/g, "&quot;")` -/
def quoteAttr (attr : String) : List Char := attr.toList.flatMap fun c => if c = '"' then "&quot;".toList else [c]

/-- Where the attribute of an entry goes: the end of the tag the text starts with. -/
def stampPlace (html : List Sym) : Option Nat :=
  ((skipComments html.length html).bind (after ['<'])).bind fun tag =>
    if tag.head?.any (Sym.isA isLetter) then
      (tagEnd none tag).bind fun n =>
        if includes (LIST_ITEM_ATTRIBUTE ++ "=").toList (tag.take n) then none
        else some (html.length - tag.length + if (tag.take n).getLast?.any (Sym.is '/') then n - 1 else n)
    else none

def stampListItem (html : List Sym) (attr : String) : List Sym :=
  match stampPlace html with
  | none => html
  | some n =>
    html.take n ++ str (" " ++ LIST_ITEM_ATTRIBUTE ++ "=\"") ++ chars (quoteAttr attr) ++ str "\"" ++ html.drop n

/-- A rendered entry with the address of the stored one. -/
def Out.stamped (o : Out) : Option String → Out
  | none => o
  | some attr => { o with html := stampListItem o.html attr }

section Iterate

variable (body : List Frame → Out → Out) (name : String)

mutual

/-- The entries of `iterate`, one after the other. -/
def iterateEntries (chain : List Frame) : List ScopeEntry → Out
  | [] => .empty
  | e :: es => iterateEntry chain e ++ iterateEntries chain es

/-- One entry; `{{>recurse}}` in its block renders its children with the same block. -/
def iterateEntry (chain : List Frame) : ScopeEntry → Out
  | .mk id parts itemAttr childrenKey =>
    let frame : Frame := ⟨.mk id parts itemAttr childrenKey, name⟩
    let again := match childrenKey with
      | none => .empty
      | some key => childrenOf (frame :: chain) key parts
    (body (frame :: chain) again).stamped itemAttr

def childrenOf (chain : List Frame) (key : String) : List (String × ScopeValue) → Out
  | [] => .empty
  | (k, v) :: parts => if k = key then iterateValue chain v else childrenOf chain key parts

def iterateValue (chain : List Frame) : ScopeValue → Out
  | .list [] => .empty
  | .list (e :: es) => .text (mkSentinel []) ++ (iterateEntry chain e ++ iterateEntries chain es)
  | _ => .empty

end

/-- `iterate(entries, name, block, st)` -/
def iterate (chain : List Frame) (entries : List ScopeEntry) : Out := iterateValue body name chain (.list entries)

end Iterate

/-- What holds of nothing, of the empty sentinel, of outputs one after the other, and of an entry with its address when
it holds of the entry. -/
structure Out.Closed (P : Out → Prop) : Prop where
  empty : P .empty
  front : P (.text (mkSentinel []))
  append : ∀ o o', P o → P o' → P (o ++ o')
  stamped : ∀ o attr, P o → P (o.stamped attr)

section IterateAll

variable {P : Out → Prop} {body : List Frame → Out → Out} {name : String}

mutual

theorem iterateEntries_all (hP : Out.Closed P) (hbody : ∀ frame chain again, P again → P (body (frame :: chain) again)) :
    ∀ (es : List ScopeEntry) (chain : List Frame), P (iterateEntries body name chain es)
  | [], _ => hP.empty
  | e :: es, chain => hP.append _ _ (iterateEntry_all hP hbody e chain) (iterateEntries_all hP hbody es chain)

theorem iterateEntry_all (hP : Out.Closed P) (hbody : ∀ frame chain again, P again → P (body (frame :: chain) again)) :
    ∀ (e : ScopeEntry) (chain : List Frame), P (iterateEntry body name chain e)
  | .mk id ps itemAttr childrenKey, chain => by
    cases childrenKey with
    | none => exact hP.stamped _ itemAttr (hbody _ _ _ hP.empty)
    | some key => exact hP.stamped _ itemAttr (hbody _ _ _ (childrenOf_all hP hbody key ps _))

theorem childrenOf_all (hP : Out.Closed P) (hbody : ∀ frame chain again, P again → P (body (frame :: chain) again))
    (key : String) : ∀ (ps : List (String × ScopeValue)) (chain : List Frame), P (childrenOf body name chain key ps)
  | [], _ => hP.empty
  | (k, v) :: ps, chain => by
    unfold childrenOf
    split
    · exact iterateValue_all hP hbody v chain
    · exact childrenOf_all hP hbody key ps chain

theorem iterateValue_all (hP : Out.Closed P) (hbody : ∀ frame chain again, P again → P (body (frame :: chain) again)) :
    ∀ (v : ScopeValue) (chain : List Frame), P (iterateValue body name chain v)
  | .list [], _ => hP.empty
  | .list (e :: es), chain => hP.append _ _ hP.front
      (hP.append _ _ (iterateEntry_all hP hbody e chain) (iterateEntries_all hP hbody es chain))
  | .text _, _ => hP.empty
  | .bool _, _ => hP.empty
  | .record _ _ _, _ => hP.empty
  | .module _, _ => hP.empty
  | .failed _, _ => hP.empty

end

theorem iterate_all (hP : Out.Closed P) (hbody : ∀ frame chain again, P again → P (body (frame :: chain) again))
    (chain : List Frame) (entries : List ScopeEntry) : P (iterate body name chain entries) :=
  iterateValue_all hP hbody _ chain

end IterateAll

/-! ### Sections -/

/-- `raw.trim().length > 0` -/
def notBlank (s : String) : Bool := s.toList.any fun c => !Redirect.isSpace c

/-- `isPresentSectionValue(raw)` -/
def isPresentSectionValue : Option Json → Bool
  | none => false
  | some .null => false
  | some (.bool b) => b
  | some (.str s) => notBlank s
  | some (.num _) => true
  | some (.arr items) => !items.isEmpty
  | some (.obj fields) => !fields.isEmpty

/-- `scalarSectionString(raw)` -/
def scalarSectionString : Option Json → String
  | some (.str s) => s
  | some (.num text) => text
  | some (.bool b) => if b then "true" else "false"
  | _ => ""

/-- The reference of a `module-list` element, rendered. -/
def renderElement (env : SectionEnv) (name : String) (i : Nat) (el : Json) : Out :=
  let place := name ++ "[" ++ toString i ++ "]"
  match Nested.nestedRef el with
  | none => ⟨str (caeloMissingComment ("module-list-malformed " ++ place)), [.moduleListMalformed place], []⟩
  | some _ =>
    let key := name ++ "__" ++ toString i
    match env.partials key none with
    | none => ⟨str ("<!-- caelo:module-list " ++ name ++ " needs recursive renderer (compose path) -->"),
        [.nestedRendererUnavailable place], [⟨key, none⟩]⟩
    | some html => ⟨mkSentinel (chars html), [], [⟨key, none⟩]⟩

/-- `Array.isArray(raw) ? raw : []` -/
def itemsOf (raw : Option Json) : List Json := (raw.map Json.elements).getD []

def renderModuleList (env : SectionEnv) (name : String) (field : TemplateField) : Out :=
  Out.concat ((itemsOf (field.stored env.values name)).zipIdx.map fun p => renderElement env name p.2 p.1)

def TemplateField.spec (field : TemplateField) : ListFieldSpec :=
  ⟨field.name, field.listType.getD "", field.bind, field.list, field.source, field.default, field.paginate⟩

section Sections

variable (env : SectionEnv) (t : Tag) (source : List Sym) (st : RenderState)
variable (body : RenderState → Out)

/-- `^` -/
def Tag.inverted (t : Tag) : Bool := t.sigil == .caret

/-- A section over entries: the block for each, or the inverted block when there are none. -/
def entriesSection (entries : List ScopeEntry) : Out :=
  if t.inverted then if entries.isEmpty then body { st with dot := none } else .empty
  else iterate (fun chain again => body ⟨chain, none, again⟩) t.name.text st.chain entries

def scopeSection (v : ScopeValue) : Out :=
  match v with
  | .failed marker => raw source (.given marker)
  | .list entries => entriesSection t st body entries
  | .bool value => if value ≠ t.inverted then body st else .empty
  | .text text => if notBlank text ≠ t.inverted then body st else .empty
  | .record _ present _ => if present ≠ t.inverted then body st else .empty
  | .module _ => if t.inverted then .empty else body st

def resolvedSection (res : ListFieldResolution) : Out :=
  match res with
  | .error marker => raw source (.given marker)
  | .ok entries => entriesSection t st body entries

/-- The conditional of `moduleSection`, on a present value with the string `{{.}}` reads. -/
def conditional (present : Bool) (dot : String) : Out :=
  if present = t.inverted then .empty
  else body { st with dot := if !present || dot = "" then st.dot else some dot }

/-- `moduleSection(name, …)` -/
def moduleSection : Out :=
  let name := t.name.head
  match env.field name with
  | none =>
    match env.lists.bind fun lists => lists.pluginSource name with
    | none => raw source (notDeclared t.name st)
    | some res => resolvedSection t source st body res
  | some field =>
    if field.kind = "module-list" then
      if t.inverted then
        if (itemsOf (field.stored env.values name)).isEmpty then body { st with dot := none } else .empty
      else renderModuleList env name field
    else if field.kind = "list" then
      match env.lists with
      | none => raw source (.listContextUnavailable name)
      | some lists => resolvedSection t source st body (lists.resolveField field.spec (env.values.own name) env.holder)
    else if field.kind = "link" then
      match env.moduleLink name with
      | some (.failed marker) => raw source (.given marker)
      | some (.record text present _) => conditional t st body present (text.getD "")
      | _ => .empty
    else conditional t st body (isPresentSectionValue (field.stored env.values name))
      (scalarSectionString (field.stored env.values name))

/-- `section(t, block, source, st)` -/
def renderSection : Out :=
  match env.lookup t.name st with
  | .missing => raw source (env.unknownPath t.name st)
  | .value v => scopeSection t source st body v
  | .unknown =>
    if t.name.dotted then
      match env.linkPath t.name with
      | .unknown => raw source (notDeclared t.name st)
      | .missing => raw source (env.unknownPath t.name st)
      | .value v => scopeSection t source st body v
    else moduleSection env t source st body

end Sections

mutual

/-- `range(from, to, textFrom, textTo, st)`, over the parts of the stretch. -/
def renderNodes (env : SectionEnv) : List Node → RenderState → Out
  | [], _ => .empty
  | n :: ns, st => renderNode env n st ++ renderNodes env ns st

def renderNode (env : SectionEnv) : Node → RenderState → Out
  | .text s, st => renderText s st
  | .tag t source, st => renderTag env t source st
  | .block t source body, st => renderSection env t source st (renderNodes env body)

end

/-- Outside of sections and list entries. -/
def RenderState.top : RenderState := ⟨[], none, .empty⟩

def renderSections (env : SectionEnv) (html : List Sym) : Out :=
  let tokens := (tokenize html).1
  if tokens.isEmpty then .text html
  else if (matchSections tokens).isEmpty && !tokens.any fun t => t.tag.name.dotted then .text html
  else renderNodes env (parse html) .top

end CaeloCms.Template
