import CaeloCms.Lib.InsertionMap
import CaeloCms.Lib.Scan
import CaeloCms.Lists.ListType
import CaeloCms.Redirect.File
import CaeloCms.Shared.WebEncode
import CaeloCms.Template.Engine

/-!
# Edit markers

`edit-markers.ts`.  The values of a placement are wrapped in sentinels that carry a field path, the engine renders them
like any other text, and `finalizeEditMarkers` cuts the rendered text into comments, tags, raw text and wrapped values:
a wrapped value in text content comes out between two comments, the tag of a wrapped `href`, `src` or `alt` gets
attributes, everywhere else the sentinels are dropped.  `parseEditMarker` reads an opening comment.
-/

namespace CaeloCms.Edit

open Lists (ListTypeDef)
open Redirect (integerNumber isSpace natText trimSpace utf16Length)
open Template (TemplateField Values afterText isLetter)
open Web (decodeURIComponent encodeURIComponent)

def START : Char := '\uE000'
def SEP : Char := '\uE001'
def END : Char := '\uE002'

def isSentinel (c : Char) : Bool := c == START || c == SEP || c == END

/-! ### Wrapped values -/

/-- `editable(value)` of a text. -/
def editable (value : String) : Bool := value.toList.any (fun c => !isSpace c) && !value.toList.contains '<'

def wrap (path value : List Char) : List Char := START :: path ++ SEP :: value.filter (fun c => !isSentinel c) ++ [END]

def wrapText (path value : String) : Json := .str (String.ofList (wrap path.toList value.toList))

/-- `UUID_RE` -/
def isEntryId (s : List Char) : Bool :=
  s.length == 36 && (s.zip Link.uuidShape).all fun p =>
    if p.2 then p.1 == '-' else p.1.isDigit || ('a' ≤ p.1 && p.1 ≤ 'f')

def wrapEntryValue (place : String) (def_ : Lists.FieldDef) (values : Values) : Values :=
  match def_.type, values.own def_.name with
  | .text _, some (.str v) => if editable v then InsertionMap.set values def_.name (wrapText place v) else values
  | .link, some (.obj link) =>
    match Values.own link "href" with
    | some (.str href) =>
      if editable href then
        InsertionMap.set values def_.name (.obj (InsertionMap.set link "href" (wrapText (place ++ ".href") href)))
      else values
    | _ => values
  | _, _ => values

def markedEntry (type : ListTypeDef) (item : Values) : Option (String × Lists.NodeDef × Values) :=
  match item.own "node", item.own "id" with
  | some (.str node), some (.str id) =>
    if isEntryId id.toList then
      (InsertionMap.get type.nodes node).map fun def_ => (id, def_, match item.own "values" with
        | some (.obj values) => values
        | _ => [])
    else none
  | _, _ => none

mutual

def wrapListEntries (field : String) (type : ListTypeDef) : List Json → List Json
  | [] => []
  | raw :: items => wrapListEntry field type raw :: wrapListEntries field type items

def wrapListEntry (field : String) (type : ListTypeDef) : Json → Json
  | .obj item =>
    match markedEntry type item with
    | none => .obj item
    | some (id, node, values) =>
      .obj (InsertionMap.set (wrapChildren field type item) "values"
        (.obj (node.fields.foldl (fun values def_ => wrapEntryValue (field ++ "." ++ id ++ "." ++ def_.name) def_ values) values)))
  | raw => raw

/-- The entries under `children`, when that is an array. -/
def wrapChildren (field : String) (type : ListTypeDef) : List (String × Json) → List (String × Json)
  | [] => []
  | (key, .arr items) :: item =>
    (key, .arr (if key == "children" then wrapListEntries field type items else items)) :: wrapChildren field type item
  | p :: item => p :: wrapChildren field type item

end

def wrapField (listTypes : String → Option ListTypeDef) (values : Values) (out : Values) (f : TemplateField) : Values :=
  match values.own f.name with
  | some (.str v) =>
    if ["text", "url", "image"].contains f.kind && editable v then InsertionMap.set out f.name (wrapText f.name v) else out
  | some (.arr items) =>
    if f.kind == "list" && f.bind.getD .local == .local then
      match f.listType.bind listTypes with
      | some type => InsertionMap.set out f.name (.arr (wrapListEntries f.name type items))
      | none => out
    else out
  | _ => out

def wrapEditableValues (values : Values) (fields : List TemplateField) (listTypes : String → Option ListTypeDef) : Values :=
  fields.foldl (wrapField listTypes values) values

/-! ### Sentinels -/

/-- `/\uE000[^\uE001]*\uE001/` -/
def matchPath (_before s : List Char) : Option (Unit × Nat) :=
  if s.head? = some START ∧ SEP ∈ s then some ((), (s.takeWhile fun c => c != SEP).length + 1) else none

def stripSentinels (s : List Char) : List Char :=
  (Scan.replace matchPath (fun _ _ => []) [] s).filter fun c => !isSentinel c

def attr (value : List Char) : List Char :=
  (encodeURIComponent value).flatMap fun c => if c = '-' then "%2D".toList else [c]

/-! ### Tags -/

/-- How far a tag reaches behind a place, which is inside a quoted value or is not. -/
def tagRest (quote : Option Char) : List Char → Nat
  | [] => 0
  | c :: s =>
    match quote with
    | some q => tagRest (if c == q then none else some q) s + 1
    | none =>
      if c == '"' || c == '\'' then tagRest (some c) s + 1
      else if c == '>' then 1
      else tagRest none s + 1

/-- `tagEnd(html, i) - i` -/
def tagLength (s : List Char) : Nat := tagRest none s.tail + 1

def isTagNameChar (c : Char) : Bool := isLetter c || c.isDigit || c == '-'

/-- `/^<([a-zA-Z][a-zA-Z0-9-]*)/.exec(tag)?.[1]?.toLowerCase()` -/
def tagName : List Char → Option (List Char)
  | '<' :: c :: s => if isLetter c then some ((c :: s.takeWhile isTagNameChar).map Char.toLower) else none
  | _ => none

def RAW_TEXT_ELEMENTS : List (List Char) := ["script", "style", "title", "textarea"].map String.toList

/-- A character in `toLowerCase()`; one of them becomes two. -/
def lowerChar (c : Char) : List Char :=
  if c = '\u0130' then ['i', '\u0307'] else [if c = '\u212A' then 'k' else c.toLower]

/-- `s.indexOf(text, start)`, where the text before `s` has length `i`. -/
def indexOf (text : List Char) (start : Nat) : Nat → List Char → Option Nat
  | _, [] => none
  | i, c :: s =>
    if start ≤ i ∧ text.isPrefixOf (c :: s) then some i else indexOf text start (i + utf16Length [c]) s

/-- The characters of `s.slice(0, n)`. -/
def slicedLength : Nat → List Char → Nat
  | 0, _ => 0
  | _, [] => 0
  | n + 1, c :: s => slicedLength (n + 1 - utf16Length [c]) s + 1

/-- How much raw text there is behind the tag of an element. -/
def rawLength (name before s : List Char) : Nat :=
  let start := utf16Length before
  match indexOf ('<' :: '/' :: name) start 0 ((before.reverse ++ s).flatMap lowerChar) with
  | none => s.length
  | some closeAt => slicedLength (closeAt - start) s

def rawText (before tag s : List Char) : List Char :=
  match (tagName tag).filter RAW_TEXT_ELEMENTS.contains with
  | none => []
  | some name => if "/>".toList.isSuffixOf tag then [] else s.take (rawLength name (tag.reverse ++ before) s)

/-! ### Attributes -/

structure Attribute where
  name : List Char
  eq : List Char
  quote : Char
  value : List Char
deriving DecidableEq, Repr

def isAttributeNameChar (c : Char) : Bool := !isSpace c && !"\"'=<>/".toList.contains c

def matchAttribute (_before s : List Char) : Option (Attribute × Nat) :=
  let name := s.takeWhile isAttributeNameChar
  let rest := s.drop name.length
  let blanks := rest.takeWhile isSpace
  match rest.drop blanks.length with
  | '=' :: rest =>
    let blanks' := rest.takeWhile isSpace
    match rest.drop blanks'.length with
    | quote :: rest =>
      if name ≠ [] ∧ (quote = '"' ∨ quote = '\'') ∧ quote ∈ rest then
        let value := rest.takeWhile fun c => c != quote
        let eq := blanks ++ '=' :: blanks'
        some (⟨name, eq, quote, value⟩, name.length + eq.length + value.length + 2)
      else none
    | [] => none
  | _ => none

/-- The path of `WHOLE_VALUE`. -/
def wholeValue (value : List Char) : Option (List Char) :=
  match value with
  | [] => none
  | c :: s =>
    let path := s.takeWhile fun c => c != SEP
    let rest := (s.drop path.length).drop 1
    if c = START ∧ SEP ∈ s ∧ rest.getLast? = some END ∧ END ∉ rest.dropLast then some path else none

def MARKABLE_ATTRIBUTES : List (List Char) := ["href", "src", "alt"].map String.toList

def stripAttribute (a : Attribute) (raw : List Char) : List Char :=
  if START ∈ a.value then a.name ++ a.eq ++ a.quote :: stripSentinels a.value ++ [a.quote] else raw

def markOf (a : Attribute) : Option (List Char × List Char) :=
  ((wholeValue a.value).filter fun path => !path.isEmpty && MARKABLE_ATTRIBUTES.contains (a.name.flatMap lowerChar)).map
    fun path => (a.name.flatMap lowerChar, path)

/-! ### Marked texts -/

/-- What is written: text of the document, or a mark. -/
inductive Emitted
  | shown (text : List Char)
  | opening (path : List Char)
  | closing
  | attributes (marks : List (List Char × List Char))
deriving DecidableEq, Repr

def stripAttributes (tag : List Char) : List Char := Scan.replace matchAttribute stripAttribute [] tag

def markTag (tag : List Char) : List Emitted :=
  if START ∉ tag then [.shown tag]
  else
    let cleaned := stripSentinels (stripAttributes tag)
    let marks := (Scan.finds matchAttribute [] tag).filterMap fun p => markOf p.1
    if marks = [] then [.shown cleaned]
    else
      let at_ := if "/>".toList.isSuffixOf cleaned then cleaned.length - 2 else cleaned.length - 1
      [.shown (cleaned.take at_), .attributes marks, .shown (cleaned.drop at_)]

inductive Cut
  | comment (text : List Char)
  | tag (tag raw : List Char)
  | wrapped (path value : List Char)
deriving DecidableEq, Repr

/-- `/[a-zA-Z/!?]/` -/
def isTagStart (c : Char) : Bool := isLetter c || "/!?".toList.contains c

def wrappedAt (s : List Char) : Option (List Char × List Char) :=
  let path := s.takeWhile fun c => c != SEP
  let upToEnd := s.takeWhile fun c => c != END
  if SEP ∈ s ∧ END ∈ s ∧ path.length < upToEnd.length then some (path.tail, upToEnd.drop (path.length + 1)) else none

/-- One step of the loop, unless it is about a single character. -/
def matchCut (before s : List Char) : Option (Cut × Nat) :=
  if "<!--".toList.isPrefixOf s then
    let length := match (List.range (s.length - 4)).find? fun k => "-->".toList.isPrefixOf (s.drop (k + 4)) with
      | none => s.length
      | some k => k + 7
    some (.comment (s.take length), length)
  else if s.head? = some '<' ∧ s.tail.head?.any isTagStart then
    let tag := s.take (tagLength s)
    let raw := rawText before tag (s.drop (tagLength s))
    some (.tag tag raw, tag.length + raw.length)
  else if s.head? = some START then
    (wrappedAt s).map fun p => (.wrapped p.1 p.2, p.1.length + p.2.length + 3)
  else none

def Cut.emit : Cut → List Emitted
  | comment text => [.shown (stripSentinels text)]
  | tag text raw => markTag text ++ [.shown (stripSentinels raw)]
  | wrapped path value => [.opening path, .shown value, .closing]

def emitPiece : Scan.Piece Char Cut → List Emitted
  | .plain c => if isSentinel c then [] else [.shown [c]]
  | .found cut _ => cut.emit

/-- What `finalizeEditMarkers` writes, one after the other. -/
def editMarkers (html : List Char) : List Emitted :=
  if START ∉ html then [.shown html] else (Scan.scan matchCut [] html).flatMap emitPiece

def EDIT_MARKER_PREFIX : List Char := "caelo:f".toList

/-- The text of an opening comment, between `<!--` and `-->`. -/
def openComment (placement : List Char) (sharedPages : Nat) (path : List Char) : List Char :=
  EDIT_MARKER_PREFIX ++ " p=".toList ++ attr placement ++ " s=".toList ++ natText sharedPages ++ " f=".toList ++ attr path

def Emitted.text (placement : List Char) (sharedPages : Nat) : Emitted → List Char
  | shown text => text
  | opening path => "<!--".toList ++ openComment placement sharedPages path ++ "-->".toList
  | closing => "<!--/".toList ++ EDIT_MARKER_PREFIX ++ "-->".toList
  | attributes marks =>
    " data-caelo-fields=\"".toList ++ [' '].intercalate (marks.map fun p => p.1 ++ '=' :: attr p.2) ++
      "\" data-caelo-placement=\"".toList ++ attr placement ++ "\" data-caelo-shared=\"".toList ++ natText sharedPages ++ ['"']

def finalizeEditMarkers (html placement : List Char) (sharedPages : Nat) : List Char :=
  (editMarkers html).flatMap (Emitted.text placement sharedPages)

/-! ### Reading a marker -/

structure EditMarker where
  blockName : List Char
  position : Int
  synced : Bool
  field : List Char
  /-- `Number(index)`; `some none` when that is not an integer. -/
  index : Option (Option Int)
deriving DecidableEq, Repr

/-- `/^caelo:f p=(\S+) s=([01]) f=(\S+)$/.exec(comment.trim())` -/
def markerParts (comment : List Char) : Option (List Char × Char × List Char) :=
  (afterText "caelo:f p=" (trimSpace comment)).bind fun rest =>
    let p := rest.takeWhile fun c => !isSpace c
    if p = [] then none
    else (afterText " s=" (rest.drop p.length)).bind fun rest =>
      match rest with
      | [] => none
      | s :: rest =>
        if s = '0' ∨ s = '1' then
          ((afterText " f=" rest).filter fun f => !f.isEmpty && f.all fun c => !isSpace c).map fun f => (p, s, f)
        else none

/-- The text before the last `#` and the text behind it. -/
def splitHash (s : List Char) : Option (List Char × List Char) :=
  if '#' ∈ s then some ((s.reverse.dropWhile fun c => c != '#').tail.reverse, (s.reverse.takeWhile fun c => c != '#').reverse)
  else none

/-- `none` stands for a `URIError`, `some none` for `null`. -/
def parseEditMarker (comment : List Char) : Option (Option EditMarker) :=
  match markerParts comment with
  | none => some none
  | some (p, s, f) =>
    (decodeURIComponent p).bind fun placement =>
      match (splitHash placement).filter fun at_ => !at_.1.isEmpty with
      | none => some none
      | some (blockName, tail) =>
        match integerNumber tail with
        | none => some none
        | some position =>
          (decodeURIComponent f).map fun path =>
            match path.splitOn '.' with
            | [] => none
            | field :: parts =>
              if field = [] then none
              else some ⟨blockName, position, s == '1', field, parts.head?.map integerNumber⟩

end CaeloCms.Edit
