import CaeloCms.Shared.Json
import CaeloCms.Redirect.Target
import CaeloCms.Link.Ref

/-!
# Fields of list entries

The field declarations shared by list types and page types (`fields.ts`), and the check of one stored value against
its declaration (`validateFieldValue`).

Zod is the parameter `zodIssues`: the issues it reports for a value that one of the schemas refuses.  Whether a schema
refuses a value is decided by the model.  A JSON number is written as `String(n)` writes it.
-/

namespace CaeloCms.Lists

open Redirect (jsonChar jsonString utf16Length isSpace hexDigit isDigit)

/-- The own properties of a record, in their order. -/
abbrev Fields := List (String × Json)

/-- `record[name]`, for an own property. -/
def lookup (name : String) (fields : Fields) : Option Json := (fields.find? fun f => f.1 == name).map (·.2)

/-! ### Texts -/

mutual

def stringify : Json → List Char
  | .null => "null".toList
  | .bool b => (if b then "true" else "false").toList
  | .num t => t.toList
  | .str s => jsonString s.toList
  | .arr items => '[' :: stringifyItems items ++ [']']
  | .obj fields => '\x7b' :: stringifyFields fields ++ ['\x7d']

def stringifyItems : List Json → List Char
  | [] => []
  | [v] => stringify v
  | v :: vs => stringify v ++ ',' :: stringifyItems vs

def stringifyFields : List (String × Json) → List Char
  | [] => []
  | [(k, v)] => jsonString k.toList ++ ':' :: stringify v
  | (k, v) :: fs => jsonString k.toList ++ ':' :: stringify v ++ ',' :: stringifyFields fs

end

/-- The characters of `JSON.stringify(s.slice(0, n))` between the quotes; a pair cut in half shows its first half. -/
def sliced : Nat → List Char → List Char
  | _, [] => []
  | 0, _ :: _ => []
  | n + 1, c :: cs =>
    if c.toNat < 0x10000 then jsonChar c ++ sliced n cs
    else
      match n with
      | 0 =>
        let high := 0xD800 + (c.toNat - 0x10000) / 0x400
        ['\\', 'u', hexDigit (high / 4096), hexDigit (high / 256 % 16), hexDigit (high / 16 % 16), hexDigit (high % 16)]
      | m + 1 => c :: sliced m cs

def describe : Json → String
  | .arr _ => "an array"
  | .null => "null"
  | .str s => String.ofList ('"' :: sliced 40 s.toList ++ ['"'])
  | .bool _ => "boolean"
  | .num _ => "number"
  | .obj _ => "object"

def exponentValue : List Char → Int
  | '-' :: digits => -(Nat.ofDigitChars 10 digits 0 : Int)
  | '+' :: digits => Nat.ofDigitChars 10 digits 0
  | digits => Nat.ofDigitChars 10 digits 0

/-- The number a text of `String(n)` stands for. -/
def numValue (text : String) : Rat :=
  let negative := text.toList.head? == some '-'
  let body := if negative then text.toList.tail else text.toList
  let mantissa := body.takeWhile (· != 'e')
  let whole := mantissa.takeWhile (· != '.')
  let fraction := (mantissa.dropWhile (· != '.')).tail
  let exponent := exponentValue (body.dropWhile (· != 'e')).tail - fraction.length
  let size := (Nat.ofDigitChars 10 (whole ++ fraction) 0 : Rat) * 10 ^ exponent
  if negative then -size else size

/-! ### Names -/

/-- `/^[a-z][a-z0-9_]{0,63}$/` -/
def isListName (name : String) : Bool :=
  name.toList.head?.any (fun c => 'a' ≤ c && c ≤ 'z') && name.length ≤ 64 &&
    name.toList.all fun c => isDigit c || ('a' ≤ c && c ≤ 'z') || c == '_'

def LIST_RESERVED_NAMES : List String :=
  ["id", "node", "index", "depth", "first", "last", "items", "page", "site_text", "recurse"]

def LIST_RESERVED_PREFIXES : List String := ["is_", "has_", "count_"]

def LIST_RESERVED_NAMES_CLAUSE : String :=
  "reserved: " ++ ", ".intercalate (LIST_RESERVED_NAMES ++ LIST_RESERVED_PREFIXES.map (· ++ "*"))

def isReservedListName (name : String) : Bool :=
  LIST_RESERVED_NAMES.contains name || LIST_RESERVED_PREFIXES.any fun p => p.toList.isPrefixOf name.toList

/-! ### Declarations -/

inductive FieldType
  | text (maxLength : Option Nat)
  | richtext (maxLength : Option Nat)
  | link
  | media
  | select (options : List String)
  | boolean
  | number (min max : Option String)
  | date
  | icon
  | module
  | term (list : String) (multiple : Bool)
deriving DecidableEq

def FieldType.name : FieldType → String
  | text _ => "text"
  | richtext _ => "richtext"
  | link => "link"
  | media => "media"
  | select _ => "select"
  | boolean => "boolean"
  | number _ _ => "number"
  | date => "date"
  | icon => "icon"
  | module => "module"
  | term _ _ => "term"

structure FieldDef where
  name : String
  type : FieldType
  required : Bool
  default : Option Json

structure ListIssue where
  path : String
  message : String
deriving DecidableEq, Repr

/-! ### Zod -/

inductive PathPart
  | key (name : String)
  | index (i : Nat)

def PathPart.text : PathPart → String
  | key name => name
  | index i => toString i

inductive ZodCode
  | unrecognizedKeys (keys : List String)
  | invalidType (expected : String)
  | invalidValue (values : List Json)
  | tooSmall (minimum : String)
  | tooBig (maximum : String)
  | invalidFormat (format : String)
  | other

structure ZodIssue where
  code : ZodCode
  path : List PathPart
  message : String

/-- The schemas whose issues a message quotes. -/
inductive Schema
  | linkValue
  | embeddedModuleValue
  | listItems
  | pageQueryPartial
  | pageQuery

abbrev ZodIssues := Schema → Json → {issues : List ZodIssue // issues ≠ []}

def LINK_KEY_HINTS : List (String × String) :=
  let address := "put the address in href"
  let label := "the link text is its own field, not part of the link value"
  [("url", address), ("link", address), ("path", address), ("to", address), ("label", label), ("text", label)]

/-- The parts `describeObjectIssues` says of one issue of the object `fields`. -/
def describeIssue (fields : Fields) (keyHints : List (String × String)) (issue : ZodIssue) : List String :=
  let key := ".".intercalate (issue.path.map PathPart.text)
  let got := match issue.path with
    | [] => some (Json.obj fields)
    | part :: _ => lookup part.text fields
  let shown := (got.map describe).getD "undefined"
  match issue.code with
  | .unrecognizedKeys keys => keys.map fun k =>
      let hint := (keyHints.find? fun h => h.1 == k).map fun h => s!" ({h.2})"
      s!"unknown key \"{k}\"" ++ hint.getD ""
  | .invalidType expected =>
      match got with
      | none => [s!"{key} missing"]
      | some v => [s!"{key} must be a {expected}, got {describe v}"]
  | .invalidValue values =>
      let allowed := " | ".intercalate (values.map fun v => String.ofList (stringify v))
      [s!"{key} must be {allowed} (got {shown})"]
  | .tooSmall minimum =>
      match got with
      | some (.str "") => [s!"{key} is empty"]
      | _ => [s!"{key} must have at least {minimum} characters"]
  | .tooBig maximum => [s!"{key} must have at most {maximum} characters"]
  | .invalidFormat format => [s!"{key} must be a {format} (got {shown})"]
  | .other => [if key.isEmpty then issue.message else s!"{key}: {issue.message}"]

def describeObjectIssues (issues : List ZodIssue) (fields : Fields) (keyHints : List (String × String)) : String :=
  let parts := issues.flatMap (describeIssue fields keyHints)
  if parts.isEmpty then "an object of another shape" else ", ".intercalate parts

/-! ### Values -/

/-- `[0-9a-f-]` -/
def isHexDash (c : Char) : Bool := Link.isHex c || c == '-'

/-- `[0-9a-f-]{36}` -/
def isLooseId (s : List Char) : Bool := s.length == 36 && s.all isHexDash

def isMediaRef (value : String) : Bool :=
  match "caelo:media/".toList.isPrefixOf? value.toList with
  | none => false
  | some body =>
    isLooseId (body.take 36) &&
      match body.drop 36 with
      | [] => true
      | c :: variant => c == '/' && !variant.isEmpty && variant.all Link.isVariantChar

def isTermRef (value : String) : Bool :=
  match "caelo:term/".toList.isPrefixOf? value.toList with
  | none => false
  | some body => isLooseId (body.take 36) && (body.drop 36).head? == some '/' && isLooseId (body.drop 37)

/-- `/^\d{4}-\d{2}-\d{2}$/` and a `Date.parse` that is a number. -/
def isIsoDate (value : String) : Bool :=
  let s := value.toList
  let number := fun (from_ len : Nat) => Nat.ofDigitChars 10 ((s.drop from_).take len) 0
  s.length == 10 && (s.zip [false, false, false, false, true, false, false, true, false, false]).all
      (fun p => if p.2 then p.1 == '-' else isDigit p.1) &&
    1 ≤ number 5 2 && number 5 2 ≤ 12 && 1 ≤ number 8 2 && number 8 2 ≤ 31

def isIcon (value : String) : Bool :=
  1 ≤ value.length && value.length ≤ 64 && value.toList.all Link.isVariantChar

/-- `linkValueSchema` -/
def isLinkValue : Json → Bool
  | .obj fields =>
    (match lookup "href" fields with
      | some (.str href) => 1 ≤ utf16Length href.toList && utf16Length href.toList ≤ 2000
      | _ => false) &&
    (match lookup "target" fields with
      | none => true
      | some (.str target) => target == "_self" || target == "_blank"
      | some _ => false) &&
    fields.all fun f => f.1 == "href" || f.1 == "target"
  | _ => false

/-- `z.string().uuid()`: a UUID of version 1 to 8 in either case, or the nil or the max one. -/
def isZodUuid (value : String) : Bool :=
  let s := value.toList.map Char.toLower
  let hex := fun c => isDigit c || ('a' ≤ c && c ≤ 'f')
  let groups := s.splitOn '-'
  groups.map List.length == [8, 4, 4, 4, 12] && groups.all (fun g => g.all hex) &&
    ((s.all fun c => c == '0' || c == '-') || (value.toList.all fun c => c == 'f' || c == '-') ||
      (((groups.getD 2 []).head?.any fun c => '1' ≤ c && c ≤ '8') &&
        ((groups.getD 3 []).head?.any fun c => c == '8' || c == '9' || c == 'a' || c == 'b')))

def isEmbeddedModuleValue : Json → Bool
  | .obj fields =>
    (["moduleId", "contentInstanceId"].all fun k =>
      match lookup k fields with
      | some (.str id) => isZodUuid id
      | _ => false) &&
    fields.all fun f => f.1 == "moduleId" || f.1 == "contentInstanceId"
  | _ => false

def DEFAULT_TEXT_MAX : Nat := 500
def DEFAULT_RICHTEXT_MAX : Nat := 5000

variable (zodIssues : ZodIssues)

def validateSetValue (field : FieldDef) (value : Json) (path : String) : List ListIssue :=
  let bad := fun (expected : String) => [ListIssue.mk path s!"\"{field.name}\" must be {expected}, got {describe value}."]
  let badObject := fun (expected : String) (schema : Schema) (keyHints : List (String × String)) =>
    match value with
    | .obj fields =>
      let said := describeObjectIssues (zodIssues schema value).1 fields keyHints
      [ListIssue.mk path s!"\"{field.name}\" must be {expected} — {said}."]
    | _ => bad expected
  let checkText := fun (max : Nat) =>
    match value with
    | .str s =>
      if max < utf16Length s.toList then bad s!"at most {max} characters"
      else if field.required ∧ s.toList.all isSpace then bad "non-empty text"
      else []
    | _ => bad "a string"
  match field.type with
  | .text maxLength => checkText (maxLength.getD DEFAULT_TEXT_MAX)
  | .richtext maxLength => checkText (maxLength.getD DEFAULT_RICHTEXT_MAX)
  | .link =>
    if isLinkValue value then []
    else badObject "\x7b href, target? \x7d (href like \"/about\" or \"https://…\")" .linkValue LINK_KEY_HINTS
  | .media =>
    if value.asString?.any isMediaRef then []
    else bad "a media reference (caelo:media/<id>) — pick an asset from find_media"
  | .select options =>
    if value.asString?.any options.contains then []
    else bad ("one of " ++ ", ".intercalate (options.map fun o => s!"\"{o}\""))
  | .boolean =>
    match value with
    | .bool _ => []
    | _ => bad "true or false"
  | .number min max =>
    match value with
    | .num n =>
      if min.any fun m => numValue n < numValue m then bad ("≥ " ++ min.getD "")
      else if max.any fun m => numValue m < numValue n then bad ("≤ " ++ max.getD "")
      else []
    | _ => bad "a number"
  | .date => if value.asString?.any isIsoDate then [] else bad "an ISO date YYYY-MM-DD"
  | .icon => if value.asString?.any isIcon then [] else bad "an icon name"
  | .module =>
    if isEmbeddedModuleValue value then [] else badObject "\x7b moduleId, contentInstanceId \x7d" .embeddedModuleValue []
  | .term _ multiple =>
    match value with
    | .arr terms =>
      if terms.any fun t => !t.asString?.any isTermRef then
        bad "an array of term references (caelo:term/<listId>/<itemId>)"
      else if !multiple ∧ 1 < terms.length then bad "at most one term (multiple is off)"
      else if field.required ∧ terms.length = 0 then bad "at least one term"
      else []
    | _ => bad "an array of term references (caelo:term/<listId>/<itemId>)"

/-- One stored value against its field; `none` is `undefined`. -/
def validateFieldValue (field : FieldDef) (value : Option Json) (path : String) : List ListIssue :=
  let unset := if field.required then
      [ListIssue.mk path s!"\"{field.name}\" is required ({field.type.name}) — set a value."] else []
  match value with
  | none => unset
  | some .null => unset
  | some v => validateSetValue zodIssues field v path

def checkFieldDef (field : FieldDef) (path : String) : List ListIssue :=
  (if isReservedListName field.name then
    [ListIssue.mk path s!"field name \"{field.name}\" is reserved by the template engine ({LIST_RESERVED_NAMES_CLAUSE}) — pick another name."]
    else []) ++
  (match field.default with
    | none => []
    | some v => validateFieldValue zodIssues { field with required := false } (some v) s!"{path}.default") ++
  (match field.type with
    | .number (some min) (some max) =>
      if numValue max < numValue min then [ListIssue.mk path "min is greater than max."] else []
    | _ => [])

theorem isMediaRef_of_validate {field : FieldDef} {v : Json} {path : String} (htype : field.type = .media)
    (hset : v ≠ .null) (h : validateFieldValue zodIssues field (some v) path = []) :
    ∃ s, v = .str s ∧ isMediaRef s = true := by
  have hcheck : validateSetValue zodIssues field v path = [] := by
    cases v with
    | null => exact absurd rfl hset
    | _ => exact h
  unfold validateSetValue at hcheck
  rw [htype] at hcheck
  simp only at hcheck
  by_cases hm : v.asString?.any isMediaRef = true
  · cases v with
    | str s => exact ⟨s, rfl, by simpa [Json.asString?] using hm⟩
    | _ => simp [Json.asString?] at hm
  · rw [if_neg hm] at hcheck
    cases hcheck

end CaeloCms.Lists
