import Mathlib.Data.List.Infix

/-!
# JSON values

Snapshot states, list values and page properties are untyped JSON in the source (`unknown`, `jsonb`).  A value is
modelled as a tree; objects keep their fields in stored order.  `Json.text` is the text Postgres gives for
`state::text`.
-/

namespace CaeloCms

/-- A JSON value.  Numbers keep the text they are written with. -/
inductive Json where
  | null
  | bool (b : Bool)
  | num (text : String)
  | str (s : String)
  | arr (items : List Json)
  | obj (fields : List (String × Json))

namespace Json

/-- `Array.isArray(v) ? v : []` -/
def elements : Json → List Json
  | arr items => items
  | _ => []

/-- `(v as Record<string, unknown>)[name]`; a value without fields has none. -/
def field (name : String) : Json → Option Json
  | obj fields => (fields.find? fun f => f.1 == name).map (·.2)
  | _ => none

/-- `typeof v === "string"` -/
def asString? : Json → Option String
  | str s => some s
  | _ => none

/-- The string under `name`, when there is one. -/
def stringField (name : String) (v : Json) : Option String := (v.field name).bind asString?

/-- The elements of the array under `name`; `[]` when there is none. -/
def arrayField (name : String) (v : Json) : List Json := ((v.field name).map elements).getD []

/-- A character inside a `jsonb` string literal. -/
def escapeChar (c : Char) : List Char :=
  if c = '"' then ['\\', '"']
  else if c = '\\' then ['\\', '\\']
  else if c = '\n' then ['\\', 'n']
  else if c = '\r' then ['\\', 'r']
  else if c = '\t' then ['\\', 't']
  else [c]

/-- A `jsonb` string literal. -/
def quote (s : String) : List Char := '"' :: s.toList.flatMap escapeChar ++ ['"']

mutual

/-- `v::text` of a `jsonb` value. -/
def text : Json → List Char
  | null => "null".toList
  | bool b => (if b then "true" else "false").toList
  | num t => t.toList
  | str s => quote s
  | arr items => '[' :: textItems items ++ [']']
  | obj fields => '{' :: textFields fields ++ ['}']

def textItems : List Json → List Char
  | [] => []
  | [v] => text v
  | v :: vs => text v ++ ", ".toList ++ textItems vs

def textFields : List (String × Json) → List Char
  | [] => []
  | [(k, v)] => quote k ++ ": ".toList ++ text v
  | (k, v) :: fs => quote k ++ ": ".toList ++ text v ++ ", ".toList ++ textFields fs

end

/-- `v::text LIKE '%id%'`, for an id without `LIKE` wildcards. -/
def mentions (v : Json) (id : String) : Bool := decide (id.toList <:+: v.text)

end Json

end CaeloCms
