import CaeloCms.Lib.InsertionMap
import CaeloCms.Theme.AliasResolution

/-!
# Writing tokens

`applyDtcgWrites` sets a token at each path of a record of writes and the description of a token at each path of a record
of roles.  A path is walked name by name from the root; what is met on the way is entered whether it is a group, a token
or metadata, and is replaced by an empty group when it is no object.
-/

namespace CaeloCms.Theme

/-- A `Record<string, α>`: its keys are distinct. -/
structure Entries (α : Type) where
  entries : List (String × α)
  nodup : (entries.map Prod.fst).Nodup

namespace Entries

variable {α : Type}

/-- `record[key]` -/
def get (r : Entries α) (key : String) : Option α := InsertionMap.get r.entries key

/-- `Object.keys(record)` -/
def keys (r : Entries α) : List String := r.entries.map Prod.fst

end Entries

structure UnknownTokenName where
  input : String
deriving DecidableEq

def UnknownTokenName.message (e : UnknownTokenName) : String :=
  "UnknownTokenName: cannot infer canonical path for '" ++ e.input ++
    "' — pass a canonical DTCG path like 'color.primary' or 'typography.heading.fontFamily'"

/-- `UNSAFE_KEYS` -/
def isUnsafeKey (key : String) : Bool := key = "__proto__" || key = "constructor" || key = "prototype"

/-- `v !== null && typeof v === "object"` -/
def isObject : Json → Bool
  | .obj _ => true
  | .arr _ => true
  | _ => false

/-! ### Reading and setting a leaf -/

def readLeafAtPath (doc : Json) (path : String) : Option Json :=
  if "" ∈ splitPath path then none else (lookupParts doc (splitPath path)).filter isToken

/-- `cur[k] = v`; of an array only the elements are kept. -/
def assign (k : String) (v : Json) : Json → Json
  | .obj fields => .obj (InsertionMap.set fields k v)
  | .arr items => .arr (items.zipIdx.map fun p => if toString p.2 = k then v else p.1)
  | cur => cur

/-- The loop of `setLeafAtPath` over the names of a path. -/
def setLeafParts (path : String) (leaf : Json) : List String → Json → Except UnknownTokenName Json
  | [], cur => .ok cur
  | k :: parts, cur =>
    if k = "" then setLeafParts path leaf parts cur
    else if isUnsafeKey k then .error ⟨path⟩
    else if parts = [] then .ok (assign k leaf cur)
    else
      (setLeafParts path leaf parts (((property k cur).filter isObject).getD (.obj []))).map fun child =>
        assign k child cur

def setLeafAtPath (doc : Json) (path : String) (leaf : Json) : Except UnknownTokenName Json :=
  setLeafParts path leaf (splitPath path) doc

/-! ### The leaf of a write -/

/-- `{ ...v }` -/
def spread : Json → List (String × Json)
  | .obj fields => fields
  | .arr items => items.zipIdx.map fun p => (toString p.2, p.1)
  | _ => []

/-- `a === b` for JSON values: an object is only equal to itself. -/
def strictEqual : Json → Json → Bool
  | .null, .null => true
  | .bool a, .bool b => a == b
  | .num a, .num b => a == b
  | .str a, .str b => a == b
  | _, _ => false

/-- A composite is merged into the composite that is there. -/
def merges (existing : Option Json) (value : Json) : Bool :=
  match existing, value with
  | some leaf, .obj _ => isObject (tokenValue leaf)
  | _, _ => false

def nextValue (existing : Option Json) (value : Json) : Json :=
  if merges existing value then
    .obj (InsertionMap.setAll (spread ((existing.map tokenValue).getD .null)) (spread value))
  else value

/-- `nextValue.fontFamily !== oldValue?.fontFamily`: a family that is merged in unchanged is the same one. -/
def familyChanged (existing : Option Json) (value : Json) : Bool :=
  let old := existing.bind fun leaf => property "fontFamily" (tokenValue leaf)
  match property "fontFamily" value with
  | none => if merges existing value then false else old.isSome
  | some family => (old.map fun oldFamily => !strictEqual family oldFamily).getD true

/-- The extensions the leaf keeps: a new family unbinds the pinned face and its axes. -/
def nextExtensions (path : String) (existing : Option Json) (value : Json) : List (String × Json) :=
  let extensions := ((existing.bind fun leaf => leaf.field "$extensions").map spread).getD []
  if "typography.".toList <+: path.toList ∧ isObject (nextValue existing value) = true ∧ familyChanged existing value = true then
    InsertionMap.erase (InsertionMap.erase extensions "caelo.font") "caelo.fontAxes"
  else extensions

/-- A description that is supplied wins over the one that is there. -/
def nextDescription (existing : Option Json) (description : Option String) : Option String :=
  description <|> existing.bind fun leaf => leaf.stringField "$description"

def nextLeaf (path : String) (existing : Option Json) (value : Json) (type description : Option String) : Json :=
  let extensions := nextExtensions path existing value
  .obj ((if extensions = [] then [] else [("$extensions", .obj extensions)]) ++
    [("$value", nextValue existing value)] ++
    ((type.filter fun t => t ≠ "").map fun t => ("$type", Json.str t)).toList ++
    ((nextDescription existing description).map fun d => ("$description", Json.str d)).toList)

def describeLeaf (existing : Json) (description : String) : Json :=
  .obj (InsertionMap.set (spread existing) "$description" (.str description))

/-! ### `applyDtcgWrites` -/

def writeValues (types descriptions : Entries String) : List (String × Json) → Json → Except UnknownTokenName Json
  | [], out => .ok out
  | (path, value) :: writes, out =>
    (setLeafAtPath out path
      (nextLeaf path (readLeafAtPath out path) value (types.get path) (descriptions.get path))).bind
      (writeValues types descriptions writes)

/-- The loop over the paths that have a description and no value. -/
def writeRoles (written : List String) : List (String × String) → Json → Except UnknownTokenName Json
  | [], out => .ok out
  | (path, description) :: roles, out =>
    if path ∈ written then writeRoles written roles out
    else
      match readLeafAtPath out path with
      | none => .error ⟨path⟩
      | some existing =>
        (setLeafAtPath out path (describeLeaf existing description)).bind (writeRoles written roles)

def applyDtcgWrites (current : Json) (writes : Entries Json) (types descriptions : Entries String) :
    Except UnknownTokenName Json :=
  (writeValues types descriptions writes.entries current).bind (writeRoles writes.keys descriptions.entries)

end CaeloCms.Theme
