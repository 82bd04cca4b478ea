import CaeloCms.Lib.InsertionMap
import CaeloCms.Lists.Items

/-!
# Patches of an entry tree

`applyListItemPatches` (`items.ts`) applies patches to a copy of the tree, one after the other, and throws at the
first one that cannot apply.  `locate` gives an entry and where it is: the indices that lead to its level, and its
index there; the level is rewritten in place (`mapLevel`).
-/

namespace CaeloCms.Lists

inductive ListItemPatch
  | add (parentId : Option String) (position : Option Int) (item : ListItemInput)
  /-- `query` is `undefined`, `null` or an object. -/
  | update (itemId : String) (values : Option Fields) (query : Option (Option Fields))
  | move (itemId : String) (parentId : Option String) (position : Int)
  | remove (itemId : String)

structure ListPatchError where
  path : String
  message : String

/-- `new ListPatchError(path, message)` -/
def ListPatchError.new (path message : String) : ListPatchError := ⟨path, s!"{path}: {message}"⟩

/-! ### Places -/

/-- An entry, its index in its level, and the indices of the entries above it. -/
structure Located where
  path : List Nat
  index : Nat
  item : ListItemInput

/-- The place seen from one level up, where the level belongs to the `i`th entry. -/
def Located.below (i : Nat) (l : Located) : Located := ⟨i :: l.path, l.index, l.item⟩

mutual

/-- `locate(level, id)`, from the `i`th entry of the level on. -/
def locate (id : String) (i : Nat) : List ListItemInput → Option Located
  | [] => none
  | it :: rest =>
    if it.id = some id then some ⟨[], i, it⟩
    else ((locateBelow id it).map (Located.below i)).or (locate id (i + 1) rest)

def locateBelow (id : String) : ListItemInput → Option Located
  | ⟨_, _, _, children, _⟩ => locate id 0 children

end

/-- The tree with the level under `path` rewritten. -/
def mapLevel (path : List Nat) (f : List ListItemInput → List ListItemInput) (level : List ListItemInput) :
    List ListItemInput :=
  match path with
  | [] => f level
  | i :: path => level.modify i fun it => { it with children := mapLevel path f it.children }

mutual

def containsId (id : String) : ListItemInput → Bool
  | ⟨_, _, _, children, _⟩ => containsIdIn id children

def containsIdIn (id : String) : List ListItemInput → Bool
  | [] => false
  | c :: cs => (c.id == some id || containsId id c) || containsIdIn id cs

end

/-! ### Patches -/

def insertAt (item : ListItemInput) (position : Option Int) (level : List ListItemInput) : List ListItemInput :=
  let pos := match position with
    | none => level.length
    | some position => (max 0 (min position level.length)).toNat
  level.take pos ++ item :: level.drop pos

/-- `levelOf(tree, parentId, at)`: the indices that lead to the level. -/
def levelOf (tree : List ListItemInput) (parentId : Option String) (at_ : String) : Except ListPatchError (List Nat) :=
  match parentId with
  | none => .ok []
  | some id =>
    match locate id 0 tree with
    | none => .error (.new at_ s!"no parent entry with id {id}.")
    | some hit => .ok (hit.path ++ [hit.index])

/-- The values of an entry with the values of a patch merged in; `null` removes a value. -/
def mergeValues (values patch : Fields) : Fields :=
  patch.foldl (fun values f =>
    match f.2 with
    | .null => InsertionMap.erase values f.1
    | v => InsertionMap.set values f.1 v) values

def updated (values : Option Fields) (query : Option (Option Fields)) (entry : ListItemInput) : ListItemInput :=
  { entry with values := mergeValues entry.values (values.getD []), query := query.getD entry.query }

def locateOrThrow (tree : List ListItemInput) (itemId at_ : String) : Except ListPatchError Located :=
  match locate itemId 0 tree with
  | none => .error (.new at_ s!"no entry with id {itemId}.")
  | some hit => .ok hit

def movesIntoItself (itemId : String) (parentId : Option String) (moved : ListItemInput) : Bool :=
  parentId.any fun p => p != "" && (p == itemId || containsId p moved)

/-- One patch; `at_` names it in an error. -/
def applyPatch (tree : List ListItemInput) (p : ListItemPatch) (at_ : String) :
    Except ListPatchError (List ListItemInput) :=
  match p with
  | .add parentId position item => do
    let level ← levelOf tree parentId at_
    .ok (mapLevel level (insertAt item position) tree)
  | .update itemId values query => do
    let hit ← locateOrThrow tree itemId at_
    .ok (mapLevel hit.path (fun level => level.set hit.index (updated values query hit.item)) tree)
  | .move itemId parentId position => do
    let hit ← locateOrThrow tree itemId at_
    let without := mapLevel hit.path (fun level => level.eraseIdx hit.index) tree
    if movesIntoItself itemId parentId hit.item then
      .error (.new at_ "an entry cannot move into itself or its own children.")
    else
      let level ← levelOf without parentId at_
      .ok (mapLevel level (insertAt hit.item (some position)) without)
  | .remove itemId => do
    let hit ← locateOrThrow tree itemId at_
    .ok (mapLevel hit.path (fun level => level.eraseIdx hit.index) tree)

/-- `patches.forEach`, from the `i`th patch on. -/
def applyFrom (i : Nat) (tree : List ListItemInput) : List ListItemPatch → Except ListPatchError (List ListItemInput)
  | [] => .ok tree
  | p :: patches => do
    let next ← applyPatch tree p s!"patches[{i}]"
    applyFrom (i + 1) next patches

def applyListItemPatches (items : List ListItem) (patches : List ListItemPatch) :
    Except ListPatchError (List ListItemInput) :=
  applyFrom 0 (asInputs items) patches

end CaeloCms.Lists
