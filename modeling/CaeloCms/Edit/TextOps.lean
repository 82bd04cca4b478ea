import CaeloCms.Lib.Occurrences
import CaeloCms.Shared.Units

/-!
# Edits anchored on text

`applyStringEdits`: each edit looks for its anchor in the text the edit before left, and the first edit that is refused
refuses the batch.  An anchor that is not found is looked for once more without the quotes it came in
(`correctQuotedAnchor`).
-/

namespace CaeloCms.TextOps

open Occurrences (At Apart Replaced indexOf split replaceFirst)

structure ContentEdit where
  oldString : Units
  newString : Units
  replaceAll : Option Bool
deriving DecidableEq, Repr

inductive ApplyEditsResult
  | ok (content : Units) (replacements : Nat) (edits : List ContentEdit) (notes : List Units)
  | failed (error : Units)
deriving DecidableEq, Repr

/-- The raw text that a value in quotes stands for. -/
def unquote (value : Units) : Option Units :=
  if value.length < 2 ∨ value.head? ≠ some (unit '"') ∨ value.getLast? ≠ some (unit '"') then none
  else
    match parseLiteral value with
    | none => some (value.tail.dropLast)
    | some parsed => some parsed

/-- How many occurrences there are that do not overlap. -/
def countOccurrences (haystack needle : Units) : Nat :=
  if needle.length = 0 then 0 else (split needle haystack).length - 1

/-! ### Where an anchor stands -/

/-- `haystack.lastIndexOf("\n", at) + 1` -/
def lineStart (haystack : Units) : Nat → Nat
  | 0 => if haystack.head? = some (unit '\n') then 1 else 0
  | at_ + 1 => if haystack[at_ + 1]? = some (unit '\n') then at_ + 2 else lineStart haystack at_

/-- The lines of the first occurrences from a place on; a start before the text counts as its first place. -/
def matchLinesFrom (haystack needle : Units) : Nat → Nat → List Units
  | 0, _ => []
  | max + 1, start =>
    match indexOf needle (haystack.drop start) with
    | none => []
    | some i =>
      let at_ := start + i
      let lineNo := (haystack.take at_).count (unit '\n') + 1
      let lineEnd := at_ + ((haystack.drop at_).takeWhile fun u => u ≠ unit '\n').length
      let text := trimUnits ((haystack.take lineEnd).drop (lineStart haystack (at_ - 1)))
      (units "line " ++ natUnits lineNo ++ units ": " ++ truncateKeepingIds text 121 (units "…")) ::
        matchLinesFrom haystack needle max (at_ + needle.length)

def matchLines (haystack needle : Units) : List Units := matchLinesFrom haystack needle 5 0

def joined (lines : List Units) : Units := (units "; ").intercalate lines

/-! ### Anchors in quotes -/

def quotedCause (place : Units) : Units :=
  units "oldString" ++ place ++
    units " is wrapped in quotes (JSON-encoded text) and the field does not contain the quotes; without them it matches"

def correctQuotedAnchor (body : Units) (edit : ContentEdit) (place : Units) :
    Option (Except Units (ContentEdit × Units)) :=
  match unquote edit.oldString with
  | none => none
  | some oldRaw =>
    let count := countOccurrences body oldRaw
    if oldRaw = [] ∨ count = 0 then none
    else
      match if edit.newString = [] then some [] else unquote edit.newString with
      | none =>
        some (.error (quotedCause place ++ units " " ++
          (if count = 1 then units "once" else natUnits count ++ units " times") ++
          units ". Pass the raw text exactly as read_content shows it, without the wrapping quotes and without \\\" escapes, in both oldString and newString."))
      | some newRaw =>
        if 1 < count ∧ edit.replaceAll ≠ some true then
          some (.error (quotedCause place ++ units " " ++ natUnits count ++ units " times (" ++
            joined (matchLines body oldRaw) ++
            units "). Pass it as raw text (no wrapping quotes, no \\\" escapes) with enough surrounding context to match once, or pass replaceAll:true."))
        else
          some (.ok ({ edit with oldString := oldRaw, newString := newRaw },
            units "Note" ++ place ++
              units ": oldString/newString arrived wrapped in quotes (JSON-encoded); applied the unquoted text. Pass raw text exactly as read_content shows it next time."))

/-! ### Applying -/

/-- What one edit leaves: the text, how many places changed, the edit as made and the notes about it. -/
structure Applied where
  current : Units
  replacements : Nat
  edit : ContentEdit
  notes : List Units
deriving DecidableEq, Repr

def findAnchor (place current : Units) (edit : ContentEdit) : Except Units (ContentEdit × List Units) :=
  if countOccurrences current edit.oldString = 0 then
    match correctQuotedAnchor current edit place with
    | none => .ok (edit, [])
    | some (.error error) => .error error
    | some (.ok (corrected, note)) => .ok (corrected, [note])
  else .ok (edit, [])

/-- The replacement at an anchor, which stands `count` times in the text. -/
def replaceAnchor (place current : Units) (edit : ContentEdit) (notes : List Units) : Except Units Applied :=
  let count := countOccurrences current edit.oldString
  if count = 0 then
    .error (units "oldString not found" ++ place ++
      units ". It may be stale — re-read the current body with read_content and copy the exact text (including whitespace) to anchor the edit.")
  else if 1 < count ∧ edit.replaceAll ≠ some true then
    .error (units "oldString is not unique" ++ place ++ units ": " ++ natUnits count ++ units " matches (" ++
      joined (matchLines current edit.oldString) ++
      units "). Add surrounding context from the line you mean so the oldString matches exactly once, or pass replaceAll:true to change all " ++
      natUnits count ++ units ".")
  else if edit.replaceAll = some true then
    .ok ⟨edit.newString.intercalate (split edit.oldString current), count, edit, notes⟩
  else .ok ⟨replaceFirst edit.oldString edit.newString current, 1, edit, notes⟩

def applyEdit (place current : Units) (edit : ContentEdit) : Except Units Applied :=
  if edit.oldString = edit.newString then
    .error (units "oldString equals newString" ++ place ++
      units " — nothing to change. Make the two differ, or drop this edit.")
  else if edit.oldString = [] then
    if current ≠ [] then
      .error (units "oldString is empty" ++ place ++ units ", but the body already has content (" ++
        natUnits current.length ++
        units " characters). An empty oldString only fills an empty body. Anchor on existing text from read_content, or use update_modules_many to replace the whole field.")
    else .ok ⟨edit.newString, 1, edit, []⟩
  else (findAnchor place current edit).bind fun found => replaceAnchor place current found.1 found.2

def editPlace (total i : Nat) : Units := if 1 < total then units " (edit #" ++ natUnits (i + 1) ++ units ")" else []

/-- The edits from the `i`-th on, with what the ones before have left. -/
def applyFrom (total : Nat) : Nat → Units → Nat → List ContentEdit → List Units → List ContentEdit → ApplyEditsResult
  | _, current, replacements, applied, notes, [] => .ok current replacements applied notes
  | i, current, replacements, applied, notes, edit :: edits =>
    match applyEdit (editPlace total i) current edit with
    | .error error => .failed error
    | .ok done =>
      applyFrom total (i + 1) done.current (replacements + done.replacements) (applied ++ [done.edit])
        (notes ++ done.notes) edits

def applyStringEdits (source : Units) (edits : List ContentEdit) : ApplyEditsResult :=
  if edits.length = 0 then .failed (units "No edits supplied. Pass at least one \x7boldString, newString\x7d.")
  else applyFrom edits.length 0 source 0 [] [] edits

end CaeloCms.TextOps
