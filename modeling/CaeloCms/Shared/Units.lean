import CaeloCms.Redirect.JsonText

/-!
# Texts in UTF-16

Texts as lists of code units, which is what `length`, `slice` and a match position count, with `JSON.parse` of a string
literal and the cut that leaves ids whole (`truncateKeepingIds`).
-/

namespace CaeloCms

open Redirect (isSpace hexValue unescape StringState)

abbrev Units := List UInt16

def unit (c : Char) : UInt16 := c.toNat.toUInt16

/-- A character outside the basic plane is a surrogate pair. -/
def charUnits (c : Char) : Units :=
  if c.toNat < 0x10000 then [unit c]
  else [(0xD800 + (c.toNat - 0x10000) / 0x400).toUInt16, (0xDC00 + (c.toNat - 0x10000) % 0x400).toUInt16]

def units (s : String) : Units := s.toList.flatMap charUnits

/-- The character that is one unit; a surrogate is none that any pattern looks for. -/
def unitChar (u : UInt16) : Char := Char.ofNat u.toNat

def natUnits (n : Nat) : Units := units (toString n)

/-! ### `String.prototype` -/

def trimUnits (s : Units) : Units :=
  ((s.dropWhile fun u => isSpace (unitChar u)).reverse.dropWhile fun u => isSpace (unitChar u)).reverse

/-! ### `JSON.parse` of a string literal -/

/-- A literal after its opening quote, up to the end of the text. -/
def literalBody : StringState → Units → Option Units
  | _, [] => none
  | .plain, u :: rest =>
    if u = unit '"' then if rest = [] then some [] else none
    else if u = unit '\\' then literalBody .escape rest
    else if u < 32 then none
    else (literalBody .plain rest).map (u :: ·)
  | .escape, u :: rest =>
    if u = unit 'u' then literalBody (.hex 0 0) rest
    else (unescape (unitChar u)).bind fun c => (literalBody .plain rest).map (unit c :: ·)
  | .hex count value, u :: rest =>
    (hexValue (unitChar u)).bind fun digit =>
      if count = 3 then (literalBody .plain rest).map ((16 * value + digit).toUInt16 :: ·)
      else literalBody (.hex (count + 1) (16 * value + digit)) rest

/-- `JSON.parse` of a text that starts with a quote. -/
def parseLiteral (text : Units) : Option Units := literalBody .plain text.tail

/-! ### Cutting a text without cutting an id -/

def isHexUnit (u : UInt16) : Bool := (hexValue (unitChar u)).isSome

/-- The parts of an id: how many digits, and the hyphens between them. -/
def UUID_PATTERN : List Nat := [8, 4, 4, 4, 12]

/-- The text starts with as many digits as each number says, with hyphens between them. -/
def matchesGroups : List Nat → Units → Bool
  | [], _ => true
  | [n], s => decide (n ≤ s.length) && (s.take n).all isHexUnit
  | n :: ns, s =>
    decide (n ≤ s.length) && (s.take n).all isHexUnit && decide ((s.drop n).head? = some (unit '-')) &&
      matchesGroups ns (s.drop (n + 1))

def startsWithId (s : Units) : Bool := matchesGroups UUID_PATTERN s

/-- Where the ids of a text start that do not overlap one before; `skip` is what is left of the last one. -/
def idStarts : Nat → Nat → Units → List Nat
  | _, _, [] => []
  | skip + 1, at_, _ :: s => idStarts skip (at_ + 1) s
  | 0, at_, u :: s => if startsWithId (u :: s) then at_ :: idStarts 35 (at_ + 1) s else idStarts 0 (at_ + 1) s

/-- The place at most at `at_` where the text can be cut. -/
def idSafeCutIndex (text : Units) (at_ : Nat) : Nat :=
  if at_ = 0 then 0
  else if text.length ≤ at_ then text.length
  else
    let start := at_ - 36
    let window := (text.take (at_ + 36)).drop start
    ((idStarts 0 start window).find? fun i => i < at_ && at_ < i + 36).getD at_

def truncateKeepingIds (text : Units) (max : Nat) (suffix : Units) : Units :=
  if text.length ≤ max then text else text.take (idSafeCutIndex text (max - suffix.length)) ++ suffix

example : truncateKeepingIds (units "abcdef") 4 (units "…") = units "abc…" := by decide

end CaeloCms
