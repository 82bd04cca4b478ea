import CaeloCms.Lib.Scan
import CaeloCms.Redirect.Target

/-!
# Texts and tags

A template is rendered in several passes over one text.  What a pass pastes in is behind a sentinel, a key that no
template and no content can guess and that the last pass replaces by the text it stands for; here it is a symbol of the
text with the original inside.  The expressions of the passes are read symbol by symbol: a sentinel is in none of their
classes of letters, braces, blanks or signs.
-/

namespace CaeloCms.Template

open Redirect (isSpace)

/-- A character of a text in the making, or a sentinel. -/
inductive Sym
  | char (c : Char)
  | mask (original : List Sym)

/-- A text without sentinels. -/
def chars (s : List Char) : List Sym := s.map Sym.char

def str (s : String) : List Sym := chars s.toList

namespace Sym

/-- A character of the class. -/
def isA (p : Char → Bool) : Sym → Bool
  | char c => p c
  | mask _ => false

def is (c : Char) : Sym → Bool := isA (· == c)

/-- `\s` -/
def isBlank : Sym → Bool := isA isSpace

end Sym

/-! ### Characters -/

/-- `[a-z]` -/
def isLower (c : Char) : Bool := 'a' ≤ c && c ≤ 'z'

/-- `[a-zA-Z]` -/
def isLetter (c : Char) : Bool := isLower c || ('A' ≤ c && c ≤ 'Z')

/-- `[a-zA-Z0-9_]` -/
def isWord (c : Char) : Bool := isLetter c || c.isDigit || c == '_'

/-- `[a-z0-9_]` -/
def isLowerWord (c : Char) : Bool := isLower c || c.isDigit || c == '_'

/-- `name.toLowerCase()`, as far as names in ASCII go: of the letters outside the Kelvin sign alone becomes one. -/
def lower (name : String) : String :=
  String.ofList (name.toList.map fun c => if c.toNat = 0x212A then 'k' else c.toLower)

/-! ### Tags -/

/-- `#`, `^`, `/`, `>` or nothing. -/
inductive Sigil
  | none
  | hash
  | caret
  | slash
  | angle
deriving DecidableEq, Repr

def Sigil.ofChar (c : Char) : Sigil :=
  if c = '#' then hash else if c = '^' then caret else if c = '/' then slash else if c = '>' then angle else none

structure Name where
  head : String
  path : List String
deriving DecidableEq, Repr

namespace Name

def text (name : Name) : String := name.path.foldl (fun s part => s ++ "." ++ part) name.head

/-- `name.includes(".")` -/
def dotted (name : Name) : Bool := !name.path.isEmpty

/-- `SECTION_NAME_RE`, of a name `TAG_RE` matches. -/
def isSectionName (name : Name) : Bool := (name.head :: name.path).all fun part => part.toList.all isLowerWord

end Name

structure Tag where
  sigil : Sigil
  name : Name
deriving DecidableEq, Repr

/-- The characters of the class at the front of a text, and the text after them. -/
def spanChars (p : Char → Bool) : List Sym → List Char × List Sym
  | [] => ([], [])
  | .mask t :: s => ([], .mask t :: s)
  | .char c :: s => if p c then (c :: (spanChars p s).1, (spanChars p s).2) else ([], .char c :: s)

/-- The text behind the characters, when it starts with them. -/
def after : List Char → List Sym → Option (List Sym)
  | [], s => some s
  | _ :: _, [] => none
  | _ :: _, .mask _ :: _ => none
  | c :: cs, .char d :: s => if c = d then after cs s else none

/-- `\s*` -/
def skipBlanks (s : List Sym) : List Sym := s.dropWhile Sym.isBlank

/-- `([#^/>]\s*)?` -/
def scanSigil (s : List Sym) : Sigil × List Sym :=
  match s with
  | .char c :: rest => if Sigil.ofChar c = .none then (.none, s) else (Sigil.ofChar c, skipBlanks rest)
  | _ => (.none, s)

/-- `(?:\.[a-zA-Z0-9_]+)*`, for at most `most` parts. -/
def scanPath : Nat → List Sym → List String × List Sym
  | 0, s => ([], s)
  | most + 1, s =>
    match s with
    | .char '.' :: rest =>
      if (spanChars isWord rest).1 = [] then ([], s)
      else
        let r := scanPath most (spanChars isWord rest).2
        (String.ofList (spanChars isWord rest).1 :: r.1, r.2)
    | _ => ([], s)

/-- `[a-zA-Z][a-zA-Z0-9_]*(?:\.[a-zA-Z0-9_]+)*` -/
def scanName (s : List Sym) : Option (Name × List Sym) :=
  if s.head?.any (Sym.isA isLetter) then
    let path := scanPath s.length (spanChars isWord s).2
    some (⟨String.ofList (spanChars isWord s).1, path.1⟩, path.2)
  else none

/-- `\s*\}\}` -/
def scanClose (s : List Sym) : Option (List Sym) := after ['\x7d', '\x7d'] (skipBlanks s)

/-- `\{\{\s*` -/
def scanOpen (s : List Sym) : Option (List Sym) := (after ['\x7b', '\x7b'] s).map skipBlanks

/-- `TAG_RE`, with the text after the match. -/
def scanTag (s : List Sym) : Option (Tag × List Sym) :=
  (scanOpen s).bind fun inner =>
    (scanName (scanSigil inner).2).bind fun found =>
      (scanClose found.2).map fun rest => (⟨(scanSigil inner).1, found.1⟩, rest)

def matchTag (_before s : List Sym) : Option (Tag × Nat) := (scanTag s).map fun r => (r.1, s.length - r.2.length)

def matchPartial (before s : List Sym) : Option (String × Nat) :=
  (matchTag before s).bind fun r =>
    if r.1.sigil = .angle ∧ r.1.name.path = [] ∧ r.1.name.isSectionName then some (r.1.name.head, r.2) else none

def matchPrimitive (before s : List Sym) : Option (String × Nat) :=
  (matchTag before s).bind fun r =>
    if r.1.sigil = .none ∧ r.1.name.path = [] then some (r.1.name.head, r.2) else none

def matchDot (_before s : List Sym) : Option (Unit × Nat) :=
  ((scanOpen s).bind fun inner => (after ['.'] inner).bind scanClose).map fun rest => ((), s.length - rest.length)

/-- `[^#^/>!&={}\s]` -/
def isLiteralStart (s : Sym) : Bool := !s.isBlank && !s.isA fun c => "#^/>!&=\x7b\x7d".toList.contains c

/-- `[^{}]` -/
def isInside (s : Sym) : Bool := !s.is '\x7b' && !s.is '\x7d'

/-- `NON_IDENTIFIER_TAG_RE`, with the name. -/
def matchLiteral (_before s : List Sym) : Option (List Sym × Nat) :=
  (scanOpen s).bind fun inner =>
    if inner.head?.any isLiteralStart then
      (after ['\x7d', '\x7d'] (inner.dropWhile isInside)).map fun rest =>
        (inner.takeWhile isInside, s.length - rest.length)
    else none

/-- `IDENTIFIER_RE.test(name.trim())` -/
def isIdentifier (name : List Sym) : Bool :=
  let trimmed := (skipBlanks (skipBlanks name).reverse).reverse
  trimmed.head?.any (Sym.isA isLetter) && trimmed.all (Sym.isA isWord)

example : matchTag [] (str "\x7b\x7b> cta \x7d\x7d!") = some (⟨.angle, ⟨"cta", []⟩⟩, 10) := by decide

end CaeloCms.Template
