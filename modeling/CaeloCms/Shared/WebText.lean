import CaeloCms.Lib.Words

/-!
# Texts of a request

The decoders of the web platform that request texts go through: UTF-8 (`TextDecoder`), percent signs
(`decodeURIComponent`, `URLSearchParams`) and base64 (`atob`).  Bytes are natural numbers.
-/

namespace CaeloCms.Web

/-! ### UTF-8 -/

def utf8 (s : List Char) : List Nat := s.flatMap fun c => (String.utf8EncodeChar c).map UInt8.toNat

/-- A character that is being read: its value so far, the bytes it still needs and the range of the next one. -/
structure Utf8State where
  value : Nat
  needed : Nat
  lower : Nat
  upper : Nat

/-- The first byte of a character; `none` stands for a decoding error. -/
def utf8First (b : Nat) : List (Option Char) × Option Utf8State :=
  if b < 0x80 then ([some (Char.ofNat b)], none)
  else if 0xC2 ≤ b ∧ b ≤ 0xDF then ([], some ⟨b % 32, 1, 0x80, 0xBF⟩)
  else if 0xE0 ≤ b ∧ b ≤ 0xEF then
    ([], some ⟨b % 16, 2, if b = 0xE0 then 0xA0 else 0x80, if b = 0xED then 0x9F else 0xBF⟩)
  else if 0xF0 ≤ b ∧ b ≤ 0xF4 then
    ([], some ⟨b % 8, 3, if b = 0xF0 then 0x90 else 0x80, if b = 0xF4 then 0x8F else 0xBF⟩)
  else ([none], none)

def utf8Step (b : Nat) : Option Utf8State → List (Option Char) × Option Utf8State
  | none => utf8First b
  | some s =>
    if s.lower ≤ b ∧ b ≤ s.upper then
      let value := s.value * 64 + b % 64
      if s.needed = 1 then ([some (Char.ofNat value)], none) else ([], some ⟨value, s.needed - 1, 0x80, 0xBF⟩)
    else (none :: (utf8First b).1, (utf8First b).2)

def utf8Chars : Option Utf8State → List Nat → List (Option Char)
  | none, [] => []
  | some _, [] => [none]
  | s, b :: rest => (utf8Step b s).1 ++ utf8Chars (utf8Step b s).2 rest

/-- `new TextDecoder("utf-8", { ignoreBOM: true }).decode(bytes)` -/
def utf8Decode (bytes : List Nat) : List Char := (utf8Chars none bytes).map fun c => c.getD '\uFFFD'

/-- `new TextDecoder().decode(bytes)`, which drops a byte order mark. -/
def textDecode (bytes : List Nat) : List Char :=
  match utf8Decode bytes with
  | '\uFEFF' :: rest => rest
  | s => s

/-! ### Percent signs -/

def hexDigitValue (c : Char) : Option Nat :=
  if '0' ≤ c ∧ c ≤ '9' then some (c.toNat - 48)
  else if 'a' ≤ c ∧ c ≤ 'f' then some (c.toNat - 87)
  else if 'A' ≤ c ∧ c ≤ 'F' then some (c.toNat - 55)
  else none

/-- The byte that two hexadecimal digits after a percent sign stand for. -/
def escapedByte (high low : Char) : Option Nat :=
  (hexDigitValue high).bind fun h => (hexDigitValue low).map fun l => 16 * h + l

/-- The bytes of a text; a percent sign that no two digits follow is `none`. -/
def percentBytes : List Char → List (Option Nat)
  | [] => []
  | '%' :: high :: low :: rest =>
    match escapedByte high low with
    | some b => some b :: percentBytes rest
    | none => none :: percentBytes (high :: low :: rest)
  | '%' :: rest => none :: percentBytes rest
  | c :: rest => (utf8 [c]).map some ++ percentBytes rest

/-- `decodeURIComponent(s)`; `none` where it throws. -/
def decodeURIComponent (s : List Char) : Option (List Char) :=
  ((percentBytes s).mapM id).bind fun bytes => (utf8Chars none bytes).mapM id

/-- A name or value of `application/x-www-form-urlencoded`. -/
def formDecode (s : List Char) : List Char :=
  utf8Decode ((percentBytes (s.map fun c => if c = '+' then ' ' else c)).map fun b => b.getD 37)

/-- The entries of `new URLSearchParams(s)`. -/
def searchParams (s : List Char) : List (List Char × List Char) :=
  let s := match s with
    | '?' :: rest => rest
    | s => s
  ((s.splitOn '&').filter fun part => !part.isEmpty).map fun part =>
    (formDecode (part.takeWhile fun c => c != '='), formDecode ((part.dropWhile fun c => c != '=').drop 1))

/-! ### Base64 -/

def base64Value (c : Char) : Option Nat :=
  if 'A' ≤ c ∧ c ≤ 'Z' then some (c.toNat - 65)
  else if 'a' ≤ c ∧ c ≤ 'z' then some (c.toNat - 71)
  else if '0' ≤ c ∧ c ≤ '9' then some (c.toNat + 4)
  else if c = '+' then some 62
  else if c = '/' then some 63
  else none

def base64Bytes : List Nat → List Nat
  | a :: b :: c :: d :: rest =>
    let n := a * 262144 + b * 4096 + c * 64 + d
    n / 65536 :: n / 256 % 256 :: n % 256 :: base64Bytes rest
  | [a, b, c] => [(a * 4096 + b * 64 + c) / 1024, (a * 4096 + b * 64 + c) / 4 % 256]
  | [a, b] => [(a * 64 + b) / 16]
  | _ => []

/-- The text without the padding that `atob` removes. -/
def unpadded (s : List Char) : List Char :=
  if s.length % 4 = 0 then
    if "==".toList.isSuffixOf s then s.dropLast.dropLast
    else if s.getLast? = some '=' then s.dropLast
    else s
  else s

/-- `Uint8Array.from(atob(s), (c) => c.charCodeAt(0))` of a text without white space; `none` where `atob` throws. -/
def atobBytes (s : List Char) : Option (List Nat) :=
  if (unpadded s).length % 4 = 1 then none else ((unpadded s).mapM base64Value).map base64Bytes

example : decodeURIComponent "a%C3%A9%3D".toList = some "aé=".toList := by decide +kernel
example : decodeURIComponent "%C3a".toList = none := by decide +kernel
example : searchParams "a=1+2&b=%zz".toList = [(['a'], "1 2".toList), (['b'], "%zz".toList)] := by decide +kernel
example : (atobBytes "dTpww6k=".toList).map textDecode = some "u:pé".toList := by decide +kernel

end CaeloCms.Web
