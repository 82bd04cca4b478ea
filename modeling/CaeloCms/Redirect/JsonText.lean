import CaeloCms.Redirect.Target

/-!
# The text of a flat JSON object

`JSON.stringify` of an object whose members are natural numbers and strings, as the values of a key-value store are
(`objectText`), and `JSON.parse` of such a text (`parseObject`), which gives the members back (`parse_objectText`).
-/

namespace CaeloCms.Redirect

inductive JsonScalar
  | num (n : Nat)
  | str (s : List Char)
deriving DecidableEq, Repr

/-- `String(n)` -/
def natText (n : Nat) : List Char := Nat.toDigits 10 n

def scalarText : JsonScalar → List Char
  | .num n => natText n
  | .str s => jsonString s

def memberText (m : List Char × JsonScalar) : List Char := jsonString m.1 ++ ':' :: scalarText m.2

/-- The members after the first one, and the end of the object. -/
def membersText : List (List Char × JsonScalar) → List Char
  | [] => ['\x7d']
  | m :: ms => ',' :: (memberText m ++ membersText ms)

def objectText : List (List Char × JsonScalar) → List Char
  | [] => ['\x7b', '\x7d']
  | m :: ms => '\x7b' :: (memberText m ++ membersText ms)

/-! ### Parsing -/

def hexValue (c : Char) : Option Nat :=
  if '0' ≤ c ∧ c ≤ '9' then some (c.toNat - 48)
  else if 'a' ≤ c ∧ c ≤ 'f' then some (c.toNat - 87)
  else if 'A' ≤ c ∧ c ≤ 'F' then some (c.toNat - 55)
  else none

/-- The character after a backslash, other than `u`. -/
def unescape (c : Char) : Option Char :=
  if c = '"' then some '"'
  else if c = '\\' then some '\\'
  else if c = '/' then some '/'
  else if c = 'b' then some (Char.ofNat 8)
  else if c = 'f' then some (Char.ofNat 12)
  else if c = 'n' then some '\n'
  else if c = 'r' then some '\r'
  else if c = 't' then some '\t'
  else none

/-- What is read of a string: nothing special, a backslash, or the digits of a `\u` escape so far. -/
inductive StringState
  | plain
  | escape
  | hex (count value : Nat)

/-- A string after its opening quote: its characters and the text after its closing quote. -/
def stringBody : StringState → List Char → Option (List Char × List Char)
  | _, [] => none
  | .plain, c :: rest =>
    if c = '"' then some ([], rest)
    else if c = '\\' then stringBody .escape rest
    else if c.toNat < 32 then none
    else (stringBody .plain rest).map fun r => (c :: r.1, r.2)
  | .escape, c :: rest =>
    if c = 'u' then stringBody (.hex 0 0) rest
    else (unescape c).bind fun c' => (stringBody .plain rest).map fun r => (c' :: r.1, r.2)
  | .hex count value, c :: rest =>
    (hexValue c).bind fun digit =>
      if count = 3 then
        (stringBody .plain rest).map fun r => (Char.ofNat (16 * value + digit) :: r.1, r.2)
      else stringBody (.hex (count + 1) (16 * value + digit)) rest

def parseScalar : List Char → Option (JsonScalar × List Char)
  | [] => none
  | c :: rest =>
    if c = '"' then (stringBody .plain rest).map fun r => (.str r.1, r.2)
    else if c.isDigit then
      some (.num (Nat.ofDigitChars 10 (c :: rest.takeWhile Char.isDigit) 0), rest.dropWhile Char.isDigit)
    else none

def parseMember : List Char → Option ((List Char × JsonScalar) × List Char)
  | '"' :: rest =>
    (stringBody .plain rest).bind fun key =>
      match key.2 with
      | ':' :: rest => (parseScalar rest).map fun value => ((key.1, value.1), value.2)
      | _ => none
  | _ => none

/-- The members after the first one; `fuel` is at least their number. -/
def parseMembers : Nat → List Char → Option (List (List Char × JsonScalar))
  | 0, _ => none
  | fuel + 1, text =>
    if text = ['\x7d'] then some []
    else if text.head? = some ',' then
      (parseMember text.tail).bind fun m => (parseMembers fuel m.2).map (m.1 :: ·)
    else none

def parseObject (text : List Char) : Option (List (List Char × JsonScalar)) :=
  if text = ['\x7b', '\x7d'] then some []
  else if text.head? = some '\x7b' then
    (parseMember text.tail).bind fun m => (parseMembers text.length m.2).map (m.1 :: ·)
  else none

/-! ### Round trip -/

theorem hexValue_hexDigit {n : Nat} (h : n < 16) : hexValue (hexDigit n) = some n := by
  have hall : ∀ n < 16, hexValue (hexDigit n) = some n := by decide
  exact hall n h

theorem stringBody_hex {c : Char} (h : c.toNat < 32) (rest : List Char) :
    stringBody .plain ('\\' :: 'u' :: '0' :: '0' :: hexDigit (c.toNat / 16) :: hexDigit (c.toNat % 16) :: rest) =
      (stringBody .plain rest).map fun r => (c :: r.1, r.2) := by
  have hhigh : hexValue (hexDigit (c.toNat / 16)) = some (c.toNat / 16) := hexValue_hexDigit (by omega)
  have hlow : hexValue (hexDigit (c.toNat % 16)) = some (c.toNat % 16) := hexValue_hexDigit (by omega)
  have hzero : hexValue '0' = some 0 := by decide
  have hc : Char.ofNat (16 * (c.toNat / 16) + c.toNat % 16) = c := by
    rw [Nat.div_add_mod]
    exact Char.ofNat_toNat c
  simp [stringBody, hzero, hhigh, hlow, hc]

theorem stringBody_jsonChar (c : Char) (rest : List Char) :
    stringBody .plain (jsonChar c ++ rest) = (stringBody .plain rest).map fun r => (c :: r.1, r.2) := by
  have hofNat : ∀ n, c.toNat = n → Char.ofNat n = c := by
    intro n hn
    rw [← hn]
    exact Char.ofNat_toNat c
  unfold jsonChar
  split
  · rename_i h
    subst h
    simp [stringBody, unescape]
  split
  · rename_i h
    subst h
    simp [stringBody, unescape]
  split
  · rename_i h
    obtain rfl := hofNat 8 h
    simp [stringBody, unescape]
  split
  · rename_i h
    obtain rfl := hofNat 12 h
    simp [stringBody, unescape]
  split
  · rename_i h
    subst h
    simp [stringBody, unescape]
  split
  · rename_i h
    subst h
    simp [stringBody, unescape]
  split
  · rename_i h
    subst h
    simp [stringBody, unescape]
  split
  · rename_i h
    exact stringBody_hex h rest
  · rename_i hquote hslash _ _ _ _ _ hctl
    rw [List.singleton_append, stringBody, if_neg hquote, if_neg hslash, if_neg hctl]

theorem stringBody_jsonString (s rest : List Char) :
    stringBody .plain (s.flatMap jsonChar ++ '"' :: rest) = some (s, rest) := by
  induction s with
  | nil => rfl
  | cons c s ih =>
    rw [List.flatMap_cons, List.append_assoc, stringBody_jsonChar, ih]
    rfl

/-- What may follow a number. -/
def NoDigitHead (rest : List Char) : Prop := ∀ c, rest.head? = some c → c.isDigit = false

theorem digits_span {ds rest : List Char} (hds : ∀ c ∈ ds, c.isDigit = true) (hrest : NoDigitHead rest) :
    (ds ++ rest).takeWhile Char.isDigit = ds ∧ (ds ++ rest).dropWhile Char.isDigit = rest := by
  have htake : rest.takeWhile Char.isDigit = [] := by
    cases rest with
    | nil => rfl
    | cons c rest => rw [List.takeWhile_cons_of_neg (by simp [hrest c rfl])]
  have hdrop : rest.dropWhile Char.isDigit = rest := by
    cases rest with
    | nil => rfl
    | cons c rest => rw [List.dropWhile_cons_of_neg (by simp [hrest c rfl])]
  constructor
  · rw [List.takeWhile_append_of_pos hds, htake, List.append_nil]
  · rw [List.dropWhile_append_of_pos hds, hdrop]

theorem parseScalar_natText (n : Nat) {rest : List Char} (hrest : NoDigitHead rest) :
    parseScalar (natText n ++ rest) = some (.num n, rest) := by
  have hall : ∀ c ∈ natText n, c.isDigit = true := fun c hc => Nat.isDigit_of_mem_toDigits (by omega) (by omega) hc
  cases htext : natText n with
  | nil => exact absurd htext Nat.toDigits_ne_nil
  | cons d ds =>
    rw [htext] at hall
    have hd : d.isDigit = true := hall d List.mem_cons_self
    have hquote : d ≠ '"' := by
      intro heq
      rw [heq] at hd
      exact absurd hd (by decide)
    obtain ⟨htake, hdrop⟩ := digits_span (fun c hc => hall c (List.mem_cons_of_mem _ hc)) hrest
    have hvalue : Nat.ofDigitChars 10 (d :: ds) 0 = n := by
      rw [← htext]
      exact Nat.ofDigitChars_ten_toDigits
    rw [List.cons_append, parseScalar, if_neg hquote, if_pos hd, htake, hdrop, hvalue]

theorem parseScalar_scalarText (v : JsonScalar) {rest : List Char} (hrest : NoDigitHead rest) :
    parseScalar (scalarText v ++ rest) = some (v, rest) := by
  cases v with
  | num n => exact parseScalar_natText n hrest
  | str s =>
    have htext : scalarText (.str s) ++ rest = '"' :: (s.flatMap jsonChar ++ '"' :: rest) := by
      simp [scalarText, jsonString]
    rw [htext, parseScalar, if_pos rfl, stringBody_jsonString]
    rfl

theorem parseMember_memberText (m : List Char × JsonScalar) {rest : List Char} (hrest : NoDigitHead rest) :
    parseMember (memberText m ++ rest) = some (m, rest) := by
  have htext : memberText m ++ rest =
      '"' :: (m.1.flatMap jsonChar ++ '"' :: ':' :: (scalarText m.2 ++ rest)) := by
    simp [memberText, jsonString]
  rw [htext, parseMember, stringBody_jsonString, Option.bind_some]
  show (parseScalar (scalarText m.2 ++ rest)).map _ = _
  rw [parseScalar_scalarText m.2 hrest]
  rfl

theorem noDigitHead_membersText (ms : List (List Char × JsonScalar)) : NoDigitHead (membersText ms) := by
  intro c hc
  cases ms with
  | nil =>
    cases hc
    rfl
  | cons m ms =>
    cases hc
    rfl

theorem parseMembers_membersText (ms : List (List Char × JsonScalar)) : ∀ {fuel : Nat}, ms.length < fuel →
    parseMembers fuel (membersText ms) = some ms := by
  induction ms with
  | nil =>
    intro fuel hfuel
    cases fuel with
    | zero => omega
    | succ fuel => rfl
  | cons m ms ih =>
    intro fuel hfuel
    cases fuel with
    | zero => omega
    | succ fuel =>
      have hne : membersText (m :: ms) ≠ ['\x7d'] := by
        intro heq
        cases heq
      have hfuel' : ms.length < fuel := by
        rw [List.length_cons] at hfuel
        omega
      rw [parseMembers, if_neg hne, membersText, List.head?_cons, if_pos rfl, List.tail_cons,
        parseMember_memberText m (noDigitHead_membersText ms), Option.bind_some, ih hfuel']
      rfl

theorem length_le_membersText (ms : List (List Char × JsonScalar)) : ms.length < (membersText ms).length := by
  induction ms with
  | nil => exact Nat.zero_lt_one
  | cons m ms ih =>
    rw [membersText, List.length_cons, List.length_cons, List.length_append]
    omega

theorem parse_objectText (ms : List (List Char × JsonScalar)) : parseObject (objectText ms) = some ms := by
  cases ms with
  | nil => rfl
  | cons m ms =>
    have hmember : memberText m ≠ [] := by
      intro hnil
      cases hnil
    have hne : objectText (m :: ms) ≠ ['\x7b', '\x7d'] := by
      intro heq
      cases heq
    have hlen : ms.length < (objectText (m :: ms)).length := by
      have h := length_le_membersText ms
      rw [objectText, List.length_cons, List.length_append]
      omega
    have hhead : (objectText (m :: ms)).head? = some '\x7b' := rfl
    rw [parseObject, if_neg hne, if_pos hhead]
    show ((parseMember (memberText m ++ membersText ms)).bind _) = _
    rw [parseMember_memberText m (noDigitHead_membersText ms), Option.bind_some,
      parseMembers_membersText ms hlen]
    rfl

end CaeloCms.Redirect
