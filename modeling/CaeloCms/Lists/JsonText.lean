import CaeloCms.Lists.Fields
import CaeloCms.Redirect.JsonText

/-!
# JSON texts tell values apart

`JSON.stringify` gives different values different texts (`stringify_injective`): a text shows where its value ends
(`stringify_cancel`).  A number is written as `String(n)` writes it, which `isNumberText` admits.
-/

namespace CaeloCms.Lists

open Redirect (isDigit jsonChar jsonString stringBody stringBody_jsonString)

/-- A character of `String(n)`. -/
def isNumberChar (c : Char) : Bool := isDigit c || ['-', '+', '.', 'e'].contains c

/-- `String(n)` of a finite number starts with a digit or a sign. -/
def isNumberText (t : String) : Bool :=
  (t.toList.head?.any fun c => isDigit c || c == '-') && t.toList.all isNumberChar

mutual

def numbersRead : Json → Bool
  | .num t => isNumberText t
  | .arr items => numbersReadItems items
  | .obj fields => numbersReadFields fields
  | .null | .bool _ | .str _ => true

def numbersReadItems : List Json → Bool
  | [] => true
  | v :: vs => numbersRead v && numbersReadItems vs

def numbersReadFields : Fields → Bool
  | [] => true
  | f :: fs => numbersRead f.2 && numbersReadFields fs

end

def Ends (rest : List Char) : Prop := ∀ c, rest.head? = some c → isNumberChar c = false

/-! ### The first character -/

/-- The kind of a value by its first character; `7` is none. -/
def headKind (c : Char) : Nat :=
  if c = 'n' then 0
  else if c = 't' then 1
  else if c = 'f' then 2
  else if c = '"' then 3
  else if c = '[' then 4
  else if c = '\x7b' then 5
  else if isDigit c || c == '-' then 6
  else 7

def kind : Json → Nat
  | .null => 0
  | .bool true => 1
  | .bool false => 2
  | .str _ => 3
  | .arr _ => 4
  | .obj _ => 5
  | .num _ => 6

theorem headKind_number {c : Char} (h : (isDigit c || c == '-') = true) : headKind c = 6 := by
  have hne : ∀ d : Char, (isDigit d || d == '-') = false → c ≠ d := by
    rintro d hd rfl
    rw [h] at hd
    cases hd
  unfold headKind
  rw [if_neg (hne 'n' (by decide)), if_neg (hne 't' (by decide)), if_neg (hne 'f' (by decide)),
    if_neg (hne '"' (by decide)), if_neg (hne '[' (by decide)), if_neg (hne '\x7b' (by decide)), if_pos h]

theorem stringify_head (v : Json) (h : numbersRead v = true) :
    ∃ c cs, stringify v = c :: cs ∧ headKind c = kind v := by
  cases v with
  | null => exact ⟨_, _, rfl, rfl⟩
  | bool b => cases b <;> exact ⟨_, _, rfl, rfl⟩
  | str s => exact ⟨_, _, rfl, rfl⟩
  | arr items => exact ⟨_, _, rfl, rfl⟩
  | obj fields => exact ⟨_, _, rfl, rfl⟩
  | num t =>
    unfold numbersRead isNumberText at h
    rw [Bool.and_eq_true] at h
    cases ht : t.toList with
    | nil =>
      rw [ht] at h
      cases h.1
    | cons c cs =>
      rw [ht] at h
      exact ⟨c, cs, ht, headKind_number h.1⟩

theorem kind_eq {v w : Json} {rest rest' : List Char} (hv : numbersRead v = true) (hw : numbersRead w = true)
    (h : stringify v ++ rest = stringify w ++ rest') : kind v = kind w := by
  obtain ⟨c, cs, hc, hkind⟩ := stringify_head v hv
  obtain ⟨d, ds, hd, hkind'⟩ := stringify_head w hw
  rw [hc, hd, List.cons_append, List.cons_append] at h
  obtain ⟨rfl, -⟩ := List.cons.inj h
  exact hkind.symm.trans hkind'

/-- No text of a value starts with the bracket that closes an array or an object. -/
theorem stringify_ne_close {v : Json} {rest rest' : List Char} {c : Char} (hv : numbersRead v = true)
    (hc : headKind c = 7) : stringify v ++ rest ≠ c :: rest' := by
  obtain ⟨d, ds, hd, hkind⟩ := stringify_head v hv
  intro h
  rw [hd, List.cons_append] at h
  obtain ⟨rfl, -⟩ := List.cons.inj h
  rw [hc] at hkind
  cases v with
  | bool b => cases b <;> cases hkind
  | null => cases hkind
  | num t => cases hkind
  | str s => cases hkind
  | arr items => cases hkind
  | obj fields => cases hkind

/-! ### The end of a text -/

theorem jsonString_prefix {s s' rest rest' : List Char} (h : jsonString s ++ rest = jsonString s' ++ rest') :
    s = s' ∧ rest = rest' := by
  have hbody : ∀ s rest, jsonString s ++ rest = '"' :: (s.flatMap jsonChar ++ '"' :: rest) := by
    intro s rest
    simp [jsonString]
  rw [hbody, hbody, List.cons.injEq] at h
  have hread := stringBody_jsonString s rest
  rw [h.2, stringBody_jsonString, Option.some.injEq, Prod.mk.injEq] at hread
  exact ⟨hread.1.symm, hread.2.symm⟩

theorem number_prefix {t t' : List Char} {rest rest' : List Char} (ht : t.all isNumberChar = true)
    (ht' : t'.all isNumberChar = true) (hends : Ends rest) (hends' : Ends rest') (h : t ++ rest = t' ++ rest') :
    t = t' ∧ rest = rest' := by
  have htake : ∀ {t rest : List Char}, t.all isNumberChar = true → Ends rest →
      (t ++ rest).takeWhile isNumberChar = t := by
    intro t rest ht hends
    rw [List.takeWhile_append_of_pos (List.all_eq_true.1 ht)]
    cases rest with
    | nil => simp
    | cons c rest => rw [List.takeWhile_cons_of_neg (by simp [hends c rfl]), List.append_nil]
  have heq : t = t' := by rw [← htake ht hends, h, htake ht' hends']
  subst heq
  exact ⟨rfl, List.append_cancel_left h⟩

/-- The members after the first one. -/
def itemsTail : List Json → List Char
  | [] => []
  | v :: vs => ',' :: stringifyItems (v :: vs)

def fieldsTail : Fields → List Char
  | [] => []
  | f :: fs => ',' :: stringifyFields (f :: fs)

theorem stringifyItems_cons (v : Json) (vs : List Json) : stringifyItems (v :: vs) = stringify v ++ itemsTail vs := by
  cases vs with
  | nil => simp [stringifyItems, itemsTail]
  | cons w ws => simp [stringifyItems, itemsTail]

theorem stringifyFields_cons (f : String × Json) (fs : Fields) :
    stringifyFields (f :: fs) = jsonString f.1.toList ++ ':' :: (stringify f.2 ++ fieldsTail fs) := by
  cases fs with
  | nil => simp [stringifyFields, fieldsTail]
  | cons g gs => simp [stringifyFields, fieldsTail]

theorem ends_itemsTail (vs : List Json) (rest : List Char) : Ends (itemsTail vs ++ ']' :: rest) := by
  cases vs with
  | nil =>
    intro c hc
    cases hc
    rfl
  | cons v vs =>
    intro c hc
    cases hc
    rfl

theorem ends_fieldsTail (fs : Fields) (rest : List Char) : Ends (fieldsTail fs ++ '\x7d' :: rest) := by
  cases fs with
  | nil =>
    intro c hc
    cases hc
    rfl
  | cons f fs =>
    intro c hc
    cases hc
    rfl

mutual

theorem stringify_cancel (v w : Json) {rest rest' : List Char} (hv : numbersRead v = true) (hw : numbersRead w = true)
    (hends : Ends rest) (hends' : Ends rest') (h : stringify v ++ rest = stringify w ++ rest') :
    v = w ∧ rest = rest' := by
  have hkind := kind_eq hv hw h
  cases v with
  | null =>
    cases w with
    | null => exact ⟨rfl, List.append_cancel_left h⟩
    | bool b => cases b <;> cases hkind
    | _ => cases hkind
  | bool b =>
    cases w with
    | bool b' =>
      cases b <;> cases b'
      · exact ⟨rfl, List.append_cancel_left h⟩
      · cases hkind
      · cases hkind
      · exact ⟨rfl, List.append_cancel_left h⟩
    | _ => cases b <;> cases hkind
  | num t =>
    cases w with
    | num t' =>
      unfold numbersRead isNumberText at hv hw
      rw [Bool.and_eq_true] at hv hw
      obtain ⟨htext, hrest⟩ := number_prefix hv.2 hw.2 hends hends' h
      exact ⟨by rw [String.toList_injective htext], hrest⟩
    | bool b => cases b <;> cases hkind
    | _ => cases hkind
  | str s =>
    cases w with
    | str s' =>
      obtain ⟨htext, hrest⟩ := jsonString_prefix h
      exact ⟨by rw [String.toList_injective htext], hrest⟩
    | bool b => cases b <;> cases hkind
    | _ => cases hkind
  | arr items =>
    cases w with
    | arr items' =>
      have hitems : stringifyItems items ++ ']' :: rest = stringifyItems items' ++ ']' :: rest' := by
        simpa [stringify] using h
      obtain ⟨heq, hrest⟩ := stringifyItems_prefix items items' hv hw hitems
      exact ⟨by rw [heq], hrest⟩
    | bool b => cases b <;> cases hkind
    | _ => cases hkind
  | obj fields =>
    cases w with
    | obj fields' =>
      have hfields : stringifyFields fields ++ '\x7d' :: rest = stringifyFields fields' ++ '\x7d' :: rest' := by
        simpa [stringify] using h
      obtain ⟨heq, hrest⟩ := stringifyFields_prefix fields fields' hv hw hfields
      exact ⟨by rw [heq], hrest⟩
    | bool b => cases b <;> cases hkind
    | _ => cases hkind

theorem stringifyItems_prefix (vs ws : List Json) {rest rest' : List Char} (hv : numbersReadItems vs = true)
    (hw : numbersReadItems ws = true) (h : stringifyItems vs ++ ']' :: rest = stringifyItems ws ++ ']' :: rest') :
    vs = ws ∧ rest = rest' := by
  cases vs with
  | nil =>
    cases ws with
    | nil => exact ⟨rfl, (List.cons.inj h).2⟩
    | cons w ws =>
      unfold numbersReadItems at hw
      rw [Bool.and_eq_true] at hw
      rw [stringifyItems_cons, List.append_assoc] at h
      exact absurd h.symm (stringify_ne_close hw.1 rfl)
  | cons v vs =>
    unfold numbersReadItems at hv
    rw [Bool.and_eq_true] at hv
    cases ws with
    | nil =>
      rw [stringifyItems_cons, List.append_assoc] at h
      exact absurd h (stringify_ne_close hv.1 rfl)
    | cons w ws =>
      unfold numbersReadItems at hw
      rw [Bool.and_eq_true] at hw
      rw [stringifyItems_cons, stringifyItems_cons, List.append_assoc, List.append_assoc] at h
      obtain ⟨rfl, htail⟩ := stringify_cancel v w hv.1 hw.1 (ends_itemsTail vs rest) (ends_itemsTail ws rest') h
      have hrest : vs = ws ∧ rest = rest' := by
        cases vs with
        | nil =>
          cases ws with
          | nil => exact ⟨rfl, (List.cons.inj htail).2⟩
          | cons w ws => cases htail
        | cons v' vs =>
          cases ws with
          | nil => cases htail
          | cons w' ws => exact stringifyItems_prefix (v' :: vs) (w' :: ws) hv.2 hw.2 (List.cons.inj htail).2
      exact ⟨by rw [hrest.1], hrest.2⟩

theorem stringifyFields_prefix (fs gs : Fields) {rest rest' : List Char} (hf : numbersReadFields fs = true)
    (hg : numbersReadFields gs = true)
    (h : stringifyFields fs ++ '\x7d' :: rest = stringifyFields gs ++ '\x7d' :: rest') : fs = gs ∧ rest = rest' := by
  cases fs with
  | nil =>
    cases gs with
    | nil => exact ⟨rfl, (List.cons.inj h).2⟩
    | cons g gs =>
      rw [stringifyFields_cons] at h
      cases h
  | cons f fs =>
    obtain ⟨k, v⟩ := f
    unfold numbersReadFields at hf
    rw [Bool.and_eq_true] at hf
    cases gs with
    | nil =>
      rw [stringifyFields_cons] at h
      cases h
    | cons g gs =>
      obtain ⟨k', w⟩ := g
      unfold numbersReadFields at hg
      rw [Bool.and_eq_true] at hg
      rw [stringifyFields_cons, stringifyFields_cons, List.append_assoc, List.append_assoc] at h
      obtain ⟨hkey, hvalue⟩ := jsonString_prefix h
      rw [List.cons_append, List.cons_append, List.append_assoc, List.append_assoc] at hvalue
      obtain ⟨rfl, htail⟩ := stringify_cancel v w hf.1 hg.1 (ends_fieldsTail fs rest) (ends_fieldsTail gs rest')
        (List.cons.inj hvalue).2
      have hrest : fs = gs ∧ rest = rest' := by
        cases fs with
        | nil =>
          cases gs with
          | nil => exact ⟨rfl, (List.cons.inj htail).2⟩
          | cons g gs => cases htail
        | cons f' fs =>
          cases gs with
          | nil => cases htail
          | cons g' gs => exact stringifyFields_prefix (f' :: fs) (g' :: gs) hf.2 hg.2 (List.cons.inj htail).2
      have hname : k = k' := String.toList_injective hkey
      exact ⟨by rw [hname, hrest.1], hrest.2⟩

end

theorem stringify_injective {v w : Json} (hv : numbersRead v = true) (hw : numbersRead w = true)
    (h : stringify v = stringify w) : v = w := by
  have hends : Ends [] := by
    intro c hc
    cases hc
  refine (stringify_cancel v w hv hw hends hends ?_).1
  rw [h]

end CaeloCms.Lists
