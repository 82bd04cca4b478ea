import Mathlib

/-!
# Reading HTML as tokens

`step` is the HTML tokenizer, one character after the other, with one simplification: it does not build the tokens, it
only keeps what decides where they begin and end.  The content of a raw-text element is read as text up to its end tag;
which elements these are is a parameter, since it depends on whether scripts run.

`firstTag` is the first start tag of a name.  Its attributes are cut out of the text by `readAttrs`, each with the text
it is written as, so that two tags can be compared character by character.
-/

namespace HtmlTokens

def isSpace (c : Char) : Bool := c = '\t' || c = '\n' || c = '\x0c' || c = '\r' || c = ' '

def lower (name : List Char) : List Char := name.map Char.toLower

/-! ### The tokenizer -/

/-- How deep the text of a script is in `<!--` and in a `<script` behind one. -/
inductive Level
  | plain
  | escaped
  | doubled
deriving DecidableEq

/-- What is being read.  A tag keeps whether it is an end tag, and its name in lower case with the last letter first; a raw
text keeps the name of its element, its level and the dashes just read, at most two. -/
inductive Mode
  | data
  | tagOpen
  | endTagOpen
  | tagName (isEnd : Bool) (name : List Char)
  | beforeAttr (isEnd : Bool) (name : List Char)
  | attrName (isEnd : Bool) (name : List Char)
  | afterAttrName (isEnd : Bool) (name : List Char)
  | beforeValue (isEnd : Bool) (name : List Char)
  | quotedValue (isEnd : Bool) (name : List Char) (quote : Char)
  | unquotedValue (isEnd : Bool) (name : List Char)
  | afterValue (isEnd : Bool) (name : List Char)
  | selfClosing (isEnd : Bool) (name : List Char)
  | markup (text : List Char)
  | doctype
  | bogusComment
  | commentStart
  | commentStartDash
  | comment
  | commentDash
  | commentEnd
  | commentBang
  | raw (element : List Char) (level : Level) (dashes : Nat)
  | rawOpen (element : List Char) (level : Level)
  | rawBang
  | rawBangDash
  | rawEndOpen (element : List Char) (level : Level)
  | rawEndName (element : List Char) (level : Level) (name : List Char)
  | rawDouble (level : Level) (name : List Char)
  | plaintext
deriving DecidableEq

section

variable (isRaw : List Char → Bool)

/-- Behind the `>` of a tag. -/
def emitTag (isEnd : Bool) (name : List Char) : Mode :=
  if isEnd then .data
  else if name.reverse = "plaintext".toList then .plaintext
  else if isRaw name.reverse then .raw name.reverse .plain 0
  else .data

def stepData (c : Char) : Mode := if c = '<' then .tagOpen else .data

def stepBogus (c : Char) : Mode := if c = '>' then .data else .bogusComment

def stepBeforeAttr (isEnd : Bool) (name : List Char) (c : Char) : Mode :=
  if isSpace c then .beforeAttr isEnd name
  else if c = '/' then .selfClosing isEnd name
  else if c = '>' then emitTag isRaw isEnd name
  else .attrName isEnd name

def stepAfterAttrName (isEnd : Bool) (name : List Char) (c : Char) : Mode :=
  if isSpace c then .afterAttrName isEnd name
  else if c = '/' then .selfClosing isEnd name
  else if c = '=' then .beforeValue isEnd name
  else if c = '>' then emitTag isRaw isEnd name
  else .attrName isEnd name

def stepUnquoted (isEnd : Bool) (name : List Char) (c : Char) : Mode :=
  if isSpace c then .beforeAttr isEnd name else if c = '>' then emitTag isRaw isEnd name else .unquotedValue isEnd name

/-- After `<!`. -/
def stepMarkup (text : List Char) : Mode :=
  if text = ['-', '-'] then .commentStart
  else if lower text = "doctype".toList then .doctype
  else if text = ['-'] ∨ lower text <+: "doctype".toList then .markup text
  else stepBogus (text.getLastD ' ')

def stepComment (c : Char) : Mode := if c = '-' then .commentDash else .comment

/-- A raw text, `dashes` of which were just read. -/
def stepRaw (element : List Char) (level : Level) (dashes : Nat) (c : Char) : Mode :=
  if c = '<' then .rawOpen element level
  else if level = .plain then .raw element .plain 0
  else if c = '-' then .raw element level (min 2 (dashes + 1))
  else if c = '>' ∧ dashes = 2 then .raw element .plain 0
  else .raw element level 0

/-- After `<` in a raw text. -/
def stepRawOpen (element : List Char) (level : Level) (c : Char) : Mode :=
  if c = '/' then if level = .doubled then .rawDouble .doubled [] else .rawEndOpen element level
  else if c = '!' ∧ level = .plain ∧ element = "script".toList then .rawBang
  else if c.isAlpha = true ∧ level = .escaped then .rawDouble .escaped [c.toLower]
  else stepRaw element level 0 c

/-- The letters after `<` or `</` in the escaped text of a script: `script` opens or closes a level. -/
def stepRawDouble (level : Level) (name : List Char) (c : Char) : Mode :=
  if isSpace c = true ∨ c = '/' ∨ c = '>' then
    .raw "script".toList (if name.reverse = "script".toList then (if level = .escaped then .doubled else .escaped) else level) 0
  else if c.isAlpha then .rawDouble level (c.toLower :: name)
  else stepRaw "script".toList level 0 c

/-- The name after `</` in a raw text. -/
def stepRawEndName (element : List Char) (level : Level) (name : List Char) (c : Char) : Mode :=
  if c.isAlpha then .rawEndName element level (c.toLower :: name)
  else if name.reverse ≠ element then stepRaw element level 0 c
  else if isSpace c then .beforeAttr true name
  else if c = '/' then .selfClosing true name
  else if c = '>' then .data
  else stepRaw element level 0 c

/-- One character of a document. -/
def step (mode : Mode) (c : Char) : Mode :=
  match mode with
  | .data => stepData c
  | .tagOpen =>
    if c = '!' then .markup []
    else if c = '/' then .endTagOpen
    else if c.isAlpha then .tagName false [c.toLower]
    else if c = '?' then .bogusComment
    else stepData c
  | .endTagOpen => if c.isAlpha then .tagName true [c.toLower] else stepBogus c
  | .tagName isEnd name =>
    if isSpace c then .beforeAttr isEnd name
    else if c = '/' then .selfClosing isEnd name
    else if c = '>' then emitTag isRaw isEnd name
    else .tagName isEnd (c.toLower :: name)
  | .beforeAttr isEnd name => stepBeforeAttr isRaw isEnd name c
  | .attrName isEnd name =>
    if isSpace c = true ∨ c = '/' ∨ c = '>' then stepAfterAttrName isRaw isEnd name c
    else if c = '=' then .beforeValue isEnd name
    else .attrName isEnd name
  | .afterAttrName isEnd name => stepAfterAttrName isRaw isEnd name c
  | .beforeValue isEnd name =>
    if isSpace c then .beforeValue isEnd name
    else if c = '"' ∨ c = '\'' then .quotedValue isEnd name c
    else stepUnquoted isRaw isEnd name c
  | .quotedValue isEnd name quote => if c = quote then .afterValue isEnd name else .quotedValue isEnd name quote
  | .unquotedValue isEnd name => stepUnquoted isRaw isEnd name c
  | .afterValue isEnd name => stepBeforeAttr isRaw isEnd name c
  | .selfClosing isEnd name => stepBeforeAttr isRaw isEnd name c
  | .markup text => stepMarkup (text ++ [c])
  | .doctype => if c = '>' then .data else .doctype
  | .bogusComment => stepBogus c
  | .commentStart => if c = '-' then .commentStartDash else if c = '>' then .data else stepComment c
  | .commentStartDash => if c = '-' then .commentEnd else if c = '>' then .data else stepComment c
  | .comment => stepComment c
  | .commentDash => if c = '-' then .commentEnd else .comment
  | .commentEnd =>
    if c = '>' then .data else if c = '!' then .commentBang else if c = '-' then .commentEnd else .comment
  | .commentBang => if c = '-' then .commentDash else if c = '>' then .data else .comment
  | .raw element level dashes => stepRaw element level dashes c
  | .rawOpen element level => stepRawOpen element level c
  | .rawBang => if c = '-' then .rawBangDash else stepRaw "script".toList .plain 0 c
  | .rawBangDash => if c = '-' then .raw "script".toList .escaped 2 else stepRaw "script".toList .plain 0 c
  | .rawEndOpen element level =>
    if c.isAlpha then .rawEndName element level [c.toLower] else stepRaw element level 0 c
  | .rawEndName element level name => stepRawEndName element level name c
  | .rawDouble level name => stepRawDouble level name c
  | .plaintext => .plaintext

def run (mode : Mode) (text : List Char) : Mode := text.foldl (step isRaw) mode

end

/-! ### Attributes -/

/-- How the value of an attribute is written. -/
inductive Form
  | bare
  | unquoted
  | quoted
deriving DecidableEq

/-- What is written behind the name of an attribute, and the value in it. -/
structure ValuePart where
  form : Form
  text : List Char
  value : List Char
deriving DecidableEq

def endsName (c : Char) : Bool := isSpace c || c = '/' || c = '>' || c = '='

def endsUnquoted (c : Char) : Bool := isSpace c || c = '>'

def cutValue (text : List Char) : Option (ValuePart × List Char) :=
  let afterName := text.dropWhile isSpace
  if afterName.head? = some '=' then
    let lead := text.takeWhile isSpace ++ '=' :: afterName.tail.takeWhile isSpace
    match afterName.tail.dropWhile isSpace with
    | [] => some (⟨.unquoted, lead, []⟩, [])
    | c :: rest =>
      if c = '"' ∨ c = '\'' then
        if c ∈ rest then
          some (⟨.quoted, lead ++ c :: rest.takeWhile (· ≠ c) ++ [c], rest.takeWhile (· ≠ c)⟩,
            (rest.dropWhile (· ≠ c)).tail)
        else none
      else
        some (⟨.unquoted, lead ++ (c :: rest).takeWhile (!endsUnquoted ·), (c :: rest).takeWhile (!endsUnquoted ·)⟩,
          (c :: rest).dropWhile (!endsUnquoted ·))
  else some (⟨.bare, [], []⟩, text)

/-- White space and slashes, which may stand between attributes. -/
def isLead (c : Char) : Bool := isSpace c || c = '/'

/-- An attribute: the white space and the slashes before it, its name in lower case, and its value as it is written. -/
structure Attr where
  lead : List Char
  text : List Char
  name : List Char
  value : List Char
deriving DecidableEq

/-- The attributes of a tag, what stands between the last one and the `>`, and what follows the `>`. -/
structure Attrs where
  attrs : List Attr
  tail : List Char
  after : List Char
deriving DecidableEq

/-- The attributes at the start of the text; `fuel` is its length, which no tag has more attributes than. -/
def readAttrs : Nat → List Char → Option Attrs
  | 0, _ => none
  | fuel + 1, text =>
    match text.dropWhile isLead with
    | [] => none
    | c :: rest =>
      if c = '>' then some ⟨[], text.takeWhile isLead, rest⟩
      else
        let name := c :: rest.takeWhile (!endsName ·)
        (cutValue (rest.dropWhile (!endsName ·))).bind fun v =>
          (readAttrs fuel v.2).map fun more =>
            { more with attrs := ⟨text.takeWhile isLead, name ++ v.1.text, lower name, v.1.value⟩ :: more.attrs }

/-! ### The first start tag of a name -/

/-- A start tag: its `<` and name as they are written, its attributes and what stands before the `>`. -/
structure Tag where
  opener : List Char
  attrs : List Attr
  tail : List Char
deriving DecidableEq

def startsWithName (ends : Char → Bool) : List Char → List Char → Bool
  | [], [] => false
  | [], c :: _ => ends c
  | _ :: _, [] => false
  | a :: name, c :: text => c.toLower = a && startsWithName ends name text

def opensTag (ends : Char → Bool) (name : List Char) : List Char → Bool
  | [] => false
  | c :: text => c = '<' && startsWithName ends name text

def endsTagName (c : Char) : Bool := isSpace c || c = '/' || c = '>'

/-- A tag where it begins, and what precedes and follows it. -/
structure Found where
  before : List Char
  tag : Tag
  after : List Char
deriving DecidableEq

def Found.text (f : Found) : List Char :=
  f.before ++ (f.tag.opener ++ (f.tag.attrs.flatMap (fun a => a.lead ++ a.text) ++ (f.tag.tail ++ '>' :: f.after)))

def readTag (name text : List Char) : Option Found :=
  (readAttrs text.length (text.drop (name.length + 1))).map fun r =>
    ⟨[], ⟨text.take (name.length + 1), r.attrs, r.tail⟩, r.after⟩

def firstTagFrom (isRaw : List Char → Bool) (name : List Char) (mode : Mode) : List Char → Option Found
  | [] => none
  | c :: text =>
    if mode = .data ∧ opensTag endsTagName name (c :: text) = true then readTag name (c :: text)
    else (firstTagFrom isRaw name (step isRaw mode c) text).map fun f => { f with before := c :: f.before }

def firstTag (isRaw : List Char → Bool) (name text : List Char) : Option Found := firstTagFrom isRaw name .data text

def Tag.value? (tag : Tag) (name : List Char) : Option (List Char) :=
  (tag.attrs.find? fun a => a.name = name).map Attr.value

/-- The names and values of the attributes with other names. -/
def Tag.others (tag : Tag) (name : List Char) : List (List Char × List Char) :=
  (tag.attrs.filter fun a => a.name ≠ name).map fun a => (a.name, a.value)

/-- What is written in an attribute's place if attributes of a name are taken out with the white space before them. -/
def Attr.without (a : Attr) (name : List Char) : List Char :=
  if a.name = name then a.lead.rdropWhile isSpace else a.lead ++ a.text

def Tag.without (tag : Tag) (name : List Char) : List Char :=
  tag.opener ++ tag.attrs.flatMap (fun a => a.without name) ++ tag.tail

/-! ### Cutting values -/

def Ends (v : ValuePart) (next : List Char) : Prop :=
  match v.form with
  | .bare => (∃ c, next.head? = some c ∧ endsName c = true) ∧ (next.dropWhile isSpace).head? ≠ some '='
  | .unquoted => ∃ c, next.head? = some c ∧ endsUnquoted c = true ∧ (v.value = [] → isSpace c = false)
  | .quoted => True

inductive Written : ValuePart → Prop
  | bare : Written ⟨.bare, [], []⟩
  | unquoted {a b value : List Char} (ha : ∀ c ∈ a, isSpace c = true) (hb : ∀ c ∈ b, isSpace c = true)
      (hvalue : ∀ c ∈ value, endsUnquoted c = false) (hquote : ∀ c, value.head? = some c → ¬ (c = '"' ∨ c = '\'')) :
      Written ⟨.unquoted, a ++ '=' :: b ++ value, value⟩
  | quoted {a b value : List Char} {c : Char} (ha : ∀ c ∈ a, isSpace c = true) (hb : ∀ c ∈ b, isSpace c = true)
      (hc : c = '"' ∨ c = '\'') (hvalue : c ∉ value) : Written ⟨.quoted, a ++ '=' :: b ++ c :: value ++ [c], value⟩

theorem span_append {p : Char → Bool} {a b : List Char} (ha : ∀ c ∈ a, p c = true)
    (hb : ∀ c, b.head? = some c → p c = false) :
    (a ++ b).takeWhile p = a ∧ (a ++ b).dropWhile p = b := by
  have hnil : b.takeWhile p = [] ∧ b.dropWhile p = b := by
    cases b with
    | nil => exact ⟨rfl, rfl⟩
    | cons c b =>
      have hc : ¬ p c = true := by simp [hb c rfl]
      exact ⟨List.takeWhile_cons_of_neg hc, List.dropWhile_cons_of_neg hc⟩
  rw [List.takeWhile_append_of_pos ha, List.dropWhile_append_of_pos ha, hnil.1, hnil.2, List.append_nil]
  exact ⟨rfl, rfl⟩

theorem head_dropWhile {p : Char → Bool} {s : List Char} {c : Char} (h : (s.dropWhile p).head? = some c) :
    p c = false := by
  have hnot := List.head?_dropWhile_not p s
  rw [h] at hnot
  exact hnot

theorem all_takeWhile (p : Char → Bool) (s : List Char) : ∀ c ∈ s.takeWhile p, p c = true :=
  fun _ hc => List.mem_takeWhile_imp hc

theorem split_of_mem {c : Char} {s : List Char} (h : c ∈ s) :
    s = s.takeWhile (· ≠ c) ++ c :: (s.dropWhile (· ≠ c)).tail := by
  induction s with
  | nil => cases h
  | cons d s ih =>
    by_cases hd : d = c
    · subst hd
      simp
    · have hmem : c ∈ s := (List.mem_cons.mp h).resolve_left fun heq => hd heq.symm
      rw [List.takeWhile_cons_of_pos (by simpa using hd), List.dropWhile_cons_of_pos (by simpa using hd),
        List.cons_append, ← ih hmem]

theorem not_space_equals : isSpace '=' = false := by decide

variable {next text : List Char} {v : ValuePart}

theorem written_of_cutValue (h : cutValue text = some (v, next)) :
    Written v ∧ text = v.text ++ next := by
  unfold cutValue at h
  dsimp only at h
  by_cases heq : (text.dropWhile isSpace).head? = some '='
  · rw [if_pos heq] at h
    obtain ⟨after, hafter⟩ : ∃ after, text.dropWhile isSpace = '=' :: after := List.head?_eq_some_iff.mp heq
    have htext : text = text.takeWhile isSpace ++ '=' :: after := by
      rw [← hafter, List.takeWhile_append_dropWhile]
    rw [hafter, List.tail_cons] at h
    have hspaces := all_takeWhile isSpace text
    have hspaces' := all_takeWhile isSpace after
    have hsplit : after = after.takeWhile isSpace ++ after.dropWhile isSpace := List.takeWhile_append_dropWhile.symm
    cases hrest : after.dropWhile isSpace with
    | nil =>
      rw [hrest] at h hsplit
      obtain ⟨rfl, rfl⟩ := Prod.mk.inj (Option.some.inj h)
      have hw : Written ⟨.unquoted, text.takeWhile isSpace ++ '=' :: after.takeWhile isSpace ++ [], []⟩ :=
        .unquoted hspaces hspaces' (by simp) (by simp)
      rw [List.append_nil] at hw
      refine ⟨hw, ?_⟩
      rw [List.append_nil] at hsplit
      rw [List.append_nil, ← hsplit]
      exact htext
    | cons c rest =>
      rw [hrest] at h hsplit
      dsimp only at h
      by_cases hquote : c = '"' ∨ c = '\''
      · rw [if_pos hquote] at h
        by_cases hmem : c ∈ rest
        · rw [if_pos hmem] at h
          obtain ⟨rfl, rfl⟩ := Prod.mk.inj (Option.some.inj h)
          have hnot : c ∉ rest.takeWhile (· ≠ c) := fun hc => by simpa using List.mem_takeWhile_imp hc
          refine ⟨.quoted hspaces hspaces' hquote hnot, ?_⟩
          have hrest' := split_of_mem hmem
          calc text = text.takeWhile isSpace ++ '=' :: after := htext
            _ = text.takeWhile isSpace ++ '=' :: (after.takeWhile isSpace ++ c :: rest) := by rw [← hsplit]
            _ = text.takeWhile isSpace ++ '=' :: (after.takeWhile isSpace ++
                  c :: (rest.takeWhile (· ≠ c) ++ c :: (rest.dropWhile (· ≠ c)).tail)) := by rw [← hrest']
            _ = _ := by simp only [List.append_assoc, List.cons_append, List.nil_append]
        · rw [if_neg hmem] at h
          cases h
      · rw [if_neg hquote] at h
        obtain ⟨rfl, rfl⟩ := Prod.mk.inj (Option.some.inj h)
        have hall : ∀ d ∈ (c :: rest).takeWhile (!endsUnquoted ·), endsUnquoted d = false := fun d hd => by
          simpa using List.mem_takeWhile_imp hd
        have hhead : ∀ d, ((c :: rest).takeWhile (!endsUnquoted ·)).head? = some d → ¬ (d = '"' ∨ d = '\'') := by
          intro d hd
          by_cases hends : endsUnquoted c = true
          · rw [List.takeWhile_cons_of_neg (by simp [hends])] at hd
            cases hd
          · rw [List.takeWhile_cons_of_pos (by simpa using hends)] at hd
            obtain rfl := Option.some.inj hd
            exact hquote
        refine ⟨.unquoted hspaces hspaces' hall hhead, ?_⟩
        calc text = text.takeWhile isSpace ++ '=' :: after := htext
          _ = text.takeWhile isSpace ++ '=' :: (after.takeWhile isSpace ++ c :: rest) := by rw [← hsplit]
          _ = text.takeWhile isSpace ++ '=' :: (after.takeWhile isSpace ++
                ((c :: rest).takeWhile (!endsUnquoted ·) ++ (c :: rest).dropWhile (!endsUnquoted ·))) := by
            rw [List.takeWhile_append_dropWhile]
          _ = _ := by simp only [List.append_assoc, List.cons_append]
  · rw [if_neg heq] at h
    obtain ⟨rfl, rfl⟩ := Prod.mk.inj (Option.some.inj h)
    exact ⟨.bare, rfl⟩

theorem ends_of_cutValue (h : cutValue text = some (v, next)) (hne : next ≠ [])
    (hhead : ∀ c, text.head? = some c → endsName c = true) : Ends v next := by
  unfold cutValue at h
  dsimp only at h
  by_cases heq : (text.dropWhile isSpace).head? = some '='
  · rw [if_pos heq] at h
    cases hrest : (text.dropWhile isSpace).tail.dropWhile isSpace with
    | nil =>
      rw [hrest] at h
      exact absurd (Prod.mk.inj (Option.some.inj h)).2.symm hne
    | cons c rest =>
      rw [hrest] at h
      dsimp only at h
      have hc : isSpace c = false := head_dropWhile (by rw [hrest]; rfl)
      by_cases hquote : c = '"' ∨ c = '\''
      · rw [if_pos hquote] at h
        by_cases hmem : c ∈ rest
        · rw [if_pos hmem] at h
          obtain ⟨rfl, -⟩ := Prod.mk.inj (Option.some.inj h)
          trivial
        · rw [if_neg hmem] at h
          cases h
      · rw [if_neg hquote] at h
        obtain ⟨rfl, rfl⟩ := Prod.mk.inj (Option.some.inj h)
        obtain ⟨d, more, hd⟩ := List.exists_cons_of_ne_nil hne
        have hends : endsUnquoted d = true := by
          have hnot := head_dropWhile (p := (!endsUnquoted ·)) (s := c :: rest) (c := d) (by rw [hd]; rfl)
          simpa using hnot
        refine ⟨d, by rw [hd]; rfl, hends, fun hempty => ?_⟩
        have hfirst : endsUnquoted c = true := by
          by_contra hnot
          rw [List.takeWhile_cons_of_pos (by simpa using hnot)] at hempty
          cases hempty
        rw [List.dropWhile_cons_of_neg (by simp [hfirst])] at hd
        obtain ⟨rfl, -⟩ := List.cons.inj hd
        exact hc
  · rw [if_neg heq] at h
    obtain ⟨rfl, rfl⟩ := Prod.mk.inj (Option.some.inj h)
    obtain ⟨d, more, rfl⟩ := List.exists_cons_of_ne_nil hne
    exact ⟨⟨d, rfl, hhead d rfl⟩, heq⟩

theorem cutValue_append (hv : Written v) (hends : Ends v next) :
    cutValue (v.text ++ next) = some (v, next) := by
  cases hv with
  | bare =>
    unfold cutValue
    exact if_neg hends.2
  | @unquoted a b value ha hb hvalue hquote =>
    obtain ⟨c, hc, hcends, hempty⟩ := hends
    obtain ⟨more, rfl⟩ := List.head?_eq_some_iff.mp hc
    have htext : (a ++ '=' :: b ++ value) ++ c :: more = a ++ '=' :: (b ++ (value ++ c :: more)) := by simp
    obtain ⟨htake, hdrop⟩ := span_append (b := '=' :: (b ++ (value ++ c :: more))) ha
      (by rintro d ⟨⟩; exact not_space_equals)
    have hnext : ∀ d, (value ++ c :: more).head? = some d → isSpace d = false := by
      intro d hd
      cases value with
      | nil =>
        obtain rfl := Option.some.inj hd
        exact hempty rfl
      | cons e value =>
        obtain rfl := Option.some.inj hd
        have he := hvalue e List.mem_cons_self
        exact (Bool.or_eq_false_iff.mp he).1
    obtain ⟨htake', hdrop'⟩ := span_append hb hnext
    obtain ⟨htake'', hdrop''⟩ := span_append (p := (!endsUnquoted ·)) (a := value) (b := c :: more)
      (fun d hd => by simp [hvalue d hd]) (by rintro d ⟨⟩; simp [hcends])
    show cutValue ((a ++ '=' :: b ++ value) ++ c :: more) = _
    rw [htext]
    unfold cutValue
    dsimp only
    rw [hdrop, htake, List.head?_cons, if_pos rfl, List.tail_cons, hdrop', htake']
    obtain ⟨d, rest, hd⟩ : ∃ d rest, value ++ c :: more = d :: rest := List.exists_cons_of_ne_nil (by simp)
    have hnotQuote : ¬ (d = '"' ∨ d = '\'') := by
      cases value with
      | nil =>
        obtain ⟨rfl, -⟩ := List.cons.inj hd
        rintro (rfl | rfl) <;> exact absurd hcends (by decide)
      | cons e value =>
        obtain ⟨rfl, -⟩ := List.cons.inj hd
        exact hquote _ rfl
    rw [hd] at htake'' hdrop'' ⊢
    dsimp only
    rw [if_neg hnotQuote, htake'', hdrop'']
  | @quoted a b value c ha hb hc hvalue =>
    have htext : (a ++ '=' :: b ++ c :: value ++ [c]) ++ next = a ++ '=' :: (b ++ c :: (value ++ c :: next)) := by simp
    have hspace : isSpace c = false := by rcases hc with rfl | rfl <;> decide
    obtain ⟨htake, hdrop⟩ := span_append (b := '=' :: (b ++ c :: (value ++ c :: next))) ha
      (by rintro d ⟨⟩; exact not_space_equals)
    obtain ⟨htake', hdrop'⟩ := span_append (b := c :: (value ++ c :: next)) hb (by rintro d ⟨⟩; exact hspace)
    obtain ⟨htake'', hdrop''⟩ := span_append (p := (· ≠ c)) (a := value) (b := c :: next)
      (fun d hd => by simpa using fun heq : d = c => hvalue (heq ▸ hd)) (by rintro d ⟨⟩; simp)
    show cutValue ((a ++ '=' :: b ++ c :: value ++ [c]) ++ next) = _
    rw [htext]
    unfold cutValue
    dsimp only
    rw [hdrop, htake, List.head?_cons, if_pos rfl, List.tail_cons, hdrop', htake']
    dsimp only
    rw [if_pos hc, if_pos (by simp), htake'', hdrop'', List.tail_cons]

theorem Written.endsName (hv : Written v) (hends : Ends v next) :
    ∀ c, (v.text ++ next).head? = some c → endsName c = true := by
  have hsign : ∀ (a rest : List Char) (c : Char), (∀ d ∈ a, isSpace d = true) →
      (a ++ '=' :: rest).head? = some c → HtmlTokens.endsName c = true := by
    intro a rest c ha hc
    cases a with
    | nil =>
      obtain rfl := Option.some.inj hc
      decide
    | cons d a =>
      obtain rfl := Option.some.inj hc
      simp [HtmlTokens.endsName, ha _ List.mem_cons_self]
  intro c hc
  cases hv with
  | bare =>
    obtain ⟨⟨d, hd, hdends⟩, -⟩ := hends
    obtain rfl := Option.some.inj (hd.symm.trans hc)
    exact hdends
  | @unquoted a b value ha hb hvalue hquote => exact hsign a (b ++ value ++ next) c ha (by simpa using hc)
  | @quoted a b value q ha hb hq hvalue => exact hsign a (b ++ q :: value ++ [q] ++ next) c ha (by simpa using hc)

theorem readAttrs_text {fuel : Nat} {r : Attrs} (h : readAttrs fuel text = some r) :
    text = r.attrs.flatMap (fun a => a.lead ++ a.text) ++ (r.tail ++ '>' :: r.after) := by
  induction fuel generalizing text r with
  | zero => cases h
  | succ fuel ih =>
    rw [readAttrs] at h
    have hsplit : text = text.takeWhile isLead ++ text.dropWhile isLead := List.takeWhile_append_dropWhile.symm
    cases hrest : text.dropWhile isLead with
    | nil =>
      rw [hrest] at h
      cases h
    | cons c rest =>
      rw [hrest] at h hsplit
      dsimp only at h
      by_cases hc : c = '>'
      · rw [if_pos hc] at h
        obtain rfl := Option.some.inj h
        rw [hc] at hsplit
        exact hsplit
      · rw [if_neg hc] at h
        obtain ⟨v, hv, h⟩ := Option.bind_eq_some_iff.mp h
        obtain ⟨more, hmore, rfl⟩ := Option.map_eq_some_iff.mp h
        have hv' : cutValue (rest.dropWhile (!endsName ·)) = some (v.1, v.2) := hv
        have hcut := (written_of_cutValue hv').2
        calc text = text.takeWhile isLead ++ c :: rest := hsplit
          _ = text.takeWhile isLead ++ c :: (rest.takeWhile (!endsName ·) ++ (v.1.text ++ v.2)) := by
            rw [← hcut, List.takeWhile_append_dropWhile]
          _ = text.takeWhile isLead ++ c :: (rest.takeWhile (!endsName ·) ++ (v.1.text ++
                (more.attrs.flatMap (fun a => a.lead ++ a.text) ++ (more.tail ++ '>' :: more.after)))) := by
            rw [← ih hmore]
          _ = _ := by simp only [List.flatMap_cons, List.append_assoc, List.cons_append]

/-! ### Where a tag is found -/

section

variable {ends : Char → Bool} {isRaw : List Char → Bool} {name : List Char}

theorem startsWithName_append {d : Char} (hd : d.toLower ∉ name) (u t t' : List Char) :
    startsWithName ends name (u ++ d :: t) = startsWithName ends name (u ++ d :: t') := by
  induction u generalizing name with
  | nil =>
    cases name with
    | nil => rfl
    | cons a name =>
      have ha : (d.toLower = a) = False := eq_false fun heq => hd (heq ▸ List.mem_cons_self)
      simp [startsWithName, ha]
  | cons c u ih =>
    cases name with
    | nil => rfl
    | cons a name =>
      rw [List.cons_append, List.cons_append, startsWithName, startsWithName,
        ih fun hmem => hd (List.mem_cons_of_mem _ hmem)]

theorem opensTag_append {d : Char} (hd : d.toLower ∉ name) {u : List Char} (hu : u ≠ []) (t t' : List Char) :
    opensTag ends name (u ++ d :: t) = opensTag ends name (u ++ d :: t') := by
  obtain ⟨c, u, rfl⟩ := List.exists_cons_of_ne_nil hu
  rw [List.cons_append, List.cons_append, opensTag, opensTag, startsWithName_append hd u t t']

theorem opensTag_of_ne {c : Char} (hc : c ≠ '<') (text : List Char) : opensTag ends name (c :: text) = false := by
  simp [opensTag, hc]

variable {mode : Mode} {before text : List Char} {f : Found}

theorem firstTagFrom_cons {c : Char}
    (h : ¬ (mode = .data ∧ opensTag endsTagName name (c :: text) = true)) :
    firstTagFrom isRaw name mode (c :: text) =
      (firstTagFrom isRaw name (step isRaw mode c) text).map fun f => { f with before := c :: f.before } :=
  if_neg h

theorem readTag_of_firstTagFrom
    (h : firstTagFrom isRaw name mode text = some f) :
    ∃ t, text = f.before ++ t ∧ opensTag endsTagName name t = true ∧ readTag name t = some { f with before := [] } := by
  induction text generalizing mode f with
  | nil => cases h
  | cons c text ih =>
    by_cases hopens : mode = .data ∧ opensTag endsTagName name (c :: text) = true
    · rw [firstTagFrom, if_pos hopens] at h
      obtain ⟨r, hr, rfl⟩ := Option.map_eq_some_iff.mp h
      exact ⟨c :: text, rfl, hopens.2, h⟩
    · rw [firstTagFrom_cons hopens] at h
      obtain ⟨g, hg, rfl⟩ := Option.map_eq_some_iff.mp h
      obtain ⟨t, ht, hopensT, hread⟩ := ih hg
      exact ⟨t, by rw [ht]; rfl, hopensT, hread⟩

theorem text_of_firstTagFrom
    (h : firstTagFrom isRaw name mode text = some f) : text = f.text := by
  obtain ⟨t, rfl, -, hread⟩ := readTag_of_firstTagFrom h
  obtain ⟨r, hr, hf⟩ := Option.map_eq_some_iff.mp hread
  obtain ⟨-, htag, hafter⟩ := Found.mk.inj hf
  have hattrs := readAttrs_text hr
  rw [Found.text, ← htag, ← hafter]
  dsimp only
  rw [← hattrs, List.take_append_drop]

theorem firstTagFrom_replace (hname : '<' ∉ name) {t t' : List Char} {f' : Found}
    (h : firstTagFrom isRaw name mode (before ++ '<' :: t) = some f) (hbefore : f.before = before)
    (hopens : opensTag endsTagName name ('<' :: t') = true) (hread : readTag name ('<' :: t') = some f') :
    firstTagFrom isRaw name mode (before ++ '<' :: t') = some { f' with before := before } := by
  have hf' : f'.before = [] := by
    obtain ⟨r, -, rfl⟩ := Option.map_eq_some_iff.mp hread
    rfl
  induction before generalizing mode f with
  | nil =>
    have hmode : mode = .data := by
      by_contra hne
      rw [List.nil_append, firstTagFrom_cons fun hopens => hne hopens.1] at h
      obtain ⟨g, -, rfl⟩ := Option.map_eq_some_iff.mp h
      cases hbefore
    rw [List.nil_append, firstTagFrom, if_pos ⟨hmode, hopens⟩, hread, ← hf']
  | cons c before ih =>
    have hcongr : opensTag endsTagName name (c :: before ++ '<' :: t) = opensTag endsTagName name (c :: before ++ '<' :: t') :=
      opensTag_append hname (List.cons_ne_nil c before) t t'
    by_cases hhere : mode = .data ∧ opensTag endsTagName name (c :: (before ++ '<' :: t)) = true
    · rw [List.cons_append, firstTagFrom, if_pos hhere] at h
      obtain ⟨r, -, rfl⟩ := Option.map_eq_some_iff.mp h
      cases hbefore
    · rw [List.cons_append, firstTagFrom_cons hhere] at h
      obtain ⟨g, hg, rfl⟩ := Option.map_eq_some_iff.mp h
      rw [List.cons_append, List.cons_append] at hcongr
      rw [List.cons_append, firstTagFrom_cons (by rwa [← hcongr]), ih hg (List.cons.inj hbefore).2]
      rfl

/-- What comes before the tag is put in front. -/
def Found.behind (before : List Char) (f : Found) : Found := { f with before := before ++ f.before }

theorem firstTagFrom_text (h : ∀ c ∈ before, c ≠ '<') (t : List Char) :
    firstTagFrom isRaw name .data (before ++ t) = (firstTagFrom isRaw name .data t).map (Found.behind before) := by
  induction before with
  | nil =>
    rw [List.nil_append]
    cases firstTagFrom isRaw name .data t <;> rfl
  | cons c before ih =>
    have hc := h c List.mem_cons_self
    have hstep : step isRaw .data c = .data := if_neg hc
    have hclosed : ¬ (Mode.data = .data ∧ opensTag endsTagName name (c :: (before ++ t)) = true) := by
      rw [opensTag_of_ne hc]
      rintro ⟨-, ⟨⟩⟩
    rw [List.cons_append, firstTagFrom_cons hclosed, hstep, ih fun d hd => h d (List.mem_cons_of_mem _ hd),
      Option.map_map]
    rfl

theorem firstTagFrom_doctype (h : ∀ c ∈ before, c ≠ '>') (t : List Char) :
    firstTagFrom isRaw name .doctype (before ++ '>' :: t) =
      (firstTagFrom isRaw name .data t).map (Found.behind (before ++ ['>'])) := by
  induction before with
  | nil =>
    rw [List.nil_append, firstTagFrom_cons fun hopens => by cases hopens.1]
    rfl
  | cons c before ih =>
    have hstep : step isRaw .doctype c = .doctype := if_neg (h c List.mem_cons_self)
    rw [List.cons_append, firstTagFrom_cons fun hopens => (by cases hopens.1), hstep,
      ih fun d hd => h d (List.mem_cons_of_mem _ hd), Option.map_map]
    rfl

theorem firstTagFrom_markup {done rest : List Char} (h : lower (done ++ rest) = "doctype".toList) (hrest : rest ≠ [])
    (t : List Char) :
    firstTagFrom isRaw name (.markup done) (rest ++ t) =
      (firstTagFrom isRaw name .doctype t).map (Found.behind rest) := by
  induction rest generalizing done with
  | nil => exact absurd rfl hrest
  | cons c rest ih =>
    have hdone : lower (done ++ [c]) ++ lower rest = "doctype".toList := by
      rw [← h]
      simp [lower]
    have hdash : done ++ [c] ≠ ['-', '-'] := by
      intro heq
      rw [heq] at hdone
      exact absurd (List.cons.inj hdone).1 (by decide)
    rw [List.cons_append, firstTagFrom_cons (by rintro ⟨⟨⟩, -⟩)]
    by_cases hnil : rest = []
    · subst hnil
      have hlower : lower (done ++ [c]) = "doctype".toList := by simpa [lower] using hdone
      have hstep : step isRaw (.markup done) c = .doctype := by
        rw [step, stepMarkup, if_neg hdash, if_pos hlower]
      rw [hstep, List.nil_append]
      rfl
    · have hshort : lower (done ++ [c]) ≠ "doctype".toList := by
        intro heq
        rw [heq] at hdone
        have hlength := congrArg List.length hdone
        rw [List.length_append, Nat.add_eq_left, lower, List.length_map, List.length_eq_zero_iff] at hlength
        exact hnil hlength
      have hstep : step isRaw (.markup done) c = .markup (done ++ [c]) := by
        rw [step, stepMarkup, if_neg hdash, if_neg hshort, if_pos (.inr ⟨_, hdone⟩)]
      rw [hstep, ih (by rwa [List.append_assoc]) hnil, Option.map_map]
      rfl

theorem firstTagFrom_declaration {rest : List Char} (hrest : lower rest = "doctype".toList)
    (hbefore : ∀ c ∈ before, c ≠ '>') (hname : name.head? ≠ some '!') (hne : name ≠ []) (t : List Char) :
    firstTagFrom isRaw name .data ('<' :: '!' :: rest ++ (before ++ '>' :: t)) =
      (firstTagFrom isRaw name .data t).map (Found.behind ('<' :: '!' :: rest ++ (before ++ ['>']))) := by
  have hclosed : opensTag endsTagName name ('<' :: '!' :: (rest ++ (before ++ '>' :: t))) = false := by
    obtain ⟨a, name, rfl⟩ := List.exists_cons_of_ne_nil hne
    have ha : '!'.toLower ≠ a := fun heq => hname (by rw [← heq]; rfl)
    rw [opensTag, startsWithName, decide_eq_false ha]
    rfl
  have hrestne : rest ≠ [] := by
    rintro rfl
    cases hrest
  rw [List.cons_append, List.cons_append, firstTagFrom_cons (by rw [hclosed]; rintro ⟨-, ⟨⟩⟩)]
  have htagOpen : step isRaw .data '<' = .tagOpen := rfl
  have hmarkup : step isRaw .tagOpen '!' = .markup [] := rfl
  have hletters : firstTagFrom isRaw name (.markup []) (rest ++ (before ++ '>' :: t)) = _ :=
    firstTagFrom_markup (by rwa [List.nil_append]) hrestne _
  rw [htagOpen, firstTagFrom_cons (by rintro ⟨⟨⟩, -⟩), hmarkup, hletters, firstTagFrom_doctype hbefore]
  simp only [Option.map_map]
  cases firstTagFrom isRaw name .data t with
  | none => rfl
  | some f => simp [Found.behind]

end

end HtmlTokens
