import Mathlib

/-!
# Reading a stylesheet

CSS Syntax cuts a stylesheet into tokens and the tokens into rules and declarations.  What decides where a rule or a
declaration ends is which `{`, `;` and `}` are tokens of their own and lie in no bracket: `step` keeps track of that,
one character after the other, and `read` collects the rules.  (A `<!--`, which may stand between rules, is not told from
other text.)

A text is *contained* when reading it leaves nothing open (`Contained`).  A block of declarations is read as it was
written exactly when all its values are contained (`read_sheetText_iff`).
-/

namespace Css

/-! ### Tokens -/

def isNewline (c : Char) : Bool := c = '\n' || c = '\r' || c = '\x0c'

def isWhitespace (c : Char) : Bool := isNewline c || c = '\t' || c = ' '

/-- A character of a name; a NUL is read as U+FFFD. -/
def isNameChar (c : Char) : Bool := c.isAlphanum || c = '_' || c = '-' || 0x80 ≤ c.toNat || c.toNat = 0

def hexValue (c : Char) : Option Nat :=
  if c.isDigit then some (c.toNat - 48)
  else if 'a' ≤ c ∧ c ≤ 'f' then some (c.toNat - 87)
  else if 'A' ≤ c ∧ c ≤ 'F' then some (c.toNat - 55)
  else none

/-- What is being read.  `plain` keeps the characters of the name that is being read, the last one first, or `none` for a
name after `#` or `@`; an escape keeps them too. -/
inductive Mode
  | plain (name : Option (List Char))
  | slash
  | comment (star : Bool)
  | escape (name : Option (List Char))
  | hex (name : Option (List Char)) (digits value : Nat)
  | escapedReturn (name : Option (List Char))
  | string (quote : Char)
  | stringEscape (quote : Char)
  | stringReturn (quote : Char)
  | urlStart
  | url
  | urlEscape
deriving DecidableEq

/-- A mode and the closing brackets that are awaited, the innermost first. -/
structure State where
  mode : Mode
  awaited : List Char
deriving DecidableEq

/-- Between two tokens and in no bracket. -/
def start : State := ⟨.plain (some []), []⟩

/-- `url(` begins a token of its own. -/
def isUrl (name : Option (List Char)) : Bool := name.map (List.map Char.toLower) = some ['l', 'r', 'u']

def close (c : Char) (awaited : List Char) : List Char := if awaited.head? = some c then awaited.tail else awaited

/-- One character outside strings, comments, escapes and urls. -/
def stepPlain (name : Option (List Char)) (awaited : List Char) (c : Char) : State :=
  if isNameChar c then ⟨.plain (name.map (c :: ·)), awaited⟩
  else if c = '\\' then ⟨.escape name, awaited⟩
  else if c = '"' ∨ c = '\'' then ⟨.string c, awaited⟩
  else if c = '/' then ⟨.slash, awaited⟩
  else if c = '#' ∨ c = '@' then ⟨.plain none, awaited⟩
  else if c = '(' then if isUrl name then ⟨.urlStart, awaited⟩ else ⟨.plain (some []), ')' :: awaited⟩
  else if c = '[' then ⟨.plain (some []), ']' :: awaited⟩
  else if c = '\x7b' then ⟨.plain (some []), '\x7d' :: awaited⟩
  else ⟨.plain (some []), close c awaited⟩

def stepString (quote : Char) (awaited : List Char) (c : Char) : State :=
  if c = quote ∨ isNewline c = true then ⟨.plain (some []), awaited⟩
  else if c = '\\' then ⟨.stringEscape quote, awaited⟩
  else ⟨.string quote, awaited⟩

def stepUrl (awaited : List Char) (c : Char) : State :=
  if c = ')' then ⟨.plain (some []), awaited⟩ else if c = '\\' then ⟨.urlEscape, awaited⟩ else ⟨.url, awaited⟩

/-- One character of a stylesheet. -/
def step (s : State) (c : Char) : State :=
  match s.mode with
  | .plain name => stepPlain name s.awaited c
  | .slash => if c = '*' then ⟨.comment false, s.awaited⟩ else stepPlain (some []) s.awaited c
  | .comment star =>
    if star = true ∧ c = '/' then ⟨.plain (some []), s.awaited⟩ else ⟨.comment (decide (c = '*')), s.awaited⟩
  | .escape name =>
    if isNewline c then ⟨.plain (some []), s.awaited⟩
    else
      match hexValue c with
      | none => ⟨.plain (name.map (c :: ·)), s.awaited⟩
      | some digit => ⟨.hex name 1 digit, s.awaited⟩
  | .hex name digits value =>
    match hexValue c with
    | none =>
      if c = '\r' then ⟨.escapedReturn (name.map (Char.ofNat value :: ·)), s.awaited⟩
      else if isWhitespace c then ⟨.plain (name.map (Char.ofNat value :: ·)), s.awaited⟩
      else stepPlain (name.map (Char.ofNat value :: ·)) s.awaited c
    | some digit =>
      if digits < 6 then ⟨.hex name (digits + 1) (16 * value + digit), s.awaited⟩
      else stepPlain (name.map (Char.ofNat value :: ·)) s.awaited c
  | .escapedReturn name => if c = '\n' then ⟨.plain name, s.awaited⟩ else stepPlain name s.awaited c
  | .string quote => stepString quote s.awaited c
  | .stringEscape quote => if c = '\r' then ⟨.stringReturn quote, s.awaited⟩ else ⟨.string quote, s.awaited⟩
  | .stringReturn quote => if c = '\n' then ⟨.string quote, s.awaited⟩ else stepString quote s.awaited c
  | .urlStart =>
    if isWhitespace c then s
    else if c = '"' ∨ c = '\'' then ⟨.string c, ')' :: s.awaited⟩
    else stepUrl s.awaited c
  | .url => stepUrl s.awaited c
  | .urlEscape => ⟨.url, s.awaited⟩

def run (s : State) (text : List Char) : State := text.foldl step s

/-- The next `{`, `;` or `}` is a token of its own. -/
def Mode.isFree : Mode → Bool
  | .plain _ => true
  | .slash => true
  | .hex _ _ _ => true
  | .escapedReturn _ => true
  | _ => false

/-- The next `{`, `;` or `}` is a token of its own and lies in no bracket. -/
def State.isOpen (s : State) : Bool := s.mode.isFree && s.awaited.isEmpty

/-! ### Rules and declarations -/

/-- A rule and the texts between the `;` of its block. -/
structure Rule where
  prelude : List Char
  items : List (List Char)
deriving DecidableEq

/-- The text since the last boundary, the block that is open with the items it has, and the rules that are done. -/
structure Reading where
  state : State
  text : List Char
  block : Option (List Char × List (List Char))
  rules : List Rule

def addItem (text : List Char) (items : List (List Char)) : List (List Char) :=
  if text.all isWhitespace then items else items ++ [text]

def Reading.push (r : Reading) (c : Char) : Reading := { r with state := step r.state c, text := r.text ++ [c] }

def readChar (r : Reading) (c : Char) : Reading :=
  if r.state.isOpen then
    match r.block with
    | none => if c = '\x7b' then ⟨start, [], some (r.text, []), r.rules⟩ else r.push c
    | some block =>
      if c = ';' then ⟨start, [], some (block.1, addItem r.text block.2), r.rules⟩
      else if c = '\x7d' then ⟨start, [], none, r.rules ++ [⟨block.1, addItem r.text block.2⟩]⟩
      else r.push c
  else r.push c

/-- The end of the stylesheet closes what is open. -/
def Reading.finish (r : Reading) : List Rule :=
  match r.block with
  | none => r.rules
  | some block => r.rules ++ [⟨block.1, addItem r.text block.2⟩]

def read (css : List Char) : List Rule := (css.foldl readChar ⟨start, [], none, []⟩).finish

def declarationFrom (s : State) : List Char → Option (List Char × List Char)
  | [] => none
  | c :: text =>
    if c = ':' ∧ s.isOpen = true then some ([], text)
    else (declarationFrom (step s c) text).map fun d => (c :: d.1, d.2)

/-- An item as a declaration: its name and the value after the colon. -/
def declaration? (text : List Char) : Option (List Char × List Char) := declarationFrom start text

def Contained (text : List Char) : Prop := (run start text).isOpen = true

instance : DecidablePred Contained := fun text => inferInstanceAs (Decidable ((run start text).isOpen = true))

/-- A character at which a rule or a declaration may end. -/
def isBoundary (c : Char) : Bool := c = '\x7b' || c = ';' || c = '\x7d'

/-- The text has no character at which a rule or a declaration may end. -/
def Unbounded (text : List Char) : Prop := ∀ c ∈ text, isBoundary c = false

theorem run_append (s : State) (a b : List Char) : run s (a ++ b) = run (run s a) b := List.foldl_append

theorem declarationFrom_eq_some {s : State} {text : List Char} {d : List Char × List Char}
    (h : declarationFrom s text = some d) : text = d.1 ++ ':' :: d.2 := by
  induction text generalizing s d with
  | nil => cases h
  | cons c text ih =>
    rw [declarationFrom] at h
    by_cases hcolon : c = ':' ∧ s.isOpen = true
    · rw [if_pos hcolon] at h
      cases h
      rw [hcolon.1]
      rfl
    · rw [if_neg hcolon] at h
      obtain ⟨d', hd', rfl⟩ := Option.map_eq_some_iff.mp h
      rw [ih hd']
      rfl

theorem declarationFrom_append {s : State} {name : List Char} (hcolon : ':' ∉ name)
    (hopen : (run s name).isOpen = true) (value : List Char) :
    declarationFrom s (name ++ ':' :: value) = some (name, value) := by
  induction name generalizing s with
  | nil => exact if_pos ⟨rfl, hopen⟩
  | cons c name ih =>
    have hc : ¬ (c = ':' ∧ s.isOpen = true) := by
      rintro ⟨rfl, _⟩
      exact hcolon List.mem_cons_self
    rw [List.cons_append, declarationFrom, if_neg hc, ih (fun h => hcolon (List.mem_cons_of_mem _ h)) hopen]
    rfl

/-! ### Blocks -/

variable {items : List (List Char)} {r : Reading} {prelude : List Char}

theorem readChar_push {c : Char} (hc : isBoundary c = false) : readChar r c = r.push c := by
  unfold isBoundary at hc
  simp only [Bool.or_eq_false_iff, decide_eq_false_iff_not] at hc
  unfold readChar
  by_cases hopen : r.state.isOpen = true
  · rw [if_pos hopen]
    cases r.block with
    | none => simp [hc]
    | some block => simp [hc]
  · rw [if_neg hopen]

theorem foldl_readChar {text : List Char} (h : Unbounded text) (r : Reading) :
    text.foldl readChar r = { r with state := run r.state text, text := r.text ++ text } := by
  induction text generalizing r with
  | nil => simp [run]
  | cons c text ih =>
    rw [List.foldl_cons, readChar_push (h c List.mem_cons_self), ih fun c hc => h c (List.mem_cons_of_mem _ hc)]
    simp [Reading.push, run]

theorem readChar_block (hblock : r.block = some (prelude, items))
    (c : Char) :
    readChar r c = r.push c ∨ readChar r c = ⟨start, [], some (prelude, addItem r.text items), r.rules⟩ ∨
      readChar r c = ⟨start, [], none, r.rules ++ [⟨prelude, addItem r.text items⟩]⟩ := by
  unfold readChar
  by_cases hopen : r.state.isOpen = true
  · rw [if_pos hopen, hblock]
    dsimp only
    by_cases hsemi : c = ';'
    · rw [if_pos hsemi]
      exact .inr (.inl rfl)
    · rw [if_neg hsemi]
      by_cases hclose : c = '\x7d'
      · rw [if_pos hclose]
        exact .inr (.inr rfl)
      · rw [if_neg hclose]
        exact .inl rfl
  · rw [if_neg hopen]
    exact .inl rfl

theorem prefix_addItem (text : List Char) (items : List (List Char)) : items <+: addItem text items := by
  unfold addItem
  by_cases hblank : text.all isWhitespace = true
  · rw [if_pos hblank]
  · rw [if_neg hblank]
    exact List.prefix_append _ _

/-- Rules that are done stay, and so does a block that is open, with the items it has. -/
theorem finish_rules (css : List Char) (r : Reading) :
    ∃ more, (css.foldl readChar r).finish = r.rules ++ more ∧
      ∀ prelude items, r.block = some (prelude, items) → ∃ items' rest, more = ⟨prelude, items'⟩ :: rest ∧ items <+: items' := by
  induction css generalizing r with
  | nil =>
    cases hblock : r.block with
    | none =>
      refine ⟨[], ?_, by rintro _ _ ⟨⟩⟩
      simp [Reading.finish, hblock]
    | some block =>
      refine ⟨[⟨block.1, addItem r.text block.2⟩], by simp [Reading.finish, hblock], ?_⟩
      rintro prelude items ⟨⟩
      exact ⟨_, [], rfl, prefix_addItem _ _⟩
  | cons c css ih =>
    rw [List.foldl_cons]
    obtain ⟨more, hmore, hfirst⟩ := ih (readChar r c)
    cases hblock : r.block with
    | none =>
      have hrules : (readChar r c).rules = r.rules := by
        unfold readChar
        rw [hblock]
        by_cases hopen : r.state.isOpen = true <;> by_cases hc : c = '\x7b' <;> simp [hopen, hc, Reading.push]
      exact ⟨more, by rw [hmore, hrules], by rintro _ _ ⟨⟩⟩
    | some block =>
      obtain ⟨prelude, items⟩ := block
      rcases readChar_block hblock c with heq | heq | heq
      · rw [heq] at hmore hfirst ⊢
        refine ⟨more, hmore, ?_⟩
        rintro _ _ ⟨⟩
        exact hfirst prelude items hblock
      · rw [heq] at hmore hfirst ⊢
        refine ⟨more, hmore, ?_⟩
        rintro _ _ ⟨⟩
        obtain ⟨items', rest, hrest, hprefix⟩ := hfirst _ _ rfl
        exact ⟨items', rest, hrest, (prefix_addItem _ _).trans hprefix⟩
      · rw [heq] at hmore ⊢
        refine ⟨⟨prelude, addItem r.text items⟩ :: more, by rw [hmore]; simp, ?_⟩
        rintro _ _ ⟨⟩
        exact ⟨_, more, rfl, prefix_addItem _ _⟩

/-- A text that has begun ends up at the beginning of the next item. -/
theorem finish_text (css : List Char)
    (hblock : r.block = some (prelude, items)) (htext : r.text.all isWhitespace = false) :
    ∃ item items' rest, (css.foldl readChar r).finish = r.rules ++ ⟨prelude, items ++ item :: items'⟩ :: rest ∧
      r.text <+: item := by
  have hadd : ∀ text : List Char, text.all isWhitespace = false → addItem text items = items ++ [text] := by
    intro text hblank
    rw [addItem, if_neg (by simp [hblank])]
  induction css generalizing r with
  | nil => exact ⟨r.text, [], [], by simp [Reading.finish, hblock, hadd r.text htext], List.prefix_rfl⟩
  | cons c css ih =>
    rw [List.foldl_cons]
    rcases readChar_block hblock c with heq | heq | heq
    · rw [heq]
      have hpush : (r.push c).text.all isWhitespace = false := by simp [Reading.push, htext]
      obtain ⟨item, items', rest, hfinish, hprefix⟩ := ih (r := r.push c) hblock hpush
      exact ⟨item, items', rest, hfinish, (List.prefix_append _ _).trans hprefix⟩
    · rw [heq, hadd r.text htext]
      obtain ⟨more, hmore, hfirst⟩ := finish_rules css ⟨start, [], some (prelude, items ++ [r.text]), r.rules⟩
      obtain ⟨items', rest, rfl, ⟨tail, rfl⟩⟩ := hfirst _ _ rfl
      exact ⟨r.text, tail, rest, by rw [hmore]; simp, List.prefix_rfl⟩
    · rw [heq, hadd r.text htext]
      obtain ⟨more, hmore, _⟩ := finish_rules css ⟨start, [], none, r.rules ++ [⟨prelude, items ++ [r.text]⟩]⟩
      exact ⟨r.text, [], more, by rw [hmore]; simp, List.prefix_rfl⟩

def blockText (items : List (List Char)) : List Char := items.flatMap fun item => item ++ [';']

theorem blockText_cons (item : List Char) (items : List (List Char)) :
    blockText (item :: items) = (item ++ [';']) ++ blockText items := rfl

def sheetText (rules : List Rule) : List Char :=
  rules.flatMap fun rule => rule.prelude ++ '\x7b' :: blockText rule.items ++ ['\x7d']

structure ItemText (text : List Char) : Prop where
  unbounded : Unbounded text
  notBlank : text.all isWhitespace = false

theorem foldl_item {item : List Char} (hitem : ItemText item) (hr : r = ⟨start, [], some (prelude, items), r.rules⟩)
    (hcontained : Contained item) :
    (item ++ [';']).foldl readChar r = ⟨start, [], some (prelude, items ++ [item]), r.rules⟩ := by
  rw [hr, List.foldl_append, foldl_readChar hitem.unbounded]
  show readChar _ ';' = _
  have hopen : (run start item).isOpen = true := hcontained
  simp [readChar, hopen, addItem, hitem.notBlank]

theorem foldl_block {done : List (List Char)} (hitems : ∀ item ∈ items, ItemText item ∧ Contained item)
    (prelude : List Char) (rules : List Rule) :
    (blockText items).foldl readChar ⟨start, [], some (prelude, done), rules⟩ =
      ⟨start, [], some (prelude, done ++ items), rules⟩ := by
  induction items generalizing done with
  | nil => simp [blockText]
  | cons item items ih =>
    obtain ⟨hitem, hcontained⟩ := hitems item List.mem_cons_self
    rw [blockText_cons, List.foldl_append, foldl_item hitem rfl hcontained,
      ih fun item hitem => hitems item (List.mem_cons_of_mem _ hitem)]
    simp

theorem contained_of_finish {done : List (List Char)} (hitems : ∀ item ∈ items, ItemText item)
    {rules more : List Rule} {css : List Char}
    (h : ((blockText items ++ css).foldl readChar ⟨start, [], some (prelude, done), rules⟩).finish =
      rules ++ ⟨prelude, done ++ items⟩ :: more) : ∀ item ∈ items, Contained item := by
  induction items generalizing done with
  | nil => simp
  | cons item items ih =>
    have hitem := hitems item List.mem_cons_self
    rw [blockText_cons, List.append_assoc, List.foldl_append] at h
    by_cases hcontained : Contained item
    · have hdone : done ++ item :: items = (done ++ [item]) ++ items := by simp
      rw [foldl_item hitem rfl hcontained, hdone] at h
      have hrest := ih (fun item hitem => hitems item (List.mem_cons_of_mem _ hitem)) h
      exact List.forall_mem_cons.mpr ⟨hcontained, hrest⟩
    · -- the `;` does not end the item, so the item that is read is longer
      have hpush : (item ++ [';']).foldl readChar ⟨start, [], some (prelude, done), rules⟩ =
          ⟨step (run start item) ';', item ++ [';'], some (prelude, done), rules⟩ := by
        rw [List.foldl_append, foldl_readChar hitem.unbounded]
        show readChar _ ';' = _
        have hclosed : ¬ (run start item).isOpen = true := hcontained
        simp [readChar, hclosed, Reading.push]
      rw [hpush] at h
      have hblank : (item ++ [';']).all isWhitespace = false := by simp [hitem.notBlank]
      obtain ⟨item', items', rest, hfinish, hprefix⟩ := finish_text (blockText items ++ css)
        (r := ⟨step (run start item) ';', item ++ [';'], some (prelude, done), rules⟩) rfl hblank
      have heq := hfinish.symm.trans h
      have hrule := (List.cons.inj (List.append_cancel_left heq)).1
      have hitems' := List.append_cancel_left (Rule.mk.inj hrule).2
      obtain rfl : item' = item := (List.cons.inj hitems').1
      have hlen := hprefix.length_le
      simp at hlen

/-- A stylesheet of rules is read as it was written exactly when all items of its blocks are contained. -/
theorem read_sheetText_iff {rules : List Rule}
    (hpreludes : ∀ rule ∈ rules, Unbounded rule.prelude ∧ Contained rule.prelude)
    (hitems : ∀ rule ∈ rules, ∀ item ∈ rule.items, ItemText item) :
    read (sheetText rules) = rules ↔ ∀ rule ∈ rules, ∀ item ∈ rule.items, Contained item := by
  have hprelude : ∀ rule ∈ rules, ∀ done, (rule.prelude ++ ['\x7b']).foldl readChar ⟨start, [], none, done⟩ =
      ⟨start, [], some (rule.prelude, []), done⟩ := by
    intro rule hrule done
    obtain ⟨hunbounded, hcontained⟩ := hpreludes rule hrule
    have hopen : (run start rule.prelude).isOpen = true := hcontained
    rw [List.foldl_append, foldl_readChar hunbounded]
    simp [readChar, hopen]
  have hclose : ∀ (rule : Rule) done, readChar ⟨start, [], some (rule.prelude, rule.items), done⟩ '\x7d' =
      ⟨start, [], none, done ++ [rule]⟩ := by
    intro rule done
    simp [readChar, State.isOpen, start, Mode.isFree, addItem]
  have hall : ∀ rest ⊆ rules, ∀ done, ((sheetText rest).foldl readChar ⟨start, [], none, done⟩).finish = done ++ rest ↔
      ∀ rule ∈ rest, ∀ item ∈ rule.items, Contained item := by
    intro rest
    induction rest with
    | nil =>
      intro _ done
      simp [sheetText, Reading.finish]
    | cons rule rest ih =>
      intro hsub done
      have hrule : rule ∈ rules := hsub List.mem_cons_self
      have hsplit : sheetText (rule :: rest) =
          (rule.prelude ++ ['\x7b']) ++ (blockText rule.items ++ '\x7d' :: sheetText rest) := by
        simp [sheetText]
      rw [hsplit, List.foldl_append, hprelude rule hrule done]
      have hblock : (∀ item ∈ rule.items, Contained item) →
          (blockText rule.items ++ '\x7d' :: sheetText rest).foldl readChar ⟨start, [], some (rule.prelude, []), done⟩ =
            (sheetText rest).foldl readChar ⟨start, [], none, done ++ [rule]⟩ := by
        intro hcontained
        rw [List.foldl_append, foldl_block fun item hitem => ⟨hitems rule hrule item hitem, hcontained item hitem⟩,
          List.foldl_cons, List.nil_append, hclose]
      have hrest := ih (List.subset_of_cons_subset hsub) (done ++ [rule])
      rw [List.append_assoc, List.singleton_append] at hrest
      constructor
      · intro h
        have hcontained := contained_of_finish (hitems rule hrule) h
        rw [hblock hcontained] at h
        exact List.forall_mem_cons.mpr ⟨hcontained, hrest.mp h⟩
      · intro h
        obtain ⟨hcontained, hothers⟩ := List.forall_mem_cons.mp h
        rw [hblock hcontained]
        exact hrest.mpr hothers
  simpa [read] using hall rules (List.Subset.refl rules) []

end Css
