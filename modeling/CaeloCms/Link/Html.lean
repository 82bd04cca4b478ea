import CaeloCms.Link.Text

/-!
# Link attributes of HTML

`link-canonicalise.ts` reads `href`, `src`, `poster` and `srcset` inside start tags.  An HTML text is cut into the
quoted values of these attributes and the single characters around them (`htmlPieces`); a reference never spans two
pieces, so what the scanner finds in the text it finds in a value or in the text with the values emptied
(`mem_finds_pieces`).
-/

namespace CaeloCms.Link

open Redirect (isSpace)

/-! ### Start tags -/

def isLetter (c : Char) : Bool := ('a' ≤ c && c ≤ 'z') || ('A' ≤ c && c ≤ 'Z')

def isQuote (c : Char) : Bool := c == '"' || c == '\''

/-- How far a tag goes; `quote` is the quotation mark that is open.  An unterminated tag goes to the end. -/
def tagLength (quote : Option Char) : List Char → Nat
  | [] => 0
  | c :: cs =>
    match quote with
    | some q => 1 + tagLength (if c = q then none else some q) cs
    | none => if isQuote c then 1 + tagLength (some c) cs else if c = '>' then 1 else 1 + tagLength none cs

/-- `startTags` at one place. -/
def matchTag (_before : List Char) : List Char → Option (Unit × Nat)
  | '<' :: c :: rest => if isLetter c then some ((), 2 + tagLength none rest) else none
  | _ => none

/-! ### Attributes -/

inductive LinkAttr
  | href
  | src
  | poster
  | srcset
deriving DecidableEq, Repr

def LinkAttr.ofName (name : List Char) : Option LinkAttr :=
  if name = "href".toList then some .href
  else if name = "src".toList then some .src
  else if name = "poster".toList then some .poster
  else if name = "srcset".toList then some .srcset
  else none

/-- A match of `ATTR_RE`: `lead` is its first group. -/
structure Attr where
  lead : List Char
  name : LinkAttr
  quote : Char
  value : List Char
deriving DecidableEq, Repr

def Attr.raw (a : Attr) : List Char := a.lead ++ a.quote :: (a.value ++ [a.quote])

/-- `\s(?:href|src|poster|srcset)\s*=\s*`, as a test of a whole text. -/
def attrOf : List Char → Option LinkAttr
  | [] => none
  | c :: rest =>
    let name := rest.takeWhile fun c => !isSpace c && c != '='
    let assign := (rest.drop name.length).dropWhile isSpace
    if isSpace c && assign.head? == some '=' && assign.tail.all isSpace then LinkAttr.ofName (name.map Char.toLower)
    else none

/-- `ATTR_RE` at one place.  Nothing it reads before its quotation mark is one, so that is the first there is. -/
def matchAttr (_before s : List Char) : Option (Attr × Nat) :=
  let lead := s.takeWhile fun c => !isQuote c
  match attrOf lead, s.drop lead.length with
  | some name, quote :: tail =>
    let value := tail.takeWhile fun c => c != quote
    if quote ∈ tail then some (⟨lead, name, quote, value⟩, lead.length + value.length + 2) else none
  | _, _ => none

/-! ### Pieces -/

inductive HtmlPiece
  | text (c : Char)
  | attr (a : Attr)
deriving DecidableEq, Repr

def HtmlPiece.raw : HtmlPiece → List Char
  | text c => [c]
  | attr a => a.raw

def tagPieces (tag : List Char) : List HtmlPiece :=
  (Scan.scan matchAttr [] tag).map fun p => match p with
    | .plain c => .text c
    | .found a _ => .attr a

def htmlPieces (html : List Char) : List HtmlPiece :=
  (Scan.scan matchTag [] html).flatMap fun p => match p with
    | .plain c => [.text c]
    | .found _ tag => tagPieces tag

def htmlText (ps : List HtmlPiece) : List Char := ps.flatMap HtmlPiece.raw

/-- The pieces with every link attribute emptied. -/
def skeleton (ps : List HtmlPiece) : List HtmlPiece :=
  ps.map fun p => match p with
    | .text c => .text c
    | .attr a => .attr { a with value := [] }

/-- What a match of `ATTR_RE` is made of. -/
structure Attr.WellFormed (a : Attr) : Prop where
  lead : ∀ c ∈ a.lead, isQuote c = false
  name : attrOf a.lead = some a.name
  quote : isQuote a.quote = true
  value : a.quote ∉ a.value

theorem drop_length_takeWhile (p : Char → Bool) (s : List Char) : s.drop (s.takeWhile p).length = s.dropWhile p := by
  induction s with
  | nil => rfl
  | cons c s ih => by_cases hc : p c = true <;> simp [hc, ih]

variable {before before' : List Char} {q : Char} {ps : List HtmlPiece}

theorem matchAttr_cases {s : List Char} {a : Attr} {n : Nat} (h : matchAttr before s = some (a, n)) :
    a.WellFormed ∧ n = a.raw.length ∧ s.take n = a.raw := by
  unfold matchAttr at h
  dsimp only at h
  split at h
  · rename_i name quote tail hname hdrop
    rw [Option.ite_none_right_eq_some, Option.some.injEq, Prod.mk.injEq] at h
    obtain ⟨hmem, rfl, rfl⟩ := h
    have hlead : ∀ c ∈ s.takeWhile (fun c => !isQuote c), isQuote c = false := by
      intro c hc
      simpa using List.mem_takeWhile_imp hc
    have hquote : isQuote quote = true := by
      have hhead : (s.dropWhile fun c => !isQuote c).head? = some quote := by
        rw [← drop_length_takeWhile, hdrop]
        rfl
      have := List.head?_dropWhile_not (fun c => !isQuote c) s
      rw [hhead] at this
      simpa using this
    have hvalue : quote ∉ tail.takeWhile fun c => c != quote := by
      intro hc
      simpa using List.mem_takeWhile_imp hc
    obtain ⟨after, htail⟩ : ∃ after, tail = tail.takeWhile (fun c => c != quote) ++ quote :: after := by
      have hne : tail.dropWhile (fun c => c != quote) ≠ [] := by
        intro hnil
        have hall := List.dropWhile_eq_nil_iff.1 hnil quote hmem
        simp at hall
      obtain ⟨c, after, hc⟩ := List.exists_cons_of_ne_nil hne
      have hhead := List.head?_dropWhile_not (fun c => c != quote) tail
      rw [hc] at hhead
      have hcq : c = quote := by simpa using hhead
      exact ⟨after, by rw [← hcq, ← hc, hcq, List.takeWhile_append_dropWhile]⟩
    have hs : s = s.takeWhile (fun c => !isQuote c) ++ quote :: (tail.takeWhile (fun c => c != quote) ++ quote :: after) := by
      rw [← htail, ← hdrop, drop_length_takeWhile, List.takeWhile_append_dropWhile]
    refine ⟨⟨hlead, hname, hquote, hvalue⟩, ?_, ?_⟩
    · simp [Attr.raw]
      omega
    · generalize s.takeWhile (fun c => !isQuote c) = lead at hs ⊢
      generalize tail.takeWhile (fun c => c != quote) = value at hs ⊢
      have hcut : s = (lead ++ quote :: (value ++ [quote])) ++ after := by simpa using hs
      have hlen : lead.length + value.length + 2 = (lead ++ quote :: (value ++ [quote])).length := by
        simp
        omega
      rw [Attr.raw, hcut, hlen, List.take_left]
  · cases h

theorem htmlText_tagPieces (tag : List Char) : htmlText (tagPieces tag) = tag := by
  have hraw := Scan.flatMap_raw (m := matchAttr) [] tag
  unfold htmlText tagPieces
  rw [List.flatMap_map]
  conv_rhs => rw [← hraw]
  apply List.flatMap_congr
  intro p hp
  cases p with
  | plain c => rfl
  | found a raw =>
    obtain ⟨before, s, n, hm, rfl⟩ := Scan.mem_scan_found hp
    exact (matchAttr_cases hm).2.2.symm

theorem htmlText_htmlPieces (html : List Char) : htmlText (htmlPieces html) = html := by
  have hraw := Scan.flatMap_raw (m := matchTag) [] html
  unfold htmlText htmlPieces
  rw [List.flatMap_assoc]
  conv_rhs => rw [← hraw]
  apply List.flatMap_congr
  intro p hp
  cases p with
  | plain c => rfl
  | found a tag => exact htmlText_tagPieces tag

theorem wellFormed_of_mem {html : List Char} {a : Attr} (h : .attr a ∈ htmlPieces html) : a.WellFormed := by
  unfold htmlPieces at h
  obtain ⟨p, hp, h⟩ := List.mem_flatMap.1 h
  cases p with
  | plain c => simp at h
  | found u tag =>
    unfold tagPieces at h
    obtain ⟨q, hq, h⟩ := List.mem_map.1 h
    cases q with
    | plain c => cases h
    | found b raw =>
      cases h
      obtain ⟨before, s, n, hm, -⟩ := Scan.mem_scan_found hq
      exact (matchAttr_cases hm).1

/-! ### References in pieces -/

/-- The scanner does not tell the two texts before a place apart. -/
def Alike (before before' : List Char) : Prop :=
  before.head? = before'.head? ∧ linkPosition before = linkPosition before'

theorem scan_alike (h : Alike before before') (s : List Char) :
    Scan.scan matchRef before s = Scan.scan matchRef before' s := by
  apply Scan.scan_congr (R := Alike) _ _ h
  · intro b b' c hb
    refine ⟨rfl, ?_⟩
    simp only [linkPosition, hb.1]
  · intro b b' s hb
    unfold matchRef
    rw [hb.1, hb.2]

theorem finds_alike (h : Alike before before') (s : List Char) :
    Scan.finds matchRef before s = Scan.finds matchRef before' s := by
  unfold Scan.finds
  rw [scan_alike h]

theorem replace_alike (h : Alike before before')
    (f : Option LinkRef → List Char → List Char) (s : List Char) :
    Scan.replace matchRef f before s = Scan.replace matchRef f before' s := by
  unfold Scan.replace
  rw [scan_alike h]

theorem isDelimiter_of_isQuote (h : isQuote q = true) : isDelimiter q = true := by
  unfold isQuote at h
  rw [Bool.or_eq_true, beq_iff_eq, beq_iff_eq] at h
  rcases h with rfl | rfl <;> decide

theorem alike_quote (h : isQuote q = true) (before before' : List Char) : Alike (q :: before) (q :: before') := by
  unfold isQuote at h
  rw [Bool.or_eq_true, beq_iff_eq, beq_iff_eq] at h
  rcases h with rfl | rfl <;> exact ⟨rfl, rfl⟩

theorem finds_quoted (hq : isQuote q = true) (before lead value rest : List Char) :
    Scan.finds matchRef before (lead ++ q :: (value ++ q :: rest)) =
      Scan.finds matchRef before lead ++ Scan.finds matchRef [q] value ++ Scan.finds matchRef [q] rest := by
  have hd := matchRef_delimits (isDelimiter_of_isQuote hq)
  rw [Scan.finds_append hd, Scan.finds_append hd, finds_alike (alike_quote hq _ []) value,
    finds_alike (alike_quote hq _ []) rest, List.append_assoc]

theorem replace_quoted (hq : isQuote q = true) (f : Option LinkRef → List Char → List Char)
    (before lead value rest : List Char) :
    Scan.replace matchRef f before (lead ++ q :: (value ++ q :: rest)) =
      Scan.replace matchRef f before lead ++ q :: (Scan.replace matchRef f [q] value ++
        q :: Scan.replace matchRef f [q] rest) := by
  have hd := matchRef_delimits (isDelimiter_of_isQuote hq)
  rw [Scan.replace_append hd, Scan.replace_append hd, replace_alike (alike_quote hq _ []) f value,
    replace_alike (alike_quote hq _ []) f rest]

@[simp] theorem htmlText_cons (p : HtmlPiece) (ps : List HtmlPiece) : htmlText (p :: ps) = p.raw ++ htmlText ps := rfl

def Quoted (ps : List HtmlPiece) : Prop := ∀ a, .attr a ∈ ps → isQuote a.quote = true

theorem Quoted.tail {p : HtmlPiece} (h : Quoted (p :: ps)) : Quoted ps :=
  fun a ha => h a (List.mem_cons_of_mem _ ha)

theorem mem_finds_pieces (h : Quoted ps) (before acc : List Char)
    (x : Option LinkRef × List Char) :
    x ∈ Scan.finds matchRef before (acc ++ htmlText ps) ↔
      x ∈ Scan.finds matchRef before (acc ++ htmlText (skeleton ps)) ∨
        ∃ a, .attr a ∈ ps ∧ x ∈ Scan.finds matchRef [a.quote] a.value := by
  induction ps generalizing before acc with
  | nil => simp [skeleton]
  | cons p ps ih =>
    cases p with
    | text c =>
      have ih' := ih h.tail before (acc ++ [c])
      simpa [skeleton, HtmlPiece.raw] using ih'
    | attr a =>
      have hq := h a List.mem_cons_self
      have ih' := ih h.tail [a.quote] []
      have hfull := finds_quoted hq before (acc ++ a.lead) a.value (htmlText ps)
      have hempty := finds_quoted hq before (acc ++ a.lead) [] (htmlText (skeleton ps))
      have hnil : Scan.finds matchRef [a.quote] [] = [] := by simp [Scan.finds]
      have hleft : acc ++ htmlText (.attr a :: ps) = (acc ++ a.lead) ++ a.quote :: (a.value ++ a.quote :: htmlText ps) := by
        simp [HtmlPiece.raw, Attr.raw]
      have hright : acc ++ htmlText (skeleton (.attr a :: ps)) =
          (acc ++ a.lead) ++ a.quote :: ([] ++ a.quote :: htmlText (skeleton ps)) := by
        simp [skeleton, HtmlPiece.raw, Attr.raw]
      rw [hleft, hright, hfull, hempty, hnil]
      simp only [List.mem_append, List.nil_append, List.append_nil, List.mem_cons, HtmlPiece.attr.injEq] at ih' ⊢
      rw [ih']
      constructor
      · rintro ((hx | hx) | hx | ⟨b, hb, hx⟩)
        · exact Or.inl (Or.inl hx)
        · exact Or.inr ⟨a, Or.inl rfl, hx⟩
        · exact Or.inl (Or.inr hx)
        · exact Or.inr ⟨b, Or.inr hb, hx⟩
      · rintro ((hx | hx) | ⟨b, rfl | hb, hx⟩)
        · exact Or.inl (Or.inl hx)
        · exact Or.inr (Or.inl hx)
        · exact Or.inl (Or.inr hx)
        · exact Or.inr (Or.inr ⟨b, hb, hx⟩)

def mapValues (f : Attr → List Char) (ps : List HtmlPiece) : List HtmlPiece :=
  ps.map fun p => match p with
    | .text c => .text c
    | .attr a => .attr { a with value := f a }

/-- Where the references are all in attribute values, replacing them is replacing them there. -/
theorem replace_pieces (f : Option LinkRef → List Char → List Char) (h : Quoted ps)
    (before acc : List Char) (hclean : Scan.finds matchRef before (acc ++ htmlText (skeleton ps)) = []) :
    Scan.replace matchRef f before (acc ++ htmlText ps) =
      acc ++ htmlText (mapValues (fun a => Scan.replace matchRef f [a.quote] a.value) ps) := by
  induction ps generalizing before acc with
  | nil =>
    have hacc : Scan.finds matchRef before acc = [] := by simpa [skeleton, htmlText] using hclean
    simp [mapValues, htmlText, Scan.replace_of_finds_nil f hacc]
  | cons p ps ih =>
    cases p with
    | text c =>
      have hclean' : Scan.finds matchRef before ((acc ++ [c]) ++ htmlText (skeleton ps)) = [] := by
        simpa [skeleton, HtmlPiece.raw] using hclean
      have ih' := ih h.tail before (acc ++ [c]) hclean'
      simpa [mapValues, HtmlPiece.raw] using ih'
    | attr a =>
      have hq := h a List.mem_cons_self
      have hempty := finds_quoted hq before (acc ++ a.lead) [] (htmlText (skeleton ps))
      have hright : acc ++ htmlText (skeleton (.attr a :: ps)) =
          (acc ++ a.lead) ++ a.quote :: ([] ++ a.quote :: htmlText (skeleton ps)) := by
        simp [skeleton, HtmlPiece.raw, Attr.raw]
      rw [hright, hempty, List.append_eq_nil_iff, List.append_eq_nil_iff] at hclean
      have hleft : acc ++ htmlText (.attr a :: ps) = (acc ++ a.lead) ++ a.quote :: (a.value ++ a.quote :: htmlText ps) := by
        simp [HtmlPiece.raw, Attr.raw]
      have ih' := ih h.tail [a.quote] [] hclean.2
      rw [hleft, replace_quoted hq, Scan.replace_of_finds_nil f hclean.1.1]
      simpa [mapValues, HtmlPiece.raw, Attr.raw] using ih'

end CaeloCms.Link
