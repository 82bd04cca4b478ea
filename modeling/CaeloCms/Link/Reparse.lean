import CaeloCms.Link.Html

/-!
# HTML with other link values

Where the value of a link attribute is replaced by one with the same quotation marks and `>`, the text is cut at the same
places as before (`htmlPieces_mapValues`).
-/

namespace CaeloCms.Link

/-- Opens or closes a value, or ends a tag. -/
def isMark (c : Char) : Bool := isQuote c || c == '>'

def marks (s : List Char) : List Char := s.filter isMark

/-- Two texts that differ in quoted values with the same marks. -/
inductive Rel : List Char → List Char → Prop
  | nil : Rel [] []
  | cons (c : Char) {s s' : List Char} (h : Rel s s') : Rel (c :: s) (c :: s')
  | subst {q : Char} {v v' s s' : List Char} (hq : isQuote q = true) (hv : marks v' = marks v) (h : Rel s s') :
    Rel (q :: (v ++ q :: s)) (q :: (v' ++ q :: s'))

variable {s s' before v : List Char} {f : Attr → List Char} {q c : Char} {quote : Option Char} {a : Attr}

theorem mem_marks (hq : isQuote q = true) (s : List Char) : q ∈ marks s ↔ q ∈ s := by
  unfold marks
  rw [List.mem_filter, isMark, hq, Bool.true_or]
  exact and_iff_left rfl

theorem Rel.append_left (t : List Char) (h : Rel s s') : Rel (t ++ s) (t ++ s') := by
  induction t with
  | nil => exact h
  | cons c t ih => exact .cons c ih

theorem Rel.head? (h : Rel s s') : s'.head? = s.head? := by
  cases h <;> rfl

theorem Rel.eq_nil (h : Rel [] s') : s' = [] := by
  cases h
  rfl

/-! ### Tags -/

theorem tagLength_none (c : Char) (cs : List Char) : tagLength none (c :: cs) =
    if isQuote c then 1 + tagLength (some c) cs else if c = '>' then 1 else 1 + tagLength none cs := rfl

theorem tagLength_some (q c : Char) (cs : List Char) :
    tagLength (some q) (c :: cs) = 1 + tagLength (if c = q then none else some q) cs := rfl

/-- The quotation mark that is open after a text, or `none` where the tag has ended in it. -/
def tagState (quote : Option Char) : List Char → Option (Option Char)
  | [] => some quote
  | c :: cs =>
    match quote with
    | some q => tagState (if c = q then none else some q) cs
    | none => if isQuote c then tagState (some c) cs else if c = '>' then none else tagState none cs

theorem tagState_none (c : Char) (cs : List Char) : tagState none (c :: cs) =
    if isQuote c then tagState (some c) cs else if c = '>' then none else tagState none cs := rfl

theorem tagState_some (q c : Char) (cs : List Char) :
    tagState (some q) (c :: cs) = tagState (if c = q then none else some q) cs := rfl

def OpenQuote (quote : Option Char) : Prop := ∀ q, quote = some q → isQuote q = true

theorem openQuote_none : OpenQuote none := by
  intro q hq
  cases hq

theorem openQuote_some (hq : isQuote q = true) : OpenQuote (some q) := by
  intro q' heq
  cases heq
  exact hq

theorem openQuote_close (hq : OpenQuote (some q)) (c : Char) : OpenQuote (if c = q then none else some q) := by
  split
  · exact openQuote_none
  · exact hq

theorem tagState_marks (hquote : OpenQuote quote) (s : List Char) :
    tagState quote (marks s) = tagState quote s := by
  induction s generalizing quote with
  | nil => rfl
  | cons c s ih =>
    unfold marks at ih ⊢
    by_cases hc : isMark c = true
    · rw [List.filter_cons_of_pos hc]
      cases quote with
      | none =>
        rw [tagState_none, tagState_none]
        by_cases hq : isQuote c = true
        · rw [if_pos hq, if_pos hq, ih (openQuote_some hq)]
        · have hend : c = '>' := by simpa [isMark, hq] using hc
          rw [if_neg hq, if_neg hq, if_pos hend, if_pos hend]
      | some q => rw [tagState_some, tagState_some, ih (openQuote_close hquote c)]
    · rw [List.filter_cons_of_neg hc, ih hquote]
      rw [isMark, Bool.or_eq_true, not_or, beq_iff_eq] at hc
      cases quote with
      | none => rw [tagState_none, if_neg hc.1, if_neg hc.2]
      | some q =>
        have hne : c ≠ q := by
          rintro rfl
          exact hc.1 (hquote c rfl)
        rw [tagState_some, if_neg hne]

theorem tagState_open {state : Option Char} (hquote : OpenQuote quote)
    (h : tagState quote s = some state) : OpenQuote state := by
  induction s generalizing quote with
  | nil =>
    cases h
    exact hquote
  | cons c s ih =>
    cases quote with
    | none =>
      rw [tagState_none] at h
      split at h
      · rename_i hc
        exact ih (openQuote_some hc) h
      · split at h
        · cases h
        · exact ih openQuote_none h
    | some q => exact ih (openQuote_close hquote c) h

theorem tagLength_append_of_some {state : Option Char} (h : tagState quote v = some state)
    (rest : List Char) : tagLength quote (v ++ rest) = v.length + tagLength state rest := by
  induction v generalizing quote with
  | nil =>
    cases h
    rw [List.nil_append, List.length_nil, Nat.zero_add]
  | cons c v ih =>
    rw [List.cons_append, List.length_cons]
    cases quote with
    | none =>
      rw [tagState_none] at h
      rw [tagLength_none]
      split at h
      · rename_i hc
        rw [if_pos hc, ih h]
        omega
      · rename_i hc
        rw [if_neg hc]
        split at h
        · cases h
        · rename_i hend
          rw [if_neg hend, ih h]
          omega
    | some q =>
      rw [tagState_some] at h
      rw [tagLength_some, ih h]
      omega

theorem tagLength_append_of_none (h : tagState quote v = none)
    (rest : List Char) : tagLength quote (v ++ rest) ≤ v.length := by
  induction v generalizing quote with
  | nil => cases h
  | cons c v ih =>
    rw [List.cons_append, List.length_cons]
    cases quote with
    | none =>
      rw [tagState_none] at h
      rw [tagLength_none]
      split at h
      · rename_i hc
        have := ih h
        rw [if_pos hc]
        omega
      · rename_i hc
        rw [if_neg hc]
        split at h
        · rename_i hend
          rw [if_pos hend]
          omega
        · rename_i hend
          have := ih h
          rw [if_neg hend]
          omega
    | some q =>
      rw [tagState_some] at h
      have := ih h
      rw [tagLength_some]
      omega

theorem tagLength_pos (quote : Option Char) (c : Char) (s : List Char) : 0 < tagLength quote (c :: s) := by
  cases quote with
  | none =>
    rw [tagLength_none]
    split
    · omega
    · split <;> omega
  | some q =>
    rw [tagLength_some]
    omega

/-- The state of a tag after a quotation mark. -/
def afterQuote (quote : Option Char) (q : Char) : Option Char :=
  match quote with
  | none => some q
  | some q' => if q = q' then none else some q'

theorem tagLength_quote (hq : isQuote q = true) (quote : Option Char) (s : List Char) :
    tagLength quote (q :: s) = 1 + tagLength (afterQuote quote q) s := by
  cases quote with
  | none =>
    rw [tagLength_none, hq, if_pos rfl]
    rfl
  | some q' => rfl

/-- A tag that goes to the end of a text goes to the end of the other. -/
theorem Rel.tagLength (h : Rel s s') {rest rest' : List Char} (hrest : rest = [] → rest' = [])
    (quote : Option Char) (hquote : OpenQuote quote)
    (hlen : tagLength quote (s ++ rest) = s.length) : Link.tagLength quote (s' ++ rest') = s'.length := by
  have hnext : ∀ (quote : Option Char) (q : Char), isQuote q = true → OpenQuote quote → OpenQuote (afterQuote quote q) := by
    intro quote q hq hquote
    cases quote with
    | none => exact openQuote_some hq
    | some q₀ => exact openQuote_close hquote q
  induction h generalizing quote with
  | nil =>
    cases rest with
    | nil => rw [hrest rfl]; exact hlen
    | cons c rest =>
      have := tagLength_pos quote c rest
      rw [List.nil_append, List.length_nil] at hlen
      omega
  | @cons c s s' h ih =>
    rw [List.cons_append, List.length_cons] at hlen ⊢
    by_cases hc : isQuote c = true
    · rw [tagLength_quote hc] at hlen ⊢
      have := ih (afterQuote quote c) (hnext quote c hc hquote) (by omega)
      omega
    · cases quote with
      | none =>
        rw [tagLength_none, if_neg hc] at hlen ⊢
        by_cases hend : c = '>'
        · rw [if_pos hend] at hlen ⊢
          have hs : s = [] := List.length_eq_zero_iff.1 (by omega)
          subst hs
          rw [h.eq_nil]
          rfl
        · rw [if_neg hend] at hlen ⊢
          have := ih none hquote (by omega)
          omega
      | some q =>
        have hne : c ≠ q := by
          rintro rfl
          exact hc (hquote c rfl)
        rw [tagLength_some, if_neg hne] at hlen ⊢
        have := ih (some q) hquote (by omega)
        omega
  | @subst q v v' s s' hq hv h ih =>
    have hopen := hnext quote q hq hquote
    have hsame : tagState (afterQuote quote q) v' = tagState (afterQuote quote q) v := by
      rw [← tagState_marks hopen v', hv, tagState_marks hopen v]
    simp only [List.cons_append, List.append_assoc, List.length_cons, List.length_append] at hlen ⊢
    rw [tagLength_quote hq] at hlen ⊢
    cases hstate : tagState (afterQuote quote q) v with
    | none =>
      -- the tag would end in the value
      have := tagLength_append_of_none hstate (q :: (s ++ rest))
      omega
    | some state =>
      have hopen' := hnext state q hq (tagState_open hopen hstate)
      rw [tagLength_append_of_some hstate, tagLength_quote hq] at hlen
      rw [tagLength_append_of_some (hsame.trans hstate), tagLength_quote hq]
      have := ih _ hopen' (by omega)
      omega

/-! ### Attributes -/

/-- Both texts have the same start up to a quotation mark, the same one there, and the same ones after it. -/
theorem Rel.quotes (h : Rel s s') :
    (s'.takeWhile fun c => !isQuote c) = (s.takeWhile fun c => !isQuote c) ∧
      (s'.dropWhile fun c => !isQuote c).head? = (s.dropWhile fun c => !isQuote c).head? ∧
      (∀ q, isQuote q = true → (q ∈ s' ↔ q ∈ s)) ∧
      ∀ q, isQuote q = true →
        (q ∈ (s'.dropWhile fun c => !isQuote c).tail ↔ q ∈ (s.dropWhile fun c => !isQuote c).tail) := by
  induction h with
  | nil => exact ⟨rfl, rfl, fun _ _ => Iff.rfl, fun _ _ => Iff.rfl⟩
  | @cons c s s' h ih =>
    obtain ⟨htake, hhead, hmem, hdrop⟩ := ih
    refine ⟨?_, ?_, fun q hq => ?_, fun q hq => ?_⟩
    · rw [List.takeWhile_cons, List.takeWhile_cons, htake]
    · rw [List.dropWhile_cons, List.dropWhile_cons]
      split
      · exact hhead
      · rfl
    · rw [List.mem_cons, List.mem_cons, hmem q hq]
    · rw [List.dropWhile_cons, List.dropWhile_cons]
      split
      · exact hdrop q hq
      · exact hmem q hq
  | @subst q v v' s s' hq hv h ih =>
    obtain ⟨-, -, hmem, -⟩ := ih
    have hafter : ∀ q', isQuote q' = true → (q' ∈ v' ++ q :: s' ↔ q' ∈ v ++ q :: s) := by
      intro q' hq'
      have hvalue : q' ∈ v' ↔ q' ∈ v := by rw [← mem_marks hq' v', hv, mem_marks hq' v]
      rw [List.mem_append, List.mem_append, List.mem_cons, List.mem_cons, hmem q' hq', hvalue]
    refine ⟨by simp [hq], by simp [hq], fun q' hq' => ?_, fun q' hq' => ?_⟩
    · rw [List.mem_cons, List.mem_cons, hafter q' hq']
    · simpa [hq] using hafter q' hq'

/-- There is an attribute when what precedes the first quotation mark reads as one and that mark is closed. -/
theorem matchAttr_isSome (before s : List Char) : (matchAttr before s).isSome = true ↔
    (attrOf (s.takeWhile fun c => !isQuote c)).isSome = true ∧
      ∃ q, (s.dropWhile fun c => !isQuote c).head? = some q ∧ q ∈ (s.dropWhile fun c => !isQuote c).tail := by
  unfold matchAttr
  dsimp only
  rw [drop_length_takeWhile]
  cases attrOf (s.takeWhile fun c => !isQuote c) with
  | none => simp
  | some name =>
    cases s.dropWhile fun c => !isQuote c with
    | nil => simp
    | cons q tail => by_cases hq : q ∈ tail <;> simp [hq]

theorem noMatch_matchAttr :
    Scan.NoMatch matchAttr before s ↔ ¬(matchAttr before s).isSome = true := by
  constructor
  · intro hno hsome
    obtain ⟨⟨a, n⟩, hmatch⟩ := Option.isSome_iff_exists.1 hsome
    have hlen := (matchAttr_cases hmatch).2.1
    have hpos : a.raw.length = (a.raw.length - 1) + 1 := by
      simp only [Attr.raw, List.length_append, List.length_cons]
      omega
    exact hno a (a.raw.length - 1) (by rw [hmatch, hlen, ← hpos])
  · intro hnone a n hmatch
    rw [hmatch] at hnone
    exact hnone rfl

/-- Where there is no attribute in the one text there is none in the other. -/
theorem Rel.noMatch {before' : List Char} (h : Rel s s') (hno : Scan.NoMatch matchAttr before s) :
    Scan.NoMatch matchAttr before' s' := by
  obtain ⟨htake, hhead, -, hdrop⟩ := h.quotes
  rw [noMatch_matchAttr, matchAttr_isSome] at hno ⊢
  rw [htake, hhead]
  rintro ⟨hname, q, hq, hmem⟩
  have hquote : isQuote q = true := by
    have := List.head?_dropWhile_not (fun c => !isQuote c) s
    rw [hq] at this
    simpa using this
  exact hno ⟨hname, q, hq, (hdrop q hquote).1 hmem⟩

theorem matchAttr_raw (h : a.WellFormed) (before rest : List Char) :
    matchAttr before (a.raw ++ rest) = some (a, a.raw.length) := by
  have htext : a.raw ++ rest = a.lead ++ a.quote :: (a.value ++ a.quote :: rest) := by simp [Attr.raw]
  have hlead : (a.raw ++ rest).takeWhile (fun c => !isQuote c) = a.lead := by
    rw [htext, List.takeWhile_append_of_pos (by simpa using h.lead)]
    simp [h.quote]
  have hdrop : (a.raw ++ rest).dropWhile (fun c => !isQuote c) = a.quote :: (a.value ++ a.quote :: rest) := by
    rw [htext, List.dropWhile_append_of_pos (by simpa using h.lead)]
    simp [h.quote]
  have hvalue : (a.value ++ a.quote :: rest).takeWhile (fun c => c != a.quote) = a.value := by
    rw [List.takeWhile_append_of_pos]
    · simp
    · intro c hc
      have hne : c ≠ a.quote := fun heq => h.value (heq ▸ hc)
      simpa using hne
  unfold matchAttr
  dsimp only
  rw [drop_length_takeWhile, hlead, hdrop, h.name]
  simp [hvalue, Attr.raw]
  omega

/-! ### Pieces -/

def SameMarks (f : Attr → List Char) (ps : List HtmlPiece) : Prop :=
  ∀ a, .attr a ∈ ps → marks (f a) = marks a.value

theorem SameMarks.tail {p : HtmlPiece} {ps : List HtmlPiece} (h : SameMarks f (p :: ps)) :
    SameMarks f ps := fun a ha => h a (List.mem_cons_of_mem _ ha)

theorem rel_mapValues {ps : List HtmlPiece} (hq : Quoted ps) (h : SameMarks f ps) :
    Rel (htmlText ps) (htmlText (mapValues f ps)) := by
  induction ps with
  | nil => exact .nil
  | cons p ps ih =>
    have ih' := ih hq.tail h.tail
    cases p with
    | text c => exact .cons c ih'
    | attr a =>
      have hraw : ∀ a : Attr, ∀ ps, htmlText (.attr a :: ps) = a.lead ++ a.quote :: (a.value ++ a.quote :: htmlText ps) := by
        intro a ps
        simp [HtmlPiece.raw, Attr.raw]
      have hmap : mapValues f (.attr a :: ps) = .attr { a with value := f a } :: mapValues f ps := rfl
      rw [hmap, hraw, hraw]
      exact Rel.append_left a.lead (.subst (hq a List.mem_cons_self) (h a List.mem_cons_self) ih')

theorem wellFormed_of_marks (h : a.WellFormed) (hv : marks v = marks a.value) :
    ({ a with value := v } : Attr).WellFormed where
  lead := h.lead
  name := h.name
  quote := h.quote
  value := by
    intro hmem
    apply h.value
    rwa [← mem_marks h.quote, ← hv, mem_marks h.quote]

def attrPieces (ps : List (Scan.Piece Char Attr)) : List HtmlPiece :=
  ps.map fun p => match p with
    | .plain c => .text c
    | .found a _ => .attr a

theorem scan_attr (h : a.WellFormed) (before rest : List Char) :
    Scan.scan matchAttr before (a.raw ++ rest) =
      .found a a.raw :: Scan.scan matchAttr (a.raw.reverse ++ before) rest := by
  obtain ⟨n, hn⟩ : ∃ n, a.raw.length = n + 1 := ⟨a.raw.length - 1, by simp [Attr.raw]; omega⟩
  have hmatch := matchAttr_raw h before rest
  have hne : a.raw ++ rest ≠ [] := by
    intro hnil
    rw [(List.append_eq_nil_iff.1 hnil).1] at hn
    cases hn
  rw [hn] at hmatch
  rw [Scan.scan_found hne hmatch, ← hn, List.take_left, List.drop_left]

theorem matchAttr_append {n : Nat} (h : matchAttr before s = some (a, n)) :
    a.WellFormed ∧ ∃ rest, s = a.raw ++ rest := by
  obtain ⟨hwell, -, htake⟩ := matchAttr_cases h
  exact ⟨hwell, s.drop n, by rw [← htake, List.take_append_drop]⟩

theorem htmlText_attrPieces (before s : List Char) : htmlText (attrPieces (Scan.scan matchAttr before s)) = s := by
  induction before, s using Scan.scan_induction (m := matchAttr) with
  | nil before => simp [attrPieces, htmlText]
  | plain before c s hno ih =>
    rw [Scan.scan_plain hno]
    exact congrArg (c :: ·) ih
  | found before s a n hne hmatch ih =>
    obtain ⟨hwell, rest, rfl⟩ := matchAttr_append hmatch
    rw [(matchAttr_cases hmatch).2.1, List.take_left, List.drop_left] at ih
    rw [scan_attr hwell]
    exact congrArg (a.raw ++ ·) ih

theorem quoted_attrPieces (before s : List Char) : Quoted (attrPieces (Scan.scan matchAttr before s)) := by
  intro a ha
  obtain ⟨p, hp, heq⟩ := List.mem_map.1 ha
  cases p with
  | plain c => cases heq
  | found b raw =>
    cases heq
    obtain ⟨before', s', n, hmatch, -⟩ := Scan.mem_scan_found hp
    exact (matchAttr_cases hmatch).1.quote

theorem attrPieces_mapValues (before before' s : List Char)
    (h : SameMarks f (attrPieces (Scan.scan matchAttr before s))) :
    attrPieces (Scan.scan matchAttr before' (htmlText (mapValues f (attrPieces (Scan.scan matchAttr before s))))) =
      mapValues f (attrPieces (Scan.scan matchAttr before s)) := by
  induction before, s using Scan.scan_induction (m := matchAttr) generalizing before' with
  | nil before => simp [attrPieces, mapValues, htmlText]
  | plain before c s hno ih =>
    rw [Scan.scan_plain hno] at h ⊢
    have h' : SameMarks f (attrPieces (Scan.scan matchAttr (c :: before) s)) := SameMarks.tail h
    have hrel := rel_mapValues (quoted_attrPieces (c :: before) s) h'
    rw [htmlText_attrPieces] at hrel
    have hno' : Scan.NoMatch matchAttr before' _ := (Rel.cons c hrel).noMatch hno
    show attrPieces (Scan.scan matchAttr before' (c :: htmlText (mapValues f (attrPieces (Scan.scan matchAttr (c :: before) s))))) =
      .text c :: mapValues f (attrPieces (Scan.scan matchAttr (c :: before) s))
    rw [Scan.scan_plain hno']
    exact congrArg (HtmlPiece.text c :: ·) (ih (c :: before') h')
  | found before s a n hne hmatch ih =>
    obtain ⟨hwell, rest, rfl⟩ := matchAttr_append hmatch
    rw [(matchAttr_cases hmatch).2.1, List.take_left, List.drop_left] at ih
    rw [scan_attr hwell] at h ⊢
    have h' : SameMarks f (attrPieces (Scan.scan matchAttr (a.raw.reverse ++ before) rest)) := SameMarks.tail h
    have hwell' := wellFormed_of_marks hwell (h a List.mem_cons_self)
    show attrPieces (Scan.scan matchAttr before' (({ a with value := f a } : Attr).raw ++
        htmlText (mapValues f (attrPieces (Scan.scan matchAttr (a.raw.reverse ++ before) rest))))) =
      .attr { a with value := f a } :: mapValues f (attrPieces (Scan.scan matchAttr (a.raw.reverse ++ before) rest))
    rw [scan_attr hwell']
    exact congrArg (HtmlPiece.attr { a with value := f a } :: ·) (ih _ h')

/-! ### Start tags -/

def tagsPieces (ps : List (Scan.Piece Char Unit)) : List HtmlPiece :=
  ps.flatMap fun p => match p with
    | .plain c => [.text c]
    | .found _ tag => tagPieces tag

theorem matchTag_some {u : Unit} {n : Nat} (h : matchTag before s = some (u, n)) :
    ∃ c rest, s = '<' :: c :: rest ∧ isLetter c = true ∧ n = 2 + tagLength none rest := by
  unfold matchTag at h
  split at h
  · rename_i c rest
    rw [Option.ite_none_right_eq_some, Option.some.injEq, Prod.mk.injEq] at h
    exact ⟨c, rest, rfl, h.1, h.2.2.symm⟩
  · cases h

theorem matchTag_letter (h : isLetter c = true) (before rest : List Char) :
    matchTag before ('<' :: c :: rest) = some ((), 2 + tagLength none rest) := if_pos h

theorem tagLength_le (quote : Option Char) (s : List Char) : tagLength quote s ≤ s.length := by
  induction s generalizing quote with
  | nil => exact Nat.le_refl 0
  | cons c s ih =>
    cases quote with
    | none =>
      rw [tagLength_none, List.length_cons]
      have h₁ := ih (some c)
      have h₂ := ih none
      split
      · omega
      · split <;> omega
    | some q =>
      rw [tagLength_some, List.length_cons]
      have := ih (if c = q then none else some q)
      omega

theorem noMatch_of_head (hc : Redirect.isSpace c = false) (hq : isQuote c = false) :
    Scan.NoMatch matchAttr before (c :: s) := by
  rw [noMatch_matchAttr, matchAttr_isSome]
  rintro ⟨hname, -⟩
  rw [List.takeWhile_cons, hq] at hname
  simp [attrOf, hc] at hname

theorem isLetter_not_space (h : isLetter c = true) : Redirect.isSpace c = false ∧ isQuote c = false := by
  have halphanum : isAlphanum c = true := by
    unfold isLetter at h
    unfold isAlphanum
    simp only [Bool.or_eq_true, Bool.and_eq_true] at h ⊢
    rcases h with h | h
    · exact Or.inl (Or.inr h)
    · exact Or.inr h
  have hnot := isAlphanum_not_delimiter halphanum
  refine ⟨?_, ?_⟩
  · by_contra hs
    rw [Bool.not_eq_false] at hs
    rw [isDelimiter, hs, Bool.true_or] at hnot
    cases hnot
  · by_contra hq
    rw [Bool.not_eq_false] at hq
    rw [isDelimiter_of_isQuote hq] at hnot
    cases hnot

theorem tagPieces_cons (hc : isLetter c = true) (rest : List Char) :
    tagPieces ('<' :: c :: rest) = .text '<' :: .text c :: attrPieces (Scan.scan matchAttr [c, '<'] rest) := by
  have hopen : Scan.NoMatch matchAttr [] ('<' :: c :: rest) := noMatch_of_head (by decide) (by decide)
  have hletter : Scan.NoMatch matchAttr ['<'] (c :: rest) :=
    noMatch_of_head (isLetter_not_space hc).1 (isLetter_not_space hc).2
  unfold tagPieces
  rw [Scan.scan_plain hopen, Scan.scan_plain hletter]
  rfl

theorem htmlText_append (ps ps' : List HtmlPiece) : htmlText (ps ++ ps') = htmlText ps ++ htmlText ps' :=
  List.flatMap_append

theorem mapValues_append (f : Attr → List Char) (ps ps' : List HtmlPiece) :
    mapValues f (ps ++ ps') = mapValues f ps ++ mapValues f ps' := List.map_append

theorem htmlText_tagsPieces (before s : List Char) : htmlText (tagsPieces (Scan.scan matchTag before s)) = s := by
  have hraw := Scan.flatMap_raw (m := matchTag) before s
  unfold htmlText tagsPieces
  rw [List.flatMap_assoc]
  conv_rhs => rw [← hraw]
  apply List.flatMap_congr
  intro p hp
  cases p with
  | plain c => rfl
  | found a tag => exact htmlText_tagPieces tag

theorem quoted_tagsPieces (before s : List Char) : Quoted (tagsPieces (Scan.scan matchTag before s)) := by
  intro a ha
  obtain ⟨p, -, h⟩ := List.mem_flatMap.1 ha
  cases p with
  | plain c => simp at h
  | found u tag => exact quoted_attrPieces [] tag a h

theorem tagsPieces_mapValues (before before' s : List Char)
    (h : SameMarks f (tagsPieces (Scan.scan matchTag before s))) :
    tagsPieces (Scan.scan matchTag before' (htmlText (mapValues f (tagsPieces (Scan.scan matchTag before s))))) =
      mapValues f (tagsPieces (Scan.scan matchTag before s)) := by
  induction before, s using Scan.scan_induction (m := matchTag) generalizing before' with
  | nil before => simp [tagsPieces, mapValues, htmlText]
  | plain before c s hno ih =>
    rw [Scan.scan_plain hno] at h ⊢
    have h' : SameMarks f (tagsPieces (Scan.scan matchTag (c :: before) s)) := SameMarks.tail h
    have hrel := rel_mapValues (quoted_tagsPieces (c :: before) s) h'
    rw [htmlText_tagsPieces] at hrel
    have hno' : Scan.NoMatch matchTag before'
        (c :: htmlText (mapValues f (tagsPieces (Scan.scan matchTag (c :: before) s)))) := by
      intro u n hmatch
      obtain ⟨e, rest, heq, hletter, -⟩ := matchTag_some hmatch
      obtain ⟨rfl, htext⟩ := List.cons_eq_cons.1 heq
      have hhead := hrel.head?
      rw [htext] at hhead
      obtain ⟨rest₀, hs⟩ : ∃ rest₀, s = e :: rest₀ := by
        cases s with
        | nil => cases hhead
        | cons e' rest₀ =>
          cases hhead
          exact ⟨rest₀, rfl⟩
      subst hs
      refine hno () (1 + tagLength none rest₀) ?_
      rw [matchTag_letter hletter]
      congr 2
      omega
    show tagsPieces (Scan.scan matchTag before' (c :: htmlText (mapValues f (tagsPieces (Scan.scan matchTag (c :: before) s))))) =
      .text c :: mapValues f (tagsPieces (Scan.scan matchTag (c :: before) s))
    rw [Scan.scan_plain hno']
    exact congrArg (HtmlPiece.text c :: ·) (ih (c :: before') h')
  | found before s u n hne hmatch ih =>
    obtain ⟨c, rest, rfl, hletter, hn⟩ := matchTag_some hmatch
    obtain ⟨k, hk⟩ : ∃ k, tagLength none rest = k := ⟨_, rfl⟩
    have hle : k ≤ rest.length := hk ▸ tagLength_le none rest
    have hnk : n + 1 = k + 2 := by omega
    rw [hnk] at hmatch ih
    rw [Scan.scan_found hne hmatch] at h ⊢
    simp only [List.take_succ_cons, List.drop_succ_cons] at h ih ⊢
    -- the rest of the tag, and what follows
    have hlen : (rest.take k).length = k := by rw [List.length_take, Nat.min_eq_left hle]
    obtain ⟨inner, after, hinner, hafter⟩ : ∃ inner after, rest.take k = inner ∧ rest.drop k = after := ⟨_, _, rfl, rfl⟩
    have hrest : rest = inner ++ after := by rw [← hinner, ← hafter, List.take_append_drop]
    rw [hinner, hafter] at h ih ⊢
    rw [hinner] at hlen
    have htags : tagsPieces (.found u ('<' :: c :: inner) ::
        Scan.scan matchTag (('<' :: c :: inner).reverse ++ before) after) =
        (.text '<' :: .text c :: attrPieces (Scan.scan matchAttr [c, '<'] inner)) ++
          tagsPieces (Scan.scan matchTag (('<' :: c :: inner).reverse ++ before) after) := by
      rw [← tagPieces_cons hletter]
      rfl
    rw [htags] at h ⊢
    have hattr : SameMarks f (attrPieces (Scan.scan matchAttr [c, '<'] inner)) :=
      fun a ha => h a (List.mem_append_left _ (List.mem_cons_of_mem _ (List.mem_cons_of_mem _ ha)))
    have htail : SameMarks f (tagsPieces (Scan.scan matchTag (('<' :: c :: inner).reverse ++ before) after)) :=
      fun a ha => h a (List.mem_append_right _ ha)
    have hrel := rel_mapValues (quoted_attrPieces [c, '<'] inner) hattr
    rw [htmlText_attrPieces] at hrel
    rw [mapValues_append, htmlText_append]
    generalize hi : htmlText (mapValues f (attrPieces (Scan.scan matchAttr [c, '<'] inner))) = inner' at hrel
    have hfirst : htmlText (mapValues f (.text '<' :: .text c :: attrPieces (Scan.scan matchAttr [c, '<'] inner))) =
        '<' :: c :: inner' := by
      rw [← hi]
      rfl
    rw [hfirst]
    generalize ha : htmlText (mapValues f (tagsPieces (Scan.scan matchTag (('<' :: c :: inner).reverse ++ before) after))) =
      after' at ih
    have hclosed : tagLength none (inner' ++ after') = inner'.length := by
      refine Rel.tagLength hrel (fun hnil : after = [] => ?_) none openQuote_none ?_
      · rw [← ha, hnil]
        simp [tagsPieces, mapValues, htmlText]
      · rw [← hrest, hk, hlen]
    have hmatch' : matchTag before' (('<' :: c :: inner') ++ after') = some ((), (inner'.length + 1) + 1) := by
      rw [List.cons_append, List.cons_append, matchTag_letter hletter, hclosed]
      congr 2
      omega
    have hlength : ('<' :: c :: inner').length = (inner'.length + 1) + 1 := rfl
    rw [Scan.scan_found (by simp) hmatch', ← hlength, List.take_left, List.drop_left]
    have hpieces := attrPieces_mapValues [c, '<'] [c, '<'] inner hattr
    rw [hi] at hpieces
    have hrestPieces := ih (('<' :: c :: inner').reverse ++ before') htail
    show tagPieces ('<' :: c :: inner') ++ tagsPieces (Scan.scan matchTag (('<' :: c :: inner').reverse ++ before') after') = _
    rw [tagPieces_cons hletter, hpieces, hrestPieces]
    rfl

theorem htmlPieces_mapValues {html : List Char} (h : SameMarks f (htmlPieces html)) :
    htmlPieces (htmlText (mapValues f (htmlPieces html))) = mapValues f (htmlPieces html) :=
  tagsPieces_mapValues [] [] html h

end CaeloCms.Link
