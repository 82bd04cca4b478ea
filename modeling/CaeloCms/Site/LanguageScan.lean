import CaeloCms.Site.DocumentLanguage

/-!
# The scan of the `<html>` tag

The scan cuts the attributes of the tag into segments.  A row of segments is what the scan finds if every value ends where
the next segment begins (`Chained`), and then the tokenizer reads the same attributes, but for the slashes, which the scan
takes for the beginning of a name.
-/

namespace CaeloCms.Site

open HtmlTokens

/-- What the scan takes for an attribute: the white space before it, its name and its value. -/
structure Segment where
  lead : List Char
  name : List Char
  value : ValuePart
deriving DecidableEq

def Segment.text (s : Segment) : List Char := s.lead ++ s.name ++ s.value.text

def Segment.isLang (s : Segment) : Bool := lower s.name = "lang".toList

/-- The segments of a tag, the white space before its `>`, and what follows the `>`. -/
structure Segments where
  segments : List Segment
  tail : List Char
  after : List Char
deriving DecidableEq

def scanSegments : Nat → List Char → Option Segments
  | 0, _ => none
  | n + 1, text =>
    match text.dropWhile HtmlTokens.isSpace with
    | [] => none
    | c :: rest =>
      if c = '>' then some ⟨[], text.takeWhile HtmlTokens.isSpace, rest⟩
      else
        (cutValue (rest.dropWhile (!endsName ·))).bind fun v =>
          (scanSegments n v.2).map fun more =>
            { more with segments :=
                ⟨text.takeWhile HtmlTokens.isSpace, c :: rest.takeWhile (!endsName ·), v.1⟩ :: more.segments }

def textOf (segments : List Segment) : List Char := segments.flatMap Segment.text

def kept (segments : List Segment) : List Segment := segments.filter fun s => !s.isLang

theorem skipValue_eq (text : List Char) : skipValue text = (cutValue text).map fun v => (v.1.text, v.2) := by
  unfold skipValue cutValue
  have hspace : isHtmlSpace = HtmlTokens.isSpace := rfl
  have hstays : (fun c => !HtmlTokens.isSpace c && c ≠ '>') = (!endsUnquoted ·) := by
    funext c
    simp [endsUnquoted, Bool.not_or]
  rw [hspace]
  dsimp only
  by_cases heq : (text.dropWhile HtmlTokens.isSpace).head? = some '='
  · rw [if_pos heq, if_pos heq]
    cases hrest : (text.dropWhile HtmlTokens.isSpace).tail.dropWhile HtmlTokens.isSpace with
    | nil => rfl
    | cons quote value =>
      dsimp only
      by_cases hquote : quote = '"' ∨ quote = '\''
      · rw [if_pos hquote, if_pos hquote]
        by_cases hmem : quote ∈ value
        · rw [if_pos hmem, if_pos hmem]
          rfl
        · rw [if_neg hmem, if_neg hmem]
          rfl
      · rw [if_neg hquote, if_neg hquote, hstays]
        rfl
  · rw [if_neg heq, if_neg heq]
    rfl

/-- The scan of the source keeps the segments that are no `lang`. -/
theorem stripLangAttributes_eq (n : Nat) (text : List Char) :
    stripLangAttributes n text = (scanSegments n text).map fun r => (textOf (kept r.segments) ++ r.tail, r.after) := by
  induction n generalizing text with
  | zero => rfl
  | succ n ih =>
    have hspace : isHtmlSpace = HtmlTokens.isSpace := rfl
    have hname : (fun c => !HtmlTokens.isSpace c && !(c = '=' || c = '>' || c = '/')) = (!endsName ·) := by
      funext c
      unfold endsName
      cases HtmlTokens.isSpace c <;> by_cases h1 : c = '=' <;> by_cases h2 : c = '>' <;> by_cases h3 : c = '/' <;>
        simp [h1, h2, h3]
    rw [stripLangAttributes, scanSegments, hspace]
    dsimp only
    cases hrest : text.dropWhile HtmlTokens.isSpace with
    | nil => rfl
    | cons c rest =>
      dsimp only
      by_cases hc : c = '>'
      · rw [if_pos hc, if_pos hc]
        rfl
      · rw [if_neg hc, if_neg hc, hname, skipValue_eq]
        cases hvalue : cutValue (rest.dropWhile (!endsName ·)) with
        | none => rfl
        | some v =>
          rw [Option.map_some, Option.bind_some, Option.bind_some, ih]
          cases hmore : scanSegments n v.2 with
          | none => rfl
          | some more =>
            rw [Option.map_some, Option.map_some, Option.map_some, Option.map_some]
            dsimp only
            by_cases hlang : (c :: rest.takeWhile (!endsName ·)).map Char.toLower = "lang".toList
            · rw [if_pos hlang]
              simp [kept, Segment.isLang, lower, hlang]
            · rw [if_neg hlang]
              have hstays : kept (⟨text.takeWhile HtmlTokens.isSpace, c :: rest.takeWhile (!endsName ·), v.1⟩ ::
                  more.segments) =
                  ⟨text.takeWhile HtmlTokens.isSpace, c :: rest.takeWhile (!endsName ·), v.1⟩ :: kept more.segments :=
                List.filter_cons_of_pos (by rw [Segment.isLang, Bool.not_eq_true', decide_eq_false_iff_not]; exact hlang)
              rw [hstays]
              simp [textOf, Segment.text]

/-! ### Rows of segments -/

structure Segment.Ok (s : Segment) : Prop where
  lead : ∀ c ∈ s.lead, HtmlTokens.isSpace c = true
  name : ∃ c rest, s.name = c :: rest ∧ HtmlTokens.isSpace c = false ∧ c ≠ '>' ∧ ∀ d ∈ rest, endsName d = false
  value : Written s.value

/-- Every value ends where the text goes on. -/
def Chained (fin : List Char) : List Segment → Prop
  | [] => True
  | s :: segments => s.Ok ∧ Ends s.value (textOf segments ++ fin) ∧ Chained fin segments

variable {segments : List Segment} {s : Segment} {n : Nat}

theorem Segment.Ok.text_ne_nil (h : s.Ok) : s.text ≠ [] := by
  obtain ⟨c, rest, hname, -⟩ := h.name
  simp [Segment.text, hname]

theorem textOf_cons (s : Segment) (segments : List Segment) : textOf (s :: segments) = s.text ++ textOf segments := rfl

theorem length_le_textOf {fin : List Char} (h : Chained fin segments) :
    segments.length ≤ (textOf segments).length := by
  induction segments with
  | nil => exact Nat.le_refl 0
  | cons s segments ih =>
    have hpos : 0 < s.text.length := List.length_pos_of_ne_nil h.1.text_ne_nil
    have hrest := ih h.2.2
    rw [textOf_cons, List.length_append, List.length_cons]
    omega

theorem chained_of_scan {text : List Char} {r : Segments} (h : scanSegments n text = some r) :
    text = textOf r.segments ++ (r.tail ++ '>' :: r.after) ∧ (∀ c ∈ r.tail, HtmlTokens.isSpace c = true) ∧
      Chained (r.tail ++ '>' :: r.after) r.segments := by
  induction n generalizing text r with
  | zero => cases h
  | succ n ih =>
    rw [scanSegments] at h
    have hsplit : text = text.takeWhile HtmlTokens.isSpace ++ text.dropWhile HtmlTokens.isSpace :=
      List.takeWhile_append_dropWhile.symm
    have hspaces := all_takeWhile HtmlTokens.isSpace text
    cases hrest : text.dropWhile HtmlTokens.isSpace with
    | nil =>
      rw [hrest] at h
      cases h
    | cons c rest =>
      rw [hrest] at h hsplit
      dsimp only at h
      by_cases hc : c = '>'
      · rw [if_pos hc] at h
        obtain rfl := Option.some.inj h
        subst hc
        exact ⟨hsplit, hspaces, trivial⟩
      · rw [if_neg hc] at h
        obtain ⟨v, hv, h⟩ := Option.bind_eq_some_iff.mp h
        obtain ⟨more, hmore, rfl⟩ := Option.map_eq_some_iff.mp h
        obtain ⟨htext, htail, hchained⟩ := ih hmore
        have hv' : cutValue (rest.dropWhile (!endsName ·)) = some (v.1, v.2) := hv
        obtain ⟨hwritten, hcut⟩ := written_of_cutValue hv'
        have hcspace : HtmlTokens.isSpace c = false := head_dropWhile (by rw [hrest]; rfl)
        have hname : ∀ d ∈ rest.takeWhile (!endsName ·), endsName d = false := fun d hd => by
          simpa using all_takeWhile (!endsName ·) rest d hd
        have hok : Segment.Ok ⟨text.takeWhile HtmlTokens.isSpace, c :: rest.takeWhile (!endsName ·), v.1⟩ :=
          ⟨hspaces, ⟨c, _, rfl, hcspace, hc, hname⟩, hwritten⟩
        have hne : v.2 ≠ [] := by
          rw [htext]
          simp
        have hends : Ends v.1 v.2 := ends_of_cutValue hv' hne fun d hd => by
          simpa using head_dropWhile (p := (!endsName ·)) hd
        refine ⟨?_, htail, hok, ?_, hchained⟩
        · calc text = text.takeWhile HtmlTokens.isSpace ++ c :: rest := hsplit
            _ = text.takeWhile HtmlTokens.isSpace ++
                  c :: (rest.takeWhile (!endsName ·) ++ (v.1.text ++ v.2)) := by
              rw [← hcut, List.takeWhile_append_dropWhile]
            _ = (text.takeWhile HtmlTokens.isSpace ++ c :: rest.takeWhile (!endsName ·) ++ v.1.text) ++
                  (textOf more.segments ++ (more.tail ++ '>' :: more.after)) := by
              rw [← htext]
              simp
            _ = _ := (List.append_assoc _ _ _).symm
        · rw [← htext]
          exact hends

theorem scan_of_chained {tail after : List Char}
    (htail : ∀ c ∈ tail, HtmlTokens.isSpace c = true) (h : Chained (tail ++ '>' :: after) segments)
    (hn : segments.length < n) :
    scanSegments n (textOf segments ++ (tail ++ '>' :: after)) = some ⟨segments, tail, after⟩ := by
  induction segments generalizing n with
  | nil =>
    obtain ⟨n, rfl⟩ := Nat.exists_eq_add_of_lt hn
    obtain ⟨htake, hdrop⟩ := span_append (b := '>' :: after) htail (by rintro d ⟨⟩; decide)
    show scanSegments (0 + n + 1) (tail ++ '>' :: after) = _
    rw [scanSegments, hdrop, htake]
    exact if_pos rfl
  | cons s segments ih =>
    obtain ⟨hok, hends, hchained⟩ := h
    obtain ⟨c, rest, hname, hcspace, hc, hrest⟩ := hok.name
    obtain ⟨n, rfl⟩ := Nat.exists_eq_add_of_lt (Nat.lt_of_le_of_lt (Nat.zero_le _) hn)
    have htext : textOf (s :: segments) ++ (tail ++ '>' :: after) =
        s.lead ++ c :: (rest ++ (s.value.text ++ (textOf segments ++ (tail ++ '>' :: after)))) := by
      simp [textOf_cons, Segment.text, hname]
    obtain ⟨htake, hdrop⟩ := span_append (b := c :: (rest ++ (s.value.text ++ (textOf segments ++ (tail ++ '>' :: after)))))
      hok.lead (by rintro d ⟨⟩; exact hcspace)
    obtain ⟨htake', hdrop'⟩ := span_append (p := (!endsName ·)) (a := rest)
      (b := s.value.text ++ (textOf segments ++ (tail ++ '>' :: after))) (fun d hd => by simp [hrest d hd])
      (fun d hd => by simp [hok.value.endsName hends d hd])
    rw [htext, scanSegments, hdrop, htake]
    dsimp only
    rw [if_neg hc, hdrop', htake', cutValue_append hok.value hends, Option.bind_some,
      ih hchained (by rw [List.length_cons] at hn; omega), Option.map_some, ← hname]

/-! ### The same attributes, read by the tokenizer -/

/-- The name without the slash that the scan takes into it. -/
def Segment.attrName (s : Segment) : List Char := s.name.dropWhile (· = '/')

def Segment.slash (s : Segment) : List Char := s.name.takeWhile (· = '/')

/-- The attributes the tokenizer reads in a row of segments behind `before`, and what is left before the `>`. -/
def attrsOf : List Char → List Segment → List Attr × List Char
  | before, [] => ([], before)
  | before, s :: segments =>
    if s.attrName = [] then attrsOf (before ++ s.lead ++ s.slash) segments
    else
      (⟨before ++ s.lead ++ s.slash, s.attrName ++ s.value.text, lower s.attrName, s.value.value⟩ ::
        (attrsOf [] segments).1, (attrsOf [] segments).2)

def PlainSlashes (segments : List Segment) : Prop := ∀ s ∈ segments, s.name = ['/'] → s.value.form = .bare

theorem Segment.name_eq (s : Segment) : s.name = s.slash ++ s.attrName := List.takeWhile_append_dropWhile.symm

/-- A name is a slash, or an attribute name that a slash may precede. -/
theorem Segment.Ok.cases (h : s.Ok) :
    (s.name = ['/'] ∧ s.slash = ['/'] ∧ s.attrName = []) ∨
      ∃ c rest, s.attrName = c :: rest ∧ (s.slash = [] ∨ s.slash = ['/']) ∧ HtmlTokens.isSpace c = false ∧ c ≠ '/' ∧
        c ≠ '>' ∧ ∀ d ∈ rest, endsName d = false := by
  obtain ⟨c, rest, hname, hcspace, hc, hrest⟩ := h.name
  unfold Segment.attrName Segment.slash
  rw [hname]
  by_cases hslash : c = '/'
  · subst hslash
    cases rest with
    | nil => exact .inl ⟨rfl, rfl, rfl⟩
    | cons d rest =>
      have hd := hrest d List.mem_cons_self
      simp only [endsName, Bool.or_eq_false_iff, decide_eq_false_iff_not] at hd
      obtain ⟨⟨⟨hdspace, hdslash⟩, hdclose⟩, -⟩ := hd
      refine .inr ⟨d, rest, ?_, .inr ?_, hdspace, hdslash, hdclose, fun e he => hrest e (List.mem_cons_of_mem _ he)⟩
      · rw [List.dropWhile_cons_of_pos (by simp), List.dropWhile_cons_of_neg (by simpa using hdslash)]
      · rw [List.takeWhile_cons_of_pos (by simp), List.takeWhile_cons_of_neg (by simpa using hdslash)]
  · refine .inr ⟨c, rest, ?_, .inl ?_, hcspace, hslash, hc, hrest⟩
    · rw [List.dropWhile_cons_of_neg (by simpa using hslash)]
    · rw [List.takeWhile_cons_of_neg (by simpa using hslash)]

theorem isLead_of_space {s : List Char} (h : ∀ c ∈ s, HtmlTokens.isSpace c = true) : ∀ c ∈ s, isLead c = true :=
  fun c hc => by simp [isLead, h c hc]

theorem isLead_lead (h : s.Ok) : ∀ c ∈ s.lead ++ s.slash, isLead c = true := by
  intro c hc
  rcases List.mem_append.mp hc with hc | hc
  · exact isLead_of_space h.lead c hc
  · have hslash := List.mem_takeWhile_imp hc
    simp only [decide_eq_true_eq] at hslash
    simp [isLead, hslash]

theorem text_of_bare {v : ValuePart} (h : Written v) (hform : v.form = .bare) : v.text = [] := by
  cases h with
  | bare => rfl
  | unquoted => cases hform
  | quoted => cases hform

theorem readAttrs_of_chained {tail after before : List Char}
    (htail : ∀ c ∈ tail, HtmlTokens.isSpace c = true) (h : Chained (tail ++ '>' :: after) segments)
    (hplain : PlainSlashes segments) (hbefore : ∀ c ∈ before, isLead c = true) (hn : segments.length < n) :
    readAttrs n (before ++ (textOf segments ++ (tail ++ '>' :: after))) =
      some ⟨(attrsOf before segments).1, (attrsOf before segments).2 ++ tail, after⟩ := by
  induction segments generalizing before n with
  | nil =>
    obtain ⟨n, rfl⟩ := Nat.exists_eq_add_of_lt hn
    have hlead : ∀ c ∈ before ++ tail, isLead c = true :=
      List.forall_mem_append.mpr ⟨hbefore, isLead_of_space htail⟩
    obtain ⟨htake, hdrop⟩ := span_append (b := '>' :: after) hlead (by rintro d ⟨⟩; decide)
    show readAttrs (0 + n + 1) (before ++ (tail ++ '>' :: after)) = _
    rw [← List.append_assoc, readAttrs, hdrop, htake]
    exact if_pos rfl
  | cons s segments ih =>
    obtain ⟨hok, hends, hchained⟩ := h
    have hrest : PlainSlashes segments := fun s hs => hplain s (List.mem_cons_of_mem _ hs)
    rw [List.length_cons] at hn
    rcases hok.cases with ⟨hname, hslash, hempty⟩ | ⟨c, rest, hattr, -, hcspace, hcslash, hc, hrestName⟩
    · -- the slash is left to the next attribute
      have hvalue := text_of_bare hok.value (hplain s List.mem_cons_self hname)
      have hbefore' : ∀ c ∈ before ++ s.lead ++ s.slash, isLead c = true := by
        rw [List.append_assoc]
        exact List.forall_mem_append.mpr ⟨hbefore, isLead_lead hok⟩
      have htext : before ++ (textOf (s :: segments) ++ (tail ++ '>' :: after)) =
          (before ++ s.lead ++ s.slash) ++ (textOf segments ++ (tail ++ '>' :: after)) := by
        simp [textOf_cons, Segment.text, hvalue, hname, hslash]
      rw [htext, ih hchained hrest hbefore' (by omega), attrsOf, if_pos hempty]
    · have hlead : ∀ c ∈ before ++ s.lead ++ s.slash, isLead c = true := by
        rw [List.append_assoc]
        exact List.forall_mem_append.mpr ⟨hbefore, isLead_lead hok⟩
      obtain ⟨n, rfl⟩ := Nat.exists_eq_add_of_lt (Nat.lt_of_le_of_lt (Nat.zero_le _) hn)
      have htext : before ++ (textOf (s :: segments) ++ (tail ++ '>' :: after)) =
          (before ++ s.lead ++ s.slash) ++
            c :: (rest ++ (s.value.text ++ (textOf segments ++ (tail ++ '>' :: after)))) := by
        simp [textOf_cons, Segment.text, s.name_eq, hattr]
      obtain ⟨htake, hdrop⟩ := span_append
        (b := c :: (rest ++ (s.value.text ++ (textOf segments ++ (tail ++ '>' :: after))))) hlead
        (by rintro d ⟨⟩; simp [isLead, hcspace, hcslash])
      obtain ⟨htake', hdrop'⟩ := span_append (p := (!endsName ·)) (a := rest)
        (b := s.value.text ++ (textOf segments ++ (tail ++ '>' :: after))) (fun d hd => by simp [hrestName d hd])
        (fun d hd => by simp [hok.value.endsName hends d hd])
      have hmore : readAttrs (0 + n) ([] ++ (textOf segments ++ (tail ++ '>' :: after))) =
          some ⟨(attrsOf [] segments).1, (attrsOf [] segments).2 ++ tail, after⟩ :=
        ih hchained hrest (by simp) (by omega)
      rw [htext, readAttrs, hdrop, htake]
      dsimp only
      rw [if_neg hc, hdrop', htake', cutValue_append hok.value hends, Option.bind_some]
      change (readAttrs (0 + n) ([] ++ (textOf segments ++ (tail ++ '>' :: after)))).map _ = _
      rw [hmore, Option.map_some, attrsOf, if_neg (by simp [hattr]), hattr]

/-! ### Attributes with other names -/

abbrev langName : List Char := ['l', 'a', 'n', 'g']

/-- The segment is a `lang` to the tokenizer. -/
def Segment.readsLang (s : Segment) : Prop := lower s.attrName = langName

instance (s : Segment) : Decidable s.readsLang := inferInstanceAs (Decidable (_ = _))

/-- What is left of a segment without its `lang`. -/
def Segment.left (s : Segment) : List Char :=
  if s.readsLang then if s.slash = [] then [] else s.lead ++ s.slash else s.text

def Segment.other (s : Segment) : List (List Char × List Char) :=
  if s.attrName = [] ∨ s.readsLang then [] else [(lower s.attrName, s.value.value)]

theorem rdropWhile_spaces {s t : List Char} (ht : ∀ c ∈ t, HtmlTokens.isSpace c = true) :
    (s ++ t).rdropWhile HtmlTokens.isSpace = s.rdropWhile HtmlTokens.isSpace := by
  rw [List.rdropWhile, List.reverse_append,
    List.dropWhile_append_of_pos fun c hc => ht c (List.mem_reverse.mp hc)]
  rfl

theorem rdropWhile_slash (s : List Char) : (s ++ ['/']).rdropWhile HtmlTokens.isSpace = s ++ ['/'] :=
  List.rdropWhile_concat_neg _ _ _ (by decide)

theorem without_attrsOf {fin : List Char} (h : Chained fin segments)
    (hplain : PlainSlashes segments) {before : List Char}
    (hbefore : before.rdropWhile HtmlTokens.isSpace = before) :
    (attrsOf before segments).1.flatMap (fun a => a.without langName) ++ (attrsOf before segments).2 =
      before ++ segments.flatMap Segment.left := by
  induction segments generalizing before with
  | nil => simp [attrsOf]
  | cons s segments ih =>
    obtain ⟨hok, -, hchained⟩ := h
    have hrest : PlainSlashes segments := fun s hs => hplain s (List.mem_cons_of_mem _ hs)
    rw [attrsOf, List.flatMap_cons]
    rcases hok.cases with ⟨hname, hslash, hempty⟩ | ⟨c, rest, hattr, hslash, -⟩
    · have hvalue := text_of_bare hok.value (hplain s List.mem_cons_self hname)
      have hleft : s.left = s.lead ++ s.slash := by
        have hnot : ¬ s.readsLang := by
          rw [Segment.readsLang, hempty]
          decide
        rw [Segment.left, if_neg hnot, Segment.text, hvalue, hname, hslash, List.append_nil]
      rw [if_pos hempty, hslash, ih hchained hrest (rdropWhile_slash _), hleft, hslash]
      simp only [List.append_assoc]
    · have hne : s.attrName ≠ [] := by simp [hattr]
      have hmore : (attrsOf [] segments).1.flatMap (fun a => a.without langName) ++ (attrsOf [] segments).2 =
          [] ++ segments.flatMap Segment.left := ih hchained hrest rfl
      rw [if_neg hne, List.flatMap_cons, List.append_assoc, hmore, List.nil_append, ← List.append_assoc]
      congr 1
      by_cases hlang : s.readsLang
      · have hwithout : Attr.without ⟨before ++ s.lead ++ s.slash, s.attrName ++ s.value.text, lower s.attrName,
            s.value.value⟩ langName = (before ++ s.lead ++ s.slash).rdropWhile HtmlTokens.isSpace := if_pos hlang
        rw [hwithout, Segment.left, if_pos hlang]
        rcases hslash with hslash | hslash
        · rw [hslash, if_pos rfl, List.append_nil, List.append_nil, rdropWhile_spaces hok.lead, hbefore]
        · rw [hslash, if_neg (by simp), rdropWhile_slash, List.append_assoc]
      · have hwithout : Attr.without ⟨before ++ s.lead ++ s.slash, s.attrName ++ s.value.text, lower s.attrName,
            s.value.value⟩ langName = (before ++ s.lead ++ s.slash) ++ (s.attrName ++ s.value.text) := if_neg hlang
        rw [hwithout, Segment.left, if_neg hlang, Segment.text, s.name_eq]
        simp only [List.append_assoc]

theorem others_attrsOf (segments : List Segment) (before : List Char) :
    ((attrsOf before segments).1.filter fun a => a.name ≠ langName).map (fun a => (a.name, a.value)) =
      segments.flatMap Segment.other := by
  induction segments generalizing before with
  | nil => rfl
  | cons s segments ih =>
    rw [attrsOf, List.flatMap_cons]
    by_cases hempty : s.attrName = []
    · rw [if_pos hempty, ih, Segment.other, if_pos (.inl hempty), List.nil_append]
    · rw [if_neg hempty]
      by_cases hlang : s.readsLang
      · have hname : lower s.attrName = langName := hlang
        rw [List.filter_cons_of_neg (by simp [hname]), ih, Segment.other, if_pos (.inr hlang), List.nil_append]
      · have hname : lower s.attrName ≠ langName := hlang
        rw [List.filter_cons_of_pos (by simpa using hname), List.map_cons, ih, Segment.other,
          if_neg (by simp [hempty, hlang])]
        rfl

theorem readsLang_of_isLang (h : s.isLang = true) : s.readsLang ∧ s.slash = [] := by
  have hname : lower s.name = langName := of_decide_eq_true h
  have hfirst : s.slash = [] ∧ s.attrName = s.name := by
    unfold Segment.slash Segment.attrName
    cases hn : s.name with
    | nil => exact ⟨rfl, rfl⟩
    | cons c rest =>
      rw [hn] at hname
      have hc : c ≠ '/' := by
        rintro rfl
        exact absurd (List.cons.inj hname).1 (by decide)
      exact ⟨List.takeWhile_cons_of_neg (by simpa using hc), List.dropWhile_cons_of_neg (by simpa using hc)⟩
  exact ⟨by rw [Segment.readsLang, hfirst.2]; exact hname, hfirst.1⟩

/-- Segments that are taken out leave nothing and are no other attribute. -/
theorem flatMap_kept {β : Type} {f : Segment → List β} (hf : ∀ s, s.readsLang → s.slash = [] → f s = [])
    (segments : List Segment) : (kept segments).flatMap f = segments.flatMap f := by
  induction segments with
  | nil => rfl
  | cons s segments ih =>
    by_cases hlang : s.isLang = true
    · obtain ⟨hreads, hslash⟩ := readsLang_of_isLang hlang
      have hkept : kept (s :: segments) = kept segments := List.filter_cons_of_neg (by simp [hlang])
      rw [hkept, List.flatMap_cons, hf s hreads hslash, ih]
      rfl
    · have hkept : kept (s :: segments) = s :: kept segments := List.filter_cons_of_pos (by simpa using hlang)
      rw [hkept, List.flatMap_cons, List.flatMap_cons, ih]

theorem left_kept (segments : List Segment) : (kept segments).flatMap Segment.left = segments.flatMap Segment.left :=
  flatMap_kept (fun _ hreads hslash => by rw [Segment.left, if_pos hreads, if_pos hslash]) segments

theorem other_kept (segments : List Segment) :
    (kept segments).flatMap Segment.other = segments.flatMap Segment.other :=
  flatMap_kept (fun _ hreads _ => by rw [Segment.other, if_pos (.inr hreads)]) segments

/-- Without a `lang` behind a slash, the tokenizer reads none in the segments that stay. -/
theorem find_attrsOf (hslash : ∀ s ∈ segments, lower s.name ≠ "/lang".toList)
    (hok : ∀ s ∈ segments, s.Ok) (hkept : ∀ s ∈ segments, s.isLang = false) (before : List Char) :
    (attrsOf before segments).1.find? (fun a => a.name = langName) = none := by
  induction segments generalizing before with
  | nil => rfl
  | cons s segments ih =>
    have hmore := ih (fun s hs => hslash s (List.mem_cons_of_mem _ hs)) (fun s hs => hok s (List.mem_cons_of_mem _ hs))
      fun s hs => hkept s (List.mem_cons_of_mem _ hs)
    rw [attrsOf]
    by_cases hempty : s.attrName = []
    · rw [if_pos hempty]
      exact hmore _
    · rw [if_neg hempty]
      have hname : lower s.attrName ≠ langName := by
        intro hreads
        rcases (hok s List.mem_cons_self).cases with ⟨-, -, hnil⟩ | ⟨c, rest, -, hslashed, -⟩
        · exact hempty hnil
        · have hwhole := s.name_eq
          rcases hslashed with hs | hs
          · rw [hs, List.nil_append] at hwhole
            have hnot := hkept s List.mem_cons_self
            rw [Segment.isLang, hwhole, hreads] at hnot
            cases hnot
          · refine hslash s List.mem_cons_self ?_
            rw [hwhole, hs, lower, List.map_append]
            show ['/'] ++ lower s.attrName = _
            rw [hreads]
            rfl
      rw [List.find?_cons_of_neg (by simpa using hname)]
      exact hmore []

end CaeloCms.Site
