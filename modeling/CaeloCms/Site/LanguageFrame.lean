import CaeloCms.Site.LanguageScan

/-!
# Setting the language changes one attribute

Where the scan finds the tag that the tokenizer reads first, and cuts it into the same attributes, the language that is set
is the only thing that changes, and setting it again changes nothing (`applyDocumentLanguage_sets`).
-/

namespace CaeloCms.Site

open HtmlTokens

/-! ### The value -/

def escapeChar (c : Char) : List Char :=
  if c = '&' then "&amp;".toList
  else if c = '"' then "&quot;".toList
  else if c = '<' then "&lt;".toList
  else if c = '>' then "&gt;".toList
  else [c]

theorem escapeAttr_eq (s : List Char) : escapeAttr s = s.flatMap escapeChar := by
  have hchar : ∀ c, escapeAttr [c] = escapeChar c := by
    intro c
    by_cases h1 : c = '&'
    · subst h1
      decide +kernel
    · by_cases h2 : c = '"'
      · subst h2
        decide +kernel
      · by_cases h3 : c = '<'
        · subst h3
          decide +kernel
        · by_cases h4 : c = '>'
          · subst h4
            decide +kernel
          · simp [escapeAttr, replaceAll, escapeChar, h1, h2, h3, h4]
  induction s with
  | nil => rfl
  | cons c s ih =>
    have hsplit : escapeAttr (c :: s) = escapeAttr [c] ++ escapeAttr s := by
      simp [escapeAttr, replaceAll]
    rw [hsplit, hchar, ih]
    rfl

def references : List (List Char × Char) :=
  [("amp;".toList, '&'), ("quot;".toList, '"'), ("lt;".toList, '<'), ("gt;".toList, '>')]

/-- The text with its references read; `skip` characters belong to the one just read. -/
def readReferences : Nat → List Char → List Char
  | _, [] => []
  | skip + 1, _ :: text => readReferences skip text
  | 0, c :: text =>
    match if c = '&' then references.find? (fun r => r.1.isPrefixOf text) else none with
    | none => c :: readReferences 0 text
    | some r => r.2 :: readReferences r.1.length text

theorem readReferences_skip (name text : List Char) : readReferences name.length (name ++ text) = readReferences 0 text := by
  induction name with
  | nil => rfl
  | cons c name ih => exact ih

theorem readReferences_escapeChar (c : Char) (text : List Char) :
    readReferences 0 (escapeChar c ++ text) = c :: readReferences 0 text := by
  unfold escapeChar
  by_cases h1 : c = '&'
  · subst h1
    exact congrArg ('&' :: ·) (readReferences_skip "amp;".toList text)
  · by_cases h2 : c = '"'
    · subst h2
      exact congrArg ('"' :: ·) (readReferences_skip "quot;".toList text)
    · by_cases h3 : c = '<'
      · subst h3
        exact congrArg ('<' :: ·) (readReferences_skip "lt;".toList text)
      · by_cases h4 : c = '>'
        · subst h4
          exact congrArg ('>' :: ·) (readReferences_skip "gt;".toList text)
        · rw [if_neg h1, if_neg h2, if_neg h3, if_neg h4]
          simp [readReferences, h1]

theorem readReferences_escapeAttr (s : List Char) : readReferences 0 (escapeAttr s) = s := by
  rw [escapeAttr_eq]
  induction s with
  | nil => rfl
  | cons c s ih => rw [List.flatMap_cons, readReferences_escapeChar, ih]

theorem quote_not_mem_escapeAttr (s : List Char) : '"' ∉ escapeAttr s := by
  rw [escapeAttr_eq]
  intro hmem
  obtain ⟨c, -, hc⟩ := List.mem_flatMap.mp hmem
  unfold escapeChar at hc
  by_cases h1 : c = '&'
  · rw [if_pos h1] at hc
    exact absurd hc (by decide)
  · rw [if_neg h1] at hc
    by_cases h2 : c = '"'
    · rw [if_pos h2] at hc
      exact absurd hc (by decide)
    · rw [if_neg h2] at hc
      by_cases h3 : c = '<'
      · rw [if_pos h3] at hc
        exact absurd hc (by decide)
      · rw [if_neg h3] at hc
        by_cases h4 : c = '>'
        · rw [if_pos h4] at hc
          exact absurd hc (by decide)
        · rw [if_neg h4] at hc
          exact h2 (List.mem_singleton.mp hc).symm

def langSegments : Option (List Char) → List Segment
  | none => []
  | some lang => [⟨[' '], langName, ⟨.quoted, '=' :: '"' :: escapeAttr lang ++ ['"'], escapeAttr lang⟩⟩]

theorem textOf_langSegments (lang : Option (List Char)) : textOf (langSegments lang) = langAttribute lang := by
  cases lang with
  | none => rfl
  | some lang =>
    have hletters : " lang=\"".toList = [' ', 'l', 'a', 'n', 'g', '=', '"'] := by decide +kernel
    show _ = " lang=\"".toList ++ escapeAttr lang ++ ['"']
    rw [hletters]
    simp only [langSegments, textOf, Segment.text, List.flatMap_cons, List.flatMap_nil, List.append_nil,
      List.cons_append, List.nil_append]

theorem chained_langSegments {fin : List Char} {segments : List Segment} (h : Chained fin segments)
    (lang : Option (List Char)) : Chained fin (langSegments lang ++ segments) := by
  cases lang with
  | none => exact h
  | some lang =>
    have hwritten : Written ⟨.quoted, [] ++ '=' :: [] ++ '"' :: escapeAttr lang ++ ['"'], escapeAttr lang⟩ :=
      .quoted (by simp) (by simp) (.inl rfl) (quote_not_mem_escapeAttr lang)
    have hlead : ∀ c ∈ [' '], HtmlTokens.isSpace c = true := List.forall_mem_singleton.mpr rfl
    have hname : ∀ d ∈ ['a', 'n', 'g'], endsName d = false := by
      rintro d (_ | ⟨_, _ | ⟨_, _ | ⟨_, ⟨⟩⟩⟩⟩) <;> rfl
    exact ⟨⟨hlead, ⟨'l', ['a', 'n', 'g'], rfl, by decide, by decide, hname⟩, hwritten⟩, trivial, h⟩

/-! ### The opener -/

abbrev tagName : List Char := "html".toList

theorem findOpener_cons {c : Char} {text : List Char} (h : opensTag endsOpener tagName (c :: text) = false) :
    findOpener (c :: text) = (findOpener text).map fun r => (c :: r.1, r.2) :=
  if_neg (by rw [h]; exact Bool.false_ne_true)

theorem findOpener_eq_some {html : List Char} {r : List Char × List Char} (h : findOpener html = some r) :
    ∃ t, html = r.1 ++ '<' :: t ∧ opensTag endsOpener tagName ('<' :: t) = true ∧ r.2 = t.drop 4 := by
  induction html generalizing r with
  | nil => cases h
  | cons c text ih =>
    cases hopens : opensTag endsOpener tagName (c :: text) with
    | true =>
      rw [findOpener, if_pos hopens] at h
      obtain rfl := Option.some.inj h
      obtain rfl : c = '<' := by
        by_contra hc
        rw [opensTag_of_ne hc] at hopens
        cases hopens
      exact ⟨text, rfl, hopens, rfl⟩
    | false =>
      rw [findOpener_cons hopens] at h
      obtain ⟨g, hg, rfl⟩ := Option.map_eq_some_iff.mp h
      obtain ⟨t, ht, hopensT, hdrop⟩ := ih hg
      exact ⟨t, by rw [ht]; rfl, hopensT, hdrop⟩

theorem findOpener_append {before t : List Char} (hopens : opensTag endsOpener tagName ('<' :: t) = true)
    (hbefore : ∀ a b, before = a ++ b → b ≠ [] → opensTag endsOpener tagName (b ++ '<' :: t) = false) :
    findOpener (before ++ '<' :: t) = some (before, t.drop 4) := by
  induction before with
  | nil => exact if_pos hopens
  | cons c before ih =>
    have hc : opensTag endsOpener tagName (c :: (before ++ '<' :: t)) = false := hbefore [] (c :: before) rfl (by simp)
    have hrest : ∀ a b, before = a ++ b → b ≠ [] → opensTag endsOpener tagName (b ++ '<' :: t) = false := by
      intro a b hab hb
      exact hbefore (c :: a) b (by rw [hab]; rfl) hb
    rw [List.cons_append, findOpener_cons hc, ih hrest]
    rfl

theorem opensTag_before {p q : List Char} (h : ∀ r, findOpener (p ++ q) = some r → p.length ≤ r.1.length) :
    ∀ a b, p = a ++ b → b ≠ [] → opensTag endsOpener tagName (b ++ q) = false := by
  induction p with
  | nil =>
    intro a b hab hb
    exact absurd (List.append_eq_nil_iff.mp hab.symm).2 hb
  | cons c p ih =>
    have hc : opensTag endsOpener tagName (c :: (p ++ q)) = false := by
      by_contra hopens
      rw [Bool.not_eq_false] at hopens
      have hlen := h ([], (p ++ q).drop 4) (if_pos hopens)
      simp at hlen
    intro a b hab hb
    cases a with
    | nil =>
      obtain rfl : c :: p = b := hab
      exact hc
    | cons d a =>
      obtain ⟨rfl, htail⟩ := List.cons.inj hab
      refine ih (fun r hr => ?_) a b htail hb
      have hwhole := h (c :: r.1, r.2) (by rw [List.cons_append, findOpener_cons hc, hr]; rfl)
      simpa using hwhole

/-! ### What the scan finds -/

/-- The tag as the scan finds it: what precedes it, its letters as they are written, and its segments. -/
structure Scan where
  before : List Char
  letters : List Char
  tag : Segments
deriving DecidableEq

def scan (html : List Char) : Option Scan :=
  (findOpener html).bind fun r =>
    (scanSegments r.2.length r.2).map fun tag => ⟨r.1, (html.drop (r.1.length + 1)).take 4, tag⟩

def Scan.fin (s : Scan) : List Char := s.tag.tail ++ '>' :: s.tag.after

/-- The tag as the tokenizer reads it, with these segments. -/
def Scan.found (s : Scan) (segments : List Segment) : Found :=
  ⟨s.before, ⟨'<' :: tagName, (attrsOf [] segments).1, (attrsOf [] segments).2 ++ s.tag.tail⟩, s.tag.after⟩

theorem applyDocumentLanguage_of_scan {html : List Char} {s : Scan} (h : scan html = some s) (lang : Option (List Char)) :
    applyDocumentLanguage html lang =
      s.before ++ '<' :: (tagName ++ (textOf (langSegments lang ++ kept s.tag.segments) ++ s.fin)) := by
  obtain ⟨r, hr, h⟩ := Option.bind_eq_some_iff.mp h
  obtain ⟨tag, htag, rfl⟩ := Option.map_eq_some_iff.mp h
  unfold applyDocumentLanguage
  dsimp only
  rw [hr, Option.bind_some, stripLangAttributes_eq, htag, Option.map_some, Option.map_some]
  have htext : textOf (langSegments lang ++ kept tag.segments) = langAttribute lang ++ textOf (kept tag.segments) := by
    rw [← textOf_langSegments]
    exact List.flatMap_append
  have hletters : "<html".toList = '<' :: tagName := by decide +kernel
  dsimp only
  rw [htext, hletters, Scan.fin]
  simp only [List.append_assoc, List.cons_append]

theorem applyDocumentLanguage_of_none {html : List Char} (h : scan html = none) (lang : List Char) :
    applyDocumentLanguage html (some lang) = (splitDoctype html).1 ++
      '<' :: (tagName ++ (textOf (langSegments (some lang)) ++ ([] ++ '>' :: (splitDoctype html).2))) := by
  have hnone : ((findOpener html).bind fun r => (stripLangAttributes r.2.length r.2).map fun tag => (r.1, tag)) = none := by
    cases hr : findOpener html with
    | none => rfl
    | some r =>
      rw [scan, hr, Option.bind_some] at h
      rw [Option.bind_some, stripLangAttributes_eq, Option.map_eq_none_iff.mp h]
      rfl
  have hletters : "<html".toList = '<' :: tagName := by decide +kernel
  unfold applyDocumentLanguage
  dsimp only
  rw [hnone, textOf_langSegments, hletters]
  simp only [List.append_assoc, List.cons_append, List.nil_append]

theorem applyDocumentLanguage_null {html : List Char} (h : scan html = none) : applyDocumentLanguage html none = html := by
  have hnone : ((findOpener html).bind fun r => (stripLangAttributes r.2.length r.2).map fun tag => (r.1, tag)) = none := by
    cases hr : findOpener html with
    | none => rfl
    | some r =>
      rw [scan, hr, Option.bind_some] at h
      rw [Option.bind_some, stripLangAttributes_eq, Option.map_eq_none_iff.mp h]
      rfl
  unfold applyDocumentLanguage
  dsimp only
  rw [hnone]

theorem scan_of_row {before tail after : List Char} {segments : List Segment}
    (htail : ∀ c ∈ tail, HtmlTokens.isSpace c = true) (hchained : Chained (tail ++ '>' :: after) segments)
    (hopener : findOpener (before ++ '<' :: (tagName ++ (textOf segments ++ (tail ++ '>' :: after)))) =
      some (before, textOf segments ++ (tail ++ '>' :: after))) :
    scan (before ++ '<' :: (tagName ++ (textOf segments ++ (tail ++ '>' :: after)))) =
      some ⟨before, tagName, ⟨segments, tail, after⟩⟩ := by
  have hlength : segments.length < (textOf segments ++ (tail ++ '>' :: after)).length := by
    have hle := length_le_textOf hchained
    simp only [List.length_append, List.length_cons]
    omega
  have hdrop : ((before ++ '<' :: (tagName ++ (textOf segments ++ (tail ++ '>' :: after)))).drop (before.length + 1)).take 4 =
      tagName := by
    rw [List.drop_append, List.drop_eq_nil_of_le (Nat.le_succ _), Nat.add_sub_cancel_left, List.nil_append,
      List.drop_succ_cons, List.drop_zero]
    rfl
  rw [scan, hopener, Option.bind_some, scan_of_chained htail hchained hlength, Option.map_some, hdrop]

theorem readTag_of_row {tail after : List Char} {segments : List Segment}
    (htail : ∀ c ∈ tail, HtmlTokens.isSpace c = true) (hchained : Chained (tail ++ '>' :: after) segments)
    (hplain : PlainSlashes segments) :
    readTag tagName ('<' :: (tagName ++ (textOf segments ++ (tail ++ '>' :: after)))) =
      some ⟨[], ⟨'<' :: tagName, (attrsOf [] segments).1, (attrsOf [] segments).2 ++ tail⟩, after⟩ := by
  have hlength : segments.length < ('<' :: (tagName ++ (textOf segments ++ (tail ++ '>' :: after)))).length := by
    have hle := length_le_textOf hchained
    simp only [List.length_append, List.length_cons]
    omega
  have hread : readAttrs ('<' :: (tagName ++ (textOf segments ++ (tail ++ '>' :: after)))).length
      ([] ++ (textOf segments ++ (tail ++ '>' :: after))) = _ :=
    readAttrs_of_chained htail hchained hplain (by simp) hlength
  rw [readTag]
  change (readAttrs _ ([] ++ (textOf segments ++ (tail ++ '>' :: after)))).map _ = _
  rw [hread]
  rfl

/-! ### Readings that agree -/

/-- Every attribute ends where the text goes on. -/
def Joined (fin : List Char) : List Segment → Prop
  | [] => True
  | s :: segments => Ends s.value (textOf segments ++ fin) ∧ Joined fin segments

theorem ok_of_chained {fin : List Char} {segments : List Segment} (h : Chained fin segments) :
    ∀ s ∈ segments, s.Ok := by
  induction segments with
  | nil => simp
  | cons s segments ih => exact List.forall_mem_cons.mpr ⟨h.1, ih h.2.2⟩

theorem chained_of_joined {fin : List Char} {segments : List Segment} (hok : ∀ s ∈ segments, s.Ok)
    (h : Joined fin segments) : Chained fin segments := by
  induction segments with
  | nil => trivial
  | cons s segments ih =>
    exact ⟨hok s List.mem_cons_self, h.1, ih (fun t ht => hok t (List.mem_cons_of_mem _ ht)) h.2⟩

/-- The tag that is scanned is read the same way, before and after its `lang` is taken out: its letters are in lower
case, no slash has a value, no `lang` stands right behind a slash if it is to be taken out, and what stays is still
apart. -/
structure Scan.Clean (s : Scan) (lang : Option (List Char)) : Prop where
  letters : s.letters = tagName
  slashes : PlainSlashes s.tag.segments
  seen : lang = none → ∀ seg ∈ s.tag.segments, lower seg.name ≠ "/lang".toList
  apart : Joined s.fin (kept s.tag.segments)
  opened : lang = none → ∃ c, (textOf (kept s.tag.segments) ++ s.fin).head? = some c ∧ endsTagName c = true

structure Agree (isRaw : List Char → Bool) (html : List Char) (lang : Option (List Char)) : Prop where
  sameTag : (firstTag isRaw tagName html).map Found.before = (scan html).map Scan.before
  clean : ∀ s, scan html = some s → s.Clean lang
  behind : scan html = none → lang ≠ none → ∀ r, findOpener html = some r → (splitDoctype html).1.length ≤ r.1.length

/-! ### Setting the language -/

/-- The language of the first `<html>` tag, as the tokenizer reads it, is the one that is set, and nothing else is
changed: the text before and behind the tag, its text without the `lang`, and the other attributes. -/
inductive SetsLanguage (isRaw : List Char → Bool) (html : List Char) (lang : Option (List Char)) (out : List Char) : Prop
  | replaced (f f' : Found) (hf : firstTag isRaw tagName html = some f) (hf' : firstTag isRaw tagName out = some f')
      (html_eq : html = f.text) (out_eq : out = f'.text) (before : f'.before = f.before) (after : f'.after = f.after)
      (without : f'.tag.without langName = f.tag.without langName)
      (others : f'.tag.others langName = f.tag.others langName)
      (value : (f'.tag.value? langName).map (readReferences 0) = lang)
  | inserted (f' : Found) (hf : firstTag isRaw tagName html = none) (hf' : firstTag isRaw tagName out = some f')
      (html_eq : html = f'.before ++ f'.after) (out_eq : out = f'.text) (without : f'.tag.without langName = '<' :: tagName)
      (others : f'.tag.others langName = []) (value : (f'.tag.value? langName).map (readReferences 0) = lang)
  | unchanged (hf : firstTag isRaw tagName html = none) (hlang : lang = none) (out_eq : out = html)

theorem opensTag_tagName {ends : Char → Bool} {text : List Char} {c : Char} (h : text.head? = some c) (hc : ends c = true) :
    opensTag ends tagName ('<' :: (tagName ++ text)) = true := by
  obtain ⟨rest, rfl⟩ := List.head?_eq_some_iff.mp h
  have hname : startsWithName ends tagName (tagName ++ c :: rest) = ends c := rfl
  rw [opensTag, hname, hc]
  rfl

theorem endsOpener_of_endsTagName {c : Char} (h : endsTagName c = true) : endsOpener c = true := by
  simp only [endsTagName, HtmlTokens.isSpace, Bool.or_eq_true, decide_eq_true_eq] at h
  rcases h with ((((((rfl | rfl) | rfl) | rfl) | rfl) | rfl) | rfl) <;> rfl

theorem head_of_row {s : Scan} {lang : Option (List Char)} (h : s.Clean lang) :
    ∃ c, (textOf (langSegments lang ++ kept s.tag.segments) ++ s.fin).head? = some c ∧ endsTagName c = true := by
  cases lang with
  | none => exact h.opened rfl
  | some lang => exact ⟨' ', rfl, rfl⟩

theorem kept_langSegments (lang : Option (List Char)) : kept (langSegments lang) = [] := by
  cases lang <;> rfl

theorem kept_row (lang : Option (List Char)) (segments : List Segment) :
    kept (langSegments lang ++ kept segments) = kept segments := by
  have happend : kept (langSegments lang ++ kept segments) = kept (langSegments lang) ++ kept (kept segments) :=
    List.filter_append _ _
  rw [happend, kept_langSegments, List.nil_append, kept, kept, List.filter_filter]
  simp

theorem html_of_scan {html : List Char} {s : Scan} (h : scan html = some s) (hletters : s.letters = tagName) :
    html = s.before ++ '<' :: (tagName ++ (textOf s.tag.segments ++ s.fin)) ∧
      (∀ c ∈ s.tag.tail, HtmlTokens.isSpace c = true) ∧ Chained s.fin s.tag.segments ∧
      ∀ r, findOpener html = some r → s.before.length ≤ r.1.length := by
  obtain ⟨r, hr, h⟩ := Option.bind_eq_some_iff.mp h
  obtain ⟨tag, htag, rfl⟩ := Option.map_eq_some_iff.mp h
  obtain ⟨htext, htail, hchained⟩ := chained_of_scan htag
  obtain ⟨t, ht, -, hdrop⟩ := findOpener_eq_some hr
  have htake : t.take 4 = tagName := by
    have hsame : (html.drop (r.1.length + 1)).take 4 = t.take 4 := by
      rw [ht, List.drop_append, List.drop_eq_nil_of_le (Nat.le_succ _), Nat.add_sub_cancel_left, List.nil_append,
        List.drop_succ_cons, List.drop_zero]
    rw [← hsame]
    exact hletters
  refine ⟨?_, htail, hchained, fun r' hr' => ?_⟩
  · rw [ht, ← List.take_append_drop 4 t, htake, ← hdrop, htext]
    rfl
  · obtain rfl := Option.some.inj (hr.symm.trans hr')
    exact Nat.le_refl _

theorem langName_value (lang : Option (List Char)) {segments : List Segment}
    (hseen : lang = none → (attrsOf [] segments).1.find? (fun a => a.name = langName) = none) :
    (((attrsOf [] (langSegments lang ++ segments)).1.find? fun a => a.name = langName).map Attr.value).map
      (readReferences 0) = lang := by
  cases lang with
  | none =>
    show (((attrsOf [] segments).1.find? fun a => a.name = langName).map Attr.value).map (readReferences 0) = none
    rw [hseen rfl]
    rfl
  | some lang => exact congrArg some (readReferences_escapeAttr lang)

theorem left_row (lang : Option (List Char)) (segments : List Segment) :
    (langSegments lang ++ segments).flatMap Segment.left = segments.flatMap Segment.left := by
  rw [List.flatMap_append]
  cases lang <;> rfl

theorem other_row (lang : Option (List Char)) (segments : List Segment) :
    (langSegments lang ++ segments).flatMap Segment.other = segments.flatMap Segment.other := by
  rw [List.flatMap_append]
  cases lang <;> rfl

theorem plainSlashes_row {segments : List Segment} (h : PlainSlashes segments) (lang : Option (List Char)) :
    PlainSlashes (langSegments lang ++ kept segments) := by
  intro s hs hname
  rcases List.mem_append.mp hs with hs | hs
  · cases lang with
    | none => cases hs
    | some lang =>
      obtain rfl := List.mem_singleton.mp hs
      cases hname
  · exact h s (List.mem_filter.mp hs).1 hname

theorem Scan.without_found (s : Scan) {fin : List Char} {segments : List Segment} (h : Chained fin segments)
    (hplain : PlainSlashes segments) :
    (s.found segments).tag.without langName = '<' :: tagName ++ segments.flatMap Segment.left ++ s.tag.tail := by
  have hleft := without_attrsOf h hplain (List.rdropWhile_nil _)
  rw [List.nil_append] at hleft
  rw [← hleft, Tag.without, Scan.found]
  simp only [List.append_assoc]

theorem Scan.others_found (s : Scan) (segments : List Segment) :
    (s.found segments).tag.others langName = segments.flatMap Segment.other :=
  others_attrsOf segments []

/-- The tag that is read and the tag that is written, where the scan finds what the tokenizer reads. -/
theorem sets_of_scan {isRaw : List Char → Bool} {html : List Char} {lang : Option (List Char)}
    (h : Agree isRaw html lang) {s : Scan} (hs : scan html = some s) :
    SetsLanguage isRaw html lang (applyDocumentLanguage html lang) ∧
      applyDocumentLanguage (applyDocumentLanguage html lang) lang = applyDocumentLanguage html lang := by
  have hclean := h.clean s hs
  obtain ⟨hhtml, htail, hchained, hfirst⟩ := html_of_scan hs hclean.letters
  have hout := applyDocumentLanguage_of_scan hs lang
  have hchained' : Chained s.fin (langSegments lang ++ kept s.tag.segments) :=
    chained_langSegments (chained_of_joined (fun t ht => ok_of_chained hchained t (List.mem_filter.mp ht).1)
      hclean.apart) lang
  have hplain' := plainSlashes_row hclean.slashes lang
  obtain ⟨c, hhead, hc⟩ := head_of_row hclean
  constructor
  · -- what the tokenizer reads
    obtain ⟨f, hf, hbefore⟩ : ∃ f, firstTag isRaw tagName html = some f ∧ f.before = s.before := by
      have hsame := h.sameTag
      rw [hs, Option.map_some] at hsame
      exact Option.map_eq_some_iff.mp hsame
    obtain ⟨t, ht, -, hread⟩ := readTag_of_firstTagFrom hf
    rw [hbefore] at ht
    rw [List.append_cancel_left (ht.symm.trans hhtml)] at hread
    have hrow := readTag_of_row htail hchained hclean.slashes
    obtain ⟨-, htag, hafter⟩ := Found.mk.inj (Option.some.inj (hrow.symm.trans hread))
    have hreplaced := firstTagFrom_replace (by decide) (hhtml ▸ hf) hbefore (opensTag_tagName hhead hc)
      (readTag_of_row htail hchained' hplain')
    have hf' : firstTag isRaw tagName (applyDocumentLanguage html lang) =
        some (s.found (langSegments lang ++ kept s.tag.segments)) := by
      rw [hout]
      exact hreplaced
    have hfound : (s.found s.tag.segments).tag = f.tag := htag
    refine .replaced f _ hf hf' (text_of_firstTagFrom hf) (text_of_firstTagFrom hf') hbefore.symm hafter ?_ ?_ ?_
    · rw [← hfound, s.without_found hchained' hplain', s.without_found hchained hclean.slashes, left_row, left_kept]
    · rw [← hfound, s.others_found, s.others_found, other_row, other_kept]
    · refine langName_value lang fun hnone => ?_
      have hkept : ∀ t ∈ kept s.tag.segments, t ∈ s.tag.segments ∧ t.isLang = false := fun t ht => by
        simpa using List.mem_filter.mp ht
      exact find_attrsOf (fun t ht => hclean.seen hnone t (hkept t ht).1)
        (fun t ht => ok_of_chained hchained t (hkept t ht).1) (fun t ht => (hkept t ht).2) []
  · -- what the scan finds when it comes again
    have hopener : findOpener (s.before ++ '<' :: (tagName ++
        (textOf (langSegments lang ++ kept s.tag.segments) ++ s.fin))) =
        some (s.before, textOf (langSegments lang ++ kept s.tag.segments) ++ s.fin) := by
      refine findOpener_append (opensTag_tagName hhead (endsOpener_of_endsTagName hc)) fun a b hab hb => ?_
      have hnone := opensTag_before (hhtml ▸ hfirst) a b hab hb
      rwa [opensTag_append (by decide) hb _ (tagName ++ (textOf s.tag.segments ++ s.fin))]
    have hagain := scan_of_row htail hchained' hopener
    have hout' := applyDocumentLanguage_of_scan hagain lang
    rw [hout]
    refine hout'.trans ?_
    dsimp only [Scan.fin]
    rw [kept_row]

/-! ### A document without the tag -/

theorem eq_of_toLower {c d : Char} (h : c.toLower = d) (hd : d.toNat < 97 ∨ 122 < d.toNat) : c = d := by
  unfold Char.toLower at h
  by_cases hupper : c.val ≥ 'A'.val ∧ c.val ≤ 'Z'.val
  · rw [dif_pos hupper] at h
    have hlow : 65 ≤ c.val.toNat := hupper.1
    have hhigh : c.val.toNat ≤ 90 := hupper.2
    have hshift : (c.val + ('a'.val - 'A'.val)).toNat = c.val.toNat + 32 := by
      have hdiff : 'a'.val - 'A'.val = 32 := by decide
      rw [hdiff, UInt32.toNat_add]
      show (c.val.toNat + 32) % 2 ^ 32 = _
      omega
    rw [← h] at hd
    change (c.val + ('a'.val - 'A'.val)).toNat < 97 ∨ 122 < (c.val + ('a'.val - 'A'.val)).toNat at hd
    omega
  · rw [dif_neg hupper] at h
    exact h

theorem doctype_letters {rest : List Char} (h : (rest.take 9).map Char.toLower = "<!doctype".toList) :
    ∃ letters more, rest = '<' :: '!' :: letters ++ more ∧ lower letters = "doctype".toList := by
  have hletters : "<!doctype".toList = '<' :: '!' :: "doctype".toList := by decide +kernel
  rw [hletters] at h
  obtain ⟨c, tl, hc, hclower, htl⟩ := List.map_eq_cons_iff.mp h
  obtain ⟨d, letters, hd, hdlower, hrest⟩ := List.map_eq_cons_iff.mp htl
  obtain rfl := eq_of_toLower hclower (by decide)
  obtain rfl := eq_of_toLower hdlower (by decide)
  refine ⟨letters, rest.drop 9, ?_, hrest⟩
  calc rest = rest.take 9 ++ rest.drop 9 := (List.take_append_drop 9 rest).symm
    _ = '<' :: '!' :: letters ++ rest.drop 9 := by rw [hc, hd]

theorem splitDoctype_cases (html : List Char) :
    splitDoctype html = ([], html) ∨ ∃ spaces letters body after, (∀ c ∈ spaces, c ≠ '<') ∧
      lower letters = "doctype".toList ∧ (∀ c ∈ body, c ≠ '>') ∧
      html = spaces ++ ('<' :: '!' :: letters ++ (body ++ '>' :: after)) ∧
      splitDoctype html = (spaces ++ ('<' :: '!' :: letters ++ (body ++ ['>'])), after) := by
  unfold splitDoctype
  dsimp only
  by_cases hdoctype : ((html.dropWhile Redirect.isSpace).take 9).map Char.toLower = "<!doctype".toList ∧
      '>' ∈ html.dropWhile Redirect.isSpace
  · rw [if_pos hdoctype]
    obtain ⟨letters, more, hrest, hletters⟩ := doctype_letters hdoctype.1
    have hmem := hdoctype.2
    have hnot : ∀ c ∈ '<' :: '!' :: letters, c ≠ '>' := by
      rintro c hc rfl
      rcases List.mem_cons.mp hc with hc | hc
      · cases hc
      · rcases List.mem_cons.mp hc with hc | hc
        · cases hc
        · have hlower : '>'.toLower ∈ lower letters := List.mem_map_of_mem hc
          rw [hletters] at hlower
          exact absurd hlower (by decide)
    rw [hrest] at hmem ⊢
    have hmore : '>' ∈ more := (List.mem_append.mp hmem).resolve_left fun hc => hnot _ hc rfl
    have hpos : ∀ c ∈ '<' :: '!' :: letters, decide (c ≠ '>') = true := fun c hc => decide_eq_true (hnot c hc)
    refine .inr ⟨html.takeWhile Redirect.isSpace, letters, more.takeWhile (· ≠ '>'), (more.dropWhile (· ≠ '>')).tail,
      ?_, hletters, fun c hc => by simpa using List.mem_takeWhile_imp hc, ?_, ?_⟩
    · rintro c hc rfl
      exact absurd (List.mem_takeWhile_imp hc) (by decide)
    · rw [← split_of_mem hmore, ← hrest, List.takeWhile_append_dropWhile]
    · rw [List.takeWhile_append_of_pos hpos, List.dropWhile_append_of_pos hpos]
      simp only [List.append_assoc]
  · rw [if_neg hdoctype]
    exact .inl rfl

theorem splitDoctype_spec (isRaw : List Char → Bool) (html : List Char) :
    html = (splitDoctype html).1 ++ (splitDoctype html).2 ∧
      ((splitDoctype html).1 = [] ∨ ∃ front, (splitDoctype html).1 = front ++ ['>']) ∧
      ∀ t, firstTag isRaw tagName ((splitDoctype html).1 ++ t) =
        (firstTag isRaw tagName t).map (Found.behind (splitDoctype html).1) := by
  rcases splitDoctype_cases html with heq | ⟨spaces, letters, body, after, hspaces, hletters, hbody, hhtml, heq⟩
  · rw [heq]
    exact ⟨rfl, .inl rfl, firstTagFrom_text (by simp)⟩
  · rw [heq]
    refine ⟨?_, .inr ⟨spaces ++ ('<' :: '!' :: letters ++ body), by simp⟩, fun t => ?_⟩
    · rw [hhtml]
      simp
    · have hsplit : spaces ++ ('<' :: '!' :: letters ++ (body ++ ['>'])) ++ t =
          spaces ++ ('<' :: '!' :: letters ++ (body ++ '>' :: t)) := by simp
      dsimp only
      rw [hsplit, firstTag, firstTagFrom_text hspaces, firstTagFrom_declaration hletters hbody (by decide) (by decide),
        Option.map_map]
      cases hfound : firstTag isRaw tagName t with
      | none =>
        rw [firstTag] at hfound
        rw [hfound]
        rfl
      | some f =>
        rw [firstTag] at hfound
        rw [hfound]
        simp [Found.behind]

theorem sets_of_none {isRaw : List Char → Bool} {html : List Char} {lang : Option (List Char)}
    (h : Agree isRaw html lang) (hs : scan html = none) :
    SetsLanguage isRaw html lang (applyDocumentLanguage html lang) ∧
      applyDocumentLanguage (applyDocumentLanguage html lang) lang = applyDocumentLanguage html lang := by
  have hnone : firstTag isRaw tagName html = none := by
    have hsame := h.sameTag
    rw [hs] at hsame
    exact Option.map_eq_none_iff.mp hsame
  cases lang with
  | none =>
    have hout := applyDocumentLanguage_null hs
    exact ⟨.unchanged hnone rfl hout, congrArg (applyDocumentLanguage · none) hout⟩
  | some lang =>
    have hout := applyDocumentLanguage_of_none hs lang
    obtain ⟨hsplit, hlast, hpass⟩ := splitDoctype_spec isRaw html
    have hbehind := h.behind hs (by simp)
    generalize (splitDoctype html).1 = before at hout hsplit hlast hpass hbehind
    generalize (splitDoctype html).2 = after at hout hsplit
    have htail : ∀ c ∈ ([] : List Char), HtmlTokens.isSpace c = true := by simp
    have hchained : Chained ([] ++ '>' :: after) (langSegments (some lang) ++ []) :=
      chained_langSegments (show Chained _ [] from trivial) (some lang)
    rw [List.append_nil] at hchained
    have hplain : PlainSlashes (langSegments (some lang)) := by
      intro s hs hname
      obtain rfl := List.mem_singleton.mp hs
      cases hname
    have hhead : (textOf (langSegments (some lang)) ++ ([] ++ '>' :: after)).head? = some ' ' := rfl
    constructor
    · have hfirst : firstTag isRaw tagName
          ('<' :: (tagName ++ (textOf (langSegments (some lang)) ++ ([] ++ '>' :: after)))) =
          some (Scan.found ⟨[], tagName, ⟨[], [], after⟩⟩ (langSegments (some lang))) := by
        rw [firstTag, firstTagFrom, if_pos ⟨rfl, opensTag_tagName hhead rfl⟩]
        exact readTag_of_row htail hchained hplain
      have hf' := hpass ('<' :: (tagName ++ (textOf (langSegments (some lang)) ++ ([] ++ '>' :: after))))
      rw [hfirst, ← hout] at hf'
      refine .inserted _ hnone hf' ?_ (text_of_firstTagFrom hf') rfl rfl (langName_value (some lang) (by rintro ⟨⟩))
      rw [hsplit]
      exact congrArg (· ++ after) (List.append_nil before).symm
    · have hempty : ∀ a b, before = a ++ b → b ≠ [] → opensTag endsOpener tagName (b ++ after) = false :=
        opensTag_before fun r hr => hbehind r (by rw [hsplit]; exact hr)
      have hopener : findOpener (before ++ '<' :: (tagName ++ (textOf (langSegments (some lang)) ++ ([] ++ '>' :: after)))) =
          some (before, textOf (langSegments (some lang)) ++ ([] ++ '>' :: after)) := by
        refine findOpener_append (opensTag_tagName hhead rfl) fun a b hab hb => ?_
        have hnot := hempty a b hab hb
        obtain ⟨b', d, rfl⟩ := (List.eq_nil_or_concat' b).resolve_left hb
        have hd : d = '>' := by
          rcases hlast with hnil | ⟨front, hfront⟩
          · rw [hnil] at hab
            simp at hab
          · rw [hfront, ← List.append_assoc] at hab
            exact (List.cons.inj (List.append_inj' hab rfl).2).1.symm
        subst hd
        rw [List.append_assoc] at hnot ⊢
        by_cases hb' : b' = []
        · subst hb'
          exact opensTag_of_ne (by decide) _
        · rwa [List.singleton_append, opensTag_append (by decide) hb' _ after]
      have hagain := scan_of_row htail hchained hopener
      rw [hout]
      exact applyDocumentLanguage_of_scan hagain (some lang)

/-- Where the scan and the tokenizer agree, exactly the language is set, and setting it again changes nothing. -/
theorem applyDocumentLanguage_sets (isRaw : List Char → Bool) (html : List Char) (lang : Option (List Char))
    (h : Agree isRaw html lang) :
    SetsLanguage isRaw html lang (applyDocumentLanguage html lang) ∧
      applyDocumentLanguage (applyDocumentLanguage html lang) lang = applyDocumentLanguage html lang := by
  cases hs : scan html with
  | none => exact sets_of_none h hs
  | some s => exact sets_of_scan h hs

theorem applyDocumentLanguage_sets_class :
    SetsLanguage (fun name => name = "script".toList) "<html lang=de class=a>".toList (some "en".toList)
        (applyDocumentLanguage "<html lang=de class=a>".toList (some "en".toList)) ∧
      applyDocumentLanguage (applyDocumentLanguage "<html lang=de class=a>".toList (some "en".toList)) (some "en".toList) =
        applyDocumentLanguage "<html lang=de class=a>".toList (some "en".toList) := by
  have hscan : scan "<html lang=de class=a>".toList =
      some ⟨[], tagName, ⟨[⟨[' '], langName, ⟨.unquoted, "=de".toList, "de".toList⟩⟩,
        ⟨[' '], "class".toList, ⟨.unquoted, "=a".toList, "a".toList⟩⟩], [], []⟩⟩ := by decide +kernel
  refine applyDocumentLanguage_sets _ _ _ ⟨by decide +kernel, fun s hs => ?_, fun hnone => ?_⟩
  · obtain rfl := Option.some.inj (hscan.symm.trans hs)
    exact ⟨rfl, by unfold PlainSlashes; decide +kernel, by rintro ⟨⟩, ⟨⟨'>', rfl, rfl, by decide +kernel⟩, trivial⟩,
      by rintro ⟨⟩⟩
  · rw [hscan] at hnone
    cases hnone

/-- A comment that shows a tag hides the one behind it. -/
theorem applyDocumentLanguage_hidden :
    applyDocumentLanguage "<!--<html>--><html>".toList (some "en".toList) =
        "<!--<html lang=\"en\">--><html>".toList ∧
      ¬ SetsLanguage (fun name => name = "script".toList) "<!--<html>--><html>".toList (some "en".toList)
        (applyDocumentLanguage "<!--<html>--><html>".toList (some "en".toList)) := by
  have hout : applyDocumentLanguage "<!--<html>--><html>".toList (some "en".toList) =
      "<!--<html lang=\"en\">--><html>".toList := by decide +kernel
  have hbefore : (firstTag (fun name => name = "script".toList) tagName "<!--<html>--><html>".toList).map Found.before =
      some "<!--<html>-->".toList := by decide +kernel
  have hbefore' : (firstTag (fun name => name = "script".toList) tagName
      "<!--<html lang=\"en\">--><html>".toList).map Found.before = some "<!--<html lang=\"en\">-->".toList := by
    decide +kernel
  refine ⟨hout, fun h => ?_⟩
  rw [hout] at h
  cases h with
  | replaced f f' hf hf' html_eq out_eq before =>
    rw [hf] at hbefore
    rw [hf'] at hbefore'
    have heq := (Option.some.inj hbefore').symm.trans (before.trans (Option.some.inj hbefore))
    exact absurd heq (by decide +kernel)
  | inserted f' hf =>
    rw [hf] at hbefore
    cases hbefore
  | unchanged hf =>
    rw [hf] at hbefore
    cases hbefore

end CaeloCms.Site
