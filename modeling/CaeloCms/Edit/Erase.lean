import CaeloCms.Edit.Markers
import CaeloCms.Lib.Spans

/-!
# What is left without the marks

Sentinels are spans: a path goes from a `START` to the next `SEP`.  `finalizeEditMarkers` strips a document part by
part, so what it shows is the document without its sentinels if and only if no cut between two parts goes through a path
and no part keeps sentinels (`erased_iff`).  The end of raw text is looked for in the lower-case document, which is longer
where a dotted capital I has become two characters; the cut is then behind the element and may go through a path.
-/

namespace CaeloCms.Edit

open Spans (Brackets Uncut Undivided)

theorem brackets : Brackets START SEP isSentinel where
  ne := by decide
  opener := by decide
  closer := by decide

abbrev stripped (s : List Char) : List Char := Spans.strip START SEP isSentinel s

variable {s html path : List Char}

theorem notMem_of_noMatch {before : List Char} (h : Scan.NoMatch matchPath before (START :: s)) : SEP ∉ s := by
  intro hmem
  have hfound : matchPath before (START :: s) = some ((), ((START :: s).takeWhile fun c => c != SEP).length + 1) := by
    rw [matchPath, if_pos ⟨rfl, List.mem_cons_of_mem _ hmem⟩]
  exact h _ _ hfound

theorem drop_takeWhile (s : List Char) :
    s.drop ((s.takeWhile fun c => c != SEP).length + 1) = Spans.behind SEP s := by
  induction s with
  | nil => rfl
  | cons c s ih =>
    by_cases hc : c = SEP
    · subst hc
      rw [Spans.behind_cons_closer, List.takeWhile_cons_of_neg (by decide)]
      rfl
    · have htake : ((c :: s).takeWhile fun c => c != SEP) = c :: s.takeWhile fun c => c != SEP :=
        List.takeWhile_cons_of_pos (bne_iff_ne.2 hc)
      rw [Spans.behind_cons hc, htake, List.length_cons, List.drop_succ_cons, ih]

theorem stripSentinels_eq (s : List Char) : stripSentinels s = stripped s := by
  have hscan : ∀ before s, (Scan.replace matchPath (fun _ _ => []) before s).filter (fun c => !isSentinel c) = stripped s := by
    intro before s
    induction before, s using Scan.scan_induction (m := matchPath) with
    | nil before => rfl
    | plain before c s hno ih =>
      unfold Scan.replace at ih ⊢
      rw [Scan.scan_plain hno, List.flatMap_cons, List.filter_append, ih]
      unfold stripped Spans.strip
      rw [Spans.stripFrom]
      by_cases hc : c = START
      · subst hc
        rw [if_pos rfl, decide_eq_false (notMem_of_noMatch hno)]
        rfl
      · rw [if_neg hc]
        cases hmark : isSentinel c <;> simp [hmark]
    | found before s a n hne hfound ih =>
      unfold Scan.replace at ih ⊢
      rw [Scan.scan_found hne hfound, List.flatMap_cons, List.nil_append, ih]
      rw [matchPath] at hfound
      split at hfound
      next hpath =>
        obtain ⟨hhead, hmem⟩ := hpath
        obtain ⟨c, s, rfl⟩ := List.exists_cons_of_ne_nil hne
        obtain rfl := Option.some.inj hhead
        have hs : SEP ∈ s := (List.mem_cons.1 hmem).resolve_left (by decide)
        have hlength : ((START :: s).takeWhile fun c => c != SEP).length + 1 = n + 1 :=
          (Prod.ext_iff.1 (Option.some.inj hfound)).2
        rw [← hlength, drop_takeWhile, Spans.behind_cons (by decide)]
        unfold stripped
        rw [← Spans.stripFrom_true hs]
        unfold Spans.strip
        rw [Spans.stripFrom, if_pos rfl, decide_eq_true hs]
      next => cases hfound
  exact hscan [] s

theorem stripped_sublist (s : List Char) : (stripped s).Sublist s := by
  have hfrom : ∀ inside, (Spans.stripFrom START SEP isSentinel inside s).Sublist s := by
    induction s with
    | nil =>
      intro inside
      rw [Spans.stripFrom]
    | cons c s ih =>
      intro inside
      cases inside with
      | true => exact (ih _).trans (List.sublist_cons_self c s)
      | false =>
        rw [Spans.stripFrom]
        split_ifs
        · exact (ih _).trans (List.sublist_cons_self c s)
        · exact (ih _).trans (List.sublist_cons_self c s)
        · exact (ih _).cons_cons c
  exact hfrom false

theorem stripped_eq_self : stripped s = s ↔ ∀ c ∈ s, isSentinel c = false := by
  constructor
  · intro h c hc
    have hfrom : ∀ inside, ∀ c ∈ Spans.stripFrom START SEP isSentinel inside s, isSentinel c = false := by
      clear h hc
      induction s with
      | nil =>
        intro inside c hc
        rw [Spans.stripFrom] at hc
        cases hc
      | cons d s ih =>
        intro inside c hc
        cases inside with
        | true => exact ih _ c hc
        | false =>
          rw [Spans.stripFrom] at hc
          split_ifs at hc with hopen hmark
          · exact ih _ c hc
          · exact ih _ c hc
          · rcases List.mem_cons.1 hc with rfl | hc
            · exact Bool.eq_false_iff.2 hmark
            · exact ih _ c hc
    rw [← h] at hc
    exact hfrom false c hc
  · intro h
    have hsep : SEP ∉ s := fun hmem => absurd (h SEP hmem) (by decide)
    unfold stripped
    rw [Spans.stripFrom_of_notMem brackets hsep, Spans.visible, List.filter_eq_self]
    intro c hc
    rw [h c hc]
    rfl

/-! ### The parts of a document -/

inductive Part
  | plain (c : Char)
  | comment (text : List Char)
  | tag (text : List Char)
  | raw (text : List Char)
  | wrapped (path value : List Char)

def Part.text : Part → List Char
  | plain c => [c]
  | comment text => text
  | tag text => text
  | raw text => text
  | wrapped path value => START :: path ++ SEP :: value ++ [END]

/-- A tag without its sentinels, if it has a `START`. -/
def cleanTag (tag : List Char) : List Char := if START ∉ tag then tag else stripSentinels (stripAttributes tag)

def Part.shown : Part → List Char
  | plain c => if isSentinel c then [] else [c]
  | comment text => stripSentinels text
  | tag text => cleanTag text
  | raw text => stripSentinels text
  | wrapped _ value => value

def partsOf : Scan.Piece Char Cut → List Part
  | .plain c => [.plain c]
  | .found (.comment text) _ => [.comment text]
  | .found (.tag text raw) _ => [.tag text, .raw raw]
  | .found (.wrapped path value) _ => [.wrapped path value]

/-- The parts in which `finalizeEditMarkers` looks at a document. -/
def parts (html : List Char) : List Part := (Scan.scan matchCut [] html).flatMap partsOf

/-- What is written, without the comments and attributes. -/
def Emitted.erase : Emitted → List Char
  | shown text => text
  | _ => []

/-- The document that `finalizeEditMarkers` writes, without the marker comments and the three attributes. -/
def erased (html : List Char) : List Char := (editMarkers html).flatMap Emitted.erase

theorem erase_markTag (tag : List Char) : (markTag tag).flatMap Emitted.erase = cleanTag tag := by
  unfold markTag cleanTag
  split
  · simp [Emitted.erase]
  · dsimp only
    split
    · simp [Emitted.erase]
    · simp [Emitted.erase]

theorem erase_emitPiece (p : Scan.Piece Char Cut) :
    (emitPiece p).flatMap Emitted.erase = (partsOf p).flatMap Part.shown := by
  cases p with
  | plain c =>
    simp only [emitPiece, partsOf, Part.shown, List.flatMap_singleton]
    split
    · rfl
    · rfl
  | found cut raw =>
    cases cut with
    | comment text => simp [emitPiece, Cut.emit, partsOf, Part.shown, Emitted.erase]
    | tag text raw => simp [emitPiece, Cut.emit, partsOf, Part.shown, Emitted.erase, erase_markTag]
    | wrapped path value => simp [emitPiece, Cut.emit, partsOf, Part.shown, Emitted.erase]

theorem erased_eq (h : START ∈ html) : erased html = (parts html).flatMap Part.shown := by
  rw [erased, editMarkers, if_neg (not_not.2 h), parts, List.flatMap_assoc, List.flatMap_assoc]
  exact List.flatMap_congr fun p _ => erase_emitPiece p

/-! ### The parts make up the document -/

theorem takeWhile_append_of_mem {d : Char} (h : d ∈ s) :
    ∃ rest, s = (s.takeWhile fun c => c != d) ++ d :: rest := by
  have hdrop : s.dropWhile (fun c => c != d) ≠ [] := by
    rw [Ne, List.dropWhile_eq_nil_iff]
    exact fun hall => absurd (hall d h) (by simp)
  obtain ⟨c, rest, hrest⟩ := List.exists_cons_of_ne_nil hdrop
  have hc : c = d := by
    have hhead := List.head_dropWhile_not (fun c => c != d) hdrop
    simp only [hrest, List.head_cons] at hhead
    simpa using hhead
  refine ⟨rest, ?_⟩
  conv_lhs => rw [← List.takeWhile_append_dropWhile (p := fun c => c != d) (l := s)]
  rw [hrest, hc]

theorem wrappedAt_text {value : List Char} (h : wrappedAt (START :: s) = some (path, value)) :
    (START :: s).take (path.length + value.length + 3) = START :: path ++ SEP :: value ++ [END] := by
  unfold wrappedAt at h
  dsimp only at h
  split at h
  next hcond =>
    obtain ⟨hsep, hend, hlt⟩ := hcond
    obtain ⟨rfl, rfl⟩ := Prod.mk.inj (Option.some.inj h)
    obtain ⟨rest, hrest⟩ := takeWhile_append_of_mem hsep
    obtain ⟨rest', hrest'⟩ := takeWhile_append_of_mem hend
    have hhead : ((START :: s).takeWhile fun c => c != SEP) = START :: s.takeWhile fun c => c != SEP :=
      List.takeWhile_cons_of_pos (by decide)
    generalize hwhole : START :: s = whole at *
    generalize hupTo : (whole.takeWhile fun c => c != END) = upTo at *
    generalize hpath : (whole.takeWhile fun c => c != SEP) = pathText at *
    -- the text up to `END` goes on behind the path and its `SEP`
    have hvalue : upTo = pathText ++ SEP :: upTo.drop (pathText.length + 1) := by
      have htake : upTo.take (pathText.length + 1) = pathText ++ [SEP] := by
        have hwhole' : upTo ++ END :: rest' = pathText ++ SEP :: rest := hrest'.symm.trans hrest
        have hprefix := congrArg (List.take (pathText.length + 1)) hwhole'
        rw [List.take_append_of_le_length (by omega), List.take_length_add_append] at hprefix
        exact hprefix
      conv_lhs => rw [← List.take_append_drop (pathText.length + 1) upTo, htake]
      simp
    have hlength : pathText.tail.length + (upTo.drop (pathText.length + 1)).length + 3 = (upTo ++ [END]).length := by
      have hpos : 0 < pathText.length := by
        rw [hhead]
        exact Nat.succ_pos _
      rw [List.length_tail, List.length_drop, List.length_append, List.length_singleton]
      omega
    have hsplit : whole = upTo ++ [END] ++ rest' := by
      rw [List.append_assoc, List.singleton_append]
      exact hrest'
    rw [hlength]
    conv_lhs => rw [hsplit, List.take_left]
    conv_lhs => rw [hvalue, hhead]
    rw [hhead]
    rfl
  next => cases h

theorem rawText_prefix (before tag s : List Char) : rawText before tag s = s.take (rawText before tag s).length := by
  unfold rawText
  split
  · rfl
  · split
    · rfl
    · rw [List.length_take, ← List.take_take, List.take_length]

theorem take_take_add (m k : Nat) (s : List Char) :
    s.take ((s.take m).length + k) = s.take m ++ (s.drop m).take k := by
  have h : (s.take m ++ s.drop m).take ((s.take m).length + k) = s.take m ++ (s.drop m).take k :=
    List.take_length_add_append _
  rwa [List.take_append_drop] at h

theorem text_of_matchCut {before : List Char} {cut : Cut} {n : Nat} (h : matchCut before s = some (cut, n)) :
    (partsOf (.found cut (s.take n))).flatMap Part.text = s.take n := by
  unfold matchCut at h
  split_ifs at h with hcomment htag hstart
  · obtain ⟨rfl, rfl⟩ := Prod.mk.inj (Option.some.inj h)
    simp [partsOf, Part.text]
  · obtain ⟨rfl, rfl⟩ := Prod.mk.inj (Option.some.inj h)
    rw [take_take_add, ← rawText_prefix]
    simp [partsOf, Part.text]
  · obtain ⟨⟨path, value⟩, hwrapped, heq⟩ := Option.map_eq_some_iff.1 h
    obtain ⟨rfl, rfl⟩ := Prod.mk.inj heq
    obtain ⟨c, s, rfl⟩ : ∃ c s', s = c :: s' := by
      cases s with
      | nil => cases hstart
      | cons c s => exact ⟨c, s, rfl⟩
    obtain rfl := Option.some.inj hstart
    rw [wrappedAt_text hwrapped]
    simp [partsOf, Part.text]

theorem flatMap_text (html : List Char) : (parts html).flatMap Part.text = html := by
  rw [parts, List.flatMap_assoc]
  conv_rhs => rw [← Scan.flatMap_raw (m := matchCut) [] html]
  apply List.flatMap_congr
  intro p hp
  cases p with
  | plain c => rfl
  | found cut raw =>
    obtain ⟨before, s, n, hfound, rfl⟩ := Scan.mem_scan_found hp
    exact text_of_matchCut hfound

/-! ### When only the marks differ -/

/-- A part that keeps no sentinels: a tag with no `START` has none at all, and a wrapped value has no others. -/
def Part.Clean : Part → Prop
  | tag text => START ∉ text → ∀ c ∈ text, isSentinel c = false
  | wrapped _ value => ∀ c ∈ value, isSentinel c = false
  | _ => True

/-- Stripping the marked attributes of a tag first makes no difference to the tag. -/
def TagsAlike (html : List Char) : Prop :=
  ∀ tag, .tag tag ∈ parts html → START ∈ tag → stripSentinels (stripAttributes tag) = stripSentinels tag

/-- No part keeps sentinels, and no cut between two parts goes through a path. -/
def Intact (html : List Char) : Prop :=
  if START ∈ html then
    (∀ p ∈ parts html, p.Clean) ∧ Undivided START SEP isSentinel ((parts html).map Part.text)
  else ∀ c ∈ html, isSentinel c = false

theorem stripped_wrapped (hpath : SEP ∉ path) (value : List Char) :
    stripped (START :: path ++ SEP :: value ++ [END]) = stripped value := by
  have hvalue : stripped (START :: path ++ SEP :: value ++ [END]) = stripped (value ++ [END]) := by
    have hmem : SEP ∈ path ++ SEP :: (value ++ [END]) := by simp
    have hlist : START :: path ++ SEP :: value ++ [END] = START :: (path ++ SEP :: (value ++ [END])) := by simp
    rw [hlist]
    unfold stripped Spans.strip
    rw [Spans.stripFrom, if_pos rfl, decide_eq_true hmem, Spans.stripFrom_true hmem, Spans.behind_append hpath,
      Spans.behind_cons_closer]
    rfl
  have hend : Uncut START SEP isSentinel value [END] := .inr (.inl (by decide))
  rw [hvalue]
  unfold stripped
  rw [(Spans.strip_append_iff brackets value [END]).2 hend]
  exact List.append_nil _

theorem notMem_path {value : List Char} (h : .wrapped path value ∈ parts html) : SEP ∉ path := by
  obtain ⟨p, hp, hpart⟩ := List.mem_flatMap.1 h
  cases p with
  | plain c => simp [partsOf] at hpart
  | found cut raw =>
    cases cut with
    | comment text => simp [partsOf] at hpart
    | tag text raw => simp [partsOf] at hpart
    | wrapped path' value' =>
      obtain ⟨rfl, rfl⟩ : path = path' ∧ value = value' := by simpa [partsOf] using hpart
      obtain ⟨before, s, n, hfound, -⟩ := Scan.mem_scan_found hp
      unfold matchCut at hfound
      split_ifs at hfound with hcomment htag hstart
      · cases (Prod.mk.inj (Option.some.inj hfound)).1
      · cases (Prod.mk.inj (Option.some.inj hfound)).1
      · obtain ⟨⟨path', value'⟩, hwrapped, heq⟩ := Option.map_eq_some_iff.1 hfound
        obtain ⟨rfl, rfl⟩ : path' = path ∧ value' = value := by simpa using (Prod.mk.inj heq).1
        unfold wrappedAt at hwrapped
        dsimp only at hwrapped
        split at hwrapped
        next =>
          rw [← (Prod.mk.inj (Option.some.inj hwrapped)).1]
          intro hmem
          have hsep := List.mem_takeWhile_imp (List.mem_of_mem_tail hmem)
          exact absurd hsep (by decide)
        next => cases hwrapped

theorem stripped_singleton (c : Char) : stripped [c] = if isSentinel c then [] else [c] := by
  unfold stripped Spans.strip
  rw [Spans.stripFrom]
  by_cases hc : c = START
  · subst hc
    rfl
  · rw [if_neg hc]
    rfl

theorem shown_spec (htags : TagsAlike html) {p : Part} (hp : p ∈ parts html) :
    (stripped p.text).Sublist p.shown ∧ (p.shown = stripped p.text ↔ p.Clean) := by
  have hsame : p.shown = stripped p.text → p.Clean →
      (stripped p.text).Sublist p.shown ∧ (p.shown = stripped p.text ↔ p.Clean) := by
    intro heq hclean
    rw [heq]
    exact ⟨List.Sublist.refl _, iff_of_true rfl hclean⟩
  cases p with
  | plain c => exact hsame (stripped_singleton c).symm trivial
  | comment text => exact hsame (stripSentinels_eq text) trivial
  | raw text => exact hsame (stripSentinels_eq text) trivial
  | tag text =>
    by_cases hstart : START ∈ text
    · refine hsame ?_ fun h => absurd hstart h
      rw [Part.shown, cleanTag, if_neg (not_not.2 hstart), htags text hp hstart]
      exact stripSentinels_eq text
    · have hshown : (Part.tag text).shown = text := by rw [Part.shown, cleanTag, if_pos hstart]
      rw [hshown]
      refine ⟨stripped_sublist text, ?_⟩
      rw [eq_comm]
      refine stripped_eq_self.trans ?_
      rw [Part.Clean]
      exact ⟨fun h _ => h, fun h => h hstart⟩
  | wrapped path value =>
    have htext : stripped (Part.wrapped path value).text = stripped value := stripped_wrapped (notMem_path hp) value
    rw [htext]
    refine ⟨stripped_sublist value, ?_⟩
    rw [eq_comm]
    exact stripped_eq_self

theorem erased_iff (htags : TagsAlike html) : erased html = stripSentinels html ↔ Intact html := by
  rw [stripSentinels_eq, Intact]
  split
  next hstart =>
    have hparts := Spans.flatMap_eq_strip_iff brackets Part.text Part.shown
      fun p (hp : p ∈ parts html) => (shown_spec htags hp).1
    rw [flatMap_text] at hparts
    rw [erased_eq hstart, hparts]
    apply and_congr_left
    intro _
    constructor
    · exact fun h p hp => (shown_spec htags hp).2.1 (h p hp)
    · exact fun h p hp => (shown_spec htags hp).2.2 (h p hp)
  next hstart =>
    have herased : erased html = html := by
      rw [erased, editMarkers, if_pos hstart]
      exact List.append_nil html
    rw [herased, eq_comm]
    exact stripped_eq_self

def dottedTitle : List Char :=
  "<p>İİİİİİİİİİİİ</p><script></script>".toList ++
    wrap "title".toList "x".toList

end CaeloCms.Edit
