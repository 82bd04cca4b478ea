import Mathlib

/-!
# Stripping spans from a text

A text carries spans, each from an opener to the next closer; marks are the elements that are never shown, openers and
closers among them.  `strip` drops the spans and the marks that are left.  A text that is cut in two is stripped in two
(`strip_append_iff`) unless the cut goes through a span that has something else in it (`Uncut`).  Stripping the parts one by
one never shows less than stripping the whole (`strip_append_sublist`), so for a text in parts it is enough to look at
the cuts (`flatMap_eq_strip_iff`).
-/

namespace Spans

variable {α : Type*} [DecidableEq α] (opener closer : α) (mark : α → Bool)

/-- The text without its spans and marks, read from the inside of a span or from the outside. -/
def stripFrom : Bool → List α → List α
  | _, [] => []
  | true, c :: s => stripFrom (c ≠ closer) s
  | false, c :: s =>
    if c = opener then stripFrom (decide (closer ∈ s)) s
    else if mark c then stripFrom false s
    else c :: stripFrom false s

def strip (s : List α) : List α := stripFrom opener closer mark false s

/-- What is shown of a text without spans. -/
def visible (s : List α) : List α := s.filter fun c => !mark c

def behind (s : List α) : List α := (s.dropWhile fun c => c ≠ closer).tail

def lead (s : List α) : List α := s.takeWhile fun c => c ≠ opener ∧ c ≠ closer

/-- The span that a text leaves open, from its opener. -/
def unclosed : List α → List α
  | [] => []
  | c :: s => if closer ∈ s then unclosed s else if c = opener then c :: s else unclosed s

/-- A cut between two texts that goes through no span, or through one with nothing but marks on its two sides. -/
def Uncut (a b : List α) : Prop :=
  unclosed opener closer a = [] ∨ closer ∉ b ∨
    visible mark (unclosed opener closer a) = [] ∧ visible mark (lead opener closer b) = []

structure Brackets (opener closer : α) (mark : α → Bool) : Prop where
  ne : opener ≠ closer
  opener : mark opener = true
  closer : mark closer = true

variable {opener closer : α} {mark : α → Bool}

/-! ### Text without closers -/

theorem stripFrom_of_notMem (h : Brackets opener closer mark) {s : List α} (hs : closer ∉ s) :
    strip opener closer mark s = visible mark s := by
  induction s with
  | nil => rfl
  | cons c s ih =>
    rw [List.mem_cons, not_or] at hs
    unfold strip at ih ⊢
    rw [stripFrom]
    by_cases hc : c = opener
    · subst hc
      simp [hs.2, ih hs.2, visible, h.opener]
    · cases hmark : mark c <;> simp [hc, hmark, ih hs.2, visible]

theorem behind_cons_closer (s : List α) : behind closer (closer :: s) = s := by
  simp [behind]

theorem behind_cons {c : α} (hc : c ≠ closer) (s : List α) : behind closer (c :: s) = behind closer s := by
  simp [behind, hc]

theorem behind_append {a : List α} (ha : closer ∉ a) (b : List α) : behind closer (a ++ b) = behind closer b := by
  induction a with
  | nil => rfl
  | cons c a ih =>
    rw [List.mem_cons, not_or] at ha
    rw [List.cons_append, behind_cons (Ne.symm ha.1), ih ha.2]

theorem stripFrom_true {s : List α} (h : closer ∈ s) :
    stripFrom opener closer mark true s = strip opener closer mark (behind closer s) := by
  induction s with
  | nil => cases h
  | cons c s ih =>
    rw [stripFrom]
    by_cases hc : c = closer
    · subst hc
      rw [behind_cons_closer]
      simp [strip]
    · have hs : closer ∈ s := (List.mem_cons.1 h).resolve_left (Ne.symm hc)
      rw [behind_cons hc, ← ih hs]
      simp [hc]

theorem strip_eq_lead (h : Brackets opener closer mark) {s : List α} (hs : closer ∈ s) :
    strip opener closer mark s = visible mark (lead opener closer s) ++ strip opener closer mark (behind closer s) := by
  induction s with
  | nil => cases hs
  | cons c s ih =>
    unfold strip
    rw [stripFrom]
    by_cases hcloser : c = closer
    · subst hcloser
      rw [behind_cons_closer, if_neg h.ne.symm, if_pos h.closer]
      simp [lead, visible]
    · have hmem : closer ∈ s := (List.mem_cons.1 hs).resolve_left (Ne.symm hcloser)
      rw [behind_cons hcloser]
      by_cases hopener : c = opener
      · subst hopener
        rw [if_pos rfl, decide_eq_true hmem, stripFrom_true hmem]
        simp [lead, visible, strip]
      · have hlead : lead opener closer (c :: s) = c :: lead opener closer s := by
          simp [lead, hopener, hcloser]
        have hrest := ih hmem
        unfold strip at hrest
        rw [if_neg hopener, hlead]
        cases hmark : mark c <;> simp [hmark, hrest, visible]

/-! ### Two texts -/

/-- What follows a text that leaves this span open. -/
def stripAfter (opener closer : α) (mark : α → Bool) (span b : List α) : List α :=
  if span = [] then strip opener closer mark b
  else if closer ∈ b then strip opener closer mark (behind closer b)
  else visible mark span ++ strip opener closer mark b

theorem unclosed_cons_of_ne {c : α} (hc : c ≠ opener) (s : List α) :
    unclosed opener closer (c :: s) = unclosed opener closer s := by
  rw [unclosed, if_neg hc, ite_self]

/-- A text shows the same whatever follows, but for the span it leaves open. -/
theorem stripFrom_append (h : Brackets opener closer mark) (a : List α) (inside : Bool)
    (hinside : inside = true → closer ∈ a) :
    ∃ shown, stripFrom opener closer mark inside a = shown ++ visible mark (unclosed opener closer a) ∧
      ∀ b, stripFrom opener closer mark inside (a ++ b) =
        shown ++ stripAfter opener closer mark (unclosed opener closer a) b := by
  induction a generalizing inside with
  | nil =>
    cases inside with
    | true => cases hinside rfl
    | false => exact ⟨[], rfl, fun b => rfl⟩
  | cons c s ih =>
    cases inside with
    | true =>
      simp only [List.cons_append, stripFrom]
      by_cases hc : c = closer
      · subst hc
        obtain ⟨shown, hshown, happend⟩ := ih false fun h => absurd h Bool.false_ne_true
        rw [unclosed_cons_of_ne h.ne.symm]
        exact ⟨shown, by simpa using hshown, by simpa using happend⟩
      · have hs : closer ∈ s := (List.mem_cons.1 (hinside rfl)).resolve_left (Ne.symm hc)
        obtain ⟨shown, hshown, happend⟩ := ih true fun _ => hs
        rw [unclosed, if_pos hs]
        exact ⟨shown, by simpa [hc] using hshown, by simpa [hc] using happend⟩
    | false =>
      simp only [List.cons_append, stripFrom]
      by_cases hc : c = opener
      · subst hc
        by_cases hs : closer ∈ s
        · obtain ⟨shown, hshown, happend⟩ := ih true fun _ => hs
          rw [unclosed, if_pos hs]
          exact ⟨shown, by simpa [hs] using hshown, fun b => by simpa [hs] using happend b⟩
        · have hopen : unclosed c closer (c :: s) = c :: s := by
            rw [unclosed, if_neg hs, if_pos rfl]
          have hvisible : visible mark (c :: s) = visible mark s := by
            simp [visible, h.opener]
          rw [hopen]
          refine ⟨[], ?_, fun b => ?_⟩
          · rw [hvisible, List.nil_append, ← stripFrom_of_notMem h hs]
            simp [hs, strip]
          · unfold stripAfter
            rw [if_neg (List.cons_ne_nil c s), List.nil_append, hvisible]
            by_cases hb : closer ∈ b
            · have hmem : closer ∈ s ++ b := List.mem_append_right s hb
              rw [if_pos hb, if_pos rfl, decide_eq_true hmem, stripFrom_true hmem, behind_append hs]
            · have hmem : closer ∉ s ++ b := by
                rw [List.mem_append, not_or]
                exact ⟨hs, hb⟩
              rw [if_neg hb, if_pos rfl, decide_eq_false hmem, stripFrom_of_notMem h hb]
              have hall := stripFrom_of_notMem h hmem
              unfold strip at hall
              rw [hall, visible, List.filter_append]
              rfl
      · obtain ⟨shown, hshown, happend⟩ := ih false fun h => absurd h Bool.false_ne_true
        rw [unclosed_cons_of_ne hc]
        cases hmark : mark c with
        | true => exact ⟨shown, by simpa [hc, hmark] using hshown, fun b => by simpa [hc, hmark] using happend b⟩
        | false => exact ⟨c :: shown, by simpa [hc, hmark] using hshown, fun b => by simpa [hc, hmark] using happend b⟩

theorem strip_append_iff (h : Brackets opener closer mark) (a b : List α) :
    strip opener closer mark (a ++ b) = strip opener closer mark a ++ strip opener closer mark b ↔
      Uncut opener closer mark a b := by
  obtain ⟨shown, hshown, happend⟩ := stripFrom_append h a false fun h => absurd h Bool.false_ne_true
  unfold strip at *
  rw [happend, hshown]
  unfold stripAfter Uncut strip
  by_cases hspan : unclosed opener closer a = []
  · simp [hspan, visible]
  · by_cases hb : closer ∈ b
    · have hlead := strip_eq_lead h hb
      unfold strip at hlead
      rw [if_neg hspan, if_pos hb, hlead, List.append_assoc, List.append_cancel_left_eq, ← List.append_assoc,
        eq_comm, List.append_left_eq_self, List.append_eq_nil_iff]
      simp [hspan, hb]
    · simp [hspan, hb]

theorem strip_append_sublist (h : Brackets opener closer mark) (a b : List α) :
    (strip opener closer mark (a ++ b)).Sublist (strip opener closer mark a ++ strip opener closer mark b) := by
  obtain ⟨shown, hshown, happend⟩ := stripFrom_append h a false fun h => absurd h Bool.false_ne_true
  unfold strip at *
  rw [happend, hshown, List.append_assoc]
  apply List.Sublist.append_left
  unfold stripAfter strip
  by_cases hspan : unclosed opener closer a = []
  · simp [hspan, visible]
  · by_cases hb : closer ∈ b
    · have hlead := strip_eq_lead h hb
      unfold strip at hlead
      rw [if_neg hspan, if_pos hb, hlead, ← List.append_assoc]
      exact List.sublist_append_right _ _
    · rw [if_neg hspan, if_neg hb]

/-! ### A text in parts -/

/-- No cut between two parts goes through a span. -/
def Undivided (opener closer : α) (mark : α → Bool) : List (List α) → Prop
  | [] => True
  | a :: parts => Uncut opener closer mark a parts.flatten ∧ Undivided opener closer mark parts

/-- What is written for each part of a text is the whole text stripped if and only if each part is stripped and no
cut goes through a span. -/
theorem flatMap_eq_strip_iff (h : Brackets opener closer mark) {β : Type*} (part written : β → List α) {ps : List β}
    (hps : ∀ p ∈ ps, (strip opener closer mark (part p)).Sublist (written p)) :
    ps.flatMap written = strip opener closer mark (ps.flatMap part) ↔
      (∀ p ∈ ps, written p = strip opener closer mark (part p)) ∧ Undivided opener closer mark (ps.map part) := by
  have hsub : ∀ qs : List β, (∀ p ∈ qs, (strip opener closer mark (part p)).Sublist (written p)) →
      (strip opener closer mark (qs.flatMap part)).Sublist (qs.flatMap written) := by
    intro qs hqs
    induction qs with
    | nil => exact List.Sublist.refl _
    | cons q qs ih =>
      obtain ⟨hq, hrest⟩ := List.forall_mem_cons.1 hqs
      rw [List.flatMap_cons, List.flatMap_cons]
      exact (strip_append_sublist h _ _).trans (hq.append (ih hrest))
  induction ps with
  | nil => simp [Undivided, strip, stripFrom]
  | cons p ps ih =>
    obtain ⟨hp, hrest⟩ := List.forall_mem_cons.1 hps
    rw [List.forall_mem_cons, List.map_cons, Undivided, List.flatMap_cons, List.flatMap_cons, ← List.flatMap_def,
      ← strip_append_iff h]
    constructor
    · intro heq
      -- all three inclusions are equalities, for the lengths agree at both ends
      have hlen := congrArg List.length heq
      have hcut := (strip_append_sublist h (part p) (ps.flatMap part)).length_le
      have hpart := hp.length_le
      have htail := (hsub ps hrest).length_le
      rw [List.length_append] at hlen hcut
      have hpeq := hp.eq_of_length (by omega)
      have hteq := (hsub ps hrest).eq_of_length (by omega)
      obtain ⟨hparts, hundivided⟩ := (ih hrest).1 hteq.symm
      refine ⟨⟨hpeq.symm, hparts⟩, ?_, hundivided⟩
      rw [← heq, hpeq, hteq]
    · rintro ⟨⟨hpeq, hparts⟩, hcut, hundivided⟩
      rw [hcut, hpeq, (ih hrest).2 ⟨hparts, hundivided⟩]

end Spans
