import Mathlib

/-!
# Occurrences of a text in a text

`At needle s i` says that the needle stands in the text behind its first `i` elements; occurrences may overlap.
`indexOf` is the first occurrence, `split` cuts the text at the first occurrence, then at the first one behind it, and so
on.  The cuts tell a single occurrence from several ones only where occurrences do not overlap (`unique_iff_apart`).
Joining the cuts with another text replaces the occurrences from left to right (`replaced_intercalate`).
-/

namespace Occurrences

variable {α : Type*}

/-- The needle stands in the text behind the first `i` elements. -/
def At (needle s : List α) (i : Nat) : Prop := ∃ before after, s = before ++ needle ++ after ∧ before.length = i

/-- No two occurrences overlap. -/
def Apart (needle s : List α) : Prop := ∀ i j, At needle s i → At needle s j → i < j → i + needle.length ≤ j

variable {needle s : List α} {i j : Nat}

theorem at_zero : At needle s 0 ↔ needle <+: s := by
  constructor
  · rintro ⟨before, after, rfl, hlength⟩
    rw [List.length_eq_zero_iff.1 hlength]
    exact ⟨after, rfl⟩
  · rintro ⟨after, rfl⟩
    exact ⟨[], after, rfl, rfl⟩

theorem at_cons_succ {c : α} : At needle (c :: s) (i + 1) ↔ At needle s i := by
  constructor
  · rintro ⟨before, after, heq, hlength⟩
    cases before with
    | nil => cases hlength
    | cons b before =>
      rw [List.cons_append, List.cons_append, List.cons.injEq] at heq
      exact ⟨before, after, heq.2, Nat.succ.inj hlength⟩
  · rintro ⟨before, after, rfl, rfl⟩
    exact ⟨c :: before, after, rfl, rfl⟩

theorem at_nil_succ : ¬At needle [] (i + 1) := by
  rintro ⟨before, after, heq, hlength⟩
  have hnil := List.append_eq_nil_iff.1 (List.append_eq_nil_iff.1 heq.symm).1
  rw [hnil.1] at hlength
  cases hlength

theorem At.le (h : At needle s i) : i + needle.length ≤ s.length := by
  obtain ⟨before, after, rfl, rfl⟩ := h
  simp

theorem at_drop (k : Nat) (h : k ≤ s.length) : At needle (s.drop k) j ↔ At needle s (k + j) := by
  induction k generalizing s with
  | zero => rw [List.drop_zero, Nat.zero_add]
  | succ k ih =>
    cases s with
    | nil => cases h
    | cons c s => rw [List.drop_succ_cons, ih (Nat.le_of_succ_le_succ h), Nat.succ_add, at_cons_succ]

theorem At.eq_take (h : At needle s i) : s = s.take i ++ needle ++ s.drop (i + needle.length) := by
  obtain ⟨before, after, rfl, rfl⟩ := h
  simp [← List.drop_drop]

theorem take_append_drop_at (before needle after r : List α) :
    (before ++ needle ++ after).take before.length ++ r ++ (before ++ needle ++ after).drop (before.length + needle.length) =
      before ++ r ++ after := by
  simp [← List.drop_drop]

variable [DecidableEq α]

/-- The first occurrence. -/
def indexOf (needle : List α) : List α → Option Nat
  | [] => if needle = [] then some 0 else none
  | c :: s => if needle <+: c :: s then some 0 else (indexOf needle s).map (· + 1)

theorem indexOf_eq_some : indexOf needle s = some i ↔ At needle s i ∧ ∀ j < i, ¬At needle s j := by
  induction s generalizing i with
  | nil =>
    rw [indexOf]
    by_cases hne : needle = []
    · subst hne
      rw [if_pos rfl]
      constructor
      · rintro ⟨⟩
        exact ⟨at_zero.2 (List.nil_prefix), fun j hj => absurd hj (Nat.not_lt_zero j)⟩
      · rintro ⟨hat, -⟩
        cases i with
        | zero => rfl
        | succ i => exact absurd hat at_nil_succ
    · rw [if_neg hne]
      constructor
      · rintro ⟨⟩
      · rintro ⟨hat, -⟩
        cases i with
        | zero => exact absurd (List.prefix_nil.1 (at_zero.1 hat)) hne
        | succ i => exact absurd hat at_nil_succ
  | cons c s ih =>
    rw [indexOf]
    by_cases hp : needle <+: c :: s
    · rw [if_pos hp]
      constructor
      · rintro ⟨⟩
        exact ⟨at_zero.2 hp, fun j hj => absurd hj (Nat.not_lt_zero j)⟩
      · rintro ⟨-, hfirst⟩
        cases i with
        | zero => rfl
        | succ i => exact absurd (at_zero.2 hp) (hfirst 0 (Nat.succ_pos i))
    · rw [if_neg hp]
      cases i with
      | zero =>
        constructor
        · intro h
          obtain ⟨k, -, hk⟩ := Option.map_eq_some_iff.1 h
          cases hk
        · rintro ⟨hat, -⟩
          exact absurd (at_zero.1 hat) hp
      | succ i =>
        rw [Option.map_eq_some_iff]
        constructor
        · rintro ⟨k, hk, hki⟩
          obtain rfl := Nat.succ.inj hki
          obtain ⟨hat, hfirst⟩ := ih.1 hk
          refine ⟨at_cons_succ.2 hat, ?_⟩
          intro j hj hjat
          cases j with
          | zero => exact hp (at_zero.1 hjat)
          | succ j => exact hfirst j (Nat.lt_of_succ_lt_succ hj) (at_cons_succ.1 hjat)
        · rintro ⟨hat, hfirst⟩
          refine ⟨i, ih.2 ⟨at_cons_succ.1 hat, ?_⟩, rfl⟩
          intro j hj hjat
          exact hfirst (j + 1) (Nat.succ_lt_succ hj) (at_cons_succ.2 hjat)

theorem indexOf_eq_none : indexOf needle s = none ↔ ∀ i, ¬At needle s i := by
  constructor
  · intro h i hi
    have hex : ∃ j, At needle s j := ⟨i, hi⟩
    classical
    have hfind : indexOf needle s = some (Nat.find hex) :=
      indexOf_eq_some.2 ⟨Nat.find_spec hex, fun j hj => Nat.find_min hex hj⟩
    rw [h] at hfind
    cases hfind
  · intro h
    cases hfind : indexOf needle s with
    | none => rfl
    | some i => exact absurd (indexOf_eq_some.1 hfind).1 (h i)

def replaceFirst (needle r s : List α) : List α :=
  match indexOf needle s with
  | none => s
  | some i => s.take i ++ r ++ s.drop (i + needle.length)

/-! ### Cutting at the occurrences -/

/-- The pieces between at most `n` occurrences. -/
def splitFrom (needle : List α) : Nat → List α → List (List α)
  | 0, s => [s]
  | n + 1, s =>
    match indexOf needle s with
    | none => [s]
    | some i => s.take i :: splitFrom needle n (s.drop (i + needle.length))

/-- The pieces between the occurrences of a needle that is not empty. -/
def split (needle s : List α) : List (List α) := splitFrom needle s.length s

theorem splitFrom_eq_split (hne : needle ≠ []) {n : Nat} (h : s.length ≤ n) : splitFrom needle n s = split needle s := by
  have hpos := List.length_pos_of_ne_nil hne
  unfold split
  induction n using Nat.strong_induction_on generalizing s with
  | _ n ih =>
    cases n with
    | zero => rw [Nat.le_zero.1 h]
    | succ n =>
      cases hfind : indexOf needle s with
      | none =>
        have hone : ∀ m, splitFrom needle m s = [s] := by
          intro m
          cases m with
          | zero => rfl
          | succ m => rw [splitFrom, hfind]
        rw [hone, hone]
      | some i =>
        have hle := (indexOf_eq_some.1 hfind).1.le
        obtain ⟨m, hm⟩ : ∃ m, s.length = m + 1 := ⟨s.length - 1, by omega⟩
        rw [hm, splitFrom, splitFrom, hfind]
        have hdrop : (s.drop (i + needle.length)).length ≤ m := by
          rw [List.length_drop]
          omega
        change s.take i :: _ = s.take i :: _
        rw [ih n (Nat.lt_succ_self n) (by omega), ih m (by omega) hdrop]

theorem split_of_none (h : ∀ i, ¬At needle s i) : split needle s = [s] := by
  unfold split
  cases s.length with
  | zero => rfl
  | succ n => rw [splitFrom, indexOf_eq_none.2 h]

theorem split_of_first (hne : needle ≠ []) (h : indexOf needle s = some i) :
    split needle s = s.take i :: split needle (s.drop (i + needle.length)) := by
  have hpos := List.length_pos_of_ne_nil hne
  have hle := (indexOf_eq_some.1 h).1.le
  obtain ⟨n, hn⟩ : ∃ n, s.length = n + 1 := ⟨s.length - 1, by omega⟩
  have hdrop : (s.drop (i + needle.length)).length ≤ n := by
    rw [List.length_drop]
    omega
  rw [← splitFrom_eq_split hne hdrop, split, hn, splitFrom, h]

theorem split_ne_nil (needle s : List α) : split needle s ≠ [] := by
  unfold split
  cases s.length with
  | zero => exact List.cons_ne_nil _ _
  | succ n =>
    rw [splitFrom]
    cases indexOf needle s with
    | none => exact List.cons_ne_nil _ _
    | some i => exact List.cons_ne_nil _ _

theorem length_split_eq_one (hne : needle ≠ []) : (split needle s).length = 1 ↔ ∀ i, ¬At needle s i := by
  constructor
  · intro h
    cases hfind : indexOf needle s with
    | none => exact indexOf_eq_none.1 hfind
    | some i =>
      rw [split_of_first hne hfind, List.length_cons, Nat.add_eq_right, List.length_eq_zero_iff] at h
      exact absurd h (split_ne_nil _ _)
  · intro h
    rw [split_of_none h]
    rfl

/-- With two pieces every occurrence starts in the first one or before it ends. -/
theorem length_split_eq_two (hne : needle ≠ []) (hi : indexOf needle s = some i) :
    (split needle s).length = 2 ↔ ∀ j, At needle s j → j < i + needle.length := by
  have hle := (indexOf_eq_some.1 hi).1.le
  have hone : (split needle s).length = 2 ↔ (split needle (s.drop (i + needle.length))).length = 1 := by
    rw [split_of_first hne hi, List.length_cons]
    omega
  rw [hone, length_split_eq_one hne]
  constructor
  · intro h j hj
    by_contra hlt
    obtain ⟨k, rfl⟩ := Nat.exists_eq_add_of_le (Nat.not_lt.1 hlt)
    exact h k ((at_drop _ hle).2 hj)
  · intro h k hk
    have hlt := h _ ((at_drop _ hle).1 hk)
    omega

/-- A text cut once has one occurrence if and only if none overlap. -/
theorem unique_iff_apart (hne : needle ≠ []) (hsplit : (split needle s).length = 2) (hi : indexOf needle s = some i) :
    (∀ j, At needle s j → j = i) ↔ Apart needle s := by
  have hpos := List.length_pos_of_ne_nil hne
  have hfirst := indexOf_eq_some.1 hi
  constructor
  · intro h j k hj hk hlt
    rw [h j hj, h k hk] at hlt
    exact absurd hlt (lt_irrefl i)
  · intro h j hj
    have hlt := (length_split_eq_two hne hi).1 hsplit j hj
    rcases Nat.lt_trichotomy i j with hij | hij | hij
    · have := h i j hfirst.1 hj hij
      omega
    · exact hij.symm
    · exact absurd hj (hfirst.2 j hij)

/-! ### Replacing all occurrences -/

omit [DecidableEq α] in
/-- The occurrences from left to right, each behind the one before, replaced. -/
inductive Replaced (needle r : List α) : List α → List α → Prop
  | done {s : List α} (h : ∀ i, ¬At needle s i) : Replaced needle r s s
  | next (before after after' : List α) (hfirst : ∀ i, At needle (before ++ needle ++ after) i → before.length ≤ i)
      (hrest : Replaced needle r after after') : Replaced needle r (before ++ needle ++ after) (before ++ r ++ after')

theorem replaced_intercalate (hne : needle ≠ []) (r s : List α) :
    Replaced needle r s (r.intercalate (split needle s)) := by
  have hpos := List.length_pos_of_ne_nil hne
  induction hlen : s.length using Nat.strong_induction_on generalizing s with
  | _ n ih =>
    cases hfind : indexOf needle s with
    | none =>
      rw [split_of_none (indexOf_eq_none.1 hfind), List.intercalate_singleton]
      exact .done (indexOf_eq_none.1 hfind)
    | some i =>
      obtain ⟨hat, hfirst⟩ := indexOf_eq_some.1 hfind
      have hle := hat.le
      have hrest := ih (s.drop (i + needle.length)).length (by rw [List.length_drop]; omega) _ rfl
      have htake : (s.take i).length = i := by
        rw [List.length_take]
        omega
      have hnext := Replaced.next (s.take i) (s.drop (i + needle.length)) _ ?_ hrest
      · rw [← hat.eq_take] at hnext
        rw [split_of_first hne hfind, List.intercalate_cons_of_ne_nil (split_ne_nil _ _)]
        exact hnext
      · rw [← hat.eq_take, htake]
        intro j hj
        by_contra hlt
        exact hfirst j (Nat.not_le.1 hlt) hj

omit [DecidableEq α] in
theorem Replaced.unique {r t u : List α} (h : Replaced needle r s t) (h' : Replaced needle r s u) : t = u := by
  induction h generalizing u with
  | done hnone =>
    cases h' with
    | done => rfl
    | next before after after' hfirst hrest => exact absurd ⟨before, after, rfl, rfl⟩ (hnone before.length)
  | next before after after' hfirst hrest ih =>
    generalize hs : before ++ needle ++ after = s at h'
    cases h' with
    | done hnone => exact absurd ⟨before, after, hs.symm, rfl⟩ (hnone before.length)
    | next b a a' hfirst' hrest' =>
      have hle := hfirst b.length ⟨b, a, hs, rfl⟩
      have hle' := hfirst' before.length ⟨before, after, hs.symm, rfl⟩
      rw [List.append_assoc, List.append_assoc] at hs
      obtain ⟨rfl, htail⟩ := List.append_inj hs (by omega)
      obtain rfl := List.append_cancel_left htail
      rw [ih hrest']

end Occurrences
