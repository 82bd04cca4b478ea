import Mathlib

/-!
# Scanning a text for matches

An expression is given by its matcher: what it matches at a place, and over which length, from the text before the
place (nearest first) and the text there.  `scan` cuts a text into its leftmost matches, each looked for where the one
before ended, and the single elements between them; `finds` and `replace` are read off the pieces.

An element delimits an expression when no match reaches it and a match before it does not see what follows.  A text is
then scanned in two parts (`scan_append`).
-/

namespace Scan

variable {τ α : Type*}

inductive Piece (τ α : Type*)
  | plain (c : τ)
  | found (a : α) (raw : List τ)
deriving DecidableEq, Repr

def Piece.raw : Piece τ α → List τ
  | plain c => [c]
  | found _ raw => raw

def Piece.match? : Piece τ α → Option (α × List τ)
  | plain _ => none
  | found a raw => some (a, raw)

variable (m : List τ → List τ → Option (α × Nat))

/-- The pieces after the next `skip` elements, which belong to a match. -/
def scanFrom : List τ → Nat → List τ → List (Piece τ α)
  | _, _, [] => []
  | before, skip + 1, c :: cs => scanFrom (c :: before) skip cs
  | before, 0, c :: cs =>
    match m before (c :: cs) with
    | some (a, n + 1) => .found a ((c :: cs).take (n + 1)) :: scanFrom (c :: before) n cs
    | _ => .plain c :: scanFrom (c :: before) 0 cs

def scan (before s : List τ) : List (Piece τ α) := scanFrom m before 0 s

def finds (before s : List τ) : List (α × List τ) := (scan m before s).filterMap Piece.match?

def replace (f : α → List τ → List τ) (before s : List τ) : List τ :=
  (scan m before s).flatMap fun p => match p with
    | .plain c => [c]
    | .found a raw => f a raw

/-! ### One place after the other -/

variable {m} {before before' s : List τ} {a : α} {n : Nat} {c : τ}

@[simp] theorem scan_nil : scan m before [] = [] := by
  simp [scan, scanFrom]

theorem scanFrom_skip (before : List τ) (k : Nat) (s : List τ) :
    scanFrom m before k s = scan m ((s.take k).reverse ++ before) (s.drop k) := by
  induction s generalizing before k with
  | nil => simp [scan, scanFrom]
  | cons c cs ih =>
    cases k with
    | zero => rfl
    | succ k => simp [scanFrom, ih]

theorem scan_found (hne : s ≠ []) (h : m before s = some (a, n + 1)) :
    scan m before s =
      .found a (s.take (n + 1)) :: scan m ((s.take (n + 1)).reverse ++ before) (s.drop (n + 1)) := by
  obtain ⟨c, cs, rfl⟩ := List.exists_cons_of_ne_nil hne
  have hfrom : scan m before (c :: cs) = .found a ((c :: cs).take (n + 1)) :: scanFrom m (c :: before) n cs := by
    unfold scan
    conv_lhs => unfold scanFrom
    rw [h]
  rw [hfrom, scanFrom_skip]
  simp

def NoMatch (m : List τ → List τ → Option (α × Nat)) (before s : List τ) : Prop :=
  ∀ a n, m before s ≠ some (a, n + 1)

theorem scan_plain (h : NoMatch m before (c :: s)) : scan m before (c :: s) = .plain c :: scan m (c :: before) s := by
  unfold scan
  conv_lhs => unfold scanFrom
  split
  · rename_i a n heq
    exact absurd heq (h a n)
  · rfl

theorem match_or_noMatch (before s : List τ) : (∃ a n, m before s = some (a, n + 1)) ∨ NoMatch m before s := by
  by_cases h : ∃ a n, m before s = some (a, n + 1)
  · exact Or.inl h
  · exact Or.inr fun a n heq => h ⟨a, n, heq⟩

theorem scan_induction {P : List τ → List τ → Prop} (nil : ∀ before, P before [])
    (plain : ∀ before c s, NoMatch m before (c :: s) → P (c :: before) s → P before (c :: s))
    (found : ∀ before s a n, s ≠ [] → m before s = some (a, n + 1) →
      P ((s.take (n + 1)).reverse ++ before) (s.drop (n + 1)) → P before s)
    (before s : List τ) : P before s := by
  induction hlen : s.length using Nat.strong_induction_on generalizing before s with
  | _ len ih =>
    cases s with
    | nil => exact nil before
    | cons c cs =>
      rcases match_or_noMatch (m := m) before (c :: cs) with ⟨a, n, h⟩ | h
      · refine found before (c :: cs) a n (List.cons_ne_nil c cs) h (ih _ ?_ _ _ rfl)
        rw [← hlen, List.length_drop, List.length_cons]
        omega
      · refine plain before c cs h (ih _ ?_ _ _ rfl)
        rw [← hlen, List.length_cons]
        omega

theorem flatMap_raw (before s : List τ) : (scan m before s).flatMap Piece.raw = s := by
  induction before, s using scan_induction (m := m) with
  | nil before => simp
  | plain before c s h ih => simp [scan_plain h, Piece.raw, ih]
  | found before s a n hne h ih =>
    rw [scan_found hne h, List.flatMap_cons, ih]
    exact List.take_append_drop (n + 1) s

theorem mem_scan_found {a : α} {raw : List τ} (h : .found a raw ∈ scan m before s) :
    ∃ before' s' n, m before' s' = some (a, n + 1) ∧ raw = s'.take (n + 1) := by
  induction before, s using scan_induction (m := m) with
  | nil before => simp at h
  | plain before c s hno ih =>
    rw [scan_plain hno, List.mem_cons] at h
    exact ih (h.resolve_left fun heq => by cases heq)
  | found before s b n hne hfound ih =>
    rw [scan_found hne hfound, List.mem_cons] at h
    rcases h with heq | h
    · cases heq
      exact ⟨before, s, n, hfound, rfl⟩
    · exact ih h

theorem raw_ne_nil {p : Piece τ α} (h : p ∈ scan m before s) : p.raw ≠ [] := by
  induction before, s using scan_induction (m := m) with
  | nil before => simp at h
  | plain before c s hno ih =>
    rw [scan_plain hno, List.mem_cons] at h
    rcases h with rfl | h
    · exact List.cons_ne_nil c []
    · exact ih h
  | found before s b n hne hfound ih =>
    rw [scan_found hne hfound, List.mem_cons] at h
    rcases h with rfl | h
    · obtain ⟨c, cs, rfl⟩ := List.exists_cons_of_ne_nil hne
      exact List.cons_ne_nil c _
    · exact ih h

theorem piece_unique {ps ps' qs qs' : List (Piece τ α)} {x y : Piece τ α} (h : ps ++ x :: ps' = qs ++ y :: qs')
    (hne : ∀ p ∈ ps ++ x :: ps', p.raw ≠ []) (hraw : ps.flatMap Piece.raw = qs.flatMap Piece.raw) : x = y := by
  induction ps generalizing qs with
  | nil =>
    cases qs with
    | nil =>
      rw [List.nil_append, List.nil_append, List.cons.injEq] at h
      exact h.1
    | cons q qs =>
      rw [List.nil_append, List.cons_append, List.cons.injEq] at h
      rw [List.flatMap_nil, List.flatMap_cons, eq_comm, List.append_eq_nil_iff] at hraw
      exact absurd (h.1 ▸ hraw.1) (hne x List.mem_cons_self)
  | cons p ps ih =>
    cases qs with
    | nil =>
      rw [List.flatMap_nil, List.flatMap_cons, List.append_eq_nil_iff] at hraw
      exact absurd hraw.1 (hne p List.mem_cons_self)
    | cons q qs =>
      rw [List.cons_append, List.cons_append, List.cons.injEq] at h
      obtain ⟨rfl, h⟩ := h
      rw [List.flatMap_cons, List.flatMap_cons, List.append_cancel_left_eq] at hraw
      exact ih h (fun r hr => hne r (List.mem_cons_of_mem _ hr)) hraw

/-- The text before a place matters only as far as the matcher looks. -/
theorem scan_congr {R : List τ → List τ → Prop} (hstep : ∀ b b' c, R b b' → R (c :: b) (c :: b'))
    (hm : ∀ b b' s, R b b' → m b s = m b' s) (h : R before before') (s : List τ) :
    scan m before s = scan m before' s := by
  have happend : ∀ (xs b b' : List τ), R b b' → R (xs ++ b) (xs ++ b') := by
    intro xs
    induction xs with
    | nil => exact fun b b' hb => hb
    | cons x xs ih => exact fun b b' hb => hstep _ _ x (ih b b' hb)
  induction before, s using scan_induction (m := m) generalizing before' with
  | nil before => simp
  | plain before c s hno ih =>
    have hno' : NoMatch m before' (c :: s) := by
      intro a n heq
      exact hno a n ((hm _ _ _ h).trans heq)
    rw [scan_plain hno, scan_plain hno', ih (hstep _ _ c h)]
  | found before s a n hne hfound ih =>
    rw [scan_found hne hfound, scan_found hne ((hm _ _ _ h).symm.trans hfound), ih (happend _ _ _ h)]

/-! ### Related texts -/

/-- Pieces at one place of two related texts. -/
inductive PieceRel (S : τ → τ → Prop) (Q : α × List τ → α × List τ → Prop) : Piece τ α → Piece τ α → Prop
  | plain {c c' : τ} (h : S c c') : PieceRel S Q (.plain c) (.plain c')
  | found {a a' : α} {raw raw' : List τ} (h : Q (a, raw) (a', raw')) : PieceRel S Q (.found a raw) (.found a' raw')

/-- A matcher that sees no difference between related texts cuts them at the same places. -/
theorem scan_rel {S : τ → τ → Prop} {Q : α × List τ → α × List τ → Prop} {s' : List τ}
    (hm : ∀ b b' s s', List.Forall₂ S s s' →
      Option.Rel (fun x y => x.2 = y.2 ∧ Q (x.1, s.take x.2) (y.1, s'.take y.2)) (m b s) (m b' s'))
    (h : List.Forall₂ S s s') : List.Forall₂ (PieceRel S Q) (scan m before s) (scan m before' s') := by
  induction before, s using scan_induction (m := m) generalizing before' s' with
  | nil before =>
    cases h
    simp
  | plain before c s hno ih =>
    obtain ⟨c', t', hc, ht, rfl⟩ := List.forall₂_cons_left_iff.1 h
    have hno' : NoMatch m before' (c' :: t') := by
      intro a n heq
      have hrel := hm before before' _ _ h
      rw [heq] at hrel
      cases hb : m before (c :: s) with
      | none =>
        rw [hb] at hrel
        cases hrel
      | some x =>
        rw [hb] at hrel
        cases hrel with
        | some hx => exact hno x.1 n (hb.trans (congrArg some (Prod.ext rfl hx.1)))
    rw [scan_plain hno, scan_plain hno']
    exact .cons (.plain hc) (ih ht)
  | found before s a n hne hfound ih =>
    have hrel := hm before before' _ _ h
    rw [hfound] at hrel
    cases hb : m before' s' with
    | none =>
      rw [hb] at hrel
      cases hrel
    | some x =>
      rw [hb] at hrel
      cases hrel with
      | some hx =>
        have hne' : s' ≠ [] := by
          rintro rfl
          cases h
          exact hne rfl
        have hfound' : m before' s' = some (x.1, n + 1) := hb.trans (congrArg some (Prod.ext rfl hx.1.symm))
        have hq : Q (a, s.take (n + 1)) (x.1, s'.take (n + 1)) := by
          have hq := hx.2
          rwa [← hx.1] at hq
        rw [scan_found hne hfound, scan_found hne' hfound']
        exact .cons (.found hq) (ih (List.forall₂_drop _ h))

/-! ### Delimiters -/

/-- No match reaches `d`, and a match before it does not see what follows. -/
structure Delimits (m : List τ → List τ → Option (α × Nat)) (d : τ) : Prop where
  apart : ∀ before s rest, s ≠ [] → m before (s ++ d :: rest) = m before s
  here : ∀ before rest, NoMatch m before (d :: rest)
  inside : ∀ before s a n, m before s = some (a, n) → n ≤ s.length

variable {d : τ}

theorem scan_append (hd : Delimits m d) (before s rest : List τ) :
    scan m before (s ++ d :: rest) = scan m before s ++ .plain d :: scan m (d :: (s.reverse ++ before)) rest := by
  induction before, s using scan_induction (m := m) with
  | nil before => simp [scan_plain (hd.here before rest)]
  | plain before c s h ih =>
    have h' : NoMatch m before (c :: (s ++ d :: rest)) := by
      intro a n heq
      exact h a n ((hd.apart before (c :: s) rest (List.cons_ne_nil c s)).symm.trans heq)
    simp [scan_plain h, scan_plain h', ih]
  | found before s a n hne h ih =>
    have hle := hd.inside before s a (n + 1) h
    have h' : m before (s ++ d :: rest) = some (a, n + 1) := (hd.apart before s rest hne).trans h
    rw [scan_found hne h, scan_found (by simp) h', List.take_append_of_le_length hle,
      List.drop_append_of_le_length hle, ih, List.cons_append, ← List.append_assoc _ _ before, ← List.reverse_append,
      List.take_append_drop]

theorem finds_append (hd : Delimits m d) (before s rest : List τ) :
    finds m before (s ++ d :: rest) = finds m before s ++ finds m (d :: (s.reverse ++ before)) rest := by
  unfold finds
  rw [scan_append hd, List.filterMap_append, List.filterMap_cons_none rfl]

theorem replace_append (hd : Delimits m d) (f : α → List τ → List τ) (before s rest : List τ) :
    replace m f before (s ++ d :: rest) = replace m f before s ++ d :: replace m f (d :: (s.reverse ++ before)) rest := by
  unfold replace
  rw [scan_append hd, List.flatMap_append, List.flatMap_cons]
  rfl

theorem replace_of_finds_nil (f : α → List τ → List τ) (h : finds m before s = []) : replace m f before s = s := by
  have hplain : ∀ p ∈ scan m before s, p.match? = none := by
    intro p hp
    exact List.filterMap_eq_nil_iff.1 h p hp
  have hraw := flatMap_raw (m := m) before s
  unfold replace
  rw [← hraw, hraw]
  conv_rhs => rw [← hraw]
  apply List.flatMap_congr
  intro p hp
  cases p with
  | plain c => rfl
  | found a raw => cases hplain _ hp

theorem scan_whole (hne : s ≠ []) (h : m before s = some (a, s.length)) : scan m before s = [.found a s] := by
  obtain ⟨n, hn⟩ : ∃ n, s.length = n + 1 := ⟨s.length - 1, by have := List.length_pos_of_ne_nil hne; omega⟩
  rw [hn] at h
  rw [scan_found hne h, ← hn]
  simp

end Scan
