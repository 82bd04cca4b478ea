import Mathlib

/-!
# Replacing the whole occurrences of a word

A search reads a text from left to right.  Where the needle stands and the text ends behind it or goes on with an
element that closes it off, the search finds a match and goes on behind it; every other element is kept.  `tokens` is
what it reads, and `rewrite` puts a word in place of the matches.

The pieces of a text are read like the text if and only if no cut changes what the search sees (`tokens_flatten_iff`).
-/

namespace Rewriting

variable {α : Type*} (needle : List α) (closes : α → Bool)

/-- The needle stands at the start of the text, and nothing goes on with it. -/
def Matches (s : List α) : Prop := needle <+: s ∧ (s.drop needle.length).head?.all closes = true

instance [DecidableEq α] (s : List α) : Decidable (Matches needle closes s) := inferInstanceAs (Decidable (_ ∧ _))

/-- The search in a text looks for a match at the start of what is left of it. -/
inductive Looks (p : List α) : List α → Prop
  | start : Looks p p
  | kept {s : List α} {a : α} (h : Looks p (a :: s)) (hnone : ¬Matches needle closes (a :: s)) : Looks p s
  | found {s : List α} (h : Looks p s) (hmatch : Matches needle closes s) : Looks p (s.drop needle.length)

/-- The cut between two texts changes nothing of what the search in the first one sees. -/
structure Uncut (p q : List α) : Prop where
  /-- A match at the end of the first text is one of the whole. -/
  ends : Looks needle closes p needle → q.head?.all closes = true
  /-- No match of the whole reaches over the cut. -/
  within : ∀ s, Looks needle closes p s → s ≠ [] → s.length < needle.length → ¬Matches needle closes (s ++ q)

/-- The cuts between the pieces of a text change nothing. -/
def AllUncut : List (List α) → Prop
  | [] => True
  | p :: ps => Uncut needle closes p ps.flatten ∧ AllUncut ps

/-- A text with `r` in place of the matches. -/
def expand (r : List α) (ts : List (Option α)) : List α := ts.flatMap fun t => t.elim r fun a => [a]

variable [DecidableEq α]

/-- What the search reads behind the next `skip` elements: `none` is a match, and any other element is kept. -/
def scan : Nat → List α → List (Option α)
  | _, [] => []
  | skip + 1, _ :: s => scan skip s
  | 0, a :: s =>
    if Matches needle closes (a :: s) then none :: scan (needle.length - 1) s else some a :: scan 0 s

def tokens (s : List α) : List (Option α) := scan needle closes 0 s

def rewrite (r s : List α) : List α := expand r (tokens needle closes s)

omit [DecidableEq α]

variable {needle closes} {p q r s : List α} {ts us : List (Option α)} {a : α}

/-! ### Matches -/

theorem Matches.ne_nil (hne : needle ≠ []) (h : Matches needle closes s) : s ≠ [] := by
  rintro rfl
  exact hne (List.prefix_nil.1 h.1)

theorem Matches.append_drop (h : Matches needle closes s) : needle ++ s.drop needle.length = s := by
  obtain ⟨t, rfl⟩ := h.1
  rw [List.drop_left]

theorem matches_needle_append : Matches needle closes (needle ++ q) ↔ q.head?.all closes = true := by
  rw [Matches, List.drop_left]
  exact ⟨fun h => h.2, fun h => ⟨List.prefix_append _ _, h⟩⟩

theorem matches_needle : Matches needle closes needle := by
  constructor
  · exact List.prefix_rfl
  · rw [List.drop_length]
    rfl

/-- What stands behind a text that is longer than the needle does not matter. -/
theorem matches_append_of_lt (hlen : needle.length < p.length) :
    Matches needle closes (p ++ q) ↔ Matches needle closes p := by
  have hprefix : needle <+: p ++ q ↔ needle <+: p :=
    ⟨fun h => List.prefix_of_prefix_length_le h (List.prefix_append p q) hlen.le, fun h => h.trans (List.prefix_append p q)⟩
  obtain ⟨a, t, hdrop⟩ : ∃ a t, p.drop needle.length = a :: t := by
    apply List.exists_cons_of_ne_nil
    rw [Ne, List.drop_eq_nil_iff]
    omega
  rw [Matches, Matches, hprefix, List.drop_append_of_le_length hlen.le, hdrop, List.cons_append, List.head?_cons,
    List.head?_cons]

theorem not_matches_of_length (hlen : needle.length = p.length) (hne : p ≠ needle) : ¬Matches needle closes (p ++ q) := by
  intro h
  exact hne ((List.prefix_of_prefix_length_le h.1 (List.prefix_append p q) hlen.le).eq_of_length hlen).symm

/-! ### What the search reads -/

@[simp]
theorem expand_nil : expand r [] = [] := rfl

@[simp]
theorem expand_none : expand r (none :: ts) = r ++ expand r ts := rfl

@[simp]
theorem expand_some : expand r (some a :: ts) = a :: expand r ts := rfl

theorem expand_append : expand r (ts ++ us) = expand r ts ++ expand r us := List.flatMap_append

theorem expand_flatten (tss : List (List (Option α))) : expand r tss.flatten = (tss.map (expand r)).flatten := by
  induction tss with
  | nil => rfl
  | cons ts tss ih => rw [List.flatten_cons, expand_append, ih, List.map_cons, List.flatten_cons]

/-- The same text with the same word for the matches is read in one way only, even if some elements are not compared. -/
theorem expand_injective {x u : α} {rest : List α} (compared : α → Bool) (hx : compared x = true) (hu : compared u = true)
    (hne : u ≠ x) (hneedle : expand (x :: rest) ts = expand (x :: rest) us)
    (h : (expand [u] ts).filter compared = (expand [u] us).filter compared) : ts = us := by
  induction ts generalizing us with
  | nil =>
    cases us with
    | nil => rfl
    | cons t us => cases t <;> cases hneedle
  | cons t ts ih =>
    cases us with
    | nil => cases t <;> cases hneedle
    | cons t' us =>
      cases t with
      | none =>
        cases t' with
        | none =>
          rw [expand_none, expand_none] at hneedle h
          rw [List.singleton_append, List.singleton_append, List.filter_cons_of_pos hu, List.filter_cons_of_pos hu] at h
          rw [ih (List.append_cancel_left hneedle) (List.tail_eq_of_cons_eq h)]
        | some b =>
          rw [expand_none, expand_some] at hneedle h
          obtain rfl := List.head_eq_of_cons_eq hneedle
          rw [List.singleton_append, List.filter_cons_of_pos hu, List.filter_cons_of_pos hx] at h
          exact absurd (List.head_eq_of_cons_eq h) hne
      | some a =>
        cases t' with
        | none =>
          rw [expand_some, expand_none] at hneedle h
          obtain rfl := List.head_eq_of_cons_eq hneedle
          rw [List.singleton_append, List.filter_cons_of_pos hu, List.filter_cons_of_pos hx] at h
          exact absurd (List.head_eq_of_cons_eq h).symm hne
        | some b =>
          rw [expand_some, expand_some] at hneedle h
          obtain rfl := List.head_eq_of_cons_eq hneedle
          have hrest : (expand [u] ts).filter compared = (expand [u] us).filter compared := by
            by_cases ha : compared a = true
            · rw [List.filter_cons_of_pos ha, List.filter_cons_of_pos ha] at h
              exact List.tail_eq_of_cons_eq h
            · rw [List.filter_cons_of_neg ha, List.filter_cons_of_neg ha] at h
              exact h
          rw [ih (List.tail_eq_of_cons_eq hneedle) hrest]

section

variable [DecidableEq α]

theorem scan_eq_tokens_drop (k : Nat) (s : List α) : scan needle closes k s = tokens needle closes (s.drop k) := by
  induction k generalizing s with
  | zero => rw [List.drop_zero, tokens]
  | succ k ih =>
    cases s with
    | nil => rw [scan, List.drop_nil, tokens, scan]
    | cons a s => rw [scan, ih, List.drop_succ_cons]

theorem tokens_nil : tokens needle closes [] = [] := by
  rw [tokens, scan]

theorem tokens_of_not (h : ¬Matches needle closes (a :: s)) :
    tokens needle closes (a :: s) = some a :: tokens needle closes s := by
  rw [tokens, scan, if_neg h, tokens]

theorem tokens_of_match (hne : needle ≠ []) (h : Matches needle closes s) :
    tokens needle closes s = none :: tokens needle closes (s.drop needle.length) := by
  obtain ⟨a, s, rfl⟩ := List.exists_cons_of_ne_nil (h.ne_nil hne)
  obtain ⟨n, hn⟩ : ∃ n, needle.length = n + 1 :=
    Nat.exists_eq_succ_of_ne_zero fun h => hne (List.length_eq_zero_iff.1 h)
  rw [tokens, scan, if_pos h, scan_eq_tokens_drop, hn, Nat.add_sub_cancel, List.drop_succ_cons]

@[elab_as_elim]
theorem searchInduction (closes : α → Bool) (hne : needle ≠ []) {motive : List α → Prop} (nil : motive [])
    (kept : ∀ a s, ¬Matches needle closes (a :: s) → motive s → motive (a :: s))
    (found : ∀ s, Matches needle closes s → motive (s.drop needle.length) → motive s) (s : List α) : motive s := by
  induction hlen : s.length using Nat.strong_induction_on generalizing s with
  | _ n ih =>
    subst hlen
    cases s with
    | nil => exact nil
    | cons a s =>
      by_cases h : Matches needle closes (a :: s)
      · refine found _ h (ih _ ?_ _ rfl)
        have hpos := List.length_pos_of_ne_nil hne
        rw [List.length_drop, List.length_cons]
        omega
      · exact kept a s h (ih _ (Nat.lt_succ_self _) s rfl)

theorem rewrite_nil : rewrite needle closes r [] = [] := by
  rw [rewrite, tokens_nil, expand_nil]

theorem rewrite_self (hne : needle ≠ []) (s : List α) : rewrite needle closes needle s = s := by
  unfold rewrite
  induction s using searchInduction closes hne with
  | nil => rw [tokens_nil, expand_nil]
  | kept a s h ih => rw [tokens_of_not h, expand_some, ih]
  | found s h ih => rw [tokens_of_match hne h, expand_none, ih, h.append_drop]

end

/-! ### Cuts -/

theorem Looks.trans (h : Looks needle closes p q) (h' : Looks needle closes q s) : Looks needle closes p s := by
  induction h' with
  | start => exact h
  | kept _ hnone ih => exact .kept ih hnone
  | found _ hmatch ih => exact .found ih hmatch

theorem looks_nil (h : Looks needle closes [] s) : s = [] := by
  induction h with
  | start => rfl
  | kept _ _ ih => exact absurd ih (List.cons_ne_nil _ _)
  | found _ _ ih => rw [ih, List.drop_nil]

theorem Looks.of_not (h : ¬Matches needle closes (a :: p)) (hl : Looks needle closes (a :: p) s) :
    s = a :: p ∨ Looks needle closes p s := by
  induction hl with
  | start => exact .inl rfl
  | kept _ hnone ih =>
    rcases ih with heq | hp
    · rw [List.tail_eq_of_cons_eq heq]
      exact .inr .start
    · exact .inr (.kept hp hnone)
  | found _ hmatch ih =>
    rcases ih with rfl | hp
    · exact absurd hmatch h
    · exact .inr (.found hp hmatch)

theorem Looks.of_match (h : Matches needle closes p) (hl : Looks needle closes p s) :
    s = p ∨ Looks needle closes (p.drop needle.length) s := by
  induction hl with
  | start => exact .inl rfl
  | kept _ hnone ih =>
    rcases ih with rfl | hp
    · exact absurd h hnone
    · exact .inr (.kept hp hnone)
  | found _ hmatch ih =>
    rcases ih with rfl | hp
    · exact .inr .start
    · exact .inr (.found hp hmatch)

/-- Wherever the search of the first text looks, it sees what a search of the whole would see. -/
theorem uncut_iff (hne : needle ≠ []) : Uncut needle closes p q ↔
    ∀ s, Looks needle closes p s → s ≠ [] → (Matches needle closes s ↔ Matches needle closes (s ++ q)) := by
  constructor
  · intro h s hl hs
    rcases Nat.lt_trichotomy s.length needle.length with hlt | heq | hgt
    · have hnot : ¬Matches needle closes s := fun hm => absurd hm.1.length_le (Nat.not_le.2 hlt)
      exact iff_of_false hnot (h.within s hl hs hlt)
    · by_cases hn : s = needle
      · subst hn
        exact iff_of_true matches_needle (matches_needle_append.2 (h.ends hl))
      · have hnot : ∀ t, ¬Matches needle closes (s ++ t) := fun t => not_matches_of_length heq.symm hn
        have hnil := hnot []
        rw [List.append_nil] at hnil
        exact iff_of_false hnil (hnot q)
    · exact (matches_append_of_lt hgt).symm
  · intro h
    constructor
    · intro hl
      exact matches_needle_append.1 ((h _ hl hne).1 matches_needle)
    · intro s hl hs hlt hm
      exact absurd ((h s hl hs).2 hm).1.length_le (Nat.not_le.2 hlt)

theorem uncut_nil (hne : needle ≠ []) : Uncut needle closes [] q := by
  rw [uncut_iff hne]
  intro s hl hs
  exact absurd (looks_nil hl) hs

theorem uncut_of_not (hne : needle ≠ []) (h : ¬Matches needle closes (a :: p)) :
    Uncut needle closes (a :: p) q ↔ ¬Matches needle closes (a :: (p ++ q)) ∧ Uncut needle closes p q := by
  rw [uncut_iff hne, uncut_iff hne]
  constructor
  · intro hcut
    exact ⟨fun hm => h ((hcut _ .start (List.cons_ne_nil a p)).2 hm), fun s hl hs => hcut s ((Looks.start.kept h).trans hl) hs⟩
  · rintro ⟨hm, hcut⟩ s hl hs
    rcases hl.of_not h with rfl | hl
    · exact iff_of_false h hm
    · exact hcut s hl hs

theorem uncut_of_match (hne : needle ≠ []) (h : Matches needle closes p) :
    Uncut needle closes p q ↔ Matches needle closes (p ++ q) ∧ Uncut needle closes (p.drop needle.length) q := by
  rw [uncut_iff hne, uncut_iff hne]
  constructor
  · intro hcut
    exact ⟨(hcut _ .start (h.ne_nil hne)).1 h, fun s hl hs => hcut s ((Looks.start.found h).trans hl) hs⟩
  · rintro ⟨hm, hcut⟩ s hl hs
    rcases hl.of_match h with rfl | hl
    · exact iff_of_true h hm
    · exact hcut s hl hs

variable [DecidableEq α]

theorem tokens_append (hne : needle ≠ []) (h : Uncut needle closes p q) :
    tokens needle closes (p ++ q) = tokens needle closes p ++ tokens needle closes q := by
  induction p using searchInduction closes hne with
  | nil => rw [tokens_nil, List.nil_append, List.nil_append]
  | kept a p hnone ih =>
    obtain ⟨hm, hcut⟩ := (uncut_of_not hne hnone).1 h
    rw [tokens_of_not hnone, List.cons_append, tokens_of_not hm, ih hcut, List.cons_append]
  | found p hmatch ih =>
    obtain ⟨hm, hcut⟩ := (uncut_of_match hne hmatch).1 h
    rw [tokens_of_match hne hmatch, tokens_of_match hne hm, List.drop_append_of_le_length hmatch.1.length_le, ih hcut,
      List.cons_append]

/-- A search of the whole that starts like the one of the first text is not cut. -/
theorem uncut_of_prefix (hne : needle ≠ []) (h : tokens needle closes p <+: tokens needle closes (p ++ q)) :
    Uncut needle closes p q := by
  induction p using searchInduction closes hne with
  | nil => exact uncut_nil hne
  | kept a p hnone ih =>
    rw [tokens_of_not hnone, List.cons_append] at h
    by_cases hm : Matches needle closes (a :: (p ++ q))
    · rw [tokens_of_match hne hm, List.cons_prefix_cons] at h
      cases h.1
    · rw [tokens_of_not hm, List.cons_prefix_cons] at h
      exact (uncut_of_not hne hnone).2 ⟨hm, ih h.2⟩
  | found p hmatch ih =>
    rw [tokens_of_match hne hmatch] at h
    by_cases hm : Matches needle closes (p ++ q)
    · rw [tokens_of_match hne hm, List.cons_prefix_cons, List.drop_append_of_le_length hmatch.1.length_le] at h
      exact (uncut_of_match hne hmatch).2 ⟨hm, ih h.2⟩
    · obtain ⟨a, p, rfl⟩ := List.exists_cons_of_ne_nil (hmatch.ne_nil hne)
      rw [List.cons_append] at h hm
      rw [tokens_of_not hm, List.cons_prefix_cons] at h
      cases h.1

/-- The pieces of a text are read like the text if and only if the cuts change nothing. -/
theorem tokens_flatten_iff (hne : needle ≠ []) (ps : List (List α)) :
    tokens needle closes ps.flatten = (ps.map (tokens needle closes)).flatten ↔ AllUncut needle closes ps := by
  induction ps with
  | nil => exact iff_of_true tokens_nil trivial
  | cons p ps ih =>
    rw [List.flatten_cons, List.map_cons, List.flatten_cons, AllUncut]
    constructor
    · intro h
      have hcut := uncut_of_prefix hne (h ▸ List.prefix_append (tokens needle closes p) _)
      rw [tokens_append hne hcut] at h
      exact ⟨hcut, ih.1 (List.append_cancel_left h)⟩
    · rintro ⟨hcut, hrest⟩
      rw [tokens_append hne hcut, ih.2 hrest]

theorem rewrite_flatten (hne : needle ≠ []) {ps : List (List α)} (h : AllUncut needle closes ps) (r : List α) :
    rewrite needle closes r ps.flatten = (ps.map (rewrite needle closes r)).flatten := by
  rw [rewrite, (tokens_flatten_iff hne ps).2 h, expand_flatten, List.map_map]
  rfl

end Rewriting
