import Mathlib

/-!
# Lines, words and placeholders

A text of lines is split at its line ends (`lines_unlines`), a line into the words between its blanks (`words`), and a
placeholder in a word, a name between an opening and a closing mark, is replaced by its value (`expand`).
-/

namespace Words

variable {α : Type*}

theorem splitOnP_clean {p : α → Bool} {s l : List α} (hl : l ∈ s.splitOnP p) : ∀ x ∈ l, p x = false := by
  induction s generalizing l with
  | nil =>
    rw [List.splitOnP_nil, List.mem_singleton] at hl
    rw [hl]
    exact fun x hx => absurd hx List.not_mem_nil
  | cons c s ih =>
    rw [List.splitOnP_cons_eq_if_modifyHead] at hl
    by_cases hc : p c = true
    · rw [if_pos hc, List.mem_cons] at hl
      rcases hl with rfl | hl
      · exact fun x hx => absurd hx List.not_mem_nil
      · exact ih hl
    · rw [if_neg hc] at hl
      cases hparts : s.splitOnP p with
      | nil =>
        rw [hparts] at hl
        cases hl
      | cons part parts =>
        rw [hparts, List.modifyHead_cons, List.mem_cons] at hl
        rcases hl with rfl | hl
        · intro x hx
          rcases List.mem_cons.1 hx with rfl | hx
          · simpa using hc
          · exact ih (by rw [hparts]; exact List.mem_cons_self) x hx
        · exact ih (by rw [hparts]; exact List.mem_cons_of_mem _ hl)

theorem splitOnP_subset {p : α → Bool} {s l : List α} (hl : l ∈ s.splitOnP p) : ∀ x ∈ l, x ∈ s := by
  induction s generalizing l with
  | nil =>
    rw [List.splitOnP_nil, List.mem_singleton] at hl
    rw [hl]
    exact fun x hx => hx
  | cons c s ih =>
    rw [List.splitOnP_cons_eq_if_modifyHead] at hl
    by_cases hc : p c = true
    · rw [if_pos hc, List.mem_cons] at hl
      rcases hl with rfl | hl
      · exact fun x hx => absurd hx List.not_mem_nil
      · exact fun x hx => List.mem_cons_of_mem _ (ih hl x hx)
    · rw [if_neg hc] at hl
      cases hparts : s.splitOnP p with
      | nil =>
        rw [hparts] at hl
        cases hl
      | cons part parts =>
        rw [hparts, List.modifyHead_cons, List.mem_cons] at hl
        intro x hx
        rcases hl with rfl | hl
        · rcases List.mem_cons.1 hx with rfl | hx
          · exact List.mem_cons_self
          · exact List.mem_cons_of_mem _ (ih (by rw [hparts]; exact List.mem_cons_self) x hx)
        · exact List.mem_cons_of_mem _ (ih (by rw [hparts]; exact List.mem_cons_of_mem _ hl) x hx)

/-! ### Reading each part -/

theorem mapM_eq_some_iff {σ ρ : Type} {f : σ → Option ρ} {l : List σ} {r : List ρ} :
    l.mapM f = some r ↔ List.Forall₂ (fun a b => f a = some b) l r := by
  induction l generalizing r with
  | nil =>
    rw [List.mapM_nil, List.forall₂_nil_left_iff]
    exact ⟨fun h => (Option.some.inj h).symm, fun h => h ▸ rfl⟩
  | cons a l ih =>
    rw [List.mapM_cons]
    constructor
    · intro h
      cases hfa : f a with
      | none => simp [hfa] at h
      | some b =>
        cases hl : l.mapM f with
        | none => simp [hfa, hl] at h
        | some bs =>
          simp only [hfa, hl, Option.bind_eq_bind, Option.bind_some, Option.pure_def, Option.some.injEq] at h
          subst h
          exact .cons hfa (ih.1 hl)
    · intro h
      cases h with
      | cons hfa hrest => simp [hfa, ih.2 hrest]

/-! ### Outer blanks -/

def trim (blank : α → Bool) (s : List α) : List α := (s.dropWhile blank).rdropWhile blank

theorem mem_of_mem_trim {blank : α → Bool} {s : List α} {c : α} (h : c ∈ trim blank s) : c ∈ s :=
  (List.dropWhile_sublist blank).subset ((List.rdropWhile_prefix blank _).subset h)

theorem trim_eq_self {blank : α → Bool} {s : List α} (hhead : ∀ c, s.head? = some c → blank c = false)
    (hlast : ∀ c, s.getLast? = some c → blank c = false) : trim blank s = s := by
  have hdrop : s.dropWhile blank = s := by
    cases s with
    | nil => rfl
    | cons c rest => rw [List.dropWhile_cons_of_neg (by simp [hhead c rfl])]
  unfold trim
  rw [hdrop, List.rdropWhile_eq_self_iff]
  intro hne
  rw [hlast _ (List.getLast?_eq_some_getLast hne)]
  exact Bool.false_ne_true

/-! ### Words -/

/-- The words between the elements that `blank` holds of. -/
def words (blank : α → Bool) (s : List α) : List (List α) := (s.splitOnP blank).filter fun w => !w.isEmpty

variable {blank : α → Bool}

@[simp] theorem words_nil : words blank [] = [] := rfl

theorem words_cons_blank {b : α} (hb : blank b = true) (s : List α) : words blank (b :: s) = words blank s := by
  unfold words
  rw [List.splitOnP_cons_eq_if_modifyHead, if_pos hb]
  rfl

theorem words_word {w : List α} (hw : w ≠ []) (hclean : ∀ c ∈ w, blank c = false) : words blank w = [w] := by
  have hsplit : w.splitOnP blank = [w] := List.splitOnP_eq_singleton hclean
  have hne : w.isEmpty = false := by simpa using hw
  rw [words, hsplit]
  simp [hne]

theorem words_append {w : List α} (hw : w ≠ []) (hclean : ∀ c ∈ w, blank c = false) {b : α} (hb : blank b = true)
    (s : List α) : words blank (w ++ b :: s) = w :: words blank s := by
  have hsplit : (w ++ b :: s).splitOnP blank = w :: s.splitOnP blank :=
    List.splitOnP_append_cons_of_forall_mem hclean b hb s
  have hne : w.isEmpty = false := by simpa using hw
  rw [words, hsplit]
  simp [hne, words]

theorem words_intercalate {b : α} (hb : blank b = true) {ws : List (List α)}
    (h : ∀ w ∈ ws, w ≠ [] ∧ ∀ c ∈ w, blank c = false) : words blank ([b].intercalate ws) = ws := by
  induction ws with
  | nil => rfl
  | cons w ws ih =>
    obtain ⟨⟨hne, hclean⟩, hws⟩ := List.forall_mem_cons.1 h
    by_cases hnil : ws = []
    · subst hnil
      rw [List.intercalate_singleton, words_word hne hclean]
    · rw [List.intercalate_cons_of_ne_nil hnil, List.append_assoc, List.singleton_append, words_append hne hclean hb,
        ih hws]

theorem mem_intercalate {b c : α} {ws : List (List α)} (h : c ∈ [b].intercalate ws) : c = b ∨ ∃ w ∈ ws, c ∈ w := by
  induction ws with
  | nil => cases h
  | cons w ws ih =>
    by_cases hnil : ws = []
    · subst hnil
      rw [List.intercalate_singleton] at h
      exact .inr ⟨w, List.mem_singleton.2 rfl, h⟩
    · rw [List.intercalate_cons_of_ne_nil hnil, List.append_assoc, List.singleton_append, List.mem_append,
        List.mem_cons] at h
      rcases h with hw | rfl | hws
      · exact .inr ⟨w, List.mem_cons_self, hw⟩
      · exact .inl rfl
      · rcases ih hws with rfl | ⟨w', hw', hc⟩
        · exact .inl rfl
        · exact .inr ⟨w', List.mem_cons_of_mem w hw', hc⟩

/-! ### Lines -/

variable [DecidableEq α]

/-- `${lines.join(end)}${end}` -/
def unlines (lineEnd : α) (ls : List (List α)) : List α := ls.flatMap fun l => l ++ [lineEnd]

def lines (lineEnd : α) (text : List α) : List (List α) := text.splitOn lineEnd

theorem lines_unlines {lineEnd : α} {ls : List (List α)} (h : ∀ l ∈ ls, lineEnd ∉ l) :
    lines lineEnd (unlines lineEnd ls) = ls ++ [[]] := by
  induction ls with
  | nil => simp [lines, unlines]
  | cons l ls ih =>
    have hclean : ∀ c ∈ l, (c == lineEnd) = false := by
      intro c hc
      have hne : c ≠ lineEnd := by
        intro heq
        exact h l List.mem_cons_self (heq ▸ hc)
      simpa using hne
    have hsplit : (l ++ lineEnd :: unlines lineEnd ls).splitOnP (· == lineEnd) =
        l :: (unlines lineEnd ls).splitOnP (· == lineEnd) :=
      List.splitOnP_append_cons_of_forall_mem hclean lineEnd (by simp) _
    have hcons : unlines lineEnd (l :: ls) = l ++ lineEnd :: unlines lineEnd ls := by simp [unlines]
    have ih' : (unlines lineEnd ls).splitOnP (· == lineEnd) = ls ++ [[]] :=
      ih fun l' hl' => h l' (List.mem_cons_of_mem _ hl')
    show (unlines lineEnd (l :: ls)).splitOnP (· == lineEnd) = _
    rw [hcons, hsplit, ih', List.cons_append]

/-! ### Placeholders -/

/-- The rest of a text with its placeholders replaced; `name` is what was read of an open one, if there is one. -/
def expandFrom (opening closing : α) (env : List α → List α) : Option (List α) → List α → List α
  | none, [] => []
  | some name, [] => opening :: name
  | none, c :: rest =>
    if c = opening then expandFrom opening closing env (some []) rest
    else c :: expandFrom opening closing env none rest
  | some name, c :: rest =>
    if c = closing then env name ++ expandFrom opening closing env none rest
    else expandFrom opening closing env (some (name ++ [c])) rest

def expand (opening closing : α) (env : List α → List α) (text : List α) : List α :=
  expandFrom opening closing env none text

variable {opening closing : α} {env : List α → List α}

theorem expand_append {s : List α} (h : opening ∉ s) (t : List α) :
    expand opening closing env (s ++ t) = s ++ expand opening closing env t := by
  induction s with
  | nil => rfl
  | cons c s ih =>
    have hc : c ≠ opening := by
      intro heq
      exact h (heq ▸ List.mem_cons_self)
    have ih' := ih fun hs => h (List.mem_cons_of_mem _ hs)
    show expandFrom opening closing env none (c :: (s ++ t)) = _
    rw [expandFrom, if_neg hc]
    exact congrArg (c :: ·) ih'

theorem expandFrom_name {name : List α} (h : closing ∉ name) : ∀ (acc rest : List α),
    expandFrom opening closing env (some acc) (name ++ closing :: rest) =
      env (acc ++ name) ++ expand opening closing env rest := by
  induction name with
  | nil =>
    intro acc rest
    rw [List.nil_append, expandFrom, if_pos rfl, List.append_nil]
    rfl
  | cons c name ih =>
    intro acc rest
    have hc : c ≠ closing := by
      intro heq
      exact h (heq ▸ List.mem_cons_self)
    rw [List.cons_append, expandFrom, if_neg hc, ih fun hs => h (List.mem_cons_of_mem _ hs), List.append_assoc]
    rfl

theorem expand_placeholder {name : List α} (h : closing ∉ name) (rest : List α) :
    expand opening closing env (opening :: (name ++ closing :: rest)) =
      env name ++ expand opening closing env rest := by
  show expandFrom opening closing env none (opening :: (name ++ closing :: rest)) = _
  rw [expandFrom, if_pos rfl, expandFrom_name h, List.nil_append]

end Words
