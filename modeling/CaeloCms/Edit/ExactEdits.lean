import CaeloCms.Edit.TextOps

/-!
# What a batch of edits does to a text

A batch is exact when it is refused or its edits were made one after the other (`InOrder`), each at the only occurrence of
its anchor or, with `replaceAll`, at all of them from left to right.  Anchors are counted without overlaps, so `"aa"` is
found once in `"aaa"`: a batch is exact if and only if each anchor that has to be unique does not overlap itself in the text
at that point (`exactBatch_iff`).
-/

namespace CaeloCms.TextOps

open Occurrences (At Apart Replaced indexOf split replaceFirst)

/-! ### Counting -/

theorem countOccurrences_eq_zero {haystack needle : Units} (hne : needle ≠ []) :
    countOccurrences haystack needle = 0 ↔ ∀ i, ¬At needle haystack i := by
  have hpos := List.length_pos_of_ne_nil (Occurrences.split_ne_nil needle haystack)
  rw [countOccurrences, if_neg (by simpa using hne), ← Occurrences.length_split_eq_one hne]
  omega

theorem countOccurrences_eq_one {haystack needle : Units} (hne : needle ≠ []) :
    countOccurrences haystack needle = 1 ↔ (split needle haystack).length = 2 := by
  rw [countOccurrences, if_neg (by simpa using hne)]
  omega

/-! ### Exact edits -/

/-- The edit itself, or for an anchor that the text lacks the raw text of both its strings. -/
inductive MadeAs (current : Units) (edit : ContentEdit) : ContentEdit → Prop
  | given : MadeAs current edit edit
  | unquoted (oldRaw newRaw : Units) (hmiss : ∀ i, ¬At edit.oldString current i)
      (hold : unquote edit.oldString = some oldRaw)
      (hnew : edit.newString = [] ∧ newRaw = [] ∨ unquote edit.newString = some newRaw) :
      MadeAs current edit { edit with oldString := oldRaw, newString := newRaw }

/-- The replacement of the only occurrence of the anchor, or of all of them where that is asked for. -/
inductive Exact (edit : ContentEdit) : Units → Units → Prop
  | once (before after : Units) (hall : edit.replaceAll ≠ some true)
      (honly : ∀ i, At edit.oldString (before ++ edit.oldString ++ after) i → i = before.length) :
      Exact edit (before ++ edit.oldString ++ after) (before ++ edit.newString ++ after)
  | all (s t : Units) (hall : edit.replaceAll = some true) (hne : edit.oldString ≠ [])
      (hsome : ∃ i, At edit.oldString s i) (h : Replaced edit.oldString edit.newString s t) : Exact edit s t
  | fill (hall : edit.replaceAll = some true) (hnil : edit.oldString = []) : Exact edit [] edit.newString

/-- The edits, made one after the other as the given ones, lead from the first text to the last. -/
inductive InOrder : Units → List ContentEdit → List ContentEdit → Units → Prop
  | nil (s : Units) : InOrder s [] [] s
  | cons {s t u : Units} {edit made : ContentEdit} {edits mades : List ContentEdit} (hmade : MadeAs s edit made)
      (hexact : Exact made s t) (hrest : InOrder t edits mades u) : InOrder s (edit :: edits) (made :: mades) u

def ExactBatch (source : Units) (edits : List ContentEdit) : Prop :=
  (∃ error, applyStringEdits source edits = .failed error) ∨
    ∃ content replacements mades notes, applyStringEdits source edits = .ok content replacements mades notes ∧
      edits ≠ [] ∧ InOrder source edits mades content

/-! ### One edit -/

inductive Done (s : Units) (done : Applied) : Prop
  | fill (hnil : done.edit.oldString = []) (hs : s = []) (hcurrent : done.current = done.edit.newString)
  | all (hall : done.edit.replaceAll = some true) (hne : done.edit.oldString ≠ [])
      (hsome : ∃ i, At done.edit.oldString s i)
      (hcurrent : done.current = done.edit.newString.intercalate (split done.edit.oldString s))
  | first (i : Nat) (hall : done.edit.replaceAll ≠ some true) (hne : done.edit.oldString ≠ [])
      (hi : indexOf done.edit.oldString s = some i) (hsplit : (split done.edit.oldString s).length = 2)
      (hcurrent : done.current = s.take i ++ done.edit.newString ++ s.drop (i + done.edit.oldString.length))

variable {s place t : Units} {edit : ContentEdit} {done : Applied} {i total : Nat} {edits : List ContentEdit}

theorem made_of_correct {corrected : ContentEdit} {note : Units}
    (hmiss : ∀ i, ¬At edit.oldString s i) (h : correctQuotedAnchor s edit place = some (.ok (corrected, note))) :
    MadeAs s edit corrected ∧ corrected.oldString ≠ [] := by
  rw [correctQuotedAnchor] at h
  cases hold : unquote edit.oldString with
  | none => simp [hold] at h
  | some oldRaw =>
    simp only [hold] at h
    split at h
    · cases h
    · rename_i hraw
      rw [not_or] at hraw
      split at h
      · cases h
      · rename_i newRaw hnew
        split at h
        · cases h
        · cases h
          refine ⟨.unquoted oldRaw newRaw hmiss hold ?_, hraw.1⟩
          by_cases hempty : edit.newString = []
          · rw [if_pos hempty] at hnew
            exact Or.inl ⟨hempty, (Option.some.inj hnew).symm⟩
          · rw [if_neg hempty] at hnew
            exact Or.inr hnew

theorem made_of_findAnchor {found : ContentEdit × List Units}
    (hne : edit.oldString ≠ []) (h : findAnchor place s edit = .ok found) :
    MadeAs s edit found.1 ∧ found.1.oldString ≠ [] := by
  unfold findAnchor at h
  by_cases hzero : countOccurrences s edit.oldString = 0
  · rw [if_pos hzero] at h
    split at h
    · cases h
      exact ⟨.given, hne⟩
    · cases h
    · rename_i corrected note hcorrect
      cases h
      exact made_of_correct ((countOccurrences_eq_zero hne).1 hzero) hcorrect
  · rw [if_neg hzero] at h
    cases h
    exact ⟨.given, hne⟩

theorem done_of_replaceAnchor {notes : List Units}
    (hne : edit.oldString ≠ []) (h : replaceAnchor place s edit notes = .ok done) :
    done.edit = edit ∧ Done s done := by
  unfold replaceAnchor at h
  dsimp only at h
  by_cases hzero : countOccurrences s edit.oldString = 0
  · rw [if_pos hzero] at h
    cases h
  · rw [if_neg hzero] at h
    by_cases hmany : 1 < countOccurrences s edit.oldString ∧ edit.replaceAll ≠ some true
    · rw [if_pos hmany] at h
      cases h
    · rw [if_neg hmany] at h
      have hsome : ∃ i, indexOf edit.oldString s = some i := by
        rw [← Option.isSome_iff_exists, ← Option.ne_none_iff_isSome]
        intro hnone
        exact hzero ((countOccurrences_eq_zero hne).2 (Occurrences.indexOf_eq_none.1 hnone))
      obtain ⟨i, hi⟩ := hsome
      by_cases hall : edit.replaceAll = some true
      · rw [if_pos hall] at h
        cases h
        exact ⟨rfl, .all hall hne ⟨i, (Occurrences.indexOf_eq_some.1 hi).1⟩ rfl⟩
      · rw [if_neg hall] at h
        cases h
        have hone : countOccurrences s edit.oldString = 1 := by
          rw [not_and, not_not] at hmany
          by_contra hcount
          exact hall (hmany (by omega))
        refine ⟨rfl, .first i hall hne hi ((countOccurrences_eq_one hne).1 hone) ?_⟩
        rw [replaceFirst, hi]

theorem done_of_applyEdit (h : applyEdit place s edit = .ok done) :
    MadeAs s edit done.edit ∧ Done s done := by
  unfold applyEdit at h
  by_cases hsame : edit.oldString = edit.newString
  · rw [if_pos hsame] at h
    cases h
  · rw [if_neg hsame] at h
    by_cases hnil : edit.oldString = []
    · rw [if_pos hnil] at h
      by_cases hs : s = []
      · rw [if_neg (not_not.2 hs)] at h
        cases h
        exact ⟨.given, .fill hnil hs rfl⟩
      · rw [if_pos hs] at h
        cases h
    · rw [if_neg hnil] at h
      cases hfound : findAnchor place s edit with
      | error error =>
        rw [hfound] at h
        cases h
      | ok found =>
        rw [hfound] at h
        obtain ⟨hmade, hne⟩ := made_of_findAnchor hnil hfound
        obtain ⟨hedit, hdone⟩ := done_of_replaceAnchor hne h
        exact ⟨hedit ▸ hmade, hdone⟩

theorem Exact.of_once (hall : edit.replaceAll ≠ some true) (h : Exact edit s t) :
    ∃ before after, s = before ++ edit.oldString ++ after ∧ t = before ++ edit.newString ++ after ∧
      ∀ i, At edit.oldString s i → i = before.length := by
  cases h with
  | once before after _ honly => exact ⟨before, after, rfl, rfl, honly⟩
  | all s t hall' => exact absurd hall' hall
  | fill hall' => exact absurd hall' hall

theorem Exact.of_all (hall : edit.replaceAll = some true) (h : Exact edit s t) :
    edit.oldString ≠ [] ∧ Replaced edit.oldString edit.newString s t ∨ edit.oldString = [] ∧ t = edit.newString := by
  cases h with
  | once before after hall' _ => exact absurd hall hall'
  | all s t _ hne _ h => exact Or.inl ⟨hne, h⟩
  | fill _ hnil => exact Or.inr ⟨hnil, rfl⟩

theorem exact_at (hall : edit.replaceAll ≠ some true)
    (hat : At edit.oldString s i) (honly : ∀ j, At edit.oldString s j → j = i) :
    Exact edit s (s.take i ++ edit.newString ++ s.drop (i + edit.oldString.length)) := by
  obtain ⟨before, after, rfl, rfl⟩ := hat
  rw [Occurrences.take_append_drop_at]
  exact .once before after hall honly

/-- The edit is made exactly unless the anchor has to be unique and overlaps itself. -/
theorem exact_iff_apart (h : Done s done) :
    Exact done.edit s done.current ↔ (done.edit.replaceAll ≠ some true → Apart done.edit.oldString s) := by
  cases h with
  | fill hnil hs hcurrent =>
    subst hs
    have hzero : ∀ j, At done.edit.oldString [] j → j = 0 := by
      intro j hj
      have hle := hj.le
      rw [List.length_nil] at hle
      omega
    constructor
    · intro _ _ i j _ hj hlt
      rw [hzero j hj] at hlt
      exact absurd hlt (Nat.not_lt_zero i)
    · intro _
      rw [hcurrent]
      by_cases hall : done.edit.replaceAll = some true
      · exact .fill hall hnil
      · have hat : At done.edit.oldString [] 0 := ⟨[], [], by rw [hnil]; rfl, rfl⟩
        simpa using exact_at hall hat hzero
  | all hall hne hsome hcurrent =>
    rw [hcurrent]
    exact ⟨fun _ hnot => absurd hall hnot, fun _ => .all _ _ hall hne hsome (Occurrences.replaced_intercalate hne _ _)⟩
  | first i hall hne hi hsplit hcurrent =>
    have hunique := Occurrences.unique_iff_apart hne hsplit hi
    have hat := (Occurrences.indexOf_eq_some.1 hi).1
    constructor
    · intro hexact _
      obtain ⟨before, after, -, -, honly⟩ := hexact.of_once hall
      refine hunique.1 fun j hj => ?_
      rw [honly j hj, honly i hat]
    · intro hapart
      rw [hcurrent]
      exact exact_at hall hat (hunique.2 (hapart hall))

theorem eq_current_of_exact (h : Done s done) (hexact : Exact done.edit s t) :
    t = done.current := by
  cases h with
  | fill hnil hs hcurrent =>
    rw [hcurrent]
    by_cases hall : done.edit.replaceAll = some true
    · rcases hexact.of_all hall with ⟨hne, -⟩ | ⟨-, ht⟩
      · exact absurd hnil hne
      · exact ht
    · obtain ⟨before, after, hsplit, ht, -⟩ := hexact.of_once hall
      rw [hs, eq_comm, List.append_eq_nil_iff, List.append_eq_nil_iff] at hsplit
      rw [ht, hsplit.1.1, hsplit.2, List.nil_append, List.append_nil]
  | all hall hne hsome hcurrent =>
    rw [hcurrent]
    rcases hexact.of_all hall with ⟨-, hreplaced⟩ | ⟨hnil, -⟩
    · exact hreplaced.unique (Occurrences.replaced_intercalate hne _ _)
    · exact absurd hnil hne
  | first i hall hne hi hsplit hcurrent =>
    obtain ⟨before, after, hs, ht, honly⟩ := hexact.of_once hall
    obtain rfl := honly i (Occurrences.indexOf_eq_some.1 hi).1
    rw [hcurrent, ht, hs, Occurrences.take_append_drop_at]

/-! ### The batch -/

/-- The texts before the edits of a batch that goes through, with the edits as made. -/
inductive Goes (total : Nat) : Nat → Units → List ContentEdit → List (Units × ContentEdit) → Prop
  | nil (i : Nat) (s : Units) : Goes total i s [] []
  | cons {i : Nat} {s : Units} {edit : ContentEdit} {edits : List ContentEdit} {done : Applied}
      {steps : List (Units × ContentEdit)} (h : applyEdit (editPlace total i) s edit = .ok done)
      (hrest : Goes total (i + 1) done.current edits steps) : Goes total i s (edit :: edits) ((s, done.edit) :: steps)

/-- No anchor that has to be unique overlaps itself in the text it is looked for in. -/
def ApartIn (steps : List (Units × ContentEdit)) : Prop :=
  ∀ p ∈ steps, p.2.replaceAll ≠ some true → Apart p.2.oldString p.1

theorem apartIn_cons (s : Units) (edit : ContentEdit) (steps : List (Units × ContentEdit)) :
    ApartIn ((s, edit) :: steps) ↔ (edit.replaceAll ≠ some true → Apart edit.oldString s) ∧ ApartIn steps := by
  unfold ApartIn
  rw [List.forall_mem_cons]

theorem Goes.unique {steps steps' : List (Units × ContentEdit)}
    (h : Goes total i s edits steps) (h' : Goes total i s edits steps') : steps = steps' := by
  induction h generalizing steps' with
  | nil i s =>
    cases h'
    rfl
  | cons hedit hrest ih =>
    cases h' with
    | cons hedit' hrest' =>
      obtain rfl := Except.ok.inj (hedit.symm.trans hedit')
      rw [ih hrest']

theorem inOrder_cons_iff {content : Units} {mades : List ContentEdit}
    (hmade : MadeAs s edit done.edit) (hdone : Done s done) :
    InOrder s (edit :: edits) (done.edit :: mades) content ↔
      (done.edit.replaceAll ≠ some true → Apart done.edit.oldString s) ∧ InOrder done.current edits mades content := by
  rw [← exact_iff_apart hdone]
  constructor
  · intro h
    cases h with
    | cons _ hexact hrest =>
      obtain rfl := eq_current_of_exact hdone hexact
      exact ⟨hexact, hrest⟩
  · rintro ⟨hexact, hrest⟩
    exact .cons hmade hexact hrest

/-- A batch that goes through is exact from each edit on if and only if the anchors from there on are apart. -/
theorem inOrder_of_applyFrom {replacements replacements' : Nat} {content : Units}
    {mades mades' : List ContentEdit} {notes notes' : List Units}
    (h : applyFrom total i s replacements mades notes edits = .ok content replacements' mades' notes') :
    ∃ made steps, mades' = mades ++ made ∧ Goes total i s edits steps ∧ (InOrder s edits made content ↔ ApartIn steps) := by
  induction edits generalizing i s replacements mades notes with
  | nil =>
    rw [applyFrom, ApplyEditsResult.ok.injEq] at h
    obtain ⟨hcontent, -, hmades, -⟩ := h
    refine ⟨[], [], hmades ▸ (List.append_nil mades).symm, .nil i s, ?_⟩
    rw [← hcontent]
    exact ⟨fun _ p hp => absurd hp List.not_mem_nil, fun _ => .nil s⟩
  | cons edit edits ih =>
    rw [applyFrom] at h
    cases hedit : applyEdit (editPlace total i) s edit with
    | error error =>
      rw [hedit] at h
      cases h
    | ok done =>
      rw [hedit] at h
      obtain ⟨made, steps, hmades, hgoes, hiff⟩ := ih h
      obtain ⟨hmade, hdone⟩ := done_of_applyEdit hedit
      refine ⟨done.edit :: made, (s, done.edit) :: steps, ?_, .cons hedit hgoes, ?_⟩
      · rw [hmades, List.append_assoc]
        rfl
      · rw [inOrder_cons_iff hmade hdone, hiff]
        exact (apartIn_cons s done.edit steps).symm

theorem applyFrom_of_goes {steps : List (Units × ContentEdit)}
    (h : Goes total i s edits steps) (replacements : Nat) (mades : List ContentEdit) (notes : List Units) (error : Units) :
    applyFrom total i s replacements mades notes edits ≠ .failed error := by
  induction h generalizing replacements mades notes with
  | nil i s => exact ApplyEditsResult.noConfusion
  | cons hedit hrest ih =>
    rw [applyFrom, hedit]
    exact ih _ _ _

/-- A batch is exact if and only if no anchor that has to be unique overlaps itself where it is looked for. -/
theorem exactBatch_iff (source : Units) (edits : List ContentEdit) :
    ExactBatch source edits ↔ ∀ steps, Goes edits.length 0 source edits steps → ApartIn steps := by
  by_cases hlength : edits.length = 0
  · have hrefused : ∃ error, applyStringEdits source edits = .failed error := by
      rw [applyStringEdits, if_pos hlength]
      exact ⟨_, rfl⟩
    refine ⟨fun _ steps hgoes => ?_, fun _ => Or.inl hrefused⟩
    rw [List.length_eq_zero_iff] at hlength
    subst hlength
    cases hgoes
    exact fun p hp => absurd hp List.not_mem_nil
  · have happly : applyStringEdits source edits = applyFrom edits.length 0 source 0 [] [] edits := by
      rw [applyStringEdits, if_neg hlength]
    unfold ExactBatch
    rw [happly]
    cases hresult : applyFrom edits.length 0 source 0 [] [] edits with
    | failed error =>
      refine ⟨fun _ steps hgoes => ?_, fun _ => Or.inl ⟨error, rfl⟩⟩
      exact absurd hresult (applyFrom_of_goes hgoes 0 [] [] error)
    | ok content replacements mades notes =>
      obtain ⟨made, steps, rfl, hgoes, hiff⟩ := inOrder_of_applyFrom hresult
      constructor
      · rintro (⟨error, herror⟩ | ⟨content', replacements', mades', notes', hok, -, horder⟩) steps' hgoes'
        · cases herror
        · rw [ApplyEditsResult.ok.injEq] at hok
          obtain ⟨rfl, -, rfl, -⟩ := hok
          rw [hgoes'.unique hgoes]
          exact hiff.1 horder
      · intro hapart
        refine Or.inr ⟨content, replacements, _, notes, rfl, ?_, hiff.2 (hapart steps hgoes)⟩
        rintro rfl
        exact hlength rfl

/-- `"aa"` stands in `"aaa"` twice and is counted once. -/
theorem exactBatch_fails : ¬ExactBatch (units "aaa") [⟨units "aa", units "b", none⟩] := by
  have hok : applyStringEdits (units "aaa") [⟨units "aa", units "b", none⟩] =
      .ok (units "ba") 1 [⟨units "aa", units "b", none⟩] [] := by decide
  rintro (⟨error, herror⟩ | ⟨content, replacements, mades, notes, h, -, horder⟩)
  · rw [hok] at herror
    cases herror
  · rw [hok, ApplyEditsResult.ok.injEq] at h
    obtain ⟨rfl, -, rfl, -⟩ := h
    cases horder with
    | cons hmade hexact hrest =>
      obtain ⟨before, after, -, -, honly⟩ := hexact.of_once (by decide)
      have hfirst := honly 0 ⟨[], units "a", by decide, rfl⟩
      have hsecond := honly 1 ⟨units "a", [], by decide, by decide⟩
      rw [← hfirst] at hsecond
      cases hsecond

end CaeloCms.TextOps
