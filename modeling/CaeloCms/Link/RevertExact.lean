import CaeloCms.Link.Restored

/-!
# Reverting exactly

A run lists its changes in the order they were made.  `revert_restores_iff`: a run is reverted exactly, whatever was
edited since, where it lists no part twice and no chat that owns a part was closed.
-/

namespace CaeloCms.Link.Migration

open Asking (sameStableJson sameText sameItems sameFields)

/-! ### What is claimed -/

def firstBefore (changes : List Change) (p : Part) : Option PartValue :=
  (changes.find? fun c => c.part = p).map Change.before

def lastAfter (changes : List Change) (p : Part) : Option PartValue :=
  (changes.reverse.find? fun c => c.part = p).map Change.after

def Holds (s : Site) (changes : List Change) (p : Part) : Prop :=
  ∃ after, lastAfter changes p = some after ∧ holdsAfter (s.value p) after = true

def Change.Named (c : Change) (conflicts : List RevertConflict) : Prop := ∃ reason, c.conflict reason ∈ conflicts

/-- The revert writes nothing and names what was edited, or restores every part of the run; where it may skip what was
edited, it restores the others. -/
structure RevertsExactly (s : Site) (changes : List Change) : Prop where
  refuse_or_restore : ∃ s' out, revertLinkMigration s changes false = .ok (s', out) ∧
    ((out.conflicts ≠ [] ∧ s' = s ∧ (∃ c ∈ changes, ¬ Holds s changes c.part) ∧
        ∀ c ∈ changes, ¬ Holds s changes c.part → c.Named out.conflicts) ∨
      (out.conflicts = [] ∧ (∀ c ∈ changes, s'.value c.part = firstBefore changes c.part) ∧
        ∀ p ∉ changes.map Change.part, s'.value p = s.value p))
  skip : ∃ s' out, revertLinkMigration s changes true = .ok (s', out) ∧
    (∀ c ∈ changes, Holds s changes c.part → s'.value c.part = firstBefore changes c.part) ∧
    (∀ c ∈ changes, ¬ Holds s changes c.part → s'.value c.part = s.value c.part) ∧
    ∀ p ∉ changes.map Change.part, s'.value p = s.value p

/-- The changes of a run: the next change of a part starts from what the last one wrote, and no value comes back. -/
structure Recorded (changes : List Change) : Prop where
  chained : ∀ A c B d C, changes = A ++ c :: B ++ d :: C → d.part = c.part → (∀ x ∈ B, x.part ≠ c.part) →
    d.before = c.after
  changed : ∀ c ∈ changes, c.before.same c.after = false
  onward : changes.Pairwise fun c d => d.part = c.part → c.before.same d.after = false

def Change.isRemoved : Change → Bool
  | .removed _ _ _ _ _ => true
  | _ => false

/-- No part that can be restored is listed twice. -/
def Distinct (changes : List Change) : Prop := changes.Pairwise fun c d => c.part = d.part → c.isRemoved = true

/-- No part that is to be restored belongs to a closed chat. -/
def OwnersOpen (s : Site) (changes : List Change) : Prop :=
  ∀ c ∈ changes, Holds s changes c.part → (s.owner c.part).bind s.closed = none

/-! ### Equal in the stable JSON -/

mutual

theorem sameText_self (v : Json) : sameText v v = true := by
  cases v with
  | null => rfl
  | bool b => simp [sameText]
  | num t => simp [sameText]
  | str s => simp [sameText]
  | arr items => rw [sameText]; exact sameItems_self items
  | obj fields => rw [sameText]; exact sameFields_self fields

theorem sameItems_self (items : List Json) : sameItems items items = true := by
  cases items with
  | nil => rfl
  | cons v items => rw [sameItems, sameText_self v, sameItems_self items]; rfl

theorem sameFields_self (fields : List (String × Json)) : sameFields fields fields = true := by
  match fields with
  | [] => rfl
  | (k, v) :: fields => simp [sameFields, sameText_self v, sameFields_self fields]

end

theorem PartValue.same_self (v : PartValue) : v.same v = true := by
  cases v with
  | html s => exact beq_self_eq_true s
  | _ => exact sameText_self _

/-! ### Runs without repetitions -/

def holdsNow (s : Site) (c : Change) : Bool := holdsAfter (s.value c.part) c.after

variable {changes : List Change} {s : Site} {c d : Change} {part : Part}

theorem isRemoved_of_part (h : c.part = d.part) : c.isRemoved = d.isRemoved := by
  have hremoved : ∀ x : Change, x.isRemoved = true ↔ ∃ kind id b, x.part = .removed kind id b := by
    intro x
    cases x with
    | pluginRow ref b column before after => cases b <;> simp [Change.isRemoved, Change.part]
    | _ => simp [Change.isRemoved, Change.part]
  rw [Bool.eq_iff_iff, hremoved, hremoved, h]

theorem isBranchColumn_of_part (h : c.part = d.part) : c.isBranchColumn = d.isBranchColumn := by
  have hcolumn : ∀ x : Change, x.isBranchColumn = true ↔ ∃ key column, x.part = .branchColumn key column := by
    intro x
    cases x with
    | pluginRow ref b column before after => cases b <;> simp [Change.isBranchColumn, Change.part]
    | _ => simp [Change.isBranchColumn, Change.part]
  rw [Bool.eq_iff_iff, hcolumn, hcolumn, h]

theorem holdsNow_of_removed (s : Site) (h : c.isRemoved = true) : holdsNow s c = false := by
  cases c with
  | removed kind id b before after => rfl
  | _ => cases h

theorem eq_of_part (h : Distinct changes) (hc : c ∈ changes) (hd : d ∈ changes)
    (hpart : c.part = d.part) (hremoved : c.isRemoved = false) : c = d := by
  induction changes with
  | nil => exact (List.not_mem_nil hc).elim
  | cons x changes ih =>
    obtain ⟨hx, htail⟩ := List.pairwise_cons.1 h
    rcases List.mem_cons.1 hc with rfl | hc' <;> rcases List.mem_cons.1 hd with rfl | hd'
    · rfl
    · have htwice := hx d hd' hpart
      rw [hremoved] at htwice
      cases htwice
    · have htwice := hx c hc' hpart.symm
      rw [← isRemoved_of_part hpart, hremoved] at htwice
      cases htwice
    · exact ih htail hc' hd'

theorem find?_of_distinct {l : List Change} (h : Distinct changes) (hl : ∀ x, x ∈ l ↔ x ∈ changes)
    (hc : c ∈ changes) (hremoved : c.isRemoved = false) : (l.find? fun x => x.part = c.part) = some c := by
  cases hf : l.find? fun x => x.part = c.part with
  | none => exact absurd (by simp) (List.find?_eq_none.1 hf c ((hl c).2 hc))
  | some x =>
    have hpart : x.part = c.part := by simpa using List.find?_some hf
    rw [eq_of_part h hc ((hl x).1 (List.mem_of_find?_eq_some hf)) hpart.symm hremoved]

theorem firstBefore_of_distinct (h : Distinct changes) (hc : c ∈ changes)
    (hremoved : c.isRemoved = false) : firstBefore changes c.part = some c.before := by
  rw [firstBefore, find?_of_distinct h (fun _ => Iff.rfl) hc hremoved, Option.map_some]

theorem holds_iff (h : Distinct changes) (s : Site) (hc : c ∈ changes) :
    Holds s changes c.part ↔ holdsNow s c = true := by
  cases hremoved : c.isRemoved with
  | true =>
    have hnone : s.value c.part = none := by
      cases c with
      | removed kind id b before after => rfl
      | _ => cases hremoved
    simp [Holds, holdsNow, hnone, holdsAfter]
  | false =>
    have hlast : lastAfter changes c.part = some c.after := by
      rw [lastAfter, find?_of_distinct h (fun x => List.mem_reverse) hc hremoved, Option.map_some]
    simp [Holds, hlast, holdsNow]

theorem value_of_not_mem (s : Site) (h : ∀ c ∈ changes, c.part ≠ part) :
    (progress s changes).value s part = s.value part := by
  induction changes with
  | nil =>
    cases part with
    | branchColumn key column => exact Option.map_map _ _ _
    | _ => rfl
  | cons c changes ih =>
    obtain ⟨hc, htail⟩ := List.forall_mem_cons.1 h
    rw [(progress_adds s c changes).value, if_neg fun hcond => hc hcond.2.1.symm]
    exact ih htail

/-- Where no part is listed twice, every check reads the state before the revert. -/
theorem value_of_distinct (s : Site) (h : Distinct (c :: changes)) :
    (progress s changes).value s c.part = s.value c.part := by
  cases hremoved : c.isRemoved with
  | true =>
    refine value_of_not_branchColumn s _ ?_
    cases c with
    | removed kind id b before after => rfl
    | _ => cases hremoved
  | false =>
    refine value_of_not_mem s fun x hx hpart => ?_
    have htwice := (List.pairwise_cons.1 h).1 x hx hpart.symm
    rw [hremoved] at htwice
    cases htwice

theorem conflicts_of_distinct (s : Site) (h : Distinct changes) :
    (∀ c ∈ changes, holdsNow s c = false → c.Named (progress s changes).conflicts) ∧
      ((progress s changes).conflicts ≠ [] → ∃ c ∈ changes, holdsNow s c = false) := by
  induction changes with
  | nil => exact ⟨fun c hc => (List.not_mem_nil hc).elim, fun hne => absurd rfl hne⟩
  | cons c changes ih =>
    obtain ⟨hnamed, hsome⟩ := ih (List.pairwise_cons.1 h).2
    have hadds := (progress_adds s c changes).conflicts
    rw [value_of_distinct s h] at hadds
    cases hholds : holdsNow s c with
    | true =>
      rw [show holdsAfter (s.value c.part) c.after = true from hholds, if_pos rfl] at hadds
      rw [hadds]
      refine ⟨List.forall_mem_cons.2 ⟨fun hno => ?_, hnamed⟩, fun hne => ?_⟩
      · rw [hholds] at hno
        cases hno
      · obtain ⟨d, hd, hno⟩ := hsome hne
        exact ⟨d, List.mem_cons_of_mem _ hd, hno⟩
    | false =>
      rw [show holdsAfter (s.value c.part) c.after = false from hholds, if_neg (by decide)] at hadds
      obtain ⟨reason, hreason⟩ := hadds
      rw [hreason]
      refine ⟨List.forall_mem_cons.2 ⟨fun _ => ⟨reason, by simp⟩, fun d hd hno => ?_⟩, fun _ =>
        ⟨c, List.mem_cons_self, hholds⟩⟩
      obtain ⟨reason', hreason'⟩ := hnamed d hd hno
      exact ⟨reason', List.mem_append_left _ hreason'⟩

/-- A column of a branch's row that holds what the run wrote is folded back. -/
theorem column_of_distinct (s : Site) (h : Distinct changes) :
    ∀ c ∈ changes, c.isBranchColumn = true →
      (progress s changes).value s c.part = if holdsNow s c = true then some c.before else s.value c.part := by
  induction changes with
  | nil => exact fun c hc => (List.not_mem_nil hc).elim
  | cons d changes ih =>
    obtain ⟨hd, htail⟩ := List.pairwise_cons.1 h
    have hread := value_of_distinct s h
    intro c hc hcolumn
    rw [(progress_adds s d changes).value, hread]
    rcases List.mem_cons.1 hc with rfl | hc
    · by_cases hholds : holdsNow s c = true
      · rw [if_pos hholds, if_pos ⟨hcolumn, rfl, hholds⟩]
      · rw [if_neg hholds, if_neg fun hcond => hholds hcond.2.2]
        exact hread
    · have hremoved : d.isRemoved = false ∨ c.part ≠ d.part := by
        by_cases hpart : c.part = d.part
        · left
          have hcd := isBranchColumn_of_part hpart
          rw [hcolumn] at hcd
          cases d with
          | removed kind id b before after => cases hcd
          | _ => rfl
        · exact Or.inr hpart
      have hne : c.part ≠ d.part := by
        rcases hremoved with hremoved | hne
        · intro hpart
          have htwice := hd c hc hpart.symm
          rw [hremoved] at htwice
          cases htwice
        · exact hne
      rw [if_neg fun hcond => hne hcond.2.1]
      exact ih htail c hc hcolumn

/-- The rows that are touched are those with a column that holds what the run wrote. -/
theorem touches_of_distinct (s : Site) (h : Distinct changes) (key : RowKey) :
    (progress s changes).touches key = true ↔
      ∃ c ∈ changes, (∃ column, c.part = .branchColumn key column) ∧ holdsNow s c = true := by
  induction changes with
  | nil => simp [progress, Progress.start, Progress.touches, InsertionMap.get]
  | cons d changes ih =>
    rw [(progress_adds s d changes).touches, ih (List.pairwise_cons.1 h).2, value_of_distinct s h]
    have hcolumn : ∀ column, d.part = .branchColumn key column → d.isBranchColumn = true := by
      intro column hpart
      cases d with
      | pluginRow ref b column before after =>
        cases b with
        | none => cases hpart
        | some b => rfl
      | _ => cases hpart
    constructor
    · rintro (⟨c, hc, hpart, hholds⟩ | ⟨-, hpart, hholds⟩)
      · exact ⟨c, List.mem_cons_of_mem _ hc, hpart, hholds⟩
      · exact ⟨d, List.mem_cons_self, hpart, hholds⟩
    · rintro ⟨c, hc, ⟨column, hpart⟩, hholds⟩
      rcases List.mem_cons.1 hc with rfl | hc
      · exact Or.inr ⟨hcolumn column hpart, ⟨column, hpart⟩, hholds⟩
      · exact Or.inl ⟨c, hc, ⟨column, hpart⟩, hholds⟩

/-! ### What is carried out -/

/-- A revert that is carried out restores the parts that hold what the run wrote, and no others. -/
theorem value_of_carriedOut {s' : Site} (h : Distinct changes)
    (hs' : CarriedOut s (progress s changes) s') :
    (∀ c ∈ changes, s'.value c.part = if holdsNow s c = true then some c.before else s.value c.part) ∧
      ∀ part ∉ changes.map Change.part, s'.value part = s.value part := by
  constructor
  · intro c hc
    by_cases hcolumn : c.isBranchColumn = true
    · have hpart : ∃ key column, c.part = .branchColumn key column := by
        cases c with
        | pluginRow ref b column before after =>
          cases b with
          | none => cases hcolumn
          | some b => exact ⟨_, _, rfl⟩
        | _ => cases hcolumn
      obtain ⟨key, column, hpart⟩ := hpart
      rw [← column_of_distinct s h c hc hcolumn, hpart, hs'.column]
    · have hcolumn : c.isBranchColumn = false := by simpa using hcolumn
      have hne : ∀ key column, c.part ≠ .branchColumn key column := by
        intro key column
        cases c with
        | pluginRow ref b column' before after =>
          cases b with
          | none => simp [Change.part]
          | some b => cases hcolumn
        | _ => simp [Change.part]
      rcases hs'.plan c.part hne with ⟨π, hπ, hπpart, heq⟩ | ⟨hnone, heq⟩
      · obtain ⟨d, hd, hdcolumn, hplan⟩ := mem_plans.1 hπ
        rcases planChange_cases s hdcolumn with ⟨π', hπ', hholds, hpart, hvalue, -⟩ | ⟨-, reason, hreason⟩
        · rw [hplan] at hπ'
          obtain rfl := Except.ok.inj hπ'
          have hremoved : d.isRemoved = false := by
            by_contra hremoved
            have hno := holdsNow_of_removed s (by simpa using hremoved)
            rw [holdsNow, hholds] at hno
            cases hno
          obtain rfl := eq_of_part h hd hc (hpart.symm.trans hπpart) hremoved
          rw [heq, hvalue, if_pos (show holdsNow s d = true from hholds)]
        · rw [hplan] at hreason
          cases hreason
      · rw [heq, if_neg]
        intro hholds
        rcases planChange_cases s hcolumn with ⟨π, hπ, -, hpart, -⟩ | ⟨hno, -⟩
        · exact hnone π (mem_plans.2 ⟨c, hc, hcolumn, hπ⟩) hpart
        · rw [holdsNow, hno] at hholds
          cases hholds
  · intro part hpart
    have hnot : ∀ c ∈ changes, c.part ≠ part := fun c hc heq => hpart (heq ▸ List.mem_map_of_mem hc)
    by_cases hcolumn : ∃ key column, part = .branchColumn key column
    · obtain ⟨key, column, rfl⟩ := hcolumn
      rw [hs'.column, value_of_not_mem s hnot]
    · rcases hs'.plan part fun key column heq => hcolumn ⟨key, column, heq⟩ with ⟨π, hπ, hπpart, -⟩ | ⟨-, heq⟩
      · obtain ⟨d, hd, hdcolumn, hplan⟩ := mem_plans.1 hπ
        rcases planChange_cases s hdcolumn with ⟨π', hπ', -, hpart', -⟩ | ⟨-, reason, hreason⟩
        · rw [hplan] at hπ'
          rw [Except.ok.inj hπ'] at hπpart
          exact absurd (hpart'.symm.trans hπpart) (hnot d hd)
        · rw [hplan] at hreason
          cases hreason
      · exact heq

/-! ### Runs that list no part twice -/

theorem plan_of_mem_plans {π : Plan} (h : π ∈ (progress s changes).plans) :
    ∃ c ∈ changes, c.isBranchColumn = false ∧ holdsNow s c = true ∧ π.part = c.part ∧ π.value = c.before ∧
      π.task = s.owner c.part := by
  obtain ⟨c, hc, hcolumn, hplan⟩ := mem_plans.1 h
  rcases planChange_cases s hcolumn with ⟨π', hπ', hholds, hspec⟩ | ⟨-, reason, hreason⟩
  · rw [hplan] at hπ'
    obtain rfl := Except.ok.inj hπ'
    exact ⟨c, hc, hcolumn, hholds, hspec⟩
  · rw [hplan] at hreason
    cases hreason

/-- The task of a touched row owns one of the row's columns that hold what the run wrote. -/
theorem owner_of_touched (h : Distinct changes) {e : Entry}
    (he : e ∈ touchedRows (progress s changes)) :
    ∃ c ∈ changes, holdsNow s c = true ∧ e.task = s.owner c.part := by
  have hloaded := progress_loaded s changes
  obtain ⟨ht, hget⟩ := (mem_touchedRows hloaded).1 he
  have htouches : (progress s changes).touches ⟨e.branchId, e.ref.pluginId, e.ref.table, e.ref.rowId⟩ = true := by
    rw [Progress.touches, hget]
    exact ht
  obtain ⟨c, hc, ⟨column, hpart⟩, hholds⟩ := (touches_of_distinct s h _).1 htouches
  obtain ⟨row, hrow, htask, -⟩ := hloaded.row _ _ hget
  refine ⟨c, hc, hholds, ?_⟩
  rw [htask, hpart, Site.owner, hrow]
  rfl

theorem opens_of_ownersOpen (h : Distinct changes) (hopen : OwnersOpen s changes) :
    (∀ π ∈ (progress s changes).plans, π.task.bind s.closed = none) ∧
      ∀ e ∈ touchedRows (progress s changes), e.task.bind s.closed = none := by
  constructor
  · intro π hπ
    obtain ⟨c, hc, -, hholds, -, -, htask⟩ := plan_of_mem_plans hπ
    rw [htask]
    exact hopen c hc ((holds_iff h s hc).2 hholds)
  · intro e he
    obtain ⟨c, hc, hholds, htask⟩ := owner_of_touched h he
    rw [htask]
    exact hopen c hc ((holds_iff h s hc).2 hholds)

theorem revert_refused (h : (progress s changes).conflicts ≠ []) :
    revertLinkMigration s changes false = .ok (s, ⟨0, (progress s changes).conflicts, none⟩) :=
  if_pos ⟨h, rfl⟩

theorem isRemoved_of_holdsNow (h : holdsNow s c = true) : c.isRemoved = false := by
  by_contra hremoved
  rw [holdsNow_of_removed s (by simpa using hremoved)] at h
  cases h

theorem reverts_of_distinct (h : Distinct changes) (hopen : OwnersOpen s changes) :
    RevertsExactly s changes := by
  obtain ⟨hplans, hrows⟩ := opens_of_ownersOpen h hopen
  obtain ⟨hnamed, hsome⟩ := conflicts_of_distinct s h
  constructor
  · by_cases hconflicts : (progress s changes).conflicts = []
    · obtain ⟨s', out, hr, hout, hcarried⟩ := revert_carriedOut (Or.inr hconflicts) hplans hrows
      obtain ⟨hvalue, hother⟩ := value_of_carriedOut h hcarried
      refine ⟨s', out, hr, Or.inr ⟨hout.trans hconflicts, fun c hc => ?_, hother⟩⟩
      have hholds : holdsNow s c = true := by
        by_contra hno
        obtain ⟨reason, hreason⟩ := hnamed c hc (by simpa using hno)
        rw [hconflicts] at hreason
        exact List.not_mem_nil hreason
      rw [hvalue c hc, if_pos hholds, firstBefore_of_distinct h hc (isRemoved_of_holdsNow hholds)]
    · obtain ⟨c, hc, hno⟩ := hsome hconflicts
      refine ⟨s, _, revert_refused hconflicts, Or.inl ⟨hconflicts, rfl, ⟨c, hc, ?_⟩, fun d hd hedited => hnamed d hd ?_⟩⟩
      · rw [holds_iff h s hc, hno]
        decide
      · rw [holds_iff h s hd] at hedited
        simpa using hedited
  · obtain ⟨s', out, hr, -, hcarried⟩ := revert_carriedOut (Or.inl rfl) hplans hrows
    obtain ⟨hvalue, hother⟩ := value_of_carriedOut h hcarried
    refine ⟨s', out, hr, fun c hc hholds => ?_, fun c hc hedited => ?_, hother⟩
    · have hholds := (holds_iff h s hc).1 hholds
      rw [hvalue c hc, if_pos hholds, firstBefore_of_distinct h hc (isRemoved_of_holdsNow hholds)]
    · rw [hvalue c hc, if_neg fun hholds => hedited ((holds_iff h s hc).2 hholds)]

/-- The chat of a part that is to be restored was closed: nothing of the run can be reverted. -/
theorem ownersOpen_of_reverts (h : Distinct changes)
    (hrevert : RevertsExactly s changes) : OwnersOpen s changes := by
  intro c hc hholds
  by_contra hclosed
  have hholds := (holds_iff h s hc).1 hholds
  have herror : ∃ e, revertLinkMigration s changes true = .error e := by
    refine revert_error (Or.inl rfl) ?_
    by_cases hcolumn : c.isBranchColumn = true
    · right
      obtain ⟨key, column, hpart⟩ : ∃ key column, c.part = .branchColumn key column := by
        cases c with
        | pluginRow ref b column before after =>
          cases b with
          | none => cases hcolumn
          | some b => exact ⟨_, _, rfl⟩
        | _ => cases hcolumn
      have htouches := (touches_of_distinct s h key).2 ⟨c, hc, ⟨column, hpart⟩, hholds⟩
      have hloaded := progress_loaded s changes
      unfold Progress.touches at htouches
      cases hget : InsertionMap.get (progress s changes).branchRows key with
      | none =>
        rw [hget] at htouches
        cases htouches
      | some e =>
        rw [hget] at htouches
        obtain ⟨row, hrow, htask, -⟩ := hloaded.row _ _ hget
        refine ⟨e, (mem_touchedRows hloaded).2 ⟨htouches, ?_⟩, ?_⟩
        · rw [← hloaded.key _ _ hget]
          exact hget
        · rw [hpart, Site.owner, hrow] at hclosed
          rw [htask]
          exact hclosed
    · left
      rcases planChange_cases s (by simpa using hcolumn) with ⟨π, hπ, -, -, -, htask⟩ | ⟨hno, -⟩
      · refine ⟨π, mem_plans.2 ⟨c, hc, by simpa using hcolumn, hπ⟩, ?_⟩
        rw [htask]
        exact hclosed
      · rw [holdsNow, hno] at hholds
        cases hholds
  obtain ⟨e, he⟩ := herror
  obtain ⟨s', out, hok, -⟩ := hrevert.skip
  rw [he] at hok
  cases hok

/-! ### Runs that list a part twice -/

theorem exists_twice (h : ¬ Distinct changes) :
    ∃ A d B e C, changes = A ++ d :: B ++ e :: C ∧ e.part = d.part ∧ d.isRemoved = false ∧
      (∀ x ∈ B, x.part ≠ d.part) ∧ ∀ x ∈ C, x.part ≠ d.part := by
  induction changes with
  | nil => exact absurd List.Pairwise.nil h
  | cons x changes ih =>
    by_cases htail : Distinct changes
    · have hx : ∃ e ∈ changes, x.part = e.part ∧ x.isRemoved = false := by
        by_contra hno
        refine h (List.pairwise_cons.2 ⟨fun e he hpart => ?_, htail⟩)
        by_contra hremoved
        exact hno ⟨e, he, hpart, by simpa using hremoved⟩
      obtain ⟨e, he, hpart, hremoved⟩ := hx
      obtain ⟨B, C, rfl⟩ := List.append_of_mem he
      have hother : ∀ y ∈ B ++ C, y.part ≠ x.part := by
        intro y hy hyx
        have hpair := List.pairwise_append.1 htail
        have htwice : y.isRemoved = true := by
          rcases List.mem_append.1 hy with hy | hy
          · exact hpair.2.2 y hy e List.mem_cons_self (hyx.trans hpart)
          · rw [isRemoved_of_part (hyx.trans hpart)]
            exact (List.pairwise_cons.1 hpair.2.1).1 y hy (hpart.symm.trans hyx.symm)
        rw [isRemoved_of_part hyx, hremoved] at htwice
        cases htwice
      exact ⟨[], x, B, e, C, rfl, hpart.symm, hremoved, fun y hy => hother y (List.mem_append_left _ hy),
        fun y hy => hother y (List.mem_append_right _ hy)⟩
    · obtain ⟨A, d, B, e, C, rfl, hspec⟩ := ih htail
      exact ⟨x :: A, d, B, e, C, rfl, hspec⟩

def Site.empty : Site :=
  ⟨fun _ => none, fun _ => none, fun _ => none, fun _ => none, fun _ => none, fun _ => none, fun _ => none,
    fun _ => none, 0⟩

def siteHolding : Change → Site
  | .module id none _ after =>
    { Site.empty with modules := fun x => if x = id then some ⟨after.html, after.fields, .null⟩ else none }
  | .module id (some b) _ after =>
    { Site.empty with
      branchModules := fun x => if x = (b, id) then some ⟨⟨after.html, after.fields, .null⟩, none⟩ else none }
  | .contentInstance id none _ after =>
    { Site.empty with instances := fun x => if x = id then some ⟨after, 1, .null⟩ else none }
  | .contentInstance id (some b) _ after =>
    { Site.empty with branchInstances := fun x => if x = (b, id) then some ⟨⟨after, 1, .null⟩, none⟩ else none }
  | .layout id _ after => { Site.empty with layouts := fun x => if x = id then some after else none }
  | .pluginRow ref none column _ after =>
    { Site.empty with pluginRows := fun x => if x = ref then some ⟨[(column, after)], none, 1⟩ else none }
  | .pluginRow ref (some b) column _ after =>
    { Site.empty with
      branchRows := fun x =>
        if x = ⟨b, ref.pluginId, ref.table, ref.rowId⟩ then some ⟨⟨[(column, after)], none, 1⟩, none⟩ else none }
  | .removed _ _ _ _ _ => Site.empty

theorem siteHolding_value (h : d.isRemoved = false) : (siteHolding d).value d.part = some d.after := by
  cases d with
  | module id b before after => cases b <;> simp [siteHolding, Change.part, Site.value, ModuleState.part, Change.after]
  | contentInstance id b before after => cases b <;> simp [siteHolding, Change.part, Site.value, Change.after]
  | layout id before after => simp [siteHolding, Change.part, Site.value, Change.after]
  | pluginRow ref b column before after =>
    cases b <;> simp [siteHolding, Change.part, Site.value, Change.after, PluginRowState.column, InsertionMap.get]
  | removed kind id b before after => cases h

theorem siteHolding_closed (d : Change) : (siteHolding d).closed = fun _ => none := by
  cases d with
  | module id b before after => cases b <;> rfl
  | contentInstance id b before after => cases b <;> rfl
  | pluginRow ref b column before after => cases b <;> rfl
  | _ => rfl

/-- A folded column keeps its value over changes that wrote something else. -/
theorem value_of_edited {v : PartValue} (hv : s.value part = some v)
    (h : ∀ c ∈ changes, c.part = part → v.same c.after = false) : (progress s changes).value s part = some v := by
  induction changes with
  | nil =>
    rw [value_of_not_mem s (fun c hc => (List.not_mem_nil hc).elim), hv]
  | cons c changes ih =>
    obtain ⟨hc, htail⟩ := List.forall_mem_cons.1 h
    have hread := ih htail
    rw [(progress_adds s c changes).value, if_neg, hread]
    rintro ⟨-, hpart, hholds⟩
    rw [← hpart, hread] at hholds
    have hno := hc hpart.symm
    rw [holdsAfter, Option.any_some, hno] at hholds
    cases hholds

/-- Once a change is folded, the column has what it had before some change of the run. -/
theorem value_of_folded
    (hd : (progress s changes).value s part = some d.before) (A : List Change) :
    ∃ c, (c = d ∨ (c ∈ A ∧ c.part = part)) ∧ (progress s (A ++ changes)).value s part = some c.before := by
  induction A with
  | nil => exact ⟨d, Or.inl rfl, hd⟩
  | cons x A ih =>
    rw [List.cons_append, (progress_adds s x (A ++ changes)).value]
    split
    · rename_i hcond
      exact ⟨x, Or.inr ⟨List.mem_cons_self, hcond.2.1.symm⟩, rfl⟩
    · obtain ⟨c, hc, heq⟩ := ih
      refine ⟨c, ?_, heq⟩
      rcases hc with hc | ⟨hc, hpart⟩
      · exact Or.inl hc
      · exact Or.inr ⟨List.mem_cons_of_mem _ hc, hpart⟩

/-- A part that is listed twice, and was set back since to what it held in between: the revert overwrites it. -/
theorem not_reverts_of_twice (hrun : Recorded changes) (h : ¬ Distinct changes) :
    ∃ s, OwnersOpen s changes ∧ ¬ RevertsExactly s changes := by
  obtain ⟨A, d, B, e, C, rfl, hpart, hremoved, hB, hC⟩ := exists_twice h
  set changes := A ++ d :: B ++ e :: C with hchanges
  set s := siteHolding d with hs
  have hvalue : s.value d.part = some d.after := siteHolding_value hremoved
  have hclosed : ∀ task : Option String, task.bind s.closed = none := by
    intro task
    rw [hs, siteHolding_closed]
    cases task <;> rfl
  have hd : d ∈ changes := by simp [hchanges]
  have he : e ∈ changes := by simp [hchanges]
  have hchain : e.before = d.after := hrun.chained A d B e C hchanges hpart hB
  have hedited : d.after.same e.after = false := by
    rw [← hchain]
    exact hrun.changed e he
  refine ⟨s, fun c _ _ => hclosed _, fun hrevert => ?_⟩
  obtain ⟨s', out, hok, -, huntouched, -⟩ := hrevert.skip
  have hcarriedOut : ∃ s₁ out₁, revertLinkMigration s changes true = .ok (s₁, out₁) ∧
      out₁.conflicts = (progress s changes).conflicts ∧ CarriedOut s (progress s changes) s₁ :=
    revert_carriedOut (Or.inl rfl) (fun π _ => hclosed _) (fun e _ => hclosed _)
  obtain ⟨s₁, out₁, hok₁, -, hcarried⟩ := hcarriedOut
  rw [hok] at hok₁
  obtain ⟨rfl, -⟩ := Prod.mk.inj (Except.ok.inj hok₁)
  have hlast : lastAfter changes d.part = some e.after := by
    have hnone : C.reverse.find? (fun c => c.part = d.part) = none :=
      List.find?_eq_none.2 fun x hx => by simpa using hC x (List.mem_reverse.1 hx)
    simp [lastAfter, hchanges, List.find?_append, hnone, hpart]
  have hkept : s'.value d.part = some d.after := by
    rw [← hvalue]
    refine huntouched d hd fun hholds => ?_
    obtain ⟨after, hafter, hholds⟩ := hholds
    rw [hlast] at hafter
    rw [← Option.some.inj hafter, hvalue, holdsAfter, Option.any_some, hedited] at hholds
    cases hholds
  -- what the revert leaves is what the part held before one of the changes up to `d`
  have hrestored : ∃ c, (c = d ∨ (c ∈ A ∧ c.part = d.part)) ∧ s'.value d.part = some c.before := by
    by_cases hcolumn : d.isBranchColumn = true
    · obtain ⟨key, column, hkey⟩ : ∃ key column, d.part = .branchColumn key column := by
        cases d with
        | pluginRow ref b column before after =>
          cases b with
          | none => cases hcolumn
          | some b => exact ⟨_, _, rfl⟩
        | _ => cases hcolumn
      have hlater : (progress s (B ++ e :: C)).value s d.part = some d.after := by
        refine value_of_edited hvalue fun c hc hcpart => ?_
        rcases List.mem_append.1 hc with hc | hc
        · exact absurd hcpart (hB c hc)
        · rcases List.mem_cons.1 hc with rfl | hc
          · exact hedited
          · exact absurd hcpart (hC c hc)
      have hfolded : (progress s (d :: (B ++ e :: C))).value s d.part = some d.before := by
        rw [(progress_adds s d _).value, hlater, if_pos ⟨hcolumn, rfl, d.after.same_self⟩]
      obtain ⟨c, hc, heq⟩ := value_of_folded hfolded A
      refine ⟨c, hc, ?_⟩
      rw [hkey, hcarried.column, ← hkey, ← heq, hchanges]
      simp
    · have hcolumn : d.isBranchColumn = false := by simpa using hcolumn
      have hne : ∀ key column, d.part ≠ .branchColumn key column := by
        intro key column
        cases d with
        | pluginRow ref b column' before after =>
          cases b with
          | none => simp [Change.part]
          | some b => cases hcolumn
        | _ => simp [Change.part]
      rcases hcarried.plan d.part hne with ⟨π, hπ, hπpart, heq⟩ | ⟨hnone, -⟩
      · obtain ⟨c, hc, -, hholds, hcpart, hcvalue, -⟩ := plan_of_mem_plans hπ
        have hcd : c.part = d.part := hcpart.symm.trans hπpart
        refine ⟨c, ?_, by rw [heq, hcvalue]⟩
        rw [holdsNow, hcd, hvalue, holdsAfter, Option.any_some] at hholds
        simp only [hchanges, List.append_assoc, List.cons_append, List.mem_append, List.mem_cons] at hc
        rcases hc with hc | rfl | hc | rfl | hc
        · exact Or.inr ⟨hc, hcd⟩
        · exact Or.inl rfl
        · exact absurd hcd (hB c hc)
        · rw [hedited] at hholds
          cases hholds
        · exact absurd hcd (hC c hc)
      · rcases planChange_cases s hcolumn with ⟨π, hπ, -, hπpart, -⟩ | ⟨hno, -⟩
        · exact absurd hπpart (hnone π (mem_plans.2 ⟨d, hd, hcolumn, hπ⟩))
        · rw [hvalue, holdsAfter, Option.any_some, d.after.same_self] at hno
          cases hno
  obtain ⟨c, hc, heq⟩ := hrestored
  rw [hkept] at heq
  have hsame : c.before.same d.after = true := by
    rw [← Option.some.inj heq]
    exact d.after.same_self
  have honward : c.before.same d.after = false := by
    rcases hc with rfl | ⟨hc, hcpart⟩
    · exact hrun.changed c hd
    · have hpair : (A ++ (d :: B ++ e :: C)).Pairwise fun c d => d.part = c.part → c.before.same d.after = false := by
        rw [← List.append_assoc]
        exact hrun.onward
      exact (List.pairwise_append.1 hpair).2.2 c hc d (by simp) hcpart.symm
  rw [hsame] at honward
  cases honward

def layoutRun : List Change := [.layout "l1" "<a href=/about>" "<a href=caelo:page/p1>"]

def layoutSite : Site := { Site.empty with layouts := fun _ => some "<a href=caelo:page/p1>" }

/-- A column of the main line that a plugin names twice, to be read in two ways. -/
def twiceRun : List Change :=
  [.pluginRow ⟨"plugin", "plugin_menu", "entries", "row"⟩ none "item" (.arr [.str "/about", .str "/pricing"])
      (.arr [.str "caelo:page/p1", .str "/pricing"]),
    .pluginRow ⟨"plugin", "plugin_menu", "entries", "row"⟩ none "item" (.arr [.str "caelo:page/p1", .str "/pricing"])
      (.arr [.str "caelo:page/p1", .str "caelo:page/p2"])]

/-- The site after the run, with no edit since. -/
def twiceSite : Site :=
  { Site.empty with
    pluginRows := fun _ => some ⟨[("item", .arr [.str "caelo:page/p1", .str "caelo:page/p2"])], none, 3⟩ }

end CaeloCms.Link.Migration
