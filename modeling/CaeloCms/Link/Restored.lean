import CaeloCms.Link.Planned

/-!
# What a revert restores

The plans are applied and what they add to the batches is recorded.  A revert that is not refused leaves every part as
its plan or its folded row has it (`revert_carriedOut`), and fails where a chat it records for was closed
(`revert_error`).
-/

namespace CaeloCms.Link.Migration

open Asking (sameStableJson sameText)

/-! ### Recording -/

/-- What a part of a branch holds once this is recorded. -/
def Added.covers (a : Added) (part : Part) : Option PartValue :=
  match a.branchId, a.what, part with
  | some b, .entity (.module id state), .module (some b') id' => if b' = b ∧ id' = id then some state.part else none
  | some b, .entity (.contentInstance id state), .contentInstance (some b') id' =>
    if b' = b ∧ id' = id then some (.values state.values) else none
  | some b, .pluginRow ref state, .branchColumn key column =>
    if key = ⟨b, ref.pluginId, ref.table, ref.rowId⟩ then some (.column (state.column column)) else none
  | _, _, _ => none

theorem record_value (s : Site) (a : Added) (part : Part) :
    (s.record a).value part = (a.covers part).or (s.value part) := by
  obtain ⟨branch, task, what⟩ := a
  cases branch with
  | none => rfl
  | some b =>
    cases what with
    | touched => rfl
    | entity e =>
      cases e with
      | module id state =>
        cases part with
        | module b' id' =>
          cases b' with
          | none => rfl
          | some b' =>
            simp only [Site.value, Site.record, Added.covers, Function.update_apply, Prod.mk.injEq]
            split <;> rfl
        | contentInstance b' id' => cases b' <;> rfl
        | _ => rfl
      | contentInstance id state =>
        cases part with
        | module b' id' => cases b' <;> rfl
        | contentInstance b' id' =>
          cases b' with
          | none => rfl
          | some b' =>
            simp only [Site.value, Site.record, Added.covers, Function.update_apply, Prod.mk.injEq]
            split <;> rfl
        | _ => rfl
    | pluginRow ref state =>
      cases part with
      | module b' id' => cases b' <;> rfl
      | contentInstance b' id' => cases b' <;> rfl
      | branchColumn key column =>
        simp only [Site.value, Site.record, Added.covers, Function.update_apply]
        split <;> rfl
      | _ => rfl

/-- The parts hold what was recorded last, or what they held. -/
structure Written (added : List Added) (s s' : Site) : Prop where
  closed : s'.closed = s.closed
  value : ∀ part, (∃ a ∈ added, ∃ v, a.covers part = some v ∧ s'.value part = some v) ∨
    ((∀ a ∈ added, a.covers part = none) ∧ s'.value part = s.value part)

theorem Written.trans {added added' : List Added} {s s' s'' : Site} (h : Written added s s')
    (h' : Written added' s' s'') : Written (added ++ added') s s'' := by
  refine ⟨h'.closed.trans h.closed, fun part => ?_⟩
  rcases h'.value part with ⟨a, ha, v, hv, heq⟩ | ⟨hnone', heq'⟩
  · exact Or.inl ⟨a, List.mem_append_right _ ha, v, hv, heq⟩
  · rcases h.value part with ⟨a, ha, v, hv, heq⟩ | ⟨hnone, heq⟩
    · exact Or.inl ⟨a, List.mem_append_left _ ha, v, hv, heq'.trans heq⟩
    · refine Or.inr ⟨fun a ha => ?_, heq'.trans heq⟩
      rcases List.mem_append.1 ha with ha | ha
      · exact hnone a ha
      · exact hnone' a ha

theorem closed_record (s : Site) (a : Added) : (s.record a).closed = s.closed := by
  unfold Site.record
  split <;> rfl

theorem written_foldl (added : List Added) (s : Site) : Written added s (added.foldl Site.record s) := by
  induction added generalizing s with
  | nil => exact ⟨rfl, fun part => Or.inr ⟨fun a ha => (List.not_mem_nil ha).elim, rfl⟩⟩
  | cons a added ih =>
    have hone : Written [a] s (s.record a) := by
      refine ⟨closed_record s a, fun part => ?_⟩
      rw [record_value]
      cases hcovers : a.covers part with
      | none => exact Or.inr ⟨by simpa using hcovers, rfl⟩
      | some v => exact Or.inl ⟨a, List.mem_singleton_self a, v, hcovers, rfl⟩
    exact hone.trans (ih (s.record a))

def ownAdded (added : List Added) (header : Option String × Option String) : List Added :=
  let own := added.filter fun a => a.branchId = header.1 ∧ a.task = header.2
  own.filter (·.what.isEntity) ++ own.filter (·.what.isPluginRow)

theorem mem_ownAdded {added : List Added} {header : Option String × Option String} {a : Added} :
    a ∈ ownAdded added header ↔ a ∈ added ∧ a.branchId = header.1 ∧ a.task = header.2 ∧ a.what ≠ .touched := by
  have hwhat : a.what.isEntity = true ∨ a.what.isPluginRow = true ↔ a.what ≠ .touched := by
    cases a.what <;> simp [Addition.isEntity, Addition.isPluginRow]
  simp only [ownAdded, List.mem_append, List.mem_filter, decide_eq_true_eq]
  tauto

theorem emitSnapshot_cases (added : List Added) (s : Site) (header : Option String × Option String) :
    (header.2.bind s.closed = none ∧ ∃ s', emitSnapshot added s header.1 header.2 = .ok s' ∧
        Written (ownAdded added header) s s') ∨
      (header.2.bind s.closed ≠ none ∧ ∃ e, emitSnapshot added s header.1 header.2 = .error e) := by
  unfold emitSnapshot
  cases hclosed : header.2.bind s.closed with
  | some how => exact Or.inr ⟨by simp, _, rfl⟩
  | none =>
    have hw := written_foldl (ownAdded added header) s
    refine Or.inl ⟨rfl, _, rfl, hw.closed, fun part => ?_⟩
    rcases hw.value part with ⟨a, ha, v, hv, heq⟩ | ⟨hnone, heq⟩
    · exact Or.inl ⟨a, ha, v, hv, by rw [← heq]; cases part <;> rfl⟩
    · exact Or.inr ⟨hnone, by rw [← heq]; cases part <;> rfl⟩

def emitHeader (added : List Added) (r : Site × Option Nat) (header : Option String × Option String) :
    Except String (Site × Option Nat) :=
  (emitSnapshot added r.1 header.1 header.2).map fun s' =>
    (s', if header.1 = none then r.2.or (some r.1.snapshots) else r.2)

theorem emit_open (added : List Added) {headers : List (Option String × Option String)} : ∀ {r : Site × Option Nat},
    (∀ header ∈ headers, header.2.bind r.1.closed = none) →
      ∃ r', headers.foldlM (emitHeader added) r = .ok r' ∧ Written (headers.flatMap (ownAdded added)) r.1 r'.1 := by
  induction headers with
  | nil => exact fun _ => ⟨_, rfl, rfl, fun part => Or.inr ⟨fun a ha => (List.not_mem_nil ha).elim, rfl⟩⟩
  | cons header headers ih =>
    intro r hopen
    obtain ⟨hhead, htail⟩ := List.forall_mem_cons.1 hopen
    rcases emitSnapshot_cases added r.1 header with ⟨-, s', hs', hw⟩ | ⟨hclosed, -⟩
    · have hstep : ∃ id, emitHeader added r header = .ok (s', id) := by
        unfold emitHeader
        rw [hs']
        exact ⟨_, rfl⟩
      obtain ⟨id, hid⟩ := hstep
      have htail' : ∀ header ∈ headers, header.2.bind (s', id).1.closed = none := by
        rw [hw.closed]
        exact htail
      obtain ⟨r', hr', hw'⟩ := ih htail'
      refine ⟨r', ?_, ?_⟩
      · rw [List.foldlM_cons, hid]
        exact hr'
      · rw [List.flatMap_cons]
        exact hw.trans hw'
    · exact absurd hhead hclosed

theorem emit_closed (added : List Added) {headers : List (Option String × Option String)} : ∀ {r : Site × Option Nat},
    (∃ header ∈ headers, header.2.bind r.1.closed ≠ none) → ∃ e, headers.foldlM (emitHeader added) r = .error e := by
  induction headers with
  | nil =>
    rintro r ⟨header, hmem, -⟩
    exact (List.not_mem_nil hmem).elim
  | cons header headers ih =>
    rintro r ⟨closed, hmem, hclosed⟩
    rcases emitSnapshot_cases added r.1 header with ⟨hopen, s', hs', hw⟩ | ⟨-, e, he⟩
    · have hmem : closed ∈ headers := by
        rcases List.mem_cons.1 hmem with rfl | hmem
        · exact absurd hopen hclosed
        · exact hmem
      have hstep : ∃ id, emitHeader added r header = .ok (s', id) := by
        unfold emitHeader
        rw [hs']
        exact ⟨_, rfl⟩
      obtain ⟨id, hid⟩ := hstep
      have hclosed' : closed.2.bind (s', id).1.closed ≠ none := by
        rw [hw.closed]
        exact hclosed
      obtain ⟨e, he⟩ := ih ⟨closed, hmem, hclosed'⟩
      refine ⟨e, ?_⟩
      rw [List.foldlM_cons, hid]
      exact he
    · refine ⟨e, ?_⟩
      have hstep : emitHeader added r header = .error e := by
        unfold emitHeader
        rw [he]
        rfl
      rw [List.foldlM_cons, hstep]
      rfl

/-! ### Batches -/

def Batches.Scoped (bs : Batches) : Prop := ∀ a ∈ bs.added, a.branchId ∈ bs.scopes

theorem mem_tasks {bs : Batches} {a : Added} (ha : a ∈ bs.added) (hwhat : a.what ≠ .touched) :
    a.task ∈ bs.tasks a.branchId := by
  have hkind : a.what.isEntity = true ∨ a.what.isPluginRow = true := by
    cases h : a.what <;> simp_all [Addition.isEntity, Addition.isPluginRow]
  have hmem : ∀ l : List (Option String), a.task ∈ l → a.task ∈ if l = [] ∧
      (bs.added.filter fun x => x.branchId = a.branchId) ≠ [] then [none] else l := by
    intro l hl
    rw [if_neg fun h => List.ne_nil_of_mem hl h.1]
    exact hl
  refine hmem _ ?_
  rw [OrderedSet.mem_addAll, OrderedSet.mem_addAll]
  rcases hkind with hkind | hkind
  · exact Or.inl (Or.inr (List.mem_map_of_mem (by simp [ha, hkind])))
  · exact Or.inr (List.mem_map_of_mem (by simp [ha, hkind]))

theorem task_of_mem_tasks {bs : Batches} {b task : Option String} (h : task ∈ bs.tasks b) :
    task = none ∨ ∃ a ∈ bs.added, a.branchId = b ∧ a.task = task := by
  unfold Batches.tasks at h
  dsimp only at h
  split at h
  · exact Or.inl (List.mem_singleton.1 h)
  · refine Or.inr ?_
    simp only [OrderedSet.mem_addAll, List.not_mem_nil, false_or, List.mem_map, List.mem_filter,
      decide_eq_true_eq] at h
    rcases h with ⟨a, ⟨⟨ha, hb⟩, -⟩, rfl⟩ | ⟨a, ⟨⟨ha, hb⟩, -⟩, rfl⟩
    · exact ⟨a, ha, hb, rfl⟩
    · exact ⟨a, ha, hb, rfl⟩

theorem mem_headers {bs : Batches} (hscoped : bs.Scoped) {a : Added} (ha : a ∈ bs.added) (hwhat : a.what ≠ .touched) :
    (a.branchId, a.task) ∈ bs.headers :=
  List.mem_flatMap.2 ⟨a.branchId, hscoped a ha, List.mem_map_of_mem (mem_tasks ha hwhat)⟩

theorem emit_written {bs : Batches} (hscoped : bs.Scoped) {s : Site} (hopen : ∀ a ∈ bs.added, a.task.bind s.closed = none) :
    ∃ r, bs.emit s = .ok r ∧ Written bs.added s r.1 := by
  have hheaders : ∀ header ∈ bs.headers, header.2.bind s.closed = none := by
    intro header hheader
    obtain ⟨b, -, hb⟩ := List.mem_flatMap.1 hheader
    obtain ⟨task, htask, rfl⟩ := List.mem_map.1 hb
    rcases task_of_mem_tasks htask with rfl | ⟨a, ha, -, rfl⟩
    · rfl
    · exact hopen a ha
  obtain ⟨r, hr, hw⟩ := emit_open bs.added (r := (s, none)) hheaders
  refine ⟨r, hr, hw.closed, fun part => ?_⟩
  have htouched : ∀ a : Added, ∀ v, a.covers part = some v → a.what ≠ .touched := by
    intro a v hv ht
    unfold Added.covers at hv
    rw [ht] at hv
    split at hv <;> simp_all
  rcases hw.value part with ⟨a, ha, v, hv, heq⟩ | ⟨hnone, heq⟩
  · obtain ⟨header, -, hown⟩ := List.mem_flatMap.1 ha
    exact Or.inl ⟨a, (mem_ownAdded.1 hown).1, v, hv, heq⟩
  · refine Or.inr ⟨fun a ha => ?_, heq⟩
    cases hv : a.covers part with
    | none => rfl
    | some v =>
      have hwhat := htouched a v hv
      have hmem := List.mem_flatMap.2 ⟨_, mem_headers hscoped ha hwhat, mem_ownAdded.2 ⟨ha, rfl, rfl, hwhat⟩⟩
      rw [hnone a hmem] at hv
      cases hv

theorem emit_error {bs : Batches} (hscoped : bs.Scoped) {s : Site} {a : Added} (ha : a ∈ bs.added)
    (hwhat : a.what ≠ .touched) (hclosed : a.task.bind s.closed ≠ none) : ∃ e, bs.emit s = .error e :=
  emit_closed bs.added (r := (s, none)) ⟨_, mem_headers hscoped ha hwhat, hclosed⟩

/-! ### Plans that are applied -/

def Plan.isMain : Plan → Bool
  | .branchModule _ _ _ _ => false
  | .branchInstance _ _ _ _ => false
  | _ => true

def Plan.added : Plan → Option Added
  | .branchModule b id task state => some ⟨some b, task, .entity (.module id state)⟩
  | .branchInstance b id task state => some ⟨some b, task, .entity (.contentInstance id state)⟩
  | _ => none

/-- What applying a plan does: a write of the main line, and one more addition. -/
structure Applied (s : Site) (bs : Batches) (π : Plan) (r : Site × Batches) : Prop where
  closed : r.1.closed = s.closed
  value : ∀ part, r.1.value part = if π.isMain = true ∧ part = π.part then some π.value else s.value part
  batches : bs.Scoped → r.2.Scoped
  added : ∃ a, r.2.added = bs.added ++ [a] ∧
    ((π.added = none ∧ a.branchId = none ∧ a.task = none) ∨ π.added = some a)

theorem scoped_add {bs : Batches} (h : bs.Scoped) (b task : Option String) (what : Addition) :
    (bs.add b task what).Scoped := by
  intro a ha
  rcases List.mem_append.1 ha with ha | ha
  · exact OrderedSet.mem_add.2 (Or.inl (h a ha))
  · rw [List.mem_singleton.1 ha]
    exact OrderedSet.mem_add.2 (Or.inr rfl)

theorem apply_applied {s : Site} {bs : Batches} {π : Plan} (h : (s.value π.part).isSome = true) :
    ∃ r, Plan.apply (s, bs) π = .ok r ∧ Applied s bs π r := by
  cases π with
  | module id before =>
    obtain ⟨m, hm⟩ : ∃ m, s.modules id = some m := by
      simpa [Plan.part, Site.value, Option.isSome_iff_exists] using h
    refine ⟨_, by rw [Plan.apply, hm]; rfl, rfl, fun part => ?_, fun hs => scoped_add hs _ _ _, _, rfl,
      Or.inl ⟨rfl, rfl, rfl⟩⟩
    cases part with
    | module b id' =>
      cases b with
      | some b => exact (if_neg (by simp [Plan.part])).symm
      | none =>
        simp only [Site.value, Function.update_apply, Plan.isMain, Plan.part, true_and, Part.module.injEq]
        split <;> rfl
    | contentInstance b id' => cases b <;> exact (if_neg (by simp [Plan.part])).symm
    | _ => exact (if_neg (by simp [Plan.part])).symm
  | contentInstance id before =>
    obtain ⟨m, hm⟩ : ∃ m, s.instances id = some m := by
      simpa [Plan.part, Site.value, Option.isSome_iff_exists] using h
    refine ⟨_, by rw [Plan.apply, hm]; rfl, rfl, fun part => ?_, fun hs => scoped_add hs _ _ _, _, rfl,
      Or.inl ⟨rfl, rfl, rfl⟩⟩
    cases part with
    | module b id' => cases b <;> exact (if_neg (by simp [Plan.part])).symm
    | contentInstance b id' =>
      cases b with
      | some b => exact (if_neg (by simp [Plan.part])).symm
      | none =>
        simp only [Site.value, Function.update_apply, Plan.isMain, Plan.part, true_and, Part.contentInstance.injEq]
        split <;> rfl
    | _ => exact (if_neg (by simp [Plan.part])).symm
  | layout id before =>
    obtain ⟨html, hhtml⟩ : ∃ html, s.layouts id = some html := by
      simpa [Plan.part, Site.value, Option.isSome_iff_exists] using h
    refine ⟨_, rfl, rfl, fun part => ?_, fun hs => scoped_add hs _ _ _, _, rfl, Or.inl ⟨rfl, rfl, rfl⟩⟩
    cases part with
    | module b id' => cases b <;> exact (if_neg (by simp [Plan.part])).symm
    | contentInstance b id' => cases b <;> exact (if_neg (by simp [Plan.part])).symm
    | layout id' =>
      simp only [Site.value, Function.update_apply, Plan.isMain, Plan.part, true_and, Part.layout.injEq, hhtml]
      split <;> rfl
    | _ => exact (if_neg (by simp [Plan.part])).symm
  | pluginColumn ref column before =>
    obtain ⟨row, hrow⟩ : ∃ row, s.pluginRows ref = some row := by
      simpa [Plan.part, Site.value, Option.isSome_iff_exists] using h
    refine ⟨_, by rw [Plan.apply, hrow]; rfl, rfl, fun part => ?_, fun hs => scoped_add hs _ _ _, _, rfl,
      Or.inl ⟨rfl, rfl, rfl⟩⟩
    cases part with
    | module b id' => cases b <;> exact (if_neg (by simp [Plan.part])).symm
    | contentInstance b id' => cases b <;> exact (if_neg (by simp [Plan.part])).symm
    | mainColumn ref' column' =>
      simp only [Site.value, Function.update_apply, Plan.isMain, Plan.part, true_and, Part.mainColumn.injEq]
      by_cases href : ref' = ref
      · subst href
        by_cases hcolumn : column' = column
        · subst hcolumn
          rw [if_pos rfl, if_pos ⟨rfl, rfl⟩, Option.map_some]
          exact congrArg (fun v => some (PartValue.column v)) (column_withColumn_self row column' before)
        · rw [if_pos rfl, if_neg fun hc => hcolumn hc.2, hrow, Option.map_some, Option.map_some]
          exact congrArg (fun v => some (PartValue.column v)) (column_withColumn_of_ne row hcolumn before)
      · rw [if_neg href, if_neg fun hc => href hc.1]
    | _ => exact (if_neg (by simp [Plan.part])).symm
  | branchModule b id task state =>
    exact ⟨_, rfl, rfl, fun part => (if_neg fun hc => by cases hc.1).symm, fun hs => scoped_add hs _ _ _, _, rfl,
      Or.inr rfl⟩
  | branchInstance b id task state =>
    exact ⟨_, rfl, rfl, fun part => (if_neg fun hc => by cases hc.1).symm, fun hs => scoped_add hs _ _ _, _, rfl,
      Or.inr rfl⟩

/-- What applying plans one after the other does. -/
structure AppliedAll (s : Site) (bs : Batches) (plans : List Plan) (r : Site × Batches) : Prop where
  closed : r.1.closed = s.closed
  value : ∀ part, (∃ π ∈ plans, π.isMain = true ∧ π.part = part ∧ r.1.value part = some π.value) ∨
    ((∀ π ∈ plans, π.isMain = true → π.part ≠ part) ∧ r.1.value part = s.value part)
  batches : r.2.Scoped
  added : ∀ a ∈ r.2.added, a ∈ bs.added ∨ (a.branchId = none ∧ a.task = none) ∨ ∃ π ∈ plans, π.added = some a
  kept : ∀ a ∈ bs.added, a ∈ r.2.added
  planned : ∀ π ∈ plans, ∀ a, π.added = some a → a ∈ r.2.added

theorem apply_all {plans : List Plan} : ∀ {s : Site} {bs : Batches}, (∀ π ∈ plans, (s.value π.part).isSome = true) →
    bs.Scoped → ∃ r, plans.foldlM Plan.apply (s, bs) = .ok r ∧ AppliedAll s bs plans r := by
  induction plans with
  | nil =>
    intro s bs _ hscoped
    refine ⟨_, rfl, rfl, fun part => Or.inr ⟨fun π hπ => (List.not_mem_nil hπ).elim, rfl⟩, hscoped,
      fun a ha => Or.inl ha, fun a ha => ha, fun π hπ => (List.not_mem_nil hπ).elim⟩
  | cons π plans ih =>
    intro s bs hsome hscoped
    obtain ⟨hhead, htail⟩ := List.forall_mem_cons.1 hsome
    have happlied : ∃ r, Plan.apply (s, bs) π = .ok r ∧ Applied s bs π r := apply_applied hhead
    obtain ⟨⟨s₁, bs₁⟩, happly, hone⟩ := happlied
    have hsome₁ : ∀ π' ∈ plans, (s₁.value π'.part).isSome = true := by
      intro π' hπ'
      rw [hone.value]
      split
      · rfl
      · exact htail π' hπ'
    obtain ⟨r, hr, hall⟩ := ih hsome₁ (hone.batches hscoped)
    obtain ⟨a₀, hadded, ha₀⟩ := hone.added
    refine ⟨r, ?_, hall.closed.trans hone.closed, fun part => ?_, hall.batches, fun a ha => ?_, fun a ha => ?_, ?_⟩
    · rw [List.foldlM_cons, happly]
      exact hr
    · rcases hall.value part with ⟨π', hπ', hmain, hpart, heq⟩ | ⟨hnone, heq⟩
      · exact Or.inl ⟨π', List.mem_cons_of_mem _ hπ', hmain, hpart, heq⟩
      · rw [hone.value] at heq
        by_cases hcond : π.isMain = true ∧ part = π.part
        · rw [if_pos hcond] at heq
          exact Or.inl ⟨π, List.mem_cons_self, hcond.1, hcond.2.symm, heq⟩
        · rw [if_neg hcond] at heq
          exact Or.inr ⟨List.forall_mem_cons.2 ⟨fun hmain hpart => hcond ⟨hmain, hpart.symm⟩, hnone⟩, heq⟩
    · rcases hall.added a ha with ha | hmain | ⟨π', hπ', heq⟩
      · rw [hadded] at ha
        rcases List.mem_append.1 ha with ha | ha
        · exact Or.inl ha
        · obtain rfl := List.mem_singleton.1 ha
          rcases ha₀ with ⟨-, hmain⟩ | heq
          · exact Or.inr (Or.inl hmain)
          · exact Or.inr (Or.inr ⟨π, List.mem_cons_self, heq⟩)
      · exact Or.inr (Or.inl hmain)
      · exact Or.inr (Or.inr ⟨π', List.mem_cons_of_mem _ hπ', heq⟩)
    · refine hall.kept a ?_
      rw [hadded]
      exact List.mem_append_left _ ha
    · refine List.forall_mem_cons.2 ⟨fun a ha => ?_, hall.planned⟩
      refine hall.kept a ?_
      rw [hadded]
      rcases ha₀ with ⟨hnone, -⟩ | heq
      · rw [hnone] at ha
        cases ha
      · rw [heq] at ha
        rw [Option.some.inj ha]
        exact List.mem_append_right _ (List.mem_singleton_self a)

/-! ### The rows of plugins -/

def Entry.added (e : Entry) : Added := ⟨some e.branchId, e.task, .pluginRow e.ref e.state⟩

theorem added_rows (rows : List Entry) : ∀ bs : Batches, bs.Scoped →
    (rows.foldl (fun bs e => bs.add (some e.branchId) e.task (.pluginRow e.ref e.state)) bs).added =
        bs.added ++ rows.map Entry.added ∧
      (rows.foldl (fun bs e => bs.add (some e.branchId) e.task (.pluginRow e.ref e.state)) bs).Scoped := by
  induction rows with
  | nil => exact fun bs h => ⟨(List.append_nil _).symm, h⟩
  | cons e rows ih =>
    intro bs h
    obtain ⟨hadded, hscoped⟩ := ih _ (scoped_add h (some e.branchId) e.task (.pluginRow e.ref e.state))
    refine ⟨?_, hscoped⟩
    rw [List.foldl_cons, hadded, List.map_cons]
    exact List.append_assoc _ _ _

theorem added_progress (s : Site) (changes : List Change) : (progress s changes).batches.added = [] := by
  induction changes with
  | nil => rfl
  | cons c changes ih =>
    rw [progress_cons, ← ih]
    have hplan : ∀ (p : Progress) (b : Option String) (planned : Except String Plan),
        (p.plan c b planned).batches.added = p.batches.added := by
      intro p b planned
      cases planned <;> rfl
    cases c with
    | pluginRow ref b column before after =>
      cases b with
      | none => exact hplan _ _ _
      | some b =>
        show ((progress s changes).foldColumn s _ ref b column before after).batches.added = _
        unfold Progress.foldColumn
        dsimp only
        split
        · rfl
        · split <;> rfl
    | removed kind id b before after => rfl
    | _ => exact hplan _ _ _

def touchedRows (p : Progress) : List Entry := (p.branchRows.map (·.2)).filter (·.touched)

theorem mem_touchedRows {s : Site} {p : Progress} (h : p.Loaded s) {e : Entry} :
    e ∈ touchedRows p ↔ e.touched = true ∧
      InsertionMap.get p.branchRows ⟨e.branchId, e.ref.pluginId, e.ref.table, e.ref.rowId⟩ = some e := by
  simp only [touchedRows, List.mem_filter, List.mem_map]
  constructor
  · rintro ⟨⟨⟨key, e'⟩, hmem, rfl⟩, ht⟩
    have hget := (InsertionMap.get_eq_some h.nodup).2 hmem
    refine ⟨ht, ?_⟩
    rw [← h.key _ _ hget]
    exact hget
  · rintro ⟨ht, hget⟩
    exact ⟨⟨_, (InsertionMap.get_eq_some h.nodup).1 hget, rfl⟩, ht⟩

/-! ### A revert that is carried out -/

theorem covers_plan {π : Plan} {a : Added} (h : π.added = some a) (part : Part) :
    a.covers part = if part = π.part then some π.value else none := by
  cases π with
  | branchModule b id task state =>
    obtain rfl := Option.some.inj h
    cases part with
    | module b' id' =>
      cases b' with
      | none => exact (if_neg (by simp [Plan.part])).symm
      | some b' => simp [Added.covers, Plan.part, Plan.value]
    | contentInstance b' id' => cases b' <;> exact (if_neg (by simp [Plan.part])).symm
    | _ => exact (if_neg (by simp [Plan.part])).symm
  | branchInstance b id task state =>
    obtain rfl := Option.some.inj h
    cases part with
    | module b' id' => cases b' <;> exact (if_neg (by simp [Plan.part])).symm
    | contentInstance b' id' =>
      cases b' with
      | none => exact (if_neg (by simp [Plan.part])).symm
      | some b' => simp [Added.covers, Plan.part, Plan.value]
    | _ => exact (if_neg (by simp [Plan.part])).symm
  | _ => cases h

theorem covers_main {a : Added} (h : a.branchId = none) (part : Part) : a.covers part = none := by
  unfold Added.covers
  rw [h]

theorem covers_row (e : Entry) (part : Part) {v : PartValue} : e.added.covers part = some v ↔
    ∃ column, part = .branchColumn ⟨e.branchId, e.ref.pluginId, e.ref.table, e.ref.rowId⟩ column ∧
      v = .column (e.state.column column) := by
  cases part with
  | module b id => cases b <;> simp [Added.covers, Entry.added]
  | contentInstance b id => cases b <;> simp [Added.covers, Entry.added]
  | branchColumn key column =>
    simp only [Added.covers, Entry.added, Part.branchColumn.injEq]
    constructor
    · intro h
      split at h
      · rename_i hkey
        exact ⟨column, ⟨hkey, rfl⟩, (Option.some.inj h).symm⟩
      · cases h
    · rintro ⟨column', ⟨hkey, rfl⟩, rfl⟩
      rw [if_pos hkey]
  | _ => simp [Added.covers, Entry.added]

theorem mem_plans {s : Site} {changes : List Change} {π : Plan} :
    π ∈ (progress s changes).plans ↔ ∃ c ∈ changes, c.isBranchColumn = false ∧ planChange s c = .ok π := by
  induction changes with
  | nil => simp [progress, Progress.start]
  | cons c changes ih =>
    rw [(progress_adds s c changes).plans, ih]
    simp [or_comm]

theorem some_of_plan {s : Site} {changes : List Change} {π : Plan} (h : π ∈ (progress s changes).plans) :
    (s.value π.part).isSome = true := by
  obtain ⟨c, -, hc, hπ⟩ := mem_plans.1 h
  rcases planChange_cases s hc with ⟨π', hπ', hholds, hpart, -⟩ | ⟨-, reason, hreason⟩
  · rw [hπ] at hπ'
    rw [Except.ok.inj hπ', hpart]
    cases hv : s.value c.part with
    | none =>
      rw [hv] at hholds
      cases hholds
    | some v => rfl
  · rw [hπ] at hreason
    cases hreason

/-- The parts after a revert: a column as it was folded, and another part as one of its plans has it. -/
structure CarriedOut (s : Site) (p : Progress) (s' : Site) : Prop where
  column : ∀ key column, s'.value (.branchColumn key column) = p.value s (.branchColumn key column)
  plan : ∀ part, (∀ key column, part ≠ .branchColumn key column) →
    (∃ π ∈ p.plans, π.part = part ∧ s'.value part = some π.value) ∨
      ((∀ π ∈ p.plans, π.part ≠ part) ∧ s'.value part = s.value part)

theorem main_or_added (π : Plan) : π.isMain = true ∨ ∃ a, π.added = some a := by
  cases π with
  | branchModule b id task state => exact Or.inr ⟨_, rfl⟩
  | branchInstance b id task state => exact Or.inr ⟨_, rfl⟩
  | _ => exact Or.inl rfl

theorem part_ne_branchColumn (π : Plan) (key : RowKey) (column : String) : π.part ≠ .branchColumn key column := by
  cases π <;> simp [Plan.part]

theorem carriedOut_of_written {s : Site} {p : Progress} (hp : p.Loaded s) {bs : Batches} (hbs : bs.added = [])
    {r : Site × Batches} (hr : AppliedAll s bs p.plans r) {added : List Added}
    (hadded : added = r.2.added ++ (touchedRows p).map Entry.added) {s' : Site} (hw : Written added r.1 s') :
    CarriedOut s p s' := by
  -- what is recorded is a plan's state of a branch, or a row's
  have hsource : ∀ a ∈ added, ∀ part v, a.covers part = some v →
      (∃ π ∈ p.plans, π.part = part ∧ v = π.value) ∨ ∃ e ∈ touchedRows p, e.added = a := by
    intro a ha part v hv
    rw [hadded] at ha
    rcases List.mem_append.1 ha with ha | ha
    · rcases hr.added a ha with ha | ⟨hmain, -⟩ | ⟨π, hπ, heq⟩
      · rw [hbs] at ha
        exact (List.not_mem_nil ha).elim
      · rw [covers_main hmain] at hv
        cases hv
      · rw [covers_plan heq] at hv
        split at hv
        · rename_i hpart
          exact Or.inl ⟨π, hπ, hpart.symm, (Option.some.inj hv).symm⟩
        · cases hv
    · obtain ⟨e, he, heq⟩ := List.mem_map.1 ha
      exact Or.inr ⟨e, he, heq⟩
  refine ⟨fun key column => ?_, fun part hpart => ?_⟩
  · rcases hw.value (.branchColumn key column) with ⟨a, ha, v, hv, heq⟩ | ⟨hnone, heq⟩
    · rcases hsource a ha _ v hv with ⟨π, -, hπ, -⟩ | ⟨e, he, rfl⟩
      · exact absurd hπ (part_ne_branchColumn π key column)
      · obtain ⟨column', hpart, rfl⟩ := (covers_row e _).1 hv
        obtain ⟨rfl, rfl⟩ := Part.branchColumn.inj hpart
        rw [heq, Progress.value, Progress.column, ((mem_touchedRows hp).1 he).2]
        rfl
    · have hsame : r.1.value (.branchColumn key column) = s.value (.branchColumn key column) := by
        rcases hr.value (.branchColumn key column) with ⟨π, -, -, hπ, -⟩ | ⟨-, heq⟩
        · exact absurd hπ (part_ne_branchColumn π key column)
        · exact heq
      rw [heq, hsame, Progress.value, Progress.column]
      cases hget : InsertionMap.get p.branchRows key with
      | none =>
        simp only [Site.value, Option.map_map]
        rfl
      | some e =>
        obtain ⟨row, hrow, -, hstate⟩ := hp.row key e hget
        have hkey := hp.key key e hget
        cases ht : e.touched with
        | false =>
          rw [Site.value, hrow, Option.map_some, ← hstate ht]
          rfl
        | true =>
          have hmem : e ∈ touchedRows p := by
            rw [mem_touchedRows hp, ← hkey]
            exact ⟨ht, hget⟩
          have hcovers : e.added.covers (.branchColumn key column) = some (.column (e.state.column column)) :=
            (covers_row e _).2 ⟨column, by rw [hkey], rfl⟩
          have hin : e.added ∈ added := by
            rw [hadded]
            exact List.mem_append_right _ (List.mem_map_of_mem hmem)
          rw [hnone _ hin] at hcovers
          cases hcovers
  · rcases hw.value part with ⟨a, ha, v, hv, heq⟩ | ⟨hnone, heq⟩
    · rcases hsource a ha _ v hv with ⟨π, hπ, hπpart, rfl⟩ | ⟨e, -, rfl⟩
      · exact Or.inl ⟨π, hπ, hπpart, heq⟩
      · obtain ⟨column, hcolumn, -⟩ := (covers_row e _).1 hv
        exact absurd hcolumn (hpart _ _)
    · rcases hr.value part with ⟨π, hπ, -, hπpart, heq'⟩ | ⟨hno, heq'⟩
      · exact Or.inl ⟨π, hπ, hπpart, heq.trans heq'⟩
      · refine Or.inr ⟨fun π hπ hπpart => ?_, heq.trans heq'⟩
        rcases main_or_added π with hmain | ⟨a, ha⟩
        · exact hno π hπ hmain hπpart
        · have hin : a ∈ added := by
            rw [hadded]
            exact List.mem_append_left _ (hr.planned π hπ a ha)
          have hcovers := hnone a hin
          rw [covers_plan ha, if_pos hπpart.symm] at hcovers
          cases hcovers

/-- A revert that is not refused is carried out, or fails at a chat that was closed. -/
theorem revert_eq {s : Site} {changes : List Change} {skip : Bool}
    (h : skip = true ∨ (progress s changes).conflicts = []) : ∃ (r : Site × Batches) (bs : Batches),
      AppliedAll s (progress s changes).batches (progress s changes).plans r ∧ bs.Scoped ∧
      bs.added = r.2.added ++ (touchedRows (progress s changes)).map Entry.added ∧
      revertLinkMigration s changes skip = (bs.emit r.1).map fun emitted => (emitted.1,
        ⟨(progress s changes).plans.length + (touchedRows (progress s changes)).length,
          (progress s changes).conflicts, emitted.2⟩) := by
  have hscoped : (progress s changes).batches.Scoped := by
    intro a ha
    rw [added_progress] at ha
    exact (List.not_mem_nil ha).elim
  obtain ⟨r, hr, hall⟩ := apply_all (fun π hπ => some_of_plan hπ) hscoped
  obtain ⟨hadded, hscoped'⟩ := added_rows (touchedRows (progress s changes)) r.2 hall.batches
  set bs := (touchedRows (progress s changes)).foldl
    (fun bs e => bs.add (some e.branchId) e.task (.pluginRow e.ref e.state)) r.2 with hbs
  refine ⟨r, bs, hall, hscoped', hadded, ?_⟩
  unfold revertLinkMigration
  have hcond : ¬ ((progress s changes).conflicts ≠ [] ∧ skip = false) := by
    rintro ⟨hne, hskip⟩
    rcases h with h | h
    · rw [h] at hskip
      cases hskip
    · exact hne h
  show (if (progress s changes).conflicts ≠ [] ∧ skip = false then _ else _) = _
  rw [if_neg hcond]
  show ((progress s changes).plans.foldlM Plan.apply (s, (progress s changes).batches) >>= _) = _
  rw [hr]
  show (bs.emit r.1 >>= fun emitted => pure (emitted.1, _)) = _
  cases bs.emit r.1 with
  | error e => rfl
  | ok emitted => rfl

theorem revert_carriedOut {s : Site} {changes : List Change} {skip : Bool}
    (h : skip = true ∨ (progress s changes).conflicts = [])
    (hplans : ∀ π ∈ (progress s changes).plans, π.task.bind s.closed = none)
    (hrows : ∀ e ∈ touchedRows (progress s changes), e.task.bind s.closed = none) :
    ∃ s' out, revertLinkMigration s changes skip = .ok (s', out) ∧ out.conflicts = (progress s changes).conflicts ∧
      CarriedOut s (progress s changes) s' := by
  obtain ⟨r, bs, hall, hscoped, hadded, heq⟩ := revert_eq h
  have hopen : ∀ a ∈ bs.added, a.task.bind r.1.closed = none := by
    intro a ha
    rw [hall.closed]
    rw [hadded] at ha
    rcases List.mem_append.1 ha with ha | ha
    · rcases hall.added a ha with ha | ⟨-, htask⟩ | ⟨π, hπ, hπa⟩
      · rw [added_progress] at ha
        exact (List.not_mem_nil ha).elim
      · rw [htask]
        rfl
      · have htask : a.task = π.task := by
          cases π <;> cases hπa <;> rfl
        rw [htask]
        exact hplans π hπ
    · obtain ⟨e, he, rfl⟩ := List.mem_map.1 ha
      exact hrows e he
  obtain ⟨emitted, hemit, hw⟩ := emit_written hscoped hopen
  have hcarried := carriedOut_of_written (progress_loaded s changes) (added_progress s changes) hall hadded hw
  rw [hemit] at heq
  exact ⟨emitted.1, _, heq, rfl, hcarried⟩

theorem revert_error {s : Site} {changes : List Change} {skip : Bool}
    (h : skip = true ∨ (progress s changes).conflicts = [])
    (hclosed : (∃ π ∈ (progress s changes).plans, π.task.bind s.closed ≠ none) ∨
      ∃ e ∈ touchedRows (progress s changes), e.task.bind s.closed ≠ none) :
    ∃ e, revertLinkMigration s changes skip = .error e := by
  obtain ⟨r, bs, hall, hscoped, hadded, heq⟩ := revert_eq h
  obtain ⟨a, ha, hwhat, htask⟩ : ∃ a ∈ bs.added, a.what ≠ .touched ∧ a.task.bind r.1.closed ≠ none := by
    rw [hall.closed, hadded]
    rcases hclosed with ⟨π, hπ, hclosed⟩ | ⟨e, he, hclosed⟩
    · cases π with
      | branchModule b id task state =>
        exact ⟨_, List.mem_append_left _ (hall.planned _ hπ _ rfl), by simp, hclosed⟩
      | branchInstance b id task state =>
        exact ⟨_, List.mem_append_left _ (hall.planned _ hπ _ rfl), by simp, hclosed⟩
      | _ => exact absurd rfl hclosed
    · exact ⟨_, List.mem_append_right _ (List.mem_map_of_mem he), by simp [Entry.added], hclosed⟩
  obtain ⟨e, he⟩ := emit_error hscoped ha hwhat htask
  refine ⟨e, ?_⟩
  rw [heq, he]
  rfl

end CaeloCms.Link.Migration
