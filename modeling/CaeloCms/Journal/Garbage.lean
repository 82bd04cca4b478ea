import CaeloCms.Journal.Db

/-!
# Garbage collection never silently loses a change

`TableStep` is what a step can do to the tables.  `TablesInv` keeps, for every deleted row, a horizon of the deleting
pass at or above it, and lets horizons be replaced by larger ones only; so whoever sees that a row was deleted sees a
horizon at or above it (`exists_visible_horizon`), and a cursor that had not seen the row is at or below that horizon.
-/

namespace CaeloCms.Journal

open Mvcc

variable {filter : String → JournalFilter}

/-! ### What a step can do to the tables -/

inductive TableStep (s : Tables) : Tables → Prop
  | same : TableStep s s
  | start : TableStep s { s with log := s.log.start }
  | write (x : Nat) (c : Change) (hx : x ∈ s.log.active) : TableStep s { s with changes := writeChange x c s.changes }
  | commit (x : Nat) (hx : x ∈ s.log.active) : TableStep s { s with log := s.log.finish x hx }
  | abort (x : Nat) (hx : x ∈ s.log.active) : TableStep s
      { log := s.log.finish x hx, changes := abortTuples x s.changes, horizons := abortTuples x s.horizons }
  | delete (x : Nat) (removed : List (Tuple Change)) (hx : x ∈ s.log.active)
      (hr : ∀ t ∈ removed, t.insertedBy ∈ s.log.done) : TableStep s (s.delete x removed)
  | deleteOldHorizons (x : Nat) (u : Tables) (hx : x ∈ s.log.active) (hu : deleteOldHorizons s x = some u) :
      TableStep s u

variable {t : Tuple Change} {x : Nat} {s s' : JournalDb} {rows : List (Tuple Change)} {own : Option Nat}
  {c : Snapshot}

theorem sees_view {s : Tables} (h : (s.view own).sees x = true) :
    x ∈ s.log.done ∨ own = some x := by
  simp only [View.sees, Tables.view, Bool.or_eq_true] at h
  rcases h with h | h
  · exact (TxLog.snapshot_visible.1 h).imp id And.left
  · exact Or.inr (of_decide_eq_true h)

theorem sees_of_done {s : Tables} (h : x ∈ s.log.done) : (s.view own).sees x = true := by
  have hv : (s.log.snapshot own).visible x = true := TxLog.snapshot_visible.2 (Or.inl h)
  simp [View.sees, Tables.view, hv]

theorem victims_done (hx : x ∈ s.log.active) {now retentionMs stalledMs : Int} {batch : Nat}
    (ht : t ∈ victims s x now retentionMs stalledMs batch) : t.insertedBy ∈ s.log.done := by
  have ht := List.mem_filter.1 (Page.mem_ordered.1 (List.mem_of_mem_take ht))
  obtain ⟨hvis, hf⟩ := ht
  have hsees : (s.view (some x)).sees t.insertedBy = true := by
    have := (List.mem_filter.1 hvis).2
    simp only [Tuple.visibleIn, Bool.and_eq_true] at this
    exact this.1
  have hlt : t.insertedBy < (s.view (some x)).snap.xmin := by
    simp only [Bool.and_eq_true, decide_eq_true_eq] at hf
    exact hf.1.1.2
  rcases sees_view hsees with hdone | hown
  · exact hdone
  · have hle : (s.log.snapshot (some x)).xmin ≤ x := TxLog.xmin_le_active hx
    have hxt : x = t.insertedBy := Option.some.inj hown
    have hlt : t.insertedBy < (s.log.snapshot (some x)).xmin := hlt
    omega

theorem commitChanges_tables {batch : ChangeBatch} {holder : Option String}
    (h : commitChanges s batch holder = some s') : s'.toTables = s.toTables := by
  unfold commitChanges at h
  split at h
  · cases h
    rfl
  · cases h

theorem registerConsumer_tables (s : JournalDb) (own : Option Nat) (name : String) :
    (registerConsumer s own name).toTables = s.toTables := by
  unfold registerConsumer
  split <;> rfl

/-- The steps that touch the tables or their transactions. -/
def Action.onTables : Action → Bool
  | .start | .write .. | .commit _ | .abort _ | .deleteVictims .. | .deleteOldHorizons _ => true
  | _ => false

theorem step_tables_eq {a : Action} (ha : a.onTables = false) (h : step filter s a = some s') :
    s'.toTables = s.toTables := by
  cases a with
  | register own name =>
    cases h
    exact registerConsumer_tables s own name
  | load i name =>
    simp only [step] at h
    split at h
    · obtain ⟨state, -, rfl⟩ := Option.map_eq_some_iff.1 h
      rfl
    · cases h
  | read i limit =>
    simp only [step] at h
    split at h
    · split at h <;> cases h <;> rfl
    · cases h
  | handle i =>
    simp only [step] at h
    split at h
    · split at h <;> cases h <;> rfl
    · cases h
  | commitBatch i holder =>
    simp only [step] at h
    split at h
    · cases h
      cases hc : commitChanges s _ holder with
      | none => rfl
      | some u =>
        show u.toTables = s.toTables
        exact commitChanges_tables hc
    · cases h
  | start => cases ha
  | write x c => cases ha
  | commit x => cases ha
  | abort x => cases ha
  | deleteVictims x now retentionMs stalledMs batch => cases ha
  | deleteOldHorizons x => cases ha
  | _ =>
    cases h
    rfl

theorem step_tables {a : Action} (h : step filter s a = some s') :
    TableStep s.toTables s'.toTables := by
  by_cases ha : a.onTables = false
  · rw [step_tables_eq ha h]
    exact .same
  · cases a with
    | start =>
      cases h
      exact .start
    | write x c =>
      simp only [step] at h
      split at h
      · rename_i hx
        cases h
        exact .write x c hx
      · cases h
    | commit x =>
      simp only [step] at h
      split at h
      · rename_i hx
        cases h
        exact .commit x hx
      · cases h
    | abort x =>
      simp only [step] at h
      split at h
      · rename_i hx
        cases h
        exact .abort x hx
      · cases h
    | deleteVictims x now retentionMs stalledMs batch =>
      simp only [step] at h
      split at h
      · rename_i hx
        cases h
        exact .delete x _ hx fun t ht => victims_done hx ht
      · cases h
    | deleteOldHorizons x =>
      simp only [step] at h
      split at h
      · rename_i hx
        obtain ⟨u, hu, rfl⟩ := Option.map_eq_some_iff.1 h
        exact .deleteOldHorizons x u hx hu
      · cases h
    | _ => exact absurd rfl ha

/-! ### Horizons -/

section Horizon

variable {x newest : Nat} {horizons : List (Tuple Nat)}

theorem recordHorizon_keeps {h : Tuple Nat} (hh : h ∈ horizons) :
    ∃ h' ∈ recordHorizon x newest horizons, h'.insertedBy = h.insertedBy ∧ h.value ≤ h'.value := by
  unfold recordHorizon
  split
  · refine ⟨_, List.mem_map_of_mem hh, ?_⟩
    split
    · exact ⟨rfl, Nat.le_max_left _ _⟩
    · exact ⟨rfl, Nat.le_refl _⟩
  · exact ⟨h, List.mem_append_left _ hh, rfl, Nat.le_refl _⟩

theorem recordHorizon_newest :
    ∃ h ∈ recordHorizon x newest horizons, h.insertedBy = x ∧ newest ≤ h.value := by
  unfold recordHorizon
  split
  · rename_i hany
    obtain ⟨h, hh, hx⟩ := List.any_eq_true.1 hany
    simp only [Bool.and_eq_true, decide_eq_true_eq, Option.isNone_iff_eq_none] at hx
    refine ⟨_, List.mem_map_of_mem hh, ?_⟩
    rw [if_pos hx]
    exact ⟨hx.1, Nat.le_max_right _ _⟩
  · exact ⟨_, List.mem_append_right _ (List.mem_singleton_self _), rfl, Nat.le_refl _⟩

theorem mem_of_recordHorizon_deleted {h : Tuple Nat} {g : Nat} (hh : h ∈ recordHorizon x newest horizons)
    (hd : h.deletedBy = some g) : h ∈ horizons := by
  unfold recordHorizon at hh
  split at hh
  · obtain ⟨h', hh', heq⟩ := List.mem_map.1 hh
    by_cases hx : h'.insertedBy = x ∧ h'.deletedBy = none
    · rw [if_pos hx] at heq
      rw [← heq] at hd
      have hd : h'.deletedBy = some g := hd
      rw [hx.2] at hd
      cases hd
    · rw [if_neg hx] at heq
      exact heq ▸ hh'
  · rcases List.mem_append.1 hh with hh | hh
    · exact hh
    · rw [List.mem_singleton.1 hh] at hd
      cases hd

theorem deleteOldHorizons_cases {s u : Tables} (h : deleteOldHorizons s x = some u) :
    u.log = s.log ∧ u.changes = s.changes ∧
      (∀ m ∈ s.horizons, ∃ m' ∈ u.horizons, m'.insertedBy = m.insertedBy ∧ m'.value = m.value) ∧
      ∀ h' ∈ u.horizons, h' ∈ s.horizons ∨ (h'.deletedBy = some x ∧
        ∃ m ∈ s.horizons, h'.value < m.value ∧ (s.view (some x)).sees m.insertedBy = true) := by
  unfold deleteOldHorizons at h
  dsimp only at h
  split at h
  · cases h
    exact ⟨rfl, rfl, fun m hm => ⟨m, hm, rfl, rfl⟩, fun h' hh' => Or.inl hh'⟩
  · rename_i newest hmax
    split at h
    · cases h
    · cases h
      refine ⟨rfl, rfl, fun m hm => ?_, fun h' hh' => ?_⟩
      · refine ⟨_, List.mem_map_of_mem hm, ?_⟩
        split <;> exact ⟨rfl, rfl⟩
      · obtain ⟨m₀, hm₀, rfl⟩ := List.mem_map.1 hh'
        by_cases hlt : m₀ ∈ s.visibleHorizons (s.view (some x)) ∧ m₀.value < newest
        · rw [if_pos hlt]
          obtain ⟨m, hm, hval⟩ := List.mem_map.1 (List.max?_mem hmax)
          obtain ⟨hm, hvis⟩ := List.mem_filter.1 hm
          simp only [Tuple.visibleIn, Bool.and_eq_true] at hvis
          exact Or.inr ⟨rfl, m, hm, by simpa [hval] using hlt.2, hvis.1⟩
        · rw [if_neg hlt]
          exact Or.inl hm₀

end Horizon

/-! ### The invariant of the tables -/

structure TablesInv (s : Tables) : Prop where
  /-- A deleted row is older than its deletion, and below a horizon the same pass recorded. -/
  deleted : ∀ t ∈ s.changes, ∀ g, t.deletedBy = some g → t.insertedBy ∈ s.log.done ∧
    ∃ h ∈ s.horizons, h.insertedBy = g ∧ t.insertedBy ≤ h.value
  superseded : Superseded s.log.done s.horizons
  inserted : ∀ t ∈ s.changes, t.insertedBy ∈ s.log.active ∨ t.insertedBy ∈ s.log.done
  nodup : (s.changes.map changeKey).Nodup

theorem superseded_finish {l : TxLog} (hx : x ∈ l.active) {table : List (Tuple Nat)}
    (h : Superseded l.done table) : Superseded (l.finish x hx).done table := by
  intro t ht g hg
  obtain ⟨m, hm, hlt, hins⟩ := h t ht g hg
  refine ⟨m, hm, hlt, hins.imp id fun ⟨hdone, hprec⟩ => ⟨List.mem_cons_of_mem _ hdone, hprec.cons hdone⟩⟩

theorem superseded_abort {l : TxLog} (hx : x ∈ l.active) {table : List (Tuple Nat)}
    (h : Superseded l.done table) : Superseded (l.finish x hx).done (abortTuples x table) := by
  intro t ht g hg
  obtain ⟨hne, -, u, hu, -, hval, hdel⟩ := mem_abortTuples ht
  have hug : u.deletedBy = some g := by
    rcases hdel with heq | hnone
    · rw [← heq, hg]
    · rw [hnone] at hg
      cases hg
  obtain ⟨m, hm, hlt, hins⟩ := h u hu g hug
  have hmx : m.insertedBy ≠ x := by
    rintro rfl
    rcases hins with heq | ⟨hdone, -⟩
    · exact hne (heq ▸ hg)
    · exact l.disjoint _ hx hdone
  obtain ⟨m', hm', hins', hval'⟩ := abortTuples_mem hm hmx
  refine ⟨m', hm', by omega, ?_⟩
  rw [hins']
  exact hins.imp id fun ⟨hdone, hprec⟩ => ⟨List.mem_cons_of_mem _ hdone, hprec.cons hdone⟩

theorem changeKey_fst {u : Tuple Change} (h : changeKey t = changeKey u) : t.insertedBy = u.insertedBy :=
  congrArg (fun k : RowKey => (ofLex k).1) h

/-- A write changes only rows of its own transaction, and keeps their keys. -/
theorem mem_writeChange {c : Change}
    (ht : t ∈ writeChange x c rows) :
    t ∈ rows ∨ (t.insertedBy = x ∧ (t.deletedBy = none ∨ ∃ u ∈ rows, u.insertedBy = x ∧ t.deletedBy = u.deletedBy)) := by
  unfold writeChange at ht
  split at ht
  · obtain ⟨u, hu, rfl⟩ := List.mem_map.1 ht
    by_cases hk : changeKey u = changeKey ⟨x, none, c⟩
    · rw [if_pos hk]
      have hux : u.insertedBy = x := changeKey_fst hk
      exact Or.inr ⟨hux, Or.inr ⟨u, hu, hux, rfl⟩⟩
    · rw [if_neg hk]
      exact Or.inl hu
  · rcases List.mem_append.1 ht with ht | ht
    · exact Or.inl ht
    · rw [List.mem_singleton.1 ht]
      exact Or.inr ⟨rfl, Or.inl rfl⟩

theorem writeChange_keys {c : Change} (h : (rows.map changeKey).Nodup) :
    ((writeChange x c rows).map changeKey).Nodup := by
  unfold writeChange
  split
  · have hmap : (rows.map fun t => if changeKey t = changeKey ⟨x, none, c⟩ then { t with value := t.value.merge c }
        else t).map changeKey = rows.map changeKey := by
      rw [List.map_map]
      refine List.map_congr_left fun t _ => ?_
      simp only [Function.comp_apply]
      split <;> rfl
    rw [hmap]
    exact h
  · rename_i hnone
    rw [List.map_append, List.nodup_append]
    refine ⟨h, List.nodup_singleton _, ?_⟩
    intro a ha b hb heq
    obtain ⟨t, ht, rfl⟩ := List.mem_map.1 ha
    simp only [List.map_cons, List.map_nil, List.mem_singleton] at hb
    exact hnone (List.any_eq_true.2 ⟨t, ht, by simpa [hb] using heq⟩)

theorem TablesInv.step {s u : Tables} (hs : TablesInv s) (h : TableStep s u) : TablesInv u := by
  cases h with
  | same => exact hs
  | start =>
    refine ⟨hs.deleted, hs.superseded, fun t ht => ?_, hs.nodup⟩
    exact (hs.inserted t ht).imp (List.mem_cons_of_mem _) id
  | write x c hx =>
    refine ⟨fun t ht g hg => ?_, hs.superseded, fun t ht => ?_, writeChange_keys hs.nodup⟩
    · rcases mem_writeChange ht with ht | ⟨-, hnone | ⟨v, hv, hvx, hdel⟩⟩
      · exact hs.deleted t ht g hg
      · rw [hnone] at hg
        cases hg
      · -- a deleted row belongs to a transaction that is done
        have := (hs.deleted v hv g (hdel ▸ hg)).1
        exact absurd (hvx ▸ this) (s.log.disjoint x hx)
    · rcases mem_writeChange ht with ht | ⟨htx, -⟩
      · exact hs.inserted t ht
      · exact Or.inl (htx ▸ hx)
  | commit x hx =>
    refine ⟨fun t ht g hg => ?_, superseded_finish hx hs.superseded, fun t ht => ?_, hs.nodup⟩
    · obtain ⟨hdone, hh⟩ := hs.deleted t ht g hg
      exact ⟨List.mem_cons_of_mem _ hdone, hh⟩
    · by_cases htx : t.insertedBy = x
      · exact Or.inr (htx ▸ List.mem_cons_self ..)
      · refine (hs.inserted t ht).imp (fun ha => List.mem_filter.2 ⟨ha, by simpa using htx⟩) (List.mem_cons_of_mem _)
  | abort x hx =>
    refine ⟨fun t ht g hg => ?_, superseded_abort hx hs.superseded, fun t ht => ?_, ?_⟩
    · obtain ⟨hne, -, u, hu, hins, -, hdel⟩ := mem_abortTuples ht
      have hug : u.deletedBy = some g := by
        rcases hdel with heq | hnone
        · rw [← heq, hg]
        · rw [hnone] at hg
          cases hg
      obtain ⟨hdone, h, hh, hhg, hle⟩ := hs.deleted u hu g hug
      have hgx : h.insertedBy ≠ x := by
        rintro rfl
        exact hne (hhg ▸ hg)
      obtain ⟨h', hh', hins', hval'⟩ := abortTuples_mem hh hgx
      rw [hins]
      exact ⟨List.mem_cons_of_mem _ hdone, h', hh', by rw [hins', hhg], by omega⟩
    · obtain ⟨-, htx, u, hu, hins, -, -⟩ := mem_abortTuples ht
      rw [hins] at htx ⊢
      refine (hs.inserted u hu).imp (fun ha => List.mem_filter.2 ⟨ha, by simpa using htx⟩) (List.mem_cons_of_mem _)
    · have hmap : (abortTuples x s.changes).map changeKey =
          (s.changes.filter fun t => decide (t.insertedBy ≠ x)).map changeKey := by
        unfold abortTuples
        rw [List.map_map]
        refine List.map_congr_left fun t _ => ?_
        simp only [Function.comp_apply]
        split <;> rfl
      rw [hmap]
      exact hs.nodup.sublist (List.filter_sublist.map _)
  | delete x removed hx hr =>
    refine ⟨fun t ht g hg => ?_, ?_, fun t ht => ?_, ?_⟩
    · obtain ⟨u, hu, rfl⟩ := List.mem_map.1 ht
      by_cases hrem : u ∈ removed
      · rw [if_pos hrem] at hg ⊢
        obtain rfl : x = g := Option.some.inj hg
        refine ⟨hr u hrem, ?_⟩
        have hmem : u.insertedBy ∈ removed.map (·.insertedBy) := List.mem_map_of_mem hrem
        cases hmax : (removed.map (·.insertedBy)).max? with
        | none =>
          rw [List.max?_eq_none_iff.1 hmax] at hmem
          cases hmem
        | some newest =>
          obtain ⟨h, hh, hhx, hle⟩ : ∃ h ∈ recordHorizon x newest s.horizons, h.insertedBy = x ∧ newest ≤ h.value :=
            recordHorizon_newest
          have hle' : u.insertedBy ≤ newest := (List.max?_eq_some_iff.1 hmax).2 _ hmem
          refine ⟨h, ?_, hhx, hle'.trans hle⟩
          simp only [Tables.delete, hmax]
          exact hh
      · rw [if_neg hrem] at hg ⊢
        obtain ⟨hdone, h, hh, hhg, hle⟩ := hs.deleted u hu g hg
        refine ⟨hdone, ?_⟩
        simp only [Tables.delete]
        split
        · exact ⟨h, hh, hhg, hle⟩
        · obtain ⟨h', hh', hins', hle'⟩ := recordHorizon_keeps hh
          exact ⟨h', hh', by rw [hins', hhg], hle.trans hle'⟩
    · intro h hh g hg
      simp only [Tables.delete] at hh ⊢
      split at hh
      · exact hs.superseded h hh g hg
      · obtain ⟨m, hm, hlt, hins⟩ := hs.superseded h (mem_of_recordHorizon_deleted hh hg) g hg
        obtain ⟨m', hm', hins', hle'⟩ := recordHorizon_keeps hm
        exact ⟨m', hm', by omega, by rw [hins']; exact hins⟩
    · obtain ⟨u, hu, rfl⟩ := List.mem_map.1 ht
      have hins : (if u ∈ removed then { u with deletedBy := some x } else u).insertedBy = u.insertedBy := by
        split <;> rfl
      rw [hins]
      exact hs.inserted u hu
    · have hmap : (s.changes.map fun t => if t ∈ removed then { t with deletedBy := some x } else t).map changeKey =
          s.changes.map changeKey := by
        rw [List.map_map]
        refine List.map_congr_left fun t _ => ?_
        simp only [Function.comp_apply]
        split <;> rfl
      have hkeys : ((s.delete x removed).changes.map changeKey).Nodup := by
        show ((s.changes.map fun t => if t ∈ removed then { t with deletedBy := some x } else t).map changeKey).Nodup
        rw [hmap]
        exact hs.nodup
      exact hkeys
  | deleteOldHorizons x _ hx hu =>
    obtain ⟨hlog, hchanges, hkeeps, hdeleted⟩ := deleteOldHorizons_cases hu
    refine ⟨?_, ?_, ?_, ?_⟩
    · rw [hlog, hchanges]
      intro t ht g hg
      obtain ⟨hdone, h, hh, hhg, hle⟩ := hs.deleted t ht g hg
      obtain ⟨h', hh', hins', hval'⟩ := hkeeps h hh
      exact ⟨hdone, h', hh', by rw [hins', hhg], by omega⟩
    · rw [hlog]
      intro h hh g hg
      rcases hdeleted h hh with hold | ⟨hdel, m, hm, hlt, hsees⟩
      · obtain ⟨m, hm, hlt, hins⟩ := hs.superseded h hold g hg
        obtain ⟨m', hm', hins', hval'⟩ := hkeeps m hm
        exact ⟨m', hm', by omega, by rw [hins']; exact hins⟩
      · obtain rfl : x = g := by
          rw [hdel] at hg
          exact Option.some.inj hg
        obtain ⟨m', hm', hins', hval'⟩ := hkeeps m hm
        refine ⟨m', hm', by omega, ?_⟩
        rw [hins']
        rcases sees_view hsees with hdone | hown
        · exact Or.inr ⟨hdone, precedes_of_not_done (s.log.disjoint x hx)⟩
        · exact Or.inl (Option.some.inj hown).symm
    · rw [hlog, hchanges]
      exact hs.inserted
    · rw [hchanges]
      exact hs.nodup

theorem Reaches.run {s₀ : JournalDb} {as : List Action} (hs : Reaches filter s₀ s)
    (h : run filter s as = some s') : Reaches filter s₀ s' := by
  induction as generalizing s with
  | nil =>
    have heq : s = s' := by simpa [Journal.run] using h
    exact heq ▸ hs
  | cons a as ih =>
    obtain ⟨u, hu, hrun⟩ := Option.bind_eq_some_iff.1 h
    exact ih (.step hs hu) hrun

theorem TablesInv.of_reachable (hs : Reachable filter s) : TablesInv s.toTables := by
  unfold Reachable at hs
  induction hs with
  | refl =>
    exact ⟨fun t ht => (List.not_mem_nil ht).elim, fun t ht => (List.not_mem_nil ht).elim,
      fun t ht => (List.not_mem_nil ht).elim, List.nodup_nil⟩
  | step _ hu ih => exact ih.step (step_tables hu)

/-! ### Who sees a deletion sees a horizon -/

/-- `v` sees the transactions of `d`, where `d` is what was done at some moment, and no other deletions. -/
theorem exists_visible_horizon {s : Tables} (hs : TablesInv s) {v : View} {d : List Nat} (hd : d <:+ s.log.done)
    (hsees : ∀ x ∈ d, v.sees x = true)
    (hdel : ∀ h ∈ s.horizons, ∀ g, h.deletedBy = some g → v.sees g = true → g ∈ d)
    (ht : t ∈ s.changes) {g : Nat} (hg : t.deletedBy = some g) (hgd : g ∈ d) :
    ∃ h ∈ s.visibleHorizons v, t.insertedBy ≤ h.value := by
  obtain ⟨-, h, hh, hhg, hle⟩ := hs.deleted t ht g hg
  obtain ⟨m, hm, hle', hins, hnot⟩ := hs.superseded.exists_visible hd hh (hhg ▸ hgd)
  refine ⟨m, List.mem_filter.2 ⟨hm, ?_⟩, hle.trans hle'⟩
  have hkept : m.deletedBy.any v.sees = false := by
    cases hmd : m.deletedBy with
    | none => rfl
    | some g' =>
      by_contra hsg
      exact hnot g' hmd (hdel m hm g' hmd (by simpa using hsg))
  simp [Tuple.visibleIn, hsees _ hins, hkept]

/-- A read whose cursor had not seen a row that is deleted now is told that rows were lost. -/
theorem lost_of_deleted {s : Tables} (hs : TablesInv s) (ht : t ∈ s.changes)
    (hc : c.visible t.insertedBy = false) {g : Nat} (hg : t.deletedBy = some g) (hgd : g ∈ s.log.done) :
    s.lost (s.view none) c = true := by
  have hdel : ∀ h ∈ s.horizons, ∀ g', h.deletedBy = some g' → (s.view none).sees g' = true → g' ∈ s.log.done := by
    intro h _ g' _ hsees
    exact (sees_view hsees).resolve_right nofun
  obtain ⟨h, hh, hle⟩ := exists_visible_horizon hs (List.suffix_refl _) (fun x hx => sees_of_done hx) hdel ht hg hgd
  refine List.any_eq_true.2 ⟨h, hh, ?_⟩
  have := Snapshot.xmin_le_of_not_visible hc
  simp only [decide_eq_true_eq]
  omega

/-- A row that a read is not told about as lost, and that is done, is one the read sees. -/
theorem mem_visibleChanges {s : Tables} (hs : TablesInv s) (ht : t ∈ s.changes)
    (hc : c.visible t.insertedBy = false) (hdone : t.insertedBy ∈ s.log.done) (hlost : s.lost (s.view none) c = false) :
    t ∈ s.visibleChanges (s.view none) := by
  refine List.mem_filter.2 ⟨ht, ?_⟩
  have hkept : t.deletedBy.any (s.view none).sees = false := by
    cases hd : t.deletedBy with
    | none => rfl
    | some g =>
      by_contra hsees
      have hsees' : (s.view none).sees g = true := by simpa using hsees
      have hgd : g ∈ s.log.done := (sees_view hsees').resolve_right nofun
      rw [lost_of_deleted hs ht hc hd hgd] at hlost
      cases hlost
  simp [Tuple.visibleIn, sees_of_done hdone, hkept]

/-! ### Polls -/

theorem mem_unseenRows :
    t ∈ unseenRows c own rows ↔ t ∈ rows ∧ (c.visible t.insertedBy = false ∨ own = some t.insertedBy) := by
  simp only [unseenRows, List.mem_filter, Bool.or_eq_true, decide_eq_true_eq, Snapshot.not_visible_iff]

theorem mem_pageRows {cursor target : Snapshot} {after : Option RowKey}
    {f : JournalFilter} :
    t ∈ pageRows rows cursor target after f ↔ t ∈ rows ∧ cursor.visible t.insertedBy = false ∧
      target.visible t.insertedBy = true ∧ (∀ a, after = some a → a < changeKey t) ∧ f.filterSql t.value = true := by
  have hafter : (after.map fun a => decide (a < changeKey t)).getD true = true ↔
      ∀ a, after = some a → a < changeKey t := by
    cases after <;> simp
  unfold pageRows
  simp only [List.mem_filter, mem_unseenRows, Bool.and_eq_true, Bool.not_eq_true', hafter]
  constructor
  · rintro ⟨⟨ht, -⟩, ⟨⟨hc, htv⟩, ha⟩, hf⟩
    exact ⟨ht, hc, htv, ha, hf⟩
  · rintro ⟨ht, hc, htv, ha, hf⟩
    exact ⟨⟨ht, Or.inl hc⟩, ⟨⟨hc, htv⟩, ha⟩, hf⟩

def ConsumerState.readTarget (state : ConsumerState) (s : Tables) : Snapshot := state.target.getD (s.log.snapshot none)

/-- The row of a transaction that is done lies between the cursor and the target of the read, after its position. -/
structure InWindow (s : Tables) (state : ConsumerState) (f : JournalFilter) (t : Tuple Change) : Prop where
  mem : t ∈ s.changes
  done : t.insertedBy ∈ s.log.done
  unseen : state.cursor.visible t.insertedBy = false
  target : (state.readTarget s).visible t.insertedBy = true
  after : ∀ a, state.after = some a → a < changeKey t
  matches_ : f.filterSql t.value = true

/-- A read that reports no loss returns everything in its window, up to its last row if there is more. -/
theorem readChanges_complete {s : Tables} (hs : TablesInv s) {state : ConsumerState} {f : JournalFilter}
    {limit : Nat} (hr : (readChanges s state f limit).needsRebuild = false)
    (ht : InWindow s state f t) :
    ((readChanges s state f limit).more = false → t ∈ (readChanges s state f limit).changes) ∧
      ∀ b, (readChanges s state f limit).changes.getLast? = some b → changeKey t ≤ changeKey b →
        changeKey t ∈ (readChanges s state f limit).changes.map changeKey := by
  unfold readChanges at hr ⊢
  dsimp only at hr ⊢
  by_cases hlost : s.lost (s.view none) state.cursor = true
  · rw [if_pos hlost] at hr
    cases hr
  · rw [if_neg hlost]
    have hmem : t ∈ pageRows (s.visibleChanges (s.view none)) state.cursor (state.target.getD (s.view none).snap)
        state.after f := by
      refine mem_pageRows.2 ⟨mem_visibleChanges hs ht.mem ht.unseen ht.done (by simpa using hlost), ht.unseen, ?_,
        ht.after, ht.matches_⟩
      exact ht.target
    refine ⟨fun hm => Page.mem_page_of_not_more hm hmem, fun b hb hle => ?_⟩
    exact Page.key_mem_page_of_le hmem (List.mem_of_getLast? hb) hle

theorem read_step {i limit : Nat} {name : String} {state : ConsumerState} {batch : ChangeBatch}
    (hl : s.instances i = .loaded name state) (h : step filter s (.read i limit) = some s')
    (hb : s'.instances i = .polled name batch) :
    batch = pollChanges name state (readChanges s.toTables state (filter name) limit) := by
  simp only [step, hl] at h
  split at h
  · cases h
    simp [JournalDb.setInstance] at hb
  · cases h
    simpa [JournalDb.setInstance] using hb.symm

/-- What a pass deletes lies below the cursor of every consumer that is not stalled. -/
theorem visible_of_victim {now retentionMs stalledMs : Int} {batch : Nat}
    (ht : t ∈ victims s x now retentionMs stalledMs batch) {k : Consumer} (hk : k ∈ s.consumers)
    (hst : stalled (s.visibleChanges (s.view (some x))) now stalledMs k = false) :
    k.cursor.visible t.insertedBy = true := by
  have hf := (List.mem_filter.1 (Page.mem_ordered.1 (List.mem_of_mem_take ht))).2
  simp only [Bool.and_eq_true] at hf
  have hheld := hf.1.2
  have hmem : k.cursor.xmin ∈ ((s.consumers.filter fun k =>
      !stalled (s.visibleChanges (s.view (some x))) now stalledMs k).map (·.cursor.xmin)) :=
    List.mem_map.2 ⟨k, List.mem_filter.2 ⟨hk, by rw [hst]; rfl⟩, rfl⟩
  unfold held at hheld
  cases hmin : ((s.consumers.filter fun k =>
      !stalled (s.visibleChanges (s.view (some x))) now stalledMs k).map (·.cursor.xmin)).min? with
  | none =>
    rw [List.min?_eq_none_iff.1 hmin] at hmem
    cases hmem
  | some h =>
    rw [hmin] at hheld
    have hlt : t.insertedBy < h := by simpa using hheld
    have hle : h ≤ k.cursor.xmin := (List.min?_eq_some_iff.1 hmin).2 _ hmem
    exact Snapshot.visible_of_lt_xmin (by omega)

/-- No step deletes a row that a consumer which is not stalled has not consumed; a poll whose cursor had not seen a
row that is deleted by then reports that a rebuild is needed, and one that does not report it returns every row
between its cursor and its target, page by page. -/
theorem journalGarbage_never_loses {s : JournalDb} (hs : Reachable filter s) :
    (∀ a s', step filter s a = some s' → ∀ t ∈ s'.changes, ∀ x, t.deletedBy = some x → t ∉ s.changes →
      ∃ now retentionMs stalledMs batch, a = .deleteVictims x now retentionMs stalledMs batch ∧
        ∀ k ∈ s.consumers, stalled (s.visibleChanges (s.view (some x))) now stalledMs k = false →
          k.cursor.visible t.insertedBy = true) ∧
    ∀ i name state limit s' batch, s.instances i = .loaded name state → step filter s (.read i limit) = some s' →
      s'.instances i = .polled name batch →
        ((∃ t ∈ s.changes, state.cursor.visible t.insertedBy = false ∧ ∃ g ∈ s.log.done, t.deletedBy = some g) →
          batch.needsRebuild = true) ∧
        (batch.needsRebuild = false → ∀ t, InWindow s.toTables state (filter name) t →
          (batch.more = false → t ∈ batch.changes) ∧
          ∀ b, batch.changes.getLast? = some b → changeKey t ≤ changeKey b →
            changeKey t ∈ batch.changes.map changeKey) := by
  have hinv := TablesInv.of_reachable hs
  constructor
  · intro a s' h t ht x hx hnew
    by_cases ha : a.onTables = false
    · have heq : s'.changes = s.changes := congrArg Tables.changes (step_tables_eq ha h)
      exact absurd (heq ▸ ht) hnew
    · cases a with
      | deleteVictims y now retentionMs stalledMs batch =>
        simp only [step] at h
        split at h
        · rename_i hy
          cases h
          obtain ⟨u, hu, rfl⟩ := List.mem_map.1 ht
          by_cases hrem : u ∈ victims s y now retentionMs stalledMs batch
          · rw [if_pos hrem] at hx
            obtain rfl : y = x := Option.some.inj hx
            refine ⟨now, retentionMs, stalledMs, batch, rfl, fun k hk hst => ?_⟩
            rw [if_pos hrem]
            exact visible_of_victim hrem hk hst
          · rw [if_neg hrem] at hnew
            exact absurd hu hnew
        · cases h
      | write y c =>
        simp only [step] at h
        split at h
        · rename_i hy
          cases h
          rcases mem_writeChange ht with ht | ⟨-, hnone | ⟨u, hu, huy, hdel⟩⟩
          · exact absurd ht hnew
          · rw [hnone] at hx
            cases hx
          · have hdone := (hinv.deleted u hu x (hdel ▸ hx)).1
            exact absurd (huy ▸ hdone) (s.log.disjoint y hy)
        · cases h
      | abort y =>
        simp only [step] at h
        split at h
        · cases h
          obtain ⟨u, hu, heq⟩ := List.mem_map.1 ht
          by_cases hud : u.deletedBy = some y
          · rw [if_pos hud] at heq
            rw [← heq] at hx
            cases hx
          · rw [if_neg hud] at heq
            exact absurd (heq ▸ (List.mem_filter.1 hu).1) hnew
        · cases h
      | deleteOldHorizons y =>
        simp only [step] at h
        split at h
        · obtain ⟨u, hu, rfl⟩ := Option.map_eq_some_iff.1 h
          have heq : u.changes = s.changes := (deleteOldHorizons_cases hu).2.1
          exact absurd (heq ▸ ht) hnew
        · cases h
      | start =>
        cases h
        exact absurd ht hnew
      | commit y =>
        simp only [step] at h
        split at h
        · cases h
          exact absurd ht hnew
        · cases h
      | _ => exact absurd rfl ha
  · intro i name state limit s' batch hl h hb
    rw [read_step hl h hb]
    constructor
    · rintro ⟨t, ht, hc, g, hgd, hg⟩
      have hlost := lost_of_deleted hinv ht hc hg hgd
      simp [pollChanges, readChanges, hlost]
    · intro hr t ht
      exact readChanges_complete hinv hr ht

def pages : String → JournalFilter := fun _ => { kinds := ["page"] }

def pageChange (rowId : String) : Change := { table := "pages", rowId := rowId, kind := "page", op := .update }

/-- The consumer `c` was registered, a page changed, and a pass that counts the consumer as stalled deleted the row. -/
def lostJournal : JournalDb := (run pages JournalDb.empty [.register none "c", .start, .write 0 (pageChange "p"),
  .commit 0, .start, .deleteVictims 1 10 0 0 100, .commit 1, .load 0 "c"]).get (by decide)

def lostState : ConsumerState := ⟨TxLog.initial.snapshot none, none, none⟩

/-- Its next poll reports that a rebuild is needed. -/
theorem journalGarbage_never_loses_stalled :
    (pollChanges "c" lostState (readChanges lostJournal.toTables lostState (pages "c") 5)).needsRebuild = true := by
  have hreach : Reachable pages lostJournal := Reaches.run (.refl _) (Option.some_get _).symm
  refine ((journalGarbage_never_loses hreach).2 0 "c" lostState 5 _ _ rfl rfl rfl).1 ?_
  exact ⟨⟨0, some 1, pageChange "p"⟩, by decide, by decide, 1, by decide, rfl⟩

end CaeloCms.Journal
