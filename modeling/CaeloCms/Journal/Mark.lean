import CaeloCms.Journal.Garbage

/-!
# A mark is fresh only if nothing changed

A cached read notes the snapshot it read under (`JournalMark`); `checkJournalMark` later compares it with the snapshot
of the reader that asks.  Both snapshots may be older than the statement that uses them (a transaction at REPEATABLE
READ), so the checking reader may even be behind the cached read.  `checkJournalMark_fresh` shows that a fresh answer
means that both have seen the same transactions with matching rows, garbage collection between them included.
-/

namespace CaeloCms.Journal

open Mvcc

variable {filter : String → JournalFilter}

/-! ### What a later state keeps -/

theorem TableStep.extends {s u : Tables} (h : TableStep s u) : s.log.Extends u.log := by
  cases h with
  | start => exact s.log.extends_start
  | commit x hx => exact s.log.extends_finish x hx
  | abort x hx => exact s.log.extends_finish x hx
  | deleteOldHorizons x _ hx hu =>
    rw [(deleteOldHorizons_cases hu).1]
    exact TxLog.Extends.refl _
  | _ => exact TxLog.Extends.refl _

theorem Reaches.extends {s u : JournalDb} (h : Reaches filter s u) : s.log.Extends u.log := by
  induction h with
  | refl => exact TxLog.Extends.refl _
  | step _ hu ih => exact ih.trans (step_tables hu).extends

theorem Reaches.reachable {s u : JournalDb} (hs : Reachable filter s) (h : Reaches filter s u) :
    Reachable filter u := by
  induction h with
  | refl => exact hs
  | step _ hu ih => exact Reaches.step ih hu

def SameRow (t u : Tuple Change) : Prop := t.insertedBy = u.insertedBy ∧ t.value = u.value

theorem writeChange_other {x : Nat} {c : Change} {rows : List (Tuple Change)} {t : Tuple Change} (ht : t ∈ rows)
    (hne : t.insertedBy ≠ x) : t ∈ writeChange x c rows := by
  unfold writeChange
  split
  · refine List.mem_map.2 ⟨t, ht, if_neg fun hk => hne ?_⟩
    exact changeKey_fst hk
  · exact List.mem_append_left _ ht

/-- The rows of a transaction that is done stay, and get no company. -/
theorem TableStep.rows {s u : Tables} (h : TableStep s u) :
    (∀ t ∈ s.changes, t.insertedBy ∈ s.log.done → ∃ t' ∈ u.changes, SameRow t' t) ∧
    ∀ t' ∈ u.changes, t'.insertedBy ∈ s.log.done → ∃ t ∈ s.changes, SameRow t' t := by
  cases h with
  | write x c hx =>
    refine ⟨fun t ht hdone => ?_, fun t' ht' hdone => ?_⟩
    · have hne : t.insertedBy ≠ x := fun heq => s.log.disjoint x hx (heq ▸ hdone)
      exact ⟨t, writeChange_other ht hne, rfl, rfl⟩
    · rcases mem_writeChange ht' with ht | ⟨htx, -⟩
      · exact ⟨t', ht, rfl, rfl⟩
      · exact absurd (htx ▸ hdone) (s.log.disjoint x hx)
  | abort x hx =>
    refine ⟨fun t ht hdone => ?_, fun t' ht' _ => ?_⟩
    · exact abortTuples_mem ht fun heq => s.log.disjoint x hx (heq ▸ hdone)
    · obtain ⟨-, -, u, hu, hins, hval, -⟩ := mem_abortTuples ht'
      exact ⟨u, hu, hins, hval⟩
  | delete x removed hx hr =>
    refine ⟨fun t ht _ => ⟨_, List.mem_map_of_mem ht, ?_⟩, fun t' ht' _ => ?_⟩
    · split <;> exact ⟨rfl, rfl⟩
    · obtain ⟨t, ht, rfl⟩ := List.mem_map.1 ht'
      refine ⟨t, ht, ?_⟩
      split <;> exact ⟨rfl, rfl⟩
  | deleteOldHorizons x _ hx hu =>
    rw [(deleteOldHorizons_cases hu).2.1]
    exact ⟨fun t ht _ => ⟨t, ht, rfl, rfl⟩, fun t ht _ => ⟨t, ht, rfl, rfl⟩⟩
  | _ => exact ⟨fun t ht _ => ⟨t, ht, rfl, rfl⟩, fun t ht _ => ⟨t, ht, rfl, rfl⟩⟩

theorem Reaches.rows {s u : JournalDb} (h : Reaches filter s u) :
    (∀ t ∈ s.changes, t.insertedBy ∈ s.log.done → ∃ t' ∈ u.changes, SameRow t' t) ∧
    ∀ t' ∈ u.changes, t'.insertedBy ∈ s.log.done → ∃ t ∈ s.changes, SameRow t' t := by
  induction h with
  | refl => exact ⟨fun t ht _ => ⟨t, ht, rfl, rfl⟩, fun t ht _ => ⟨t, ht, rfl, rfl⟩⟩
  | step hreach hu ih =>
    obtain ⟨hkeep, hold⟩ := (step_tables hu).rows
    have hdone := hreach.extends.done.subset
    refine ⟨fun t ht htd => ?_, fun t' ht' htd => ?_⟩
    · obtain ⟨t₁, ht₁, h₁⟩ := ih.1 t ht htd
      obtain ⟨t₂, ht₂, h₂⟩ := hkeep t₁ ht₁ (hdone (h₁.1 ▸ htd))
      exact ⟨t₂, ht₂, h₂.1.trans h₁.1, h₂.2.trans h₁.2⟩
    · obtain ⟨t₁, ht₁, h₁⟩ := hold t' ht' (hdone htd)
      obtain ⟨t₂, ht₂, h₂⟩ := ih.2 t₁ ht₁ (h₁.1 ▸ htd)
      exact ⟨t₂, ht₂, h₁.1.trans h₂.1, h₁.2.trans h₂.2⟩

/-! ### Readers -/

/-- At `s`, a transaction reads with the snapshot it took at `s₀`.  Its own id, if it has one, is in progress, and it
is no pass of garbage collection. -/
structure Reader (filter : String → JournalFilter) (s₀ s : JournalDb) (v : View) : Prop where
  reachable : Reachable filter s₀
  reaches : Reaches filter s₀ s
  taken : ∃ o, v.snap = s₀.log.snapshot o ∧ (o = none ∨ o = v.own)
  active : ∀ x, v.own = some x → x ∈ s.log.active
  collects_none : ∀ x, v.own = some x → (∀ t ∈ s.changes, t.deletedBy ≠ some x) ∧ ∀ h ∈ s.horizons, h.deletedBy ≠ some x

section Reader

variable {s₀ s : JournalDb} {v : View}

theorem Reader.visible_cases (hv : Reader filter s₀ s v) {x : Nat} (h : v.snap.visible x = true) :
    x ∈ s₀.log.done ∨ v.own = some x := by
  obtain ⟨o, ho, hown⟩ := hv.taken
  rw [ho] at h
  rcases TxLog.snapshot_visible.1 h with hdone | ⟨hox, -, -⟩
  · exact Or.inl hdone
  · rcases hown with rfl | rfl
    · cases hox
    · exact Or.inr hox

theorem Reader.visible_of_done (hv : Reader filter s₀ s v) {x : Nat} (h : x ∈ s₀.log.done) :
    v.snap.visible x = true := by
  obtain ⟨o, ho, -⟩ := hv.taken
  rw [ho]
  exact TxLog.snapshot_visible.2 (Or.inl h)

theorem Reader.own_not_done (hv : Reader filter s₀ s v) {x : Nat} (h : v.own = some x) :
    x ∉ s.log.done :=
  s.log.disjoint x (hv.active x h)

theorem Reader.xmin_le_own (hv : Reader filter s₀ s v) {x : Nat} (h : v.own = some x) :
    v.snap.xmin ≤ x := by
  obtain ⟨o, ho, -⟩ := hv.taken
  rw [ho]
  rcases hv.reaches.extends.active x (hv.active x h) with hact | hle
  · exact TxLog.xmin_le_active hact
  · exact TxLog.xmin_le_next.trans hle

theorem Reader.sees_deletion (hv : Reader filter s₀ s v) {x : Nat} (hsees : v.sees x = true)
    (hx : v.own ≠ some x) : x ∈ s₀.log.done := by
  simp only [View.sees, Bool.or_eq_true] at hsees
  rcases hsees with h | h
  · exact (hv.visible_cases h).resolve_right hx
  · exact absurd (of_decide_eq_true h) hx

end Reader

/-- The committed transactions with matching journal rows that `v` sees at `s`. -/
def seenWriters (s : JournalDb) (v : View) (f : JournalFilter) : Set Nat :=
  {x | x ∈ s.log.done ∧ v.snap.visible x = true ∧ ∃ t ∈ s.changes, t.insertedBy = x ∧ f.filterSql t.value = true}

structure FreshFacts (s : Tables) (r : View) (c : Snapshot) (own : Option Nat) (f : JournalFilter) : Prop where
  xmax : c.xmax ≤ r.snap.xmax
  xip : ∀ x ∈ r.snap.xip, x < c.xmax → c.visible x = false
  rows : ∀ t ∈ s.visibleChanges r, f.filterSql t.value = true → c.visible t.insertedBy = true ∧ own ≠ some t.insertedBy
  horizon : ∀ h ∈ s.visibleHorizons r, h.value < c.xmin

theorem fresh_facts {s : Tables} {r : View} {c : Snapshot} {own : Option Nat} {f : JournalFilter}
    (h : (checkJournalMark s r (some (c, own)) f).fresh = true) : FreshFacts s r c own f := by
  simp only [checkJournalMark, Bool.and_eq_true, decide_eq_true_eq, Bool.not_eq_true'] at h
  obtain ⟨⟨⟨hxmax, hxip⟩, hrows⟩, hlost⟩ := h
  refine ⟨hxmax, fun x hx hlt => ?_, fun t ht hf => ?_, fun h hh => ?_⟩
  · have := List.any_eq_false.1 hxip x hx
    simpa [hlt] using this
  · have hcase : ¬ (c.visible t.insertedBy = false ∨ own = some t.insertedBy) := by
      intro hor
      have hmem : t ∈ unseenRows c own (s.visibleChanges r) := mem_unseenRows.2 ⟨ht, hor⟩
      have hno := List.any_eq_false.1 hrows t hmem
      rcases hor with hv | ho
      · simp [hv, hf] at hno
      · simp [ho, hf] at hno
    rw [not_or] at hcase
    exact ⟨by simpa using hcase.1, hcase.2⟩
  · have := List.any_eq_false.1 hlost h hh
    simpa using this

/-- If the mark of a cached read is later fresh for a reader, both have seen the same committed transactions with
matching rows, and the reader has written no matching row itself. -/
theorem checkJournalMark_fresh {s₁' s₁ s₀ s₂ : JournalDb} {c r : View} (cached : Option (Snapshot × Option Nat))
    {f : JournalFilter} (hc : Reader filter s₁' s₁ c) (hr : Reader filter s₀ s₂ r)
    (h₁₂ : Reaches filter s₁ s₂)
    (hfresh : (checkJournalMark s₂.toTables r (some ((checkJournalMark s₁.toTables c cached f).mark.snapshot,
      (checkJournalMark s₁.toTables c cached f).mark.ownXid)) f).fresh = true) :
    seenWriters s₂ r f = seenWriters s₁ c f ∧
      ∀ t ∈ s₂.changes, r.own = some t.insertedBy → f.filterSql t.value = false := by
  have hfacts : FreshFacts s₂.toTables r c.snap c.own f := fresh_facts hfresh
  have hinv := TablesInv.of_reachable (Reaches.reachable hr.reachable hr.reaches)
  have h₁'₂ := hc.reaches.extends.trans h₁₂.extends
  obtain ⟨hkeep, hold⟩ := h₁₂.rows
  -- what the reader sees undeleted and matching, the cached read's snapshot has seen as done
  have hdone : ∀ x, c.snap.visible x = true → c.own ≠ some x → x ∈ s₁.log.done := fun x hx hne =>
    hc.reaches.extends.done.subset ((hc.visible_cases hx).resolve_right hne)
  constructor
  · ext x
    constructor
    · rintro ⟨hx₂, hrx, t, ht, rfl, hf⟩
      have hcx : c.snap.visible t.insertedBy = true ∧ c.own ≠ some t.insertedBy := by
        by_cases hvis : t.visibleIn r = true
        · exact hfacts.rows t (List.mem_filter.2 ⟨ht, hvis⟩) hf
        · -- deleted before the reader's snapshot: the horizon shows that the row is older than the mark's xmin
          have hsees : r.sees t.insertedBy = true := by simp [View.sees, hrx]
          obtain ⟨g, hg, hgs⟩ : ∃ g, t.deletedBy = some g ∧ r.sees g = true := by
            have hany : t.deletedBy.any r.sees = true := by simpa [Tuple.visibleIn, hsees] using hvis
            cases hd : t.deletedBy with
            | none =>
              rw [hd] at hany
              cases hany
            | some g =>
              rw [hd] at hany
              exact ⟨g, rfl, hany⟩
          have hgd : g ∈ s₀.log.done :=
            hr.sees_deletion hgs fun hown => (hr.collects_none g hown).1 t ht hg
          have hdel : ∀ h ∈ s₂.horizons, ∀ g', h.deletedBy = some g' → r.sees g' = true → g' ∈ s₀.log.done :=
            fun h hh g' hg' hs' => hr.sees_deletion hs' fun hown => (hr.collects_none g' hown).2 h hh hg'
          obtain ⟨h, hh, hle⟩ := exists_visible_horizon hinv hr.reaches.extends.done
            (fun y hy => by simp [View.sees, hr.visible_of_done hy]) hdel ht hg hgd
          have hlt := hfacts.horizon h hh
          refine ⟨Snapshot.visible_of_lt_xmin (by omega), fun hown => ?_⟩
          have := hc.xmin_le_own hown
          omega
      have hx₁ := hdone _ hcx.1 hcx.2
      obtain ⟨t₁, ht₁, hins, hval⟩ := hold t ht hx₁
      exact ⟨hx₁, hcx.1, t₁, ht₁, hins.symm, hval ▸ hf⟩
    · rintro ⟨hx₁, hcx, t, ht, rfl, hf⟩
      have hrx : r.snap.visible t.insertedBy = true := by
        by_contra hn
        have hlt := Snapshot.lt_xmax_of_visible hcx
        have hxmax := hfacts.xmax
        rcases Snapshot.not_visible_iff.1 (Bool.not_eq_true _ ▸ hn) with hle | hxip
        · omega
        · rw [hfacts.xip _ hxip hlt] at hcx
          cases hcx
      obtain ⟨t₂, ht₂, hins, hval⟩ := hkeep t ht hx₁
      exact ⟨h₁₂.extends.done.subset hx₁, hrx, t₂, ht₂, hins, hval ▸ hf⟩
  · intro t ht hown
    by_contra hf
    have hf : f.filterSql t.value = true := by simpa using hf
    have hnotdone := hr.own_not_done hown
    have hvis : t.visibleIn r = true := by
      have hkept : t.deletedBy = none := by
        cases hd : t.deletedBy with
        | none => rfl
        | some g => exact absurd (hinv.deleted t ht g hd).1 hnotdone
      simp [Tuple.visibleIn, hkept, View.sees, hown]
    obtain ⟨hcx, hne⟩ := hfacts.rows t (List.mem_filter.2 ⟨ht, hvis⟩) hf
    exact hnotdone (h₁₂.extends.done.subset (hdone _ hcx hne))

/-- A page changed before the mark was taken. -/
def markedJournal : JournalDb :=
  (run pages JournalDb.empty [.start, .write 0 (pageChange "p"), .commit 0]).get (by decide)

/-- Since then a page list changed, which the mark's filter does not match. -/
def laterJournal : JournalDb :=
  (run pages markedJournal [.start, .write 1 { pageChange "l" with kind := "list" }, .commit 1]).get (by decide)

theorem checkJournalMark_fresh_later :
    seenWriters laterJournal (laterJournal.view none) (pages "c") =
      seenWriters markedJournal (markedJournal.view none) (pages "c") := by
  have hreach : Reachable pages markedJournal := Reaches.run (.refl _) (Option.some_get _).symm
  have hlater : Reaches pages markedJournal laterJournal := Reaches.run (.refl _) (Option.some_get _).symm
  have hc : Reader pages markedJournal markedJournal (markedJournal.view none) :=
    ⟨hreach, .refl _, ⟨none, rfl, Or.inl rfl⟩, nofun, nofun⟩
  have hr : Reader pages laterJournal laterJournal (laterJournal.view none) :=
    ⟨Reaches.reachable hreach hlater, .refl _, ⟨none, rfl, Or.inl rfl⟩, nofun, nofun⟩
  exact (checkJournalMark_fresh none hc hr hlater (by decide)).1

end CaeloCms.Journal
