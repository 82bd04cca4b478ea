import CaeloCms.Journal.Drain

/-!
# Plugin change consumers across rebuilds and takeovers

Below a consumer's position, a change that its last begin had not seen is in a handled batch; the others are the debt of a
rebuild (`RebuildInv`).  A finish settles it as long as no begin came between its rebuild's first read and it, and a begin moves
the cursor of its own claim as long as nobody has taken the claim over: the two checks the code does not make (`Timely`,
`drainOne_loses_nothing`).
-/

namespace CaeloCms.Journal

open Mvcc

variable {fl : Fleet} {filter : String → JournalFilter}

/-! ### What the operations do to the rows of the consumers -/

structure RowKept (k k' : Consumer) : Prop where
  name : k'.name = k.name
  since : k'.since = k.since
  pending : k'.rebuildPending = k.rebuildPending
  state : k'.state = k.state

def KeptRows (s u : JournalDb) : Prop := ∀ k' ∈ u.consumers, ∃ k ∈ s.consumers, RowKept k k'

theorem RowKept.refl (k : Consumer) : RowKept k k := ⟨rfl, rfl, rfl, rfl⟩

theorem KeptRows.refl (s : JournalDb) : KeptRows s s := fun k hk => ⟨k, hk, RowKept.refl k⟩

variable {s s' : Drains} {k' k : Consumer} {a : DrainAction} {u : JournalDb} {d : Drain} {i : Nat}

theorem mem_setConsumer_iff {s : JournalDb} {name : String} {g : Consumer → Consumer} :
    k' ∈ (s.setConsumer name g).consumers ↔ ∃ k ∈ s.consumers, (if k.name = name then g k else k) = k' := List.mem_map

theorem KeptRows.setConsumer {s : JournalDb} {name : String} {g : Consumer → Consumer} (hg : ∀ k, RowKept k (g k)) :
    KeptRows s (s.setConsumer name g) := by
  intro k' hk'
  obtain ⟨k, hk, rfl⟩ := mem_setConsumer_iff.1 hk'
  refine ⟨k, hk, ?_⟩
  by_cases hname : k.name = name
  · rw [if_pos hname]
    exact hg k
  · rw [if_neg hname]
    exact RowKept.refl k

theorem claimConsumer_rows (s : JournalDb) (name holder : String) (leaseMs : Int) :
    KeptRows s (claimConsumer s name holder leaseMs) := by
  refine KeptRows.setConsumer fun k => ?_
  split <;> exact ⟨rfl, rfl, rfl, rfl⟩

theorem releaseConsumer_rows (s : JournalDb) (name holder : String) : KeptRows s (releaseConsumer s name holder) := by
  refine KeptRows.setConsumer fun k => ?_
  split <;> exact ⟨rfl, rfl, rfl, rfl⟩

theorem tryClaim_rows (db : JournalDb) (i : Nat) (skipped : Bool) : KeptRows db (tryClaim fl db i skipped).1 := by
  unfold tryClaim
  cases skipped with
  | true => exact KeptRows.refl db
  | false => exact claimConsumer_rows db _ _ _

theorem tryClaim_reaches (db : JournalDb) (i : Nat) (skipped : Bool) : Reaches filter db (tryClaim fl db i skipped).1 := by
  unfold tryClaim
  cases skipped with
  | true => exact .refl db
  | false => exact .step (a := .claim (fl.consumer i) (fl.holder i) fl.claimMs) (.refl db) rfl

/-- The reads of a poll and the end of its dispatches, the clock, the writers and garbage collection. -/
theorem step_rows {s s' : JournalDb} {a : Action}
    (ha : a.ofCore = true ∨ (∃ i name, a = .load i name) ∨ (∃ i limit, a = .read i limit) ∨ ∃ i, a = .handle i)
    (h : step filter s a = some s') : KeptRows s s' := by
  have hsame : s'.consumers = s.consumers → KeptRows s s' := by
    intro heq k hk
    rw [heq] at hk
    exact ⟨k, hk, RowKept.refl k⟩
  rcases ha with ha | ⟨i, name, rfl⟩ | ⟨i, limit, rfl⟩ | ⟨i, rfl⟩
  · cases a with
    | tick ms =>
      cases h
      exact hsame rfl
    | start =>
      cases h
      exact hsame rfl
    | write x c =>
      simp only [Journal.step] at h
      split at h
      · cases h
        exact hsame rfl
      · cases h
    | commit x =>
      simp only [Journal.step] at h
      split at h
      · cases h
        exact hsame rfl
      · cases h
    | abort x =>
      simp only [Journal.step] at h
      split at h
      · cases h
        exact hsame rfl
      · cases h
    | deleteVictims x now retentionMs stalledMs batch =>
      simp only [Journal.step] at h
      split at h
      · cases h
        exact hsame rfl
      · cases h
    | deleteOldHorizons x =>
      simp only [Journal.step] at h
      split at h
      · obtain ⟨u, -, rfl⟩ := Option.map_eq_some_iff.1 h
        exact hsame rfl
      · cases h
    | register own name => cases ha
    | claim name holder leaseMs => cases ha
    | release name holder => cases ha
    | load i name => cases ha
    | read i limit => cases ha
    | handle i => cases ha
    | commitBatch i holder => cases ha
    | crash i => cases ha
    | beginRebuild own name => cases ha
    | finishRebuild name holder => cases ha
  · simp only [Journal.step] at h
    split at h
    · obtain ⟨state, -, rfl⟩ := Option.map_eq_some_iff.1 h
      exact hsame rfl
    · cases h
  · simp only [Journal.step] at h
    split at h
    · split at h
      · cases h
        exact hsame rfl
      · cases h
        exact hsame rfl
    · cases h
  · simp only [Journal.step] at h
    split at h
    · rename_i name batch _
      split at h
      · cases h
        exact hsame rfl
      · cases h
        have hrows : KeptRows s (s.setConsumer name fun k => { k with handled := k.handled ++ batch.changes.map changeKey }) :=
          KeptRows.setConsumer fun k => ⟨rfl, rfl, rfl, rfl⟩
        exact hrows
    · cases h

/-! ### What a step of a drain does -/

inductive RowStep (fl : Fleet) (s : Drains) (a : DrainAction) (k' : Consumer) : Prop
  | fresh (hnew : ∀ k ∈ s.db.consumers, k.name ≠ k'.name) (hpending : k'.rebuildPending = true)
      (hsince : k'.since = s.db.log.snapshot none)
  | kept (k : Consumer) (hk : k ∈ s.db.consumers) (h : RowKept k k')
  | begun (i : Nat) (k : Consumer) (ha : a = .beginRebuild i) (hk : k ∈ s.db.consumers) (hconsumer : k.name = fl.consumer i)
      (hname : k'.name = k.name) (hpending : k'.rebuildPending = true) (hsince : k'.since = s.db.log.snapshot none)
  | finished (i left : Nat) (r : Rebuild) (k : Consumer) (ha : a = .finishRebuild i) (hdrain : s.drains i = .rebuilt left r)
      (hk : k ∈ s.db.consumers) (hconsumer : k.name = fl.consumer i)
      (hheld : claimHeld k (some (fl.holder i)) s.db.clock = true) (hname : k'.name = k.name) (hsince : k'.since = k.since)
  | committed (i : Nat) (k : Consumer) (ha : a = .commit i) (hk : k ∈ s.db.consumers)
      (hheld : claimHeld k (some (fl.holder i)) s.db.clock = true) (hname : k'.name = k.name) (hsince : k'.since = k.since)
      (hpending : k'.rebuildPending = k.rebuildPending)

theorem KeptRows.rowStep (h : KeptRows s.db u)
    (hk' : k' ∈ u.consumers) : RowStep fl s a k' := by
  obtain ⟨k, hk, hkept⟩ := h k' hk'
  exact .kept k hk hkept

theorem RowKept.trans {k'' : Consumer} (h : RowKept k k') (h' : RowKept k' k'') : RowKept k k'' :=
  ⟨h'.name.trans h.name, h'.since.trans h.since, h'.pending.trans h.pending, h'.state.trans h.state⟩

/-- The claim given back in the same transaction changes nothing about it. -/
theorem RowStep.then {k'' : Consumer} (h : RowStep fl s a k') (hkept : RowKept k' k'') :
    RowStep fl s a k'' := by
  cases h with
  | fresh hnew hpending hsince =>
    refine .fresh (fun k hk => ?_) (hkept.pending.trans hpending) (hkept.since.trans hsince)
    rw [hkept.name]
    exact hnew k hk
  | kept k hk h => exact .kept k hk (h.trans hkept)
  | begun i k ha hk hconsumer hname hpending hsince =>
    exact .begun i k ha hk hconsumer (hkept.name.trans hname) (hkept.pending.trans hpending) (hkept.since.trans hsince)
  | finished i left r k ha hdrain hk hconsumer hheld hname hsince =>
    exact .finished i left r k ha hdrain hk hconsumer hheld (hkept.name.trans hname) (hkept.since.trans hsince)
  | committed i k ha hk hheld hname hsince hpending =>
    exact .committed i k ha hk hheld (hkept.name.trans hname) (hkept.since.trans hsince) (hkept.pending.trans hpending)

theorem claim_rowStep (i : Nat) (skipped : Bool)
    (hk' : k' ∈ (tryClaim fl (registerConsumer s.db none (fl.consumer i)) i skipped).1.consumers) : RowStep fl s a k' := by
  obtain ⟨k, hk, hkept⟩ := tryClaim_rows _ i skipped k' hk'
  unfold registerConsumer at hk
  split at hk
  · exact .kept k hk hkept
  · rename_i hnone
    rcases List.mem_append.1 hk with hk | hk
    · exact .kept k hk hkept
    · have heq := List.mem_singleton.1 hk
      rw [heq] at hkept
      refine .fresh (fun k₀ hk₀ hname => hnone ?_) hkept.pending hkept.since
      rw [hkept.name] at hname
      exact List.find?_isSome.2 ⟨k₀, hk₀, by simpa using hname⟩

theorem commit_rowStep {batch : ChangeBatch}
    (hu : commitChanges s.db batch (some (fl.holder i)) = some u) (hk' : k' ∈ u.consumers) :
    RowStep fl s (.commit i) k' := by
  unfold commitChanges at hu
  split at hu
  · cases hu
    obtain ⟨k, hk, rfl⟩ := mem_setConsumer_iff.1 hk'
    split
    · split
      · rename_i _ hmatch
        exact .committed i k rfl hk (commitMatches_iff.1 hmatch).2.2 rfl rfl rfl
      · exact .kept k hk (RowKept.refl k)
    · exact .kept k hk (RowKept.refl k)
  · cases hu

theorem drainStep_rows (h : drainStep fl filter s a = some s')
    (hk' : k' ∈ s'.db.consumers) : RowStep fl s a k' := by
  cases a with
  | claim i skipped =>
    simp only [drainStep] at h
    split at h
    · split at h
      · cases h
        exact claim_rowStep i skipped hk'
      · cases h
        exact claim_rowStep i skipped hk'
    · cases h
  | renew i skipped =>
    cases h
    exact (tryClaim_rows s.db i skipped).rowStep hk'
  | startRebuild i =>
    simp only [drainStep] at h
    split at h
    · obtain ⟨k, _, rfl⟩ := Option.map_eq_some_iff.1 h
      exact (KeptRows.refl s.db).rowStep hk'
    · cases h
  | endRebuild i ok =>
    simp only [drainStep] at h
    split at h
    · split at h
      · cases h
        exact (KeptRows.refl s.db).rowStep hk'
      · cases h
        exact (KeptRows.refl s.db).rowStep hk'
    · cases h
  | finishRebuild i =>
    simp only [drainStep] at h
    split at h
    · rename_i left r hdrain
      split at h
      · cases h
        obtain ⟨k, hk, rfl⟩ := mem_setConsumer_iff.1 hk'
        by_cases hname : k.name = fl.consumer i
        · rw [if_pos hname]
          by_cases hheld : claimHeld k (some (fl.holder i)) s.db.clock = true
          · rw [if_pos hheld]
            exact .finished i left r k rfl hdrain hk hname hheld rfl rfl
          · rw [if_neg hheld]
            exact .kept k hk (RowKept.refl k)
        · rw [if_neg hname]
          exact .kept k hk (RowKept.refl k)
      · cases h
        exact (KeptRows.refl s.db).rowStep hk'
    · cases h
  | load i =>
    simp only [drainStep] at h
    split at h
    · obtain ⟨db, hdb, rfl⟩ := Option.map_eq_some_iff.1 h
      exact (step_rows (Or.inr (Or.inl ⟨i, _, rfl⟩)) hdb).rowStep hk'
    · cases h
  | read i =>
    simp only [drainStep] at h
    split at h
    · obtain ⟨db, hdb, h⟩ := Option.bind_eq_some_iff.1 h
      have hrows := step_rows (Or.inr (Or.inr (Or.inl ⟨i, _, rfl⟩))) hdb
      split at h
      · split at h
        · cases h
          exact hrows.rowStep hk'
        · cases h
          exact hrows.rowStep hk'
      · cases h
        exact hrows.rowStep hk'
    · cases h
  | beginRebuild i =>
    simp only [drainStep] at h
    split at h
    · cases h
      obtain ⟨k, hk, rfl⟩ := mem_setConsumer_iff.1 hk'
      by_cases hname : k.name = fl.consumer i
      · rw [if_pos hname]
        exact .begun i k rfl hk hname rfl rfl rfl
      · rw [if_neg hname]
        exact .kept k hk (RowKept.refl k)
    · cases h
  | dispatch i ok =>
    simp only [drainStep] at h
    split at h
    · split at h
      · cases h
        exact (KeptRows.refl s.db).rowStep hk'
      · cases h
        exact (KeptRows.refl s.db).rowStep hk'
    · cases h
  | dispatched i =>
    simp only [drainStep] at h
    split at h
    · obtain ⟨db, hdb, rfl⟩ := Option.map_eq_some_iff.1 h
      exact (step_rows (Or.inr (Or.inr (Or.inr ⟨i, rfl⟩))) hdb).rowStep hk'
    · cases h
  | commit i =>
    simp only [drainStep] at h
    split at h
    · split at h
      · cases h
        exact (KeptRows.refl s.db).rowStep hk'
      · rename_i hcommit
        split at h
        · cases h
          obtain ⟨k₁, hk₁, hkept⟩ := releaseConsumer_rows _ _ _ k' hk'
          exact (commit_rowStep hcommit hk₁).then hkept
        · cases h
          exact commit_rowStep hcommit hk'
    · cases h
  | fail i =>
    simp only [drainStep] at h
    split at h
    · cases h
    · cases h
      exact (KeptRows.refl s.db).rowStep hk'
  | release i =>
    simp only [drainStep] at h
    split at h
    · cases h
      exact (releaseConsumer_rows s.db _ _).rowStep hk'
    · cases h
  | crash i =>
    cases h
    exact (KeptRows.refl s.db).rowStep hk'
  | core a =>
    simp only [drainStep] at h
    split at h
    · rename_i ha
      obtain ⟨db, hdb, rfl⟩ := Option.map_eq_some_iff.1 h
      exact (step_rows (Or.inl ha) hdb).rowStep hk'
    · cases h

theorem Reaches.trans {s t : JournalDb} (h : Reaches filter s t) (h' : Reaches filter t u) : Reaches filter s u := by
  induction h' with
  | refl => exact h
  | step _ hu ih => exact .step ih hu

theorem drainStep_reaches (h : drainStep fl filter s a = some s') :
    Reaches filter s.db s'.db := by
  have hone : ∀ {db db' : JournalDb} (a : Action), step filter db a = some db' → Reaches filter db db' :=
    fun a hstep => .step (.refl _) hstep
  have hidle : ∀ {db db' : JournalDb} (i : Nat), Reaches filter db db' → Reaches filter db (db'.setInstance i .idle) := by
    intro db db' i hreach
    have hcrash : step filter db' (.crash i) = some (db'.setInstance i .idle) := rfl
    exact .step hreach hcrash
  cases a with
  | claim i skipped =>
    have hregister : step filter s.db (.register none (fl.consumer i)) = some (registerConsumer s.db none (fl.consumer i)) := rfl
    have hclaim : Reaches filter s.db (tryClaim fl (registerConsumer s.db none (fl.consumer i)) i skipped).1 := by
      have hrest : Reaches filter (registerConsumer s.db none (fl.consumer i))
          (tryClaim fl (registerConsumer s.db none (fl.consumer i)) i skipped).1 := tryClaim_reaches _ i skipped
      exact (hone _ hregister).trans hrest
    simp only [drainStep] at h
    split at h
    · split at h
      · cases h
        exact hclaim
      · cases h
        exact hclaim
    · cases h
  | renew i skipped =>
    cases h
    exact tryClaim_reaches s.db i skipped
  | startRebuild i =>
    simp only [drainStep] at h
    split at h
    · obtain ⟨k, _, rfl⟩ := Option.map_eq_some_iff.1 h
      exact .refl _
    · cases h
  | endRebuild i ok =>
    simp only [drainStep] at h
    split at h
    · split at h
      · cases h
        exact .refl _
      · cases h
        exact .refl _
    · cases h
  | finishRebuild i =>
    simp only [drainStep] at h
    split at h
    · split at h
      · cases h
        exact hone (.finishRebuild (fl.consumer i) (some (fl.holder i))) rfl
      · cases h
        exact .refl _
    · cases h
  | load i =>
    simp only [drainStep] at h
    split at h
    · obtain ⟨db, hdb, rfl⟩ := Option.map_eq_some_iff.1 h
      exact hone _ hdb
    · cases h
  | read i =>
    simp only [drainStep] at h
    split at h
    · obtain ⟨db, hdb, h⟩ := Option.bind_eq_some_iff.1 h
      split at h
      · split at h
        · cases h
          exact hidle i (hone _ hdb)
        · cases h
          exact hone _ hdb
      · cases h
        exact hidle i (hone _ hdb)
    · cases h
  | beginRebuild i =>
    simp only [drainStep] at h
    split at h
    · cases h
      exact hone (.beginRebuild none (fl.consumer i)) rfl
    · cases h
  | dispatch i ok =>
    simp only [drainStep] at h
    split at h
    · split at h
      · cases h
        exact .refl _
      · cases h
        exact hidle i (.refl _)
    · cases h
  | dispatched i =>
    simp only [drainStep] at h
    split at h
    · obtain ⟨db, hdb, rfl⟩ := Option.map_eq_some_iff.1 h
      exact hone _ hdb
    · cases h
  | commit i =>
    simp only [drainStep] at h
    split at h
    · rename_i name batch _ hinstance
      split at h
      · cases h
        exact hidle i (.refl _)
      · rename_i db hcommit
        have hstep : step filter s.db (.commitBatch i (some (fl.holder i))) = some (db.setInstance i .idle) := by
          simp only [Journal.step, hinstance, hcommit, Option.getD_some]
        split at h
        · cases h
          have hrelease : step filter (db.setInstance i .idle) (.release (fl.consumer i) (fl.holder i)) =
              some (releaseConsumer (db.setInstance i .idle) (fl.consumer i) (fl.holder i)) := rfl
          exact .step (hone _ hstep) hrelease
        · cases h
          exact hone _ hstep
    · cases h
  | fail i =>
    simp only [drainStep] at h
    split at h
    · cases h
    · cases h
      exact hidle i (.refl _)
  | release i =>
    simp only [drainStep] at h
    split at h
    · cases h
      exact hone (.release (fl.consumer i) (fl.holder i)) rfl
    · cases h
  | crash i =>
    cases h
    exact hidle i (.refl _)
  | core a =>
    simp only [drainStep] at h
    split at h
    · obtain ⟨db, hdb, rfl⟩ := Option.map_eq_some_iff.1 h
      exact hone a hdb
    · cases h

def Drain.rebuild? : Drain → Option Rebuild
  | .rebuilding _ _ r => some r
  | .rebuilt _ r => some r
  | _ => none

structure RebuildStep (fl : Fleet) (s s' : Drains) : Prop where
  grows : ∀ name, ∀ began ∈ s.rebuilt name, began ∈ s'.rebuilt name
  began : ∀ i r, (s'.drains i).rebuild? = some r →
    (s.drains i).rebuild? = some r ∨ ∃ k ∈ s.db.consumers, r = ⟨k.since, s.db.log.done⟩
  succeeded : ∀ i left r, s'.drains i = .rebuilt left r →
    s.drains i = .rebuilt left r ∨ r.began ∈ s'.rebuilt (fl.consumer i)

theorem RebuildStep.of_drain (hdrains : s'.drains = Function.update s.drains i d)
    (hgrows : ∀ name, ∀ began ∈ s.rebuilt name, began ∈ s'.rebuilt name)
    (hbegan : ∀ r, d.rebuild? = some r → (s.drains i).rebuild? = some r ∨ ∃ k ∈ s.db.consumers, r = ⟨k.since, s.db.log.done⟩)
    (hsucceeded : ∀ left r, d = .rebuilt left r → s.drains i = .rebuilt left r ∨ r.began ∈ s'.rebuilt (fl.consumer i)) :
    RebuildStep fl s s' where
  grows := hgrows
  began j r hr := by
    rw [hdrains] at hr
    by_cases hij : j = i
    · subst hij
      rw [Function.update_self] at hr
      exact hbegan r hr
    · rw [Function.update_of_ne hij] at hr
      exact Or.inl hr
  succeeded j left r hr := by
    rw [hdrains] at hr
    by_cases hij : j = i
    · subst hij
      rw [Function.update_self] at hr
      exact hsucceeded left r hr
    · rw [Function.update_of_ne hij] at hr
      exact Or.inl hr

theorem RebuildStep.of_none (hdrains : s'.drains = Function.update s.drains i d)
    (hrebuilt : s'.rebuilt = s.rebuilt) (hd : d.rebuild? = none) : RebuildStep fl s s' := by
  refine .of_drain hdrains (fun name began h => hrebuilt ▸ h) (fun r hr => ?_) fun left r hr => ?_
  · rw [hd] at hr
    cases hr
  · rw [hr] at hd
    cases hd

theorem RebuildStep.of_same (hdrains : s'.drains = s.drains) (hrebuilt : s'.rebuilt = s.rebuilt) :
    RebuildStep fl s s' where
  grows _ _ h := hrebuilt ▸ h
  began _ _ h := Or.inl (hdrains ▸ h)
  succeeded _ _ _ h := Or.inl (hdrains ▸ h)

theorem nextPoll_rebuild? (left : Nat) : (nextPoll left).rebuild? = none := by
  cases left <;> rfl

theorem renewed_rebuild? {claimed : Bool} {r : Rebuild} (h : (d.renewed claimed).rebuild? = some r) :
    d.rebuild? = some r := by
  cases d with
  | rebuilding left lost r' => exact h
  | rebuilt left r' => exact h
  | renews left =>
    have hnone : (nextPoll left).rebuild? = some r := h
    rw [nextPoll_rebuild?] at hnone
    cases hnone
  | idle => cases h
  | rebuilds left => cases h
  | polls left => cases h
  | begins left => cases h
  | dispatches left lost branches => cases h
  | commits left => cases h
  | releases => cases h

theorem renewed_rebuilt {claimed : Bool} {left : Nat} {r : Rebuild} (h : d.renewed claimed = .rebuilt left r) :
    d = .rebuilt left r := by
  cases d with
  | rebuilt left' r' => exact h
  | renews left' =>
    have hnext : nextPoll left' = .rebuilt left r := h
    have hnone := nextPoll_rebuild? left'
    rw [hnext] at hnone
    cases hnone
  | rebuilding left' lost r' => cases h
  | idle => cases h
  | rebuilds left' => cases h
  | polls left' => cases h
  | begins left' => cases h
  | dispatches left' lost branches => cases h
  | commits left' => cases h
  | releases => cases h

theorem drainStep_rebuild (h : drainStep fl filter s a = some s') :
    RebuildStep fl s s' := by
  cases a with
  | claim i skipped =>
    simp only [drainStep] at h
    split at h
    · split at h
      · cases h
        refine .of_none rfl rfl ?_
        split
        · rfl
        · exact nextPoll_rebuild? _
      · cases h
        exact .of_same rfl rfl
    · cases h
  | renew i skipped =>
    cases h
    exact .of_drain rfl (fun name began h => h) (fun r hr => Or.inl (renewed_rebuild? hr)) fun left r hr =>
      Or.inl (renewed_rebuilt hr)
  | startRebuild i =>
    simp only [drainStep] at h
    split at h
    · obtain ⟨k, hk, rfl⟩ := Option.map_eq_some_iff.1 h
      refine .of_drain rfl (fun name began h => h) (fun r hr => Or.inr ⟨k, (consumer?_spec hk).1, ?_⟩) fun left r hr => ?_
      · exact (Option.some.inj hr).symm
      · cases hr
    · cases h
  | endRebuild i ok =>
    simp only [drainStep] at h
    split at h
    · rename_i left lost r hdrain
      split at h
      · cases h
        refine .of_drain rfl (fun name began hmem => ?_) (fun r' hr' => ?_) fun left' r' hr' => ?_
        · by_cases hname : name = fl.consumer i
          · subst hname
            simp only [Drains.setDrain, Function.update_self]
            exact List.mem_cons_of_mem _ hmem
          · simp only [Drains.setDrain, Function.update_of_ne hname]
            exact hmem
        · left
          rw [hdrain]
          cases lost with
          | true => cases hr'
          | false => exact hr'
        · right
          cases lost with
          | true => cases hr'
          | false =>
            cases hr'
            simp only [Drains.setDrain, Function.update_self]
            exact List.mem_cons_self
      · cases h
        exact .of_none rfl rfl rfl
    · cases h
  | finishRebuild i =>
    simp only [drainStep] at h
    split at h
    · split at h
      · cases h
        exact .of_none rfl rfl (nextPoll_rebuild? _)
      · cases h
        exact .of_none rfl rfl rfl
    · cases h
  | load i =>
    simp only [drainStep] at h
    split at h
    · obtain ⟨db, _, rfl⟩ := Option.map_eq_some_iff.1 h
      exact .of_same rfl rfl
    · cases h
  | read i =>
    simp only [drainStep] at h
    split at h
    · obtain ⟨db, _, h⟩ := Option.bind_eq_some_iff.1 h
      split at h
      · split at h
        · cases h
          exact .of_none rfl rfl rfl
        · cases h
          exact .of_none rfl rfl rfl
      · cases h
        exact .of_none rfl rfl rfl
    · cases h
  | beginRebuild i =>
    simp only [drainStep] at h
    split at h
    · cases h
      exact .of_none rfl rfl rfl
    · cases h
  | dispatch i ok =>
    simp only [drainStep] at h
    split at h
    · split at h
      · cases h
        exact .of_none rfl rfl rfl
      · cases h
        exact .of_none rfl rfl rfl
    · cases h
  | dispatched i =>
    simp only [drainStep] at h
    split at h
    · obtain ⟨db, _, rfl⟩ := Option.map_eq_some_iff.1 h
      exact .of_none rfl rfl rfl
    · cases h
  | commit i =>
    simp only [drainStep] at h
    split at h
    · split at h
      · cases h
        exact .of_none rfl rfl rfl
      · split at h
        · cases h
          exact .of_none rfl rfl rfl
        · cases h
          exact .of_none rfl rfl rfl
    · cases h
  | fail i =>
    simp only [drainStep] at h
    split at h
    · cases h
    · cases h
      exact .of_none rfl rfl rfl
  | release i =>
    simp only [drainStep] at h
    split at h
    · cases h
      exact .of_none rfl rfl rfl
    · cases h
  | crash i =>
    cases h
    exact .of_none rfl rfl rfl
  | core a =>
    simp only [drainStep] at h
    split at h
    · obtain ⟨db, _, rfl⟩ := Option.map_eq_some_iff.1 h
      exact .of_same rfl rfl
    · cases h

/-! ### Runs -/

/-- A begin is made by an instance whose claim nobody has taken over, and no begin comes between the first read of a rebuild and
its finish. -/
def Timely (fl : Fleet) (s : Drains) : DrainAction → Prop
  | .beginRebuild i => ∀ k ∈ s.db.consumers, k.name = fl.consumer i → k.claimedBy = some (fl.holder i)
  | .finishRebuild i => ∀ left r, s.drains i = .rebuilt left r → ∀ k ∈ s.db.consumers, k.name = fl.consumer i →
    claimHeld k (some (fl.holder i)) s.db.clock = true → k.since = r.since
  | _ => True

/-- `s` is reached by any interleaving of such steps. -/
inductive TimelyRun (fl : Fleet) (filter : String → JournalFilter) : Drains → Prop
  | empty : TimelyRun fl filter Drains.empty
  | step {s s' : Drains} {a : DrainAction} (h : TimelyRun fl filter s) (ha : Timely fl s a)
      (hu : drainStep fl filter s a = some s') : TimelyRun fl filter s'

/-- What the last begin of a consumer had seen, a rebuild that has succeeded had seen, or the rebuild is due. -/
structure RebuildInv (fl : Fleet) (filter : String → JournalFilter) (s : Drains) : Prop where
  reachable : Reachable filter s.db
  since : ∀ k ∈ s.db.consumers, Settled s.db.toTables k.since
  rebuilt : ∀ k ∈ s.db.consumers, k.rebuildPending = false →
    ∃ began ∈ s.rebuilt k.name, ∀ x, k.since.visible x = true → x ∈ began
  drains : ∀ i r, (s.drains i).rebuild? = some r → ∀ x, r.since.visible x = true → x ∈ r.began
  succeeded : ∀ i left r, s.drains i = .rebuilt left r → r.began ∈ s.rebuilt (fl.consumer i)

theorem RebuildInv.empty : RebuildInv fl filter Drains.empty where
  reachable := .refl _
  since k hk := absurd hk List.not_mem_nil
  rebuilt k hk := absurd hk List.not_mem_nil
  drains i r h := by cases h
  succeeded i left r h := by cases h

theorem Settled.reaches {s : JournalDb} (h : Reaches filter s u) {t : Snapshot} (ht : Settled s.toTables t) :
    Settled u.toTables t := by
  induction h with
  | refl => exact ht
  | step _ hu ih => exact ih.step (step_tables hu)

theorem RebuildInv.step (h : RebuildInv fl filter s) (ha : Timely fl s a)
    (hu : drainStep fl filter s a = some s') : RebuildInv fl filter s' := by
  have hreach := drainStep_reaches hu
  have hrebuild := drainStep_rebuild hu
  have hnow : Settled s'.db.toTables (s.db.log.snapshot none) := (settled_snapshot s.db.toTables).reaches hreach
  have hold : ∀ k ∈ s.db.consumers, Settled s'.db.toTables k.since := fun k hk => (h.since k hk).reaches hreach
  -- a debt that was settled stays settled
  have hkeeps : ∀ k ∈ s.db.consumers, ∀ k' : Consumer, k'.name = k.name → k'.since = k.since → k.rebuildPending = false →
      ∃ began ∈ s'.rebuilt k'.name, ∀ x, k'.since.visible x = true → x ∈ began := by
    intro k hk k' hname hsince hpending
    obtain ⟨began, hmem, hseen⟩ := h.rebuilt k hk hpending
    rw [hname, hsince]
    exact ⟨began, hrebuild.grows _ _ hmem, hseen⟩
  refine ⟨h.reachable.trans hreach, fun k' hk' => ?_, fun k' hk' hdone => ?_, fun i r hr => ?_, fun i left r hr => ?_⟩
  · cases drainStep_rows hu hk' with
    | fresh hnew hpending hsince =>
      rw [hsince]
      exact hnow
    | kept k hk hkept =>
      rw [hkept.since]
      exact hold k hk
    | begun i k ha' hk hconsumer hname hpending hsince =>
      rw [hsince]
      exact hnow
    | finished i left r k ha' hdrain hk hconsumer hheld hname hsince =>
      rw [hsince]
      exact hold k hk
    | committed i k ha' hk hheld hname hsince hpending =>
      rw [hsince]
      exact hold k hk
  · cases drainStep_rows hu hk' with
    | fresh hnew hpending hsince =>
      rw [hpending] at hdone
      cases hdone
    | kept k hk hkept => exact hkeeps k hk k' hkept.name hkept.since (hkept.pending.symm.trans hdone)
    | begun i k ha' hk hconsumer hname hpending hsince =>
      rw [hpending] at hdone
      cases hdone
    | finished i left r k ha' hdrain hk hconsumer hheld hname hsince =>
      -- the rebuild that is finished began after the last begin
      subst ha'
      have hsame : k.since = r.since := ha left r hdrain k hk hconsumer hheld
      refine ⟨r.began, ?_, fun x hx => ?_⟩
      · rw [hname, hconsumer]
        exact hrebuild.grows _ _ (h.succeeded i left r hdrain)
      · rw [hsince, hsame] at hx
        exact h.drains i r (by rw [hdrain]; rfl) x hx
    | committed i k ha' hk hheld hname hsince hpending =>
      exact hkeeps k hk k' hname hsince (hpending.symm.trans hdone)
  · rcases hrebuild.began i r hr with hbefore | ⟨k, hk, rfl⟩
    · exact h.drains i r hbefore
    · exact fun x hx => h.since k hk x hx
  · rcases hrebuild.succeeded i left r hr with hbefore | hnew
    · exact hrebuild.grows _ _ (h.succeeded i left r hbefore)
    · exact hnew

theorem RebuildInv.of_run (h : TimelyRun fl filter s) : RebuildInv fl filter s := by
  induction h with
  | empty => exact RebuildInv.empty
  | step _ ha hu ih => exact ih.step ha hu

/-! ### The result -/

/-- The change is in a batch whose dispatch succeeded, was committed before a rebuild that succeeded began to read, or is still
pending: above the stored position, or with a rebuild due. -/
def Accounted (s : Drains) (k : Consumer) (r : Tuple Change) : Prop :=
  changeKey r ∈ k.handled ∨ (∃ began ∈ s.rebuilt k.name, r.insertedBy ∈ began) ∨ ¬BelowPosition k r ∨ k.rebuildPending = true

def Moves (k k' : Consumer) : Prop := k'.state ≠ k.state ∨ k.rebuildPending = true ∧ k'.rebuildPending = false

def DrainAction.instance? : DrainAction → Option Nat
  | .core _ => none
  | .claim i _ => some i
  | .renew i _ => some i
  | .startRebuild i => some i
  | .endRebuild i _ => some i
  | .finishRebuild i => some i
  | .load i => some i
  | .read i => some i
  | .beginRebuild i => some i
  | .dispatch i _ => some i
  | .dispatched i => some i
  | .commit i => some i
  | .fail i => some i
  | .release i => some i
  | .crash i => some i

theorem claimedBy_of_claimHeld {holder : String} {now : Int} (h : claimHeld k (some holder) now = true) :
    k.claimedBy = some holder := by
  unfold claimHeld at h
  rw [Bool.and_eq_true] at h
  exact beq_iff_eq.1 h.1

/-- Only an instance whose claim nobody has taken over moves a cursor or settles a rebuild. -/
theorem drainStep_fenced (hs : TimelyRun fl filter s) (ha : Timely fl s a)
    (hu : drainStep fl filter s a = some s') (hk : k ∈ s.db.consumers) (hk' : k' ∈ s'.db.consumers)
    (hname : k'.name = k.name) (hmoves : Moves k k') :
    ∃ i, a.instance? = some i ∧ k.claimedBy = some (fl.holder i) := by
  have hinv := ConsumerInv.of_reachable (RebuildInv.of_run hs).reachable
  have hunique : ∀ k₀ ∈ s.db.consumers, k'.name = k₀.name → k = k₀ := fun k₀ hk₀ hname₀ =>
    consumer_unique hinv hk hk₀ (hname.symm.trans hname₀)
  cases drainStep_rows hu hk' with
  | fresh hnew hpending hsince => exact absurd hname.symm (hnew k hk)
  | kept k₀ hk₀ hkept =>
    have heq := hunique k₀ hk₀ hkept.name
    subst heq
    rcases hmoves with hstate | ⟨hdue, hdone⟩
    · exact absurd hkept.state hstate
    · rw [hkept.pending, hdue] at hdone
      cases hdone
  | begun i k₀ ha' hk₀ hconsumer hname₀ hpending hsince =>
    have heq := hunique k₀ hk₀ hname₀
    subst heq
    subst ha'
    exact ⟨i, rfl, ha k hk hconsumer⟩
  | finished i left r k₀ ha' hdrain hk₀ hconsumer hheld hname₀ hsince =>
    have heq := hunique k₀ hk₀ hname₀
    subst heq
    subst ha'
    exact ⟨i, rfl, claimedBy_of_claimHeld hheld⟩
  | committed i k₀ ha' hk₀ hheld hname₀ hsince hpending =>
    have heq := hunique k₀ hk₀ hname₀
    subst heq
    subst ha'
    exact ⟨i, rfl, claimedBy_of_claimHeld hheld⟩

/-- **Plugin change consumers lose nothing**: in a run whose steps are timely, each committed change that matches a consumer is
accounted for, and only an instance whose claim nobody has taken over moves the cursor or settles a rebuild. -/
theorem drainOne_loses_nothing {s : Drains} (hs : TimelyRun fl filter s) :
    (∀ k ∈ s.db.consumers, ∀ r ∈ s.db.changes, r.insertedBy ∈ s.db.log.done →
      (filter k.name).filterSql r.value = true → Accounted s k r) ∧
    ∀ a s', Timely fl s a → drainStep fl filter s a = some s' → ∀ k ∈ s.db.consumers, ∀ k' ∈ s'.db.consumers,
      k'.name = k.name → Moves k k' → ∃ i, a.instance? = some i ∧ k.claimedBy = some (fl.holder i) := by
  have hinv := RebuildInv.of_run hs
  refine ⟨fun k hk r hr _ hf => ?_, fun a s' ha hu k hk k' hk' hname hmoves => drainStep_fenced hs ha hu hk hk' hname hmoves⟩
  have hok := (ConsumerInv.of_reachable hinv.reachable).consumers k hk
  by_cases hbelow : BelowPosition k r
  · cases hpending : k.rebuildPending with
    | true => exact Or.inr (Or.inr (Or.inr hpending))
    | false =>
      cases hsince : k.since.visible r.insertedBy with
      | false => exact Or.inl (hok.handled _ (hok.recorded_of_below hr hf hsince hbelow))
      | true =>
        obtain ⟨began, hmem, hseen⟩ := hinv.rebuilt k hk hpending
        exact Or.inr (Or.inl ⟨began, hmem, hseen _ hsince⟩)
  · exact Or.inr (Or.inr (Or.inl hbelow))

/-! ### Two instances -/

def drainRun (fl : Fleet) (filter : String → JournalFilter) (s : Drains) : List DrainAction → Option Drains
  | [] => some s
  | a :: as => (drainStep fl filter s a).bind fun s' => drainRun fl filter s' as

def twoInstances : Fleet := { holder := fun i => if i = 0 then "a" else "b", consumer := fun _ => "plugin:p" }

def firstRebuild : List DrainAction :=
  [.core .start, .core (.write 0 (pageChange "old")), .core (.commit 0), .claim 0 false, .startRebuild 0, .endRebuild 0 true]

def rebuiltDrains : Drains := (drainRun twoInstances pages Drains.empty firstRebuild).get (by decide)

def settledDrains : Drains := (drainStep twoInstances pages rebuiltDrains (.finishRebuild 0)).get (by decide)

theorem TimelyRun.run {as : List DrainAction} (hs : TimelyRun fl filter s)
    (ha : ∀ a ∈ as, ∀ u, Timely fl u a) (h : drainRun fl filter s as = some s') : TimelyRun fl filter s' := by
  induction as generalizing s with
  | nil =>
    have heq : s = s' := Option.some.inj h
    exact heq ▸ hs
  | cons a as ih =>
    obtain ⟨u, hu, hrun⟩ := Option.bind_eq_some_iff.1 h
    have hstep := hs.step (ha a List.mem_cons_self s) hu
    exact ih hstep (fun b hb => ha b (List.mem_cons_of_mem _ hb)) hrun

theorem drainRun_append (s : Drains) (as bs : List DrainAction) :
    drainRun fl filter s (as ++ bs) = (drainRun fl filter s as).bind fun s' => drainRun fl filter s' bs := by
  induction as generalizing s with
  | nil => rfl
  | cons a as ih =>
    have hcons : ∀ cs, drainRun fl filter s (a :: cs) = (drainStep fl filter s a).bind fun u => drainRun fl filter u cs :=
      fun _ => rfl
    rw [List.cons_append, hcons, hcons, Option.bind_assoc]
    refine Option.bind_congr fun u _ => ?_
    exact ih u

/-- The rebuild covers the change that was there before it. -/
theorem drainOne_loses_nothing_old :
    ∃ k ∈ settledDrains.db.consumers, k.rebuildPending = false ∧ Accounted settledDrains k ⟨0, none, pageChange "old"⟩ := by
  have hfirst : TimelyRun twoInstances pages rebuiltDrains := by
    refine .run .empty (fun a ha u => ?_) (Option.some_get _).symm
    simp only [firstRebuild, List.mem_cons, List.not_mem_nil, or_false] at ha
    rcases ha with rfl | rfl | rfl | rfl | rfl | rfl <;> trivial
  have hsettled : TimelyRun twoInstances pages settledDrains := by
    refine hfirst.step (fun left r hdrain k hk _ _ => ?_) (Option.some_get _).symm
    have hrebuild : (rebuiltDrains.drains 0).rebuild? = some r := by
      rw [hdrain]
      rfl
    have hall : (rebuiltDrains.db.consumers.all fun k => decide ((rebuiltDrains.drains 0).rebuild?.map (·.since) = some k.since)) =
        true := by decide
    have hsince := of_decide_eq_true (List.all_eq_true.1 hall k hk)
    rw [hrebuild] at hsince
    exact (Option.some.inj hsince).symm
  have hmem : settledDrains.db.consumers.head (by decide) ∈ settledDrains.db.consumers := List.head_mem _
  refine ⟨_, hmem, by decide, ?_⟩
  exact (drainOne_loses_nothing hsettled).1 _ hmem ⟨0, none, pageChange "old"⟩ (by decide) (by decide) (by decide)

/-- Garbage collection passes the cursor; the first instance polls and is told to rebuild, and stalls until its claim lapses.
The second takes the consumer over and begins its rebuild; a page changes; the first begins its own and crashes; the second
finishes. -/
def lateBegin : List DrainAction :=
  [.core .start, .core (.write 1 (pageChange "p")), .core (.commit 1), .core .start, .core (.deleteVictims 2 10 0 0 100),
    .core (.commit 2), .load 0, .read 0, .core (.tick 60001),
    .claim 1 false, .load 1, .read 1, .beginRebuild 1, .startRebuild 1,
    .core .start, .core (.write 3 (pageChange "q")), .core (.commit 3),
    .beginRebuild 0, .crash 0, .endRebuild 1 true, .finishRebuild 1]

def lostDrains : Drains := (drainRun twoInstances pages settledDrains lateBegin).get (by decide)

/-- The change is below the cursor, in no batch and before no rebuild, and nothing is due. -/
theorem drainOne_loses_late :
    drainRun twoInstances pages Drains.empty (firstRebuild ++ [.finishRebuild 0] ++ lateBegin) = some lostDrains ∧
      ∃ k ∈ lostDrains.db.consumers, ∃ r ∈ lostDrains.db.changes, r.insertedBy ∈ lostDrains.db.log.done ∧
        (pages k.name).filterSql r.value = true ∧ ¬Accounted lostDrains k r := by
  refine ⟨?_, lostDrains.db.consumers.head (by decide), List.head_mem _, ⟨3, none, pageChange "q"⟩, by decide, by decide,
    by decide, ?_⟩
  · have hrebuilt : drainRun twoInstances pages Drains.empty firstRebuild = some rebuiltDrains := (Option.some_get _).symm
    have hsettled : drainRun twoInstances pages rebuiltDrains [.finishRebuild 0] = some settledDrains := by
      have hstep : drainStep twoInstances pages rebuiltDrains (.finishRebuild 0) = some settledDrains := (Option.some_get _).symm
      unfold drainRun
      rw [hstep]
      rfl
    have hlost : drainRun twoInstances pages settledDrains lateBegin = some lostDrains := (Option.some_get _).symm
    rw [drainRun_append, drainRun_append, hrebuilt, Option.bind_some, hsettled, Option.bind_some]
    exact hlost
  · have hbefore : (lostDrains.rebuilt "plugin:p").all (fun began => !decide (3 ∈ began)) = true := by decide
    rintro (hhandled | ⟨began, hmem, hseen⟩ | habove | hdue)
    · revert hhandled
      decide
    · have hnot := List.all_eq_true.1 hbefore began hmem
      rw [decide_eq_true hseen] at hnot
      cases hnot
    · exact habove (Or.inl (by decide))
    · revert hdue
      decide

end CaeloCms.Journal
