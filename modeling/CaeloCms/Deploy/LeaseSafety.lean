import CaeloCms.Deploy.Lease

/-!
# Deploy leases are exclusive

`StatementEffect` says once what a statement of a call can do: it keeps the row or writes it, unlocked by others, with
a `LeaseChange` of the version its transaction sees.  Every invariant (`LeaseInv`) is derived from that.

A party that no longer holds the lease can still clear it when nobody has claimed it since:
`releaseLease_changes_lapsed`.  The row it clears was free already.
-/

namespace CaeloCms.Deploy

open LockedRow

/-! ### What a statement can do -/

variable {clock clock' : Int} {r : LeaseRow} {h : Holder} {s s' : LeaseDb} {v : LeaseVersion} {a : Action}
  {rep : Option Reply}

theorem not_holds_of_free (h : r.free clock = true) (h' : Holder) :
    r.holds clock h' = false := by
  obtain ⟨run, sync, acq, exp⟩ := r
  cases exp with
  | none => simp [LeaseRow.holds, LeaseRow.unexpired]
  | some e =>
    simp only [LeaseRow.free, Bool.or_eq_true, Bool.and_eq_true, decide_eq_true_eq] at h
    rcases h with ⟨hr, hs⟩ | he
    · have hr' : run = none := by simpa using hr
      have hs' : sync = none := by simpa using hs
      cases h' <;> simp [LeaseRow.holds, LeaseRow.names, hr', hs']
    · have : decide (clock < e) = false := by simpa using he
      simp [LeaseRow.holds, LeaseRow.unexpired, this]

theorem unexpired_mono (hc : clock ≤ clock') (h : r.unexpired clock' = true) :
    r.unexpired clock = true := by
  unfold LeaseRow.unexpired at h ⊢
  cases he : r.expiresAt with
  | none => simp [he] at h
  | some e =>
    simp only [he, decide_eq_true_eq] at h ⊢
    omega

theorem holds_mono (hc : clock ≤ clock')
    (hh : r.holds clock' h = true) : r.holds clock h = true := by
  simp only [LeaseRow.holds, Bool.and_eq_true] at hh ⊢
  exact ⟨hh.1, unexpired_mono hc hh.2⟩

theorem free_mono (hc : clock ≤ clock') (h : r.free clock = true) :
    r.free clock' = true := by
  unfold LeaseRow.free at h ⊢
  cases he : r.expiresAt with
  | none => simp
  | some e =>
    simp only [he, Bool.or_eq_true, decide_eq_true_eq] at h ⊢
    rcases h with h | h
    · exact Or.inl h
    · exact Or.inr (by omega)

/-- What a statement may write over the version `v`. -/
inductive LeaseChange (clock : Int) (v : LeaseVersion) : LeaseVersion → Prop
  | same : LeaseChange clock v v
  | claim (h : Holder) (ttlMs : Int) (hc : v.row.free clock = true ∨ v.row.names h = true) :
      LeaseChange clock v (v.claim h clock ttlMs)
  | renew (h : Holder) (e : Int) (hh : v.row.holds clock h = true) : LeaseChange clock v (v.expireAt e)
  | clear (h : Holder) (hn : v.row.names h = true) : LeaseChange clock v (v.clear h)

def Claimable (s : LeaseDb) (tx : Tx) (h : Holder) : Prop :=
  ∃ v, s.lease.lock = some (tx, v) ∧ (v.row.free s.clock = true ∨ v.row.names h = true)

structure StatementEffect (s : LeaseDb) (tx : Tx) (s' : LeaseDb) : Prop where
  clock : s'.clock = s.clock
  others : ∀ tx', tx' ≠ tx → s'.pending tx' = s.pending tx'
  lease : s'.lease = s.lease ∨ ∃ v, s.lease.lockedByOther tx = false ∧ LeaseChange s.clock (s.lease.visible tx) v ∧
    s'.lease = s.lease.write tx v
  locks : s'.locks = s.locks ∨ (s'.locks = s.lease.committed :: s.locks ∧ s.lease.committed.row.free s.clock = true ∧
    s'.lease = s.lease.write tx s.lease.committed)
  claimable : ∀ h ttlMs, s'.pending tx = some (.claimUpdate h ttlMs) → Claimable s' tx h

section Effect

variable {s s' : LeaseDb} {tx : Tx}

theorem StatementEffect.refl (hn : s.pending tx = none) : StatementEffect s tx s :=
  ⟨rfl, fun _ _ => rfl, Or.inl rfl, Or.inl rfl, fun h t hp => by rw [hn] at hp; cases hp⟩

theorem StatementEffect.setPending (he : StatementEffect s tx s') {q : Pending}
    (hq : ∀ h ttlMs, q = .claimUpdate h ttlMs → Claimable s' tx h) :
    StatementEffect s tx (s'.setPending tx (some q)) := by
  refine ⟨he.clock, ?_, he.lease, he.locks, ?_⟩
  · intro tx' hne
    rw [← he.others tx' hne]
    exact Function.update_of_ne hne _ _
  · intro h ttlMs hp
    have hq' : q = .claimUpdate h ttlMs := by
      simpa [LeaseDb.setPending] using hp
    exact hq h ttlMs hq'

theorem effect_write (hn : s.pending tx = none) (hl : s.lease.lockedByOther tx = false) {v : LeaseVersion}
    (hv : LeaseChange s.clock (s.lease.visible tx) v) : StatementEffect s tx (s.setLease (s.lease.write tx v)) :=
  ⟨rfl, fun _ _ => rfl, Or.inr ⟨v, hl, hv, rfl⟩, Or.inl rfl, fun h t hp => by
    have : s.pending tx = some (.claimUpdate h t) := hp
    rw [hn] at this
    cases this⟩

theorem effect_update (hn : s.pending tx = none) {p : LeaseVersion → Bool} {f : LeaseVersion → LeaseVersion}
    {res : Row Tx LeaseVersion × Option LeaseVersion} (hu : s.lease.update tx p f = some res)
    (hf : p (s.lease.visible tx) = true → LeaseChange s.clock (s.lease.visible tx) (f (s.lease.visible tx))) :
    StatementEffect s tx (s.setLease res.1) := by
  rcases update_cases hu with ⟨-, hr, -⟩ | ⟨hp, hl, hr, -⟩
  · rw [hr]
    exact StatementEffect.refl hn
  · rw [hr]
    exact effect_write hn hl (hf hp)

/-- A row lock taken on a free row the transaction has not changed. -/
theorem effect_noteLock (hn : s.pending tx = none) (hl : s.lease.lockedByOther tx = false)
    (hfree : (s.lease.visible tx).row.free s.clock = true) :
    StatementEffect s tx ((s.setLease (s.lease.write tx (s.lease.visible tx))).noteLock tx) := by
  have he := effect_write hn hl (LeaseChange.same : LeaseChange s.clock (s.lease.visible tx) _)
  unfold LeaseDb.noteLock
  split
  · rename_i hv
    have hv' : s.lease.visible tx = s.lease.committed := (visible_write s.lease tx _).symm.trans hv
    refine ⟨he.clock, he.others, he.lease, Or.inr ⟨rfl, hv' ▸ hfree, ?_⟩, ?_⟩
    · show s.lease.write tx (s.lease.visible tx) = _
      rw [hv']
    · intro h t hp
      exact he.claimable h t hp
  · exact he

variable {rep : Option Reply} {ttlMs : Int} {runId : Uuid}

theorem claimSelect_effect {h : Holder} {claimable : LeaseRow → Bool}
    {refused : Option DeployLeaseHolder → Reply} (hn : s.pending tx = none)
    (hc : ∀ r : LeaseRow, claimable r = true → r.free s.clock = true ∨ r.names h = true)
    (hs : claimSelect s tx h ttlMs claimable refused = some (s', rep)) : StatementEffect s tx s' := by
  unfold claimSelect at hs
  rcases selectSkipLocked_cases s.lease tx with ⟨-, hsel⟩ | ⟨hl, hsel⟩
  · rw [hsel] at hs
    cases hs
    exact StatementEffect.refl hn
  · rw [hsel] at hs
    simp only [visible_write] at hs
    have he := effect_write hn hl (LeaseChange.same : LeaseChange s.clock (s.lease.visible tx) _)
    split at hs
    · rename_i hcl
      cases hs
      refine he.setPending fun h' t' hq => ?_
      cases hq
      exact ⟨s.lease.visible tx, rfl, hc _ hcl⟩
    · cases hs
      exact he

theorem claimUpdate_effect {h : Holder} (hn : s.pending tx = none)
    (hc : Claimable s tx h) (hs : claimUpdate s tx h ttlMs = some (s', rep)) : StatementEffect s tx s' := by
  obtain ⟨res, hu, heq⟩ := Option.map_eq_some_iff.1 hs
  obtain ⟨v, hlock, hv⟩ := hc
  cases heq
  exact effect_update hn hu fun _ => LeaseChange.claim h ttlMs (visible_of_lock hlock ▸ hv)

theorem lockLeaseRow_effect {skipLocked : Bool} (hn : s.pending tx = none)
    (hs : lockLeaseRow s tx skipLocked = some (s', rep)) : StatementEffect s tx s' := by
  unfold lockLeaseRow at hs
  cases skipLocked with
  | true =>
    rw [if_pos rfl] at hs
    rcases selectSkipLocked_cases s.lease tx with ⟨-, hsel⟩ | ⟨hl, hsel⟩
    · rw [hsel] at hs
      cases hs
      exact StatementEffect.refl hn
    · rw [hsel] at hs
      simp only [visible_write] at hs
      split at hs
      · rename_i hfree
        cases hs
        exact effect_noteLock hn hl hfree
      · cases hs
        exact effect_write hn hl LeaseChange.same
  | false =>
    rw [if_neg Bool.false_ne_true] at hs
    obtain ⟨res, hu, heq⟩ := Option.map_eq_some_iff.1 hs
    rcases update_cases hu with ⟨-, hr, hres⟩ | ⟨hfree, hl, hr, hres⟩
    · rw [hr, hres] at heq
      cases heq
      have he : StatementEffect s tx (s.setLease s.lease) := StatementEffect.refl hn
      exact he.setPending fun _ _ hq => by cases hq
    · rw [hr, hres] at heq
      cases heq
      exact effect_noteLock hn hl hfree

theorem renewLease_effect (hn : s.pending tx = none)
    (hs : renewLease s tx runId ttlMs = some (s', rep)) : StatementEffect s tx s' := by
  obtain ⟨res, hu, heq⟩ := Option.map_eq_some_iff.1 hs
  cases heq
  refine effect_update hn hu fun hp => ?_
  by_cases hu' : (s.lease.visible tx).row.unexpired s.clock = true
  · rw [if_pos hu']
    exact LeaseChange.renew (.run runId) _ (by simp only [LeaseRow.holds, hp, hu', Bool.and_self])
  · rw [if_neg hu']
    exact LeaseChange.same

theorem renewSyncLease_effect {syncId : Uuid} (hn : s.pending tx = none)
    (hs : renewSyncLease s tx syncId ttlMs = some (s', rep)) : StatementEffect s tx s' := by
  obtain ⟨res, hu, heq⟩ := Option.map_eq_some_iff.1 hs
  cases heq
  exact effect_update hn hu fun hp => LeaseChange.renew (.sync syncId) _ hp

theorem releaseLease_effect (hn : s.pending tx = none)
    (hs : releaseLease s tx runId = some (s', rep)) : StatementEffect s tx s' := by
  obtain ⟨res, hu, heq⟩ := Option.map_eq_some_iff.1 hs
  have he := effect_update hn hu fun _ => LeaseChange.same
  split at heq
  · cases heq
    exact he
  · cases heq
    exact he.setPending fun _ _ hq => by cases hq

theorem releaseUpdate_effect {live : Bool} (hn : s.pending tx = none)
    (hs : releaseUpdate s tx runId live = some (s', rep)) : StatementEffect s tx s' := by
  obtain ⟨res, hu, heq⟩ := Option.map_eq_some_iff.1 hs
  cases heq
  exact effect_update hn hu fun hp => LeaseChange.clear (.run runId) hp

theorem releaseSyncLease_effect {syncId : Uuid} (hn : s.pending tx = none)
    (hs : releaseSyncLease s tx syncId = some (s', rep)) : StatementEffect s tx s' := by
  obtain ⟨res, hu, heq⟩ := Option.map_eq_some_iff.1 hs
  cases heq
  exact effect_update hn hu fun hp => LeaseChange.clear (.sync syncId) hp

theorem firstStatement_effect {c : Call} (hn : s.pending tx = none)
    (hs : firstStatement s tx c = some (s', rep)) : StatementEffect s tx s' := by
  cases c with
  | claimLease runId ttlMs =>
    have hs : claimLease s tx runId ttlMs = some (s', rep) := hs
    unfold claimLease at hs
    refine claimSelect_effect hn (fun r hr => ?_) hs
    simpa [LeaseRow.names] using hr
  | renewLease runId ttlMs => exact renewLease_effect hn hs
  | releaseLease runId => exact releaseLease_effect hn hs
  | claimSyncLease syncId ttlMs =>
    have hs : claimSyncLease s tx syncId ttlMs = some (s', rep) := hs
    unfold claimSyncLease at hs
    exact claimSelect_effect hn (fun r hr => Or.inl hr) hs
  | renewSyncLease syncId ttlMs => exact renewSyncLease_effect hn hs
  | releaseSyncLease syncId => exact releaseSyncLease_effect hn hs
  | lockLeaseRow skipLocked => exact lockLeaseRow_effect hn hs

theorem nextStatement_effect {p : Pending} (hn : s.pending tx = none)
    (hc : ∀ h ttlMs, p = .claimUpdate h ttlMs → Claimable s tx h) (hs : nextStatement s tx p = some (s', rep)) :
    StatementEffect s tx s' := by
  cases p with
  | claimUpdate h ttlMs => exact claimUpdate_effect hn (hc h ttlMs rfl) hs
  | releaseUpdate runId live => exact releaseUpdate_effect hn hs
  | leaseHolder =>
    simp only [nextStatement, leaseHolder] at hs
    split at hs
    · cases hs
      exact StatementEffect.refl hn
    · cases hs
      exact (StatementEffect.refl hn).setPending fun _ _ hq => by cases hq
  | syncHoldsLease =>
    simp only [nextStatement, syncHoldsLease] at hs
    split at hs
    · cases hs
      exact StatementEffect.refl hn
    · cases hs
      exact (StatementEffect.refl hn).setPending fun _ _ hq => by cases hq
  | lockAgain => exact lockLeaseRow_effect hn hs

end Effect

/-! ### What a step can do -/

/-- Where a claim is about to write, its transaction locked a row it may claim. -/
def PendingInv (s : LeaseDb) : Prop := ∀ tx h ttlMs, s.pending tx = some (.claimUpdate h ttlMs) → Claimable s tx h

theorem step_cases (hp : PendingInv s)
    (h : step s a = some (s', rep)) :
    (∃ ms : Nat, a = .tick ms ∧ s' = { s with clock := s.clock + ms }) ∨
    (∃ tx, a = .commit tx ∧ s.pending tx = none ∧ s' = s.setLease (s.lease.commit tx)) ∨
    (∃ tx, a = .abort tx ∧ s' = (s.setLease (s.lease.abort tx)).setPending tx none) ∨
    (∃ tx, ((∃ c, a = .call tx c) ∨ a = .resume tx) ∧ StatementEffect (s.setPending tx none) tx s') := by
  cases a with
  | tick ms =>
    simp only [step, Option.some.injEq, Prod.mk.injEq] at h
    exact Or.inl ⟨ms, rfl, h.1.symm⟩
  | call tx c =>
    simp only [step] at h
    split at h
    · rename_i hn
      have hsame : s.setPending tx none = s := by
        unfold LeaseDb.setPending
        rw [← hn, Function.update_eq_self]
      refine Or.inr (Or.inr (Or.inr ⟨tx, Or.inl ⟨c, rfl⟩, ?_⟩))
      rw [hsame]
      exact firstStatement_effect hn h
    · cases h
  | resume tx =>
    simp only [step] at h
    split at h
    · cases h
    · rename_i p hpend
      refine Or.inr (Or.inr (Or.inr ⟨tx, Or.inr rfl, ?_⟩))
      refine nextStatement_effect (by simp [LeaseDb.setPending]) (fun h' ttlMs hq => ?_) h
      exact hp tx h' ttlMs (hq ▸ hpend)
  | commit tx =>
    simp only [step] at h
    split at h
    · rename_i hn
      simp only [Option.some.injEq, Prod.mk.injEq] at h
      exact Or.inr (Or.inl ⟨tx, rfl, hn, h.1.symm⟩)
    · cases h
  | abort tx =>
    simp only [step, Option.some.injEq, Prod.mk.injEq] at h
    exact Or.inr (Or.inr (Or.inl ⟨tx, rfl, h.1.symm⟩))

/-! ### The invariant -/

/-- At most one holder column is set, the holder of an unexpired lease made the last claim, and no transaction has
locked the row since that claim. -/
structure VersionOk (clock : Int) (locks : List LeaseVersion) (v : LeaseVersion) : Prop where
  one_holder : v.row.holderRunId = none ∨ v.row.holderSyncId = none
  last_claim : ∀ h, v.row.holds clock h = true → v.claims.head? = some h
  locks_before : ∀ e ∈ locks, e.claims.length ≤ v.claims.length
  locks_lapsed : ∀ e ∈ locks, v.claims = e.claims → ∀ h, v.row.holds clock h = false

structure LeaseInv (s : LeaseDb) : Prop where
  pending : PendingInv s
  versions : s.lease.Forall (VersionOk s.clock s.locks)

theorem not_holds_mono (hc : clock ≤ clock')
    (hn : r.holds clock h = false) : r.holds clock' h = false := by
  by_contra hh
  have hh' := holds_mono hc (Bool.not_eq_false _ ▸ hh)
  rw [hn] at hh'
  cases hh'

theorem VersionOk.tick {locks : List LeaseVersion}
    (hv : VersionOk clock locks v) (hc : clock ≤ clock') : VersionOk clock' locks v :=
  ⟨hv.one_holder, fun h hh => hv.last_claim h (holds_mono hc hh), hv.locks_before,
    fun e he heq h => not_holds_mono hc (hv.locks_lapsed e he heq h)⟩

theorem names_claim {h' : Holder} {ttlMs : Int}
    (hn : (v.claim h clock ttlMs).row.names h' = true) : h' = h := by
  cases h <;> cases h' <;> simp_all [LeaseVersion.claim, LeaseRow.names]

theorem not_holds_clear {h' : Holder} :
    (v.clear h).row.holds clock h' = false := by
  cases h <;> simp [LeaseVersion.clear, LeaseRow.holds, LeaseRow.unexpired]

/-- A claim makes the list of claims longer, a renewal needs an unexpired lease, and a cleared row is nobody's. -/
theorem VersionOk.change {locks : List LeaseVersion} {v' : LeaseVersion}
    (hv : VersionOk clock locks v) (hc : LeaseChange clock v v') : VersionOk clock locks v' := by
  cases hc with
  | same => exact hv
  | claim h ttlMs _ =>
    refine ⟨?_, ?_, ?_, ?_⟩
    · cases h with
      | run runId => exact Or.inr rfl
      | sync syncId => exact Or.inl rfl
    · intro h' hh
      simp only [LeaseRow.holds, Bool.and_eq_true] at hh
      rw [names_claim hh.1]
      rfl
    · intro e he
      have := hv.locks_before e he
      simp only [LeaseVersion.claim, List.length_cons]
      omega
    · intro e he heq
      have hle := hv.locks_before e he
      have hlen : (v.claim h clock ttlMs).claims.length = v.claims.length + 1 := rfl
      rw [heq] at hlen
      omega
  | renew h e hh =>
    have hnames : ∀ h', (v.expireAt e).row.names h' = v.row.names h' := fun h' => by cases h' <;> rfl
    refine ⟨hv.one_holder, ?_, hv.locks_before, ?_⟩
    · intro h' hh'
      refine hv.last_claim h' ?_
      simp only [LeaseRow.holds, Bool.and_eq_true] at hh hh' ⊢
      exact ⟨hnames h' ▸ hh'.1, hh.2⟩
    · intro e' he' heq
      have := hv.locks_lapsed e' he' heq h
      rw [hh] at this
      cases this
  | clear h hn =>
    have hclaims : (v.clear h).claims = v.claims := by cases h <;> rfl
    refine ⟨?_, ?_, ?_, fun _ _ _ h' => not_holds_clear⟩
    · rcases hv.one_holder with h1 | h1 <;> cases h <;> simp [LeaseVersion.clear, h1]
    · intro h' hh
      rw [not_holds_clear] at hh
      cases hh
    · rw [hclaims]
      exact hv.locks_before

theorem Claimable.of_effect {tx tx' : Tx} (hc : Claimable s tx' h) (hne : tx' ≠ tx)
    (he : StatementEffect s tx s') : Claimable s' tx' h := by
  obtain ⟨v, hlock, hv⟩ := hc
  rcases he.lease with hl | ⟨w, hl, -, -⟩
  · exact ⟨v, hl ▸ hlock, he.clock ▸ hv⟩
  · rw [lockedByOther_of_ne hlock hne.symm] at hl
    cases hl

theorem LeaseInv.step (hs : LeaseInv s)
    (h : step s a = some (s', rep)) : LeaseInv s' := by
  rcases step_cases hs.pending h with ⟨ms, -, rfl⟩ | ⟨tx, -, hn, rfl⟩ | ⟨tx, -, rfl⟩ | ⟨tx, -, he⟩
  · refine ⟨?_, Forall.mono hs.versions fun v hv => hv.tick (by simp)⟩
    intro tx h' ttlMs hp
    obtain ⟨v, hlock, hv⟩ := hs.pending tx h' ttlMs hp
    exact ⟨v, hlock, hv.imp (free_mono (by simp)) id⟩
  · refine ⟨?_, Forall.commit hs.versions tx⟩
    intro tx' h' ttlMs hp
    obtain ⟨v, hlock, hv⟩ := hs.pending tx' h' ttlMs hp
    have hne : tx ≠ tx' := by
      rintro rfl
      have hp' : s.pending tx = some (.claimUpdate h' ttlMs) := hp
      rw [hn] at hp'
      cases hp'
    exact ⟨v, by rw [LeaseDb.setLease, commit_of_ne hlock hne, hlock], hv⟩
  · refine ⟨?_, Forall.abort hs.versions tx⟩
    intro tx' h' ttlMs hp
    have hne : tx ≠ tx' := by
      rintro rfl
      simp [LeaseDb.setPending] at hp
    have hp' : s.pending tx' = some (.claimUpdate h' ttlMs) := by
      simpa [LeaseDb.setPending, LeaseDb.setLease, hne.symm] using hp
    obtain ⟨v, hlock, hv⟩ := hs.pending tx' h' ttlMs hp'
    exact ⟨v, by rw [LeaseDb.setPending, LeaseDb.setLease, abort_of_ne hlock hne, hlock], hv⟩
  · constructor
    · intro tx' h' ttlMs hp
      by_cases hne : tx' = tx
      · subst hne
        exact he.claimable h' ttlMs hp
      · have hp' : s.pending tx' = some (.claimUpdate h' ttlMs) := by
          rw [← hp, he.others tx' hne]
          simp [LeaseDb.setPending, hne]
        have hc : Claimable (s.setPending tx none) tx' h' := hs.pending tx' h' ttlMs hp'
        exact hc.of_effect hne he
    · rw [he.clock]
      have hversions : s'.lease.Forall (VersionOk s.clock s.locks) := by
        rcases he.lease with hl | ⟨v, -, hchange, hl⟩
        · rw [hl]
          exact hs.versions
        · rw [hl]
          exact Forall.write hs.versions tx ((Forall.visible hs.versions tx).change hchange)
      rcases he.locks with hl | ⟨hl, hfree, hlease⟩
      · rw [hl]
        exact hversions
      · -- the new entry is the committed version, free, and the only one there is
        have hnew : VersionOk s.clock s'.locks s.lease.committed := by
          have hok := hs.versions.1
          rw [hl]
          refine ⟨hok.one_holder, hok.last_claim, ?_, ?_⟩
          · intro e hmem
            rcases List.mem_cons.1 hmem with rfl | hmem
            · exact Nat.le_refl _
            · exact hok.locks_before e hmem
          · exact fun _ _ _ h' => not_holds_of_free hfree h'
        rw [hlease]
        refine ⟨hnew, fun tx' v hv => ?_⟩
        have hv' : s.lease.committed = v := congrArg Prod.snd (Option.some.inj hv)
        exact hv' ▸ hnew

theorem LeaseInv.of_reachable (hs : Reachable s) : LeaseInv s := by
  induction hs with
  | init h =>
    obtain ⟨hlock, hclaims, hfree, hone, hpending, hlocks⟩ := h
    refine ⟨fun tx _ _ hp => ?_, ⟨?_, ?_⟩⟩
    · rw [hpending tx] at hp
      cases hp
    · refine ⟨hone, fun h' hh => ?_, by simp [hlocks], by simp [hlocks]⟩
      rw [not_holds_of_free hfree h'] at hh
      cases hh
    · intro tx v hv
      rw [hlock] at hv
      cases hv
  | step _ h ih => exact ih.step h

/-! ### Replies -/

def Reply.granted : Reply → Option Holder
  | .acquired runId => some (.run runId)
  | .syncClaimed syncId true => some (.sync syncId)
  | _ => none

def Reply.renewal : Reply → Option Holder
  | .renewed runId => some (.run runId)
  | .syncRenewed syncId true => some (.sync syncId)
  | _ => none

def releasing (s : LeaseDb) : Action → Option (Tx × Holder)
  | .call tx (.releaseLease runId) => some (tx, .run runId)
  | .call tx (.releaseSyncLease syncId) => some (tx, .sync syncId)
  | .resume tx =>
    match s.pending tx with
    | some (.releaseUpdate runId _) => some (tx, .run runId)
    | _ => none
  | _ => none

section Replies

variable {s s' : LeaseDb} {tx : Tx} {rep : Reply} {h : Holder}

theorem claimSelect_reply {ttlMs : Int} {claimable : LeaseRow → Bool} {refused : Option DeployLeaseHolder → Reply}
    (hs : claimSelect s tx h ttlMs claimable refused = some (s', some rep)) : ∃ heldBy, rep = refused heldBy := by
  unfold claimSelect at hs
  split at hs
  · cases hs
    exact ⟨_, rfl⟩
  · split at hs
    · cases hs
    · cases hs
      exact ⟨_, rfl⟩

theorem claimLease_reply {runId : Uuid} {ttlMs : Int} (hs : claimLease s tx runId ttlMs = some (s', some rep)) :
    ∃ heldBy, rep = .notAcquired runId heldBy := by
  unfold claimLease at hs
  exact claimSelect_reply hs

theorem claimSyncLease_reply {syncId : Uuid} {ttlMs : Int}
    (hs : claimSyncLease s tx syncId ttlMs = some (s', some rep)) : rep = .syncClaimed syncId false := by
  unfold claimSyncLease at hs
  obtain ⟨-, hrep⟩ := claimSelect_reply hs
  exact hrep

theorem lockLeaseRow_reply {skipLocked : Bool} (hs : lockLeaseRow s tx skipLocked = some (s', some rep)) :
    rep = .locked ∨ ∃ heldBy, rep = .notLocked heldBy := by
  unfold lockLeaseRow at hs
  split at hs
  · split at hs
    · cases hs
      exact Or.inr ⟨_, rfl⟩
    · split at hs
      · cases hs
        exact Or.inl rfl
      · cases hs
        exact Or.inr ⟨_, rfl⟩
  · obtain ⟨res, -, heq⟩ := Option.map_eq_some_iff.1 hs
    split at heq
    · cases heq
      exact Or.inl rfl
    · cases heq

theorem releaseLease_reply {runId : Uuid} (hs : releaseLease s tx runId = some (s', some rep)) :
    rep = .released runId none := by
  obtain ⟨res, -, heq⟩ := Option.map_eq_some_iff.1 hs
  split at heq
  · cases heq
    rfl
  · cases heq

theorem firstStatement_not_granted {c : Call} (hs : firstStatement s tx c = some (s', some rep)) :
    rep.granted = none := by
  cases c with
  | claimLease runId ttlMs =>
    obtain ⟨heldBy, rfl⟩ := claimLease_reply hs
    rfl
  | renewLease runId ttlMs =>
    obtain ⟨res, -, heq⟩ := Option.map_eq_some_iff.1 hs
    obtain ⟨-, heq⟩ := Prod.mk.inj heq
    obtain rfl := Option.some.inj heq
    split
    · rfl
    · split <;> rfl
  | releaseLease runId =>
    rw [releaseLease_reply hs]
    rfl
  | claimSyncLease syncId ttlMs =>
    rw [claimSyncLease_reply hs]
    rfl
  | renewSyncLease syncId ttlMs =>
    obtain ⟨res, -, heq⟩ := Option.map_eq_some_iff.1 hs
    cases heq
    rfl
  | releaseSyncLease syncId =>
    obtain ⟨res, -, heq⟩ := Option.map_eq_some_iff.1 hs
    cases heq
    rfl
  | lockLeaseRow skipLocked =>
    rcases lockLeaseRow_reply hs with rfl | ⟨heldBy, rfl⟩ <;> rfl

/-- A renewal succeeds on the row its transaction sees, where the caller's lease is unexpired. -/
theorem firstStatement_renewal {c : Call} (hs : firstStatement s tx c = some (s', some rep))
    (hr : rep.renewal = some h) : (s.lease.visible tx).row.holds s.clock h = true := by
  cases c with
  | claimLease runId ttlMs =>
    obtain ⟨heldBy, rfl⟩ := claimLease_reply hs
    cases hr
  | renewLease runId ttlMs =>
    obtain ⟨res, hu, heq⟩ := Option.map_eq_some_iff.1 hs
    obtain ⟨-, heq⟩ := Prod.mk.inj heq
    obtain rfl := Option.some.inj heq
    rcases update_cases hu with ⟨-, -, hres⟩ | ⟨hn, -, -, hres⟩
    · rw [hres] at hr
      cases hr
    · rw [hres] at hr
      by_cases hlive : (s.lease.visible tx).row.unexpired s.clock = true
      · simp only [hlive, ↓reduceIte] at hr
        split at hr
        · obtain rfl : Holder.run runId = h := Option.some.inj hr
          simp only [LeaseRow.holds, hn, hlive, Bool.and_self]
        · cases hr
      · simp [hlive, Reply.renewal] at hr
  | releaseLease runId =>
    rw [releaseLease_reply hs] at hr
    cases hr
  | claimSyncLease syncId ttlMs =>
    rw [claimSyncLease_reply hs] at hr
    cases hr
  | renewSyncLease syncId ttlMs =>
    obtain ⟨res, hu, heq⟩ := Option.map_eq_some_iff.1 hs
    obtain ⟨-, heq⟩ := Prod.mk.inj heq
    obtain rfl := Option.some.inj heq
    rcases update_cases hu with ⟨-, -, hres⟩ | ⟨hn, -, -, hres⟩
    · rw [hres] at hr
      cases hr
    · rw [hres] at hr
      obtain rfl : Holder.sync syncId = h := Option.some.inj hr
      exact hn
  | releaseSyncLease syncId =>
    obtain ⟨res, -, heq⟩ := Option.map_eq_some_iff.1 hs
    cases heq
    cases hr
  | lockLeaseRow skipLocked =>
    rcases lockLeaseRow_reply hs with rfl | ⟨heldBy, rfl⟩ <;> cases hr

/-- Only the `UPDATE` of a claim grants, and only a first statement renews. -/
theorem nextStatement_reply {p : Pending} (hs : nextStatement s tx p = some (s', some rep)) :
    rep.renewal = none ∧ (rep.granted = some h → ∃ ttlMs, p = .claimUpdate h ttlMs) := by
  cases p with
  | claimUpdate h' ttlMs =>
    obtain ⟨res, -, heq⟩ := Option.map_eq_some_iff.1 hs
    cases heq
    cases h' with
    | run runId => exact ⟨rfl, fun hg => ⟨ttlMs, by rw [← Option.some.inj hg]⟩⟩
    | sync syncId => exact ⟨rfl, fun hg => ⟨ttlMs, by rw [← Option.some.inj hg]⟩⟩
  | releaseUpdate runId live =>
    obtain ⟨res, -, heq⟩ := Option.map_eq_some_iff.1 hs
    cases heq
    exact ⟨rfl, fun hg => by cases hg⟩
  | leaseHolder =>
    simp only [nextStatement, leaseHolder] at hs
    split at hs
    · cases hs
      exact ⟨rfl, fun hg => by cases hg⟩
    · cases hs
  | syncHoldsLease =>
    simp only [nextStatement, syncHoldsLease] at hs
    split at hs
    · cases hs
      exact ⟨rfl, fun hg => by cases hg⟩
    · cases hs
  | lockAgain =>
    rcases lockLeaseRow_reply hs with rfl | ⟨heldBy, rfl⟩ <;> exact ⟨rfl, fun hg => by cases hg⟩

end Replies

/-- A release touches only what its own transaction sees, and changes that only by clearing the party's column. -/
theorem releasing_cases {tx : Tx} {p : Holder}
    (hr : releasing s a = some (tx, p)) (h : step s a = some (s', rep)) :
    s'.lease.committed = s.lease.committed ∧
      (s'.lease.visible tx = s.lease.visible tx ∨
        ((s.lease.visible tx).row.names p = true ∧ s'.lease.visible tx = (s.lease.visible tx).clear p)) := by
  cases a with
  | tick ms => cases hr
  | call tx' c =>
    simp only [step] at h
    split at h
    · cases c with
      | releaseLease runId =>
        cases hr
        obtain ⟨res, hu, heq⟩ := Option.map_eq_some_iff.1 h
        obtain ⟨hcommitted, hv⟩ := update_visible hu
        have hvisible : res.1.visible tx = s.lease.visible tx := hv.elim id And.right
        split at heq <;> cases heq <;> exact ⟨hcommitted, Or.inl hvisible⟩
      | releaseSyncLease syncId =>
        cases hr
        obtain ⟨res, hu, heq⟩ := Option.map_eq_some_iff.1 h
        cases heq
        exact update_visible hu
      | _ => cases hr
    · cases h
  | resume tx' =>
    simp only [step] at h
    simp only [releasing] at hr
    split at h
    · rename_i hn
      rw [hn] at hr
      cases hr
    · rename_i p' hp'
      rw [hp'] at hr
      cases p' with
      | releaseUpdate runId live =>
        cases hr
        obtain ⟨res, hu, heq⟩ := Option.map_eq_some_iff.1 h
        cases heq
        exact update_visible hu
      | _ => cases hr
  | commit tx' => cases hr
  | abort tx' => cases hr

/-! ### The guarantees -/

structure LeaseExclusive (s : LeaseDb) : Prop where
  one_holder : s.lease.Forall fun v => v.row.holderRunId = none ∨ v.row.holderSyncId = none
  /-- A granted claim: nobody else holds the lease unexpired, and no other transaction has the row locked. -/
  granted : ∀ a s' rep p, step s a = some (s', some rep) → rep.granted = some p → ∃ tx, a = .resume tx ∧
    s.lease.lockedByOther tx = false ∧ ∀ p', p' ≠ p → (s.lease.visible tx).row.holds s.clock p' = false
  /-- A successful renewal: the party holds the lease unexpired, the last claim is its own, and no transaction has
  locked the row with `lockLeaseRow` since that claim. -/
  renewed : ∀ a s' rep p, step s a = some (s', some rep) → rep.renewal = some p → ∃ tx c, a = .call tx c ∧
    (s.lease.visible tx).row.holds s.clock p = true ∧ (s.lease.visible tx).claims.head? = some p ∧
    ∀ e ∈ s.locks, e.claims ≠ (s.lease.visible tx).claims
  /-- A release by a party whose id does not stand in the row changes nothing; one by a party whose lease lapsed at
  most clears a row that was free. -/
  released : ∀ a s' rep tx p, releasing s a = some (tx, p) → step s a = some (s', rep) →
    s'.lease.committed = s.lease.committed ∧
    ((s.lease.visible tx).row.names p = false → s'.lease.visible tx = s.lease.visible tx) ∧
    ((s.lease.visible tx).row.holds s.clock p = false → s'.lease.visible tx = s.lease.visible tx ∨
      ((s.lease.visible tx).row.free s.clock = true ∧ (s'.lease.visible tx).row.holderRunId = none ∧
        (s'.lease.visible tx).row.holderSyncId = none))

theorem free_of_not_unexpired (h : r.unexpired clock = false) : r.free clock = true := by
  unfold LeaseRow.unexpired at h
  unfold LeaseRow.free
  cases he : r.expiresAt with
  | none => simp
  | some e =>
    simp only [he, decide_eq_false_iff_not, Int.not_lt] at h
    simp [h]

theorem not_holds_of_claimable {p p' : Holder}
    (hone : r.holderRunId = none ∨ r.holderSyncId = none) (hc : r.free clock = true ∨ r.names p = true)
    (hne : p' ≠ p) : r.holds clock p' = false := by
  rcases hc with hfree | hn
  · exact not_holds_of_free hfree p'
  · have : r.names p' = false := by
      by_contra hn'
      have hn' : r.names p' = true := Bool.not_eq_false _ ▸ hn'
      rcases hone with h1 | h1 <;> cases p <;> cases p' <;> simp_all [LeaseRow.names]
    simp [LeaseRow.holds, this]

/-- In every interleaving of claims, renewals, releases and row locks, with the clock advancing between any two
statements, deploy leases are exclusive. -/
theorem deployLease_exclusive {s : LeaseDb} (hs : Reachable s) : LeaseExclusive s := by
  have hinv := LeaseInv.of_reachable hs
  have hok : ∀ tx, VersionOk s.clock s.locks (s.lease.visible tx) := Forall.visible hinv.versions
  refine ⟨Forall.mono hinv.versions fun v hv => hv.one_holder, ?_, ?_, ?_⟩
  · intro a s' rep p h hg
    cases a with
    | call tx c =>
      simp only [step] at h
      split at h
      · rw [firstStatement_not_granted h] at hg
        cases hg
      · cases h
    | resume tx =>
      simp only [step] at h
      split at h
      · cases h
      · rename_i q hq
        obtain ⟨ttlMs, rfl⟩ := (nextStatement_reply h).2 hg
        obtain ⟨v, hlock, hv⟩ := hinv.pending tx p ttlMs hq
        refine ⟨tx, rfl, not_lockedByOther_of_lock hlock, fun p' hne => ?_⟩
        refine not_holds_of_claimable (hok tx).one_holder ?_ hne
        rw [visible_of_lock hlock]
        exact hv
    | commit tx =>
      simp only [step] at h
      split at h <;> cases h
    | tick ms => cases h
    | abort tx => cases h
  · intro a s' rep p h hr
    cases a with
    | call tx c =>
      simp only [step] at h
      split at h
      · have hholds := firstStatement_renewal h hr
        refine ⟨tx, c, rfl, hholds, (hok tx).last_claim p hholds, fun e he heq => ?_⟩
        have hlapsed := (hok tx).locks_lapsed e he heq.symm p
        rw [hholds] at hlapsed
        cases hlapsed
      · cases h
    | resume tx =>
      simp only [step] at h
      split at h
      · cases h
      · rw [(nextStatement_reply (h := p) h).1] at hr
        cases hr
    | commit tx =>
      simp only [step] at h
      split at h <;> cases h
    | tick ms => cases h
    | abort tx => cases h
  · intro a s' rep tx p hr h
    obtain ⟨hcommitted, hv⟩ := releasing_cases hr h
    refine ⟨hcommitted, fun hn => ?_, fun hnot => ?_⟩
    · rcases hv with hv | ⟨hn', -⟩
      · exact hv
      · rw [hn] at hn'
        cases hn'
    · rcases hv with hv | ⟨hn, hv⟩
      · exact Or.inl hv
      · have hunexpired : (s.lease.visible tx).row.unexpired s.clock = false := by
          simpa [LeaseRow.holds, hn] using hnot
        refine Or.inr ⟨free_of_not_unexpired hunexpired, ?_⟩
        rw [hv]
        rcases (hok tx).one_holder with h1 | h1
        · cases p with
          | run runId => simp [LeaseRow.names, h1] at hn
          | sync syncId => exact ⟨h1, rfl⟩
        · cases p with
          | run runId => exact ⟨rfl, h1⟩
          | sync syncId => simp [LeaseRow.names, h1] at hn

def freeLease : LeaseDb :=
  { clock := 0
    lease := { committed := { row := ⟨none, none, none, none⟩, claims := [] }, lock := none }
    pending := fun _ => none
    locks := [] }

theorem freeLease_initial : freeLease.Initial := by
  refine ⟨rfl, rfl, rfl, Or.inl rfl, fun _ => rfl, rfl⟩

/-- Run `r` claims for 10 ms and renews after 5. -/
theorem deployLease_exclusive_renewed : LeaseExclusive ((run freeLease [.call 1 (.claimLease "r" 10), .resume 1,
    .commit 1, .tick 5, .call 2 (.renewLease "r" 10), .commit 2]).get (by decide)) :=
  deployLease_exclusive (Reachable.run (.init freeLease_initial) (Option.some_get _).symm)

/-- The lease of run `r` lapsed after 10 ms, and its release locked the row. -/
def lapsedRelease : LeaseDb := (run freeLease [.call 1 (.claimLease "r" 10), .resume 1, .commit 1, .tick 10,
  .call 2 (.releaseLease "r")]).get (by decide)

/-- A run whose lease lapsed, and was not claimed since, still clears the row when it releases. -/
theorem releaseLease_changes_lapsed : ¬ ∀ s, Reachable s → ∀ a s' rep tx p, releasing s a = some (tx, p) →
    step s a = some (s', rep) → (s.lease.visible tx).row.holds s.clock p = false →
    s'.lease.visible tx = s.lease.visible tx := by
  intro hall
  have hreach : Reachable lapsedRelease := Reachable.run (.init freeLease_initial) (Option.some_get _).symm
  have hsome : (step lapsedRelease (.resume 2)).isSome = true := by decide
  have h := hall lapsedRelease hreach (.resume 2) ((step lapsedRelease (.resume 2)).get hsome).1 _ 2 (.run "r")
    (by decide) (Option.some_get hsome).symm (by decide)
  revert h hsome
  decide

end CaeloCms.Deploy
