import CaeloCms.Query.JoinHeld

/-!
# Joined transactions keep to themselves

At every moment the open transactions of a chain form one line, each joined to the one below it and at the head of its queue;
only the innermost one can do anything.  What the connection holds for it (its settings, the states its savepoints go back to)
is what its own statements, and those of the calls that were released to it, made of it.

The identity of a transaction is not restored after a joined call whose effects it cannot take.
-/

namespace CaeloCms.Query

namespace CallChain

/-! ### Rights of a statement -/

theorem runsUnder_identify (h : HeldTransaction) (settings : Settings) :
    RunsUnder h (h.opener.identify h.ctx settings) := by
  cases hopener : h.opener with
  | withPublic holder =>
    refine ⟨rfl, rfl, rfl, by rw [hopener]; rfl, fun hadmin => absurd hopener (hadmin holder)⟩
  | operation name | withAdmin holder | read holder =>
    exact ⟨rfl, rfl, rfl, by rw [hopener]; rfl, fun _ => ⟨rfl, rfl, by rw [hopener]; rfl⟩⟩

theorem runsUnder_setIdentity (h : HeldTransaction) :
    RunsUnder h (setIdentity h.opener.holder h.ctx h.opener.opName) :=
  ⟨rfl, rfl, rfl, rfl, fun _ => ⟨rfl, rfl, rfl⟩⟩

theorem RunsUnder.congr {h h' : HeldTransaction} {settings : Settings} (hr : RunsUnder h settings)
    (hopener : h'.opener = h.opener) (hctx : h'.ctx = h.ctx) : RunsUnder h' settings := by
  obtain ⟨hid, hkind, hplugin, hname, hadmin⟩ := hr
  refine ⟨by rw [hctx]; exact hid, by rw [hctx]; exact hkind, by rw [hctx]; exact hplugin, by rw [hopener]; exact hname, ?_⟩
  rw [hopener, hctx]
  exact hadmin

/-! ### What a step leaves of the transactions -/

variable {s s' : CallChain}

@[simp] theorem txs_setTx (u : Nat) (h : HeldTransaction) (v : Nat) :
    (s.setTx u h).txs v = if v = u then h else s.txs v := by
  simp [setTx, Function.update_apply]

structure SameShape (s s' : CallChain) : Prop where
  next : s'.next = s.next
  opener : ∀ v, (s'.txs v).opener = (s.txs v).opener
  ctx : ∀ v, (s'.txs v).ctx = (s.txs v).ctx
  outer : ∀ v, (s'.txs v).outer = (s.txs v).outer
  chain : ∀ v, (s'.txs v).chain = (s.txs v).chain

theorem SameShape.refl : SameShape s s := ⟨Eq.refl _, fun _ => Eq.refl _, fun _ => Eq.refl _, fun _ => Eq.refl _, fun _ => Eq.refl _⟩

theorem SameShape.setTx {u : Nat} {h : HeldTransaction} (hsame : SameShape s s') (hopener : h.opener = (s.txs u).opener)
    (hctx : h.ctx = (s.txs u).ctx) (houter : h.outer = (s.txs u).outer) (hchain : h.chain = (s.txs u).chain) :
    SameShape s (s'.setTx u h) where
  next := hsame.next
  opener v := by
    rw [txs_setTx]
    split
    · rename_i hv
      rw [hv, hopener]
    · exact hsame.opener v
  ctx v := by
    rw [txs_setTx]
    split
    · rename_i hv
      rw [hv, hctx]
    · exact hsame.ctx v
  outer v := by
    rw [txs_setTx]
    split
    · rename_i hv
      rw [hv, houter]
    · exact hsame.outer v
  chain v := by
    rw [txs_setTx]
    split
    · rename_i hv
      rw [hv, hchain]
    · exact hsame.chain v

theorem SameShape.setPhase {u : Nat} {p : Phase} : SameShape s (s.setPhase u p) :=
  SameShape.refl.setTx rfl rfl rfl rfl

theorem SameShape.settle {u t : Nat} {kept : Bool} (hsame : SameShape s s') : SameShape s (s'.settle u t kept) := by
  have hu : SameShape s (s'.setPhase u (.ended kept)) :=
    hsame.setTx (hsame.opener u) (hsame.ctx u) (hsame.outer u) (hsame.chain u)
  exact hu.setTx (hu.opener t) (hu.ctx t) (hu.outer t) (hu.chain t)

theorem txs_settle {u t : Nat} {kept : Bool} (hne : u ≠ t) (v : Nat) :
    (s.settle u t kept).txs v =
      if v = t then { s.txs t with joined := (s.txs t).joined.tail }
      else if v = u then { s.txs u with phase := .ended kept } else s.txs v := by
  simp only [settle, setPhase, txs_setTx, hne.symm, if_false]

/-! ### The open transactions -/

/-- A transaction that runs, or does not: it has a queue in its body only, and there its identity is recorded. -/
structure HeldOk (h : HeldTransaction) (running : Prop) : Prop where
  runs : running ↔ h.phase.runs = true
  queue : h.joined ≠ [] → h.phase = .body
  identity : h.phase = .body → h.identity = some (h.ctx, h.opener.opName)

/-- `l` are the transactions that run, innermost first. -/
structure Frame (s : CallChain) (l : List Nat) : Prop where
  bounded : ∀ v, ∀ a ∈ (s.txs v).chain, a < s.next
  fresh : ∀ v, s.next ≤ v → (s.txs v).phase = .queued
  closed : ∀ v u, u ∈ (s.txs v).chain → (s.txs u).chain ⊆ (s.txs v).chain
  joins : ∀ v t, (s.txs v).outer = some t → t < s.next ∧ (s.txs v).chain = v :: (s.txs t).chain
  nodup : l.Nodup
  held : ∀ v, HeldOk (s.txs v) (v ∈ l)
  chains : ∀ u below, (u :: below) <:+ l → (s.txs u).chain = u :: below
  links : ∀ u t below, (u :: t :: below) <:+ l →
    (s.txs u).outer = some t ∧ (s.txs t).joined.head? = some u ∧ (s.txs t).phase = .body
  root : ∀ u, l.getLast? = some u → u = 0 ∧ (s.txs u).outer = none

variable {l l' below : List Nat} {u t : Nat}

/-- After a step that starts no transaction, only the phases and the queues need another look. -/
theorem Frame.of_sameShape (hf : Frame s l) (hsame : SameShape s s') (hsuffix : l' <:+ l)
    (hfresh : ∀ v, s.next ≤ v → (s'.txs v).phase = .queued) (hheld : ∀ v, HeldOk (s'.txs v) (v ∈ l'))
    (hlinks : ∀ u t below, (u :: t :: below) <:+ l' → (s'.txs t).joined.head? = some u ∧ (s'.txs t).phase = .body) :
    Frame s' l' where
  bounded v a ha := by
    rw [hsame.chain] at ha
    rw [hsame.next]
    exact hf.bounded v a ha
  fresh v hv := hfresh v (hsame.next ▸ hv)
  closed v u hu := by
    rw [hsame.chain] at hu ⊢
    rw [hsame.chain]
    exact hf.closed v u hu
  joins v t ht := by
    rw [hsame.outer] at ht
    rw [hsame.chain, hsame.chain, hsame.next]
    exact hf.joins v t ht
  nodup := hf.nodup.sublist hsuffix.sublist
  held := hheld
  chains u below hu := by
    rw [hsame.chain]
    exact hf.chains u below (hu.trans hsuffix)
  links u t below hu := by
    refine ⟨?_, hlinks u t below hu⟩
    rw [hsame.outer]
    exact (hf.links u t below (hu.trans hsuffix)).1
  root u hu := by
    have hne : l' ≠ [] := by
      rintro rfl
      cases hu
    have hlast : l.getLast? = some u := by
      obtain ⟨pre, rfl⟩ := hsuffix
      rw [List.getLast?_append_of_ne_nil _ hne]
      exact hu
    rw [hsame.outer]
    exact hf.root u hlast

theorem Frame.mem_of_runs (hf : Frame s l) (h : (s.txs u).phase.runs = true) : u ∈ l := (hf.held u).runs.2 h

theorem Frame.not_mem_of_queued (hf : Frame s l) (h : (s.txs u).phase = .queued) : u ∉ l := by
  intro hu
  have := (hf.held u).runs.1 hu
  rw [h] at this
  cases this

/-- A transaction whose queue has nothing that runs is the innermost one. -/
theorem Frame.innermost (hf : Frame s l) (hmem : t ∈ l)
    (hjoined : ∀ u, (s.txs t).joined.head? = some u → (s.txs u).phase = .queued) : ∃ below, l = t :: below := by
  obtain ⟨pre, below, rfl⟩ := List.append_of_mem hmem
  rcases List.eq_nil_or_concat pre with rfl | ⟨pre', w, rfl⟩
  · exact ⟨below, rfl⟩
  · have hsuffix : (w :: t :: below) <:+ pre'.concat w ++ t :: below := ⟨pre', by simp⟩
    obtain ⟨_, hhead, _⟩ := hf.links w t below hsuffix
    exact absurd (hsuffix.subset (List.mem_cons_self ..)) (hf.not_mem_of_queued (hjoined w hhead))

theorem Frame.innermost_of_idle (hf : Frame s l) (hmem : u ∈ l) (hjoined : (s.txs u).joined = []) :
    ∃ below, l = u :: below := by
  refine hf.innermost hmem fun v hv => ?_
  rw [hjoined] at hv
  cases hv

theorem Frame.idle_of_phase (hf : Frame s l) (hbody : (s.txs u).phase ≠ .body) : (s.txs u).joined = [] := by
  by_contra hjoined
  exact hbody ((hf.held u).queue hjoined)

theorem Frame.innermost_of_phase (hf : Frame s l) (hruns : (s.txs u).phase.runs = true) (hbody : (s.txs u).phase ≠ .body) :
    ∃ below, l = u :: below :=
  hf.innermost_of_idle (hf.mem_of_runs hruns) (hf.idle_of_phase hbody)

theorem Frame.ne_of_next_le (hf : Frame s l) {v : Nat} (hu : u ∈ l) (hv : s.next ≤ v) : v ≠ u := by
  rintro rfl
  exact hf.not_mem_of_queued (hf.fresh v hv) hu

omit s in
theorem mem_of_suffix {v w : Nat} {rest : List Nat} (h : (v :: w :: rest) <:+ u :: below) : w ∈ below := by
  rcases List.suffix_cons_iff.1 h with heq | h'
  · rw [← (List.cons.inj heq).2]
    exact List.mem_cons_self ..
  · exact h'.subset (by simp)

/-! ### What each step leaves of the open transactions -/

theorem Frame.setTop {h : HeldTransaction} (hf : Frame s (u :: below)) (hopener : h.opener = (s.txs u).opener)
    (hctx : h.ctx = (s.txs u).ctx) (houter : h.outer = (s.txs u).outer) (hchain : h.chain = (s.txs u).chain)
    (hheld : HeldOk h True) : Frame (s.setTx u h) (u :: below) := by
  refine hf.of_sameShape (SameShape.refl.setTx hopener hctx houter hchain) (List.suffix_refl _) (fun v hv => ?_) (fun v => ?_)
    (fun v w rest hw => ?_)
  · rw [txs_setTx, if_neg (hf.ne_of_next_le (List.mem_cons_self ..) hv)]
    exact hf.fresh v hv
  · rw [txs_setTx]
    split
    · rename_i heq
      simpa [heq] using hheld
    · exact hf.held v
  · have hne : w ≠ u := fun heq => (List.nodup_cons.1 hf.nodup).1 (heq ▸ mem_of_suffix hw)
    rw [txs_setTx, if_neg hne]
    exact (hf.links v w rest hw).2

/-- The call at the head of the queue of the innermost transaction is settled without having been open. -/
theorem Frame.refuse {kept : Bool} (hf : Frame s (t :: below)) (hqueued : (s.txs u).phase = .queued)
    (houter : (s.txs u).outer = some t) : Frame (s.settle u t kept) (t :: below) := by
  have hu : u ∉ t :: below := hf.not_mem_of_queued hqueued
  have hut : u ≠ t := fun heq => hu (heq ▸ List.mem_cons_self ..)
  have hbound : u < s.next := hf.bounded u u (by rw [(hf.joins u t houter).2]; exact List.mem_cons_self ..)
  refine hf.of_sameShape SameShape.refl.settle (List.suffix_refl _) (fun v hv => ?_) (fun v => ?_) (fun v w rest hw => ?_)
  · rw [txs_settle hut, if_neg (hf.ne_of_next_le (List.mem_cons_self ..) hv),
      if_neg (Nat.ne_of_gt (Nat.lt_of_lt_of_le hbound hv))]
    exact hf.fresh v hv
  · rw [txs_settle hut]
    split
    · rename_i hvt
      obtain ⟨hruns, hqueue, hidentity⟩ := hf.held t
      refine ⟨by rw [hvt]; exact hruns, fun hne => hqueue fun hnil => hne ?_, hidentity⟩
      show (s.txs t).joined.tail = []
      rw [hnil]
      rfl
    · split
      · rename_i hvu
        have hidle : (s.txs u).joined = [] := hf.idle_of_phase (by simp [hqueued])
        refine ⟨⟨fun hv => absurd (hvu ▸ hv) hu, fun h => ?_⟩, fun hne => absurd hidle hne, fun h => ?_⟩
        · cases h
        · cases h
      · exact hf.held v
  · have hwt : w ≠ t := fun heq => (List.nodup_cons.1 hf.nodup).1 (heq ▸ mem_of_suffix hw)
    have hwu : w ≠ u := fun heq => hu (heq ▸ List.mem_cons_of_mem _ (mem_of_suffix hw))
    rw [txs_settle hut, if_neg hwt, if_neg hwu]
    exact (hf.links v w rest hw).2

theorem Frame.settle {kept : Bool} (hf : Frame s (u :: t :: below)) (hidle : (s.txs u).joined = []) :
    Frame (s.settle u t kept) (t :: below) := by
  obtain ⟨hut, hnd⟩ := List.nodup_cons.1 hf.nodup
  have hne : u ≠ t := fun heq => hut (heq ▸ List.mem_cons_self ..)
  obtain ⟨_, _, hbody⟩ := hf.links u t below (List.suffix_refl _)
  refine hf.of_sameShape SameShape.refl.settle (List.suffix_cons _ _) (fun v hv => ?_) (fun v => ?_) (fun v w rest hw => ?_)
  · rw [txs_settle hne, if_neg (hf.ne_of_next_le (by simp) hv), if_neg (hf.ne_of_next_le (by simp) hv)]
    exact hf.fresh v hv
  · rw [txs_settle hne]
    split
    · rename_i hvt
      refine ⟨⟨fun _ => by rw [hbody]; rfl, fun _ => by rw [hvt]; exact List.mem_cons_self ..⟩, fun _ => hbody,
        (hf.held t).identity⟩
    · split
      · rename_i hvu
        refine ⟨⟨fun hv => absurd (hvu ▸ hv) hut, fun h => ?_⟩, fun h => absurd hidle h, fun h => ?_⟩
        · cases h
        · cases h
      · rename_i hvu
        obtain ⟨hruns, hqueue, hidentity⟩ := hf.held v
        refine ⟨⟨fun hv => hruns.1 (List.mem_cons_of_mem _ hv), fun h => ?_⟩, hqueue, hidentity⟩
        rcases List.mem_cons.1 (hruns.2 h) with heq | hv
        · exact absurd heq hvu
        · exact hv
  · have hwt : w ≠ t := fun heq => (List.nodup_cons.1 hnd).1 (heq ▸ mem_of_suffix hw)
    have hwu : w ≠ u := fun heq => hut (heq ▸ List.mem_cons_of_mem _ (mem_of_suffix hw))
    rw [txs_settle hne, if_neg hwt, if_neg hwu]
    exact (hf.links v w rest (hw.trans (List.suffix_cons _ _))).2

theorem Frame.end {kept : Bool} (hf : Frame s [u]) (hidle : (s.txs u).joined = []) :
    Frame (s.setPhase u (.ended kept)) [] := by
  refine hf.of_sameShape SameShape.setPhase (List.nil_suffix) (fun v hv => ?_) (fun v => ?_) (fun v w rest hw => ?_)
  · rw [setPhase, txs_setTx, if_neg (hf.ne_of_next_le (List.mem_cons_self ..) hv)]
    exact hf.fresh v hv
  · rw [setPhase, txs_setTx]
    split
    · refine ⟨⟨fun hv => ?_, fun h => ?_⟩, fun h => absurd hidle h, fun h => ?_⟩
      · cases hv
      · cases h
      · cases h
    · rename_i hne
      obtain ⟨hruns, hqueue, hidentity⟩ := hf.held v
      refine ⟨⟨fun hv => ?_, fun h => absurd (List.mem_singleton.1 (hruns.2 h)) hne⟩, hqueue, hidentity⟩
      cases hv
  · cases List.suffix_nil.1 hw

theorem Frame.open {h : HeldTransaction} (hf : Frame s (t :: below)) (hqueued : (s.txs u).phase = .queued)
    (houter : (s.txs u).outer = some t) (hhead : (s.txs t).joined.head? = some u) (hbody : (s.txs t).phase = .body)
    (hh : h = { s.txs u with phase := .identifying, pending := some [] }) :
    Frame (s.setTx u h) (u :: t :: below) := by
  subst hh
  have hu : u ∉ t :: below := hf.not_mem_of_queued hqueued
  have hut : u ≠ t := fun heq => hu (heq ▸ List.mem_cons_self ..)
  have hbound : u < s.next := hf.bounded u u (by rw [(hf.joins u t houter).2]; exact List.mem_cons_self ..)
  have hidle : (s.txs u).joined = [] := hf.idle_of_phase (by simp [hqueued])
  have hsame : SameShape s (s.setTx u { s.txs u with phase := .identifying, pending := some [] }) :=
    SameShape.refl.setTx rfl rfl rfl rfl
  refine ⟨fun v a ha => ?_, fun v hv => ?_, fun v w hw => ?_, fun v w hw => ?_, List.nodup_cons.2 ⟨hu, hf.nodup⟩, fun v => ?_,
    fun v rest hv => ?_, fun v w rest hw => ?_, fun v hv => ?_⟩
  · rw [hsame.chain] at ha
    exact hf.bounded v a ha
  · rw [txs_setTx, if_neg (Nat.ne_of_gt (Nat.lt_of_lt_of_le hbound hv))]
    exact hf.fresh v hv
  · rw [hsame.chain] at hw ⊢
    rw [hsame.chain]
    exact hf.closed v w hw
  · rw [hsame.outer] at hw
    rw [hsame.chain, hsame.chain]
    exact hf.joins v w hw
  · rw [txs_setTx]
    split
    · rename_i hvu
      refine ⟨⟨fun _ => rfl, fun _ => by rw [hvu]; exact List.mem_cons_self ..⟩, fun h => absurd hidle h, fun h => ?_⟩
      cases h
    · rename_i hvu
      obtain ⟨hruns, hqueue, hidentity⟩ := hf.held v
      refine ⟨⟨fun hv => ?_, fun h => List.mem_cons_of_mem _ (hruns.2 h)⟩, hqueue, hidentity⟩
      rcases List.mem_cons.1 hv with heq | hv'
      · exact absurd heq hvu
      · exact hruns.1 hv'
  · rw [hsame.chain]
    rcases List.suffix_cons_iff.1 hv with heq | hv'
    · obtain ⟨rfl, rfl⟩ := List.cons.inj heq
      rw [(hf.joins v t houter).2, hf.chains t below (List.suffix_refl _)]
    · exact hf.chains v rest hv'
  · have hwu : w ≠ u := fun heq => hu (heq ▸ mem_of_suffix hw)
    rw [hsame.outer, txs_setTx, if_neg hwu]
    rcases List.suffix_cons_iff.1 hw with heq | hw'
    · obtain ⟨rfl, heq'⟩ := List.cons.inj heq
      obtain ⟨rfl, rfl⟩ := List.cons.inj heq'
      exact ⟨houter, hhead, hbody⟩
    · exact hf.links v w rest hw'
  · rw [hsame.outer]
    exact hf.root v (by rw [List.getLast?_cons_cons] at hv; exact hv)

structure Started (s s' : CallChain) (t : Nat) (opener : Opener) (ctx : ExecutionContext) : Prop where
  body : (s.txs t).phase = .body
  next : s'.next = s.next + 1
  new : s'.txs s.next = { opener := opener, ctx := ctx, outer := some t, chain := s.next :: (s.txs t).chain }
  kept : ∀ v, v ≠ s.next →
    s'.txs v = { s.txs v with joined := if v = t then (s.txs v).joined ++ [s.next] else (s.txs v).joined }
  rest : s' = { s with txs := s'.txs, next := s'.next }

theorem start_spec {opener : Opener} {ctx : ExecutionContext} (h : s.start t opener ctx = some s') :
    Started s s' t opener ctx := by
  unfold CallChain.start at h
  split at h
  · rename_i hbody
    cases h
    refine ⟨hbody, rfl, by simp, fun v hv => ?_, rfl⟩
    rw [txs_setTx, if_neg hv, txs_setTx]
    split
    · rename_i hvt
      rw [hvt]
    · rfl
  · cases h

theorem Frame.start {opener : Opener} {ctx : ExecutionContext} (hf : Frame s l) (h : s.start t opener ctx = some s') :
    Frame s' l := by
  obtain ⟨hbody, hnext, hnew, hkeep, _⟩ := start_spec h
  have ht : t ∈ l := hf.mem_of_runs (by rw [hbody]; rfl)
  have hnl : s.next ∉ l := fun hmem => hf.ne_of_next_le hmem (Nat.le_refl _) rfl
  have hne : t ≠ s.next := fun heq => hnl (heq ▸ ht)
  have hlt : t < s.next := Nat.lt_of_not_le fun hle => hf.ne_of_next_le ht hle rfl
  have hchain : ∀ v, v ≠ s.next → (s'.txs v).chain = (s.txs v).chain := fun v hv => by rw [hkeep v hv]
  have houter : ∀ v, v ≠ s.next → (s'.txs v).outer = (s.txs v).outer := fun v hv => by rw [hkeep v hv]
  have hphase : ∀ v, v ≠ s.next → (s'.txs v).phase = (s.txs v).phase := fun v hv => by rw [hkeep v hv]
  refine ⟨fun v a ha => ?_, fun v hv => ?_, fun v w hw => ?_, fun v w hw => ?_, hf.nodup, fun v => ?_,
    fun v rest hv => ?_, fun v w rest hw => ?_, fun v hv => ?_⟩
  · by_cases hv : v = s.next
    · subst hv
      simp only [hnew] at ha
      rcases List.mem_cons.1 ha with rfl | ha
      · omega
      · have := hf.bounded t a ha
        omega
    · rw [hchain v hv] at ha
      have := hf.bounded v a ha
      omega
  · have hv' : s.next + 1 ≤ v := hnext ▸ hv
    rw [hphase v (Nat.ne_of_gt hv')]
    exact hf.fresh v (Nat.le_of_succ_le hv')
  · have hold : ∀ v, w ∈ (s.txs v).chain → (s'.txs w).chain ⊆ (s.txs v).chain := by
      intro v hw
      rw [hchain w (Nat.ne_of_lt (hf.bounded v w hw))]
      exact hf.closed v w hw
    by_cases hv : v = s.next
    · subst hv
      simp only [hnew] at hw ⊢
      rcases List.mem_cons.1 hw with rfl | hw'
      · rw [hnew]
        exact fun a ha => ha
      · exact fun a ha => List.mem_cons_of_mem _ (hold t hw' ha)
    · rw [hchain v hv] at hw ⊢
      exact hold v hw
  · by_cases hv : v = s.next
    · subst hv
      rw [hnew] at hw
      obtain rfl : t = w := Option.some.inj hw
      refine ⟨by omega, ?_⟩
      rw [hnew, hchain t hne]
    · rw [houter v hv] at hw
      obtain ⟨hwn, heq⟩ := hf.joins v w hw
      refine ⟨by omega, ?_⟩
      rw [hchain v hv, hchain w (Nat.ne_of_lt hwn)]
      exact heq
  · by_cases hv : v = s.next
    · subst hv
      rw [hnew]
      refine ⟨⟨fun hmem => absurd hmem hnl, fun h => ?_⟩, fun h => absurd rfl h, fun h => ?_⟩
      · cases h
      · cases h
    · obtain ⟨hruns, hqueue, hidentity⟩ := hf.held v
      rw [hkeep v hv]
      refine ⟨hruns, fun hjoined => ?_, hidentity⟩
      by_cases hvt : v = t
      · subst hvt
        exact hbody
      · refine hqueue ?_
        simpa only [if_neg hvt] using hjoined
  · have hv' : v ≠ s.next := fun heq => hnl (heq ▸ hv.subset (List.mem_cons_self ..))
    rw [hchain v hv']
    exact hf.chains v rest hv
  · have hv' : v ≠ s.next := fun heq => hnl (heq ▸ hw.subset (by simp))
    have hw' : w ≠ s.next := fun heq => hnl (heq ▸ hw.subset (by simp))
    obtain ⟨hvw, hhead, hwbody⟩ := hf.links v w rest hw
    refine ⟨by rw [houter v hv']; exact hvw, ?_, by rw [hphase w hw']; exact hwbody⟩
    rw [hkeep w hw']
    show (if w = t then (s.txs w).joined ++ [s.next] else (s.txs w).joined).head? = some v
    split
    · rw [List.head?_append, hhead]
      rfl
    · exact hhead
  · have hv' : v ≠ s.next := fun heq => hnl (heq ▸ List.mem_of_getLast? hv)
    rw [houter v hv']
    exact hf.root v hv

theorem Frame.setPending {pending : Option (List PostCommitEffect)} (hf : Frame s l) :
    Frame (s.setTx t { s.txs t with pending := pending }) l := by
  refine hf.of_sameShape (SameShape.refl.setTx rfl rfl rfl rfl) (List.suffix_refl _) (fun v hv => ?_) (fun v => ?_)
    (fun v w rest hw => ?_)
  · rw [txs_setTx]
    split
    · rename_i hvt
      exact hvt ▸ hf.fresh v hv
    · exact hf.fresh v hv
  · rw [txs_setTx]
    split
    · rename_i hvt
      obtain ⟨hruns, hqueue, hidentity⟩ := hf.held t
      exact ⟨by rw [hvt]; exact hruns, hqueue, hidentity⟩
    · exact hf.held v
  · obtain ⟨_, hhead, hbody⟩ := hf.links v w rest hw
    rw [txs_setTx]
    split
    · rename_i hwt
      exact hwt ▸ ⟨hhead, hbody⟩
    · exact ⟨hhead, hbody⟩

/-! ### What is kept of a record -/

/-- Neither the transaction nor any that it joined was rolled back. -/
def kept (s : CallChain) (u : Nat) : Bool := (s.txs u).chain.all fun a => (s.txs a).phase ≠ .ended false

section Records

variable {α : Type} (tx : α → Nat)

def keptOf (s : CallChain) (xs : List α) : List α := xs.filter fun x => s.kept (tx x)

/-- What would be kept if `u` was rolled back. -/
def apart (s : CallChain) (u : Nat) (xs : List α) : List α :=
  xs.filter fun x => s.kept (tx x) && !(s.txs (tx x)).chain.contains u

/-- Only transactions that were opened recorded something. -/
def Touched (s : CallChain) (xs : List α) : Prop :=
  ∀ x ∈ xs, (s.txs (tx x)).phase ≠ .queued ∧ 0 ∈ (s.txs (tx x)).chain ∧
    ∀ a ∈ (s.txs (tx x)).chain, (s.txs a).phase ≠ .queued

end Records

/-- What a step leaves of the transactions that were opened, and which of them it rolls back. -/
structure Keeps (s s' : CallChain) (died : Nat → Prop) : Prop where
  chain : ∀ v, (s.txs v).phase ≠ .queued → (s'.txs v).chain = (s.txs v).chain
  opener : ∀ v, (s.txs v).phase ≠ .queued → (s'.txs v).opener = (s.txs v).opener
  ctx : ∀ v, (s.txs v).phase ≠ .queued → (s'.txs v).ctx = (s.txs v).ctx
  outer : ∀ v, (s.txs v).phase ≠ .queued → (s'.txs v).outer = (s.txs v).outer
  opened : ∀ v, (s.txs v).phase ≠ .queued → (s'.txs v).phase ≠ .queued
  dead : ∀ v, (s.txs v).phase ≠ .queued → ((s'.txs v).phase = .ended false ↔ died v ∨ (s.txs v).phase = .ended false)

variable {α : Type} {tx : α → Nat} {xs : List α} {died : Nat → Prop}

theorem Touched.keeps (ht : Touched tx s xs) (hk : Keeps s s' died) : Touched tx s' xs := by
  intro x hx
  obtain ⟨hopened, hroot, hchain⟩ := ht x hx
  rw [hk.chain _ hopened]
  exact ⟨hk.opened _ hopened, hroot, fun a ha => hk.opened a (hchain a ha)⟩

theorem kept_iff {v : Nat} : s.kept v = true ↔ ∀ a ∈ (s.txs v).chain, (s.txs a).phase ≠ .ended false := by
  simp [kept]

theorem Touched.kept_iff (ht : Touched tx s xs) (hk : Keeps s s' died) {x : α} (hx : x ∈ xs) :
    s'.kept (tx x) = true ↔ s.kept (tx x) = true ∧ ∀ a ∈ (s.txs (tx x)).chain, ¬ died a := by
  obtain ⟨hopened, _, hchain⟩ := ht x hx
  rw [CallChain.kept_iff, CallChain.kept_iff, hk.chain _ hopened]
  constructor
  · intro h
    refine ⟨fun a ha hdead => h a ha ((hk.dead a (hchain a ha)).2 (Or.inr hdead)), fun a ha hdied => ?_⟩
    exact h a ha ((hk.dead a (hchain a ha)).2 (Or.inl hdied))
  · rintro ⟨hkept, hdied⟩ a ha hdead
    rcases (hk.dead a (hchain a ha)).1 hdead with h | h
    · exact hdied a ha h
    · exact hkept a ha h

theorem keptOf_keeps (ht : Touched tx s xs) (hk : Keeps s s' fun _ => False) : keptOf tx s' xs = keptOf tx s xs := by
  refine List.filter_congr fun x hx => ?_
  rw [Bool.eq_iff_iff, ht.kept_iff hk hx]
  simp

theorem apart_keeps (ht : Touched tx s xs) (hk : Keeps s s' fun _ => False) : apart tx s' u xs = apart tx s u xs := by
  refine List.filter_congr fun x hx => ?_
  rw [hk.chain _ (ht x hx).1]
  congr 1
  rw [Bool.eq_iff_iff, ht.kept_iff hk hx]
  simp

theorem keptOf_dies (ht : Touched tx s xs) (hk : Keeps s s' (· = u)) : keptOf tx s' xs = apart tx s u xs := by
  refine List.filter_congr fun x hx => ?_
  rw [Bool.eq_iff_iff, ht.kept_iff hk hx]
  simp only [Bool.and_eq_true, Bool.not_eq_true', List.contains_eq_mem, decide_eq_false_iff_not]
  refine and_congr_right fun _ => ⟨fun h hu => h u hu rfl, ?_⟩
  rintro h a ha rfl
  exact h ha

theorem apart_dies (hf : Frame s l) (ht : Touched tx s xs) (hk : Keeps s s' (· = u)) {w : Nat} (hw : w ∈ (s.txs u).chain) :
    apart tx s' w xs = apart tx s w xs := by
  refine List.filter_congr fun x hx => ?_
  rw [hk.chain _ (ht x hx).1, Bool.eq_iff_iff]
  simp only [Bool.and_eq_true, Bool.not_eq_true', List.contains_eq_mem, decide_eq_false_iff_not]
  refine and_congr_left fun hwx => ?_
  rw [ht.kept_iff hk hx]
  refine and_iff_left ?_
  rintro a ha rfl
  exact hwx (hf.closed _ _ ha hw)

theorem apart_queued (ht : Touched tx s xs) (hu : (s.txs u).phase = .queued) : apart tx s u xs = keptOf tx s xs := by
  refine List.filter_congr fun x hx => ?_
  have hnot : u ∉ (s.txs (tx x)).chain := fun hmem => (ht x hx).2.2 u hmem hu
  simp [hnot]

theorem keptOf_append {x : α} (hx : s.kept (tx x) = true) : keptOf tx s (xs ++ [x]) = keptOf tx s xs ++ [x] := by
  simp [keptOf, List.filter_append, hx]

theorem apart_append {x : α} (hu : u ∈ (s.txs (tx x)).chain) : apart tx s u (xs ++ [x]) = apart tx s u xs := by
  simp [apart, List.filter_append, hu]

theorem Frame.chain_top (hf : Frame s (u :: below)) : (s.txs u).chain = u :: below := hf.chains u below (List.suffix_refl _)

theorem Frame.runs_of_mem (hf : Frame s l) (hu : u ∈ l) : (s.txs u).phase.runs = true := (hf.held u).runs.1 hu

theorem Phase.ne_of_runs {p : Phase} (h : p.runs = true) : p ≠ .queued ∧ ∀ kept, p ≠ .ended kept := by
  refine ⟨fun heq => ?_, fun kept heq => ?_⟩
  · rw [heq] at h
    cases h
  · rw [heq] at h
    cases h

theorem Frame.kept_top (hf : Frame s (u :: below)) : s.kept u = true := by
  rw [kept_iff, hf.chain_top]
  exact fun a ha => (Phase.ne_of_runs (hf.runs_of_mem ha)).2 false

theorem Frame.zero_mem (hf : Frame s (u :: below)) : 0 ∈ u :: below := by
  obtain ⟨v, hv⟩ : ∃ v, (u :: below).getLast? = some v := ⟨_, List.getLast?_eq_some_getLast (List.cons_ne_nil _ _)⟩
  exact (hf.root v hv).1 ▸ List.mem_of_getLast? hv

theorem Touched.append {x : α} (ht : Touched tx s xs) (hf : Frame s (u :: below)) (hx : tx x = u) :
    Touched tx s (xs ++ [x]) := by
  intro y hy
  rcases List.mem_append.1 hy with hy' | hy'
  · exact ht y hy'
  · obtain rfl := List.mem_singleton.1 hy'
    rw [hx, hf.chain_top]
    exact ⟨(Phase.ne_of_runs (hf.runs_of_mem (List.mem_cons_self ..))).1, hf.zero_mem,
      fun a ha => (Phase.ne_of_runs (hf.runs_of_mem ha)).1⟩

/-! ### What the steps keep -/

theorem Keeps.of_sameShape (hsame : SameShape s s') (hopened : ∀ v, (s.txs v).phase ≠ .queued → (s'.txs v).phase ≠ .queued)
    (hdead : ∀ v, (s.txs v).phase ≠ .queued → ((s'.txs v).phase = .ended false ↔ died v ∨ (s.txs v).phase = .ended false)) :
    Keeps s s' died :=
  ⟨fun v _ => hsame.chain v, fun v _ => hsame.opener v, fun v _ => hsame.ctx v, fun v _ => hsame.outer v, hopened, hdead⟩

theorem Started.keeps {opener : Opener} {ctx : ExecutionContext} (h : Started s s' t opener ctx) (hf : Frame s l) :
    Keeps s s' fun _ => False := by
  have hne : ∀ v, (s.txs v).phase ≠ .queued → v ≠ s.next := fun v hv heq => hv (heq ▸ hf.fresh _ (Nat.le_refl _))
  refine ⟨fun v hv => ?_, fun v hv => ?_, fun v hv => ?_, fun v hv => ?_, fun v hv => ?_, fun v hv => ?_⟩ <;>
    rw [h.kept v (hne v hv)]
  · exact hv
  · simp

theorem keeps_setTx {h : HeldTransaction} (hopener : h.opener = (s.txs u).opener) (hctx : h.ctx = (s.txs u).ctx)
    (houter : h.outer = (s.txs u).outer) (hchain : h.chain = (s.txs u).chain) (hphase : h.phase.runs = true)
    (hu : (s.txs u).phase ≠ .ended false) : Keeps s (s.setTx u h) fun _ => False := by
  refine .of_sameShape (SameShape.refl.setTx hopener hctx houter hchain) (fun v hv => ?_) (fun v hv => ?_)
  · rw [txs_setTx]
    split
    · exact (Phase.ne_of_runs hphase).1
    · exact hv
  · rw [txs_setTx]
    split
    · rename_i hvu
      refine ⟨fun h => absurd h ((Phase.ne_of_runs hphase).2 false), fun h => ?_⟩
      rcases h with h | h
      · exact h.elim
      · exact absurd (hvu ▸ h) hu
    · simp

theorem keeps_setPending {pending : Option (List PostCommitEffect)} :
    Keeps s (s.setTx t { s.txs t with pending := pending }) fun _ => False := by
  refine .of_sameShape (SameShape.refl.setTx rfl rfl rfl rfl) (fun v hv => ?_) (fun v hv => ?_) <;> rw [txs_setTx] <;> split
  · rename_i hvt
    exact hvt ▸ hv
  · exact hv
  · rename_i hvt
    rw [hvt]
    simp
  · simp

theorem keeps_settle {kept : Bool} (hut : u ≠ t)
    (hdied : ∀ v, (s.txs v).phase ≠ .queued → (died v ↔ v = u ∧ kept = false)) (hu : (s.txs u).phase ≠ .ended false) :
    Keeps s (s.settle u t kept) died := by
  refine .of_sameShape SameShape.refl.settle (fun v hv => ?_) (fun v hv => ?_) <;> rw [txs_settle hut]
  · split
    · rename_i hvt
      exact hvt ▸ hv
    · split
      · exact fun h => Phase.noConfusion h
      · exact hv
  · rw [hdied v hv]
    split
    · rename_i hvt
      rw [hvt]
      simp [hut.symm]
    · split
      · rename_i hvu
        rw [hvu]
        simp [hu]
      · rename_i hvu
        simp [hvu]

theorem keeps_setPhase {kept : Bool} (hu : (s.txs u).phase ≠ .ended false) :
    Keeps s (s.setPhase u (.ended kept)) fun v => v = u ∧ kept = false := by
  refine .of_sameShape SameShape.setPhase (fun v hv => ?_) (fun v hv => ?_) <;> rw [setPhase, txs_setTx]
  · split
    · exact fun h => Phase.noConfusion h
    · exact hv
  · split
    · rename_i hvu
      rw [hvu]
      simp [hu]
    · rename_i hvu
      simp [hvu]

/-! ### What the connection holds -/

def savepoints (s : CallChain) : List Nat → List Nat
  | [] => []
  | u :: below => if (s.txs u).phase = .released then below.dropLast else (u :: below).dropLast

def succeeded (s : CallChain) : List Statement := s.statements.filter (·.ok)

structure Connected (s : CallChain) (l : List Nat) : Prop where
  names : (s.savepoints l).Sublist s.conn.names
  nodup : s.conn.names.Nodup
  opened : ∀ n ∈ s.conn.names, (s.txs n).phase ≠ .queued
  /-- A rollback gives the transaction that was joined its settings back, and takes nothing else of it. -/
  saved : ∀ p ∈ s.conn.saved, p.1 ∈ l → (∀ t, (s.txs p.1).outer = some t → RunsUnder (s.txs t) p.2.settings) ∧
    p.2.log = apart Statement.tx s p.1 s.succeeded
  settings : ∀ u below, l = u :: below → (s.txs u).phase = .body → s.conn.aborted = false →
    RunsUnder (s.txs u) s.conn.state.settings
  log : l ≠ [] → s.conn.aborted = false → s.conn.state.log = keptOf Statement.tx s s.succeeded

theorem savepoints_congr (h : ∀ u below, l = u :: below → ((s'.txs u).phase = .released ↔ (s.txs u).phase = .released)) :
    s'.savepoints l = s.savepoints l := by
  cases l with
  | nil => rfl
  | cons u below => simp only [savepoints, h u below rfl]

theorem savepoints_of_body (hbody : (s.txs u).phase ≠ .released) : s.savepoints (u :: below) = (u :: below).dropLast := by
  simp only [savepoints, if_neg hbody]

theorem Frame.outer_mem (hf : Frame s l) (hu : u ∈ l) (ht : (s.txs u).outer = some t) : t ∈ l := by
  obtain ⟨pre, below, rfl⟩ := List.append_of_mem hu
  cases below with
  | nil =>
    have hlast : (pre ++ [u]).getLast? = some u := by simp
    rw [(hf.root u hlast).2] at ht
    cases ht
  | cons w below =>
    rw [(hf.links u w below ⟨pre, rfl⟩).1] at ht
    cases ht
    simp

/-- After a step, only the innermost transaction's side of the connection needs another look. -/
theorem Connected.of_keeps (hc : Connected s l) (hf : Frame s l) (hk : Keeps s s' died) (hl : l' ⊆ l)
    (hapart : ∀ w ∈ l', apart Statement.tx s' w s'.succeeded = apart Statement.tx s w s.succeeded)
    (hsaved : s'.conn.saved.Sublist s.conn.saved) (hnames : (s'.savepoints l').Sublist s'.conn.names)
    (hsettings : ∀ u below, l' = u :: below → (s'.txs u).phase = .body → s'.conn.aborted = false →
      RunsUnder (s'.txs u) s'.conn.state.settings)
    (hlog : l' ≠ [] → s'.conn.aborted = false → s'.conn.state.log = keptOf Statement.tx s' s'.succeeded) :
    Connected s' l' where
  names := hnames
  nodup := hc.nodup.sublist (hsaved.map _)
  opened n hn := hk.opened n (hc.opened n ((hsaved.map _).subset hn))
  saved p hp hmem := by
    obtain ⟨hunder, hlog⟩ := hc.saved p (hsaved.subset hp) (hl hmem)
    have hruns : ∀ v ∈ l, (s.txs v).phase ≠ .queued := fun v hv => (Phase.ne_of_runs (hf.runs_of_mem hv)).1
    refine ⟨fun t ht => ?_, by rw [hlog, hapart _ hmem]⟩
    rw [hk.outer _ (hruns _ (hl hmem))] at ht
    have htl := hruns t (hf.outer_mem (hl hmem) ht)
    exact (hunder t ht).congr (hk.opener t htl) (hk.ctx t htl)
  settings := hsettings
  log := hlog

/-- A step that leaves the connection and its innermost transaction's phase. -/
theorem Connected.of_same (hc : Connected s l) (hf : Frame s l) (ht : Touched Statement.tx s s.succeeded)
    (hk : Keeps s s' fun _ => False) (hconn : s'.conn = s.conn) (hstatements : s'.statements = s.statements)
    (hphase : ∀ u below, l = u :: below → ((s'.txs u).phase = .released ↔ (s.txs u).phase = .released) ∧
      ((s'.txs u).phase = .body → (s.txs u).phase = .body)) : Connected s' l := by
  have hsucceeded : s'.succeeded = s.succeeded := by rw [succeeded, hstatements, succeeded]
  refine hc.of_keeps hf hk (List.Subset.refl _) (fun w _ => ?_) (by rw [hconn]) ?_ (fun u below hl hbody habort => ?_)
    (fun hne habort => ?_)
  · rw [hsucceeded]
    exact apart_keeps ht hk
  · rw [hconn, savepoints_congr fun u below hl => (hphase u below hl).1]
    exact hc.names
  · have hmem : u ∈ l := hl ▸ List.mem_cons_self ..
    have hopened := (Phase.ne_of_runs (hf.runs_of_mem hmem)).1
    rw [hconn] at habort ⊢
    exact (hc.settings u below hl ((hphase u below hl).2 hbody) habort).congr (hk.opener u hopened) (hk.ctx u hopened)
  · rw [hconn] at habort ⊢
    rw [hsucceeded, keptOf_keeps ht hk]
    exact hc.log hne habort

/-! ### What is promised of the effects -/

/-- The effects that the open transactions collected, in the order in which they would run. -/
def pend (s : CallChain) : List Nat → List PostCommitEffect
  | [] => []
  | u :: below => s.pend below ++ ((s.txs u).pending.getD [])

structure Effects (s : CallChain) (l : List Nat) : Prop where
  apart : ∀ u below, (u :: below) <:+ l → apart PostCommitEffect.tx s u s.registered = s.pend below
  all : l ≠ [] → keptOf PostCommitEffect.tx s s.registered = s.pend l
  running : l ≠ [] → s.committed = none ∧ s.todo = [] ∧ s.ran = []
  ended : l = [] → s.committed = some (keptOf Statement.tx s s.succeeded) ∧
    s.ran ++ s.todo = keptOf PostCommitEffect.tx s s.registered
  ids : s.registered.map (·.id) = List.range s.registered.length

theorem pend_congr (h : ∀ v ∈ l, (s'.txs v).pending.getD [] = (s.txs v).pending.getD []) : s'.pend l = s.pend l := by
  induction l with
  | nil => rfl
  | cons u below ih =>
    simp only [pend]
    rw [ih fun v hv => h v (List.mem_cons_of_mem _ hv), h u (List.mem_cons_self ..)]

structure Inv (s : CallChain) (l : List Nat) : Prop where
  frame : Frame s l
  connected : Connected s l
  effects : Effects s l
  touched : Touched Statement.tx s s.statements
  touchedEffects : Touched PostCommitEffect.tx s s.registered
  under : ∀ e ∈ s.statements, RunsUnder (s.txs e.tx) e.settings
  nested : s.controls.foldlM nest [] = some (s.savepoints l)

theorem Inv.touchedSucceeded (h : Inv s l) : Touched Statement.tx s s.succeeded :=
  fun e he => h.touched e (List.mem_of_mem_filter he)

theorem under_keeps (h : Inv s l) (hk : Keeps s s' died) : ∀ e ∈ s.statements, RunsUnder (s'.txs e.tx) e.settings := by
  intro e he
  obtain ⟨hopened, _, _⟩ := h.touched e he
  exact (h.under e he).congr (hk.opener _ hopened) (hk.ctx _ hopened)

theorem Effects.of_same (he : Effects s l) (hne : l ≠ []) (ht : Touched PostCommitEffect.tx s s.registered)
    (hk : Keeps s s' fun _ => False) (hregistered : s'.registered = s.registered)
    (hrest : s'.committed = s.committed ∧ s'.todo = s.todo ∧ s'.ran = s.ran)
    (hpend : ∀ v ∈ l, (s'.txs v).pending.getD [] = (s.txs v).pending.getD []) : Effects s' l where
  apart u below hu := by
    rw [hregistered, apart_keeps ht hk, he.apart u below hu,
      pend_congr fun v hv => hpend v (hu.subset (List.mem_cons_of_mem _ hv))]
  all _ := by rw [hregistered, keptOf_keeps ht hk, he.all hne, pend_congr hpend]
  running _ := by rw [hrest.1, hrest.2.1, hrest.2.2]; exact he.running hne
  ended hl := absurd hl hne
  ids := by rw [hregistered]; exact he.ids

/-- A step that leaves the connection, and of the records and of the innermost transaction's phase everything. -/
theorem Inv.of_same (h : Inv s l) (hne : l ≠ []) (hframe : Frame s' l) (hk : Keeps s s' fun _ => False)
    (hsame : s'.conn = s.conn ∧ s'.statements = s.statements ∧ s'.registered = s.registered ∧ s'.controls = s.controls ∧
      s'.committed = s.committed ∧ s'.todo = s.todo ∧ s'.ran = s.ran)
    (hphase : ∀ u below, l = u :: below → ((s'.txs u).phase = .released ↔ (s.txs u).phase = .released) ∧
      ((s'.txs u).phase = .body → (s.txs u).phase = .body))
    (hpend : ∀ v ∈ l, (s'.txs v).pending.getD [] = (s.txs v).pending.getD []) : Inv s' l := by
  obtain ⟨hconn, hstatements, hregistered, hcontrols, hrest⟩ := hsame
  refine ⟨hframe, h.connected.of_same h.frame h.touchedSucceeded hk hconn hstatements hphase,
    h.effects.of_same hne h.touchedEffects hk hregistered hrest hpend, ?_, ?_, ?_, ?_⟩
  · rw [hstatements]
    exact h.touched.keeps hk
  · rw [hregistered]
    exact h.touchedEffects.keeps hk
  · rw [hstatements]
    exact under_keeps h hk
  · rw [hcontrols, savepoints_congr fun u below hl => (hphase u below hl).1]
    exact h.nested

/-! ### The steps -/

theorem Inv.start {opener : Opener} {ctx : ExecutionContext} (h : Inv s l) (hs : s.start t opener ctx = some s') :
    Inv s' l := by
  have hstarted := start_spec hs
  have ht : t ∈ l := h.frame.mem_of_runs (by rw [hstarted.body]; rfl)
  have hkept : ∀ v ∈ l, v ≠ s.next := fun v hv heq => h.frame.ne_of_next_le hv (Nat.le_of_eq heq.symm) rfl
  refine h.of_same (List.ne_nil_of_mem ht) (h.frame.start hs) (hstarted.keeps h.frame) ?_ (fun u below hl => ?_)
    (fun v hv => ?_)
  · rw [hstarted.rest]
    exact ⟨rfl, rfl, rfl, rfl, rfl, rfl, rfl⟩
  · rw [hstarted.kept u (hkept u (hl ▸ List.mem_cons_self ..))]
    exact ⟨Iff.rfl, id⟩
  · rw [hstarted.kept v (hkept v hv)]

theorem Inv.refuse (h : Inv s (t :: below)) (hqueued : (s.txs u).phase = .queued) (houter : (s.txs u).outer = some t) :
    Inv (s.settle u t false) (t :: below) := by
  have hu : u ∉ t :: below := h.frame.not_mem_of_queued hqueued
  have hut : u ≠ t := fun heq => hu (heq ▸ List.mem_cons_self ..)
  have hkeeps : Keeps s (s.settle u t false) fun _ => False := by
    refine keeps_settle hut (fun v hv => ?_) (by simp [hqueued])
    refine ⟨fun h => h.elim, ?_⟩
    rintro ⟨rfl, _⟩
    exact hv hqueued
  have htxs : ∀ v ∈ t :: below, ((s.settle u t false).txs v).phase = (s.txs v).phase ∧
      ((s.settle u t false).txs v).pending = (s.txs v).pending := by
    intro v hv
    rw [txs_settle hut]
    split
    · rename_i hvt
      rw [hvt]
      exact ⟨rfl, rfl⟩
    · have hvu : v ≠ u := fun heq => hu (heq ▸ hv)
      rw [if_neg hvu]
      exact ⟨rfl, rfl⟩
  refine h.of_same (List.cons_ne_nil _ _) (h.frame.refuse hqueued houter) hkeeps ⟨rfl, rfl, rfl, rfl, rfl, rfl, rfl⟩
    (fun v rest hl => ?_) (fun v hv => by rw [(htxs v hv).2])
  rw [(htxs v (hl ▸ List.mem_cons_self ..)).1]
  exact ⟨Iff.rfl, id⟩

theorem Frame.of_txs (hf : Frame s l) (htxs : s'.txs = s.txs) (hnext : s'.next = s.next) : Frame s' l := by
  cases s
  cases s'
  cases htxs
  cases hnext
  exact ⟨hf.bounded, hf.fresh, hf.closed, hf.joins, hf.nodup, hf.held, hf.chains, hf.links, hf.root⟩

theorem Keeps.of_txs {s'' : CallChain} (hk : Keeps s s' died) (htxs : s''.txs = s'.txs) : Keeps s s'' died := by
  obtain ⟨hchain, hopener, hctx, houter, hopened, hdead⟩ := hk
  constructor <;> rw [htxs] <;> assumption

/-- The innermost transaction goes on, with what that means for the connection. -/
theorem Inv.top (h : Inv s (u :: below)) (p : Phase) (identity : Option (ExecutionContext × Option String))
    (hp : p.runs = true) (hidle : (s.txs u).joined = [])
    (hidentity : p = .body → identity = some ((s.txs u).ctx, (s.txs u).opener.opName))
    (htxs : s'.txs = (s.setTx u { s.txs u with phase := p, identity := identity }).txs)
    (hsame : s'.next = s.next ∧ s'.statements = s.statements ∧ s'.registered = s.registered ∧ s'.committed = s.committed ∧
      s'.todo = s.todo ∧ s'.ran = s.ran)
    (hsaved : s'.conn.saved.Sublist s.conn.saved)
    (hsavepoints : ∃ opens, opens = (if p = .released then below.dropLast else (u :: below).dropLast) ∧
      opens.Sublist s'.conn.names ∧ s'.controls.foldlM nest [] = some opens)
    (hsettings : p = .body → s'.conn.aborted = false → RunsUnder (s.txs u) s'.conn.state.settings)
    (hlog : s'.conn.aborted = false → s.conn.aborted = false ∧ s'.conn.state.log = s.conn.state.log) : Inv s' (u :: below) := by
  obtain ⟨hnext, hstatements, hregistered, hrest⟩ := hsame
  have hsucceeded : s'.succeeded = s.succeeded := by rw [succeeded, hstatements, succeeded]
  have hphase := h.frame.runs_of_mem (List.mem_cons_self ..)
  have hheld : HeldOk { s.txs u with phase := p, identity := identity } True :=
    ⟨⟨fun _ => hp, fun _ => trivial⟩, fun hne => absurd hidle hne, hidentity⟩
  have hset : Keeps s (s.setTx u { s.txs u with phase := p, identity := identity }) fun _ => False :=
    keeps_setTx rfl rfl rfl rfl hp ((Phase.ne_of_runs hphase).2 false)
  have hkeeps : Keeps s s' fun _ => False := hset.of_txs htxs
  have htop : Frame (s.setTx u { s.txs u with phase := p, identity := identity }) (u :: below) :=
    h.frame.setTop rfl rfl rfl rfl hheld
  obtain ⟨opens, hopens, hnames, hnested⟩ := hsavepoints
  have hafter : s'.savepoints (u :: below) = opens := by
    rw [savepoints, htxs, txs_setTx, if_pos rfl]
    exact hopens.symm
  refine ⟨htop.of_txs htxs hnext, ?_, ?_, ?_, ?_, ?_, by rw [hafter]; exact hnested⟩
  · refine h.connected.of_keeps h.frame hkeeps (List.Subset.refl _) (fun w _ => ?_) hsaved
      (by rw [hafter]; exact hnames) (fun v rest hl hbody habort => ?_) (fun _ habort => ?_)
    · rw [hsucceeded]
      exact apart_keeps h.touchedSucceeded hkeeps
    · obtain rfl := (List.cons.inj hl).1
      rw [htxs, txs_setTx, if_pos rfl] at hbody ⊢
      exact (hsettings hbody habort).congr rfl rfl
    · obtain ⟨habort', hlog'⟩ := hlog habort
      rw [hlog', hsucceeded, keptOf_keeps h.touchedSucceeded hkeeps]
      exact h.connected.log (List.cons_ne_nil _ _) habort'
  · refine h.effects.of_same (List.cons_ne_nil _ _) h.touchedEffects hkeeps hregistered hrest fun v _ => ?_
    rw [htxs, txs_setTx]
    split
    · rename_i hv
      rw [hv]
    · rfl
  · rw [hstatements]
    exact h.touched.keeps hkeeps
  · rw [hregistered]
    exact h.touchedEffects.keeps hkeeps
  · rw [hstatements]
    exact under_keeps h hkeeps

theorem Inv.savepoints_top (h : Inv s (u :: below)) (hphase : (s.txs u).phase ≠ .released) :
    (u :: below).dropLast.Sublist s.conn.names ∧ s.controls.foldlM nest [] = some (u :: below).dropLast := by
  rw [← savepoints_of_body hphase]
  exact ⟨h.connected.names, h.nested⟩

theorem Inv.identify {ok : Bool} (h : Inv s l) (hs : s.identify u ok = some s') : Inv s' l := by
  unfold CallChain.identify at hs
  simp only at hs
  split at hs
  · rename_i hphase
    have hidle : (s.txs u).joined = [] := h.frame.idle_of_phase (by simp [hphase])
    obtain ⟨below, rfl⟩ := h.frame.innermost_of_idle (h.frame.mem_of_runs (by rw [hphase]; rfl)) hidle
    obtain ⟨hnames, hnested⟩ := h.savepoints_top (by simp [hphase])
    split at hs
    · rename_i hok
      obtain ⟨habort, hexec⟩ := Savepoints.exec_of_ok hok
      rw [hexec] at hs
      cases hs
      exact h.top .body _ rfl hidle (fun _ => rfl) rfl ⟨rfl, rfl, rfl, rfl, rfl, rfl⟩ (List.Sublist.refl _)
        ⟨_, rfl, hnames, hnested⟩ (fun _ _ => runsUnder_identify _ _) (fun _ => ⟨habort, rfl⟩)
    · rename_i hfail
      rw [Savepoints.exec_of_fail (by simpa using hfail)] at hs
      cases hs
      refine h.top .failing (s.txs u).identity rfl hidle (fun h => Phase.noConfusion h) rfl ⟨rfl, rfl, rfl, rfl, rfl, rfl⟩
        (List.Sublist.refl _) ⟨_, rfl, hnames, hnested⟩ (fun h => Phase.noConfusion h) (fun hnot => ?_)
      cases hnot
  · cases hs

theorem keeps_refl : Keeps s s fun _ => False :=
  .of_sameShape .refl (fun _ hv => hv) (fun _ _ => by simp)

theorem execute_spec {text : String} {ok : Bool} (habort : s.conn.aborted = false) (hbody : (s.txs u).phase = .body)
    (hidle : (s.txs u).joined = []) :
    s.execute u text ok = some { s with
      conn := if ok then { s.conn with state := { s.conn.state with
          log := s.conn.state.log ++ [⟨u, text, s.conn.state.settings, ok⟩] } }
        else { s.conn with aborted := true }
      statements := s.statements ++ [⟨u, text, s.conn.state.settings, ok⟩] } := by
  cases ok <;> simp [CallChain.execute, habort, hbody, hidle, setConn, Savepoints.exec]

theorem Inv.execute {text : String} {ok : Bool} (h : Inv s l) (hs : s.execute u text ok = some s') : Inv s' l := by
  by_cases hready : (s.txs u).phase = .body ∧ (s.txs u).joined = []
  · obtain ⟨hbody, hidle⟩ := hready
    obtain ⟨below, rfl⟩ := h.frame.innermost_of_idle (h.frame.mem_of_runs (by rw [hbody]; rfl)) hidle
    cases habort : s.conn.aborted with
    | true =>
      have hsame : s.execute u text ok = some s := by simp [CallChain.execute, hbody, hidle, habort]
      obtain rfl := Option.some.inj (hsame.symm.trans hs)
      exact h
    | false =>
      have hunder := h.connected.settings u below rfl hbody habort
      rw [execute_spec habort hbody hidle] at hs
      obtain rfl := Option.some.inj hs
      have hchain : (s.txs u).chain = u :: below := h.frame.chain_top
      refine ⟨h.frame.of_txs rfl rfl, ?_, h.effects.of_same (List.cons_ne_nil _ _) h.touchedEffects (keeps_refl.of_txs rfl)
        rfl ⟨rfl, rfl, rfl⟩ (fun _ _ => rfl), h.touched.append h.frame rfl, h.touchedEffects, ?_, h.nested⟩
      · cases ok with
        | true =>
          have hsucceeded : (s.statements ++ [(⟨u, text, s.conn.state.settings, true⟩ : Statement)]).filter (·.ok) =
              s.succeeded ++ [⟨u, text, s.conn.state.settings, true⟩] := by
            rw [List.filter_append]
            rfl
          refine h.connected.of_keeps h.frame (keeps_refl.of_txs rfl) (List.Subset.refl _) (fun w hw => ?_)
            (List.Sublist.refl _) h.connected.names (fun v rest hl hv _ => h.connected.settings v rest hl hv habort)
            (fun hne _ => ?_)
          · refine (congrArg (apart Statement.tx s w) hsucceeded).trans (apart_append ?_)
            rw [hchain]
            exact hw
          · refine Eq.trans ?_ (congrArg (keptOf Statement.tx s) hsucceeded).symm
            rw [keptOf_append h.frame.kept_top, ← h.connected.log hne habort]
            rfl
        | false =>
          have hsucceeded : (s.statements ++ [(⟨u, text, s.conn.state.settings, false⟩ : Statement)]).filter (·.ok) =
              s.succeeded := by
            rw [List.filter_append]
            exact List.append_nil _
          refine h.connected.of_keeps h.frame (keeps_refl.of_txs rfl) (List.Subset.refl _)
            (fun w _ => congrArg (apart Statement.tx s w) hsucceeded) (List.Sublist.refl _) h.connected.names
            (fun v rest hl hv hnot => ?_) (fun hne hnot => ?_)
          · cases hnot
          · cases hnot
      · intro e he
        rcases List.mem_append.1 he with he' | he'
        · exact h.under e he'
        · obtain rfl := List.mem_singleton.1 he'
          exact hunder
  · have hnone : s.execute u text ok = none := by simp [CallChain.execute, hready]
    rw [hnone] at hs
    cases hs

theorem Inv.afterCommit (h : Inv s l) (hidle : ∀ v ∈ (s.txs u).joined, (s.txs v).phase = .queued)
    (hs : s.afterCommit u = some s') : Inv s' l := by
  unfold CallChain.afterCommit at hs
  simp only at hs
  split at hs
  · rename_i hbody
    have hmem : u ∈ l := h.frame.mem_of_runs (by rw [hbody]; rfl)
    obtain ⟨below, rfl⟩ := h.frame.innermost hmem fun v hv => hidle v (List.mem_of_mem_head? hv)
    split at hs
    · cases hs
      exact h
    · rename_i pending hpending
      have heq := (Option.some.inj hs).symm
      have htxs : ∀ v, s'.txs v = if v = u then { s.txs u with
          pending := some (pending ++ [⟨u, s.registered.length⟩]) } else s.txs v := by
        intro v
        rw [heq]
        exact txs_setTx u _ v
      have hregistered : s'.registered = s.registered ++ [⟨u, s.registered.length⟩] := by rw [heq]
      have hsame : s'.conn = s.conn ∧ s'.statements = s.statements ∧ s'.controls = s.controls := by
        rw [heq]
        exact ⟨rfl, rfl, rfl⟩
      obtain ⟨hconn, hstatements, hcontrols⟩ := hsame
      have hset : Keeps s (s.setTx u { s.txs u with pending := some (pending ++ [⟨u, s.registered.length⟩]) })
          fun _ => False := keeps_setPending
      have hkeeps : Keeps s s' fun _ => False := hset.of_txs (by rw [heq])
      have hframe : Frame (s.setTx u { s.txs u with pending := some (pending ++ [⟨u, s.registered.length⟩]) }) (u :: below) :=
        h.frame.setPending
      have hphase : ∀ v, (s'.txs v).phase = (s.txs v).phase := by
        intro v
        rw [htxs]
        split
        · rename_i hvu
          rw [hvu]
        · rfl
      have htouched : Touched PostCommitEffect.tx s s'.registered := by
        rw [hregistered]
        exact h.touchedEffects.append h.frame rfl
      have hbelow : ∀ rest, rest <:+ below → s'.pend rest = s.pend rest := by
        intro rest hrest
        refine pend_congr fun v hv => ?_
        have hvu : v ≠ u := fun heq => (List.nodup_cons.1 h.frame.nodup).1 (heq ▸ hrest.subset hv)
        rw [htxs, if_neg hvu]
      refine ⟨hframe.of_txs (by rw [heq]) (by rw [heq]), h.connected.of_same h.frame h.touchedSucceeded hkeeps
        hconn hstatements (fun v _ _ => by rw [hphase]; exact ⟨Iff.rfl, id⟩), ?_, ?_, htouched.keeps hkeeps, ?_, ?_⟩
      · refine ⟨fun v rest hv => ?_, fun _ => ?_, fun _ => ?_, fun hl => absurd hl (List.cons_ne_nil _ _), ?_⟩
        · have hrest : rest <:+ below := by
            rcases List.suffix_cons_iff.1 hv with heq' | hv'
            · rw [(List.cons.inj heq').2]
            · exact (List.suffix_cons _ _).trans hv'
          rw [apart_keeps htouched hkeeps, hregistered, apart_append, h.effects.apart v rest hv, hbelow rest hrest]
          rw [h.frame.chain_top]
          exact hv.subset (List.mem_cons_self ..)
        · rw [keptOf_keeps htouched hkeeps, hregistered, keptOf_append h.frame.kept_top,
            h.effects.all (List.cons_ne_nil _ _), pend, pend, hbelow below (List.suffix_refl _), htxs, if_pos rfl, hpending]
          exact List.append_assoc _ _ _
        · rw [heq]
          exact h.effects.running (List.cons_ne_nil _ _)
        · rw [hregistered, List.map_append, h.effects.ids, List.length_append]
          exact List.range_succ.symm
      · rw [hstatements]
        exact h.touched.keeps hkeeps
      · rw [hstatements]
        exact under_keeps h hkeeps
      · have hsavepoints : s'.savepoints (u :: below) = s.savepoints (u :: below) :=
          savepoints_congr fun v _ _ => by rw [hphase]
        rw [hcontrols, hsavepoints]
        exact h.nested
  · cases hs

theorem Inv.finish {ok : Bool} (h : Inv s l) (hs : s.finish u ok = some s') : Inv s' l := by
  unfold CallChain.finish at hs
  simp only at hs
  split at hs
  · rename_i hready
    obtain ⟨hbody, hidle⟩ := hready
    obtain ⟨below, rfl⟩ := h.frame.innermost_of_idle (h.frame.mem_of_runs (by rw [hbody]; rfl)) hidle
    obtain ⟨hnames, hnested⟩ := h.savepoints_top (by simp [hbody])
    have hlog : ∀ c : Savepoints Nat Session, c = s.conn → c.aborted = false →
        s.conn.aborted = false ∧ c.state.log = s.conn.state.log := by
      rintro c rfl hc
      exact ⟨hc, rfl⟩
    cases ok <;> cases hs
    · exact h.top .failing _ rfl hidle (fun h => Phase.noConfusion h) rfl ⟨rfl, rfl, rfl, rfl, rfl, rfl⟩ (List.Sublist.refl _)
        ⟨_, rfl, hnames, hnested⟩ (fun h => Phase.noConfusion h) (hlog _ rfl)
    · exact h.top .ending _ rfl hidle (fun h => Phase.noConfusion h) rfl ⟨rfl, rfl, rfl, rfl, rfl, rfl⟩ (List.Sublist.refl _)
        ⟨_, rfl, hnames, hnested⟩ (fun h => Phase.noConfusion h) (hlog _ rfl)
  · cases hs

theorem Inv.dispatch (h : Inv s l) (hs : s.dispatch u = some s') : ∃ l', Inv s' l' := by
  unfold CallChain.dispatch at hs
  split at hs
  · rename_i t hqueued houter
    split at hs
    · rename_i hhead
      split at hs
      · rename_i hbody
        have hmem : t ∈ l := h.frame.mem_of_runs (by rw [hbody]; rfl)
        obtain ⟨below, rfl⟩ := h.frame.innermost hmem fun v hv => by
          rw [hhead] at hv
          exact Option.some.inj hv ▸ hqueued
        have hut : u ∉ t :: below := h.frame.not_mem_of_queued hqueued
        simp only at hs
        split at hs
        · rename_i hok
          obtain ⟨habort, hsave⟩ := Savepoints.savepoint_of_ok hok
          rw [hsave] at hs
          have heq := (Option.some.inj hs).symm
          have htxs : s'.txs = (s.setTx u { s.txs u with phase := .identifying, pending := some [] }).txs := by
            rw [heq]
            rfl
          have hset : Keeps s (s.setTx u { s.txs u with phase := .identifying, pending := some [] }) fun _ => False :=
            keeps_setTx rfl rfl rfl rfl rfl (by simp [hqueued])
          have hkeeps : Keeps s s' fun _ => False := hset.of_txs htxs
          have hframe : Frame s' (u :: t :: below) :=
            (h.frame.open hqueued houter hhead hbody rfl).of_txs htxs (by rw [heq]; rfl)
          have htu : ∀ v ∈ t :: below, s'.txs v = s.txs v := by
            intro v hv
            have hvu : v ≠ u := fun heq => hut (heq ▸ hv)
            rw [htxs, txs_setTx, if_neg hvu]
          have hnew : s'.txs u = { s.txs u with phase := .identifying, pending := some [] } := by
            rw [htxs, txs_setTx, if_pos rfl]
          have hconn : s'.conn = { s.conn with saved := (u, s.conn.state) :: s.conn.saved } := by
            rw [heq]
            rfl
          have hsame : s'.statements = s.statements ∧ s'.registered = s.registered ∧ s'.committed = s.committed ∧
              s'.todo = s.todo ∧ s'.ran = s.ran ∧ s'.controls = s.controls ++ [.opens u] := by
            rw [heq]
            exact ⟨rfl, rfl, rfl, rfl, rfl, rfl⟩
          obtain ⟨hstatements, hregistered, hcommitted, htodo, hran, hcontrols⟩ := hsame
          have hsucceeded : s'.succeeded = s.succeeded := by rw [succeeded, hstatements, succeeded]
          obtain ⟨hnames, hnested⟩ := h.savepoints_top (by simp [hbody])
          have hopen : s'.savepoints (u :: t :: below) = u :: (t :: below).dropLast :=
            savepoints_of_body (by simp [hnew])
          have hpend : ∀ rest, rest <:+ t :: below → s'.pend rest = s.pend rest :=
            fun rest hrest => pend_congr fun v hv => by rw [htu v (hrest.subset hv)]
          refine ⟨u :: t :: below, hframe, ?_, ?_, ?_, ?_, ?_, ?_⟩
          · refine ⟨?_, ?_, fun n hn => ?_, fun p hp hmem => ?_, fun v rest hl hv => ?_, fun _ _ => ?_⟩
            · rw [hopen, hconn]
              exact hnames.cons_cons u
            · rw [hconn]
              exact List.nodup_cons.2 ⟨fun hu => h.connected.opened u hu hqueued, h.connected.nodup⟩
            · rw [hconn] at hn
              rcases List.mem_cons.1 hn with rfl | hn'
              · rw [hnew]
                exact fun h => Phase.noConfusion h
              · exact hkeeps.opened n (h.connected.opened n hn')
            · rw [hconn] at hp
              rw [hsucceeded, apart_keeps h.touchedSucceeded hkeeps]
              rcases List.mem_cons.1 hp with rfl | hp'
              · refine ⟨fun w hw => ?_, ?_⟩
                · rw [hnew] at hw
                  obtain rfl : t = w := Option.some.inj (houter.symm.trans hw)
                  rw [htu t (List.mem_cons_self ..)]
                  exact h.connected.settings t below rfl hbody habort
                · rw [apart_queued h.touchedSucceeded hqueued]
                  exact h.connected.log (List.cons_ne_nil _ _) habort
              · have hpu : p.1 ≠ u := fun heq =>
                  h.connected.opened u (heq ▸ List.mem_map_of_mem hp') hqueued
                have hpl : p.1 ∈ t :: below := by
                  rcases List.mem_cons.1 hmem with heq | hpl
                  · exact absurd heq hpu
                  · exact hpl
                obtain ⟨hunder, hlog⟩ := h.connected.saved p hp' hpl
                refine ⟨fun w hw => ?_, hlog⟩
                rw [htu _ hpl] at hw
                rw [htu w (h.frame.outer_mem hpl hw)]
                exact hunder w hw
            · obtain rfl := (List.cons.inj hl).1
              rw [hnew] at hv
              cases hv
            · rw [hsucceeded, keptOf_keeps h.touchedSucceeded hkeeps, hconn]
              exact h.connected.log (List.cons_ne_nil _ _) habort
          · refine ⟨fun v rest hv => ?_, fun _ => ?_, fun _ => ?_, fun hl => absurd hl (List.cons_ne_nil _ _), ?_⟩
            · rw [hregistered, apart_keeps h.touchedEffects hkeeps]
              rcases List.suffix_cons_iff.1 hv with heq' | hv'
              · obtain ⟨rfl, rfl⟩ := List.cons.inj heq'
                rw [apart_queued h.touchedEffects hqueued, hpend _ (List.suffix_refl _)]
                exact h.effects.all (List.cons_ne_nil _ _)
              · rw [hpend rest ((List.suffix_cons _ _).trans hv')]
                exact h.effects.apart v rest hv'
            · rw [hregistered, keptOf_keeps h.touchedEffects hkeeps, h.effects.all (List.cons_ne_nil _ _)]
              show s.pend (t :: below) = s'.pend (t :: below) ++ (s'.txs u).pending.getD []
              rw [hnew, hpend _ (List.suffix_refl _)]
              exact (List.append_nil _).symm
            · rw [hcommitted, htodo, hran]
              exact h.effects.running (List.cons_ne_nil _ _)
            · rw [hregistered]
              exact h.effects.ids
          · rw [hstatements]
            exact h.touched.keeps hkeeps
          · rw [hregistered]
            exact h.touchedEffects.keeps hkeeps
          · rw [hstatements]
            exact under_keeps h hkeeps
          · rw [hcontrols, hopen, List.foldlM_append, hnested]
            rfl
        · cases hs
          exact ⟨_, h.refuse hqueued houter⟩
      · rename_i hbody
        refine absurd ((h.frame.held t).queue ?_) hbody
        rintro hnil
        rw [hnil] at hhead
        cases hhead
    · cases hs
  · cases hs

theorem Keeps.congr {died' : Nat → Prop} (hk : Keeps s s' died) (h : ∀ v, died v ↔ died' v) : Keeps s s' died' :=
  ⟨hk.chain, hk.opener, hk.ctx, hk.outer, hk.opened, fun v hv => by rw [hk.dead v hv, h v]⟩

theorem Keeps.trans {s'' : CallChain} (hk : Keeps s s' fun _ => False) (hk' : Keeps s' s'' died) : Keeps s s'' died where
  chain v hv := by rw [hk'.chain v (hk.opened v hv), hk.chain v hv]
  opener v hv := by rw [hk'.opener v (hk.opened v hv), hk.opener v hv]
  ctx v hv := by rw [hk'.ctx v (hk.opened v hv), hk.ctx v hv]
  outer v hv := by rw [hk'.outer v (hk.opened v hv), hk.outer v hv]
  opened v hv := hk'.opened v (hk.opened v hv)
  dead v hv := by
    rw [hk'.dead v (hk.opened v hv), hk.dead v hv]
    simp

/-- The innermost transaction is over, and the one it joined goes on. -/
theorem Inv.settle (h : Inv s (u :: t :: below)) (pending : Option (List PostCommitEffect)) (kept : Bool)
    (hphase : (s.txs u).phase ≠ .body)
    (htxs : s'.txs = ((s.setTx t { s.txs t with pending := pending }).settle u t kept).txs)
    (hsame : s'.next = s.next ∧ s'.statements = s.statements ∧ s'.registered = s.registered ∧ s'.committed = s.committed ∧
      s'.todo = s.todo ∧ s'.ran = s.ran)
    (hsaved : s'.conn.saved.Sublist s.conn.saved) (hnames : (t :: below).dropLast.Sublist s'.conn.names)
    (hsettings : s'.conn.aborted = false → RunsUnder (s.txs t) s'.conn.state.settings)
    (hlog : s'.conn.aborted = false → s'.conn.state.log =
      if kept then keptOf Statement.tx s s.succeeded else apart Statement.tx s u s.succeeded)
    (hpending : s.pend below ++ pending.getD [] = if kept then s.pend (u :: t :: below) else s.pend (t :: below))
    (hnested : s'.controls.foldlM nest [] = some (t :: below).dropLast) : Inv s' (t :: below) := by
  obtain ⟨hnext, hstatements, hregistered, hcommitted, htodo, hran⟩ := hsame
  have hsucceeded : s'.succeeded = s.succeeded := by rw [succeeded, hstatements, succeeded]
  obtain ⟨hut, hnd⟩ := List.nodup_cons.1 h.frame.nodup
  have hne : u ≠ t := fun heq => hut (heq ▸ List.mem_cons_self ..)
  obtain ⟨_, _, hbody⟩ := h.frame.links u t below (List.suffix_refl _)
  have hframe : Frame s' (t :: below) := by
    have hset : Frame (s.setTx t { s.txs t with pending := pending }) (u :: t :: below) := h.frame.setPending
    refine (hset.settle ?_).of_txs htxs (by rw [hnext]; rfl)
    rw [txs_setTx, if_neg hne]
    exact h.frame.idle_of_phase hphase
  have hkeeps : Keeps s s' fun v => v = u ∧ kept = false := by
    have hset : Keeps s (s.setTx t { s.txs t with pending := pending }) fun _ => False := keeps_setPending
    refine (hset.trans (keeps_settle hne (fun v _ => Iff.rfl) ?_)).of_txs htxs
    rw [txs_setTx, if_neg hne]
    exact (Phase.ne_of_runs (h.frame.runs_of_mem (List.mem_cons_self ..))).2 false
  have htop : (s'.txs t).phase = .body := by
    rw [htxs, txs_settle hne, if_pos rfl]
    show ((s.setTx t { s.txs t with pending := pending }).txs t).phase = .body
    rw [txs_setTx, if_pos rfl]
    exact hbody
  have hkept : ∀ (α : Type) (tx : α → Nat) (xs : List α), Touched tx s xs →
      keptOf tx s' xs = if kept then keptOf tx s xs else apart tx s u xs := by
    intro α tx xs ht
    cases kept with
    | true => exact keptOf_keeps ht (hkeeps.congr fun v => by simp)
    | false => exact keptOf_dies ht (hkeeps.congr fun v => by simp)
  have hapart : ∀ (α : Type) (tx : α → Nat) (xs : List α), Touched tx s xs → ∀ w ∈ t :: below,
      apart tx s' w xs = apart tx s w xs := by
    intro α tx xs ht w hw
    cases kept with
    | true => exact apart_keeps ht (hkeeps.congr fun v => by simp)
    | false =>
      have hdies : Keeps s s' (· = u) := hkeeps.congr fun v => by simp
      refine apart_dies h.frame ht hdies ?_
      rw [h.frame.chain_top]
      exact List.mem_cons_of_mem _ hw
  have hpend : ∀ rest, rest <:+ below → s'.pend rest = s.pend rest := by
    intro rest hrest
    refine pend_congr fun v hv => ?_
    have hvt : v ≠ t := fun heq => (List.nodup_cons.1 hnd).1 (heq ▸ hrest.subset hv)
    have hvu : v ≠ u := fun heq => hut (heq ▸ List.mem_cons_of_mem _ (hrest.subset hv))
    rw [htxs, txs_settle hne, if_neg hvt, if_neg hvu, txs_setTx, if_neg hvt]
  have hpendTop : (s'.txs t).pending = pending := by
    rw [htxs, txs_settle hne, if_pos rfl]
    show ((s.setTx t { s.txs t with pending := pending }).txs t).pending = pending
    rw [txs_setTx, if_pos rfl]
  refine ⟨hframe, ?_, ⟨fun v rest hv => ?_, fun _ => ?_, fun _ => ?_, fun hl => absurd hl (List.cons_ne_nil _ _), ?_⟩,
    ?_, ?_, ?_, ?_⟩
  · refine h.connected.of_keeps h.frame hkeeps (List.subset_cons_self _ _) (fun w hw => ?_) hsaved ?_
      (fun v rest hl _ habort => ?_) (fun _ habort => ?_)
    · rw [hsucceeded]
      exact hapart _ _ _ h.touchedSucceeded w hw
    · rw [savepoints_of_body (by simp [htop])]
      exact hnames
    · obtain rfl := (List.cons.inj hl).1
      have hopened : (s.txs t).phase ≠ .queued := by rw [hbody]; exact fun h => Phase.noConfusion h
      exact (hsettings habort).congr (hkeeps.opener t hopened) (hkeeps.ctx t hopened)
    · rw [hlog habort, hsucceeded, hkept _ _ _ h.touchedSucceeded]
  · have hrest : rest <:+ below := by
      rcases List.suffix_cons_iff.1 hv with heq' | hv'
      · rw [(List.cons.inj heq').2]
      · exact (List.suffix_cons _ _).trans hv'
    rw [hregistered, hapart _ _ _ h.touchedEffects v (hv.subset (List.mem_cons_self ..)),
      h.effects.apart v rest (hv.trans (List.suffix_cons _ _)), hpend rest hrest]
  · rw [hregistered, hkept _ _ _ h.touchedEffects, pend, hpendTop, hpend below (List.suffix_refl _), hpending]
    cases kept with
    | true => exact h.effects.all (List.cons_ne_nil _ _)
    | false => exact h.effects.apart u (t :: below) (List.suffix_refl _)
  · rw [hcommitted, htodo, hran]
    exact h.effects.running (List.cons_ne_nil _ _)
  · rw [hregistered]
    exact h.effects.ids
  · rw [hstatements]
    exact h.touched.keeps hkeeps
  · rw [hregistered]
    exact h.touchedEffects.keeps hkeeps
  · rw [hstatements]
    exact under_keeps h hkeeps
  · rw [savepoints_of_body (by simp [htop])]
    exact hnested

@[simp] theorem setTx_self : s.setTx t { s.txs t with pending := (s.txs t).pending } = s := by
  simp [setTx]

theorem Frame.below_of_outer (hf : Frame s (u :: below)) (houter : (s.txs u).outer = some t) : ∃ rest, below = t :: rest := by
  cases below with
  | nil =>
    rw [(hf.root u rfl).2] at houter
    cases houter
  | cons w rest =>
    rw [(hf.links u w rest (List.suffix_refl _)).1] at houter
    cases houter
    exact ⟨rest, rfl⟩

theorem Frame.below_of_root (hf : Frame s (u :: below)) (houter : (s.txs u).outer = none) : u = 0 ∧ below = [] := by
  cases below with
  | nil => exact ⟨(hf.root u rfl).1, rfl⟩
  | cons w rest =>
    rw [(hf.links u w rest (List.suffix_refl _)).1] at houter
    cases houter

theorem Inv.end {kept : Bool} (h : Inv s [0]) (hphase : (s.txs 0).phase ≠ .body)
    (htxs : s'.txs = (s.setPhase 0 (.ended kept)).txs)
    (hsame : s'.next = s.next ∧ s'.statements = s.statements ∧ s'.registered = s.registered ∧ s'.ran = s.ran ∧
      s'.conn = s.conn ∧ s'.controls = s.controls)
    (hcommitted : s'.committed = some (if kept then keptOf Statement.tx s s.succeeded else []))
    (htodo : s'.todo = if kept then s.pend [0] else []) : Inv s' [] := by
  obtain ⟨hnext, hstatements, hregistered, hran, hconn, hcontrols⟩ := hsame
  have hsucceeded : s'.succeeded = s.succeeded := by rw [succeeded, hstatements, succeeded]
  have hdead := (Phase.ne_of_runs (h.frame.runs_of_mem (List.mem_cons_self ..))).2 false
  have hend : Frame (s.setPhase 0 (.ended kept)) [] := h.frame.end (h.frame.idle_of_phase hphase)
  have hset : Keeps s (s.setPhase 0 (.ended kept)) fun v => v = 0 ∧ kept = false := keeps_setPhase hdead
  have hkeeps : Keeps s s' fun v => v = 0 ∧ kept = false := hset.of_txs htxs
  -- where the transaction is rolled back, nothing is apart from it
  have hkept : ∀ (α : Type) (tx : α → Nat) (xs : List α), Touched tx s xs →
      keptOf tx s' xs = if kept then keptOf tx s xs else [] := by
    intro α tx xs ht
    cases kept with
    | true => exact keptOf_keeps ht (hkeeps.congr fun v => by simp)
    | false =>
      have hdies : Keeps s s' (· = 0) := hkeeps.congr fun v => by simp
      rw [keptOf_dies ht hdies]
      refine List.filter_eq_nil_iff.2 fun x hx => ?_
      simp [(ht x hx).2.1]
  obtain ⟨_, _, hranNil⟩ := h.effects.running (List.cons_ne_nil _ _)
  refine ⟨hend.of_txs htxs hnext, ?_, ?_, ?_, ?_, ?_, ?_⟩
  · refine h.connected.of_keeps h.frame hkeeps (List.nil_subset _) (fun w hw => ?_) (by rw [hconn]) (List.nil_sublist _)
      (fun v rest hl => ?_) (fun hne => absurd rfl hne)
    · cases hw
    · cases hl
  · refine ⟨fun v rest hv => ?_, fun hne => absurd rfl hne, fun hne => absurd rfl hne, fun _ => ⟨?_, ?_⟩, ?_⟩
    · cases List.suffix_nil.1 hv
    · rw [hcommitted, hsucceeded, hkept _ _ _ h.touchedSucceeded]
    · rw [hran, hranNil, htodo, hregistered, hkept _ _ _ h.touchedEffects]
      cases kept with
      | true => exact (h.effects.all (List.cons_ne_nil _ _)).symm
      | false => rfl
    · rw [hregistered]
      exact h.effects.ids
  · rw [hstatements]
    exact h.touched.keeps hkeeps
  · rw [hregistered]
    exact h.touchedEffects.keeps hkeeps
  · rw [hstatements]
    exact under_keeps h hkeeps
  · have hsavepoints : s.savepoints [0] = [] := by
      simp only [savepoints]
      split <;> rfl
    rw [hcontrols, h.nested, hsavepoints]
    rfl

theorem Inv.release (h : Inv s l) (hs : s.release u = some s') : ∃ l', Inv s' l' := by
  unfold CallChain.release at hs
  simp only at hs
  split at hs
  · rename_i hphase houter
    obtain ⟨below, rfl⟩ := h.frame.innermost_of_phase (u := u) (by rw [hphase]; rfl) (by simp [hphase])
    obtain ⟨rfl, rfl⟩ := h.frame.below_of_root houter
    split at hs
    · cases hs
      exact ⟨[], h.end (by simp [hphase]) rfl ⟨rfl, rfl, rfl, rfl, rfl, rfl⟩ rfl
        (h.effects.running (List.cons_ne_nil _ _)).2.1⟩
    · rename_i habort
      cases hs
      refine ⟨[], h.end (by simp [hphase]) rfl ⟨rfl, rfl, rfl, rfl, rfl, rfl⟩ ?_ ?_⟩
      · have hlog := h.connected.log (List.cons_ne_nil _ _) (by simpa using habort)
        show some s.conn.state.log = some (keptOf Statement.tx s s.succeeded)
        rw [hlog]
      · rfl
  · rename_i t hphase houter
    obtain ⟨below, rfl⟩ := h.frame.innermost_of_phase (u := u) (by rw [hphase]; rfl) (by simp [hphase])
    obtain ⟨rest, rfl⟩ := h.frame.below_of_outer houter
    obtain ⟨hnames, hnested⟩ := h.savepoints_top (by simp [hphase])
    have hidle := h.frame.idle_of_phase (u := u) (by simp [hphase])
    cases habort : s.conn.aborted with
    | true =>
      rw [Savepoints.release_of_aborted habort] at hs
      cases hs
      refine ⟨_, h.top .failing _ rfl hidle (fun h => Phase.noConfusion h) rfl ⟨rfl, rfl, rfl, rfl, rfl, rfl⟩
        (List.Sublist.refl _) ⟨_, rfl, hnames, hnested⟩ (fun h => Phase.noConfusion h) (fun hnot => ?_)⟩
      cases hnot
    | false =>
      obtain ⟨saved, hrelease, hsub, hsaved⟩ := Savepoints.release_of_open hnames h.connected.nodup habort
      rw [hrelease] at hs
      cases hs
      refine ⟨_, h.top .released _ rfl hidle (fun h => Phase.noConfusion h) rfl ⟨rfl, rfl, rfl, rfl, rfl, rfl⟩ hsaved
        ⟨_, rfl, hsub, ?_⟩ (fun h => Phase.noConfusion h) (fun _ => ⟨habort, rfl⟩)⟩
      show (s.controls ++ [Control.closes u]).foldlM nest [] = _
      rw [List.foldlM_append, hnested]
      simp [nest]
  · cases hs

theorem Inv.rollback (h : Inv s l) (hs : s.rollback u = some s') : ∃ l', Inv s' l' := by
  unfold CallChain.rollback at hs
  simp only at hs
  split at hs
  · rename_i hphase houter
    obtain ⟨below, rfl⟩ := h.frame.innermost_of_phase (u := u) (by rw [hphase]; rfl) (by simp [hphase])
    obtain ⟨rfl, rfl⟩ := h.frame.below_of_root houter
    cases hs
    exact ⟨[], h.end (by simp [hphase]) rfl ⟨rfl, rfl, rfl, rfl, rfl, rfl⟩ rfl
      (h.effects.running (List.cons_ne_nil _ _)).2.1⟩
  · rename_i t hphase houter
    obtain ⟨below, rfl⟩ := h.frame.innermost_of_phase (u := u) (by rw [hphase]; rfl) (by simp [hphase])
    obtain ⟨rest, rfl⟩ := h.frame.below_of_outer houter
    obtain ⟨hnames, hnested⟩ := h.savepoints_top (by simp [hphase])
    obtain ⟨st, saved, hst, hrollback, hsub, hsaved⟩ := Savepoints.rollbackTo_of_open hnames h.connected.nodup
    obtain ⟨hunder, hlog⟩ := h.connected.saved _ hst (List.mem_cons_self ..)
    rw [hrollback] at hs
    have heq := (Option.some.inj hs).symm
    refine ⟨t :: rest, h.settle (s.txs t).pending false (by simp [hphase]) ?_ ?_ ?_ ?_ (fun _ => ?_) (fun _ => ?_) rfl ?_⟩
    · rw [setTx_self, heq]
      rfl
    · rw [heq]
      exact ⟨rfl, rfl, rfl, rfl, rfl, rfl⟩
    · rw [heq]
      exact hsaved
    · rw [heq]
      exact hsub
    · rw [heq]
      exact hunder t houter
    · rw [heq]
      exact hlog
    · rw [heq]
      show (s.controls ++ [Control.closes u]).foldlM nest [] = _
      rw [List.foldlM_append, hnested]
      simp [nest]
  · cases hs

theorem merge_spec {effects : List PostCommitEffect} {pending : Option (List PostCommitEffect)}
    (h : effects = [] ∨ pending.isSome = true) :
    ∃ merged, mergeSavepointEffects effects pending = some merged ∧ merged.getD [] = pending.getD [] ++ effects := by
  cases effects with
  | nil => exact ⟨pending, rfl, (List.append_nil _).symm⟩
  | cons e rest =>
    cases pending with
    | none => rcases h with h | h <;> cases h
    | some p => exact ⟨some (p ++ e :: rest), rfl, rfl⟩

theorem Inv.rejoin {ok : Bool} (h : Inv s l)
    (hcollects : ∀ t ∈ (s.txs u).outer, (s.txs u).pending.getD [] = [] ∨ (s.txs t).pending.isSome = true)
    (hs : s.rejoin u ok = some s') : ∃ l', Inv s' l' := by
  unfold CallChain.rejoin at hs
  simp only at hs
  split at hs
  · rename_i t hphase houter
    obtain ⟨below, rfl⟩ := h.frame.innermost_of_phase (u := u) (by rw [hphase]; rfl) (by simp [hphase])
    obtain ⟨rest, rfl⟩ := h.frame.below_of_outer houter
    obtain ⟨_, _, hbody⟩ := h.frame.links u t rest (List.suffix_refl _)
    have hopen : s.savepoints (u :: t :: rest) = (t :: rest).dropLast := if_pos hphase
    have hnames := h.connected.names
    have hnested := h.nested
    rw [hopen] at hnames hnested
    obtain ⟨pending, hmerge, hpending⟩ := merge_spec (hcollects t houter)
    have hpend : s.pend rest ++ pending.getD [] = s.pend (u :: t :: rest) := by
      rw [hpending, pend, pend, List.append_assoc]
    have hidentity := (h.frame.held t).identity hbody
    rw [hmerge, hidentity] at hs
    simp only at hs
    have hlog := h.connected.log (List.cons_ne_nil _ _)
    cases hok : (s.conn.exec (fun σ => { σ with
        settings := setIdentity (s.txs t).opener.holder (s.txs t).ctx (s.txs t).opener.opName }) ok).2 with
    | true =>
      obtain ⟨habort, hexec⟩ := Savepoints.exec_of_ok hok
      rw [hexec] at hs
      have heq := (Option.some.inj hs).symm
      refine ⟨t :: rest, h.settle pending true (by simp [hphase]) ?_ ?_ ?_ ?_ (fun _ => ?_) (fun _ => ?_) hpend ?_⟩
      · rw [heq, ← hidentity]
        rfl
      · rw [heq]
        exact ⟨rfl, rfl, rfl, rfl, rfl, rfl⟩
      · rw [heq]
        exact List.Sublist.refl _
      · rw [heq]
        exact hnames
      · rw [heq]
        exact runsUnder_setIdentity _
      · rw [heq]
        exact hlog habort
      · rw [heq]
        exact hnested
    | false =>
      rw [Savepoints.exec_of_fail hok] at hs
      have heq := (Option.some.inj hs).symm
      have haborted : s'.conn.aborted = true := by
        rw [heq]
        rfl
      refine ⟨t :: rest, h.settle pending true (by simp [hphase]) ?_ ?_ ?_ ?_ (fun hnot => ?_) (fun hnot => ?_) hpend ?_⟩
      · rw [heq, ← hidentity]
        rfl
      · rw [heq]
        exact ⟨rfl, rfl, rfl, rfl, rfl, rfl⟩
      · rw [heq]
        exact List.Sublist.refl _
      · rw [heq]
        exact hnames
      · rw [haborted] at hnot
        cases hnot
      · rw [haborted] at hnot
        cases hnot
      · rw [heq]
        exact hnested
  · cases hs

theorem Inv.runEffect (h : Inv s l) (hs : s.runEffect = some s') : Inv s' l := by
  unfold CallChain.runEffect at hs
  split at hs
  · rename_i e rest htodo
    cases hs
    have hnil : l = [] := by
      by_contra hne
      rw [(h.effects.running hne).2.1] at htodo
      cases htodo
    subst hnil
    obtain ⟨hcommitted, hran⟩ := h.effects.ended rfl
    refine ⟨h.frame.of_txs rfl rfl, h.connected.of_same h.frame h.touchedSucceeded (keeps_refl.of_txs rfl) rfl rfl
      (fun _ _ hl => ?_), ⟨fun v rest hv => ?_, fun hne => absurd rfl hne, fun hne => absurd rfl hne,
        fun _ => ⟨hcommitted, ?_⟩, h.effects.ids⟩, h.touched, h.touchedEffects, h.under, h.nested⟩
    · cases hl
    · cases List.suffix_nil.1 hv
    · rw [htodo] at hran
      show (s.ran ++ [e]) ++ rest = _
      rw [List.append_assoc]
      exact hran
  · cases hs

/-! ### The run -/

/-- No call that collected effects returns to a transaction that collects none, and no transaction registers an effect while
a call that joined it is open. -/
def Meets (s : CallChain) : Action → Prop
  | .rejoin u _ => ∀ t ∈ (s.txs u).outer, (s.txs u).pending.getD [] = [] ∨ (s.txs t).pending.isSome = true
  | .afterCommit u => ∀ v ∈ (s.txs u).joined, (s.txs v).phase = .queued
  | _ => True

instance (s : CallChain) (a : Action) : Decidable (Meets s a) := by
  cases a <;> unfold Meets <;> infer_instance

inductive Run (meets : CallChain → Action → Prop) (opener : Opener) (ctx : ExecutionContext) : CallChain → Prop
  | init : Run meets opener ctx (init opener ctx)
  | step {s s' : CallChain} {a : Action} (h : Run meets opener ctx s) (hmeets : meets s a) (hs : s.step a = some s') :
    Run meets opener ctx s'

theorem Frame.init (opener : Opener) (ctx : ExecutionContext) : Frame (init opener ctx) [0] := by
  have hone : ∀ v, v ≠ 0 → (CallChain.init opener ctx).txs v = { opener := opener, ctx := ctx } := by
    intro v hv
    simp [CallChain.init, hv]
  refine ⟨fun v a ha => ?_, fun v hv => ?_, fun v u hu => ?_, fun v t ht => ?_, List.nodup_singleton _, fun v => ?_,
    fun u below hu => ?_, fun u t below hu => ?_, fun u hu => ?_⟩
  · by_cases hv : v = 0
    · subst hv
      obtain rfl := List.mem_singleton.1 ha
      exact Nat.zero_lt_one
    · rw [hone v hv] at ha
      cases ha
  · rw [hone v (Nat.ne_of_gt hv)]
  · by_cases hv : v = 0
    · subst hv
      obtain rfl := List.mem_singleton.1 hu
      exact List.Subset.refl _
    · rw [hone v hv] at hu
      cases hu
  · by_cases hv : v = 0
    · subst hv
      cases ht
    · rw [hone v hv] at ht
      cases ht
  · by_cases hv : v = 0
    · subst hv
      refine ⟨⟨fun _ => rfl, fun _ => List.mem_cons_self ..⟩, fun h => absurd rfl h, fun h => ?_⟩
      cases h
    · rw [hone v hv]
      refine ⟨⟨fun h => absurd (List.mem_singleton.1 h) hv, fun h => ?_⟩, fun h => absurd rfl h, fun h => ?_⟩
      · cases h
      · cases h
  · rcases List.suffix_cons_iff.1 hu with heq | hu'
    · obtain ⟨rfl, rfl⟩ := List.cons.inj heq
      rfl
    · cases List.suffix_nil.1 hu'
  · cases mem_of_suffix hu
  · obtain rfl : 0 = u := Option.some.inj hu
    exact ⟨rfl, rfl⟩

theorem Inv.init (opener : Opener) (ctx : ExecutionContext) : Inv (init opener ctx) [0] := by
  refine ⟨Frame.init opener ctx, ⟨List.nil_sublist _, List.nodup_nil, fun n hn => ?_, fun p hp => ?_,
    fun u below hl hbody => ?_, fun _ _ => rfl⟩, ⟨fun u below hu => ?_, fun _ => ?_, fun _ => ⟨rfl, rfl, rfl⟩,
      fun hl => absurd hl (List.cons_ne_nil _ _), rfl⟩, fun x hx => ?_, fun x hx => ?_, fun e he => ?_, rfl⟩
  · cases hn
  · cases hp
  · obtain rfl := (List.cons.inj hl).1
    cases hbody
  · rcases List.suffix_cons_iff.1 hu with heq | hu'
    · rw [(List.cons.inj heq).2]
      rfl
    · cases List.suffix_nil.1 hu'
  · show [] = [] ++ (if opener.collects then some [] else none).getD []
    split <;> rfl
  · cases hx
  · cases hx
  · cases he

theorem Inv.step {a : Action} (h : Inv s l) (hmeets : Meets s a) (hs : s.step a = some s') : ∃ l', Inv s' l' := by
  cases a with
  | start t opener ctx => exact ⟨l, h.start hs⟩
  | dispatch u => exact h.dispatch hs
  | identify u ok => exact ⟨l, h.identify hs⟩
  | execute u text ok => exact ⟨l, h.execute hs⟩
  | afterCommit u => exact ⟨l, h.afterCommit hmeets hs⟩
  | finish u ok => exact ⟨l, h.finish hs⟩
  | release u => exact h.release hs
  | rollback u => exact h.rollback hs
  | rejoin u ok => exact h.rejoin hmeets hs
  | runEffect => exact ⟨l, h.runEffect hs⟩

theorem Inv.of_run {opener : Opener} {ctx : ExecutionContext} (h : Run Meets opener ctx s) : ∃ l, Inv s l := by
  induction h with
  | init => exact ⟨_, Inv.init opener ctx⟩
  | step _ hmeets hs ih =>
    obtain ⟨l, hl⟩ := ih
    exact hl.step hmeets hs

theorem Inv.kept_eq_commits (h : Inv s []) (ht : Touched tx s xs) :
    keptOf tx s xs = xs.filter fun x => s.commits (tx x) := by
  refine List.filter_congr fun x hx => ?_
  rw [Bool.eq_iff_iff, kept_iff]
  simp only [commits, List.all_eq_true, decide_eq_true_eq]
  refine forall₂_congr fun a ha => ?_
  cases hphase : (s.txs a).phase with
  | ended kept => cases kept <;> simp
  | queued => exact absurd hphase ((ht x hx).2.2 a ha)
  | identifying | body | ending | failing | released =>
    have hruns : a ∈ ([] : List Nat) := h.frame.mem_of_runs (by rw [hphase]; rfl)
    cases hruns

/-- Every statement runs under the identity of the transaction that issued it; the savepoints are closed in the order opposite
to that in which they were opened; the connection's transaction holds, and leaves, the statements of the transactions that were not
rolled back and no others; and the effects that run are those of the committed transactions, each once and as registered. -/
theorem joinHeld_isolates {opener : Opener} {ctx : ExecutionContext} (h : Run Meets opener ctx s) :
    (∀ e ∈ s.statements, RunsUnder (s.txs e.tx) e.settings) ∧
    (∃ savepoints, s.controls.foldlM nest [] = some savepoints ∧ (s.committed.isSome = true → savepoints = [])) ∧
    (s.committed = none → (s.conn.aborted = false → s.conn.state.log = s.succeeded.filter fun e => s.kept e.tx) ∧
      s.ran = [] ∧ s.todo = []) ∧
    (∀ log, s.committed = some log → log = (s.succeeded.filter fun e => s.commits e.tx) ∧
      s.ran ++ s.todo = s.registered.filter fun e => s.commits e.tx) ∧
    s.registered.Nodup := by
  obtain ⟨l, hinv⟩ := Inv.of_run h
  have hnodup : s.registered.Nodup := by
    refine List.Nodup.of_map (·.id) ?_
    rw [hinv.effects.ids]
    exact List.nodup_range
  by_cases hl : l = []
  · subst hl
    obtain ⟨hcommitted, hran⟩ := hinv.effects.ended rfl
    refine ⟨hinv.under, ⟨_, hinv.nested, fun _ => rfl⟩, fun hnone => ?_, fun log hlog => ⟨?_, ?_⟩, hnodup⟩
    · rw [hcommitted] at hnone
      cases hnone
    · rw [hcommitted] at hlog
      rw [← hinv.kept_eq_commits hinv.touchedSucceeded]
      exact (Option.some.inj hlog).symm
    · rw [hran]
      exact hinv.kept_eq_commits hinv.touchedEffects
  · obtain ⟨hnone, htodo, hran⟩ := hinv.effects.running hl
    refine ⟨hinv.under, ⟨_, hinv.nested, fun hsome => ?_⟩, fun _ => ⟨hinv.connected.log hl, hran, htodo⟩,
      fun log hlog => ?_, hnodup⟩
    · rw [hnone] at hsome
      cases hsome
    · rw [hnone] at hlog
      cases hlog

/-! ### A call that changes a link while a page is previewed -/

def runFrom (meets : CallChain → Action → Prop) [∀ s a, Decidable (meets s a)] (s : CallChain) :
    List Action → Option CallChain
  | [] => some s
  | a :: as => if meets s a then (s.step a).bind fun s' => runFrom meets s' as else none

theorem Run.of_runFrom {meets : CallChain → Action → Prop} [∀ s a, Decidable (meets s a)] {opener : Opener}
    {ctx : ExecutionContext} {actions : List Action} (h : Run meets opener ctx s) (hrun : runFrom meets s actions = some s') :
    Run meets opener ctx s' := by
  induction actions generalizing s with
  | nil =>
    cases hrun
    exact h
  | cons a actions ih =>
    rw [runFrom] at hrun
    split at hrun
    · rename_i hmeets
      obtain ⟨s1, hs1, hrest⟩ := Option.bind_eq_some_iff.1 hrun
      exact ih (h.step hmeets hs1) hrest
    · cases hrun

def joinedCall : List Action :=
  [.identify 0 true, .start 0 (.operation "pages.update") { actorId := "system", actorKind := .plugin, pluginId := some "urls" },
    .dispatch 1, .identify 1 true, .afterCommit 1, .finish 1 true, .release 1, .rejoin 1 true,
    .execute 0 "SELECT pages" true, .finish 0 true, .release 0, .runEffect]

def editor : ExecutionContext := { actorId := "editor", actorKind := .human }

/-- In an operation. -/
def updated : CallChain :=
  (runFrom Meets (CallChain.init (.operation "pages.compose") editor) joinedCall).get (by decide)

theorem joinHeld_isolates_updated :
    updated.statements ≠ [] ∧ ∀ e ∈ updated.statements, RunsUnder (updated.txs e.tx) e.settings :=
  ⟨by decide, (joinHeld_isolates (Run.init.of_runFrom (Option.some_get _).symm)).1⟩

/-- In a read, with which the caller goes on although the call failed. -/
def previewed : CallChain :=
  (runFrom (fun _ _ => True) (CallChain.init (.read "pages.preview") editor) (joinedCall.take 9)).get (by decide)

theorem joinHeld_leaks : ¬ ∀ opener ctx s, Run (fun _ _ => True) opener ctx s →
    ∀ e ∈ s.statements, RunsUnder (s.txs e.tx) e.settings := by
  intro hall
  have hunder := hall _ _ previewed (Run.init.of_runFrom (Option.some_get _).symm) _
    (List.head_mem (show previewed.statements ≠ [] by decide))
  exact absurd hunder.actorId (by decide)

end CallChain

end CaeloCms.Query
