import CaeloCms.Draft.EntityLock

/-!
# Permitted writes of the shared draft

A change is committed late for a read when the read began at or after the time in the change's header and was executed
before the change was committed.  In a run without such commits a draft chat that is permitted to write the entity has
read, or was told about, every pending change of another chat (`permitted_known`).  With one, it overwrites a change it
never saw (`permitted_unseen`).
-/

namespace CaeloCms.EntityLock

open LockedRow

/-! ### What a chat knows -/

def Foreign (s : Db) (chat : Nat) (c : Change) : Prop :=
  c ∈ s.changes ∧ c.branch = .draft ∧ s.pending c = true ∧ c.owner ≠ some chat

def Known (s : Db) (chat : Nat) (c : Change) : Prop := c ∈ s.readBy chat ∨ ∃ conflict ∈ s.conflicts chat, c ∈ conflict

def AllKnown (s : Db) (chat : Nat) : Prop := ∀ c, Foreign s chat c → Known s chat c

/-- Every foreign change up to the time `at_` is in `view` or known. -/
def Covers (s : Db) (chat : Nat) (at_ : Int) (view : List Change) : Prop :=
  ∀ c, Foreign s chat c → c.createdAt ≤ at_ → c ∈ view ∨ Known s chat c

/-- Whether the step is no late commit. -/
def Timely (s : Db) : Action → Prop
  | .commit tx => ∀ t, s.txs tx = some t → ∀ c ∈ t.wrote, c.branch = .draft → ∀ chat, c.owner ≠ some chat →
      (∀ at_, (s.seen chat).committed = some at_ → at_ < c.createdAt) ∧
      (∀ tx' t' began, s.txs tx' = some t' → t'.chat = chat → t'.kind = .read began → t'.view.isSome = true →
        t'.start < c.createdAt) ∧
      (∀ call ∈ s.reads chat, call.began < c.createdAt)
  | _ => True

/-- The states of the runs without a late commit. -/
inductive TimelyRun : Db → Prop
  | init : TimelyRun init
  | step {s s' : Db} {a : Action} (h : TimelyRun s) (timely : Timely s a) (hs : EntityLock.step s a = some s') :
    TimelyRun s'

/-! ### The invariant -/

/-- The transaction has locked the lock row, which it will leave as `row`. -/
def Holds (s : Db) (tx : Nat) (row : LockRow) : Prop := s.lock.lock = some (tx, some row)

/-- The call went past the draft check or the takeover. -/
def Check.granted : Check → Prop
  | .checked _ => True
  | .adopted => True
  | .permitted => True
  | _ => False

/-- The conflict the call has found and not yet reported. -/
def Check.over : Check → List Change
  | .checked stale => stale
  | _ => []

def Tx.readUpTo (t : Tx) : Option Int :=
  match t.kind with
  | .read _ => some t.start
  | .observe call => some call.began
  | .write => none

structure TxInv (s : Db) (tx : Nat) (t : Tx) : Prop where
  inserted : t.check = .inserted → s.lock.visible tx ≠ none
  locked : ∀ row, t.check = .locked row → Holds s tx row
  granted : t.check.granted ∨ t.wrote ≠ [] ∨ t.moved ≠ [] → ∃ row, Holds s tx row ∧ row.branch = t.branch
  moved : ∀ row, Holds s tx row → ∀ c ∈ s.changes, s.pending c = true → c.branch = row.branch ∨ c ∈ t.moved
  away : ∀ c ∈ t.moved, c.branch ≠ t.branch
  wrote : ∀ c ∈ t.wrote, c.branch = t.branch ∧ (t.isCaller = true → c.owner = some t.chat)
  known : t.check.granted → t.branch = .draft → t.isCaller = true →
    ∀ c, Foreign s t.chat c → Known s t.chat c ∨ c ∈ t.check.over
  identified : (∃ stale, t.check = .checked stale) ∨ t.check = .adopted → t.branch = .draft ∧ t.isCaller = true
  reading : ∀ began, t.kind = .read began → began ≤ t.start ∧ ∀ view, t.view = some view → Covers s t.chat t.start view
  observing : ∀ call, t.kind = .observe call → call ∈ s.reads t.chat
  reader : t.kind ≠ .write → t.check = .notCalled ∧ t.wrote = [] ∧ t.moved = []

inductive MarkInv (s : Db) (tx : Nat) (t : Tx) (chat : Nat) (mark : Option Int) : Prop
  | write (hchat : t.chat = chat) (hkind : t.kind = .write) (hcaller : t.isCaller = true)
      (hrow : ∃ row, Holds s tx row) (known : AllKnown s chat)
  | read (hchat : t.chat = chat) (bound : Int) (hbound : t.readUpTo = some bound) (hrecorded : t.recorded = true)
      (hmark : ∀ m, mark = some m → m ≤ bound ∨ ∃ old, (s.seen chat).committed = some old ∧ m ≤ old)

structure Inv (s : Db) : Prop where
  txs : ∀ tx t, s.txs tx = some t → TxInv s tx t
  /-- The pending changes are on the branch the lock row names. -/
  home : ∀ c ∈ s.changes, s.pending c = true → ∃ row, s.lock.committed = some row ∧ c.branch = row.branch
  lock : ∀ tx v, s.lock.lock = some (tx, v) → v ≠ none ∧ ∃ t, s.txs tx = some t ∧ t.kind = .write
  seen : ∀ chat at_, (s.seen chat).committed = some at_ → Covers s chat at_ []
  marks : ∀ chat tx mark, (s.seen chat).lock = some (tx, mark) → ∃ t, s.txs tx = some t ∧ MarkInv s tx t chat mark
  reads : ∀ chat, ∀ call ∈ s.reads chat, Covers s chat call.began call.view

/-! ### Steps that keep the committed changes -/

/-- The same committed changes, of which no more are pending and no fewer are known. -/
structure Extends (s s' : Db) : Prop where
  changes : s'.changes = s.changes
  consumed : ∀ h ∈ s.consumed, h ∈ s'.consumed
  reads : ∀ chat, ∀ call ∈ s.reads chat, call ∈ s'.reads chat
  readBy : ∀ chat, ∀ c ∈ s.readBy chat, c ∈ s'.readBy chat
  conflicts : ∀ chat, ∀ conflict ∈ s.conflicts chat, conflict ∈ s'.conflicts chat

section Extends

variable {s s' : Db} {chat tx : Nat} {t : Tx}

theorem Extends.of_eq (hc : s'.changes = s.changes) (hp : s'.consumed = s.consumed) (hr : s'.reads = s.reads)
    (hb : s'.readBy = s.readBy) (hx : s'.conflicts = s.conflicts) : Extends s s' :=
  ⟨hc, fun h hh => by rwa [hp], fun chat c hc => by rwa [hr], fun chat c hc => by rwa [hb],
    fun chat c hc => by rwa [hx]⟩

theorem Extends.pending (h : Extends s s') {c : Change} (hc : s'.pending c = true) : s.pending c = true := by
  unfold Db.pending at hc ⊢
  simp only [Bool.not_eq_true', List.contains_eq_mem, decide_eq_false_iff_not] at hc ⊢
  exact fun hmem => hc (h.consumed _ hmem)

theorem Extends.foreign (h : Extends s s') {c : Change} (hc : Foreign s' chat c) : Foreign s chat c := by
  obtain ⟨hmem, hbranch, hpending, howner⟩ := hc
  exact ⟨h.changes ▸ hmem, hbranch, h.pending hpending, howner⟩

theorem Extends.known (h : Extends s s') {c : Change} (hc : Known s chat c) : Known s' chat c := by
  rcases hc with hc | ⟨conflict, hconflict, hc⟩
  · exact Or.inl (h.readBy chat c hc)
  · exact Or.inr ⟨conflict, h.conflicts chat conflict hconflict, hc⟩

theorem Extends.allKnown (h : Extends s s') (hk : AllKnown s chat) : AllKnown s' chat :=
  fun c hc => h.known (hk c (h.foreign hc))

theorem Extends.covers (h : Extends s s') {at_ : Int} {view : List Change} (hv : Covers s chat at_ view) :
    Covers s' chat at_ view := by
  intro c hc hle
  rcases hv c (h.foreign hc) hle with hc | hc
  · exact Or.inl hc
  · exact Or.inr (h.known hc)

/-- A transaction that does nothing itself keeps its invariant while the lock row looks the same to it. -/
theorem Extends.txInv (h : Extends s s') (ht : TxInv s tx t) (hlock : ∀ row, Holds s' tx row ↔ Holds s tx row)
    (hvisible : s.lock.visible tx ≠ none → s'.lock.visible tx ≠ none) : TxInv s' tx t where
  inserted hc := hvisible (ht.inserted hc)
  locked row hc := (hlock row).2 (ht.locked row hc)
  granted hg := by
    obtain ⟨row, hrow, hbranch⟩ := ht.granted hg
    exact ⟨row, (hlock row).2 hrow, hbranch⟩
  moved row hrow c hc hp := ht.moved row ((hlock row).1 hrow) c (h.changes ▸ hc) (h.pending hp)
  away := ht.away
  wrote := ht.wrote
  known hg hb hcaller c hc := (ht.known hg hb hcaller c (h.foreign hc)).imp h.known id
  identified := ht.identified
  reading began hk := ⟨(ht.reading began hk).1, fun view hv => h.covers ((ht.reading began hk).2 view hv)⟩
  observing call hk := h.reads _ call (ht.observing call hk)
  reader := ht.reader

theorem Extends.markInv (h : Extends s s') {mark : Option Int} (hm : MarkInv s tx t chat mark)
    (hlock : ∀ row, Holds s tx row → ∃ row', Holds s' tx row')
    (hseen : (s'.seen chat).committed = (s.seen chat).committed) : MarkInv s' tx t chat mark := by
  cases hm with
  | write hchat hkind hcaller hrow known =>
    obtain ⟨row, hrow⟩ := hrow
    exact .write hchat hkind hcaller (hlock row hrow) (h.allKnown known)
  | read hchat bound hbound hrecorded hmark => exact .read hchat bound hbound hrecorded (hseen ▸ hmark)

end Extends

/-! ### A step of one transaction -/

/-- The transaction goes on as the same op of the same chat. -/
structure Tx.Continues (t t' : Tx) : Prop where
  chat : t'.chat = t.chat
  isCaller : t'.isCaller = t.isCaller
  start : t'.start = t.start
  kind : t'.kind = t.kind
  recorded : t.recorded = true → t'.recorded = true

variable {s s' : Db} {tx : Nat}

theorem MarkInv.continues {t t' : Tx} {chat : Nat} {mark : Option Int}
    (hm : MarkInv s tx t chat mark) (h : t.Continues t') : MarkInv s tx t' chat mark := by
  cases hm with
  | write hchat hkind hcaller hrow known =>
    exact .write (h.chat.trans hchat) (h.kind.trans hkind) (h.isCaller.trans hcaller) hrow known
  | read hchat bound hbound hrecorded hmark =>
    have hbound' : t'.readUpTo = some bound := by
      rw [← hbound]
      unfold Tx.readUpTo
      rw [h.kind, h.start]
    exact .read (h.chat.trans hchat) bound hbound' (h.recorded hrecorded) hmark

/-- The lock row after a statement of `tx`: as it was, or written by `tx` while nobody else had it. -/
inductive LockStep (s s' : Db) (tx : Nat) : Prop
  | same (h : s'.lock = s.lock)
  | write (free : s.lock.lockedByOther tx = false) (row : LockRow) (h : s'.lock = s.lock.write tx (some row))

theorem not_locked_of_free {τ ρ : Type*} [DecidableEq τ] {r : Row τ ρ} {tx tx' : τ} {v : ρ}
    (free : r.lockedByOther tx = false) (hne : tx' ≠ tx) : r.lock ≠ some (tx', v) := by
  intro h
  rw [lockedByOther_of_ne h (Ne.symm hne)] at free
  cases free

theorem LockStep.holds_other {tx' : Nat} (h : LockStep s s' tx) (hne : tx' ≠ tx) (row : LockRow) :
    Holds s' tx' row ↔ Holds s tx' row := by
  unfold Holds
  cases h with
  | same h => rw [h]
  | write free row' h =>
    have hold := not_locked_of_free (v := some row) free hne
    have hnew : s'.lock.lock ≠ some (tx', some row) := by
      rw [h]
      intro hw
      exact hne (congrArg Prod.fst (Option.some.inj hw)).symm
    exact ⟨fun hw => absurd hw hnew, fun hw => absurd hw hold⟩

theorem LockStep.holds_self (h : LockStep s s' tx) (row : LockRow) (hrow : Holds s tx row) :
    ∃ row', Holds s' tx row' := by
  cases h with
  | same h => exact ⟨row, by unfold Holds; rw [h]; exact hrow⟩
  | write free row' h => exact ⟨row', by unfold Holds; rw [h]; rfl⟩

theorem LockStep.visible_other {tx' : Nat} (h : LockStep s s' tx) (hne : tx' ≠ tx) :
    s'.lock.visible tx' = s.lock.visible tx' := by
  cases h with
  | same h => rw [h]
  | write free row h =>
    rw [visible_of_not_lockedByOther free hne, h]
    exact visible_of_lock_ne (r := s.lock.write tx (some row)) rfl hne

/-- One statement of an open transaction keeps the invariant, given the statement's own effect. -/
theorem Inv.of_statement {t' : Tx} (h : Inv s) (he : Extends s s')
    (htxs : s'.txs = Function.update s.txs tx (some t')) (hreads : s'.reads = s.reads)
    (hcommitted : s'.lock.committed = s.lock.committed) (hlock : LockStep s s' tx)
    (hwriter : ∀ v, s'.lock.lock = some (tx, v) → t'.kind = .write)
    (hself : TxInv s' tx t')
    (hseen : ∀ chat, s'.seen chat = s.seen chat ∨
      ((s.seen chat).lockedByOther tx = false ∧ ∃ mark, s'.seen chat = (s.seen chat).write tx mark ∧
        MarkInv s' tx t' chat mark))
    (hmarks : ∀ chat mark, (s.seen chat).lock = some (tx, mark) → MarkInv s tx t' chat mark) : Inv s' where
  txs tx' t hx := by
    rw [htxs] at hx
    by_cases hne : tx' = tx
    · subst hne
      rw [Function.update_self, Option.some.injEq] at hx
      exact hx ▸ hself
    · rw [Function.update_of_ne hne] at hx
      refine he.txInv (h.txs tx' t hx) (hlock.holds_other hne) ?_
      rw [hlock.visible_other hne]
      exact id
  home c hc hp := by
    rw [hcommitted]
    exact h.home c (he.changes ▸ hc) (he.pending hp)
  lock tx' v hv := by
    by_cases hne : tx' = tx
    · subst hne
      refine ⟨?_, t', by rw [htxs, Function.update_self], hwriter v hv⟩
      cases hlock with
      | same hs => exact (h.lock tx' v (hs ▸ hv)).1
      | write free row hs =>
        rw [hs] at hv
        have hrow : some row = v := congrArg Prod.snd (Option.some.inj hv)
        rw [← hrow]
        exact Option.some_ne_none row
    · have hold : s.lock.lock = some (tx', v) := by
        cases hlock with
        | same hs => exact hs ▸ hv
        | write free row hs =>
          rw [hs] at hv
          exact absurd (congrArg Prod.fst (Option.some.inj hv)).symm hne
      obtain ⟨hv', t, ht, hkind⟩ := h.lock tx' v hold
      exact ⟨hv', t, by rw [htxs, Function.update_of_ne hne, ht], hkind⟩
  seen chat at_ hat := by
    refine he.covers (h.seen chat at_ ?_)
    rcases hseen chat with hs | ⟨-, mark, hs, -⟩
    · exact hs ▸ hat
    · rw [hs] at hat
      exact hat
  marks chat tx' mark hm := by
    have hsame : (s'.seen chat).committed = (s.seen chat).committed := by
      rcases hseen chat with hs | ⟨-, mark, hs, -⟩ <;> rw [hs]
      rfl
    by_cases hne : tx' = tx
    · subst hne
      refine ⟨t', by rw [htxs, Function.update_self], ?_⟩
      rcases hseen chat with hs | ⟨-, mark', hs, hmark⟩
      · rw [hs] at hm
        exact he.markInv (hmarks chat mark hm) hlock.holds_self hsame
      · rw [hs] at hm
        have heq : mark' = mark := congrArg Prod.snd (Option.some.inj hm)
        exact heq ▸ hmark
    · have hold : (s.seen chat).lock = some (tx', mark) := by
        rcases hseen chat with hs | ⟨-, mark', hs, -⟩
        · exact hs ▸ hm
        · rw [hs] at hm
          exact absurd (congrArg Prod.fst (Option.some.inj hm)).symm hne
      obtain ⟨t, ht, hmark⟩ := h.marks chat tx' mark hold
      refine ⟨t, by rw [htxs, Function.update_of_ne hne, ht], ?_⟩
      exact he.markInv hmark (fun row hrow => ⟨row, (hlock.holds_other hne row).2 hrow⟩) hsame
  reads chat call hcall := he.covers (h.reads chat call (hreads ▸ hcall))

/-! ### The statements of a read -/

section Statements

variable {s s' : Db} {tx : Nat} {t : Tx}

variable {chat tx' : Nat} {at_ bound : Int} {row : LockRow} {c : Change} {check : Check} {t' : Tx}

theorem Inv.own_marks (h : Inv s) (ht : s.txs tx = some t) (hc : t.Continues t') (chat : Nat)
    (mark : Option Int) (hm : (s.seen chat).lock = some (tx, mark)) : MarkInv s tx t' chat mark := by
  obtain ⟨t₀, ht₀, hmark⟩ := h.marks chat tx mark hm
  rw [ht, Option.some.injEq] at ht₀
  exact (ht₀ ▸ hmark).continues hc

theorem Inv.own_lock (h : Inv s) (ht : s.txs tx = some t) {v : Option LockRow} (hv : s.lock.lock = some (tx, v)) :
    v ≠ none ∧ t.kind = .write := by
  obtain ⟨hne, t₀, ht₀, hkind⟩ := h.lock tx v hv
  rw [ht, Option.some.injEq] at ht₀
  exact ⟨hne, ht₀ ▸ hkind⟩

theorem Inv.newTx (h : Inv s) {branch : Branch} {isCaller : Bool} {kind : OpKind}
    (hread : ∀ began, kind = .read began → began ≤ s.clock) (hobserve : ∀ call, kind = .observe call → call ∈ s.reads chat)
    (hs : newTx s tx chat branch isCaller kind = some s') : Inv s' := by
  unfold EntityLock.newTx at hs
  split at hs
  · rename_i hnone
    rw [Option.isNone_iff_eq_none] at hnone
    rw [Option.some.injEq] at hs
    subst hs
    have hfree : ∀ v, s.lock.lock ≠ some (tx, v) := by
      intro v hv
      obtain ⟨-, t, ht, -⟩ := h.lock tx v hv
      rw [hnone] at ht
      cases ht
    refine h.of_statement (Extends.of_eq rfl rfl rfl rfl rfl) rfl rfl rfl (.same rfl)
      (fun v hv => absurd hv (hfree v)) ?_ (fun chat => Or.inl rfl) ?_
    · exact
        { inserted := fun hc => by cases hc
          locked := fun row hc => by cases hc
          granted := fun hg => by
            rcases hg with hg | hg | hg
            · exact hg.elim
            · exact absurd rfl hg
            · exact absurd rfl hg
          moved := fun row hrow => absurd hrow (hfree _)
          away := fun c hc => by cases hc
          wrote := fun c hc => by cases hc
          known := fun hg => hg.elim
          identified := fun hi => by
            rcases hi with ⟨stale, hi⟩ | hi <;> cases hi
          reading := fun began hk => ⟨hread began hk, fun view hv => by cases hv⟩
          observing := hobserve
          reader := fun _ => ⟨rfl, rfl, rfl⟩ }
    · intro chat mark hm
      obtain ⟨t, ht, -⟩ := h.marks chat tx mark hm
      rw [hnone] at ht
      cases ht
  · cases hs

theorem Inv.readEntity (h : Inv s) (ht : s.txs tx = some t) (hs : readEntity s tx t = some s') : Inv s' := by
  unfold EntityLock.readEntity at hs
  split at hs
  · rename_i began hkind
    rw [Option.some.injEq] at hs
    subst hs
    have hi := h.txs tx t ht
    refine h.of_statement (Extends.of_eq rfl rfl rfl rfl rfl) rfl rfl rfl (.same rfl)
      (fun v hv => (h.own_lock ht hv).2) ?_ (fun chat => Or.inl rfl) (h.own_marks ht ⟨rfl, rfl, rfl, rfl, id⟩)
    refine { hi with reading := fun began hk => ⟨(hi.reading began hk).1, fun view hv c hc _ => Or.inl ?_⟩ }
    rw [← Option.some.inj hv]
    exact hc.1
  · cases hs

theorem observeAt_cases (hs : observeAt s tx chat at_ = some s') :
    (s.seen chat).lockedByOther tx = false ∧ s' = { s with
      seen := Function.update s.seen chat ((s.seen chat).write tx (latest at_ ((s.seen chat).visible tx))) } := by
  unfold observeAt at hs
  rw [Option.map_eq_some_iff] at hs
  obtain ⟨r, hr, hs⟩ := hs
  obtain ⟨r, res⟩ := r
  rcases update_cases hr with ⟨hp, -, -⟩ | ⟨-, hfree, hrow, -⟩
  · cases hp
  · exact ⟨hfree, by rw [← hs, hrow]⟩

/-- The statement's effect on the marks, when the new one is right. -/
theorem seen_of_observe (hfree : (s.seen chat).lockedByOther tx = false)
    (hseen : s'.seen = Function.update s.seen chat ((s.seen chat).write tx (latest at_ ((s.seen chat).visible tx))))
    (hmark : MarkInv s' tx t' chat (latest at_ ((s.seen chat).visible tx))) (chat' : Nat) :
    s'.seen chat' = s.seen chat' ∨ ((s.seen chat').lockedByOther tx = false ∧
      ∃ mark, s'.seen chat' = (s.seen chat').write tx mark ∧ MarkInv s' tx t' chat' mark) := by
  rw [hseen]
  by_cases hne : chat' = chat
  · subst hne
    exact Or.inr ⟨hfree, _, Function.update_self .., hmark⟩
  · exact Or.inl (Function.update_of_ne hne ..)

/-- A read's mark never passes the time it is recorded at, but where the committed one already does. -/
theorem Inv.latest_le (h : Inv s) (ht : s.txs tx = some t) (hbound : t.readUpTo = some bound)
    (hat : at_ ≤ bound) (m : Int) (hm : latest at_ ((s.seen t.chat).visible tx) = some m) :
    m ≤ bound ∨ ∃ old, (s.seen t.chat).committed = some old ∧ m ≤ old := by
  have hvisible : ∀ seen, (s.seen t.chat).visible tx = some seen →
      seen ≤ bound ∨ ∃ old, (s.seen t.chat).committed = some old ∧ seen ≤ old := by
    intro seen hseen
    cases hl : (s.seen t.chat).lock with
    | none =>
      rw [visible_of_lock_none hl] at hseen
      exact Or.inr ⟨seen, hseen, le_refl seen⟩
    | some p =>
      obtain ⟨owner, mark⟩ := p
      by_cases howner : owner = tx
      · subst howner
        rw [visible_of_lock hl] at hseen
        cases h.own_marks ht ⟨rfl, rfl, rfl, rfl, id⟩ t.chat mark hl with
        | write hchat hkind hcaller hrow known =>
          unfold Tx.readUpTo at hbound
          rw [hkind] at hbound
          cases hbound
        | read hchat bound' hbound' hrecorded hmark =>
          rw [hbound, Option.some.injEq] at hbound'
          exact hbound' ▸ hmark seen hseen
      · rw [visible_of_lock_ne hl (Ne.symm howner)] at hseen
        exact Or.inr ⟨seen, hseen, le_refl seen⟩
  cases hv : (s.seen t.chat).visible tx with
  | none =>
    rw [hv] at hm
    exact Or.inl (Option.some.inj hm ▸ hat)
  | some seen =>
    rw [hv] at hm
    have hmax : max seen at_ = m := Option.some.inj hm
    rcases hvisible seen hv with hle | ⟨old, hold, hle⟩
    · exact Or.inl (by omega)
    · by_cases hb : m ≤ bound
      · exact Or.inl hb
      · exact Or.inr ⟨old, hold, by omega⟩

theorem Inv.observeRead (h : Inv s) (ht : s.txs tx = some t) (hbound : t.readUpTo = some bound)
    (hat : at_ ≤ bound) {s₀ : Db} (ho : observeAt s tx t.chat at_ = some s₀) :
    Inv (s₀.setTx tx { t with recorded := true }) := by
  obtain ⟨hfree, rfl⟩ := observeAt_cases ho
  have hi := h.txs tx t ht
  refine h.of_statement (Extends.of_eq rfl rfl rfl rfl rfl) rfl rfl rfl (.same rfl)
    (fun v hv => (h.own_lock ht hv).2) { hi with } (seen_of_observe hfree rfl ?_)
    (h.own_marks ht ⟨rfl, rfl, rfl, rfl, fun _ => rfl⟩)
  refine .read rfl bound hbound rfl fun m hm => ?_
  rcases h.latest_le ht hbound hat m hm with hle | ⟨old, hold, hle⟩
  · exact Or.inl hle
  · exact Or.inr ⟨old, by simpa [Db.setTx, Row.write] using hold, hle⟩

theorem Inv.observeDraftReads (h : Inv s) (ht : s.txs tx = some t) (hs : observeDraftReads s tx t = some s') :
    Inv s' := by
  unfold EntityLock.observeDraftReads at hs
  split at hs
  · split at hs
    · rename_i began hk
      rw [Option.map_eq_some_iff] at hs
      obtain ⟨s₀, ho, rfl⟩ := hs
      exact h.observeRead ht (by simp [Tx.readUpTo, hk]) (le_refl t.start) ho
    · rename_i call hk
      rw [Option.map_eq_some_iff] at hs
      obtain ⟨s₀, ho, rfl⟩ := hs
      exact h.observeRead ht (by simp [Tx.readUpTo, hk]) (min_le_left call.began t.start) ho
    · cases hs
  · cases hs

/-! ### The statements of a write -/

/-- A write whose lock row and changes are as before goes on to another statement of the call. -/
theorem TxInv.setCheck {s : Db} {tx : Nat} {t : Tx} (ht : TxInv s tx t) (hkind : t.kind = .write)
    (hinserted : check = .inserted → s.lock.visible tx ≠ none)
    (hlocked : ∀ row, check = .locked row → Holds s tx row)
    (hgranted : check.granted → ∃ row, Holds s tx row ∧ row.branch = t.branch)
    (hknown : check.granted → t.branch = .draft → t.isCaller = true →
      ∀ c, Foreign s t.chat c → Known s t.chat c ∨ c ∈ check.over)
    (hidentified : (∃ stale, check = .checked stale) ∨ check = .adopted → t.branch = .draft ∧ t.isCaller = true) :
    TxInv s tx { t with check } :=
  { ht with
    inserted := hinserted
    locked := hlocked
    granted := fun hg => by
      rcases hg with hg | hg
      · exact hgranted hg
      · exact ht.granted (Or.inr hg)
    known := hknown
    identified := hidentified
    reader := fun hk => absurd hkind hk }

theorem Inv.kind_write (h : Inv s) (ht : s.txs tx = some t) (hc : t.check ≠ .notCalled) : t.kind = .write := by
  by_contra hk
  exact hc ((h.txs tx t ht).reader hk).1

theorem Inv.setCheck (h : Inv s) (ht : s.txs tx = some t) (hself : TxInv s tx { t with check }) :
    Inv (s.setCheck tx t check) := by
  have he : Extends s (s.setCheck tx t check) := Extends.of_eq rfl rfl rfl rfl rfl
  exact h.of_statement he rfl rfl rfl (.same rfl) (fun v hv => (h.own_lock ht hv).2)
    (he.txInv hself (fun row => Iff.rfl) id) (fun chat => Or.inl rfl) (h.own_marks ht ⟨rfl, rfl, rfl, rfl, id⟩)

theorem Inv.writeLock (h : Inv s) (ht : s.txs tx = some t) (hkind : t.kind = .write)
    (hfree : s.lock.lockedByOther tx = false) (hcheck : check = .inserted ∨ check = .locked row)
    (hrow : s.lock.visible tx = some row ∨ (s.lock.committed = none ∧ s.lock.lock = none)) :
    Inv ({ s with lock := s.lock.write tx (some row) }.setCheck tx t check) := by
  have hi := h.txs tx t ht
  have hheld : ∀ row', Holds s tx row' → row' = row := by
    intro row' hold
    rcases hrow with hrow | ⟨-, hnone⟩
    · rw [visible_of_lock hold] at hrow
      exact Option.some.inj hrow
    · rw [Holds, hnone] at hold
      cases hold
  have hholds : ∀ row', Holds ({ s with lock := s.lock.write tx (some row) }.setCheck tx t check) tx row' ↔ row = row' := by
    intro row'
    exact ⟨fun hw => Option.some.inj (congrArg Prod.snd (Option.some.inj hw)), fun heq => heq ▸ rfl⟩
  refine h.of_statement (Extends.of_eq rfl rfl rfl rfl rfl) rfl rfl rfl (.write hfree row rfl) (fun v hv => hkind) ?_
    (fun chat => Or.inl rfl) (h.own_marks ht ⟨rfl, rfl, rfl, rfl, id⟩)
  exact
    { hi with
      inserted := fun _ => by
        have hvisible := visible_write s.lock tx (some row)
        exact fun hnone => Option.some_ne_none row (hvisible.symm.trans hnone)
      locked := fun row' hc => by
        rcases hcheck with hcheck | hcheck
        · rw [hcheck] at hc
          cases hc
        · rw [hcheck] at hc
          cases hc
          exact (hholds row).2 rfl
      granted := fun hg => by
        rcases hg with hg | hg
        · rcases hcheck with hcheck | hcheck <;> exact (hcheck ▸ hg : _).elim
        · obtain ⟨row', hrow', hbranch⟩ := hi.granted (Or.inr hg)
          exact ⟨row, (hholds row).2 rfl, hheld row' hrow' ▸ hbranch⟩
      moved := fun row' hrow' c hc hp => by
        cases (hholds row').1 hrow'
        rcases hrow with hrow | ⟨hnone, -⟩
        · cases hl : s.lock.lock with
          | none =>
            rw [visible_of_lock_none hl] at hrow
            obtain ⟨row', hcommitted, hbranch⟩ := h.home c hc hp
            rw [hrow, Option.some.injEq] at hcommitted
            exact Or.inl (hcommitted ▸ hbranch)
          | some p =>
            obtain ⟨owner, v⟩ := p
            have howner : owner = tx := by simpa [Row.lockedByOther, hl] using hfree
            subst howner
            rw [visible_of_lock hl] at hrow
            subst hrow
            exact hi.moved row hl c hc hp
        · obtain ⟨row', hcommitted, -⟩ := h.home c hc hp
          rw [hnone] at hcommitted
          cases hcommitted
      known := fun hg => by
        rcases hcheck with hcheck | hcheck <;> exact (hcheck ▸ hg : _).elim
      identified := fun hid => by
        rcases hcheck with hcheck | hcheck <;> rw [hcheck] at hid <;> rcases hid with ⟨stale, hid⟩ | hid <;> cases hid
      reader := fun hk => absurd hkind hk }

theorem Inv.insertLock (h : Inv s) (ht : s.txs tx = some t) (hkind : t.kind = .write)
    (hs : insertLock s tx t = some s') : Inv s' := by
  have hi := h.txs tx t ht
  unfold EntityLock.insertLock at hs
  split at hs
  · rename_i row hcommitted
    rw [Option.some.injEq] at hs
    subst hs
    have hvisible : s.lock.visible tx ≠ none := by
      cases hl : s.lock.lock with
      | none => rw [visible_of_lock_none hl, hcommitted]; exact Option.some_ne_none row
      | some p =>
        obtain ⟨owner, v⟩ := p
        by_cases howner : owner = tx
        · subst howner
          rw [visible_of_lock hl]
          exact (h.own_lock ht hl).1
        · rw [visible_of_lock_ne hl (Ne.symm howner), hcommitted]
          exact Option.some_ne_none row
    refine h.setCheck ht (hi.setCheck hkind (fun _ => hvisible) (fun row hc => by cases hc) (fun hg => hg.elim)
      (fun hg => hg.elim) fun hid => ?_)
    rcases hid with ⟨stale, hid⟩ | hid <;> cases hid
  · rename_i hcommitted
    split at hs
    · cases hs
    · rename_i hfree
      rw [Bool.not_eq_true] at hfree
      rw [Option.some.injEq] at hs
      subst hs
      refine h.writeLock ht hkind hfree (Or.inl rfl) ?_
      cases hl : s.lock.lock with
      | none =>
        rw [visible_of_lock_none hl, hcommitted]
        exact Or.inr ⟨rfl, rfl⟩
      | some p =>
        obtain ⟨owner, v⟩ := p
        have howner : owner = tx := by simpa [Row.lockedByOther, hl] using hfree
        subst howner
        rw [visible_of_lock hl]
        cases v with
        | none => exact absurd rfl (h.own_lock ht hl).1
        | some row => exact Or.inl rfl

theorem Inv.lockRow (h : Inv s) (ht : s.txs tx = some t) (hc : t.check = .inserted) (hs : lockRow s tx t = some s') :
    Inv s' := by
  have hkind := h.kind_write ht (by rw [hc]; exact fun heq => by cases heq)
  unfold EntityLock.lockRow at hs
  split at hs
  · cases hs
  · rename_i hfree
    rw [Bool.not_eq_true] at hfree
    split at hs
    · rename_i hnone
      exact absurd hnone ((h.txs tx t ht).inserted hc)
    · rename_i row hrow
      rw [Option.some.injEq] at hs
      subst hs
      exact h.writeLock ht hkind hfree (Or.inr rfl) (Or.inl hrow)

/-- What the chat's own transaction sees as already seen is known. -/
theorem Inv.known_of_not_newer (h : Inv s) (ht : s.txs tx = some t) (hkind : t.kind = .write)
    (hc : Foreign s t.chat c) (hold : newer ((s.seen t.chat).visible tx) c = false) : Known s t.chat c := by
  cases hv : (s.seen t.chat).visible tx with
  | none =>
    rw [hv] at hold
    cases hold
  | some at_ =>
    have hle : c.createdAt ≤ at_ := by
      rw [hv] at hold
      simpa [newer] using hold
    have hcovers : (s.seen t.chat).committed = some at_ → Known s t.chat c := by
      intro hcommitted
      rcases h.seen t.chat at_ hcommitted c hc hle with hmem | hknown
      · cases hmem
      · exact hknown
    cases hl : (s.seen t.chat).lock with
    | none =>
      rw [visible_of_lock_none hl] at hv
      exact hcovers hv
    | some p =>
      obtain ⟨owner, mark⟩ := p
      by_cases howner : owner = tx
      · subst howner
        cases h.own_marks ht ⟨rfl, rfl, rfl, rfl, id⟩ t.chat mark hl with
        | write hchat hk hcaller hrow known => exact known c hc
        | read hchat bound hbound hrecorded hmark =>
          unfold Tx.readUpTo at hbound
          rw [hkind] at hbound
          cases hbound
      · rw [visible_of_lock_ne hl (Ne.symm howner)] at hv
        exact hcovers hv

theorem Inv.draftConflict (h : Inv s) (ht : s.txs tx = some t) (hkind : t.kind = .write)
    (hrow : Holds s tx row) (hbranch : row.branch = t.branch) (hdraft : t.branch = .draft) (hcaller : t.isCaller = true) :
    Inv (draftConflict s tx t) := by
  refine h.setCheck ht ((h.txs tx t ht).setCheck hkind (fun hc => by cases hc) (fun row hc => by cases hc)
    (fun _ => ⟨row, hrow, hbranch⟩) (fun _ _ _ c hc => ?_) (fun _ => ⟨hdraft, hcaller⟩))
  cases hnewer : newer ((s.seen t.chat).visible tx) c with
  | false => exact Or.inl (h.known_of_not_newer ht hkind hc hnewer)
  | true =>
    obtain ⟨hmem, hb, hpending, howner⟩ := hc
    exact Or.inr (by simp [Check.over, staleChanges, hmem, hb, hpending, howner, hnewer, hdraft])

theorem Inv.takeOverEntity (h : Inv s) (ht : s.txs tx = some t) (hkind : t.kind = .write)
    (hrow : Holds s tx row) (hbranch : row.branch ≠ t.branch) : Inv (takeOverEntity s tx t row) := by
  have hi := h.txs tx t ht
  have hfree : s.lock.lockedByOther tx = false := not_lockedByOther_of_lock hrow
  -- every pending change is among those moved now or before
  have hmoved : ∀ c ∈ s.changes, s.pending c = true → c ∈ t.moved ++ takenOver s row := by
    intro c hc hp
    rcases hi.moved row hrow c hc hp with hb | hm
    · exact List.mem_append_right _ (by simp [takenOver, hc, hb, hp])
    · exact List.mem_append_left _ hm
  have haway : ∀ c ∈ t.moved ++ takenOver s row, c.branch ≠ t.branch := by
    intro c hc
    rcases List.mem_append.1 hc with hc | hc
    · exact hi.away c hc
    · have hb : c.branch = row.branch := by
        have := (List.mem_filter.1 hc).2
        simp only [Bool.and_eq_true, decide_eq_true_eq] at this
        exact this.1
      rwa [hb]
  have hholds : Holds (EntityLock.takeOverEntity s tx t row) tx ⟨t.chat, t.branch⟩ := rfl
  have hcheck : ∀ check', check' = (if t.branch = Branch.draft ∧ t.isCaller = true then Check.adopted else .permitted) →
      (check' = .adopted ∧ t.branch = .draft ∧ t.isCaller = true) ∨ check' = .permitted := by
    intro check' heq
    by_cases hid : t.branch = Branch.draft ∧ t.isCaller = true
    · exact Or.inl ⟨by rw [heq, if_pos hid], hid⟩
    · exact Or.inr (by rw [heq, if_neg hid])
  refine h.of_statement (Extends.of_eq rfl rfl rfl rfl rfl) rfl rfl rfl (.write hfree _ rfl) (fun v hv => hkind) ?_
    (fun chat => Or.inl rfl) (h.own_marks ht ⟨rfl, rfl, rfl, rfl, id⟩)
  exact
    { inserted := fun hc => by
        rcases hcheck _ hc.symm with ⟨hk, -⟩ | hk <;> cases hk
      locked := fun row' hc => by
        rcases hcheck _ hc.symm with ⟨hk, -⟩ | hk <;> cases hk
      granted := fun _ => ⟨_, hholds, rfl⟩
      moved := fun row' _ c hc hp => Or.inr (hmoved c hc hp)
      away := haway
      wrote := fun c hc => by
        rcases List.mem_append.1 hc with hc | hc
        · exact hi.wrote c hc
        · obtain ⟨m, -, rfl⟩ := List.mem_map.1 hc
          exact ⟨rfl, fun _ => rfl⟩
      known := fun _ hdraft _ c hc => by
        obtain ⟨hmem, hb, hp, -⟩ := hc
        exact absurd (hb.trans hdraft.symm) (haway c (hmoved c hmem hp))
      identified := fun hid => by
        rcases hid with ⟨stale, hid⟩ | hid
        · rcases hcheck _ hid.symm with ⟨hk, -⟩ | hk <;> cases hk
        · rcases hcheck _ hid.symm with ⟨-, hk⟩ | hk
          · exact hk
          · cases hk
      reading := fun began hk => by
        rw [show t.kind = .write from hkind] at hk
        cases hk
      observing := fun call hk => by
        rw [show t.kind = .write from hkind] at hk
        cases hk
      reader := fun hk => absurd hkind hk }

theorem Inv.afterLock (h : Inv s) (ht : s.txs tx = some t) {b : Branching} (hc : t.check = .locked row)
    (hs : afterLock s tx t row b = some s') : Inv s' := by
  have hi := h.txs tx t ht
  have hkind := h.kind_write ht (by rw [hc]; exact fun heq => by cases heq)
  have hrow := hi.locked row hc
  have refuse : ∀ why, Inv (s.setCheck tx t (.refused why)) := by
    intro why
    refine h.setCheck ht (hi.setCheck hkind (fun hc => by cases hc) (fun row hc => by cases hc) (fun hg => hg.elim)
      (fun hg => hg.elim) fun hid => ?_)
    rcases hid with ⟨stale, hid⟩ | hid <;> cases hid
  unfold EntityLock.afterLock at hs
  cases b with
  | refuseLease =>
    rw [Option.ite_none_right_eq_some, Option.some.injEq] at hs
    exact hs.2 ▸ refuse _
  | refuseCall =>
    rw [Option.ite_none_right_eq_some, Option.some.injEq] at hs
    exact hs.2 ▸ refuse _
  | check =>
    rw [Option.ite_none_right_eq_some, Option.some.injEq] at hs
    obtain ⟨⟨hbranch, hdraft, hcaller⟩, rfl⟩ := hs
    exact h.draftConflict ht hkind hrow hbranch hdraft hcaller
  | takeOver =>
    rw [Option.ite_none_right_eq_some, Option.some.injEq] at hs
    obtain ⟨hbranch, rfl⟩ := hs
    exact h.takeOverEntity ht hkind hrow hbranch
  | pass =>
    rw [Option.ite_none_right_eq_some, Option.some.injEq] at hs
    obtain ⟨⟨hbranch, hother⟩, rfl⟩ := hs
    refine h.setCheck ht (hi.setCheck hkind (fun hc => by cases hc) (fun row hc => by cases hc)
      (fun _ => ⟨row, hrow, hbranch⟩) (fun _ hdraft hcaller => absurd ⟨hdraft, hcaller⟩ hother) fun hid => ?_)
    rcases hid with ⟨stale, hid⟩ | hid <;> cases hid

theorem Inv.record (h : Inv s) (ht : s.txs tx = some t) (hgranted : t.check.granted) (hdraft : t.branch = .draft)
    (hcaller : t.isCaller = true) (hcheck : check = .permitted ∨ ∃ why, check = .refused why) {s₀ : Db}
    (ho : observeAt s tx t.chat t.start = some s₀) {conflicts : Nat → List (List Change)}
    (hconflicts : ∀ chat, ∀ conflict ∈ s.conflicts chat, conflict ∈ conflicts chat)
    (hover : ∀ c ∈ t.check.over, ∃ conflict ∈ conflicts t.chat, c ∈ conflict) :
    Inv ({ s₀ with conflicts := conflicts }.setCheck tx t check) := by
  obtain ⟨hfree, rfl⟩ := observeAt_cases ho
  have hi := h.txs tx t ht
  have hkind : t.kind = .write := by
    refine h.kind_write ht fun hc => ?_
    rw [hc] at hgranted
    exact hgranted.elim
  generalize hs' : Db.setCheck _ tx t check = s'
  have he : Extends s s' := by
    subst hs'
    exact ⟨rfl, fun _ hh => hh, fun _ _ hc => hc, fun _ _ hc => hc, hconflicts⟩
  have hlock : s'.lock = s.lock := by
    subst hs'
    rfl
  obtain ⟨row, hrow, hbranch⟩ := hi.granted (Or.inl hgranted)
  have hholds : ∀ row, Holds s' tx row ↔ Holds s tx row := by
    intro row
    unfold Holds
    rw [hlock]
  have hknown : AllKnown s' t.chat := by
    intro c hc
    rcases hi.known hgranted hdraft hcaller c (he.foreign hc) with hk | hk
    · exact he.known hk
    · subst hs'
      exact Or.inr (hover c hk)
  have hself : TxInv s' tx { t with check } := by
    refine (he.txInv hi hholds (by rw [hlock]; exact id)).setCheck hkind ?_ ?_ (fun _ => ⟨row, (hholds row).2 hrow, hbranch⟩)
      (fun _ _ _ c hc => Or.inl (hknown c hc)) ?_
    · intro hc
      rcases hcheck with hcheck | ⟨why, hcheck⟩ <;> rw [hcheck] at hc <;> cases hc
    · intro row hc
      rcases hcheck with hcheck | ⟨why, hcheck⟩ <;> rw [hcheck] at hc <;> cases hc
    · intro hid
      rcases hcheck with hcheck | ⟨why, hcheck⟩ <;> rw [hcheck] at hid <;> rcases hid with ⟨stale, hid⟩ | hid <;> cases hid
  subst hs'
  exact h.of_statement he rfl rfl rfl (.same rfl) (fun v hv => (h.own_lock ht hv).2) hself
    (seen_of_observe hfree rfl (.write rfl hkind hcaller ⟨row, (hholds row).2 hrow⟩ hknown))
    (h.own_marks ht ⟨rfl, rfl, rfl, rfl, id⟩)

theorem Inv.observeDraftEntity (h : Inv s) (ht : s.txs tx = some t) (hs : observeDraftEntity s tx t = some s') :
    Inv s' := by
  have hi := h.txs tx t ht
  unfold EntityLock.observeDraftEntity at hs
  split at hs
  · rename_i stale hc
    rw [Option.map_eq_some_iff] at hs
    obtain ⟨s₀, ho, hs⟩ := hs
    have hgranted : t.check.granted := hc ▸ trivial
    obtain ⟨hdraft, hcaller⟩ := hi.identified (Or.inl ⟨stale, hc⟩)
    have hconflicts : s₀.conflicts = s.conflicts := by rw [(observeAt_cases ho).2]
    split at hs
    · rename_i hempty
      subst hs
      refine h.record ht hgranted hdraft hcaller (Or.inl rfl) ho (fun chat conflict hc => hconflicts ▸ hc) fun c hover => ?_
      rw [hc, Check.over, List.isEmpty_iff.1 hempty] at hover
      cases hover
    · subst hs
      refine h.record ht hgranted hdraft hcaller (Or.inr ⟨_, rfl⟩) ho (fun chat conflict hmem => ?_) fun c hover => ?_
      · rw [hconflicts]
        by_cases hne : chat = t.chat
        · subst hne
          rw [Function.update_self]
          exact List.mem_append_left _ hmem
        · rw [Function.update_of_ne hne]
          exact hmem
      · rw [hc] at hover
        exact ⟨stale, by rw [Function.update_self]; exact List.mem_append_right _ (List.mem_singleton_self stale), hover⟩
  · rename_i hc
    rw [Option.map_eq_some_iff] at hs
    obtain ⟨s₀, ho, rfl⟩ := hs
    have hgranted : t.check.granted := hc ▸ trivial
    obtain ⟨hdraft, hcaller⟩ := hi.identified (Or.inr hc)
    have hconflicts : s₀.conflicts = s.conflicts := by rw [(observeAt_cases ho).2]
    refine h.record ht hgranted hdraft hcaller (Or.inl rfl) ho (fun chat conflict hc => hconflicts ▸ hc) fun c hover => ?_
    rw [hc] at hover
    cases hover
  · cases hs

theorem Inv.emitSnapshot (h : Inv s) (ht : s.txs tx = some t) {owner : Option Nat}
    (hs : emitSnapshot s tx t owner = some s') : Inv s' := by
  unfold EntityLock.emitSnapshot at hs
  rw [Option.ite_none_right_eq_some, Option.some.injEq] at hs
  obtain ⟨⟨hc, howner⟩, rfl⟩ := hs
  have hi := h.txs tx t ht
  have hkind := h.kind_write ht (by rw [hc]; exact fun heq => by cases heq)
  have hgranted : t.check.granted := hc ▸ trivial
  refine h.of_statement (Extends.of_eq rfl rfl rfl rfl rfl) rfl rfl rfl (.same rfl) (fun v hv => hkind) ?_
    (fun chat => Or.inl rfl) (h.own_marks ht ⟨rfl, rfl, rfl, rfl, id⟩)
  refine { hi with granted := fun _ => hi.granted (Or.inl hgranted), wrote := fun c hmem => ?_, reader := fun hk => absurd hkind hk }
  rcases List.mem_append.1 hmem with hmem | hmem
  · exact hi.wrote c hmem
  · rw [List.mem_singleton] at hmem
    subst hmem
    exact ⟨rfl, howner⟩

/-! ### The end of a transaction -/

theorem update_none_eq_some {f : Nat → Option Tx} {tx : Nat} {t : Tx}
    (h : Function.update f tx none tx' = some t) : tx' ≠ tx ∧ f tx' = some t := by
  by_cases hne : tx' = tx
  · subst hne
    rw [Function.update_self] at h
    cases h
  · rw [Function.update_of_ne hne] at h
    exact ⟨hne, h⟩

theorem Inv.abort (h : Inv s) : Inv (abort s tx) := by
  have he : Extends s (EntityLock.abort s tx) := Extends.of_eq rfl rfl rfl rfl rfl
  have hholds : ∀ tx', tx' ≠ tx → ∀ row, Holds (EntityLock.abort s tx) tx' row ↔ Holds s tx' row := by
    intro tx' hne row
    exact lock_abort_iff.trans (and_iff_right hne)
  have htxs : ∀ tx' t', tx' ≠ tx → s.txs tx' = some t' → (EntityLock.abort s tx).txs tx' = some t' := by
    intro tx' t' hne ht'
    exact (Function.update_of_ne hne ..).trans ht'
  refine ⟨fun tx' t' hx => ?_, fun c hc hp => ?_, fun tx' v hv => ?_, fun chat at_ hat => ?_, fun chat tx' mark hm => ?_,
    fun chat call hcall => he.covers (h.reads chat call hcall)⟩
  · obtain ⟨hne, hx⟩ := update_none_eq_some hx
    refine he.txInv (h.txs tx' t' hx) (hholds tx' hne) fun hv => ?_
    exact fun hnone => hv ((visible_abort_of_ne s.lock hne).symm.trans hnone)
  · obtain ⟨row, hrow, hbranch⟩ := h.home c hc hp
    exact ⟨row, (abort_committed s.lock tx).trans hrow, hbranch⟩
  · obtain ⟨hne, hold⟩ := lock_abort_iff.1 hv
    obtain ⟨hv', t', ht', hkind⟩ := h.lock tx' v hold
    exact ⟨hv', t', htxs tx' t' hne ht', hkind⟩
  · exact he.covers (h.seen chat at_ ((abort_committed (s.seen chat) tx).symm.trans hat))
  · obtain ⟨hne, hold⟩ := lock_abort_iff.1 hm
    obtain ⟨t', ht', hmark⟩ := h.marks chat tx' mark hold
    exact ⟨t', htxs tx' t' hne ht', he.markInv hmark (fun row hrow => ⟨row, (hholds tx' hne row).2 hrow⟩)
      (abort_committed (s.seen chat) tx)⟩

/-! ### A commit -/

theorem commit_eq (hs : commit s tx t = some s') :
    t.finished = true ∧ s' = { s with
      changes := s.changes.filter (fun c => !t.moved.contains c) ++ t.wrote
      lock := s.lock.commit tx
      seen := fun chat => (s.seen chat).commit tx
      txs := Function.update s.txs tx none
      reads := Function.update s.reads t.chat (s.reads t.chat ++ t.readCall)
      readBy := Function.update s.readBy t.chat (s.readBy t.chat ++ t.readView) } := by
  unfold EntityLock.commit at hs
  rw [Option.ite_none_right_eq_some, Option.some.injEq] at hs
  exact ⟨hs.1, hs.2.symm⟩

theorem mem_update_append {α : Type*} {f : Nat → List α} {chat' : Nat} {xs : List α} {x : α} :
    x ∈ Function.update f chat (f chat ++ xs) chat' ↔ x ∈ f chat' ∨ chat' = chat ∧ x ∈ xs := by
  by_cases hne : chat' = chat
  · subst hne
    rw [Function.update_self, List.mem_append, and_iff_right rfl]
  · rw [Function.update_of_ne hne]
    exact ⟨Or.inl, fun hx => hx.resolve_right fun hx => hne hx.1⟩

theorem commit_mem (hs : commit s tx t = some s') (hc : c ∈ s'.changes) :
    (c ∈ s.changes ∧ c ∉ t.moved) ∨ c ∈ t.wrote := by
  obtain ⟨-, rfl⟩ := commit_eq hs
  rcases List.mem_append.1 hc with hc | hc
  · rw [List.mem_filter] at hc
    exact Or.inl ⟨hc.1, by simpa using hc.2⟩
  · exact Or.inr hc

theorem commit_pending (hs : commit s tx t = some s') (c : Change) : s'.pending c = s.pending c := by
  obtain ⟨-, rfl⟩ := commit_eq hs
  rfl

theorem commit_foreign (hs : commit s tx t = some s') (hc : Foreign s' chat c) :
    Foreign s chat c ∨ (c ∈ t.wrote ∧ c.branch = .draft ∧ c.owner ≠ some chat) := by
  obtain ⟨hmem, hbranch, hp, howner⟩ := hc
  rw [commit_pending hs] at hp
  rcases commit_mem hs hmem with ⟨hmem, -⟩ | hmem
  · exact Or.inl ⟨hmem, hbranch, hp, howner⟩
  · exact Or.inr ⟨hmem, hbranch, howner⟩

theorem commit_known (hs : commit s tx t = some s') (hc : Known s chat c) :
    Known s' chat c := by
  obtain ⟨-, rfl⟩ := commit_eq hs
  exact hc.imp (fun hc => mem_update_append.2 (Or.inl hc)) id

theorem commit_covers (hs : commit s tx t = some s') {view : List Change}
    (hv : Covers s chat at_ view)
    (hnew : ∀ c ∈ t.wrote, c.branch = .draft → c.owner ≠ some chat → at_ < c.createdAt) : Covers s' chat at_ view := by
  intro c hc hle
  rcases commit_foreign hs hc with hold | ⟨hmem, hbranch, howner⟩
  · exact (hv c hold hle).imp id (commit_known hs)
  · have := hnew c hmem hbranch howner
    omega

/-- A transaction that writes or moves changes keeps every other one from the lock row. -/
theorem Inv.writes_nothing (h : Inv s) (ht : s.txs tx = some t) (hrow : Holds s tx' row)
    (hne : tx' ≠ tx) : t.wrote = [] ∧ t.moved = [] := by
  have hfree : ¬ (t.wrote ≠ [] ∨ t.moved ≠ []) := by
    intro hw
    obtain ⟨row', hrow', -⟩ := (h.txs tx t ht).granted (Or.inr hw)
    rw [Holds, hrow'] at hrow
    exact hne (congrArg Prod.fst (Option.some.inj hrow)).symm
  rw [not_or, not_not, not_not] at hfree
  exact hfree

theorem commit_holds (hs : commit s tx t = some s') (hne : tx' ≠ tx) (row : LockRow) :
    Holds s' tx' row ↔ Holds s tx' row := by
  obtain ⟨-, rfl⟩ := commit_eq hs
  exact lock_commit_iff.trans (and_iff_right hne)

theorem Covers.mono {at' : Int} {view : List Change} (hv : Covers s chat at_ view) (hle : at' ≤ at_) :
    Covers s chat at' view := fun c hc hc' => hv c hc (hc'.trans hle)

/-- The transaction either leaves the lock row as it is or holds it. -/
theorem Inv.lock_cases (h : Inv s) (ht : s.txs tx = some t) :
    (s.lock.visible tx = s.lock.committed ∧ ∀ row, ¬ Holds s tx row) ∨
    ∃ row, Holds s tx row ∧ s.lock.visible tx = some row := by
  cases hl : s.lock.lock with
  | none => exact Or.inl ⟨visible_of_lock_none hl tx, fun row hrow => by rw [Holds, hl] at hrow; cases hrow⟩
  | some p =>
    obtain ⟨owner, v⟩ := p
    by_cases howner : owner = tx
    · subst howner
      cases v with
      | none => exact absurd rfl (h.own_lock ht hl).1
      | some row => exact Or.inr ⟨row, hl, visible_of_lock hl⟩
    · refine Or.inl ⟨visible_of_lock_ne hl (Ne.symm howner), fun row hrow => ?_⟩
      rw [Holds, hl] at hrow
      exact howner (congrArg Prod.fst (Option.some.inj hrow))

theorem Inv.commit_txInv (h : Inv s) (ht : s.txs tx = some t) (timely : Timely s (.commit tx))
    (hs : commit s tx t = some s') (hne : tx' ≠ tx) (ht' : s.txs tx' = some t') : TxInv s' tx' t' := by
  have hi := h.txs tx' t' ht'
  have hholds := commit_holds hs hne
  have hold : ∀ row, Holds s tx' row → ∀ c ∈ s'.changes, c ∈ s.changes := by
    intro row hrow c hc
    rcases commit_mem hs hc with hc | hc
    · exact hc.1
    · rw [(h.writes_nothing ht hrow hne).1] at hc
      cases hc
  refine
    { hi with
      inserted := fun hc hnone => ?_
      locked := fun row hc => (hholds row).2 (hi.locked row hc)
      granted := fun hg => ?_
      moved := fun row hrow c hc hp => ?_
      known := fun hg hb hcaller c hc => ?_
      reading := fun began hk => ⟨(hi.reading began hk).1, fun view hv => ?_⟩
      observing := fun call hk => ?_ }
  · have hvisible := hi.inserted hc
    obtain ⟨-, rfl⟩ := commit_eq hs
    cases hl : s.lock.lock with
    | none =>
      rw [show ({ s with lock := s.lock.commit tx } : Db).lock = s.lock from commit_of_lock_none hl tx] at hnone
      exact hvisible hnone
    | some p =>
      obtain ⟨owner, v⟩ := p
      by_cases howner : owner = tx
      · subst howner
        have hv := (h.own_lock ht hl).1
        have hcommitted : (s.lock.commit owner).visible tx' = v := by simp [Row.commit, Row.visible, hl]
        exact hv (hcommitted.symm.trans hnone)
      · have hsame : s.lock.commit tx = s.lock := commit_of_ne hl (Ne.symm howner)
        exact hvisible ((congrArg (fun r => r.visible tx') hsame).symm.trans hnone)
  · obtain ⟨row, hrow, hbranch⟩ := hi.granted hg
    exact ⟨row, (hholds row).2 hrow, hbranch⟩
  · rw [commit_pending hs] at hp
    exact hi.moved row ((hholds row).1 hrow) c (hold row ((hholds row).1 hrow) c hc) hp
  · obtain ⟨row, hrow, -⟩ := hi.granted (Or.inl hg)
    obtain ⟨hmem, hbranch, hp, howner⟩ := hc
    rw [commit_pending hs] at hp
    exact (hi.known hg hb hcaller c ⟨hold row hrow c hmem, hbranch, hp, howner⟩).imp (commit_known hs) id
  · refine commit_covers hs ((hi.reading began hk).2 view hv) fun c hc hbranch howner => ?_
    exact (timely t ht c hc hbranch t'.chat howner).2.1 tx' t' began ht' rfl hk (by rw [hv]; rfl)
  · obtain ⟨-, rfl⟩ := commit_eq hs
    exact mem_update_append.2 (Or.inl (hi.observing call hk))

theorem Inv.commit_home (h : Inv s) (ht : s.txs tx = some t) (hs : commit s tx t = some s')
    (hc : c ∈ s'.changes) (hp : s'.pending c = true) : ∃ row, s'.lock.committed = some row ∧ c.branch = row.branch := by
  have hi := h.txs tx t ht
  have hcommitted : s'.lock.committed = s.lock.visible tx := by
    obtain ⟨-, rfl⟩ := commit_eq hs
    exact commit_committed s.lock tx
  rw [hcommitted]
  rw [commit_pending hs] at hp
  rcases commit_mem hs hc with ⟨hc, hmoved⟩ | hc
  · rcases h.lock_cases ht with ⟨hvisible, -⟩ | ⟨row, hrow, hvisible⟩
    · rw [hvisible]
      exact h.home c hc hp
    · exact ⟨row, hvisible, (hi.moved row hrow c hc hp).resolve_right hmoved⟩
  · obtain ⟨row, hrow, hbranch⟩ := hi.granted (Or.inr (Or.inl (List.ne_nil_of_mem hc)))
    exact ⟨row, visible_of_lock hrow, (hi.wrote c hc).1.trans hbranch.symm⟩

theorem Inv.covers_readView (h : Inv s) (ht : s.txs tx = some t) (hf : t.finished = true)
    (hrecorded : t.recorded = true) (hbound : t.readUpTo = some bound) : Covers s t.chat bound t.readView := by
  have hi := h.txs tx t ht
  unfold Tx.readUpTo at hbound
  cases hk : t.kind with
  | write =>
    rw [hk] at hbound
    cases hbound
  | observe call =>
    rw [hk] at hbound
    cases hbound
    have hview : t.readView = call.view := by simp [Tx.readView, hrecorded, hk]
    rw [hview]
    exact h.reads t.chat call (hi.observing call hk)
  | read began =>
    rw [hk] at hbound
    cases hbound
    have hcheck := (hi.reader (by rw [hk]; exact fun heq => by cases heq)).1
    cases hv : t.view with
    | none => simp [Tx.finished, hcheck, hrecorded, hk, hv] at hf
    | some view =>
      have hview : t.readView = view := by simp [Tx.readView, hrecorded, hk, hv]
      rw [hview]
      exact (hi.reading began hk).2 view hv

theorem Inv.commit_seen (h : Inv s) (ht : s.txs tx = some t) (timely : Timely s (.commit tx))
    (hs : commit s tx t = some s') (hat : (s'.seen chat).committed = some at_) :
    Covers s' chat at_ [] := by
  have hi := h.txs tx t ht
  have hvisible : (s.seen chat).visible tx = some at_ := by
    obtain ⟨-, rfl⟩ := commit_eq hs
    exact (commit_committed (s.seen chat) tx).symm.trans hat
  have hkeep : ∀ old, (s.seen chat).committed = some old → Covers s' chat old [] := by
    intro old hold
    refine commit_covers hs (h.seen chat old hold) fun c hc hbranch howner => ?_
    exact (timely t ht c hc hbranch chat howner).1 old hold
  cases hl : (s.seen chat).lock with
  | none =>
    rw [visible_of_lock_none hl] at hvisible
    exact hkeep at_ hvisible
  | some p =>
    obtain ⟨owner, mark⟩ := p
    by_cases howner : owner = tx
    · subst howner
      rw [visible_of_lock hl] at hvisible
      cases h.own_marks ht ⟨rfl, rfl, rfl, rfl, id⟩ chat mark hl with
      | write hchat hkind hcaller hrow known =>
        intro c hc _
        rcases commit_foreign hs hc with hold | ⟨hmem, -, hother⟩
        · exact Or.inr (commit_known hs (known c hold))
        · exact absurd ((hi.wrote c hmem).2 hcaller) (hchat ▸ hother)
      | read hchat bound hbound hrecorded hmark =>
        subst hchat
        rcases hmark at_ hvisible with hle | ⟨old, hold, hle⟩
        · have hreader : t.kind ≠ .write := by
            intro hk
            rw [Tx.readUpTo, hk] at hbound
            cases hbound
          intro c hc hc'
          rcases commit_foreign hs hc with hold | ⟨hmem, -⟩
          · rcases h.covers_readView ht (commit_eq hs).1 hrecorded hbound c hold (hc'.trans hle) with hview | hknown
            · obtain ⟨-, rfl⟩ := commit_eq hs
              exact Or.inr (Or.inl (mem_update_append.2 (Or.inr ⟨rfl, hview⟩)))
            · exact Or.inr (commit_known hs hknown)
          · rw [(hi.reader hreader).2.1] at hmem
            cases hmem
        · exact (hkeep old hold).mono hle
    · rw [visible_of_lock_ne hl (Ne.symm howner)] at hvisible
      exact hkeep at_ hvisible

theorem Inv.commit_marks (h : Inv s) (ht : s.txs tx = some t) (hs : commit s tx t = some s')
    {mark : Option Int} (hm : (s'.seen chat).lock = some (tx', mark)) :
    ∃ t', s'.txs tx' = some t' ∧ MarkInv s' tx' t' chat mark := by
  have hseen : s'.seen chat = (s.seen chat).commit tx := by rw [(commit_eq hs).2]
  rw [hseen] at hm
  obtain ⟨hne, hold⟩ := lock_commit_iff.1 hm
  have hcommitted : (s'.seen chat).committed = (s.seen chat).committed := by rw [hseen, commit_of_ne hold (Ne.symm hne)]
  obtain ⟨t', ht', hmark⟩ := h.marks chat tx' mark hold
  refine ⟨t', ?_, ?_⟩
  · obtain ⟨-, rfl⟩ := commit_eq hs
    exact (Function.update_of_ne hne ..).trans ht'
  · cases hmark with
    | write hchat hkind hcaller hrow known =>
      obtain ⟨row, hrow⟩ := hrow
      refine .write hchat hkind hcaller ⟨row, (commit_holds hs hne row).2 hrow⟩ fun c hc => ?_
      rcases commit_foreign hs hc with hc | ⟨hmem, -⟩
      · exact commit_known hs (known c hc)
      · rw [(h.writes_nothing ht hrow hne).1] at hmem
        cases hmem
    | read hchat bound hbound hrecorded hmark => exact .read hchat bound hbound hrecorded (hcommitted ▸ hmark)

theorem Inv.commit_reads (h : Inv s) (ht : s.txs tx = some t) (timely : Timely s (.commit tx))
    (hs : commit s tx t = some s') {call : ReadCall} (hcall : call ∈ s'.reads chat) :
    Covers s' chat call.began call.view := by
  have hreads : s'.reads = Function.update s.reads t.chat (s.reads t.chat ++ t.readCall) := by rw [(commit_eq hs).2]
  rw [hreads] at hcall
  rcases mem_update_append.1 hcall with hcall | ⟨rfl, hnew⟩
  · refine commit_covers hs (h.reads chat call hcall) fun c hc hbranch howner => ?_
    exact (timely t ht c hc hbranch chat howner).2.2 call hcall
  · unfold Tx.readCall at hnew
    split at hnew
    · rename_i began view hk hv
      rw [List.mem_singleton] at hnew
      subst hnew
      have hi := h.txs tx t ht
      obtain ⟨hbegan, hview⟩ := hi.reading began hk
      refine (commit_covers hs (hview view hv) fun c hc => ?_).mono hbegan
      rw [(hi.reader (by rw [hk]; exact fun heq => by cases heq)).2.1] at hc
      cases hc
    · cases hnew

theorem Inv.commit (h : Inv s) (ht : s.txs tx = some t) (timely : Timely s (.commit tx))
    (hs : commit s tx t = some s') : Inv s' := by
  have htxs : s'.txs = Function.update s.txs tx none := by rw [(commit_eq hs).2]
  have hlock : s'.lock = s.lock.commit tx := by rw [(commit_eq hs).2]
  refine ⟨fun tx' t' hx => ?_, fun c hc hp => h.commit_home ht hs hc hp, fun tx' v hv => ?_,
    fun chat at_ hat => h.commit_seen ht timely hs hat, fun chat tx' mark hm => h.commit_marks ht hs hm,
    fun chat call hcall => h.commit_reads ht timely hs hcall⟩
  · rw [htxs] at hx
    obtain ⟨hne, ht'⟩ := update_none_eq_some hx
    exact h.commit_txInv ht timely hs hne ht'
  · rw [hlock] at hv
    obtain ⟨hne, hold⟩ := lock_commit_iff.1 hv
    obtain ⟨hv', t', ht', hkind⟩ := h.lock tx' v hold
    exact ⟨hv', t', by rw [htxs, Function.update_of_ne hne, ht'], hkind⟩

/-! ### Every step -/

theorem init_inv : Inv init where
  txs tx t ht := by cases ht
  home c hc := by cases hc
  lock tx v hv := by cases hv
  seen chat at_ hat := by cases hat
  marks chat tx mark hm := by cases hm
  reads chat call hcall := by cases hcall

theorem Inv.extend (h : Inv s) (he : Extends s s') (htxs : s'.txs = s.txs) (hlock : s'.lock = s.lock)
    (hseen : s'.seen = s.seen) (hreads : s'.reads = s.reads) : Inv s' where
  txs tx t ht := by
    refine he.txInv (h.txs tx t (htxs ▸ ht)) (fun row => ?_) (by rw [hlock]; exact id)
    unfold Holds
    rw [hlock]
  home c hc hp := by
    rw [hlock]
    exact h.home c (he.changes ▸ hc) (he.pending hp)
  lock tx v hv := by
    rw [htxs]
    exact h.lock tx v (hlock ▸ hv)
  seen chat at_ hat := he.covers (h.seen chat at_ (hseen ▸ hat))
  marks chat tx mark hm := by
    obtain ⟨t, ht, hmark⟩ := h.marks chat tx mark (hseen ▸ hm)
    refine ⟨t, htxs ▸ ht, he.markInv hmark (fun row hrow => ⟨row, ?_⟩) (by rw [hseen])⟩
    unfold Holds
    rw [hlock]
    exact hrow
  reads chat call hcall := he.covers (h.reads chat call (hreads ▸ hcall))

theorem Inv.step (h : Inv s) {a : Action} (timely : Timely s a) (hs : step s a = some s') : Inv s' := by
  cases a with
  | tick n =>
    cases hs
    exact h.extend (Extends.of_eq rfl rfl rfl rfl rfl) rfl rfl rfl rfl
  | beginRead tx chat branch began =>
    rw [EntityLock.step, Option.ite_none_right_eq_some] at hs
    obtain ⟨hbegan, hs⟩ := hs
    refine h.newTx (fun began' hk => ?_) (fun call hk => by cases hk) hs
    cases hk
    exact hbegan
  | beginObserve tx chat branch call =>
    rw [EntityLock.step, Option.ite_none_right_eq_some] at hs
    obtain ⟨hcall, hs⟩ := hs
    refine h.newTx (fun began hk => by cases hk) (fun call' hk => ?_) hs
    cases hk
    exact hcall
  | beginWrite tx chat branch isCaller =>
    exact h.newTx (fun began hk => by cases hk) (fun call hk => by cases hk) hs
  | readEntity tx =>
    obtain ⟨t, ht, hs⟩ := Option.bind_eq_some_iff.1 hs
    exact h.readEntity ht hs
  | observeDraftReads tx =>
    obtain ⟨t, ht, hs⟩ := Option.bind_eq_some_iff.1 hs
    exact h.observeDraftReads ht hs
  | insertLock tx =>
    obtain ⟨t, ht, hs⟩ := Option.bind_eq_some_iff.1 hs
    rw [Option.ite_none_right_eq_some] at hs
    exact h.insertLock ht hs.1.1 hs.2
  | lockRow tx =>
    obtain ⟨t, ht, hs⟩ := Option.bind_eq_some_iff.1 hs
    rw [Option.ite_none_right_eq_some] at hs
    exact h.lockRow ht hs.1 hs.2
  | afterLock tx b =>
    obtain ⟨t, ht, hs⟩ := Option.bind_eq_some_iff.1 hs
    split at hs
    · rename_i row hc
      exact h.afterLock ht hc hs
    · cases hs
  | observeDraftEntity tx =>
    obtain ⟨t, ht, hs⟩ := Option.bind_eq_some_iff.1 hs
    exact h.observeDraftEntity ht hs
  | emitSnapshot tx owner =>
    obtain ⟨t, ht, hs⟩ := Option.bind_eq_some_iff.1 hs
    exact h.emitSnapshot ht hs
  | commit tx =>
    obtain ⟨t, ht, hs⟩ := Option.bind_eq_some_iff.1 hs
    exact h.commit ht timely hs
  | abort tx =>
    obtain ⟨t, -, rfl⟩ := Option.map_eq_some_iff.1 hs
    exact h.abort
  | consume headers =>
    cases hs
    exact h.extend ⟨rfl, fun _ hh => List.mem_append_left _ hh, fun _ _ hc => hc, fun _ _ hc => hc, fun _ _ hc => hc⟩
      rfl rfl rfl rfl

end Statements

theorem TimelyRun.inv (h : TimelyRun s) : Inv s := by
  induction h with
  | init => exact init_inv
  | step _ timely hs ih => exact ih.step timely hs

theorem newestOf_spec {cs : List Change} (hne : cs ≠ []) :
    ∃ newest ∈ cs, newestOf cs = some newest ∧ ∀ c ∈ cs, c.createdAt ≤ newest.createdAt := by
  induction cs with
  | nil => exact absurd rfl hne
  | cons b cs ih =>
    by_cases hcs : cs = []
    · subst hcs
      exact ⟨b, List.mem_cons_self, rfl, fun c hc => by rw [List.mem_singleton.1 hc]⟩
    · obtain ⟨newest, hmem, hnewest, hle⟩ := ih hcs
      by_cases hlt : newest.createdAt < b.createdAt
      · refine ⟨b, List.mem_cons_self, by simp [newestOf, hnewest, hlt], fun c hc => ?_⟩
        rcases List.mem_cons.1 hc with rfl | hc
        · exact le_refl _
        · exact (hle c hc).trans (le_of_lt hlt)
      · refine ⟨newest, List.mem_cons_of_mem b hmem, by simp [newestOf, hnewest, hlt], fun c hc => ?_⟩
        rcases List.mem_cons.1 hc with rfl | hc
        · exact not_lt.1 hlt
        · exact hle c hc

/-! ### No silent overwrite -/

/-- The change is one the transaction itself takes over, one the chat has read, or one a refusal was over; the refusal
names the newest. -/
def Accounted (s : Db) (t : Tx) (c : Change) : Prop :=
  c ∈ t.moved ∨ c ∈ s.readBy t.chat ∨
    ∃ conflict ∈ s.conflicts t.chat, ∃ newest ∈ conflict, newestOf conflict = some newest ∧ c ∈ conflict ∧
      c.createdAt ≤ newest.createdAt

/-- A draft chat whose write is permitted has had every pending change of another chat. -/
theorem permitted_known {s : Db} (h : TimelyRun s) {tx : Nat} {t : Tx} (ht : s.txs tx = some t)
    (hcheck : t.check = .permitted) (hdraft : t.branch = .draft) (hcaller : t.isCaller = true) {c : Change}
    (hc : c ∈ s.changes) (hp : s.pending c = true) (howner : c.owner ≠ some t.chat) : Accounted s t c := by
  have hi := h.inv.txs tx t ht
  have hgranted : t.check.granted := hcheck ▸ trivial
  obtain ⟨row, hrow, hbranch⟩ := hi.granted (Or.inl hgranted)
  rcases hi.moved row hrow c hc hp with hb | hmoved
  · have hforeign : Foreign s t.chat c := ⟨hc, hb.trans (hbranch.trans hdraft), hp, howner⟩
    rcases hi.known hgranted hdraft hcaller c hforeign with hknown | hover
    · rcases hknown with hread | ⟨conflict, hconflict, hmem⟩
      · exact Or.inr (Or.inl hread)
      · obtain ⟨newest, hnewest, heq, hle⟩ := newestOf_spec (List.ne_nil_of_mem hmem)
        exact Or.inr (Or.inr ⟨conflict, hconflict, newest, hnewest, heq, hmem, hle c hmem⟩)
    · rw [hcheck] at hover
      cases hover
  · exact Or.inl hmoved

/-- Statements and transactions that are not at their end. -/
def Action.isCommit : Action → Bool
  | .commit _ => true
  | _ => false

theorem TimelyRun.quiet (h : TimelyRun s) {as : List Action} (hq : as.all (fun a => !a.isCommit) = true)
    (hs : runs s as = some s') : TimelyRun s' := by
  induction as generalizing s with
  | nil =>
    cases hs
    exact h
  | cons a as ih =>
    obtain ⟨s₁, hs₁, hs⟩ := Option.bind_eq_some_iff.1 hs
    rw [List.all_cons, Bool.and_eq_true] at hq
    refine ih (h.step ?_ hs₁) hq.2 hs
    cases a with
    | commit tx => cases hq.1
    | _ => trivial

/-- The draft write of chat `chat` in transaction `tx`, up to the decision. -/
def writeCall (tx chat : Nat) : List Action :=
  [.beginWrite tx chat .draft true, .insertLock tx, .lockRow tx, .afterLock tx .check, .observeDraftEntity tx]

/-- The read of chat `chat` in transaction `tx`, recorded. -/
def readCall (tx chat : Nat) (began : Int) : List Action :=
  [.beginRead tx chat .draft began, .readEntity tx, .observeDraftReads tx]

/-- Chat 10 has changed the entity and is about to commit. -/
def changed : Db := (runs init (.tick 1 :: writeCall 1 10 ++ [.emitSnapshot 1 (some 10)])).get (by decide)

def thenRead : Db := (runs ((step changed (.commit 1)).get (by decide)) (.tick 1 :: readCall 2 20 2)).get (by decide)

def thenWritten : Db := (runs ((step thenRead (.commit 2)).get (by decide)) (writeCall 3 20)).get (by decide)

theorem thenWritten_timely : TimelyRun thenWritten := by
  have hchanged : TimelyRun changed := TimelyRun.init.quiet (by decide) (Option.some_get _).symm
  -- nobody else has a transaction, an observation or a finished read
  have hcommit : Timely changed (.commit 1) := by
    intro t ht c hc hbranch chat howner
    refine ⟨fun at_ hat => ?_, fun tx' t' began ht' hchat hkind => ?_, fun call hcall => by cases hcall⟩
    · have hnone : (changed.seen chat).committed = none := by
        by_cases hne : chat = 10
        · subst hne
          decide
        · have hseen : changed.seen chat = ⟨none, none⟩ := Function.update_of_ne hne ..
          rw [hseen]
      rw [hnone] at hat
      cases hat
    · by_cases hne : tx' = 1
      · subst hne
        have hall : (changed.txs 1).all (fun t => decide (t.kind = .write)) = true := by decide
        rw [ht'] at hall
        rw [show t'.kind = .write from of_decide_eq_true hall] at hkind
        cases hkind
      · have hnone : changed.txs tx' = none := by
          iterate 6 refine (Function.update_of_ne hne ..).trans ?_
          rfl
        rw [hnone] at ht'
        cases ht'
  have hread : TimelyRun thenRead := by
    refine (hchanged.step hcommit (Option.some_get _).symm).quiet ?_ (Option.some_get _).symm
    decide
  have hcommitRead : Timely thenRead (.commit 2) := by
    intro t ht c hc
    have hall : (thenRead.txs 2).all (fun t => t.wrote.isEmpty) = true := by decide
    rw [ht] at hall
    rw [List.isEmpty_iff.1 hall] at hc
    cases hc
  refine (hread.step hcommitRead (Option.some_get _).symm).quiet ?_ (Option.some_get _).symm
  decide

theorem permitted_known_read : Accounted thenWritten ((thenWritten.txs 3).get (by decide)) ⟨0, some 10, .draft, 1⟩ :=
  permitted_known thenWritten_timely (Option.some_get _).symm (by decide) (by decide) (by decide) (by decide) (by decide)
    (by decide)

/-- Chat 20 reads between chat 10's write and its commit, and overwrites what it has not seen. -/
def overwritten : Db :=
  (runs changed (.tick 1 :: readCall 2 20 2 ++ [.commit 2, .commit 1, .tick 1] ++ writeCall 3 20)).get (by decide)

theorem permitted_unseen : ¬ ∀ (as : List Action) (s : Db) (tx : Nat) (t : Tx) (c : Change), runs init as = some s →
    s.txs tx = some t → t.check = .permitted → t.branch = .draft → t.isCaller = true → c ∈ s.changes →
    s.pending c = true → c.owner ≠ some t.chat → Accounted s t c := by
  intro hall
  let as := .tick 1 :: writeCall 1 10 ++ [.emitSnapshot 1 (some 10)] ++ (.tick 1 :: readCall 2 20 2) ++
    [.commit 2, .commit 1, .tick 1] ++ writeCall 3 20
  have hrun : runs init as = some overwritten := rfl
  have hacc := hall as overwritten 3 ((overwritten.txs 3).get (by decide)) ⟨0, some 10, .draft, 1⟩ hrun
    (Option.some_get _).symm (by decide) (by decide) (by decide) (by decide) (by decide) (by decide)
  rcases hacc with hmoved | hread | ⟨conflict, hconflict, -⟩
  · exact absurd hmoved (by decide)
  · exact absurd hread (by decide)
  · cases hconflict

end CaeloCms.EntityLock
