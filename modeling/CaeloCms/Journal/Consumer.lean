import CaeloCms.Journal.Mark

/-!
# The journal consumer loses nothing

A consumer's position is its cursor and, while a read is paged, the position inside the pinned target.  `Recorded`
says that everything a position has passed is in a recorded batch; `BatchOk` says that a batch which continues from a
cursor, together with what is recorded, reaches the position of its token.  Instances share the stored position and
nothing else, so each only has to keep its own batch up to date; the comparison with the stored cursor at the commit
brings the two together (`ConsumerInv.step`).
-/

namespace CaeloCms.Journal

open Mvcc

variable {filter : String → JournalFilter}

def Settled (s : Tables) (t : Snapshot) : Prop := ∀ x, t.visible x = true → x ∈ s.log.done

theorem settled_snapshot (s : Tables) : Settled s (s.log.snapshot none) :=
  fun _ h => (TxLog.snapshot_visible.1 h).resolve_right nofun

/-- The keys of the matching rows seen by `t` and not by `c`, up to the position `a`, are in `keys`. -/
def Covers (s : Tables) (f : JournalFilter) (c t : Snapshot) (a : Option RowKey) (keys : List RowKey) : Prop :=
  ∀ r ∈ s.changes, f.filterSql r.value = true → c.visible r.insertedBy = false → t.visible r.insertedBy = true →
    (∀ b, a = some b → changeKey r ≤ b) → changeKey r ∈ keys

theorem Covers.mono {s : Tables} {f : JournalFilter} {c t : Snapshot} {a : Option RowKey} {keys keys' : List RowKey}
    (h : Covers s f c t a keys) (hk : ∀ k ∈ keys, k ∈ keys') : Covers s f c t a keys' :=
  fun r hr hf hc ht ha => hk _ (h r hr hf hc ht ha)

theorem sameRow_key {t u : Tuple Change} (h : SameRow t u) : changeKey t = changeKey u := by
  unfold changeKey
  rw [h.1, h.2]

theorem Covers.step {s u : Tables} (hu : TableStep s u) {f : JournalFilter} {c t : Snapshot} {a : Option RowKey}
    {keys : List RowKey} (ht : Settled s t) (h : Covers s f c t a keys) : Covers u f c t a keys := by
  intro r hr hf hc htv ha
  obtain ⟨r', hr', hsame⟩ := hu.rows.2 r hr (ht _ htv)
  have hkey := sameRow_key hsame
  rw [hkey]
  exact h r' hr' (hsame.2 ▸ hf) (hsame.1 ▸ hc) (hsame.1 ▸ htv) (fun b hb => hkey ▸ ha b hb)

theorem Settled.step {s u : Tables} (hu : TableStep s u) {t : Snapshot} (ht : Settled s t) : Settled u t :=
  fun x hx => hu.extends.done.subset (ht x hx)

/-! ### Positions, batches -/

/-- What the position of a paged read has passed is in `keys`; there is a position exactly while a target is
pinned. -/
structure PageOk (s : Tables) (f : JournalFilter) (state : ConsumerState) (keys : List RowKey) : Prop where
  unpaged : state.target = none → state.after = none
  settled : ∀ t, state.target = some t → Settled s t
  covers : ∀ t, state.target = some t → ∃ a, state.after = some a ∧ Covers s f state.cursor t (some a) keys

/-- A batch, with what is recorded, covers what lies between the cursor it continues from and the position of its
token. -/
structure BatchOk (s : Tables) (f : JournalFilter) (batch : ChangeBatch) (recorded : List RowKey) : Prop where
  unpaged : batch.token.target = none → batch.token.after = none ∧ Settled s batch.token.cursor ∧
    Covers s f batch.token.from' batch.token.cursor none (recorded ++ batch.changes.map changeKey)
  paged : ∀ t, batch.token.target = some t → batch.token.cursor = batch.token.from' ∧ Settled s t ∧
    ∃ a, batch.token.after = some a ∧
      Covers s f batch.token.from' t (some a) (recorded ++ batch.changes.map changeKey)

def Consumer.state (k : Consumer) : ConsumerState := ⟨k.cursor, k.pageTarget, k.pageAfter⟩

/-- Everything below the stored position is recorded, but for what `since` had seen; every recorded row was handled. -/
structure ConsumerOk (s : Tables) (f : JournalFilter) (k : Consumer) : Prop where
  settled : ∀ x, k.cursor.visible x = true → k.since.visible x = true ∨ x ∈ s.log.done
  covers : Covers s f k.since k.cursor none k.recorded
  page : PageOk s f k.state k.recorded
  handled : ∀ key ∈ k.recorded, key ∈ k.handled

/-- What an instance remembers is sound for the consumer `k` it works on. -/
def InstanceOk (s : Tables) (f : JournalFilter) (k : Consumer) : Instance → Prop
  | .idle => True
  | .loaded _ state => PageOk s f state k.recorded
  | .polled _ batch => batch.needsRebuild = false → BatchOk s f batch k.recorded
  | .handledBatch _ batch => BatchOk s f batch k.recorded ∧ ∀ r ∈ batch.changes, changeKey r ∈ k.handled

def Instance.consumer? : Instance → Option String
  | .idle => none
  | .loaded name _ => some name
  | .polled name _ => some name
  | .handledBatch name _ => some name

structure ConsumerInv (filter : String → JournalFilter) (s : JournalDb) : Prop where
  names : (s.consumers.map (·.name)).Nodup
  consumers : ∀ k ∈ s.consumers, ConsumerOk s.toTables (filter k.name) k
  instances : ∀ i name, (s.instances i).consumer? = some name →
    ∃ k ∈ s.consumers, k.name = name ∧ InstanceOk s.toTables (filter name) k (s.instances i)
  tokens : ∀ i name batch, s.instances i = .handledBatch name batch ∨ s.instances i = .polled name batch →
    batch.token.name = name

theorem PageOk.step {s u : Tables} (hu : TableStep s u) {f : JournalFilter} {state : ConsumerState}
    {keys : List RowKey} (h : PageOk s f state keys) : PageOk u f state keys := by
  refine ⟨h.unpaged, fun t ht => (h.settled t ht).step hu, fun t ht => ?_⟩
  obtain ⟨a, ha, hcov⟩ := h.covers t ht
  exact ⟨a, ha, hcov.step hu (h.settled t ht)⟩

theorem PageOk.mono {s : Tables} {f : JournalFilter} {state : ConsumerState} {keys keys' : List RowKey}
    (h : PageOk s f state keys) (hk : ∀ k ∈ keys, k ∈ keys') : PageOk s f state keys' := by
  refine ⟨h.unpaged, h.settled, fun t ht => ?_⟩
  obtain ⟨a, ha, hcov⟩ := h.covers t ht
  exact ⟨a, ha, hcov.mono hk⟩

theorem BatchOk.step {s u : Tables} (hu : TableStep s u) {f : JournalFilter} {batch : ChangeBatch}
    {recorded : List RowKey} (h : BatchOk s f batch recorded) : BatchOk u f batch recorded := by
  refine ⟨fun ht => ?_, fun t ht => ?_⟩
  · obtain ⟨ha, hset, hcov⟩ := h.unpaged ht
    exact ⟨ha, hset.step hu, hcov.step hu hset⟩
  · obtain ⟨hcur, hset, a, ha, hcov⟩ := h.paged t ht
    exact ⟨hcur, hset.step hu, a, ha, hcov.step hu hset⟩

theorem BatchOk.mono {s : Tables} {f : JournalFilter} {batch : ChangeBatch} {recorded recorded' : List RowKey}
    (h : BatchOk s f batch recorded) (hk : ∀ k ∈ recorded, k ∈ recorded') : BatchOk s f batch recorded' := by
  have hk' : ∀ k ∈ recorded ++ batch.changes.map changeKey, k ∈ recorded' ++ batch.changes.map changeKey := by
    intro k hmem
    rcases List.mem_append.1 hmem with hmem | hmem
    · exact List.mem_append_left _ (hk k hmem)
    · exact List.mem_append_right _ hmem
  refine ⟨fun ht => ?_, fun t ht => ?_⟩
  · obtain ⟨ha, hset, hcov⟩ := h.unpaged ht
    exact ⟨ha, hset, hcov.mono hk'⟩
  · obtain ⟨hcur, hset, a, ha, hcov⟩ := h.paged t ht
    exact ⟨hcur, hset, a, ha, hcov.mono hk'⟩

theorem ConsumerOk.step {s u : Tables} (hu : TableStep s u) {f : JournalFilter} {k : Consumer}
    (h : ConsumerOk s f k) : ConsumerOk u f k := by
  refine ⟨fun x hx => (h.settled x hx).imp id fun hd => hu.extends.done.subset hd, ?_, h.page.step hu, h.handled⟩
  intro r hr hf hsince hc ha
  -- a row the cursor sees and `since` does not is of a transaction that had ended
  have hdone := (h.settled _ hc).resolve_left (by rw [hsince]; exact Bool.false_ne_true)
  obtain ⟨r', hr', hsame⟩ := hu.rows.2 r hr hdone
  rw [sameRow_key hsame]
  exact h.covers r' hr' (hsame.2 ▸ hf) (hsame.1 ▸ hsince) (hsame.1 ▸ hc) nofun

theorem InstanceOk.step {s u : Tables} (hu : TableStep s u) {f : JournalFilter} {k : Consumer} {st : Instance}
    (h : InstanceOk s f k st) : InstanceOk u f k st := by
  cases st with
  | idle => trivial
  | loaded name state => exact PageOk.step hu h
  | polled name batch => exact fun hr => (h hr).step hu
  | handledBatch name batch => exact ⟨h.1.step hu, h.2⟩

theorem InstanceOk.mono {s : Tables} {f : JournalFilter} {k k' : Consumer} {st : Instance} (h : InstanceOk s f k st)
    (hr : ∀ key ∈ k.recorded, key ∈ k'.recorded) (hh : ∀ key ∈ k.handled, key ∈ k'.handled) :
    InstanceOk s f k' st := by
  cases st with
  | idle => trivial
  | loaded name state => exact PageOk.mono h hr
  | polled name batch => exact fun hb => (h hb).mono hr
  | handledBatch name batch => exact ⟨h.1.mono hr, fun r hmem => hh _ (h.2 r hmem)⟩

/-! ### Reading keeps the promise -/

/-- A poll that reports no loss returns a batch that covers what lies between its cursor and its token. -/
theorem pollChanges_ok {s : Tables} (hs : TablesInv s) {f : JournalFilter} {name : String} {state : ConsumerState}
    {limit : Nat} (hlimit : 0 < limit) {keys : List RowKey} (hst : PageOk s f state keys)
    (hr : (pollChanges name state (readChanges s state f limit)).needsRebuild = false) :
    BatchOk s f (pollChanges name state (readChanges s state f limit)) keys := by
  set read := readChanges s state f limit with hread
  have hr' : read.needsRebuild = false := hr
  have htarget : read.target = state.readTarget s := by
    rw [hread]
    unfold readChanges
    dsimp only
    split <;> rfl
  have hsettled : Settled s read.target := by
    rw [htarget]
    unfold ConsumerState.readTarget
    cases ht : state.target with
    | none => exact settled_snapshot s
    | some t => exact hst.settled t ht
  -- a row of the window is behind the stored position, where it is recorded, or is one the read returns
  have hwindow : ∀ r ∈ s.changes, f.filterSql r.value = true → state.cursor.visible r.insertedBy = false →
      read.target.visible r.insertedBy = true → changeKey r ∈ keys ∨ InWindow s state f r := by
    intro r hmem hf hc ht
    by_cases hpast : ∃ a, state.after = some a ∧ changeKey r ≤ a
    · obtain ⟨a, ha, hle⟩ := hpast
      refine Or.inl ?_
      cases htt : state.target with
      | none =>
        rw [hst.unpaged htt] at ha
        cases ha
      | some t =>
        obtain ⟨a', ha', hcov⟩ := hst.covers t htt
        have haa : a' = a := Option.some.inj (ha'.symm.trans ha)
        have htr : read.target = t := by
          rw [htarget, ConsumerState.readTarget, htt]
          rfl
        refine hcov r hmem hf hc (htr ▸ ht) fun b hb => ?_
        rw [← Option.some.inj hb, haa]
        exact hle
    · refine Or.inr ⟨hmem, hsettled _ ht, hc, htarget ▸ ht, fun a ha => ?_, hf⟩
      by_contra hlt
      exact hpast ⟨a, ha, not_lt.1 hlt⟩
  cases hm : read.more with
  | false =>
    refine ⟨fun _ => ?_, fun t ht => ?_⟩
    · simp only [pollChanges, hm]
      refine ⟨rfl, hsettled, fun r hmem hf hc ht _ => ?_⟩
      rcases hwindow r hmem hf hc ht with hk | hin
      · exact List.mem_append_left _ hk
      · exact List.mem_append_right _ (List.mem_map_of_mem ((readChanges_complete hs hr' hin).1 hm))
    · simp [pollChanges, hm] at ht
  | true =>
    refine ⟨fun ht => ?_, fun t ht => ?_⟩
    · simp [pollChanges, hm] at ht
    · have ht' : read.target = t := by simpa [pollChanges, hm] using ht
      obtain ⟨last, hlast⟩ : ∃ last, read.changes.getLast? = some last := by
        rw [hread] at hm hr' ⊢
        unfold readChanges at hm hr' ⊢
        dsimp only at hm hr' ⊢
        split at hm
        · cases hm
        · rename_i hl
          rw [if_neg hl]
          exact Page.exists_last_of_more hlimit hm
      simp only [pollChanges, hm, hlast]
      refine ⟨rfl, ht' ▸ hsettled, changeKey last, rfl, fun r hmem hf hc htv hle => ?_⟩
      rcases hwindow r hmem hf hc (ht' ▸ htv) with hk | hin
      · exact List.mem_append_left _ hk
      · exact List.mem_append_right _ ((readChanges_complete hs hr' hin).2 last hlast (hle _ rfl))

/-! ### Steps keep the invariant -/

section Steps

variable {s : JournalDb}

theorem mem_setConsumer {name : String} {g : Consumer → Consumer} {k : Consumer} (hk : k ∈ s.consumers) :
    (if k.name = name then g k else k) ∈ (s.setConsumer name g).consumers :=
  List.mem_map_of_mem hk

theorem setConsumer_names {name : String} {g : Consumer → Consumer} (hname : ∀ k, (g k).name = k.name) :
    (s.setConsumer name g).consumers.map (·.name) = s.consumers.map (·.name) := by
  unfold JournalDb.setConsumer
  rw [List.map_map]
  refine List.map_congr_left fun k _ => ?_
  simp only [Function.comp_apply]
  split
  · exact hname k
  · rfl

theorem ConsumerInv.setConsumer (h : ConsumerInv filter s) (name : String) {g : Consumer → Consumer}
    (hname : ∀ k, (g k).name = k.name) (hrec : ∀ k, ∀ key ∈ k.recorded, key ∈ (g k).recorded)
    (hhand : ∀ k, ∀ key ∈ k.handled, key ∈ (g k).handled)
    (hok : ∀ k ∈ s.consumers, k.name = name → ConsumerOk s.toTables (filter k.name) (g k)) :
    ConsumerInv filter (s.setConsumer name g) := by
  refine ⟨?_, ?_, ?_, h.tokens⟩
  · rw [setConsumer_names hname]
    exact h.names
  · intro k hk
    obtain ⟨k₀, hk₀, rfl⟩ := List.mem_map.1 hk
    by_cases hn : k₀.name = name
    · rw [if_pos hn, hname]
      exact hok k₀ hk₀ hn
    · rw [if_neg hn]
      exact h.consumers k₀ hk₀
  · intro i n hi
    obtain ⟨k, hk, hkn, hst⟩ := h.instances i n hi
    refine ⟨_, mem_setConsumer hk, ?_⟩
    split
    · exact ⟨(hname k).trans hkn, hst.mono (hrec k) (hhand k)⟩
    · exact ⟨hkn, hst⟩

theorem ConsumerInv.setInstance (h : ConsumerInv filter s) (i : Nat) {st : Instance}
    (hst : ∀ name, st.consumer? = some name →
      ∃ k ∈ s.consumers, k.name = name ∧ InstanceOk s.toTables (filter name) k st)
    (htok : ∀ name batch, st = .handledBatch name batch ∨ st = .polled name batch → batch.token.name = name) :
    ConsumerInv filter (s.setInstance i st) := by
  refine ⟨h.names, h.consumers, fun j name hj => ?_, fun j name batch hj => ?_⟩
  · by_cases hij : j = i
    · subst hij
      simp only [JournalDb.setInstance, Function.update_self] at hj ⊢
      exact hst name hj
    · simp only [JournalDb.setInstance, Function.update_of_ne hij] at hj ⊢
      exact h.instances j name hj
  · by_cases hij : j = i
    · subst hij
      simp only [JournalDb.setInstance, Function.update_self] at hj
      exact htok name batch hj
    · simp only [JournalDb.setInstance, Function.update_of_ne hij] at hj
      exact h.tokens j name batch hj

theorem ConsumerInv.setIdle (h : ConsumerInv filter s) (i : Nat) : ConsumerInv filter (s.setInstance i .idle) :=
  h.setInstance i nofun fun _ _ hst => by rcases hst with hst | hst <;> cases hst

theorem ConsumerInv.tables (h : ConsumerInv filter s) {u : JournalDb} (hu : TableStep s.toTables u.toTables)
    (hc : u.consumers = s.consumers) (hi : u.instances = s.instances) : ConsumerInv filter u := by
  refine ⟨hc ▸ h.names, ?_, ?_, hi ▸ h.tokens⟩
  · rw [hc]
    exact fun k hk => (h.consumers k hk).step hu
  · rw [hc, hi]
    intro i name hj
    obtain ⟨k, hk, hkn, hst⟩ := h.instances i name hj
    exact ⟨k, hk, hkn, hst.step hu⟩

theorem consumer_unique (h : ConsumerInv filter s) {k k' : Consumer} (hk : k ∈ s.consumers) (hk' : k' ∈ s.consumers)
    (hn : k.name = k'.name) : k = k' :=
  List.inj_on_of_nodup_map h.names hk hk' hn

theorem consumer?_spec {name : String} {k : Consumer} (h : s.consumer? name = some k) :
    k ∈ s.consumers ∧ k.name = name := by
  refine ⟨List.mem_of_find?_eq_some h, ?_⟩
  simpa using List.find?_some h

theorem consumerOk_new {f : JournalFilter} {t : Tables} {k : Consumer} (hsince : k.since = k.cursor)
    (htarget : k.pageTarget = none) (hafter : k.pageAfter = none) (hh : ∀ key ∈ k.recorded, key ∈ k.handled) :
    ConsumerOk t f k := by
  refine ⟨fun x hx => Or.inl (hsince ▸ hx), fun r _ _ hs hc _ => ?_, ⟨fun _ => hafter, ?_, ?_⟩, hh⟩
  · rw [hsince, hc] at hs
    cases hs
  · intro t ht
    rw [Consumer.state, htarget] at ht
    cases ht
  · intro t ht
    rw [Consumer.state, htarget] at ht
    cases ht

theorem ConsumerInv.register (h : ConsumerInv filter s) (own : Option Nat) (name : String) :
    ConsumerInv filter (registerConsumer s own name) := by
  unfold registerConsumer
  split
  · exact h
  · rename_i hnone
    refine ⟨?_, ?_, ?_, h.tokens⟩
    · rw [List.map_append, List.nodup_append]
      refine ⟨h.names, List.nodup_singleton _, ?_⟩
      intro a ha b hb heq
      obtain ⟨k, hk, rfl⟩ := List.mem_map.1 ha
      simp only [List.map_cons, List.map_nil, List.mem_singleton] at hb
      refine hnone (List.find?_isSome.2 ⟨k, hk, by simpa [hb] using heq⟩)
    · intro k hk
      rcases List.mem_append.1 hk with hk | hk
      · exact h.consumers k hk
      · rw [List.mem_singleton.1 hk]
        exact consumerOk_new rfl rfl rfl nofun
    · intro i n hi
      obtain ⟨k, hk, hkn, hst⟩ := h.instances i n hi
      exact ⟨k, List.mem_append_left _ hk, hkn, hst⟩

/-- The columns a claim or a rebuild mark changes are not part of the position. -/
theorem ConsumerOk.congr {t : Tables} {f : JournalFilter} {k k' : Consumer} (h : ConsumerOk t f k)
    (hpos : k'.cursor = k.cursor ∧ k'.pageTarget = k.pageTarget ∧ k'.pageAfter = k.pageAfter ∧ k'.since = k.since ∧
      k'.recorded = k.recorded ∧ k'.handled = k.handled) : ConsumerOk t f k' := by
  obtain ⟨hc, ht, ha, hs, hr, hh⟩ := hpos
  refine ⟨by rw [hc, hs]; exact h.settled, by rw [hs, hc, hr]; exact h.covers, ?_, by rw [hr, hh]; exact h.handled⟩
  unfold Consumer.state
  rw [hc, ht, ha, hr]
  exact h.page

theorem ConsumerOk.commit {t : Tables} {f : JournalFilter} {k : Consumer} {batch : ChangeBatch}
    (h : ConsumerOk t f k) (hb : BatchOk t f batch k.recorded) (hfrom : k.cursor = batch.token.from')
    (hhand : ∀ r ∈ batch.changes, changeKey r ∈ k.handled) :
    ConsumerOk t f { k with cursor := batch.token.cursor, pageTarget := batch.token.target
                            pageAfter := batch.token.after
                            recorded := k.recorded ++ batch.changes.map changeKey } := by
  have hkeep : ∀ key ∈ k.recorded, key ∈ k.recorded ++ batch.changes.map changeKey :=
    fun key hkey => List.mem_append_left _ hkey
  cases htarget : batch.token.target with
  | none =>
    obtain ⟨hafter, hsettled, hcov⟩ := hb.unpaged htarget
    refine ⟨fun x hx => Or.inr (hsettled x hx), ?_, ⟨fun _ => hafter, nofun, nofun⟩, ?_⟩
    · intro r hr hf hs hc _
      by_cases hseen : k.cursor.visible r.insertedBy = true
      · exact hkeep _ (h.covers r hr hf hs hseen nofun)
      · exact hcov r hr hf (by rw [← hfrom]; simpa using hseen) hc nofun
    · intro key hkey
      rcases List.mem_append.1 hkey with hkey | hkey
      · exact h.handled key hkey
      · obtain ⟨r, hr, rfl⟩ := List.mem_map.1 hkey
        exact hhand r hr
  | some target =>
    obtain ⟨hcursor, hsettled, a, hafter, hcov⟩ := hb.paged target htarget
    have hcur : batch.token.cursor = k.cursor := hcursor.trans hfrom.symm
    refine ⟨by rw [hcur]; exact h.settled, ?_, ⟨nofun, ?_, ?_⟩, ?_⟩
    · rw [hcur]
      exact h.covers.mono hkeep
    · intro t' ht'
      exact Option.some.inj ht' ▸ hsettled
    · intro t' ht'
      refine ⟨a, hafter, ?_⟩
      show Covers t f batch.token.cursor t' (some a) _
      rw [hcursor, ← Option.some.inj ht']
      exact hcov
    · intro key hkey
      rcases List.mem_append.1 hkey with hkey | hkey
      · exact h.handled key hkey
      · obtain ⟨r, hr, rfl⟩ := List.mem_map.1 hkey
        exact hhand r hr

theorem commitMatches_iff {k : Consumer} {token : Token} {holder : Option String} {now : Int} :
    commitMatches k token holder now = true ↔
      k.name = token.name ∧ k.cursor = token.from' ∧ claimHeld k holder now = true := by
  simp [commitMatches, and_assoc]

theorem ConsumerInv.commit (h : ConsumerInv filter s) {i : Nat} {name : String} {batch : ChangeBatch}
    {holder : Option String} (hi : s.instances i = .handledBatch name batch) {u : JournalDb}
    (hu : commitChanges s batch holder = some u) : ConsumerInv filter u := by
  have htok : batch.token.name = name := h.tokens i name batch (Or.inl hi)
  obtain ⟨k₀, hk₀, hk₀n, hst⟩ := h.instances i name (by rw [hi]; rfl)
  rw [hi] at hst
  unfold commitChanges at hu
  split at hu
  · cases hu
    refine h.setConsumer _ (fun k => ?_) (fun k key hkey => ?_) (fun k key hkey => ?_) fun k hk hkn => ?_
    · split <;> rfl
    · split
      · exact List.mem_append_left _ hkey
      · exact hkey
    · split <;> exact hkey
    · split
      · rename_i hm
        obtain ⟨-, hfrom, -⟩ := commitMatches_iff.1 hm
        have hkk : k = k₀ := consumer_unique h hk hk₀ (by rw [hkn, htok, hk₀n])
        subst hkk
        have hb := hst.1
        rw [← hk₀n] at hb
        exact (h.consumers k hk).commit hb hfrom hst.2
      · exact h.consumers k hk
  · cases hu

theorem ConsumerInv.step (hs : ConsumerInv filter s) (htables : TablesInv s.toTables) {s' : JournalDb} {a : Action}
    (h : step filter s a = some s') : ConsumerInv filter s' := by
  have htstep := step_tables h
  cases a with
  | tick ms =>
    cases h
    exact hs.tables .same rfl rfl
  | start =>
    cases h
    exact hs.tables htstep rfl rfl
  | write x c =>
    simp only [Journal.step] at h
    split at h
    · cases h
      exact hs.tables htstep rfl rfl
    · cases h
  | commit x =>
    simp only [Journal.step] at h
    split at h
    · cases h
      exact hs.tables htstep rfl rfl
    · cases h
  | abort x =>
    simp only [Journal.step] at h
    split at h
    · cases h
      exact hs.tables htstep rfl rfl
    · cases h
  | deleteVictims x now retentionMs stalledMs batch =>
    simp only [Journal.step] at h
    split at h
    · cases h
      exact hs.tables htstep rfl rfl
    · cases h
  | deleteOldHorizons x =>
    simp only [Journal.step] at h
    split at h
    · obtain ⟨u, -, rfl⟩ := Option.map_eq_some_iff.1 h
      exact hs.tables htstep rfl rfl
    · cases h
  | register own name =>
    cases h
    exact hs.register own name
  | claim name holder leaseMs =>
    cases h
    refine hs.setConsumer name (fun k => ?_) (fun k key hkey => ?_) (fun k key hkey => ?_) fun k hk _ => ?_
    · split <;> rfl
    · split <;> exact hkey
    · split <;> exact hkey
    · split <;> exact (hs.consumers k hk).congr ⟨rfl, rfl, rfl, rfl, rfl, rfl⟩
  | release name holder =>
    cases h
    refine hs.setConsumer name (fun k => ?_) (fun k key hkey => ?_) (fun k key hkey => ?_) fun k hk _ => ?_
    · split <;> rfl
    · split <;> exact hkey
    · split <;> exact hkey
    · split <;> exact (hs.consumers k hk).congr ⟨rfl, rfl, rfl, rfl, rfl, rfl⟩
  | finishRebuild name holder =>
    cases h
    refine hs.setConsumer name (fun k => ?_) (fun k key hkey => ?_) (fun k key hkey => ?_) fun k hk _ => ?_
    · split <;> rfl
    · split <;> exact hkey
    · split <;> exact hkey
    · split <;> exact (hs.consumers k hk).congr ⟨rfl, rfl, rfl, rfl, rfl, rfl⟩
  | beginRebuild own name =>
    cases h
    refine hs.setConsumer name (fun k => rfl) (fun k key hkey => hkey) (fun k key hkey => hkey) fun k hk _ => ?_
    exact consumerOk_new rfl rfl rfl (hs.consumers k hk).handled
  | load i name =>
    simp only [Journal.step] at h
    split at h
    · obtain ⟨state, hload, rfl⟩ := Option.map_eq_some_iff.1 h
      obtain ⟨k, hk, rfl⟩ := Option.map_eq_some_iff.1 hload
      obtain ⟨hmem, hkn⟩ := consumer?_spec hk
      refine hs.setInstance i (fun n hn => ?_) fun _ _ hst => by rcases hst with hst | hst <;> cases hst
      obtain rfl : name = n := Option.some.inj hn
      exact ⟨k, hmem, hkn, hkn ▸ (hs.consumers k hmem).page⟩
    · cases h
  | read i limit =>
    simp only [Journal.step] at h
    split at h
    · rename_i name state hi
      split at h
      · cases h
        exact hs.setIdle i
      · rename_i hlimit
        cases h
        obtain ⟨k, hk, hkn, hst⟩ := hs.instances i name (by rw [hi]; rfl)
        rw [hi] at hst
        refine hs.setInstance i (fun n hn => ?_) fun n batch hb => ?_
        · obtain rfl : name = n := Option.some.inj hn
          exact ⟨k, hk, hkn, fun hr => pollChanges_ok htables (by omega) hst hr⟩
        · rcases hb with hb | hb <;> cases hb
          unfold pollChanges
          dsimp only
          split <;> rfl
    · cases h
  | handle i =>
    simp only [Journal.step] at h
    split at h
    · rename_i name batch hi
      split at h
      · cases h
        exact hs.setIdle i
      · rename_i hneed
        cases h
        obtain ⟨k, hk, hkn, hst⟩ := hs.instances i name (by rw [hi]; rfl)
        rw [hi] at hst
        have hb : BatchOk s.toTables (filter name) batch k.recorded := hst (by simpa using hneed)
        have hgrown : ConsumerInv filter
            (s.setConsumer name fun k => { k with handled := k.handled ++ batch.changes.map changeKey }) := by
          refine hs.setConsumer name (fun k => rfl) (fun k key hkey => hkey)
            (fun k key hkey => List.mem_append_left _ hkey) fun k hk _ => ?_
          have hok := hs.consumers k hk
          exact ⟨hok.settled, hok.covers, hok.page, fun key hkey => List.mem_append_left _ (hok.handled key hkey)⟩
        refine hgrown.setInstance i (fun n hn => ?_) fun n b hnb => ?_
        · obtain rfl : name = n := Option.some.inj hn
          refine ⟨_, mem_setConsumer hk, ?_⟩
          rw [if_pos hkn]
          exact ⟨hkn, hb, fun r hr => List.mem_append_right _ (List.mem_map_of_mem hr)⟩
        · rcases hnb with hnb | hnb <;> cases hnb
          exact hs.tokens i name batch (Or.inr hi)
    · cases h
  | commitBatch i holder =>
    simp only [Journal.step] at h
    split at h
    · rename_i name batch hi
      cases h
      cases hc : commitChanges s batch holder with
      | none => exact hs.setIdle i
      | some u => exact (hs.commit hi hc).setIdle i
    · cases h
  | crash i =>
    cases h
    exact hs.setIdle i

end Steps

theorem ConsumerInv.of_reachable {s : JournalDb} (hs : Reachable filter s) : ConsumerInv filter s := by
  unfold Reachable at hs
  induction hs with
  | refl =>
    refine ⟨List.nodup_nil, fun k hk => (List.not_mem_nil hk).elim, nofun, ?_⟩
    intro i name batch h
    rcases h with h | h <;> cases h
  | step hreach hu ih => exact ih.step (TablesInv.of_reachable hreach) hu

/-! ### One instance -/

/-- A step of a run in which only the instance `i` works on the consumer `name`: it does not crash, its commits are
not refused, and the consumer is not rebuilt. -/
def Solo (name : String) (i : Nat) (s : JournalDb) : Action → Prop
  | .load j n => n = name → j = i
  | .crash j => (s.instances j).consumer? ≠ some name
  | .beginRebuild _ n => n ≠ name
  | .commitBatch j holder =>
    ∀ batch, s.instances j = .handledBatch name batch → (commitChanges s batch holder).isSome = true
  | _ => True

/-- `s` is reached by a run of such steps. -/
inductive SoloReaches (filter : String → JournalFilter) (name : String) (i : Nat) : JournalDb → Prop
  | empty : SoloReaches filter name i JournalDb.empty
  | step {s s' : JournalDb} {a : Action} (h : SoloReaches filter name i s) (ha : Solo name i s a)
      (hu : step filter s a = some s') : SoloReaches filter name i s'

theorem SoloReaches.reachable {name : String} {i : Nat} {s : JournalDb} (h : SoloReaches filter name i s) :
    Reachable filter s := by
  induction h with
  | empty => exact .refl _
  | step _ _ hu ih => exact .step ih hu

/-- The position has passed the key: the target has seen its transaction, and so has the cursor, or the key is not
after the position in the page. -/
def Passed (state : ConsumerState) (key : RowKey) : Prop :=
  (state.target.getD state.cursor).visible (ofLex key).1 = true ∧
    (state.cursor.visible (ofLex key).1 = true ∨ ∃ a, state.after = some a ∧ key ≤ a)

def Token.state (t : Token) : ConsumerState := ⟨t.cursor, t.target, t.after⟩

/-- A batch read at `state`: its rows lie after that position, and its token is the position behind them. -/
structure FreshBatch (state : ConsumerState) (batch : ChangeBatch) (handled : List RowKey) : Prop where
  from_eq : batch.token.from' = state.cursor
  nodup : (batch.changes.map changeKey).Nodup
  new : ∀ r ∈ batch.changes, ¬ Passed state (changeKey r)
  passed : ∀ r ∈ batch.changes, Passed batch.token.state (changeKey r)
  keeps : ∀ key ∈ handled, Passed batch.token.state key

/-- What the only instance remembers agrees with the stored position, and the handled keys are those passed. -/
def SoloOk (k : Consumer) (name : String) : Instance → Prop
  | .idle => ∀ key ∈ k.handled, Passed k.state key
  | .loaded n state => (n = name → state = k.state) ∧ ∀ key ∈ k.handled, Passed k.state key
  | .polled n batch => (∀ key ∈ k.handled, Passed k.state key) ∧
      (n = name → batch.needsRebuild = false → FreshBatch k.state batch k.handled)
  | .handledBatch n batch => (n ≠ name → ∀ key ∈ k.handled, Passed k.state key) ∧
      (n = name → batch.token.from' = k.cursor ∧ ∀ key ∈ k.handled, Passed batch.token.state key)

structure SoloInv (name : String) (i : Nat) (s : JournalDb) : Prop where
  alone : ∀ j, j ≠ i → (s.instances j).consumer? ≠ some name
  nodup : ∀ k ∈ s.consumers, k.name = name → k.handled.Nodup
  done : ∀ k ∈ s.consumers, k.name = name → ∀ key ∈ k.handled, (ofLex key).1 ∈ s.log.done
  agrees : ∀ k ∈ s.consumers, k.name = name → SoloOk k name (s.instances i)
  read : ∀ n batch, s.instances i = .polled n batch → ∀ r ∈ batch.changes, r.insertedBy ∈ s.log.done

theorem SoloOk.passed {k : Consumer} {name : String} {st : Instance} (h : SoloOk k name st)
    (hst : ∀ batch, st ≠ .handledBatch name batch) : ∀ key ∈ k.handled, Passed k.state key := by
  cases st with
  | idle => exact h
  | loaded n state => exact h.2
  | polled n batch => exact h.1
  | handledBatch n batch =>
    refine h.1 fun hn => ?_
    subst hn
    exact hst batch rfl

theorem pollChanges_fresh {s : Tables} (hs : TablesInv s) {f : JournalFilter} {name : String}
    {state : ConsumerState} {limit : Nat} (hlimit : 0 < limit) {handled : List RowKey}
    (hdone : ∀ key ∈ handled, (ofLex key).1 ∈ s.log.done)
    (hpassed : ∀ key ∈ handled, Passed state key)
    (hr : (pollChanges name state (readChanges s state f limit)).needsRebuild = false) :
    FreshBatch state (pollChanges name state (readChanges s state f limit)) handled := by
  have hlost : s.lost (s.view none) state.cursor = false := by
    by_contra hl
    have hl : s.lost (s.view none) state.cursor = true := by simpa using hl
    simp [pollChanges, readChanges, hl] at hr
  set target := state.target.getD (s.log.snapshot none) with htarget
  set page := Page.page changeKey limit (pageRows (s.visibleChanges (s.view none)) state.cursor target state.after f)
    with hpage
  have hread : readChanges s state f limit = ⟨page.1, target, false, page.2⟩ := by
    unfold readChanges
    dsimp only
    rw [hlost, if_neg Bool.false_ne_true]
    rfl
  rw [hread]
  have hrow : ∀ r ∈ page.1, state.cursor.visible r.insertedBy = false ∧ target.visible r.insertedBy = true ∧
      ∀ a, state.after = some a → a < changeKey r := by
    intro r hr
    obtain ⟨-, hc, ht, ha, -⟩ := mem_pageRows.1 (Page.mem_of_mem_page hr)
    exact ⟨hc, ht, ha⟩
  -- what was passed before is seen by the target of this read
  have hseen : ∀ key ∈ handled, target.visible (ofLex key).1 = true := by
    intro key hkey
    cases ht : state.target with
    | none =>
      rw [htarget, ht]
      exact TxLog.snapshot_visible.2 (Or.inl (hdone key hkey))
    | some t =>
      have := (hpassed key hkey).1
      rw [ht] at this
      rw [htarget, ht]
      exact this
  refine ⟨?_, ?_, ?_, ?_, ?_⟩
  · simp only [pollChanges]
    split <;> rfl
  · refine Page.nodup_page (hs.nodup.sublist (List.Sublist.map _ ?_))
    exact (List.filter_sublist.trans List.filter_sublist).trans List.filter_sublist
  · rintro r hr ⟨-, hc | ⟨a, ha, hle⟩⟩
    · have hc' : state.cursor.visible r.insertedBy = true := hc
      rw [(hrow r hr).1] at hc'
      cases hc'
    · exact absurd ((hrow r hr).2.2 a ha) (not_lt.2 hle)
  · intro r hr
    have ht := (hrow r hr).2.1
    cases hm : page.2 with
    | false =>
      simp only [pollChanges]
      exact ⟨ht, Or.inl ht⟩
    | true =>
      obtain ⟨last, hlast⟩ := Page.exists_last_of_more hlimit hm
      simp only [pollChanges]
      refine ⟨ht, Or.inr ⟨changeKey last, ?_, Page.key_le_last hr hlast⟩⟩
      show ((page.1.getLast?.map changeKey).or state.after) = some (changeKey last)
      rw [hlast]
      rfl
  · intro key hkey
    cases hm : page.2 with
    | false =>
      simp only [pollChanges]
      exact ⟨hseen key hkey, Or.inl (hseen key hkey)⟩
    | true =>
      obtain ⟨last, hlast⟩ := Page.exists_last_of_more hlimit hm
      have hmem := List.mem_of_getLast? hlast
      simp only [pollChanges]
      refine ⟨hseen key hkey, (hpassed key hkey).2.imp id ?_⟩
      rintro ⟨a, ha, hle⟩
      refine ⟨changeKey last, ?_, hle.trans (le_of_lt ((hrow last hmem).2.2 a ha))⟩
      show ((page.1.getLast?.map changeKey).or state.after) = some (changeKey last)
      rw [hlast]
      rfl

theorem readChanges_done {s : Tables} {state : ConsumerState} {f : JournalFilter} {limit : Nat} {r : Tuple Change}
    (hr : r ∈ (readChanges s state f limit).changes) : r.insertedBy ∈ s.log.done := by
  unfold readChanges at hr
  dsimp only at hr
  split at hr
  · cases hr
  · have hrows := (mem_pageRows.1 (Page.mem_of_mem_page hr)).1
    have hvis := (List.mem_filter.1 hrows).2
    simp only [Tuple.visibleIn, Bool.and_eq_true] at hvis
    rcases sees_view hvis.1 with hdone | hown
    · exact hdone
    · cases hown

section SoloSteps

variable {s : JournalDb} {name : String} {i : Nat}

theorem mem_setConsumer_other {n : String} {g : Consumer → Consumer} (hname : ∀ k, (g k).name = k.name)
    (hn : n ≠ name) {k : Consumer} (hk : k ∈ (s.setConsumer n g).consumers) (hkn : k.name = name) :
    k ∈ s.consumers := by
  obtain ⟨k₀, hk₀, rfl⟩ := List.mem_map.1 hk
  by_cases h : k₀.name = n
  · rw [if_pos h, hname, h] at hkn
    exact absurd hkn hn
  · rw [if_neg h]
    exact hk₀

theorem SoloInv.setConsumer_other (h : SoloInv name i s) {n : String} {g : Consumer → Consumer}
    (hname : ∀ k, (g k).name = k.name) (hn : n ≠ name) : SoloInv name i (s.setConsumer n g) :=
  ⟨h.alone, fun k hk hkn => h.nodup k (mem_setConsumer_other hname hn hk hkn) hkn,
    fun k hk hkn => h.done k (mem_setConsumer_other hname hn hk hkn) hkn,
    fun k hk hkn => h.agrees k (mem_setConsumer_other hname hn hk hkn) hkn, h.read⟩

theorem SoloOk.congr {k k' : Consumer} {st : Instance} (h : SoloOk k name st) (hstate : k'.state = k.state)
    (hhandled : k'.handled = k.handled) : SoloOk k' name st := by
  have hcursor : k'.cursor = k.cursor := congrArg ConsumerState.cursor hstate
  cases st with
  | idle =>
    unfold SoloOk at h ⊢
    rw [hstate, hhandled]
    exact h
  | loaded n state =>
    unfold SoloOk at h ⊢
    rw [hstate, hhandled]
    exact h
  | polled n batch =>
    unfold SoloOk at h ⊢
    rw [hstate, hhandled]
    exact h
  | handledBatch n batch =>
    unfold SoloOk at h ⊢
    rw [hstate, hhandled, hcursor]
    exact h

theorem SoloInv.setConsumer_same (h : SoloInv name i s) (n : String) {g : Consumer → Consumer}
    (hg : ∀ k, (g k).name = k.name ∧ (g k).state = k.state ∧ (g k).handled = k.handled) :
    SoloInv name i (s.setConsumer n g) := by
  have hk : ∀ k ∈ (s.setConsumer n g).consumers, k.name = name →
      ∃ k₀ ∈ s.consumers, k₀.name = name ∧ k.state = k₀.state ∧ k.handled = k₀.handled := by
    intro k hk hkn
    obtain ⟨k₀, hk₀, rfl⟩ := List.mem_map.1 hk
    obtain ⟨hname, hstate, hhandled⟩ := hg k₀
    refine ⟨k₀, hk₀, ?_⟩
    by_cases h₀ : k₀.name = n
    · rw [if_pos h₀] at hkn ⊢
      exact ⟨hname ▸ hkn, hstate, hhandled⟩
    · rw [if_neg h₀] at hkn ⊢
      exact ⟨hkn, rfl, rfl⟩
  refine ⟨h.alone, fun k hmem hkn => ?_, fun k hmem hkn => ?_, fun k hmem hkn => ?_, h.read⟩
  · obtain ⟨k₀, hk₀, hn₀, -, hhandled⟩ := hk k hmem hkn
    exact hhandled ▸ h.nodup k₀ hk₀ hn₀
  · obtain ⟨k₀, hk₀, hn₀, -, hhandled⟩ := hk k hmem hkn
    exact hhandled ▸ h.done k₀ hk₀ hn₀
  · obtain ⟨k₀, hk₀, hn₀, hstate, hhandled⟩ := hk k hmem hkn
    exact (h.agrees k₀ hk₀ hn₀).congr hstate hhandled

theorem SoloInv.setInstance_other (h : SoloInv name i s) {j : Nat} (hj : j ≠ i) {st : Instance}
    (hst : st.consumer? ≠ some name) : SoloInv name i (s.setInstance j st) := by
  have hi : (s.setInstance j st).instances i = s.instances i := Function.update_of_ne hj.symm _ _
  refine ⟨fun j' hj' => ?_, h.nodup, h.done, by rw [hi]; exact h.agrees, by rw [hi]; exact h.read⟩
  by_cases hjj : j' = j
  · subst hjj
    simp only [JournalDb.setInstance, Function.update_self]
    exact hst
  · simp only [JournalDb.setInstance, Function.update_of_ne hjj]
    exact h.alone j' hj'

theorem SoloInv.setInstance_self (h : SoloInv name i s) {st : Instance}
    (hst : ∀ k ∈ s.consumers, k.name = name → SoloOk k name st)
    (hread : ∀ n batch, st = .polled n batch → ∀ r ∈ batch.changes, r.insertedBy ∈ s.log.done) :
    SoloInv name i (s.setInstance i st) := by
  have hi : (s.setInstance i st).instances i = st := Function.update_self _ _ _
  refine ⟨fun j hj => ?_, h.nodup, h.done, by rw [hi]; exact hst, by rw [hi]; exact hread⟩
  simp only [JournalDb.setInstance, Function.update_of_ne hj]
  exact h.alone j hj

theorem SoloInv.setIdle (h : SoloInv name i s) (j : Nat)
    (hst : ∀ batch, s.instances j ≠ .handledBatch name batch) : SoloInv name i (s.setInstance j .idle) := by
  by_cases hj : j = i
  · subst hj
    exact h.setInstance_self (fun k hk hkn => (h.agrees k hk hkn).passed hst) nofun
  · exact h.setInstance_other hj nofun

theorem SoloInv.tables (h : SoloInv name i s) {u : JournalDb} (hu : TableStep s.toTables u.toTables)
    (hc : u.consumers = s.consumers) (hi : u.instances = s.instances) : SoloInv name i u := by
  have hdone := hu.extends.done.subset
  refine ⟨hi ▸ h.alone, hc ▸ h.nodup, ?_, ?_, ?_⟩
  · rw [hc]
    exact fun k hk hkn key hkey => hdone (h.done k hk hkn key hkey)
  · rw [hc, hi]
    exact h.agrees
  · rw [hi]
    exact fun n batch hb r hr => hdone (h.read n batch hb r hr)

theorem SoloInv.register (h : SoloInv name i s) (hinv : ConsumerInv filter s) (own : Option Nat) (n : String) :
    SoloInv name i (registerConsumer s own n) := by
  unfold registerConsumer
  split
  · exact h
  · rename_i hnone
    have hfresh : ∀ k ∈ s.consumers, k.name ≠ n := by
      intro k hk hkn
      exact hnone (List.find?_isSome.2 ⟨k, hk, by simpa using hkn⟩)
    refine ⟨h.alone, fun k hk hkn => ?_, fun k hk hkn => ?_, fun k hk hkn => ?_, h.read⟩
    · rcases List.mem_append.1 hk with hk | hk
      · exact h.nodup k hk hkn
      · rw [List.mem_singleton.1 hk]
        exact List.nodup_nil
    · rcases List.mem_append.1 hk with hk | hk
      · exact h.done k hk hkn
      · rw [List.mem_singleton.1 hk]
        exact nofun
    · rcases List.mem_append.1 hk with hk | hk
      · exact h.agrees k hk hkn
      · -- nobody works on a consumer that did not exist
        rw [List.mem_singleton.1 hk] at hkn ⊢
        have hkn : n = name := hkn
        have hidle : (s.instances i).consumer? ≠ some name := by
          intro hi
          obtain ⟨k', hk', hkn', -⟩ := hinv.instances i name hi
          exact hfresh k' hk' (hkn' ▸ hkn.symm)
        cases hst : s.instances i with
        | idle => exact nofun
        | loaded n' state =>
          rw [hst] at hidle
          exact ⟨fun hn => absurd (congrArg some hn) hidle, nofun⟩
        | polled n' batch =>
          rw [hst] at hidle
          exact ⟨nofun, fun hn => absurd (congrArg some hn) hidle⟩
        | handledBatch n' batch =>
          rw [hst] at hidle
          exact ⟨fun _ => nofun, fun hn => absurd (congrArg some hn) hidle⟩

theorem SoloInv.handle (h : SoloInv name i s) {j : Nat} {n : String} {batch : ChangeBatch}
    (hj : s.instances j = .polled n batch) (hneed : batch.needsRebuild = false) :
    SoloInv name i ((s.setConsumer n fun k => { k with handled := k.handled ++ batch.changes.map changeKey }).setInstance
      j (.handledBatch n batch)) := by
  by_cases hji : j = i
  · subst hji
    by_cases hn : n = name
    · subst hn
      have hmem : ∀ k ∈ (s.setConsumer n fun k =>
          { k with handled := k.handled ++ batch.changes.map changeKey }).consumers, k.name = n →
          ∃ k₀ ∈ s.consumers, k₀.name = n ∧
            k = { k₀ with handled := k₀.handled ++ batch.changes.map changeKey } := by
        intro k hk hkn
        obtain ⟨k₀, hk₀, rfl⟩ := List.mem_map.1 hk
        by_cases h₀ : k₀.name = n
        · exact ⟨k₀, hk₀, h₀, if_pos h₀⟩
        · rw [if_neg h₀] at hkn
          exact absurd hkn h₀
      have hfresh : ∀ k₀ ∈ s.consumers, k₀.name = n → (∀ key ∈ k₀.handled, Passed k₀.state key) ∧
          FreshBatch k₀.state batch k₀.handled := by
        intro k₀ hk₀ hn₀
        have hok := h.agrees k₀ hk₀ hn₀
        rw [hj] at hok
        exact ⟨hok.1, hok.2 rfl hneed⟩
      refine ⟨fun j' hj' => ?_, fun k hk hkn => ?_, fun k hk hkn => ?_, fun k hk hkn => ?_, fun n' b hb => ?_⟩
      · simp only [JournalDb.setInstance, Function.update_of_ne hj']
        exact h.alone j' hj'
      · obtain ⟨k₀, hk₀, hn₀, rfl⟩ := hmem k hk hkn
        obtain ⟨hpassed, hf⟩ := hfresh k₀ hk₀ hn₀
        refine List.nodup_append.2 ⟨h.nodup k₀ hk₀ hn₀, hf.nodup, fun a ha b hb heq => ?_⟩
        obtain ⟨r, hr, rfl⟩ := List.mem_map.1 hb
        exact hf.new r hr (heq ▸ hpassed a ha)
      · obtain ⟨k₀, hk₀, hn₀, rfl⟩ := hmem k hk hkn
        intro key hkey
        rcases List.mem_append.1 hkey with hkey | hkey
        · exact h.done k₀ hk₀ hn₀ key hkey
        · obtain ⟨r, hr, rfl⟩ := List.mem_map.1 hkey
          exact h.read n batch hj r hr
      · obtain ⟨k₀, hk₀, hn₀, rfl⟩ := hmem k hk hkn
        obtain ⟨-, hf⟩ := hfresh k₀ hk₀ hn₀
        simp only [JournalDb.setInstance, Function.update_self]
        refine ⟨fun hne => absurd rfl hne, fun _ => ⟨hf.from_eq, fun key hkey => ?_⟩⟩
        rcases List.mem_append.1 hkey with hkey | hkey
        · exact hf.keeps key hkey
        · obtain ⟨r, hr, rfl⟩ := List.mem_map.1 hkey
          exact hf.passed r hr
      · simp only [JournalDb.setInstance, Function.update_self] at hb
        cases hb
    · have h' : SoloInv name j (s.setConsumer n fun k =>
          { k with handled := k.handled ++ batch.changes.map changeKey }) := h.setConsumer_other (fun _ => rfl) hn
      have hread : ∀ n' b, Instance.handledBatch n batch = .polled n' b → ∀ r ∈ b.changes, r.insertedBy ∈ s.log.done := by
        intro n' b hb
        cases hb
      refine h'.setInstance_self (fun k hk hkn => ⟨fun _ => ?_, fun heq => absurd heq hn⟩) hread
      have hk₀ : k ∈ s.consumers := mem_setConsumer_other
        (g := fun k => { k with handled := k.handled ++ batch.changes.map changeKey }) (fun _ => rfl) hn hk hkn
      refine (h.agrees k hk₀ hkn).passed fun b hb => ?_
      rw [hj] at hb
      cases hb
  · have hn : n ≠ name := by
      have := h.alone j hji
      rw [hj] at this
      exact fun heq => this (congrArg some heq)
    have hst : (Instance.handledBatch n batch).consumer? ≠ some name := fun heq => hn (Option.some.inj heq)
    have h' : SoloInv name i (s.setConsumer n fun k =>
        { k with handled := k.handled ++ batch.changes.map changeKey }) := h.setConsumer_other (fun _ => rfl) hn
    exact h'.setInstance_other hji hst

theorem SoloInv.commitBatch (h : SoloInv name i s) (hinv : ConsumerInv filter s) {j : Nat} {n : String}
    {batch : ChangeBatch} {holder : Option String} (hj : s.instances j = .handledBatch n batch)
    (hsolo : Solo name i s (.commitBatch j holder)) :
    SoloInv name i (((commitChanges s batch holder).getD s).setInstance j .idle) := by
  have htok : batch.token.name = n := hinv.tokens j n batch (Or.inl hj)
  by_cases hn : n = name
  · subst hn
    have hji : j = i := by
      by_contra hne
      have := h.alone j hne
      rw [hj] at this
      exact this rfl
    subst hji
    obtain ⟨u, hu⟩ := Option.isSome_iff_exists.1 (hsolo batch hj)
    rw [hu, Option.getD_some]
    unfold commitChanges at hu
    split at hu
    · rename_i hany
      cases hu
      obtain ⟨k₁, hk₁, hm₁⟩ := List.any_eq_true.1 hany
      have hk₁n : k₁.name = n := (commitMatches_iff.1 hm₁).1.trans htok
      -- the consumer is the one the commit matches
      have hmem : ∀ k ∈ (s.setConsumer batch.token.name fun k =>
          if commitMatches k batch.token holder s.clock then
            { k with cursor := batch.token.cursor, pageTarget := batch.token.target
                     pageAfter := batch.token.after
                     recorded := k.recorded ++ batch.changes.map changeKey }
          else k).consumers, k.name = n → k.handled = k₁.handled ∧ k.state = batch.token.state := by
        intro k hk hkn
        obtain ⟨k₀, hk₀, rfl⟩ := List.mem_map.1 hk
        by_cases h₀ : k₀.name = batch.token.name
        · have hkk : k₀ = k₁ := consumer_unique hinv hk₀ hk₁ (by rw [h₀, htok, hk₁n])
          subst hkk
          simp only [if_pos h₀, if_pos hm₁, true_and]
          rfl
        · rw [if_neg h₀] at hkn
          exact absurd (hkn.trans htok.symm) h₀
      have hok := h.agrees k₁ hk₁ hk₁n
      rw [hj] at hok
      obtain ⟨-, hpassed⟩ := hok.2 rfl
      refine ⟨fun j' hj' => ?_, fun k hk hkn => ?_, fun k hk hkn => ?_, fun k hk hkn => ?_, fun n' b hb => ?_⟩
      · simp only [JournalDb.setInstance, Function.update_of_ne hj']
        exact h.alone j' hj'
      · rw [(hmem k hk hkn).1]
        exact h.nodup k₁ hk₁ hk₁n
      · rw [(hmem k hk hkn).1]
        exact h.done k₁ hk₁ hk₁n
      · simp only [JournalDb.setInstance, Function.update_self]
        intro key hkey
        rw [(hmem k hk hkn).1] at hkey
        rw [(hmem k hk hkn).2]
        exact hpassed key hkey
      · simp only [JournalDb.setInstance, Function.update_self] at hb
        cases hb
    · cases hu
  · have hcommitted : SoloInv name i ((commitChanges s batch holder).getD s) := by
      unfold commitChanges
      split
      · exact h.setConsumer_other (fun k => by split <;> rfl) (htok.trans_ne hn)
      · exact h
    have hinst : ((commitChanges s batch holder).getD s).instances j = s.instances j := by
      unfold commitChanges
      split <;> rfl
    refine hcommitted.setIdle j fun b hb => ?_
    rw [hinst, hj] at hb
    cases hb
    exact hn rfl

theorem SoloInv.step (h : SoloInv name i s) (hinv : ConsumerInv filter s) (htables : TablesInv s.toTables)
    {s' : JournalDb} {a : Action} (ha : Solo name i s a) (hu : Journal.step filter s a = some s') :
    SoloInv name i s' := by
  have htstep := step_tables hu
  cases a with
  | tick ms =>
    cases hu
    exact h.tables .same rfl rfl
  | start =>
    cases hu
    exact h.tables htstep rfl rfl
  | write x c =>
    simp only [Journal.step] at hu
    split at hu
    · cases hu
      exact h.tables htstep rfl rfl
    · cases hu
  | commit x =>
    simp only [Journal.step] at hu
    split at hu
    · cases hu
      exact h.tables htstep rfl rfl
    · cases hu
  | abort x =>
    simp only [Journal.step] at hu
    split at hu
    · cases hu
      exact h.tables htstep rfl rfl
    · cases hu
  | deleteVictims x now retentionMs stalledMs batch =>
    simp only [Journal.step] at hu
    split at hu
    · cases hu
      exact h.tables htstep rfl rfl
    · cases hu
  | deleteOldHorizons x =>
    simp only [Journal.step] at hu
    split at hu
    · obtain ⟨u, -, rfl⟩ := Option.map_eq_some_iff.1 hu
      exact h.tables htstep rfl rfl
    · cases hu
  | register own n =>
    cases hu
    exact h.register hinv own n
  | claim n holder leaseMs =>
    cases hu
    exact h.setConsumer_same n fun k => by split <;> exact ⟨rfl, rfl, rfl⟩
  | release n holder =>
    cases hu
    exact h.setConsumer_same n fun k => by split <;> exact ⟨rfl, rfl, rfl⟩
  | finishRebuild n holder =>
    cases hu
    exact h.setConsumer_same n fun k => by split <;> exact ⟨rfl, rfl, rfl⟩
  | beginRebuild own n =>
    cases hu
    exact h.setConsumer_other (fun _ => rfl) ha
  | load j n =>
    simp only [Journal.step] at hu
    split at hu
    · rename_i hidle
      obtain ⟨state, hload, rfl⟩ := Option.map_eq_some_iff.1 hu
      obtain ⟨k₁, hk₁, rfl⟩ := Option.map_eq_some_iff.1 hload
      obtain ⟨hmem, hkn₁⟩ := consumer?_spec hk₁
      by_cases hji : j = i
      · subst hji
        refine h.setInstance_self (fun k hk hkn => ⟨fun hn => ?_, ?_⟩) fun n' b hb => ?_
        · rw [consumer_unique hinv hk hmem (by rw [hkn, hkn₁, hn])]
          rfl
        · refine (h.agrees k hk hkn).passed fun b hb => ?_
          rw [hidle] at hb
          cases hb
        · cases hb
      · exact h.setInstance_other hji fun heq => hji (ha (Option.some.inj heq))
    · cases hu
  | read j limit =>
    simp only [Journal.step] at hu
    split at hu
    · rename_i n state hj
      have hnot : ∀ b, s.instances j ≠ .handledBatch name b := by
        intro b hb
        rw [hj] at hb
        cases hb
      split at hu
      · cases hu
        exact h.setIdle j hnot
      · rename_i hlimit
        cases hu
        by_cases hji : j = i
        · subst hji
          refine h.setInstance_self (fun k hk hkn => ?_) fun n' b hb r hr => ?_
          · have hok := h.agrees k hk hkn
            rw [hj] at hok
            refine ⟨hok.2, fun hn hneed => ?_⟩
            have hstate := hok.1 hn
            subst hstate
            exact pollChanges_fresh htables (by omega) (h.done k hk hkn) hok.2 hneed
          · cases hb
            exact readChanges_done hr
        · have hn := h.alone j hji
          rw [hj] at hn
          exact h.setInstance_other hji hn
    · cases hu
  | handle j =>
    simp only [Journal.step] at hu
    split at hu
    · rename_i n batch hj
      split at hu
      · cases hu
        refine h.setIdle j fun b hb => ?_
        rw [hj] at hb
        cases hb
      · rename_i hneed
        cases hu
        exact h.handle hj (by simpa using hneed)
    · cases hu
  | commitBatch j holder =>
    simp only [Journal.step] at hu
    split at hu
    · rename_i n batch hj
      cases hu
      exact h.commitBatch hinv hj ha
    · cases hu
  | crash j =>
    cases hu
    refine h.setIdle j fun b hb => ha ?_
    rw [hb]
    rfl

end SoloSteps

theorem SoloInv.of_reaches {name : String} {i : Nat} {s : JournalDb} (h : SoloReaches filter name i s) :
    SoloInv name i s := by
  induction h with
  | empty =>
    exact ⟨fun j _ => nofun, fun k hk => (List.not_mem_nil hk).elim, fun k hk => (List.not_mem_nil hk).elim,
      fun k hk => (List.not_mem_nil hk).elim, nofun⟩
  | step hs ha hu ih =>
    exact ih.step (ConsumerInv.of_reachable hs.reachable) (TablesInv.of_reachable hs.reachable) ha hu

/-! ### The result -/

def BelowPosition (k : Consumer) (r : Tuple Change) : Prop :=
  k.cursor.visible r.insertedBy = true ∨
    ∃ t a, k.pageTarget = some t ∧ t.visible r.insertedBy = true ∧ k.pageAfter = some a ∧ changeKey r ≤ a

theorem ConsumerOk.recorded_of_below {s : Tables} {f : JournalFilter} {k : Consumer} (h : ConsumerOk s f k)
    {r : Tuple Change} (hr : r ∈ s.changes) (hf : f.filterSql r.value = true)
    (hsince : k.since.visible r.insertedBy = false) (hbelow : BelowPosition k r) : changeKey r ∈ k.recorded := by
  by_cases hc : k.cursor.visible r.insertedBy = true
  · exact h.covers r hr hf hsince hc nofun
  · obtain ⟨t, a, ht, htv, ha, hle⟩ := hbelow.resolve_left hc
    obtain ⟨a', ha', hcov⟩ := h.page.covers t ht
    have haa : a' = a := Option.some.inj (ha'.symm.trans ha)
    have hc' : k.cursor.visible r.insertedBy = false := by simpa using hc
    refine hcov r hr hf hc' htv fun b hb => ?_
    rw [← Option.some.inj hb, haa]
    exact hle

/-- A committed matching row below a consumer's position that the cursor of its registration, or of its last rebuild,
had not seen is in a recorded batch whose handler completed; and one instance that neither crashes nor has a commit
refused handles it once. -/
theorem journalConsumer_loses_nothing {s : JournalDb} (hs : Reachable filter s) {k : Consumer} (hk : k ∈ s.consumers)
    {r : Tuple Change} (hr : r ∈ s.changes)
    (hf : (filter k.name).filterSql r.value = true) (hsince : k.since.visible r.insertedBy = false)
    (hbelow : BelowPosition k r) :
    changeKey r ∈ k.recorded ∧ changeKey r ∈ k.handled ∧
      ∀ i, SoloReaches filter k.name i s → k.handled.count (changeKey r) = 1 := by
  have hok := (ConsumerInv.of_reachable hs).consumers k hk
  have hrec := hok.recorded_of_below hr hf hsince hbelow
  have hhand := hok.handled _ hrec
  refine ⟨hrec, hhand, fun i hi => ?_⟩
  have hnodup := (SoloInv.of_reaches hi).nodup k hk rfl
  exact List.count_eq_one_of_mem hnodup hhand

theorem SoloReaches.run {name : String} {i : Nat} {s s' : JournalDb} {as : List Action}
    (hs : SoloReaches filter name i s) (ha : ∀ a ∈ as, ∀ u, Solo name i u a) (h : run filter s as = some s') :
    SoloReaches filter name i s' := by
  induction as generalizing s with
  | nil =>
    have heq : s = s' := by simpa [Journal.run] using h
    exact heq ▸ hs
  | cons a as ih =>
    obtain ⟨u, hu, hrun⟩ := Option.bind_eq_some_iff.1 h
    have hstep := hs.step (ha a List.mem_cons_self s) hu
    exact ih hstep (fun b hb => ha b (List.mem_cons_of_mem _ hb)) hrun

def Instance.handled? : Instance → Option ChangeBatch
  | .handledBatch _ batch => some batch
  | _ => none

/-- One page changed before `c` was registered, another one after; `c` handled a batch. -/
def handledRun : List Action :=
  [.start, .write 0 (pageChange "old"), .commit 0, .register none "c", .start, .write 1 (pageChange "new"), .commit 1,
    .load 0 "c", .read 0 100, .handle 0]

def handledJournal : JournalDb := (run pages JournalDb.empty handledRun).get (by decide)

def recordedJournal : JournalDb := (step pages handledJournal (.commitBatch 0 none)).get (by decide)

theorem handledJournal_solo : SoloReaches pages "c" 0 handledJournal := by
  refine .run .empty (fun a ha u => ?_) (Option.some_get _).symm
  simp only [handledRun, List.mem_cons, List.not_mem_nil, or_false] at ha
  rcases ha with rfl | rfl | rfl | rfl | rfl | rfl | rfl | rfl | rfl | rfl <;> first | trivial | exact fun _ => rfl

def recordedConsumer : Consumer := recordedJournal.consumers.head (by decide)

theorem journalConsumer_loses_nothing_new :
    (1, "pages", "new") ∈ recordedConsumer.recorded ∧ recordedConsumer.handled.count (1, "pages", "new") = 1 := by
  have hreach : Reachable pages recordedJournal :=
    .step handledJournal_solo.reachable (Option.some_get _).symm
  have hsolo : SoloReaches pages recordedConsumer.name 0 recordedJournal := by
    refine .step handledJournal_solo (fun batch hb => ?_) (Option.some_get _).symm
    have hcommit : ((handledJournal.instances 0).handled?.map fun b =>
        (commitChanges handledJournal b none).isSome) = some true := by decide
    rw [hb] at hcommit
    exact Option.some.inj hcommit
  have h := journalConsumer_loses_nothing hreach (List.head_mem _ : recordedConsumer ∈ _)
    (r := ⟨1, none, pageChange "new"⟩) (by decide) (by decide) (by decide) (Or.inl (by decide))
  exact ⟨h.1, h.2.2 0 hsolo⟩

/-- The claim of the only instance lapses while its handler runs; the commit is refused and the batch handled again. -/
def lapsedRun : List Action :=
  [.register none "c", .start, .write 0 (pageChange "p"), .commit 0,
    .claim "c" "h" 1000, .load 0 "c", .read 0 100, .handle 0, .tick 2000, .commitBatch 0 (some "h"),
    .claim "c" "h" 1000, .load 0 "c", .read 0 100, .handle 0, .commitBatch 0 (some "h")]

def lapsedJournal : JournalDb := (run pages JournalDb.empty lapsedRun).get (by decide)

/-- A row that was there before the consumer is below its cursor and in no batch; and without a crash, the only
instance handles a row twice. -/
theorem journalConsumer_skips_and_repeats :
    (∃ s, Reachable pages s ∧ ∃ k ∈ s.consumers, ∃ r ∈ s.changes, r.insertedBy ∈ s.log.done ∧
      (pages k.name).filterSql r.value = true ∧ BelowPosition k r ∧ changeKey r ∉ k.recorded) ∧
    ∃ s, run pages JournalDb.empty lapsedRun = some s ∧ ∃ k ∈ s.consumers, ∃ r ∈ s.changes,
      r.insertedBy ∈ s.log.done ∧ (pages k.name).filterSql r.value = true ∧ BelowPosition k r ∧
      k.handled.count (changeKey r) = 2 := by
  constructor
  · refine ⟨recordedJournal, ?_, ?_⟩
    · exact .step (Reaches.run (.refl _) (Option.some_get _).symm) (Option.some_get _).symm
    · refine ⟨recordedJournal.consumers.head (by decide), List.head_mem _, ⟨0, none, pageChange "old"⟩, ?_⟩
      exact ⟨by decide, by decide, by decide, Or.inl (by decide), by decide⟩
  · refine ⟨lapsedJournal, (Option.some_get _).symm, lapsedJournal.consumers.head (by decide), List.head_mem _, ?_⟩
    exact ⟨⟨0, none, pageChange "p"⟩, by decide, by decide, by decide, Or.inl (by decide), by decide⟩

end CaeloCms.Journal
