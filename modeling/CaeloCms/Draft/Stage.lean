import CaeloCms.Draft.Refs
import CaeloCms.Lib.Fixpoint

/-!
# The closed set of headers a Stage merges

`draftStageSelection` starts from the headers of the chosen chats and the headers outside any chat, and repeats a
round until nothing joins: collect the keys of the selected headers and of the created rows they reference, then
select every pending header with one of these keys (and every plugin row once one plugin row is in).

The abstract description is the rule `stageRule`: what a set of headers pulls in, given what counts as a reference.
The loop ends with the least set closed under it for the references `referencedEntities` reads
(`stageLoop_isLeast`), and with the least set for every reference exactly when the rows that are only named some
other way are selected anyway.
-/

namespace CaeloCms.Draft

open OrderedSet Fixpoint

/-- The closed set of draft snapshots a Stage of `chatSessionIds` merges. -/
structure DraftStageSelection where
  headerIds : List Id
  /-- Entity keys the selection merges. -/
  entityKeys : List Key
  /-- Other chats whose changes ride along because they share an entity. -/
  alsoIncludes : List AffectedChat
  /-- Only with `fixedHeaderIds`: the ids no longer pending. -/
  missingHeaderIds : List Id
deriving DecidableEq, Repr

structure StageLoop where
  selected : List Id
  keys : List Key
  scanned : List Id

/-- `for (const h of headers) if (selected.has(h.id)) for (const k of h.keys) keys.add(k)` -/
def keysOfSelected (headers : List PendingHeader) (selected : List Id) (keys : List Key) : List Key :=
  headers.foldl (fun ks h => if h.id ∈ selected then addAll ks h.keys else ks) keys

/-- `k.startsWith("pluginRow:")` -/
def Key.isPluginRow (k : Key) : Bool := k.kind == .pluginRow

def stageJoins (keys : List Key) (pluginRows : Bool) (h : PendingHeader) : Bool :=
  h.keys.any fun k => decide (k ∈ keys) || (pluginRows && k.isPluginRow)

def stageRound (db : DraftDb) (branchId : Id) (headers : List PendingHeader) (s : StageLoop) : StageLoop × Bool :=
  let keys := keysOfSelected headers s.selected s.keys
  let unscanned := s.selected.filter fun id => decide (id ∉ s.scanned)
  let keys := addAll keys (branchCreatedRefs db branchId unscanned)
  let pluginRows := keys.any Key.isPluginRow
  let joining := selectWhere (stageJoins keys pluginRows) headers (s.selected, false)
  ({ selected := joining.1, keys := keys, scanned := addAll s.scanned unscanned }, joining.2)

def stageBase (headers : List PendingHeader) (chatSessionIds : List Id) : List Id :=
  (headers.filter fun h => (h.owner.map (chatSessionIds.contains ·)).getD true).map (·.id)

/-- The pending draft snapshots a Stage of the given draft chats merges.  Every round that changes something selects
a header more, so one round more than there are headers is enough. -/
def draftStageSelection (db : DraftDb) (branchId : Id) (chatSessionIds : List Id)
    (fixedHeaderIds : Option (List Id)) : Option DraftStageSelection :=
  let headers := pendingHeaders db branchId
  match fixedHeaderIds with
  | some fixed =>
    some
      { headerIds := selectedIds headers fixed
        entityKeys := keysOfSelected headers fixed []
        alsoIncludes := describeAffected db headers fixed chatSessionIds
        missingHeaderIds := fixed.filter fun id => decide (id ∉ headers.map (·.id)) }
  | none =>
    (untilStable (stageRound db branchId headers) (headers.length + 1)
      ⟨stageBase headers chatSessionIds, [], []⟩).map fun s =>
        { headerIds := selectedIds headers s.selected
          entityKeys := s.keys
          alsoIncludes := describeAffected db headers s.selected chatSessionIds
          missingHeaderIds := [] }

/-! ### What a set of headers pulls in -/

section Rule

variable (db : DraftDb) (branchId : Id) (headers : List PendingHeader)

/-- `h` joins a Stage that merges `S`, where `refs` tells which created rows the states under a header reference:
it shares an entity key with a selected header, it records a row a selected header references, or it records a
plugin row and a selected header does too. -/
def StageJoins (refs : Id → Key → Prop) (S : Set Id) (h : PendingHeader) : Prop :=
  (∃ g ∈ headers, g.id ∈ S ∧ ∃ k ∈ g.keys, k ∈ h.keys) ∨
  (∃ g ∈ headers, g.id ∈ S ∧ ∃ k ∈ h.keys, refs g.id k) ∨
  (∃ g ∈ headers, g.id ∈ S ∧ (∃ k ∈ g.keys, k.isPluginRow = true) ∧ ∃ k ∈ h.keys, k.isPluginRow = true)

def stageRule (refs : Id → Key → Prop) (S : Set Id) : Set Id :=
  {x | ∃ h ∈ headers, h.id = x ∧ StageJoins headers refs S h}

variable {h : PendingHeader} {keys : List Key}

theorem StageJoins.mono {refs refs' : Id → Key → Prop} (hr : ∀ id k, refs id k → refs' id k) {S T : Set Id}
    (hST : S ⊆ T) (hj : StageJoins headers refs S h) : StageJoins headers refs' T h := by
  rcases hj with ⟨g, hg, hgS, hk⟩ | ⟨g, hg, hgS, k, hk, hrk⟩ | ⟨g, hg, hgS, hk⟩
  · exact Or.inl ⟨g, hg, hST hgS, hk⟩
  · exact Or.inr (Or.inl ⟨g, hg, hST hgS, k, hk, hr _ _ hrk⟩)
  · exact Or.inr (Or.inr ⟨g, hg, hST hgS, hk⟩)

theorem stageRule_mono (refs : Id → Key → Prop) : Monotone (stageRule headers refs) := by
  rintro S T hST x ⟨h, hh, rfl, hj⟩
  exact ⟨h, hh, rfl, hj.mono headers (fun _ _ => id) hST⟩

theorem stageRule_le {refs refs' : Id → Key → Prop} (hr : ∀ id k, refs id k → refs' id k) (S : Set Id) :
    stageRule headers refs S ⊆ stageRule headers refs' S := by
  rintro x ⟨h, hh, rfl, hj⟩
  exact ⟨h, hh, rfl, hj.mono headers hr (fun _ => id)⟩

/-! ### The loop keeps inside every closed set -/

/-- The keys a set of headers puts into `keys`: their own and those of the created rows they reference. -/
def KeyOf (S : Set Id) (k : Key) : Prop :=
  (∃ g ∈ headers, g.id ∈ S ∧ k ∈ g.keys) ∨ (∃ g ∈ headers, g.id ∈ S ∧ readsRef db branchId g.id k)

variable {db branchId headers}

theorem mem_keysOfSelected {selected : List Id} {k : Key} :
    k ∈ keysOfSelected headers selected keys ↔ k ∈ keys ∨ ∃ g ∈ headers, g.id ∈ selected ∧ k ∈ g.keys := by
  unfold keysOfSelected
  induction headers generalizing keys with
  | nil => simp
  | cons h hs ih =>
    rw [List.foldl_cons, ih]
    by_cases hsel : h.id ∈ selected <;> simp [hsel, or_assoc]

theorem readsRef_not_pluginRow {headerId : Id} {k : Key} (h : readsRef db branchId headerId k) :
    k.isPluginRow = false := by
  have hc := readsRef_created h
  obtain ⟨kind, id⟩ := k
  cases kind <;> simp_all [createdOnBranch, branchCreatedTable, Key.isPluginRow]

theorem stageJoins_sound {S : Set Id} (hkeys : ∀ k ∈ keys, KeyOf db branchId headers S k)
    (hj : stageJoins keys (keys.any Key.isPluginRow) h = true) :
    StageJoins headers (readsRef db branchId) S h := by
  unfold stageJoins at hj
  simp only [List.any_eq_true, Bool.or_eq_true, Bool.and_eq_true, decide_eq_true_eq] at hj
  obtain ⟨k, hk, hmem | ⟨⟨p, hp, hpp⟩, hkp⟩⟩ := hj
  · rcases hkeys k hmem with ⟨g, hg, hgS, hgk⟩ | ⟨g, hg, hgS, hgk⟩
    · exact Or.inl ⟨g, hg, hgS, k, hgk, hk⟩
    · exact Or.inr (Or.inl ⟨g, hg, hgS, k, hk, hgk⟩)
  · rcases hkeys p hp with ⟨g, hg, hgS, hgk⟩ | ⟨g, hg, hgS, hgk⟩
    · exact Or.inr (Or.inr ⟨g, hg, hgS, ⟨p, hgk, hpp⟩, k, hk, hkp⟩)
    · rw [readsRef_not_pluginRow hgk] at hpp
      cases hpp

/-- A header the rule pulls in from the selected ones has a collected key. -/
theorem stageJoins_complete {selected : List Id}
    (hkeys : ∀ k, KeyOf db branchId headers {x | x ∈ selected} k → k ∈ keys)
    (hj : StageJoins headers (readsRef db branchId) {x | x ∈ selected} h) :
    stageJoins keys (keys.any Key.isPluginRow) h = true := by
  unfold stageJoins
  simp only [List.any_eq_true, Bool.or_eq_true, Bool.and_eq_true, decide_eq_true_eq]
  rcases hj with ⟨g, hg, hgS, k, hgk, hk⟩ | ⟨g, hg, hgS, k, hk, hgk⟩ | ⟨g, hg, hgS, ⟨p, hp, hpp⟩, k, hk, hkp⟩
  · exact ⟨k, hk, Or.inl (hkeys k (Or.inl ⟨g, hg, hgS, hgk⟩))⟩
  · exact ⟨k, hk, Or.inl (hkeys k (Or.inr ⟨g, hg, hgS, hgk⟩))⟩
  · exact ⟨k, hk, Or.inr ⟨⟨p, hkeys p (Or.inl ⟨g, hg, hgS, hp⟩), hpp⟩, hkp⟩⟩

structure StageInv (db : DraftDb) (branchId : Id) (headers : List PendingHeader) (base : List Id) (s : StageLoop) :
    Prop where
  base_subset : ∀ x ∈ base, x ∈ s.selected
  pending : ∀ x ∈ s.selected, ∃ h ∈ headers, h.id = x
  least : ∀ T, Closed {x | x ∈ base} (stageRule headers (readsRef db branchId)) T → ∀ x ∈ s.selected, x ∈ T
  keys_least : ∀ T, Closed {x | x ∈ base} (stageRule headers (readsRef db branchId)) T →
    ∀ k ∈ s.keys, KeyOf db branchId headers T k
  scanned_subset : ∀ x ∈ s.scanned, x ∈ s.selected
  scanned_keys : ∀ x ∈ s.scanned, ∀ k, readsRef db branchId x k → k ∈ s.keys

end Rule

/-! ### One round -/

section Round

variable {db : DraftDb} {branchId : Id} {headers : List PendingHeader} {base : List Id} {s : StageLoop}

theorem mem_round_keys {k : Key} :
    k ∈ (stageRound db branchId headers s).1.keys ↔
      k ∈ s.keys ∨ (∃ g ∈ headers, g.id ∈ s.selected ∧ k ∈ g.keys) ∨
        ∃ id ∈ s.selected, id ∉ s.scanned ∧ readsRef db branchId id k := by
  simp only [stageRound, mem_addAll, mem_keysOfSelected, mem_branchCreatedRefs, List.mem_filter, decide_eq_true_eq,
    or_assoc, and_assoc]

theorem mem_round_scanned {x : Id} :
    x ∈ (stageRound db branchId headers s).1.scanned ↔ x ∈ s.scanned ∨ x ∈ s.selected := by
  simp only [stageRound, mem_addAll, List.mem_filter, decide_eq_true_eq]
  constructor
  · rintro (h | ⟨h, -⟩)
    · exact Or.inl h
    · exact Or.inr h
  · intro h
    by_cases hx : x ∈ s.scanned
    · exact Or.inl hx
    · exact Or.inr ⟨h.resolve_left hx, hx⟩

theorem mem_round_selected {x : Id} :
    x ∈ (stageRound db branchId headers s).1.selected ↔
      x ∈ s.selected ∨ ∃ h ∈ headers, h.id = x ∧ stageJoins (stageRound db branchId headers s).1.keys
        ((stageRound db branchId headers s).1.keys.any Key.isPluginRow) h = true :=
  (selectWhere_spec _ headers (s.selected, false)).1 x

theorem round_changed :
    (stageRound db branchId headers s).2 = true ↔
      ∃ h ∈ headers, h.id ∉ s.selected ∧ stageJoins (stageRound db branchId headers s).1.keys
        ((stageRound db branchId headers s).1.keys.any Key.isPluginRow) h = true := by
  refine (selectWhere_spec _ headers (s.selected, false)).2.trans ?_
  exact or_iff_right Bool.false_ne_true

theorem StageInv.step (hs : StageInv db branchId headers base s) :
    StageInv db branchId headers base (stageRound db branchId headers s).1 := by
  have hkeys : ∀ T, Closed {x | x ∈ base} (stageRule headers (readsRef db branchId)) T →
      ∀ k ∈ (stageRound db branchId headers s).1.keys, KeyOf db branchId headers T k := by
    intro T hT k hk
    rcases mem_round_keys.1 hk with hk | ⟨g, hg, hgs, hk⟩ | ⟨id, hid, -, hk⟩
    · exact hs.keys_least T hT k hk
    · exact Or.inl ⟨g, hg, hs.least T hT _ hgs, hk⟩
    · obtain ⟨g, hg, rfl⟩ := hs.pending id hid
      exact Or.inr ⟨g, hg, hs.least T hT _ hid, hk⟩
  refine ⟨?_, ?_, ?_, hkeys, ?_, ?_⟩
  · exact fun x hx => mem_round_selected.2 (Or.inl (hs.base_subset x hx))
  · intro x hx
    rcases mem_round_selected.1 hx with hx | ⟨h, hh, rfl, -⟩
    · exact hs.pending x hx
    · exact ⟨h, hh, rfl⟩
  · intro T hT x hx
    rcases mem_round_selected.1 hx with hx | ⟨h, hh, rfl, hj⟩
    · exact hs.least T hT x hx
    · exact hT.2 ⟨h, hh, rfl, stageJoins_sound (hkeys T hT) hj⟩
  · intro x hx
    exact mem_round_selected.2 (Or.inl ((mem_round_scanned.1 hx).elim (hs.scanned_subset x) id))
  · intro x hx k hk
    by_cases hsc : x ∈ s.scanned
    · exact mem_round_keys.2 (Or.inl (hs.scanned_keys x hsc k hk))
    · have hsel := (mem_round_scanned.1 hx).resolve_left hsc
      exact mem_round_keys.2 (Or.inr (Or.inr ⟨x, hsel, hsc, hk⟩))

theorem StageInv.closed_of_unchanged (hs : StageInv db branchId headers base s)
    (hc : (stageRound db branchId headers s).2 = false) :
    Closed {x | x ∈ base} (stageRule headers (readsRef db branchId))
      {x | x ∈ (stageRound db branchId headers s).1.selected} := by
  have hsame : ∀ x, x ∈ (stageRound db branchId headers s).1.selected → x ∈ s.selected := by
    intro x hx
    rcases mem_round_selected.1 hx with hx | ⟨h, hh, rfl, hj⟩
    · exact hx
    · by_contra hns
      have := round_changed.2 ⟨h, hh, hns, hj⟩
      rw [hc] at this
      cases this
  refine ⟨fun x hx => hs.step.base_subset x hx, ?_⟩
  rintro x ⟨h, hh, rfl, hj⟩
  refine mem_round_selected.2 (Or.inr ⟨h, hh, rfl, stageJoins_complete ?_ (hj.mono headers (fun _ _ => id) hsame)⟩)
  rintro k (⟨g, hg, hgs, hk⟩ | ⟨g, hg, hgs, hk⟩)
  · exact mem_round_keys.2 (Or.inr (Or.inl ⟨g, hg, hgs, hk⟩))
  · by_cases hsc : g.id ∈ s.scanned
    · exact mem_round_keys.2 (Or.inl (hs.scanned_keys _ hsc k hk))
    · exact mem_round_keys.2 (Or.inr (Or.inr ⟨g.id, hgs, hsc, hk⟩))

end Round

/-! ### The result of the loop -/

/-- The closure loop ends, and what it selected is the least set with the base closed under the rule. -/
theorem stageLoop_isLeast (db : DraftDb) (branchId : Id) (chatSessionIds : List Id) :
    ∃ t, untilStable (stageRound db branchId (pendingHeaders db branchId)) ((pendingHeaders db branchId).length + 1)
        ⟨stageBase (pendingHeaders db branchId) chatSessionIds, [], []⟩ = some t ∧
      (∀ x ∈ t.selected, ∃ h ∈ pendingHeaders db branchId, h.id = x) ∧
      IsLeast {S | Closed {x | x ∈ stageBase (pendingHeaders db branchId) chatSessionIds}
        (stageRule (pendingHeaders db branchId) (readsRef db branchId)) S} {x | x ∈ t.selected} := by
  set headers := pendingHeaders db branchId
  set base := stageBase headers chatSessionIds
  have hinit : StageInv db branchId headers base ⟨base, [], []⟩ := by
    refine ⟨fun _ => id, ?_, fun T hT x hx => hT.1 hx, by simp, by simp, by simp⟩
    intro x hx
    obtain ⟨h, hh, rfl⟩ := List.mem_map.1 hx
    exact ⟨h, (List.mem_filter.1 hh).1, rfl⟩
  have hmeasure : ∀ s, StageInv db branchId headers base s → (stageRound db branchId headers s).2 = true →
      unselected headers (stageRound db branchId headers s).1.selected < unselected headers s.selected := by
    intro s hs hc
    obtain ⟨h, hh, hn, hj⟩ := round_changed.1 hc
    exact unselected_lt (fun x hx => mem_round_selected.2 (Or.inl hx)) hh hn
      (mem_round_selected.2 (Or.inr ⟨h, hh, rfl, hj⟩))
  obtain ⟨t, ht⟩ := untilStable_isSome (fun s hs => StageInv.step hs) (fun s => unselected headers s.selected)
    hmeasure hinit (n := headers.length + 1) (Nat.lt_succ_of_le List.countP_le_length)
  obtain ⟨r, hr, hc, rfl⟩ := untilStable_last (fun s hs => StageInv.step hs) hinit ht
  exact ⟨_, ht, hr.step.pending, isLeast_of_closed (hr.closed_of_unchanged hc) hr.step.least⟩

/-- A state under the header references the row `k` the draft created: in a shape `referencedEntities` reads, or by
naming its id anywhere (a parent page, the page a section or content state belongs to, …). -/
def references (db : DraftDb) (branchId headerId : Id) (k : Key) : Prop :=
  readsRef db branchId headerId k ∨ ((k, branchId) ∈ db.branchRows ∧ headerNames db headerId k.id = true)

def chosenHeaders (headers : List PendingHeader) (chatSessionIds : List Id) : Set Id :=
  {x | ∃ h ∈ headers, h.id = x ∧ ∃ c ∈ chatSessionIds, h.owner = some c}

def ownerlessHeaders (headers : List PendingHeader) : Set Id := {x | ∃ h ∈ headers, h.id = x ∧ h.owner = none}

/-- A Stage of the chats terminates and selects the least set of headers with the base that is closed under sharing
an entity key, under `refs` and under the all-or-none rule for plugin rows. -/
def StagesLeastClosed (db : DraftDb) (branchId : Id) (chatSessionIds : List Id) (base : Set Id)
    (refs : Id → Key → Prop) : Prop :=
  ∃ r, draftStageSelection db branchId chatSessionIds none = some r ∧
    IsLeast {S | Closed base (stageRule (pendingHeaders db branchId) refs) S} {x | x ∈ r.headerIds}

theorem mem_stageBase {headers : List PendingHeader} {chatSessionIds : List Id} {x : Id} :
    x ∈ stageBase headers chatSessionIds ↔
      x ∈ chosenHeaders headers chatSessionIds ∪ ownerlessHeaders headers := by
  unfold stageBase chosenHeaders ownerlessHeaders
  simp only [List.mem_map, List.mem_filter, Set.mem_union, Set.mem_ofPred_eq]
  constructor
  · rintro ⟨h, ⟨hh, ho⟩, rfl⟩
    cases hown : h.owner with
    | none => exact Or.inr ⟨h, hh, rfl, hown⟩
    | some c =>
      rw [hown] at ho
      exact Or.inl ⟨h, hh, rfl, c, by simpa using ho, hown⟩
  · rintro (⟨h, hh, rfl, c, hc, hown⟩ | ⟨h, hh, rfl, hown⟩)
    · exact ⟨h, ⟨hh, by simpa [hown] using hc⟩, rfl⟩
    · exact ⟨h, ⟨hh, by simp [hown]⟩, rfl⟩

/-- The returned headers are the least closed set for the references `referencedEntities` reads. -/
theorem draftStageSelection_isLeast (db : DraftDb) (branchId : Id) (chatSessionIds : List Id) :
    StagesLeastClosed db branchId chatSessionIds
      (chosenHeaders (pendingHeaders db branchId) chatSessionIds ∪ ownerlessHeaders (pendingHeaders db branchId))
      (readsRef db branchId) := by
  obtain ⟨t, ht, hpending, hleast⟩ := stageLoop_isLeast db branchId chatSessionIds
  have hids : {x | x ∈ selectedIds (pendingHeaders db branchId) t.selected} = {x | x ∈ t.selected} := by
    ext x
    exact mem_selectedIds.trans (and_iff_left_of_imp (hpending x))
  have hbase : {x | x ∈ stageBase (pendingHeaders db branchId) chatSessionIds} =
      chosenHeaders (pendingHeaders db branchId) chatSessionIds ∪ ownerlessHeaders (pendingHeaders db branchId) :=
    Set.ext fun _ => mem_stageBase
  refine ⟨_, congrArg (Option.map _) ht, ?_⟩
  rw [← hids, hbase] at hleast
  exact hleast

theorem stageRule_union (headers : List PendingHeader) (refs : Id → Key → Prop) (S T : Set Id) :
    stageRule headers refs (S ∪ T) ⊆ stageRule headers refs S ∪ stageRule headers refs T := by
  -- each way to join asks for one selected header
  rintro x ⟨h, hh, rfl, ⟨g, hg, hgS | hgT, hk⟩ | ⟨g, hg, hgS | hgT, hk⟩ | ⟨g, hg, hgS | hgT, hk⟩⟩
  · exact Or.inl ⟨h, hh, rfl, Or.inl ⟨g, hg, hgS, hk⟩⟩
  · exact Or.inr ⟨h, hh, rfl, Or.inl ⟨g, hg, hgT, hk⟩⟩
  · exact Or.inl ⟨h, hh, rfl, Or.inr (Or.inl ⟨g, hg, hgS, hk⟩)⟩
  · exact Or.inr ⟨h, hh, rfl, Or.inr (Or.inl ⟨g, hg, hgT, hk⟩)⟩
  · exact Or.inl ⟨h, hh, rfl, Or.inr (Or.inr ⟨g, hg, hgS, hk⟩)⟩
  · exact Or.inr ⟨h, hh, rfl, Or.inr (Or.inr ⟨g, hg, hgT, hk⟩)⟩

theorem chosenHeaders_append (headers : List PendingHeader) (chats chats' : List Id) :
    chosenHeaders headers (chats ++ chats') = chosenHeaders headers chats ∪ chosenHeaders headers chats' := by
  ext x
  constructor
  · rintro ⟨h, hh, rfl, c, hc, howner⟩
    exact (List.mem_append.1 hc).imp (fun hc => ⟨h, hh, rfl, c, hc, howner⟩) fun hc => ⟨h, hh, rfl, c, hc, howner⟩
  · rintro (⟨h, hh, rfl, c, hc, howner⟩ | ⟨h, hh, rfl, c, hc, howner⟩)
    · exact ⟨h, hh, rfl, c, List.mem_append_left _ hc, howner⟩
    · exact ⟨h, hh, rfl, c, List.mem_append_right _ hc, howner⟩

/-- A Stage of several chats merges what the Stages of the single ones merge, and nothing besides. -/
theorem draftStageSelection_append (db : DraftDb) (branchId : Id) (chats chats' : List Id) :
    ∃ r r' both, draftStageSelection db branchId chats none = some r ∧
      draftStageSelection db branchId chats' none = some r' ∧
      draftStageSelection db branchId (chats ++ chats') none = some both ∧
      ∀ x, x ∈ both.headerIds ↔ x ∈ r.headerIds ∨ x ∈ r'.headerIds := by
  obtain ⟨r, hr, hleast⟩ := draftStageSelection_isLeast db branchId chats
  obtain ⟨r', hr', hleast'⟩ := draftStageSelection_isLeast db branchId chats'
  obtain ⟨both, hboth, hleastBoth⟩ := draftStageSelection_isLeast db branchId (chats ++ chats')
  refine ⟨r, r', both, hr, hr', hboth, fun x => ?_⟩
  have hmono := stageRule_mono (pendingHeaders db branchId) (readsRef db branchId)
  have hunion := leastClosed_union (A := chosenHeaders (pendingHeaders db branchId) chats ∪
      ownerlessHeaders (pendingHeaders db branchId)) (B := chosenHeaders (pendingHeaders db branchId) chats' ∪
      ownerlessHeaders (pendingHeaders db branchId)) hmono (stageRule_union _ _)
  rw [← Set.union_union_distrib_right, ← chosenHeaders_append, ← IsLeast.eq_leastClosed hmono hleastBoth,
    ← IsLeast.eq_leastClosed hmono hleast, ← IsLeast.eq_leastClosed hmono hleast'] at hunion
  exact Set.ext_iff.1 hunion x

theorem Closed.left_behind {headers : List PendingHeader} {refs : Id → Key → Prop} {base S : Set Id}
    (hS : Closed base (stageRule headers refs) S) {g h : PendingHeader} (hg : g ∈ headers) (hgS : g.id ∈ S)
    (hh : h ∈ headers) (hhS : h.id ∉ S) : ∀ k ∈ h.keys, k ∉ g.keys ∧ ¬ refs g.id k := by
  intro k hk
  constructor
  · intro hgk
    exact hhS (hS.2 ⟨h, hh, rfl, Or.inl ⟨g, hg, hgS, k, hgk, hk⟩⟩)
  · intro hr
    exact hhS (hS.2 ⟨h, hh, rfl, Or.inr (Or.inl ⟨g, hg, hgS, k, hk, hr⟩)⟩)

/-- A Stage terminates with the least set that holds the headers of the chosen chats and those outside any chat and
is closed under shared entity keys, under the references `referencedEntities` reads and under the all-or-none rule;
what it leaves behind shares no key with it and records no row it references that way.  The same set is the least
one for every reference exactly when no header of it names, in another way, a created row recorded outside it. -/
theorem draftStageSelection_least (db : DraftDb) (branchId : Id) (chatSessionIds : List Id) :
    let headers := pendingHeaders db branchId
    let base := chosenHeaders headers chatSessionIds ∪ ownerlessHeaders headers
    let least := leastClosed base (stageRule headers (readsRef db branchId))
    (∃ r, draftStageSelection db branchId chatSessionIds none = some r ∧
      IsLeast {S | Closed base (stageRule headers (readsRef db branchId)) S} {x | x ∈ r.headerIds} ∧
      ∀ g ∈ headers, g.id ∈ r.headerIds → ∀ h ∈ headers, h.id ∉ r.headerIds →
        ∀ k ∈ h.keys, k ∉ g.keys ∧ ¬ readsRef db branchId g.id k) ∧
    (StagesLeastClosed db branchId chatSessionIds base (references db branchId) ↔
      ∀ g ∈ headers, g.id ∈ least → ∀ k, references db branchId g.id k →
        ∀ h ∈ headers, k ∈ h.keys → h.id ∈ least) := by
  intro headers base least
  obtain ⟨r, hr, hleast⟩ := draftStageSelection_isLeast db branchId chatSessionIds
  have heq : {x | x ∈ r.headerIds} = least := IsLeast.eq_leastClosed (stageRule_mono headers _) hleast
  refine ⟨⟨r, hr, hleast, fun g hg hgS h hh hhS => Closed.left_behind hleast.1 hg hgS hh hhS⟩, ?_⟩
  have hle : ∀ S, stageRule headers (readsRef db branchId) S ⊆ stageRule headers (references db branchId) S :=
    stageRule_le headers fun _ _ => Or.inl
  have hwider := isLeast_iff_of_le hle hleast
  have hstaged : StagesLeastClosed db branchId chatSessionIds base (references db branchId) ↔
      stageRule headers (references db branchId) least ⊆ least := by
    rw [← heq, ← hwider]
    constructor
    · rintro ⟨r', hr', h'⟩
      rw [hr, Option.some.injEq] at hr'
      exact hr' ▸ h'
    · exact fun h' => ⟨r, hr, h'⟩
  rw [hstaged]
  constructor
  · intro hsub g hg hgS k hk h hh hhk
    exact hsub ⟨h, hh, rfl, Or.inr (Or.inl ⟨g, hg, hgS, k, hhk, hk⟩)⟩
  · rintro hcov x ⟨h, hh, rfl, hj⟩
    have hclosed : stageRule headers (readsRef db branchId) least ⊆ least := heq ▸ hleast.1.2
    rcases hj with hj | ⟨g, hg, hgS, k, hhk, hk⟩ | hj
    · exact hclosed ⟨h, hh, rfl, Or.inl hj⟩
    · exact hcov g hg hgS k hk h hh hhk
    · exact hclosed ⟨h, hh, rfl, Or.inr (Or.inr hj)⟩

/-- One pending header, written outside any chat. -/
def ownerlessDraft : DraftDb :=
  { siteSnapshots := [{ id := "h1", chatTaskId := none, chatBranchId := some "draft", createdAt := 1 }]
    entityRows := [{ siteSnapshotId := "h1", table := .module_snapshots, column := "m", state := .obj [] }]
    branchRows := [] }

/-- Chat `a` creates page `p`; chat `b` changes its sections. -/
def sectionsDraft : DraftDb :=
  { siteSnapshots :=
      [{ id := "h1", chatTaskId := some "a", chatBranchId := some "draft", createdAt := 1 },
       { id := "h2", chatTaskId := some "b", chatBranchId := some "draft", createdAt := 2 }]
    entityRows :=
      [{ siteSnapshotId := "h1", table := .page_snapshots, column := "p", state := .obj [] },
       { siteSnapshotId := "h2", table := .page_layout_snapshots, column := "p"
         state := .obj [("pageId", .str "p"), ("blocks", .arr [])] }]
    branchRows := [(⟨.page, "p"⟩, "draft")] }

/-- A Stage does not select the least set with the headers of the chosen chats only: a Stage of no chat selects the
header outside any chat.  And a Stage of chat `b` leaves behind the page whose sections it merges. -/
theorem draftStageSelection_not_least :
    ¬ StagesLeastClosed ownerlessDraft "draft" [] (chosenHeaders (pendingHeaders ownerlessDraft "draft") [])
        (references ownerlessDraft "draft") ∧
    ¬ StagesLeastClosed sectionsDraft "draft" ["b"] (chosenHeaders (pendingHeaders sectionsDraft "draft") ["b"])
        (references sectionsDraft "draft") := by
  constructor
  · rintro ⟨r, hr, hleast⟩
    have hids : (draftStageSelection ownerlessDraft "draft" [] none).map (·.headerIds) = some ["h1"] := by decide
    rw [hr, Option.map_some, Option.some.injEq] at hids
    have hempty : (∅ : Set Id) ∈ {S | Closed (chosenHeaders (pendingHeaders ownerlessDraft "draft") [])
        (stageRule (pendingHeaders ownerlessDraft "draft") (references ownerlessDraft "draft")) S} := by
      constructor
      · rintro x ⟨h, -, -, c, hc, -⟩
        cases hc
      · rintro x ⟨h, -, -, ⟨g, -, hg, -⟩ | ⟨g, -, hg, -⟩ | ⟨g, -, hg, -⟩⟩ <;> exact hg.elim
    have := hleast.2 hempty (show "h1" ∈ r.headerIds by rw [hids]; decide)
    exact this
  · rintro ⟨r, hr, hleast⟩
    have hids : (draftStageSelection sectionsDraft "draft" ["b"] none).map (·.headerIds) = some ["h2"] := by decide
    rw [hr, Option.map_some, Option.some.injEq] at hids
    have hpage : "h1" ∈ r.headerIds := hleast.1.2 ⟨⟨"h1", some "a", 1, [⟨.page, "p"⟩]⟩, by decide, rfl, Or.inr (Or.inl
      ⟨⟨"h2", some "b", 2, [⟨.pageLayout, "p"⟩]⟩, by decide, show "h2" ∈ r.headerIds by rw [hids]; decide,
        ⟨.page, "p"⟩, by decide, Or.inr ⟨by decide, by decide⟩⟩)⟩
    rw [hids] at hpage
    revert hpage
    decide

end CaeloCms.Draft
