import CaeloCms.Draft.Headers
import CaeloCms.Lib.Fixpoint

/-!
# The closed set of headers "undo this chat" drops

`draftUndoSelection` starts from the chat's own pending headers and repeats a round until nothing joins: note the
earliest selected change of every entity, select every later header of these entities, then, for every row that was
created in the draft and first recorded by a selected header, select every header that belongs to the row or names
its id.  A round sees the headers of the round before; `undoLoop_isLeast` says that the loop nevertheless ends with the
least closed set.

Plugin rows are noted in the loop (`pluginRowIds`, tombstoned by the undo) but what names them is not selected:
`draftUndoSelection_least_iff` tells exactly when that makes no difference.
-/

namespace CaeloCms.Draft

open OrderedSet Fixpoint

structure CreatedRow where
  table : String
  id : Id
deriving DecidableEq, Repr

structure DraftUndoSelection where
  headerIds : List Id
  createdRows : List CreatedRow
  /-- Plugin rows first recorded inside the selection. -/
  pluginRowIds : List Id
  /-- Other chats whose later changes are undone too. -/
  overlap : List AffectedChat
deriving DecidableEq, Repr

structure UndoLoop where
  selected : List Id
  created : List (Key × CreatedRow)
  pluginRowIds : List Id

/-- `const at = earliest.get(k); if (at === undefined || createdAt < at) earliest.set(k, createdAt)` -/
def noteEarliest (createdAt : Nat) (earliest : List (Key × Nat)) (k : Key) : List (Key × Nat) :=
  match earliest.lookup k with
  | none => earliest ++ [(k, createdAt)]
  | some at' => if createdAt < at' then earliest.map fun p => if p.1 = k then (k, createdAt) else p else earliest

def earliestChanges (headers : List PendingHeader) (selected : List Id) : List (Key × Nat) :=
  headers.foldl (fun m h => if h.id ∈ selected then h.keys.foldl (noteEarliest h.createdAt) m else m) []

def builtOn (earliest : List (Key × Nat)) (h : PendingHeader) : Bool :=
  h.keys.any fun k => ((earliest.lookup k).map fun at' => decide (at' < h.createdAt)).getD false

/-- The pending headers of the branch that belong to the row `id` or name it. -/
def referencing (db : DraftDb) (branchId id : Id) : List Id :=
  (db.siteSnapshots.filter fun ss =>
    ss.chatBranchId == some branchId && ss.pending && headerNames db ss.id id).map (·.id)

/-- `if (!selected.has(id)) { selected.add(id); changed = true; }` for every id -/
def selectIds (ids : List Id) (acc : List Id × Bool) : List Id × Bool :=
  ids.foldl (fun acc id => if id ∈ acc.1 then acc else (add acc.1 id, true)) acc

/-- The body of `for (const key of earliest.keys())`. -/
def undoKey (db : DraftDb) (branchId : Id) (headers : List PendingHeader) (acc : UndoLoop × Bool) (key : Key) :
    UndoLoop × Bool :=
  match headers.find? fun h => decide (key ∈ h.keys) with
  | none => acc
  | some firstHeader =>
    if firstHeader.id ∉ acc.1.selected then acc
    else if key.kind = .pluginRow then ({ acc.1 with pluginRowIds := add acc.1.pluginRowIds key.id }, acc.2)
    else
      match branchCreatedTable key.kind with
      | none => acc
      | some table =>
        if key ∈ acc.1.created.map (·.1) then acc
        else if !db.hasBranchRow key branchId then acc
        else
          let joined := selectIds (referencing db branchId key.id) (acc.1.selected, acc.2)
          ({ acc.1 with selected := joined.1, created := acc.1.created ++ [(key, ⟨table, key.id⟩)] }, joined.2)

def undoRound (db : DraftDb) (branchId : Id) (headers : List PendingHeader) (s : UndoLoop) : UndoLoop × Bool :=
  let earliest := earliestChanges headers s.selected
  let later := selectWhere (builtOn earliest) headers (s.selected, false)
  (earliest.map (·.1)).foldl (undoKey db branchId headers) ({ s with selected := later.1 }, later.2)

def undoBase (headers : List PendingHeader) (chatSessionId : Id) : List Id :=
  (headers.filter fun h => h.owner == some chatSessionId).map (·.id)

def draftUndoSelection (db : DraftDb) (branchId chatSessionId : Id) : Option DraftUndoSelection :=
  let headers := pendingHeaders db branchId
  (untilStable (undoRound db branchId headers) (headers.length + 1) ⟨undoBase headers chatSessionId, [], []⟩).map
    fun s =>
      { headerIds := selectedIds headers s.selected
        createdRows := s.created.map (·.2)
        pluginRowIds := s.pluginRowIds
        overlap := describeAffected db headers s.selected [chatSessionId] }

/-! ### The earliest selected change of an entity -/

variable {k k' : Key} {m : List (Key × Nat)} {t c : Nat} {headers : List PendingHeader} {selected : List Id} {x : Id}

theorem lookup_set_of_ne (hk : k' ≠ k) :
    (m.map fun p => if p.1 = k then (k, t) else p).lookup k' = m.lookup k' := by
  induction m with
  | nil => rfl
  | cons p m ih =>
    by_cases hp : p.1 = k
    · rw [List.map_cons, if_pos hp, List.lookup_cons, List.lookup_cons, hp, ih]
      rw [beq_eq_false_iff_ne.2 hk]
    · rw [List.map_cons, if_neg hp, List.lookup_cons, List.lookup_cons, ih]

theorem lookup_set_self {a : Nat} (hm : m.lookup k = some a) :
    (m.map fun p => if p.1 = k then (k, t) else p).lookup k = some t := by
  induction m with
  | nil => cases hm
  | cons p m ih =>
    by_cases hp : p.1 = k
    · rw [List.map_cons, if_pos hp, List.lookup_cons, beq_self_eq_true]
    · rw [List.lookup_cons, beq_eq_false_iff_ne.2 (Ne.symm hp)] at hm
      rw [List.map_cons, if_neg hp, List.lookup_cons, beq_eq_false_iff_ne.2 (Ne.symm hp), ih hm]

theorem lookup_noteEarliest_of_ne (hk : k' ≠ k) :
    (noteEarliest t m k).lookup k' = m.lookup k' := by
  unfold noteEarliest
  split
  · rw [List.lookup_append, List.lookup_cons, beq_eq_false_iff_ne.2 hk]
    simp
  · split
    · exact lookup_set_of_ne hk
    · rfl

theorem lookup_noteEarliest_self (t : Nat) (m : List (Key × Nat)) (k : Key) :
    (noteEarliest t m k).lookup k = some (((m.lookup k).map fun a => min a t).getD t) := by
  unfold noteEarliest
  cases hm : m.lookup k with
  | none => simp [List.lookup_append, hm]
  | some a =>
    show List.lookup k (if t < a then _ else m) = _
    by_cases ht : t < a
    · rw [if_pos ht, lookup_set_self hm, Option.map_some, Option.getD_some, Nat.min_eq_right (Nat.le_of_lt ht)]
    · rw [if_neg ht, hm, Option.map_some, Option.getD_some, Nat.min_eq_left (Nat.le_of_not_lt ht)]

/-- An entity was changed before `c`, as far as `m` has noted. -/
def NotedBefore (m : List (Key × Nat)) (k : Key) (c : Nat) : Prop := ∃ a, m.lookup k = some a ∧ a < c

theorem notedBefore_noteEarliest :
    NotedBefore (noteEarliest t m k) k' c ↔ NotedBefore m k' c ∨ (k' = k ∧ t < c) := by
  unfold NotedBefore
  by_cases hk : k' = k
  · subst hk
    rw [lookup_noteEarliest_self]
    cases hm : m.lookup k' with
    | none => simp
    | some a => simp
  · rw [lookup_noteEarliest_of_ne hk]
    simp [hk]

theorem notedBefore_keys {ks : List Key} :
    NotedBefore (ks.foldl (noteEarliest t) m) k c ↔ NotedBefore m k c ∨ (k ∈ ks ∧ t < c) := by
  induction ks generalizing m with
  | nil => simp
  | cons k' ks ih =>
    rw [List.foldl_cons, ih, notedBefore_noteEarliest, List.mem_cons]
    tauto

/-- The map of a round tells, for every entity and time, whether a selected header changed it before. -/
theorem notedBefore_earliestChanges :
    NotedBefore (earliestChanges headers selected) k c ↔
      ∃ g ∈ headers, g.id ∈ selected ∧ k ∈ g.keys ∧ g.createdAt < c := by
  have gen : ∀ m, NotedBefore (headers.foldl
      (fun m h => if h.id ∈ selected then h.keys.foldl (noteEarliest h.createdAt) m else m) m) k c ↔
      NotedBefore m k c ∨ ∃ g ∈ headers, g.id ∈ selected ∧ k ∈ g.keys ∧ g.createdAt < c := by
    induction headers with
    | nil => simp
    | cons h hs ih =>
      intro m
      rw [List.foldl_cons, ih]
      by_cases hsel : h.id ∈ selected
      · simp [hsel, notedBefore_keys, or_assoc]
      · simp [hsel]
  have := gen []
  simpa [earliestChanges, NotedBefore] using this

theorem mem_keys_of_lookup {a : Nat} (h : m.lookup k = some a) :
    k ∈ m.map (·.1) := by
  induction m with
  | nil => cases h
  | cons p m ih =>
    rw [List.lookup_cons] at h
    by_cases hp : k = p.1
    · simp [hp]
    · rw [beq_eq_false_iff_ne.2 hp] at h
      exact List.mem_cons_of_mem _ (ih h)

theorem mem_earliestChanges {g : PendingHeader}
    (hg : g ∈ headers) (hs : g.id ∈ selected) (hk : k ∈ g.keys) :
    k ∈ (earliestChanges headers selected).map (·.1) := by
  obtain ⟨a, ha, -⟩ := notedBefore_earliestChanges.2 ⟨g, hg, hs, hk, Nat.lt_succ_self _⟩
  exact mem_keys_of_lookup ha

theorem builtOn_iff {h : PendingHeader} :
    builtOn (earliestChanges headers selected) h = true ↔
      ∃ g ∈ headers, g.id ∈ selected ∧ ∃ k ∈ g.keys, k ∈ h.keys ∧ g.createdAt < h.createdAt := by
  have hnoted : ∀ k, (((earliestChanges headers selected).lookup k).map fun at' =>
      decide (at' < h.createdAt)).getD false = true ↔
      NotedBefore (earliestChanges headers selected) k h.createdAt := by
    intro k
    unfold NotedBefore
    cases (earliestChanges headers selected).lookup k <;> simp
  unfold builtOn
  simp only [List.any_eq_true, hnoted, notedBefore_earliestChanges]
  constructor
  · rintro ⟨k, hk, g, hg, hs, hgk, hlt⟩
    exact ⟨g, hg, hs, k, hgk, hk, hlt⟩
  · rintro ⟨g, hg, hs, k, hgk, hk, hlt⟩
    exact ⟨k, hk, g, hg, hs, hgk, hlt⟩

/-! ### What a set of headers pulls in -/

section Rule

variable (db : DraftDb) (headers : List PendingHeader)

/-- The first header that records the entity is in `S`. -/
def FirstIn (S : Set Id) (k : Key) : Prop := ∃ f, headers.find? (fun h => decide (k ∈ h.keys)) = some f ∧ f.id ∈ S

/-- `h` goes with an undo of `S` that deletes the rows `removed`: it changes an entity later than a header of `S`, or
it belongs to or names such a row that a header of `S` was the first to record. -/
def UndoJoins (removed : Key → Prop) (S : Set Id) (h : PendingHeader) : Prop :=
  (∃ g ∈ headers, g.id ∈ S ∧ ∃ k ∈ g.keys, k ∈ h.keys ∧ g.createdAt < h.createdAt) ∨
  (∃ k, removed k ∧ FirstIn headers S k ∧ headerNames db h.id k.id = true)

def undoRule (removed : Key → Prop) (S : Set Id) : Set Id :=
  {x | ∃ h ∈ headers, h.id = x ∧ UndoJoins db headers removed S h}

theorem UndoJoins.mono {removed removed' : Key → Prop} (hr : ∀ k, removed k → removed' k) {S T : Set Id}
    (hST : S ⊆ T) {h : PendingHeader} (hj : UndoJoins db headers removed S h) :
    UndoJoins db headers removed' T h := by
  rcases hj with ⟨g, hg, hgS, hk⟩ | ⟨k, hk, ⟨f, hf, hfS⟩, hn⟩
  · exact Or.inl ⟨g, hg, hST hgS, hk⟩
  · exact Or.inr ⟨k, hr k hk, ⟨f, hf, hST hfS⟩, hn⟩

theorem undoRule_mono (removed : Key → Prop) : Monotone (undoRule db headers removed) := by
  rintro S T hST x ⟨h, hh, rfl, hj⟩
  exact ⟨h, hh, rfl, hj.mono db headers (fun _ => id) hST⟩

theorem undoRule_le {removed removed' : Key → Prop} (hr : ∀ k, removed k → removed' k) (S : Set Id) :
    undoRule db headers removed S ⊆ undoRule db headers removed' S := by
  rintro x ⟨h, hh, rfl, hj⟩
  exact ⟨h, hh, rfl, hj.mono db headers hr (fun _ => id)⟩

end Rule

theorem mem_referencing {db : DraftDb} {branchId id : Id} :
    x ∈ referencing db branchId id ↔ ∃ h ∈ pendingHeaders db branchId, h.id = x ∧ headerNames db h.id id = true := by
  unfold referencing pendingHeaders
  simp only [List.mem_map, List.mem_filter, Bool.and_eq_true]
  constructor
  · rintro ⟨ss, ⟨hss, ⟨hb, hp⟩, hn⟩, rfl⟩
    refine ⟨_, ⟨ss, (List.mem_insertionSort headerOrder).2 ?_, rfl⟩, rfl, hn⟩
    exact List.mem_filter.2 ⟨hss, by rw [hb, hp]; rfl⟩
  · rintro ⟨h, ⟨ss, hss, rfl⟩, rfl, hn⟩
    obtain ⟨hss, hbp⟩ := List.mem_filter.1 ((List.mem_insertionSort headerOrder).1 hss)
    obtain ⟨hb, hp⟩ := (Bool.and_eq_true _ _).mp hbp
    exact ⟨ss, ⟨hss, ⟨hb, hp⟩, hn⟩, rfl⟩

theorem mem_selectIds {ids : List Id} {acc : List Id × Bool} :
    x ∈ (selectIds ids acc).1 ↔ x ∈ acc.1 ∨ x ∈ ids := by
  unfold selectIds
  induction ids generalizing acc with
  | nil => simp
  | cons a ids ih =>
    rw [List.foldl_cons, ih, List.mem_cons]
    split
    · rename_i ha
      constructor
      · rintro (hx | hx)
        · exact Or.inl hx
        · exact Or.inr (Or.inr hx)
      · rintro (hx | rfl | hx)
        · exact Or.inl hx
        · exact Or.inl ha
        · exact Or.inr hx
    · rw [mem_add, or_assoc]

theorem selectIds_grows (ids : List Id) (acc : List Id × Bool) : Grows acc (selectIds ids acc) := by
  unfold selectIds
  induction ids generalizing acc with
  | nil => exact Grows.refl acc
  | cons a ids ih =>
    rw [List.foldl_cons]
    refine Grows.trans ?_ (ih _)
    split
    · exact Grows.refl acc
    · rename_i ha
      refine ⟨fun x hx => mem_add.2 (Or.inl hx), ?_⟩
      simp only [true_iff]
      exact Or.inr ⟨a, mem_add.2 (Or.inr rfl), ha⟩

/-! ### One key of a round -/

section Key

variable {db : DraftDb} {branchId : Id} {headers : List PendingHeader} {acc : UndoLoop × Bool} {key : Key}

/-- The created rows the loop has to delete, given what is selected. -/
def Removed (db : DraftDb) (branchId : Id) (headers : List PendingHeader) (selected : List Id) (k : Key) : Prop :=
  createdOnBranch db k branchId = true ∧ FirstIn headers {x | x ∈ selected} k

/-- Either the key is a created row the selection removes, which is noted now and everything that names it selected,
or selected headers and noted rows stay as they are; a removed row is noted in any case. -/
theorem undoKey_cases (db : DraftDb) (branchId : Id) (headers : List PendingHeader) (acc : UndoLoop × Bool)
    (key : Key) :
    let acc' := undoKey db branchId headers acc key
    (Removed db branchId headers acc.1.selected key ∧
      (acc'.1.selected, acc'.2) = selectIds (referencing db branchId key.id) (acc.1.selected, acc.2) ∧
      ∃ row, acc'.1.created = acc.1.created ++ [(key, row)]) ∨
    (acc'.1.selected = acc.1.selected ∧ acc'.2 = acc.2 ∧ acc'.1.created = acc.1.created ∧
      (Removed db branchId headers acc.1.selected key → key ∈ acc.1.created.map (·.1))) := by
  intro acc'
  have hacc : acc' = undoKey db branchId headers acc key := rfl
  unfold undoKey at hacc
  cases hfind : headers.find? fun h => decide (key ∈ h.keys) with
  | none =>
    rw [hfind] at hacc
    refine Or.inr ⟨by rw [hacc], by rw [hacc], by rw [hacc], ?_⟩
    rintro ⟨-, f, hf, -⟩
    rw [hfind] at hf
    cases hf
  | some first =>
    rw [hfind] at hacc
    dsimp only at hacc
    by_cases hsel : first.id ∉ acc.1.selected
    · rw [if_pos hsel] at hacc
      refine Or.inr ⟨by rw [hacc], by rw [hacc], by rw [hacc], ?_⟩
      rintro ⟨-, f, hf, hfs⟩
      rw [hfind, Option.some.injEq] at hf
      exact absurd (hf ▸ hfs) hsel
    rw [if_neg hsel] at hacc
    by_cases hplugin : key.kind = .pluginRow
    · rw [if_pos hplugin] at hacc
      refine Or.inr ⟨by rw [hacc], by rw [hacc], by rw [hacc], ?_⟩
      rintro ⟨hc, -⟩
      simp [createdOnBranch, hplugin, branchCreatedTable] at hc
    rw [if_neg hplugin] at hacc
    cases htable : branchCreatedTable key.kind with
    | none =>
      rw [htable] at hacc
      refine Or.inr ⟨by rw [hacc], by rw [hacc], by rw [hacc], ?_⟩
      rintro ⟨hc, -⟩
      simp [createdOnBranch, htable] at hc
    | some table =>
      rw [htable] at hacc
      dsimp only at hacc
      by_cases hcr : key ∈ acc.1.created.map (·.1)
      · rw [if_pos hcr] at hacc
        exact Or.inr ⟨by rw [hacc], by rw [hacc], by rw [hacc], fun _ => hcr⟩
      rw [if_neg hcr] at hacc
      by_cases htag : (!db.hasBranchRow key branchId) = true
      · rw [if_pos htag] at hacc
        refine Or.inr ⟨by rw [hacc], by rw [hacc], by rw [hacc], ?_⟩
        rintro ⟨hc, -⟩
        simp only [createdOnBranch, Bool.and_eq_true] at hc
        rw [hc.2] at htag
        cases htag
      · rw [if_neg htag] at hacc
        refine Or.inl ⟨⟨?_, first, hfind, not_not.1 hsel⟩, by rw [hacc], ⟨table, key.id⟩, by rw [hacc]⟩
        simpa [createdOnBranch, htable] using htag

theorem undoKey_grows (db : DraftDb) (branchId : Id) (headers : List PendingHeader) (acc : UndoLoop × Bool)
    (key : Key) :
    Grows (acc.1.selected, acc.2)
      ((undoKey db branchId headers acc key).1.selected, (undoKey db branchId headers acc key).2) := by
  rcases undoKey_cases db branchId headers acc key with ⟨-, heq, -⟩ | ⟨hsel, hflag, -⟩
  · rw [heq]
    exact selectIds_grows _ _
  · rw [hsel, hflag]
    exact Grows.refl _

theorem undoKey_created_mono {k : Key} (hk : k ∈ acc.1.created.map (·.1)) :
    k ∈ (undoKey db branchId headers acc key).1.created.map (·.1) := by
  rcases undoKey_cases db branchId headers acc key with ⟨-, -, row, hrow⟩ | ⟨-, -, hcr, -⟩
  · rw [hrow, List.map_append]
    exact List.mem_append_left _ hk
  · rw [hcr]
    exact hk

theorem undoKey_notes (hr : Removed db branchId headers acc.1.selected key) :
    key ∈ (undoKey db branchId headers acc key).1.created.map (·.1) := by
  rcases undoKey_cases db branchId headers acc key with ⟨-, -, row, hrow⟩ | ⟨-, -, hcr, hnoted⟩
  · rw [hrow]
    simp
  · rw [hcr]
    exact hnoted hr

end Key

/-! ### One round -/

/-- The state of the closure loop between rounds, and within a round between keys. -/
structure UndoInv (db : DraftDb) (branchId : Id) (base : List Id) (s : UndoLoop) : Prop where
  base_subset : ∀ x ∈ base, x ∈ s.selected
  pending : ∀ x ∈ s.selected, ∃ h ∈ pendingHeaders db branchId, h.id = x
  least : ∀ T, Closed {x | x ∈ base}
    (undoRule db (pendingHeaders db branchId) fun k => createdOnBranch db k branchId = true) T →
    ∀ x ∈ s.selected, x ∈ T
  created_done : ∀ k ∈ s.created.map (·.1), ∀ h ∈ pendingHeaders db branchId, headerNames db h.id k.id = true →
    h.id ∈ s.selected

section Round

variable {db : DraftDb} {branchId : Id} {base : List Id}

theorem UndoInv.key {acc : UndoLoop × Bool} (hs : UndoInv db branchId base acc.1) (key : Key) :
    UndoInv db branchId base (undoKey db branchId (pendingHeaders db branchId) acc key).1 := by
  have hkept := (undoKey_grows db branchId (pendingHeaders db branchId) acc key).kept
  rcases undoKey_cases db branchId (pendingHeaders db branchId) acc key with
    ⟨⟨hcr, f, hf, hfs⟩, heq, row, hrow⟩ | ⟨hsel, -, hcr, -⟩
  · have hmem : ∀ x, x ∈ (undoKey db branchId (pendingHeaders db branchId) acc key).1.selected ↔
        x ∈ acc.1.selected ∨ x ∈ referencing db branchId key.id := by
      intro x
      rw [show (undoKey db branchId (pendingHeaders db branchId) acc key).1.selected = _ from congrArg Prod.fst heq]
      exact mem_selectIds
    refine ⟨fun x hx => hkept x (hs.base_subset x hx), ?_, ?_, ?_⟩
    · intro x hx
      rcases (hmem x).1 hx with hx | hx
      · exact hs.pending x hx
      · obtain ⟨h, hh, rfl, -⟩ := mem_referencing.1 hx
        exact ⟨h, hh, rfl⟩
    · intro T hT x hx
      rcases (hmem x).1 hx with hx | hx
      · exact hs.least T hT x hx
      · obtain ⟨h, hh, rfl, hn⟩ := mem_referencing.1 hx
        exact hT.2 ⟨h, hh, rfl, Or.inr ⟨key, hcr, ⟨f, hf, hs.least T hT _ hfs⟩, hn⟩⟩
    · intro k hk h hh hn
      rw [hrow, List.map_append] at hk
      rcases List.mem_append.1 hk with hk | hk
      · exact hkept _ (hs.created_done k hk h hh hn)
      · obtain rfl : k = key := by simpa using hk
        exact (hmem _).2 (Or.inr (mem_referencing.2 ⟨h, hh, rfl, hn⟩))
  · refine ⟨?_, ?_, ?_, ?_⟩
    · rw [hsel]
      exact hs.base_subset
    · rw [hsel]
      exact hs.pending
    · rw [hsel]
      exact hs.least
    · rw [hsel, hcr]
      exact hs.created_done

/-- The first pass of a round: the headers built on the earliest selected change of an entity. -/
theorem UndoInv.later {s : UndoLoop} (hs : UndoInv db branchId base s) :
    UndoInv db branchId base { s with selected := (selectWhere
      (builtOn (earliestChanges (pendingHeaders db branchId) s.selected)) (pendingHeaders db branchId)
      (s.selected, false)).1 } := by
  have hmem := (selectWhere_spec (builtOn (earliestChanges (pendingHeaders db branchId) s.selected))
    (pendingHeaders db branchId) (s.selected, false)).1
  refine ⟨?_, ?_, ?_, ?_⟩
  · exact fun x hx => (hmem x).2 (Or.inl (hs.base_subset x hx))
  · intro x hx
    rcases (hmem x).1 hx with hx | ⟨h, hh, rfl, -⟩
    · exact hs.pending x hx
    · exact ⟨h, hh, rfl⟩
  · intro T hT x hx
    rcases (hmem x).1 hx with hx | ⟨h, hh, rfl, hb⟩
    · exact hs.least T hT x hx
    · obtain ⟨g, hg, hgs, hk⟩ := builtOn_iff.1 hb
      exact hT.2 ⟨h, hh, rfl, Or.inl ⟨g, hg, hs.least T hT _ hgs, hk⟩⟩
  · exact fun k hk h hh hn => (hmem _).2 (Or.inl (hs.created_done k hk h hh hn))

theorem UndoInv.step {s : UndoLoop} (hs : UndoInv db branchId base s) :
    UndoInv db branchId base (undoRound db branchId (pendingHeaders db branchId) s).1 := by
  unfold undoRound
  exact List.foldlRecOn (motive := fun acc : UndoLoop × Bool => UndoInv db branchId base acc.1) _ _ hs.later
    fun _ hacc key _ => hacc.key key

theorem undoRound_grows (db : DraftDb) (branchId : Id) (headers : List PendingHeader) (s : UndoLoop) :
    Grows (s.selected, false)
      ((undoRound db branchId headers s).1.selected, (undoRound db branchId headers s).2) := by
  unfold undoRound
  exact List.foldlRecOn (motive := fun acc : UndoLoop × Bool => Grows (s.selected, false) (acc.1.selected, acc.2)) _ _
    (selectWhere_grows _ headers (s.selected, false)) fun acc hacc key _ =>
      hacc.trans (undoKey_grows db branchId headers acc key)

theorem foldl_undoKey_notes {headers : List PendingHeader} {keys : List Key} {acc : UndoLoop × Bool} {k : Key}
    (hk : k ∈ keys) (hr : Removed db branchId headers acc.1.selected k) :
    k ∈ (keys.foldl (undoKey db branchId headers) acc).1.created.map (·.1) := by
  induction keys generalizing acc with
  | nil => cases hk
  | cons key keys ih =>
    rw [List.foldl_cons]
    rcases List.mem_cons.1 hk with rfl | hk
    · exact List.foldlRecOn (motive := fun acc : UndoLoop × Bool => k ∈ acc.1.created.map (·.1)) _ _
        (undoKey_notes hr) fun _ hacc _ _ => undoKey_created_mono hacc
    · obtain ⟨hc, f, hf, hfs⟩ := hr
      exact ih hk ⟨hc, f, hf, (undoKey_grows db branchId headers acc key).kept _ hfs⟩

theorem UndoInv.closed_of_unchanged {s : UndoLoop} (hs : UndoInv db branchId base s)
    (hc : (undoRound db branchId (pendingHeaders db branchId) s).2 = false) :
    Closed {x | x ∈ base} (undoRule db (pendingHeaders db branchId) fun k => createdOnBranch db k branchId = true)
      {x | x ∈ (undoRound db branchId (pendingHeaders db branchId) s).1.selected} := by
  set headers := pendingHeaders db branchId
  have hgrows := undoRound_grows db branchId headers s
  have hsame : ∀ x ∈ (undoRound db branchId headers s).1.selected, x ∈ s.selected := by
    intro x hx
    by_contra hn
    have := hgrows.flag.2 (Or.inr ⟨x, hx, hn⟩)
    rw [hc] at this
    cases this
  refine ⟨fun x hx => hs.step.base_subset x hx, ?_⟩
  rintro x ⟨h, hh, rfl, ⟨g, hg, hgs, hk⟩ | ⟨k, hcr, ⟨f, hf, hfs⟩, hn⟩⟩
  · -- `h` is built on `g`, so the first pass of the round selects it, and what it selects stays
    by_contra hns
    have hb : builtOn (earliestChanges headers s.selected) h = true := builtOn_iff.2 ⟨g, hg, hsame _ hgs, hk⟩
    have hlater := ((selectWhere_spec (builtOn (earliestChanges headers s.selected)) headers (s.selected, false)).1
      h.id).2 (Or.inr ⟨h, hh, rfl, hb⟩)
    refine hns (List.foldlRecOn (motive := fun acc : UndoLoop × Bool => h.id ∈ acc.1.selected) _ _ hlater ?_)
    exact fun acc hacc _ _ => (undoKey_grows db branchId headers acc _).kept _ hacc
  · have hfmem : f ∈ headers := List.mem_of_find?_eq_some hf
    have hfk : k ∈ f.keys := by simpa using List.find?_some hf
    have hnoted : k ∈ (undoRound db branchId headers s).1.created.map (·.1) := by
      refine foldl_undoKey_notes (mem_earliestChanges hfmem (hsame _ hfs) hfk) ⟨hcr, f, hf, ?_⟩
      exact (selectWhere_grows _ headers (s.selected, false)).kept _ (hsame _ hfs)
    exact hs.step.created_done k hnoted h hh hn

end Round

/-! ### The result of the loop -/

def ownHeaders (headers : List PendingHeader) (chatSessionId : Id) : Set Id :=
  {x | ∃ h ∈ headers, h.id = x ∧ h.owner = some chatSessionId}

theorem mem_undoBase {chatSessionId : Id} :
    x ∈ undoBase headers chatSessionId ↔ x ∈ ownHeaders headers chatSessionId := by
  simp only [undoBase, ownHeaders, List.mem_map, List.mem_filter, beq_iff_eq, Set.mem_ofPred_eq]
  constructor
  · rintro ⟨h, ⟨hh, ho⟩, rfl⟩
    exact ⟨h, hh, rfl, ho⟩
  · rintro ⟨h, hh, rfl, ho⟩
    exact ⟨h, ⟨hh, ho⟩, rfl⟩

/-- The closure loop ends, and what it selected is the least set with the base closed under the rule. -/
theorem undoLoop_isLeast (db : DraftDb) (branchId chatSessionId : Id) :
    ∃ t, untilStable (undoRound db branchId (pendingHeaders db branchId)) ((pendingHeaders db branchId).length + 1)
        ⟨undoBase (pendingHeaders db branchId) chatSessionId, [], []⟩ = some t ∧
      (∀ x ∈ t.selected, ∃ h ∈ pendingHeaders db branchId, h.id = x) ∧
      IsLeast {S | Closed {x | x ∈ undoBase (pendingHeaders db branchId) chatSessionId}
        (undoRule db (pendingHeaders db branchId) fun k => createdOnBranch db k branchId = true) S}
        {x | x ∈ t.selected} := by
  set headers := pendingHeaders db branchId with hheaders
  set base := undoBase headers chatSessionId
  have hinit : UndoInv db branchId base ⟨base, [], []⟩ := by
    refine ⟨fun _ => id, ?_, fun T hT x hx => hT.1 hx, by simp⟩
    intro x hx
    obtain ⟨h, hh, rfl⟩ := List.mem_map.1 hx
    exact ⟨h, (List.mem_filter.1 hh).1, rfl⟩
  have hmeasure : ∀ s, UndoInv db branchId base s → (undoRound db branchId headers s).2 = true →
      unselected headers (undoRound db branchId headers s).1.selected < unselected headers s.selected := by
    intro s hs hc
    have hgrows := undoRound_grows db branchId headers s
    obtain ⟨x, hx, hn⟩ := (hgrows.flag.1 hc).resolve_left Bool.false_ne_true
    obtain ⟨h, hh, rfl⟩ := hs.step.pending x hx
    exact unselected_lt hgrows.kept hh hn hx
  obtain ⟨t, ht⟩ := untilStable_isSome (fun s hs => UndoInv.step hs) (fun s => unselected headers s.selected)
    hmeasure hinit (n := headers.length + 1) (Nat.lt_succ_of_le List.countP_le_length)
  obtain ⟨r, hr, hc, rfl⟩ := untilStable_last (fun s hs => UndoInv.step hs) hinit ht
  exact ⟨_, ht, hr.step.pending, isLeast_of_closed (hr.closed_of_unchanged hc) hr.step.least⟩

def removedByUndo (db : DraftDb) (branchId : Id) (k : Key) : Prop :=
  createdOnBranch db k branchId = true ∨ (k.kind = .pluginRow ∧ (k, branchId) ∈ db.branchRows)

/-- "Undo this chat" terminates and drops the least set with the chat's headers that is closed under `undoRule`; so
no header left behind is built on a dropped one or names a row it removed. -/
def UndoesLeastClosed (db : DraftDb) (branchId chatSessionId : Id) (removed : Key → Prop) : Prop :=
  ∃ r, draftUndoSelection db branchId chatSessionId = some r ∧
    IsLeast {S | Closed (ownHeaders (pendingHeaders db branchId) chatSessionId)
      (undoRule db (pendingHeaders db branchId) removed) S} {x | x ∈ r.headerIds} ∧
    ∀ h ∈ pendingHeaders db branchId, h.id ∉ r.headerIds →
      (∀ g ∈ pendingHeaders db branchId, g.id ∈ r.headerIds → ∀ k ∈ g.keys, k ∈ h.keys → h.createdAt ≤ g.createdAt) ∧
      ∀ k, removed k → FirstIn (pendingHeaders db branchId) {x | x ∈ r.headerIds} k → headerNames db h.id k.id = false

theorem Closed.undo_left_behind {db : DraftDb} {removed : Key → Prop} {base S : Set Id}
    (hS : Closed base (undoRule db headers removed) S) {h : PendingHeader} (hh : h ∈ headers) (hhS : h.id ∉ S) :
    (∀ g ∈ headers, g.id ∈ S → ∀ k ∈ g.keys, k ∈ h.keys → h.createdAt ≤ g.createdAt) ∧
    ∀ k, removed k → FirstIn headers S k → headerNames db h.id k.id = false := by
  constructor
  · intro g hg hgS k hgk hk
    by_contra hlt
    exact hhS (hS.2 ⟨h, hh, rfl, Or.inl ⟨g, hg, hgS, k, hgk, hk, Nat.lt_of_not_le hlt⟩⟩)
  · intro k hk hfirst
    rw [Bool.eq_false_iff]
    exact fun hn => hhS (hS.2 ⟨h, hh, rfl, Or.inr ⟨k, hk, hfirst, hn⟩⟩)

/-- The returned headers are the least closed set when only rows of live tables count as removed. -/
theorem draftUndoSelection_isLeast (db : DraftDb) (branchId chatSessionId : Id) :
    UndoesLeastClosed db branchId chatSessionId fun k => createdOnBranch db k branchId = true := by
  obtain ⟨t, ht, hpending, hleast⟩ := undoLoop_isLeast db branchId chatSessionId
  have hids : {x | x ∈ selectedIds (pendingHeaders db branchId) t.selected} = {x | x ∈ t.selected} := by
    ext x
    exact mem_selectedIds.trans (and_iff_left_of_imp (hpending x))
  have hbase : {x | x ∈ undoBase (pendingHeaders db branchId) chatSessionId} =
      ownHeaders (pendingHeaders db branchId) chatSessionId := Set.ext fun _ => mem_undoBase
  rw [← hids, hbase] at hleast
  exact ⟨_, congrArg (Option.map _) ht, hleast, fun h hh hn => Closed.undo_left_behind hleast.1 hh hn⟩

/-- "Undo this chat" drops exactly what has to go together if and only if every pending header that names a plugin
row created on the draft, where the closure without plugin rows reaches the row's first header, is reached too. -/
theorem draftUndoSelection_least_iff (db : DraftDb) (branchId chatSessionId : Id) :
    let headers := pendingHeaders db branchId
    let reached := leastClosed (ownHeaders headers chatSessionId)
      (undoRule db headers fun k => createdOnBranch db k branchId = true)
    UndoesLeastClosed db branchId chatSessionId (removedByUndo db branchId) ↔
      ∀ k, k.kind = .pluginRow → (k, branchId) ∈ db.branchRows → FirstIn headers reached k →
        ∀ h ∈ headers, headerNames db h.id k.id = true → h.id ∈ reached := by
  intro headers reached
  obtain ⟨r, hr, hleast, -⟩ := draftUndoSelection_isLeast db branchId chatSessionId
  have heq : {x | x ∈ r.headerIds} = reached := IsLeast.eq_leastClosed (undoRule_mono db headers _) hleast
  have hle : ∀ S, undoRule db headers (fun k => createdOnBranch db k branchId = true) S ⊆
      undoRule db headers (removedByUndo db branchId) S := undoRule_le db headers fun _ => Or.inl
  have hwider := isLeast_iff_of_le hle hleast
  have hundone : UndoesLeastClosed db branchId chatSessionId (removedByUndo db branchId) ↔
      undoRule db headers (removedByUndo db branchId) reached ⊆ reached := by
    rw [← heq, ← hwider]
    constructor
    · rintro ⟨r', hr', h', -⟩
      rw [hr, Option.some.injEq] at hr'
      exact hr' ▸ h'
    · exact fun h' => ⟨r, hr, h', fun h hh hn => Closed.undo_left_behind h'.1 hh hn⟩
  rw [hundone]
  constructor
  · intro hsub k hk htag hfirst h hh hn
    exact hsub ⟨h, hh, rfl, Or.inr ⟨k, Or.inr ⟨hk, htag⟩, hfirst, hn⟩⟩
  · rintro hplugin x ⟨h, hh, rfl, hj⟩
    have hclosed : undoRule db headers (fun k => createdOnBranch db k branchId = true) reached ⊆ reached :=
      heq ▸ hleast.1.2
    rcases hj with hj | ⟨k, hcr | ⟨hk, htag⟩, hfirst, hn⟩
    · exact hclosed ⟨h, hh, rfl, Or.inl hj⟩
    · exact hclosed ⟨h, hh, rfl, Or.inr ⟨k, hcr, hfirst, hn⟩⟩
    · exact hplugin k hk htag hfirst h hh hn

/-- Chat `a` inserts the plugin row `r`; chat `b` writes a content instance that names it. -/
def pluginRowDraft : DraftDb :=
  { siteSnapshots :=
      [{ id := "h1", chatTaskId := some "a", chatBranchId := some "draft", createdAt := 1 },
       { id := "h2", chatTaskId := some "b", chatBranchId := some "draft", createdAt := 2 }]
    entityRows :=
      [{ siteSnapshotId := "h1", table := .plugin_row_snapshots, column := "r", state := .obj [] },
       { siteSnapshotId := "h2", table := .content_instance_snapshots, column := "c"
         state := .obj [("values", .obj [("faq", .str "r")])] }]
    branchRows := [(⟨.pluginRow, "r"⟩, "draft"), (⟨.contentInstance, "c"⟩, "draft")] }

/-- Undoing chat `a` tombstones the plugin row and leaves the header of chat `b` that points to it. -/
theorem draftUndoSelection_not_least :
    ¬ UndoesLeastClosed pluginRowDraft "draft" "a" (removedByUndo pluginRowDraft "draft") := by
  rintro ⟨r, hr, -, hleft⟩
  have hids : (draftUndoSelection pluginRowDraft "draft" "a").map (·.headerIds) = some ["h1"] := by decide
  rw [hr, Option.map_some, Option.some.injEq] at hids
  rw [hids] at hleft
  have hnames := (hleft ⟨"h2", some "b", 2, [⟨.contentInstance, "c"⟩]⟩ (by decide) (by decide)).2 ⟨.pluginRow, "r"⟩
    (Or.inr ⟨rfl, by decide⟩) ⟨⟨"h1", some "a", 1, [⟨.pluginRow, "r"⟩]⟩, by decide, by decide⟩
  revert hnames
  decide

end CaeloCms.Draft
