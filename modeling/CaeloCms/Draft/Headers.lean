import CaeloCms.Shared.Json
import CaeloCms.Lib.OrderedSet

/-!
# Pending draft headers

The rows the draft selections read: snapshot headers (`site_snapshots`), the entity rows recorded under them
(`ENTITY_TABLES`) and the live rows a branch created.  `pendingHeaders` is the query both selections start from.
-/

namespace CaeloCms.Draft

open OrderedSet

/-- A uuid, as text. -/
abbrev Id := String

/-- The kinds an entity key or a reference names. -/
inductive EntityKind
  | module | template | page | pageLayout | pageModuleContent | listType | list | pageType | contentInstance
  | theme | layoutBlock | pluginRow | layout
deriving DecidableEq, Repr

/-- An entity key `kind:id`. -/
structure Key where
  kind : EntityKind
  id : Id
deriving DecidableEq, Repr

inductive EntityTable
  | module_snapshots | template_snapshots | page_snapshots | page_layout_snapshots | page_module_content_snapshots
  | list_type_snapshots | list_snapshots | page_type_snapshots | content_instance_snapshots | theme_snapshots
  | layout_module_snapshots | plugin_row_snapshots
deriving DecidableEq, Repr

def EntityTable.key : EntityTable → EntityKind
  | module_snapshots => .module
  | template_snapshots => .template
  | page_snapshots => .page
  | page_layout_snapshots => .pageLayout
  | page_module_content_snapshots => .pageModuleContent
  | list_type_snapshots => .listType
  | list_snapshots => .list
  | page_type_snapshots => .pageType
  | content_instance_snapshots => .contentInstance
  | theme_snapshots => .theme
  | layout_module_snapshots => .layoutBlock
  | plugin_row_snapshots => .pluginRow

/-- `ENTITY_TABLES[…].refKind` -/
def EntityTable.refKind : EntityTable → EntityKind
  | page_layout_snapshots => .page
  | page_module_content_snapshots => .page
  | layout_module_snapshots => .layout
  | t => t.key

structure EntityRow where
  siteSnapshotId : Id
  table : EntityTable
  /-- The value of the table's id column (`module_id`, `page_id`, …). -/
  column : Id
  /-- The value of `ownerColumn`, where the table has one. -/
  owner : Option Id := none
  /-- `block_name`, part of the identity of a layout block. -/
  block : String := ""
  state : Json

/-- The entity key of a row: `key || ':' || idExpr`. -/
def EntityRow.key (r : EntityRow) : Key :=
  ⟨r.table.key, if r.table = .layout_module_snapshots then r.column ++ "/" ++ r.block else r.column⟩

/-- A row of `site_snapshots`. -/
structure SiteSnapshot where
  id : Id
  chatTaskId : Option Id
  chatBranchId : Option Id
  /-- Microseconds; the fixed-width text the query returns sorts the same way. -/
  createdAt : Nat
  stagedAt : Option Nat := none
  undoneAt : Option Nat := none

structure DraftDb where
  siteSnapshots : List SiteSnapshot
  entityRows : List EntityRow
  /-- The live rows with a `chat_branch_id` (a plugin row's `caelo_chat_branch_id`): the row and its branch. -/
  branchRows : List (Key × Id)
  /-- `chat_sessions.parent_chat_session_id` of the session with this id. -/
  parentChat : Id → Option Id := fun _ => none
  chatTitle : Id → Option String := fun _ => none
  keyLabel : Key → String := fun k => k.id

/-- `caelo_chat_owner(task)` -/
def DraftDb.chatOwner (db : DraftDb) (task : Option Id) : Option Id := task.map fun t => (db.parentChat t).getD t

structure PendingHeader where
  id : Id
  /-- Owning chat (`none` = written outside any chat). -/
  owner : Option Id
  createdAt : Nat
  keys : List Key
deriving DecidableEq, Repr

/-- `staged_at IS NULL AND undone_at IS NULL` -/
def SiteSnapshot.pending (s : SiteSnapshot) : Bool := s.stagedAt.isNone && s.undoneAt.isNone

def headerOrder (a b : SiteSnapshot) : Prop := a.createdAt < b.createdAt ∨ (a.createdAt = b.createdAt ∧ a.id ≤ b.id)

instance : DecidableRel headerOrder := fun _ _ => inferInstanceAs (Decidable (_ ∨ _))

def pendingHeaders (db : DraftDb) (branchId : Id) : List PendingHeader :=
  let pending := db.siteSnapshots.filter fun ss => ss.chatBranchId == some branchId && ss.pending
  (pending.insertionSort headerOrder).map fun p =>
    { id := p.id
      owner := db.chatOwner p.chatTaskId
      createdAt := p.createdAt
      keys := (db.entityRows.filter fun e => e.siteSnapshotId == p.id).map EntityRow.key }

/-- Another chat a draft selection reaches into, with what it touches there. -/
structure AffectedChat where
  /-- `none` = changes written outside any chat. -/
  chatSessionId : Option Id
  title : String
  labels : List String
deriving DecidableEq, Repr

def keysByOwner (headers : List PendingHeader) (selected : List Id) (excludeOwners : List Id) :
    List (Option Id × List Key) :=
  headers.foldl (fun byOwner h =>
    if h.id ∉ selected then byOwner
    else if (h.owner.map (excludeOwners.contains ·)).getD false then byOwner
    else if byOwner.any (·.1 == h.owner) then
      byOwner.map fun p => if p.1 == h.owner then (p.1, addAll p.2 h.keys) else p
    else byOwner ++ [(h.owner, addAll [] h.keys)]) []

def describeAffected (db : DraftDb) (headers : List PendingHeader) (selected : List Id)
    (excludeOwners : List Id) : List AffectedChat :=
  (keysByOwner headers selected excludeOwners).map fun p =>
    { chatSessionId := p.1
      title := match p.1 with
        | none => "changes made outside a chat"
        | some o => (db.chatTitle o).getD o
      labels := (p.2.take 20).map db.keyLabel }

def selectedIds (headers : List PendingHeader) (selected : List Id) : List Id :=
  (headers.filter fun h => decide (h.id ∈ selected)).map (·.id)

theorem mem_selectedIds {headers : List PendingHeader} {selected : List Id} {x : Id} :
    x ∈ selectedIds headers selected ↔ x ∈ selected ∧ ∃ h ∈ headers, h.id = x := by
  simp only [selectedIds, List.mem_map, List.mem_filter, decide_eq_true_eq]
  constructor
  · rintro ⟨h, ⟨hh, hs⟩, rfl⟩
    exact ⟨hs, h, hh, rfl⟩
  · rintro ⟨hs, h, hh, rfl⟩
    exact ⟨h, ⟨hh, hs⟩, rfl⟩

/-! ### Passes over the headers -/

/-- `for (const h of headers) if (!selected.has(h.id) && p(h)) { selected.add(h.id); changed = true; }` -/
def selectWhere (p : PendingHeader → Bool) (headers : List PendingHeader) (acc : List Id × Bool) : List Id × Bool :=
  headers.foldl (fun acc h => if h.id ∈ acc.1 then acc else if p h then (add acc.1 h.id, true) else acc) acc

/-- What was selected stays, a header with `p` is added, nothing else is, and the flag says whether one was. -/
theorem selectWhere_spec (p : PendingHeader → Bool) (headers : List PendingHeader) (acc : List Id × Bool) :
    (∀ x, x ∈ (selectWhere p headers acc).1 ↔ x ∈ acc.1 ∨ ∃ h ∈ headers, h.id = x ∧ p h = true) ∧
    ((selectWhere p headers acc).2 = true ↔ acc.2 = true ∨ ∃ h ∈ headers, h.id ∉ acc.1 ∧ p h = true) := by
  induction headers generalizing acc with
  | nil => simp [selectWhere]
  | cons h hs ih =>
    have hstep : selectWhere p (h :: hs) acc = selectWhere p hs
        (if h.id ∈ acc.1 then acc else if p h then (add acc.1 h.id, true) else acc) := rfl
    rw [hstep]
    by_cases hsel : h.id ∈ acc.1
    · rw [if_pos hsel]
      refine ⟨fun x => ?_, ?_⟩
      · rw [(ih acc).1]
        constructor
        · rintro (hx | ⟨g, hg, rfl, hj⟩)
          · exact Or.inl hx
          · exact Or.inr ⟨g, List.mem_cons_of_mem _ hg, rfl, hj⟩
        · rintro (hx | ⟨g, hg, rfl, hj⟩)
          · exact Or.inl hx
          · rcases List.mem_cons.1 hg with rfl | hg
            · exact Or.inl hsel
            · exact Or.inr ⟨g, hg, rfl, hj⟩
      · rw [(ih acc).2]
        simp [hsel]
    · rw [if_neg hsel]
      by_cases hj : p h = true
      · rw [if_pos hj]
        refine ⟨fun x => ?_, ?_⟩
        · rw [(ih _).1, mem_add]
          constructor
          · rintro ((hx | rfl) | ⟨g, hg, rfl, hgj⟩)
            · exact Or.inl hx
            · exact Or.inr ⟨h, List.mem_cons_self .., rfl, hj⟩
            · exact Or.inr ⟨g, List.mem_cons_of_mem _ hg, rfl, hgj⟩
          · rintro (hx | ⟨g, hg, rfl, hgj⟩)
            · exact Or.inl (Or.inl hx)
            · rcases List.mem_cons.1 hg with rfl | hg
              · exact Or.inl (Or.inr rfl)
              · exact Or.inr ⟨g, hg, rfl, hgj⟩
        · rw [(ih _).2]
          simp [hsel, hj]
      · rw [if_neg hj]
        refine ⟨fun x => ?_, ?_⟩
        · rw [(ih acc).1]
          simp [hj]
        · rw [(ih acc).2]
          simp [hj]

/-- A pass went from `acc` to `acc'`: nothing selected was lost, and the flag was set iff something was added. -/
structure Grows (acc acc' : List Id × Bool) : Prop where
  kept : ∀ x ∈ acc.1, x ∈ acc'.1
  flag : acc'.2 = true ↔ acc.2 = true ∨ ∃ x ∈ acc'.1, x ∉ acc.1

theorem Grows.refl (acc : List Id × Bool) : Grows acc acc :=
  ⟨fun _ => id, by simp⟩

theorem Grows.trans {a b c : List Id × Bool} (hab : Grows a b) (hbc : Grows b c) : Grows a c := by
  refine ⟨fun x hx => hbc.kept x (hab.kept x hx), ?_⟩
  rw [hbc.flag, hab.flag, or_assoc]
  refine or_congr_right ?_
  constructor
  · rintro (⟨x, hx, hn⟩ | ⟨x, hx, hn⟩)
    · exact ⟨x, hbc.kept x hx, hn⟩
    · exact ⟨x, hx, fun ha => hn (hab.kept x ha)⟩
  · rintro ⟨x, hx, hn⟩
    by_cases hb : x ∈ b.1
    · exact Or.inl ⟨x, hb, hn⟩
    · exact Or.inr ⟨x, hx, hb⟩

theorem selectWhere_grows (p : PendingHeader → Bool) (headers : List PendingHeader) (acc : List Id × Bool) :
    Grows acc (selectWhere p headers acc) := by
  obtain ⟨hmem, hflag⟩ := selectWhere_spec p headers acc
  refine ⟨fun x hx => (hmem x).2 (Or.inl hx), hflag.trans (or_congr_right ?_)⟩
  constructor
  · rintro ⟨h, hh, hn, hp⟩
    exact ⟨h.id, (hmem _).2 (Or.inr ⟨h, hh, rfl, hp⟩), hn⟩
  · rintro ⟨x, hx, hn⟩
    obtain ⟨h, hh, rfl, hp⟩ := ((hmem x).1 hx).resolve_left hn
    exact ⟨h, hh, hn, hp⟩

def unselected (headers : List PendingHeader) (selected : List Id) : Nat :=
  headers.countP fun h => decide (h.id ∉ selected)

theorem unselected_lt {headers : List PendingHeader} {selected selected' : List Id} (hsub : ∀ x ∈ selected, x ∈ selected')
    {h : PendingHeader} (hh : h ∈ headers) (hn : h.id ∉ selected) (hs : h.id ∈ selected') :
    unselected headers selected' < unselected headers selected := by
  unfold unselected
  induction headers with
  | nil => cases hh
  | cons g gs ih =>
    have hle : gs.countP (fun h => decide (h.id ∉ selected')) ≤ gs.countP fun h => decide (h.id ∉ selected) := by
      refine List.countP_mono_left fun x _ hx => ?_
      simp only [decide_eq_true_eq] at hx ⊢
      exact fun hm => hx (hsub _ hm)
    rcases List.mem_cons.1 hh with rfl | hh
    · rw [List.countP_cons_of_neg (by simpa using hs), List.countP_cons_of_pos (by simpa using hn)]
      omega
    · have := ih hh
      simp only [List.countP_cons, decide_eq_true_eq]
      by_cases hg : g.id ∈ selected
      · simp only [hg, hsub _ hg, not_true_eq_false, ↓reduceIte]
        omega
      · by_cases hg' : g.id ∈ selected' <;> simp only [hg, hg', not_true_eq_false, not_false_eq_true, ↓reduceIte] <;> omega

/-! ### Rows a branch created, and the states that name them -/

def branchCreatedTable : EntityKind → Option String
  | .module => some "modules"
  | .template => some "templates"
  | .page => some "pages"
  | .contentInstance => some "content_instances"
  | .listType => some "list_types"
  | .list => some "lists"
  | .pageType => some "page_types"
  | _ => none

/-- `SELECT 1 FROM … WHERE id = … AND chat_branch_id = …` -/
def DraftDb.hasBranchRow (db : DraftDb) (k : Key) (branchId : Id) : Bool := decide ((k, branchId) ∈ db.branchRows)

/-- True iff the live row exists and was created on `branchId` (not yet merged). -/
def createdOnBranch (db : DraftDb) (k : Key) (branchId : Id) : Bool :=
  (branchCreatedTable k.kind).isSome && db.hasBranchRow k branchId

/-- The row belongs to `id` (its own column or the owning column), or its state names `id` anywhere. -/
def EntityRow.namesRow (r : EntityRow) (id : Id) : Bool :=
  r.column == id || r.owner == some id || r.state.mentions id

/-- Some entity row under the header belongs to `id` or names it. -/
def headerNames (db : DraftDb) (headerId id : Id) : Bool :=
  db.entityRows.any fun r => r.siteSnapshotId == headerId && r.namesRow id

end CaeloCms.Draft
