import CaeloCms.Lists.Patch

/-!
# Patches lose and duplicate nothing

Every patch changes one level of the tree (`Changed`): a patch adds an entry to a level, takes one out, or rewrites
one in place; a move takes an entry out with all that is below it and adds it, as it is, to a level of the tree
without it.  From what a change of one level does to the entries of the tree and to the order of siblings follows
what a run of patches does (`applyListItemPatches_keeps`).
-/

namespace CaeloCms.Lists

/-! ### Changes of one level -/

/-- Whose level a list of siblings is: the root's, or that of the entry with this id. -/
inductive Owner
  | root
  | entry (id : Option String)

/-- `t'` is `t` with one level changed as `P` says. -/
inductive Changed (P : Owner → List ListItemInput → List ListItemInput → Prop) :
    Owner → List ListItemInput → List ListItemInput → Prop
  | here {o : Owner} {t t' : List ListItemInput} (h : P o t t') : Changed P o t t'
  | inside {o : Owner} {l r : List ListItemInput} {it : ListItemInput} {children : List ListItemInput}
      (h : Changed P (.entry it.id) it.children children) :
      Changed P o (l ++ it :: r) (l ++ { it with children := children } :: r)

/-- `x` is added to a level of `owner`. -/
def Inserts (x : ListItemInput) (owner : Owner) (o : Owner) (t t' : List ListItemInput) : Prop :=
  o = owner ∧ ∃ l r, t = l ++ r ∧ t' = l ++ x :: r

/-- `x` is taken out of a level. -/
def TakesOut (x : ListItemInput) (_ : Owner) (t t' : List ListItemInput) : Prop :=
  ∃ l r, t = l ++ x :: r ∧ t' = l ++ r

/-- `x` becomes `y` in its place. -/
def Rewrites (x y : ListItemInput) (_ : Owner) (t t' : List ListItemInput) : Prop :=
  ∃ l r, t = l ++ x :: r ∧ t' = l ++ y :: r

/-- The level `t'` of `o'` is under `path` in the level `t` of `o`. -/
inductive Reach : Owner → List ListItemInput → List Nat → Owner → List ListItemInput → Prop
  | here {o : Owner} {t : List ListItemInput} : Reach o t [] o t
  | down {o o' : Owner} {t t' : List ListItemInput} {i : Nat} {path : List Nat} {it : ListItemInput}
      (hit : t[i]? = some it) (h : Reach (.entry it.id) it.children path o' t') : Reach o t (i :: path) o' t'

variable {t t' l r : List ListItemInput} {u v id at_ : String} {x it : ListItemInput} {i : Nat} {o : Owner}
  {p : ListItemPatch} {path : List Nat}

theorem modify_eq (h : t[i]? = some it)
    (f : ListItemInput → ListItemInput) : t = t.take i ++ it :: t.drop (i + 1) ∧
      t.modify i f = t.take i ++ f it :: t.drop (i + 1) := by
  obtain ⟨hi, rfl⟩ := List.getElem?_eq_some_iff.1 h
  refine ⟨?_, ?_⟩
  · rw [List.cons_getElem_drop_succ, List.take_append_drop]
  · rw [List.modify_eq_take_cons_drop hi]

theorem Reach.changed {P : Owner → List ListItemInput → List ListItemInput → Prop} {o' : Owner}
    (h : Reach o t path o' t') {f : List ListItemInput → List ListItemInput}
    (hf : P o' t' (f t')) : Changed P o t (mapLevel path f t) := by
  induction h with
  | here => exact .here hf
  | @down o o' t t' i path it hit h ih =>
    obtain ⟨hsplit, hmodify⟩ := modify_eq hit fun it => { it with children := mapLevel path f it.children }
    rw [mapLevel, hmodify]
    exact (congrArg (fun t => Changed P o t _) hsplit).mpr (.inside (ih hf))

theorem Reach.snoc {o' : Owner}
    (h : Reach o t path o' t') (hit : t'[i]? = some it) : Reach o t (path ++ [i]) (.entry it.id) it.children := by
  induction h with
  | here => exact .down hit .here
  | down hit' h ih => exact .down hit' (ih hit)

/-- Where `locate` says an entry is. -/
def LocatedIn (o : Owner) (t : List ListItemInput) (hit : Located) : Prop :=
  ∃ o' t', Reach o t hit.path o' t' ∧ t'[hit.index]? = some hit.item

mutual

theorem locateBelow_spec (id : String) (it : ListItemInput) (hit : Located) (h : locateBelow id it = some hit) :
    hit.item.id = some id ∧ LocatedIn (.entry it.id) it.children hit := by
  obtain ⟨id', node, values, children, query⟩ := it
  exact locate_spec id children [] (.entry id') hit h

theorem locate_spec (id : String) (rest pre : List ListItemInput) (o : Owner) (hit : Located)
    (h : locate id pre.length rest = some hit) : hit.item.id = some id ∧ LocatedIn o (pre ++ rest) hit := by
  cases rest with
  | nil => cases h
  | cons it rest =>
    have hget : (pre ++ it :: rest)[pre.length]? = some it := by simp
    unfold locate at h
    split at h
    · rename_i hid
      cases h
      exact ⟨hid, o, _, .here, hget⟩
    · cases hbelow : locateBelow id it with
      | some inner =>
        rw [hbelow, Option.map_some, Option.some_or, Option.some.injEq] at h
        subst h
        obtain ⟨hid, o', t', hreach, hindex⟩ := locateBelow_spec id it inner hbelow
        exact ⟨hid, o', t', .down hget hreach, hindex⟩
      | none =>
        rw [hbelow, Option.map_none, Option.none_or] at h
        have hlength : pre.length + 1 = (pre ++ [it]).length := by simp
        rw [hlength] at h
        have hspec := locate_spec id rest (pre ++ [it]) o hit h
        rwa [List.append_assoc, List.singleton_append] at hspec

end

/-- The entry that a patch of `id` is about. -/
def entryAt (t : List ListItemInput) (id : String) : Option ListItemInput := (locate id 0 t).map Located.item

theorem entryAt_id (h : entryAt t id = some x) :
    x.id = some id := by
  obtain ⟨hit, hlocate, rfl⟩ := Option.map_eq_some_iff.1 h
  exact (locate_spec id t [] .root hit hlocate).1

theorem located {tree : List ListItemInput} {hit : Located}
    (h : locateOrThrow tree id at_ = .ok hit) : entryAt tree id = some hit.item ∧ LocatedIn .root tree hit := by
  unfold locateOrThrow at h
  cases hlocate : locate id 0 tree with
  | none => simp [hlocate] at h
  | some found =>
    simp only [hlocate, Except.ok.injEq] at h
    subst h
    exact ⟨by rw [entryAt, hlocate]; rfl, (locate_spec id tree [] .root found hlocate).2⟩

def ownerOf (parentId : Option String) : Owner :=
  match parentId with
  | none => .root
  | some id => .entry (some id)

theorem levelOf_reach {tree : List ListItemInput} {parentId : Option String}
    (h : levelOf tree parentId at_ = .ok path) : ∃ level, Reach .root tree path (ownerOf parentId) level := by
  unfold levelOf at h
  cases parentId with
  | none =>
    cases h
    exact ⟨tree, .here⟩
  | some id =>
    cases hlocate : locate id 0 tree with
    | none => simp [hlocate] at h
    | some found =>
      simp only [hlocate, Except.ok.injEq] at h
      subst h
      obtain ⟨hid, o, level, hreach, hindex⟩ := locate_spec id tree [] .root found hlocate
      have hsnoc := hreach.snoc hindex
      rw [hid] at hsnoc
      exact ⟨found.item.children, hsnoc⟩

/-! ### What each patch does -/

theorem insertAt_inserts (x : ListItemInput) (position : Option Int) (owner : Owner) (level : List ListItemInput) :
    Inserts x owner owner level (insertAt x position level) :=
  ⟨rfl, _, _, (List.take_append_drop _ level).symm, rfl⟩

theorem eraseIdx_takesOut {level : List ListItemInput}
    (h : level[i]? = some x) : TakesOut x o level (level.eraseIdx i) :=
  ⟨_, _, (modify_eq h id).1, List.eraseIdx_eq_take_drop_succ level i⟩

theorem set_rewrites {y : ListItemInput} {level : List ListItemInput}
    (h : level[i]? = some x) : Rewrites x y o level (level.set i y) := by
  refine ⟨_, _, (modify_eq h id).1, ?_⟩
  obtain ⟨hi, -⟩ := List.getElem?_eq_some_iff.1 h
  rw [List.set_eq_take_append_cons_drop, if_pos hi]

/-- A move takes an entry out and puts it, as it is, into a level of the tree without it. -/
structure Moves (itemId : String) (parentId : Option String) (x : ListItemInput) (t t' : List ListItemInput) : Prop where
  entry : entryAt t itemId = some x
  outside : movesIntoItself itemId parentId x = false
  through : ∃ t₀, Changed (TakesOut x) .root t t₀ ∧ Changed (Inserts x (ownerOf parentId)) .root t₀ t'

def Does (t t' : List ListItemInput) : ListItemPatch → Prop
  | .add parentId _ item => Changed (Inserts item (ownerOf parentId)) .root t t'
  | .update itemId values query =>
    ∃ x, entryAt t itemId = some x ∧ Changed (Rewrites x (updated values query x)) .root t t'
  | .move itemId parentId _ => ∃ x, Moves itemId parentId x t t'
  | .remove itemId => ∃ x, entryAt t itemId = some x ∧ Changed (TakesOut x) .root t t'

theorem applyPatch_does
    (h : applyPatch t p at_ = .ok t') : Does t t' p := by
  have bind_ok : ∀ {α β : Type} {x : Except ListPatchError α} {f : α → Except ListPatchError β} {b : β},
      (x >>= f) = .ok b → ∃ a, x = .ok a ∧ f a = .ok b := by
    intro α β x f b hx
    cases x with
    | error e => cases hx
    | ok a => exact ⟨a, rfl, hx⟩
  cases p with
  | add parentId position item =>
    obtain ⟨path, hlevel, hok⟩ := bind_ok h
    cases hok
    obtain ⟨level, hreach⟩ := levelOf_reach hlevel
    exact hreach.changed (insertAt_inserts item position _ level)
  | update itemId values query =>
    obtain ⟨hit, hhit, hok⟩ := bind_ok h
    cases hok
    obtain ⟨hid, o, level, hreach, hindex⟩ := located hhit
    exact ⟨hit.item, hid, hreach.changed (set_rewrites hindex)⟩
  | move itemId parentId position =>
    obtain ⟨hit, hhit, hok⟩ := bind_ok h
    obtain ⟨hid, o, level, hreach, hindex⟩ := located hhit
    dsimp only at hok
    split at hok
    · cases hok
    · rename_i houtside
      obtain ⟨path, hlevel, hok⟩ := bind_ok hok
      cases hok
      obtain ⟨level', hreach'⟩ := levelOf_reach hlevel
      have hout := hreach.changed (f := fun level => level.eraseIdx hit.index) (eraseIdx_takesOut hindex)
      refine ⟨hit.item, hid, by simpa using houtside, _, hout, ?_⟩
      exact hreach'.changed (insertAt_inserts hit.item (some position) _ level')
  | remove itemId =>
    obtain ⟨hit, hhit, hok⟩ := bind_ok h
    cases hok
    obtain ⟨hid, o, level, hreach, hindex⟩ := located hhit
    exact ⟨hit.item, hid, hreach.changed (eraseIdx_takesOut hindex)⟩

/-! ### The entries of a tree -/

mutual

/-- An entry and the entries below it, each without its children. -/
def ownEntry : ListItemInput → List ListItemInput
  | ⟨id, node, values, children, query⟩ => ⟨id, node, values, [], query⟩ :: ownEntries children

def ownEntries : List ListItemInput → List ListItemInput
  | [] => []
  | it :: rest => ownEntry it ++ ownEntries rest

end

def entries (t : List ListItemInput) : Multiset ListItemInput := ownEntries t

/-- The ids of some entries; an entry that is still to get one has none. -/
def idsOf (s : Multiset ListItemInput) : Multiset String := s.filterMap fun e => e.id

def treeIds (t : List ListItemInput) : Multiset String := idsOf (entries t)

theorem idsOf_add (s s' : Multiset ListItemInput) : idsOf (s + s') = idsOf s + idsOf s' := Multiset.filterMap_add _ _ _

theorem ownEntries_append (l r : List ListItemInput) : ownEntries (l ++ r) = ownEntries l ++ ownEntries r := by
  induction l with
  | nil => rfl
  | cons it l ih =>
    rw [List.cons_append, ownEntries, ownEntries, ih, List.append_assoc]

theorem entries_append (l r : List ListItemInput) : entries (l ++ r) = entries l + entries r := by
  unfold entries
  rw [ownEntries_append, Multiset.coe_add]

def own (it : ListItemInput) : ListItemInput := { it with children := [] }

theorem entries_singleton (it : ListItemInput) : entries [it] = {own it} + entries it.children := by
  obtain ⟨id, node, values, children, query⟩ := it
  unfold entries
  rw [ownEntries, ownEntry, ownEntries, List.append_nil]
  rfl

theorem entries_split (l r : List ListItemInput) (it : ListItemInput) :
    entries (l ++ it :: r) = entries l + entries [it] + entries r := by
  have hsplit : l ++ it :: r = l ++ [it] ++ r := by simp
  rw [hsplit, entries_append, entries_append]

section Changed

variable {P : Owner → List ListItemInput → List ListItemInput → Prop} {o : Owner} {t t' : List ListItemInput}

/-- What a change of a level adds and takes away it adds to and takes away from the tree. -/
theorem Changed.entries_eq (lost new : Multiset ListItemInput) (h : Changed P o t t')
    (hP : ∀ o t t', P o t t' → entries t' + lost = entries t + new) : entries t' + lost = entries t + new := by
  induction h with
  | here h => exact hP _ _ _ h
  | @inside o l r it children h ih =>
    have hown : own { it with children := children } = own it := rfl
    rw [entries_split, entries_split, entries_singleton, entries_singleton, hown]
    calc entries l + ({own it} + entries children) + entries r + lost
        = entries l + {own it} + entries r + (entries children + lost) := by abel
      _ = entries l + {own it} + entries r + (entries it.children + new) := by rw [ih]
      _ = entries l + ({own it} + entries it.children) + entries r + new := by abel

theorem entries_inserts {x : ListItemInput} {owner : Owner} (h : Changed (Inserts x owner) o t t') :
    entries t' = entries t + entries [x] := by
  have hall := h.entries_eq 0 (entries [x]) ?_
  · simpa using hall
  · rintro o t t' ⟨-, l, r, rfl, rfl⟩
    rw [entries_split, entries_append]
    abel

theorem entries_takesOut {x : ListItemInput} (h : Changed (TakesOut x) o t t') :
    entries t' + entries [x] = entries t := by
  have hall := h.entries_eq (entries [x]) 0 ?_
  · simpa using hall
  · rintro o t t' ⟨l, r, rfl, rfl⟩
    rw [entries_split, entries_append]
    abel

theorem entries_rewrites {x y : ListItemInput} (hchildren : y.children = x.children)
    (h : Changed (Rewrites x y) o t t') : entries t' + {own x} = entries t + {own y} := by
  refine h.entries_eq _ _ ?_
  rintro o t t' ⟨l, r, rfl, rfl⟩
  rw [entries_split, entries_split, entries_singleton, entries_singleton, hchildren]
  abel

end Changed

/-! ### Siblings -/

/-- `u` stands before `v` among these siblings. -/
def StandsBefore (u v : String) (level : List ListItemInput) : Prop :=
  [some u, some v].Sublist (level.map fun it => it.id)

mutual

/-- `u` stands before `v` in a level below the entry. -/
def BeforeIn (u v : String) : ListItemInput → Prop
  | ⟨_, _, _, children, _⟩ => StandsBefore u v children ∨ BeforeBelow u v children

/-- `u` stands before `v` in a level below one of the entries. -/
def BeforeBelow (u v : String) : List ListItemInput → Prop
  | [] => False
  | it :: rest => BeforeIn u v it ∨ BeforeBelow u v rest

end

/-- `u` and `v` are siblings in the tree, `u` before `v`. -/
def Before (u v : String) (t : List ListItemInput) : Prop := StandsBefore u v t ∨ BeforeBelow u v t

theorem beforeIn_iff : BeforeIn u v it ↔ Before u v it.children := by
  obtain ⟨id, node, values, children, query⟩ := it
  rw [BeforeIn]
  rfl

theorem beforeBelow_append :
    BeforeBelow u v (l ++ r) ↔ BeforeBelow u v l ∨ BeforeBelow u v r := by
  induction l with
  | nil => simp [BeforeBelow]
  | cons it l ih => rw [List.cons_append, BeforeBelow, BeforeBelow, ih, or_assoc]

theorem before_append :
    Before u v (l ++ r) ↔ StandsBefore u v (l ++ r) ∨ BeforeBelow u v l ∨ BeforeBelow u v r := by
  unfold Before
  rw [beforeBelow_append]

theorem before_split :
    Before u v (l ++ it :: r) ↔ StandsBefore u v (l ++ it :: r) ∨ BeforeBelow u v l ∨
      Before u v it.children ∨ BeforeBelow u v r := by
  unfold Before
  rw [beforeBelow_append, BeforeBelow, beforeIn_iff]
  rfl

theorem standsBefore_insert (hu : x.id ≠ some u)
    (hv : x.id ≠ some v) : StandsBefore u v (l ++ x :: r) ↔ StandsBefore u v (l ++ r) := by
  unfold StandsBefore
  rw [List.map_append, List.map_append, List.map_cons]
  constructor
  · intro h
    have hfilter := h.filter fun id => id != x.id
    have hkeep : [some u, some v].filter (fun id => id != x.id) = [some u, some v] := by
      simp [hu.symm, hv.symm]
    rw [hkeep, List.filter_append, List.filter_cons_of_neg (by simp), ← List.filter_append] at hfilter
    exact hfilter.trans List.filter_sublist
  · intro h
    exact h.trans ((List.Sublist.refl _).append (List.sublist_cons_self _ _))

section Changed

variable {P : Owner → List ListItemInput → List ListItemInput → Prop} {o : Owner} {t t' : List ListItemInput}
  {u v : String}

/-- What a change of a level adds to the order of siblings and takes away from it, it does so in the tree. -/
theorem Changed.before_iff (lost new : Prop) (h : Changed P o t t')
    (hP : ∀ o t t', P o t t' → (Before u v t' ∨ lost ↔ Before u v t ∨ new)) :
    Before u v t' ∨ lost ↔ Before u v t ∨ new := by
  induction h with
  | here h => exact hP _ _ _ h
  | @inside o l r it children h ih =>
    have hsame : StandsBefore u v (l ++ { it with children := children } :: r) ↔ StandsBefore u v (l ++ it :: r) := by
      unfold StandsBefore
      simp
    rw [before_split, before_split, hsame]
    tauto

theorem before_inserts {x : ListItemInput} {owner : Owner} (hu : x.id ≠ some u) (hv : x.id ≠ some v)
    (h : Changed (Inserts x owner) o t t') : Before u v t' ↔ Before u v t ∨ Before u v x.children := by
  have hall := h.before_iff (u := u) (v := v) False (Before u v x.children) ?_
  · rwa [or_false] at hall
  · rintro o t t' ⟨-, l, r, rfl, rfl⟩
    rw [before_split, standsBefore_insert hu hv, before_append]
    tauto

theorem before_takesOut {x : ListItemInput} (hu : x.id ≠ some u) (hv : x.id ≠ some v)
    (h : Changed (TakesOut x) o t t') : Before u v t ↔ Before u v t' ∨ Before u v x.children := by
  have hall := h.before_iff (u := u) (v := v) (Before u v x.children) False ?_
  · rw [or_false] at hall
    exact hall.symm
  · rintro o t t' ⟨l, r, rfl, rfl⟩
    rw [before_split, standsBefore_insert hu hv, before_append]
    tauto

theorem before_rewrites {x y : ListItemInput} (hid : y.id = x.id) (hchildren : y.children = x.children)
    (h : Changed (Rewrites x y) o t t') : Before u v t' ↔ Before u v t := by
  have hall := h.before_iff (u := u) (v := v) False False ?_
  · rwa [or_false, or_false] at hall
  · rintro o t t' ⟨l, r, rfl, rfl⟩
    have hsame : StandsBefore u v (l ++ y :: r) ↔ StandsBefore u v (l ++ x :: r) := by
      unfold StandsBefore
      simp [hid]
    rw [before_split, before_split, hsame, hchildren]

end Changed

/-! ### What a patch loses and adds -/

def removedBy (t : List ListItemInput) : ListItemPatch → Multiset ListItemInput
  | .remove itemId => entries (entryAt t itemId).toList
  | .add _ _ _ | .update _ _ _ | .move _ _ _ => 0

def insertedBy : ListItemPatch → Multiset ListItemInput
  | .add _ _ item => entries [item]
  | .update _ _ _ | .move _ _ _ | .remove _ => 0

/-- The ids a patch names: of the entry it is about, or of the entries it inserts. -/
def named : ListItemPatch → Multiset String
  | .add _ _ item => treeIds [item]
  | .update itemId _ _ => {itemId}
  | .move itemId _ _ => {itemId}
  | .remove itemId => {itemId}

def Unnamed (names : Multiset String) (e : ListItemInput) : Prop := ∃ u, e.id = some u ∧ u ∉ names

section Step

variable {t t' : List ListItemInput} {p : ListItemPatch}

theorem id_mem_idsOf {e : ListItemInput} {s : Multiset ListItemInput} {u : String} (he : e ∈ s) (hu : e.id = some u) :
    u ∈ idsOf s :=
  (Multiset.mem_filterMap (fun e : ListItemInput => e.id) s).2 ⟨e, he, hu⟩

theorem idsOf_zero : idsOf 0 = 0 := rfl

theorem idsOf_own (x : ListItemInput) : idsOf {own x} = (x.id.map singleton).getD 0 := by
  unfold idsOf
  rw [← Multiset.cons_zero, Multiset.filterMap_cons, Multiset.filterMap_zero, add_zero]
  rfl

theorem removedBy_remove {itemId : String} {x : ListItemInput} (hx : entryAt t itemId = some x) :
    removedBy t (.remove itemId) = entries [x] := by
  simp [removedBy, hx]

/-- The ids a patch leaves are those of the tree, less those it removes, and those it inserts. -/
theorem Does.treeIds_eq (h : Does t t' p) :
    treeIds t' + idsOf (removedBy t p) = treeIds t + idsOf (insertedBy p) := by
  unfold treeIds
  cases p with
  | add parentId position item =>
    rw [entries_inserts h, idsOf_add]
    exact add_zero _
  | update itemId values query =>
    obtain ⟨x, hx, hchanged⟩ := h
    have hsame : idsOf {own (updated values query x)} = idsOf {own x} := by
      rw [idsOf_own, idsOf_own]
      rfl
    have hentries := congrArg idsOf (entries_rewrites (x := x) (y := updated values query x) rfl hchanged)
    rw [idsOf_add, idsOf_add, hsame] at hentries
    rw [add_right_cancel hentries]
    rfl
  | move itemId parentId position =>
    obtain ⟨x, -, -, t₀, hout, hin⟩ := h
    rw [entries_inserts hin, entries_takesOut hout]
    rfl
  | remove itemId =>
    obtain ⟨x, hx, hout⟩ := h
    rw [← entries_takesOut hout, idsOf_add, removedBy_remove hx]
    exact (add_zero _).symm

open scoped Classical in
/-- A patch keeps the entries it does not name, those apart that it removes. -/
theorem Does.unnamed_eq (h : Does t t' p) {names : Multiset String} (hnames : named p ⊆ names) :
    (entries t').filter (Unnamed names) + (removedBy t p).filter (Unnamed names) =
      (entries t).filter (Unnamed names) := by
  have hnone : ∀ s : Multiset ListItemInput, idsOf s ⊆ names → s.filter (Unnamed names) = 0 := by
    intro s hs
    rw [Multiset.filter_eq_nil]
    rintro e he ⟨u, hu, hnew⟩
    exact hnew (hs (id_mem_idsOf he hu))
  cases p with
  | add parentId position item =>
    rw [entries_inserts h, Multiset.filter_add, hnone (entries [item]) hnames]
    simp [removedBy]
  | update itemId values query =>
    obtain ⟨x, hx, hchanged⟩ := h
    have hself : ∀ y : ListItemInput, y.id = some itemId → Multiset.filter (Unnamed names) {own y} = 0 := by
      intro y hy
      apply hnone
      rw [idsOf_own, hy]
      exact hnames
    have hentries := congrArg (Multiset.filter (Unnamed names))
      (entries_rewrites (x := x) (y := updated values query x) rfl hchanged)
    have hx' : (updated values query x).id = some itemId := by
      rw [← entryAt_id hx]
      rfl
    rw [Multiset.filter_add, Multiset.filter_add, hself x (entryAt_id hx), hself _ hx', add_zero, add_zero] at hentries
    rw [hentries]
    simp [removedBy]
  | move itemId parentId position =>
    obtain ⟨x, -, -, t₀, hout, hin⟩ := h
    rw [entries_inserts hin, entries_takesOut hout]
    simp [removedBy]
  | remove itemId =>
    obtain ⟨x, hx, hout⟩ := h
    rw [← entries_takesOut hout, Multiset.filter_add, removedBy_remove hx]

end Step

theorem treeIds_cons (it : ListItemInput) (rest : List ListItemInput) :
    treeIds (it :: rest) = idsOf {own it} + treeIds it.children + treeIds rest := by
  have hsplit := entries_split [] rest it
  rw [List.nil_append] at hsplit
  unfold treeIds
  rw [hsplit, entries_singleton, idsOf_add, idsOf_add, idsOf_add]
  exact congrArg (· + _) (zero_add _)

theorem mem_treeIds_of_id (h : some u ∈ t.map fun it => it.id) :
    u ∈ treeIds t := by
  induction t with
  | nil => cases h
  | cons it rest ih =>
    rw [treeIds_cons, Multiset.mem_add, Multiset.mem_add]
    rcases List.mem_cons.1 h with hself | h
    · have hid : it.id = some u := hself.symm
      refine .inl (.inl ?_)
      rw [idsOf_own, hid]
      exact Multiset.mem_singleton_self u
    · exact .inr (ih h)

theorem mem_treeIds_of_standsBefore (h : StandsBefore u v t) :
    u ∈ treeIds t ∧ v ∈ treeIds t :=
  ⟨mem_treeIds_of_id (h.subset (by simp)), mem_treeIds_of_id (h.subset (by simp))⟩

mutual

theorem mem_treeIds_of_beforeIn {u v : String} (it : ListItemInput) (h : BeforeIn u v it) :
    u ∈ treeIds it.children ∧ v ∈ treeIds it.children := by
  obtain ⟨id, node, values, children, query⟩ := it
  rw [BeforeIn] at h
  rcases h with h | h
  · exact mem_treeIds_of_standsBefore h
  · exact mem_treeIds_of_beforeBelow children h

theorem mem_treeIds_of_beforeBelow {u v : String} (t : List ListItemInput) (h : BeforeBelow u v t) :
    u ∈ treeIds t ∧ v ∈ treeIds t := by
  cases t with
  | nil => cases h
  | cons it rest =>
    rw [BeforeBelow] at h
    rw [treeIds_cons, Multiset.mem_add, Multiset.mem_add, Multiset.mem_add, Multiset.mem_add]
    rcases h with h | h
    · obtain ⟨hu, hv⟩ := mem_treeIds_of_beforeIn it h
      exact ⟨.inl (.inr hu), .inl (.inr hv)⟩
    · obtain ⟨hu, hv⟩ := mem_treeIds_of_beforeBelow rest h
      exact ⟨.inr hu, .inr hv⟩

end

theorem mem_treeIds_of_before (h : Before u v t) :
    u ∈ treeIds t ∧ v ∈ treeIds t :=
  h.elim mem_treeIds_of_standsBefore (mem_treeIds_of_beforeBelow t)

/-- Of two siblings that a patch does not name, it keeps the order, unless it removes them. -/
theorem Does.before_iff (h : Does t t' p)
    (hu : u ∉ named p) (hv : v ∉ named p) :
    (Before u v t' → Before u v t) ∧ (Before u v t → Before u v t' ∨ u ∈ idsOf (removedBy t p)) := by
  have hne : ∀ {itemId w : String} {x : ListItemInput}, entryAt t itemId = some x → w ∉ ({itemId} : Multiset String) →
      x.id ≠ some w := by
    intro itemId w x hx hw heq
    rw [entryAt_id hx] at heq
    cases heq
    exact hw (Multiset.mem_singleton_self _)
  cases p with
  | add parentId position item =>
    have hout : ∀ w ∉ treeIds [item], item.id ≠ some w := by
      intro w hw heq
      exact hw (mem_treeIds_of_id (by simp [heq]))
    rw [before_inserts (hout u hu) (hout v hv) h]
    refine ⟨?_, fun h => .inl (.inl h)⟩
    rintro (h | h)
    · exact h
    · refine absurd (mem_treeIds_of_before h).1 fun hmem => hu ?_
      show u ∈ treeIds [item]
      rw [treeIds_cons]
      exact Multiset.mem_add.2 (.inl (Multiset.mem_add.2 (.inr hmem)))
  | update itemId values query =>
    obtain ⟨x, hx, hchanged⟩ := h
    rw [before_rewrites (x := x) (y := updated values query x) rfl rfl hchanged]
    exact ⟨id, .inl⟩
  | move itemId parentId position =>
    obtain ⟨x, hx, -, t₀, hout, hin⟩ := h
    rw [before_inserts (hne hx hu) (hne hx hv) hin, before_takesOut (hne hx hu) (hne hx hv) hout]
    exact ⟨id, .inl⟩
  | remove itemId =>
    obtain ⟨x, hx, hout⟩ := h
    rw [before_takesOut (hne hx hu) (hne hx hv) hout, removedBy_remove hx]
    refine ⟨.inl, ?_⟩
    rintro (h | h)
    · exact .inl h
    · refine .inr ?_
      show u ∈ treeIds [x]
      rw [treeIds_cons]
      exact Multiset.mem_add.2 (.inl (Multiset.mem_add.2 (.inr (mem_treeIds_of_before h).1)))

/-! ### Moves -/

mutual

theorem locateBelow_eq_none {id : String} (it : ListItemInput) (h : id ∉ treeIds it.children) :
    locateBelow id it = none := by
  obtain ⟨id', node, values, children, query⟩ := it
  exact locate_eq_none children 0 h

theorem locate_eq_none {id : String} (t : List ListItemInput) (i : Nat) (h : id ∉ treeIds t) :
    locate id i t = none := by
  cases t with
  | nil => rfl
  | cons it rest =>
    rw [treeIds_cons, Multiset.mem_add, Multiset.mem_add, not_or, not_or] at h
    obtain ⟨⟨hself, hbelow⟩, hrest⟩ := h
    have hid : it.id ≠ some id := by
      intro heq
      rw [idsOf_own, heq] at hself
      exact hself (Multiset.mem_singleton_self _)
    unfold locate
    rw [if_neg hid, locateBelow_eq_none it hbelow, locate_eq_none rest (i + 1) hrest]
    rfl

end

/-- Entries that the id is neither of nor below are passed over. -/
theorem locate_append (l r : List ListItemInput) (i : Nat) (h : id ∉ treeIds l) :
    locate id i (l ++ r) = locate id (i + l.length) r := by
  induction l generalizing i with
  | nil => rfl
  | cons it l ih =>
    rw [treeIds_cons, Multiset.mem_add, Multiset.mem_add, not_or, not_or] at h
    obtain ⟨⟨hself, hbelow⟩, hrest⟩ := h
    have hid : it.id ≠ some id := by
      intro heq
      rw [idsOf_own, heq] at hself
      exact hself (Multiset.mem_singleton_self _)
    rw [List.cons_append, locate, if_neg hid, locateBelow_eq_none it hbelow, ih (i + 1) hrest, List.length_cons]
    show locate id (i + 1 + l.length) r = locate id (i + (l.length + 1)) r
    rw [Nat.add_right_comm, Nat.add_assoc]

/-- An entry that was added is found where no other entry has its id. -/
theorem locate_inserted {owner : Owner}
    (h : Changed (Inserts x owner) o t t') (hid : x.id = some id) (hnew : id ∉ treeIds t) (i : Nat) :
    (locate id i t').map Located.item = some x := by
  induction h generalizing i with
  | here h =>
    obtain ⟨-, l, r, rfl, rfl⟩ := h
    have hl : id ∉ treeIds l := by
      intro hmem
      unfold treeIds at hnew hmem
      rw [entries_append, idsOf_add] at hnew
      exact hnew (Multiset.mem_add.2 (.inl hmem))
    rw [locate_append l _ i hl, locate, if_pos hid]
    rfl
  | @inside o l r it children h ih =>
    unfold treeIds at hnew
    rw [entries_split, idsOf_add, idsOf_add, Multiset.mem_add, Multiset.mem_add, not_or, not_or] at hnew
    obtain ⟨⟨hl, hit⟩, -⟩ := hnew
    rw [entries_singleton, idsOf_add, Multiset.mem_add, not_or] at hit
    have hself : it.id ≠ some id := by
      intro heq
      rw [idsOf_own, heq] at hit
      exact hit.1 (Multiset.mem_singleton_self _)
    have hfound := ih hit.2 0
    obtain ⟨hit', hlocate, hitem⟩ := Option.map_eq_some_iff.1 hfound
    have hbelow : locateBelow id { it with children := children } = some hit' := by
      rw [locateBelow]
      exact hlocate
    rw [locate_append l _ i hl, locate, if_neg hself, hbelow]
    exact congrArg some hitem

theorem owner_mem {p : String}
    (h : Changed (Inserts x (.entry (some p))) o t t') : o = .entry (some p) ∨ p ∈ treeIds t := by
  induction h with
  | here h => exact .inl h.1
  | @inside o l r it children h ih =>
    refine .inr ?_
    unfold treeIds
    rw [entries_split, entries_singleton, idsOf_add, idsOf_add, idsOf_add, Multiset.mem_add, Multiset.mem_add,
      Multiset.mem_add]
    refine .inl (.inr ?_)
    rcases ih with heq | hmem
    · have hid : it.id = some p := by simpa using heq
      refine .inl ?_
      rw [idsOf_own, hid]
      exact Multiset.mem_singleton_self _
    · exact .inr hmem

/-- In a tree with distinct ids a moved entry is found again as it was, and it was not moved below itself. -/
theorem Moves.kept {itemId : String} {parentId : Option String}
    (h : Moves itemId parentId x t t') (hdistinct : (treeIds t).Nodup) :
    entryAt t' itemId = some x ∧ ∀ p, parentId = some p → p ∉ treeIds [x] := by
  obtain ⟨hentry, -, t₀, hout, hin⟩ := h
  have hids : treeIds t = treeIds t₀ + treeIds [x] := by
    unfold treeIds
    rw [← entries_takesOut hout, idsOf_add]
  rw [hids, Multiset.nodup_add, Multiset.disjoint_left] at hdistinct
  obtain ⟨-, -, hdisjoint⟩ := hdistinct
  constructor
  · refine locate_inserted hin (entryAt_id hentry) ?_ 0
    intro hmem
    refine hdisjoint hmem (mem_treeIds_of_id ?_)
    simp [entryAt_id hentry]
  · rintro p rfl hp
    rcases owner_mem hin with heq | hmem
    · cases heq
    · exact hdisjoint hmem hp

/-! ### Runs -/

/-- The entries that a run of patches removes, from the `i`th patch on. -/
def removedIn (i : Nat) (t : List ListItemInput) : List ListItemPatch → Multiset ListItemInput
  | [] => 0
  | p :: patches =>
    removedBy t p +
      match applyPatch t p s!"patches[{i}]" with
      | .error _ => 0
      | .ok next => removedIn (i + 1) next patches

def insertedIn (patches : List ListItemPatch) : Multiset ListItemInput := (patches.map insertedBy).sum

def namedIn (patches : List ListItemPatch) : Multiset String := (patches.map named).sum

/-- Every entry that is added brings ids that are distinct and not in the tree it is added to. -/
def FreshAdds (i : Nat) (t : List ListItemInput) : List ListItemPatch → Prop
  | [] => True
  | p :: patches =>
    (treeIds t + idsOf (insertedBy p)).Nodup ∧
      ∀ next, applyPatch t p s!"patches[{i}]" = .ok next → FreshAdds (i + 1) next patches

theorem inserted_named (patches : List ListItemPatch) : idsOf (insertedIn patches) ⊆ namedIn patches := by
  induction patches with
  | nil => exact Multiset.Subset.refl _
  | cons p patches ih =>
    intro u hu
    have hinserted : insertedIn (p :: patches) = insertedBy p + insertedIn patches := by simp [insertedIn]
    have hnamed : namedIn (p :: patches) = named p + namedIn patches := by simp [namedIn]
    rw [hinserted, idsOf_add, Multiset.mem_add] at hu
    rw [hnamed, Multiset.mem_add]
    rcases hu with hu | hu
    · refine .inl ?_
      cases p with
      | add parentId position item => exact hu
      | update itemId values query => cases hu
      | move itemId parentId position => cases hu
      | remove itemId => cases hu
    · exact .inr (ih hu)

theorem applyFrom_cons {patches : List ListItemPatch}
    (h : applyFrom i t (p :: patches) = .ok t') :
    ∃ next, applyPatch t p s!"patches[{i}]" = .ok next ∧ applyFrom (i + 1) next patches = .ok t' := by
  rw [applyFrom] at h
  cases hnext : applyPatch t p s!"patches[{i}]" with
  | error e =>
    rw [hnext] at h
    cases h
  | ok next =>
    rw [hnext] at h
    exact ⟨next, rfl, h⟩

theorem removedIn_cons {next : List ListItemInput} {patches : List ListItemPatch}
    (h : applyPatch t p s!"patches[{i}]" = .ok next) :
    removedIn i t (p :: patches) = removedBy t p + removedIn (i + 1) next patches := by
  rw [removedIn, h]

section Run

variable {i : Nat} {t t' : List ListItemInput} {patches : List ListItemPatch}

theorem run_treeIds (h : applyFrom i t patches = .ok t') :
    treeIds t' + idsOf (removedIn i t patches) = treeIds t + idsOf (insertedIn patches) := by
  induction patches generalizing i t with
  | nil =>
    cases h
    rfl
  | cons p patches ih =>
    obtain ⟨next, hnext, hrest⟩ := applyFrom_cons h
    have hstep := (applyPatch_does hnext).treeIds_eq
    have hinserted : insertedIn (p :: patches) = insertedBy p + insertedIn patches := by
      simp [insertedIn]
    rw [removedIn_cons hnext, hinserted, idsOf_add, idsOf_add]
    calc treeIds t' + (idsOf (removedBy t p) + idsOf (removedIn (i + 1) next patches))
        = (treeIds t' + idsOf (removedIn (i + 1) next patches)) + idsOf (removedBy t p) := by abel
      _ = (treeIds next + idsOf (insertedIn patches)) + idsOf (removedBy t p) := by rw [ih hrest]
      _ = (treeIds next + idsOf (removedBy t p)) + idsOf (insertedIn patches) := by abel
      _ = treeIds t + (idsOf (insertedBy p) + idsOf (insertedIn patches)) := by rw [hstep, add_assoc]

theorem run_distinct (h : applyFrom i t patches = .ok t') (hdistinct : (treeIds t).Nodup)
    (hfresh : FreshAdds i t patches) : (treeIds t').Nodup := by
  induction patches generalizing i t with
  | nil =>
    cases h
    exact hdistinct
  | cons p patches ih =>
    obtain ⟨next, hnext, hrest⟩ := applyFrom_cons h
    obtain ⟨hnew, hfresh⟩ := hfresh
    rw [← (applyPatch_does hnext).treeIds_eq, Multiset.nodup_add] at hnew
    exact ih hrest hnew.1 (hfresh next hnext)

open scoped Classical in
theorem run_unnamed {names : Multiset String} (h : applyFrom i t patches = .ok t') (hnames : namedIn patches ⊆ names) :
    (entries t').filter (Unnamed names) + (removedIn i t patches).filter (Unnamed names) =
      (entries t).filter (Unnamed names) := by
  induction patches generalizing i t with
  | nil =>
    cases h
    simp [removedIn]
  | cons p patches ih =>
    obtain ⟨next, hnext, hrest⟩ := applyFrom_cons h
    have hsum : namedIn (p :: patches) = named p + namedIn patches := by simp [namedIn]
    rw [hsum] at hnames
    have hstep := (applyPatch_does hnext).unnamed_eq fun u hu => hnames (Multiset.mem_add.2 (.inl hu))
    have hothers := ih hrest fun u hu => hnames (Multiset.mem_add.2 (.inr hu))
    rw [removedIn_cons hnext, Multiset.filter_add, ← hstep, ← hothers]
    abel

theorem run_before {u v : String} (h : applyFrom i t patches = .ok t') (hu : u ∉ namedIn patches)
    (hv : v ∉ namedIn patches) :
    (Before u v t' → Before u v t) ∧ (Before u v t → Before u v t' ∨ u ∈ idsOf (removedIn i t patches)) := by
  induction patches generalizing i t with
  | nil =>
    cases h
    exact ⟨id, .inl⟩
  | cons p patches ih =>
    obtain ⟨next, hnext, hrest⟩ := applyFrom_cons h
    have hsum : namedIn (p :: patches) = named p + namedIn patches := by simp [namedIn]
    rw [hsum, Multiset.mem_add, not_or] at hu hv
    obtain ⟨hback, hforth⟩ := (applyPatch_does hnext).before_iff hu.1 hv.1
    obtain ⟨hback', hforth'⟩ := ih hrest hu.2 hv.2
    rw [removedIn_cons hnext, idsOf_add, Multiset.mem_add]
    refine ⟨fun h => hback (hback' h), ?_⟩
    intro h
    rcases hforth h with h | h
    · rcases hforth' h with h | h
      · exact .inl h
      · exact .inr (.inr h)
    · exact .inr (.inl h)

end Run

/-! ### The result -/

open scoped Classical in
structure Keeps (t : List ListItemInput) (patches : List ListItemPatch) (t' : List ListItemInput) : Prop where
  /-- The ids are the old ones less those of removed subtrees and those inserted, each as often as it occurs. -/
  ids : treeIds t' + idsOf (removedIn 0 t patches) = treeIds t + idsOf (insertedIn patches)
  distinct : FreshAdds 0 t patches → (treeIds t').Nodup
  /-- A moved entry is taken out and put back as it is, and with distinct ids never below itself. -/
  moved : ∀ before itemId parentId position after t₁ t₂ at_,
    patches = before ++ .move itemId parentId position :: after → applyFrom 0 t before = .ok t₁ →
    applyPatch t₁ (.move itemId parentId position) at_ = .ok t₂ →
    ∃ x, Moves itemId parentId x t₁ t₂ ∧
      ((treeIds t₁).Nodup → entryAt t₂ itemId = some x ∧ ∀ p, parentId = some p → p ∉ treeIds [x])
  /-- An entry that no patch names is as it was, or in a removed subtree. -/
  unnamed : (entries t').filter (Unnamed (namedIn patches)) +
      (removedIn 0 t patches).filter (Unnamed (namedIn patches)) = (entries t).filter (Unnamed (namedIn patches))
  order : ∀ u v, u ∉ namedIn patches → v ∉ namedIn patches → u ∈ treeIds t' → (Before u v t' ↔ Before u v t)

/-- Patches of a tree with distinct ids lose nothing but what they remove and add nothing but what they insert. -/
theorem applyListItemPatches_keeps (items : List ListItem) (patches : List ListItemPatch) (t' : List ListItemInput)
    (hdistinct : (treeIds (asInputs items)).Nodup) (h : applyListItemPatches items patches = .ok t') :
    Keeps (asInputs items) patches t' := by
  refine ⟨run_treeIds h, run_distinct h hdistinct, ?_, run_unnamed h (Multiset.Subset.refl _), ?_⟩
  · intro before itemId parentId position after t₁ t₂ at_ _ _ hmove
    obtain ⟨x, hx⟩ := applyPatch_does hmove
    exact ⟨x, hx, hx.kept⟩
  · intro u v hu hv hmem
    obtain ⟨hback, hforth⟩ := run_before h hu hv
    refine ⟨hback, fun hbefore => (hforth hbefore).resolve_right ?_⟩
    -- `u` occurs once in the tree and is inserted nowhere, so what is kept is not removed
    intro hremoved
    have hcount := congrArg (Multiset.count u) (run_treeIds h)
    have hinserted : u ∉ idsOf (insertedIn patches) := fun hmem => hu (inserted_named patches hmem)
    rw [Multiset.count_add, Multiset.count_add, Multiset.count_eq_zero.2 hinserted] at hcount
    have hone := Multiset.nodup_iff_count_le_one.1 hdistinct u
    have hkept := Multiset.count_pos.2 hmem
    have hgone : 0 < Multiset.count u (idsOf (removedIn 0 (asInputs items) patches)) := Multiset.count_pos.2 hremoved
    omega

/-! ### A column of links -/

def companyId : String := "0b6c2a5e-3f41-4d7a-8e90-1c2d3e4f5a6b"
def careersId : String := "7d1f4a52-0c3b-4e68-9a1d-5b2f8c7e6a01"

/-- Careers before Company. -/
def footerItems : List ListItem :=
  [⟨careersId, "link", [("label", .str "Careers")], [], none⟩, ⟨companyId, "column", [("label", .str "Company")], [], none⟩]

/-- Careers moves below Company. -/
theorem applyListItemPatches_keeps_footer :
    (treeIds (asInputs footerItems)).Nodup ∧
      ∃ t', applyListItemPatches footerItems [.move careersId (some companyId) 0] = .ok t' ∧
        Keeps (asInputs footerItems) [.move careersId (some companyId) 0] t' := by
  have hdistinct : (treeIds (asInputs footerItems)).Nodup := by decide
  have hok : applyListItemPatches footerItems [.move careersId (some companyId) 0] =
      .ok [⟨some companyId, "column", [("label", .str "Company")],
        [⟨some careersId, "link", [("label", .str "Careers")], [], none⟩], none⟩] := by rfl
  exact ⟨hdistinct, _, hok, applyListItemPatches_keeps _ _ _ hdistinct hok⟩

/-- An entry that is added with an id of the tree is there twice. -/
theorem applyListItemPatches_duplicates :
    (treeIds (asInputs footerItems)).Nodup ∧
      ∃ t', applyListItemPatches footerItems [.add none none ⟨some careersId, "link", [], [], none⟩] = .ok t' ∧
        ¬(treeIds t').Nodup := by
  have hok : applyListItemPatches footerItems [.add none none ⟨some careersId, "link", [], [], none⟩] =
      .ok (asInputs footerItems ++ [⟨some careersId, "link", [], [], none⟩]) := by rfl
  exact ⟨by decide, _, hok, by decide⟩

end CaeloCms.Lists
