import CaeloCms.Lists.Render

/-!
# The order of a query's pages

`pageOrder` (`resolve.ts`) compares two numbers by size and any other two values as texts.  For the orders by date and
by title, and for a property whose values are numbers only or no numbers at all, it is a strict total order of pages
with distinct ids.  Over a mix it is one exactly when no value that is not a number lies, as a text, between two
numbers that are ordered the other way (`pageOrder_strict_iff`): 9 < 10, but 10 < "5" < 9 as texts.
-/

namespace CaeloCms.Lists

open Std (TransCmp OrientedCmp LawfulEqCmp)

/-! ### Comparison functions -/

theorem swap_by {α : Type} (cmp : α → α → Ordering) [OrientedCmp cmp] (a b : α) : cmp a b = (cmp b a).swap :=
  OrientedCmp.eq_swap

theorem lt_trans_by {α : Type} (cmp : α → α → Ordering) [TransCmp cmp] {a b c : α} (hab : cmp a b = .lt)
    (hbc : cmp b c = .lt) : cmp a c = .lt :=
  TransCmp.lt_trans hab hbc

/-- A comparison and its reverse. -/
def directed {α : Type} (desc : Bool) (cmp : α → α → Ordering) (a b : α) : Ordering :=
  if desc then cmp b a else cmp a b

instance {α : Type} (desc : Bool) (cmp : α → α → Ordering) [TransCmp cmp] : TransCmp (directed desc cmp) := by
  cases desc with
  | false => exact inferInstanceAs (TransCmp cmp)
  | true => exact inferInstanceAs (TransCmp fun a b => cmp b a)

/-- A comparison of what `f` reads. -/
def readBy {α β : Type} (f : α → β) (cmp : β → β → Ordering) (a b : α) : Ordering := cmp (f a) (f b)

instance {α β : Type} (f : α → β) (cmp : β → β → Ordering) [TransCmp cmp] : TransCmp (readBy f cmp) where
  eq_swap {a b} := swap_by cmp (f a) (f b)
  isLE_trans {a b c} hab hbc := by
    have hle : (cmp (f a) (f c)).isLE := TransCmp.isLE_trans hab hbc
    exact hle

instance {α : Type} (cmp : α → α → Ordering) [TransCmp cmp] : TransCmp (nullsLast cmp) where
  eq_swap {a b} := by
    cases a <;> cases b <;> simp only [nullsLast]
    · rfl
    · rfl
    · rfl
    · exact OrientedCmp.eq_swap
  isLE_trans {a b c} hab hbc := by
    cases a <;> cases b <;> cases c <;> simp only [nullsLast] at *
    all_goals first | exact TransCmp.isLE_trans hab hbc | contradiction | rfl

instance : TransCmp compareIds := inferInstanceAs (TransCmp (compare : String → String → Ordering))

instance : LawfulEqCmp compareIds := inferInstanceAs (LawfulEqCmp (compare : String → String → Ordering))

def compareNumbers : String → String → Ordering := readBy numValue compare

instance : TransCmp compareNumbers := inferInstanceAs (TransCmp (readBy numValue compare))

/-! ### Sort keys -/

/-- What a page is sorted by: a number, or another value as a text. -/
inductive SortKey
  | absent
  | number (text : String)
  | other (text : String)
deriving DecidableEq

def SortKey.text : SortKey → String
  | absent => ""
  | number text => text
  | other text => text

def valueKey : Option Json → SortKey
  | none => .absent
  | some (.num t) => .number t
  | some v => .other (stringOf v)

def sortKey (prop : String) (p : ListPageRecord) : SortKey := valueKey (property p prop)

def propertyOrder (order : String) : Option (Bool × String) :=
  if ["published_desc", "published_asc", "title_asc"].contains order then none
  else some ("prop_desc:".toList.isPrefixOf order.toList, String.ofList (order.toList.dropWhile (· != ':')).tail)

section Order

variable (collate : String → String → Ordering) (desc : Bool)

/-- Two pages by their numbers, then by id. -/
def byNumber : String × String → String × String → Ordering :=
  compareLex (readBy Prod.fst (directed desc compareNumbers)) (readBy Prod.snd compareIds)

/-- Two pages by the texts of their values, then by id. -/
def byText : String × String → String × String → Ordering :=
  compareLex (readBy Prod.fst (directed desc collate)) (readBy Prod.snd compareIds)

instance : TransCmp (byNumber desc) := inferInstanceAs (TransCmp (compareLex _ _))

instance [TransCmp collate] : TransCmp (byText collate desc) := inferInstanceAs (TransCmp (compareLex _ _))

/-- Two pages by their sort keys, then by id. -/
def byKey : SortKey × String → SortKey × String → Ordering
  | (.absent, i), (.absent, j) => compareIds i j
  | (.absent, _), (.number _, _) => .gt
  | (.absent, _), (.other _, _) => .gt
  | (.number _, _), (.absent, _) => .lt
  | (.other _, _), (.absent, _) => .lt
  | (.number x, i), (.number y, j) => byNumber desc (x, i) (y, j)
  | (.number x, i), (.other y, j) => byText collate desc (x, i) (y, j)
  | (.other x, i), (.number y, j) => byText collate desc (x, i) (y, j)
  | (.other x, i), (.other y, j) => byText collate desc (x, i) (y, j)

variable {collate desc}

theorem nullsLast_then (va vb : Option Json) (i j : String) :
    (nullsLast (fun x y => if desc then cmpValue collate y x else cmpValue collate x y) va vb).then (compareIds i j) =
      byKey collate desc (valueKey va, i) (valueKey vb, j) := by
  cases va with
  | none =>
    cases vb with
    | none => rfl
    | some w => cases w <;> rfl
  | some v =>
    cases vb with
    | none => cases v <;> rfl
    | some w => cases desc <;> cases v <;> cases w <;> rfl

theorem pageOrder_eq_byKey {order prop : String} (h : propertyOrder order = some (desc, prop)) (a b : ListPageRecord) :
    pageOrder collate order a b = byKey collate desc (sortKey prop a, a.id) (sortKey prop b, b.id) := by
  unfold propertyOrder at h
  split at h
  · cases h
  · rename_i hfixed
    simp only [List.contains_cons, List.contains_nil, Bool.or_false, Bool.or_eq_true, beq_iff_eq, not_or] at hfixed
    rw [Option.some.injEq, Prod.mk.injEq] at h
    obtain ⟨rfl, rfl⟩ := h
    unfold pageOrder sortKey
    split
    · exact absurd rfl hfixed.1
    · exact absurd rfl hfixed.2.1
    · exact absurd rfl hfixed.2.2
    · exact nullsLast_then _ _ _ _

/-- The numbers and the texts of three pages disagree: by size `b` comes before `a`, but as texts `a` comes before
`c` and `c` before `b`. -/
def Crosses (collate : String → String → Ordering) (desc : Bool) (a b c : SortKey × String) : Prop :=
  ∃ x y s, a.1 = .number x ∧ b.1 = .number y ∧ c.1 = .other s ∧ directed desc compareNumbers y x = .lt ∧
    byText collate desc (x, a.2) (s, c.2) = .lt ∧ byText collate desc (s, c.2) (y, b.2) = .lt

variable [TransCmp collate]

instance : OrientedCmp (byKey collate desc) where
  eq_swap {a b} := by
    obtain ⟨k, i⟩ := a
    obtain ⟨l, j⟩ := b
    cases k with
    | absent =>
      cases l with
      | absent => exact swap_by compareIds i j
      | number y => rfl
      | other t => rfl
    | number x =>
      cases l with
      | absent => rfl
      | number y => exact swap_by (byNumber desc) (x, i) (y, j)
      | other t => exact swap_by (byText collate desc) (x, i) (t, j)
    | other s =>
      cases l with
      | absent => rfl
      | number y => exact swap_by (byText collate desc) (s, i) (y, j)
      | other t => exact swap_by (byText collate desc) (s, i) (t, j)

omit [TransCmp collate] in
theorem compareNumbers_eq {x y : String} (h : directed desc compareNumbers x y = .eq) : numValue x = numValue y := by
  cases desc with
  | false =>
    have heq : compare (numValue x) (numValue y) = .eq := h
    exact compare_eq_iff_eq.1 heq
  | true =>
    have heq : compare (numValue y) (numValue x) = .eq := h
    exact (compare_eq_iff_eq.1 heq).symm

theorem byText_self (collate : String → String → Ordering) [TransCmp collate] (desc : Bool) (x i j : String) :
    byText collate desc (x, i) (x, j) = compareIds i j := by
  have hself : directed desc collate x x = .eq := Std.ReflCmp.compare_self
  show (directed desc collate x x).then (compareIds i j) = _
  rw [hself]
  rfl

omit [TransCmp collate] in
theorem number_or_text {x y i j : String} (hsame : numValue x = numValue y → x = y)
    (h : byNumber desc (x, i) (y, j) = .lt) :
    directed desc compareNumbers x y = .lt ∨ compareIds i j = .lt ∧ x = y := by
  have hthen : (directed desc compareNumbers x y).then (compareIds i j) = .lt := h
  rcases Ordering.then_eq_lt.1 hthen with hlt | ⟨heq, hids⟩
  · exact .inl hlt
  · exact .inr ⟨hids, hsame (compareNumbers_eq heq)⟩

/-- Where a text does not come before another one of another page, the other one comes before it. -/
theorem byText_of_not_lt {u v : String × String} (hids : u.2 ≠ v.2) (h : byText collate desc u v ≠ .lt) :
    byText collate desc v u = .lt := by
  cases huv : byText collate desc u v with
  | lt => exact absurd huv h
  | gt => exact OrientedCmp.lt_of_gt huv
  | eq =>
    have heq : compareIds u.2 v.2 = .eq := (compareLex_eq_eq.1 huv).2
    exact absurd (LawfulEqCmp.eq_of_compare heq) hids

/-- What three pages are for their order to be transitive: their numbers are written alike, they have different ids,
and they do not cross. -/
structure Orderly (collate : String → String → Ordering) (desc : Bool) (pages : List (SortKey × String)) : Prop where
  numbers : ∀ a ∈ pages, ∀ b ∈ pages, ∀ x y, a.1 = .number x → b.1 = .number y → numValue x = numValue y → x = y
  ids : ∀ a ∈ pages, ∀ b ∈ pages, a.2 = b.2 → a = b
  uncrossed : ∀ a ∈ pages, ∀ b ∈ pages, ∀ c ∈ pages, ¬Crosses collate desc a b c

theorem byKey_trans {pages : List (SortKey × String)} (h : Orderly collate desc pages) {a b c : SortKey × String}
    (ha : a ∈ pages) (hb : b ∈ pages) (hc : c ∈ pages) (hab : byKey collate desc a b = .lt)
    (hbc : byKey collate desc b c = .lt) : byKey collate desc a c = .lt := by
  obtain ⟨hnumbers, hids, huncrossed⟩ := h
  obtain ⟨k, i⟩ := a
  obtain ⟨l, j⟩ := b
  obtain ⟨m, n⟩ := c
  -- two numbers and another value: by texts, or else the three cross
  have hdiffer : ∀ {x s i n : String}, (SortKey.number x, i) ∈ pages → (SortKey.other s, n) ∈ pages → i ≠ n := by
    intro x s i n hx hs heq
    have hsame := hids _ hx _ hs heq
    cases hsame
  cases k with
  | absent =>
    cases l with
    | absent =>
      cases m with
      | absent => exact lt_trans_by compareIds hab hbc
      | number z => cases hbc
      | other s => cases hbc
    | number y => cases hab
    | other s => cases hab
  | number x =>
    cases l with
    | absent =>
      cases m with
      | absent => rfl
      | number z => cases hbc
      | other s => cases hbc
    | number y =>
      cases m with
      | absent => rfl
      | number z => exact lt_trans_by (byNumber desc) hab hbc
      | other s =>
        rcases number_or_text (hnumbers _ ha _ hb x y rfl rfl) hab with hlt | hlt
        · by_contra hnot
          have hac : byText collate desc (x, i) (s, n) ≠ .lt := hnot
          have hca := byText_of_not_lt (hdiffer ha hc) hac
          exact huncrossed _ hb _ ha _ hc ⟨y, x, s, rfl, rfl, rfl, hlt, hbc, hca⟩
        · obtain ⟨hlt, rfl⟩ := hlt
          rw [← byText_self collate desc x] at hlt
          exact lt_trans_by (byText collate desc) hlt hbc
    | other s =>
      cases m with
      | absent => rfl
      | number z =>
        have hxz := lt_trans_by (byText collate desc) hab hbc
        show (directed desc compareNumbers x z).then (compareIds i n) = .lt
        cases hsize : directed desc compareNumbers x z with
        | lt => rfl
        | eq =>
          obtain rfl := hnumbers _ ha _ hc x z rfl rfl (compareNumbers_eq hsize)
          rwa [byText_self] at hxz
        | gt =>
          have hlt : directed desc compareNumbers z x = .lt := OrientedCmp.lt_of_gt hsize
          exact absurd ⟨x, z, s, rfl, rfl, rfl, hlt, hab, hbc⟩ (huncrossed _ ha _ hc _ hb)
      | other t => exact lt_trans_by (byText collate desc) hab hbc
  | other s =>
    cases l with
    | absent =>
      cases m with
      | absent => rfl
      | number z => cases hbc
      | other s => cases hbc
    | number y =>
      cases m with
      | absent => rfl
      | number z =>
        rcases number_or_text (hnumbers _ hb _ hc y z rfl rfl) hbc with hlt | hlt
        · by_contra hnot
          have hac : byText collate desc (s, i) (z, n) ≠ .lt := hnot
          have hca := byText_of_not_lt (hdiffer hc ha).symm hac
          exact huncrossed _ hc _ hb _ ha ⟨z, y, s, rfl, rfl, rfl, hlt, hca, hab⟩
        · obtain ⟨hlt, rfl⟩ := hlt
          rw [← byText_self collate desc y] at hlt
          exact lt_trans_by (byText collate desc) hab hlt
      | other t => exact lt_trans_by (byText collate desc) hab hbc
    | other t =>
      cases m with
      | absent => rfl
      | number z => exact lt_trans_by (byText collate desc) hab hbc
      | other u => exact lt_trans_by (byText collate desc) hab hbc

end Order

/-! ### Pages -/

/-- The pages of a site: no id twice, and numbers of one value are written alike, as `String(n)` writes them. -/
structure PageSet (pages : List ListPageRecord) : Prop where
  distinct : (pages.map ListPageRecord.id).Nodup
  numbers : ∀ a ∈ pages, ∀ b ∈ pages, ∀ name x y, property a name = some (.num x) → property b name = some (.num y) →
    numValue x = numValue y → x = y

section Pages

variable (collate : String → String → Ordering) (order : String) (pages : List ListPageRecord)

structure StrictTotal : Prop where
  antisymmetric : ∀ a ∈ pages, ∀ b ∈ pages, pageOrder collate order a b = (pageOrder collate order b a).swap
  distinct : ∀ a ∈ pages, ∀ b ∈ pages, a ≠ b → pageOrder collate order a b ≠ .eq
  transitive : ∀ a ∈ pages, ∀ b ∈ pages, ∀ c ∈ pages, pageOrder collate order a b = .lt →
    pageOrder collate order b c = .lt → pageOrder collate order a c = .lt

/-- An order by property over a mix of numbers and other values: no value that is not a number lies, as a text,
between two numbers that are ordered the other way. -/
def Uncrossed : Prop :=
  ∀ desc prop, propertyOrder order = some (desc, prop) → ∀ a ∈ pages, ∀ b ∈ pages, ∀ c ∈ pages,
    ¬Crosses collate desc (sortKey prop a, a.id) (sortKey prop b, b.id) (sortKey prop c, c.id)

variable {collate order pages}

theorem PageSet.eq_of_id (h : PageSet pages) {a b : ListPageRecord} (ha : a ∈ pages) (hb : b ∈ pages)
    (hid : a.id = b.id) : a = b :=
  List.inj_on_of_nodup_map h.distinct ha hb hid

theorem property_of_sortKey {p : ListPageRecord} {prop t : String} (h : sortKey prop p = .number t) :
    property p prop = some (.num t) := by
  unfold sortKey at h
  cases hv : property p prop with
  | none =>
    rw [hv] at h
    cases h
  | some v =>
    rw [hv] at h
    cases v with
    | num t' =>
      cases h
      rfl
    | _ => cases h

variable [TransCmp collate]

theorem transCmp_pageOrder (collate : String → String → Ordering) [TransCmp collate] (h : propertyOrder order = none) : TransCmp (pageOrder collate order) := by
  unfold propertyOrder at h
  split at h
  · rename_i hfixed
    simp only [List.contains_cons, List.contains_nil, Bool.or_false, Bool.or_eq_true, beq_iff_eq] at hfixed
    rcases hfixed with rfl | rfl | rfl
    · exact inferInstanceAs (TransCmp (compareLex (compareLex
        (readBy ListPageRecord.firstPublishedAt (nullsLast (directed true compareIds)))
        (readBy ListPageRecord.updatedAt (directed true compareIds))) (readBy ListPageRecord.id compareIds)))
    · exact inferInstanceAs (TransCmp (compareLex (compareLex
        (readBy ListPageRecord.firstPublishedAt (nullsLast compareIds))
        (readBy ListPageRecord.updatedAt compareIds)) (readBy ListPageRecord.id compareIds)))
    · exact inferInstanceAs (TransCmp (compareLex (readBy ListPageRecord.title collate)
        (readBy ListPageRecord.id compareIds)))
  · cases h

theorem swap_pageOrder (a b : ListPageRecord) : pageOrder collate order a b = (pageOrder collate order b a).swap := by
  cases h : propertyOrder order with
  | none =>
    have := transCmp_pageOrder collate h
    exact swap_by (pageOrder collate order) a b
  | some p =>
    rw [pageOrder_eq_byKey h, pageOrder_eq_byKey h]
    exact swap_by (byKey collate p.1) _ _

omit [TransCmp collate] in
theorem id_eq_of_pageOrder {a b : ListPageRecord} (h : pageOrder collate order a b = .eq) : a.id = b.id := by
  unfold pageOrder at h
  split at h <;> exact LawfulEqCmp.eq_of_compare (Ordering.then_eq_eq.1 h).2

theorem pageOrder_self (a : ListPageRecord) : pageOrder collate order a a = .eq := by
  have hswap : pageOrder collate order a a = (pageOrder collate order a a).swap := swap_pageOrder a a
  cases h : pageOrder collate order a a with
  | eq => rfl
  | lt =>
    rw [h] at hswap
    cases hswap
  | gt =>
    rw [h] at hswap
    cases hswap

theorem transitive_of_uncrossed (hpages : PageSet pages) (h : Uncrossed collate order pages) {a b c : ListPageRecord}
    (ha : a ∈ pages) (hb : b ∈ pages) (hc : c ∈ pages) (hab : pageOrder collate order a b = .lt)
    (hbc : pageOrder collate order b c = .lt) : pageOrder collate order a c = .lt := by
  cases horder : propertyOrder order with
  | none =>
    have := transCmp_pageOrder collate horder
    exact lt_trans_by (pageOrder collate order) hab hbc
  | some p =>
    obtain ⟨desc, prop⟩ := p
    rw [pageOrder_eq_byKey horder] at hab hbc ⊢
    have horderly : Orderly collate desc (pages.map fun p => (sortKey prop p, p.id)) := by
      refine ⟨?_, ?_, ?_⟩
      · intro k hk l hl x y hx hy
        obtain ⟨a, ha, rfl⟩ := List.mem_map.1 hk
        obtain ⟨b, hb, rfl⟩ := List.mem_map.1 hl
        exact hpages.numbers a ha b hb prop x y (property_of_sortKey hx) (property_of_sortKey hy)
      · intro k hk l hl hid
        obtain ⟨a, ha, rfl⟩ := List.mem_map.1 hk
        obtain ⟨b, hb, rfl⟩ := List.mem_map.1 hl
        rw [hpages.eq_of_id ha hb hid]
      · intro k hk l hl m hm
        obtain ⟨a, ha, rfl⟩ := List.mem_map.1 hk
        obtain ⟨b, hb, rfl⟩ := List.mem_map.1 hl
        obtain ⟨c, hc, rfl⟩ := List.mem_map.1 hm
        exact h desc prop horder a ha b hb c hc
    exact byKey_trans horderly (List.mem_map_of_mem ha) (List.mem_map_of_mem hb) (List.mem_map_of_mem hc) hab hbc

theorem strictTotal_of_uncrossed (hpages : PageSet pages) (h : Uncrossed collate order pages) :
    StrictTotal collate order pages where
  antisymmetric _ _ _ _ := swap_pageOrder _ _
  distinct _ ha _ hb hne heq := hne (hpages.eq_of_id ha hb (id_eq_of_pageOrder heq))
  transitive _ ha _ hb _ hc := transitive_of_uncrossed hpages h ha hb hc

theorem uncrossed_of_strictTotal (h : StrictTotal collate order pages) : Uncrossed collate order pages := by
  rintro desc prop horder a ha b hb c hc ⟨x, y, s, hx, hy, hs, hba, hac, hcb⟩
  have hlt : ∀ {p q : ListPageRecord}, byKey collate desc (sortKey prop p, p.id) (sortKey prop q, q.id) = .lt →
      pageOrder collate order p q = .lt := by
    intro p q hpq
    rw [pageOrder_eq_byKey horder, hpq]
  have hba' : pageOrder collate order b a = .lt := by
    apply hlt
    rw [show sortKey prop a = .number x from hx, show sortKey prop b = .number y from hy]
    show (directed desc compareNumbers y x).then (compareIds b.id a.id) = .lt
    rw [hba]
    rfl
  have hac' : pageOrder collate order a c = .lt := by
    apply hlt
    rw [show sortKey prop a = .number x from hx, show sortKey prop c = .other s from hs]
    exact hac
  have hcb' : pageOrder collate order c b = .lt := by
    apply hlt
    rw [show sortKey prop b = .number y from hy, show sortKey prop c = .other s from hs]
    exact hcb
  have hab := h.transitive a ha c hc b hb hac' hcb'
  have haa := h.transitive a ha b hb a ha hab hba'
  rw [pageOrder_self] at haa
  cases haa

/-! ### The hits of a query -/

omit [TransCmp collate] in
/-- A list is sorted by a relation that is total and transitive on its elements. -/
theorem pairwise_mergeSort_of_mem {α : Type} {l : List α} {le : α → α → Bool}
    (htrans : ∀ a ∈ l, ∀ b ∈ l, ∀ c ∈ l, le a b → le b c → le a c) (htotal : ∀ a ∈ l, ∀ b ∈ l, le a b || le b a) :
    (l.mergeSort le).Pairwise fun a b => le a b := by
  have hmap := List.map_mergeSort (r := fun a b : {a // a ∈ l} => le a.1 b.1) (s := le) (f := Subtype.val)
    (l := l.attach) fun _ _ _ _ => rfl
  rw [List.attach_map_subtype_val] at hmap
  rw [← hmap, List.pairwise_map]
  exact List.pairwise_mergeSort (fun a b c => htrans a.1 a.2 b.1 b.2 c.1 c.2) (fun a b => htotal a.1 a.2 b.1 b.2) _

omit [TransCmp collate] in
theorem queryHits_perm {data : ListRenderData} {q : PageQuery} (h : StrictTotal collate q.order data.pages)
    {pages' : List ListPageRecord} (hperm : pages'.Perm data.pages) (pageId : Option String) :
    queryHits collate { data with pages := pages' } pageId q = queryHits collate data pageId q := by
  have hsub : ∀ {a : ListPageRecord}, a ∈ data.pages.filter (isHit data pageId q) → a ∈ data.pages :=
    fun ha => (List.mem_filter.1 ha).1
  have hsub' : ∀ {a : ListPageRecord}, a ∈ pages'.filter (isHit data pageId q) → a ∈ data.pages :=
    fun ha => hperm.mem_iff.1 (List.mem_filter.1 ha).1
  have htotal : ∀ a ∈ data.pages, ∀ b ∈ data.pages,
      (pageOrder collate q.order a b).isLE || (pageOrder collate q.order b a).isLE := by
    intro a ha b hb
    rw [h.antisymmetric a ha b hb]
    cases pageOrder collate q.order b a <;> rfl
  have hsame : ∀ a ∈ data.pages, ∀ b ∈ data.pages, pageOrder collate q.order a b = .eq → a = b := by
    intro a ha b hb heq
    by_contra hne
    exact h.distinct a ha b hb hne heq
  have htrans : ∀ a ∈ data.pages, ∀ b ∈ data.pages, ∀ c ∈ data.pages, (pageOrder collate q.order a b).isLE →
      (pageOrder collate q.order b c).isLE → (pageOrder collate q.order a c).isLE := by
    intro a ha b hb c hc hab hbc
    rcases Ordering.isLE_iff_eq_lt_or_eq_eq.1 hab with hab | hab
    · rcases Ordering.isLE_iff_eq_lt_or_eq_eq.1 hbc with hbc | hbc
      · rw [h.transitive a ha b hb c hc hab hbc]
        rfl
      · rw [← hsame b hb c hc hbc, hab]
        rfl
    · rw [hsame a ha b hb hab]
      exact hbc
  refine List.Perm.eq_of_pairwise ?_
    (pairwise_mergeSort_of_mem (fun a ha b hb c hc => htrans a (hsub' ha) b (hsub' hb) c (hsub' hc))
      fun a ha b hb => htotal a (hsub' ha) b (hsub' hb))
    (pairwise_mergeSort_of_mem (fun a ha b hb c hc => htrans a (hsub ha) b (hsub hb) c (hsub hc))
      fun a ha b hb => htotal a (hsub ha) b (hsub hb)) ?_
  · intro a b ha hb hab hba
    have ha' := hsub' (List.mem_mergeSort.1 ha)
    have hb' := hsub (List.mem_mergeSort.1 hb)
    apply hsame a ha' b hb'
    rw [h.antisymmetric b hb' a ha'] at hba
    cases hcmp : pageOrder collate q.order a b with
    | eq => rfl
    | lt =>
      rw [hcmp] at hba
      cases hba
    | gt =>
      rw [hcmp] at hab
      cases hab
  · exact ((List.mergeSort_perm _ _).trans (hperm.filter _)).trans (List.mergeSort_perm _ _).symm

/-- The comparator is a strict total order of a site's pages, and the hits of every query in this order do not depend
on how the pages were loaded, exactly when no value lies as a text between two numbers that are ordered the other
way. -/
theorem pageOrder_strict_iff (collate : String → String → Ordering) [TransCmp collate] (order : String)
    (data : ListRenderData) (hpages : PageSet data.pages) :
    (StrictTotal collate order data.pages ∧
      ∀ pages', pages'.Perm data.pages → ∀ pageId q, q.order = order →
        queryHits collate { data with pages := pages' } pageId q = queryHits collate data pageId q) ↔
      Uncrossed collate order data.pages := by
  constructor
  · rintro ⟨h, -⟩
    exact uncrossed_of_strictTotal h
  · intro h
    have hstrict := strictTotal_of_uncrossed hpages h
    refine ⟨hstrict, ?_⟩
    rintro pages' hperm pageId q rfl
    exact queryHits_perm hstrict hperm pageId

end Pages

/-! ### Ratings -/

def ratedPage (id : String) (rating : Json) : ListPageRecord :=
  { id, title := "", parentId := none, pageTypeSlug := "product", properties := [("rating", rating)], terms := [],
    firstPublishedAt := none, updatedAt := "", inBuild := true }

/-- Ratings 10 and 9 as numbers, and one that was typed in as a text. -/
def ratedData : ListRenderData :=
  { pages := [ratedPage "a" (.num "10"), ratedPage "b" (.str "5"), ratedPage "c" (.num "9")], media := [], pageVariants := [] }

theorem pageSet_rated : PageSet ratedData.pages := by
  refine ⟨by decide, ?_⟩
  have hnumber : ∀ a ∈ ratedData.pages, ∀ name x, property a name = some (.num x) → x = "10" ∧ a.id = "a" ∨ x = "9" ∧ a.id = "c" := by
    intro a ha name x hx
    have hname : name = "rating" := by
      by_contra hne
      simp only [ratedData, List.mem_cons, List.not_mem_nil, or_false] at ha
      rcases ha with rfl | rfl | rfl <;> simp [property, lookup, ratedPage, Ne.symm hne] at hx
    subst hname
    simp only [ratedData, List.mem_cons, List.not_mem_nil, or_false] at ha
    rcases ha with rfl | rfl | rfl <;> simp [property, lookup, ratedPage] at hx
    · exact .inl ⟨hx.symm, rfl⟩
    · exact .inr ⟨hx.symm, rfl⟩
  have hdiffer : numValue "10" ≠ numValue "9" := by decide +kernel
  intro a ha b hb name x y hx hy hvalue
  rcases hnumber a ha name x hx with ⟨rfl, -⟩ | ⟨rfl, -⟩ <;> rcases hnumber b hb name y hy with ⟨rfl, -⟩ | ⟨rfl, -⟩
  · rfl
  · exact absurd hvalue hdiffer
  · exact absurd hvalue.symm hdiffer
  · rfl

theorem pageOrder_strict_iff_rated :
    TransCmp compareIds ∧ PageSet ratedData.pages ∧
      ((StrictTotal compareIds "title_asc" ratedData.pages ∧
        ∀ pages', pages'.Perm ratedData.pages → ∀ pageId q, q.order = "title_asc" →
          queryHits compareIds { ratedData with pages := pages' } pageId q = queryHits compareIds ratedData pageId q) ↔
        Uncrossed compareIds "title_asc" ratedData.pages) :=
  ⟨inferInstance, pageSet_rated, pageOrder_strict_iff compareIds "title_asc" ratedData pageSet_rated⟩

/-- The three ratings are in a circle. -/
theorem pageOrder_circle :
    pageOrder compareIds "prop_asc:rating" (ratedPage "c" (.num "9")) (ratedPage "a" (.num "10")) = .lt ∧
      pageOrder compareIds "prop_asc:rating" (ratedPage "a" (.num "10")) (ratedPage "b" (.str "5")) = .lt ∧
      pageOrder compareIds "prop_asc:rating" (ratedPage "b" (.str "5")) (ratedPage "c" (.num "9")) = .lt ∧
      ¬StrictTotal compareIds "prop_asc:rating" ratedData.pages := by
  have hca : pageOrder compareIds "prop_asc:rating" (ratedPage "c" (.num "9")) (ratedPage "a" (.num "10")) = .lt := by
    decide +kernel
  have hab : pageOrder compareIds "prop_asc:rating" (ratedPage "a" (.num "10")) (ratedPage "b" (.str "5")) = .lt := by
    decide +kernel
  have hbc : pageOrder compareIds "prop_asc:rating" (ratedPage "b" (.str "5")) (ratedPage "c" (.num "9")) = .lt := by
    decide +kernel
  refine ⟨hca, hab, hbc, ?_⟩
  intro h
  have hac := h.transitive _ (by simp [ratedData]) _ (by simp [ratedData]) _ (by simp [ratedData]) hab hbc
  rw [swap_pageOrder, hca] at hac
  cases hac

end CaeloCms.Lists
