import Mathlib

/-!
# Transactions, snapshots and versioned rows

Transaction ids in progress and done, the snapshots taken of them, and tables whose rows carry the transaction that
inserted and the one that deleted them.  A snapshot is stored as PostgreSQL does, by its bounds and the list of ids
in progress between them; `snapshot_visible` says what it sees: the transactions that were done when it was taken (and
its own).  `done` lists transactions in the order they ended, the newest first, so an earlier state of it is a suffix.

`Superseded` is the discipline of a table of maxima (a watermark that is only replaced by a larger one): in every
snapshot, `Superseded.exists_visible` finds a visible entry at least as large as any entry the snapshot has seen.
-/

namespace Mvcc

structure Snapshot where
  xmin : Nat
  xmax : Nat
  xip : List Nat
  xmin_le_xmax : xmin ≤ xmax
  xip_range : ∀ x ∈ xip, xmin ≤ x ∧ x < xmax
deriving DecidableEq

def Snapshot.visible (s : Snapshot) (x : Nat) : Bool :=
  decide (x < s.xmin) || (decide (x < s.xmax) && decide (x ∉ s.xip))

variable {x : Nat} {s : Snapshot} {l : TxLog} {own : Option Nat} {done : List Nat}

theorem Snapshot.not_visible_iff : s.visible x = false ↔ s.xmax ≤ x ∨ x ∈ s.xip := by
  have hle := s.xmin_le_xmax
  simp only [Snapshot.visible, Bool.or_eq_false_iff, Bool.and_eq_false_iff, decide_eq_false_iff_not, not_lt, not_not]
  constructor
  · rintro ⟨-, h⟩
    exact h
  · rintro (h | h)
    · exact ⟨by omega, Or.inl h⟩
    · exact ⟨(s.xip_range x h).1, Or.inr h⟩

theorem Snapshot.visible_of_lt_xmin (h : x < s.xmin) : s.visible x = true := by
  simp [Snapshot.visible, h]

theorem Snapshot.xmin_le_of_not_visible (h : s.visible x = false) : s.xmin ≤ x := by
  by_contra hlt
  rw [Snapshot.visible_of_lt_xmin (by omega)] at h
  cases h

theorem Snapshot.lt_xmax_of_visible (h : s.visible x = true) : x < s.xmax := by
  by_contra hle
  rw [Snapshot.not_visible_iff.2 (Or.inl (by omega))] at h
  cases h

/-! ### The transactions -/

structure TxLog where
  /-- The next id to assign. -/
  next : Nat
  active : List Nat
  /-- Committed and aborted transactions, the one that ended last first. -/
  done : List Nat
  lt_next : ∀ x, x < next ↔ x ∈ active ∨ x ∈ done
  disjoint : ∀ x ∈ active, x ∉ done

def TxLog.start (l : TxLog) : TxLog where
  next := l.next + 1
  active := l.next :: l.active
  done := l.done
  lt_next := by
    intro x
    have h := l.lt_next x
    rw [List.mem_cons]
    constructor
    · intro hx
      rcases Nat.lt_succ_iff_lt_or_eq.1 hx with hlt | heq
      · exact (h.1 hlt).imp Or.inr id
      · exact Or.inl (Or.inl heq)
    · rintro ((rfl | hx) | hx)
      · omega
      · have := h.2 (Or.inl hx)
        omega
      · have := h.2 (Or.inr hx)
        omega
  disjoint := by
    intro x hx hdone
    rcases List.mem_cons.1 hx with rfl | hx
    · have := (l.lt_next l.next).2 (Or.inr hdone)
      omega
    · exact l.disjoint x hx hdone

/-- `x` commits or aborts. -/
def TxLog.finish (l : TxLog) (x : Nat) (hx : x ∈ l.active) : TxLog where
  next := l.next
  active := l.active.filter fun y => decide (y ≠ x)
  done := x :: l.done
  lt_next := by
    intro y
    rw [l.lt_next y, List.mem_filter, List.mem_cons]
    by_cases hy : y = x
    · subst hy
      simp [hx]
    · simp [hy]
  disjoint := by
    intro y hy hdone
    obtain ⟨hy, hne⟩ := List.mem_filter.1 hy
    rcases List.mem_cons.1 hdone with rfl | hdone
    · simp at hne
    · exact l.disjoint y hy hdone

def TxLog.initial : TxLog where
  next := 0
  active := []
  done := []
  lt_next := by simp
  disjoint := by simp

theorem foldr_min_le_init {m : Nat} {l : List Nat} : l.foldr min m ≤ m := by
  induction l with
  | nil => exact Nat.le_refl _
  | cons a as ih => exact (Nat.min_le_right _ _).trans ih

theorem foldr_min_le {m : Nat} {l : List Nat} (hx : x ∈ l) : l.foldr min m ≤ x := by
  induction l with
  | nil => cases hx
  | cons a as ih =>
    rcases List.mem_cons.1 hx with rfl | hx
    · exact Nat.min_le_left _ _
    · exact (Nat.min_le_right _ _).trans (ih hx)

/-- One more than the latest completed id. -/
def TxLog.xmax (l : TxLog) : Nat := l.done.foldr (fun x m => max (x + 1) m) 0

/-- `pg_current_snapshot()` of a transaction with the id `own`: it does not list itself as in progress. -/
def TxLog.snapshot (l : TxLog) (own : Option Nat) : Snapshot where
  xmin := (l.active.filter fun x => decide (x < l.xmax)).foldr min l.xmax
  xmax := l.xmax
  xip := l.active.filter fun x => decide (x < l.xmax) && decide (own ≠ some x)
  xmin_le_xmax := foldr_min_le_init
  xip_range := by
    intro x hx
    obtain ⟨hmem, hlt⟩ := List.mem_filter.1 hx
    simp only [Bool.and_eq_true, decide_eq_true_eq] at hlt
    exact ⟨foldr_min_le (List.mem_filter.2 ⟨hmem, by simpa using hlt.1⟩), hlt.1⟩

theorem TxLog.lt_xmax_of_done (hx : x ∈ l.done) : x < l.xmax := by
  unfold TxLog.xmax
  generalize l.done = done at hx
  induction done with
  | nil => cases hx
  | cons a as ih =>
    rcases List.mem_cons.1 hx with rfl | hx
    · exact Nat.lt_of_succ_le (Nat.le_max_left _ _)
    · exact Nat.lt_of_lt_of_le (ih hx) (Nat.le_max_right _ _)

theorem TxLog.xmax_le_next (l : TxLog) : l.xmax ≤ l.next := by
  have h : ∀ x ∈ l.done, x < l.next := fun x hx => (l.lt_next x).2 (Or.inr hx)
  unfold TxLog.xmax
  generalize l.done = done at h
  induction done with
  | nil => exact Nat.zero_le _
  | cons a as ih =>
    have ha := h a (List.mem_cons_self ..)
    exact Nat.max_le.2 ⟨ha, ih fun x hx => h x (List.mem_cons_of_mem _ hx)⟩

/-- A snapshot sees the transactions that are done, and its own. -/
theorem TxLog.snapshot_visible :
    (l.snapshot own).visible x = true ↔ x ∈ l.done ∨ (own = some x ∧ x ∈ l.active ∧ x < l.xmax) := by
  constructor
  · intro hv
    have hlt := Snapshot.lt_xmax_of_visible hv
    have hlt' : x < l.xmax := hlt
    rcases (l.lt_next x).1 (Nat.lt_of_lt_of_le hlt' l.xmax_le_next) with hact | hdone
    · refine Or.inr ⟨?_, hact, hlt'⟩
      by_contra hown
      have hxip : x ∈ (l.snapshot own).xip := List.mem_filter.2 ⟨hact, by simp [hlt', hown]⟩
      rw [Snapshot.not_visible_iff.2 (Or.inr hxip)] at hv
      cases hv
    · exact Or.inl hdone
  · intro h
    by_contra hv
    have hv : (l.snapshot own).visible x = false := by simpa using hv
    rcases Snapshot.not_visible_iff.1 hv with hle | hxip
    · have hle : l.xmax ≤ x := hle
      rcases h with hdone | ⟨-, -, hlt⟩
      · have := TxLog.lt_xmax_of_done hdone
        omega
      · omega
    · obtain ⟨hact, hf⟩ := List.mem_filter.1 hxip
      rcases h with hdone | ⟨hown, -, -⟩
      · exact l.disjoint x hact hdone
      · simp [hown] at hf

theorem TxLog.xmin_le_active (hx : x ∈ l.active) :
    (l.snapshot own).xmin ≤ x := by
  by_cases hlt : x < l.xmax
  · exact foldr_min_le (List.mem_filter.2 ⟨hx, by simpa using hlt⟩)
  · have hle : (l.snapshot own).xmin ≤ l.xmax := (l.snapshot own).xmin_le_xmax
    omega

theorem TxLog.xmin_le_next : (l.snapshot own).xmin ≤ l.next :=
  (l.snapshot own).xmin_le_xmax.trans l.xmax_le_next

/-! ### What a later state keeps -/

/-- `l'` is reached from `l`: what is done stays done, in order, and only new transactions become active. -/
structure TxLog.Extends (l l' : TxLog) : Prop where
  done : l.done <:+ l'.done
  next : l.next ≤ l'.next
  active : ∀ x ∈ l'.active, x ∈ l.active ∨ l.next ≤ x

theorem TxLog.Extends.refl (l : TxLog) : l.Extends l := ⟨List.suffix_refl _, Nat.le_refl _, fun _ => Or.inl⟩

theorem TxLog.Extends.trans {a b c : TxLog} (hab : a.Extends b) (hbc : b.Extends c) : a.Extends c := by
  refine ⟨hab.done.trans hbc.done, hab.next.trans hbc.next, fun x hx => ?_⟩
  rcases hbc.active x hx with hb | hle
  · exact hab.active x hb
  · exact Or.inr (hab.next.trans hle)

theorem TxLog.extends_start (l : TxLog) : l.Extends l.start := by
  refine ⟨List.suffix_refl _, Nat.le_succ _, fun x hx => ?_⟩
  rcases List.mem_cons.1 hx with rfl | hx
  · exact Or.inr (Nat.le_refl _)
  · exact Or.inl hx

theorem TxLog.extends_finish (l : TxLog) (x : Nat) (hx : x ∈ l.active) : l.Extends (l.finish x hx) :=
  ⟨List.suffix_cons x l.done, Nat.le_refl _, fun _ hy => Or.inl (List.mem_filter.1 hy).1⟩

/-! ### Tables -/

/-- A row with the transaction that inserted it and the one that deleted it. -/
structure Tuple (α : Type*) where
  insertedBy : Nat
  deletedBy : Option Nat := none
  value : α
deriving DecidableEq

/-- What a statement sees: the transactions of its snapshot and its own. -/
structure View where
  snap : Snapshot
  own : Option Nat
deriving DecidableEq

def View.sees (v : View) (x : Nat) : Bool := v.snap.visible x || decide (v.own = some x)

variable {α : Type*}

def Tuple.visibleIn (t : Tuple α) (v : View) : Bool := v.sees t.insertedBy && !t.deletedBy.any v.sees

/-- `x` aborts: its rows vanish and its deletions are undone. -/
def abortTuples (x : Nat) (table : List (Tuple α)) : List (Tuple α) :=
  (table.filter fun t => decide (t.insertedBy ≠ x)).map fun t =>
    if t.deletedBy = some x then { t with deletedBy := none } else t

theorem mem_abortTuples {table : List (Tuple α)} {t : Tuple α} (ht : t ∈ abortTuples x table) :
    t.deletedBy ≠ some x ∧ t.insertedBy ≠ x ∧ ∃ u ∈ table, t.insertedBy = u.insertedBy ∧ t.value = u.value ∧
      (t.deletedBy = u.deletedBy ∨ t.deletedBy = none) := by
  obtain ⟨u, hu, rfl⟩ := List.mem_map.1 ht
  obtain ⟨hu, hne⟩ := List.mem_filter.1 hu
  by_cases hd : u.deletedBy = some x
  · rw [if_pos hd]
    exact ⟨nofun, by simpa using hne, u, hu, rfl, rfl, Or.inr rfl⟩
  · rw [if_neg hd]
    exact ⟨hd, by simpa using hne, u, hu, rfl, rfl, Or.inl rfl⟩

theorem abortTuples_mem {table : List (Tuple α)} {u : Tuple α} (hu : u ∈ table) (hne : u.insertedBy ≠ x) :
    ∃ t ∈ abortTuples x table, t.insertedBy = u.insertedBy ∧ t.value = u.value := by
  refine ⟨_, List.mem_map.2 ⟨u, List.mem_filter.2 ⟨hu, by simpa using hne⟩, rfl⟩, ?_⟩
  split <;> exact ⟨rfl, rfl⟩

/-! ### Maxima -/

/-- Whoever sees that `b` is done sees that `a` is. -/
def Precedes (done : List Nat) (a b : Nat) : Prop := ∀ d, d <:+ done → b ∈ d → a ∈ d

theorem Precedes.cons {a b : Nat} (h : Precedes done a b) (ha : a ∈ done) :
    Precedes (x :: done) a b := by
  intro d hd hb
  rcases List.suffix_cons_iff.1 hd with rfl | hd
  · exact List.mem_cons_of_mem _ ha
  · exact h d hd hb

theorem precedes_of_not_done {a b : Nat} (hb : b ∉ done) : Precedes done a b :=
  fun _ hd hb' => absurd (hd.subset hb') hb

/-- A row was deleted only by a transaction that saw a larger one. -/
def Superseded (done : List Nat) (table : List (Tuple Nat)) : Prop :=
  ∀ h ∈ table, ∀ g, h.deletedBy = some g → ∃ m ∈ table, h.value < m.value ∧
    (m.insertedBy = g ∨ (m.insertedBy ∈ done ∧ Precedes done m.insertedBy g))

theorem exists_value_bound (table : List (Tuple Nat)) : ∃ b, ∀ m ∈ table, m.value ≤ b := by
  induction table with
  | nil => exact ⟨0, by simp⟩
  | cons t ts ih =>
    obtain ⟨b, hb⟩ := ih
    refine ⟨max t.value b, fun m hm => ?_⟩
    rcases List.mem_cons.1 hm with rfl | hm
    · exact Nat.le_max_left _ _
    · exact (hb m hm).trans (Nat.le_max_right _ _)

/-- For every row that was inserted, as far as `d` has seen, there is one as large that was not deleted. -/
theorem Superseded.exists_visible {d : List Nat} {table : List (Tuple Nat)} (hs : Superseded done table)
    (hd : d <:+ done) {h : Tuple Nat} (hmem : h ∈ table) (hins : h.insertedBy ∈ d) :
    ∃ m ∈ table, h.value ≤ m.value ∧ m.insertedBy ∈ d ∧ ∀ g, m.deletedBy = some g → g ∉ d := by
  obtain ⟨b, hb⟩ := exists_value_bound table
  -- induction on the distance to the bound: a deleted row leads to a larger one
  induction hn : b - h.value using Nat.strong_induction_on generalizing h with
  | _ n ih =>
    by_cases hdel : ∃ g, h.deletedBy = some g ∧ g ∈ d
    · obtain ⟨g, hg, hgd⟩ := hdel
      obtain ⟨m, hm, hlt, hins'⟩ := hs h hmem g hg
      have hmd : m.insertedBy ∈ d := by
        rcases hins' with heq | ⟨-, hprec⟩
        · exact heq ▸ hgd
        · exact hprec d hd hgd
      have hle := hb m hm
      obtain ⟨m', hm', hle', hrest⟩ := ih (b - m.value) (by omega) hm hmd rfl
      exact ⟨m', hm', by omega, hrest⟩
    · exact ⟨h, hmem, Nat.le_refl _, hins, fun g hg hgd => hdel ⟨g, hg, hgd⟩⟩

end Mvcc
