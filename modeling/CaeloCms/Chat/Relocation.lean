import CaeloCms.Chat.HistoryRepair

/-!
# Displaced results

What `relocateDisplacedToolResults` does to a history: every result row ends up in the block of its call
(`placed_relocate`), the other rows stay where they are (`spine_relocate`), and a result row is lost only when the row
that opens its call belongs to no turn (`mem_results_relocate`).
-/

namespace CaeloCms.Chat.History

open ChatMessageInput (isPassthroughRow isTurnRow)

/-! ### Result rows -/

def opens (x : String) (m : ChatMessageInput) : Bool := (openedClientCallIds m).contains x

def isResultRow (m : ChatMessageInput) : Bool := m.role = .tool && !m.isPassthroughRow

def spine (rows : List ChatMessageInput) : List ChatMessageInput := rows.filter fun m => !isResultRow m

variable {m : ChatMessageInput} {rows : List ChatMessageInput}

theorem isResultRow_of_id {x : String} (h : resultRowId m = some x) : isResultRow m = true := by
  rw [resultRowId] at h
  split at h
  next hrow => exact hrow
  next => cases h

theorem opens_eq_false (h : isResultRow m = true) (x : String) : opens x m = false := by
  simp only [isResultRow, Bool.and_eq_true, decide_eq_true_eq, Bool.not_eq_true'] at h
  have hnone : openedClientCallIds m = [] := by
    rw [openedClientCallIds, h.2, h.1]
    rfl
  rw [opens, hnone]
  rfl

theorem isTurnRow_eq_false (h : isResultRow m = true) : m.isTurnRow = false := by
  simp only [isResultRow, Bool.and_eq_true, decide_eq_true_eq] at h
  rw [isTurnRow, h.1]
  rfl

/-- Whether a turn row follows the first row that opens the call `x`. -/
def movedPast (x : String) : List ChatMessageInput → Bool
  | [] => false
  | m :: rest => if opens x m then rest.any isTurnRow else movedPast x rest

theorem movedPast_spine (x : String) (rows : List ChatMessageInput) : movedPast x (spine rows) = movedPast x rows := by
  have hany : ∀ rows : List ChatMessageInput, (spine rows).any isTurnRow = rows.any isTurnRow := by
    intro rows
    induction rows with
    | nil => rfl
    | cons m rest ih =>
      cases hm : isResultRow m with
      | true =>
        rw [spine, List.filter_cons_of_neg (by simp [hm]), List.any_cons, isTurnRow_eq_false hm, Bool.false_or]
        exact ih
      | false =>
        rw [spine, List.filter_cons_of_pos (by simp [hm]), List.any_cons, List.any_cons]
        exact congrArg _ ih
  induction rows with
  | nil => rfl
  | cons m rest ih =>
    cases hm : isResultRow m with
    | true =>
      rw [spine, List.filter_cons_of_neg (by simp [hm]), movedPast, opens_eq_false hm]
      exact ih
    | false =>
      rw [spine, List.filter_cons_of_pos (by simp [hm]), movedPast, movedPast]
      split
      · exact hany rest
      · exact ih

theorem movedPast_eq (x : String) (rows : List ChatMessageInput) :
    movedPast x rows = (rows.findIdx? (opens x)).any fun o => (rows.drop (o + 1)).any isTurnRow := by
  induction rows with
  | nil => rfl
  | cons m rest ih =>
    rw [movedPast, List.findIdx?_cons]
    split
    · rfl
    · rw [ih, Option.any_map]
      rfl

/-- Every result row is in the block of its call, after the rows `before`. -/
def PlacedAfter : List ChatMessageInput → List ChatMessageInput → Prop
  | _, [] => True
  | before, m :: rest => (∀ x, resultRowId m = some x → movedPast x before = false) ∧ PlacedAfter (before ++ [m]) rest

theorem placedAfter_append {before others : List ChatMessageInput} :
    PlacedAfter before (rows ++ others) ↔ PlacedAfter before rows ∧ PlacedAfter (before ++ rows) others := by
  induction rows generalizing before with
  | nil => simp [PlacedAfter]
  | cons m rest ih => simp [PlacedAfter, ih, and_assoc]

theorem placedAfter_of_forall (hrows : ∀ m ∈ rows, isResultRow m = true)
    {before : List ChatMessageInput} (h : ∀ m ∈ rows, ∀ x, resultRowId m = some x → movedPast x before = false) :
    PlacedAfter before rows := by
  induction rows generalizing before with
  | nil => trivial
  | cons m rest ih =>
    refine ⟨h m List.mem_cons_self, ih (fun m hm => hrows m (List.mem_cons_of_mem _ hm)) ?_⟩
    intro m' hm' x hx
    have hspine : spine (before ++ [m]) = spine before := by
      rw [spine, List.filter_append, List.filter_cons_of_neg (by simp [hrows m List.mem_cons_self])]
      exact List.append_nil _
    rw [← movedPast_spine, hspine, movedPast_spine]
    exact h m' (List.mem_cons_of_mem _ hm') x hx

/-! ### The scan -/

def scanOf (rows : List ChatMessageInput) : RelocationScan := rows.zipIdx.foldl scanRow ⟨[], [], none⟩

theorem scanOf_concat (rows : List ChatMessageInput) (m : ChatMessageInput) :
    scanOf (rows ++ [m]) = scanRow (scanOf rows) (m, rows.length) := by
  rw [scanOf, List.zipIdx_append, List.foldl_append, Nat.zero_add]
  rfl

def setNew (i : Nat) (owners : List (String × Nat)) (id : String) : List (String × Nat) :=
  if InsertionMap.has owners id then owners else InsertionMap.set owners id i

theorem get_setNew (i : Nat) (owners : List (String × Nat)) (id x : String) :
    InsertionMap.get (setNew i owners id) x = (InsertionMap.get owners x).or (if id = x then some i else none) := by
  rw [setNew]
  by_cases hhas : InsertionMap.has owners id = true
  · rw [if_pos hhas]
    by_cases hx : id = x
    · subst hx
      obtain ⟨p, hp, hkey⟩ := List.mem_map.mp (InsertionMap.has_iff.mp hhas)
      have hsome : (owners.find? fun p => p.1 = id).isSome = true := by
        rw [List.find?_isSome]
        exact ⟨p, hp, by simp [hkey]⟩
      obtain ⟨q, hq⟩ := Option.isSome_iff_exists.mp hsome
      rw [InsertionMap.get, hq]
      rfl
    · rw [if_neg hx, Option.or_none]
  · rw [if_neg hhas, InsertionMap.set, if_neg hhas, InsertionMap.get, InsertionMap.get, List.find?_append]
    by_cases hx : id = x
    · cases owners.find? fun p => p.1 = x with
      | none => simp [hx]
      | some p => simp
    · cases owners.find? fun p => p.1 = x with
      | none => simp [hx]
      | some p => simp

theorem get_foldl_setNew (i : Nat) (ids : List String) (owners : List (String × Nat)) (x : String) :
    InsertionMap.get (ids.foldl (setNew i) owners) x =
      (InsertionMap.get owners x).or (if ids.contains x then some i else none) := by
  induction ids generalizing owners with
  | nil => simp
  | cons id ids ih =>
    rw [List.foldl_cons, ih, get_setNew, Option.or_assoc, List.contains_cons]
    by_cases hx : id = x
    · subst hx
      simp
    · have hne : (x == id) = false := by simp [Ne.symm hx]
      rw [if_neg hx, Option.none_or, hne, Bool.false_or]

theorem get_ownerOf (rows : List ChatMessageInput) (x : String) :
    InsertionMap.get (scanOf rows).ownerOf x = rows.findIdx? (opens x) := by
  induction rows using List.reverseRecOn with
  | nil => rfl
  | append_singleton rows m ih =>
    rw [scanOf_concat, List.findIdx?_append, List.findIdx?_singleton]
    change InsertionMap.get ((openedClientCallIds m).foldl (setNew rows.length) (scanOf rows).ownerOf) x = _
    rw [get_foldl_setNew, ih, opens]
    split
    · simp
    · simp

theorem lastTurnRow_concat (rows : List ChatMessageInput) (m : ChatMessageInput) :
    (scanOf (rows ++ [m])).lastTurnRow = if m.isTurnRow then some rows.length else (scanOf rows).lastTurnRow := by
  rw [scanOf_concat]
  rfl

theorem lastTurnRow_any (rows : List ChatMessageInput) (o : Nat) :
    ((scanOf rows).lastTurnRow.any fun last => o < last) = (rows.drop (o + 1)).any isTurnRow := by
  induction rows using List.reverseRecOn with
  | nil => simp [scanOf]
  | append_singleton rows m ih =>
    rw [lastTurnRow_concat]
    cases hm : m.isTurnRow with
    | false =>
      rw [if_neg (by decide), ih, List.drop_append, List.any_append]
      have hnone : (List.drop (o + 1 - rows.length) [m]).any isTurnRow = false := by
        rw [List.any_eq_false]
        intro m' hm'
        obtain rfl := List.mem_singleton.mp (List.mem_of_mem_drop hm')
        rw [hm]
        decide
      rw [hnone, Bool.or_false]
    | true =>
      rw [if_pos rfl, Option.any_some, List.drop_append, List.any_append]
      by_cases ho : o < rows.length
      · have hsub : o + 1 - rows.length = 0 := by omega
        simp [ho, hsub, hm]
      · have hsub : 1 ≤ o + 1 - rows.length := by omega
        have hdrop : List.drop (o + 1 - rows.length) [m] = [] := List.drop_eq_nil_of_le (by simpa using hsub)
        simp [ho, hdrop, List.drop_eq_nil_of_le (show rows.length ≤ o + 1 by omega)]

theorem mem_displaced (rows : List ChatMessageInput) (d : Displaced) :
    d ∈ (scanOf rows).displaced ↔
      ∃ before after, rows = before ++ d.row :: after ∧ d.index = before.length ∧ resultRowId d.row = some d.id ∧
        before.findIdx? (opens d.id) = some d.owner ∧ (before.drop (d.owner + 1)).any isTurnRow = true := by
  induction rows using List.reverseRecOn with
  | nil => simp [scanOf]
  | append_singleton rows m ih =>
    have hnew : d ∈ (scanOf (rows ++ [m])).displaced ↔ d ∈ (scanOf rows).displaced ∨
        (d.row = m ∧ d.index = rows.length ∧ resultRowId m = some d.id ∧
          rows.findIdx? (opens d.id) = some d.owner ∧ (rows.drop (d.owner + 1)).any isTurnRow = true) := by
      rw [scanOf_concat, scanRow]
      dsimp only
      cases hid : resultRowId m with
      | none => simp
      | some id =>
        dsimp only
        rw [get_ownerOf]
        cases howner : rows.findIdx? (opens id) with
        | none =>
          refine ⟨.inl, ?_⟩
          rintro (hd | ⟨-, -, hid', hfind, -⟩)
          · exact hd
          · rw [← Option.some.inj hid', howner] at hfind
            cases hfind
        | some owner =>
          dsimp only
          rw [lastTurnRow_any]
          split
          next hturn =>
            rw [List.mem_append, List.mem_singleton]
            refine or_congr_right ⟨?_, ?_⟩
            · rintro rfl
              exact ⟨rfl, rfl, rfl, howner, hturn⟩
            · rintro ⟨hrow, hindex, hid', hfind, -⟩
              obtain ⟨index, owner', row, id'⟩ := d
              obtain rfl := Option.some.inj hid'
              rw [howner] at hfind
              obtain rfl := Option.some.inj hfind
              simp only at hrow hindex
              rw [hrow, hindex]
          next hturn =>
            refine ⟨.inl, ?_⟩
            rintro (hd | ⟨-, -, hid', hfind, hany⟩)
            · exact hd
            · obtain rfl := Option.some.inj hid'
              rw [howner] at hfind
              obtain rfl := Option.some.inj hfind
              exact absurd hany hturn
    rw [hnew, ih]
    constructor
    · rintro (⟨before, after, rfl, hrest⟩ | ⟨hrow, hindex, hid, hfind, hturn⟩)
      · exact ⟨before, after ++ [m], by simp, hrest⟩
      · exact ⟨rows, [], by rw [hrow], hindex, hrow ▸ hid, hfind, hturn⟩
    · rintro ⟨before, after, hrows, hindex, hid, hfind, hturn⟩
      cases after using List.reverseRecOn with
      | nil =>
        obtain ⟨rfl, hm⟩ := List.append_inj' hrows rfl
        obtain ⟨rfl, -⟩ := List.cons.inj hm
        exact .inr ⟨rfl, hindex, hid, hfind, hturn⟩
      | append_singleton after m' =>
        rw [← List.cons_append, ← List.append_assoc] at hrows
        obtain ⟨rfl, -⟩ := List.append_inj' hrows rfl
        exact .inl ⟨before, after, rfl, hindex, hid, hfind, hturn⟩

/-! ### Placing the rows -/

section Place

variable {rows done rest before : List ChatMessageInput}

variable {d : Displaced} {m : ChatMessageInput}

theorem isResultRow_of_displaced (h : d ∈ (scanOf rows).displaced) : isResultRow d.row = true := by
  obtain ⟨-, -, -, -, hid, -⟩ := (mem_displaced rows d).mp h
  exact isResultRow_of_id hid

theorem findIdx?_of_displaced (h : d ∈ (scanOf rows).displaced) :
    rows.findIdx? (opens d.id) = some d.owner := by
  obtain ⟨pre, post, hrows, -, -, hfind, -⟩ := (mem_displaced rows d).mp h
  rw [hrows, List.findIdx?_append, hfind, Option.some_or]

theorem lastTurnRow_lt (rows : List ChatMessageInput) {o : Nat} (h : (scanOf rows).lastTurnRow = some o) :
    o < rows.length := by
  by_contra hge
  induction rows using List.reverseRecOn with
  | nil => cases h
  | append_singleton rows m ih =>
    rw [List.length_append, List.length_singleton] at hge
    rw [lastTurnRow_concat] at h
    split at h
    · obtain rfl := Option.some.inj h
      omega
    · exact ih h (by omega)

theorem spine_result (h : isResultRow m = true) (rows : List ChatMessageInput) :
    spine (rows ++ [m]) = spine rows := by
  rw [spine, List.filter_append, List.filter_cons_of_neg (by simp [h])]
  exact List.append_nil _

theorem spine_append (rows others : List ChatMessageInput) : spine (rows ++ others) = spine rows ++ spine others :=
  List.filter_append _ _

theorem spine_displacedByOwner (owner : Option Nat) : spine (displacedByOwner (scanOf rows).displaced owner) = [] := by
  rw [spine, List.filter_eq_nil_iff]
  intro m hm
  obtain ⟨d, hd, rfl⟩ := List.mem_map.mp hm
  simp [isResultRow_of_displaced (List.mem_of_mem_filter hd)]

/-- The results moved to the end of a block are in the block of their call. -/
theorem placed_displacedByOwner (hrows : rows = done ++ rest) (hspine : spine before = spine done) :
    PlacedAfter before (displacedByOwner (scanOf rows).displaced (scanOf done).lastTurnRow) := by
  refine placedAfter_of_forall ?_ ?_
  · intro m hm
    obtain ⟨d, hd, rfl⟩ := List.mem_map.mp hm
    exact isResultRow_of_displaced (List.mem_of_mem_filter hd)
  · intro m hm x hx
    obtain ⟨d, hd, rfl⟩ := List.mem_map.mp hm
    obtain ⟨hd, howner⟩ := List.mem_filter.mp hd
    have hlast : (scanOf done).lastTurnRow = some d.owner := (beq_iff_eq.mp howner).symm
    obtain ⟨-, -, -, -, hid, -⟩ := (mem_displaced rows d).mp hd
    obtain rfl := Option.some.inj (hx.symm.trans hid)
    have hlt := lastTurnRow_lt done hlast
    have hfind := findIdx?_of_displaced hd
    rw [hrows, List.findIdx?_append] at hfind
    have hdone : done.findIdx? (opens d.id) = some d.owner := by
      cases hsome : done.findIdx? (opens d.id) with
      | some o => rwa [hsome, Option.some_or] at hfind
      | none =>
        rw [hsome, Option.none_or] at hfind
        obtain ⟨k, -, hk⟩ := Option.map_eq_some_iff.mp hfind
        omega
    have hnone := lastTurnRow_any done d.owner
    rw [hlast, Option.any_some] at hnone
    rw [← movedPast_spine, hspine, movedPast_spine, movedPast_eq, hdone, Option.any_some, ← hnone]
    exact decide_eq_false (lt_irrefl _)

theorem movedPast_of_not_displaced (hrows : rows = done ++ m :: rest)
    (hd : ((scanOf rows).displaced.any fun d => d.index == done.length) = false) {x : String}
    (hx : resultRowId m = some x) : movedPast x done = false := by
  by_contra hmoved
  rw [Bool.not_eq_false, movedPast_eq] at hmoved
  obtain ⟨owner, howner, hturn⟩ := (Option.any_eq_true _ _).mp hmoved
  have hmem : (⟨done.length, owner, m, x⟩ : Displaced) ∈ (scanOf rows).displaced :=
    (mem_displaced rows _).mpr ⟨done, rest, hrows, rfl, hx, howner, hturn⟩
  rw [List.any_eq_false] at hd
  exact hd _ hmem (beq_self_eq_true _)

theorem row_of_displaced (hrows : rows = done ++ m :: rest)
    (hd : d ∈ (scanOf rows).displaced) (hindex : d.index = done.length) : d.row = m := by
  obtain ⟨pre, post, hsplit, hlen, -⟩ := (mem_displaced rows d).mp hd
  have hinj := List.append_inj (hrows.symm.trans hsplit) (hindex.symm.trans hlen)
  exact (List.cons.inj hinj.2).1.symm

theorem placed_placeRows (hrows : rows = done ++ rest) (hspine : spine before = spine done) :
    PlacedAfter before (placeRows (scanOf rows).displaced done.length (scanOf done).lastTurnRow rest) := by
  induction rest generalizing done before with
  | nil => exact placed_displacedByOwner hrows hspine
  | cons m rest ih =>
    have hnext : rows = (done ++ [m]) ++ rest := by rw [hrows, List.append_assoc, List.singleton_append]
    have hlast := lastTurnRow_concat done m
    have ih' := fun {before} => @ih (done ++ [m]) before hnext
    rw [List.length_append, List.length_singleton] at ih'
    rw [placeRows]
    split
    next hdisplaced =>
      obtain ⟨d, hd, hindex⟩ := List.any_eq_true.mp hdisplaced
      have hm : isResultRow m = true := by
        rw [← row_of_displaced hrows hd (beq_iff_eq.mp hindex)]
        exact isResultRow_of_displaced hd
      rw [isTurnRow_eq_false hm, if_neg (by decide)] at hlast
      rw [hlast] at ih'
      exact ih' (hspine.trans (spine_result hm done).symm)
    next hstays =>
      have hplaced : ∀ x, resultRowId m = some x → movedPast x done = false := fun x hx =>
        movedPast_of_not_displaced hrows (Bool.not_eq_true _ ▸ hstays) hx
      split
      next hturn =>
        rw [if_pos hturn] at hlast
        rw [hlast] at ih'
        rw [placedAfter_append]
        have hspine' : spine (before ++ displacedByOwner (scanOf rows).displaced (scanOf done).lastTurnRow) =
            spine done := by rw [spine_append, spine_displacedByOwner, List.append_nil, hspine]
        refine ⟨placed_displacedByOwner hrows hspine, ?_, ih' ?_⟩
        · intro x hx
          rw [isTurnRow_eq_false (isResultRow_of_id hx)] at hturn
          cases hturn
        · rw [spine_append, hspine', ← spine_append]
      next hturn =>
        rw [if_neg hturn] at hlast
        rw [hlast] at ih'
        refine ⟨?_, ih' ?_⟩
        · intro x hx
          rw [← movedPast_spine, hspine, movedPast_spine]
          exact hplaced x hx
        · rw [spine_append, spine_append, hspine]

theorem spine_placeRows (hrows : rows = done ++ rest) (openOwner : Option Nat) :
    spine (placeRows (scanOf rows).displaced done.length openOwner rest) = spine rest := by
  induction rest generalizing done openOwner with
  | nil => exact spine_displacedByOwner _
  | cons m rest ih =>
    have hnext : rows = (done ++ [m]) ++ rest := by rw [hrows, List.append_assoc, List.singleton_append]
    have ih' := fun openOwner => @ih (done ++ [m]) hnext openOwner
    rw [List.length_append, List.length_singleton] at ih'
    rw [placeRows]
    split
    next hdisplaced =>
      obtain ⟨d, hd, hindex⟩ := List.any_eq_true.mp hdisplaced
      have hm : isResultRow m = true := by
        rw [← row_of_displaced hrows hd (beq_iff_eq.mp hindex)]
        exact isResultRow_of_displaced hd
      rw [ih', spine, spine, List.filter_cons_of_neg (by simp [hm])]
    next =>
      have hcons : ∀ others, spine (m :: others) = spine [m] ++ spine others := fun others => spine_append [m] others
      split
      next => rw [spine_append, spine_displacedByOwner, List.nil_append, hcons, ih', ← hcons]
      next => rw [hcons, ih', ← hcons]

end Place

theorem relocate_eq (rows : List ChatMessageInput) :
    relocateDisplacedToolResults rows =
      if (scanOf rows).displaced.isEmpty then (rows, [])
      else (placeRows (scanOf rows).displaced 0 none rows, (scanOf rows).displaced.map (·.id)) := rfl

theorem placed_relocate (rows : List ChatMessageInput) : PlacedAfter [] (relocateDisplacedToolResults rows).1 := by
  rw [relocate_eq]
  split
  next hnone =>
    have hall : ∀ done rest, rows = done ++ rest → PlacedAfter done rest := by
      intro done rest hrows
      induction rest generalizing done with
      | nil => trivial
      | cons m rest ih =>
        refine ⟨?_, ih (done ++ [m]) (by rw [hrows, List.append_assoc, List.singleton_append])⟩
        intro x hx
        refine movedPast_of_not_displaced hrows ?_ hx
        rw [List.isEmpty_iff.mp hnone]
        rfl
    exact hall [] rows rfl
  next =>
    have hrows : rows = [] ++ rows := rfl
    exact placed_placeRows hrows rfl

theorem spine_relocate (rows : List ChatMessageInput) : spine (relocateDisplacedToolResults rows).1 = spine rows := by
  rw [relocate_eq]
  split
  next => rfl
  next =>
    have hrows : rows = [] ++ rows := rfl
    exact spine_placeRows hrows none

theorem relocate_of_placed (h : PlacedAfter [] rows) :
    relocateDisplacedToolResults rows = (rows, []) := by
  have hnone : (scanOf rows).displaced = [] := by
    rw [List.eq_nil_iff_forall_not_mem]
    intro d hd
    obtain ⟨pre, post, hrows, -, hid, hfind, hturn⟩ := (mem_displaced rows d).mp hd
    rw [hrows, placedAfter_append] at h
    have hplaced := h.2.1 d.id hid
    rw [List.nil_append, movedPast_eq, hfind, Option.any_some, hturn] at hplaced
    cases hplaced
  rw [relocate_eq, hnone]
  rfl

/-! ### Results that are lost -/

/-- A result of the call `x` that stays in the history, or is moved behind the row that opens its call. -/
def KeptResult (rows : List ChatMessageInput) (x : String) : Prop :=
  ∃ before m after, rows = before ++ m :: after ∧ resultRowId m = some x ∧
    (movedPast x before = true → (before.find? (opens x)).any isTurnRow = true)

section Kept

variable {rows done rest : List ChatMessageInput}

theorem mem_displacedByOwner {displaced : List Displaced} {owner : Option Nat} {m : ChatMessageInput} :
    m ∈ displacedByOwner displaced owner ↔ ∃ d ∈ displaced, some d.owner = owner ∧ d.row = m := by
  simp [displacedByOwner, and_assoc]

theorem exists_split_cons {α : Type} {P : Nat → α → Prop} (a : α) (l : List α) :
    (∃ before x after, a :: l = before ++ x :: after ∧ P before.length x) ↔
      P 0 a ∨ ∃ before x after, l = before ++ x :: after ∧ P (before.length + 1) x := by
  constructor
  · rintro ⟨before, x, after, heq, hx⟩
    cases before with
    | nil =>
      obtain ⟨rfl, -⟩ := List.cons.inj heq
      exact .inl hx
    | cons b before =>
      obtain ⟨-, rfl⟩ := List.cons.inj heq
      exact .inr ⟨before, x, after, rfl, hx⟩
  · rintro (ha | ⟨before, x, after, rfl, hx⟩)
    · exact ⟨[], a, l, rfl, ha⟩
    · exact ⟨a :: before, x, after, rfl, hx⟩

theorem mem_placeRows (displaced : List Displaced) (m : ChatMessageInput) (i : Nat) (openOwner : Option Nat)
    (rest : List ChatMessageInput) :
    m ∈ placeRows displaced i openOwner rest ↔
      m ∈ displacedByOwner displaced openOwner ∨
        ∃ before row after, rest = before ++ row :: after ∧
          (displaced.any fun d => d.index == i + before.length) = false ∧
            (row = m ∨ row.isTurnRow = true ∧ m ∈ displacedByOwner displaced (some (i + before.length))) := by
  induction rest generalizing i openOwner with
  | nil => simp [placeRows]
  | cons r rest ih =>
    have hsplit := exists_split_cons (P := fun k row => (displaced.any fun d => d.index == i + k) = false ∧
      (row = m ∨ row.isTurnRow = true ∧ m ∈ displacedByOwner displaced (some (i + k)))) r rest
    have hshift : ∀ k, i + 1 + k = i + (k + 1) := fun k => by omega
    have ih' := fun openOwner => ih (i + 1) openOwner
    simp only [hshift] at ih'
    rw [hsplit, Nat.add_zero, placeRows]
    cases hr : displaced.any fun d => d.index == i with
    | true =>
      rw [if_pos rfl, ih']
      simp
    | false =>
      rw [if_neg (by decide)]
      cases hturn : r.isTurnRow with
      | true =>
        rw [if_pos rfl, List.mem_append, List.mem_cons, ih']
        simp only [true_and, eq_comm (a := m) (b := r), or_assoc]
      | false =>
        rw [if_neg (by decide), List.mem_cons, ih']
        simp only [true_and, Bool.false_eq_true, false_and, or_false, eq_comm (a := m) (b := r)]
        exact or_left_comm

theorem mem_results_relocate (x : String) :
    (∃ m ∈ (relocateDisplacedToolResults rows).1, resultRowId m = some x) ↔ KeptResult rows x := by
  have hturnStays : ∀ {before row after}, rows = before ++ row :: after → row.isTurnRow = true →
      ((scanOf rows).displaced.any fun d => d.index == before.length) = false := by
    intro before row after hrows hturn
    rw [List.any_eq_false]
    intro d hd hindex
    have hrow := isResultRow_of_displaced hd
    rw [row_of_displaced hrows hd (beq_iff_eq.mp hindex)] at hrow
    rw [isTurnRow_eq_false hrow] at hturn
    cases hturn
  rw [relocate_eq]
  split
  next hnone =>
    constructor
    · rintro ⟨m, hm, hx⟩
      obtain ⟨before, after, rfl⟩ := List.append_of_mem hm
      refine ⟨before, m, after, rfl, hx, ?_⟩
      intro hmoved
      rw [movedPast_of_not_displaced rfl (by rw [List.isEmpty_iff.mp hnone]; rfl) hx] at hmoved
      cases hmoved
    · rintro ⟨before, m, after, rfl, hx, -⟩
      exact ⟨m, by simp, hx⟩
  next =>
    constructor
    · rintro ⟨m, hm, hx⟩
      rw [mem_placeRows] at hm
      rcases hm with hm | ⟨before, row, after, hrows, hstays, hm⟩
      · obtain ⟨d, -, howner, -⟩ := mem_displacedByOwner.mp hm
        cases howner
      · rw [Nat.zero_add] at hstays
        rcases hm with rfl | ⟨hturn, hm⟩
        · refine ⟨before, row, after, hrows, hx, ?_⟩
          intro hmoved
          rw [movedPast_of_not_displaced hrows hstays hx] at hmoved
          cases hmoved
        · obtain ⟨d, hd, howner, rfl⟩ := mem_displacedByOwner.mp hm
          obtain ⟨pre, post, hsplit, -, hid, hfind, -⟩ := (mem_displaced rows d).mp hd
          obtain rfl := Option.some.inj (hx.symm.trans hid)
          refine ⟨pre, d.row, post, hsplit, hid, fun _ => ?_⟩
          -- the row at the owner's place is the one that opens the call
          rw [Nat.zero_add] at howner
          obtain ⟨hlt, hopens, hfirst⟩ := List.findIdx?_eq_some_iff_getElem.mp hfind
          have hget : rows[d.owner]? = some row := by
            rw [Option.some.inj howner, hrows, List.getElem?_append_right (le_refl _), Nat.sub_self]
            rfl
          rw [hsplit, List.getElem?_append_left hlt, List.getElem?_eq_getElem hlt] at hget
          obtain rfl := Option.some.inj hget
          rw [List.find?_eq_some_iff_getElem.mpr ⟨hopens, d.owner, hlt, rfl, fun j hj => by
            simpa using hfirst j hj⟩, Option.any_some]
          exact hturn
    · rintro ⟨before, m, after, hrows, hx, hkept⟩
      refine ⟨m, ?_, hx⟩
      rw [mem_placeRows]
      refine .inr ?_
      cases hstays : (scanOf rows).displaced.any fun d => d.index == before.length with
      | false => exact ⟨before, m, after, hrows, by rwa [Nat.zero_add], .inl rfl⟩
      | true =>
        obtain ⟨d, hd, hindex⟩ := List.any_eq_true.mp hstays
        have hrow := row_of_displaced hrows hd (beq_iff_eq.mp hindex)
        obtain ⟨pre, post, hsplit, hlen, hid, hfind, hturn⟩ := (mem_displaced rows d).mp hd
        obtain ⟨rfl, -⟩ := List.append_inj (hrows.symm.trans hsplit) ((beq_iff_eq.mp hindex).symm.trans hlen)
        obtain rfl := Option.some.inj (hx.symm.trans (hrow ▸ hid))
        have hmoved : movedPast d.id before = true := by rw [movedPast_eq, hfind, Option.any_some, hturn]
        obtain ⟨owner, howner, hownerTurn⟩ := (Option.any_eq_true _ _).mp (hkept hmoved)
        obtain ⟨hlt, hopens, hfirst⟩ := List.findIdx?_eq_some_iff_getElem.mp hfind
        have howner' : before[d.owner] = owner := by
          have hfound := List.find?_eq_some_iff_getElem.mpr ⟨hopens, d.owner, hlt, rfl, fun j hj => by
            simpa using hfirst j hj⟩
          exact Option.some.inj (hfound.symm.trans howner)
        have hrows' : rows = before.take d.owner ++ owner :: (before.drop (d.owner + 1) ++ m :: after) := by
          rw [← howner', ← List.cons_append, ← List.drop_eq_getElem_cons hlt, ← List.append_assoc,
            List.take_append_drop]
          exact hrows
        have hlen' : (before.take d.owner).length = d.owner := by
          rw [List.length_take]
          omega
        refine ⟨before.take d.owner, owner, _, hrows', ?_, .inr ⟨hownerTurn, ?_⟩⟩
        · rw [Nat.zero_add]
          exact hturnStays hrows' hownerTurn
        · rw [mem_displacedByOwner, Nat.zero_add, hlen']
          exact ⟨d, hd, rfl, hrow⟩

end Kept

end CaeloCms.Chat.History
