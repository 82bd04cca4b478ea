import CaeloCms.Chat.RowFacts

/-!
# Repairing a repaired history

The repair of its own output changes nothing, unless the repair answers a call twice: it collects the calls of a row
that are due an answer before it records any of them as answered, so a row that makes one call twice gets two results
for it, and the next repair drops the second (`repair_again_iff`).
-/

namespace CaeloCms.Chat.History

open ChatMessageInput (isPassthroughRow isTurnRow)

/-! ### The run over the rows -/

def stateAfter (inv : Inventory) : Nat → Answered → List ChatMessageInput → Answered
  | _, st, [] => st
  | index, st, m :: rest => stateAfter inv (index + 1) (repairRow inv m index st).2 rest

def outRows (inv : Inventory) (index : Nat) (st : Answered) (rest : List ChatMessageInput) : List ChatMessageInput :=
  (repairRows inv index st rest).flatMap RowRepair.rows

theorem outRows_cons (inv : Inventory) (index : Nat) (st : Answered) (m : ChatMessageInput)
    (rest : List ChatMessageInput) :
    outRows inv index st (m :: rest) =
      (repairRow inv m index st).1.rows ++ outRows inv (index + 1) (repairRow inv m index st).2 rest := rfl

/-- Every call before a later turn row is answered. -/
def Settled (results : List String) : List ChatMessageInput → Prop
  | [] => True
  | m :: rest => (rest.any isTurnRow = true → ∀ c ∈ rowClientCalls m, c.toolCallId ∈ results) ∧ Settled results rest

theorem Settled.of_split {results : List String} {rows : List ChatMessageInput} (h : Settled results rows)
    {before after : List ChatMessageInput} {m : ChatMessageInput} (hrows : rows = before ++ m :: after)
    (hturn : after.any isTurnRow = true) : ∀ c ∈ rowClientCalls m, c.toolCallId ∈ results := by
  induction before generalizing rows with
  | nil =>
    subst hrows
    exact h.1 hturn
  | cons b before ih =>
    subst hrows
    exact ih h.2 rfl

theorem settled_append {results : List String} {rows others : List ChatMessageInput}
    (hrows : ∀ m ∈ rows, ∀ c ∈ rowClientCalls m, c.toolCallId ∈ results) (hothers : Settled results others) :
    Settled results (rows ++ others) := by
  induction rows with
  | nil => exact hothers
  | cons m rest ih =>
    exact ⟨fun _ => hrows m List.mem_cons_self, ih fun m' hm' => hrows m' (List.mem_cons_of_mem _ hm')⟩

theorem settled_of_tail {results : List String} {rows others : List ChatMessageInput}
    (htail : rows.tail.any isTurnRow = false) (hturns : others.any isTurnRow = false) (hothers : Settled results others) :
    Settled results (rows ++ others) := by
  have hquiet : ∀ {rows : List ChatMessageInput}, rows.any isTurnRow = false → (rows ++ others).any isTurnRow = false := by
    intro rows hrows
    rw [List.any_append, hrows, hturns]
    rfl
  have hsettled : ∀ {rows : List ChatMessageInput}, rows.any isTurnRow = false → Settled results (rows ++ others) := by
    intro rows hrows
    induction rows with
    | nil => exact hothers
    | cons m rest ih =>
      rw [List.any_cons, Bool.or_eq_false_iff] at hrows
      exact ⟨fun hturn => absurd ((hquiet hrows.2).symm.trans hturn) (by decide), ih hrows.2⟩
  cases rows with
  | nil => exact hothers
  | cons m rest => exact ⟨fun hturn => absurd ((hquiet htail).symm.trans hturn) (by decide), hsettled htail⟩

theorem passthrough_of_result {m : ChatMessageInput} (h : isResultRow m = true) : m.isPassthroughRow = false := by
  rw [isResultRow, Bool.and_eq_true, Bool.not_eq_true'] at h
  exact h.2

section Run

variable {msgs : List ChatMessageInput}

/-- What the run has answered when it comes to a row. -/
structure Reached (msgs : List ChatMessageInput) (st : Answered) : Prop where
  results : ∀ x ∈ resultIds msgs, x ∈ st.results
  emitted : ∀ x ∈ st.emitted, x ∈ resultIds msgs

variable {st : Answered} {done rest rows : List ChatMessageInput} {m : ChatMessageInput}

theorem rowFacts_run (hst : Reached msgs st) (m : ChatMessageInput) (index : Nat) :
    RowFacts (takeInventory msgs) m index st (repairRow (takeInventory msgs) m index st).1.rows
      (repairRow (takeInventory msgs) m index st).2 :=
  rowFacts_repairRow hst.results fun _ => not_dangling

theorem Reached.next
    (hst : Reached msgs st) (hmsgs : msgs = done ++ m :: rest) :
    Reached msgs (repairRow (takeInventory msgs) m done.length st).2 := by
  have hfacts := rowFacts_run hst m done.length
  refine ⟨?_, ?_⟩
  · intro x hx
    rw [hfacts.answered]
    exact List.mem_append_left _ (hst.results x hx)
  · intro x hx
    obtain ⟨first, -, -, hfirst, hemitted⟩ := hfacts.once
    rcases (hemitted x).mp hx with hx | hx
    · exact hst.emitted x hx
    · exact rowResultIds_mem (by simp [hmsgs]) (hfirst x hx).2

structure RunFacts (msgs rest : List ChatMessageInput) (st : Answered) (out : List ChatMessageInput)
    (st' : Answered) : Prop where
  emittedMono : ∀ x ∈ st.emitted, x ∈ st'.emitted
  resultsMono : ∀ x ∈ st.results, x ∈ st'.results
  uses : ∀ x ∈ useIds rest, x ∈ resultIds msgs → x ∈ useIds out
  usesOf : ∀ x ∈ useIds out, x ∈ useIds rest
  results : ∀ x ∈ resultIds rest, x ∈ useIds msgs → x ∈ resultIds out ∨ x ∈ st'.emitted
  emitted : ∀ x ∈ st'.emitted, x ∈ st.emitted ∨ x ∈ resultIds out
  answered : ∀ x ∈ st'.results, x ∈ st.results ∨ x ∈ resultIds out
  servers : ∀ m ∈ out, ∀ x ∈ rowServerCallIds m, x ∈ resultIds msgs
  clients : Settled st'.results out
  calls : ∀ m ∈ out, m.isPassthroughRow = false → m.role = .assistant → ∀ tc ∈ m.calls, tc.id ∈ st'.results
  tools : ∀ m ∈ out, isResultRow m = true → ∃ x, resultRowId m = some x ∧ x ∈ useIds msgs ∧ x ∈ resultIds msgs
  turns : out.any isTurnRow = true → rest.any isTurnRow = true

theorem useIds_append (rows others : List ChatMessageInput) : useIds (rows ++ others) = useIds rows ++ useIds others :=
  List.flatMap_append

theorem resultIds_append (rows others : List ChatMessageInput) :
    resultIds (rows ++ others) = resultIds rows ++ resultIds others :=
  List.flatMap_append

theorem mem_resultIds_of_emitted {x : String} (h : x ∈ rows.flatMap emittedIds) :
    x ∈ resultIds rows := by
  obtain ⟨m, hm, hx⟩ := List.mem_flatMap.mp h
  exact rowResultIds_mem hm (emittedIds_subset hx)

theorem runFacts (hmsgs : msgs = done ++ rest)
    (hst : Reached msgs st) :
    RunFacts msgs rest st (outRows (takeInventory msgs) done.length st rest)
      (stateAfter (takeInventory msgs) done.length st rest) := by
  induction rest generalizing done st with
  | nil =>
    exact ⟨fun _ hx => hx, fun _ hx => hx, by simp [useIds], fun _ hx => hx, by simp [resultIds], fun _ hx => .inl hx,
      fun _ hx => .inl hx, by simp [outRows, repairRows], trivial, by simp [outRows, repairRows],
      by simp [outRows, repairRows], fun hx => hx⟩
  | cons m rest ih =>
    have hfacts := rowFacts_run hst m done.length
    have hnext : msgs = (done ++ [m]) ++ rest := by rw [hmsgs, List.append_assoc, List.singleton_append]
    have hrest := ih hnext (hst.next hmsgs)
    rw [List.length_append, List.length_singleton] at hrest
    obtain ⟨first, hflat, -, hfirst, hemitted⟩ := hfacts.once
    have hfirstOut : ∀ x ∈ first, x ∈ resultIds (repairRow (takeInventory msgs) m done.length st).1.rows := fun x hx =>
      mem_resultIds_of_emitted (hflat ▸ List.mem_append_left _ hx)
    have hdueOut : ∀ x ∈ (dueCalls (takeInventory msgs) m done.length st).map (·.toolCallId),
        x ∈ resultIds (repairRow (takeInventory msgs) m done.length st).1.rows := fun x hx =>
      mem_resultIds_of_emitted (hflat ▸ List.mem_append_right _ hx)
    have hm : m ∈ msgs := by simp [hmsgs]
    rw [outRows_cons, stateAfter]
    refine ⟨?_, ?_, ?_, ?_, ?_, ?_, ?_, ?_, ?_, ?_, ?_, ?_⟩
    · intro x hx
      exact hrest.emittedMono x ((hemitted x).mpr (.inl hx))
    · intro x hx
      refine hrest.resultsMono x ?_
      rw [hfacts.answered]
      exact List.mem_append_left _ hx
    · intro x hx hanswered
      rw [useIds_append, List.mem_append]
      rw [useIds, List.flatMap_cons, List.mem_append] at hx
      rcases hx with hx | hx
      · exact .inl (hfacts.uses x hx hanswered)
      · exact .inr (hrest.uses x hx hanswered)
    · intro x hx
      rw [useIds, List.flatMap_cons, List.mem_append]
      rw [useIds_append, List.mem_append] at hx
      exact hx.imp (hfacts.usesOf x) (hrest.usesOf x)
    · intro x hx huse
      rw [resultIds_append, List.mem_append]
      rw [resultIds, List.flatMap_cons, List.mem_append] at hx
      rcases hx with hx | hx
      · rcases hfacts.results x hx huse with hx | hx
        · exact .inl (.inl hx)
        · exact .inr (hrest.emittedMono x hx)
      · exact (hrest.results x hx huse).imp_left .inr
    · intro x hx
      rw [resultIds_append, List.mem_append]
      rcases hrest.emitted x hx with hx | hx
      · rcases (hemitted x).mp hx with hx | hx
        · exact .inl hx
        · exact .inr (.inl (hfirstOut x hx))
      · exact .inr (.inr hx)
    · intro x hx
      rw [resultIds_append, List.mem_append]
      rcases hrest.answered x hx with hx | hx
      · rw [hfacts.answered, List.mem_append] at hx
        exact hx.imp_right fun hx => .inl (hdueOut x hx)
      · exact .inr (.inr hx)
    · intro m' hm' x hx
      rcases List.mem_append.mp hm' with hm' | hm'
      · obtain ⟨hserver, hsafe⟩ := hfacts.servers m' hm' x hx
        by_contra hnone
        refine hsafe (List.mem_filter.mpr ⟨List.mem_flatMap.mpr ⟨m, hm, hserver⟩, ?_⟩)
        simpa [resultIds] using hnone
      · exact hrest.servers m' hm' x hx
    · by_cases hturn : rest.any isTurnRow = true
      · refine settled_append ?_ hrest.clients
        intro m' hm' c hc
        rw [← lastTurnIndex_split hmsgs] at hturn
        exact hrest.resultsMono _ (hfacts.clients m' hm' c hc hturn)
      · have hnone : ∀ {rows : List ChatMessageInput}, ¬rows.any isTurnRow = true → rows.any isTurnRow = false :=
          Bool.eq_false_iff.mpr
        exact settled_of_tail hfacts.tail (hnone fun hout => hturn (hrest.turns hout)) hrest.clients
    · intro m' hm' hpassthrough hassistant tc htc
      rcases List.mem_append.mp hm' with hm' | hm'
      · exact hrest.resultsMono _ (hfacts.calls m' hm' hpassthrough hassistant tc htc)
      · exact hrest.calls m' hm' hpassthrough hassistant tc htc
    · intro m' hm' hresult
      rcases List.mem_append.mp hm' with hm' | hm'
      · obtain ⟨-, rfl, x, hx, huse, -⟩ := hfacts.tools m' hm' hresult
        refine ⟨x, hx, huse, rowResultIds_mem hm ?_⟩
        rw [rowResultIds_other (passthrough_of_result hresult), hx]
        exact List.mem_singleton_self x
      · exact hrest.tools m' hm' hresult
    · intro hturn
      rw [List.any_append, Bool.or_eq_true] at hturn
      rw [List.any_cons, Bool.or_eq_true]
      exact hturn.imp hfacts.turns hrest.turns

/-! ### Placement -/

theorem movedPast_append (x : String) (rows others : List ChatMessageInput) :
    movedPast x (rows ++ others) =
      if rows.any (opens x) then movedPast x rows || others.any isTurnRow else movedPast x others := by
  induction rows with
  | nil => rfl
  | cons m rest ih =>
    rw [List.cons_append, movedPast, movedPast, List.any_cons, List.any_append]
    cases hm : opens x m with
    | true => simp
    | false => simpa [hm] using ih

def SameBlocks (msgs : List ChatMessageInput) (st : Answered) (done out : List ChatMessageInput) : Prop :=
  ∀ x ∈ resultIds msgs, x ∉ st.emitted →
    out.any (opens x) = done.any (opens x) ∧ (movedPast x out = true → movedPast x done = true)

theorem SameBlocks.next {out : List ChatMessageInput} {st' : Answered}
    {index : Nat} (h : SameBlocks msgs st done out) (hfacts : RowFacts (takeInventory msgs) m index st rows st') :
    SameBlocks msgs st' (done ++ [m]) (out ++ rows) := by
  intro x hx hfresh
  obtain ⟨first, -, -, -, hemitted⟩ := hfacts.once
  obtain ⟨hopens, hmoved⟩ := h x hx fun hmem => hfresh ((hemitted x).mpr (.inl hmem))
  have hrows : rows.any (opens x) = opens x m := hfacts.opens x hx hfresh
  refine ⟨?_, ?_⟩
  · rw [List.any_append, List.any_append, hopens, hrows, List.any_cons, List.any_nil, Bool.or_false]
  · rw [movedPast_append, movedPast_append, hopens]
    split
    next =>
      rw [Bool.or_eq_true, Bool.or_eq_true, List.any_cons, List.any_nil, Bool.or_false]
      exact fun hout => hout.imp hmoved hfacts.turns
    next =>
      rw [hfacts.moved]
      exact nofun

theorem placed_outRows {out : List ChatMessageInput} (hmsgs : msgs = done ++ rest)
    (hst : Reached msgs st) (hplaced : PlacedAfter done rest) (hblocks : SameBlocks msgs st done out) :
    PlacedAfter out (outRows (takeInventory msgs) done.length st rest) := by
  induction rest generalizing done out st with
  | nil => trivial
  | cons m rest ih =>
    have hfacts := rowFacts_run hst m done.length
    have hnext : msgs = (done ++ [m]) ++ rest := by rw [hmsgs, List.append_assoc, List.singleton_append]
    have hrest := ih hnext (hst.next hmsgs) hplaced.2 (hblocks.next hfacts)
    rw [List.length_append, List.length_singleton] at hrest
    rw [outRows_cons, placedAfter_append]
    refine ⟨?_, hrest⟩
    by_cases hresult : ∃ m' ∈ (repairRow (takeInventory msgs) m done.length st).1.rows, isResultRow m' = true
    · obtain ⟨m', hm', hresult⟩ := hresult
      obtain ⟨hrows, rfl, x, hx, -, hfresh⟩ := hfacts.tools m' hm' hresult
      rw [hrows]
      refine ⟨?_, trivial⟩
      intro y hy
      obtain rfl := Option.some.inj (hx.symm.trans hy)
      have hmem : x ∈ resultIds msgs := by
        refine rowResultIds_mem (by simp [hmsgs] : m' ∈ msgs) ?_
        rw [rowResultIds_other (passthrough_of_result hresult), hx]
        exact List.mem_singleton_self x
      obtain ⟨-, hmoved⟩ := hblocks x hmem hfresh
      by_contra hpast
      have hdone := hplaced.1 x hx
      rw [hmoved (Bool.not_eq_false _ ▸ hpast)] at hdone
      cases hdone
    · have hnone : ∀ {rows : List ChatMessageInput} {before : List ChatMessageInput},
          (¬∃ m' ∈ rows, isResultRow m' = true) → PlacedAfter before rows := by
        intro rows before hrows
        induction rows generalizing before with
        | nil => trivial
        | cons r rows ih =>
          refine ⟨fun x hx => absurd ⟨r, List.mem_cons_self, isResultRow_of_id hx⟩ hrows, ih ?_⟩
          rintro ⟨m', hm', hresult'⟩
          exact hrows ⟨m', List.mem_cons_of_mem _ hm', hresult'⟩
      exact hnone hresult

/-! ### Repeated calls -/

/-- Whether the first row that makes the call `x` makes it twice, and a turn row follows. -/
def repeatsCall (x : String) : List ChatMessageInput → Bool
  | [] => false
  | m :: rest =>
    let n := ((rowClientCalls m).map (·.toolCallId)).count x
    if n = 0 then repeatsCall x rest else 2 ≤ n && rest.any isTurnRow

theorem repeatsCall_of_no_turn {x : String} (h : rows.any isTurnRow = false) :
    repeatsCall x rows = false := by
  induction rows with
  | nil => rfl
  | cons m rest ih =>
    rw [List.any_cons, Bool.or_eq_false_iff] at h
    rw [repeatsCall]
    split
    next => exact ih h.2
    next => rw [h.2, Bool.and_false]

theorem repeatsCall_spine (x : String) (rows : List ChatMessageInput) :
    repeatsCall x (spine rows) = repeatsCall x rows := by
  induction rows with
  | nil => rfl
  | cons m rest ih =>
    cases hm : isResultRow m with
    | true =>
      rw [spine, List.filter_cons_of_neg (by simp [hm]), repeatsCall, rowClientCalls_other (passthrough_of_result hm)]
      exact ih
    | false =>
      have hany : (spine rest).any isTurnRow = rest.any isTurnRow := by
        rw [spine, List.any_filter]
        refine congrArg (List.any rest) (funext fun r => ?_)
        cases hr : isResultRow r with
        | true => rw [isTurnRow_eq_false hr, Bool.and_false]
        | false => rfl
      rw [spine, List.filter_cons_of_pos (by simp [hm]), repeatsCall, repeatsCall]
      split
      next => exact ih
      next => exact congrArg _ hany

/-- In the run over the rest of the rows, no row answers a call twice. -/
def DueOnce (inv : Inventory) : Nat → Answered → List ChatMessageInput → Prop
  | _, _, [] => True
  | index, st, m :: rest =>
    ((dueCalls inv m index st).map (·.toolCallId)).Nodup ∧ DueOnce inv (index + 1) (repairRow inv m index st).2 rest

theorem dueCalls_ids (hmsgs : msgs = done ++ m :: rest)
    (st : Answered) :
    (dueCalls (takeInventory msgs) m done.length st).map (·.toolCallId) =
      if rest.any isTurnRow then ((rowClientCalls m).map (·.toolCallId)).filter fun x => !st.results.contains x
      else [] := by
  rw [dueCalls, lastTurnIndex_split hmsgs]
  cases rest.any isTurnRow with
  | true =>
    rw [if_pos rfl, List.filter_map]
    simp only [Bool.and_true]
    rfl
  | false =>
    rw [if_neg (by decide)]
    simp

theorem nodup_filter_iff {ids : List String} {p : String → Bool} :
    (ids.filter p).Nodup ↔ ∀ x, p x = true → ids.count x ≤ 1 := by
  rw [List.nodup_iff_count_le_one]
  constructor
  · intro h x hx
    have hcount := h x
    rwa [List.count_filter hx] at hcount
  · intro h x
    by_cases hx : p x = true
    · rw [List.count_filter hx]
      exact h x hx
    · rw [List.count_eq_zero.mpr fun hmem => hx (List.mem_filter.mp hmem).2]
      exact Nat.zero_le 1

/-- The run answers no call twice, when no call without a result is made twice. -/
theorem dueOnce_iff (hmsgs : msgs = done ++ rest)
    (hst : Reached msgs st) :
    DueOnce (takeInventory msgs) done.length st rest ↔ ∀ x, x ∉ st.results → repeatsCall x rest = false := by
  induction rest generalizing done st with
  | nil => simp [DueOnce, repeatsCall]
  | cons m rest ih =>
    have hnext : msgs = (done ++ [m]) ++ rest := by rw [hmsgs, List.append_assoc, List.singleton_append]
    have hrest := ih hnext (hst.next hmsgs)
    rw [List.length_append, List.length_singleton] at hrest
    have hanswered := (rowFacts_run hst m done.length).answered
    rw [DueOnce, hrest, hanswered, dueCalls_ids hmsgs]
    cases hturn : rest.any isTurnRow with
    | false =>
      have hquiet : ∀ x, repeatsCall x rest = false := fun x => repeatsCall_of_no_turn hturn
      simp [repeatsCall, hquiet, hturn]
    | true =>
      rw [if_pos rfl, nodup_filter_iff]
      simp only [repeatsCall, hturn, Bool.and_true, List.mem_append, List.mem_filter, Bool.not_eq_true',
        List.contains_eq_mem, decide_eq_false_iff_not, not_or]
      constructor
      · rintro ⟨honce, hlater⟩ x hx
        have hle := honce x hx
        split
        next hzero =>
          refine hlater x ⟨hx, fun hmem => ?_⟩
          exact List.count_eq_zero.mp hzero hmem.1
        next => exact decide_eq_false (by omega)
      · intro h
        refine ⟨fun x hx => ?_, fun x hx => ?_⟩
        · have hrep := h x hx
          split at hrep
          next hzero => omega
          next =>
            have hlt := of_decide_eq_false hrep
            omega
        · have hrep := h x hx.1
          have hzero : ((rowClientCalls m).map (·.toolCallId)).count x = 0 :=
            List.count_eq_zero.mpr fun hmem => hx.2 ⟨hmem, hx.1⟩
          rwa [if_pos hzero] at hrep

/-! ### Emission -/

/-- What the rest of the run emits is new, and it repeats nothing when no row answers a call twice. -/
theorem emission_outRows (hmsgs : msgs = done ++ rest)
    (hst : Reached msgs st) :
    (∀ x ∈ (outRows (takeInventory msgs) done.length st rest).flatMap emittedIds,
        x ∉ st.emitted ∧ (x ∈ st.results → x ∈ resultIds msgs)) ∧
      (((outRows (takeInventory msgs) done.length st rest).flatMap emittedIds).Nodup ↔
        DueOnce (takeInventory msgs) done.length st rest) := by
  induction rest generalizing done st with
  | nil => simp [outRows, repairRows, DueOnce]
  | cons m rest ih =>
    have hnext : msgs = (done ++ [m]) ++ rest := by rw [hmsgs, List.append_assoc, List.singleton_append]
    have hrest := ih hnext (hst.next hmsgs)
    rw [List.length_append, List.length_singleton] at hrest
    obtain ⟨hfresh, hnodup⟩ := hrest
    have hfacts := rowFacts_run hst m done.length
    obtain ⟨first, hflat, hfirstNodup, hfirst, hemitted⟩ := hfacts.once
    have hdue : ∀ x ∈ (dueCalls (takeInventory msgs) m done.length st).map (·.toolCallId), x ∉ st.results := fun x =>
      not_answered_of_due
    have hfirstResult : ∀ x ∈ first, x ∈ resultIds msgs := fun x hx =>
      rowResultIds_mem (by simp [hmsgs]) (hfirst x hx).2
    rw [outRows_cons, List.flatMap_append, hflat, DueOnce, ← hnodup]
    constructor
    · intro x hx
      rcases List.mem_append.mp hx with hx | hx
      · rcases List.mem_append.mp hx with hx | hx
        · exact ⟨(hfirst x hx).1, fun _ => hfirstResult x hx⟩
        · exact ⟨fun hmem => hdue x hx (hst.results x (hst.emitted x hmem)), fun hmem => absurd hmem (hdue x hx)⟩
      · obtain ⟨hnot, hresult⟩ := hfresh x hx
        refine ⟨fun hmem => hnot ((hemitted x).mpr (.inl hmem)), fun hmem => hresult ?_⟩
        rw [hfacts.answered]
        exact List.mem_append_left _ hmem
    · rw [List.nodup_append, List.nodup_append]
      constructor
      · rintro ⟨⟨-, hdueNodup, -⟩, hlater, -⟩
        exact ⟨hdueNodup, hlater⟩
      · rintro ⟨hdueNodup, hlater⟩
        refine ⟨⟨hfirstNodup, hdueNodup, ?_⟩, hlater, ?_⟩
        · rintro x hx y hy rfl
          exact hdue x hy (hst.results x (hfirstResult x hx))
        · rintro x hx y hy rfl
          obtain ⟨hnot, hresult⟩ := hfresh x hy
          rcases List.mem_append.mp hx with hx | hx
          · exact hnot ((hemitted x).mpr (.inr hx))
          · refine hdue x hx (hst.results x (hresult ?_))
            rw [hfacts.answered]
            exact List.mem_append_right _ hx

end Run

/-! ### The second repair -/

section Again

variable (stored : List ChatMessageInput)

def relocated : List ChatMessageInput := (relocateDisplacedToolResults stored).1

theorem messages_eq :
    (repairToolCallPairing stored).messages =
      outRows (takeInventory (relocated stored)) 0 ⟨[], resultIds (relocated stored)⟩ (relocated stored) := rfl

theorem reached_start (msgs : List ChatMessageInput) : Reached msgs ⟨[], resultIds msgs⟩ :=
  ⟨fun _ hx => hx, by simp⟩

/-- What a history keeps to that the provider accepts, apart from repeated results. -/
structure Paired (rows : List ChatMessageInput) : Prop where
  placed : PlacedAfter [] rows
  servers : ∀ m ∈ rows, ∀ x ∈ rowServerCallIds m, x ∈ resultIds rows
  clients : ∀ before m after, rows = before ++ m :: after → after.any isTurnRow = true →
    ∀ c ∈ rowClientCalls m, c.toolCallId ∈ resultIds rows
  calls : ∀ m ∈ rows, m.isPassthroughRow = false → m.role = .assistant → ∀ tc ∈ m.calls, tc.id ∈ resultIds rows
  tools : ∀ m ∈ rows, isResultRow m = true → ∃ x, resultRowId m = some x ∧ x ∈ useIds rows

/-- An id that is answered and called is so in the repaired history. -/
theorem kept_repaired {x : String} (hx : x ∈ resultIds (relocated stored)) (huse : x ∈ useIds (relocated stored)) :
    x ∈ useIds (repairToolCallPairing stored).messages ∧ x ∈ resultIds (repairToolCallPairing stored).messages := by
  have hmsgs : relocated stored = [] ++ relocated stored := rfl
  have hrun := runFacts hmsgs (reached_start (relocated stored))
  rw [List.length_nil, ← messages_eq] at hrun
  refine ⟨hrun.uses x huse hx, ?_⟩
  rcases hrun.results x hx huse with hx | hx
  · exact hx
  · exact (hrun.emitted x hx).resolve_left List.not_mem_nil

theorem paired_repaired : Paired (repairToolCallPairing stored).messages := by
  have hmsgs : relocated stored = [] ++ relocated stored := rfl
  have hrun := runFacts hmsgs (reached_start (relocated stored))
  have hblocks : SameBlocks (relocated stored) ⟨[], resultIds (relocated stored)⟩ [] [] := fun _ _ _ => ⟨rfl, id⟩
  have hplaced := placed_outRows hmsgs (reached_start (relocated stored)) (placed_relocate stored) hblocks
  rw [List.length_nil, ← messages_eq] at hrun hplaced
  have hanswered : ∀ x ∈ (stateAfter (takeInventory (relocated stored)) 0 ⟨[], resultIds (relocated stored)⟩
      (relocated stored)).results, x ∈ useIds (repairToolCallPairing stored).messages →
        x ∈ resultIds (repairToolCallPairing stored).messages := by
    intro x hx huse
    rcases hrun.answered x hx with hx | hx
    · exact (kept_repaired stored hx (hrun.usesOf x huse)).2
    · exact hx
  refine ⟨hplaced, ?_, ?_, ?_, ?_⟩
  · intro m hm x hx
    have huse : x ∈ useIds (repairToolCallPairing stored).messages := by
      refine rowUseIds_mem hm ?_
      rw [rowServerCallIds] at hx
      rw [rowUseIds]
      split at hx
      next hrow =>
        obtain ⟨part, hpart, hid⟩ := List.mem_filterMap.mp hx
        rw [if_pos hrow]
        exact List.mem_filterMap.mpr ⟨part, hpart, useIdOf_of_server hid⟩
      next => cases hx
    exact (kept_repaired stored (hrun.servers m hm x hx) (hrun.usesOf x huse)).2
  · intro before m after hrows hturn c hc
    have hm : m ∈ (repairToolCallPairing stored).messages := by simp [hrows]
    refine hanswered _ (hrun.clients.of_split hrows hturn c hc) (rowUseIds_mem hm ?_)
    rw [rowClientCalls] at hc
    rw [rowUseIds]
    split at hc
    next hrow =>
      obtain ⟨part, hpart, hid⟩ := List.mem_filterMap.mp hc
      rw [if_pos hrow]
      exact List.mem_filterMap.mpr ⟨part, hpart, useIdOf_of_client hid⟩
    next => cases hc
  · intro m hm hpassthrough hrole tc htc
    refine hanswered _ (hrun.calls m hm hpassthrough hrole tc htc) (rowUseIds_mem hm ?_)
    rw [rowUseIds_assistant hpassthrough hrole]
    exact List.mem_map_of_mem htc
  · intro m hm hresultRow
    obtain ⟨x, hx, huse, hanswered⟩ := hrun.tools m hm hresultRow
    exact ⟨x, hx, hrun.uses x huse hanswered⟩

theorem clean_repaired (honce : ((repairToolCallPairing stored).messages.flatMap emittedIds).Nodup) :
    Clean (repairToolCallPairing stored).messages :=
  have h := paired_repaired stored
  ⟨h.placed, h.servers, h.clients, h.calls, h.tools, honce⟩

theorem useIds_spine (rows : List ChatMessageInput) : useIds (spine rows) = useIds rows := by
  induction rows with
  | nil => rfl
  | cons m rest ih =>
    cases hm : isResultRow m with
    | false =>
      rw [spine, List.filter_cons_of_pos (by simp [hm])]
      exact congrArg (rowUseIds m ++ ·) ih
    | true =>
      have hrole : m.role = .tool ∧ m.isPassthroughRow = false := by simpa [isResultRow] using hm
      have hnone : rowUseIds m = [] := by
        rw [rowUseIds, hrole.2, hrole.1]
        rfl
      rw [spine, List.filter_cons_of_neg (by simp [hm])]
      exact ih.trans (congrArg (· ++ useIds rest) hnone).symm

end Again

/-! ### Histories that the repair leaves alone -/

section Untouched

variable {inv : Inventory} {m : ChatMessageInput} {index : Nat} {st : Answered}

theorem push_emitted (calls : List PassthroughClientCall) (m' : ChatMessageInput) (st : Answered) :
    (pushWithInterruptedAnswers inv m' calls index st).2.emitted = st.emitted := by
  rw [(push_rows inv index calls m' st).2]

theorem once_of_repairRow (hdropped : (repairRow inv m index st).1.droppedToolResultIds = [])
    (hstripped : (repairRow inv m index st).1.strippedServerToolCallIds = []) :
    (emittedIds m).Nodup ∧ (∀ x ∈ emittedIds m, x ∉ st.emitted) ∧
      ∀ x, x ∈ (repairRow inv m index st).2.emitted ↔ x ∈ st.emitted ∨ x ∈ emittedIds m := by
  rw [repairRow] at hdropped hstripped ⊢
  split at hdropped
  next hrow =>
    rw [if_pos hrow] at hstripped
    have hsdk : m.sdk.isEmpty = false := by simpa [isPassthroughRow] using hrow
    rw [if_pos hrow, emittedIds, if_pos hrow]
    rw [repairPassthroughRow] at hdropped hstripped ⊢
    simp only [dropRepeatedToolResults_eq] at hdropped hstripped ⊢
    have htoStrip : ((OrderedSet.addAll [] (rowServerCallIds m)).filter fun id =>
        inv.danglingServerCallIds.contains id) = [] := by
      split_ifs at hstripped <;> exact hstripped
    rw [htoStrip] at hdropped ⊢
    simp only [List.isEmpty_nil, if_true, hsdk, Bool.false_eq_true, if_false] at hdropped ⊢
    have hnil : (dropRepeatedMessages st.emitted m.sdk).2.1 = [] := by
      split at hdropped
      next => exact hdropped
      next => exact hdropped
    have honce := dropRepeatedMessages_eq_nil.mp hnil
    have hkeeps := keepsFirst_messages st.emitted m.sdk
    rw [dropRepeatedMessages_same hnil] at hkeeps ⊢
    refine ⟨honce.1, honce.2, fun x => ?_⟩
    rw [← hkeeps.mem x, hsdk]
    simp only [Bool.false_eq_true, if_false, push_emitted]
  next hrow =>
    rw [if_neg hrow]
    have hrow' : m.isPassthroughRow = false := Bool.not_eq_true _ ▸ hrow
    rw [emittedIds_other hrow']
    have hquiet : m.role ≠ .tool → (resultRowId m).toList = [] := fun hnot => by
      rw [resultRowId_of_turn hrow' hnot]
      rfl
    cases hrole : m.role with
    | tool =>
      rw [hrole] at hdropped
      dsimp only at hdropped ⊢
      rw [repairToolRow] at hdropped ⊢
      cases hid : resultRowId m with
      | none =>
        rw [hid] at hdropped
        cases hdropped
      | some id =>
        rw [hid] at hdropped
        dsimp only at hdropped ⊢
        split at hdropped
        next => cases hdropped
        next hkeep =>
          rw [if_neg hkeep]
          simp only [Bool.or_eq_true, Bool.not_eq_true', not_or, List.contains_iff_mem] at hkeep
          simp [hkeep.2, or_comm]
    | assistant =>
      rw [hquiet (by simp [hrole])]
      dsimp only
      split <;> simp
    | user =>
      rw [hquiet (by simp [hrole])]
      simp

theorem once_of_repairRows (rest : List ChatMessageInput) (index : Nat) (st : Answered)
    (hdropped : (repairRows inv index st rest).flatMap RowRepair.droppedToolResultIds = [])
    (hstripped : (repairRows inv index st rest).flatMap RowRepair.strippedServerToolCallIds = []) :
    (rest.flatMap emittedIds).Nodup ∧ ∀ x ∈ rest.flatMap emittedIds, x ∉ st.emitted := by
  induction rest generalizing index st with
  | nil => simp
  | cons m rest ih =>
    rw [repairRows, List.flatMap_cons, List.append_eq_nil_iff] at hdropped hstripped
    obtain ⟨hnodup, hfresh, hemitted⟩ := once_of_repairRow hdropped.1 hstripped.1
    obtain ⟨hrestNodup, hrestFresh⟩ := ih (index + 1) _ hdropped.2 hstripped.2
    rw [List.flatMap_cons, List.nodup_append, List.forall_mem_append]
    refine ⟨⟨hnodup, hrestNodup, ?_⟩, hfresh, ?_⟩
    · rintro x hx y hy rfl
      exact hrestFresh x hy ((hemitted x).mpr (.inr hx))
    · intro x hx hmem
      exact hrestFresh x hx ((hemitted x).mpr (.inl hmem))

theorem once_of_untouched {rows : List ChatMessageInput} (hplaced : PlacedAfter [] rows)
    (h : repairToolCallPairing rows = untouched rows) : (rows.flatMap emittedIds).Nodup := by
  rw [repairToolCallPairing, relocate_of_placed hplaced] at h
  have hdropped := congrArg HistoryRepairResult.droppedToolResultIds h
  have hstripped := congrArg HistoryRepairResult.strippedServerToolCallIds h
  exact (once_of_repairRows rows 0 _ hdropped hstripped).1

end Untouched

/-! ### The fixed point -/

/-- A call has a result that the repair keeps in the history. -/
def AnsweredInHistory (stored : List ChatMessageInput) (x : String) : Prop :=
  (∃ m ∈ stored, m.isPassthroughRow = true ∧ x ∈ rowResultIds m) ∨ KeptResult stored x

theorem mem_resultIds_relocated (stored : List ChatMessageInput) (x : String) :
    x ∈ resultIds (relocated stored) ↔ AnsweredInHistory stored x := by
  have hspine : ∀ {rows : List ChatMessageInput} {m : ChatMessageInput}, m.isPassthroughRow = true →
      (m ∈ rows ↔ m ∈ spine rows) := by
    intro rows m hrow
    rw [spine, List.mem_filter, isResultRow, hrow]
    simp
  rw [AnsweredInHistory, ← mem_results_relocate, resultIds, List.mem_flatMap]
  constructor
  · rintro ⟨m, hm, hx⟩
    cases hrow : m.isPassthroughRow with
    | true =>
      refine .inl ⟨m, ?_, hrow, hx⟩
      rwa [hspine hrow, ← spine_relocate, ← hspine hrow]
    | false =>
      rw [rowResultIds_other hrow] at hx
      exact .inr ⟨m, hm, by simpa using hx⟩
  · rintro (⟨m, hm, hrow, hx⟩ | ⟨m, hm, hx⟩)
    · refine ⟨m, ?_, hx⟩
      rwa [hspine hrow, relocated, spine_relocate, ← hspine hrow]
    · refine ⟨m, hm, ?_⟩
      rw [rowResultIds_other (passthrough_of_result (isResultRow_of_id hx)), hx]
      exact List.mem_singleton_self x

/-- The repair of a repaired history changes and reports nothing, exactly when no call without a result is made twice
by the row that makes it first, before a later row of a turn. -/
theorem repair_again_iff (stored : List ChatMessageInput) :
    repairToolCallPairing (repairToolCallPairing stored).messages =
        untouched (repairToolCallPairing stored).messages ↔
      ∀ x, ¬AnsweredInHistory stored x → repeatsCall x stored = false := by
  have hmsgs : relocated stored = [] ++ relocated stored := rfl
  have hstart := reached_start (relocated stored)
  have honce : ((repairToolCallPairing stored).messages.flatMap emittedIds).Nodup ↔
      ∀ x, ¬AnsweredInHistory stored x → repeatsCall x stored = false := by
    have hemission := (emission_outRows hmsgs hstart).2
    have hdue := dueOnce_iff hmsgs hstart
    rw [List.length_nil] at hemission hdue
    rw [messages_eq, hemission, hdue]
    refine forall_congr' fun x => ?_
    rw [mem_resultIds_relocated, ← repeatsCall_spine x (relocated stored), relocated, spine_relocate, repeatsCall_spine]
  rw [← honce]
  constructor
  · intro h
    refine once_of_untouched ?_ h
    have hblocks : SameBlocks (relocated stored) ⟨[], resultIds (relocated stored)⟩ [] [] := fun _ _ _ => ⟨rfl, id⟩
    exact placed_outRows hmsgs hstart (placed_relocate stored) hblocks
  · intro h
    exact repair_of_clean (clean_repaired stored h)

/-- A call of the tool `save`, as the SDK stores it. -/
def saveCall : Json := .obj [("type", .str "tool-call"), ("toolCallId", .str "c1"), ("toolName", .str "save")]

def doubledCall : List ChatMessageInput :=
  [{ role := .assistant, content := "", toolCalls := none, toolCallId := none
     sdkMessages := some [.obj [("role", .str "assistant"), ("content", .arr [saveCall, saveCall])]], others := [] },
    { role := .user, content := "go on", toolCalls := none, toolCallId := none, sdkMessages := none, others := [] }]

/-- The repair answers the call twice, and the next repair drops the second answer. -/
theorem repair_again_doubled :
    (repairToolCallPairing (repairToolCallPairing doubledCall).messages).droppedToolResultIds = ["c1"] ∧
      ¬∀ stored, repairToolCallPairing (repairToolCallPairing stored).messages =
        untouched (repairToolCallPairing stored).messages := by
  have hdropped : (repairToolCallPairing (repairToolCallPairing doubledCall).messages).droppedToolResultIds = ["c1"] := by
    decide +kernel
  refine ⟨hdropped, fun hall => ?_⟩
  rw [hall doubledCall] at hdropped
  cases hdropped

end CaeloCms.Chat.History
