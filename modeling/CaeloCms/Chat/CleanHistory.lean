import CaeloCms.Chat.Assembly
import CaeloCms.Chat.Relocation

/-!
# Histories that need no repair

A history is clean when every result is in the block of its call, every call that has to be answered is, and no call is
answered twice.  A clean history is repaired to itself (`repair_of_clean`).
-/

namespace CaeloCms.Chat.History

open ChatMessageInput (isPassthroughRow isTurnRow)

/-- The results a row gives that no other row may repeat. -/
def emittedIds (m : ChatMessageInput) : List String :=
  if m.isPassthroughRow then emissionOf m.sdk else (resultRowId m).toList

def resultIds (rows : List ChatMessageInput) : List String := rows.flatMap rowResultIds

def useIds (rows : List ChatMessageInput) : List String := rows.flatMap rowUseIds

structure Clean (rows : List ChatMessageInput) : Prop where
  placed : PlacedAfter [] rows
  servers : ∀ m ∈ rows, ∀ x ∈ rowServerCallIds m, x ∈ resultIds rows
  clients : ∀ before m after, rows = before ++ m :: after → after.any isTurnRow = true →
    ∀ c ∈ rowClientCalls m, c.toolCallId ∈ resultIds rows
  calls : ∀ m ∈ rows, m.isPassthroughRow = false → m.role = .assistant → ∀ tc ∈ m.calls, tc.id ∈ resultIds rows
  tools : ∀ m ∈ rows, isResultRow m = true → ∃ x, resultRowId m = some x ∧ x ∈ useIds rows
  once : (rows.flatMap emittedIds).Nodup

theorem emittedIds_subset {m : ChatMessageInput} {x : String} (h : x ∈ emittedIds m) : x ∈ rowResultIds m := by
  rw [emittedIds] at h
  rw [rowResultIds]
  split at h
  next hrow =>
    rw [if_pos hrow]
    exact emissionOf_subset h
  next hrow =>
    rw [if_neg hrow]
    exact h

theorem lastTurnIndex_any (rows : List ChatMessageInput) (i : Nat) :
    ((takeInventory rows).lastTurnIndex.any fun last => i < last) = (rows.drop (i + 1)).any isTurnRow := by
  have hscan : (takeInventory rows).lastTurnIndex = (scanOf rows).lastTurnRow := by
    change ((rows.zipIdx.filter fun p => p.1.isTurnRow).getLast?.map (·.2)) = _
    induction rows using List.reverseRecOn with
    | nil => rfl
    | append_singleton rows m ih =>
      rw [lastTurnRow_concat, List.zipIdx_append, List.filter_append, Nat.zero_add]
      cases hm : m.isTurnRow with
      | true => simp [hm]
      | false =>
        rw [if_neg (by decide), ← ih]
        simp [hm]
  rw [hscan, lastTurnRow_any]

theorem lastTurnIndex_split {rows before after : List ChatMessageInput} {m : ChatMessageInput}
    (h : rows = before ++ m :: after) :
    ((takeInventory rows).lastTurnIndex.any fun last => before.length < last) = after.any isTurnRow := by
  have hdrop : (before ++ m :: after).drop (before.length + 1) = after := by
    rw [List.drop_append, List.drop_eq_nil_of_le (by omega), Nat.add_sub_cancel_left]
    rfl
  rw [lastTurnIndex_any, h, hdrop]

section Rows

variable {inv : Inventory} {m : ChatMessageInput} {index : Nat} {st : Answered}

theorem push_eq {calls : List PassthroughClientCall}
    (h : ∀ c ∈ calls, (inv.lastTurnIndex.any fun last => index < last) = true → c.toolCallId ∈ st.results) :
    pushWithInterruptedAnswers inv m calls index st = ({ rows := [m] }, st) := by
  have hnone : (calls.filter fun c =>
      !st.results.contains c.toolCallId && inv.lastTurnIndex.any fun last => index < last) = [] := by
    rw [List.filter_eq_nil_iff]
    intro c hc hdue
    rw [Bool.and_eq_true] at hdue
    have hmem := h c hc hdue.2
    simp [hmem] at hdue
  rw [pushWithInterruptedAnswers, hnone]
  rfl

theorem toStrip_eq_nil (h : ∀ x ∈ rowServerCallIds m, x ∉ inv.danglingServerCallIds) :
    ((OrderedSet.addAll [] (rowServerCallIds m)).filter fun id => inv.danglingServerCallIds.contains id) = [] := by
  rw [List.filter_eq_nil_iff]
  intro x hx hdangling
  rw [OrderedSet.mem_addAll] at hx
  rcases hx with hx | hx
  · cases hx
  · exact h x hx (by simpa using hdangling)

theorem repairPassthroughRow_clean (hrow : m.isPassthroughRow = true)
    (hservers : ∀ x ∈ rowServerCallIds m, x ∉ inv.danglingServerCallIds)
    (honce : (emissionOf m.sdk).Nodup ∧ ∀ x ∈ emissionOf m.sdk, x ∉ st.emitted)
    (hclients : ∀ c ∈ rowClientCalls m, (inv.lastTurnIndex.any fun last => index < last) = true →
      c.toolCallId ∈ st.results) :
    repairPassthroughRow inv m index st =
      ({ rows := [m] }, { st with emitted := (dropRepeatedMessages st.emitted m.sdk).2.2 }) := by
  have hsdk : m.sdk.isEmpty = false := by simpa [isPassthroughRow] using hrow
  have hnil := dropRepeatedMessages_eq_nil.mpr honce
  have hsame := dropRepeatedMessages_same hnil
  have hpush : pushWithInterruptedAnswers inv m (rowClientCalls m) index
      { st with emitted := (dropRepeatedMessages st.emitted m.sdk).2.2 } =
        ({ rows := [m] }, { st with emitted := (dropRepeatedMessages st.emitted m.sdk).2.2 }) := push_eq hclients
  rw [repairPassthroughRow, toStrip_eq_nil hservers]
  simp only [List.isEmpty_nil, if_true, hsdk, Bool.false_eq_true, if_false, dropRepeatedToolResults_eq, hnil, hsame,
    Bool.and_self, hpush]

theorem repairAssistantRow_clean (h : ∀ tc ∈ m.calls, tc.id ∈ st.results) :
    repairAssistantRow m st = { rows := [m] } := by
  have hall : (m.calls.filter fun tc => st.results.contains tc.id) = m.calls := by
    rw [List.filter_eq_self]
    intro tc htc
    simpa using h tc htc
  rw [repairAssistantRow, hall]
  exact if_pos rfl

theorem repairToolRow_clean {x : String} (hx : resultRowId m = some x) (huse : x ∈ inv.toolUseIds)
    (hfresh : x ∉ st.emitted) : repairToolRow inv m st = ({ rows := [m] }, { st with emitted := x :: st.emitted }) := by
  rw [repairToolRow, hx]
  exact if_neg (by simp [huse, hfresh])

end Rows

/-! ### The repair of a clean history -/

section Run

variable {rows done rest : List ChatMessageInput}

structure Emitted (st : Answered) (rows done : List ChatMessageInput) : Prop where
  results : st.results = resultIds rows
  emitted : ∀ x, x ∈ st.emitted ↔ x ∈ done.flatMap emittedIds

theorem rowUseIds_mem {m : ChatMessageInput} (h : m ∈ rows) {x : String} (hx : x ∈ rowUseIds m) : x ∈ useIds rows :=
  List.mem_flatMap.mpr ⟨m, h, hx⟩

theorem rowResultIds_mem {m : ChatMessageInput} (h : m ∈ rows) {x : String} (hx : x ∈ rowResultIds m) :
    x ∈ resultIds rows :=
  List.mem_flatMap.mpr ⟨m, h, hx⟩

theorem not_dangling {x : String} (h : x ∈ resultIds rows) : x ∉ (takeInventory rows).danglingServerCallIds := by
  intro hx
  have hnot : x ∉ resultIds rows := by simpa [resultIds] using (List.mem_filter.mp hx).2
  exact hnot h

theorem repairRow_clean (hclean : Clean rows) (hrows : rows = done ++ m :: rest) {st : Answered}
    (hst : Emitted st rows done) :
    ∃ st', repairRow (takeInventory rows) m done.length st = ({ rows := [m] }, st') ∧
      Emitted st' rows (done ++ [m]) := by
  have hm : m ∈ rows := by simp [hrows]
  have honce : (emittedIds m).Nodup ∧ ∀ x ∈ emittedIds m, x ∉ st.emitted := by
    have hnodup := hclean.once
    rw [hrows, List.flatMap_append, List.flatMap_cons, List.nodup_append, List.nodup_append] at hnodup
    refine ⟨hnodup.2.1.1, fun x hx hemitted => ?_⟩
    exact hnodup.2.2 x ((hst.emitted x).mp hemitted) x (List.mem_append_left _ hx) rfl
  have hnext : ∀ emitted, (∀ x, x ∈ emitted ↔ x ∈ st.emitted ∨ x ∈ emittedIds m) →
      Emitted { st with emitted } rows (done ++ [m]) := by
    intro emitted hemitted
    refine ⟨hst.results, fun x => ?_⟩
    rw [hemitted, hst.emitted, List.flatMap_append, List.flatMap_singleton, List.mem_append]
  have hsame : emittedIds m = [] → Emitted st rows (done ++ [m]) := fun hnil => hnext st.emitted (by simp [hnil])
  rw [repairRow]
  split
  next hrow =>
    rw [emittedIds, if_pos hrow] at honce
    refine ⟨_, repairPassthroughRow_clean hrow (fun x hx => not_dangling (hclean.servers m hm x hx)) honce ?_, ?_⟩
    · intro c hc hturn
      rw [lastTurnIndex_split hrows] at hturn
      rw [hst.results]
      exact hclean.clients done m rest hrows hturn c hc
    · refine hnext _ fun x => ?_
      have hkeeps := keepsFirst_messages st.emitted m.sdk
      rw [dropRepeatedMessages_same (dropRepeatedMessages_eq_nil.mpr honce)] at hkeeps
      rw [emittedIds, if_pos hrow]
      exact hkeeps.mem x
  next hrow =>
    have hrow' : m.isPassthroughRow = false := Bool.not_eq_true _ ▸ hrow
    cases hrole : m.role with
    | tool =>
      have hresult : isResultRow m = true := by rw [isResultRow, hrole, hrow']; rfl
      obtain ⟨x, hx, huse⟩ := hclean.tools m hm hresult
      have hids : emittedIds m = [x] := by rw [emittedIds, if_neg hrow, hx]; rfl
      refine ⟨_, repairToolRow_clean hx huse (honce.2 x (by simp [hids])), hnext _ fun y => ?_⟩
      simp [hids, or_comm]
    | assistant =>
      have hids : emittedIds m = [] := by
        rw [emittedIds, if_neg hrow, resultRowId, hrole]
        rfl
      dsimp only
      split
      next => exact ⟨st, rfl, hsame hids⟩
      next =>
        have hcalls : ∀ tc ∈ m.calls, tc.id ∈ st.results := by
          rw [hst.results]
          exact hclean.calls m hm hrow' hrole
        exact ⟨st, by rw [repairAssistantRow_clean hcalls], hsame hids⟩
    | user =>
      have hids : emittedIds m = [] := by
        rw [emittedIds, if_neg hrow, resultRowId, hrole]
        rfl
      exact ⟨st, rfl, hsame hids⟩

theorem repairRows_clean (hclean : Clean rows) (hrows : rows = done ++ rest) {st : Answered}
    (hst : Emitted st rows done) :
    repairRows (takeInventory rows) done.length st rest = rest.map fun m => { rows := [m] } := by
  induction rest generalizing done st with
  | nil => rfl
  | cons m rest ih =>
    obtain ⟨st', hstep, hst'⟩ := repairRow_clean hclean hrows hst
    have hnext : rows = (done ++ [m]) ++ rest := by rw [hrows, List.append_assoc, List.singleton_append]
    have hrest := ih hnext hst'
    rw [List.length_append, List.length_singleton] at hrest
    rw [repairRows, hstep, List.map_cons]
    exact congrArg _ hrest

def untouched (rows : List ChatMessageInput) : HistoryRepairResult :=
  { messages := rows
    droppedToolResultIds := []
    strippedToolCallIds := []
    droppedEmptyAssistantMessages := 0
    strippedServerToolCallIds := []
    answeredInterruptedCalls := []
    relocatedToolResultIds := [] }

theorem repair_of_clean (hclean : Clean rows) : repairToolCallPairing rows = untouched rows := by
  have hstart : Emitted ⟨[], resultIds rows⟩ rows [] := ⟨rfl, by simp⟩
  have hrun := repairRows_clean hclean rfl hstart
  have hrun' : repairRows (takeInventory rows) 0 ⟨[], (takeInventory rows).toolResultIds⟩ rows =
      rows.map fun m => { rows := [m] } := hrun
  rw [repairToolCallPairing, relocate_of_placed hclean.placed]
  dsimp only
  rw [hrun', untouched]
  simp [List.flatMap_map, Function.comp_def]

end Run

end CaeloCms.Chat.History
