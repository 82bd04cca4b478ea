import CaeloCms.Chat.CleanHistory

/-!
# What the repair of one row does

The answers of a row stand in a passthrough row of their own (`answerRow`).  `RowFacts` collects what the repair of a
row keeps of it, and what it has answered.
-/

namespace CaeloCms.Chat.History

open ChatMessageInput (isPassthroughRow isTurnRow)

variable {inv : Inventory} {m : ChatMessageInput} {index : Nat} {st : Answered}

/-! ### Answers -/

def answerParts (inv : Inventory) (due : List PassthroughClientCall) : List Json :=
  due.map fun c => interruptedCallResult c (inv.approvedCallIds.contains c.toolCallId)

def answerRow (inv : Inventory) (due : List PassthroughClientCall) : ChatMessageInput :=
  { role := .tool, content := "", toolCalls := none, toolCallId := none
    sdkMessages := some [.obj [("role", .str "tool"), ("content", .arr (answerParts inv due))]], others := [] }

def dueCalls (inv : Inventory) (m : ChatMessageInput) (index : Nat) (st : Answered) : List PassthroughClientCall :=
  (rowClientCalls m).filter fun c =>
    !st.results.contains c.toolCallId && inv.lastTurnIndex.any fun last => index < last

section Answers

variable (inv) (due : List PassthroughClientCall)

theorem sdkParts_answerRow : sdkParts (answerRow inv due).sdk = answerParts inv due := List.append_nil _

theorem isPassthroughRow_answerRow : (answerRow inv due).isPassthroughRow = true := rfl

theorem isTurnRow_answerRow : (answerRow inv due).isTurnRow = false := rfl

theorem filterMap_answerParts {β : Type} {read : Json → Option β}
    (hread : ∀ c approved, read (interruptedCallResult c approved) = none) :
    (answerParts inv due).filterMap read = [] := by
  rw [List.filterMap_eq_nil_iff]
  intro part hpart
  obtain ⟨c, -, rfl⟩ := List.mem_map.mp hpart
  exact hread c _

theorem rowResultIds_answerRow : rowResultIds (answerRow inv due) = due.map (·.toolCallId) := by
  rw [rowResultIds, if_pos (isPassthroughRow_answerRow inv due)]
  change (sdkParts (answerRow inv due).sdk).filterMap resultIdOf = _
  rw [sdkParts_answerRow, answerParts, List.filterMap_map]
  exact congrFun List.filterMap_eq_map due

theorem emittedIds_answerRow : emittedIds (answerRow inv due) = due.map (·.toolCallId) := by
  rw [emittedIds, if_pos (isPassthroughRow_answerRow inv due)]
  have hparts : emissionOf (answerRow inv due).sdk = (answerParts inv due).filterMap repeatableIdOf :=
    emissionOf_singleton _
  rw [hparts, answerParts, List.filterMap_map]
  exact congrFun List.filterMap_eq_map due

theorem rowUseIds_answerRow : rowUseIds (answerRow inv due) = [] := by
  rw [rowUseIds, if_pos (isPassthroughRow_answerRow inv due)]
  change (sdkParts (answerRow inv due).sdk).filterMap useIdOf = _
  rw [sdkParts_answerRow]
  exact filterMap_answerParts inv due fun _ _ => rfl

theorem rowServerCallIds_answerRow : rowServerCallIds (answerRow inv due) = [] := by
  rw [rowServerCallIds, if_pos (isPassthroughRow_answerRow inv due)]
  change (sdkParts (answerRow inv due).sdk).filterMap serverCallIdOf = _
  rw [sdkParts_answerRow]
  exact filterMap_answerParts inv due fun _ _ => rfl

theorem rowClientCalls_answerRow : rowClientCalls (answerRow inv due) = [] := by
  rw [rowClientCalls, if_pos (isPassthroughRow_answerRow inv due)]
  change (sdkParts (answerRow inv due).sdk).filterMap clientCallOf = _
  rw [sdkParts_answerRow]
  exact filterMap_answerParts inv due fun _ _ => rfl

theorem opens_answerRow (x : String) : opens x (answerRow inv due) = false := by
  have hcalls := rowClientCalls_answerRow inv due
  rw [rowClientCalls, if_pos (isPassthroughRow_answerRow inv due)] at hcalls
  rw [opens, openedClientCallIds, if_pos (isPassthroughRow_answerRow inv due), hcalls]
  rfl

end Answers

/-! ### Assemblies -/

structure KeptAssembly (inv : Inventory) (m : ChatMessageInput) (st : Answered) (emitted : List String)
    (kept : List Json) : Prop where
  parts : ∀ part ∈ sdkParts kept, part ∈ sdkParts m.sdk ∧ isDanglingCall inv.danglingServerCallIds part = false
  saying : ∀ part ∈ sdkParts m.sdk, isSayingPart part = true →
    isDanglingCall inv.danglingServerCallIds part = false →
      part ∈ sdkParts kept ∨ ∃ x ∈ emitted, repeatableIdOf part = some x
  nodup : (emissionOf kept).Nodup
  fresh : ∀ x ∈ emissionOf kept, x ∉ st.emitted
  emitted : ∀ x, x ∈ emitted ↔ x ∈ st.emitted ∨ x ∈ emissionOf kept

theorem isDanglingCall_iff {danglingIds : List String} {part : Json} :
    isDanglingCall danglingIds part = true ↔ ∃ x ∈ danglingIds, serverCallIdOf part = some x := by
  rw [isDanglingCall]
  cases serverCallIdOf part with
  | none => simp
  | some x => simp

theorem keptAssembly_of_passes {stripped : List Json}
    (hstripped : ∀ part, part ∈ sdkParts stripped → part ∈ sdkParts m.sdk ∧
      isDanglingCall inv.danglingServerCallIds part = false)
    (hsaying : ∀ part ∈ sdkParts m.sdk, isSayingPart part = true →
      isDanglingCall inv.danglingServerCallIds part = false → part ∈ sdkParts stripped) :
    KeptAssembly inv m st (dropRepeatedMessages st.emitted stripped).2.2
      (dropRepeatedMessages st.emitted stripped).1 := by
  have hkeeps := keepsFirst_messages st.emitted stripped
  refine ⟨?_, ?_, hkeeps.nodup, hkeeps.fresh, hkeeps.mem⟩
  · intro part hpart
    exact hstripped part (mem_dropRepeatedMessages hpart)
  · intro part hpart hsay hsafe
    refine (mem_dropRepeatedMessages_or (hsaying part hpart hsay hsafe)).imp_right ?_
    rintro ⟨x, hx, hrep⟩
    exact ⟨x, hkeeps.complete x hx, hrep⟩

variable (inv index st) in
/-- A passthrough row is dropped, or pushed with what is left of its assembly and the answers to its due calls. -/
theorem repairPassthroughRow_cases (hrow : m.isPassthroughRow = true) :
    ∃ kept emitted, KeptAssembly inv m st emitted kept ∧
      ((kept = [] ∧ (repairPassthroughRow inv m index st).1.rows = [] ∧
          (repairPassthroughRow inv m index st).2 = { st with emitted }) ∨
        ∃ m', m'.isPassthroughRow = true ∧ m'.sdk = kept ∧ m'.role = m.role ∧
          (repairPassthroughRow inv m index st).1.rows =
            (pushWithInterruptedAnswers inv m' (rowClientCalls m) index { st with emitted }).1.rows ∧
          (repairPassthroughRow inv m index st).2 =
            (pushWithInterruptedAnswers inv m' (rowClientCalls m) index { st with emitted }).2) := by
  have hsdk : m.sdk.isEmpty = false := by simpa [isPassthroughRow] using hrow
  rw [repairPassthroughRow]
  simp only [dropRepeatedToolResults_eq]
  cases htoStrip : ((OrderedSet.addAll [] (rowServerCallIds m)).filter fun id =>
      inv.danglingServerCallIds.contains id).isEmpty with
  | true =>
    have hsafe : ∀ part ∈ sdkParts m.sdk, isDanglingCall inv.danglingServerCallIds part = false := by
      intro part hpart
      by_contra hdangling
      obtain ⟨x, hx, hserver⟩ := isDanglingCall_iff.mp (Bool.not_eq_false _ ▸ hdangling)
      have hmem : x ∈ rowServerCallIds m := by
        rw [rowServerCallIds, if_pos hrow]
        exact List.mem_filterMap.mpr ⟨part, hpart, hserver⟩
      rw [List.isEmpty_iff, List.filter_eq_nil_iff] at htoStrip
      exact htoStrip x (by simp [hmem]) (by simpa using hx)
    refine ⟨_, _, keptAssembly_of_passes (fun part hpart => ⟨hpart, hsafe part hpart⟩) fun _ hpart _ _ => hpart, ?_⟩
    simp only [if_true, hsdk, Bool.false_eq_true, if_false, Bool.true_and]
    cases hkept : (dropRepeatedMessages st.emitted m.sdk).1.isEmpty with
    | true => exact .inl ⟨List.isEmpty_iff.mp hkept, rfl, rfl⟩
    | false =>
      refine .inr ⟨_, ?_, ?_, ?_, rfl, rfl⟩
      · split
        · exact hrow
        · simpa [isPassthroughRow, ChatMessageInput.sdk] using hkept
      · split
        next hdropped => exact (dropRepeatedMessages_same (List.isEmpty_iff.mp hdropped)).symm
        next => rfl
      · split <;> rfl
  | false =>
    have hkeep : KeptAssembly inv m st _
        (dropRepeatedMessages st.emitted (stripDanglingServerCalls m.sdk inv.danglingServerCallIds)).1 :=
      keptAssembly_of_passes (fun part hpart => mem_strip hpart)
        fun part hpart hsay hsafe => mem_strip_of_saying hpart hsay hsafe
    refine ⟨_, _, hkeep, ?_⟩
    simp only [Bool.false_eq_true, if_false, Bool.false_and]
    cases hstripped : (stripDanglingServerCalls m.sdk inv.danglingServerCallIds).isEmpty with
    | true =>
      rw [List.isEmpty_iff.mp hstripped]
      exact .inl ⟨rfl, rfl, rfl⟩
    | false =>
      simp only [Bool.false_eq_true, if_false]
      cases hkept : (dropRepeatedMessages st.emitted
          (stripDanglingServerCalls m.sdk inv.danglingServerCallIds)).1.isEmpty with
      | true => exact .inl ⟨List.isEmpty_iff.mp hkept, rfl, rfl⟩
      | false =>
        refine .inr ⟨_, ?_, ?_, ?_, rfl, rfl⟩
        · simpa [isPassthroughRow, ChatMessageInput.sdk] using hkept
        · rfl
        · rfl

section Kept

variable {emitted : List String} {kept : List Json}

/-- A reading that finds nothing in dangling calls and repeated results. -/
theorem KeptAssembly.read_iff {β : Type} {read : Json → Option β} (h : KeptAssembly inv m st emitted kept)
    (hsaying : ReadsSaying read) (hserver : ∀ part x, serverCallIdOf part = some x → read part = none)
    (hrep : ∀ part x, repeatableIdOf part = some x → read part = none) (b : β) :
    b ∈ (sdkParts kept).filterMap read ↔ b ∈ (sdkParts m.sdk).filterMap read := by
  rw [List.mem_filterMap, List.mem_filterMap]
  constructor
  · rintro ⟨part, hpart, hb⟩
    exact ⟨part, (h.parts part hpart).1, hb⟩
  · rintro ⟨part, hpart, hb⟩
    refine ⟨part, ?_, hb⟩
    have hsay : isSayingPart part = true := by
      by_contra hsilent
      rw [hsaying part (Bool.not_eq_true _ ▸ hsilent)] at hb
      cases hb
    have hsafe : isDanglingCall inv.danglingServerCallIds part = false := by
      by_contra hdangling
      obtain ⟨x, -, hx⟩ := isDanglingCall_iff.mp (Bool.not_eq_false _ ▸ hdangling)
      rw [hserver part x hx] at hb
      cases hb
    rcases h.saying part hpart hsay hsafe with hkept | ⟨x, -, hx⟩
    · exact hkept
    · rw [hrep part x hx] at hb
      cases hb

theorem KeptAssembly.clients_iff (h : KeptAssembly inv m st emitted kept) (c : PassthroughClientCall) :
    c ∈ harvestClientCalls kept ↔ c ∈ harvestClientCalls m.sdk :=
  h.read_iff readsSaying_clientCallOf (fun _ _ => clientCallOf_of_server) (fun _ _ => clientCallOf_of_repeatable) c

theorem KeptAssembly.results (h : KeptAssembly inv m st emitted kept) {x : String}
    (hx : x ∈ (harvestSdkPairIds m.sdk).toolResultIds) :
    x ∈ (harvestSdkPairIds kept).toolResultIds ∨ x ∈ emitted := by
  obtain ⟨part, hpart, hid⟩ := List.mem_filterMap.mp hx
  have hsay : isSayingPart part = true := by
    by_contra hsilent
    rw [readsSaying_resultIdOf part (Bool.not_eq_true _ ▸ hsilent)] at hid
    cases hid
  have hsafe : isDanglingCall inv.danglingServerCallIds part = false := by
    by_contra hdangling
    obtain ⟨y, -, hy⟩ := isDanglingCall_iff.mp (Bool.not_eq_false _ ▸ hdangling)
    rw [resultIdOf_of_server hy] at hid
    cases hid
  rcases h.saying part hpart hsay hsafe with hkept | ⟨y, hy, hrep⟩
  · exact .inl (List.mem_filterMap.mpr ⟨part, hkept, hid⟩)
  · obtain rfl := Option.some.inj (hid.symm.trans (resultIdOf_of_repeatable hrep))
    exact .inr hy

theorem KeptAssembly.resultsOf (h : KeptAssembly inv m st emitted kept) {x : String}
    (hx : x ∈ (harvestSdkPairIds kept).toolResultIds) : x ∈ (harvestSdkPairIds m.sdk).toolResultIds := by
  obtain ⟨part, hpart, hid⟩ := List.mem_filterMap.mp hx
  exact List.mem_filterMap.mpr ⟨part, (h.parts part hpart).1, hid⟩

theorem KeptAssembly.uses (h : KeptAssembly inv m st emitted kept) {x : String}
    (hx : x ∈ (harvestSdkPairIds m.sdk).toolUseIds) (hsafe : x ∉ inv.danglingServerCallIds) :
    x ∈ (harvestSdkPairIds kept).toolUseIds := by
  obtain ⟨part, hpart, hid⟩ := List.mem_filterMap.mp hx
  have hsay : isSayingPart part = true := by
    by_contra hsilent
    rw [readsSaying_useIdOf part (Bool.not_eq_true _ ▸ hsilent)] at hid
    cases hid
  have hsafe' : isDanglingCall inv.danglingServerCallIds part = false := by
    by_contra hdangling
    obtain ⟨y, hy, hserver⟩ := isDanglingCall_iff.mp (Bool.not_eq_false _ ▸ hdangling)
    obtain rfl := Option.some.inj (hid.symm.trans (useIdOf_of_server hserver))
    exact hsafe hy
  rcases h.saying part hpart hsay hsafe' with hkept | ⟨y, -, hrep⟩
  · exact List.mem_filterMap.mpr ⟨part, hkept, hid⟩
  · rw [useIdOf_of_repeatable hrep] at hid
    cases hid

theorem KeptAssembly.usesOf (h : KeptAssembly inv m st emitted kept) {x : String}
    (hx : x ∈ (harvestSdkPairIds kept).toolUseIds) : x ∈ (harvestSdkPairIds m.sdk).toolUseIds := by
  obtain ⟨part, hpart, hid⟩ := List.mem_filterMap.mp hx
  exact List.mem_filterMap.mpr ⟨part, (h.parts part hpart).1, hid⟩

theorem KeptAssembly.servers (h : KeptAssembly inv m st emitted kept) {x : String}
    (hx : x ∈ (harvestSdkPairIds kept).providerExecutedCallIds) :
    x ∈ (harvestSdkPairIds m.sdk).providerExecutedCallIds ∧ x ∉ inv.danglingServerCallIds := by
  obtain ⟨part, hpart, hid⟩ := List.mem_filterMap.mp hx
  refine ⟨List.mem_filterMap.mpr ⟨part, (h.parts part hpart).1, hid⟩, fun hdangling => ?_⟩
  have hsafe := (h.parts part hpart).2
  rw [isDanglingCall_iff.mpr ⟨x, hdangling, hid⟩] at hsafe
  cases hsafe

end Kept

/-! ### Rows -/

def answers (inv : Inventory) (due : List PassthroughClientCall) : List ChatMessageInput :=
  if due.isEmpty then [] else [answerRow inv due]

variable (inv index) in
theorem push_rows (calls : List PassthroughClientCall) (m' : ChatMessageInput) (st : Answered) :
    let due := calls.filter fun c =>
      !st.results.contains c.toolCallId && inv.lastTurnIndex.any fun last => index < last
    (pushWithInterruptedAnswers inv m' calls index st).1.rows = m' :: answers inv due ∧
      (pushWithInterruptedAnswers inv m' calls index st).2 =
        { st with results := st.results ++ due.map (·.toolCallId) } := by
  intro due
  rw [pushWithInterruptedAnswers]
  change (if due.isEmpty then _ else _ : RowRepair × Answered).1.rows = _ ∧
    (if due.isEmpty then _ else _ : RowRepair × Answered).2 = _
  unfold answers
  split
  next hnone =>
    rw [List.isEmpty_iff.mp hnone, List.map_nil, List.append_nil]
    exact ⟨rfl, rfl⟩
  next => exact ⟨rfl, rfl⟩

section AnswerRows

variable (due : List PassthroughClientCall)

theorem mem_answers {m' : ChatMessageInput} (h : m' ∈ answers inv due) : m' = answerRow inv due := by
  rw [answers] at h
  split at h
  · cases h
  · exact List.mem_singleton.mp h

theorem flatMap_answers {read : ChatMessageInput → List String} (hnil : read (answerRow inv []) = [])
    : (answers inv due).flatMap read = read (answerRow inv due) := by
  rw [answers]
  split
  next hnone =>
    rw [List.isEmpty_iff.mp hnone, hnil]
    rfl
  next => exact List.flatMap_singleton _ _

theorem any_answers {p : ChatMessageInput → Bool} (h : p (answerRow inv due) = false) :
    (answers inv due).any p = false := by
  rw [List.any_eq_false]
  intro m' hm'
  rw [mem_answers due hm', h]
  decide

theorem movedPast_answers (x : String) : movedPast x (answers inv due) = false := by
  rw [answers]
  split
  · rfl
  · rw [movedPast, opens_answerRow]
    rfl

end AnswerRows

structure RowFacts (inv : Inventory) (m : ChatMessageInput) (index : Nat) (st : Answered)
    (rows : List ChatMessageInput) (st' : Answered) : Prop where
  uses : ∀ x ∈ rowUseIds m, x ∈ inv.toolResultIds → x ∈ useIds rows
  usesOf : ∀ x ∈ useIds rows, x ∈ rowUseIds m
  results : ∀ x ∈ rowResultIds m, x ∈ inv.toolUseIds → x ∈ resultIds rows ∨ x ∈ st'.emitted
  servers : ∀ m' ∈ rows, ∀ x ∈ rowServerCallIds m', x ∈ rowServerCallIds m ∧ x ∉ inv.danglingServerCallIds
  clients : ∀ m' ∈ rows, ∀ c ∈ rowClientCalls m', (inv.lastTurnIndex.any fun last => index < last) = true →
    c.toolCallId ∈ st'.results
  calls : ∀ m' ∈ rows, m'.isPassthroughRow = false → m'.role = .assistant → ∀ tc ∈ m'.calls, tc.id ∈ st'.results
  tools : ∀ m' ∈ rows, isResultRow m' = true → rows = [m] ∧ m' = m ∧ ∃ x, resultRowId m = some x ∧
    x ∈ inv.toolUseIds ∧ x ∉ st.emitted
  turns : rows.any isTurnRow = true → m.isTurnRow = true
  opens : ∀ x ∈ inv.toolResultIds, x ∉ st'.emitted → rows.any (opens x) = opens x m
  tail : rows.tail.any isTurnRow = false
  moved : ∀ x, movedPast x rows = false
  answered : st'.results = st.results ++ (dueCalls inv m index st).map (·.toolCallId)
  once : ∃ first, rows.flatMap emittedIds = first ++ (dueCalls inv m index st).map (·.toolCallId) ∧ first.Nodup ∧
    (∀ x ∈ first, x ∉ st.emitted ∧ x ∈ rowResultIds m) ∧ ∀ x, x ∈ st'.emitted ↔ x ∈ st.emitted ∨ x ∈ first

theorem dueCalls_eq_nil (h : rowClientCalls m = []) : dueCalls inv m index st = [] := by
  rw [dueCalls, h]
  rfl

theorem opens_passthrough (hrow : m.isPassthroughRow = true) (x : String) :
    opens x m = true ↔
      (∃ c ∈ harvestClientCalls m.sdk, c.toolCallId = x) ∧ x ∉ (harvestSdkPairIds m.sdk).toolResultIds := by
  rw [opens, openedClientCallIds, if_pos hrow, List.contains_iff_mem, List.mem_filter, List.mem_map]
  simp

theorem not_answered_of_due {x : String} (h : x ∈ (dueCalls inv m index st).map (·.toolCallId)) : x ∉ st.results := by
  obtain ⟨c, hc, rfl⟩ := List.mem_map.mp h
  have hdue := (List.mem_filter.mp hc).2
  simp only [Bool.and_eq_true, Bool.not_eq_true', List.contains_eq_mem, decide_eq_false_iff_not] at hdue
  exact hdue.1

section PassthroughRow

variable {kept : List Json} {emitted : List String} {m' : ChatMessageInput}

theorem rowFacts_dropped (hrow : m.isPassthroughRow = true) (h : KeptAssembly inv m st emitted kept) (hkept : kept = [])
    (hdangling : ∀ x ∈ inv.toolResultIds, x ∉ inv.danglingServerCallIds) :
    RowFacts inv m index st [] { st with emitted } := by
  subst hkept
  have hclients : rowClientCalls m = [] := by
    rw [rowClientCalls, if_pos hrow, List.eq_nil_iff_forall_not_mem]
    intro c hc
    have hnone := (h.clients_iff c).mpr hc
    cases hnone
  have hdue : dueCalls inv m index st = [] := dueCalls_eq_nil hclients
  refine ⟨?_, by simp [useIds], ?_, by simp, by simp, by simp, by simp, by simp, ?_, rfl, fun _ => rfl, ?_, ?_⟩
  · intro x hx hanswered
    rw [rowUseIds, if_pos hrow] at hx
    cases h.uses hx (hdangling x hanswered)
  · intro x hx _
    rw [rowResultIds, if_pos hrow] at hx
    exact .inr ((h.results hx).resolve_left List.not_mem_nil)
  · intro x _ _
    refine (Bool.eq_false_iff.mpr fun hopens => ?_).symm
    obtain ⟨⟨c, hc, -⟩, -⟩ := (opens_passthrough hrow x).mp hopens
    rw [rowClientCalls, if_pos hrow] at hclients
    rw [hclients] at hc
    cases hc
  · rw [hdue]
    exact (List.append_nil _).symm
  · rw [hdue]
    exact ⟨[], rfl, List.nodup_nil, by simp, fun x => h.emitted x⟩

theorem rowFacts_pushed (hrow : m.isPassthroughRow = true) (hrow' : m'.isPassthroughRow = true)
    (h : KeptAssembly inv m st emitted m'.sdk) (hrole : m'.role = m.role)
    (hdangling : ∀ x ∈ inv.toolResultIds, x ∉ inv.danglingServerCallIds) :
    RowFacts inv m index st (m' :: answers inv (dueCalls inv m index st))
      ⟨emitted, st.results ++ (dueCalls inv m index st).map (·.toolCallId)⟩ := by
  have hanswers : ∀ m'' ∈ answers inv (dueCalls inv m index st), m'' = answerRow inv (dueCalls inv m index st) :=
    fun m'' => mem_answers _
  have hresults : resultIds (m' :: answers inv (dueCalls inv m index st)) =
      rowResultIds m' ++ (dueCalls inv m index st).map (·.toolCallId) := by
    rw [resultIds, List.flatMap_cons, flatMap_answers _ rfl, rowResultIds_answerRow]
  have huses : useIds (m' :: answers inv (dueCalls inv m index st)) = rowUseIds m' := by
    rw [useIds, List.flatMap_cons, flatMap_answers _ rfl, rowUseIds_answerRow, List.append_nil]
  have hturn : m'.isTurnRow = m.isTurnRow := by rw [isTurnRow, isTurnRow, hrole]
  refine ⟨?_, ?_, ?_, ?_, ?_, ?_, ?_, ?_, ?_, any_answers _ (isTurnRow_answerRow inv _), ?_, rfl, ?_⟩
  · intro x hx hanswered
    rw [rowUseIds, if_pos hrow] at hx
    rw [huses, rowUseIds, if_pos hrow']
    exact h.uses hx (hdangling x hanswered)
  · intro x hx
    rw [huses, rowUseIds, if_pos hrow'] at hx
    rw [rowUseIds, if_pos hrow]
    exact h.usesOf hx
  · intro x hx _
    rw [rowResultIds, if_pos hrow] at hx
    rw [hresults, rowResultIds, if_pos hrow', List.mem_append]
    exact (h.results hx).imp_left .inl
  · intro m'' hm'' x hx
    rcases List.mem_cons.mp hm'' with rfl | hm''
    · rw [rowServerCallIds, if_pos hrow'] at hx
      rw [rowServerCallIds, if_pos hrow]
      exact h.servers hx
    · rw [hanswers m'' hm'', rowServerCallIds_answerRow] at hx
      cases hx
  · intro m'' hm'' c hc hlast
    rcases List.mem_cons.mp hm'' with rfl | hm''
    · rw [rowClientCalls, if_pos hrow'] at hc
      by_cases hanswered : c.toolCallId ∈ st.results
      · exact List.mem_append_left _ hanswered
      · refine List.mem_append_right _ (List.mem_map_of_mem (List.mem_filter.mpr ⟨?_, ?_⟩))
        · rw [rowClientCalls, if_pos hrow]
          exact (h.clients_iff c).mp hc
        · rw [hlast, Bool.and_true]
          simpa using hanswered
    · rw [hanswers m'' hm'', rowClientCalls_answerRow] at hc
      cases hc
  · intro m'' hm'' hpassthrough
    rcases List.mem_cons.mp hm'' with rfl | hm''
    · rw [hrow'] at hpassthrough
      cases hpassthrough
    · rw [hanswers m'' hm''] at hpassthrough
      cases hpassthrough
  · intro m'' hm'' hresult
    rcases List.mem_cons.mp hm'' with rfl | hm''
    · rw [isResultRow, hrow', Bool.not_true, Bool.and_false] at hresult
      cases hresult
    · rw [hanswers m'' hm''] at hresult
      cases hresult
  · intro hany
    rw [List.any_cons, any_answers _ (isTurnRow_answerRow inv _), Bool.or_false, hturn] at hany
    exact hany
  · intro x _ hfresh
    rw [List.any_cons, any_answers _ (opens_answerRow inv _ x), Bool.or_false, Bool.eq_iff_iff,
      opens_passthrough hrow', opens_passthrough hrow]
    have hanswered : x ∈ (harvestSdkPairIds m'.sdk).toolResultIds ↔ x ∈ (harvestSdkPairIds m.sdk).toolResultIds :=
      ⟨h.resultsOf, fun hx => (h.results hx).resolve_right hfresh⟩
    rw [hanswered]
    simp only [h.clients_iff]
  · intro x
    rw [movedPast]
    split
    · exact any_answers _ (isTurnRow_answerRow inv _)
    · exact movedPast_answers _ x
  · refine ⟨emissionOf m'.sdk, ?_, h.nodup, ?_, h.emitted⟩
    · rw [List.flatMap_cons, flatMap_answers _ rfl, emittedIds_answerRow, emittedIds, if_pos hrow']
    · intro x hx
      refine ⟨h.fresh x hx, ?_⟩
      rw [rowResultIds, if_pos hrow]
      exact h.resultsOf (emissionOf_subset hx)

theorem rowFacts_passthrough (hrow : m.isPassthroughRow = true)
    (hdangling : ∀ x ∈ inv.toolResultIds, x ∉ inv.danglingServerCallIds) :
    RowFacts inv m index st (repairPassthroughRow inv m index st).1.rows (repairPassthroughRow inv m index st).2 := by
  rcases repairPassthroughRow_cases inv index st hrow with
    ⟨kept, emitted, hkept, ⟨hnil, hrows, hst⟩ | ⟨m', hrow', rfl, hrole, hrows, hst⟩⟩
  · rw [hrows, hst]
    exact rowFacts_dropped hrow hkept hnil hdangling
  · obtain ⟨hpush, hpush'⟩ := push_rows inv index (rowClientCalls m) m' { st with emitted }
    rw [hrows, hst, hpush, hpush']
    exact rowFacts_pushed hrow hrow' hkept hrole hdangling

end PassthroughRow

section OtherRow

variable (hrow : m.isPassthroughRow = false)
include hrow

theorem rowClientCalls_other : rowClientCalls m = [] := by rw [rowClientCalls, hrow]; rfl

theorem rowServerCallIds_other : rowServerCallIds m = [] := by rw [rowServerCallIds, hrow]; rfl

theorem rowResultIds_other : rowResultIds m = (resultRowId m).toList := by rw [rowResultIds, hrow]; rfl

theorem emittedIds_other : emittedIds m = (resultRowId m).toList := by rw [emittedIds, hrow]; rfl

variable (inv index st) in
theorem dueCalls_other : dueCalls inv m index st = [] := dueCalls_eq_nil (rowClientCalls_other hrow)

theorem resultRowId_of_turn (hrole : m.role ≠ .tool) : resultRowId m = none := by
  rw [resultRowId, decide_eq_false hrole]
  rfl

theorem rowFacts_turn {m' : ChatMessageInput} (hrow' : m'.isPassthroughRow = false) (hrole : m'.role = m.role)
    (hnot : m.role ≠ .tool) (huses : ∀ x ∈ rowUseIds m, x ∈ inv.toolResultIds → x ∈ rowUseIds m')
    (husesOf : ∀ x ∈ rowUseIds m', x ∈ rowUseIds m)
    (hcalls : m'.role = .assistant → ∀ tc ∈ m'.calls, tc.id ∈ st.results) : RowFacts inv m index st [m'] st := by
  have hnot' : m'.role ≠ .tool := hrole ▸ hnot
  have hdue := dueCalls_other inv index st hrow
  have hopens : ∀ m : ChatMessageInput, m.isPassthroughRow = false → openedClientCallIds m = rowUseIds m := by
    intro m hm
    rw [openedClientCallIds, rowUseIds, hm]
    rfl
  refine ⟨?_, ?_, ?_, ?_, ?_, ?_, ?_, ?_, ?_, rfl, ?_, ?_, ?_⟩
  · intro x hx hanswered
    rw [useIds, List.flatMap_singleton]
    exact huses x hx hanswered
  · intro x hx
    rw [useIds, List.flatMap_singleton] at hx
    exact husesOf x hx
  · intro x hx _
    rw [rowResultIds_other hrow, resultRowId_of_turn hrow hnot] at hx
    cases hx
  · intro m'' hm'' x hx
    rw [List.mem_singleton.mp hm'', rowServerCallIds_other hrow'] at hx
    cases hx
  · intro m'' hm'' c hc
    rw [List.mem_singleton.mp hm'', rowClientCalls_other hrow'] at hc
    cases hc
  · intro m'' hm'' _ hassistant
    rw [List.mem_singleton.mp hm''] at hassistant ⊢
    exact hcalls hassistant
  · intro m'' hm'' hresult
    rw [List.mem_singleton.mp hm'', isResultRow, decide_eq_false hnot'] at hresult
    cases hresult
  · intro hturn
    rw [List.any_cons, List.any_nil, Bool.or_false, isTurnRow, hrole] at hturn
    exact hturn
  · intro x hx _
    rw [List.any_cons, List.any_nil, Bool.or_false, opens, opens, hopens m hrow, hopens m' hrow', Bool.eq_iff_iff,
      List.contains_iff_mem, List.contains_iff_mem]
    exact ⟨husesOf x, fun hmem => huses x hmem hx⟩
  · intro x
    rw [movedPast]
    split <;> rfl
  · rw [hdue]
    exact (List.append_nil _).symm
  · rw [hdue, List.flatMap_singleton, emittedIds_other hrow', resultRowId_of_turn hrow' hnot']
    exact ⟨[], rfl, List.nodup_nil, by simp, by simp⟩

/-- A row that is dropped because it gives nothing the history still needs. -/
theorem rowFacts_gone (huses : ∀ x ∈ rowUseIds m, x ∉ inv.toolResultIds)
    (hresults : ∀ x ∈ rowResultIds m, x ∈ inv.toolUseIds → x ∈ st.emitted) : RowFacts inv m index st [] st := by
  have hdue := dueCalls_other inv index st hrow
  refine ⟨fun x hx hanswered => absurd hanswered (huses x hx), by simp [useIds], ?_, by simp, by simp, by simp,
    by simp, by simp, ?_, rfl, fun _ => rfl, ?_, ?_⟩
  · intro x hx huse
    exact .inr (hresults x hx huse)
  · intro x hx _
    refine (Bool.eq_false_iff.mpr fun hopens => ?_).symm
    have hmem : x ∈ rowUseIds m := by
      rw [opens, openedClientCallIds, hrow] at hopens
      rw [rowUseIds, hrow]
      simpa using hopens
    exact huses x hmem hx
  · rw [hdue]
    exact (List.append_nil _).symm
  · rw [hdue]
    exact ⟨[], rfl, List.nodup_nil, by simp, by simp⟩

theorem rowFacts_result (hrole : m.role = .tool) {id : String} (hid : resultRowId m = some id)
    (huse : id ∈ inv.toolUseIds) (hfresh : id ∉ st.emitted) :
    RowFacts inv m index st [m] { st with emitted := id :: st.emitted } := by
  have hdue := dueCalls_other inv index st hrow
  have hresult : isResultRow m = true := isResultRow_of_id hid
  have hmem : ∀ {m'}, m' ∈ [m] → m' = m := List.mem_singleton.mp
  refine ⟨?_, ?_, ?_, ?_, ?_, ?_, ?_, ?_, ?_, rfl, ?_, ?_, ?_⟩
  · intro x hx _
    rwa [useIds, List.flatMap_singleton]
  · intro x hx
    rwa [useIds, List.flatMap_singleton] at hx
  · intro x hx _
    rw [resultIds, List.flatMap_singleton]
    exact .inl hx
  · intro m' hm' x hx
    rw [hmem hm', rowServerCallIds_other hrow] at hx
    cases hx
  · intro m' hm' c hc
    rw [hmem hm', rowClientCalls_other hrow] at hc
    cases hc
  · intro m' hm' _ hassistant
    rw [hmem hm', hrole] at hassistant
    cases hassistant
  · intro m' hm' _
    exact ⟨rfl, hmem hm', id, hid, huse, hfresh⟩
  · intro hturn
    rwa [List.any_cons, List.any_nil, Bool.or_false] at hturn
  · intro x _ _
    rw [List.any_cons, List.any_nil, Bool.or_false]
  · intro x
    rw [movedPast, opens_eq_false hresult]
    rfl
  · rw [hdue]
    exact (List.append_nil _).symm
  · rw [hdue, List.flatMap_singleton, emittedIds_other hrow, hid]
    refine ⟨[id], rfl, List.nodup_singleton id, ?_, ?_⟩
    · intro x hx
      obtain rfl := List.mem_singleton.mp hx
      exact ⟨hfresh, by simp [rowResultIds_other hrow, hid]⟩
    · simp [or_comm]

theorem rowFacts_toolRow (hrole : m.role = .tool) :
    RowFacts inv m index st (repairToolRow inv m st).1.rows (repairToolRow inv m st).2 := by
  have huses : rowUseIds m = [] := by rw [rowUseIds, hrow, hrole]; rfl
  rw [repairToolRow]
  cases hid : resultRowId m with
  | none =>
    refine rowFacts_gone hrow (by simp [huses]) ?_
    simp [rowResultIds_other hrow, hid]
  | some id =>
    dsimp only
    split
    next hdrop =>
      refine rowFacts_gone hrow (by simp [huses]) ?_
      intro x hx huse
      obtain rfl : x = id := by simpa [rowResultIds_other hrow, hid] using hx
      simpa [huse] using hdrop
    next hkeep =>
      simp only [Bool.or_eq_true, Bool.not_eq_true', not_or, Bool.not_eq_false, List.contains_iff_mem] at hkeep
      exact rowFacts_result hrow hrole hid hkeep.1 hkeep.2

theorem rowUseIds_assistant (hrole : m.role = .assistant) : rowUseIds m = m.calls.map (·.id) := by
  rw [rowUseIds, hrow, hrole]
  rfl

theorem rowFacts_assistantRow (hrole : m.role = .assistant) (hst : ∀ x ∈ inv.toolResultIds, x ∈ st.results) :
    RowFacts inv m index st (repairAssistantRow m st).rows st := by
  have hnot : m.role ≠ .tool := by
    rw [hrole]
    decide
  rw [repairAssistantRow]
  dsimp only
  split
  next hall =>
    refine rowFacts_turn hrow hrow rfl hnot (fun _ hx _ => hx) (fun _ hx => hx) ?_
    intro _ tc htc
    have hfilter := List.length_filter_eq_length_iff.mp hall tc htc
    simpa using hfilter
  next =>
    split
    next hempty =>
      rw [Bool.and_eq_true, List.isEmpty_iff, List.filter_eq_nil_iff] at hempty
      refine rowFacts_gone hrow ?_ ?_
      · intro x hx hanswered
        rw [rowUseIds_assistant hrow hrole] at hx
        obtain ⟨tc, htc, rfl⟩ := List.mem_map.mp hx
        exact hempty.2 tc htc (by simpa using hst _ hanswered)
      · intro x hx
        rw [rowResultIds_other hrow, resultRowId_of_turn hrow hnot] at hx
        cases hx
    next =>
      have hcalls : ∀ answered : List ToolCall,
          ChatMessageInput.calls { m with toolCalls := if answered.isEmpty then none else some answered } = answered := by
        intro answered
        cases answered <;> rfl
      have huses : ∀ answered : List ToolCall,
          rowUseIds { m with toolCalls := if answered.isEmpty then none else some answered } = answered.map (·.id) := by
        intro answered
        have huse := @rowUseIds_assistant { m with toolCalls := if answered.isEmpty then none else some answered } hrow hrole
        rwa [hcalls] at huse
      refine rowFacts_turn hrow hrow rfl hnot ?_ ?_ ?_
      · intro x hx hanswered
        rw [rowUseIds_assistant hrow hrole] at hx
        obtain ⟨tc, htc, rfl⟩ := List.mem_map.mp hx
        rw [huses]
        exact List.mem_map_of_mem (List.mem_filter.mpr ⟨htc, by simpa using hst _ hanswered⟩)
      · intro x hx
        rw [huses] at hx
        rw [rowUseIds_assistant hrow hrole]
        obtain ⟨tc, htc, rfl⟩ := List.mem_map.mp hx
        exact List.mem_map_of_mem (List.mem_of_mem_filter htc)
      · intro _ tc htc
        rw [hcalls] at htc
        simpa using (List.mem_filter.mp htc).2

end OtherRow

theorem rowFacts_repairRow (hst : ∀ x ∈ inv.toolResultIds, x ∈ st.results)
    (hdangling : ∀ x ∈ inv.toolResultIds, x ∉ inv.danglingServerCallIds) :
    RowFacts inv m index st (repairRow inv m index st).1.rows (repairRow inv m index st).2 := by
  rw [repairRow]
  split
  next hrow => exact rowFacts_passthrough hrow hdangling
  next hrow =>
    have hrow' : m.isPassthroughRow = false := Bool.not_eq_true _ ▸ hrow
    have hkeep : m.role ≠ .tool → m.role ≠ .assistant ∨ m.calls = [] → RowFacts inv m index st [m] st := by
      intro hnot hcalls
      refine rowFacts_turn hrow' hrow' rfl hnot (fun _ hx _ => hx) (fun _ hx => hx) ?_
      intro hassistant tc htc
      rcases hcalls with hrole | hnone
      · exact absurd hassistant hrole
      · rw [hnone] at htc
        cases htc
    cases hrole : m.role with
    | tool => exact rowFacts_toolRow hrow' hrole
    | assistant =>
      dsimp only
      split
      next hnone => exact hkeep (by simp [hrole]) (.inr (List.isEmpty_iff.mp hnone))
      next => exact rowFacts_assistantRow hrow' hrole hst
    | user => exact hkeep (by simp [hrole]) (.inl (by simp [hrole]))

end CaeloCms.Chat.History
