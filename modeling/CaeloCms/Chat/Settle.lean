import CaeloCms.Chat.Assembly

/-!
# Deferred server calls

`settleDeferredServerCalls` (`ai/chat-runner/history-repair.ts`): a server call without a result is carried only by the
last assistant row of a request, and only while nothing but tool results follows it.  All other unanswered server calls
are stripped from the assistant rows.

The strip goes by the ids of the calls.  It settles every history in which an id that the last row defers is not
called by an earlier assistant row too, and in which calls outside of assistant rows do not stand alone
(`settles_iff`).
-/

namespace CaeloCms.Chat.History

open ChatMessageInput (isPassthroughRow)

structure SettledServerCalls where
  messages : List ChatMessageInput
  /-- `messages` is the array that was given. -/
  same : Bool
  strippedIds : List String
  lastAssistantSdkMessages : Option (List Json)

def isBareToolRow (m : ChatMessageInput) : Bool :=
  m.role = .tool && !m.sdk.any fun msg => msg.stringField "role" == some "user"

/-- `messages.findLastIndex((m) => m.role === "assistant")`; `none` stands for -1. -/
def lastAssistant : List ChatMessageInput → Option Nat
  | [] => none
  | m :: rest =>
    match lastAssistant rest with
    | some i => some (i + 1)
    | none => if m.role = .assistant then some 0 else none

def behindLast (messages : List ChatMessageInput) : List ChatMessageInput :=
  match lastAssistant messages with
  | none => messages
  | some i => messages.drop (i + 1)

/-- The server calls of the last assistant row. -/
def stillDeferred (messages : List ChatMessageInput) : List String :=
  match lastAssistant messages with
  | none => []
  | some i => (harvestSdkPairIds ((messages[i]?.map ChatMessageInput.sdk).getD [])).providerExecutedCallIds

def answeredIds (messages : List ChatMessageInput) : List String := (passthroughParts messages).filterMap resultIdOf

/-- The server calls without a result. -/
def unansweredIds (messages : List ChatMessageInput) : List String :=
  (OrderedSet.addAll [] ((passthroughParts messages).filterMap serverCallIdOf)).filter fun id =>
    !(answeredIds messages).contains id

/-- Those that the request cannot carry. -/
def danglingIds (messages : List ChatMessageInput) : List String :=
  if (behindLast messages).all isBareToolRow then
    (unansweredIds messages).filter fun id => !(stillDeferred messages).contains id
  else unansweredIds messages

def settleRow (dangling : List String) (m : ChatMessageInput) : Option ChatMessageInput :=
  if !m.isPassthroughRow || m.role ≠ .assistant then some m
  else
    let sdkMessages := stripDanglingServerCalls m.sdk dangling
    if sdkMessages.isEmpty then none else some { m with sdkMessages := some sdkMessages }

def settleDeferredServerCalls (messages : List ChatMessageInput) : SettledServerCalls :=
  if (unansweredIds messages).isEmpty then ⟨messages, true, [], none⟩
  else
    let dangling := danglingIds messages
    if dangling.isEmpty then ⟨messages, true, [], none⟩
    else
      { messages := messages.filterMap (settleRow dangling)
        same := false
        strippedIds := dangling
        lastAssistantSdkMessages :=
          ((lastAssistant messages).bind fun i => messages[i]?).bind fun m =>
            if m.isPassthroughRow then (settleRow dangling m).map ChatMessageInput.sdk else none }

/-! ### The last assistant row -/

variable {m : ChatMessageInput} {messages : List ChatMessageInput} {id : String}

theorem lastAssistant_none (h : lastAssistant messages = none) :
    ∀ m ∈ messages, m.role ≠ .assistant := by
  induction messages with
  | nil => exact fun m hm => absurd hm List.not_mem_nil
  | cons m rest ih =>
    rw [lastAssistant] at h
    cases hrest : lastAssistant rest with
    | some i =>
      rw [hrest] at h
      cases h
    | none =>
      rw [hrest] at h
      dsimp only at h
      split_ifs at h with hrole
      exact List.forall_mem_cons.2 ⟨hrole, ih hrest⟩

theorem lastAssistant_some {i : Nat} (h : lastAssistant messages = some i) :
    ∃ before m after, messages = before ++ m :: after ∧ before.length = i ∧ m.role = .assistant ∧
      ∀ x ∈ after, x.role ≠ .assistant := by
  induction messages generalizing i with
  | nil => cases h
  | cons m rest ih =>
    rw [lastAssistant] at h
    cases hrest : lastAssistant rest with
    | some j =>
      rw [hrest] at h
      obtain rfl := Option.some.inj h
      obtain ⟨before, last, after, rfl, rfl, hrole, hafter⟩ := ih hrest
      exact ⟨m :: before, last, after, rfl, rfl, hrole, hafter⟩
    | none =>
      rw [hrest] at h
      dsimp only at h
      split_ifs at h with hrole
      obtain rfl := Option.some.inj h
      exact ⟨[], m, rest, rfl, rfl, hrole, lastAssistant_none hrest⟩

/-- The server calls that the last assistant row may carry. -/
def Deferred (messages : List ChatMessageInput) (id : String) : Prop :=
  ∃ before m after, messages = before ++ m :: after ∧ m.role = .assistant ∧ (∀ x ∈ after, isBareToolRow x = true) ∧
    id ∈ rowServerCallIds m

theorem role_of_bare (h : isBareToolRow m = true) : m.role = .tool := by
  rw [isBareToolRow, Bool.and_eq_true, decide_eq_true_eq] at h
  exact h.1

theorem split_last_unique {before before' after after' : List ChatMessageInput} {m' : ChatMessageInput}
    (h : before ++ m :: after = before' ++ m' :: after') (hm : m.role = .assistant) (hm' : m'.role = .assistant)
    (hafter : ∀ x ∈ after, x.role ≠ .assistant) (hafter' : ∀ x ∈ after', x.role ≠ .assistant) :
    m = m' ∧ after = after' := by
  rcases List.append_eq_append_iff.1 h with ⟨mid, -, hmid⟩ | ⟨mid, -, hmid⟩
  · cases mid with
    | nil => exact List.cons.inj hmid
    | cons x mid =>
      obtain ⟨-, rfl⟩ := List.cons.inj hmid
      exact absurd hm' (hafter m' (List.mem_append_right mid List.mem_cons_self))
  · cases mid with
    | nil =>
      obtain ⟨rfl, rfl⟩ := List.cons.inj hmid
      exact ⟨rfl, rfl⟩
    | cons x mid =>
      obtain ⟨-, rfl⟩ := List.cons.inj hmid
      exact absurd hm (hafter' m (List.mem_append_right mid List.mem_cons_self))

theorem sdk_eq_nil (h : m.isPassthroughRow = false) : m.sdk = [] := by
  rwa [isPassthroughRow, Bool.not_eq_false', List.isEmpty_iff] at h

theorem rowServerCallIds_eq (m : ChatMessageInput) : rowServerCallIds m = (sdkParts m.sdk).filterMap serverCallIdOf := by
  rw [rowServerCallIds]
  split
  · rfl
  · rw [sdk_eq_nil (Bool.eq_false_iff.2 ‹_›)]
    rfl

theorem deferred_iff (messages : List ChatMessageInput) (id : String) :
    Deferred messages id ↔ (behindLast messages).all isBareToolRow = true ∧ id ∈ stillDeferred messages := by
  unfold behindLast stillDeferred
  cases hlast : lastAssistant messages with
  | none =>
    constructor
    · rintro ⟨before, m, after, rfl, hm, -⟩
      exact absurd hm (lastAssistant_none hlast m (List.mem_append_right before List.mem_cons_self))
    · rintro ⟨-, hid⟩
      cases hid
  | some i =>
    obtain ⟨before, m, after, rfl, rfl, hm, hafter⟩ := lastAssistant_some hlast
    have hdrop : (before ++ m :: after).drop (before.length + 1) = after := by simp
    have hget : (before ++ m :: after)[before.length]? = some m := by simp
    dsimp only
    rw [hdrop, hget, List.all_eq_true]
    change _ ↔ (∀ x ∈ after, isBareToolRow x = true) ∧ id ∈ (sdkParts m.sdk).filterMap serverCallIdOf
    rw [← rowServerCallIds_eq]
    constructor
    · rintro ⟨before', m', after', heq, hm', hafter', hid⟩
      have hother : ∀ x ∈ after', x.role ≠ .assistant := by
        intro x hx
        rw [role_of_bare (hafter' x hx)]
        decide
      obtain ⟨rfl, rfl⟩ := split_last_unique heq hm hm' hafter hother
      exact ⟨hafter', hid⟩
    · rintro ⟨hbare, hid⟩
      exact ⟨before, m, after, rfl, hm, hbare, hid⟩

theorem passthroughParts_eq (messages : List ChatMessageInput) :
    passthroughParts messages = messages.flatMap fun m => sdkParts m.sdk := by
  induction messages with
  | nil => rfl
  | cons m rest ih =>
    rw [passthroughParts] at ih ⊢
    rw [List.flatMap_cons, ← ih, List.filter_cons]
    cases hrow : m.isPassthroughRow with
    | true => rfl
    | false =>
      rw [sdk_eq_nil hrow]
      rfl

theorem mem_unansweredIds :
    id ∈ unansweredIds messages ↔ (∃ m ∈ messages, id ∈ rowServerCallIds m) ∧ id ∉ answeredIds messages := by
  have hcalls : id ∈ (passthroughParts messages).filterMap serverCallIdOf ↔ ∃ m ∈ messages, id ∈ rowServerCallIds m := by
    rw [passthroughParts_eq, List.filterMap_flatMap, List.mem_flatMap]
    simp only [rowServerCallIds_eq]
  rw [unansweredIds, List.mem_filter, OrderedSet.mem_addAll, hcalls]
  simp

theorem mem_danglingIds :
    id ∈ danglingIds messages ↔
      (∃ m ∈ messages, id ∈ rowServerCallIds m) ∧ id ∉ answeredIds messages ∧ ¬Deferred messages id := by
  rw [danglingIds, deferred_iff, ← and_assoc, ← mem_unansweredIds]
  split
  next hbare =>
    rw [List.mem_filter, hbare]
    simp
  next hbare => simp [hbare]

theorem danglingIds_sublist (messages : List ChatMessageInput) : danglingIds messages ⊆ unansweredIds messages := by
  intro id hid
  obtain ⟨hcall, hanswer, -⟩ := mem_danglingIds.1 hid
  exact mem_unansweredIds.2 ⟨hcall, hanswer⟩

/-- A history with nothing dangling is returned as it is, any other row by row. -/
theorem settle_cases (messages : List ChatMessageInput) :
    (danglingIds messages = [] ∧ settleDeferredServerCalls messages = ⟨messages, true, [], none⟩) ∨
      danglingIds messages ≠ [] ∧ (settleDeferredServerCalls messages).same = false ∧
        (settleDeferredServerCalls messages).messages = messages.filterMap (settleRow (danglingIds messages)) := by
  by_cases hdangling : danglingIds messages = []
  · left
    refine ⟨hdangling, ?_⟩
    unfold settleDeferredServerCalls
    rw [hdangling]
    split
    · rfl
    · rfl
  · right
    have hunanswered : (unansweredIds messages).isEmpty = false := by
      rw [List.isEmpty_eq_false_iff]
      intro hnil
      exact hdangling (List.eq_nil_iff_forall_not_mem.2 fun id hid =>
        List.not_mem_nil (hnil ▸ danglingIds_sublist messages hid))
    have hempty : (danglingIds messages).isEmpty = false := List.isEmpty_eq_false_iff.2 hdangling
    refine ⟨hdangling, ?_⟩
    unfold settleDeferredServerCalls
    rw [hunanswered]
    dsimp only
    rw [hempty]
    exact ⟨rfl, rfl⟩

/-! ### One row -/

section Row

variable {dangling : List String} {m m' : ChatMessageInput}

theorem filterMap_strip {β : Type} {read : Json → Option β} (hsaying : ReadsSaying read)
    (hdangling : ∀ part, isDanglingCall dangling part = true → read part = none) (sdkMessages : List Json) :
    (sdkParts (stripDanglingServerCalls sdkMessages dangling)).filterMap read = (sdkParts sdkMessages).filterMap read := by
  have hfilter : ∀ content : List Json,
      (content.filter fun part => !isDanglingCall dangling part).filterMap read = content.filterMap read := by
    intro content
    induction content with
    | nil => rfl
    | cons part content ih =>
      rw [List.filter_cons]
      cases hpart : isDanglingCall dangling part with
      | true =>
        rw [List.filterMap_cons_none (hdangling part hpart)]
        exact ih
      | false =>
        rw [Bool.not_false, if_pos rfl, List.filterMap_cons, List.filterMap_cons, ih]
  have hmessage : ∀ msg : Json,
      (sdkParts (stripMessage dangling msg)).filterMap read = ((contentOf msg).getD []).filterMap read := by
    intro msg
    rcases stripMessage_cases dangling msg with ⟨hcontent, hstrip⟩ | ⟨content, hcontent, hstrip⟩
    · rw [hstrip, sdkParts_singleton]
    · rw [hcontent]
      rcases hstrip with ⟨hstrip, -⟩ | hstrip | ⟨hstrip, hnone⟩
      · rw [hstrip, sdkParts_singleton, hcontent]
      · rw [hstrip, sdkParts_singleton, contentOf_withContent hcontent]
        exact hfilter content
      · rw [hstrip]
        change [] = content.filterMap read
        rw [← hfilter content, eq_comm, List.filterMap_eq_nil_iff]
        exact fun part hpart => hsaying part (hnone part hpart)
  induction sdkMessages with
  | nil => rfl
  | cons msg rest ih =>
    rw [strip_cons, sdkParts_append, sdkParts_cons, List.filterMap_append, List.filterMap_append, hmessage, ih]

def partsLeft (row : Option ChatMessageInput) : List Json := (row.map fun m => sdkParts m.sdk).getD []

theorem settleRow_cases (dangling : List String) (m : ChatMessageInput) :
    ((m.isPassthroughRow = false ∨ m.role ≠ .assistant) ∧ settleRow dangling m = some m) ∨
      m.role = .assistant ∧ partsLeft (settleRow dangling m) = sdkParts (stripDanglingServerCalls m.sdk dangling) ∧
        (settleRow dangling m = none ∨ ∃ sdk, settleRow dangling m = some { m with sdkMessages := some sdk }) := by
  rw [settleRow]
  split
  next hother =>
    left
    rw [Bool.or_eq_true, Bool.not_eq_true', decide_eq_true_eq] at hother
    exact ⟨hother, rfl⟩
  next hrow =>
    right
    rw [Bool.or_eq_true, not_or, decide_eq_true_eq, not_not] at hrow
    refine ⟨hrow.2, ?_⟩
    dsimp only
    split
    next hnil =>
      rw [List.isEmpty_iff.1 hnil]
      exact ⟨rfl, .inl rfl⟩
    next => exact ⟨rfl, .inr ⟨_, rfl⟩⟩

theorem filterMap_partsLeft {β : Type} {read : Json → Option β} (hsaying : ReadsSaying read)
    (hdangling : ∀ part, isDanglingCall dangling part = true → read part = none) :
    (partsLeft (settleRow dangling m)).filterMap read = (sdkParts m.sdk).filterMap read := by
  rcases settleRow_cases dangling m with ⟨-, hrow⟩ | ⟨-, hparts, -⟩
  · rw [hrow]
    rfl
  · rw [hparts]
    exact filterMap_strip hsaying hdangling m.sdk

theorem role_settleRow (h : settleRow dangling m = some m') : m'.role = m.role := by
  rcases settleRow_cases dangling m with ⟨-, hrow⟩ | ⟨-, -, hrow | ⟨sdk, hrow⟩⟩
  · rw [hrow] at h
    rw [← Option.some.inj h]
  · rw [hrow] at h
    cases h
  · rw [hrow] at h
    rw [← Option.some.inj h]

theorem settleRow_other (h : m.role ≠ .assistant) : settleRow dangling m = some m := by
  rcases settleRow_cases dangling m with ⟨-, hrow⟩ | ⟨hrole, -⟩
  · exact hrow
  · exact absurd hrole h

theorem rowServerCallIds_left (h : settleRow dangling m = some m') :
    rowServerCallIds m' = (partsLeft (settleRow dangling m)).filterMap serverCallIdOf := by
  rw [rowServerCallIds_eq, h]
  rfl

theorem isDanglingCall_of_server {part : Json} {id : String} (h : serverCallIdOf part = some id) :
    isDanglingCall dangling part = dangling.contains id := by
  rw [isDanglingCall, h]
  rfl

theorem notMem_dangling_of_left (hrole : m.role = .assistant) (h : settleRow dangling m = some m') {id : String}
    (hid : id ∈ rowServerCallIds m') : id ∉ dangling ∧ id ∈ rowServerCallIds m := by
  rw [rowServerCallIds_left h] at hid
  rcases settleRow_cases dangling m with ⟨hrow | hother, hsame⟩ | ⟨-, hparts, -⟩
  · rw [hsame] at hid
    change id ∈ (sdkParts m.sdk).filterMap serverCallIdOf at hid
    rw [sdk_eq_nil hrow] at hid
    cases hid
  · exact absurd hrole hother
  · rw [hparts] at hid
    obtain ⟨part, hpart, hserver⟩ := List.mem_filterMap.1 hid
    obtain ⟨hmem, hsafe⟩ := mem_strip hpart
    rw [isDanglingCall_of_server hserver, List.contains_eq_mem, decide_eq_false_iff_not] at hsafe
    rw [rowServerCallIds_eq]
    exact ⟨hsafe, List.mem_filterMap.2 ⟨part, hmem, hserver⟩⟩

theorem left_of_notMem_dangling {id : String} (hid : id ∈ rowServerCallIds m) (hdangling : id ∉ dangling) :
    ∃ m', settleRow dangling m = some m' ∧ m'.role = m.role ∧ id ∈ rowServerCallIds m' := by
  rw [rowServerCallIds_eq] at hid
  obtain ⟨part, hpart, hserver⟩ := List.mem_filterMap.1 hid
  have hleft : part ∈ partsLeft (settleRow dangling m) := by
    rcases settleRow_cases dangling m with ⟨-, hsame⟩ | ⟨-, hparts, -⟩
    · rw [hsame]
      exact hpart
    · rw [hparts]
      have hsafe : isDanglingCall dangling part = false := by
        rw [isDanglingCall_of_server hserver, List.contains_eq_mem, decide_eq_false_iff_not]
        exact hdangling
      have hsaying : isSayingPart part = true := by
        by_contra hnot
        rw [readsSaying_serverCallIdOf part (Bool.eq_false_iff.2 hnot)] at hserver
        cases hserver
      exact mem_strip_of_saying hpart hsaying hsafe
  cases hrow : settleRow dangling m with
  | none =>
    rw [hrow] at hleft
    cases hleft
  | some m' =>
    refine ⟨m', rfl, role_settleRow hrow, ?_⟩
    rw [rowServerCallIds_left hrow]
    exact List.mem_filterMap.2 ⟨part, hleft, hserver⟩

end Row

/-! ### The whole history -/

/-- What a request may carry: an unanswered server call only in the last assistant row, with nothing but bare tool rows
behind it. -/
def Carriable (rows : List ChatMessageInput) : Prop :=
  ∀ before m after, rows = before ++ m :: after → m.role = .assistant →
    ∀ id ∈ rowServerCallIds m, id ∉ answeredIds rows → ∀ x ∈ after, isBareToolRow x = true

def keptPart (answered : List String) (part : Json) : Bool :=
  isSayingPart part && !(serverCallIdOf part).any fun id => !answered.contains id

/-- The history is settled: the request may carry it; other rows than the assistant's are kept as they are, of those
every part that says something but for unanswered calls; and a history the request may carry comes back itself. -/
structure Settles (messages : List ChatMessageInput) (settled : SettledServerCalls) : Prop where
  carriable : Carriable settled.messages
  rows : ∃ row : ChatMessageInput → Option ChatMessageInput, settled.messages = messages.filterMap row ∧
    (∀ m, m.role ≠ .assistant ∨ m.isPassthroughRow = false → row m = some m) ∧
      (∀ m m', row m = some m' → m' = { m with sdkMessages := m'.sdkMessages }) ∧
        ∀ m, (partsLeft (row m)).filter (keptPart (answeredIds messages)) =
          (sdkParts m.sdk).filter (keptPart (answeredIds messages))
  same : settled.same = true → settled.messages = messages
  untouched : Carriable messages → settled.same = true

/-- The calls that the last assistant row defers are made by no assistant row before it; and where the request may
carry the history, other rows make no unanswered calls but those. -/
structure DeferredApart (messages : List ChatMessageInput) : Prop where
  earlier : ∀ before m after, messages = before ++ m :: after → m.role = .assistant →
    ∀ id ∈ rowServerCallIds m, id ∉ answeredIds messages → Deferred messages id → ∀ x ∈ after, isBareToolRow x = true
  others : Carriable messages → ∀ m ∈ messages, m.role ≠ .assistant →
    ∀ id ∈ rowServerCallIds m, id ∉ answeredIds messages → Deferred messages id

variable {messages : List ChatMessageInput}

theorem answeredIds_settleRows (messages : List ChatMessageInput) (dangling : List String) :
    answeredIds (messages.filterMap (settleRow dangling)) = answeredIds messages := by
  have hserver : ∀ part, isDanglingCall dangling part = true → resultIdOf part = none := by
    intro part hpart
    cases hid : serverCallIdOf part with
    | none =>
      rw [isDanglingCall, hid] at hpart
      cases hpart
    | some id => exact resultIdOf_of_server hid
  rw [answeredIds, answeredIds, passthroughParts_eq, passthroughParts_eq]
  induction messages with
  | nil => rfl
  | cons m rest ih =>
    have hrow := filterMap_partsLeft (m := m) readsSaying_resultIdOf hserver
    rw [List.flatMap_cons, List.filterMap_append, ← hrow, ← ih]
    cases hleft : settleRow dangling m with
    | none =>
      rw [List.filterMap_cons_none hleft]
      rfl
    | some m' =>
      rw [List.filterMap_cons_some hleft, List.flatMap_cons, List.filterMap_append]
      rfl

theorem danglingIds_eq_nil (hapart : ∀ m ∈ messages, m.role ≠ .assistant →
      ∀ id ∈ rowServerCallIds m, id ∉ answeredIds messages → Deferred messages id) (h : Carriable messages) :
    danglingIds messages = [] := by
  rw [List.eq_nil_iff_forall_not_mem]
  intro id hid
  obtain ⟨⟨m, hm, hcall⟩, hanswer, hdeferred⟩ := mem_danglingIds.1 hid
  by_cases hrole : m.role = .assistant
  · obtain ⟨before, after, rfl⟩ := List.append_of_mem hm
    exact hdeferred ⟨before, m, after, rfl, hrole, h before m after rfl hrole id hcall hanswer, hcall⟩
  · exact hdeferred (hapart m hm hrole id hcall hanswer)

theorem settles_rows (messages : List ChatMessageInput) :
    ∃ row : ChatMessageInput → Option ChatMessageInput,
      (settleDeferredServerCalls messages).messages = messages.filterMap row ∧
      (∀ m, m.role ≠ .assistant ∨ m.isPassthroughRow = false → row m = some m) ∧
        (∀ m m', row m = some m' → m' = { m with sdkMessages := m'.sdkMessages }) ∧
          ∀ m, (partsLeft (row m)).filter (keptPart (answeredIds messages)) =
            (sdkParts m.sdk).filter (keptPart (answeredIds messages)) := by
  rcases settle_cases messages with ⟨-, hsettle⟩ | ⟨-, -, hsettle⟩
  · refine ⟨some, ?_, fun m _ => rfl, ?_, fun m => rfl⟩
    · rw [hsettle, List.filterMap_some]
    · intro m m' h
      rw [← Option.some.inj h]
  · refine ⟨settleRow (danglingIds messages), hsettle, ?_, ?_, ?_⟩
    · intro m hm
      rcases settleRow_cases (danglingIds messages) m with ⟨-, hrow⟩ | ⟨hrole, -⟩
      · exact hrow
      · rcases hm with hm | hm
        · exact absurd hrole hm
        · rw [settleRow, hm]
          rfl
    · intro m m' h
      rcases settleRow_cases (danglingIds messages) m with ⟨-, hrow⟩ | ⟨-, -, hrow | ⟨sdk, hrow⟩⟩
      · rw [hrow] at h
        rw [← Option.some.inj h]
      · rw [hrow] at h
        cases h
      · rw [hrow] at h
        rw [← Option.some.inj h]
    · intro m
      have hfilter : ∀ parts : List Json, parts.filter (keptPart (answeredIds messages)) =
          parts.filterMap fun part => if keptPart (answeredIds messages) part then some part else none := by
        intro parts
        rw [← List.filterMap_eq_filter]
        rfl
      rw [hfilter, hfilter]
      apply filterMap_partsLeft
      · intro part hpart
        simp [keptPart, hpart]
      · intro part hpart
        cases hid : serverCallIdOf part with
        | none =>
          rw [isDanglingCall, hid] at hpart
          cases hpart
        | some id =>
          rw [isDanglingCall_of_server hid, List.contains_iff_mem] at hpart
          have hanswer := (mem_danglingIds.1 hpart).2.1
          simp [keptPart, hid, hanswer]

theorem deferred_of_notMem (hm : m ∈ messages) (hcall : id ∈ rowServerCallIds m)
    (hanswer : id ∉ answeredIds messages) (hid : id ∉ danglingIds messages) : Deferred messages id := by
  by_contra hdeferred
  exact hid (mem_danglingIds.2 ⟨⟨m, hm, hcall⟩, hanswer, hdeferred⟩)

theorem carriable_settle (h : DeferredApart messages) : Carriable (settleDeferredServerCalls messages).messages := by
  rcases settle_cases messages with ⟨hnil, hsettle⟩ | ⟨-, -, hsettle⟩
  · rw [hsettle]
    intro before m after heq hrole id hcall hanswer
    have hm : m ∈ messages := by
      rw [show messages = before ++ m :: after from heq]
      exact List.mem_append_right before List.mem_cons_self
    have hid : id ∉ danglingIds messages := by
      rw [hnil]
      exact List.not_mem_nil
    exact h.earlier before m after heq hrole id hcall hanswer (deferred_of_notMem hm hcall hanswer hid)
  · rw [hsettle]
    intro before m' after heq hrole id hcall hanswer
    rw [answeredIds_settleRows] at hanswer
    obtain ⟨front, back, rfl, -, hback⟩ := List.filterMap_eq_append_iff.1 heq
    obtain ⟨skipped, m, back, rfl, -, hrow, rfl⟩ := List.filterMap_eq_cons_iff.1 hback
    rw [role_settleRow hrow] at hrole
    obtain ⟨hid, hcall⟩ := notMem_dangling_of_left hrole hrow hcall
    have hm : m ∈ front ++ (skipped ++ m :: back) := by simp
    have hbare := h.earlier (front ++ skipped) m back (by simp) hrole id hcall hanswer
      (deferred_of_notMem hm hcall hanswer hid)
    intro x hx
    obtain ⟨y, hy, hsettled⟩ := List.mem_filterMap.1 hx
    have hother : y.role ≠ .assistant := by
      rw [role_of_bare (hbare y hy)]
      decide
    rw [settleRow_other hother] at hsettled
    rw [← Option.some.inj hsettled]
    exact hbare y hy

theorem earlier_of_carriable (h : Carriable (settleDeferredServerCalls messages).messages)
    {before after : List ChatMessageInput} (heq : messages = before ++ m :: after)
    (hrole : m.role = .assistant) (hcall : id ∈ rowServerCallIds m) (hanswer : id ∉ answeredIds messages)
    (hdeferred : Deferred messages id) : ∀ x ∈ after, isBareToolRow x = true := by
  rcases settle_cases messages with ⟨-, hsettle⟩ | ⟨-, -, hsettle⟩
  · rw [hsettle] at h
    exact h before m after heq hrole id hcall hanswer
  · rw [hsettle] at h
    have hid : id ∉ danglingIds messages := fun hid => (mem_danglingIds.1 hid).2.2 hdeferred
    obtain ⟨front, last, behind, hlast, hlastRole, hbehind, hlastCall⟩ := hdeferred
    obtain ⟨m', hrow, hrole', hcall'⟩ := left_of_notMem_dangling hcall hid
    have hbare : ∀ x ∈ after.filterMap (settleRow (danglingIds messages)), isBareToolRow x = true := by
      refine h (before.filterMap (settleRow (danglingIds messages))) m' _ ?_ (hrole'.trans hrole) id hcall' ?_
      · conv_lhs => rw [heq, List.filterMap_append, List.filterMap_cons_some (heq ▸ hrow), ← heq]
      · rw [answeredIds_settleRows]
        exact hanswer
    -- the last assistant row keeps its call, so it is not behind this one
    have hnot : last ∉ after := by
      intro hmem
      obtain ⟨last', hsettled, hlastRole', -⟩ := left_of_notMem_dangling hlastCall hid
      have htool := role_of_bare (hbare last' (List.mem_filterMap.2 ⟨last, hmem, hsettled⟩))
      rw [hlastRole', hlastRole] at htool
      cases htool
    have hsuffix : after <:+ messages := ⟨before ++ [m], by rw [heq]; simp⟩
    have hsuffix' : last :: behind <:+ messages := ⟨front, hlast.symm⟩
    rcases List.suffix_or_suffix_of_suffix hsuffix hsuffix' with hle | hle
    · rcases List.suffix_cons_iff.1 hle with rfl | hle
      · exact absurd List.mem_cons_self hnot
      · exact fun x hx => hbehind x (hle.subset hx)
    · exact absurd (hle.subset List.mem_cons_self) hnot

/-- A history is settled if and only if the calls that its last assistant row defers are its own. -/
theorem settles_iff (messages : List ChatMessageInput) :
    Settles messages (settleDeferredServerCalls messages) ↔ DeferredApart messages := by
  constructor
  · intro h
    refine ⟨fun before m after heq hrole id hcall hanswer hdeferred =>
      earlier_of_carriable h.carriable heq hrole hcall hanswer hdeferred, ?_⟩
    intro hcarriable m hm hrole id hcall hanswer
    rcases settle_cases messages with ⟨hnil, -⟩ | ⟨-, hfresh, -⟩
    · exact deferred_of_notMem hm hcall hanswer (hnil ▸ List.not_mem_nil)
    · rw [h.untouched hcarriable] at hfresh
      cases hfresh
  · intro h
    refine ⟨carriable_settle h, settles_rows messages, ?_, ?_⟩
    · intro hsame
      rcases settle_cases messages with ⟨-, hsettle⟩ | ⟨-, hfresh, -⟩
      · rw [hsettle]
      · rw [hsame] at hfresh
        cases hfresh
    · intro hcarriable
      rcases settle_cases messages with ⟨-, hsettle⟩ | ⟨hne, -, -⟩
      · rw [hsettle]
      · exact absurd (danglingIds_eq_nil (h.others hcarriable) hcarriable) hne

def searchRow (role : Role) (id : String) : ChatMessageInput where
  role := role
  content := ""
  toolCalls := none
  toolCallId := none
  sdkMessages := some [.obj [("role", .str "assistant"), ("content", .arr
    [.obj [("type", .str "tool-call"), ("toolCallId", .str id), ("providerExecuted", .bool true)]])]]
  others := []

/-- One id in two assistant rows, and a search outside of assistant rows. -/
theorem settles_fails :
    ¬Settles [searchRow .assistant "s1", searchRow .assistant "s1"]
        (settleDeferredServerCalls [searchRow .assistant "s1", searchRow .assistant "s1"]) ∧
      ¬Settles [searchRow .user "s1"] (settleDeferredServerCalls [searchRow .user "s1"]) := by
  constructor
  · intro h
    have hbare := h.carriable [] (searchRow .assistant "s1") [searchRow .assistant "s1"] (by rfl) rfl "s1"
      (by decide) (by decide)
    exact absurd (hbare _ List.mem_cons_self) (by decide)
  · intro h
    have hsame := h.untouched (by
      intro before m after heq hrole
      obtain ⟨rfl, rfl⟩ : before = [] ∧ m = searchRow .user "s1" := by
        cases before with
        | nil => exact ⟨rfl, (List.cons.inj heq).1.symm⟩
        | cons x before => simp at heq
      cases hrole)
    exact absurd hsame (by decide)

end CaeloCms.Chat.History
