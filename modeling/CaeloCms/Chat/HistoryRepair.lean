import CaeloCms.Lib.InsertionMap
import CaeloCms.Lib.OrderedSet
import CaeloCms.Shared.Json

/-!
# Repair of the replayed history

`repairToolCallPairing` (`ai/chat-runner/history-repair.ts`): before a chat is sent to the provider, tool results that
another turn separated from their call are moved back, results without a call are dropped, calls without a result are
stripped or answered, and a second result of one call is dropped.

A row is either a reconstruction row or a passthrough row, whose messages are untyped JSON.
-/

namespace CaeloCms.Chat.History

inductive Role
  | user
  | assistant
  | tool
deriving DecidableEq, Repr

/-- `ProviderToolCall` -/
structure ToolCall where
  id : String
  name : String
  arguments : Json

structure ChatMessageInput where
  role : Role
  content : String
  toolCalls : Option (List ToolCall)
  toolCallId : Option String
  sdkMessages : Option (List Json)
  /-- What the repair carries along: images, thinking blocks, server calls. -/
  others : List (String × Json)

namespace ChatMessageInput

variable (m : ChatMessageInput)

/-- `m.sdkMessages ?? []` -/
def sdk : List Json := m.sdkMessages.getD []

/-- `m.toolCalls ?? []` -/
def calls : List ToolCall := m.toolCalls.getD []

def isPassthroughRow : Bool := !m.sdk.isEmpty

def isTurnRow : Bool := m.role = .user || m.role = .assistant

end ChatMessageInput

open ChatMessageInput (isPassthroughRow isTurnRow)

/-! ### Reading an assembly -/

/-- `msg.content`, when it is an array. -/
def contentOf (msg : Json) : Option (List Json) :=
  match msg.field "content" with
  | some (.arr content) => some content
  | _ => none

def sdkParts (sdkMessages : List Json) : List Json := sdkMessages.flatMap fun msg => (contentOf msg).getD []

def hasType (type : String) (part : Json) : Bool := part.stringField "type" == some type

def toolCallIdOf (part : Json) : Option String := part.stringField "toolCallId"

def isProviderExecuted (part : Json) : Bool :=
  match part.field "providerExecuted" with
  | some (.bool b) => b
  | _ => false

def resultIdOf (part : Json) : Option String :=
  if hasType "tool-result" part || hasType "tool-error" part then toolCallIdOf part else none

def useIdOf (part : Json) : Option String := if hasType "tool-call" part then toolCallIdOf part else none

def serverCallIdOf (part : Json) : Option String :=
  if hasType "tool-call" part && isProviderExecuted part then toolCallIdOf part else none

/-- `harvestSdkPairIds` -/
structure PairIds where
  toolUseIds : List String
  toolResultIds : List String
  providerExecutedCallIds : List String

def harvestSdkPairIds (sdkMessages : List Json) : PairIds :=
  { toolUseIds := (sdkParts sdkMessages).filterMap useIdOf
    toolResultIds := (sdkParts sdkMessages).filterMap resultIdOf
    providerExecutedCallIds := (sdkParts sdkMessages).filterMap serverCallIdOf }

structure PassthroughClientCall where
  toolCallId : String
  toolName : String
deriving DecidableEq, Repr

def clientCallOf (part : Json) : Option PassthroughClientCall :=
  if hasType "tool-call" part && !isProviderExecuted part then
    (toolCallIdOf part).bind fun toolCallId =>
      (part.stringField "toolName").map fun toolName => { toolCallId, toolName }
  else none

/-- The client calls of one assembly (`harvestClientCallsAndApprovals`). -/
def harvestClientCalls (sdkMessages : List Json) : List PassthroughClientCall :=
  (sdkParts sdkMessages).filterMap clientCallOf

def approvalRequestOf (part : Json) : Option (String × String) :=
  if hasType "tool-approval-request" part then
    (part.stringField "approvalId").bind fun approvalId =>
      (toolCallIdOf part).map fun toolCallId => (approvalId, toolCallId)
  else none

def approvalResponseOf (part : Json) : Option (String × Bool) :=
  if hasType "tool-approval-response" part then
    (part.stringField "approvalId").bind fun approvalId =>
      match part.field "approved" with
      | some (.bool approved) => some (approvalId, approved)
      | _ => none
  else none

def interruptedCallResult (call : PassthroughClientCall) (approved : Bool) : Json :=
  let value :=
    if approved then
      s!"No result was recorded for this {call.toolName} call: it was approved, but the turn stopped while it ran. It may have been applied — check the current state before calling it again."
    else
      s!"This {call.toolName} call was not applied: the conversation continued before it was approved. Call it again if it is still needed."
  .obj
    [("type", .str "tool-result"), ("toolCallId", .str call.toolCallId), ("toolName", .str call.toolName),
      ("output", .obj [("type", .str "error-text"), ("value", .str value)])]

/-! ### Displaced results -/

/-- The client calls a row opens and does not answer itself. -/
def openedClientCallIds (m : ChatMessageInput) : List String :=
  if m.isPassthroughRow then
    let answeredInRow := (harvestSdkPairIds m.sdk).toolResultIds
    ((harvestClientCalls m.sdk).map (·.toolCallId)).filter fun id => !answeredInRow.contains id
  else if m.role = .assistant then m.calls.map (·.id)
  else []

def resultRowId (m : ChatMessageInput) : Option String :=
  if m.role = .tool && !m.isPassthroughRow then m.toolCallId.filter fun id => !id.isEmpty else none

/-- A displaced result, with the row that opens its call. -/
structure Displaced where
  index : Nat
  owner : Nat
  row : ChatMessageInput
  id : String

structure RelocationScan where
  ownerOf : List (String × Nat)
  displaced : List Displaced
  lastTurnRow : Option Nat

def scanRow (scan : RelocationScan) (entry : ChatMessageInput × Nat) : RelocationScan :=
  let (m, i) := entry
  let displaced :=
    match resultRowId m with
    | none => scan.displaced
    | some id =>
      match InsertionMap.get scan.ownerOf id with
      | none => scan.displaced
      | some owner =>
        if scan.lastTurnRow.any fun last => owner < last then scan.displaced ++ [⟨i, owner, m, id⟩]
        else scan.displaced
  { ownerOf := (openedClientCallIds m).foldl
      (fun owners id => if InsertionMap.has owners id then owners else InsertionMap.set owners id i) scan.ownerOf
    displaced
    lastTurnRow := if m.isTurnRow then some i else scan.lastTurnRow }

/-- The rows that are moved to the end of the block of row `owner`. -/
def displacedByOwner (displaced : List Displaced) (owner : Option Nat) : List ChatMessageInput :=
  (displaced.filter fun d => some d.owner == owner).map (·.row)

def placeRows (displaced : List Displaced) : Nat → Option Nat → List ChatMessageInput → List ChatMessageInput
  | _, openOwner, [] => displacedByOwner displaced openOwner
  | i, openOwner, m :: rest =>
    if displaced.any fun d => d.index == i then placeRows displaced (i + 1) openOwner rest
    else if m.isTurnRow then
      displacedByOwner displaced openOwner ++ m :: placeRows displaced (i + 1) (some i) rest
    else m :: placeRows displaced (i + 1) openOwner rest

def relocateDisplacedToolResults (messages : List ChatMessageInput) : List ChatMessageInput × List String :=
  let displaced := (messages.zipIdx.foldl scanRow ⟨[], [], none⟩).displaced
  if displaced.isEmpty then (messages, [])
  else (placeRows displaced 0 none messages, displaced.map (·.id))

/-! ### Assemblies -/

def isSayingPart (part : Json) : Bool := !(hasType "reasoning" part || hasType "custom" part)

/-- `{ ...msg, content: kept }` -/
def withContent (kept : List Json) : Json → Json
  | .obj fields => .obj (fields.map fun f => if f.1 == "content" then (f.1, .arr kept) else f)
  | v => v

def isDanglingCall (danglingIds : List String) (part : Json) : Bool :=
  (serverCallIdOf part).any fun id => danglingIds.contains id

def stripDanglingServerCalls (sdkMessages : List Json) (danglingIds : List String) : List Json :=
  sdkMessages.flatMap fun msg =>
    match contentOf msg with
    | none => [msg]
    | some content =>
      let kept := content.filter fun part => !isDanglingCall danglingIds part
      if kept.length = content.length then [msg]
      else if kept.any isSayingPart then [withContent kept msg]
      else []

def repeatableIdOf (part : Json) : Option String := if hasType "tool-result" part then toolCallIdOf part else none

def dropRepeatedParts (emitted : List String) : List Json → List Json × List String × List String
  | [] => ([], [], emitted)
  | part :: rest =>
    match repeatableIdOf part with
    | none =>
      let (kept, dropped, emitted) := dropRepeatedParts emitted rest
      (part :: kept, dropped, emitted)
    | some id =>
      if emitted.contains id then
        let (kept, dropped, emitted) := dropRepeatedParts emitted rest
        (kept, id :: dropped, emitted)
      else
        let (kept, dropped, emitted) := dropRepeatedParts (id :: emitted) rest
        (part :: kept, dropped, emitted)

def toolContentOf (msg : Json) : Option (List Json) :=
  if msg.stringField "role" == some "tool" then contentOf msg else none

def dropRepeatedMessages (emitted : List String) : List Json → List Json × List String × List String
  | [] => ([], [], emitted)
  | msg :: rest =>
    match toolContentOf msg with
    | none =>
      let (out, dropped, emitted) := dropRepeatedMessages emitted rest
      (msg :: out, dropped, emitted)
    | some content =>
      let (kept, droppedHere, emitted) := dropRepeatedParts emitted content
      let (out, dropped, emitted) := dropRepeatedMessages emitted rest
      let here := if kept.length = content.length then [msg] else if kept.isEmpty then [] else [withContent kept msg]
      (here ++ out, droppedHere ++ dropped, emitted)

def dropRepeatedToolResults (sdkMessages : List Json) (emitted : List String) :
    List Json × List String × List String :=
  let (out, droppedIds, emitted) := dropRepeatedMessages emitted sdkMessages
  if droppedIds.isEmpty then (sdkMessages, [], emitted) else (out, droppedIds, emitted)

/-! ### The repair -/

structure AnsweredCall where
  toolCallId : String
  toolName : String
  approved : Bool
deriving DecidableEq, Repr

structure HistoryRepairResult where
  messages : List ChatMessageInput
  droppedToolResultIds : List String
  strippedToolCallIds : List String
  droppedEmptyAssistantMessages : Nat
  strippedServerToolCallIds : List String
  answeredInterruptedCalls : List AnsweredCall
  relocatedToolResultIds : List String

def rowUseIds (m : ChatMessageInput) : List String :=
  if m.isPassthroughRow then (harvestSdkPairIds m.sdk).toolUseIds
  else if m.role = .assistant then m.calls.map (·.id)
  else []

def rowResultIds (m : ChatMessageInput) : List String :=
  if m.isPassthroughRow then (harvestSdkPairIds m.sdk).toolResultIds else (resultRowId m).toList

def rowServerCallIds (m : ChatMessageInput) : List String :=
  if m.isPassthroughRow then (harvestSdkPairIds m.sdk).providerExecutedCallIds else []

def rowClientCalls (m : ChatMessageInput) : List PassthroughClientCall :=
  if m.isPassthroughRow then harvestClientCalls m.sdk else []

def passthroughParts (messages : List ChatMessageInput) : List Json :=
  (messages.filter isPassthroughRow).flatMap fun m => sdkParts m.sdk

/-- What the repair reads from the whole history before it goes through the rows. -/
structure Inventory where
  toolUseIds : List String
  toolResultIds : List String
  danglingServerCallIds : List String
  approvedCallIds : List String
  lastTurnIndex : Option Nat

def takeInventory (messages : List ChatMessageInput) : Inventory :=
  let toolResultIds := messages.flatMap rowResultIds
  let approvalCallIds := InsertionMap.setAll [] ((passthroughParts messages).filterMap approvalRequestOf)
  let approvalDecisions := InsertionMap.setAll [] ((passthroughParts messages).filterMap approvalResponseOf)
  { toolUseIds := messages.flatMap rowUseIds
    toolResultIds
    danglingServerCallIds := (messages.flatMap rowServerCallIds).filter fun id => !toolResultIds.contains id
    approvedCallIds := (approvalCallIds.filter fun p => InsertionMap.get approvalDecisions p.1 == some true).map (·.2)
    lastTurnIndex := (messages.zipIdx.filter fun p => p.1.isTurnRow).getLast?.map (·.2) }

structure RowRepair where
  rows : List ChatMessageInput := []
  droppedToolResultIds : List String := []
  strippedToolCallIds : List String := []
  droppedEmptyAssistantMessages : Nat := 0
  strippedServerToolCallIds : List String := []
  answeredInterruptedCalls : List AnsweredCall := []

/-- The ids answered so far, by rows that are pushed (`emittedResultIds`) and anywhere (`toolResultIds`). -/
structure Answered where
  emitted : List String
  results : List String

section Rows

variable (inv : Inventory)

/-- `pushWithInterruptedAnswers`: a row, and the answers to its calls that the conversation moved past. -/
def pushWithInterruptedAnswers (m : ChatMessageInput) (calls : List PassthroughClientCall) (index : Nat)
    (st : Answered) : RowRepair × Answered :=
  let dangling := calls.filter fun c =>
    !st.results.contains c.toolCallId && inv.lastTurnIndex.any fun last => index < last
  if dangling.isEmpty then ({ rows := [m] }, st)
  else
    let approved := fun (c : PassthroughClientCall) => inv.approvedCallIds.contains c.toolCallId
    let parts := dangling.map fun c => interruptedCallResult c (approved c)
    let answer : ChatMessageInput :=
      { role := .tool, content := "", toolCalls := none, toolCallId := none
        sdkMessages := some [.obj [("role", .str "tool"), ("content", .arr parts)]], others := [] }
    ({ rows := [m, answer]
       answeredInterruptedCalls := dangling.map fun c => ⟨c.toolCallId, c.toolName, approved c⟩ },
      { st with results := st.results ++ dangling.map (·.toolCallId) })

def repairPassthroughRow (m : ChatMessageInput) (index : Nat) (st : Answered) : RowRepair × Answered :=
  let toStrip := (OrderedSet.addAll [] (rowServerCallIds m)).filter fun id => inv.danglingServerCallIds.contains id
  let stripped := if toStrip.isEmpty then m.sdk else stripDanglingServerCalls m.sdk inv.danglingServerCallIds
  if stripped.isEmpty then ({ droppedEmptyAssistantMessages := 1, strippedServerToolCallIds := toStrip }, st)
  else
    let (deduped, droppedIds, emitted) := dropRepeatedToolResults stripped st.emitted
    let st := { st with emitted }
    if deduped.isEmpty then ({ droppedToolResultIds := droppedIds, strippedServerToolCallIds := toStrip }, st)
    else
      let pushed := if toStrip.isEmpty && droppedIds.isEmpty then m else { m with sdkMessages := some deduped }
      let (repair, st) := pushWithInterruptedAnswers inv pushed (rowClientCalls m) index st
      ({ repair with droppedToolResultIds := droppedIds, strippedServerToolCallIds := toStrip }, st)

def repairToolRow (m : ChatMessageInput) (st : Answered) : RowRepair × Answered :=
  match resultRowId m with
  | none => ({ droppedToolResultIds := ["(missing toolCallId)"] }, st)
  | some id =>
    if !inv.toolUseIds.contains id || st.emitted.contains id then ({ droppedToolResultIds := [id] }, st)
    else ({ rows := [m] }, { st with emitted := id :: st.emitted })

def repairAssistantRow (m : ChatMessageInput) (st : Answered) : RowRepair :=
  let answered := m.calls.filter fun tc => st.results.contains tc.id
  if answered.length = m.calls.length then { rows := [m] }
  else
    let strippedToolCallIds := (m.calls.filter fun tc => !st.results.contains tc.id).map (·.id)
    if m.content.isEmpty && answered.isEmpty then { strippedToolCallIds, droppedEmptyAssistantMessages := 1 }
    else
      { rows := [{ m with toolCalls := if answered.isEmpty then none else some answered }], strippedToolCallIds }

def repairRow (m : ChatMessageInput) (index : Nat) (st : Answered) : RowRepair × Answered :=
  if m.isPassthroughRow then repairPassthroughRow inv m index st
  else
    match m.role with
    | .tool => repairToolRow inv m st
    | .assistant => if m.calls.isEmpty then ({ rows := [m] }, st) else (repairAssistantRow m st, st)
    | .user => ({ rows := [m] }, st)

def repairRows : Nat → Answered → List ChatMessageInput → List RowRepair
  | _, _, [] => []
  | index, st, m :: rest => (repairRow inv m index st).1 :: repairRows (index + 1) (repairRow inv m index st).2 rest

end Rows

def repairToolCallPairing (storedMessages : List ChatMessageInput) : HistoryRepairResult :=
  let (messages, relocatedToolResultIds) := relocateDisplacedToolResults storedMessages
  let inv := takeInventory messages
  let repairs := repairRows inv 0 ⟨[], inv.toolResultIds⟩ messages
  { messages := repairs.flatMap RowRepair.rows
    droppedToolResultIds := repairs.flatMap RowRepair.droppedToolResultIds
    strippedToolCallIds := repairs.flatMap RowRepair.strippedToolCallIds
    droppedEmptyAssistantMessages := (repairs.map RowRepair.droppedEmptyAssistantMessages).sum
    strippedServerToolCallIds := repairs.flatMap RowRepair.strippedServerToolCallIds
    answeredInterruptedCalls := repairs.flatMap RowRepair.answeredInterruptedCalls
    relocatedToolResultIds }

end CaeloCms.Chat.History
