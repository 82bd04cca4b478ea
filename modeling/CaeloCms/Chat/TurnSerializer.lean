import CaeloCms.Chat.TurnLease
import CaeloCms.Lib.PromiseChain

/-!
# One turn of a chat at a time

`ai/chat-runner/turn-serializer.ts`, for the turns of one chat in any number of admin processes: the queue of a process,
the lease and the turns are all kept by chat.

A call of the store goes out, its statement runs at some time or never, and its reply, or a failure, arrives at some
other time or never; a failure says nothing about the statement.  The timers of a turn that waits fire at any time, the
heartbeat of a turn that holds the chat at most one beat late.  A process that crashes does nothing more.  `Date.now()`
counts the whole milliseconds of a clock that is ahead of the database clock by a fixed time.
-/

namespace CaeloCms.Chat

open PromiseChain (Chain)

/-- `ChatTurnSerializerOptions` -/
structure SerializerOptions where
  leaseTtlMs : Nat
  heartbeatMs : Nat
  waitTimeoutMs : Nat
  pollMinMs : Nat
  pollMaxMs : Nat
deriving Repr

/-- The processes, each with its options and the microseconds its clock is ahead. -/
structure Setup where
  options : Instance → SerializerOptions
  ahead : Instance → Nat

abbrev CallId := Nat

/-- `ChatTurnAcquireResult`, but for a turn that is held. -/
inductive Outcome
  | aborted
  | busy (heldSince : Option Nat)
  | failed (threw : Bool)
deriving DecidableEq, Repr

structure Call where
  turn : TurnId
  op : LeaseOp
  /-- `Date.now()` before the call. -/
  startedAt : Nat
  /-- What its statement answered, once it has run. -/
  answer : Option Answer
deriving DecidableEq, Repr

/-- The state of a held turn; `lastBeat` is when its heartbeat last fired, or started, on the database clock. -/
structure Hold where
  lastRenewOkAt : Nat
  lost : Bool
  renewing : Option CallId
  lastBeat : Nat
  released : Option CallId
deriving DecidableEq, Repr

inductive Phase
  | queued
  | claiming (call : CallId) (pollMs : Nat)
  | sleeping (pollMs : Nat)
  | handingBack (call : CallId) (outcome : Outcome)
  | held (hold : Hold)
  | returned (outcome : Outcome)
  | ended
deriving DecidableEq, Repr

structure Turn where
  aborted : Bool
  deadline : Nat
  phase : Phase
deriving DecidableEq, Repr

structure World where
  now : Nat
  lease : Option TurnLease
  queues : Instance → Chain
  turns : TurnId → Option Turn
  calls : CallId → Option Call
  sent : Nat
  down : Instance → Bool

def World.init : World := ⟨0, none, fun _ => Chain.empty, fun _ => none, fun _ => none, 0, fun _ => false⟩

/-! ### What a process does -/

section Process

variable (s : Setup) (w : World)

def World.dateNow (i : Instance) : Nat := (w.now + s.ahead i) / 1000

def World.put (t : TurnId) (x : Turn) : World := { w with turns := Function.update w.turns t (some x) }

/-- A call of the store goes out. -/
def World.send (t : TurnId) (op : LeaseOp) (x : Turn) : World :=
  { w with
    turns := Function.update w.turns t (some x)
    calls := Function.update w.calls w.sent (some ⟨t, op, w.dateNow s t.host, none⟩)
    sent := w.sent + 1 }

/-- The turn is over, after `letGoLocally`. -/
def World.finish (t : TurnId) (x : Turn) : World :=
  { w with
    turns := Function.update w.turns t (some x)
    queues := Function.update w.queues t.host ((w.queues t.host).release t.ticket) }

/-- `acquire` is called. -/
def World.acquire (i : Instance) (aborted : Bool) : World :=
  { w with
    turns := Function.update w.turns ⟨i, (w.queues i).arrived⟩
      (some ⟨aborted, w.dateNow s i + (s.options i).waitTimeoutMs, .queued⟩)
    queues := Function.update w.queues i (w.queues i).arrive }

def World.settle (t : TurnId) : World :=
  { w with queues := Function.update w.queues t.host ((w.queues t.host).settle t.ticket) }

def World.forget (t : TurnId) : World :=
  { w with queues := Function.update w.queues t.host ((w.queues t.host).forget t.ticket) }

def World.claim (t : TurnId) (x : Turn) (pollMs : Nat) : World :=
  if x.aborted then w.finish t { x with phase := .returned .aborted }
  else w.send s t .acquire { x with phase := .claiming w.sent pollMs }

/-- The rest of the round. -/
def World.claimAnswered (t : TurnId) (x : Turn) (startedAt pollMs : Nat) (answer : Answer) : World :=
  match answer with
  | .acquired _ =>
    if x.aborted then w.send s t .release { x with phase := .handingBack w.sent .aborted }
    else w.put t { x with phase := .held ⟨startedAt, false, none, w.now, none⟩ }
  | .refused heldSince =>
    if x.deadline ≤ w.dateNow s t.host then w.finish t { x with phase := .returned (.busy (some heldSince)) }
    else w.put t { x with phase := .sleeping (min (2 * pollMs) (s.options t.host).pollMaxMs) }
  | .renewed _ => w
  | .released _ => w

def World.claimFailed (t : TurnId) (x : Turn) (threw : Bool) : World :=
  if threw then w.send s t .release { x with phase := .handingBack w.sent (.failed true) }
  else w.finish t { x with phase := .returned (.failed false) }

/-- The heartbeat fires. -/
def World.beat (t : TurnId) (x : Turn) (hold : Hold) : World :=
  if hold.lost then w
  else if hold.lastRenewOkAt + (s.options t.host).leaseTtlMs < w.dateNow s t.host + 2 * (s.options t.host).heartbeatMs then
    w.put t { x with phase := .held { hold with lost := true, lastBeat := w.now } }
  else if hold.renewing.isSome then w.put t { x with phase := .held { hold with lastBeat := w.now } }
  else w.send s t .renew { x with phase := .held { hold with lastBeat := w.now, renewing := some w.sent } }

def World.renewAnswered (t : TurnId) (x : Turn) (hold : Hold) (startedAt : Nat) (result : Except Bool Answer) : World :=
  match result with
  | .ok (.renewed true) =>
    w.put t { x with phase := .held { hold with lastRenewOkAt := max hold.lastRenewOkAt startedAt, renewing := none } }
  | .ok (.renewed false) => w.put t { x with phase := .held { hold with lost := true, renewing := none } }
  | .error _ => w.put t { x with phase := .held { hold with renewing := none } }
  | _ => w

/-- `hold.release` is called. -/
def World.release (t : TurnId) (x : Turn) (hold : Hold) : World :=
  if hold.released.isSome then w
  else w.send s t .release { x with phase := .held { hold with released := some w.sent } }

def World.reply (c : CallId) (call : Call) (x : Turn) (result : Except Bool Answer) : World :=
  match x.phase with
  | .claiming c' pollMs =>
    if c' = c then
      match result with
      | .ok answer => w.claimAnswered s call.turn x call.startedAt pollMs answer
      | .error threw => w.claimFailed s call.turn x threw
    else w
  | .handingBack c' outcome => if c' = c then w.finish call.turn { x with phase := .returned outcome } else w
  | .held hold =>
    if hold.released = some c then w.finish call.turn { x with phase := .ended }
    else if hold.renewing = some c then w.renewAnswered call.turn x hold call.startedAt result
    else w
  | .queued => w
  | .sleeping _ => w
  | .returned _ => w
  | .ended => w

def World.run (c : CallId) (call : Call) : World :=
  let r := runLeaseOp call.op w.now call.turn (s.options call.turn.host).leaseTtlMs w.lease
  { w with lease := r.1, calls := Function.update w.calls c (some { call with answer := some r.2 }) }

end Process

/-! ### The steps -/

inductive Event
  | acquire (i : Instance) (aborted : Bool)
  | settle (t : TurnId)
  | forget (t : TurnId)
  | ready (t : TurnId)
  | giveUp (t : TurnId) (timeout : Bool)
  | abort (t : TurnId)
  | run (c : CallId)
  | reply (c : CallId) (result : Except Bool Answer)
  | wake (t : TurnId)
  | beat (t : TurnId)
  | release (t : TurnId)
  | crash (i : Instance)
  | tick (time : Nat)

def Running (w : World) (t : TurnId) (hold : Hold) : Prop :=
  w.down t.host = false ∧ (∃ x, w.turns t = some x ∧ x.phase = .held hold) ∧ hold.lost = false ∧ hold.released = none

inductive Step (s : Setup) : World → Event → World → Prop
  | acquire {w : World} {i : Instance} {aborted : Bool} (up : w.down i = false) :
    Step s w (.acquire i aborted) (w.acquire s i aborted)
  | settle {w : World} {t : TurnId} (up : w.down t.host = false) : Step s w (.settle t) (w.settle t)
  | forget {w : World} {t : TurnId} (up : w.down t.host = false) : Step s w (.forget t) (w.forget t)
  | ready {w : World} {t : TurnId} {x : Turn} (up : w.down t.host = false) (turn : w.turns t = some x)
    (queued : x.phase = .queued) (ready : (w.queues t.host).ready t.ticket = true) :
    Step s w (.ready t) (w.claim s t x (s.options t.host).pollMinMs)
  | timeout {w : World} {t : TurnId} {x : Turn} (up : w.down t.host = false) (turn : w.turns t = some x)
    (queued : x.phase = .queued) : Step s w (.giveUp t true) (w.finish t { x with phase := .returned (.busy none) })
  | giveUp {w : World} {t : TurnId} {x : Turn} (up : w.down t.host = false) (turn : w.turns t = some x)
    (queued : x.phase = .queued) (aborted : x.aborted = true) :
    Step s w (.giveUp t false) (w.finish t { x with phase := .returned .aborted })
  | abort {w : World} {t : TurnId} {x : Turn} (up : w.down t.host = false) (turn : w.turns t = some x) :
    Step s w (.abort t) (w.put t { x with aborted := true })
  | run {w : World} {c : CallId} {call : Call} (pending : w.calls c = some call) (new : call.answer = none) :
    Step s w (.run c) (w.run s c call)
  | reply {w : World} {c : CallId} {call : Call} {x : Turn} {result : Except Bool Answer}
    (known : w.calls c = some call) (turn : w.turns call.turn = some x) (up : w.down call.turn.host = false)
    (answered : ∀ answer, result = .ok answer → call.answer = some answer) :
    Step s w (.reply c result) (w.reply s c call x result)
  | wake {w : World} {t : TurnId} {x : Turn} {pollMs : Nat} (up : w.down t.host = false) (turn : w.turns t = some x)
    (sleeping : x.phase = .sleeping pollMs) : Step s w (.wake t) (w.claim s t x pollMs)
  | beat {w : World} {t : TurnId} {x : Turn} {hold : Hold} (up : w.down t.host = false) (turn : w.turns t = some x)
    (held : x.phase = .held hold) (beating : hold.released = none) : Step s w (.beat t) (w.beat s t x hold)
  | release {w : World} {t : TurnId} {x : Turn} {hold : Hold} (up : w.down t.host = false) (turn : w.turns t = some x)
    (held : x.phase = .held hold) : Step s w (.release t) (w.release s t x hold)
  | releaseAgain {w : World} {t : TurnId} {x : Turn} (up : w.down t.host = false) (turn : w.turns t = some x)
    (ended : x.phase = .ended) : Step s w (.release t) w
  | crash {w : World} {i : Instance} : Step s w (.crash i) { w with down := Function.update w.down i true }
  | tick {w : World} {time : Nat} (later : w.now ≤ time)
    (onTime : ∀ t hold, Running w t hold → time ≤ hold.lastBeat + 2000 * (s.options t.host).heartbeatMs) :
    Step s w (.tick time) { w with now := time }

/-- What runs reach whose steps all satisfy the condition. -/
inductive Reachable (s : Setup) (P : World → Event → Prop) : World → Prop
  | init : Reachable s P World.init
  | step {w w' : World} {e : Event} (h : Reachable s P w) (hp : P w e) (hstep : Step s w e w') : Reachable s P w'

end CaeloCms.Chat
