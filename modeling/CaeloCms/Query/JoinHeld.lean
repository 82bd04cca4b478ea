import CaeloCms.Lib.Savepoints

/-!
# Transactions that join the one their call chain holds

`#transaction` and `#joinHeld` of the database adapter with the pool guard's markers and queues and the post-commit effects: the
transactions of one call chain on one connection, as the steps any of them may take.  A call that joins waits in the queue of the
transaction it joins, runs as a savepoint under its own identity, and hands its effects and the connection's identity back
when it is released.

The bodies of the transactions are arbitrary: each runs statements that succeed or fail, registers effects, starts further calls,
one after the other or several at once, and ends or throws.  It awaits the calls it started before its next statement, and before
it ends.
-/

namespace CaeloCms.Query

inductive ActorKind
  | human
  | ai
  | plugin
  | system
deriving DecidableEq

structure ExecutionContext where
  actorId : String
  actorKind : ActorKind
  pluginId : Option String := none
  chatBranchId : Option String := none
  chatTaskId : Option String := none
deriving DecidableEq

/-- The settings of the session, each as it is before anything set it. -/
structure Settings where
  actorId : String := ""
  actorKind : Option ActorKind := none
  pluginId : String := ""
  chatBranchId : String := ""
  chatTaskId : String := ""
  opName : String := ""
  applicationName : String := ""
deriving DecidableEq

/-- The name of the session that a transaction opened for `holder` sets. -/
def transactionTag (holder : String) : String :=
  -- one `?` for each UTF-16 unit
  let printable := holder.toList.flatMap fun c =>
    if ' ' ≤ c ∧ c ≤ '~' then [c] else if c.toNat < 0x10000 then ['?'] else ['?', '?']
  String.ofList (("caelo/".toList ++ printable).take 63)

/-- Who opens a transaction. -/
inductive Opener
  /-- `runOperation` -/
  | operation (name : String)
  /-- `withAdminTransaction` -/
  | withAdmin (holder : Option String)
  /-- `withPublicTransaction` -/
  | withPublic (holder : Option String)
  /-- `readScope` -/
  | read (holder : String)
deriving DecidableEq

namespace Opener

def holder : Opener → String
  | operation name => name
  | withAdmin holder => holder.getD "withAdminTransaction"
  | withPublic holder => holder.getD "withPublicTransaction"
  | read holder => holder

def opName : Opener → Option String
  | operation name => some name
  | withAdmin holder => holder
  | withPublic _ => none
  | read _ => none

/-- Whether its own transaction collects post-commit effects. -/
def collects : Opener → Bool
  | read _ => false
  | _ => true

end Opener

def setIdentity (holder : String) (ctx : ExecutionContext) (opName : Option String) : Settings :=
  { actorId := ctx.actorId
    actorKind := some ctx.actorKind
    pluginId := ctx.pluginId.getD ""
    chatBranchId := ctx.chatBranchId.getD ""
    chatTaskId := ctx.chatTaskId.getD ""
    opName := opName.getD ""
    applicationName := transactionTag holder }

def setPublicIdentity (holder : String) (ctx : ExecutionContext) (settings : Settings) : Settings :=
  { settings with
    actorId := ctx.actorId
    actorKind := some ctx.actorKind
    pluginId := ctx.pluginId.getD ""
    applicationName := transactionTag holder }

/-- The first statement of a transaction. -/
def Opener.identify (o : Opener) (ctx : ExecutionContext) (settings : Settings) : Settings :=
  match o with
  | withPublic _ => setPublicIdentity o.holder ctx settings
  | _ => setIdentity o.holder ctx o.opName

structure PostCommitEffect where
  tx : Nat
  id : Nat
deriving DecidableEq

/-- Where a transaction of the chain stands. -/
inductive Phase
  /-- It waits in the queue of the transaction it joins. -/
  | queued
  /-- It is open, and its identity is set next. -/
  | identifying
  | body
  /-- Its body returned. -/
  | ending
  /-- It threw. -/
  | failing
  /-- Its savepoint is released. -/
  | released
  /-- It is over; what it did is kept, or was rolled back. -/
  | ended (kept : Bool)
deriving DecidableEq

def Phase.runs : Phase → Bool
  | queued => false
  | ended _ => false
  | _ => true

/-- The marker a transaction leaves on its call chain, and its post-commit effects. -/
structure HeldTransaction where
  opener : Opener
  ctx : ExecutionContext
  /-- The transaction it joins. -/
  outer : Option Nat := none
  /-- Itself and the transactions it joins, directly or not. -/
  chain : List Nat := []
  phase : Phase := .queued
  /-- What a joined call restores. -/
  identity : Option (ExecutionContext × Option String) := none
  /-- The joined calls made directly under it that are not settled, in the order they were made. -/
  joined : List Nat := []
  /-- `none`: it collects none. -/
  pending : Option (List PostCommitEffect) := none
deriving DecidableEq

/-- A statement of a body that ran, and the settings it ran under. -/
structure Statement where
  tx : Nat
  text : String
  settings : Settings
  ok : Bool
deriving DecidableEq

/-- What the transaction on the connection changed so far. -/
structure Session where
  settings : Settings
  log : List Statement
deriving DecidableEq

inductive Control
  | opens (tx : Nat)
  | closes (tx : Nat)
deriving DecidableEq

structure CallChain where
  conn : Savepoints Nat Session
  txs : Nat → HeldTransaction
  /-- How many transactions were started. -/
  next : Nat
  /-- What the connection's transaction left, once it ended. -/
  committed : Option (List Statement)
  todo : List PostCommitEffect
  ran : List PostCommitEffect
  /-- What happened so far. -/
  statements : List Statement
  controls : List Control
  registered : List PostCommitEffect

inductive Action
  | start (outer : Nat) (opener : Opener) (ctx : ExecutionContext)
  | dispatch (u : Nat)
  | identify (u : Nat) (ok : Bool)
  | execute (u : Nat) (text : String) (ok : Bool)
  | afterCommit (u : Nat)
  | finish (u : Nat) (ok : Bool)
  | release (u : Nat)
  | rollback (u : Nat)
  | rejoin (u : Nat) (ok : Bool)
  | runEffect

namespace CallChain

/-- The transaction that the chain opens on a connection of its own. -/
def init (opener : Opener) (ctx : ExecutionContext) : CallChain where
  conn := Savepoints.start ⟨{}, []⟩
  txs := Function.update (fun _ => { opener := opener, ctx := ctx }) 0
    { opener := opener, ctx := ctx, chain := [0], phase := .identifying, pending := if opener.collects then some [] else none }
  next := 1
  committed := none
  todo := []
  ran := []
  statements := []
  controls := []
  registered := []

def setTx (s : CallChain) (u : Nat) (h : HeldTransaction) : CallChain := { s with txs := Function.update s.txs u h }

def setPhase (s : CallChain) (u : Nat) (p : Phase) : CallChain := s.setTx u { s.txs u with phase := p }

def setConn (s : CallChain) (conn : Savepoints Nat Session) : CallChain := { s with conn := conn }

def settle (s : CallChain) (u t : Nat) (kept : Bool) : CallChain :=
  let s' := s.setPhase u (.ended kept)
  s'.setTx t { s'.txs t with joined := (s'.txs t).joined.tail }

def mergeSavepointEffects (effects : List PostCommitEffect) (pending : Option (List PostCommitEffect)) :
    Option (Option (List PostCommitEffect)) :=
  match effects with
  | [] => some pending
  | _ :: _ => pending.map fun p => some (p ++ effects)

/-- A transaction opened in the body of `t`: it joins `t`. -/
def start (s : CallChain) (t : Nat) (opener : Opener) (ctx : ExecutionContext) : Option CallChain :=
  if (s.txs t).phase = .body then
    let s' := s.setTx t { s.txs t with joined := (s.txs t).joined ++ [s.next] }
    let h : HeldTransaction := { opener := opener, ctx := ctx, outer := some t, chain := s.next :: (s.txs t).chain }
    some { s'.setTx s.next h with next := s.next + 1 }
  else none

/-- Its turn in the queue: the transaction it joins is still open, and its savepoint is established. -/
def dispatch (s : CallChain) (u : Nat) : Option CallChain :=
  match (s.txs u).phase, (s.txs u).outer with
  | .queued, some t =>
    if (s.txs t).joined.head? = some u then
      if (s.txs t).phase = .body then
        let r := s.conn.savepoint u
        if r.2 then
          some { (s.setConn r.1).setTx u { s.txs u with phase := .identifying, pending := some [] } with
            controls := s.controls ++ [.opens u] }
        else some (s.settle u t false)
      else some (s.settle u t false)
    else none
  | _, _ => none

/-- The identity of the transaction is set and recorded on its marker. -/
def identify (s : CallChain) (u : Nat) (ok : Bool) : Option CallChain :=
  let h := s.txs u
  if h.phase = .identifying then
    let r := s.conn.exec (fun σ => { σ with settings := h.opener.identify h.ctx σ.settings }) ok
    if r.2 then some ((s.setConn r.1).setTx u { h with phase := .body, identity := some (h.ctx, h.opener.opName) })
    else some ((s.setConn r.1).setPhase u .failing)
  else none

/-- A statement of the body.  The connection refuses it after one that failed. -/
def execute (s : CallChain) (u : Nat) (text : String) (ok : Bool) : Option CallChain :=
  let h := s.txs u
  if h.phase = .body ∧ h.joined = [] then
    if s.conn.aborted then some s
    else
      let e : Statement := ⟨u, text, s.conn.state.settings, ok⟩
      let r := s.conn.exec (fun σ => { σ with log := σ.log ++ [e] }) ok
      some { s.setConn r.1 with statements := s.statements ++ [e] }
  else none

def afterCommit (s : CallChain) (u : Nat) : Option CallChain :=
  let h := s.txs u
  if h.phase = .body then
    match h.pending with
    | none => some s
    | some pending =>
      let e : PostCommitEffect := ⟨u, s.registered.length⟩
      some { s.setTx u { h with pending := some (pending ++ [e]) } with registered := s.registered ++ [e] }
  else none

/-- The body returns, or throws. -/
def finish (s : CallChain) (u : Nat) (ok : Bool) : Option CallChain :=
  let h := s.txs u
  if h.phase = .body ∧ h.joined = [] then some (s.setPhase u (if ok then .ending else .failing)) else none

/-- `COMMIT` of the chain's own transaction, `RELEASE` of a joined one. -/
def release (s : CallChain) (u : Nat) : Option CallChain :=
  let h := s.txs u
  match h.phase, h.outer with
  | .ending, none =>
    if s.conn.aborted then some { s.setPhase u (.ended false) with committed := some [] }
    else some { s.setPhase u (.ended true) with committed := some s.conn.state.log, todo := h.pending.getD [] }
  | .ending, some _ =>
    let r := s.conn.release u
    if r.2 then some { (s.setConn r.1).setPhase u .released with controls := s.controls ++ [.closes u] }
    else some ((s.setConn r.1).setPhase u .failing)
  | _, _ => none

def rollback (s : CallChain) (u : Nat) : Option CallChain :=
  let h := s.txs u
  match h.phase, h.outer with
  | .failing, none => some { s.setPhase u (.ended false) with committed := some [] }
  | .failing, some t =>
    some { (s.setConn (s.conn.rollbackTo u).1).settle u t false with controls := s.controls ++ [.closes u] }
  | _, _ => none

/-- The released call hands its effects to the transaction it joined and restores that one's identity. -/
def rejoin (s : CallChain) (u : Nat) (ok : Bool) : Option CallChain :=
  let h := s.txs u
  match h.phase, h.outer with
  | .released, some t =>
    match mergeSavepointEffects (h.pending.getD []) (s.txs t).pending with
    | none => some (s.settle u t true)
    | some pending =>
      let s' := s.setTx t { s.txs t with pending := pending }
      match (s.txs t).identity with
      | none => some (s'.settle u t true)
      | some (ctx, opName) =>
        let r := s.conn.exec (fun σ => { σ with settings := setIdentity (s.txs t).opener.holder ctx opName }) ok
        some ((s'.setConn r.1).settle u t true)
  | _, _ => none

def runEffect (s : CallChain) : Option CallChain :=
  match s.todo with
  | e :: rest => some { s with todo := rest, ran := s.ran ++ [e] }
  | [] => none

def step (s : CallChain) : Action → Option CallChain
  | .start t opener ctx => s.start t opener ctx
  | .dispatch u => s.dispatch u
  | .identify u ok => s.identify u ok
  | .execute u text ok => s.execute u text ok
  | .afterCommit u => s.afterCommit u
  | .finish u ok => s.finish u ok
  | .release u => s.release u
  | .rollback u => s.rollback u
  | .rejoin u ok => s.rejoin u ok
  | .runEffect => s.runEffect

/-! ### What is promised -/

structure RunsUnder (h : HeldTransaction) (settings : Settings) : Prop where
  actorId : settings.actorId = h.ctx.actorId
  actorKind : settings.actorKind = some h.ctx.actorKind
  pluginId : settings.pluginId = h.ctx.pluginId.getD ""
  applicationName : settings.applicationName = transactionTag h.opener.holder
  admin : (∀ holder, h.opener ≠ .withPublic holder) → settings.chatBranchId = h.ctx.chatBranchId.getD "" ∧
    settings.chatTaskId = h.ctx.chatTaskId.getD "" ∧ settings.opName = h.opener.opName.getD ""

def commits (s : CallChain) (u : Nat) : Bool := (s.txs u).chain.all fun a => (s.txs a).phase = .ended true

/-- The savepoints that are open, newest first, or `none` where one was closed that was not the newest. -/
def nest (savepoints : List Nat) : Control → Option (List Nat)
  | .opens u => some (u :: savepoints)
  | .closes u =>
    match savepoints with
    | [] => none
    | v :: rest => if v = u then some rest else none

end CallChain

end CaeloCms.Query
