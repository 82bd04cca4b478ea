import CaeloCms.Chat.TurnSerializer

/-!
# At most one turn

A turn that gets the chat, or a renewal, in good time has the lease for longer than it can go without looking at its
clock: its next beat, one beat late at most, comes before the lease lapses, and it finds out (`LeaseInv`).  `acquire` does
not look at the clock once its claim has been answered: a turn whose answer came late holds the chat until its first
beat, whoever has taken the lease over since (`Prompt`).

The order of the turns of a process is that of its queue and rests on no clock (`QueueInv`).
-/

namespace CaeloCms.Chat

open PromiseChain (Chain Ordered Settles)

/-- The turn does nothing more. -/
def Phase.Over : Phase → Prop
  | .returned _ => True
  | .ended => True
  | _ => False

/-- The turn is or was at the head of its queue. -/
def Phase.Active : Phase → Prop
  | .claiming _ _ => True
  | .sleeping _ => True
  | .handingBack _ _ => True
  | .held _ => True
  | .ended => True
  | _ => False

/-- The turn gives the lease back, or has done so. -/
def Phase.Closing : Phase → Prop
  | .handingBack _ _ => True
  | .held hold => hold.released.isSome = true
  | .returned _ => True
  | .ended => True
  | _ => False

def Phase.Released : Phase → Prop
  | .held hold => hold.released.isSome = true
  | .ended => True
  | _ => False

/-- A claim is answered, and a beat finds a lease, with more than two beats of the lifetime left. -/
def Prompt (s : Setup) (w : World) : Event → Prop
  | .reply c (.ok (.acquired _)) => ∀ call x pollMs, w.calls c = some call → w.turns call.turn = some x →
      x.phase = .claiming c pollMs → x.aborted = false →
      w.dateNow s call.turn.host + 2 * (s.options call.turn.host).heartbeatMs <
        call.startedAt + (s.options call.turn.host).leaseTtlMs
  | .beat t => ∀ hold, Running w t hold →
      w.dateNow s t.host + 2 * (s.options t.host).heartbeatMs ≠ hold.lastRenewOkAt + (s.options t.host).leaseTtlMs
  | _ => True

/-! ### What becomes of a turn -/

structure Next (w : World) (t : TurnId) (p p' : Phase) : Prop where
  going : ¬p.Over
  active : p'.Active → p.Active ∨ (w.queues t.host).ready t.ticket = true
  released : p.Released → p'.Released

inductive Moves (s : Setup) (w : World) (t : TurnId) (x : Turn) : World → Prop
  | stays : Moves s w t x w
  | goesOn {x' : Turn} (next : Next w t x.phase x'.phase) (going : ¬x'.phase.Over) : Moves s w t x (w.put t x')
  | calls {op : LeaseOp} {x' : Turn} (next : Next w t x.phase x'.phase) (going : ¬x'.phase.Over) :
    Moves s w t x (w.send s t op x')
  | letsGo {x' : Turn} (next : Next w t x.phase x'.phase) (gone : x'.phase.Over) : Moves s w t x (w.finish t x')

section Moves

variable (s : Setup) {w : World} {t : TurnId} {x : Turn}

theorem claim_moves (hnext : ∀ p : Phase, Next w t x.phase p) (pollMs : Nat) : Moves s w t x (w.claim s t x pollMs) := by
  unfold World.claim
  split
  · exact .letsGo (hnext _) trivial
  · exact .calls (hnext _) id

theorem ready_moves (hqueued : x.phase = .queued) (hready : (w.queues t.host).ready t.ticket = true) {pollMs : Nat} :
    Moves s w t x (w.claim s t x pollMs) := by
  refine claim_moves s (fun p => ?_) pollMs
  rw [hqueued]
  exact ⟨id, fun _ => Or.inr hready, fun hreleased => hreleased.elim⟩

theorem wake_moves {pollMs : Nat} (hsleeping : x.phase = .sleeping pollMs) :
    Moves s w t x (w.claim s t x pollMs) := by
  refine claim_moves s (fun p => ?_) pollMs
  rw [hsleeping]
  exact ⟨id, fun _ => Or.inl trivial, fun hreleased => hreleased.elim⟩

theorem giveUp_moves (hqueued : x.phase = .queued) (outcome : Outcome) :
    Moves s w t x (w.finish t { x with phase := .returned outcome }) := by
  refine .letsGo ?_ trivial
  rw [hqueued]
  exact ⟨id, fun ha => ha.elim, fun hreleased => hreleased.elim⟩

theorem claimAnswered_moves {c : CallId} {poll : Nat} (hclaiming : x.phase = .claiming c poll) (startedAt pollMs : Nat)
    (answer : Answer) : Moves s w t x (w.claimAnswered s t x startedAt pollMs answer) := by
  have hnext : ∀ p : Phase, Next w t x.phase p := by
    intro p
    rw [hclaiming]
    exact ⟨id, fun _ => Or.inl trivial, fun hreleased => hreleased.elim⟩
  unfold World.claimAnswered
  cases answer with
  | acquired tookOver =>
    dsimp only
    split
    · exact .calls (hnext _) id
    · exact .goesOn (hnext _) id
  | refused heldSince =>
    dsimp only
    split
    · exact .letsGo (hnext _) trivial
    · exact .goesOn (hnext _) id
  | renewed held => exact .stays
  | released released => exact .stays

theorem claimFailed_moves {c : CallId} {poll : Nat} (hclaiming : x.phase = .claiming c poll) (threw : Bool) :
    Moves s w t x (w.claimFailed s t x threw) := by
  have hnext : ∀ p : Phase, Next w t x.phase p := by
    intro p
    rw [hclaiming]
    exact ⟨id, fun _ => Or.inl trivial, fun hreleased => hreleased.elim⟩
  unfold World.claimFailed
  split
  · exact .calls (hnext _) id
  · exact .letsGo (hnext _) trivial

theorem next_held {hold hold' : Hold} (hheld : x.phase = .held hold)
    (hreleased : hold.released.isSome = true → hold'.released.isSome = true) :
    Next w t x.phase (.held hold') := by
  rw [hheld]
  exact ⟨id, fun _ => Or.inl trivial, hreleased⟩

theorem renewAnswered_moves {hold : Hold} (hheld : x.phase = .held hold) (startedAt : Nat)
    (result : Except Bool Answer) : Moves s w t x (w.renewAnswered t x hold startedAt result) := by
  unfold World.renewAnswered
  split
  · exact .goesOn (next_held hheld id) id
  · exact .goesOn (next_held hheld id) id
  · exact .goesOn (next_held hheld id) id
  · exact .stays

theorem beat_moves {hold : Hold} (hheld : x.phase = .held hold) : Moves s w t x (w.beat s t x hold) := by
  unfold World.beat
  split
  · exact .stays
  · split
    · exact .goesOn (next_held hheld id) id
    · split
      · exact .goesOn (next_held hheld id) id
      · exact .calls (next_held hheld id) id

theorem release_moves {hold : Hold} (hheld : x.phase = .held hold) : Moves s w t x (w.release s t x hold) := by
  unfold World.release
  split
  · exact .stays
  · exact .calls (next_held hheld fun _ => rfl) id

theorem reply_moves (c : CallId) (call : Call) (result : Except Bool Answer) {x : Turn} :
    Moves s w call.turn x (w.reply s c call x result) := by
  unfold World.reply
  cases hphase : x.phase with
  | queued => exact .stays
  | sleeping pollMs => exact .stays
  | returned outcome => exact .stays
  | ended => exact .stays
  | claiming c' pollMs =>
    dsimp only
    split
    · cases result with
      | error threw => exact claimFailed_moves s hphase threw
      | ok answer => exact claimAnswered_moves s hphase _ pollMs answer
    · exact .stays
  | handingBack c' outcome =>
    dsimp only
    split
    · refine .letsGo ?_ trivial
      rw [hphase]
      exact ⟨id, fun ha => ha.elim, fun hreleased => hreleased.elim⟩
    · exact .stays
  | held hold =>
    dsimp only
    split
    · refine .letsGo ?_ trivial
      rw [hphase]
      exact ⟨id, fun _ => Or.inl trivial, fun _ => trivial⟩
    · split
      · exact renewAnswered_moves s hphase _ result
      · exact .stays

end Moves

/-! ### The queue of a process -/

structure QueueInv (w : World) : Prop where
  ordered : ∀ i, Ordered (w.queues i)
  arrived : ∀ t x, w.turns t = some x → t.ticket < (w.queues t.host).arrived
  gone : ∀ t x, w.turns t = some x → ((w.queues t.host).letGo t.ticket = true ↔ x.phase.Over)
  known : ∀ i k, k < (w.queues i).arrived → ∃ x, w.turns ⟨i, k⟩ = some x
  active : ∀ t x, w.turns t = some x → x.phase.Active → ∀ j < t.ticket, (w.queues t.host).letGo j = true

theorem queueInv_init : QueueInv World.init where
  ordered _ := Ordered.empty
  arrived t x h := by cases h
  gone t x h := by cases h
  known i k h := absurd h (Nat.not_lt_zero k)
  active t x h := by cases h

theorem update_some {α β : Type} [DecidableEq α] {f : α → Option β} {a a' : α} {b b' : β}
    (h : Function.update f a (some b) a' = some b') : a' = a ∧ b' = b ∨ a' ≠ a ∧ f a' = some b' := by
  by_cases ha : a' = a
  · rw [ha, Function.update_self, Option.some.injEq] at h
    exact Or.inl ⟨ha, h.symm⟩
  · rw [Function.update_of_ne ha] at h
    exact Or.inr ⟨ha, h⟩

theorem exists_update_some {α β : Type} [DecidableEq α] {f : α → Option β} {a' : α} (h : ∃ b', f a' = some b') (a : α)
    (b : β) : ∃ b', Function.update f a (some b) a' = some b' := by
  by_cases ha : a' = a
  · exact ⟨b, by rw [ha, Function.update_self]⟩
  · obtain ⟨b', hb'⟩ := h
    exact ⟨b', by rw [Function.update_of_ne ha, hb']⟩

section Queue

variable {w : World} {t : TurnId} {x : Turn}

variable {s : Setup} {w' : World} {x' : Turn}

theorem QueueInv.congr (h : QueueInv w) (hturns : w'.turns = w.turns) (hqueues : w'.queues = w.queues) :
    QueueInv w' where
  ordered := by
    rw [hqueues]
    exact h.ordered
  arrived := by
    rw [hqueues, hturns]
    exact h.arrived
  gone := by
    rw [hqueues, hturns]
    exact h.gone
  known := by
    rw [hqueues, hturns]
    exact h.known
  active := by
    rw [hqueues, hturns]
    exact h.active

theorem QueueInv.put (h : QueueInv w) (hx : w.turns t = some x) (hover : x'.phase.Over ↔ x.phase.Over)
    (hactive : x'.phase.Active → ∀ j < t.ticket, (w.queues t.host).letGo j = true) : QueueInv (w.put t x') where
  ordered := h.ordered
  arrived t₁ x₁ h₁ := by
    rcases update_some h₁ with ⟨rfl, -⟩ | ⟨-, h₁⟩
    · exact h.arrived t₁ x hx
    · exact h.arrived t₁ x₁ h₁
  gone t₁ x₁ h₁ := by
    rcases update_some h₁ with ⟨rfl, rfl⟩ | ⟨-, h₁⟩
    · exact (h.gone t₁ x hx).trans hover.symm
    · exact h.gone t₁ x₁ h₁
  known i k hk := exists_update_some (h.known i k hk) t x'
  active t₁ x₁ h₁ ha := by
    rcases update_some h₁ with ⟨rfl, rfl⟩ | ⟨-, h₁⟩
    · exact hactive ha
    · exact h.active t₁ x₁ h₁ ha

theorem QueueInv.send (h : QueueInv w) (hx : w.turns t = some x) (op : LeaseOp)
    (hover : x'.phase.Over ↔ x.phase.Over)
    (hactive : x'.phase.Active → ∀ j < t.ticket, (w.queues t.host).letGo j = true) : QueueInv (w.send s t op x') :=
  (h.put hx hover hactive).congr rfl rfl

/-- The queue of the process changes, and what has let go stays gone. -/
theorem QueueInv.requeue (h : QueueInv w) (i : Instance) {q : Chain} (hq : Ordered q)
    (harrived : q.arrived = (w.queues i).arrived) (hletGo : q.letGo = (w.queues i).letGo) :
    QueueInv { w with queues := Function.update w.queues i q } := by
  have hsame : ∀ j, (Function.update w.queues i q j).arrived = (w.queues j).arrived ∧
      (Function.update w.queues i q j).letGo = (w.queues j).letGo := by
    intro j
    by_cases hj : j = i
    · subst hj
      rw [Function.update_self]
      exact ⟨harrived, hletGo⟩
    · rw [Function.update_of_ne hj]
      exact ⟨rfl, rfl⟩
  refine ⟨fun j => ?_, fun t₁ x₁ h₁ => ?_, fun t₁ x₁ h₁ => ?_, fun j k hk => ?_, fun t₁ x₁ h₁ ha => ?_⟩
  · dsimp only
    by_cases hj : j = i
    · rw [hj, Function.update_self]
      exact hq
    · rw [Function.update_of_ne hj]
      exact h.ordered j
  · dsimp only
    rw [(hsame t₁.host).1]
    exact h.arrived t₁ x₁ h₁
  · dsimp only
    rw [(hsame t₁.host).2]
    exact h.gone t₁ x₁ h₁
  · dsimp only at hk
    rw [(hsame j).1] at hk
    exact h.known j k hk
  · dsimp only
    rw [(hsame t₁.host).2]
    exact h.active t₁ x₁ h₁ ha

theorem QueueInv.finish (h : QueueInv w) (hx : w.turns t = some x) (hover : x'.phase.Over)
    (hactive : x'.phase.Active → ∀ j < t.ticket, (w.queues t.host).letGo j = true) : QueueInv (w.finish t x') := by
  have hin := h.arrived t x hx
  have hgrows : ∀ i j, (w.queues i).letGo j = true →
      (Function.update w.queues t.host ((w.queues t.host).release t.ticket) i).letGo j = true := by
    intro i j hj
    by_cases hi : i = t.host
    · subst hi
      rw [Function.update_self]
      exact PromiseChain.letGo_release hj
    · rwa [Function.update_of_ne hi]
  have harrived : ∀ i, (Function.update w.queues t.host ((w.queues t.host).release t.ticket) i).arrived =
      (w.queues i).arrived := by
    intro i
    by_cases hi : i = t.host
    · rw [hi, Function.update_self]
      rfl
    · rw [Function.update_of_ne hi]
  unfold World.finish
  refine ⟨fun i => ?_, fun t₁ x₁ h₁ => ?_, fun t₁ x₁ h₁ => ?_, fun i k hk => ?_, fun t₁ x₁ h₁ ha j hj => ?_⟩
  · dsimp only
    by_cases hi : i = t.host
    · rw [hi, Function.update_self]
      exact (h.ordered t.host).release hin
    · rw [Function.update_of_ne hi]
      exact h.ordered i
  · dsimp only
    rw [harrived]
    rcases update_some h₁ with ⟨rfl, -⟩ | ⟨-, h₁⟩
    · exact hin
    · exact h.arrived t₁ x₁ h₁
  · dsimp only
    rcases update_some h₁ with ⟨rfl, rfl⟩ | ⟨ht, h₁⟩
    · rw [Function.update_self]
      exact iff_of_true (Function.update_self ..) hover
    · rw [← h.gone t₁ x₁ h₁]
      by_cases hi : t₁.host = t.host
      · have hticket : t₁.ticket ≠ t.ticket := fun heq => ht (TurnId.ext hi heq)
        rw [hi, Function.update_self]
        unfold Chain.release
        dsimp only
        rw [Function.update_of_ne hticket]
      · rw [Function.update_of_ne hi]
  · dsimp only at hk
    rw [harrived] at hk
    exact exists_update_some (h.known i k hk) t x'
  · apply hgrows
    rcases update_some h₁ with ⟨rfl, rfl⟩ | ⟨-, h₁⟩
    · exact hactive ha j hj
    · exact h.active t₁ x₁ h₁ ha j hj

theorem QueueInv.acquire (h : QueueInv w) (s : Setup) (i : Instance) (aborted : Bool) :
    QueueInv (w.acquire s i aborted) := by
  have hletGo : ∀ j, (Function.update w.queues i (w.queues i).arrive j).letGo = (w.queues j).letGo := by
    intro j
    by_cases hj : j = i
    · rw [hj, Function.update_self]
      rfl
    · rw [Function.update_of_ne hj]
  have harrived : ∀ j, (w.queues j).arrived ≤ (Function.update w.queues i (w.queues i).arrive j).arrived := by
    intro j
    by_cases hj : j = i
    · rw [hj, Function.update_self]
      exact Nat.le_succ _
    · rw [Function.update_of_ne hj]
  unfold World.acquire
  refine ⟨fun j => ?_, fun t₁ x₁ h₁ => ?_, fun t₁ x₁ h₁ => ?_, fun j k hk => ?_, fun t₁ x₁ h₁ ha => ?_⟩
  · dsimp only
    by_cases hj : j = i
    · rw [hj, Function.update_self]
      exact (h.ordered i).arrive
    · rw [Function.update_of_ne hj]
      exact h.ordered j
  · dsimp only
    rcases update_some h₁ with ⟨rfl, -⟩ | ⟨-, h₁⟩
    · dsimp only
      rw [Function.update_self]
      exact Nat.lt_succ_self _
    · exact (h.arrived t₁ x₁ h₁).trans_le (harrived t₁.host)
  · dsimp only
    rw [hletGo]
    rcases update_some h₁ with ⟨rfl, rfl⟩ | ⟨-, h₁⟩
    · exact iff_of_false (fun hgone => absurd ((h.ordered i).inside _ hgone) (Nat.lt_irrefl _)) id
    · exact h.gone t₁ x₁ h₁
  · dsimp only at hk ⊢
    by_cases ht : (⟨j, k⟩ : TurnId) = ⟨i, (w.queues i).arrived⟩
    · exact ⟨_, by rw [ht, Function.update_self]⟩
    · refine exists_update_some (h.known j k ?_) _ _
      by_cases hj : j = i
      · subst hj
        rw [Function.update_self] at hk
        have hne : k ≠ (w.queues j).arrived := fun heq => ht (by rw [heq])
        have hlt : k < (w.queues j).arrived + 1 := hk
        omega
      · rwa [Function.update_of_ne hj] at hk
  · dsimp only
    rw [hletGo]
    rcases update_some h₁ with ⟨rfl, rfl⟩ | ⟨-, h₁⟩
    · exact ha.elim
    · exact h.active t₁ x₁ h₁ ha

theorem QueueInv.moves (h : QueueInv w) (hx : w.turns t = some x) (hmoves : Moves s w t x w') :
    QueueInv w' := by
  have hhead : ∀ p, Next w t x.phase p → p.Active → ∀ j < t.ticket, (w.queues t.host).letGo j = true := by
    intro p hnext ha
    rcases hnext.active ha with ha | hready
    · exact h.active t x hx ha
    · exact fun j hj => (h.ordered t.host).letGo_of_ready (h.arrived t x hx) hready hj
  cases hmoves with
  | stays => exact h
  | goesOn next going => exact h.put hx (iff_of_false going next.going) (hhead _ next)
  | calls next going => exact h.send hx _ (iff_of_false going next.going) (hhead _ next)
  | letsGo next gone => exact h.finish hx gone (hhead _ next)

theorem QueueInv.step {e : Event} (h : QueueInv w) (hstep : Step s w e w') : QueueInv w' := by
  cases hstep with
  | acquire up => exact h.acquire s _ _
  | @settle t up =>
    obtain ⟨harrived, -, hletGo⟩ := PromiseChain.settle_same (w.queues t.host) t.ticket
    exact h.requeue t.host ((h.ordered t.host).settle t.ticket) harrived hletGo
  | @forget t up =>
    refine h.requeue t.host ((h.ordered t.host).forget t.ticket) ?_ ?_ <;>
    · unfold Chain.forget
      split <;> rfl
  | ready up turn queued ready => exact h.moves turn (ready_moves s queued ready)
  | timeout up turn queued => exact h.moves turn (giveUp_moves s queued _)
  | giveUp up turn queued aborted => exact h.moves turn (giveUp_moves s queued _)
  | @abort t x up turn => exact h.put turn Iff.rfl (h.active t x turn)
  | run pending new => exact h.congr rfl rfl
  | reply known turn up answered => exact h.moves turn (reply_moves s _ _ _)
  | wake up turn sleeping => exact h.moves turn (wake_moves s sleeping)
  | beat up turn held beating => exact h.moves turn (beat_moves s held)
  | release up turn held => exact h.moves turn (release_moves s held)
  | releaseAgain up turn ended => exact h
  | crash => exact h.congr rfl rfl
  | tick later onTime => exact h.congr rfl rfl

theorem Reachable.queueInv {P : World → Event → Prop} (h : Reachable s P w) : QueueInv w := by
  induction h with
  | init => exact queueInv_init
  | step _ _ hstep ih => exact ih.step hstep

end Queue

/-! ### The lease -/

section Lease

variable (s : Setup)

/-- The lease is the turn's for its lifetime from the given time of the process on. -/
def Secured (w : World) (t : TurnId) (start : Nat) : Prop :=
  ∃ time, LeasedUntil w.lease t time ∧ 1000 * (start + (s.options t.host).leaseTtlMs) ≤ time + s.ahead t.host

/-- The lifetime from the given time of the process on is over. -/
def Lapsed (w : World) (t : TurnId) (start : Nat) : Prop :=
  1000 * (start + (s.options t.host).leaseTtlMs) ≤ w.now + s.ahead t.host

/-- The next beat comes before the lease lapses. -/
structure HoldOk (w : World) (t : TurnId) (hold : Hold) : Prop where
  secured : Secured s w t hold.lastRenewOkAt
  beating : w.now ≤ hold.lastBeat + 2000 * (s.options t.host).heartbeatMs
  inTime : hold.lastBeat + 2000 * (s.options t.host).heartbeatMs + s.ahead t.host <
    1000 * (hold.lastRenewOkAt + (s.options t.host).leaseTtlMs)

def TurnOk (w : World) (t : TurnId) : Phase → Prop
  | .claiming c _ => ∃ call, w.calls c = some call ∧ call.turn = t ∧
      ∀ tookOver, call.answer = some (.acquired tookOver) → Secured s w t call.startedAt ∨ Lapsed s w t call.startedAt
  | .held hold => (hold.lost = false → hold.released = none → w.down t.host = false → HoldOk s w t hold) ∧
      ∀ c, hold.renewing = some c → ∃ call, w.calls c = some call ∧ call.turn = t ∧
        (hold.lost = false → hold.released = none → w.down t.host = false → call.answer = some (.renewed true) →
          Secured s w t call.startedAt)
  | _ => True

structure LeaseInv (w : World) : Prop where
  bounded : LeaseBounded (fun t => (s.options t.host).leaseTtlMs) w.now w.lease
  fresh : ∀ c, w.sent ≤ c → w.calls c = none
  known : ∀ c call, w.calls c = some call → ∃ x, w.turns call.turn = some x
  started : ∀ c call, w.calls c = some call → 1000 * call.startedAt ≤ w.now + s.ahead call.turn.host
  turns : ∀ t x, w.turns t = some x → TurnOk s w t x.phase
  closing : ∀ c call x, w.calls c = some call → call.op = .release → w.turns call.turn = some x → x.phase.Closing

theorem leaseInv_init : LeaseInv s World.init where
  bounded l h := by cases h
  fresh c _ := rfl
  known c call h := by cases h
  started c call h := by cases h
  turns t x h := by cases h
  closing c call x h := by cases h

variable {s} {w : World} {t : TurnId} {x : Turn}

theorem TurnOk.mono {w' : World} {p : Phase} (h : TurnOk s w t p)
    (hcalls : ∀ c call, w.calls c = some call → w'.calls c = some call) (hlease : w'.lease = w.lease)
    (hnow : w'.now = w.now) (hdown : ∀ i, w'.down i = false → w.down i = false) : TurnOk s w' t p := by
  have hsecured : ∀ start, Secured s w t start → Secured s w' t start := by
    intro start hstart
    unfold Secured
    rw [hlease]
    exact hstart
  cases p with
  | claiming c pollMs =>
    obtain ⟨call, hcall, hturn, hanswer⟩ := h
    refine ⟨call, hcalls c call hcall, hturn, fun tookOver ha => (hanswer tookOver ha).imp (hsecured _) fun hlapsed => ?_⟩
    unfold Lapsed
    rw [hnow]
    exact hlapsed
  | held hold =>
    obtain ⟨hok, hrenewing⟩ := h
    refine ⟨fun hlost hreleased hup => ?_, fun c hc => ?_⟩
    · obtain ⟨hlease', hbeating, hinTime⟩ := hok hlost hreleased (hdown _ hup)
      exact ⟨hsecured _ hlease', by rw [hnow]; exact hbeating, hinTime⟩
    · obtain ⟨call, hcall, hturn, hanswer⟩ := hrenewing c hc
      exact ⟨call, hcalls c call hcall, hturn, fun hlost hreleased hup ha =>
        hsecured _ (hanswer hlost hreleased (hdown _ hup) ha)⟩
  | queued => trivial
  | sleeping pollMs => trivial
  | handingBack c outcome => trivial
  | returned outcome => trivial
  | ended => trivial

/-! ### What keeps it -/

variable {call : Call} {c : CallId} {hold : Hold} {x' : Turn}

theorem LeaseInv.put (h : LeaseInv s w) (hx : w.turns t = some x) (hok : TurnOk s w t x'.phase)
    (hclosing : x.phase.Closing → x'.phase.Closing) : LeaseInv s (w.put t x') where
  bounded := h.bounded
  fresh := h.fresh
  known c call hc := exists_update_some (h.known c call hc) t x'
  started := h.started
  turns t₁ x₁ h₁ := by
    rcases update_some h₁ with ⟨rfl, rfl⟩ | ⟨-, h₁⟩
    · exact hok.mono (fun _ _ hc => hc) rfl rfl fun _ hup => hup
    · exact (h.turns t₁ x₁ h₁).mono (fun _ _ hc => hc) rfl rfl fun _ hup => hup
  closing c call x₁ hc hop h₁ := by
    rcases update_some h₁ with ⟨ht, rfl⟩ | ⟨-, h₁⟩
    · exact hclosing (h.closing c call x hc hop (ht ▸ hx))
    · exact h.closing c call x₁ hc hop h₁

theorem LeaseInv.requeue (h : LeaseInv s w) (queues : Instance → Chain) : LeaseInv s { w with queues := queues } where
  bounded := h.bounded
  fresh := h.fresh
  known := h.known
  started := h.started
  turns t x hx := (h.turns t x hx).mono (fun _ _ hc => hc) rfl rfl fun _ hup => hup
  closing := h.closing

theorem LeaseInv.finish (h : LeaseInv s w) (hx : w.turns t = some x) (hover : x'.phase.Over) :
    LeaseInv s (w.finish t x') := by
  have hok : TurnOk s w t x'.phase ∧ x'.phase.Closing := by
    cases hphase : x'.phase with
    | returned outcome => exact ⟨trivial, trivial⟩
    | ended => exact ⟨trivial, trivial⟩
    | queued | claiming | sleeping | handingBack | held =>
      rw [hphase] at hover
      exact hover.elim
  exact (h.put hx hok.1 fun _ => hok.2).requeue _

theorem LeaseInv.send (h : LeaseInv s w) (hx : w.turns t = some x) (op : LeaseOp)
    (hok : TurnOk s (w.send s t op x') t x'.phase) (hclosing : x.phase.Closing → x'.phase.Closing)
    (hrelease : op = .release → x'.phase.Closing) : LeaseInv s (w.send s t op x') := by
  have hkeep : ∀ c call, w.calls c = some call → (w.send s t op x').calls c = some call := by
    intro c call hc
    have hne : c ≠ w.sent := by
      rintro rfl
      rw [h.fresh w.sent le_rfl] at hc
      cases hc
    unfold World.send
    dsimp only
    rw [Function.update_of_ne hne, hc]
  refine ⟨h.bounded, fun c hc => ?_, fun c call hc => ?_, fun c call hc => ?_, fun t₁ x₁ h₁ => ?_,
    fun c call x₁ hc hop h₁ => ?_⟩
  · have hlt : w.sent < c := hc
    unfold World.send
    dsimp only
    rw [Function.update_of_ne hlt.ne']
    exact h.fresh c hlt.le
  · rcases update_some hc with ⟨-, rfl⟩ | ⟨-, hc⟩
    · exact ⟨x', Function.update_self ..⟩
    · exact exists_update_some (h.known c call hc) t x'
  · rcases update_some hc with ⟨-, rfl⟩ | ⟨-, hc⟩
    · unfold World.send World.dateNow
      dsimp only
      omega
    · exact h.started c call hc
  · rcases update_some h₁ with ⟨rfl, rfl⟩ | ⟨-, h₁⟩
    · exact hok
    · exact (h.turns t₁ x₁ h₁).mono hkeep rfl rfl fun _ hup => hup
  · rcases update_some hc with ⟨-, rfl⟩ | ⟨-, hc⟩
    · rcases update_some h₁ with ⟨-, rfl⟩ | ⟨ht, -⟩
      · exact hrelease hop
      · exact absurd rfl ht
    · rcases update_some h₁ with ⟨ht, rfl⟩ | ⟨-, h₁⟩
      · exact hclosing (h.closing c call x ‹_› hop (ht ▸ hx))
      · exact h.closing c call x₁ ‹_› hop h₁

theorem LeaseInv.acquire (h : LeaseInv s w) (hq : QueueInv w) (i : Instance) (aborted : Bool) :
    LeaseInv s (w.acquire s i aborted) := by
  have hnew : w.turns ⟨i, (w.queues i).arrived⟩ = none := by
    by_contra hne
    obtain ⟨x, hx⟩ := Option.ne_none_iff_exists'.1 hne
    exact absurd (hq.arrived _ x hx) (Nat.lt_irrefl _)
  refine ⟨h.bounded, h.fresh, fun c call hc => exists_update_some (h.known c call hc) _ _, h.started,
    fun t₁ x₁ h₁ => ?_, fun c call x₁ hc hop h₁ => ?_⟩
  · rcases update_some h₁ with ⟨rfl, rfl⟩ | ⟨-, h₁⟩
    · trivial
    · exact (h.turns t₁ x₁ h₁).mono (fun _ _ hc => hc) rfl rfl fun _ hup => hup
  · rcases update_some h₁ with ⟨ht, rfl⟩ | ⟨-, h₁⟩
    · obtain ⟨x, hx⟩ := h.known c call hc
      rw [ht, hnew] at hx
      cases hx
    · exact h.closing c call x₁ hc hop h₁

theorem LeaseInv.claim (h : LeaseInv s w) (hx : w.turns t = some x) (hopen : ¬x.phase.Closing) (pollMs : Nat) :
    LeaseInv s (w.claim s t x pollMs) := by
  unfold World.claim
  split
  · exact h.finish hx trivial
  · refine h.send hx _ ⟨_, Function.update_self .., rfl, fun tookOver ha => ?_⟩ (fun hclosing => absurd hclosing hopen)
      fun hop => by cases hop
    cases ha

/-- A lease that a turn has stays its own while the turn gives nothing back, or its lifetime is over. -/
theorem Secured.run (h : LeaseInv s w) (hc : w.calls c = some call) (hx : w.turns t = some x)
    (hopen : ¬x.phase.Closing) {start : Nat} (hsecured : Secured s w t start) :
    Secured s (w.run s c call) t start ∨ Lapsed s w t start := by
  obtain ⟨time, hleased, htime⟩ := hsecured
  rcases hleased.run call.op call.turn h.bounded with hstays | hlapsed | ⟨hop, ht⟩
  · exact Or.inl ⟨time, hstays, htime⟩
  · refine Or.inr ?_
    unfold Lapsed
    omega
  · subst ht
    exact absurd (h.closing c call x hc hop hx) hopen

/-- The lease of a turn that holds the chat has not lapsed, and is only extended. -/
theorem Secured.keep (h : LeaseInv s w) (hc : w.calls c = some call) (hx : w.turns t = some x)
    (hopen : ¬x.phase.Closing) (hok : HoldOk s w t hold) {start : Nat} (hsecured : Secured s w t start) :
    Secured s (w.run s c call) t start := by
  have hbeating := hok.beating
  have hinTime := hok.inTime
  obtain ⟨time₁, ⟨l, hl, hholder, htime₁⟩, hlease⟩ := hok.secured
  obtain ⟨time, ⟨l', hl', -, htime⟩, hstart⟩ := hsecured
  rw [hl, Option.some.injEq] at hl'
  subst hl'
  have hleased : LeasedUntil w.lease t l.expiresAt := ⟨l, hl, hholder, le_rfl⟩
  rcases hleased.run call.op call.turn h.bounded with hstays | hlapsed | ⟨hop, ht⟩
  · exact ⟨l.expiresAt, hstays, by omega⟩
  · omega
  · subst ht
    exact absurd (h.closing c call x hc hop hx) hopen

theorem secured_of_answer (h : LeaseInv s w) (hc : w.calls c = some call)
    (hheld : (∃ tookOver, (runLeaseOp call.op w.now call.turn (s.options call.turn.host).leaseTtlMs w.lease).2 =
        .acquired tookOver) ∨
      (runLeaseOp call.op w.now call.turn (s.options call.turn.host).leaseTtlMs w.lease).2 = .renewed true) :
    Secured s (w.run s c call) call.turn call.startedAt := by
  have hstarted := h.started c call hc
  have hleased := @leasedUntil_of_answer (fun t => (s.options t.host).leaseTtlMs) w.now w.lease call.op call.turn _ rfl
    hheld
  exact ⟨_, hleased, by omega⟩

theorem LeaseInv.run (h : LeaseInv s w) (hc : w.calls c = some call)
    (hnew : call.answer = none) : LeaseInv s (w.run s c call) := by
  have hcalls : ∀ c₁ call₁, (w.run s c call).calls c₁ = some call₁ → ∃ call₂, w.calls c₁ = some call₂ ∧
      call₂.turn = call₁.turn ∧ call₂.op = call₁.op ∧ call₂.startedAt = call₁.startedAt := by
    intro c₁ call₁ h₁
    rcases update_some h₁ with ⟨rfl, rfl⟩ | ⟨-, h₁⟩
    · exact ⟨call, hc, rfl, rfl, rfl⟩
    · exact ⟨call₁, h₁, rfl, rfl, rfl⟩
  refine ⟨h.bounded.run call.op call.turn, fun c₁ h₁ => ?_, fun c₁ call₁ h₁ => ?_, fun c₁ call₁ h₁ => ?_,
    fun t x hx => ?_, fun c₁ call₁ x h₁ hop hx => ?_⟩
  · have hne : c₁ ≠ c := by
      rintro rfl
      rw [h.fresh c₁ h₁] at hc
      cases hc
    unfold World.run
    dsimp only
    rw [Function.update_of_ne hne]
    exact h.fresh c₁ h₁
  · obtain ⟨call₂, h₂, hturn, -, -⟩ := hcalls c₁ call₁ h₁
    rw [← hturn]
    exact h.known c₁ call₂ h₂
  · obtain ⟨call₂, h₂, hturn, -, hstarted⟩ := hcalls c₁ call₁ h₁
    rw [← hturn, ← hstarted]
    exact h.started c₁ call₂ h₂
  · have hx' : w.turns t = some x := hx
    have hok := h.turns t x hx'
    cases hphase : x.phase with
    | queued => trivial
    | sleeping pollMs => trivial
    | handingBack c outcome => trivial
    | returned outcome => trivial
    | ended => trivial
    | claiming c₁ pollMs =>
      rw [hphase] at hok
      obtain ⟨call₁, h₁, rfl, hanswer⟩ := hok
      have hopen : ¬x.phase.Closing := by
        rw [hphase]
        exact id
      by_cases hsame : c₁ = c
      · subst hsame
        rw [hc, Option.some.injEq] at h₁
        subst h₁
        refine ⟨_, Function.update_self .., rfl, fun tookOver ha => Or.inl ?_⟩
        exact secured_of_answer h hc (Or.inl ⟨tookOver, Option.some.inj ha⟩)
      · refine ⟨call₁, ?_, rfl, fun tookOver ha => ?_⟩
        · unfold World.run
          dsimp only
          rw [Function.update_of_ne hsame, h₁]
        · rcases hanswer tookOver ha with hsecured | hlapsed
          · exact hsecured.run h hc hx' hopen
          · exact Or.inr hlapsed
    | held hold =>
      rw [hphase] at hok
      obtain ⟨hhold, hrenewing⟩ := hok
      have hopen : hold.released = none → ¬x.phase.Closing := by
        intro hreleased hclosing
        rw [hphase] at hclosing
        have hsome : hold.released.isSome = true := hclosing
        rw [hreleased] at hsome
        cases hsome
      have hkeep : hold.lost = false → hold.released = none → w.down t.host = false → ∀ start,
          Secured s w t start → Secured s (w.run s c call) t start :=
        fun hlost hreleased hup start => Secured.keep h hc hx' (hopen hreleased) (hhold hlost hreleased hup)
      refine ⟨fun hlost hreleased hup => ?_, fun c₁ hc₁ => ?_⟩
      · obtain ⟨hsecured, hbeating, hinTime⟩ := hhold hlost hreleased hup
        exact ⟨hkeep hlost hreleased hup _ hsecured, hbeating, hinTime⟩
      · obtain ⟨call₁, h₁, rfl, hanswer⟩ := hrenewing c₁ hc₁
        by_cases hsame : c₁ = c
        · subst hsame
          rw [hc, Option.some.injEq] at h₁
          subst h₁
          refine ⟨_, Function.update_self .., rfl, fun _ _ _ ha => ?_⟩
          exact secured_of_answer h hc (Or.inr (Option.some.inj ha))
        · refine ⟨call₁, ?_, rfl, fun hlost hreleased hup ha =>
            hkeep hlost hreleased hup _ (hanswer hlost hreleased hup ha)⟩
          unfold World.run
          dsimp only
          rw [Function.update_of_ne hsame, h₁]
  · obtain ⟨call₂, h₂, hturn, hop', -⟩ := hcalls c₁ call₁ h₁
    rw [← hturn] at hx
    exact h.closing c₁ call₂ x h₂ (hop'.trans hop) hx

theorem LeaseInv.claimFailed (h : LeaseInv s w) (hx : w.turns t = some x) (hopen : ¬x.phase.Closing) (threw : Bool) :
    LeaseInv s (w.claimFailed s t x threw) := by
  unfold World.claimFailed
  split
  · exact h.send hx _ trivial (fun hclosing => absurd hclosing hopen) fun _ => trivial
  · exact h.finish hx trivial

theorem LeaseInv.claimAnswered (h : LeaseInv s w) (hx : w.turns call.turn = some x)
    (hopen : ¬x.phase.Closing) {answer : Answer} (hanswer : ∀ tookOver, answer = .acquired tookOver →
      Secured s w call.turn call.startedAt ∨ Lapsed s w call.turn call.startedAt)
    (hprompt : (∃ tookOver, answer = .acquired tookOver) → x.aborted = false →
      w.dateNow s call.turn.host + 2 * (s.options call.turn.host).heartbeatMs <
        call.startedAt + (s.options call.turn.host).leaseTtlMs) (pollMs : Nat) :
    LeaseInv s (w.claimAnswered s call.turn x call.startedAt pollMs answer) := by
  unfold World.claimAnswered
  cases answer with
  | renewed held => exact h
  | released released => exact h
  | refused heldSince =>
    dsimp only
    split
    · exact h.finish hx trivial
    · exact h.put hx trivial fun hclosing => absurd hclosing hopen
  | acquired tookOver =>
    dsimp only
    split
    · exact h.send hx _ trivial (fun hclosing => absurd hclosing hopen) fun _ => trivial
    · rename_i hgoes
      have htime := hprompt ⟨tookOver, rfl⟩ (by simpa using hgoes)
      have hnow : (w.now + s.ahead call.turn.host) < 1000 * (w.dateNow s call.turn.host + 1) := by
        unfold World.dateNow
        omega
      have hsecured : Secured s w call.turn call.startedAt := by
        refine (hanswer tookOver rfl).resolve_right fun hlapsed => ?_
        unfold Lapsed at hlapsed
        omega
      refine h.put hx ⟨fun _ _ _ => ⟨hsecured, ?_, ?_⟩, fun c hc => by cases hc⟩ fun hclosing => absurd hclosing hopen
      · exact Nat.le_add_right ..
      · dsimp only
        omega

theorem LeaseInv.renewAnswered (h : LeaseInv s w) (hx : w.turns call.turn = some x)
    (hphase : x.phase = .held hold) {result : Except Bool Answer}
    (hresult : ∀ answer, result = .ok answer → call.answer = some answer)
    (hanswer : hold.lost = false → hold.released = none → w.down call.turn.host = false →
      call.answer = some (.renewed true) → Secured s w call.turn call.startedAt) :
    LeaseInv s (w.renewAnswered call.turn x hold call.startedAt result) := by
  have hok := h.turns call.turn x hx
  rw [hphase] at hok
  have hclosing : ∀ hold' : Hold, hold'.released = hold.released → x.phase.Closing → (Phase.held hold').Closing := by
    intro hold' hreleased hclosing
    rw [hphase] at hclosing
    have hsome : hold.released.isSome = true := hclosing
    rw [← hreleased] at hsome
    exact hsome
  have hput : ∀ hold' : Hold, hold'.released = hold.released → hold'.renewing = none →
      (hold'.lost = false → hold.released = none → w.down call.turn.host = false → HoldOk s w call.turn hold') →
      LeaseInv s (w.put call.turn { x with phase := .held hold' }) := by
    intro hold' hreleased hrenewing hhold
    refine h.put hx ⟨fun hlost hopen hup => hhold hlost (hreleased ▸ hopen) hup, fun c hc => ?_⟩ (hclosing hold' hreleased)
    rw [hrenewing] at hc
    cases hc
  unfold World.renewAnswered
  split
  · refine hput _ rfl rfl fun hlost hopen hup => ?_
    obtain ⟨hsecured, hbeating, hinTime⟩ := hok.1 hlost hopen hup
    have hrenewed := hanswer hlost hopen hup (hresult _ rfl)
    refine ⟨?_, hbeating, ?_⟩
    · dsimp only
      rcases Nat.le_total hold.lastRenewOkAt call.startedAt with hle | hle
      · rwa [Nat.max_eq_right hle]
      · rwa [Nat.max_eq_left hle]
    · dsimp only
      omega
  · refine hput _ rfl rfl fun hlost _ _ => ?_
    cases hlost
  · exact hput _ rfl rfl fun hlost hopen hup => ⟨(hok.1 hlost hopen hup).secured, (hok.1 hlost hopen hup).beating,
      (hok.1 hlost hopen hup).inTime⟩
  · exact h

theorem LeaseInv.reply (h : LeaseInv s w) {result : Except Bool Answer}
    (hc : w.calls c = some call) (hx : w.turns call.turn = some x)
    (hresult : ∀ answer, result = .ok answer → call.answer = some answer) (hprompt : Prompt s w (.reply c result)) :
    LeaseInv s (w.reply s c call x result) := by
  have hok := h.turns call.turn x hx
  unfold World.reply
  cases hphase : x.phase with
  | queued => exact h
  | sleeping pollMs => exact h
  | returned outcome => exact h
  | ended => exact h
  | claiming c' pollMs =>
    have hopen : ¬x.phase.Closing := by
      rw [hphase]
      exact id
    dsimp only
    split
    · rename_i hsame
      subst hsame
      rw [hphase] at hok
      obtain ⟨call', hc', -, hanswer⟩ := hok
      rw [hc, Option.some.injEq] at hc'
      subst hc'
      cases result with
      | error threw => exact h.claimFailed hx hopen threw
      | ok answer =>
        refine h.claimAnswered hx hopen (fun tookOver ha => hanswer tookOver ?_) (fun hacquired hgoes => ?_) pollMs
        · rw [hresult answer rfl, ha]
        · obtain ⟨tookOver, rfl⟩ := hacquired
          exact hprompt call x pollMs hc hx hphase hgoes
    · exact h
  | handingBack c' outcome =>
    dsimp only
    split
    · exact h.finish hx trivial
    · exact h
  | held hold =>
    dsimp only
    split
    · exact h.finish hx trivial
    · split
      · rename_i hrenewing
        rw [hphase] at hok
        obtain ⟨call', hc', -, hanswer⟩ := hok.2 c hrenewing
        rw [hc, Option.some.injEq] at hc'
        subst hc'
        exact h.renewAnswered hx hphase hresult hanswer
      · exact h

theorem LeaseInv.beat (h : LeaseInv s w) (hup : w.down t.host = false) (hx : w.turns t = some x)
    (hphase : x.phase = .held hold) (hbeating : hold.released = none) (hprompt : Prompt s w (.beat t)) :
    LeaseInv s (w.beat s t x hold) := by
  have hok := h.turns t x hx
  rw [hphase] at hok
  have hopen : ¬x.phase.Closing := by
    intro hclosing
    rw [hphase] at hclosing
    have hsome : hold.released.isSome = true := hclosing
    rw [hbeating] at hsome
    cases hsome
  have hclosing : ∀ p : Phase, x.phase.Closing → p.Closing := fun p hclosing => absurd hclosing hopen
  unfold World.beat
  split
  · exact h
  · rename_i hlost
    have hlost : hold.lost = false := by simpa using hlost
    have hne := hprompt hold ⟨hup, ⟨x, hx, hphase⟩, hlost, hbeating⟩
    have hhold := hok.1 hlost hbeating hup
    split
    · refine h.put hx (And.intro (fun hnot _ _ => ?_) fun c hc => ?_) (hclosing _)
      · cases hnot
      · obtain ⟨call, hcall, hturn, -⟩ := hok.2 c hc
        refine ⟨call, hcall, hturn, fun hnot _ _ _ => ?_⟩
        cases hnot
    · rename_i hleft
      have hinTime : w.now + 2000 * (s.options t.host).heartbeatMs + s.ahead t.host <
          1000 * (hold.lastRenewOkAt + (s.options t.host).leaseTtlMs) := by
        have hnow : w.now + s.ahead t.host < 1000 * (w.dateNow s t.host + 1) := by
          unfold World.dateNow
          omega
        omega
      split
      · exact h.put hx ⟨fun _ _ _ => ⟨hhold.secured, Nat.le_add_right .., hinTime⟩, hok.2⟩ (hclosing _)
      · refine h.send hx _ ⟨fun _ _ _ => ⟨hhold.secured, Nat.le_add_right .., hinTime⟩, fun c hc => ?_⟩ (hclosing _)
          fun hop => by cases hop
        cases hc
        exact ⟨_, Function.update_self .., rfl, fun _ _ _ ha => by cases ha⟩

theorem LeaseInv.release (h : LeaseInv s w) (hx : w.turns t = some x) (hphase : x.phase = .held hold) :
    LeaseInv s (w.release s t x hold) := by
  have hok := h.turns t x hx
  rw [hphase] at hok
  have hkeep : ∀ c call, w.calls c = some call → c ≠ w.sent := by
    rintro c call hcall rfl
    rw [h.fresh w.sent le_rfl] at hcall
    cases hcall
  unfold World.release
  split
  · exact h
  · refine h.send hx _ (And.intro (fun _ hnone _ => ?_) fun c hc => ?_) (fun _ => rfl) fun _ => rfl
    · cases hnone
    · obtain ⟨call, hcall, hturn, -⟩ := hok.2 c hc
      refine ⟨call, ?_, hturn, fun _ hnone _ _ => ?_⟩
      · unfold World.send
        dsimp only
        rw [Function.update_of_ne (hkeep c call hcall), hcall]
      · cases hnone

theorem LeaseInv.tick (h : LeaseInv s w) {time : Nat} (hlater : w.now ≤ time)
    (honTime : ∀ t hold, Running w t hold → time ≤ hold.lastBeat + 2000 * (s.options t.host).heartbeatMs) :
    LeaseInv s { w with now := time } where
  bounded l hl := by
    have hle := h.bounded l hl
    dsimp only at hle ⊢
    omega
  fresh := h.fresh
  known := h.known
  started c call hc := by
    have hle := h.started c call hc
    dsimp only
    omega
  turns t x hx := by
    have hx' : w.turns t = some x := hx
    have hok := h.turns t x hx'
    cases hphase : x.phase with
    | queued => trivial
    | sleeping pollMs => trivial
    | handingBack c outcome => trivial
    | returned outcome => trivial
    | ended => trivial
    | claiming c pollMs =>
      rw [hphase] at hok
      obtain ⟨call, hc, hturn, hanswer⟩ := hok
      refine ⟨call, hc, hturn, fun tookOver ha => (hanswer tookOver ha).imp id fun hlapsed => ?_⟩
      unfold Lapsed at hlapsed ⊢
      dsimp only
      omega
    | held hold =>
      rw [hphase] at hok
      refine ⟨fun hlost hreleased hup => ?_, hok.2⟩
      obtain ⟨hsecured, -, hinTime⟩ := hok.1 hlost hreleased hup
      exact ⟨hsecured, honTime t hold ⟨hup, ⟨x, hx', hphase⟩, hlost, hreleased⟩, hinTime⟩
  closing := h.closing

theorem LeaseInv.step {w' : World} {e : Event} (h : LeaseInv s w) (hq : QueueInv w) (hp : Prompt s w e)
    (hstep : Step s w e w') : LeaseInv s w' := by
  cases hstep with
  | acquire up => exact h.acquire hq _ _
  | settle up => exact h.requeue _
  | forget up => exact h.requeue _
  | ready up turn queued ready => exact h.claim turn (by rw [queued]; exact id) _
  | timeout up turn queued => exact h.finish turn trivial
  | giveUp up turn queued aborted => exact h.finish turn trivial
  | @abort t x up turn => exact h.put turn (h.turns t x turn) id
  | run pending new => exact h.run pending new
  | reply known turn up answered => exact h.reply known turn answered hp
  | wake up turn sleeping => exact h.claim turn (by rw [sleeping]; exact id) _
  | beat up turn held beating => exact h.beat up turn held beating hp
  | release up turn held => exact h.release turn held
  | releaseAgain up turn ended => exact h
  | @crash i =>
    have hdown : ∀ j, Function.update w.down i true j = false → w.down j = false := by
      intro j hj
      by_cases hji : j = i
      · rw [hji, Function.update_self] at hj
        cases hj
      · rwa [Function.update_of_ne hji] at hj
    exact ⟨h.bounded, h.fresh, h.known, h.started, fun t x hx => (h.turns t x hx).mono (fun _ _ hc => hc) rfl rfl hdown,
      h.closing⟩
  | tick later onTime => exact h.tick later onTime

theorem Reachable.leaseInv (h : Reachable s (Prompt s) w) : LeaseInv s w := by
  induction h with
  | init => exact leaseInv_init s
  | step h hp hstep ih => exact ih.step h.queueInv hp hstep

theorem LeaseInv.leased (h : LeaseInv s w) (hrunning : Running w t hold) :
    LeasedUntil w.lease t (w.now + 1) := by
  obtain ⟨hup, ⟨x, hx, hphase⟩, hlost, hreleased⟩ := hrunning
  have hok := h.turns t x hx
  rw [hphase] at hok
  obtain ⟨⟨time, hleased, htime⟩, hbeating, hinTime⟩ := hok.1 hlost hreleased hup
  exact hleased.mono (by omega)

end Lease

end CaeloCms.Chat
