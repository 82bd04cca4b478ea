import CaeloCms.Chat.TurnSafety

/-!
# Turns take their turns

What `TurnSafety` says of a state, over runs: a turn that is over stays over, so that those of a process hold the chat in
the order in which they arrived, and every turn that is over lets the next one in.
-/

namespace CaeloCms.Chat

open PromiseChain (Settles)

section Later

variable {s : Setup} {w w' : World} {t : TurnId} {x : Turn}

/-- Steps of any kind lead there. -/
def Later (s : Setup) : World → World → Prop := Relation.ReflTransGen fun w w' => ∃ e, Step s w e w'

structure Keeps (p p' : Phase) : Prop where
  settled : p.Over → p' = p
  released : p.Released → p'.Released

theorem Keeps.refl (p : Phase) : Keeps p p := ⟨fun _ => rfl, id⟩

theorem Keeps.trans {p p' p'' : Phase} (h : Keeps p p') (h' : Keeps p' p'') : Keeps p p'' where
  settled hover := by
    have hsame := h.settled hover
    rw [← hsame] at hover
    exact (h'.settled hover).trans hsame
  released hreleased := h'.released (h.released hreleased)

theorem keeps_update {t₁ : TurnId} {x₁ x₁' : Turn} (hx₁ : w.turns t₁ = some x₁) (hkeeps : Keeps x₁.phase x₁'.phase)
    (hx : w.turns t = some x) :
    ∃ x', Function.update w.turns t₁ (some x₁') t = some x' ∧ Keeps x.phase x'.phase := by
  by_cases ht : t = t₁
  · subst ht
    rw [hx, Option.some.injEq] at hx₁
    subst hx₁
    exact ⟨x₁', Function.update_self .., hkeeps⟩
  · exact ⟨x, by rw [Function.update_of_ne ht, hx], Keeps.refl _⟩

theorem Moves.keeps {t₁ : TurnId} {x₁ : Turn} (hmoves : Moves s w t₁ x₁ w') (hx₁ : w.turns t₁ = some x₁)
    (hx : w.turns t = some x) : ∃ x', w'.turns t = some x' ∧ Keeps x.phase x'.phase := by
  have hkeeps : ∀ {p p' : Phase}, Next w t₁ p p' → Keeps p p' :=
    fun hnext => ⟨fun hover => absurd hover hnext.going, hnext.released⟩
  cases hmoves with
  | stays => exact ⟨x, hx, Keeps.refl _⟩
  | goesOn next going => exact keeps_update hx₁ (hkeeps next) hx
  | calls next going => exact keeps_update hx₁ (hkeeps next) hx
  | letsGo next gone => exact keeps_update hx₁ (hkeeps next) hx

theorem Step.keeps {e : Event} (hstep : Step s w e w') (hq : QueueInv w) (hx : w.turns t = some x) :
    ∃ x', w'.turns t = some x' ∧ Keeps x.phase x'.phase := by
  cases hstep with
  | @acquire i aborted up =>
    have hold : t ≠ ⟨i, (w.queues i).arrived⟩ := by
      rintro rfl
      exact Nat.lt_irrefl _ (hq.arrived _ x hx)
    refine ⟨x, ?_, Keeps.refl _⟩
    unfold World.acquire
    dsimp only
    rw [Function.update_of_ne hold, hx]
  | settle up => exact ⟨x, hx, Keeps.refl _⟩
  | forget up => exact ⟨x, hx, Keeps.refl _⟩
  | ready up turn queued ready => exact (ready_moves s queued ready).keeps turn hx
  | timeout up turn queued => exact (giveUp_moves s queued _).keeps turn hx
  | giveUp up turn queued aborted => exact (giveUp_moves s queued _).keeps turn hx
  | abort up turn => exact keeps_update turn (Keeps.refl _) hx
  | run pending new => exact ⟨x, hx, Keeps.refl _⟩
  | reply known turn up answered => exact (reply_moves s _ _ _).keeps turn hx
  | wake up turn sleeping => exact (wake_moves s sleeping).keeps turn hx
  | beat up turn held beating => exact (beat_moves s held).keeps turn hx
  | release up turn held => exact (release_moves s held).keeps turn hx
  | releaseAgain up turn ended => exact ⟨x, hx, Keeps.refl _⟩
  | crash => exact ⟨x, hx, Keeps.refl _⟩
  | tick later onTime => exact ⟨x, hx, Keeps.refl _⟩

theorem Reachable.mono {P Q : World → Event → Prop} (h : Reachable s P w) (hPQ : ∀ w e, P w e → Q w e) :
    Reachable s Q w := by
  induction h with
  | init => exact .init
  | step _ hp hstep ih => exact ih.step (hPQ _ _ hp) hstep

theorem Later.queueInv (h : Later s w w') (hq : QueueInv w) : QueueInv w' := by
  induction h with
  | refl => exact hq
  | tail _ hstep ih =>
    obtain ⟨e, hstep⟩ := hstep
    exact ih.step hstep

theorem Later.keeps (h : Later s w w') (hq : QueueInv w) (hx : w.turns t = some x) :
    ∃ x', w'.turns t = some x' ∧ Keeps x.phase x'.phase := by
  induction h with
  | refl => exact ⟨x, hx, Keeps.refl _⟩
  | tail hlater hstep ih =>
    obtain ⟨e, hstep⟩ := hstep
    obtain ⟨x₁, hx₁, hkeeps⟩ := ih
    obtain ⟨x₂, hx₂, hkeeps'⟩ := hstep.keeps (Later.queueInv hlater hq) hx₁
    exact ⟨x₂, hx₂, hkeeps.trans hkeeps'⟩

/-! ### Releasing a turn -/

theorem Step.released (hstep : Step s w (.release t) w') : ∃ x, w'.turns t = some x ∧ x.phase.Released := by
  cases hstep with
  | @release t x hold up turn held =>
    unfold World.release
    split
    · rename_i hreleased
      refine ⟨x, turn, ?_⟩
      rw [held]
      exact hreleased
    · exact ⟨_, Function.update_self .., rfl⟩
  | @releaseAgain t x up turn ended =>
    refine ⟨x, turn, ?_⟩
    rw [ended]
    trivial

theorem Step.release_again (hstep : Step s w (.release t) w') (hx : w.turns t = some x) (hreleased : x.phase.Released) :
    w' = w := by
  cases hstep with
  | release up turn held =>
    rw [hx, Option.some.injEq] at turn
    subst turn
    rw [held] at hreleased
    exact if_pos hreleased
  | releaseAgain up turn ended => rfl

/-! ### Letting the next turn in -/

/-- Only promises are kept, in the process of the turn. -/
def Settling (s : Setup) (i : Instance) : World → World → Prop :=
  Relation.ReflTransGen fun w w' => ∃ k, Step s w (.settle ⟨i, k⟩) w'

theorem Settles.settling {i : Instance} (hup : w.down i = false) {q : PromiseChain.Chain}
    (h : Settles (w.queues i) q) : ∃ w', Settling s i w w' ∧ w'.queues i = q ∧ w'.turns = w.turns ∧ w'.down = w.down := by
  induction h with
  | refl => exact ⟨w, .refl, rfl, rfl, rfl⟩
  | @tail q q' _ hstep ih =>
    obtain ⟨k, rfl⟩ := hstep
    obtain ⟨w', hsettling, rfl, hturns, hdown⟩ := ih
    refine ⟨w'.settle ⟨i, k⟩, hsettling.tail ⟨k, .settle ?_⟩, Function.update_self .., hturns, hdown⟩
    dsimp only
    rw [hdown, hup]

theorem QueueInv.exists_ready (hq : QueueInv w) (hx : w.turns t = some x) (hup : w.down t.host = false)
    (hgone : ∀ t' x', t'.host = t.host → t'.ticket < t.ticket → w.turns t' = some x' → x'.phase.Over) :
    ∃ w', Settling s t.host w w' ∧ w'.turns = w.turns ∧ (w'.queues t.host).ready t.ticket = true := by
  have hin := hq.arrived t x hx
  have hletGo : ∀ j < t.ticket, (w.queues t.host).letGo j = true := by
    intro j hj
    obtain ⟨x', hx'⟩ := hq.known t.host j (hj.trans hin)
    exact (hq.gone ⟨t.host, j⟩ x' hx').2 (hgone ⟨t.host, j⟩ x' rfl hj hx')
  obtain ⟨q, hsettles, hready⟩ := (hq.ordered t.host).exists_ready hin hletGo
  obtain ⟨w', hsettling, rfl, hturns, -⟩ := Settles.settling (s := s) hup hsettles
  exact ⟨w', hsettling, hturns, hready⟩

end Later

/-! ### One turn at a time -/

/-- Two turns do not hold the chat at a time. -/
def AtMostOne (w : World) : Prop := ∀ t t' hold hold', Running w t hold → Running w t' hold' → t = t'

/-- A turn that has been at the head of its queue finds the earlier ones over, for good. -/
def InOrder (s : Setup) (w : World) : Prop :=
  ∀ t t' x x', w.turns t = some x → w.turns t' = some x' → t.host = t'.host → t.ticket < t'.ticket → x'.phase.Active →
    ∀ w', Later s w w' → ∃ x₁, w'.turns t = some x₁ ∧ x₁.phase = x.phase ∧ x₁.phase.Over

/-- What is over has let go, and a turn is let in when all before it have. -/
def FreesQueue (s : Setup) (w : World) : Prop :=
  (∀ t x, w.turns t = some x → ((w.queues t.host).letGo t.ticket = true ↔ x.phase.Over)) ∧
    ∀ t x, w.turns t = some x → w.down t.host = false →
      (∀ t' x', t'.host = t.host → t'.ticket < t.ticket → w.turns t' = some x' → x'.phase.Over) →
      ∃ w', Settling s t.host w w' ∧ w'.turns = w.turns ∧ (w'.queues t.host).ready t.ticket = true

/-- After a release another one does nothing. -/
def ReleasesOnce (s : Setup) (w : World) : Prop :=
  ∀ t w₁ w₂ w₃, Step s w (.release t) w₁ → Later s w₁ w₂ → Step s w₂ (.release t) w₃ → w₃ = w₂

theorem turns_one_at_a_time (s : Setup) {w : World} (h : Reachable s (Prompt s) w) :
    AtMostOne w ∧ InOrder s w ∧ FreesQueue s w ∧ ReleasesOnce s w := by
  have hq := h.queueInv
  refine ⟨fun t t' hold hold' hrunning hrunning' => ?_, fun t t' x x' hx hx' hhost hlt hactive w' hlater => ?_,
    ⟨hq.gone, fun t x hx hup hgone => hq.exists_ready hx hup hgone⟩, fun t w₁ w₂ w₃ hfirst hlater hsecond => ?_⟩
  · exact (h.leaseInv.leased hrunning).unique (h.leaseInv.leased hrunning')
  · have hover : x.phase.Over := by
      rw [← hq.gone t x hx, hhost]
      exact hq.active t' x' hx' hactive t.ticket hlt
    obtain ⟨x₁, hx₁, hkeeps⟩ := hlater.keeps hq hx
    have hsame := hkeeps.settled hover
    exact ⟨x₁, hx₁, hsame, hsame ▸ hover⟩
  · obtain ⟨x₁, hx₁, hreleased⟩ := hfirst.released
    obtain ⟨x₂, hx₂, hkeeps⟩ := hlater.keeps (hq.step hfirst) hx₁
    exact hsecond.release_again hx₂ (hkeeps.released hreleased)

def twoAdmins : Setup where
  options _ := ⟨60000, 15000, 900000, 100, 1000⟩
  ahead i := if i = 0 then 0 else 250

/-- The first turn of the first process has the lease and does not know it yet. -/
def World.granted : World :=
  let w := World.init.acquire twoAdmins 0 false
  (w.claim twoAdmins ⟨0, 0⟩ ⟨false, 900000, .queued⟩ 100).run twoAdmins 0 ⟨⟨0, 0⟩, .acquire, 0, none⟩

theorem granted_reachable : Reachable twoAdmins (Prompt twoAdmins) World.granted := by
  have hacquired : Reachable twoAdmins (Prompt twoAdmins) (World.init.acquire twoAdmins 0 false) :=
    .step (e := .acquire 0 false) .init trivial (.acquire rfl)
  have hclaiming : Reachable twoAdmins (Prompt twoAdmins)
      ((World.init.acquire twoAdmins 0 false).claim twoAdmins ⟨0, 0⟩ ⟨false, 900000, .queued⟩ 100) :=
    .step (e := .ready ⟨0, 0⟩) hacquired trivial (.ready rfl rfl rfl rfl)
  exact .step (e := .run 0) hclaiming trivial (.run rfl rfl)

/-- The answer comes at once. -/
theorem turns_one_at_a_time_held : ∃ w hold, Running w ⟨0, 0⟩ hold ∧
    (AtMostOne w ∧ InOrder twoAdmins w ∧ FreesQueue twoAdmins w ∧ ReleasesOnce twoAdmins w) := by
  have hprompt : Prompt twoAdmins World.granted (.reply 0 (.ok (.acquired none))) := by
    intro call x pollMs hcall hx hphase hgoes
    cases hcall
    decide
  have hheld := granted_reachable.step hprompt (.reply rfl rfl rfl fun answer ha => by
    cases ha
    rfl)
  exact ⟨_, ⟨0, false, none, 0, none⟩, ⟨rfl, ⟨_, rfl, rfl⟩, rfl, rfl⟩, turns_one_at_a_time twoAdmins hheld⟩

/-- The answer comes when the lease has lapsed and a turn of the other process has taken it over. -/
theorem turns_two_at_a_time : ¬∀ s w, Reachable s (fun _ _ => True) w →
    AtMostOne w ∧ InOrder s w ∧ FreesQueue s w ∧ ReleasesOnce s w := by
  intro h
  have hgranted : Reachable twoAdmins (fun _ _ => True) World.granted := granted_reachable.mono fun _ _ _ => trivial
  have hnone : ∀ t hold, ¬Running World.granted t hold := by
    rintro t hold ⟨-, ⟨x, hx, hphase⟩, -⟩
    rcases update_some hx with ⟨-, rfl⟩ | ⟨-, hx⟩
    · cases hphase
    · rcases update_some hx with ⟨-, rfl⟩ | ⟨-, hx⟩
      · cases hphase
      · cases hx
  have hlapsed := hgranted.step (e := .tick 60000000) trivial
    (.tick (by decide) fun t hold hrunning => absurd hrunning (hnone t hold))
  have hacquired := hlapsed.step (e := .acquire 1 false) trivial (.acquire rfl)
  have hclaiming := hacquired.step (e := .ready ⟨1, 0⟩) trivial (.ready rfl rfl rfl rfl)
  have htaken := hclaiming.step (e := .run 1) trivial (.run rfl rfl)
  have hother := htaken.step (e := .reply 1 (.ok (.acquired (some ⟨0, 0⟩)))) trivial
    (.reply rfl rfl rfl fun answer ha => by
      cases ha
      rfl)
  have hfirst := hother.step (e := .reply 0 (.ok (.acquired none))) trivial (.reply rfl rfl rfl fun answer ha => by
    cases ha
    rfl)
  have hsame := (h twoAdmins _ hfirst).1 ⟨0, 0⟩ ⟨1, 0⟩ ⟨0, false, none, 60000000, none⟩
    ⟨60000, false, none, 60000000, none⟩ ⟨rfl, ⟨_, rfl, rfl⟩, rfl, rfl⟩ ⟨rfl, ⟨_, rfl, rfl⟩, rfl, rfl⟩
  cases hsame

end CaeloCms.Chat
