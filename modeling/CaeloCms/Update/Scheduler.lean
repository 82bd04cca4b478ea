import CaeloCms.Update.AutoUpdate

/-!
# The waits of the scheduler

A wait with a time ends at the first moment at which the scheduler installs, and a clock that jumps rarely never leaves
it without a time (`wait_exact`).
-/

namespace CaeloCms.Update

open MinuteClock (JumpsRarely)

/-- The same question at another time. -/
def AutoUpdateInput.at_ (input : AutoUpdateInput) (t : Int) : AutoUpdateInput := { input with now := t }

def Installs (cal : Calendar) (input : AutoUpdateInput) : Prop :=
  ∃ auto reason, decideAutoUpdate cal input = .install auto reason

def WaitsUntil (cal : Calendar) (input : AutoUpdateInput) (until_ : Option Int) : Prop :=
  ∃ auto reason, decideAutoUpdate cal input = .wait auto reason until_ false

def SoakOver (cal : Calendar) (policy : StoredUpdatePolicy) (basis : AutoUpdateBasis) (publishedAt : String) (t : Int) :
    Prop :=
  ∀ ready, soakEnd cal policy basis publishedAt = some ready → ready ≤ t

/-- The Owner did not skip what may install. -/
def Admitted (input : AutoUpdateInput) (release : Release) (auto : AutoInstall) : Prop :=
  assess input = .inr (release, auto) ∧ input.skippedVersion ≠ some auto.version

def Settled (decision : AutoUpdateDecision) : Prop :=
  (∃ reason, decision = .none reason) ∨ ∃ action version kind reason, decision = .offer action version kind reason

section

variable {cal : Calendar} {input : AutoUpdateInput} {policy : StoredUpdatePolicy} {release : Release}
  {auto : AutoInstall} {decision : AutoUpdateDecision} {t : Int}

theorem isPausedAt_eq (policy : StoredUpdatePolicy) (now : Int) : isPausedAt cal policy now =
    (policy.paused && policy.pausedUntil.all fun date => (cal.parseDate date).any fun time => now < time) := by
  unfold isPausedAt
  cases policy.paused with
  | false => rfl
  | true => cases policy.pausedUntil <;> rfl

theorem isPausedAt_of_le {now : Int} (h : isPausedAt cal policy now = false) (hle : now ≤ t) :
    isPausedAt cal policy t = false := by
  rw [isPausedAt_eq] at h ⊢
  cases hpaused : policy.paused with
  | false => rfl
  | true =>
    rw [hpaused, Bool.true_and] at h
    rw [Bool.true_and]
    cases huntil : policy.pausedUntil with
    | none =>
      rw [huntil] at h
      cases h
    | some date =>
      rw [huntil, Option.all_some] at h
      rw [Option.all_some]
      cases hdate : cal.parseDate date with
      | none => rfl
      | some time =>
        rw [hdate, Option.any_some, decide_eq_false_iff_not] at h
        rw [Option.any_some, decide_eq_false_iff_not]
        omega

variable {date reason : String} {until_ : Option Int}

theorem settled_offer {action : OfferAction} {version : String} {kind : UpdateKind} :
    Settled (.offer action version kind reason) := .inr ⟨action, version, kind, reason, rfl⟩

theorem settled_of_ite {α : Type} {p : Prop} [Decidable p] {d : AutoUpdateDecision} {rest : AutoUpdateDecision ⊕ α}
    (hd : Settled d) (hrest : rest = .inl decision → Settled decision)
    (h : (if p then .inl d else rest) = .inl decision) : Settled decision := by
  by_cases hp : p
  · rw [if_pos hp] at h
    exact Sum.inl.inj h ▸ hd
  · rw [if_neg hp] at h
    exact hrest h

theorem settled_assessFacts {v : String} {kind : UpdateKind} {facts : ReleaseFacts}
    (h : assessFacts input v kind facts = .inl decision) : Settled decision := by
  unfold assessFacts at h
  dsimp only at h
  refine settled_of_ite settled_offer (settled_of_ite settled_offer (settled_of_ite settled_offer ?_)) h
  intro h
  cases hbasis : autoBasis input.policy facts kind with
  | none =>
    rw [hbasis] at h
    exact Sum.inl.inj h ▸ settled_offer
  | some basis =>
    rw [hbasis] at h
    refine settled_of_ite settled_offer ?_ h
    intro h
    cases h

theorem settled_assess (h : assess input = .inl decision) : Settled decision := by
  unfold assess at h
  cases hrelease : input.release with
  | none =>
    rw [hrelease] at h
    exact Sum.inl.inj h ▸ .inl ⟨_, rfl⟩
  | some release =>
    rw [hrelease] at h
    dsimp only at h
    cases hkind : updateKind input.installedVersion.toList release.version.toList with
    | none =>
      rw [hkind] at h
      exact Sum.inl.inj h ▸ .inl ⟨_, rfl⟩
    | some kind =>
      rw [hkind] at h
      refine settled_of_ite settled_offer (settled_of_ite settled_offer (settled_of_ite settled_offer ?_)) h
      intro h
      cases hfacts : input.facts with
      | error unavailable =>
        rw [hfacts] at h
        exact Sum.inl.inj h ▸ settled_offer
      | ok facts =>
        rw [hfacts] at h
        dsimp only at h
        cases hassess : assessFacts input release.version kind facts with
        | inl d =>
          rw [hassess] at h
          exact Sum.inl.inj h ▸ settled_assessFacts hassess
        | inr auto =>
          rw [hassess] at h
          cases h

theorem decideAutoUpdate_of_inl (h : assess input = .inl decision) : decideAutoUpdate cal input = decision := by
  have hrules : decideByRules cal input = decision := by
    unfold decideByRules
    rw [h]
  unfold decideAutoUpdate
  rw [hrules]
  rcases settled_assess h with ⟨reason, rfl⟩ | ⟨action, version, kind, reason, rfl⟩
  · rfl
  · rfl

/-! ### What the time decides -/

theorem schedule_paused (h : isPausedAt cal input.policy input.now = true) :
    ∃ reason until_, schedule cal input release auto = .wait auto reason until_ true := by
  unfold schedule
  dsimp only
  rw [if_pos h]
  exact ⟨_, _, rfl⟩

theorem schedule_unknown (h : isPausedAt cal input.policy input.now = false) (hdate : release.publishedAt = none) :
    Settled (schedule cal input release auto) := by
  unfold schedule
  dsimp only
  rw [if_neg (Bool.eq_false_iff.1 h), hdate]
  exact settled_offer

theorem schedule_soaking (h : isPausedAt cal input.policy input.now = false) {ready : Int}
    (hdate : release.publishedAt = some date) (hready : soakEnd cal input.policy auto.basis date = some ready)
    (hlt : input.now < ready) : ∃ reason, schedule cal input release auto = .wait auto reason
      (if inMaintenanceWindow cal input.policy ready then some ready else nextWindowOpening cal input.policy ready)
      false := by
  have hfilter : ((some ready).filter fun ready => decide (input.now < ready)) = some ready :=
    Option.filter_some_pos (decide_eq_true hlt)
  unfold schedule
  dsimp only
  rw [if_neg (Bool.eq_false_iff.1 h), hdate]
  dsimp only
  rw [hready, hfilter]
  exact ⟨_, rfl⟩

theorem filter_soakEnd (h : SoakOver cal policy auto.basis date t) :
    ((soakEnd cal policy auto.basis date).filter fun ready => decide (t < ready)) = none := by
  cases hready : soakEnd cal policy auto.basis date with
  | none => rfl
  | some ready =>
    have hle := h ready hready
    exact Option.filter_some_neg (by simpa using hle)

theorem schedule_closed (h : isPausedAt cal input.policy input.now = false)
    (hdate : release.publishedAt = some date) (hover : SoakOver cal input.policy auto.basis date input.now)
    (hclosed : inMaintenanceWindow cal input.policy input.now = false) : ∃ reason,
      schedule cal input release auto =
        .wait auto reason (nextWindowOpening cal input.policy input.now) false := by
  unfold schedule
  dsimp only
  rw [if_neg (Bool.eq_false_iff.1 h), hdate]
  dsimp only
  rw [filter_soakEnd hover]
  dsimp only
  rw [hclosed, Bool.not_false, if_pos rfl]
  exact ⟨_, rfl⟩

theorem schedule_due (h : isPausedAt cal input.policy input.now = false)
    (hdate : release.publishedAt = some date) (hover : SoakOver cal input.policy auto.basis date input.now)
    (hopen : inMaintenanceWindow cal input.policy input.now = true) :
    ∃ reason, schedule cal input release auto = .install auto reason := by
  unfold schedule
  dsimp only
  rw [if_neg (Bool.eq_false_iff.1 h), hdate]
  dsimp only
  rw [filter_soakEnd hover]
  dsimp only
  rw [hopen, if_neg (by decide)]
  exact ⟨_, rfl⟩

structure Due (cal : Calendar) (input : AutoUpdateInput) (release : Release) (auto : AutoInstall) (date : String) :
    Prop where
  running : isPausedAt cal input.policy input.now = false
  published : release.publishedAt = some date
  soaked : SoakOver cal input.policy auto.basis date input.now
  opened : inMaintenanceWindow cal input.policy input.now = true

/-- A wait for the end of the soak period or for the maintenance window. -/
structure Waiting (cal : Calendar) (input : AutoUpdateInput) (release : Release) (auto : AutoInstall) (date : String)
    (until_ : Option Int) : Prop where
  running : isPausedAt cal input.policy input.now = false
  published : release.publishedAt = some date
  opening : (∃ ready, soakEnd cal input.policy auto.basis date = some ready ∧ input.now < ready ∧
      until_ = if inMaintenanceWindow cal input.policy ready then some ready
        else nextWindowOpening cal input.policy ready) ∨
    SoakOver cal input.policy auto.basis date input.now ∧ inMaintenanceWindow cal input.policy input.now = false ∧
      until_ = nextWindowOpening cal input.policy input.now

theorem schedule_cases (cal : Calendar) (input : AutoUpdateInput) (release : Release) (auto : AutoInstall) :
    (∃ reason until_, schedule cal input release auto = .wait auto reason until_ true) ∨
      Settled (schedule cal input release auto) ∨
      (∃ reason until_ date, schedule cal input release auto = .wait auto reason until_ false ∧
        Waiting cal input release auto date until_) ∨
      ∃ reason date, schedule cal input release auto = .install auto reason ∧ Due cal input release auto date := by
  cases hpaused : isPausedAt cal input.policy input.now with
  | true => exact .inl (schedule_paused hpaused)
  | false =>
    right
    cases hdate : release.publishedAt with
    | none => exact .inl (schedule_unknown hpaused hdate)
    | some date =>
      right
      by_cases hover : SoakOver cal input.policy auto.basis date input.now
      · cases hopen : inMaintenanceWindow cal input.policy input.now with
        | true =>
          obtain ⟨reason, heq⟩ := schedule_due hpaused hdate hover hopen
          exact .inr ⟨reason, date, heq, hpaused, hdate, hover, hopen⟩
        | false =>
          obtain ⟨reason, heq⟩ := schedule_closed hpaused hdate hover hopen
          exact .inl ⟨reason, _, date, heq, hpaused, hdate, .inr ⟨hover, hopen, rfl⟩⟩
      · rw [SoakOver, not_forall] at hover
        obtain ⟨ready, hready⟩ := hover
        obtain ⟨hsome, hlt⟩ := Classical.not_imp.1 hready
        obtain ⟨reason, heq⟩ := schedule_soaking hpaused hdate hsome (Int.not_le.1 hlt)
        exact .inl ⟨reason, _, date, heq, hpaused, hdate, .inl ⟨ready, hsome, Int.not_le.1 hlt, rfl⟩⟩

theorem decideByRules_of_inr (h : assess input = .inr (release, auto)) :
    decideByRules cal input = schedule cal input release auto := by
  unfold decideByRules
  rw [h]

theorem orSkipped_eq (input : AutoUpdateInput) (auto : AutoInstall) (decision : AutoUpdateDecision) :
    Settled (orSkipped input auto decision) ∨
      input.skippedVersion ≠ some auto.version ∧ orSkipped input auto decision = decision := by
  unfold orSkipped
  by_cases h : input.skippedVersion = some auto.version
  · rw [if_pos h]
    exact .inl settled_offer
  · rw [if_neg h]
    exact .inr ⟨h, rfl⟩

theorem Settled.not_install (h : Settled decision) : decision ≠ .install auto reason := by
  rintro rfl
  rcases h with ⟨_, h⟩ | ⟨_, _, _, _, h⟩
  · cases h
  · cases h

theorem Settled.not_wait {paused : Bool} (h : Settled decision) :
    decision ≠ .wait auto reason until_ paused := by
  rintro rfl
  rcases h with ⟨_, h⟩ | ⟨_, _, _, _, h⟩
  · cases h
  · cases h

/-- The scheduler either leaves the release alone, or what may install was not skipped and the time decides. -/
theorem decideAutoUpdate_cases (cal : Calendar) (input : AutoUpdateInput) : Settled (decideAutoUpdate cal input) ∨
    ∃ release auto, Admitted input release auto ∧ decideAutoUpdate cal input = schedule cal input release auto := by
  cases hassess : assess input with
  | inl decision =>
    rw [decideAutoUpdate_of_inl hassess]
    exact .inl (settled_assess hassess)
  | inr found =>
    obtain ⟨release, auto⟩ := found
    have hrules : decideByRules cal input = schedule cal input release auto := decideByRules_of_inr hassess
    unfold decideAutoUpdate
    rw [hrules]
    have hskip : ∀ decision, schedule cal input release auto = decision → Settled (orSkipped input auto decision) ∨
        ∃ release' auto', Admitted input release' auto' ∧
          orSkipped input auto decision = schedule cal input release' auto' := by
      intro decision heq
      rcases orSkipped_eq input auto decision with hsettled | ⟨hskipped, hsame⟩
      · exact .inl hsettled
      · exact .inr ⟨release, auto, ⟨hassess, hskipped⟩, hsame.trans heq.symm⟩
    rcases schedule_cases cal input release auto with
      ⟨reason, until_, heq⟩ | hsettled | ⟨reason, until_, date, heq, -⟩ | ⟨reason, date, heq, -⟩
    · rw [heq]
      exact hskip _ heq
    · rcases hsettled with ⟨reason, heq⟩ | ⟨action, version, kind, reason, heq⟩
      · rw [heq]
        exact .inl (.inl ⟨_, rfl⟩)
      · rw [heq]
        exact .inl settled_offer
    · rw [heq]
      exact hskip _ heq
    · rw [heq]
      exact hskip _ heq

theorem decideAutoUpdate_of_admitted (h : Admitted input release auto) (hnot : ¬Settled (schedule cal input release auto)) :
    decideAutoUpdate cal input = schedule cal input release auto := by
  have hrules : decideByRules cal input = schedule cal input release auto := decideByRules_of_inr h.1
  have hskip : ∀ decision, orSkipped input auto decision = decision := fun decision => if_neg h.2
  unfold decideAutoUpdate
  rw [hrules]
  rcases schedule_cases cal input release auto with
    ⟨reason, until_, heq⟩ | hsettled | ⟨reason, until_, date, heq, -⟩ | ⟨reason, date, heq, -⟩
  · rw [heq]
    exact hskip _
  · exact absurd hsettled hnot
  · rw [heq]
    exact hskip _
  · rw [heq]
    exact hskip _

theorem installs_iff : Installs cal input ↔
    ∃ release auto date, Admitted input release auto ∧ Due cal input release auto date := by
  constructor
  · rintro ⟨auto, reason, hinstall⟩
    rcases decideAutoUpdate_cases cal input with hsettled | ⟨release, auto, hadmitted, hschedule⟩
    · exact absurd hinstall hsettled.not_install
    · rw [hschedule] at hinstall
      rcases schedule_cases cal input release auto with
        ⟨_, _, heq⟩ | hsettled | ⟨_, _, _, heq, -⟩ | ⟨_, date, -, hdue⟩
      · rw [heq] at hinstall
        cases hinstall
      · exact absurd hinstall hsettled.not_install
      · rw [heq] at hinstall
        cases hinstall
      · exact ⟨release, auto, date, hadmitted, hdue⟩
  · rintro ⟨release, auto, date, hadmitted, hdue⟩
    obtain ⟨reason, heq⟩ := schedule_due hdue.running hdue.published hdue.soaked hdue.opened
    refine ⟨auto, reason, ?_⟩
    rw [decideAutoUpdate_of_admitted hadmitted, heq]
    rw [heq]
    exact fun hsettled => absurd rfl hsettled.not_install

theorem WaitsUntil.waiting (h : WaitsUntil cal input until_) :
    ∃ release auto date, Admitted input release auto ∧ Waiting cal input release auto date until_ := by
  obtain ⟨auto, reason, hwait⟩ := h
  rcases decideAutoUpdate_cases cal input with hsettled | ⟨release, auto, hadmitted, hschedule⟩
  · exact absurd hwait hsettled.not_wait
  · rw [hschedule] at hwait
    rcases schedule_cases cal input release auto with
      ⟨_, _, heq⟩ | hsettled | ⟨_, _, date, heq, hwaiting⟩ | ⟨_, date, heq, -⟩
    · rw [heq] at hwait
      cases hwait
    · exact absurd hwait hsettled.not_wait
    · rw [heq] at hwait
      cases hwait
      exact ⟨release, auto, date, hadmitted, hwaiting⟩
    · rw [heq] at hwait
      cases hwait

theorem Admitted.at_ (h : Admitted input release auto) (t : Int) : Admitted (input.at_ t) release auto := h

theorem Admitted.unique {release' : Release} {auto' : AutoInstall} (h : Admitted input release auto)
    (h' : Admitted input release' auto') : release = release' ∧ auto = auto' := by
  have heq := h.1.symm.trans h'.1
  exact ⟨congrArg Prod.fst (Sum.inr.inj heq), congrArg Prod.snd (Sum.inr.inj heq)⟩

/-! ### Waits end at the right moment -/

/-- What is admitted installs at another time where its soak period is over and the window is open. -/
theorem installs_at_iff (h : Admitted input release auto) (hdate : release.publishedAt = some date)
    (hrunning : isPausedAt cal input.policy input.now = false) (hle : input.now ≤ t) :
    Installs cal (input.at_ t) ↔
      SoakOver cal input.policy auto.basis date t ∧ inMaintenanceWindow cal input.policy t = true := by
  rw [installs_iff]
  constructor
  · rintro ⟨release', auto', date', hadmitted, hdue⟩
    obtain ⟨rfl, rfl⟩ := h.unique hadmitted
    obtain rfl := Option.some.inj (hdate.symm.trans hdue.published)
    exact ⟨hdue.soaked, hdue.opened⟩
  · rintro ⟨hover, hopen⟩
    exact ⟨release, auto, date, h.at_ t, isPausedAt_of_le hrunning hle, hdate, hover, hopen⟩

/-- The later of now and the end of the soak period. -/
def waitStart (cal : Calendar) (input : AutoUpdateInput) : Int :=
  match assess input with
  | .inl _ => input.now
  | .inr (release, auto) =>
    ((release.publishedAt.bind (soakEnd cal input.policy auto.basis)).map (max input.now)).getD input.now

theorem waitStart_eq (h : Admitted input release auto) (hdate : release.publishedAt = some date) :
    waitStart cal input = ((soakEnd cal input.policy auto.basis date).map (max input.now)).getD input.now := by
  unfold waitStart
  rw [h.1]
  dsimp only
  rw [hdate, Option.bind_some]

/-- A wait looks for the first opening of the window from its start on. -/
theorem Waiting.search (hadmitted : Admitted input release auto)
    (h : Waiting cal input release auto date until_) :
    (∀ s, SoakOver cal input.policy auto.basis date s ∧ input.now ≤ s ↔ waitStart cal input ≤ s) ∧
      (until_ = some (waitStart cal input) ∧ input.now < waitStart cal input ∧
          inMaintenanceWindow cal input.policy (waitStart cal input) = true ∨
        until_ = nextWindowOpening cal input.policy (waitStart cal input) ∧
          inMaintenanceWindow cal input.policy (waitStart cal input) = false) := by
  rw [waitStart_eq hadmitted h.published]
  rcases h.opening with ⟨ready, hready, hlt, huntil⟩ | ⟨hover, hclosed, huntil⟩
  · have hstart : ((soakEnd cal input.policy auto.basis date).map (max input.now)).getD input.now = ready := by
      rw [hready, Option.map_some, Option.getD_some, max_eq_right hlt.le]
    rw [hstart]
    constructor
    · intro s
      rw [SoakOver, hready]
      constructor
      · rintro ⟨hsoak, -⟩
        exact hsoak ready rfl
      · intro hle
        refine ⟨?_, hlt.le.trans hle⟩
        rintro _ ⟨⟩
        exact hle
    · cases hopen : inMaintenanceWindow cal input.policy ready with
      | true =>
        rw [hopen, if_pos rfl] at huntil
        exact .inl ⟨huntil, hlt, rfl⟩
      | false =>
        rw [hopen, if_neg Bool.false_ne_true] at huntil
        exact .inr ⟨huntil, rfl⟩
  · have hstart : ((soakEnd cal input.policy auto.basis date).map (max input.now)).getD input.now = input.now := by
      cases hready : soakEnd cal input.policy auto.basis date with
      | none => rfl
      | some ready => exact max_eq_left (hover ready hready)
    rw [hstart]
    refine ⟨?_, .inr ⟨huntil, hclosed⟩⟩
    intro s
    exact ⟨fun hs => hs.2, fun hle => ⟨fun ready hready => (hover ready hready).trans hle, hle⟩⟩

/-- A wait ends at the first moment at which the scheduler installs.  A wait without a time is one for a clock that jumps
more than once in two days, and the scheduler does not install within two days from its start. -/
theorem wait_exact (cal : Calendar) (input : AutoUpdateInput) :
    (∀ t, WaitsUntil cal input (some t) → Installs cal (input.at_ t) ∧
        ∀ s, input.now ≤ s → s < t → ¬Installs cal (input.at_ s)) ∧
      (WaitsUntil cal input none → ¬JumpsRarely (cal.localMinutes input.policy.windowTimezone) ∧
        ∀ s, input.now ≤ s → s ≤ waitStart cal input + 2 * 24 * 60 * minuteMs → ¬Installs cal (input.at_ s)) := by
  constructor
  · intro t hwaits
    obtain ⟨release, auto, date, hadmitted, hwaiting⟩ := hwaits.waiting
    have hat : ∀ {s}, input.now ≤ s → (Installs cal (input.at_ s) ↔ _) := fun hle =>
      installs_at_iff hadmitted hwaiting.published hwaiting.running hle
    obtain ⟨hstart, hsearch⟩ := hwaiting.search hadmitted
    have hnow := ((hstart _).2 (le_refl _)).2
    rcases hsearch with ⟨huntil, hlt, hopen⟩ | ⟨huntil, hclosed⟩
    · obtain rfl := Option.some.inj huntil
      refine ⟨(hat hnow).2 ⟨((hstart _).2 (le_refl _)).1, hopen⟩, ?_⟩
      intro s hs hst hinstalls
      exact absurd ((hstart s).1 ⟨((hat hs).1 hinstalls).1, hs⟩) (not_le.2 hst)
    · obtain ⟨hopen, hle, hbefore⟩ := nextWindowOpening_eq_some huntil.symm hclosed
      refine ⟨(hat (hnow.trans hle)).2 ⟨((hstart t).2 hle).1, hopen⟩, ?_⟩
      intro s hs hst hinstalls
      obtain ⟨hover, hopens⟩ := (hat hs).1 hinstalls
      rw [hbefore s ((hstart s).1 ⟨hover, hs⟩) hst] at hopens
      cases hopens
  · intro hwaits
    obtain ⟨release, auto, date, hadmitted, hwaiting⟩ := hwaits.waiting
    obtain ⟨hstart, hsearch⟩ := hwaiting.search hadmitted
    rcases hsearch with ⟨huntil, -, -⟩ | ⟨huntil, hclosed⟩
    · cases huntil
    · refine ⟨fun hrare => nextWindowOpening_ne_none hrare _ huntil.symm, ?_⟩
      intro s hs hle hinstalls
      obtain ⟨hover, hopens⟩ := (installs_at_iff hadmitted hwaiting.published hwaiting.running hs).1 hinstalls
      rw [nextWindowOpening_eq_none huntil.symm hclosed s ((hstart s).1 ⟨hover, hs⟩) hle] at hopens
      cases hopens

end

/-! ### A clock that jumps every day -/

/-- For three days the clock goes from two to three o'clock in one minute, and shows the hour from three on twice. -/
def skippingMinutes (k : Int) : Nat :=
  let minute := (k % 1440).toNat
  if k < 4320 ∧ 120 ≤ minute ∧ minute < 180 then minute + 60 else minute

def skippingCalendar : Calendar where
  parseDate _ := some (-86400000)
  isoText _ := ""
  localMinutes _ := skippingMinutes

def nightPolicy : StoredUpdatePolicy where
  mode := .auto
  autoSecurity := true
  autoPatch := true
  autoMinor := false
  autoConverge := false
  channel := .stable
  windowStart := some ⟨2, 0⟩
  windowEnd := some ⟨3, 0⟩
  windowTimezone := "UTC"
  soakHours := 24
  securitySoakHours := 2
  paused := false
  pausedReason := none
  pausedUntil := none
  pausedByOwner := false
  bothEnds := rfl
  autoStable _ := rfl
  soakMax := by decide
  securitySoakMax := by decide

def patchInput : AutoUpdateInput where
  policy := nightPolicy
  installedVersion := "0.10.45"
  release := some ⟨"0.10.46", some "1969-12-31T00:00:00.000Z"⟩
  facts := .ok ⟨false, false, none⟩
  upgraderAvailable := true
  convergeAvailable := false
  upgraderProblem := none
  skippedVersion := none
  now := 0

def patchRelease : Release := ⟨"0.10.46", some "1969-12-31T00:00:00.000Z"⟩

def patchInstall : AutoInstall := ⟨"0.10.46", .patch, .patch, .appRoll⟩

theorem admitted_patch : Admitted patchInput patchRelease patchInstall := by
  have hkind : updateKind "0.10.45".toList "0.10.46".toList = some .patch := by decide +kernel
  have hstable : isStable "0.10.46" = true := by decide +kernel
  constructor
  · simp only [assess, patchInput, hkind, hstable, Bool.not_true, Bool.false_eq_true, if_false, nightPolicy, reduceCtorEq]
    rfl
  · exact (Option.some_ne_none _).symm

theorem soakOver_patch {t : Int} (h : 0 ≤ t) :
    SoakOver skippingCalendar nightPolicy patchInstall.basis "1969-12-31T00:00:00.000Z" t := by
  have hready : soakEnd skippingCalendar nightPolicy patchInstall.basis "1969-12-31T00:00:00.000Z" = some 0 := by
    decide +kernel
  intro ready heq
  rw [hready] at heq
  cases heq
  exact h

theorem waitsUntil_of_closed {cal : Calendar} {input : AutoUpdateInput} {release : Release} {auto : AutoInstall}
    {date : String} (hadmitted : Admitted input release auto) (hrunning : isPausedAt cal input.policy input.now = false)
    (hdate : release.publishedAt = some date) (hover : SoakOver cal input.policy auto.basis date input.now)
    (hclosed : inMaintenanceWindow cal input.policy input.now = false) :
    WaitsUntil cal input (nextWindowOpening cal input.policy input.now) := by
  obtain ⟨reason, heq⟩ := schedule_closed hrunning hdate hover hclosed
  refine ⟨auto, reason, ?_⟩
  rw [decideAutoUpdate_of_admitted hadmitted, heq]
  rw [heq]
  exact fun hsettled => absurd rfl hsettled.not_wait

/-- The window opens on the fourth day only, and the search gives up before. -/
theorem wait_not_last : ¬∀ (cal : Calendar) (input : AutoUpdateInput), WaitsUntil cal input none →
    ∀ t, input.now ≤ t → ¬Installs cal (input.at_ t) := by
  intro h
  have hlater : (0 : Int) ≤ 266400000 := by decide
  refine h skippingCalendar patchInput ?_ 266400000 hlater ?_
  · have hnone : nextWindowOpening skippingCalendar nightPolicy 0 = none := by decide +kernel
    have hclosed : inMaintenanceWindow skippingCalendar nightPolicy 0 = false := by decide +kernel
    have hwaits : WaitsUntil skippingCalendar patchInput (nextWindowOpening skippingCalendar nightPolicy 0) :=
      waitsUntil_of_closed admitted_patch rfl rfl (soakOver_patch (le_refl 0)) hclosed
    exact hnone ▸ hwaits
  · have hopen : inMaintenanceWindow skippingCalendar nightPolicy 266400000 = true := by decide +kernel
    exact installs_iff.2 ⟨patchRelease, patchInstall, _, admitted_patch.at_ _, rfl, rfl, soakOver_patch hlater, hopen⟩

end CaeloCms.Update
