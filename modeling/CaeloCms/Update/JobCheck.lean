import CaeloCms.Update.Scheduler

/-!
# The scheduler and the installing job

The job checks a release again before it installs it unattended.  The scheduler and this check agree
(`scheduler_agrees`).
-/

namespace CaeloCms.Update

/-- The job's candidate is made from the facts that the scheduler has. -/
structure FromFacts (input : AutoUpdateInput) (release : Release) (facts : ReleaseFacts)
    (candidate : AutoInstallCandidate) : Prop where
  newest : input.release = some release
  known : input.facts = .ok facts
  kind : updateKind input.installedVersion.toList release.version.toList = some candidate.kind
  security : candidate.security = facts.security
  contractMigrations : candidate.contractMigrations = facts.contractMigrations
  channel : candidate.channel = "stable" ↔ ∃ m, semver release.version.toList = some m ∧ m.prerelease = none

def JobReady (input : AutoUpdateInput) (facts : ReleaseFacts) : Prop :=
  if facts.infraChange = some true then input.convergeAvailable = true ∧ input.policy.autoConverge = true
  else input.upgraderAvailable = true

/-- The publish date is known, and the soak period that the policy sets for the release is over. -/
def Soaked (cal : Calendar) (input : AutoUpdateInput) (release : Release) (facts : ReleaseFacts) (kind : UpdateKind) :
    Prop :=
  ∃ date, release.publishedAt = some date ∧ ∀ basis, autoBasis input.policy facts kind = some basis →
    SoakOver cal input.policy basis date input.now

section

variable {cal : Calendar} {input : AutoUpdateInput} {release : Release} {facts : ReleaseFacts}
  {candidate : AutoInstallCandidate} {auto : AutoInstall} {kind : UpdateKind} {s : List Char} {m : Match}

theorem minus_notMem_takeWhile (s : List Char) : '-' ∉ s.takeWhile Char.isDigit := by
  intro h
  exact absurd (List.mem_takeWhile_imp h) (by decide)

theorem digits_minus {a : List Char × List Char} (h : digits s = some a) : '-' ∈ s ↔ '-' ∈ a.2 := by
  unfold digits at h
  split at h
  · cases h
  · cases h
    conv_lhs => rw [← List.takeWhile_append_dropWhile (p := Char.isDigit) (l := s)]
    rw [List.mem_append]
    exact or_iff_right (minus_notMem_takeWhile s)

theorem dot_minus {t : List Char} (h : dot s = some t) : '-' ∈ s ↔ '-' ∈ t := by
  unfold dot at h
  split at h
  · rename_i hdot
    cases h
    cases s with
    | nil => cases hdot
    | cons c s =>
      cases hdot
      rw [List.mem_cons, List.tail_cons]
      exact or_iff_right (by decide)
  · cases h

theorem suffix_minus {p : Option (List Char)} (h : suffix s = some p) : '-' ∈ s ↔ p ≠ none := by
  unfold suffix at h
  split at h
  · rename_i hnil
    cases h
    rw [hnil]
    exact iff_of_false List.not_mem_nil (fun hne => hne rfl)
  · split at h
    · rename_i hpre
      cases h
      exact iff_of_true (List.mem_of_head? hpre.1) (Option.some_ne_none _)
    · cases h

/-- A version has a hyphen if and only if it has a pre-release part. -/
theorem semver_minus (h : semver s = some m) : '-' ∈ s ↔ m.prerelease ≠ none := by
  unfold semver at h
  obtain ⟨major, hmajor, h⟩ := Option.bind_eq_some_iff.1 h
  obtain ⟨s₁, hdot₁, h⟩ := Option.bind_eq_some_iff.1 h
  obtain ⟨minor, hminor, h⟩ := Option.bind_eq_some_iff.1 h
  obtain ⟨s₂, hdot₂, h⟩ := Option.bind_eq_some_iff.1 h
  obtain ⟨patch, hpatch, h⟩ := Option.bind_eq_some_iff.1 h
  obtain ⟨p, hp, rfl⟩ := Option.map_eq_some_iff.1 h
  rw [digits_minus hmajor, dot_minus hdot₁, digits_minus hminor, dot_minus hdot₂, digits_minus hpatch, suffix_minus hp]

theorem isStable_iff {version : String} (h : semver version.toList = some m) :
    isStable version = true ↔ m.prerelease = none := by
  rw [isStable, Bool.not_eq_true', ← Bool.not_eq_true, List.contains_iff_mem, semver_minus h, not_not]

theorem exists_semver_of_updateKind {t : List Char} (h : updateKind s t = some kind) : ∃ m, semver t = some m := by
  unfold updateKind at h
  obtain ⟨a, -, h⟩ := Option.bind_eq_some_iff.1 h
  obtain ⟨b, hb, -⟩ := Option.bind_eq_some_iff.1 h
  exact ⟨b, hb⟩

theorem FromFacts.stable_iff (h : FromFacts input release facts candidate) :
    candidate.channel = "stable" ↔ isStable release.version = true := by
  obtain ⟨m, hm⟩ := exists_semver_of_updateKind h.kind
  rw [h.channel, isStable_iff hm]
  constructor
  · rintro ⟨m', hm', hnone⟩
    rw [hm] at hm'
    cases hm'
    exact hnone
  · intro hnone
    exact ⟨m, hm, hnone⟩

theorem autoBasis_isSome : (autoBasis input.policy facts kind).isSome = true ↔
    (facts.security && input.policy.autoSecurity || decide (kind = .patch) && input.policy.autoPatch ||
      decide (kind = .minor) && input.policy.autoMinor) = true := by
  unfold autoBasis
  by_cases hsecurity : (facts.security && input.policy.autoSecurity) = true
  · rw [if_pos hsecurity, hsecurity]
    exact iff_of_true rfl rfl
  · rw [if_neg hsecurity, Bool.eq_false_iff.2 hsecurity, Bool.false_or]
    by_cases hpatch : (decide (kind = .patch) && input.policy.autoPatch) = true
    · rw [if_pos hpatch, hpatch]
      exact iff_of_true rfl rfl
    · rw [if_neg hpatch, Bool.eq_false_iff.2 hpatch, Bool.false_or]
      by_cases hminor : (decide (kind = .minor) && input.policy.autoMinor) = true
      · rw [if_pos hminor, hminor]
        exact iff_of_true rfl rfl
      · rw [if_neg hminor, Bool.eq_false_iff.2 hminor]
        exact iff_of_false Bool.false_ne_true Bool.false_ne_true

theorem assessFacts_eq_inr {v : String} : assessFacts input v kind facts = .inr auto ↔
    JobReady input facts ∧ facts.contractMigrations = false ∧ ∃ basis, autoBasis input.policy facts kind = some basis ∧
      auto = ⟨v, kind, basis, if facts.infraChange == some true then .converge else .appRoll⟩ := by
  have hroute : JobReady input facts ↔ ((facts.infraChange == some true) && !input.convergeAvailable) = false ∧
      ((facts.infraChange == some true) && !input.policy.autoConverge) = false ∧
      (!(facts.infraChange == some true) && !input.upgraderAvailable) = false := by
    unfold JobReady
    by_cases hinfra : facts.infraChange = some true
    · rw [if_pos hinfra, hinfra]
      simp
    · have hbeq : (facts.infraChange == some true) = false := beq_false_of_ne hinfra
      rw [if_neg hinfra, hbeq]
      simp
  rw [hroute]
  unfold assessFacts
  dsimp only
  generalize (facts.infraChange == some true) = converge
  cases hconverge : (converge && !input.convergeAvailable) with
  | true => simp
  | false =>
    cases hallowed : (converge && !input.policy.autoConverge) with
    | true => simp
    | false =>
      cases hcontract : facts.contractMigrations with
      | true => simp
      | false =>
        simp only [Bool.false_eq_true, if_false, true_and]
        cases hbasis : autoBasis input.policy facts kind with
        | none => simp
        | some basis =>
          cases hupgrader : (!converge && !input.upgraderAvailable) with
          | true => simp
          | false => simp [eq_comm]

theorem assess_eq_inr {release' : Release} (h : FromFacts input release facts candidate) :
    assess input = .inr (release', auto) ↔ release' = release ∧ candidate.channel = "stable" ∧
      input.policy.mode = .auto ∧ candidate.kind ≠ .major ∧
      assessFacts input release.version candidate.kind facts = .inr auto := by
  rw [h.stable_iff]
  unfold assess
  rw [h.newest]
  dsimp only
  rw [h.kind, h.known]
  dsimp only
  cases hstable : isStable release.version with
  | false => simp
  | true =>
    cases hmode : input.policy.mode with
    | notify => simp
    | auto =>
      by_cases hmajor : candidate.kind = .major
      · simp [hmajor]
      · cases hassess : assessFacts input release.version candidate.kind facts with
        | inl decision => simp [hmajor]
        | inr auto' => simp [hmajor, eq_comm]

theorem autoInstallRefusal_eq_none {at_ : Int} : autoInstallRefusal cal input.policy candidate at_ = none ↔
    input.policy.mode = .auto ∧ isPausedAt cal input.policy at_ = false ∧ candidate.channel = "stable" ∧
      candidate.contractMigrations = false ∧ candidate.kind ≠ .major ∧
      (candidate.security && input.policy.autoSecurity || decide (candidate.kind = .patch) && input.policy.autoPatch ||
        decide (candidate.kind = .minor) && input.policy.autoMinor) = true ∧
      inMaintenanceWindow cal input.policy at_ = true := by
  have hpaused : isPausedAt cal input.policy at_ = true ↔ input.policy.paused = true ∧
      (input.policy.pausedUntil.all fun date => (cal.parseDate date).any fun time => at_ < time) = true := by
    rw [isPausedAt_eq, Bool.and_eq_true]
  unfold autoInstallRefusal
  simp only [← hpaused]
  cases hmode : input.policy.mode with
  | notify => simp
  | auto =>
    cases hpause : isPausedAt cal input.policy at_ with
    | true => simp
    | false =>
      by_cases hchannel : candidate.channel = "stable"
      · cases hcontract : candidate.contractMigrations with
        | true => simp [hchannel]
        | false =>
          by_cases hmajor : candidate.kind = .major
          · simp [hmajor, hchannel]
          · generalize (candidate.security && input.policy.autoSecurity ||
              decide (candidate.kind = .patch) && input.policy.autoPatch ||
                decide (candidate.kind = .minor) && input.policy.autoMinor) = allowed
            cases allowed with
            | false => simp [hchannel, hmajor]
            | true => simp [hchannel, hmajor]
      · simp [hchannel]

end

/-- The scheduler installs if and only if the job would, the soak period is over, the version was not skipped and the job
that it needs can be started. -/
theorem scheduler_agrees (cal : Calendar) (input : AutoUpdateInput) (release : Release) (facts : ReleaseFacts)
    (candidate : AutoInstallCandidate) (h : FromFacts input release facts candidate) :
    Installs cal input ↔ autoInstallRefusal cal input.policy candidate input.now = none ∧
      Soaked cal input release facts candidate.kind ∧ input.skippedVersion ≠ some release.version ∧
      JobReady input facts := by
  rw [installs_iff, autoInstallRefusal_eq_none, h.security, h.contractMigrations]
  constructor
  · rintro ⟨release', auto, date, ⟨hassess, hskipped⟩, hdue⟩
    obtain ⟨rfl, hchannel, hmode, hmajor, hfacts⟩ := (assess_eq_inr h).1 hassess
    obtain ⟨hready, hcontract, basis, hbasis, rfl⟩ := assessFacts_eq_inr.1 hfacts
    have hallowed := autoBasis_isSome.1 (Option.isSome_of_eq_some hbasis)
    refine ⟨⟨hmode, hdue.running, hchannel, hcontract, hmajor, hallowed, hdue.opened⟩, ?_, hskipped, hready⟩
    refine ⟨date, hdue.published, ?_⟩
    intro basis' hbasis'
    rw [hbasis] at hbasis'
    cases hbasis'
    exact hdue.soaked
  · rintro ⟨⟨hmode, hrunning, hchannel, hcontract, hmajor, hallowed, hopen⟩, ⟨date, hdate, hsoaked⟩, hskipped, hready⟩
    obtain ⟨basis, hbasis⟩ := Option.isSome_iff_exists.1 (autoBasis_isSome.2 hallowed)
    obtain ⟨auto, hversion, hfacts⟩ : ∃ auto : AutoInstall, auto.version = release.version ∧ auto.basis = basis ∧
        assessFacts input release.version candidate.kind facts = .inr auto :=
      ⟨_, rfl, rfl, assessFacts_eq_inr.2 ⟨hready, hcontract, basis, hbasis, rfl⟩⟩
    obtain ⟨rfl, hfacts⟩ := hfacts
    rw [← hversion] at hskipped
    exact ⟨release, auto, date, ⟨(assess_eq_inr h).2 ⟨rfl, hchannel, hmode, hmajor, hfacts⟩, hskipped⟩, hrunning, hdate,
      hsoaked auto.basis hbasis, hopen⟩

theorem fromFacts_patch (t : Int) :
    FromFacts (patchInput.at_ t) patchRelease ⟨false, false, none⟩ ⟨.patch, false, false, "stable"⟩ where
  newest := rfl
  known := rfl
  kind := by
    have hkind : updateKind "0.10.45".toList "0.10.46".toList = some .patch := by decide +kernel
    exact hkind
  security := rfl
  contractMigrations := rfl
  channel := iff_of_true rfl ⟨⟨['0'], ['1', '0'], ['4', '6'], none⟩, by decide +kernel, rfl⟩

/-- Neither of them installs outside the window, and both do in it. -/
theorem scheduler_agrees_patch :
    ¬Installs skippingCalendar (patchInput.at_ 0) ∧ Installs skippingCalendar (patchInput.at_ 266400000) := by
  constructor
  · intro h
    have hrefusal := ((scheduler_agrees _ _ _ _ _ (fromFacts_patch 0)).1 h).1
    exact absurd hrefusal (by decide +kernel)
  · refine (scheduler_agrees _ _ _ _ _ (fromFacts_patch 266400000)).2 ⟨by decide +kernel, ⟨_, rfl, ?_⟩, ?_, rfl⟩
    · intro basis hbasis
      cases hbasis
      exact soakOver_patch (by decide)
    · exact (Option.some_ne_none _).symm

end CaeloCms.Update
