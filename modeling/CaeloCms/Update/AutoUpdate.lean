import CaeloCms.Update.Policy

/-!
# The decision of the update scheduler

`decideAutoUpdate` says what the scheduler does with the newest release.  The rules that do not look at the time come
first (`assess`); a release that they let install waits for the end of a pause, of its soak period and for the
maintenance window (`schedule`).
-/

namespace CaeloCms.Update

/-! ### Source -/

inductive AutoUpdateBasis
  | security
  | patch
  | minor
deriving DecidableEq

inductive PlatformUpdateRoute
  | appRoll
  | converge
deriving DecidableEq

structure Release where
  version : String
  publishedAt : Option String

/-- What the scheduler knows about a release from its manifest. -/
structure ReleaseFacts where
  security : Bool
  contractMigrations : Bool
  infraChange : Option Bool

/-- Facts that could not be read come with the reason. -/
structure AutoUpdateInput where
  policy : StoredUpdatePolicy
  installedVersion : String
  release : Option Release
  facts : Except String ReleaseFacts
  upgraderAvailable : Bool
  convergeAvailable : Bool
  upgraderProblem : Option String
  skippedVersion : Option String
  now : Int

inductive OfferAction
  | notify
  | manual
  | needsCloudShell
  | blocked
deriving DecidableEq

structure AutoInstall where
  version : String
  kind : UpdateKind
  basis : AutoUpdateBasis
  route : PlatformUpdateRoute
deriving DecidableEq

inductive AutoUpdateDecision
  | none (reason : String)
  | offer (action : OfferAction) (version : String) (kind : UpdateKind) (reason : String)
  | wait (auto : AutoInstall) (reason : String) (until_ : Option Int) (paused : Bool)
  | install (auto : AutoInstall) (reason : String)

variable (cal : Calendar)

def isPausedAt (policy : StoredUpdatePolicy) (now : Int) : Bool :=
  if !policy.paused then false
  else match policy.pausedUntil with
    | none => true
    | some date => (cal.parseDate date).any fun time => now < time

def kindWords : UpdateKind → String
  | .major => "major release"
  | .minor => "minor release"
  | .patch => "patch release"

def basisWords : AutoUpdateBasis → String
  | .security => "security fix"
  | .patch => "patch release"
  | .minor => "minor release"

def isStable (version : String) : Bool := !version.toList.contains '-'

def hours (n : Nat) : String :=
  let plural := if n = 1 then "" else "s"
  s!"{n} hour{plural}"

def skippedInstallReason (version : String) : String :=
  s!"The Owner skipped the automatic install of v{version}. It stays available in Settings → Updates; the next newer " ++
    "release installs automatically again."

/-- A text of the source that is there and not empty. -/
def nonempty (s : Option String) : Option String := s.filter fun s => s ≠ ""

def autoBasis (policy : StoredUpdatePolicy) (facts : ReleaseFacts) (kind : UpdateKind) : Option AutoUpdateBasis :=
  if facts.security && policy.autoSecurity then some .security
  else if kind = .patch && policy.autoPatch then some .patch
  else if kind = .minor && policy.autoMinor then some .minor
  else none

def assessFacts (input : AutoUpdateInput) (v : String) (kind : UpdateKind) (facts : ReleaseFacts) :
    AutoUpdateDecision ⊕ AutoInstall :=
  let converge := facts.infraChange == some true
  if converge && !input.convergeAvailable then
    .inl (.offer .needsCloudShell v kind (s!"v{v} changes this install's cloud setup, and this install has no " ++
      "converge job to do that from Caelo. The Owner installs it once with their own account in Cloud Shell or from " ++
      "the computer they installed from."))
  else if converge && !input.policy.autoConverge then
    .inl (.offer .manual v kind (s!"v{v} changes this install's cloud setup. The update policy does not install " ++
      "those automatically; the Owner installs it from Settings → Updates."))
  else if facts.contractMigrations then
    .inl (.offer .manual v kind (s!"v{v} makes database changes the previous release cannot run on, so it never " ++
      "installs automatically. The Owner installs it from Settings → Updates."))
  else match autoBasis input.policy facts kind with
    | none =>
      let words := kindWords kind
      let what := if facts.security then s!"security fix ({words})" else words
      .inl (.offer .notify v kind
        s!"v{v} is a {what}; the update policy does not install those automatically. The Owner installs it.")
    | some basis =>
      if !converge && !input.upgraderAvailable then
        .inl (.offer .blocked v kind (match nonempty input.upgraderProblem with
          | none => s!"v{v} could install automatically, but this install has no upgrader the admin can start. Run " ++
              "the upgrade command from Settings → Updates once; it sets the upgrader up."
          | some problem =>
            s!"v{v} could install automatically, but the upgrader cannot take it now: {problem}"))
      else .inr ⟨v, kind, basis, if converge then .converge else .appRoll⟩

/-- The rules that do not look at the time. -/
def assess (input : AutoUpdateInput) : AutoUpdateDecision ⊕ Release × AutoInstall :=
  match input.release with
  | none => .inl (.none "The release check has not found a Caelo release yet.")
  | some release =>
    let v := release.version
    match updateKind input.installedVersion.toList v.toList with
    | none => .inl (.none s!"v{input.installedVersion} is the newest release.")
    | some kind =>
      if !isStable v then
        .inl (.offer .notify v kind s!"v{v} is a pre-release; only stable releases install automatically.")
      else if input.policy.mode = .notify then
        .inl (.offer .notify v kind s!"v{v} is available. The update policy only notifies; the Owner installs it.")
      else if kind = .major then
        .inl (.offer .notify v kind
          s!"v{v} is a major release; major releases never install automatically before Caelo 1.0.")
      else match input.facts with
        | .error unavailable =>
          .inl (.offer .blocked v kind (s!"The release information of v{v} could not be read ({unavailable}), so it " ++
            "is not installed automatically. The next check tries again; the Owner can install it from Settings → " ++
            "Updates."))
        | .ok facts => (assessFacts input v kind facts).map id fun auto => (release, auto)

/-- The end of the soak period; `none` stands for a date that is not one. -/
def soakEnd (policy : StoredUpdatePolicy) (basis : AutoUpdateBasis) (publishedAt : String) : Option Int :=
  let soak := if basis = .security then policy.securitySoakHours else policy.soakHours
  ((cal.parseDate publishedAt).map fun time => time + (soak : Int) * 3600000).filter fun time => time ≤ 8640000000000000

/-- The rules that look at the time. -/
def schedule (input : AutoUpdateInput) (release : Release) (auto : AutoInstall) : AutoUpdateDecision :=
  let v := auto.version
  let policy := input.policy
  let words := basisWords auto.basis
  if isPausedAt cal policy input.now then
    let until_ := policy.pausedUntil.bind cal.parseDate
    let who := if policy.pausedByOwner then "by the Owner" else "after a failed automatic install"
    let when_ := match until_ with
      | none => " until the Owner resumes them"
      | some time => " until " ++ cal.isoText time
    let why := match nonempty policy.pausedReason with
      | none => ""
      | some reason => s!" ({reason})"
    .wait auto s!"Automatic installs are paused {who}{when_}{why}." until_ true
  else match release.publishedAt with
    | none =>
      .offer .blocked v auto.kind (s!"The publish date of v{v} is not known, so its soak period cannot be counted. " ++
        "The next release check fills it in.")
    | some publishedAt =>
      let soak := hours (if auto.basis = .security then policy.securitySoakHours else policy.soakHours)
      match (soakEnd cal policy auto.basis publishedAt).filter fun ready => input.now < ready with
      | some ready =>
        let opening := if inMaintenanceWindow cal policy ready then some ready else nextWindowOpening cal policy ready
        let window := if opening.any fun time => time ≠ ready then " and the maintenance window is open" else ""
        .wait auto s!"v{v} ({words}) installs automatically once it has been out for {soak}{window}." opening false
      | none =>
        if !inMaintenanceWindow cal policy input.now then
          let start := (policy.windowStart.map WallClock.text).getD "null"
          let stop := (policy.windowEnd.map WallClock.text).getD "null"
          let zone := policy.windowTimezone
          .wait auto
            s!"v{v} ({words}) installs automatically when the maintenance window opens ({start}–{stop} {zone})."
            (nextWindowOpening cal policy input.now) false
        else
          let window := if policy.windowStart.isSome then " and the maintenance window is open" else ""
          .install auto (s!"v{v} ({words}) installs automatically: the update policy allows it, its {soak} soak " ++
            s!"period is over{window}.")

/-- The numbered rules, without the Owner's skip. -/
def decideByRules (input : AutoUpdateInput) : AutoUpdateDecision :=
  match assess input with
  | .inl decision => decision
  | .inr (release, auto) => schedule cal input release auto

def orSkipped (input : AutoUpdateInput) (auto : AutoInstall) (decision : AutoUpdateDecision) : AutoUpdateDecision :=
  if input.skippedVersion = some auto.version then
    .offer .notify auto.version auto.kind (skippedInstallReason auto.version)
  else decision

def decideAutoUpdate (input : AutoUpdateInput) : AutoUpdateDecision :=
  match decideByRules cal input with
  | .none reason => .none reason
  | .offer action version kind reason => .offer action version kind reason
  | .wait auto reason until_ paused => orSkipped input auto (.wait auto reason until_ paused)
  | .install auto reason => orSkipped input auto (.install auto reason)

end CaeloCms.Update
