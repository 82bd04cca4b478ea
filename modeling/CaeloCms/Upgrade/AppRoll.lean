import CaeloCms.Lib.Killable

/-!
# The app-roll of an upgrade

`upgrade.ts` plans a roll, records the revisions that serve (the checkpoint of a run that may be killed), and rolls:
migrations, then each service onto its new image and its traffic onto the new revision, the admin-image jobs, and a health
check (`app-roll.ts`).  A failure sends traffic back.

Every service's traffic is on one revision: the calls here put it all on the latest revision or all on a named one.
-/

namespace CaeloCms.Upgrade

/-! ### The install -/

inductive RollSlug
  | admin
  | gateway
  | stagingGateway
  | mcpAuthProxy
deriving DecidableEq, Repr

def rollOrder : List RollSlug := [.admin, .gateway, .stagingGateway, .mcpAuthProxy]

/-- `adminImageJobs`: the quality-audit job and the capture job. -/
inductive AdminImageJob
  | audit
  | capture
deriving DecidableEq, Repr

def adminImageJobs : List AdminImageJob := [.audit, .capture]

inductive Traffic
  | latest
  | pinned (revision : Nat)
deriving DecidableEq, Repr

structure Service where
  latest : Nat
  traffic : Traffic
deriving DecidableEq, Repr

/-- The revision that has the traffic. -/
def Service.serving (svc : Service) : Nat :=
  match svc.traffic with
  | .latest => svc.latest
  | .pinned revision => revision

/-- The services and jobs of an install; revisions are numbered as they are created. -/
structure Cloud where
  service : RollSlug → Service
  /-- `none`: the install has no such job yet. -/
  job : AdminImageJob → Option String
  revisions : Nat

structure ReleaseImage where
  imageRef : String
  digest : String
deriving DecidableEq, Repr

/-- The calls of one run that change the install. -/
inductive CloudCall
  | update (slug : RollSlug)
  | toLatest (slug : RollSlug)
  | pin (slug : RollSlug) (revision : Nat)
  | setImage (job : AdminImageJob) (image : String)
deriving DecidableEq, Repr

/-- An install while runs of one upgrade act on it. -/
structure Sim where
  cloud : Cloud
  /-- `priorRevisions` of the checkpoint. -/
  checkpoint : Option (RollSlug → Nat)
  /-- The jobs that a run moved to the release. -/
  moved : List AdminImageJob
  /-- The calls of this run, with whether each succeeded. -/
  calls : List (CloudCall × Bool)

/-- What a call changes.  A failed one changes nothing. -/
def Cloud.apply (c : Cloud) : CloudCall → Cloud
  | .update slug =>
    { c with
      service := Function.update c.service slug { c.service slug with latest := c.revisions }
      revisions := c.revisions + 1 }
  | .toLatest slug => { c with service := Function.update c.service slug { c.service slug with traffic := .latest } }
  | .pin slug revision =>
    { c with service := Function.update c.service slug { c.service slug with traffic := .pinned revision } }
  | .setImage job image => { c with job := Function.update c.job job (some image) }

def Sim.record (k : CloudCall) (ok : Bool) (s : Sim) : Sim :=
  { s with cloud := if ok then s.cloud.apply k else s.cloud, calls := s.calls ++ [(k, ok)] }

def gcloud (k : CloudCall) : Killable Sim Bool := Killable.call fun ok s => s.record k ok

open Killable (ask insist read)

/-! ### The plan -/

/-- `RollPlan`, as far as the traffic goes. -/
structure RollPlan where
  slug : RollSlug
  image : ReleaseImage
  priorRevision : Nat
deriving DecidableEq, Repr

structure AppRollPlan where
  services : List RollPlan
  databaseHostPending : Bool

/-- `planAppRoll`: looks each service, its serving revision and its configuration up; `none` where one lookup fails. -/
def planServices (images : RollSlug → ReleaseImage) : List RollSlug → Killable Sim (Option (List RollPlan))
  | [] => pure (some [])
  | slug :: slugs => do
    let found ← ask
    if found then
      let priorRevision ← read fun s => (s.cloud.service slug).serving
      let rest ← planServices images slugs
      pure (rest.map fun rest => ⟨slug, images slug, priorRevision⟩ :: rest)
    else pure none

/-- `withPriorRevisions`: the checkpoint's revisions, or those planned now, which are recorded. -/
def withPriorRevisions (services : List RollPlan) : Killable Sim (List RollPlan) := do
  match ← read Sim.checkpoint with
  | some recorded => pure (services.map fun p => { p with priorRevision := recorded p.slug })
  | none => do
    insist
    Killable.modify fun s =>
      { s with checkpoint := some fun slug => ((services.find? fun p => p.slug == slug).map (·.priorRevision)).getD 0 }
    pure services

/-! ### The roll -/

inductive AppRollPhase
  | healthBaseline
  | migrations
  | converge
  | roll
  | health
deriving DecidableEq, Repr

/-- `AppRollResult` -/
inductive AppRollResult
  | ok (digests : RollSlug → String)
  | failed (phase : AppRollPhase) (migrated rolledBack : Bool)

/-- `adminImageJobs` moved by this roll, with their prior images. -/
abbrev MovedJobs := List (AdminImageJob × String)

def restoreJobs : MovedJobs → Killable Sim Unit
  | [] => pure ()
  | (job, prior) :: jobs => do
    let _ ← gcloud (.setImage job prior)
    restoreJobs jobs

/-- Pins the services, each followed by its hook, which may throw; whether every pin succeeded. -/
def pinAll : List RollPlan → Killable Sim Bool
  | [] => pure true
  | p :: ps => do
    let ok ← gcloud (.pin p.slug p.priorRevision)
    insist
    let rest ← pinAll ps
    pure (ok && rest)

/-- `rollBack`, with `rollbackOk === true` after it. -/
def rollBack (movedJobs : MovedJobs) (services : List RollPlan) : Killable Sim Bool := do
  restoreJobs movedJobs
  if services = [] then pure false else pinAll services.reverse

inductive RollEnd
  | done
  /-- Nothing was rolled. -/
  | notUpdated
  /-- It was updated, and traffic may be on it. -/
  | updated
deriving DecidableEq, Repr

/-- `beforeRoll`, `rollService`, the traffic to the latest revision, and the lookup of the URL. -/
def rollOne (p : RollPlan) : Killable Sim RollEnd := do
  let before ← ask
  if before then
    let updated ← gcloud (.update p.slug)
    if updated then
      let flip ← gcloud (.toLatest p.slug)
      if flip then
        let url ← ask
        pure (if url then .done else .updated)
      else pure .updated
    else do
      -- `afterRollback` of the service that did not roll
      insist
      pure .notUpdated
  else pure .notUpdated

/-- The roll of the services, after `rolled`; the failure where one does not roll. -/
def rollServices (rolled : List RollPlan) : List RollPlan → Killable Sim (Option AppRollResult)
  | [] => pure none
  | p :: ps => do
    match ← rollOne p with
    | .done => rollServices (rolled ++ [p]) ps
    | .notUpdated => do
      let back ← rollBack [] rolled
      pure (some (.failed .roll true back))
    | .updated => do
      let back ← rollBack [] (rolled ++ [p])
      pure (some (.failed .roll true back))

def moveJobs (imageRef : String) : List AdminImageJob → Killable Sim MovedJobs
  | [] => pure []
  | job :: jobs => do
    let described ← ask
    let image ← read fun s => s.cloud.job job
    match if described then image else none with
    | none => moveJobs imageRef jobs
    | some prior =>
      if prior = imageRef then moveJobs imageRef jobs
      else do
        let ok ← Killable.call fun ok s =>
          { s.record (.setImage job imageRef) ok with moved := if ok then job :: s.moved else s.moved }
        let rest ← moveJobs imageRef jobs
        pure (if ok then (job, prior) :: rest else rest)

structure AppRollDeps where
  /-- There is a health probe. -/
  health : Bool
  /-- The converge's hooks are there. -/
  hooks : Bool

def askIf (there answer : Bool) : Killable Sim Bool := if there then ask else pure answer

def adminImage (images : RollSlug → ReleaseImage) : String := (images .admin).imageRef

/-- The health baseline, the migrations and the converge step after them; the failure that stops the roll before it starts. -/
def beforeRolls (deps : AppRollDeps) (plan : AppRollPlan) : Killable Sim (Option AppRollResult) := do
  let baseline ← askIf deps.health true
  if baseline then
    if plan.databaseHostPending ∧ ¬deps.hooks then pure (some (.failed .migrations false false))
    else do
      let migrated ← ask
      if migrated then
        let converged ← askIf deps.hooks true
        if converged then
          -- whether the plan with the converge's adjustments still waits for the database's host
          let pending ← askIf deps.hooks false
          pure (if pending then some (.failed .converge true false) else none)
        else pure (some (.failed .converge true false))
      else pure (some (.failed .migrations true false))
  else pure (some (.failed .healthBaseline false false))

def executeAppRoll (images : RollSlug → ReleaseImage) (deps : AppRollDeps) (plan : AppRollPlan) :
    Killable Sim AppRollResult := do
  match ← beforeRolls deps plan with
  | some failure => pure failure
  | none => do
    match ← rollServices [] plan.services with
    | some failure => pure failure
    | none => do
      let movedJobs ← moveJobs (adminImage images) adminImageJobs
      let healthy ← askIf deps.health true
      if healthy then do
        -- `recordDigests`
        insist
        pure (.ok fun slug => (images slug).digest)
      else do
        let back ← rollBack movedJobs plan.services
        pure (.failed .health true back)

/-- One run of the upgrade: the plan, the checkpoint, what must succeed before the roll, and the roll.  `none`: it stopped
before the roll. -/
def upgradeGcpInstall (images : RollSlug → ReleaseImage) (deps : AppRollDeps) : Killable Sim (Option AppRollResult) := do
  match ← planServices images rollOrder with
  | none => pure none
  | some services => do
    let databaseHostPending ← ask
    let services ← withPriorRevisions services
    -- signatures, backup, the converge's first part and the health probe
    let ready ← ask
    if ready then (executeAppRoll images deps ⟨services, databaseHostPending⟩) >>= fun result => pure (some result)
    else pure none

end CaeloCms.Upgrade
