import CaeloCms.Upgrade.AppRoll

/-!
# What the runs of an upgrade keep

Wherever a run is killed, each service serves what it served before the first run or a revision that a run created, and the
checkpoint has what it served before the first run (`upgradeGcpInstall_keeps`).
-/

namespace CaeloCms.Upgrade

open Killable (Ends Keeps ask insist read)

/-! ### The calls of a run -/

def Updated (calls : List (CloudCall × Bool)) (slug : RollSlug) : Prop := (.update slug, true) ∈ calls

def PinsOk (calls : List (CloudCall × Bool)) : Prop := ∀ slug revision, (.pin slug revision, false) ∉ calls

def SetsOk (calls : List (CloudCall × Bool)) : Prop :=
  PinsOk calls ∧ ∀ job image, (.setImage job image, false) ∉ calls

@[simp] theorem Sim.record_calls (k : CloudCall) (ok : Bool) (s : Sim) : (s.record k ok).calls = s.calls ++ [(k, ok)] := rfl

theorem Sim.record_true (k : CloudCall) (s : Sim) : (s.record k true).cloud = s.cloud.apply k := rfl

/-! ### What every run keeps -/

def Numbered (c : Cloud) : Prop := ∀ slug, (c.service slug).serving < c.revisions

/-- Between the calls of the runs: each service serves what it served at first or a revision of theirs, and the checkpoint
has what it served at first. -/
structure Underway (start : Cloud) (s : Sim) : Prop where
  revisions : start.revisions ≤ s.cloud.revisions
  serving : ∀ slug, (s.cloud.service slug).serving = (start.service slug).serving ∨
    start.revisions ≤ (s.cloud.service slug).serving
  checkpoint : ∀ f, s.checkpoint = some f → f = fun slug => (start.service slug).serving
  untouched : s.checkpoint = none → ∀ slug, (s.cloud.service slug).serving = (start.service slug).serving

/-- The roll goes on from a state with a checkpoint. -/
structure Rolls (start : Cloud) (s : Sim) : Prop extends Underway start s where
  isSome : s.checkpoint.isSome = true

variable {start : Cloud} {images : RollSlug → ReleaseImage}

/-- The plan of a run, with the revisions that served at first. -/
def plannedServices (start : Cloud) (images : RollSlug → ReleaseImage) (slugs : List RollSlug) : List RollPlan :=
  slugs.map fun slug => ⟨slug, images slug, (start.service slug).serving⟩

variable {s : Sim} {slug : RollSlug} {ps : List RollPlan}

theorem Rolls.of_service {s' : Sim} (h : Rolls start s) (hrevisions : s.cloud.revisions ≤ s'.cloud.revisions)
    (hcheckpoint : s'.checkpoint = s.checkpoint)
    (hserving : ∀ slug, (s'.cloud.service slug).serving = (s.cloud.service slug).serving ∨
      (s'.cloud.service slug).serving = (start.service slug).serving ∨ start.revisions ≤ (s'.cloud.service slug).serving) :
    Rolls start s' where
  revisions := Nat.le_trans h.revisions hrevisions
  serving slug := by
    rcases hserving slug with heq | hs
    · rw [heq]
      exact h.serving slug
    · exact hs
  checkpoint f hf := h.checkpoint f (hcheckpoint ▸ hf)
  untouched hnone := by
    have hsome := h.isSome
    rw [← hcheckpoint, hnone] at hsome
    cases hsome
  isSome := by
    rw [hcheckpoint]
    exact h.isSome

theorem service_update {c : Cloud} {slug' : RollSlug} {svc : Service} (hne : slug' ≠ slug) :
    Function.update c.service slug svc slug' = c.service slug' := Function.update_of_ne hne _ _

theorem Rolls.update (h : Rolls start s) (slug : RollSlug) (ok : Bool) :
    Rolls start (s.record (.update slug) ok) := by
  cases ok with
  | false => exact h.of_service (Nat.le_refl _) rfl fun slug' => Or.inl rfl
  | true =>
    refine h.of_service (Nat.le_succ _) rfl fun slug' => ?_
    rw [Sim.record_true]
    by_cases heq : slug' = slug
    · subst heq
      unfold Cloud.apply Service.serving
      dsimp only
      rw [Function.update_self]
      dsimp only
      cases (s.cloud.service slug').traffic with
      | latest => exact Or.inr (Or.inr h.revisions)
      | pinned revision => exact Or.inl rfl
    · left
      unfold Cloud.apply
      dsimp only
      rw [service_update heq]

theorem Rolls.toLatest (h : Rolls start s)
    (hlatest : start.revisions ≤ (s.cloud.service slug).latest) (ok : Bool) :
    Rolls start (s.record (.toLatest slug) ok) := by
  cases ok with
  | false => exact h.of_service (Nat.le_refl _) rfl fun slug' => Or.inl rfl
  | true =>
    refine h.of_service (Nat.le_refl _) rfl fun slug' => ?_
    rw [Sim.record_true]
    by_cases heq : slug' = slug
    · subst heq
      unfold Cloud.apply Service.serving
      dsimp only
      rw [Function.update_self]
      exact Or.inr (Or.inr hlatest)
    · left
      unfold Cloud.apply
      dsimp only
      rw [service_update heq]

theorem Rolls.pin (h : Rolls start s) (slug : RollSlug) (ok : Bool) :
    Rolls start (s.record (.pin slug (start.service slug).serving) ok) := by
  cases ok with
  | false => exact h.of_service (Nat.le_refl _) rfl fun slug' => Or.inl rfl
  | true =>
    refine h.of_service (Nat.le_refl _) rfl fun slug' => ?_
    rw [Sim.record_true]
    by_cases heq : slug' = slug
    · subst heq
      unfold Cloud.apply
      dsimp only
      rw [Function.update_self]
      exact Or.inr (Or.inl rfl)
    · left
      unfold Cloud.apply
      dsimp only
      rw [service_update heq]

theorem Rolls.setImage (h : Rolls start s) (job : AdminImageJob) (image : String) (ok : Bool) :
    Rolls start (s.record (.setImage job image) ok) := by
  cases ok with
  | false => exact h.of_service (Nat.le_refl _) rfl fun slug' => Or.inl rfl
  | true => exact h.of_service (Nat.le_refl _) rfl fun slug' => Or.inl rfl

/-! ### Every part of the roll keeps it -/

def Prior (start : Cloud) (ps : List RollPlan) : Prop := ∀ p ∈ ps, p.priorRevision = (start.service p.slug).serving

theorem restoreJobs_keeps (jobs : MovedJobs) : Keeps (Rolls start) (restoreJobs jobs) := by
  induction jobs with
  | nil => exact Killable.keeps_pure _
  | cons j jobs ih =>
    obtain ⟨job, prior⟩ := j
    refine Killable.keeps_bind ?_ fun _ => ih
    exact Killable.keeps_call fun ok s h => h.setImage job prior ok

theorem pinAll_keeps (h : Prior start ps) : Keeps (Rolls start) (pinAll ps) := by
  induction ps with
  | nil => exact Killable.keeps_pure _
  | cons p ps ih =>
    have hprior := h p List.mem_cons_self
    refine Killable.keeps_bind (Killable.keeps_call fun ok s hs => ?_) fun ok => ?_
    · rw [hprior]
      exact hs.pin p.slug ok
    · refine Killable.keeps_bind Killable.keeps_insist fun _ => ?_
      refine Killable.keeps_bind (ih fun q hq => h q (List.mem_cons_of_mem _ hq)) fun rest => ?_
      exact Killable.keeps_pure _

theorem rollBack_keeps (jobs : MovedJobs) (h : Prior start ps) :
    Keeps (Rolls start) (rollBack jobs ps) := by
  refine Killable.keeps_bind (restoreJobs_keeps jobs) fun _ => Killable.keeps_ite (Killable.keeps_pure _) ?_
  exact pinAll_keeps fun p hp => h p (List.mem_reverse.1 hp)

theorem rollOne_keeps (p : RollPlan) : Keeps (Rolls start) (rollOne p) := by
  unfold rollOne
  refine Killable.keeps_bind Killable.keeps_ask fun before => Killable.keeps_ite ?_ (Killable.keeps_pure _)
  intro s h
  refine Killable.ends_bind (Killable.ends_call h fun updated => ?_)
  have hupdated := h.update p.slug updated
  refine Killable.ends_ite (fun hok => ?_) fun _ => ?_
  · -- the update has succeeded, and the latest revision is this run's
    have hlatest : start.revisions ≤ ((s.record (.update p.slug) updated).cloud.service p.slug).latest := by
      rw [hok, Sim.record_true]
      unfold Cloud.apply
      dsimp only
      rw [Function.update_self]
      exact h.revisions
    refine Killable.ends_bind (Killable.ends_call hupdated fun flip => ?_)
    have hflip := hupdated.toLatest hlatest flip
    refine Killable.ends_ite (fun _ => ?_) fun _ => Killable.ends_pure hflip
    exact Killable.keeps_bind Killable.keeps_ask (fun url => Killable.keeps_pure _) _ hflip
  · exact Killable.keeps_bind Killable.keeps_insist (fun _ => Killable.keeps_pure _) _ hupdated

theorem rollServices_keeps {rolled : List RollPlan} (hrolled : Prior start rolled) (h : Prior start ps) :
    Keeps (Rolls start) (rollServices rolled ps) := by
  induction ps generalizing rolled with
  | nil => exact Killable.keeps_pure _
  | cons p ps ih =>
    have hboth : Prior start (rolled ++ [p]) := by
      intro q hq
      rcases List.mem_append.1 hq with hq | hq
      · exact hrolled q hq
      · rw [List.mem_singleton.1 hq]
        exact h p List.mem_cons_self
    refine Killable.keeps_bind (rollOne_keeps p) fun e => ?_
    cases e with
    | done => exact ih hboth fun q hq => h q (List.mem_cons_of_mem _ hq)
    | notUpdated => exact Killable.keeps_bind (rollBack_keeps [] hrolled) fun back => Killable.keeps_pure _
    | updated => exact Killable.keeps_bind (rollBack_keeps [] hboth) fun back => Killable.keeps_pure _

theorem moveJobs_keeps (imageRef : String) (jobs : List AdminImageJob) : Keeps (Rolls start) (moveJobs imageRef jobs) := by
  induction jobs with
  | nil => exact Killable.keeps_pure _
  | cons job jobs ih =>
    refine Killable.keeps_bind Killable.keeps_ask fun described => Killable.keeps_bind (Killable.keeps_read _) fun image => ?_
    cases hprior : if described then image else none with
    | none => exact ih
    | some prior =>
      refine Killable.keeps_ite ih ?_
      refine Killable.keeps_bind (Killable.keeps_call fun ok s h => ?_) fun ok => ?_
      · have hs := h.setImage job imageRef ok
        exact hs.of_service (Nat.le_refl _) rfl fun slug => Or.inl rfl
      · exact Killable.keeps_bind ih fun rest => Killable.keeps_pure _

theorem askIf_keeps {I : Sim → Prop} (there answer : Bool) : Keeps I (askIf there answer) := by
  cases there with
  | false => exact Killable.keeps_pure answer
  | true => exact Killable.keeps_ask

theorem beforeRolls_keeps (deps : AppRollDeps) (plan : AppRollPlan) : Keeps (Rolls start) (beforeRolls deps plan) := by
  unfold beforeRolls
  refine Killable.keeps_bind (askIf_keeps _ _) fun baseline => ?_
  refine Killable.keeps_ite ?_ (Killable.keeps_pure _)
  refine Killable.keeps_ite (Killable.keeps_pure _) ?_
  refine Killable.keeps_bind Killable.keeps_ask fun migrated => ?_
  refine Killable.keeps_ite ?_ (Killable.keeps_pure _)
  refine Killable.keeps_bind (askIf_keeps _ _) fun converged => ?_
  refine Killable.keeps_ite ?_ (Killable.keeps_pure _)
  exact Killable.keeps_bind (askIf_keeps _ _) fun pending => Killable.keeps_pure _

theorem executeAppRoll_keeps (deps : AppRollDeps) {plan : AppRollPlan} (h : Prior start plan.services) :
    Keeps (Rolls start) (executeAppRoll images deps plan) := by
  unfold executeAppRoll
  refine Killable.keeps_bind (beforeRolls_keeps deps plan) fun failure => ?_
  cases failure with
  | some failure => exact Killable.keeps_pure _
  | none =>
    refine Killable.keeps_bind (rollServices_keeps (fun p hp => absurd hp List.not_mem_nil) h) fun failure => ?_
    cases failure with
    | some failure => exact Killable.keeps_pure _
    | none =>
      refine Killable.keeps_bind (moveJobs_keeps _ _) fun movedJobs => ?_
      refine Killable.keeps_bind (askIf_keeps _ _) fun healthy => ?_
      refine Killable.keeps_ite ?_ ?_
      · exact Killable.keeps_bind Killable.keeps_insist fun _ => Killable.keeps_pure _
      exact Killable.keeps_bind (rollBack_keeps movedJobs h) fun back => Killable.keeps_pure _

/-! ### The plan and the checkpoint -/

theorem planServices_ends (slugs : List RollSlug) (s : Sim) :
    Ends (fun found s' => s' = s ∧ ∀ services, found = some services → services = plannedServices s.cloud images slugs)
      (fun s' => s' = s) (planServices images slugs) s := by
  induction slugs with
  | nil =>
    refine Killable.ends_pure ⟨rfl, fun services h => ?_⟩
    exact (Option.some.inj h).symm
  | cons slug slugs ih =>
    refine Killable.ends_bind (Killable.ends_ask rfl fun found => Killable.ends_ite (fun _ => ?_) fun _ => ?_)
    · refine Killable.ends_bind (Killable.ends_read (Killable.ends_bind (Killable.ends_mono ih ?_ fun _ h => h)))
      intro rest s' h
      obtain ⟨rfl, hrest⟩ := h
      refine Killable.ends_pure ⟨rfl, fun services h => ?_⟩
      obtain ⟨services', hservices', rfl⟩ := Option.map_eq_some_iff.1 h
      rw [hrest services' hservices']
      rfl
    · exact Killable.ends_pure ⟨rfl, fun services h => by cases h⟩

theorem find_plannedServices {c : Cloud} (slugs : List RollSlug) (h : slug ∈ slugs) :
    (plannedServices c images slugs).find? (fun p => p.slug == slug) = some ⟨slug, images slug, (c.service slug).serving⟩ := by
  induction slugs with
  | nil => exact absurd h List.not_mem_nil
  | cons slug' slugs ih =>
    unfold plannedServices at ih ⊢
    rw [List.map_cons, List.find?_cons]
    by_cases heq : slug' = slug
    · subst heq
      simp
    · have hmem : slug ∈ slugs := (List.mem_cons.1 h).resolve_left fun hs => heq hs.symm
      have hne : (slug' == slug) = false := beq_eq_false_iff_ne.2 heq
      dsimp only
      rw [hne]
      exact ih hmem

theorem mem_rollOrder (slug : RollSlug) : slug ∈ rollOrder := by
  cases slug <;> decide

/-- The services of the plan with the revisions that served at first. -/
theorem withPriorRevisions_ends (h : Underway start s) :
    Ends (fun services s' => Rolls start s' ∧ s'.cloud = s.cloud ∧ s'.moved = s.moved ∧ s'.calls = s.calls ∧
        services = plannedServices start images rollOrder)
      (Underway start) (withPriorRevisions (plannedServices s.cloud images rollOrder)) s := by
  refine Killable.ends_bind (Killable.ends_read ?_)
  cases hcheckpoint : s.checkpoint with
  | some recorded =>
    have hrecorded := h.checkpoint recorded hcheckpoint
    refine Killable.ends_pure ⟨⟨h, by rw [hcheckpoint]; rfl⟩, rfl, rfl, rfl, ?_⟩
    unfold plannedServices
    rw [List.map_map]
    refine List.map_congr_left fun slug _ => ?_
    rw [hrecorded]
    rfl
  | none =>
    have hserving := h.untouched hcheckpoint
    have hplanned : plannedServices s.cloud images rollOrder = plannedServices start images rollOrder := by
      unfold plannedServices
      refine List.map_congr_left fun slug _ => ?_
      rw [hserving slug]
    refine Killable.ends_bind (Killable.ends_insist h ?_)
    refine Killable.ends_bind (Killable.ends_modify (Killable.ends_pure ⟨?_, rfl, rfl, rfl, hplanned⟩))
    refine ⟨⟨h.revisions, h.serving, fun f hf => ?_, fun hnone => by cases hnone⟩, rfl⟩
    -- the revisions that serve are those that served at first
    rw [← Option.some.inj hf, hplanned]
    funext slug
    rw [find_plannedServices rollOrder (mem_rollOrder slug)]
    rfl

theorem prior_plannedServices (slugs : List RollSlug) : Prior start (plannedServices start images slugs) := by
  intro p hp
  obtain ⟨slug, _, rfl⟩ := List.mem_map.1 hp
  rfl

theorem upgradeGcpInstall_keeps (deps : AppRollDeps) : Keeps (Underway start) (upgradeGcpInstall images deps) := by
  intro s h
  refine Killable.ends_bind (Killable.ends_mono (planServices_ends rollOrder s) ?_ fun s' heq => heq ▸ h)
  intro found s' hfound
  obtain ⟨rfl, hfound⟩ := hfound
  cases found with
  | none => exact Killable.ends_pure h
  | some services =>
    rw [hfound services rfl]
    refine Killable.ends_bind (Killable.ends_ask h fun pending => ?_)
    refine Killable.ends_bind (Killable.ends_mono (withPriorRevisions_ends h) ?_ fun _ h => h)
    intro services' s₁ hservices'
    obtain ⟨hs₁, _, _, _, rfl⟩ := hservices'
    refine Killable.ends_bind (Killable.ends_ask hs₁.toUnderway fun ready => Killable.ends_ite (fun _ => ?_) fun _ => ?_)
    · have hprior : Prior start (AppRollPlan.mk (plannedServices start images rollOrder) pending).services :=
        prior_plannedServices rollOrder
      have hroll : Ends _ _ (executeAppRoll images deps _) s₁ := executeAppRoll_keeps deps hprior s₁ hs₁
      refine Killable.ends_bind (Killable.ends_mono hroll (fun result s₂ h₂ => ?_) fun s₂ h₂ => h₂.toUnderway)
      exact Killable.ends_pure h₂.toUnderway
    · exact Killable.ends_pure hs₁.toUnderway

end CaeloCms.Upgrade
