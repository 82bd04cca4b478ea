import CaeloCms.Upgrade.Underway

/-!
# What a failed upgrade puts back

A run that ends not ok undoes what it did itself (`Undone`).  A service that a killed run rolled goes back only where this run
has rolled it again, and a job that a killed run moved stays on the release (`executeAppRoll_restores`).
-/

namespace CaeloCms.Upgrade

open Killable (Ends ask insist read)

variable {start : Cloud} {images : RollSlug → ReleaseImage} {s₀ : Sim} {imageRef : String}

/-! ### The roll -/

/-- Of the run from `s₀`, these services are rolled, and nothing is pinned yet. -/
structure Rolling (imageRef : String) (s₀ : Sim) (services : List RollPlan) (s : Sim) : Prop where
  updated : ∀ slug, Updated s.calls slug ↔ ∃ p ∈ services, p.slug = slug
  pins : ∀ slug revision ok, (.pin slug revision, ok) ∉ s.calls
  other : ∀ slug, (∀ p ∈ services, p.slug ≠ slug) → s.cloud.service slug = s₀.cloud.service slug
  revisions : s₀.cloud.revisions ≤ s.cloud.revisions
  moved : ∀ job ∈ s.moved, job ∈ s₀.moved ∨ s₀.cloud.job job ≠ some imageRef
  stays : ∀ job ∈ s₀.moved, job ∈ s.moved

/-- The traffic of these services is on a revision of this run. -/
def Flipped (s₀ : Sim) (services : List RollPlan) (s : Sim) : Prop :=
  ∀ p ∈ services, (s.cloud.service p.slug).traffic = .latest ∧ s₀.cloud.revisions ≤ (s.cloud.service p.slug).latest

structure Moves (s₀ : Sim) (moves : MovedJobs) (s : Sim) : Prop where
  priors : ∀ job prior, (job, prior) ∈ moves → s₀.cloud.job job = some prior
  same : ∀ job, s.cloud.job job = s₀.cloud.job job ∨ ∃ prior, (job, prior) ∈ moves

variable {s : Sim} {services ps : List RollPlan} {ok : Bool} {p : RollPlan}

theorem rolling_start (imageRef : String) (h : s.calls = []) : Rolling imageRef s [] s where
  updated slug := by
    unfold Updated
    rw [h]
    simp
  pins slug revision ok := by
    rw [h]
    exact List.not_mem_nil
  other slug _ := rfl
  revisions := Nat.le_refl _
  moved job hjob := Or.inl hjob
  stays job hjob := hjob

theorem mem_record {k k' : CloudCall} {ok' : Bool} :
    (k', ok') ∈ (s.record k ok).calls ↔ (k', ok') ∈ s.calls ∨ k' = k ∧ ok' = ok := by
  rw [Sim.record_calls, List.mem_append, List.mem_singleton, Prod.mk.injEq]

/-- A call that is no update and no pin, and changes no service but one of those rolled. -/
theorem Rolling.record {s' : Sim} {k : CloudCall}
    (h : Rolling imageRef s₀ services s) (hcalls : s'.calls = s.calls ++ [(k, ok)])
    (hupdate : ∀ slug, k ≠ .update slug) (hpin : ∀ slug revision, k ≠ .pin slug revision)
    (hother : ∀ slug, (∀ p ∈ services, p.slug ≠ slug) → s'.cloud.service slug = s.cloud.service slug)
    (hrevisions : s.cloud.revisions ≤ s'.cloud.revisions)
    (hmoved : ∀ job ∈ s'.moved, job ∈ s₀.moved ∨ s₀.cloud.job job ≠ some imageRef) (hstays : ∀ job ∈ s.moved, job ∈ s'.moved) :
    Rolling imageRef s₀ services s' where
  updated slug := by
    rw [← h.updated slug]
    unfold Updated
    rw [hcalls, List.mem_append, List.mem_singleton, Prod.mk.injEq]
    have hne := hupdate slug
    grind
  pins slug revision ok' := by
    rw [hcalls, List.mem_append, List.mem_singleton, Prod.mk.injEq]
    have hne := hpin slug revision
    have hnone := h.pins slug revision ok'
    grind
  other slug hslug := (hother slug hslug).trans (h.other slug hslug)
  revisions := Nat.le_trans h.revisions hrevisions
  moved := hmoved
  stays job hjob := hstays job (h.stays job hjob)

theorem Rolling.notUpdated (h : Rolling imageRef s₀ services s) (slug : RollSlug) :
    Rolling imageRef s₀ services (s.record (.update slug) false) where
  updated slug' := by
    rw [← h.updated slug']
    unfold Updated
    rw [mem_record]
    simp
  pins slug' revision ok' := by
    rw [mem_record]
    have hnone := h.pins slug' revision ok'
    simp [hnone]
  other := h.other
  revisions := h.revisions
  moved := h.moved
  stays := h.stays

theorem Rolling.updateOne (h : Rolling imageRef s₀ services s) (p : RollPlan) :
    Rolling imageRef s₀ (services ++ [p]) (s.record (.update p.slug) true) where
  updated slug := by
    have hslug := h.updated slug
    unfold Updated at hslug ⊢
    rw [mem_record, hslug]
    simp only [List.mem_append, List.mem_singleton]
    grind
  pins slug revision ok := by
    rw [mem_record]
    have hnone := h.pins slug revision ok
    simp [hnone]
  other slug hslug := by
    have hne : slug ≠ p.slug := fun heq => hslug p (List.mem_append_right _ (List.mem_singleton_self p)) heq.symm
    rw [← h.other slug fun q hq => hslug q (List.mem_append_left _ hq)]
    exact Function.update_of_ne hne _ _
  revisions := Nat.le_trans h.revisions (Nat.le_succ _)
  moved := h.moved
  stays := h.stays

theorem Rolling.flip (h : Rolling imageRef s₀ services s)
    (hp : p ∈ services) (ok : Bool) : Rolling imageRef s₀ services (s.record (.toLatest p.slug) ok) := by
  refine h.record rfl (fun slug hk => (by cases hk)) (fun slug revision hk => (by cases hk)) (fun slug hslug => ?_) ?_ h.moved
    fun job hjob => hjob
  · cases ok with
    | false => rfl
    | true => exact Function.update_of_ne (hslug p hp).symm _ _
  · cases ok <;> exact Nat.le_refl _

def RolledOne (imageRef : String) (s₀ : Sim) (rolled : List RollPlan) (p : RollPlan) (e : RollEnd) (s : Sim) : Prop :=
  s.cloud.job = s₀.cloud.job ∧
    match e with
    | .done => Rolling imageRef s₀ (rolled ++ [p]) s ∧ Flipped s₀ (rolled ++ [p]) s
    | .notUpdated => Rolling imageRef s₀ rolled s
    | .updated => Rolling imageRef s₀ (rolled ++ [p]) s

theorem rollOne_ends {rolled : List RollPlan} (h : Rolling imageRef s₀ rolled s)
    (hflipped : Flipped s₀ rolled s) (hjob : s.cloud.job = s₀.cloud.job) (hnew : ∀ q ∈ rolled, q.slug ≠ p.slug) :
    Ends (RolledOne imageRef s₀ rolled p) (fun _ => True) (rollOne p) s := by
  have hmem : p ∈ rolled ++ [p] := List.mem_append_right _ (List.mem_singleton_self p)
  refine Killable.ends_bind (Killable.ends_ask trivial fun before => ?_)
  refine Killable.ends_ite (fun _ => ?_) fun _ => Killable.ends_pure ⟨hjob, h⟩
  refine Killable.ends_bind (Killable.ends_call trivial fun updated => ?_)
  cases updated with
  | false => exact Killable.ends_bind (Killable.ends_insist trivial (Killable.ends_pure ⟨hjob, h.notUpdated p.slug⟩))
  | true =>
    have hrolling := h.updateOne p
    refine Killable.ends_bind (Killable.ends_call trivial fun flip => ?_)
    have hrolling' := hrolling.flip hmem flip
    cases flip with
    | false => exact Killable.ends_pure ⟨hjob, hrolling'⟩
    | true =>
      refine Killable.ends_bind (Killable.ends_ask trivial fun url => ?_)
      cases url with
      | false => exact Killable.ends_pure ⟨hjob, hrolling'⟩
      | true =>
        refine Killable.ends_pure ⟨hjob, hrolling', fun q hq => ?_⟩
        rcases List.mem_append.1 hq with hq | hq
        · -- the services rolled before are left alone
          have hq' := hflipped q hq
          have hne := hnew q hq
          have hservice : ((Sim.record (.toLatest p.slug) true (Sim.record (.update p.slug) true s)).cloud.service q.slug) =
              s.cloud.service q.slug := by
            rw [Sim.record_true, Sim.record_true]
            unfold Cloud.apply
            dsimp only
            rw [Function.update_of_ne hne, Function.update_of_ne hne]
          rw [hservice]
          exact hq'
        · rw [List.mem_singleton.1 hq]
          rw [Sim.record_true, Sim.record_true]
          unfold Cloud.apply
          dsimp only
          rw [Function.update_self, Function.update_self]
          exact ⟨rfl, h.revisions⟩

/-! ### The way back -/

/-- What a run that ended not ok leaves: what it did itself is undone. -/
structure Undone (start : Cloud) (imageRef : String) (s₀ : Sim) (back : Bool) (s : Sim) : Prop where
  other : ∀ slug, ¬Updated s.calls slug → s.cloud.service slug = s₀.cloud.service slug
  pinned : PinsOk s.calls → ∀ slug, Updated s.calls slug → (s.cloud.service slug).serving = (start.service slug).serving
  back : back = true ↔ (∃ slug, Updated s.calls slug) ∧ PinsOk s.calls
  job : SetsOk s.calls → s.cloud.job = s₀.cloud.job
  moved : ∀ job ∈ s.moved, job ∈ s₀.moved ∨ s₀.cloud.job job ≠ some imageRef
  stays : ∀ job ∈ s₀.moved, job ∈ s.moved

def ImagesOk (calls : List (CloudCall × Bool)) : Prop := ∀ job image, (.setImage job image, false) ∉ calls

/-- The jobs that are not back yet are those still to be put back. -/
theorem restoreJobs_ends {moves : MovedJobs} (h : Rolling imageRef s₀ services s)
    (hmoves : ImagesOk s.calls → Moves s₀ moves s) :
    Ends (fun _ s' => Rolling imageRef s₀ services s' ∧ (ImagesOk s'.calls → s'.cloud.job = s₀.cloud.job)) (fun _ => True)
      (restoreJobs moves) s := by
  induction moves generalizing s with
  | nil =>
    refine Killable.ends_pure ⟨h, fun hok => ?_⟩
    funext job
    rcases (hmoves hok).same job with heq | ⟨prior, hprior⟩
    · exact heq
    · exact absurd hprior List.not_mem_nil
  | cons move moves ih =>
    obtain ⟨job, prior⟩ := move
    refine Killable.ends_bind (Killable.ends_call trivial fun ok => ih ?_ fun hok => ?_)
    · refine h.record rfl (fun slug hk => (by cases hk)) (fun slug revision hk => (by cases hk)) (fun slug hslug => ?_) ?_
        h.moved fun job hjob => hjob
      · cases ok <;> rfl
      · cases ok <;> exact Nat.le_refl _
    · have hokBefore : ImagesOk s.calls := fun job' image hmem => hok job' image (mem_record.2 (Or.inl hmem))
      have htrue : ok = true := by
        cases ok with
        | true => rfl
        | false => exact absurd (mem_record.2 (Or.inr ⟨rfl, rfl⟩)) (hok job prior)
      subst htrue
      have hmoves' := hmoves hokBefore
      have hprior := hmoves'.priors job prior List.mem_cons_self
      refine ⟨fun job' prior' hmem => hmoves'.priors job' prior' (List.mem_cons_of_mem _ hmem), fun job' => ?_⟩
      have hset : (Sim.record (.setImage job prior) true s).cloud.job job' =
          Function.update s.cloud.job job (some prior) job' := rfl
      rw [hset]
      by_cases heq : job' = job
      · subst heq
        rw [Function.update_self]
        exact Or.inl hprior.symm
      · rw [Function.update_of_ne heq]
        rcases hmoves'.same job' with hsame | ⟨prior', hmem⟩
        · exact Or.inl hsame
        · refine Or.inr ⟨prior', (List.mem_cons.1 hmem).resolve_left fun hpair => heq ?_⟩
          exact (Prod.mk.inj hpair).1

/-- What pinning these services does. -/
structure Pinned (start : Cloud) (ps : List RollPlan) (s : Sim) (ok : Bool) (s' : Sim) : Prop where
  job : s'.cloud.job = s.cloud.job
  moved : s'.moved = s.moved
  updated : ∀ slug, Updated s'.calls slug ↔ Updated s.calls slug
  images : ImagesOk s'.calls → ImagesOk s.calls
  pins : PinsOk s'.calls ↔ PinsOk s.calls ∧ ok = true
  other : ∀ slug, (∀ p ∈ ps, p.slug ≠ slug) → s'.cloud.service slug = s.cloud.service slug
  kept : ∀ slug, (s.cloud.service slug).serving = (start.service slug).serving →
    (s'.cloud.service slug).serving = (start.service slug).serving
  pinned : ok = true → ∀ p ∈ ps, (s'.cloud.service p.slug).serving = (start.service p.slug).serving

theorem Pinned.nil (s : Sim) : Pinned start [] s true s where
  job := rfl
  moved := rfl
  updated slug := Iff.rfl
  images h := h
  pins := by simp
  other slug _ := rfl
  kept slug h := h
  pinned _ p hp := absurd hp List.not_mem_nil

theorem serving_pin (slug : RollSlug) (revision : Nat) :
    ((s.record (.pin slug revision) true).cloud.service slug).serving = revision := by
  rw [Sim.record_true]
  unfold Cloud.apply
  dsimp only
  rw [Function.update_self]
  rfl

theorem service_pin {slug slug' : RollSlug} (revision : Nat) (hne : slug' ≠ slug) (ok : Bool) :
    (s.record (.pin slug revision) ok).cloud.service slug' = s.cloud.service slug' := by
  cases ok with
  | false => rfl
  | true => exact Function.update_of_ne hne _ _

theorem pinsOk_record {slug : RollSlug} {revision : Nat} :
    PinsOk (s.record (.pin slug revision) ok).calls ↔ PinsOk s.calls ∧ ok = true := by
  constructor
  · intro h
    refine ⟨fun slug' revision' hmem => h slug' revision' (mem_record.2 (Or.inl hmem)), ?_⟩
    cases ok with
    | true => rfl
    | false => exact absurd (mem_record.2 (Or.inr ⟨rfl, rfl⟩)) (h slug revision)
  · intro h slug' revision' hmem
    rcases mem_record.1 hmem with hmem | hnew
    · exact h.1 slug' revision' hmem
    · rw [h.2] at hnew
      cases hnew.2

theorem Pinned.cons {s' : Sim} {ok' : Bool}
    (hprior : p.priorRevision = (start.service p.slug).serving)
    (h : Pinned start ps (s.record (.pin p.slug p.priorRevision) ok) ok' s') : Pinned start (p :: ps) s (ok && ok') s' where
  job := by
    rw [h.job]
    cases ok <;> rfl
  moved := h.moved
  updated slug := by
    rw [h.updated slug]
    unfold Updated
    rw [mem_record]
    simp
  images himages job image hmem := h.images himages job image (mem_record.2 (Or.inl hmem))
  pins := by
    rw [h.pins, pinsOk_record, Bool.and_eq_true]
    exact and_assoc
  other slug hslug := by
    rw [h.other slug fun q hq => hslug q (List.mem_cons_of_mem _ hq)]
    exact service_pin _ (hslug p List.mem_cons_self).symm ok
  kept slug hkept := by
    refine h.kept slug ?_
    by_cases heq : slug = p.slug
    · subst heq
      cases ok with
      | false => exact hkept
      | true => rw [serving_pin, hprior]
    · rw [service_pin _ heq]
      exact hkept
  pinned hok q hq := by
    rw [Bool.and_eq_true] at hok
    rcases List.mem_cons.1 hq with rfl | hq
    · refine h.kept q.slug ?_
      rw [hok.1, serving_pin, hprior]
    · exact h.pinned hok.2 q hq

theorem pinAll_ends (h : Prior start ps) (s : Sim) :
    Ends (fun ok s' => Pinned start ps s ok s') (fun _ => True) (pinAll ps) s := by
  induction ps generalizing s with
  | nil => exact Killable.ends_pure (Pinned.nil s)
  | cons p ps ih =>
    have hprior := h p List.mem_cons_self
    refine Killable.ends_bind (Killable.ends_call trivial fun ok => ?_)
    refine Killable.ends_bind (Killable.ends_insist trivial ?_)
    have hrest := ih (fun q hq => h q (List.mem_cons_of_mem _ hq)) (s.record (.pin p.slug p.priorRevision) ok)
    refine Killable.ends_bind (Killable.ends_mono hrest (fun ok' s' hs' => ?_) fun _ h => h)
    exact Killable.ends_pure (Pinned.cons hprior hs')

theorem Rolling.pinsOk (h : Rolling imageRef s₀ services s) : PinsOk s.calls :=
  fun slug revision => h.pins slug revision false

theorem rollBack_ends {moves : MovedJobs} (h : Rolling imageRef s₀ services s)
    (hprior : Prior start services) (hmoves : ImagesOk s.calls → Moves s₀ moves s) :
    Ends (Undone start imageRef s₀) (fun _ => True) (rollBack moves services) s := by
  refine Killable.ends_bind (Killable.ends_mono (restoreJobs_ends h hmoves) ?_ fun _ h => h)
  intro _ s₁ h₁
  obtain ⟨hrolling, hjob⟩ := h₁
  refine Killable.ends_ite (fun hnil => ?_) fun hne => ?_
  · -- nothing had rolled
    subst hnil
    refine Killable.ends_pure ⟨fun slug _ => ?_, fun _ slug hslug => ?_, ?_, fun hok => hjob hok.2, hrolling.moved, hrolling.stays⟩
    · exact hrolling.other slug fun p hp => absurd hp List.not_mem_nil
    · obtain ⟨p, hp, _⟩ := (hrolling.updated slug).1 hslug
      exact absurd hp List.not_mem_nil
    · refine ⟨fun hback => (by cases hback), fun hupdated => ?_⟩
      obtain ⟨⟨slug, hslug⟩, _⟩ := hupdated
      obtain ⟨p, hp, _⟩ := (hrolling.updated slug).1 hslug
      exact absurd hp List.not_mem_nil
  · have hprior' : Prior start services.reverse := fun p hp => hprior p (List.mem_reverse.1 hp)
    refine Killable.ends_mono (pinAll_ends hprior' s₁) (fun ok s' hs' => ?_) fun _ h => h
    have hpins : PinsOk s'.calls ↔ ok = true := by
      rw [hs'.pins]
      exact and_iff_right hrolling.pinsOk
    have hupdated : ∀ slug, Updated s'.calls slug ↔ ∃ p ∈ services, p.slug = slug :=
      fun slug => (hs'.updated slug).trans (hrolling.updated slug)
    refine ⟨fun slug hslug => ?_, fun hok slug hslug => ?_, ?_, fun hok => ?_, ?_, ?_⟩
    · have hnone : ∀ p ∈ services, p.slug ≠ slug := fun p hp heq => hslug ((hupdated slug).2 ⟨p, hp, heq⟩)
      rw [hs'.other slug fun p hp => hnone p (List.mem_reverse.1 hp)]
      exact hrolling.other slug hnone
    · obtain ⟨p, hp, rfl⟩ := (hupdated slug).1 hslug
      exact hs'.pinned (hpins.1 hok) p (List.mem_reverse.2 hp)
    · obtain ⟨p, hp⟩ := List.exists_mem_of_ne_nil services hne
      rw [hpins]
      exact ⟨fun hok => ⟨⟨p.slug, (hupdated p.slug).2 ⟨p, hp, rfl⟩⟩, hok⟩, fun h => h.2⟩
    · rw [hs'.job]
      exact hjob (hs'.images hok.2)
    · rw [hs'.moved]
      exact hrolling.moved
    · rw [hs'.moved]
      exact hrolling.stays

/-! ### A run -/

/-- A run that ends: with the services on its revisions, or undone. -/
def RollEnded (start : Cloud) (imageRef : String) (s₀ : Sim) (result : AppRollResult) (s : Sim) : Prop :=
  match result with
  | .ok _ => ∀ slug, (s.cloud.service slug).traffic = .latest ∧ s₀.cloud.revisions ≤ (s.cloud.service slug).latest
  | .failed _ _ back => Undone start imageRef s₀ back s

/-- Only the install and the moved jobs of the state before matter. -/
theorem RollEnded.congr {s₁ : Sim} {result : AppRollResult} (hcloud : s₁.cloud = s₀.cloud)
    (hmoved : s₁.moved = s₀.moved)
    (h : RollEnded start imageRef s₁ result s) : RollEnded start imageRef s₀ result s := by
  cases result with
  | ok digests =>
    intro slug
    rw [← hcloud]
    exact h slug
  | failed phase migrated back =>
    refine ⟨?_, h.pinned, h.back, ?_, ?_, ?_⟩
    · rw [← hcloud]
      exact h.other
    · rw [← hcloud]
      exact h.job
    · rw [← hcloud, ← hmoved]
      exact h.moved
    · rw [← hmoved]
      exact h.stays

/-- The roll of the services stops with a failure, undone, or they all are on the revisions of this run. -/
def ServicesEnded (start : Cloud) (imageRef : String) (s₀ : Sim) (services : List RollPlan)
    (failure : Option AppRollResult) (s : Sim) : Prop :=
  match failure with
  | some failure => ∃ phase migrated back, failure = .failed phase migrated back ∧ Undone start imageRef s₀ back s
  | none => s.cloud.job = s₀.cloud.job ∧ Rolling imageRef s₀ services s ∧ Flipped s₀ services s

theorem rollBack_fails {all : List RollPlan}
    (h : Rolling imageRef s₀ services s) (hjob : s.cloud.job = s₀.cloud.job) (hprior : Prior start services) :
    Ends (ServicesEnded start imageRef s₀ all) (fun _ => True)
      (rollBack [] services >>= fun back => pure (some (.failed .roll true back))) s := by
  have hmoves : ImagesOk s.calls → Moves s₀ [] s := fun _ =>
    ⟨fun job prior hmem => absurd hmem List.not_mem_nil, fun job => Or.inl (by rw [hjob])⟩
  refine Killable.ends_bind (Killable.ends_mono (rollBack_ends h hprior hmoves) (fun back s' hs' => ?_) fun _ h => h)
  exact Killable.ends_pure ⟨.roll, true, back, rfl, hs'⟩

theorem rollServices_ends {rolled : List RollPlan} (h : Rolling imageRef s₀ rolled s)
    (hflipped : Flipped s₀ rolled s) (hjob : s.cloud.job = s₀.cloud.job) (hprior : Prior start (rolled ++ ps))
    (hnodup : ((rolled ++ ps).map RollPlan.slug).Nodup) :
    Ends (ServicesEnded start imageRef s₀ (rolled ++ ps)) (fun _ => True) (rollServices rolled ps) s := by
  induction ps generalizing rolled s with
  | nil =>
    rw [List.append_nil]
    exact Killable.ends_pure ⟨hjob, h, hflipped⟩
  | cons p ps ih =>
    have hassoc : rolled ++ p :: ps = (rolled ++ [p]) ++ ps := by simp
    have hnew : ∀ q ∈ rolled, q.slug ≠ p.slug := by
      intro q hq heq
      rw [List.map_append, List.map_cons] at hnodup
      have hdisjoint := (List.nodup_append.1 hnodup).2.2
      exact hdisjoint q.slug (List.mem_map_of_mem hq) p.slug List.mem_cons_self heq
    have hrolled : Prior start rolled := fun q hq => hprior q (List.mem_append_left _ hq)
    have hboth : Prior start (rolled ++ [p]) := by
      rw [hassoc] at hprior
      exact fun q hq => hprior q (List.mem_append_left _ hq)
    refine Killable.ends_bind (Killable.ends_mono (rollOne_ends h hflipped hjob hnew) ?_ fun _ h => h)
    intro e s' hs'
    obtain ⟨hjob', hs'⟩ := hs'
    cases e with
    | done =>
      rw [hassoc] at hprior hnodup ⊢
      exact ih hs'.1 hs'.2 hjob' hprior hnodup
    | notUpdated => exact rollBack_fails hs' hjob' hrolled
    | updated => exact rollBack_fails hs' hjob' hboth

theorem moveJobs_ends {jobs : List AdminImageJob}
    (h : Rolling imageRef s₀ services s) (hnodup : jobs.Nodup)
    (hbefore : ∀ job ∈ jobs, s.cloud.job job = s₀.cloud.job job) :
    Ends (fun moves s' => Rolling imageRef s₀ services s' ∧ s'.cloud.service = s.cloud.service ∧
        (∀ job prior, (job, prior) ∈ moves → s₀.cloud.job job = some prior) ∧
        ∀ job, s'.cloud.job job = s.cloud.job job ∨ ∃ prior, (job, prior) ∈ moves)
      (fun _ => True) (moveJobs imageRef jobs) s := by
  induction jobs generalizing s with
  | nil =>
    exact Killable.ends_pure ⟨h, rfl, fun job prior hmem => absurd hmem List.not_mem_nil, fun job => Or.inl rfl⟩
  | cons job jobs ih =>
    obtain ⟨hnew, hnodup'⟩ := List.nodup_cons.1 hnodup
    have hrest : ∀ job' ∈ jobs, s.cloud.job job' = s₀.cloud.job job' := fun job' hjob' => hbefore job' (List.mem_cons_of_mem _ hjob')
    refine Killable.ends_bind (Killable.ends_ask trivial fun described => Killable.ends_bind (Killable.ends_read ?_))
    cases himage : if described then s.cloud.job job else none with
    | none => exact ih h hnodup' hrest
    | some prior =>
      have hprior : s.cloud.job job = some prior := by
        cases described with
        | false => cases himage
        | true => exact himage
      have hprior₀ : s₀.cloud.job job = some prior := (hbefore job List.mem_cons_self).symm.trans hprior
      refine Killable.ends_ite (fun _ => ih h hnodup' hrest) fun hne => ?_
      refine Killable.ends_bind (Killable.ends_call trivial fun ok => ?_)
      have hrolling : Rolling imageRef s₀ services
          { s.record (.setImage job imageRef) ok with moved := if ok then job :: s.moved else s.moved } := by
        refine h.record rfl (fun slug hk => (by cases hk)) (fun slug revision hk => (by cases hk)) (fun slug hslug => ?_) ?_
          (fun job' hjob' => ?_) fun job' hjob' => ?_
        · cases ok <;> rfl
        · cases ok <;> exact Nat.le_refl _
        · cases ok with
          | false => exact h.moved job' hjob'
          | true =>
            rcases List.mem_cons.1 hjob' with rfl | hjob'
            · right
              rw [hprior₀]
              exact fun heq => hne (Option.some.inj heq)
            · exact h.moved job' hjob'
        · cases ok with
          | false => exact hjob'
          | true => exact List.mem_cons_of_mem _ hjob'
      have hother : ∀ job', job' ≠ job → (s.record (.setImage job imageRef) ok).cloud.job job' = s.cloud.job job' := by
        intro job' hne'
        cases ok with
        | false => rfl
        | true => exact Function.update_of_ne hne' _ _
      have hrest' := ih hrolling hnodup' fun job' hjob' => by
        have hne' : job' ≠ job := fun heq => hnew (heq ▸ hjob')
        exact (hother job' hne').trans (hrest job' hjob')
      refine Killable.ends_bind (Killable.ends_mono hrest' (fun rest s' hs' => Killable.ends_pure ?_) fun _ h => h)
      obtain ⟨hs', hservice, hpriors, hsame⟩ := hs'
      have hservice' : s'.cloud.service = s.cloud.service := by
        rw [hservice]
        cases ok <;> rfl
      cases ok with
      | false => exact ⟨hs', hservice', hpriors, hsame⟩
      | true =>
        refine ⟨hs', hservice', fun job' prior' hmem => ?_, fun job' => ?_⟩
        · rcases List.mem_cons.1 hmem with hpair | hmem
          · cases hpair
            exact hprior₀
          · exact hpriors job' prior' hmem
        · by_cases heq : job' = job
          · subst heq
            exact Or.inr ⟨prior, List.mem_cons_self⟩
          · rcases hsame job' with hsame | ⟨prior', hmem⟩
            · exact Or.inl (hsame.trans (hother job' heq))
            · exact Or.inr ⟨prior', List.mem_cons_of_mem _ hmem⟩

theorem beforeRolls_ends (deps : AppRollDeps) (plan : AppRollPlan) (s : Sim) :
    Ends (fun failure s' => s' = s ∧ ∀ result, failure = some result → ∃ phase migrated, result = .failed phase migrated false)
      (fun _ => True) (beforeRolls deps plan) s := by
  have hask : ∀ (there answer : Bool) (s : Sim), Ends (fun _ s' => s' = s) (fun _ => True) (askIf there answer) s := by
    intro there answer s
    cases there with
    | false => exact Killable.ends_pure rfl
    | true => exact Killable.ends_ask trivial fun _ => rfl
  have hstop : ∀ phase migrated, Ends (fun failure s' => s' = s ∧
      ∀ result, failure = some result → ∃ phase migrated, result = .failed phase migrated false) (fun _ => True)
      (pure (some (.failed phase migrated false)) : Killable Sim (Option AppRollResult)) s := by
    intro phase migrated
    exact Killable.ends_pure ⟨rfl, fun result heq => ⟨phase, migrated, (Option.some.inj heq).symm⟩⟩
  unfold beforeRolls
  refine Killable.ends_bind (Killable.ends_mono (hask _ _ s) (fun baseline s₁ h₁ => ?_) fun _ h => h)
  subst h₁
  refine Killable.ends_ite (fun _ => ?_) fun _ => hstop _ _
  refine Killable.ends_ite (fun _ => hstop _ _) fun _ => ?_
  refine Killable.ends_bind (Killable.ends_ask trivial fun migrated => ?_)
  refine Killable.ends_ite (fun _ => ?_) fun _ => hstop _ _
  refine Killable.ends_bind (Killable.ends_mono (hask _ _ s₁) (fun converged s₂ h₂ => ?_) fun _ h => h)
  subst h₂
  refine Killable.ends_ite (fun _ => ?_) fun _ => hstop _ _
  refine Killable.ends_bind (Killable.ends_mono (hask _ _ s₂) (fun pending s₃ h₃ => ?_) fun _ h => h)
  subst h₃
  refine Killable.ends_pure ⟨rfl, fun result heq => ?_⟩
  cases pending with
  | false => cases heq
  | true => exact ⟨.converge, true, (Option.some.inj heq).symm⟩

theorem undone_start (h : s.calls = []) : Undone start imageRef s false s := by
  have hnone : ∀ slug, ¬Updated s.calls slug := by
    intro slug hslug
    unfold Updated at hslug
    rw [h] at hslug
    exact List.not_mem_nil hslug
  refine ⟨fun slug _ => rfl, fun _ slug hslug => absurd hslug (hnone slug), ?_, fun _ => rfl, fun job hjob => Or.inl hjob,
    fun job hjob => hjob⟩
  refine ⟨fun hback => (by cases hback), fun hupdated => ?_⟩
  obtain ⟨⟨slug, hslug⟩, _⟩ := hupdated
  exact absurd hslug (hnone slug)

theorem executeAppRoll_ends (deps : AppRollDeps) {pending : Bool} (h : s.calls = []) :
    Ends (RollEnded start (adminImage images) s) (fun _ => True)
      (executeAppRoll images deps ⟨plannedServices start images rollOrder, pending⟩) s := by
  have hprior : Prior start (plannedServices start images rollOrder) := prior_plannedServices rollOrder
  refine Killable.ends_bind (Killable.ends_mono (beforeRolls_ends deps _ s) (fun failure s₁ h₁ => ?_) fun _ h => h)
  obtain ⟨rfl, hfailure⟩ := h₁
  cases failure with
  | some result =>
    obtain ⟨phase, migrated, rfl⟩ := hfailure result rfl
    exact Killable.ends_pure (undone_start h)
  | none =>
    have hslugs : ((plannedServices start images rollOrder).map RollPlan.slug).Nodup := by
      have hmap : (plannedServices start images rollOrder).map RollPlan.slug = rollOrder := by
        unfold plannedServices
        rw [List.map_map]
        exact List.map_id rollOrder
      rw [hmap]
      decide
    have hroll := rollServices_ends (rolling_start (adminImage images) h) (fun p hp => absurd hp List.not_mem_nil) rfl
      hprior hslugs
    refine Killable.ends_bind (Killable.ends_mono hroll (fun failure s₂ h₂ => ?_) fun _ h => h)
    cases failure with
    | some result =>
      obtain ⟨phase, migrated, back, rfl, hundone⟩ := h₂
      exact Killable.ends_pure hundone
    | none =>
      obtain ⟨hjob, hrolling, hflipped⟩ := h₂
      have hjobs := moveJobs_ends hrolling (show adminImageJobs.Nodup by decide) fun job _ => by rw [hjob]
      refine Killable.ends_bind (Killable.ends_mono hjobs (fun moves s₃ h₃ => ?_) fun _ h => h)
      obtain ⟨hrolling', hservice, hpriors, hsame⟩ := h₃
      have hmoves : Moves s₁ moves s₃ := ⟨hpriors, fun job => by
        rw [← hjob]
        exact hsame job⟩
      have hok : RollEnded start (adminImage images) s₁ (.ok fun slug => (images slug).digest) s₃ := by
        intro slug
        have hmem : ⟨slug, images slug, (start.service slug).serving⟩ ∈ plannedServices start images rollOrder :=
          List.mem_map_of_mem (mem_rollOrder slug)
        rw [hservice]
        exact hflipped _ hmem
      have hback := rollBack_ends hrolling' hprior fun _ => hmoves
      have hrest : ∀ healthy : Bool, Ends (RollEnded start (adminImage images) s₁) (fun _ => True)
          (if healthy then do
            insist
            pure (.ok fun slug => (images slug).digest)
          else do
            let back ← rollBack moves (plannedServices start images rollOrder)
            pure (.failed .health true back)) s₃ := by
        intro healthy
        cases healthy with
        | true => exact Killable.ends_bind (Killable.ends_insist trivial (Killable.ends_pure hok))
        | false =>
          refine Killable.ends_bind (Killable.ends_mono hback (fun back s₄ h₄ => ?_) fun _ h => h)
          exact Killable.ends_pure h₄
      refine Killable.ends_bind ?_
      cases deps.health with
      | false => exact Killable.ends_pure (hrest true)
      | true => exact Killable.ends_ask trivial hrest

theorem upgradeGcpInstall_ends (deps : AppRollDeps) (h : Underway start s) (hcalls : s.calls = []) :
    Ends (fun outcome s' => ∀ result, outcome = some result → RollEnded start (adminImage images) s result s') (fun _ => True)
      (upgradeGcpInstall images deps) s := by
  refine Killable.ends_bind (Killable.ends_mono (planServices_ends rollOrder s) (fun found s₁ h₁ => ?_) fun _ _ => trivial)
  obtain ⟨rfl, hfound⟩ := h₁
  cases found with
  | none => exact Killable.ends_pure fun result heq => by cases heq
  | some services =>
    rw [hfound services rfl]
    refine Killable.ends_bind (Killable.ends_ask trivial fun pending => ?_)
    refine Killable.ends_bind (Killable.ends_mono (withPriorRevisions_ends h) (fun services' s₂ h₂ => ?_) fun _ _ => trivial)
    obtain ⟨_, hcloud, hmoved, hcalls₂, rfl⟩ := h₂
    refine Killable.ends_bind (Killable.ends_ask trivial fun ready => Killable.ends_ite (fun _ => ?_) fun _ => ?_)
    · have hroll : Ends (RollEnded start (adminImage images) s₂) (fun _ => True)
          (executeAppRoll images deps ⟨plannedServices start images rollOrder, pending⟩) s₂ :=
        executeAppRoll_ends deps (hcalls₂.trans hcalls)
      refine Killable.ends_bind (Killable.ends_mono hroll (fun result s₃ h₃ => ?_) fun _ h => h)
      refine Killable.ends_pure fun result' heq => ?_
      rw [← Option.some.inj heq]
      exact h₃.congr hcloud hmoved
    · exact Killable.ends_pure fun result heq => by cases heq

/-! ### The runs -/

/-- What the upgrade finds before a run: the install at first, or what a killed run left. -/
inductive Continued (images : RollSlug → ReleaseImage) (start : Cloud) : Sim → Prop
  | first (h : Numbered start) : Continued images start ⟨start, none, [], []⟩
  | killed {s s' : Sim} {deps : AppRollDeps} {answers : List Bool} (h : Continued images start s)
      (run : upgradeGcpInstall images deps s answers = (none, s')) : Continued images start { s' with calls := [] }

theorem Continued.numbered (h : Continued images start s) : Numbered start := by
  induction h with
  | first h => exact h
  | killed _ _ ih => exact ih

theorem Continued.calls (h : Continued images start s) : s.calls = [] := by
  cases h <;> rfl

theorem Continued.underway (h : Continued images start s) : Underway start s := by
  induction h with
  | first h => exact ⟨Nat.le_refl _, fun slug => Or.inl rfl, fun f hf => (by cases hf), fun _ slug => rfl⟩
  | @killed s s' deps answers _ run ih =>
    have hkilled := (upgradeGcpInstall_keeps deps s ih answers).2 s' run
    exact ⟨hkilled.revisions, hkilled.serving, hkilled.checkpoint, hkilled.untouched⟩

/-- Every service's traffic is on a revision of the run from `s₀`. -/
def OnNewRevisions (s₀ s : Sim) : Prop := ∀ slug, s₀.cloud.revisions ≤ (s.cloud.service slug).serving ∧
  (s.cloud.service slug).serving = (s.cloud.service slug).latest

/-- What a run that ended not ok has to leave. -/
structure PutBack (start : Cloud) (imageRef : String) (back : Bool) (s : Sim) : Prop where
  serving : back = true → ∀ slug, (s.cloud.service slug).serving = (start.service slug).serving
  revisions : SetsOk s.calls → ∀ slug, (s.cloud.service slug).serving < start.revisions
  jobs : SetsOk s.calls → ∀ job ∈ s.moved, s.cloud.job job ≠ some imageRef

/-- Of what killed runs left in `s₀`, this run has rolled each service again, and they had moved no job. -/
structure TakenUp (start : Cloud) (imageRef : String) (s₀ : Sim) (calls : List (CloudCall × Bool)) : Prop where
  services : (∃ slug, Updated calls slug) ∧ PinsOk calls ∨ SetsOk calls →
    ∀ slug, ¬Updated calls slug → (s₀.cloud.service slug).serving = (start.service slug).serving
  jobs : SetsOk calls → ∀ job ∈ s₀.moved, s₀.cloud.job job ≠ some imageRef

theorem Undone.putBack {back : Bool} (hnumbered : Numbered start) (h₀ : Underway start s₀)
    (h : Undone start imageRef s₀ back s) : PutBack start imageRef back s ↔ TakenUp start imageRef s₀ s.calls := by
  constructor
  · intro hback
    refine ⟨fun hcalls slug hslug => ?_, fun hok job hjob hon => ?_⟩
    · have hother := h.other slug hslug
      rcases hcalls with hpinned | hok
      · rw [← hother]
        exact hback.serving (h.back.2 hpinned) slug
      · have hlt := hback.revisions hok slug
        rw [hother] at hlt
        rcases h₀.serving slug with heq | hnew
        · exact heq
        · omega
    · rw [← h.job hok] at hon
      exact hback.jobs hok job (h.stays job hjob) hon
  · intro hup
    refine ⟨fun hback slug => ?_, fun hok slug => ?_, fun hok job hjob hon => ?_⟩
    · have hpinned := h.back.1 hback
      by_cases hslug : Updated s.calls slug
      · exact h.pinned hpinned.2 slug hslug
      · rw [h.other slug hslug]
        exact hup.services (Or.inl hpinned) slug hslug
    · have hserving : (s.cloud.service slug).serving = (start.service slug).serving := by
        by_cases hslug : Updated s.calls slug
        · exact h.pinned hok.1 slug hslug
        · rw [h.other slug hslug]
          exact hup.services (Or.inr hok) slug hslug
      rw [hserving]
      exact hnumbered slug
    · rw [h.job hok] at hon
      rcases h.moved job hjob with hjob | hne
      · exact hup.jobs hok job hjob hon
      · exact hne hon

/-- **What an upgrade leaves**: a run that ends ok has every service on a revision of it, and one that ends not ok has put back
what served before the first run exactly where it has rolled again each service that the killed runs before it left on another
revision, and they had moved no job. -/
theorem executeAppRoll_restores {s s' : Sim} {deps : AppRollDeps} {answers rest : List Bool} {result : AppRollResult}
    (hs : Continued images start s) (hrun : upgradeGcpInstall images deps s answers = (some (some result, rest), s')) :
    (∀ digests, result = .ok digests → OnNewRevisions s s') ∧
      ∀ phase migrated back, result = .failed phase migrated back →
        (PutBack start (adminImage images) back s' ↔ TakenUp start (adminImage images) s s'.calls) := by
  have hends := (upgradeGcpInstall_ends deps hs.underway hs.calls answers).1 (some result) rest s' hrun result rfl
  refine ⟨fun digests heq slug => ?_, fun phase migrated back heq => ?_⟩
  · subst heq
    obtain ⟨htraffic, hlatest⟩ := hends slug
    have hserving : (s'.cloud.service slug).serving = (s'.cloud.service slug).latest := by
      unfold Service.serving
      rw [htraffic]
    exact ⟨by rw [hserving]; exact hlatest, hserving⟩
  · subst heq
    exact Undone.putBack hs.numbered hs.underway hends

/-! ### A run killed after the gateway -/

def smallInstall : Cloud where
  service _ := ⟨0, .latest⟩
  job _ := none
  revisions := 1

def smallRelease (_ : RollSlug) : ReleaseImage := ⟨"caelo@sha256:1", "sha256:1"⟩

def noHooks : AppRollDeps := ⟨false, false⟩

/-- The four services are found, no host is pending, and what comes before the roll succeeds. -/
def preflight : List Bool := [true, true, true, true, false]

/-- The admin rolls: hook, update, traffic, URL. -/
def rolls : List Bool := [true, true, true, true]

def failsAtGateway : List Bool := preflight ++ [true, true, true] ++ rolls ++ [true, false, true] ++ [true, true]

def failedRun : Sim := (upgradeGcpInstall smallRelease noHooks ⟨smallInstall, none, [], []⟩ failsAtGateway).2

theorem executeAppRoll_restores_first : PutBack smallInstall (adminImage smallRelease) true failedRun := by
  have hfirst : Continued smallRelease smallInstall ⟨smallInstall, none, [], []⟩ := by
    refine .first fun slug => ?_
    exact Nat.zero_lt_one
  have hrun : upgradeGcpInstall smallRelease noHooks ⟨smallInstall, none, [], []⟩ failsAtGateway =
      (some (some (.failed .roll true true), []), failedRun) := rfl
  refine ((executeAppRoll_restores hfirst hrun).2 _ _ _ rfl).2 ⟨fun _ slug _ => rfl, fun _ job hjob => ?_⟩
  exact absurd hjob List.not_mem_nil

def killedRun : Sim := (upgradeGcpInstall smallRelease noHooks ⟨smallInstall, none, [], []⟩
  (preflight ++ [true, true, true] ++ rolls ++ rolls)).2

/-- The next run, with the checkpoint: the admin rolls and the gateway's update fails. -/
def continuedRun : Sim := (upgradeGcpInstall smallRelease noHooks { killedRun with calls := [] }
  (preflight ++ [true, true] ++ rolls ++ [true, false, true] ++ [true, true])).2

/-- The continued run says that the previous release serves again, and the gateway is on the killed run's revision. -/
theorem executeAppRoll_leavesGateway :
    Continued smallRelease smallInstall { killedRun with calls := [] } ∧
      upgradeGcpInstall smallRelease noHooks { killedRun with calls := [] }
          (preflight ++ [true, true] ++ rolls ++ [true, false, true] ++ [true, true]) =
        (some (some (.failed .roll true true), []), continuedRun) ∧
      (continuedRun.cloud.service .gateway).serving ≠ (smallInstall.service .gateway).serving ∧
      ¬PutBack smallInstall (adminImage smallRelease) true continuedRun := by
  have hfirst : Continued smallRelease smallInstall ⟨smallInstall, none, [], []⟩ := by
    refine .first fun slug => ?_
    exact Nat.zero_lt_one
  have hkilled : upgradeGcpInstall smallRelease noHooks ⟨smallInstall, none, [], []⟩
      (preflight ++ [true, true, true] ++ rolls ++ rolls) = (none, killedRun) := rfl
  have hserving : (continuedRun.cloud.service .gateway).serving ≠ (smallInstall.service .gateway).serving := by decide
  refine ⟨.killed hfirst hkilled, rfl, hserving, fun h => ?_⟩
  exact hserving (h.serving rfl .gateway)

end CaeloCms.Upgrade
