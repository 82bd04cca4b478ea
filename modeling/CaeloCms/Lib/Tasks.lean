import Mathlib

/-!
# Tasks that run side by side

A task calls operations on a shared state, one at a time, and goes on with what each call replies.  The calls of several
tasks come in any order.  A batch is over when all of its tasks are done, or fails with the error of one of them.

`Outline.ends`: an assertion for every point of every task, which the task's own calls carry on and the calls of the
others do not disturb, holds of all tasks together whatever the order was.
-/

namespace Tasks

inductive Task (Op : Type) (Reply : Op → Type) (Err : Type) where
  | done
  | fail (e : Err)
  | call (op : Op) (next : Except Err (Reply op) → Task Op Reply Err)

variable {ι Op State Err : Type} {Reply : Op → Type}

abbrev Machine (Op : Type) (Reply : Op → Type) (Err State : Type) :=
  (op : Op) → State → Except Err (Reply op) → State → Prop

variable [DecidableEq ι] (machine : Machine Op Reply Err State)

/-- One call of one of the tasks. -/
inductive Step : (ι → Task Op Reply Err) × State → (ι → Task Op Reply Err) × State → Prop where
  | call {tasks : ι → Task Op Reply Err} {s s' : State} (i : ι) (op : Op)
      (next : Except Err (Reply op) → Task Op Reply Err) (reply : Except Err (Reply op))
      (htask : tasks i = .call op next) (hmachine : machine op s reply s') :
      Step (tasks, s) (Function.update tasks i (next reply), s')

abbrev Phase (State Err : Type) := State → Except Err State → Prop

inductive Batch (tasks : ι → Task Op Reply Err) : Phase State Err where
  | done {s s' : State} {tasks' : ι → Task Op Reply Err}
      (hrun : Relation.ReflTransGen (Step machine) (tasks, s) (tasks', s')) (hdone : ∀ i, tasks' i = .done) :
      Batch tasks s (.ok s')
  | fail {s s' : State} {tasks' : ι → Task Op Reply Err} (i : ι) (e : Err)
      (hrun : Relation.ReflTransGen (Step machine) (tasks, s) (tasks', s')) (hfail : tasks' i = .fail e) :
      Batch tasks s (.error e)

/-- Assertions that stay true of every task, at whatever point it is. -/
structure Outline (holds : State → Prop) (at_ : ι → Task Op Reply Err → State → Prop) : Prop where
  always : ∀ i op next s reply s', holds s → at_ i (.call op next) s → machine op s reply s' → holds s'
  own : ∀ i op next s reply s', holds s → at_ i (.call op next) s → machine op s reply s' → at_ i (next reply) s'
  other : ∀ i j task op next s reply s', i ≠ j → holds s → at_ i task s → at_ j (.call op next) s →
    machine op s reply s' → at_ i task s'

variable {machine} {holds : State → Prop} {at_ : ι → Task Op Reply Err → State → Prop}

theorem Outline.step (h : Outline machine holds at_) {c c' : (ι → Task Op Reply Err) × State}
    (hstep : Step machine c c') (hc : holds c.2 ∧ ∀ i, at_ i (c.1 i) c.2) : holds c'.2 ∧ ∀ i, at_ i (c'.1 i) c'.2 := by
  obtain ⟨hholds, hat⟩ := hc
  obtain ⟨j, op, next, reply, htask, hmachine⟩ := hstep
  dsimp only at hholds hat ⊢
  have hj := hat j
  rw [htask] at hj
  refine ⟨h.always j op next _ _ _ hholds hj hmachine, fun i => ?_⟩
  by_cases hi : i = j
  · subst hi
    rw [Function.update_self]
    exact h.own i op next _ _ _ hholds hj hmachine
  · rw [Function.update_of_ne hi]
    exact h.other i j _ op next _ _ _ hi hholds (hat i) hj hmachine

theorem Outline.run (h : Outline machine holds at_) {c c' : (ι → Task Op Reply Err) × State}
    (hrun : Relation.ReflTransGen (Step machine) c c') (hc : holds c.2 ∧ ∀ i, at_ i (c.1 i) c.2) :
    holds c'.2 ∧ ∀ i, at_ i (c'.1 i) c'.2 := by
  induction hrun with
  | refl => exact hc
  | tail _ hstep ih => exact h.step hstep ih

/-- A phase ends only in states that satisfy `post`, and fails only if `trouble`. -/
def Meets (phase : Phase State Err) (s : State) (post : State → Prop) (trouble : Prop) : Prop :=
  (∀ s', phase s (.ok s') → post s') ∧ ∀ e, phase s (.error e) → trouble

variable {s : State} {trouble : Prop} {post : State → Prop}

theorem Outline.ends (h : Outline machine holds at_) {tasks : ι → Task Op Reply Err}
    (hholds : holds s) (hat : ∀ i, at_ i (tasks i) s) (htrouble : ∀ i e s', at_ i (.fail e) s' → trouble) :
    Meets (Batch machine tasks) s (fun s' => holds s' ∧ ∀ i, at_ i .done s') trouble := by
  constructor
  · rintro s' (⟨hrun, hdone⟩ | _)
    have hend := h.run hrun ⟨hholds, hat⟩
    exact ⟨hend.1, fun i => hdone i ▸ hend.2 i⟩
  · rintro e (_ | ⟨i, _, hrun, hfail⟩)
    have hend := (h.run hrun ⟨hholds, hat⟩).2 i
    dsimp only at hend
    rw [hfail] at hend
    exact htrouble i e _ hend

/-! ### Phases one after another -/

inductive Phase.andThen (first : Phase State Err) (second : Phase State Err) : Phase State Err where
  | ok {s s' : State} {result : Except Err State} (hfirst : first s (.ok s')) (hsecond : second s' result) :
      andThen first second s result
  | error {s : State} (e : Err) (hfirst : first s (.error e)) : andThen first second s (.error e)

/-- Nothing to do. -/
inductive Phase.skip : Phase State Err where
  | here (s : State) : skip s (.ok s)

def Phase.each (phases : List (Phase State Err)) : Phase State Err := phases.foldr Phase.andThen Phase.skip

theorem Meets.mono {phase : Phase State Err} {post' : State → Prop}
    (h : Meets phase s post trouble) (hpost : ∀ s', post s' → post' s') : Meets phase s post' trouble :=
  ⟨fun s' hs' => hpost s' (h.1 s' hs'), h.2⟩

theorem Meets.andThen {first second : Phase State Err} {mid : State → Prop}
    (hfirst : Meets first s mid trouble) (hsecond : ∀ s', mid s' → Meets second s' post trouble) :
    Meets (first.andThen second) s post trouble := by
  constructor
  · rintro s' (⟨h₁, h₂⟩ | _)
    exact (hsecond _ (hfirst.1 _ h₁)).1 _ h₂
  · rintro e (⟨h₁, h₂⟩ | ⟨_, h₁⟩)
    · exact (hsecond _ (hfirst.1 _ h₁)).2 _ h₂
    · exact hfirst.2 e h₁

theorem Meets.skip (h : post s) :
    Meets (Phase.skip : Phase State Err) s post trouble := by
  constructor
  · rintro s' ⟨⟩
    exact h
  · rintro e ⟨⟩

theorem Meets.each {κ : Type} {phase : κ → Phase State Err} {inv : List κ → State → Prop}
    (hlevel : ∀ level rest s, inv (level :: rest) s → Meets (phase level) s (inv rest) trouble) (levels : List κ)
    (h : inv levels s) : Meets (Phase.each (levels.map phase)) s (inv []) trouble := by
  induction levels generalizing s with
  | nil => exact .skip h
  | cons level rest ih => exact (hlevel level rest s h).andThen fun s' hs' => ih hs'

/-! ### A phase comes to something -/

def Total (phase : Phase State Err) : Prop := ∀ s, ∃ result, phase s result

theorem Total.skip : Total (Phase.skip : Phase State Err) := fun s => ⟨.ok s, .here s⟩

theorem Total.andThen {first second : Phase State Err} (hfirst : Total first) (hsecond : Total second) :
    Total (first.andThen second) := by
  intro s
  obtain ⟨_ | s', h₁⟩ := hfirst s
  · exact ⟨_, .error _ h₁⟩
  · obtain ⟨result, h₂⟩ := hsecond s'
    exact ⟨result, .ok h₁ h₂⟩

theorem Total.each {phases : List (Phase State Err)} (h : ∀ phase ∈ phases, Total phase) : Total (Phase.each phases) := by
  induction phases with
  | nil => exact .skip
  | cons phase phases ih =>
    exact (h phase List.mem_cons_self).andThen (ih fun p hp => h p (List.mem_cons_of_mem _ hp))

theorem exists_finished (hreplies : ∀ op s, ∃ reply s', machine op s reply s') (task : Task Op Reply Err) :
    ∀ (tasks : ι → Task Op Reply Err) (i : ι) (s : State), tasks i = task →
      ∃ tasks' s', Relation.ReflTransGen (Step machine) (tasks, s) (tasks', s') ∧
        (tasks' i = .done ∨ ∃ e, tasks' i = .fail e) ∧ ∀ j, j ≠ i → tasks' j = tasks j := by
  induction task with
  | done => exact fun tasks i s h => ⟨tasks, s, .refl, .inl h, fun _ _ => rfl⟩
  | fail e => exact fun tasks i s h => ⟨tasks, s, .refl, .inr ⟨e, h⟩, fun _ _ => rfl⟩
  | call op next ih =>
    intro tasks i s h
    obtain ⟨reply, s', hmachine⟩ := hreplies op s
    obtain ⟨tasks', s'', hrun, hend, hothers⟩ :=
      ih reply (Function.update tasks i (next reply)) i s' (Function.update_self ..)
    refine ⟨tasks', s'', .head (.call i op next reply h hmachine) hrun, hend, fun j hj => ?_⟩
    rw [hothers j hj, Function.update_of_ne hj]

theorem Batch.head {tasks tasks' : ι → Task Op Reply Err} {s' : State} {result : Except Err State}
    (hrun : Relation.ReflTransGen (Step machine) (tasks, s) (tasks', s')) (h : Batch machine tasks' s' result) :
    Batch machine tasks s result := by
  rcases h with ⟨hrest, hdone⟩ | ⟨i, e, hrest, hfail⟩
  · exact .done (hrun.trans hrest) hdone
  · exact .fail i e (hrun.trans hrest) hfail

theorem Total.batch (hreplies : ∀ op s, ∃ reply s', machine op s reply s') (items : List ι) :
    ∀ tasks : ι → Task Op Reply Err, (∀ i, i ∉ items → tasks i = .done) → Total (Batch machine tasks) := by
  induction items with
  | nil => exact fun tasks h s => ⟨.ok s, .done .refl fun i => h i List.not_mem_nil⟩
  | cons i items ih =>
    intro tasks h s
    obtain ⟨tasks', s', hrun, hend | ⟨e, hfail⟩, hothers⟩ := exists_finished hreplies (tasks i) tasks i s rfl
    · have hrest : ∀ j, j ∉ items → tasks' j = .done := by
        intro j hj
        by_cases hji : j = i
        · rw [hji, hend]
        · rw [hothers j hji, h j (by simp [hji, hj])]
      obtain ⟨result, hresult⟩ := ih tasks' hrest s'
      exact ⟨result, hresult.head hrun⟩
    · exact ⟨.error e, .fail i e hrun hfail⟩

end Tasks
