import Mathlib

/-!
# Evaluating terms that mention one another, with a memo

A *term* mentions names, a name may have a term as its target, and the value of a term is built from the values of
the names it mentions (`Means`).  `evaluate` computes it depth first: it carries the names it has entered, to notice
that it comes back to one of them, and a memo of the names it has finished.  An error ends the evaluation but keeps
the memo.

A memo is *sound* when each entry is the value of its name.  A sound memo stays sound, also when the evaluation
fails, and does not show in the outcome (`evaluate_value_iff`, `evaluate_threw_iff`).
-/

namespace MemoGraph

/-- How a computation with a depth limit ends. -/
inductive Outcome (E V : Type*)
  | cut
  | threw (e : E)
  | value (v : V)

variable {N T V E A B : Type*}

/-- Names with a finished value. -/
abbrev Memo (N V : Type*) := N → Option V

/-- Go on with a value; an error, or the limit, ends the computation where it is. -/
def andThen (x : Outcome E A × Memo N V) (f : A → Memo N V → Outcome E B × Memo N V) : Outcome E B × Memo N V :=
  match x with
  | (.cut, m) => (.cut, m)
  | (.threw e, m) => (.threw e, m)
  | (.value a, m) => f a m

@[simp] theorem andThen_cut (m : Memo N V) (f : A → Memo N V → Outcome E B × Memo N V) :
    andThen (.cut, m) f = (.cut, m) := rfl

@[simp] theorem andThen_threw (e : E) (m : Memo N V) (f : A → Memo N V → Outcome E B × Memo N V) :
    andThen (.threw e, m) f = (.threw e, m) := rfl

@[simp] theorem andThen_value (a : A) (m : Memo N V) (f : A → Memo N V → Outcome E B × Memo N V) :
    andThen (.value a, m) f = f a m := rfl

theorem andThen_assoc {C : Type*} (x : Outcome E A × Memo N V) (f : A → Memo N V → Outcome E B × Memo N V)
    (g : B → Memo N V → Outcome E C × Memo N V) :
    andThen (andThen x f) g = andThen x fun a m => andThen (f a m) g := by
  obtain ⟨o, m⟩ := x
  cases o <;> rfl

theorem andThen_eq_value {x : Outcome E A × Memo N V} {f : A → Memo N V → Outcome E B × Memo N V} {b : B}
    {m : Memo N V} (h : andThen x f = (.value b, m)) : ∃ a m', x = (.value a, m') ∧ f a m' = (.value b, m) := by
  obtain ⟨o, m'⟩ := x
  cases o with
  | cut => cases h
  | threw e => cases h
  | value a => exact ⟨a, m', rfl, h⟩

theorem andThen_congr {x : Outcome E A × Memo N V} {f g : A → Memo N V → Outcome E B × Memo N V}
    (h : ∀ a m, x = (.value a, m) → f a m = g a m) : andThen x f = andThen x g := by
  obtain ⟨o, m⟩ := x
  cases o with
  | cut => rfl
  | threw e => rfl
  | value a => exact h a m rfl

/-- The terms: the names a term mentions in reading order, its value from theirs, the target of a name, and the errors
of a name that is being evaluated already and of a name without target. -/
structure Terms (N T V E : Type*) where
  parts : T → List N
  build : T → List V → V
  target : N → Option T
  cyclic : List N → N → E
  missing : N → E

variable (S : Terms N T V E)

/-! ### What a term means -/

/-- The value of a term: every name it mentions has a target with a value, and it is built from these. -/
inductive Means : T → V → Prop
  | of (t : T) (τ : N → T) (σ : N → V) (htarget : ∀ n ∈ S.parts t, S.target n = some (τ n))
      (hmeans : ∀ n ∈ S.parts t, Means (τ n) (σ n)) : Means t (S.build t ((S.parts t).map σ))

def Worth (n : N) (v : V) : Prop := ∃ t, S.target n = some t ∧ Means S t v

/-- One term leads to another through a name it mentions. -/
def Mentions (t t' : T) : Prop := ∃ n ∈ S.parts t, S.target n = some t'

/-- A cycle can be reached. -/
def Looping (t : T) : Prop := ∃ t', Relation.ReflTransGen (Mentions S) t t' ∧ Relation.TransGen (Mentions S) t' t'

/-- A name without target can be reached. -/
def Dangling (t : T) : Prop := ∃ t' n, Relation.ReflTransGen (Mentions S) t t' ∧ n ∈ S.parts t' ∧ S.target n = none

variable {S}

theorem Means.unique {t : T} {v v' : V} (h : Means S t v) (h' : Means S t v') : v = v' := by
  induction h generalizing v' with
  | of t τ σ htarget _ ih =>
    cases h' with
    | of _ τ' σ' htarget' hmeans' =>
      have hσ : (S.parts t).map σ = (S.parts t).map σ' := by
        refine List.map_congr_left fun n hn => ?_
        have hτ : τ n = τ' n := Option.some.inj ((htarget n hn).symm.trans (htarget' n hn))
        have hm := hmeans' n hn
        rw [← hτ] at hm
        exact ih n hn hm
      rw [hσ]

theorem Worth.unique {n : N} {v v' : V} (h : Worth S n v) (h' : Worth S n v') : v = v' := by
  obtain ⟨t, ht, hv⟩ := h
  obtain ⟨t', ht', hv'⟩ := h'
  obtain rfl : t = t' := Option.some.inj (ht.symm.trans ht')
  exact hv.unique hv'

theorem exists_worth {ns : List N} {vs : List V} (h : List.Forall₂ (Worth S) ns vs) :
    ∀ n ∈ ns, ∃ v, Worth S n v := by
  induction h with
  | nil => simp
  | cons hv _ ih => simpa using ⟨⟨_, hv⟩, ih⟩

theorem eq_map_of_worth {ns : List N} {vs : List V} (h : List.Forall₂ (Worth S) ns vs) {σ : N → V}
    (hσ : ∀ n ∈ ns, Worth S n (σ n)) : vs = ns.map σ := by
  induction h with
  | nil => rfl
  | @cons n v ns vs hv _ ih =>
    have hhead : v = σ n := hv.unique (hσ n List.mem_cons_self)
    rw [List.map_cons, hhead, ih fun n hn => hσ n (List.mem_cons_of_mem _ hn)]

theorem means_of_worth {t : T} {vs : List V} (h : List.Forall₂ (Worth S) (S.parts t) vs) :
    Means S t (S.build t vs) := by
  have hpair : ∀ n, ∃ p : T × V, n ∈ S.parts t → S.target n = some p.1 ∧ Means S p.1 p.2 := by
    intro n
    by_cases hn : n ∈ S.parts t
    · obtain ⟨v, t', ht', hv⟩ := exists_worth h n hn
      exact ⟨(t', v), fun _ => ⟨ht', hv⟩⟩
    · exact ⟨(t, S.build t []), fun h => absurd h hn⟩
  choose ρ hρ using hpair
  have hvs : vs = (S.parts t).map fun n => (ρ n).2 :=
    eq_map_of_worth h fun n hn => ⟨(ρ n).1, (hρ n hn).1, (hρ n hn).2⟩
  rw [hvs]
  exact .of t (fun n => (ρ n).1) (fun n => (ρ n).2) (fun n hn => (hρ n hn).1) fun n hn => (hρ n hn).2

theorem Means.acc {t : T} {v : V} (h : Means S t v) : Acc (fun a b => Mentions S b a) t := by
  induction h with
  | of t τ σ htarget _ ih =>
    refine ⟨t, ?_⟩
    rintro t' ⟨n, hn, ht'⟩
    obtain rfl : t' = τ n := Option.some.inj (ht'.symm.trans (htarget n hn))
    exact ih n hn

theorem Means.worth {t : T} {v : V} (h : Means S t v) {n : N} (hn : n ∈ S.parts t) : ∃ v, Worth S n v := by
  cases h with
  | of _ τ σ htarget hmeans => exact ⟨σ n, τ n, htarget n hn, hmeans n hn⟩

theorem Means.mentions {t t' : T} {v : V} (h : Means S t v) (ht : Mentions S t t') : ∃ v', Means S t' v' := by
  obtain ⟨n, hn, ht'⟩ := ht
  obtain ⟨v', t'', ht'', hv'⟩ := h.worth hn
  obtain rfl : t' = t'' := Option.some.inj (ht'.symm.trans ht'')
  exact ⟨v', hv'⟩

theorem Means.reaches {t t' : T} {v : V} (h : Means S t v) (ht : Relation.ReflTransGen (Mentions S) t t') :
    ∃ v', Means S t' v' := by
  induction ht with
  | refl => exact ⟨v, h⟩
  | tail _ hlast ih =>
    obtain ⟨v', hv'⟩ := ih
    exact hv'.mentions hlast

theorem not_rel_of_acc {r : T → T → Prop} {t : T} (h : Acc r t) : ¬ r t t := by
  induction h with
  | intro t _ ih =>
    intro hr
    exact ih t hr hr

theorem Means.not_cyclic {t : T} {v : V} (h : Means S t v) : ¬ Relation.TransGen (Mentions S) t t := by
  intro hc
  have hacc := not_rel_of_acc h.acc.transGen
  exact hacc (Relation.transGen_swap.mp hc)

theorem Means.not_looping {t : T} {v : V} (h : Means S t v) : ¬ Looping S t := by
  rintro ⟨t', hreach, hc⟩
  obtain ⟨v', hv'⟩ := h.reaches hreach
  exact hv'.not_cyclic hc

theorem Means.not_dangling {t : T} {v : V} (h : Means S t v) : ¬ Dangling S t := by
  rintro ⟨t', n, hreach, hn, hnone⟩
  obtain ⟨v', hv'⟩ := h.reaches hreach
  obtain ⟨w, t'', ht'', _⟩ := hv'.worth hn
  exact absurd (hnone.symm.trans ht'') (Option.some_ne_none _).symm

/-! ### The first trouble -/

variable (S)

/-- The error of the first trouble met when the names of `t` are read in order, depth first, with the names in `seen`
entered: everything read before it has a value. -/
inductive Stops : List N → T → E → Prop
  | cyclic {seen : List N} {t : T} {pre post : List N} {n : N} (hparts : S.parts t = pre ++ n :: post)
      (hpre : ∀ m ∈ pre, ∃ v, Worth S m v) (hseen : n ∈ seen) : Stops seen t (S.cyclic seen n)
  | missing {seen : List N} {t : T} {pre post : List N} {n : N} (hparts : S.parts t = pre ++ n :: post)
      (hpre : ∀ m ∈ pre, ∃ v, Worth S m v) (hseen : n ∉ seen) (htarget : S.target n = none) :
      Stops seen t (S.missing n)
  | deeper {seen : List N} {t t' : T} {pre post : List N} {n : N} {e : E} (hparts : S.parts t = pre ++ n :: post)
      (hpre : ∀ m ∈ pre, ∃ v, Worth S m v) (hseen : n ∉ seen) (htarget : S.target n = some t')
      (hstops : Stops (seen ++ [n]) t' e) : Stops seen t e

/-- Every name entered leads to the term, unless no term mentions it. -/
def Leads (seen : List N) (t : T) : Prop :=
  ∀ s ∈ seen, (∀ t', s ∉ S.parts t') ∨ ∃ t', S.target s = some t' ∧ Relation.ReflTransGen (Mentions S) t' t

variable {S}

theorem Leads.enter {seen : List N} {t t' : T} {n : N} (h : Leads S seen t) (hn : n ∈ S.parts t)
    (ht' : S.target n = some t') : Leads S (seen ++ [n]) t' := by
  intro s hs
  rcases List.mem_append.mp hs with hs | hs
  · rcases h s hs with hunmentioned | ⟨t'', ht'', hreach⟩
    · exact .inl hunmentioned
    · exact .inr ⟨t'', ht'', hreach.tail ⟨n, hn, ht'⟩⟩
  · obtain rfl := List.mem_singleton.mp hs
    exact .inr ⟨t', ht', .refl⟩

theorem Leads.cyclic {seen : List N} {t : T} {n : N} (h : Leads S seen t) (hn : n ∈ S.parts t) (hseen : n ∈ seen) :
    Relation.TransGen (Mentions S) t t := by
  rcases h n hseen with hunmentioned | ⟨t', ht', hreach⟩
  · exact absurd hn (hunmentioned t)
  · exact .head' ⟨n, hn, ht'⟩ hreach

/-- What a name is in trouble with, for names entered before. -/
def InTrouble (S : Terms N T V E) (seen : List N) (n : N) (e : E) : Prop :=
  (n ∈ seen ∧ e = S.cyclic seen n) ∨ (n ∉ seen ∧ S.target n = none ∧ e = S.missing n) ∨
    ∃ t', n ∉ seen ∧ S.target n = some t' ∧ Stops S (seen ++ [n]) t' e

theorem stops_iff {seen : List N} {t : T} {e : E} :
    Stops S seen t e ↔ ∃ pre n post, S.parts t = pre ++ n :: post ∧ (∀ m ∈ pre, ∃ v, Worth S m v) ∧
      InTrouble S seen n e := by
  constructor
  · intro h
    cases h with
    | cyclic hparts hpre hseen => exact ⟨_, _, _, hparts, hpre, .inl ⟨hseen, rfl⟩⟩
    | missing hparts hpre hseen htarget => exact ⟨_, _, _, hparts, hpre, .inr (.inl ⟨hseen, htarget, rfl⟩)⟩
    | deeper hparts hpre hseen htarget hstops =>
      exact ⟨_, _, _, hparts, hpre, .inr (.inr ⟨_, hseen, htarget, hstops⟩)⟩
  · rintro ⟨pre, n, post, hparts, hpre, ⟨hseen, rfl⟩ | ⟨hseen, htarget, rfl⟩ | ⟨t', hseen, htarget, hstops⟩⟩
    · exact .cyclic hparts hpre hseen
    · exact .missing hparts hpre hseen htarget
    · exact .deeper hparts hpre hseen htarget hstops

/-- Trouble is a cycle or a name without target that the term reaches. -/
theorem Stops.cause {seen : List N} {t : T} {e : E} (h : Stops S seen t e) (hleads : Leads S seen t) :
    (Looping S t ∧ ∃ seen' n, e = S.cyclic seen' n) ∨ (Dangling S t ∧ ∃ n, e = S.missing n) := by
  induction h with
  | @cyclic seen t pre post n hparts _ hseen =>
    have hn : n ∈ S.parts t := by simp [hparts]
    exact .inl ⟨⟨t, .refl, hleads.cyclic hn hseen⟩, seen, n, rfl⟩
  | @missing seen t pre post n hparts _ _ htarget =>
    have hn : n ∈ S.parts t := by simp [hparts]
    exact .inr ⟨⟨t, n, .refl, hn, htarget⟩, n, rfl⟩
  | @deeper seen t t' pre post n e hparts _ _ htarget _ ih =>
    have hn : n ∈ S.parts t := by simp [hparts]
    have hstep : Mentions S t t' := ⟨n, hn, htarget⟩
    rcases ih (hleads.enter hn htarget) with ⟨⟨u, hreach, hc⟩, he⟩ | ⟨⟨u, m, hreach, hm, hnone⟩, he⟩
    · exact .inl ⟨⟨u, .head hstep hreach, hc⟩, he⟩
    · exact .inr ⟨⟨u, m, .head hstep hreach, hm, hnone⟩, he⟩

theorem Means.not_stops {seen : List N} {t : T} {v : V} {e : E} (h : Means S t v) (hleads : Leads S seen t) :
    ¬ Stops S seen t e := by
  intro hstops
  rcases hstops.cause hleads with ⟨hloop, _⟩ | ⟨hdangling, _⟩
  · exact h.not_looping hloop
  · exact h.not_dangling hdangling

theorem Worth.not_inTrouble {seen : List N} {t : T} {n : N} {v : V} {e : E} (h : Worth S n v)
    (hleads : Leads S seen t) (hn : n ∈ S.parts t) : ¬ InTrouble S seen n e := by
  obtain ⟨t', ht', hv⟩ := h
  rintro (⟨hseen, _⟩ | ⟨_, hnone, _⟩ | ⟨t'', _, ht'', hstops⟩)
  · have hc : Relation.TransGen (Mentions S) t' t' := by
      rcases hleads n hseen with hunmentioned | ⟨t'', ht'', hreach⟩
      · exact absurd hn (hunmentioned t)
      · obtain rfl : t' = t'' := Option.some.inj (ht'.symm.trans ht'')
        exact .tail' hreach ⟨n, hn, ht'⟩
    exact hv.not_cyclic hc
  · exact Option.some_ne_none _ (ht'.symm.trans hnone)
  · obtain rfl : t' = t'' := Option.some.inj (ht'.symm.trans ht'')
    exact hv.not_stops (hleads.enter hn ht') hstops

theorem split_cases {pre pre' post post' : List N} {n n' : N} (h : pre ++ n :: post = pre' ++ n' :: post') :
    n = n' ∨ n' ∈ pre ∨ n ∈ pre' := by
  rcases List.append_eq_append_iff.mp h with ⟨mid, rfl, hmid⟩ | ⟨mid, rfl, hmid⟩
  · cases mid with
    | nil => exact .inl (List.cons.inj hmid).1
    | cons m mid =>
      obtain ⟨rfl, _⟩ := List.cons.inj hmid
      exact .inr (.inr (by simp))
  · cases mid with
    | nil => exact .inl (List.cons.inj hmid).1.symm
    | cons m mid =>
      obtain ⟨rfl, _⟩ := List.cons.inj hmid
      exact .inr (.inl (by simp))

theorem same_trouble {seen : List N} {t : T} {pre post : List N} {n : N} {e e' : E} (hleads : Leads S seen t)
    (hparts : S.parts t = pre ++ n :: post) (hpre : ∀ m ∈ pre, ∃ v, Worth S m v) (htrouble : InTrouble S seen n e)
    (h' : Stops S seen t e') : InTrouble S seen n e' := by
  obtain ⟨pre', n', post', hparts', hpre', htrouble'⟩ := stops_iff.mp h'
  have hn : n ∈ S.parts t := by simp [hparts]
  have hn' : n' ∈ S.parts t := by simp [hparts']
  rcases split_cases (hparts.symm.trans hparts') with rfl | hmem | hmem
  · exact htrouble'
  · obtain ⟨v, hv⟩ := hpre n' hmem
    exact absurd htrouble' (hv.not_inTrouble hleads hn')
  · obtain ⟨v, hv⟩ := hpre' n hmem
    exact absurd htrouble (hv.not_inTrouble hleads hn)

theorem Stops.unique {seen : List N} {t : T} {e e' : E} (h : Stops S seen t e) (hleads : Leads S seen t)
    (h' : Stops S seen t e') : e = e' := by
  induction h generalizing e' with
  | @cyclic seen t pre post n hparts hpre hseen =>
    rcases same_trouble hleads hparts hpre (.inl ⟨hseen, rfl⟩) h' with ⟨_, rfl⟩ | ⟨hnot, _⟩ | ⟨_, hnot, _⟩
    · rfl
    · exact absurd hseen hnot
    · exact absurd hseen hnot
  | @missing seen t pre post n hparts hpre hseen htarget =>
    rcases same_trouble hleads hparts hpre (.inr (.inl ⟨hseen, htarget, rfl⟩)) h' with
      ⟨hin, _⟩ | ⟨_, _, rfl⟩ | ⟨t', _, ht', _⟩
    · exact absurd hin hseen
    · rfl
    · exact absurd (ht'.symm.trans htarget) (Option.some_ne_none _)
  | @deeper seen t t' pre post n e hparts hpre hseen htarget hstops ih =>
    have hn : n ∈ S.parts t := by simp [hparts]
    rcases same_trouble hleads hparts hpre (.inr (.inr ⟨t', hseen, htarget, hstops⟩)) h' with
      ⟨hin, _⟩ | ⟨_, hnone, _⟩ | ⟨t'', _, ht'', hstops'⟩
    · exact absurd hin hseen
    · exact absurd (htarget.symm.trans hnone) (Option.some_ne_none _)
    · obtain rfl : t' = t'' := Option.some.inj (htarget.symm.trans ht'')
      exact ih (hleads.enter hn htarget) hstops'

/-! ### Evaluation -/

/-- Each entry is the value of its name. -/
def Sound (S : Terms N T V E) (m : Memo N V) : Prop := ∀ n v, m n = some v → Worth S n v

/-- What an evaluation does for a property of its values and one of its errors. -/
def Ends (S : Terms N T V E) (P : A → Prop) (Q : E → Prop) (r : Outcome E A × Memo N V) : Prop :=
  Sound S r.2 ∧ (∀ v, r.1 = .value v → P v) ∧ ∀ e, r.1 = .threw e → Q e

theorem ends_value {P : A → Prop} {Q : E → Prop} {v : A} {m : Memo N V} (hm : Sound S m) (hv : P v) :
    Ends S P Q (.value v, m) :=
  ⟨hm, by rintro _ ⟨⟩; exact hv, by rintro _ ⟨⟩⟩

theorem ends_threw {P : A → Prop} {Q : E → Prop} {e : E} {m : Memo N V} (hm : Sound S m) (he : Q e) :
    Ends S P Q (.threw e, m) :=
  ⟨hm, by rintro _ ⟨⟩, by rintro _ ⟨⟩; exact he⟩

theorem ends_andThen {P : A → Prop} {P' : B → Prop} {Q Q' : E → Prop} {x : Outcome E A × Memo N V}
    {f : A → Memo N V → Outcome E B × Memo N V} (hx : Ends S P Q x) (hthrew : ∀ e, Q e → Q' e)
    (hf : ∀ v m, P v → Sound S m → Ends S P' Q' (f v m)) : Ends S P' Q' (andThen x f) := by
  obtain ⟨o, m⟩ := x
  cases o with
  | cut => exact ⟨hx.1, by rintro _ ⟨⟩, by rintro _ ⟨⟩⟩
  | threw e => exact ends_threw hx.1 (hthrew e (hx.2.2 e rfl))
  | value v => exact hf v m (hx.2.1 v rfl) hx.1

variable [DecidableEq N]

/-- Evaluate names one after another. -/
def inOrder (follow : N → Memo N V → Outcome E V × Memo N V) : List N → Memo N V → Outcome E (List V) × Memo N V
  | [], m => (.value [], m)
  | n :: ns, m =>
    andThen (follow n m) fun v m =>
    andThen (inOrder follow ns m) fun vs m => (.value (v :: vs), m)

theorem inOrder_append {follow : N → Memo N V → Outcome E V × Memo N V} (ns ns' : List N) (m : Memo N V) :
    inOrder follow (ns ++ ns') m =
      andThen (inOrder follow ns m) fun vs m =>
      andThen (inOrder follow ns' m) fun vs' m => (.value (vs ++ vs'), m) := by
  induction ns generalizing m with
  | nil =>
    show inOrder follow ns' m = andThen (inOrder follow ns' m) _
    obtain ⟨o, m'⟩ := inOrder follow ns' m
    cases o <;> rfl
  | cons n ns ih =>
    rw [List.cons_append, inOrder, inOrder, andThen_assoc]
    refine andThen_congr fun v m' _ => ?_
    rw [ih, andThen_assoc, andThen_assoc]
    refine andThen_congr fun vs m'' _ => ?_
    rw [andThen_assoc]
    rfl

theorem inOrder_length {follow : N → Memo N V → Outcome E V × Memo N V} {ns : List N} {vs : List V} {m m' : Memo N V}
    (h : inOrder follow ns m = (.value vs, m')) : vs.length = ns.length := by
  induction ns generalizing vs m m' with
  | nil =>
    cases h
    rfl
  | cons n ns ih =>
    obtain ⟨v, m₁, _, hrest⟩ := andThen_eq_value h
    obtain ⟨ws, m₂, hws, hvs⟩ := andThen_eq_value hrest
    cases hvs
    rw [List.length_cons, List.length_cons, ih hws]

/-- Evaluate a name: an error when it is entered already, its entry of the memo, or the value of its target, which the
memo then keeps. -/
def follow (S : Terms N T V E) (enter : List N → T → Memo N V → Outcome E V × Memo N V) (seen : List N) (n : N)
    (m : Memo N V) : Outcome E V × Memo N V :=
  if n ∈ seen then (.threw (S.cyclic seen n), m)
  else
    match m n with
    | some v => (.value v, m)
    | none =>
      match S.target n with
      | none => (.threw (S.missing n), m)
      | some t => andThen (enter (seen ++ [n]) t m) fun v m => (.value v, Function.update m n (some v))

/-- Evaluate a term, entering at most `depth` terms within one another. -/
def evaluate (S : Terms N T V E) : Nat → List N → T → Memo N V → Outcome E V × Memo N V
  | 0, _, _, m => (.cut, m)
  | depth + 1, seen, t, m =>
    andThen (inOrder (follow S (evaluate S depth) seen) (S.parts t) m) fun vs m => (.value (S.build t vs), m)

theorem Sound.update {m : Memo N V} (h : Sound S m) {n : N} {v : V} (hv : Worth S n v) :
    Sound S (Function.update m n (some v)) := by
  intro n' v' hv'
  by_cases hn : n' = n
  · subst hn
    rw [Function.update_self] at hv'
    obtain rfl := Option.some.inj hv'
    exact hv
  · rw [Function.update_of_ne hn] at hv'
    exact h n' v' hv'

omit [DecidableEq N] in
theorem ends_inOrder {follow : N → Memo N V → Outcome E V × Memo N V} {Q : N → E → Prop} {ns : List N}
    (hfollow : ∀ n ∈ ns, ∀ m, Sound S m → Ends S (Worth S n) (Q n) (follow n m)) {m : Memo N V} (hm : Sound S m) :
    Ends S (List.Forall₂ (Worth S) ns)
      (fun e => ∃ pre n post, ns = pre ++ n :: post ∧ (∀ m ∈ pre, ∃ v, Worth S m v) ∧ Q n e) (inOrder follow ns m) := by
  induction ns generalizing m with
  | nil => exact ends_value hm .nil
  | cons n ns ih =>
    refine ends_andThen (hfollow n List.mem_cons_self m hm) ?_ fun v m hv hm => ?_
    · intro e he
      exact ⟨[], n, ns, rfl, by simp, he⟩
    · refine ends_andThen (ih (fun n' hn' => hfollow n' (List.mem_cons_of_mem _ hn')) hm) ?_ fun vs m hvs hm => ?_
      · rintro e ⟨pre, n', post, rfl, hpre, he⟩
        refine ⟨n :: pre, n', post, rfl, ?_, he⟩
        intro n'' hn''
        rcases List.mem_cons.mp hn'' with rfl | hn''
        · exact ⟨v, hv⟩
        · exact hpre n'' hn''
      · exact ends_value hm (.cons hv hvs)

theorem ends_follow {enter : List N → T → Memo N V → Outcome E V × Memo N V} {seen : List N} {n : N}
    (henter : ∀ t m, Sound S m → Ends S (Means S t) (Stops S (seen ++ [n]) t) (enter (seen ++ [n]) t m))
    {m : Memo N V} (hm : Sound S m) : Ends S (Worth S n) (InTrouble S seen n) (follow S enter seen n m) := by
  unfold follow
  by_cases hseen : n ∈ seen
  · rw [if_pos hseen]
    exact ends_threw hm (.inl ⟨hseen, rfl⟩)
  · rw [if_neg hseen]
    cases hmemo : m n with
    | some v => exact ends_value hm (hm n v hmemo)
    | none =>
      cases htarget : S.target n with
      | none => exact ends_threw hm (.inr (.inl ⟨hseen, htarget, rfl⟩))
      | some t =>
        refine ends_andThen (henter t m hm) ?_ fun v m hv hm => ?_
        · intro e he
          exact .inr (.inr ⟨t, hseen, htarget, he⟩)
        · exact ends_value (hm.update ⟨t, htarget, hv⟩) ⟨t, htarget, hv⟩

/-- With a sound memo, an evaluation ends with the meaning of the term or with its first trouble, and leaves a sound
memo behind. -/
theorem ends_evaluate (depth : Nat) (seen : List N) (t : T) {m : Memo N V} (hm : Sound S m) :
    Ends S (Means S t) (Stops S seen t) (evaluate S depth seen t m) := by
  induction depth generalizing seen t m with
  | zero => exact ⟨hm, by rintro _ ⟨⟩, by rintro _ ⟨⟩⟩
  | succ depth ih =>
    refine ends_andThen (ends_inOrder (fun n _ m hm => ends_follow (fun t m hm => ih _ t hm) hm) hm) ?_ ?_
    · rintro e ⟨pre, n, post, hparts, hpre, htrouble⟩
      exact stops_iff.mpr ⟨pre, n, post, hparts, hpre, htrouble⟩
    · intro vs m hvs hm
      exact ends_value hm (means_of_worth hvs)

/-! ### Depth -/

theorem threw_ne_cut (e : E) : (Outcome.threw e : Outcome E V) ≠ .cut := by rintro ⟨⟩

theorem value_ne_cut (v : V) : (Outcome.value v : Outcome E V) ≠ .cut := by rintro ⟨⟩

omit [DecidableEq N] in
theorem andThen_ne_cut {x : Outcome E A × Memo N V} {f : A → Memo N V → Outcome E B × Memo N V}
    (hx : x.1 ≠ .cut) (hf : ∀ v m, (f v m).1 ≠ .cut) : (andThen x f).1 ≠ .cut := by
  obtain ⟨o, m⟩ := x
  cases o with
  | cut => exact absurd rfl hx
  | threw e => exact threw_ne_cut e
  | value v => exact hf v m

theorem inOrder_ne_cut {follow : N → Memo N V → Outcome E V × Memo N V} {ns : List N}
    (hfollow : ∀ n m, (follow n m).1 ≠ .cut) (m : Memo N V) : (inOrder follow ns m).1 ≠ .cut := by
  induction ns generalizing m with
  | nil => exact value_ne_cut []
  | cons n ns ih =>
    refine andThen_ne_cut (hfollow n m) fun v m => ?_
    exact andThen_ne_cut (ih m) fun vs m => value_ne_cut (v :: vs)

def unseen (names seen : List N) : List N := names.filter (· ∉ seen)

theorem unseen_enter_lt {names seen : List N} {n : N} (hn : n ∈ names) (hseen : n ∉ seen) :
    (unseen names (seen ++ [n])).length < (unseen names seen).length := by
  have hsub : unseen names (seen ++ [n]) = (unseen names seen).filter (· ≠ n) := by
    unfold unseen
    rw [List.filter_filter]
    refine List.filter_congr fun x _ => ?_
    simp [and_comm]
  rw [hsub]
  refine List.length_filter_lt_length_iff_exists.mpr ⟨n, ?_, by simp⟩
  exact List.mem_filter.mpr ⟨hn, by simpa using hseen⟩

theorem evaluate_ne_cut {names : List N} (hnames : ∀ n, S.target n ≠ none → n ∈ names) {depth : Nat} {seen : List N}
    (hdepth : (unseen names seen).length < depth) (t : T) (m : Memo N V) :
    (evaluate S depth seen t m).1 ≠ .cut := by
  induction depth generalizing seen t m with
  | zero => omega
  | succ depth ih =>
    refine andThen_ne_cut (inOrder_ne_cut (fun n m => ?_) m) fun vs m => value_ne_cut (S.build t vs)
    unfold follow
    by_cases hseen : n ∈ seen
    · rw [if_pos hseen]
      exact threw_ne_cut _
    · rw [if_neg hseen]
      cases hmemo : m n with
      | some v => exact value_ne_cut v
      | none =>
        cases htarget : S.target n with
        | none => exact threw_ne_cut _
        | some t =>
          have hn : n ∈ names := hnames n (by simp [htarget])
          have hlt := unseen_enter_lt hn hseen
          exact andThen_ne_cut (ih (by omega) t m) fun v m => value_ne_cut v

/-! ### The outcome -/

section Outcome

variable {names : List N} {depth : Nat} {seen : List N} {t : T} {m : Memo N V}

/-- An evaluation ends with a value exactly when the term has it, whatever a sound memo holds. -/
theorem evaluate_value_iff (hnames : ∀ n, S.target n ≠ none → n ∈ names)
    (hdepth : (unseen names seen).length < depth) (hleads : Leads S seen t) (hm : Sound S m) {v : V} :
    (evaluate S depth seen t m).1 = .value v ↔ Means S t v := by
  have hends := ends_evaluate depth seen t hm
  constructor
  · exact hends.2.1 v
  · intro hv
    cases hout : (evaluate S depth seen t m).1 with
    | cut => exact absurd hout (evaluate_ne_cut hnames hdepth t m)
    | threw e => exact absurd (hends.2.2 e hout) (hv.not_stops hleads)
    | value v' => rw [(hends.2.1 v' hout).unique hv]

/-- An evaluation ends with an error exactly when that is the first trouble, whatever a sound memo holds. -/
theorem evaluate_threw_iff (hnames : ∀ n, S.target n ≠ none → n ∈ names)
    (hdepth : (unseen names seen).length < depth) (hleads : Leads S seen t) (hm : Sound S m) {e : E} :
    (evaluate S depth seen t m).1 = .threw e ↔ Stops S seen t e := by
  have hends := ends_evaluate depth seen t hm
  constructor
  · exact hends.2.2 e
  · intro he
    cases hout : (evaluate S depth seen t m).1 with
    | cut => exact absurd hout (evaluate_ne_cut hnames hdepth t m)
    | threw e' => rw [(hends.2.2 e' hout).unique hleads he]
    | value v => exact absurd he ((hends.2.1 v hout).not_stops hleads)

/-- A term has a value exactly when it reaches neither a cycle nor a name without target. -/
theorem exists_means_iff (hnames : ∀ n, S.target n ≠ none → n ∈ names) :
    (∃ v, Means S t v) ↔ ¬ Looping S t ∧ ¬ Dangling S t := by
  constructor
  · rintro ⟨v, hv⟩
    exact ⟨hv.not_looping, hv.not_dangling⟩
  · rintro ⟨hloop, hdangling⟩
    have hempty : Sound S fun _ : N => (none : Option V) := by rintro n v ⟨⟩
    have hends := ends_evaluate ((unseen names []).length + 1) [] t hempty
    cases hout : (evaluate S ((unseen names []).length + 1) [] t fun _ => none).1 with
    | cut => exact absurd hout (evaluate_ne_cut hnames (Nat.lt_succ_self _) t _)
    | threw e =>
      have hleads : Leads S [] t := by simp [Leads]
      rcases (hends.2.2 e hout).cause hleads with ⟨h, _⟩ | ⟨h, _⟩
      · exact absurd h hloop
      · exact absurd h hdangling
    | value v => exact ⟨v, hends.2.1 v hout⟩

end Outcome

end MemoGraph
