import CaeloCms.Redirect.Replan
import CaeloCms.Shared.Json

/-!
# The redirects of a GCP path matcher

`withGcpRedirects` of `redirect-emit-gcp.ts`: the redirect rules of a path matcher are replaced by a plan's, everything
else stays.  Whether a plan is accepted depends on what stays only, so a run of publishes leaves the matcher with the rules
of the last plan that was accepted (`publishAll_eq`).
-/

namespace CaeloCms.Redirect

variable (parseUrl : List Char → Option Url)

/-! ### Path matchers -/

/-- The fields of a resource that nothing here reads. -/
abbrev OtherFields := List (String × Json)

structure GcpMatcherRule extends GcpPathRule where
  other : OtherFields

structure GcpPathMatcher where
  name : List Char
  pathRules : Option (List GcpMatcherRule)
  routeRules : Option (List Json)
  other : OtherFields

def gcpUrlMapMaxPathRules : Nat := 1000

def gcpUrlMapMaxPredicates : Nat := 1000

/-- What `withGcpRedirects` throws. -/
inductive GcpRedirectError
  | message (text : String)
  | budget (redirectCount predicatesNeeded rulesNeeded : Nat)
deriving DecidableEq, Repr

def GcpRedirectError.text : GcpRedirectError → String
  | .message text => text
  | .budget redirectCount predicatesNeeded rulesNeeded =>
    s!"The GCP load balancer serves at most {gcpUrlMapMaxPredicates} redirect paths and {gcpUrlMapMaxPathRules} rules per site (a fixed URL-map quota); this site's {redirectCount} redirect(s) need {predicatesNeeded} paths and {rulesNeeded} rules, counting the site's own routing. Nothing was published and the live redirects are unchanged. Next step: delete redirects nobody links to any more (find_redirects lists them, bulk_delete_redirects removes them) — every redirect whose old URL ends in '/' or not costs two paths, a file-like one ('/old.html') costs one — then publish again. Serving larger redirect sets on this provider is tracked in https://github.com/caelo-cms/caelo-cms/issues/751."

def isGcpRedirectRule (rule : GcpMatcherRule) : Bool := rule.urlRedirect.isSome && rule.service.isNone

def GcpPathMatcher.rules (matcher : GcpPathMatcher) : List GcpMatcherRule := matcher.pathRules.getD []

/-- The rules that `withGcpRedirects` keeps. -/
def GcpPathMatcher.kept (matcher : GcpPathMatcher) : List GcpMatcherRule :=
  matcher.rules.filter fun rule => !isGcpRedirectRule rule

def GcpPathMatcher.hasRouteRules (matcher : GcpPathMatcher) : Bool := !(matcher.routeRules.getD []).isEmpty

def writtenRules (plan : RedirectPlan) : Except String (List GcpMatcherRule) :=
  (gcpRedirectPathRules parseUrl plan).map fun rules => rules.map fun rule => ⟨rule, []⟩

def predicateCount (rules : List GcpMatcherRule) : Nat := (rules.map fun rule => rule.paths.length).sum

def overBudget (rules : List GcpMatcherRule) : Bool :=
  gcpUrlMapMaxPredicates < predicateCount rules || gcpUrlMapMaxPathRules < rules.length

def withGcpRedirects (matcher : GcpPathMatcher) (plan : RedirectPlan) : Except GcpRedirectError GcpPathMatcher :=
  if matcher.hasRouteRules then
    .error (.message s!"redirect-emit-gcp: path matcher {shown matcher.name} uses routeRules; a path matcher holds either pathRules or routeRules, and Caelo's stack writes pathRules. The URL map was changed outside the stack — restore it with the installer, then publish again.")
  else
    match writtenRules parseUrl plan with
    | .error text => .error (.message text)
    | .ok redirects =>
      let pathRules := matcher.kept ++ redirects
      if overBudget pathRules then
        .error (.budget redirects.length (predicateCount pathRules) pathRules.length)
      else .ok { matcher with pathRules := some pathRules }

def publish (matcher : GcpPathMatcher) (plan : RedirectPlan) : GcpPathMatcher :=
  match withGcpRedirects parseUrl matcher plan with
  | .ok next => next
  | .error _ => matcher

def publishAll (matcher : GcpPathMatcher) (plans : List RedirectPlan) : GcpPathMatcher :=
  plans.foldl (publish parseUrl) matcher

def accepts (matcher : GcpPathMatcher) (plan : RedirectPlan) : Bool := (withGcpRedirects parseUrl matcher plan).isOk

/-! ### What stays -/

/-- Everything of a matcher but its redirect rules is in the other, the rules first and in their order. -/
structure Framed (matcher next : GcpPathMatcher) : Prop where
  name : next.name = matcher.name
  other : next.other = matcher.other
  routeRules : next.routeRules = matcher.routeRules
  kept : next.kept = matcher.kept
  first : next.rules = matcher.rules ∨ matcher.kept <+: next.rules

variable {parseUrl} {matcher next : GcpPathMatcher} {plan : RedirectPlan}

theorem toPathRule_redirects {r : PlannedRedirect} {rule : GcpPathRule} (h : toPathRule parseUrl r = .ok rule) :
    rule.service = none ∧ ∃ redirect, rule.urlRedirect = some redirect ∧
      redirect.redirectResponseCode = responseCode r.statusCode := by
  unfold toPathRule at h
  split at h
  · cases h
  split at h
  · cases h
  dsimp only at h
  split at h
  · split at h
    · cases h
    · cases h
      exact ⟨rfl, _, rfl, rfl⟩
  · cases h
    exact ⟨rfl, _, rfl, rfl⟩

theorem writtenRules_spec {rules : List GcpMatcherRule} (h : writtenRules parseUrl plan = .ok rules) :
    ∀ rule ∈ rules, isGcpRedirectRule rule = true ∧ ∃ r ∈ plan.redirects, ∃ redirect, rule.urlRedirect = some redirect ∧
      redirect.redirectResponseCode = responseCode r.statusCode := by
  obtain ⟨paths, hpaths, rfl⟩ := exists_of_map_ok h
  intro rule hrule
  obtain ⟨path, hpath, rfl⟩ := List.mem_map.1 hrule
  obtain ⟨r, hr, hto⟩ := exists_of_mapM_ok hpaths path hpath
  obtain ⟨hservice, redirect, hredirect, hcode⟩ := toPathRule_redirects hto
  exact ⟨by simp [isGcpRedirectRule, hservice, hredirect], r, hr, redirect, hredirect, hcode⟩

theorem withGcpRedirects_eq_ok :
    withGcpRedirects parseUrl matcher plan = .ok next ↔
      matcher.hasRouteRules = false ∧ ∃ redirects, writtenRules parseUrl plan = .ok redirects ∧
        overBudget (matcher.kept ++ redirects) = false ∧
          next = { matcher with pathRules := some (matcher.kept ++ redirects) } := by
  unfold withGcpRedirects
  cases hroute : matcher.hasRouteRules with
  | true =>
    rw [if_pos rfl]
    constructor
    · intro h
      cases h
    · rintro ⟨h, -⟩
      cases h
  | false =>
    rw [if_neg Bool.false_ne_true]
    cases hwritten : writtenRules parseUrl plan with
    | error text =>
      constructor
      · intro h
        cases h
      · rintro ⟨-, redirects, hredirects, -⟩
        cases hredirects
    | ok redirects =>
      dsimp only
      cases hover : overBudget (matcher.kept ++ redirects) with
      | true =>
        rw [if_pos rfl]
        constructor
        · intro h
          cases h
        · rintro ⟨-, redirects', hredirects, hover', -⟩
          obtain rfl := Except.ok.inj hredirects
          rw [hover] at hover'
          cases hover'
      | false =>
        rw [if_neg Bool.false_ne_true]
        constructor
        · intro h
          cases h
          exact ⟨rfl, redirects, rfl, hover, rfl⟩
        · rintro ⟨-, redirects', hredirects, -, rfl⟩
          cases hredirects
          rfl

theorem kept_of_written {rules : List GcpMatcherRule} (h : writtenRules parseUrl plan = .ok rules) :
    (matcher.kept ++ rules).filter (fun rule => !isGcpRedirectRule rule) = matcher.kept := by
  have hnone : rules.filter (fun rule => !isGcpRedirectRule rule) = [] := by
    rw [List.filter_eq_nil_iff]
    intro rule hrule
    simp [(writtenRules_spec h rule hrule).1]
  rw [List.filter_append, hnone, List.append_nil]
  unfold GcpPathMatcher.kept
  rw [List.filter_filter]
  simp only [Bool.and_self]

theorem framed_of_ok (h : withGcpRedirects parseUrl matcher plan = .ok next) : Framed matcher next := by
  obtain ⟨-, redirects, hwritten, -, rfl⟩ := withGcpRedirects_eq_ok.1 h
  exact ⟨rfl, rfl, rfl, kept_of_written hwritten, Or.inr (List.prefix_append _ _)⟩

theorem withGcpRedirects_congr {matcher' : GcpPathMatcher} (h : Framed matcher matcher') (plan : RedirectPlan) :
    withGcpRedirects parseUrl matcher' plan = withGcpRedirects parseUrl matcher plan := by
  have hroute : matcher'.hasRouteRules = matcher.hasRouteRules := by
    unfold GcpPathMatcher.hasRouteRules
    rw [h.routeRules]
  unfold withGcpRedirects
  rw [hroute, h.name, h.kept, h.routeRules, h.other]

/-! ### Runs of publishes -/

theorem Framed.refl (matcher : GcpPathMatcher) : Framed matcher matcher := ⟨rfl, rfl, rfl, rfl, Or.inl rfl⟩

theorem Framed.trans {last : GcpPathMatcher} (h : Framed matcher next) (h' : Framed next last) : Framed matcher last := by
  refine ⟨h'.name.trans h.name, h'.other.trans h.other, h'.routeRules.trans h.routeRules, h'.kept.trans h.kept, ?_⟩
  rcases h'.first with hsame | hfirst
  · rw [hsame]
    exact h.first
  · rw [h.kept] at hfirst
    exact Or.inr hfirst

theorem publish_framed (matcher : GcpPathMatcher) (plan : RedirectPlan) : Framed matcher (publish parseUrl matcher plan) := by
  unfold publish
  cases hnext : withGcpRedirects parseUrl matcher plan with
  | ok next => exact framed_of_ok hnext
  | error e => exact .refl matcher

theorem publishAll_append (matcher : GcpPathMatcher) (plans : List RedirectPlan) (plan : RedirectPlan) :
    publishAll parseUrl matcher (plans ++ [plan]) = publish parseUrl (publishAll parseUrl matcher plans) plan := by
  unfold publishAll
  rw [List.foldl_append, List.foldl_cons, List.foldl_nil]

theorem publishAll_framed (matcher : GcpPathMatcher) (plans : List RedirectPlan) :
    Framed matcher (publishAll parseUrl matcher plans) := by
  induction plans using List.reverseRecOn with
  | nil => exact .refl matcher
  | append_singleton plans plan ih =>
    rw [publishAll_append]
    exact ih.trans (publish_framed _ plan)

theorem publishAll_eq (matcher : GcpPathMatcher) (plans : List RedirectPlan) :
    publishAll parseUrl matcher plans =
      ((plans.filter (accepts parseUrl matcher)).getLast?).elim matcher (publish parseUrl matcher) := by
  induction plans using List.reverseRecOn with
  | nil => rfl
  | append_singleton plans plan ih =>
    have hcongr := @withGcpRedirects_congr parseUrl matcher _ (@publishAll_framed parseUrl matcher plans) plan
    rw [publishAll_append, List.filter_append]
    cases hplan : withGcpRedirects parseUrl matcher plan with
    | ok next =>
      have haccepts : accepts parseUrl matcher plan = true := by
        unfold accepts
        rw [hplan]
        rfl
      rw [hplan] at hcongr
      rw [List.filter_cons_of_pos haccepts, List.filter_nil, List.getLast?_append, List.getLast?_singleton]
      unfold publish
      rw [hcongr]
      simp [hplan]
    | error e =>
      have hrefused : ¬ accepts parseUrl matcher plan = true := by
        unfold accepts
        rw [hplan]
        exact Bool.false_ne_true
      rw [hplan] at hcongr
      rw [List.filter_cons_of_neg hrefused, List.filter_nil, List.append_nil, ← ih]
      unfold publish
      rw [hcongr]

structure Overwrites (parseUrl : List Char → Option Url) (matcher : GcpPathMatcher) : Prop where
  again : ∀ p₁ p₂ once, withGcpRedirects parseUrl matcher p₁ = .ok once →
    withGcpRedirects parseUrl once p₂ = withGcpRedirects parseUrl matcher p₂
  rules : ∀ plan next, withGcpRedirects parseUrl matcher plan = .ok next →
    ∃ redirects, writtenRules parseUrl plan = .ok redirects ∧ next.rules = matcher.kept ++ redirects
  routeRules : ∀ plan next, withGcpRedirects parseUrl matcher plan = .ok next → next.routeRules.getD [] = []
  framed : ∀ plans, Framed matcher (publishAll parseUrl matcher plans)
  last : ∀ plans, publishAll parseUrl matcher plans =
    ((plans.filter (accepts parseUrl matcher)).getLast?).elim matcher (publish parseUrl matcher)
  budget : ∀ plan redirects, matcher.hasRouteRules = false → writtenRules parseUrl plan = .ok redirects →
    overBudget (matcher.kept ++ redirects) = true →
      (∃ predicates rules, withGcpRedirects parseUrl matcher plan = .error (.budget redirects.length predicates rules)) ∧
        publish parseUrl matcher plan = matcher

theorem withGcpRedirects_overwrites (parseUrl : List Char → Option Url) (matcher : GcpPathMatcher) :
    Overwrites parseUrl matcher where
  again p₁ p₂ once h := withGcpRedirects_congr (framed_of_ok h) p₂
  rules plan next h := by
    obtain ⟨-, redirects, hwritten, -, rfl⟩ := withGcpRedirects_eq_ok.1 h
    exact ⟨redirects, hwritten, rfl⟩
  routeRules plan next h := by
    obtain ⟨hroute, redirects, -, -, rfl⟩ := withGcpRedirects_eq_ok.1 h
    simpa [GcpPathMatcher.hasRouteRules] using hroute
  framed plans := publishAll_framed matcher plans
  last plans := publishAll_eq matcher plans
  budget plan redirects hroute hwritten hover := by
    have herror : withGcpRedirects parseUrl matcher plan = .error (.budget redirects.length
        (predicateCount (matcher.kept ++ redirects)) (matcher.kept ++ redirects).length) := by
      unfold withGcpRedirects
      rw [hroute, hwritten]
      simp only [Bool.false_eq_true, if_false, hover, if_true]
    refine ⟨⟨_, _, herror⟩, ?_⟩
    unfold publish
    rw [herror]

/-- A redirect that no plan can have written. -/
def promoRule : GcpMatcherRule :=
  ⟨⟨["/promo".toList], none, some ⟨none, some "/sale".toList, some .seeOther, some false⟩⟩, []⟩

theorem responseCode_ne_seeOther (status : Nat) : responseCode status ≠ some .seeOther := by
  unfold responseCode
  repeat'
    split
    · simp
  simp

/-- A rule that is not of any plan, but looks like one, is dropped. -/
theorem withGcpRedirects_drops_foreign :
    ¬ ∀ (parseUrl : List Char → Option Url) (matcher : GcpPathMatcher) (plan : RedirectPlan) (next : GcpPathMatcher),
      withGcpRedirects parseUrl matcher plan = .ok next → ∀ rule ∈ matcher.rules,
        (∀ plan rules, writtenRules parseUrl plan = .ok rules → rule ∉ rules) → rule ∈ next.rules := by
  intro hall
  have hnext : withGcpRedirects (fun _ => none) ⟨"public".toList, some [promoRule], none, []⟩ ⟨[], [], []⟩ =
      .ok ⟨"public".toList, some [], none, []⟩ := by
    refine withGcpRedirects_eq_ok.2 ⟨rfl, [], rfl, by decide, rfl⟩
  have hmem := hall _ _ _ _ hnext promoRule (List.mem_singleton_self _) ?_
  · cases hmem
  · intro plan rules hrules hrule
    obtain ⟨-, r, -, redirect, hredirect, hcode⟩ := writtenRules_spec hrules promoRule hrule
    cases hredirect
    exact responseCode_ne_seeOther _ hcode.symm

end CaeloCms.Redirect
