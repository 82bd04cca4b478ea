import CaeloCms.Redirect.Plan

/-!
# Following a redirect plan

A browser takes the answered Location, drops what follows the first `?` or `#`, and asks for that path.  A planned
chain ends where no further row goes on, so a Location without a query or fragment leads to a path that no entry of
the plan redirects (`PlanOk.redirectAt_location`).
-/

namespace CaeloCms.Redirect

def RedirectPlan.redirectAt (plan : RedirectPlan) (path : List Char) : Option PlannedRedirect :=
  plan.redirects.find? fun r => r.matchPaths.contains path

/-- A Location up to its first `?` or `#`. -/
def locationPath (location : List Char) : List Char := location.takeWhile fun c => !isQueryMark c

def RedirectPlan.hop (plan : RedirectPlan) (path : List Char) : Option (List Char) :=
  (plan.redirectAt path).bind fun r =>
    if isExternalRedirectTarget r.location then none else some (locationPath r.location)

/-- The paths asked for, from `path` on, in at most `n` hops. -/
def RedirectPlan.walk (plan : RedirectPlan) : Nat → List Char → List (List Char)
  | 0, path => [path]
  | n + 1, path =>
    match plan.hop path with
    | none => [path]
    | some next => path :: plan.walk n next

variable {parseUrl : List Char → Option Url}

variable {plan : RedirectPlan} {live : List NormalisedRow} {path : List Char} {r : PlannedRedirect}
  {style : RedirectPageUrlStyle}

theorem redirectAt_spec
    (h : plan.redirectAt path = some r) : r ∈ plan.redirects ∧ path ∈ r.matchPaths :=
  ⟨List.mem_of_find?_eq_some h, by simpa using List.find?_some h⟩

theorem locationPath_of_no_mark {location : List Char} (h : hasQueryMark location = false) :
    locationPath location = location := by
  refine List.takeWhile_eq_self_iff.2 fun c hc => ?_
  simpa using List.any_eq_false.1 h c hc

theorem not_live_of_chain_end (hnodup : (live.map (·.bare)).Nodup) {target : List Char}
    (hend : nextHop live target = none) (hmark : hasQueryMark target = false)
    (hext : isExternalRedirectTarget target = false) {row : NormalisedRow} (hrow : row ∈ live)
    (hgone : row.statusCode ≠ goneStatus) : row.bare ≠ stripTrailingSlash target := by
  intro heq
  have hfound : live.find? (fun r => r.bare == stripTrailingSlash target) = some row := by
    cases hf : live.find? fun r => r.bare == stripTrailingSlash target with
    | none => exact absurd (by simpa using heq) (List.find?_eq_none.1 hf row hrow)
    | some r =>
      have hbare : r.bare = stripTrailingSlash target := by simpa using List.find?_some hf
      have hsame := List.inj_on_of_nodup_map hnodup (List.mem_of_find?_eq_some hf) hrow (hbare.trans heq.symm)
      rw [hsame]
  unfold nextHop at hend
  simp [hmark, hext, hfound, hgone] at hend

theorem PlanOk.head_of_redirectAt
    (h : PlanOk parseUrl style live plan)
    (hat : plan.redirectAt path = some r) : path.head? = some '/' := by
  obtain ⟨hr, hmatch⟩ := redirectAt_spec hat
  obtain ⟨row, hrow, -, hfrom, target, hentry⟩ := h.redirects r hr
  have hok := h.rows row hrow
  rw [hentry.matches_eq, hfrom] at hmatch
  have hcons : row.bare ≠ [] := by
    intro hnil
    have hhead := hok.head
    rw [hnil] at hhead
    cases hhead
  rcases mem_matchPathsFor hmatch with heq | heq
  · rw [heq]
    exact hok.head
  · rw [heq, List.head?_append_of_ne_nil _ hcons]
    exact hok.head

theorem PlanOk.redirectAt_location
    (h : PlanOk parseUrl style live plan) (hr : r ∈ plan.redirects)
    (hmark : hasQueryMark r.location = false) : plan.redirectAt r.location = none := by
  cases hat : plan.redirectAt r.location with
  | none => rfl
  | some r' =>
    exfalso
    obtain ⟨hr', hmatch⟩ := redirectAt_spec hat
    obtain ⟨row, hrow, hgone, hfrom, target', hentry'⟩ := h.redirects r' hr'
    obtain ⟨-, -, -, -, target, hentry⟩ := h.redirects r hr
    have hok := h.rows row hrow
    rw [hentry'.matches_eq, hfrom] at hmatch
    have hstrip : stripTrailingSlash r.location = row.bare :=
      strip_of_mem_matchPathsFor hok.head hok.stripped hmatch
    have hhead := h.head_of_redirectAt hat
    -- the Location is a path of this site, so the chain ended at one
    have hext : isExternalRedirectTarget target = false := by
      by_contra hext
      have hext : isExternalRedirectTarget target = true := by simpa using hext
      have hloc : r.location = target := by
        rw [hentry.location, locationFor, if_pos hext]
      rw [hloc, head_of_external hext] at hhead
      exact absurd hhead (by decide)
    have htarget : target.head? = some '/' := by
      rcases servable_cases hentry.servable with ⟨hext', -⟩ | ⟨-, hhead', -⟩
      · rw [hext] at hext'
        cases hext'
      · exact hhead'
    refine not_live_of_chain_end h.nodup hentry.chain ?_ hext hrow hgone ?_
    · rcases locationFor_cases target style with heq | ⟨-, -, hmark'⟩
      · rw [← heq, ← hentry.location]
        exact hmark
      · exact hmark'
    · rcases locationFor_cases target style with heq | ⟨heq, -, -⟩
      · rw [← hstrip, hentry.location, heq]
      · rw [← hstrip, hentry.location, heq, strip_append_slash htarget]

theorem PlanOk.redirectAt_external
    (h : PlanOk parseUrl style live plan) {location : List Char} (hext : isExternalRedirectTarget location = true) :
    plan.redirectAt (locationPath location) = none := by
  cases hat : plan.redirectAt (locationPath location) with
  | none => rfl
  | some r =>
    have hhead := h.head_of_redirectAt hat
    obtain ⟨rest, rfl⟩ := List.isPrefixOf_iff_prefix.1 hext
    have hh : (locationPath ("https://".toList ++ rest)).head? = some 'h' := rfl
    rw [hh] at hhead
    exact absurd hhead (by decide)

theorem PlanOk.mark_of_hop
    (h : PlanOk parseUrl style live plan) (hr : r ∈ plan.redirects)
    (hnext : plan.redirectAt (locationPath r.location) ≠ none) : hasQueryMark r.location = true := by
  by_contra hmark
  have hmark : hasQueryMark r.location = false := by simpa using hmark
  rw [locationPath_of_no_mark hmark] at hnext
  exact hnext (h.redirectAt_location hr hmark)

theorem walk_of_hop_none (h : plan.hop path = none) (n : Nat) :
    plan.walk n path = [path] := by
  cases n with
  | zero => rfl
  | succ n => rw [RedirectPlan.walk, h]

theorem hop_of_redirectAt_none (h : plan.redirectAt path = none) :
    plan.hop path = none := by
  rw [RedirectPlan.hop, h, Option.bind_none]

/-- Where no Location is redirected any further, a walk is over after one hop. -/
theorem walk_of_one_hop
    (h : ∀ r ∈ plan.redirects, plan.redirectAt (locationPath r.location) = none) (n : Nat) (path : List Char) :
    (plan.walk (n + 1) path = [path] ∧ plan.hop path = none) ∨
      ∃ next, plan.walk (n + 1) path = [path, next] ∧ path ≠ next ∧ plan.hop next = none := by
  cases hhop : plan.hop path with
  | none => exact Or.inl ⟨walk_of_hop_none hhop _, rfl⟩
  | some next =>
    obtain ⟨r, hr, hloc⟩ := Option.bind_eq_some_iff.1 hhop
    split at hloc
    · cases hloc
    have hend : plan.redirectAt next = none := by
      rw [← Option.some.inj hloc]
      exact h r (redirectAt_spec hr).1
    have hstop := hop_of_redirectAt_none hend
    refine Or.inr ⟨next, ?_, fun heq => ?_, hstop⟩
    · rw [RedirectPlan.walk, hhop]
      dsimp only
      rw [walk_of_hop_none hstop]
    · rw [heq, hend] at hr
      cases hr

/-- An accepted plan redirects no Location without a query or fragment any further.  Where it does not redirect the
path of a same-site Location with one either, every Location ends its walk: a walk repeats no path, and is over after
one hop at most. -/
theorem buildRedirectPlan_one_hop {rows : List RedirectTableRow} {style : RedirectPageUrlStyle}
    {servedFiles : List (List Char)} {plan : RedirectPlan}
    (h : buildRedirectPlan parseUrl rows style servedFiles = .ok plan) :
    (∀ r ∈ plan.redirects, hasQueryMark r.location = false → plan.redirectAt r.location = none) ∧
    ((∀ r ∈ plan.redirects, isExternalRedirectTarget r.location = false → hasQueryMark r.location = true →
        plan.redirectAt (locationPath r.location) = none) →
      (∀ r ∈ plan.redirects, plan.redirectAt (locationPath r.location) = none) ∧
      ∀ n path, (plan.walk (n + 1) path).Nodup ∧ (plan.walk (n + 1) path).length ≤ 2 ∧
        ∃ last ∈ (plan.walk (n + 1) path).getLast?, plan.hop last = none) := by
  obtain ⟨live, hplan⟩ := buildRedirectPlan_ok h
  refine ⟨fun r hr => hplan.redirectAt_location hr, fun hquery => ?_⟩
  have hone : ∀ r ∈ plan.redirects, plan.redirectAt (locationPath r.location) = none := by
    intro r hr
    by_contra hnext
    have hext : isExternalRedirectTarget r.location = false := by
      by_contra hext
      exact hnext (hplan.redirectAt_external (by simpa using hext))
    exact hnext (hquery r hr hext (hplan.mark_of_hop hr hnext))
  refine ⟨hone, fun n path => ?_⟩
  rcases walk_of_one_hop hone n path with ⟨hwalk, hstop⟩ | ⟨next, hwalk, hne, hstop⟩
  · rw [hwalk]
    exact ⟨List.nodup_singleton _, by simp, path, rfl, hstop⟩
  · rw [hwalk]
    refine ⟨?_, by simp, next, rfl, hstop⟩
    simpa using hne

/-- A chain, a target with a query and a path that is gone. -/
def sampleRows : List RedirectTableRow :=
  [⟨"/a".toList, "/b".toList, 301⟩, ⟨"/b/".toList, "/c?x=1".toList, 302⟩, ⟨"/g".toList, "/".toList, 410⟩]

def samplePlan : RedirectPlan :=
  (buildRedirectPlan (fun _ => none) sampleRows .directory []).toOption.get (by decide)

theorem buildRedirectPlan_one_hop_sample :
    samplePlan.walk 5 "/a/".toList = ["/a/".toList, "/c".toList] ∧ (samplePlan.walk 5 "/a/".toList).Nodup := by
  have hplan : buildRedirectPlan (fun _ => none) sampleRows .directory [] = .ok samplePlan := rfl
  have h := (buildRedirectPlan_one_hop hplan).2 (by decide)
  exact ⟨by decide, (h.2 4 "/a/".toList).1⟩

/-- A row whose target is its own path with a query loops, and a target with a query may be redirected once more. -/
theorem buildRedirectPlan_loops_by_query :
    (∃ plan, buildRedirectPlan (fun _ => none) [⟨"/a".toList, "/a?x=1".toList, 301⟩] .directory [] = .ok plan ∧
      ∃ path n, ¬ (plan.walk n path).Nodup) ∧
    ∃ plan, buildRedirectPlan (fun _ => none)
        [⟨"/a".toList, "/b?x=1".toList, 301⟩, ⟨"/b".toList, "/c".toList, 301⟩] .directory [] = .ok plan ∧
      ∃ r ∈ plan.redirects, ∃ r' ∈ plan.redirects, isExternalRedirectTarget r.location = false ∧
        locationPath r.location ∈ r'.matchPaths := by
  refine ⟨⟨_, rfl, "/a".toList, 1, by decide⟩, ⟨_, rfl, ?_⟩⟩
  decide

end CaeloCms.Redirect
