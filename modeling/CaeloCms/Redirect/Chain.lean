import CaeloCms.Lib.Successor
import CaeloCms.Redirect.Rows

/-!
# Collapsing a chain

What a row leads to one hop at a time, where each hop is matched against the rows' own match paths, and how that compares
with `collapseChain`, which looks a target up without its trailing slashes.  Every hop of the first is one of the second;
the other way round it takes a target that is spelled as the row it leads to is matched.
-/

namespace CaeloCms.Redirect

open Successor (Walk Loops)

variable {parseUrl : List Char → Option Url}

def edgeHop (live : List NormalisedRow) (path : List Char) : Option NormalisedRow :=
  (live.find? fun r => (matchPathsFor r.bare).contains path).filter fun r => r.statusCode ≠ goneStatus

def edgeNext (live : List NormalisedRow) (row : NormalisedRow) : Option NormalisedRow := edgeHop live row.toPath

def chainNext (live : List NormalisedRow) (row : NormalisedRow) : Option NormalisedRow := nextHop live row.toPath

def Redirects (live : List NormalisedRow) (row : NormalisedRow) : Prop := row ∈ live ∧ row.statusCode ≠ goneStatus

def PlainTargets (live : List NormalisedRow) : Prop :=
  ∀ row next, Redirects live row → Redirects live next → hasQueryMark row.toPath = false →
    isExternalRedirectTarget row.toPath = false → stripTrailingSlash row.toPath = next.bare → PlainlySpelled row.toPath

section Lookup

variable {live : List NormalisedRow} (hok : ∀ r ∈ live, RowOk parseUrl r) (hnodup : (live.map (·.bare)).Nodup)
include hok hnodup

omit hok in
theorem find_bare {r : NormalisedRow} (hr : r ∈ live) {bare : List Char} (hbare : r.bare = bare) :
    live.find? (fun r => r.bare == bare) = some r := by
  cases hfind : live.find? fun r => r.bare == bare with
  | none => exact absurd (by simpa using hbare) (List.find?_eq_none.1 hfind r hr)
  | some other =>
    have hother : other.bare = bare := by simpa using List.find?_some hfind
    rw [List.inj_on_of_nodup_map hnodup (List.mem_of_find?_eq_some hfind) hr (hother.trans hbare.symm)]

omit hok in
theorem nextHop_iff {target : List Char} {next : NormalisedRow} :
    nextHop live target = some next ↔ Redirects live next ∧ hasQueryMark target = false ∧
      isExternalRedirectTarget target = false ∧ stripTrailingSlash target = next.bare := by
  constructor
  · intro h
    obtain ⟨hmem, hbare, hgone⟩ := nextHop_spec h
    unfold nextHop at h
    split at h
    · cases h
    rename_i hmark
    simp only [Bool.or_eq_true, not_or, Bool.not_eq_true] at hmark
    exact ⟨⟨hmem, hgone⟩, hmark.1, hmark.2, hbare.symm⟩
  · rintro ⟨⟨hmem, hgone⟩, hmark, hext, hbare⟩
    unfold nextHop
    simp [hmark, hext, find_bare hnodup hmem hbare.symm, hgone]

theorem edgeHop_iff {path : List Char} {next : NormalisedRow} :
    edgeHop live path = some next ↔ Redirects live next ∧ path ∈ matchPathsFor next.bare := by
  constructor
  · intro h
    obtain ⟨hfind, hgone⟩ := Option.filter_eq_some_iff.1 h
    exact ⟨⟨List.mem_of_find?_eq_some hfind, by simpa using hgone⟩, by simpa using List.find?_some hfind⟩
  · rintro ⟨⟨hmem, hgone⟩, hpath⟩
    refine Option.filter_eq_some_iff.2 ⟨?_, by simpa using hgone⟩
    cases hfind : live.find? fun r => (matchPathsFor r.bare).contains path with
    | none => exact absurd (by simpa using hpath) (List.find?_eq_none.1 hfind next hmem)
    | some other =>
      have hother : path ∈ matchPathsFor other.bare := by simpa using List.find?_some hfind
      have hin := List.mem_of_find?_eq_some hfind
      have hsame : other.bare = next.bare := by
        rw [← strip_of_mem_matchPathsFor (hok _ hin).head (hok _ hin).stripped hother,
          ← strip_of_mem_matchPathsFor (hok _ hmem).head (hok _ hmem).stripped hpath]
      rw [List.inj_on_of_nodup_map hnodup hin hmem hsame]

/-- Every hop an edge would answer is one that collapsing follows. -/
theorem chainNext_of_edgeNext {row next : NormalisedRow} (h : edgeNext live row = some next) :
    chainNext live row = some next := by
  obtain ⟨hredirects, hpath⟩ := (edgeHop_iff hok hnodup).1 h
  have hnext := hok next hredirects.1
  have hmark : hasQueryMark row.toPath = false := by
    rcases mem_matchPathsFor hpath with heq | heq
    · rw [heq]
      exact hnext.mark
    · have hbare := hnext.mark
      unfold hasQueryMark at hbare ⊢
      rw [heq, List.any_append, hbare]
      decide
  have hext : isExternalRedirectTarget row.toPath = false := by
    by_contra hext
    have hhead := head_of_external (by simpa using hext)
    rw [(mem_matchPath hnext hpath).1] at hhead
    exact absurd hhead (by decide)
  exact (nextHop_iff hnodup).2
    ⟨hredirects, hmark, hext, strip_of_mem_matchPathsFor hnext.head hnext.stripped hpath⟩

theorem edgeNext_of_chainNext (hplain : PlainTargets live) {row next : NormalisedRow} (hrow : Redirects live row)
    (h : chainNext live row = some next) : edgeNext live row = some next := by
  obtain ⟨hredirects, hmark, hext, hstrip⟩ := (nextHop_iff hnodup).1 h
  have hspelled := hplain row next hrow hredirects hmark hext hstrip
  have hhead : row.toPath.head? = some '/' := by
    rcases servable_cases ((hok row hrow.1).servable hrow.2) with ⟨hother, -⟩ | ⟨-, hhead, -⟩
    · rw [hext] at hother
      cases hother
    · exact hhead
  have hmem := (mem_matchPathsFor_strip hhead).2 hspelled
  rw [hstrip] at hmem
  exact (edgeHop_iff hok hnodup).2 ⟨hredirects, hmem⟩

end Lookup

/-! ### What the loop of `collapseChain` finds -/

/-- The status served for a walk over `rows`. -/
structure Combines (status : Nat) (rows : List NormalisedRow) : Prop where
  permanent : isPermanent status = true ↔ ∀ r ∈ rows, isPermanent r.statusCode = true
  method : preservesRequestMethod status = true ↔ ∀ r ∈ rows, preservesRequestMethod r.statusCode = true

/-- `status` is served for `row` with `target`, the end of its walk. -/
def Collapses (next : NormalisedRow → Option NormalisedRow) (row : NormalisedRow) (target : List Char) (status : Nat) :
    Prop :=
  ∃ hops last, Walk next row hops last ∧ next last = none ∧ target = last.toPath ∧ Combines status (row :: hops)

theorem combines_of_all {permanent method : Bool} {rows : List NormalisedRow}
    (hperm : permanent = rows.all fun r => isPermanent r.statusCode)
    (hmethod : method = rows.all fun r => preservesRequestMethod r.statusCode) :
    Combines (combinedStatus permanent method) rows := by
  have hstatus : isPermanent (combinedStatus permanent method) = permanent ∧
      preservesRequestMethod (combinedStatus permanent method) = method := by
    cases permanent <;> cases method <;> decide
  refine ⟨?_, ?_⟩
  · rw [hstatus.1, hperm, List.all_eq_true]
  · rw [hstatus.2, hmethod, List.all_eq_true]

theorem followChain_spec {live : List NormalisedRow} {row : NormalisedRow} : ∀ {fuel : Nat} {hops : List NormalisedRow}
    {current : NormalisedRow} {chain : Chain}, Walk (chainNext live) row hops current →
      ((row :: hops).map (·.bare)).Nodup → (∀ r ∈ row :: hops, r ∈ live) → live.length < (row :: hops).length + fuel →
      chain.target = current.toPath → chain.permanent = (row :: hops).all (fun r => isPermanent r.statusCode) →
      chain.preservesMethod = (row :: hops).all (fun r => preservesRequestMethod r.statusCode) →
      (∀ res, followChain live fuel ((row :: hops).map (·.bare)) chain = .ok res →
        Collapses (chainNext live) row res.target (combinedStatus res.permanent res.preservesMethod)) ∧
      ((∃ e, followChain live fuel ((row :: hops).map (·.bare)) chain = .error e) →
        (live.map (·.bare)).Nodup → Loops (chainNext live) row) := by
  intro fuel
  induction fuel with
  | zero =>
    intro hops current chain _ hnodup hlive hlen _ _ _
    have hsub : ∀ b ∈ (row :: hops).map (·.bare), b ∈ live.map (·.bare) := by
      intro b hb
      obtain ⟨r, hr, rfl⟩ := List.mem_map.1 hb
      exact List.mem_map_of_mem (hlive r hr)
    have hle := (hnodup.subperm hsub).length_le
    rw [List.length_map, List.length_map] at hle
    omega
  | succ fuel ih =>
    intro hops current chain hwalk hnodup hlive hlen htarget hperm hmethod
    rw [followChain, htarget]
    cases hnext : nextHop live current.toPath with
    | none =>
      refine ⟨fun res hres => ?_, fun herr => ?_⟩
      · cases hres
        exact ⟨hops, current, hwalk, hnext, htarget, combines_of_all hperm hmethod⟩
      · obtain ⟨e, he⟩ := herr
        cases he
    | some next =>
      dsimp only
      obtain ⟨hmem, -, -⟩ := nextHop_spec hnext
      by_cases hseen : next.bare ∈ (row :: hops).map (·.bare)
      · rw [if_pos (by simpa using hseen)]
        refine ⟨fun res hres => (by cases hres), fun _ hlivenodup => ?_⟩
        obtain ⟨r, hr, hbare⟩ := List.mem_map.1 hseen
        obtain rfl := List.inj_on_of_nodup_map hlivenodup (hlive r hr) hmem hbare
        exact Successor.loops_of_mem hwalk hnext hr
      · rw [if_neg (by simpa using hseen)]
        have hvisited : (row :: hops).map (·.bare) ++ [next.bare] = (row :: (hops ++ [next])).map (·.bare) := by
          simp
        rw [hvisited]
        refine ih (hwalk.concat hnext) ?_ ?_ ?_ rfl ?_ ?_
        · rw [← hvisited, List.nodup_append]
          refine ⟨hnodup, List.nodup_singleton _, ?_⟩
          intro a ha b hb heq
          rw [List.mem_singleton.1 hb] at heq
          exact hseen (heq ▸ ha)
        · intro r hr
          rw [← List.cons_append] at hr
          rcases List.mem_append.1 hr with hr | hr
          · exact hlive r hr
          · rw [List.mem_singleton.1 hr]
            exact hmem
        · simp only [List.length_cons, List.length_append, List.length_nil] at hlen ⊢
          omega
        · rw [hperm, ← List.cons_append, List.all_append]
          simp
        · rw [hmethod, ← List.cons_append, List.all_append]
          simp

section Collapse

variable {live : List NormalisedRow} {row : NormalisedRow}

theorem collapseChain_spec (hrow : row ∈ live) :
    (∀ target status, collapseChain row live = .ok (target, status) → Collapses (chainNext live) row target status) ∧
      ((∃ e, collapseChain row live = .error e) → (live.map (·.bare)).Nodup → Loops (chainNext live) row) := by
  obtain ⟨hend, hloop⟩ := @followChain_spec live row (live.length + 1) [] row
    ⟨row.toPath, isPermanent row.statusCode, preservesRequestMethod row.statusCode⟩ (.nil row) (List.nodup_singleton _)
    (by simpa using hrow) (by simp only [List.length_singleton]; omega) rfl (by simp) (by simp)
  refine ⟨fun target status h => ?_, fun h => ?_⟩
  · obtain ⟨chain, hchain, heq⟩ := exists_of_map_ok h
    cases heq
    exact hend chain hchain
  · refine hloop ?_
    obtain ⟨e, he⟩ := h
    unfold collapseChain at he
    cases hf : followChain live (live.length + 1) [row.bare]
        ⟨row.toPath, isPermanent row.statusCode, preservesRequestMethod row.statusCode⟩ with
    | error e => exact ⟨e, hf⟩
    | ok chain =>
      rw [hf] at he
      cases he

theorem collapseChain_error_iff (hrow : row ∈ live) (hnodup : (live.map (·.bare)).Nodup) :
    (∃ e, collapseChain row live = .error e) ↔ Loops (chainNext live) row := by
  refine ⟨fun h => (collapseChain_spec hrow).2 h hnodup, fun hloops => ?_⟩
  cases hc : collapseChain row live with
  | error e => exact ⟨e, rfl⟩
  | ok collapsed =>
    obtain ⟨hops, last, hwalk, hend, -⟩ := (collapseChain_spec hrow).1 collapsed.1 collapsed.2 hc
    exact absurd hloops (Successor.not_loops_of_ends hwalk hend)

end Collapse

/-! ### The plan -/

theorem followChain_error {live : List NormalisedRow} : ∀ {fuel : Nat} {visited : List (List Char)} {chain : Chain}
    {e : String}, followChain live fuel visited chain = .error e → ∃ seen bare, e = loopMessage seen bare := by
  intro fuel
  induction fuel with
  | zero =>
    intro visited chain e h
    cases h
  | succ fuel ih =>
    intro visited chain e h
    unfold followChain at h
    split at h
    · cases h
    rename_i next _
    split at h
    · cases h
      exact ⟨visited, next.bare, rfl⟩
    · exact ih h

theorem error_of_map {α β : Type} {x : Except String α} {f : α → β} {e : String} (h : x.map f = .error e) :
    x = .error e := by
  cases x with
  | error e' =>
    cases h
    rfl
  | ok a => cases h

theorem error_of_mapM {α β : Type} {f : α → Except String β} {l : List α} {e : String} (h : l.mapM f = .error e) :
    ∃ a ∈ l, f a = .error e := by
  induction l with
  | nil => cases h
  | cons a l ih =>
    rw [List.mapM_cons] at h
    cases ha : f a with
    | error e' =>
      rw [ha] at h
      cases h
      exact ⟨a, List.mem_cons_self, ha⟩
    | ok b =>
      cases hl : l.mapM f with
      | error e' =>
        rw [ha, hl] at h
        cases h
        obtain ⟨a', ha', he⟩ := ih hl
        exact ⟨a', List.mem_cons_of_mem _ ha', he⟩
      | ok bs =>
        rw [ha, hl] at h
        cases h

section Plan

variable {rows : List RedirectTableRow} {style : RedirectPageUrlStyle} {servedFiles : List (List Char)}
  {normalised : List NormalisedRow}

theorem liveRows_ok (hn : normaliseRows parseUrl rows = .ok normalised) :
    (∀ r ∈ liveRows normalised servedFiles, RowOk parseUrl r) ∧
      ((liveRows normalised servedFiles).map (·.bare)).Nodup := by
  obtain ⟨hok, hnodup⟩ := normaliseRows_ok hn
  exact ⟨fun r hr => hok r (List.mem_filter.1 hr).1, hnodup.sublist (List.filter_sublist.map _)⟩

theorem mem_redirecting {row : NormalisedRow} :
    row ∈ (liveRows normalised servedFiles).filter (fun row => row.statusCode ≠ goneStatus) ↔
      Redirects (liveRows normalised servedFiles) row := by
  simp [Redirects]

/-- Rows that pass their checks are planned unless a chain of theirs loops. -/
theorem buildRedirectPlan_error_iff (hn : normaliseRows parseUrl rows = .ok normalised) :
    (∃ seen bare, buildRedirectPlan parseUrl rows style servedFiles = .error (loopMessage seen bare)) ↔
      ∃ row, Redirects (liveRows normalised servedFiles) row ∧ Loops (chainNext (liveRows normalised servedFiles)) row := by
  have hbuild : ∀ e, buildRedirectPlan parseUrl rows style servedFiles = .error e ↔
      ((liveRows normalised servedFiles).filter fun row => row.statusCode ≠ goneStatus).mapM
        (planRedirect style (liveRows normalised servedFiles)) = .error e := by
    intro e
    unfold buildRedirectPlan
    rw [hn]
    simp only [bind, Except.bind]
    split
    · rename_i e' he
      rw [he]
      constructor <;> intro h <;> cases h <;> rfl
    · rename_i redirects hr
      rw [hr]
      constructor
      · intro h
        cases h
      · intro h
        cases h
  constructor
  · rintro ⟨seen, bare, h⟩
    obtain ⟨row, hrow, he⟩ := error_of_mapM ((hbuild _).1 h)
    have hredirects := mem_redirecting.1 hrow
    exact ⟨row, hredirects, (collapseChain_error_iff hredirects.1 (liveRows_ok hn).2).1 ⟨_, error_of_map he⟩⟩
  · rintro ⟨row, hredirects, hloops⟩
    obtain ⟨e, he⟩ := (collapseChain_error_iff hredirects.1 (liveRows_ok hn).2).2 hloops
    cases hmap : ((liveRows normalised servedFiles).filter fun row => row.statusCode ≠ goneStatus).mapM
        (planRedirect style (liveRows normalised servedFiles)) with
    | ok redirects =>
      obtain ⟨r, hr⟩ := ok_of_mapM_ok hmap row (mem_redirecting.2 hredirects)
      unfold planRedirect at hr
      rw [he] at hr
      cases hr
    | error e' =>
      obtain ⟨row', -, he'⟩ := error_of_mapM hmap
      obtain ⟨seen, bare, hmessage⟩ := followChain_error (error_of_map (error_of_map he'))
      exact ⟨seen, bare, (hbuild _).2 (hmessage ▸ hmap)⟩

structure FollowsChains (parseUrl : List Char → Option Url) (rows : List RedirectTableRow) (style : RedirectPageUrlStyle)
    (servedFiles : List (List Char)) (live : List NormalisedRow) : Prop where
  collapsed : ∀ plan, buildRedirectPlan parseUrl rows style servedFiles = .ok plan → ∀ row, Redirects live row →
    ∃ target status, collapseChain row live = .ok (target, status) ∧ Collapses (edgeNext live) row target status
  loops : (∃ seen bare, buildRedirectPlan parseUrl rows style servedFiles = .error (loopMessage seen bare)) ↔
    ∃ row, Redirects live row ∧ Loops (edgeNext live) row

theorem collapseChain_of_plan (hn : normaliseRows parseUrl rows = .ok normalised) {plan : RedirectPlan}
    (h : buildRedirectPlan parseUrl rows style servedFiles = .ok plan) {row : NormalisedRow}
    (hrow : Redirects (liveRows normalised servedFiles) row) :
    ∃ target status, collapseChain row (liveRows normalised servedFiles) = .ok (target, status) := by
  obtain ⟨normalised', redirects, hn', hmap, -⟩ := buildRedirectPlan_eq_ok.1 h
  obtain rfl := Except.ok.inj (hn.symm.trans hn')
  obtain ⟨r, hr⟩ := ok_of_mapM_ok hmap row (mem_redirecting.2 hrow)
  obtain ⟨collapsed, hc, -⟩ := exists_of_map_ok hr
  exact ⟨collapsed.1, collapsed.2, hc⟩

theorem error_of_plan {e : String} (hn : normaliseRows parseUrl rows = .ok normalised)
    (h : buildRedirectPlan parseUrl rows style servedFiles = .error e) : ∃ seen bare, e = loopMessage seen bare := by
  unfold buildRedirectPlan at h
  rw [hn] at h
  simp only [bind, Except.bind] at h
  split at h
  · rename_i e' he
    cases h
    obtain ⟨row, -, hrow⟩ := error_of_mapM he
    exact followChain_error (error_of_map (error_of_map hrow))
  · cases h

/-- Where the targets are plainly spelled, an edge hops exactly as collapsing does. -/
theorem collapses_of_plain (hn : normaliseRows parseUrl rows = .ok normalised)
    (hplain : PlainTargets (liveRows normalised servedFiles)) {row : NormalisedRow}
    (hrow : Redirects (liveRows normalised servedFiles) row) {target : List Char} {status : Nat}
    (h : Collapses (chainNext (liveRows normalised servedFiles)) row target status) :
    Collapses (edgeNext (liveRows normalised servedFiles)) row target status := by
  obtain ⟨hok, hnodup⟩ := @liveRows_ok parseUrl rows servedFiles normalised hn
  obtain ⟨hops, last, hwalk, hend, htarget, hstatus⟩ := h
  refine ⟨hops, last, hwalk.imp_on (fun a b _ hab => ?_) (fun a b ha hab => ?_) hrow, ?_, htarget, hstatus⟩
  · exact ((nextHop_iff hnodup).1 hab).1
  · exact edgeNext_of_chainNext hok hnodup hplain ha hab
  · cases hedge : edgeNext (liveRows normalised servedFiles) last with
    | none => rfl
    | some next =>
      rw [chainNext_of_edgeNext hok hnodup hedge] at hend
      cases hend

theorem loops_of_plain (hn : normaliseRows parseUrl rows = .ok normalised)
    (hplain : PlainTargets (liveRows normalised servedFiles)) {row : NormalisedRow}
    (hrow : Redirects (liveRows normalised servedFiles) row)
    (h : Loops (chainNext (liveRows normalised servedFiles)) row) :
    Loops (edgeNext (liveRows normalised servedFiles)) row := by
  obtain ⟨hok, hnodup⟩ := @liveRows_ok parseUrl rows servedFiles normalised hn
  have hclosed : ∀ a b, Redirects (liveRows normalised servedFiles) a →
      chainNext (liveRows normalised servedFiles) a = some b → Redirects (liveRows normalised servedFiles) b :=
    fun a b _ hab => ((nextHop_iff hnodup).1 hab).1
  have hstep : ∀ a b, Redirects (liveRows normalised servedFiles) a →
      chainNext (liveRows normalised servedFiles) a = some b → edgeNext (liveRows normalised servedFiles) a = some b :=
    fun a b ha hab => edgeNext_of_chainNext hok hnodup hplain ha hab
  obtain ⟨before, b, l, hreach, hne, hback⟩ := h
  exact ⟨before, b, l, hreach.imp_on hclosed hstep hrow, hne,
    hback.imp_on hclosed hstep (hreach.closed hclosed hrow).1⟩

end Plan

/-! ### A target with a slash after a file name -/

def oldPageRows : List RedirectTableRow := [⟨"/a".toList, "/old.html/".toList, 301⟩, ⟨"/old.html".toList, "/new".toList, 301⟩]

def oldPages : List NormalisedRow := [⟨"/a".toList, "/old.html/".toList, 301⟩, ⟨"/old.html".toList, "/new".toList, 301⟩]

end CaeloCms.Redirect
