import CaeloCms.Redirect.Chain

/-!
# Planning in another order, and planning a plan

A plan depends on which rows there are, not on their order (`buildRedirectPlan_perm`).  The redirects of a plan, taken as
rows, are planned to themselves (`buildRedirectPlan_again`), except where the slash that the directory style adds makes a
target that the checks refuse (`SchemeSegment`).
-/

namespace CaeloCms.Redirect

variable {parseUrl : List Char → Option Url}

/-! ### Another order -/

structure RedirectPlan.SameEntries (plan plan' : RedirectPlan) : Prop where
  redirects : plan.redirects.Perm plan'.redirects
  gone : plan.gone.Perm plan'.gone
  shadowed : plan.shadowedByBuild.Perm plan'.shadowedByBuild

section Order

variable {live live' : List NormalisedRow}

theorem nextHop_perm (hperm : live.Perm live') (hnodup : (live.map (·.bare)).Nodup) (target : List Char) :
    nextHop live target = nextHop live' target := by
  have hnodup' : (live'.map (·.bare)).Nodup := (hperm.map (·.bare)).nodup_iff.1 hnodup
  ext next
  rw [nextHop_iff hnodup, nextHop_iff hnodup']
  unfold Redirects
  rw [hperm.mem_iff]

theorem followChain_congr (h : ∀ target, nextHop live target = nextHop live' target) :
    ∀ (fuel : Nat) (visited : List (List Char)) (chain : Chain),
      followChain live fuel visited chain = followChain live' fuel visited chain := by
  intro fuel
  induction fuel with
  | zero => exact fun _ _ => rfl
  | succ fuel ih =>
    intro visited chain
    unfold followChain
    rw [h]
    cases nextHop live' chain.target with
    | none => rfl
    | some next =>
      dsimp only
      rw [ih]

theorem collapseChain_perm (hperm : live.Perm live') (hnodup : (live.map (·.bare)).Nodup) (row : NormalisedRow) :
    collapseChain row live = collapseChain row live' := by
  unfold collapseChain
  rw [followChain_congr (nextHop_perm hperm hnodup), hperm.length_eq]

end Order

theorem mapM_ok_of_forall₂ {α β : Type} {f : α → Except String β} {l : List α} {res : List β}
    (h : List.Forall₂ (fun a b => f a = .ok b) l res) : l.mapM f = .ok res := by
  induction h with
  | nil => rfl
  | cons ha _ ih =>
    rw [List.mapM_cons, ha, ih]
    rfl

theorem mapM_ok_perm {α β : Type} {f : α → Except String β} {l l' : List α} {res : List β} (hperm : l'.Perm l)
    (h : l.mapM f = .ok res) : ∃ res', l'.mapM f = .ok res' ∧ res'.Perm res := by
  obtain ⟨res', hall, hres⟩ := List.perm_comp_forall₂ hperm (forall₂_of_mapM_ok h)
  exact ⟨res', mapM_ok_of_forall₂ hall, hres⟩

theorem normaliseRows_perm {rows rows' : List RedirectTableRow} (hperm : rows.Perm rows') {normalised : List NormalisedRow}
    (h : normaliseRows parseUrl rows = .ok normalised) :
    ∃ normalised', normaliseRows parseUrl rows' = .ok normalised' ∧ normalised'.Perm normalised := by
  have hcons := normaliseRows_ok_iff.1 ⟨normalised, h⟩
  have hmap := hperm.map (·.normalised)
  have hcons' : Consistent parseUrl rows' [] := by
    refine ⟨fun row hrow => hcons.issues row (hperm.mem_iff.2 hrow), ?_⟩
    intro a ha b hb
    exact hcons.agree a (hmap.mem_iff.2 ha) b (hmap.mem_iff.2 hb)
  obtain ⟨normalised', h'⟩ := normaliseRows_ok_iff.2 hcons'
  refine ⟨normalised', h', ?_⟩
  rw [List.perm_ext_iff_of_nodup (normaliseRows_ok h').2.of_map (normaliseRows_ok h).2.of_map]
  intro r
  rw [mem_normaliseRows h', mem_normaliseRows h, hmap.mem_iff]

section Plan

variable {rows rows' : List RedirectTableRow} {style : RedirectPageUrlStyle} {servedFiles : List (List Char)}
  {plan : RedirectPlan}

theorem buildRedirectPlan_perm (hperm : rows.Perm rows') (h : buildRedirectPlan parseUrl rows style servedFiles = .ok plan) :
    ∃ plan', buildRedirectPlan parseUrl rows' style servedFiles = .ok plan' ∧ plan.SameEntries plan' := by
  obtain ⟨normalised, redirects, hn, hr, rfl⟩ := buildRedirectPlan_eq_ok.1 h
  obtain ⟨normalised', hn', hnorm⟩ := normaliseRows_perm hperm hn
  have hlive : (liveRows normalised' servedFiles).Perm (liveRows normalised servedFiles) := hnorm.filter _
  have hplanned : planRedirect style (liveRows normalised' servedFiles) =
      planRedirect style (liveRows normalised servedFiles) := by
    funext row
    unfold planRedirect
    rw [collapseChain_perm hlive (@liveRows_ok parseUrl rows' servedFiles normalised' hn').2]
  obtain ⟨redirects', hr', hredirects⟩ := mapM_ok_perm (hlive.filter _) hr
  rw [← hplanned] at hr'
  refine ⟨_, buildRedirectPlan_eq_ok.2 ⟨normalised', redirects', hn', hr', rfl⟩, hredirects.symm, ?_, ?_⟩
  · exact ((hlive.filter _).map _).symm
  · exact ((hnorm.filter _).map _).symm

end Plan

/-! ### The plan's own rows -/

def PlannedRedirect.row (r : PlannedRedirect) : RedirectTableRow := ⟨r.fromPath, r.location, r.statusCode⟩

/-- A path of one segment that is a scheme with its colon: `/scheme:/`. -/
def SchemeSegment (path : List Char) : Prop := ∃ scheme, schemePrefix (path.drop 1) = some (scheme, ['/'])

theorem schemePrefix_append_slash (s : List Char) :
    schemePrefix (s ++ ['/']) = (schemePrefix s).map fun found => (found.1, found.2 ++ ['/']) := by
  cases s with
  | nil => decide
  | cons c rest =>
    rw [List.cons_append]
    unfold schemePrefix
    dsimp only
    by_cases hc : isLetter c = true
    · rw [if_pos hc, if_pos hc, List.dropWhile_append, List.takeWhile_append]
      cases hd : rest.dropWhile isSchemeChar with
      | nil =>
        rw [List.isEmpty_nil, if_pos rfl]
        rfl
      | cons d after =>
        rw [if_neg (by simp)]
        have htake : (rest.takeWhile isSchemeChar).length ≠ rest.length := by
          intro hlen
          have hsplit := congrArg List.length (List.takeWhile_append_dropWhile (p := isSchemeChar) (l := rest))
          rw [List.length_append, hd, List.length_cons] at hsplit
          omega
        rw [if_neg htake]
        by_cases hd' : d = ':'
        · subst hd'
          rfl
        · simp [hd']
    · rw [if_neg hc, if_neg hc]
      rfl

theorem not_schemeSegment_of_external {location : List Char} (h : isExternalRedirectTarget location = true) :
    ¬ SchemeSegment location := by
  rintro ⟨scheme, hscheme⟩
  obtain ⟨rest, rfl⟩ := List.isPrefixOf_iff_prefix.1 h
  have hpre : schemePrefix (("https://".toList ++ rest).drop 1) = some ("ttps".toList, '/' :: '/' :: rest) := rfl
  rw [hpre] at hscheme
  have hrest := congrArg (fun found => (found.map Prod.snd)) hscheme
  simp at hrest

theorem redirectTargetIssue_append_slash {target : List Char} (h : redirectTargetIssue parseUrl target = none)
    (hlast : target.getLast? ≠ some '/') :
    redirectTargetIssue parseUrl (target ++ ['/']) = none ↔ ¬ SchemeSegment (target ++ ['/']) := by
  unfold redirectTargetIssue at h
  split at h
  · cases h
  rename_i hhead
  split at h
  · cases h
  rename_i hblank
  split at h
  · cases h
  rename_i hback
  split at h
  · cases h
  rename_i hslash
  obtain ⟨rest, rfl⟩ : ∃ rest, target = '/' :: rest := by
    cases target with
    | nil => exact (hhead (by simp)).elim
    | cons c rest => exact ⟨rest, by simpa using hhead⟩
  have hslash' : ¬ "//".toList.isPrefixOf ('/' :: rest ++ ['/']) = true := by
    cases rest with
    | nil => exact absurd rfl hlast
    | cons c rest => simpa using hslash
  have hblank' : ¬ ('/' :: rest ++ ['/']).any isBlank = true := by
    rw [List.any_append, Bool.or_eq_true, not_or]
    exact ⟨hblank, by decide⟩
  have hback' : ¬ ('/' :: rest ++ ['/']).contains '\\' = true := by
    simpa using hback
  unfold redirectTargetIssue SchemeSegment
  rw [if_neg (by simp), if_neg hblank', if_neg hback', if_neg hslash']
  have hdrop : ('/' :: rest ++ ['/']).drop 1 = rest ++ ['/'] := rfl
  rw [hdrop, schemePrefix_append_slash]
  rw [List.drop_one, List.tail_cons] at h
  cases hscheme : schemePrefix rest with
  | none => simp
  | some found =>
    obtain ⟨scheme, after⟩ := found
    rw [hscheme] at h
    dsimp only [Option.map_some] at h ⊢
    split at h
    · cases h
    rename_i hok
    simp only [Bool.or_eq_true, not_or] at hok
    cases after with
    | nil => simp
    | cons c after => simp_all

/-- The end of a chain is planned as it is, or with a slash, and is then planned again as it is. -/
theorem locationFor_again {target : List Char} {style : RedirectPageUrlStyle} :
    locationFor (locationFor target style) style = locationFor target style := by
  rcases locationFor_cases target style with h | ⟨h, -, -⟩
  · rw [h, h]
  · rw [h]
    unfold locationFor
    split
    · rfl
    · rw [if_pos (Or.inr (by simp))]

theorem nextHop_location {live : List NormalisedRow} {target : List Char} {style : RedirectPageUrlStyle}
    (hserv : servableRedirectTargetIssue parseUrl target = none) :
    nextHop live (locationFor target style) = none ↔ nextHop live target = none := by
  rcases locationFor_cases target style with h | ⟨h, hext, hmark⟩
  · rw [h]
  · rcases servable_cases hserv with ⟨hother, -⟩ | ⟨-, hhead, -⟩
    · rw [hext] at hother
      cases hother
    have hext' : isExternalRedirectTarget (target ++ ['/']) = false := by
      by_contra hne
      have hh := head_of_external (by simpa using hne)
      rw [List.head?_append, hhead] at hh
      exact absurd hh (by decide)
    have hmark' : hasQueryMark (target ++ ['/']) = false := by
      unfold hasQueryMark at hmark ⊢
      rw [List.any_append, hmark]
      decide
    unfold nextHop
    rw [h, hext, hext', hmark, hmark', strip_append_slash hhead]

theorem not_schemeSegment_of_servable {target : List Char} (h : servableRedirectTargetIssue parseUrl target = none) :
    ¬ SchemeSegment target := by
  unfold servableRedirectTargetIssue at h
  split at h
  · rename_i hext
    exact not_schemeSegment_of_external hext
  · rintro ⟨scheme, hscheme⟩
    unfold redirectTargetIssue at h
    rw [hscheme] at h
    dsimp only at h
    repeat'
      split at h
      · cases h
    rename_i hok
    exact hok rfl

theorem servable_location {target : List Char} {style : RedirectPageUrlStyle}
    (hserv : servableRedirectTargetIssue parseUrl target = none) :
    servableRedirectTargetIssue parseUrl (locationFor target style) = none ↔ ¬ SchemeSegment (locationFor target style) := by
  rcases locationFor_cases target style with h | ⟨h, hext, -⟩
  · rw [h]
    exact ⟨fun _ => not_schemeSegment_of_servable hserv, fun _ => hserv⟩
  · have hlast : target.getLast? ≠ some '/' := by
      intro hlast
      have hsame : locationFor target style = target := by
        unfold locationFor
        rw [hext, if_neg (by simp), if_pos (Or.inr hlast)]
      rw [hsame] at h
      have hlen := congrArg List.length h
      rw [List.length_append, List.length_singleton] at hlen
      omega
    have hnot : ¬ isExternalRedirectTarget (target ++ ['/']) = true := by
      intro hext'
      rcases servable_cases hserv with ⟨hother, -⟩ | ⟨-, hhead, -⟩
      · rw [hext] at hother
        cases hother
      · have hh := head_of_external hext'
        rw [List.head?_append, hhead] at hh
        exact absurd hh (by decide)
    unfold servableRedirectTargetIssue at hserv ⊢
    rw [hext, if_neg (by simp)] at hserv
    rw [h, if_neg hnot]
    exact redirectTargetIssue_append_slash hserv hlast

theorem normaliseFrom_distinct {rows : List RedirectTableRow} : ∀ {out : List NormalisedRow},
    (∀ row ∈ rows, rowIssue parseUrl row = none) → ((out ++ rows.map (·.normalised)).map (·.bare)).Nodup →
      normaliseFrom parseUrl out rows = .ok (out ++ rows.map (·.normalised)) := by
  induction rows with
  | nil =>
    intro out _ _
    simp [normaliseFrom]
  | cons row rows ih =>
    intro out hissues hnodup
    have happ : out ++ (row :: rows).map (·.normalised) = out ++ [row.normalised] ++ rows.map (·.normalised) := by
      simp
    have hfind : (out.find? fun r => r.bare == stripTrailingSlash row.fromPath) = none := by
      rw [List.find?_eq_none]
      intro r hr hbare
      rw [List.map_append, List.nodup_append] at hnodup
      refine hnodup.2.2 _ (List.mem_map_of_mem hr) row.normalised.bare (by simp) ?_
      simpa [RedirectTableRow.normalised] using hbare
    unfold normaliseFrom
    rw [hissues row List.mem_cons_self]
    dsimp only
    rw [hfind]
    dsimp only
    rw [happ] at hnodup ⊢
    exact ih (fun r hr => hissues r (List.mem_cons_of_mem _ hr)) hnodup

section Again

variable {rows : List RedirectTableRow} {style : RedirectPageUrlStyle} {servedFiles : List (List Char)} {plan : RedirectPlan}

structure RowAgain (parseUrl : List Char → Option Url) (style : RedirectPageUrlStyle) (servedFiles : List (List Char))
    (r : PlannedRedirect) : Prop where
  stripped : stripTrailingSlash r.fromPath = r.fromPath
  unserved : servedByBuild r.fromPath servedFiles = false
  issue : rowIssue parseUrl r.row = none ↔ ¬ SchemeSegment r.location
  status : r.statusCode ∈ redirectStatuses
  location : locationFor r.location style = r.location
  paths : r.matchPaths = matchPathsFor r.fromPath
  query : r.preserveQuery = !hasQueryMark r.location

theorem combinedStatus_again {status : Nat} (h : status ∈ redirectStatuses) :
    combinedStatus (isPermanent status) (preservesRequestMethod status) = status := by
  fin_cases h <;> rfl

theorem ne_gone_of_mem {status : Nat} (h : status ∈ redirectStatuses) : status ≠ goneStatus := by
  fin_cases h <;> decide

theorem rowAgain_of_plan (h : buildRedirectPlan parseUrl rows style servedFiles = .ok plan) {r : PlannedRedirect}
    (hr : r ∈ plan.redirects) : RowAgain parseUrl style servedFiles r := by
  obtain ⟨normalised, redirects, hn, hmap, rfl⟩ := buildRedirectPlan_eq_ok.1 h
  obtain ⟨hok, hnodup⟩ := @liveRows_ok parseUrl rows servedFiles normalised hn
  obtain ⟨row, hrow, hplanned⟩ := exists_of_mapM_ok hmap r hr
  obtain ⟨hlive, hgone⟩ := mem_redirecting.1 hrow
  obtain ⟨hfrom, target, hentry⟩ := planRedirect_ok hok hlive hgone hplanned
  have hrowOk := hok row hlive
  have hmem : redirectStatuses.contains r.statusCode = true := by simpa using hentry.status
  refine ⟨?_, ?_, ?_, hentry.status, ?_, hentry.matches_eq, hentry.query⟩
  · rw [hfrom]
    exact hrowOk.stripped
  · rw [hfrom]
    simpa using (List.mem_filter.1 hlive).2
  · have hblank : row.bare.any isBlank = false :=
      List.any_eq_false.2 fun c hc => by simpa using hrowOk.blank c hc
    have hserv := @servable_location parseUrl _ style hentry.servable
    rw [← hentry.location] at hserv
    rw [← hserv]
    unfold rowIssue PlannedRedirect.row
    dsimp only
    rw [hfrom, if_neg (by simp [hrowOk.head, hblank]), if_neg (by simp [hrowOk.mark]),
      if_neg (fun hno => absurd (hmem.symm.trans hno.2) (by decide)),
      if_pos (ne_gone_of_mem hentry.status), Option.map_eq_none_iff]
  · rw [hentry.location]
    exact locationFor_again

theorem bares_again (h : buildRedirectPlan parseUrl rows style servedFiles = .ok plan) :
    (plan.redirects.map (·.row)).map (·.normalised.bare) = plan.redirects.map (·.fromPath) ∧
      (plan.redirects.map (·.fromPath)).Nodup := by
  refine ⟨?_, ?_⟩
  · rw [List.map_map, List.map_inj_left]
    intro r hr
    exact (rowAgain_of_plan h hr).stripped
  · obtain ⟨live, hplan⟩ := buildRedirectPlan_ok h
    exact (List.nodup_append.1 (hplan.froms.nodup_iff.2 hplan.nodup)).1

theorem nextHop_again (h : buildRedirectPlan parseUrl rows style servedFiles = .ok plan) {r : PlannedRedirect}
    (hr : r ∈ plan.redirects) : nextHop ((plan.redirects.map (·.row)).map (·.normalised)) r.location = none := by
  have hbares := bares_again h
  rw [← hbares.1] at hbares
  have hnodup' : (((plan.redirects.map (·.row)).map (·.normalised)).map (·.bare)).Nodup := by
    rw [List.map_map]
    exact hbares.2
  have hstripped : ∀ r ∈ plan.redirects, stripTrailingSlash r.fromPath = r.fromPath :=
    fun r hr => (rowAgain_of_plan h hr).stripped
  obtain ⟨normalised, redirects, hn, hmap, rfl⟩ := buildRedirectPlan_eq_ok.1 h
  obtain ⟨hok, hnodup⟩ := @liveRows_ok parseUrl rows servedFiles normalised hn
  obtain ⟨row, hrow, hplanned⟩ := exists_of_mapM_ok hmap r hr
  obtain ⟨hlive, hgone⟩ := mem_redirecting.1 hrow
  obtain ⟨-, target, hentry⟩ := planRedirect_ok hok hlive hgone hplanned
  have hend := (@nextHop_location parseUrl _ _ style hentry.servable).2 hentry.chain
  rw [← hentry.location] at hend
  by_contra hnext
  obtain ⟨next, hnext⟩ := Option.ne_none_iff_exists'.1 hnext
  obtain ⟨⟨hmem, -⟩, hmark, hext, hstrip⟩ := (nextHop_iff hnodup').1 hnext
  -- the row it leads to was planned from a row with the same path
  obtain ⟨before, hbefore, rfl⟩ := List.mem_map.1 hmem
  obtain ⟨other, hother, rfl⟩ := List.mem_map.1 hbefore
  obtain ⟨row', hrow', hplanned'⟩ := exists_of_mapM_ok hmap other hother
  have hsame : other.row.normalised.bare = row'.bare :=
    (hstripped other hother).trans (fromPath_of_planRedirect row' other hplanned')
  have hagain := (nextHop_iff hnodup).2 ⟨mem_redirecting.1 hrow', hmark, hext, hstrip.trans hsame⟩
  rw [hend] at hagain
  cases hagain

theorem planRedirect_again (h : buildRedirectPlan parseUrl rows style servedFiles = .ok plan) {r : PlannedRedirect}
    (hr : r ∈ plan.redirects) :
    planRedirect style ((plan.redirects.map (·.row)).map (·.normalised)) r.row.normalised = .ok r := by
  have hagain := rowAgain_of_plan h hr
  have hcollapse : collapseChain r.row.normalised ((plan.redirects.map (·.row)).map (·.normalised)) =
      .ok (r.location, r.statusCode) := by
    unfold collapseChain followChain
    have hend := nextHop_again h hr
    dsimp only [RedirectTableRow.normalised, PlannedRedirect.row] at hend ⊢
    rw [hend]
    simp only [Except.map, combinedStatus_again hagain.status]
  unfold planRedirect
  rw [hcollapse]
  simp only [Except.map, hagain.location]
  dsimp only [RedirectTableRow.normalised, PlannedRedirect.row]
  rw [hagain.stripped, ← hagain.paths, ← hagain.query]

theorem buildRedirectPlan_again_of (h : buildRedirectPlan parseUrl rows style servedFiles = .ok plan)
    (hnot : ∀ r ∈ plan.redirects, ¬ SchemeSegment r.location) :
    ∃ again, buildRedirectPlan parseUrl (plan.redirects.map (·.row)) style servedFiles = .ok again ∧
      again.redirects = plan.redirects := by
  have hissues : ∀ row ∈ plan.redirects.map (·.row), rowIssue parseUrl row = none := by
    intro row hrow
    obtain ⟨r, hr, rfl⟩ := List.mem_map.1 hrow
    exact (rowAgain_of_plan h hr).issue.2 (hnot r hr)
  have hbares := bares_again h
  rw [← hbares.1] at hbares
  have hn : normaliseRows parseUrl (plan.redirects.map (·.row)) = .ok ((plan.redirects.map (·.row)).map (·.normalised)) := by
    refine (@normaliseFrom_distinct parseUrl _ [] hissues ?_).trans (by rw [List.nil_append])
    rw [List.nil_append, List.map_map]
    exact hbares.2
  have hlive : liveRows ((plan.redirects.map (·.row)).map (·.normalised)) servedFiles =
      (plan.redirects.map (·.row)).map (·.normalised) := by
    refine List.filter_eq_self.2 fun row hrow => ?_
    rw [List.map_map] at hrow
    obtain ⟨r, hr, rfl⟩ := List.mem_map.1 hrow
    have hagain := rowAgain_of_plan h hr
    dsimp only [Function.comp, RedirectTableRow.normalised, PlannedRedirect.row]
    rw [hagain.stripped, hagain.unserved]
    rfl
  have hredirecting : (((plan.redirects.map (·.row)).map (·.normalised)).filter fun row => row.statusCode ≠ goneStatus) =
      (plan.redirects.map (·.row)).map (·.normalised) := by
    refine List.filter_eq_self.2 fun row hrow => ?_
    rw [List.map_map] at hrow
    obtain ⟨r, hr, rfl⟩ := List.mem_map.1 hrow
    exact decide_eq_true (ne_gone_of_mem (rowAgain_of_plan h hr).status)
  have hmap : ((plan.redirects.map (·.row)).map (·.normalised)).mapM
      (planRedirect style ((plan.redirects.map (·.row)).map (·.normalised))) = .ok plan.redirects := by
    refine mapM_ok_of_forall₂ ?_
    rw [List.map_map, List.forall₂_map_left_iff, List.forall₂_same]
    intro r hr
    have hplanned := planRedirect_again h hr
    rw [List.map_map] at hplanned
    exact hplanned
  refine ⟨_, buildRedirectPlan_eq_ok.2 ⟨_, plan.redirects, hn, ?_, rfl⟩, rfl⟩
  rw [hlive, hredirecting]
  exact hmap

/-- The redirects of a plan are planned to themselves, unless the slash made a target that is refused. -/
theorem buildRedirectPlan_again (h : buildRedirectPlan parseUrl rows style servedFiles = .ok plan) :
    (∃ again, buildRedirectPlan parseUrl (plan.redirects.map (·.row)) style servedFiles = .ok again ∧
        again.redirects = plan.redirects) ↔ ∀ r ∈ plan.redirects, ¬ SchemeSegment r.location := by
  refine ⟨?_, buildRedirectPlan_again_of h⟩
  rintro ⟨again, hagain, -⟩ r hr
  obtain ⟨normalised, -, hn, -⟩ := buildRedirectPlan_eq_ok.1 hagain
  have hissue := (normaliseRows_ok_iff.1 ⟨normalised, hn⟩).issues r.row (List.mem_map_of_mem hr)
  exact (rowAgain_of_plan h hr).issue.1 hissue

end Again

/-! ### Both laws -/

/-- What planning keeps of its rows: their order does not matter, and the planned redirects are planned to themselves where
no location is a scheme and its colon. -/
theorem buildRedirectPlan_order_again {rows rows' : List RedirectTableRow} {style : RedirectPageUrlStyle}
    {servedFiles : List (List Char)} (hperm : rows.Perm rows') :
    ((∃ plan, buildRedirectPlan parseUrl rows style servedFiles = .ok plan) ↔
        ∃ plan, buildRedirectPlan parseUrl rows' style servedFiles = .ok plan) ∧
      ∀ plan, buildRedirectPlan parseUrl rows style servedFiles = .ok plan →
        (∀ plan', buildRedirectPlan parseUrl rows' style servedFiles = .ok plan' → plan.SameEntries plan') ∧
          ((∃ again, buildRedirectPlan parseUrl (plan.redirects.map (·.row)) style servedFiles = .ok again ∧
              again.redirects = plan.redirects) ↔ ∀ r ∈ plan.redirects, ¬ SchemeSegment r.location) := by
  refine ⟨⟨?_, ?_⟩, fun plan h => ⟨fun plan' h' => ?_, buildRedirectPlan_again h⟩⟩
  · rintro ⟨plan, h⟩
    obtain ⟨plan', h', -⟩ := buildRedirectPlan_perm hperm h
    exact ⟨plan', h'⟩
  · rintro ⟨plan, h⟩
    obtain ⟨plan', h', -⟩ := buildRedirectPlan_perm hperm.symm h
    exact ⟨plan', h'⟩
  · obtain ⟨plan'', h'', hsame⟩ := buildRedirectPlan_perm hperm h
    obtain rfl := Except.ok.inj (h''.symm.trans h')
    exact hsame

theorem buildRedirectPlan_order_again_sample :
    ((∃ plan, buildRedirectPlan (fun _ => none) sampleRows .directory [] = .ok plan) ↔
        ∃ plan, buildRedirectPlan (fun _ => none) sampleRows.reverse .directory [] = .ok plan) ∧
      ∀ plan, buildRedirectPlan (fun _ => none) sampleRows .directory [] = .ok plan →
        (∀ plan', buildRedirectPlan (fun _ => none) sampleRows.reverse .directory [] = .ok plan' → plan.SameEntries plan') ∧
          ((∃ again, buildRedirectPlan (fun _ => none) (plan.redirects.map (·.row)) .directory [] = .ok again ∧
              again.redirects = plan.redirects) ↔ ∀ r ∈ plan.redirects, ¬ SchemeSegment r.location) :=
  buildRedirectPlan_order_again (List.reverse_perm _).symm

/-- A page whose path is a word and a colon. -/
def colonRows : List RedirectTableRow := [⟨"/a".toList, "/foo:".toList, 301⟩]

/-- The plan of `/a → /foo:` sends to `/foo:/`, which is refused as a target. -/
theorem buildRedirectPlan_again_refused :
    ¬ ∀ (parseUrl : List Char → Option Url) (rows : List RedirectTableRow) (style : RedirectPageUrlStyle)
      (servedFiles : List (List Char)) (plan : RedirectPlan), buildRedirectPlan parseUrl rows style servedFiles = .ok plan →
        ∃ again, buildRedirectPlan parseUrl (plan.redirects.map (·.row)) style servedFiles = .ok again ∧
          again.redirects.Perm plan.redirects := by
  intro hall
  obtain ⟨again, hagain, -⟩ := hall (fun _ => none) colonRows .directory []
    ((buildRedirectPlan (fun _ => none) colonRows .directory []).toOption.get (by decide)) rfl
  obtain ⟨normalised, -, hn, -⟩ := buildRedirectPlan_eq_ok.1 hagain
  have hissue := (normaliseRows_ok_iff.1 ⟨normalised, hn⟩).issues ⟨"/a".toList, "/foo:/".toList, 301⟩ (by decide)
  exact absurd hissue (by decide)

end CaeloCms.Redirect
