import CaeloCms.Redirect.Edges
import CaeloCms.Redirect.Rows
import CaeloCms.Shared.WebUrl

/-!
# No open redirect

A target is checked as it is stored, and served as the end of a chain, spelled for the URL style and with the query of
the request.  A browser that resolves what is served against the site stays at the site's origin, or goes to the
origin of an external address in its approved form that a row holds (`answer_stays_or_approved`).
-/

namespace CaeloCms.Redirect

open Web (WebUrl parse IsQueryTail)

/-- A `URL` object. -/
def urlOf (url : WebUrl) : Url where
  protocol := url.scheme.name ++ [':']
  username := url.username
  password := url.password
  hostname := url.host
  port := Web.portText url.port
  pathname := url.pathname
  search := Web.markedText '?' url.query
  hash := Web.markedText '#' url.fragment
  href := url.href

variable (parseHost : List Char → Option (List Char)) (otherUrl : List Char → Option Url)

/-- `new URL(text)`; `otherUrl` reads the schemes that no check here asks for. -/
def newUrl (text : List Char) : Option Url :=
  match parse parseHost none text with
  | none => none
  | some (.web url) => some (urlOf url)
  | some (.other _) => otherUrl text

variable {parseHost otherUrl}

/-! ### What is served -/

theorem isQueryTail_withQuery (location query : List Char) :
    ∃ tail, withQuery location query = location ++ tail ∧ IsQueryTail tail := by
  unfold withQuery
  split
  · exact ⟨[], (List.append_nil _).symm, Or.inl rfl⟩
  · exact ⟨_, rfl, Or.inr ⟨query, rfl⟩⟩

theorem answer_spec {plan : RedirectPlan} {path query : List Char} {status : Nat} {location : List Char}
    (h : plan.answer path query = some (status, location)) :
    ∃ r ∈ plan.redirects, ∃ tail, location = r.location ++ tail ∧ IsQueryTail tail := by
  obtain ⟨r, hr, heq⟩ := Option.map_eq_some_iff.1 h
  refine ⟨r, (redirectAt_spec hr).1, ?_⟩
  have hloc : (if r.preserveQuery then withQuery r.location query else r.location) = location :=
    congrArg Prod.snd heq
  split at hloc
  · rw [← hloc]
    exact isQueryTail_withQuery r.location query
  · exact ⟨[], by rw [← hloc, List.append_nil], Or.inl rfl⟩

theorem isC0OrSpace_of_not_blank {c : Char} (h : isBlank c = false) : Web.isC0OrSpace c = false := by
  simp only [isBlank, isSpace, isControl, Bool.or_eq_false_iff, decide_eq_false_iff_not] at h
  simp only [Web.isC0OrSpace, decide_eq_false_iff_not]
  omega

theorem locationFor_single_slash {target : List Char} (hhead : target.head? = some '/')
    (hback : target.contains '\\' = false) (hslash : "//".toList.isPrefixOf target = false)
    (style : RedirectPageUrlStyle) :
    ∃ s, locationFor target style = '/' :: s ∧ ∀ c ∈ s.head?, Web.isSlash c = false := by
  obtain ⟨s, rfl⟩ : ∃ s, target = '/' :: s := by
    cases target with
    | nil => cases hhead
    | cons c s => exact ⟨s, by rw [Option.some.inj hhead]⟩
  have hsecond : ∀ c ∈ s.head?, Web.isSlash c = false := by
    intro c hc
    cases s with
    | nil => cases hc
    | cons d s =>
      obtain rfl : d = c := Option.some.inj hc
      have hne : d ≠ '/' := by
        rintro rfl
        simp at hslash
      have hne' : d ≠ '\\' := by
        rintro rfl
        simp at hback
      simp [Web.isSlash, hne, hne']
  unfold locationFor
  split
  · exact ⟨s, rfl, hsecond⟩
  split
  · exact ⟨s, rfl, hsecond⟩
  rename_i hlast
  split
  · exact ⟨s, rfl, hsecond⟩
  -- a slash is added to a path of more than its first one
  refine ⟨s ++ ['/'], rfl, ?_⟩
  cases s with
  | nil => exact absurd (Or.inr rfl) hlast
  | cons d s => exact hsecond

theorem mem_locationFor {target : List Char} {style : RedirectPageUrlStyle} {c : Char}
    (hc : c ∈ locationFor target style) : c ∈ target ∨ c = '/' := by
  rcases locationFor_cases target style with heq | ⟨heq, -, -⟩
  · rw [heq] at hc
    exact Or.inl hc
  · rw [heq] at hc
    simpa using hc

/-! ### Approved addresses -/

theorem parsed_of_external {parseUrl : List Char → Option Url} {url : List Char}
    (h : externalRedirectTargetIssue parseUrl url = none) : ∃ parsed, parseUrl url = some parsed := by
  unfold externalRedirectTargetIssue at h
  split at h
  · cases h
  split at h
  · cases h
  split at h
  · cases h
  cases hparsed : parseUrl url with
  | none =>
    rw [hparsed] at h
    cases h
  | some parsed => exact ⟨parsed, rfl⟩

/-- An address in its approved form is read as an `https` URL, and with a query after it as one of the same origin,
whatever page it is resolved against. -/
theorem parse_of_external {target : List Char} (hext : isExternalRedirectTarget target = true)
    (hissue : externalRedirectTargetIssue (newUrl parseHost otherUrl) target = none)
    (hblank : ∀ c ∈ target, isBlank c = false) {tail : List Char} (htail : IsQueryTail tail) (base : Option WebUrl) :
    ∃ a r, parse parseHost none target = some (.web a) ∧ parse parseHost base (target ++ tail) = some (.web r) ∧
      r.origin = a.origin := by
  obtain ⟨s, rfl⟩ : ∃ s, target = Web.httpsPrefix ++ s := by
    obtain ⟨s, hs⟩ := List.isPrefixOf_iff_prefix.1 hext
    exact ⟨s, hs.symm⟩
  have hne : Web.httpsPrefix ++ s ≠ [] := List.cons_ne_nil _ _
  have hplain : ∀ c ∈ Web.httpsPrefix ++ s, Web.isC0OrSpace c = false := fun c hc => isC0OrSpace_of_not_blank (hblank c hc)
  obtain ⟨tail', hclean', htail'⟩ := Web.cleanInput_append_tail hne hplain htail
  have hread := Web.parse_of_https parseHost none (Web.cleanInput_plain hne hplain)
  cases habs : Web.readAbsolute parseHost .https ('/' :: '/' :: s) with
  | none =>
    -- the check has read it
    obtain ⟨parsed, hparsed⟩ := parsed_of_external hissue
    rw [habs, Option.map_none] at hread
    rw [newUrl, hread] at hparsed
    cases hparsed
  | some a =>
    rw [habs, Option.map_some] at hread
    have hhier : (Web.partsOf ('/' :: '/' :: (s ++ tail'))).hier = (Web.partsOf ('/' :: '/' :: s)).hier :=
      Web.hier_append_tail ('/' :: '/' :: s) htail'
    obtain ⟨r, hr, horigin⟩ := Web.readAbsolute_congr parseHost hhier habs
    have hread' := Web.parse_of_https parseHost base (hclean'.trans (List.append_assoc _ _ _))
    rw [hr, Option.map_some] at hread'
    exact ⟨a, r, hread, hread', horigin⟩

theorem row_of_live {rows : List RedirectTableRow} {style : RedirectPageUrlStyle} {servedFiles : List (List Char)}
    {plan : RedirectPlan} {parseUrl : List Char → Option Url}
    (h : buildRedirectPlan parseUrl rows style servedFiles = .ok plan) {r : PlannedRedirect} (hr : r ∈ plan.redirects) :
    ∃ row ∈ rows, row.statusCode ≠ goneStatus ∧ r.location = locationFor row.toPath style ∧
      servableRedirectTargetIssue parseUrl row.toPath = none := by
  obtain ⟨normalised, redirects, hn, hredirects, rfl⟩ := buildRedirectPlan_eq_ok.1 h
  have hok := (normaliseRows_ok hn).1
  obtain ⟨first, hfirst, hf⟩ := exists_of_mapM_ok hredirects r hr
  obtain ⟨hfirst, hgone⟩ := List.mem_filter.1 hfirst
  obtain ⟨collapsed, hc, rfl⟩ := exists_of_map_ok hf
  obtain ⟨-, last, hlast, hlastGone, htarget⟩ := collapseChain_ok hfirst (by simpa using hgone) hc
  have hlast := (List.mem_filter.1 hlast).1
  obtain ⟨row, hrow, rfl⟩ := List.mem_map.1 ((mem_normaliseRows hn last).1 hlast)
  refine ⟨row, hrow, hlastGone, ?_, (hok _ hlast).servable hlastGone⟩
  dsimp only
  rw [htarget]
  rfl

/-- Every Location that a plan serves, with any query, is read against the site as a URL of the site's origin or of the
origin of an external address in its approved form, which is the target of a row. -/
theorem answer_stays_or_approved {rows : List RedirectTableRow} {style : RedirectPageUrlStyle}
    {servedFiles : List (List Char)} {plan : RedirectPlan}
    (h : buildRedirectPlan (newUrl parseHost otherUrl) rows style servedFiles = .ok plan) (site : WebUrl)
    {path query : List Char} {status : Nat} {location : List Char}
    (hanswer : plan.answer path query = some (status, location)) :
    ∃ r, parse parseHost (some site) location = some (.web r) ∧
      (r.origin = site.origin ∨
        ∃ row ∈ rows, row.statusCode ≠ goneStatus ∧ isExternalRedirectTarget row.toPath = true ∧
          externalRedirectTargetIssue (newUrl parseHost otherUrl) row.toPath = none ∧
          ∃ a, parse parseHost none row.toPath = some (.web a) ∧ r.origin = a.origin) := by
  obtain ⟨entry, hentry, tail, rfl, htail⟩ := answer_spec hanswer
  obtain ⟨row, hrow, hgone, hloc, hserv⟩ := row_of_live h hentry
  have hblank : ∀ c ∈ row.toPath, isBlank c = false := fun c hc => not_blank_of_servable hserv hc
  rcases servable_cases hserv with ⟨hext, -⟩ | ⟨hext, hhead, -, hback, hslash⟩
  · -- an address is served as it is stored
    have hissue : externalRedirectTargetIssue (newUrl parseHost otherUrl) row.toPath = none := by
      rw [servableRedirectTargetIssue, if_pos hext] at hserv
      exact hserv
    obtain ⟨a, r, ha, hr, horigin⟩ := parse_of_external hext hissue hblank htail (some site)
    rw [hloc, locationFor, if_pos hext]
    exact ⟨r, hr, Or.inr ⟨row, hrow, hgone, hext, hissue, a, ha, horigin⟩⟩
  · obtain ⟨s, hs, hsecond⟩ := locationFor_single_slash hhead hback hslash style
    have hplain : ∀ c ∈ '/' :: s, Web.isC0OrSpace c = false := by
      intro c hc
      rw [← hs] at hc
      rcases mem_locationFor hc with hc | rfl
      · exact isC0OrSpace_of_not_blank (hblank c hc)
      · decide
    obtain ⟨tail', hclean, htail'⟩ := Web.cleanInput_append_tail (by simp) hplain htail
    have hsecond' : ∀ c ∈ (s ++ tail').head?, Web.isSlash c = false := by
      intro c hc
      cases s with
      | cons d s => exact hsecond c hc
      | nil =>
        rcases htail' with rfl | ⟨q, rfl⟩
        · cases hc
        · rw [← Option.some.inj hc]
          decide
    obtain ⟨r, hr, horigin⟩ := Web.parse_of_slash parseHost site hclean hsecond'
    rw [hloc, hs]
    exact ⟨r, hr, Or.inl horigin⟩

def sampleSite : WebUrl := ⟨.https, [], [], "site.example".toList, none, [[]], none, none⟩

/-- A chain that ends at another site. -/
def awayRows : List RedirectTableRow :=
  [⟨"/a".toList, "/b".toList, 301⟩, ⟨"/b/".toList, "https://calendar.example/book".toList, 302⟩]

def awayUrl : List Char → Option Url := newUrl (fun host => some (host.map Char.toLower)) (fun _ => none)

def awayPlan : RedirectPlan := (buildRedirectPlan awayUrl awayRows .directory []).toOption.getD ⟨[], [], []⟩

theorem answer_stays_or_approved_away :
    awayPlan.answer "/a/".toList "x=1".toList = some (302, "https://calendar.example/book?x=1".toList) ∧
    ∃ r, parse (fun host => some (host.map Char.toLower)) (some sampleSite) "https://calendar.example/book?x=1".toList =
        some (.web r) ∧
      (r.origin = sampleSite.origin ∨
        ∃ row ∈ awayRows, row.statusCode ≠ goneStatus ∧ isExternalRedirectTarget row.toPath = true ∧
          externalRedirectTargetIssue awayUrl row.toPath = none ∧
          ∃ a, parse (fun host => some (host.map Char.toLower)) none row.toPath = some (.web a) ∧
            r.origin = a.origin) := by
  have hplan : buildRedirectPlan awayUrl awayRows .directory [] = .ok awayPlan := by rfl
  have hanswer : awayPlan.answer "/a/".toList "x=1".toList =
      some (302, "https://calendar.example/book?x=1".toList) := by decide +kernel
  exact ⟨hanswer, answer_stays_or_approved hplan sampleSite hanswer⟩

end CaeloCms.Redirect
