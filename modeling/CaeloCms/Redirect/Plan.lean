import CaeloCms.Lib.Table
import CaeloCms.Redirect.Target

/-!
# The redirect plan

`redirect-plan.ts`: the rows of the `redirects` table, checked, with the chains collapsed, as the entries every
serving layer answers.  A `Map` is the list of its entries in insertion order.  The build is the set of its files'
paths.
-/

namespace CaeloCms.Redirect

variable (parseUrl : List Char → Option Url)

structure RedirectTableRow where
  fromPath : List Char
  toPath : List Char
  statusCode : Nat
deriving DecidableEq, Repr

inductive RedirectPageUrlStyle
  | directory
  | noExtension
deriving DecidableEq, Repr

structure PlannedRedirect where
  fromPath : List Char
  matchPaths : List (List Char)
  location : List Char
  statusCode : Nat
  preserveQuery : Bool
deriving DecidableEq, Repr

structure PlannedGone where
  fromPath : List Char
  matchPaths : List (List Char)
deriving DecidableEq, Repr

structure RedirectPlan where
  redirects : List PlannedRedirect
  gone : List PlannedGone
  shadowedByBuild : List (List Char)
deriving DecidableEq, Repr

structure NormalisedRow where
  bare : List Char
  toPath : List Char
  statusCode : Nat
deriving DecidableEq, Repr

def redirectStatuses : List Nat := [301, 302, 307, 308]

def goneStatus : Nat := 410

/-! ### Paths -/

def trimTrailingSlashes (s : List Char) : List Char := (s.reverse.dropWhile fun c => c == '/').reverse

def stripTrailingSlash (path : List Char) : List Char :=
  if 1 < path.length then
    if (trimTrailingSlashes path).isEmpty then ['/'] else trimTrailingSlashes path
  else path

/-- The part of a stored path before its first `?` or `#` (`/` if empty). -/
def pathBeforeQuery (path : List Char) : List Char :=
  let cut := path.takeWhile fun c => !isQueryMark c
  if cut.isEmpty then ['/'] else cut

/-- `path.slice(path.lastIndexOf("/") + 1)` -/
def lastSegment (path : List Char) : List Char := (path.reverse.takeWhile fun c => c != '/').reverse

/-- Whether the last path segment names a file (`/a/b.html`). -/
def looksLikeFile (path : List Char) : Bool := (lastSegment path).contains '.'

def matchPathsFor (bare : List Char) : List (List Char) :=
  if bare = ['/'] ∨ looksLikeFile bare = true then [bare] else [bare, bare ++ ['/']]

/-- Does a file of the build answer `bare`? -/
def servedByBuild (bare : List Char) (servedFiles : List (List Char)) : Bool :=
  if bare = ['/'] then servedFiles.contains "index.html".toList
  else servedFiles.contains (bare.drop 1) || servedFiles.contains (bare.drop 1 ++ "/index.html".toList)

def locationFor (toPath : List Char) (pageUrlStyle : RedirectPageUrlStyle) : List Char :=
  if isExternalRedirectTarget toPath then toPath
  else if pageUrlStyle ≠ .directory ∨ toPath.getLast? = some '/' then toPath
  else if hasQueryMark toPath || looksLikeFile toPath then toPath
  else toPath ++ ['/']

/-! ### Statuses -/

def isPermanent (status : Nat) : Bool := status == 301 || status == 308

def preservesRequestMethod (status : Nat) : Bool := status == 307 || status == 308

def combinedStatus (permanent preservesMethod : Bool) : Nat :=
  if permanent then if preservesMethod then 308 else 301 else if preservesMethod then 307 else 302

/-! ### Rows -/

/-- The checks of one row in `normaliseRows`; the message of the error it throws. -/
def rowIssue (row : RedirectTableRow) : Option String :=
  let name := shown row.fromPath
  if row.fromPath.head? ≠ some '/' ∨ row.fromPath.any isBlank = true then
    some s!"redirect-plan: from path {name} must start with '/' and contain no whitespace or control characters. Fix the row with bulk_create_redirects (upsert) or delete it with bulk_delete_redirects, then rebuild."
  else if hasQueryMark row.fromPath then
    some s!"redirect-plan: from path {name} contains '?' or '#'. Redirects match the URL path only, so this row can never match. Re-create it for the path alone (e.g. '{String.ofList (pathBeforeQuery row.fromPath)}') or delete it with bulk_delete_redirects, then rebuild."
  else if row.statusCode ≠ goneStatus ∧ redirectStatuses.contains row.statusCode = false then
    some s!"redirect-plan: the redirect for {name} has status {row.statusCode}; the redirects table allows 301, 302, 307, 308 or 410. Fix the row and rebuild."
  else if row.statusCode ≠ goneStatus then
    (servableRedirectTargetIssue parseUrl row.toPath).map fun issue => s!"redirect-plan: the redirect for {name}: {issue}"
  else none

/-- The loop of `normaliseRows`, with the rows it has put out. -/
def normaliseFrom (out : List NormalisedRow) : List RedirectTableRow → Except String (List NormalisedRow)
  | [] => .ok out
  | row :: rows =>
    match rowIssue parseUrl row with
    | some message => .error message
    | none =>
      let bare := stripTrailingSlash row.fromPath
      match out.find? fun r => r.bare == bare with
      | none => normaliseFrom (out ++ [⟨bare, row.toPath, row.statusCode⟩]) rows
      | some existing =>
        if existing.toPath = row.toPath ∧ existing.statusCode = row.statusCode then normaliseFrom out rows
        else
          .error s!"redirect-plan: two redirects answer {shown bare} (with and without the trailing slash) differently: → {String.ofList existing.toPath} ({existing.statusCode}) and → {String.ofList row.toPath} ({row.statusCode}). Delete one with bulk_delete_redirects, then rebuild."

def normaliseRows (rows : List RedirectTableRow) : Except String (List NormalisedRow) := normaliseFrom parseUrl [] rows

/-! ### Chains -/

/-- The row the chain goes on with, unless it ends at `target`. -/
def nextHop (live : List NormalisedRow) (target : List Char) : Option NormalisedRow :=
  if hasQueryMark target || isExternalRedirectTarget target then none
  else
    match live.find? fun r => r.bare == stripTrailingSlash target with
    | none => none
    | some next => if next.statusCode = goneStatus then none else some next

def loopMessage (visited : List (List Char)) (bare : List Char) : String :=
  let cycle := String.intercalate " → " ((visited.dropWhile fun v => v != bare).map String.ofList ++ [String.ofList bare])
  s!"redirect-plan: the redirects {cycle} form a loop, which browsers answer with \"too many redirects\". Delete the row that should no longer apply with bulk_delete_redirects (find_redirects lists them), then rebuild."

structure Chain where
  target : List Char
  permanent : Bool
  preservesMethod : Bool

/-- The loop of `collapseChain`.  Each round visits another row of `live`, so `fuel` rounds are enough when `live` has
no more rows than that. -/
def followChain (live : List NormalisedRow) : Nat → List (List Char) → Chain → Except String Chain
  | 0, _, chain => .ok chain
  | fuel + 1, visited, chain =>
    match nextHop live chain.target with
    | none => .ok chain
    | some next =>
      if visited.contains next.bare then .error (loopMessage visited next.bare)
      else
        followChain live fuel (visited ++ [next.bare])
          { target := next.toPath
            permanent := chain.permanent && isPermanent next.statusCode
            preservesMethod := chain.preservesMethod && preservesRequestMethod next.statusCode }

/-- Follow `row`'s target through the plan's own rows to the final hop. -/
def collapseChain (row : NormalisedRow) (live : List NormalisedRow) : Except String (List Char × Nat) :=
  (followChain live (live.length + 1) [row.bare]
    ⟨row.toPath, isPermanent row.statusCode, preservesRequestMethod row.statusCode⟩).map fun chain =>
      (chain.target, combinedStatus chain.permanent chain.preservesMethod)

/-! ### The plan -/

def planRedirect (pageUrlStyle : RedirectPageUrlStyle) (live : List NormalisedRow) (row : NormalisedRow) :
    Except String PlannedRedirect :=
  (collapseChain row live).map fun collapsed =>
    let location := locationFor collapsed.1 pageUrlStyle
    { fromPath := row.bare
      matchPaths := matchPathsFor row.bare
      location := location
      statusCode := collapsed.2
      preserveQuery := !hasQueryMark location }

def liveRows (rows : List NormalisedRow) (servedFiles : List (List Char)) : List NormalisedRow :=
  rows.filter fun row => !servedByBuild row.bare servedFiles

def buildRedirectPlan (rows : List RedirectTableRow) (pageUrlStyle : RedirectPageUrlStyle)
    (servedFiles : List (List Char)) : Except String RedirectPlan := do
  let normalised ← normaliseRows parseUrl rows
  let live := liveRows normalised servedFiles
  let redirects ← (live.filter fun row => row.statusCode ≠ goneStatus).mapM (planRedirect pageUrlStyle live)
  return {
    redirects := redirects
    gone := (live.filter fun row => row.statusCode = goneStatus).map fun row => ⟨row.bare, matchPathsFor row.bare⟩
    shadowedByBuild := (normalised.filter fun row => servedByBuild row.bare servedFiles).map (·.bare) }

/-! ### Trailing slashes -/

theorem trim_eq (s : List Char) : trimTrailingSlashes s = s.rdropWhile fun c => c == '/' := rfl

@[simp] theorem trim_append_slash (s : List Char) : trimTrailingSlashes (s ++ ['/']) = trimTrailingSlashes s := by
  rw [trim_eq, trim_eq, List.rdropWhile_concat_pos _ _ _ (by decide)]

@[simp] theorem trim_trim (s : List Char) : trimTrailingSlashes (trimTrailingSlashes s) = trimTrailingSlashes s := by
  simp only [trim_eq]
  exact List.rdropWhile_idempotent _ _

variable {path : List Char} {live : List NormalisedRow} {α β : Type} {rows : List RedirectTableRow}
  {style : RedirectPageUrlStyle}

/-- A path that starts with a slash loses its trailing slashes, but not the first. -/
theorem strip_cases (h : path.head? = some '/') :
    (trimTrailingSlashes path = [] ∧ stripTrailingSlash path = ['/']) ∨
    (trimTrailingSlashes path ≠ [] ∧ stripTrailingSlash path = trimTrailingSlashes path) := by
  unfold stripTrailingSlash
  by_cases hlen : 1 < path.length
  · rw [if_pos hlen]
    by_cases htrim : trimTrailingSlashes path = []
    · exact Or.inl ⟨htrim, by rw [htrim]; rfl⟩
    · refine Or.inr ⟨htrim, ?_⟩
      rw [if_neg (by simpa using htrim)]
  · rw [if_neg hlen]
    cases path with
    | nil => cases h
    | cons c rest =>
      have hrest : rest = [] := by
        have : rest.length = 0 := by simp only [List.length_cons] at hlen; omega
        exact List.length_eq_zero_iff.1 this
      subst hrest
      obtain rfl : c = '/' := Option.some.inj h
      exact Or.inl ⟨by decide, rfl⟩

theorem strip_append_slash (h : path.head? = some '/') :
    stripTrailingSlash (path ++ ['/']) = stripTrailingSlash path := by
  have h' : (path ++ ['/']).head? = some '/' := by
    cases path with
    | nil => cases h
    | cons c rest => exact h
  rcases strip_cases h with ⟨ht, hs⟩ | ⟨ht, hs⟩ <;> rcases strip_cases h' with ⟨ht', hs'⟩ | ⟨ht', hs'⟩ <;>
    rw [trim_append_slash] at ht'
  · rw [hs, hs']
  · exact absurd ht ht'
  · exact absurd ht' ht
  · rw [hs, hs', trim_append_slash]

theorem head_trim (h : path.head? = some '/') (ht : trimTrailingSlashes path ≠ []) :
    (trimTrailingSlashes path).head? = some '/' := by
  obtain ⟨rest, hrest⟩ := List.rdropWhile_prefix (fun c : Char => c == '/') (l := path)
  rw [← trim_eq] at hrest
  rw [← hrest, List.head?_append_of_ne_nil _ ht] at h
  exact h

theorem head_strip (h : path.head? = some '/') : (stripTrailingSlash path).head? = some '/' := by
  rcases strip_cases h with ⟨-, hs⟩ | ⟨ht, hs⟩
  · rw [hs]
    rfl
  · rw [hs]
    exact head_trim h ht

theorem strip_strip (h : path.head? = some '/') :
    stripTrailingSlash (stripTrailingSlash path) = stripTrailingSlash path := by
  rcases strip_cases h with ⟨-, hs⟩ | ⟨ht, hs⟩
  · rw [hs]
    decide
  · rw [hs]
    rcases strip_cases (head_trim h ht) with ⟨ht', -⟩ | ⟨-, hs'⟩
    · exact absurd ((trim_trim path).symm.trans ht') ht
    · rw [hs', trim_trim]

theorem mem_of_mem_strip (h : path.head? = some '/') {c : Char} (hc : c ∈ stripTrailingSlash path) :
    c ∈ path := by
  rcases strip_cases h with ⟨-, hs⟩ | ⟨-, hs⟩
  · rw [hs, List.mem_singleton] at hc
    exact hc ▸ List.mem_of_mem_head? h
  · rw [hs, trim_eq] at hc
    exact (List.rdropWhile_prefix (fun c => c == '/') path).subset hc

theorem mem_matchPathsFor {bare : List Char} (h : path ∈ matchPathsFor bare) :
    path = bare ∨ path = bare ++ ['/'] := by
  unfold matchPathsFor at h
  split at h
  · exact Or.inl (List.mem_singleton.1 h)
  · simpa using h

theorem strip_of_mem_matchPathsFor {bare : List Char} (hhead : bare.head? = some '/')
    (hbare : stripTrailingSlash bare = bare) (h : path ∈ matchPathsFor bare) : stripTrailingSlash path = bare := by
  rcases mem_matchPathsFor h with rfl | rfl
  · exact hbare
  · rw [strip_append_slash hhead, hbare]

theorem locationFor_cases (target : List Char) (style : RedirectPageUrlStyle) :
    locationFor target style = target ∨
      (locationFor target style = target ++ ['/'] ∧ isExternalRedirectTarget target = false ∧
        hasQueryMark target = false) := by
  unfold locationFor
  split
  · exact Or.inl rfl
  · rename_i hext
    split
    · exact Or.inl rfl
    · split
      · exact Or.inl rfl
      · rename_i hmark
        simp only [Bool.or_eq_true, not_or] at hmark
        exact Or.inr ⟨rfl, by simpa using hext, by simpa using hmark.1⟩

/-! ### What the rows of a plan are -/

variable {parseUrl}

structure RowOk (parseUrl : List Char → Option Url) (r : NormalisedRow) : Prop where
  head : r.bare.head? = some '/'
  stripped : stripTrailingSlash r.bare = r.bare
  blank : ∀ c ∈ r.bare, isBlank c = false
  mark : hasQueryMark r.bare = false
  status : r.statusCode = goneStatus ∨ r.statusCode ∈ redirectStatuses
  servable : r.statusCode ≠ goneStatus → servableRedirectTargetIssue parseUrl r.toPath = none

theorem rowOk_of_rowIssue {row : RedirectTableRow} (h : rowIssue parseUrl row = none) :
    RowOk parseUrl ⟨stripTrailingSlash row.fromPath, row.toPath, row.statusCode⟩ := by
  unfold rowIssue at h
  dsimp only at h
  split at h
  · cases h
  rename_i hpath
  obtain ⟨hhead, hblank⟩ := not_or.1 hpath
  have hhead : row.fromPath.head? = some '/' := by simpa using hhead
  split at h
  · cases h
  rename_i hmark
  split at h
  · cases h
  rename_i hstatus
  refine ⟨head_strip hhead, strip_strip hhead, fun c hc => ?_, ?_, ?_, fun hne => ?_⟩
  · have hblank : row.fromPath.any isBlank = false := by simpa using hblank
    simpa using List.any_eq_false.1 hblank c (mem_of_mem_strip hhead hc)
  · have hmark : row.fromPath.any isQueryMark = false := by simpa [hasQueryMark] using hmark
    exact List.any_eq_false.2 fun c hc => List.any_eq_false.1 hmark c (mem_of_mem_strip hhead hc)
  · by_cases hgone : row.statusCode = goneStatus
    · exact Or.inl hgone
    · refine Or.inr ?_
      by_contra hnot
      exact hstatus ⟨hgone, by simpa using hnot⟩
  · rw [if_pos hne] at h
    exact Option.map_eq_none_iff.1 h

theorem normaliseFrom_ok : ∀ {out res : List NormalisedRow},
    (∀ r ∈ out, RowOk parseUrl r) → (out.map (·.bare)).Nodup → normaliseFrom parseUrl out rows = .ok res →
      (∀ r ∈ res, RowOk parseUrl r) ∧ (res.map (·.bare)).Nodup := by
  induction rows with
  | nil =>
    intro out res hok hnodup h
    cases h
    exact ⟨hok, hnodup⟩
  | cons row rows ih =>
    intro out res hok hnodup h
    unfold normaliseFrom at h
    split at h
    · cases h
    rename_i hissue
    dsimp only at h
    split at h
    · rename_i hnone
      refine ih (fun r hr => ?_) ?_ h
      · rcases List.mem_append.1 hr with hr | hr
        · exact hok r hr
        · rw [List.mem_singleton.1 hr]
          exact rowOk_of_rowIssue hissue
      · rw [List.map_append, List.nodup_append]
        refine ⟨hnodup, List.nodup_singleton _, fun a ha b hb heq => ?_⟩
        obtain ⟨r, hr, rfl⟩ := List.mem_map.1 ha
        have hne := List.find?_eq_none.1 hnone r hr
        simp only [List.map_cons, List.map_nil, List.mem_singleton] at hb
        exact hne (by simpa [hb] using heq)
    · split at h
      · exact ih hok hnodup h
      · cases h

theorem normaliseRows_ok {res : List NormalisedRow}
    (h : normaliseRows parseUrl rows = .ok res) : (∀ r ∈ res, RowOk parseUrl r) ∧ (res.map (·.bare)).Nodup :=
  normaliseFrom_ok (fun _ hr => (List.not_mem_nil hr).elim) List.nodup_nil h

theorem nextHop_spec {target : List Char} {next : NormalisedRow}
    (h : nextHop live target = some next) :
    next ∈ live ∧ next.bare = stripTrailingSlash target ∧ next.statusCode ≠ goneStatus := by
  unfold nextHop at h
  split at h
  · cases h
  split at h
  · cases h
  rename_i r hr
  split at h
  · cases h
  rename_i hgone
  obtain rfl : r = next := Option.some.inj h
  exact ⟨List.mem_of_find?_eq_some hr, by simpa using List.find?_some hr, hgone⟩

theorem exists_of_map_ok {x : Except String α} {f : α → β} {b : β} (h : x.map f = .ok b) :
    ∃ a, x = .ok a ∧ f a = b := by
  cases x with
  | error e => cases h
  | ok a => exact ⟨a, rfl, Except.ok.inj h⟩

/-- The loop ends where no row goes on, at the target of the first or of another row. -/
theorem followChain_end : ∀ {fuel : Nat} {visited : List (List Char)} {chain res : Chain},
    visited.Nodup → (∀ v ∈ visited, v ∈ live.map (·.bare)) → live.length < visited.length + fuel →
      followChain live fuel visited chain = .ok res →
        nextHop live res.target = none ∧
          (res.target = chain.target ∨ ∃ r ∈ live, r.statusCode ≠ goneStatus ∧ res.target = r.toPath) := by
  intro fuel
  induction fuel with
  | zero =>
    intro visited chain res hnodup hsub hlen _
    -- more paths were visited than there are rows
    have hle : visited.length ≤ (live.map (·.bare)).length := (hnodup.subperm hsub).length_le
    rw [List.length_map] at hle
    omega
  | succ fuel ih =>
    intro visited chain res hnodup hsub hlen h
    unfold followChain at h
    split at h
    · rename_i hnone
      cases h
      exact ⟨hnone, Or.inl rfl⟩
    rename_i next hnext
    obtain ⟨hmem, -, hgone⟩ := nextHop_spec hnext
    split at h
    · cases h
    rename_i hnew
    have hnew : next.bare ∉ visited := by simpa using hnew
    have hnodup' : (visited ++ [next.bare]).Nodup := by
      rw [List.nodup_append]
      exact ⟨hnodup, List.nodup_singleton _, fun a ha b hb heq => hnew (List.mem_singleton.1 hb ▸ heq ▸ ha)⟩
    have hsub' : ∀ v ∈ visited ++ [next.bare], v ∈ live.map (·.bare) := by
      intro v hv
      rcases List.mem_append.1 hv with hv | hv
      · exact hsub v hv
      · rw [List.mem_singleton.1 hv]
        exact List.mem_map_of_mem hmem
    have hlen' : live.length < (visited ++ [next.bare]).length + fuel := by
      rw [List.length_append, List.length_singleton]
      omega
    obtain ⟨hend, htarget⟩ := ih hnodup' hsub' hlen' h
    refine ⟨hend, Or.inr ?_⟩
    rcases htarget with htarget | htarget
    · exact ⟨next, hmem, hgone, htarget⟩
    · exact htarget

theorem collapseChain_ok {row : NormalisedRow} (hrow : row ∈ live)
    (hgone : row.statusCode ≠ goneStatus) {target : List Char} {status : Nat}
    (h : collapseChain row live = .ok (target, status)) :
    nextHop live target = none ∧ ∃ r ∈ live, r.statusCode ≠ goneStatus ∧ target = r.toPath := by
  obtain ⟨chain, hf, heq⟩ := exists_of_map_ok h
  cases heq
  have hvisited : ∀ v ∈ [row.bare], v ∈ live.map (·.bare) := by
    intro v hv
    rw [List.mem_singleton.1 hv]
    exact List.mem_map_of_mem hrow
  have hlen : live.length < [row.bare].length + (live.length + 1) := by
    rw [List.length_singleton]
    omega
  obtain ⟨hend, htarget⟩ := followChain_end (List.nodup_singleton _) hvisited hlen hf
  exact ⟨hend, htarget.elim (fun heq => ⟨row, hrow, hgone, heq⟩) id⟩

theorem combinedStatus_mem (permanent preservesMethod : Bool) :
    combinedStatus permanent preservesMethod ∈ redirectStatuses := by
  cases permanent <;> cases preservesMethod <;> decide

structure EntryOk (parseUrl : List Char → Option Url) (style : RedirectPageUrlStyle) (live : List NormalisedRow)
    (r : PlannedRedirect) (target : List Char) : Prop where
  matches_eq : r.matchPaths = matchPathsFor r.fromPath
  location : r.location = locationFor target style
  status : r.statusCode ∈ redirectStatuses
  query : r.preserveQuery = !hasQueryMark r.location
  chain : nextHop live target = none
  servable : servableRedirectTargetIssue parseUrl target = none

theorem planRedirect_ok (hlive : ∀ r ∈ live, RowOk parseUrl r)
    {row : NormalisedRow} (hrow : row ∈ live) (hgone : row.statusCode ≠ goneStatus) {r : PlannedRedirect}
    (h : planRedirect style live row = .ok r) :
    r.fromPath = row.bare ∧ ∃ target, EntryOk parseUrl style live r target := by
  obtain ⟨collapsed, hc, rfl⟩ := exists_of_map_ok h
  obtain ⟨hend, r, hr, hrgone, htarget⟩ := collapseChain_ok hrow hgone hc
  have hserv := (hlive r hr).servable hrgone
  have hstatus : collapsed.2 ∈ redirectStatuses := by
    obtain ⟨chain, -, rfl⟩ := exists_of_map_ok hc
    exact combinedStatus_mem _ _
  exact ⟨rfl, collapsed.1, rfl, rfl, hstatus, rfl, hend, htarget ▸ hserv⟩

theorem forall₂_of_mapM_ok {f : α → Except String β} : ∀ {l : List α} {res : List β},
    l.mapM f = .ok res → List.Forall₂ (fun a b => f a = .ok b) l res := by
  intro l
  induction l with
  | nil =>
    intro res h
    cases h
    exact .nil
  | cons a l ih =>
    intro res h
    rw [List.mapM_cons] at h
    cases ha : f a with
    | error e =>
      rw [ha] at h
      cases h
    | ok b =>
      cases hl : l.mapM f with
      | error e =>
        rw [ha, hl] at h
        cases h
      | ok bs =>
        rw [ha, hl] at h
        cases h
        exact .cons ha (ih hl)

theorem exists_of_mapM_ok {f : α → Except String β} {l : List α} {res : List β}
    (h : l.mapM f = .ok res) : ∀ b ∈ res, ∃ a ∈ l, f a = .ok b :=
  Table.exists_of_forall₂ (forall₂_of_mapM_ok h).flip

theorem ok_of_mapM_ok {f : α → Except String β} {l : List α} {res : List β} (h : l.mapM f = .ok res) :
    ∀ a ∈ l, ∃ b, f a = .ok b := by
  intro a ha
  obtain ⟨b, -, hb⟩ := Table.exists_of_forall₂ (forall₂_of_mapM_ok h) a ha
  exact ⟨b, hb⟩

structure PlanOk (parseUrl : List Char → Option Url) (style : RedirectPageUrlStyle) (live : List NormalisedRow)
    (plan : RedirectPlan) : Prop where
  rows : ∀ r ∈ live, RowOk parseUrl r
  nodup : (live.map (·.bare)).Nodup
  redirects : ∀ r ∈ plan.redirects, ∃ row ∈ live, row.statusCode ≠ goneStatus ∧ r.fromPath = row.bare ∧
    ∃ target, EntryOk parseUrl style live r target
  gone : ∀ g ∈ plan.gone, ∃ row ∈ live, row.statusCode = goneStatus ∧ g.fromPath = row.bare ∧
    g.matchPaths = matchPathsFor row.bare
  froms : (plan.redirects.map (·.fromPath) ++ plan.gone.map (·.fromPath)).Perm (live.map (·.bare))

/-- The results of `mapM`, read through what each of them keeps of its input. -/
theorem map_of_mapM_ok {γ : Type} {f : α → Except String β} {g : β → γ} {g' : α → γ}
    (hfg : ∀ a b, f a = .ok b → g b = g' a) {l : List α} {res : List β} (h : l.mapM f = .ok res) :
    res.map g = l.map g' := by
  have hall := forall₂_of_mapM_ok h
  clear h
  induction hall with
  | nil => rfl
  | cons ha _ ih => rw [List.map_cons, List.map_cons, hfg _ _ ha, ih]

theorem fromPath_of_planRedirect (row : NormalisedRow)
    (r : PlannedRedirect) (h : planRedirect style live row = .ok r) : r.fromPath = row.bare := by
  obtain ⟨collapsed, -, rfl⟩ := exists_of_map_ok h
  rfl

theorem buildRedirectPlan_ok
    {servedFiles : List (List Char)} {plan : RedirectPlan}
    (h : buildRedirectPlan parseUrl rows style servedFiles = .ok plan) :
    ∃ live, PlanOk parseUrl style live plan := by
  unfold buildRedirectPlan at h
  cases hn : normaliseRows parseUrl rows with
  | error e =>
    rw [hn] at h
    cases h
  | ok normalised =>
    rw [hn] at h
    dsimp only [bind, Except.bind] at h
    split at h
    · cases h
    rename_i redirects hredirects
    cases h
    obtain ⟨hok, hnodup⟩ := normaliseRows_ok hn
    have hlive : ∀ r ∈ liveRows normalised servedFiles, RowOk parseUrl r :=
      fun r hr => hok r (List.mem_filter.1 hr).1
    refine ⟨liveRows normalised servedFiles, hlive, ?_, fun r hr => ?_, fun g hg => ?_, ?_⟩
    · exact hnodup.sublist (List.filter_sublist.map _)
    · obtain ⟨row, hrow, hf⟩ := exists_of_mapM_ok hredirects r hr
      obtain ⟨hrow, hgone⟩ := List.mem_filter.1 hrow
      have hgone : row.statusCode ≠ goneStatus := by simpa using hgone
      exact ⟨row, hrow, hgone, planRedirect_ok hlive hrow hgone hf⟩
    · obtain ⟨row, hrow, rfl⟩ := List.mem_map.1 hg
      obtain ⟨hrow, hgone⟩ := List.mem_filter.1 hrow
      exact ⟨row, hrow, by simpa using hgone, rfl, rfl⟩
    · have hfroms := map_of_mapM_ok fromPath_of_planRedirect hredirects
      have hperm := List.filter_append_perm (fun row : NormalisedRow => decide (row.statusCode ≠ goneStatus))
        (liveRows normalised servedFiles)
      have hnot : (fun row : NormalisedRow => !decide (row.statusCode ≠ goneStatus)) =
          fun row => decide (row.statusCode = goneStatus) := by
        funext row
        by_cases hgone : row.statusCode = goneStatus <;> simp [hgone]
      rw [hnot] at hperm
      rw [hfroms, List.map_map]
      have hmap := hperm.map (·.bare)
      rw [List.map_append] at hmap
      exact hmap

end CaeloCms.Redirect
