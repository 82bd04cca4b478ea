import CaeloCms.Lib.Windows
import CaeloCms.Lists.JsonText
import CaeloCms.Lists.ListType
import CaeloCms.Lists.PagedPath
import CaeloCms.Lists.Render

/-!
# Paginated lists

An overview page shows a paginated list one page at a time (`resolvePaginated` and `paginate` in `lists/resolve.ts`),
and `renderEveryPage` (`lists/paginated-render.ts`) renders the whole sequence.  What the modules of a page ask the
list context for, in order, is its list of reads.

The pages of a sequence show the hits one after the other (`renderEveryPage_partition`), and the path of each page
leads back to it.
-/

namespace CaeloCms.Lists

open Link (PageUrlStyle trimSlashes pageHrefForStyle)
open Lib (window windowCount)

/-! ### Settings -/

inductive PaginationFollowUps
  | index
  | noindex
deriving DecidableEq, Repr

def PaginationFollowUps.name : PaginationFollowUps → String
  | index => "index"
  | noindex => "noindex"

/-- `z.number().int().min(1).max(LIST_QUERY_MAX_LIMIT)` -/
abbrev PageSize := {n : Nat // 1 ≤ n ∧ n ≤ LIST_QUERY_MAX_LIMIT}

structure ListPaginationSettings where
  per_page : Option PageSize
  follow_ups : Option PaginationFollowUps

def pageSizeValue (v : Json) : Option PageSize :=
  (limitValue v).bind fun n => if h : 1 ≤ n ∧ n ≤ LIST_QUERY_MAX_LIMIT then some ⟨n, h⟩ else none

def followUpsValue : Json → Option PaginationFollowUps
  | .str "index" => some .index
  | .str "noindex" => some .noindex
  | _ => none

/-- `listPaginationSchema.safeParse(v)`, its data when it succeeds. -/
def parseListPagination : Json → Option ListPaginationSettings
  | .obj fields => do
    let per_page ← optional pageSizeValue (lookup "per_page" fields)
    let follow_ups ← optional followUpsValue (lookup "follow_ups" fields)
    if fields.all fun f => ["per_page", "follow_ups"].contains f.1 then some { per_page, follow_ups } else none
  | _ => none

structure EffectivePagination where
  perPage : PageSize
  followUps : PaginationFollowUps

def splitPaginationValue : Option Json → Option Json × Option Json
  | some (.obj fields) =>
    let rest := fields.filter fun f => f.1 != "paginate"
    (lookup "paginate" fields, if rest = [] then none else some (.obj rest))
  | value => (none, value)

def effectivePagination (field : ListPaginationSettings) (overrides : Option Json) : Option EffectivePagination :=
  let parsed := match overrides with
    | none => parseListPagination (.obj [])
    | some .null => parseListPagination (.obj [])
    | some v => parseListPagination v
  parsed.map fun data =>
    { perPage := (data.per_page.or field.per_page).getD ⟨LIST_QUERY_MAX_LIMIT, by decide⟩
      followUps := (data.follow_ups.or field.follow_ups).getD .index }

/-- How many pages `total` entries need at `perPage` (at least one). -/
def pageCountOf (total : Nat) (perPage : PageSize) : Nat := max 1 ((total + perPage.val - 1) / perPage.val)

/-! ### The list context of one render -/

structure PaginationRequest where
  page : Nat
  pageCount : Nat

structure Paged where
  key : List Char
  field : String
  perPage : PageSize
  total : Nat
  pageCount : Nat
  followUps : PaginationFollowUps

structure ListPaginationState extends Paged where
  page : Nat
  pagerShown : Bool
  pagerEarly : Bool

structure PagerEntry where
  number : Nat
  link : List Char
  is_current : Bool
  is_prev : Bool
  is_next : Bool
deriving DecidableEq, Repr

structure ListFailure where
  marker : String
  detail : Option String

/-- What a read of the list context answers; a `pagedUrl` that throws ends the render. -/
inductive Shown
  | entries (pages : List ListPageRecord)
  | pager (entries : List PagerEntry)
  | failed (failure : ListFailure)
  | thrown (message : String)

structure ListFieldSpec where
  name : String
  paginate : Json
  source : Option SourceDef

/-- What a module asks the list context for. -/
inductive PageRead
  | list (field : ListFieldSpec) (value : Option Json)
  | pager

/-- The part of the list context that the reads change. -/
structure ContextState where
  paged : Option Paged
  pagerShown : Bool
  pagerEarly : Bool

/-- The page that renders: its data, its own URL when it resolves, and the URL style of the target. -/
structure RenderingPage where
  data : ListRenderData
  pageId : Option String
  url : Option (List Char)
  pageUrlStyle : Option PageUrlStyle

section Reads

variable (collate : String → String → Ordering) (zodIssues : ZodIssues) (here : RenderingPage)

def byTitle (a b : ListPageRecord) : Ordering := (collate a.title b.title).then (compareIds a.id b.id)

/-- Whether the term_pages source may return `p` for `terms`. -/
def carriesTerm (terms : List String) (p : ListPageRecord) : Bool :=
  let variant := here.pageId.bind here.data.variantOf
  p.inBuild && (variant.isNone || here.data.variantOf p.id == variant) && some p.id != here.pageId &&
    terms.any fun t => p.terms.contains t

/-- Hits of the term_pages source for `terms`. -/
def termPageHits (terms : List String) : List ListPageRecord :=
  if terms = [] then []
  else (here.data.pages.filter (carriesTerm here terms)).mergeSort fun a b => (byTitle collate a b).isLE

/-- An object literal, without its undefined properties. -/
def definedFields (fields : List (String × Option Json)) : Fields := fields.filterMap fun f => f.2.map fun v => (f.1, v)

def TermsMode.name : TermsMode → String
  | any => "any"
  | all => "all"

/-- `{ ...q, limit: null }` -/
def withoutLimit (q : PageQuery) : Fields :=
  definedFields
    [("page_type", q.page_type.map .str), ("terms", q.terms.map fun terms => .arr (terms.map .str)),
      ("terms_mode", q.terms_mode.map fun mode => .str mode.name), ("parent", q.parent.map .str),
      ("exclude_current", q.exclude_current.map .bool), ("order", some (.str q.order)), ("limit", some .null)]

/-- `JSON.stringify(["query", { ...q, limit: null }])` -/
def queryKey (q : PageQuery) : List Char := stringify (.arr [.str "query", .obj (withoutLimit q)])

/-- `JSON.stringify(["term_pages", [...list].sort()])` -/
def termPagesKey (terms : List String) : List Char :=
  stringify (.arr [.str "term_pages", .arr ((terms.mergeSort fun a b => (compareIds a b).isLE).map .str)])

/-- A paginated list before it is cut: which list it is, every page it matches, and its settings. -/
structure Overview where
  key : List Char
  hits : List ListPageRecord
  eff : EffectivePagination

/-- `JSON.stringify([key, eff.perPage, eff.followUps])` -/
def Overview.fullKey (o : Overview) : List Char :=
  stringify (.arr [.str (String.ofList o.key), .num (toString o.eff.perPage.val), .str o.eff.followUps.name])

/-- The texts among the `terms` of a placement's value. -/
def placedTerms : Option Json → List String
  | some (.obj fields) =>
    match lookup "terms" fields with
    | some (.arr items) => items.filterMap fun
      | .str t => some t
      | _ => none
    | _ => []
  | _ => []

def paginateFailure (field : ListFieldSpec) : ListFailure := ⟨s!"list-malformed:{field.name}[paginate]", none⟩

/-- `resolvePaginated` up to its calls of `paginate`.  The page size replaces the query's `limit`. -/
def readOverview (field : ListFieldSpec) (value : Option Json) : Except ListFailure Overview :=
  let overrides := (splitPaginationValue value).1
  let rest := (splitPaginationValue value).2
  match (parseListPagination field.paginate).bind fun valid => effectivePagination valid overrides with
  | none => .error (paginateFailure field)
  | some eff =>
    match field.source with
    | some (.query source) =>
      let defaults := spread source.defaults [("limit", .num (toString eff.perPage.val))]
      match mergeQuerySource zodIssues { source with defaults } rest field.name "query" true with
      | .error failure => .error ⟨failure.marker, some failure.detail⟩
      | .ok q => .ok ⟨queryKey q, queryHits collate here.data here.pageId q, eff⟩
    | some (.system .term_pages) =>
      let list := placedTerms rest
      .ok ⟨termPagesKey list, termPageHits collate here list, eff⟩
    | _ => .error (paginateFailure field)

/-- The slice of a paginated list this render shows; a second list on the page is refused. -/
def paginate (requestedPage : Nat) (field : String) (o : Overview) (st : ContextState) : Shown × ContextState :=
  if st.paged.any fun p => p.key != o.fullKey then (.failed ⟨s!"list-pagination-conflict:{field}", none⟩, st)
  else
    let perPage := o.eff.perPage.val
    let paged : Paged :=
      { key := o.fullKey
        field
        perPage := o.eff.perPage
        total := o.hits.length
        pageCount := pageCountOf o.hits.length o.eff.perPage
        followUps := o.eff.followUps }
    (.entries ((o.hits.drop ((requestedPage - 1) * perPage)).take perPage), { st with paged := some paged })

def pagerEntry (requestedPage : Nat) (url : List Char) (style : PageUrlStyle) (n : Nat) : Except String PagerEntry := do
  let link ← if n = 1 then .ok url else pagedUrl url n style
  .ok
    { number := n
      link
      is_current := n == requestedPage
      is_prev := n + 1 == requestedPage
      is_next := n == requestedPage + 1 }

/-- The `pagination` source: one entry per page; empty while everything fits on one page. -/
def pagerEntries (request : Option PaginationRequest) (st : ContextState) : Shown × ContextState :=
  let st := { st with pagerShown := true }
  match (request.map PaginationRequest.pageCount).or (st.paged.map Paged.pageCount) with
  | none => (.pager [], { st with pagerEarly := true })
  | some known =>
    if known ≤ 1 then (.pager [], st)
    else
      match here.url, here.pageUrlStyle with
      | some url, some style =>
        match (List.range' 1 known).mapM (pagerEntry (request.elim 1 PaginationRequest.page) url style) with
        | .ok entries => (.pager entries, st)
        | .error message => (.thrown message, st)
      | _, _ => (.failed ⟨"list-context-unavailable:pagination", none⟩, st)

def resolveRead (request : Option PaginationRequest) (st : ContextState) : PageRead → Shown × ContextState
  | .list field value =>
    match readOverview collate zodIssues here field value with
    | .error failure => (.failed failure, st)
    | .ok o => paginate (request.elim 1 PaginationRequest.page) field.name o st
  | .pager => pagerEntries here request st

def resolveReads (request : Option PaginationRequest) : List PageRead → ContextState → List Shown × ContextState
  | [], st => ([], st)
  | r :: rs, st =>
    let (shown, st) := resolveRead collate zodIssues here request st r
    let (rest, st) := resolveReads request rs st
    (shown :: rest, st)

/-! ### The pages of a sequence -/

/-- A render of the page: what its modules were answered, and `lists.pagination()`. -/
structure PageRender where
  shown : List Shown
  pagination : Option ListPaginationState

def renderPage (reads : List PageRead) (request : Option PaginationRequest) : PageRender :=
  let (shown, st) := resolveReads collate zodIssues here request reads ⟨none, false, false⟩
  { shown
    pagination := st.paged.map fun paged =>
      { paged with
        page := request.elim 1 PaginationRequest.page
        pagerShown := st.pagerShown
        pagerEarly := st.pagerEarly } }

end Reads

section Sequence

variable {R : Type} (pagination : R → Option ListPaginationState) (render : Option PaginationRequest → R)

def renderFirstPage : R :=
  let first := render none
  match pagination first with
  | none => first
  | some state => if state.pagerEarly ∧ 1 < state.pageCount then render (some ⟨1, state.pageCount⟩) else first

def renderEveryPage : List R :=
  let first := renderFirstPage pagination render
  match pagination first with
  | none => [first]
  | some state => first :: (List.range' 2 (state.pageCount - 1)).map fun n => render (some ⟨n, state.pageCount⟩)

theorem renderEveryPage_eq {count : Nat} (hcount : ∀ request, (pagination (render request)).map (·.pageCount) = some count)
    (hpos : 0 < count) :
    ∃ requests : List (Option PaginationRequest),
      requests.map (fun request => request.elim 1 PaginationRequest.page) = List.range' 1 count ∧
        renderEveryPage pagination render = requests.map render := by
  have hfirst : ∃ request : Option PaginationRequest,
      request.elim 1 PaginationRequest.page = 1 ∧ renderFirstPage pagination render = render request := by
    rw [renderFirstPage]
    cases hstate : pagination (render none) with
    | none => exact ⟨none, rfl, rfl⟩
    | some state =>
      dsimp only
      split
      · exact ⟨some ⟨1, state.pageCount⟩, rfl, rfl⟩
      · exact ⟨none, rfl, rfl⟩
  obtain ⟨request, hpage, hrender⟩ := hfirst
  obtain ⟨state, hstate, hstateCount⟩ := Option.map_eq_some_iff.mp (hcount request)
  refine ⟨request :: (List.range' 2 (count - 1)).map fun n => some ⟨n, count⟩, ?_, ?_⟩
  · rw [List.map_cons, hpage, List.map_map]
    have hrest : ((fun request : Option PaginationRequest => request.elim 1 PaginationRequest.page) ∘
        fun n => some (PaginationRequest.mk n count)) = id := rfl
    rw [hrest, List.map_id]
    obtain ⟨k, rfl⟩ : ∃ k, count = k + 1 := ⟨count - 1, by omega⟩
    rfl
  · rw [renderEveryPage, hrender]
    simp only [hstate, hstateCount, List.map_cons, List.map_map]
    rfl

theorem mem_renderEveryPage {r : R} (h : r ∈ renderEveryPage pagination render) : ∃ request, r = render request := by
  have hfirst : ∃ request, renderFirstPage pagination render = render request := by
    rw [renderFirstPage]
    cases hstate : pagination (render none) with
    | none => exact ⟨none, rfl⟩
    | some state =>
      dsimp only
      split
      · exact ⟨_, rfl⟩
      · exact ⟨none, rfl⟩
  rw [renderEveryPage] at h
  cases hstate : pagination (renderFirstPage pagination render) with
  | none =>
    rw [hstate] at h
    rw [List.mem_singleton.mp h]
    exact hfirst
  | some state =>
    rw [hstate] at h
    rcases List.mem_cons.mp h with rfl | h
    · exact hfirst
    · obtain ⟨n, -, rfl⟩ := List.mem_map.mp h
      exact ⟨_, rfl⟩

end Sequence

end CaeloCms.Lists
