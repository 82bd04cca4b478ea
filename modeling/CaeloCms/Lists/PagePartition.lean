import CaeloCms.Lists.Pagination

/-!
# The pages of an overview

A paginated list shows the same hits in every render of a sequence, cut at the page the render is for.  Two lists with
one key are the same list, so the page count of the sequence is the count of the list that shows.
-/

namespace CaeloCms.Lists

open Link (PageUrlStyle trimSlashes pageHrefForStyle)
open Redirect (natText)
open Lib (window windowCount)

/-! ### Keys -/

theorem numbersReadItems_iff (items : List Json) :
    numbersReadItems items = true ↔ ∀ v ∈ items, numbersRead v = true := by
  induction items with
  | nil => simp [numbersReadItems]
  | cons v vs ih => simp [numbersReadItems, ih]

theorem numbersReadFields_iff (fields : Fields) :
    numbersReadFields fields = true ↔ ∀ f ∈ fields, numbersRead f.2 = true := by
  induction fields with
  | nil => simp [numbersReadFields]
  | cons f fs ih => simp [numbersReadFields, ih]

theorem definedFields_cons (k : String) (v : Option Json) (fs : List (String × Option Json)) :
    definedFields ((k, v) :: fs) = (v.map fun v => (k, v)).toList ++ definedFields fs := by
  cases v <;> rfl

theorem mem_definedFields {k : String} {v : Json} {fs : List (String × Option Json)} (h : (k, v) ∈ definedFields fs) :
    (k, some v) ∈ fs := by
  obtain ⟨f, hf, hsome⟩ := List.mem_filterMap.mp h
  obtain ⟨w, hw, heq⟩ := Option.map_eq_some_iff.mp hsome
  obtain ⟨rfl, rfl⟩ := Prod.mk.inj heq
  rw [← hw]
  exact hf

/-- Object literals with the same property names that read the same have the same values. -/
theorem definedFields_injective {fs gs : List (String × Option Json)} (hnames : fs.map (·.1) = gs.map (·.1))
    (hnodup : (fs.map (·.1)).Nodup) (h : definedFields fs = definedFields gs) : fs = gs := by
  induction fs generalizing gs with
  | nil =>
    cases gs with
    | nil => rfl
    | cons g gs => cases hnames
  | cons f fs ih =>
    obtain ⟨k, v⟩ := f
    cases gs with
    | nil => cases hnames
    | cons g gs =>
      obtain ⟨k', w⟩ := g
      obtain ⟨rfl, hrest⟩ := List.cons.inj hnames
      obtain ⟨hk, hnodup'⟩ := List.nodup_cons.mp hnodup
      have habsent : ∀ v, (k, v) ∉ definedFields fs ∧ (k, v) ∉ definedFields gs := by
        intro v
        constructor
        · intro hmem
          exact hk (List.mem_map.mpr ⟨_, mem_definedFields hmem, rfl⟩)
        · intro hmem
          refine hk ?_
          rw [hrest]
          exact List.mem_map.mpr ⟨_, mem_definedFields hmem, rfl⟩
      rw [definedFields_cons, definedFields_cons] at h
      cases v with
      | none =>
        cases w with
        | none => rw [ih hrest hnodup' h]
        | some w =>
          refine absurd ?_ (habsent w).1
          rw [Option.map_none, Option.toList_none, List.nil_append] at h
          rw [h]
          exact List.mem_cons_self
      | some v =>
        cases w with
        | none =>
          refine absurd ?_ (habsent v).2
          rw [Option.map_none, Option.toList_none, List.nil_append] at h
          rw [← h]
          exact List.mem_cons_self
        | some w =>
          obtain ⟨heq, hfields⟩ := List.cons.inj h
          rw [ih hrest hnodup' hfields, (Prod.mk.inj heq).2]

theorem map_str_injective : Function.Injective (List.map Json.str) :=
  List.map_injective_iff.mpr fun _ _ h => Json.str.inj h

theorem name_injective : Function.Injective TermsMode.name := by
  intro a b h
  cases a <;> cases b
  · rfl
  · exact absurd h (by decide)
  · exact absurd h (by decide)
  · rfl

theorem numbersRead_map_str (items : List String) : numbersReadItems (items.map .str) = true := by
  rw [numbersReadItems_iff]
  intro v hv
  obtain ⟨t, -, rfl⟩ := List.mem_map.mp hv
  rfl

theorem numbersRead_of_map {α : Type} {json : α → Json} (hjson : ∀ a, numbersRead (json a) = true) {o : Option α} {v : Json}
    (h : some v = o.map json) : numbersRead v = true := by
  obtain ⟨a, -, rfl⟩ := Option.map_eq_some_iff.mp h.symm
  exact hjson a

theorem numbersRead_withoutLimit (q : PageQuery) : numbersRead (.arr [.str "query", .obj (withoutLimit q)]) = true := by
  have hfields : numbersReadFields (withoutLimit q) = true := by
    rw [numbersReadFields_iff]
    rintro ⟨k, v⟩ hmem
    have hv := mem_definedFields hmem
    simp only [List.mem_cons, Prod.mk.injEq, List.not_mem_nil, or_false] at hv
    rcases hv with ⟨-, h⟩ | ⟨-, h⟩ | ⟨-, h⟩ | ⟨-, h⟩ | ⟨-, h⟩ | ⟨-, h⟩ | ⟨-, h⟩
    · exact numbersRead_of_map (fun _ => rfl) h
    · exact numbersRead_of_map numbersRead_map_str h
    · exact numbersRead_of_map (fun _ => rfl) h
    · exact numbersRead_of_map (fun _ => rfl) h
    · exact numbersRead_of_map (fun _ => rfl) h
    · obtain rfl := Option.some.inj h
      rfl
    · obtain rfl := Option.some.inj h
      rfl
  simp [numbersRead, numbersReadItems, hfields]

variable {collate : String → String → Ordering} {here : RenderingPage}

theorem queryHits_of_key {data : ListRenderData} {pageId : Option String}
    {q q' : PageQuery} (h : queryKey q = queryKey q') :
    queryHits collate data pageId q = queryHits collate data pageId q' := by
  have hjson := stringify_injective (numbersRead_withoutLimit q) (numbersRead_withoutLimit q') h
  have hfields : withoutLimit q = withoutLimit q' := by simpa using hjson
  have hliteral := definedFields_injective (by rfl) (by simp) hfields
  obtain ⟨page_type, terms, terms_mode, parent, exclude_current, order, limit⟩ := q
  obtain ⟨page_type', terms', terms_mode', parent', exclude_current', order', limit'⟩ := q'
  simp only [List.cons.injEq, Prod.mk.injEq, true_and, and_true, Option.some.injEq, Json.str.injEq] at hliteral
  obtain ⟨htype, hterms, hmode, hparent, hexclude, rfl⟩ := hliteral
  obtain rfl := Option.map_injective (fun _ _ h => Json.str.inj h) htype
  obtain rfl := Option.map_injective (fun _ _ h => map_str_injective (Json.arr.inj h)) hterms
  obtain rfl := Option.map_injective (fun _ _ h => name_injective (Json.str.inj h)) hmode
  obtain rfl := Option.map_injective (fun _ _ h => Json.str.inj h) hparent
  obtain rfl := Option.map_injective (fun _ _ h => Json.bool.inj h) hexclude
  rfl

theorem termPagesKey_read (terms : List String) : numbersRead (.arr [.str "term_pages", .arr (terms.map .str)]) = true := by
  simp [numbersRead, numbersReadItems, numbersRead_map_str]

theorem termPageHits_of_perm {terms terms' : List String}
    (h : terms.Perm terms') : termPageHits collate here terms = termPageHits collate here terms' := by
  have hterm : carriesTerm here terms = carriesTerm here terms' := by
    funext p
    rw [carriesTerm, carriesTerm]
    congr 1
    rw [Bool.eq_iff_iff, List.any_eq_true, List.any_eq_true]
    simp only [h.mem_iff]
  by_cases hnil : terms = []
  · subst hnil
    rw [h.nil_eq]
  · have hnil' : terms' ≠ [] := by
      rintro rfl
      exact hnil h.eq_nil
    rw [termPageHits, termPageHits, if_neg hnil, if_neg hnil', hterm]

theorem termPageHits_of_key {terms terms' : List String}
    (h : termPagesKey terms = termPagesKey terms') :
    termPageHits collate here terms = termPageHits collate here terms' := by
  have hjson := stringify_injective (termPagesKey_read _) (termPagesKey_read _) h
  have hsorted := map_str_injective (by simpa using hjson)
  refine termPageHits_of_perm ?_
  have hperm := List.mergeSort_perm terms fun a b => (compareIds a b).isLE
  rw [hsorted] at hperm
  exact hperm.symm.trans (List.mergeSort_perm terms' _)

theorem queryKey_ne_termPagesKey (q : PageQuery) (terms : List String) : queryKey q ≠ termPagesKey terms := by
  intro h
  have hjson := stringify_injective (numbersRead_withoutLimit q) (termPagesKey_read _) h
  simp at hjson

/-- A paginated list is a query or the pages of some terms, under a key of its own. -/
theorem readOverview_cases {zodIssues : ZodIssues}
    {field : ListFieldSpec} {value : Option Json} {o : Overview}
    (h : readOverview collate zodIssues here field value = .ok o) :
    (∃ q, o.key = queryKey q ∧ o.hits = queryHits collate here.data here.pageId q) ∨
      ∃ terms, o.key = termPagesKey terms ∧ o.hits = termPageHits collate here terms := by
  rw [readOverview] at h
  split at h
  next => cases h
  next eff heff =>
    split at h
    next source hsource =>
      dsimp only at h
      split at h
      next => cases h
      next q hq =>
        obtain rfl := Except.ok.inj h
        exact .inl ⟨q, rfl, rfl⟩
    next =>
      obtain rfl := Except.ok.inj h
      exact .inr ⟨_, rfl, rfl⟩
    next => cases h

theorem isNumberText_pageSize (size : PageSize) : isNumberText (toString size.val) = true := by
  have hall : ∀ n < 51, isNumberText (toString n) = true := by decide +kernel
  have hle : size.val ≤ 50 := size.property.2
  exact hall size.val (by omega)

/-- Two lists with one key are the same list, with the same page size. -/
theorem overview_of_fullKey {zodIssues : ZodIssues}
    {field field' : ListFieldSpec} {value value' : Option Json} {o o' : Overview}
    (h : readOverview collate zodIssues here field value = .ok o)
    (h' : readOverview collate zodIssues here field' value' = .ok o') (hkey : o.fullKey = o'.fullKey) :
    o.hits = o'.hits ∧ o.eff.perPage = o'.eff.perPage := by
  have hread : ∀ o : Overview, numbersRead (.arr
      [.str (String.ofList o.key), .num (toString o.eff.perPage.val), .str o.eff.followUps.name]) = true := by
    intro o
    simp only [numbersRead, numbersReadItems, isNumberText_pageSize, Bool.and_self]
  have hjson := stringify_injective (hread o) (hread o') hkey
  simp only [Json.arr.injEq, List.cons.injEq, Json.str.injEq, Json.num.injEq, and_true] at hjson
  obtain ⟨hkeys, hsize, -⟩ := hjson
  have hkeys' : o.key = o'.key := by simpa using congrArg String.toList hkeys
  have hsize' : o.eff.perPage = o'.eff.perPage := Subtype.ext (Nat.repr_injective hsize)
  refine ⟨?_, hsize'⟩
  rcases readOverview_cases h with ⟨q, hq, hhits⟩ | ⟨terms, ht, hhits⟩ <;>
    rcases readOverview_cases h' with ⟨q', hq', hhits'⟩ | ⟨terms', ht', hhits'⟩
  · rw [hhits, hhits']
    exact queryHits_of_key (hq.symm.trans (hkeys'.trans hq'))
  · exact absurd (hq.symm.trans (hkeys'.trans ht')) (queryKey_ne_termPagesKey q terms')
  · exact absurd (hq'.symm.trans (hkeys'.symm.trans ht)) (queryKey_ne_termPagesKey q' terms)
  · rw [hhits, hhits']
    exact termPageHits_of_key (ht.symm.trans (hkeys'.trans ht'))

/-! ### What a render shows -/

section Renders

variable {collate : String → String → Ordering} {zodIssues : ZodIssues} {here : RenderingPage}

variable (collate zodIssues here) in
def readKey (key : Option (List Char)) : PageRead → Option (List Char)
  | .pager => key
  | .list field value =>
    match readOverview collate zodIssues here field value with
    | .error _ => key
    | .ok o => key.or (some o.fullKey)

variable (collate zodIssues here) in
def listShown (requestedPage : Nat) (key : Option (List Char)) (field : ListFieldSpec) (value : Option Json) : Shown :=
  match readOverview collate zodIssues here field value with
  | .error failure => .failed failure
  | .ok o =>
    if key.any fun k => k != o.fullKey then .failed ⟨s!"list-pagination-conflict:{field.name}", none⟩
    else .entries (window o.eff.perPage.val (requestedPage - 1) o.hits)

variable (collate zodIssues here) in
/-- The list a context has paginated is one that was read, and it knows how many pages that one has. -/
def CountOk (st : ContextState) : Prop :=
  ∀ paged, st.paged = some paged → ∃ field value o, readOverview collate zodIssues here field value = .ok o ∧
    paged.key = o.fullKey ∧ paged.pageCount = pageCountOf o.hits.length o.eff.perPage

theorem paged_pagerEntries (request : Option PaginationRequest) (st : ContextState) :
    (pagerEntries here request st).2.paged = st.paged := by
  rw [pagerEntries]
  dsimp only
  split
  · rfl
  · split
    · rfl
    · split
      · split <;> rfl
      · rfl

theorem resolveRead_list (request : Option PaginationRequest) (st : ContextState) (field : ListFieldSpec)
    (value : Option Json) :
    (resolveRead collate zodIssues here request st (.list field value)).1 =
      listShown collate zodIssues here (request.elim 1 PaginationRequest.page) (st.paged.map Paged.key) field value := by
  rw [resolveRead, listShown]
  cases readOverview collate zodIssues here field value with
  | error failure => rfl
  | ok o =>
    dsimp only
    rw [paginate, Option.any_map]
    split
    next => rfl
    next => rfl

theorem key_resolveRead (request : Option PaginationRequest) (st : ContextState) (r : PageRead) :
    (resolveRead collate zodIssues here request st r).2.paged.map Paged.key =
      readKey collate zodIssues here (st.paged.map Paged.key) r := by
  cases r with
  | pager => rw [resolveRead, paged_pagerEntries, readKey]
  | list field value =>
    rw [resolveRead, readKey]
    cases readOverview collate zodIssues here field value with
    | error failure => rfl
    | ok o =>
      dsimp only
      rw [paginate]
      cases hpaged : st.paged with
      | none => rfl
      | some paged =>
        by_cases hkey : paged.key = o.fullKey
        · simp [hkey]
        · simp [hkey, hpaged]

theorem countOk_resolveRead {request : Option PaginationRequest} {st : ContextState}
    (h : CountOk collate zodIssues here st) (r : PageRead) :
    CountOk collate zodIssues here (resolveRead collate zodIssues here request st r).2 := by
  intro paged hpaged
  cases r with
  | pager =>
    rw [resolveRead, paged_pagerEntries] at hpaged
    exact h paged hpaged
  | list field value =>
    rw [resolveRead] at hpaged
    cases hread : readOverview collate zodIssues here field value with
    | error failure =>
      rw [hread] at hpaged
      exact h paged hpaged
    | ok o =>
      rw [hread] at hpaged
      dsimp only at hpaged
      rw [paginate] at hpaged
      split at hpaged
      next => exact h paged hpaged
      next =>
        obtain rfl := Option.some.inj hpaged
        exact ⟨field, value, o, hread, rfl, rfl⟩

theorem key_resolveReads (request : Option PaginationRequest) (reads : List PageRead) (st : ContextState) :
    (resolveReads collate zodIssues here request reads st).2.paged.map Paged.key =
      reads.foldl (readKey collate zodIssues here) (st.paged.map Paged.key) := by
  induction reads generalizing st with
  | nil => rfl
  | cons r rs ih =>
    rw [List.foldl_cons, ← key_resolveRead request]
    exact ih _

theorem countOk_resolveReads {request : Option PaginationRequest} (reads : List PageRead) {st : ContextState}
    (h : CountOk collate zodIssues here st) :
    CountOk collate zodIssues here (resolveReads collate zodIssues here request reads st).2 := by
  induction reads generalizing st with
  | nil => exact h
  | cons r rs ih => exact ih (countOk_resolveRead h r)

variable {reads : List PageRead} {i : Nat} {field : ListFieldSpec} {value : Option Json}

theorem shown_resolveReads (request : Option PaginationRequest) (hread : reads[i]? = some (.list field value))
    (st : ContextState) :
    (resolveReads collate zodIssues here request reads st).1[i]? =
      some (listShown collate zodIssues here (request.elim 1 PaginationRequest.page)
        ((reads.take i).foldl (readKey collate zodIssues here) (st.paged.map Paged.key)) field value) := by
  induction reads generalizing i st with
  | nil => cases hread
  | cons r rs ih =>
    cases i with
    | zero =>
      obtain rfl := Option.some.inj hread
      rw [List.take_zero, List.foldl_nil, ← resolveRead_list]
      rfl
    | succ i =>
      rw [List.take_succ_cons, List.foldl_cons, ← key_resolveRead request]
      exact ih hread _

theorem foldl_readKey_some (key : List Char) (reads : List PageRead) :
    reads.foldl (readKey collate zodIssues here) (some key) = some key := by
  induction reads with
  | nil => rfl
  | cons r rs ih =>
    have hstep : readKey collate zodIssues here (some key) r = some key := by
      cases r with
      | pager => rfl
      | list field value =>
        rw [readKey]
        split <;> rfl
    rw [List.foldl_cons, hstep, ih]

variable (collate zodIssues here) in
def seenKey (reads : List PageRead) : Option (List Char) := reads.foldl (readKey collate zodIssues here) none

theorem seenKey_of_shown {o : Overview}
    (hread : reads[i]? = some (.list field value)) (ho : readOverview collate zodIssues here field value = .ok o)
    (hfree : (seenKey collate zodIssues here (reads.take i)).any (fun k => k != o.fullKey) = false) :
    seenKey collate zodIssues here reads = some o.fullKey := by
  obtain ⟨hi, hget⟩ := List.getElem?_eq_some_iff.mp hread
  have hsplit : reads = reads.take i ++ .list field value :: reads.drop (i + 1) := by
    rw [← hget, ← List.drop_eq_getElem_cons hi, List.take_append_drop]
  have hstep : readKey collate zodIssues here (seenKey collate zodIssues here (reads.take i)) (.list field value) =
      some o.fullKey := by
    rw [readKey, ho]
    cases hseen : seenKey collate zodIssues here (reads.take i) with
    | none => rfl
    | some key =>
      rw [hseen] at hfree
      simpa using hfree
  rw [seenKey] at hstep ⊢
  rw [hsplit, List.foldl_append, List.foldl_cons, hstep]
  exact foldl_readKey_some _ _

theorem pageCount_renderPage {o : Overview}
    (hread : reads[i]? = some (.list field value)) (ho : readOverview collate zodIssues here field value = .ok o)
    (hfree : (seenKey collate zodIssues here (reads.take i)).any (fun k => k != o.fullKey) = false)
    (request : Option PaginationRequest) :
    (renderPage collate zodIssues here reads request).pagination.map (·.pageCount) =
      some (pageCountOf o.hits.length o.eff.perPage) := by
  have hkey : (resolveReads collate zodIssues here request reads ⟨none, false, false⟩).2.paged.map Paged.key =
      seenKey collate zodIssues here reads := key_resolveReads request reads _
  have hseen := seenKey_of_shown hread ho hfree
  obtain ⟨paged, hpaged, hpagedKey⟩ := Option.map_eq_some_iff.mp (hkey.trans hseen)
  have hinit : CountOk collate zodIssues here ⟨none, false, false⟩ := by
    intro paged h
    cases h
  obtain ⟨field', value', o', ho', hkey', hcount⟩ := countOk_resolveReads reads hinit paged hpaged
  obtain ⟨hhits, hsize⟩ := overview_of_fullKey ho' ho (hkey'.symm.trans hpagedKey)
  rw [renderPage]
  dsimp only
  rw [hpaged, Option.map_some, Option.map_some, hcount, hhits, hsize]

theorem shown_renderPage
    (hread : reads[i]? = some (.list field value)) (request : Option PaginationRequest) :
    (renderPage collate zodIssues here reads request).shown[i]? =
      some (listShown collate zodIssues here (request.elim 1 PaginationRequest.page)
        (seenKey collate zodIssues here (reads.take i)) field value) :=
  shown_resolveReads request hread ⟨none, false, false⟩

end Renders

/-! ### The sequence -/

theorem pageCountOf_eq (total : Nat) (perPage : PageSize) : pageCountOf total perPage = windowCount perPage.val total := rfl

structure Partition (hits : List ListPageRecord) (perPage : PageSize) (pages : List (List ListPageRecord)) : Prop where
  count : pages.length = pageCountOf hits.length perPage
  flatten : pages.flatten = hits
  nonempty : ∀ p ∈ pages.tail, p ≠ []
  size : ∀ p ∈ pages, p.length ≤ perPage.val

theorem partition_windows (hits : List ListPageRecord) (perPage : PageSize) :
    Partition hits perPage
      ((List.range' 1 (pageCountOf hits.length perPage)).map fun n => window perPage.val (n - 1) hits) := by
  have hsize : 0 < perPage.val := perPage.property.1
  have hshift : (List.range' 1 (pageCountOf hits.length perPage)).map (fun n => window perPage.val (n - 1) hits) =
      (List.range (windowCount perPage.val hits.length)).map fun i => window perPage.val i hits := by
    rw [← pageCountOf_eq, List.range_eq_range', List.range'_eq_map_range, List.range'_eq_map_range, List.map_map,
      List.map_map]
    refine List.map_congr_left fun i _ => ?_
    simp
  rw [hshift]
  refine ⟨?_, ?_, ?_, ?_⟩
  · rw [List.length_map, List.length_range, pageCountOf_eq]
  · rw [← List.flatMap_def]
    exact Lib.flatMap_window_windowCount hsize hits
  · intro p hp
    obtain ⟨k, hk⟩ : ∃ k, windowCount perPage.val hits.length = k + 1 :=
      ⟨_, (Nat.sub_add_cancel (Lib.windowCount_pos _ _)).symm⟩
    rw [hk, List.range_succ_eq_map, List.map_cons, List.tail_cons, List.map_map] at hp
    obtain ⟨i, hi, rfl⟩ := List.mem_map.mp hp
    have hlt : i + 1 < windowCount perPage.val hits.length := by
      have := List.mem_range.mp hi
      omega
    exact Lib.window_ne_nil hsize (Lib.start_lt_of_lt_windowCount hsize hlt)
  · intro p hp
    obtain ⟨i, -, rfl⟩ := List.mem_map.mp hp
    exact List.length_take_le _ _

section Overviews

variable (collate : String → String → Ordering) (zodIssues : ZodIssues) (here : RenderingPage)

def Refused (reads : List PageRead) (i : Nat) (field : ListFieldSpec) (value : Option Json) : Prop :=
  (∃ failure, readOverview collate zodIssues here field value = .error failure) ∨
    ∃ o key, readOverview collate zodIssues here field value = .ok o ∧
      seenKey collate zodIssues here (reads.take i) = some key ∧ key ≠ o.fullKey

/-- The renders of a page show one paginated list, cut into the pages of the sequence; a list that one of them refuses
is refused by all. -/
theorem renderEveryPage_partition {reads : List PageRead} {i : Nat} {field : ListFieldSpec} {value : Option Json}
    (hread : reads[i]? = some (.list field value)) :
    (Refused collate zodIssues here reads i field value ∧ ∃ failure,
        ∀ r ∈ renderEveryPage PageRender.pagination (renderPage collate zodIssues here reads),
          r.shown[i]? = some (.failed failure)) ∨
      ∃ o pages, readOverview collate zodIssues here field value = .ok o ∧ Partition o.hits o.eff.perPage pages ∧
        (renderEveryPage PageRender.pagination (renderPage collate zodIssues here reads)).map (fun r => r.shown[i]?) =
          pages.map fun p => some (.entries p) := by
  have hrefused : ∀ failure, (∀ n, listShown collate zodIssues here n
      (seenKey collate zodIssues here (reads.take i)) field value = .failed failure) →
      ∀ r ∈ renderEveryPage PageRender.pagination (renderPage collate zodIssues here reads),
        r.shown[i]? = some (.failed failure) := by
    intro failure hfailure r hr
    obtain ⟨request, rfl⟩ := mem_renderEveryPage _ _ hr
    rw [shown_renderPage hread, hfailure]
  cases ho : readOverview collate zodIssues here field value with
  | error failure =>
    refine .inl ⟨.inl ⟨failure, ho⟩, failure, hrefused failure fun n => ?_⟩
    rw [listShown, ho]
  | ok o =>
    cases hfree : (seenKey collate zodIssues here (reads.take i)).any (fun k => k != o.fullKey) with
    | true =>
      obtain ⟨key, hseen, hne⟩ := (Option.any_eq_true _ _).mp hfree
      have hshown : ∀ n, listShown collate zodIssues here n (seenKey collate zodIssues here (reads.take i)) field value =
          .failed ⟨s!"list-pagination-conflict:{field.name}", none⟩ := by
        intro n
        rw [listShown, ho]
        exact if_pos hfree
      exact .inl ⟨.inr ⟨o, key, ho, hseen, by simpa using hne⟩, _, hrefused _ hshown⟩
    | false =>
      obtain ⟨requests, hpages, hrenders⟩ :=
        renderEveryPage_eq PageRender.pagination _ (pageCount_renderPage hread ho hfree) (Lib.windowCount_pos _ _)
      refine .inr ⟨o, _, rfl, partition_windows o.hits o.eff.perPage, ?_⟩
      have hshown : ∀ n, listShown collate zodIssues here n (seenKey collate zodIssues here (reads.take i)) field value =
          .entries (window o.eff.perPage.val (n - 1) o.hits) := by
        intro n
        rw [listShown, ho]
        exact if_neg (by rw [hfree]; decide)
      rw [hrenders, ← hpages, List.map_map, List.map_map, List.map_map]
      refine List.map_congr_left fun request _ => ?_
      exact (shown_renderPage hread request).trans (congrArg some (hshown _))

/-- The first page is linked to the overview, each other one to a path that reads back as its number. -/
theorem pagerEntry_link {path : List Char} (h : IsPagePath path) (requestedPage : Nat) (style : PageUrlStyle) {n : Nat}
    (hpos : 0 < n) (hle : n ≤ 999999) :
    ∃ entry, pagerEntry requestedPage (pageHrefForStyle path style) style n = .ok entry ∧ entry.number = n ∧
      (n = 1 ∧ entry.link = pageHrefForStyle path style ∨ parsePagedPath entry.link = some (path, n)) := by
  rw [pagerEntry]
  by_cases hfirst : n = 1
  · subst hfirst
    exact ⟨_, rfl, rfl, .inl ⟨rfl, rfl⟩⟩
  · have hn : 2 ≤ n := by omega
    rw [if_neg hfirst, pagedUrl_pageHref h, pagedPath_ok hn]
    refine ⟨_, rfl, rfl, .inr ?_⟩
    change parsePagedPath (pageHrefForStyle (frontOf path ++ followUp n) style) = some (path, n)
    rw [pageHrefForStyle_followUp]
    exact parsePagedPath_followUp h hn hle (slash_slashOf style)

theorem mapM_ok {α β : Type} {f : α → Except String β} {p : α → β → Prop} {l : List α}
    (h : ∀ a ∈ l, ∃ b, f a = .ok b ∧ p a b) : ∃ bs, l.mapM f = .ok bs ∧ List.Forall₂ p l bs := by
  induction l with
  | nil => exact ⟨[], rfl, .nil⟩
  | cons a l ih =>
    obtain ⟨⟨b, hb, hp⟩, hrest⟩ := List.forall_mem_cons.1 h
    obtain ⟨bs, hbs, hforall⟩ := ih hrest
    refine ⟨b :: bs, ?_, .cons hp hforall⟩
    rw [List.mapM_cons, hb, hbs]
    rfl

omit collate zodIssues in
/-- The pager of a page in a sequence lists the pages in order, each with a link to it. -/
theorem pagerEntries_link {path : List Char} (h : IsPagePath path) {style : PageUrlStyle}
    (hurl : here.url = some (pageHrefForStyle path style)) (hstyle : here.pageUrlStyle = some style)
    {request : Option PaginationRequest} {st : ContextState} {known : Nat}
    (hknown : (request.map PaginationRequest.pageCount).or (st.paged.map Paged.pageCount) = some known)
    (hpos : 2 ≤ known) (hle : known ≤ 999999) :
    ∃ entries, (pagerEntries here request st).1 = .pager entries ∧
      List.Forall₂ (fun n entry => entry.number = n ∧
        (n = 1 ∧ entry.link = pageHrefForStyle path style ∨ parsePagedPath entry.link = some (path, n)))
        (List.range' 1 known) entries := by
  have hall : ∀ n ∈ List.range' 1 known, ∃ entry, pagerEntry (request.elim 1 PaginationRequest.page)
      (pageHrefForStyle path style) style n = .ok entry ∧ entry.number = n ∧
        (n = 1 ∧ entry.link = pageHrefForStyle path style ∨ parsePagedPath entry.link = some (path, n)) := by
    intro n hn
    have hrange := List.mem_range'_1.1 hn
    exact pagerEntry_link h _ style (by omega) (by omega)
  obtain ⟨entries, hentries, hforall⟩ := mapM_ok hall
  refine ⟨entries, ?_, hforall⟩
  unfold pagerEntries
  simp only [hknown, hurl, hstyle]
  rw [if_neg (by omega), hentries]

/-- A paginated overview shows each of its hits once, in order, over pages of which only the first may be empty.  From
the second page on, the URL made from the overview's URL is the one made from the page's own path; a request for either
reads back as the overview and the page, and a request reads as a follow-up page when it is one, up to slashes around
the overview's path and one at the end. -/
theorem pagination_partitions (reads : List PageRead) :
    (∀ i field value, reads[i]? = some (.list field value) →
        (Refused collate zodIssues here reads i field value ∧ ∃ failure,
            ∀ r ∈ renderEveryPage PageRender.pagination (renderPage collate zodIssues here reads),
              r.shown[i]? = some (.failed failure)) ∨
          ∃ o pages, readOverview collate zodIssues here field value = .ok o ∧ Partition o.hits o.eff.perPage pages ∧
            (renderEveryPage PageRender.pagination (renderPage collate zodIssues here reads)).map
              (fun r => r.shown[i]?) = pages.map fun p => some (.entries p)) ∧
      (∀ path, IsPagePath path → ∀ n style,
        pagedUrl (pageHrefForStyle path style) n style = (pagedPath path n).map (pageHrefForStyle · style)) ∧
      (∀ path, IsPagePath path → ∀ n, 2 ≤ n → n ≤ 999999 →
        ∃ paged, pagedPath path n = .ok paged ∧ parsePagedPath paged = some (path, n) ∧
          ∀ style, parsePagedPath (pageHrefForStyle paged style) = some (path, n)) ∧
      ∀ path base n, parsePagedPath path = some (base, n) ↔
        ∃ front last, path = front ++ followUp n ++ last ∧ Slash last ∧ (∀ c ∈ front, isLineTerminator c = false) ∧
          2 ≤ n ∧ n ≤ 999999 ∧ base = pathOf front := by
  refine ⟨?_, ?_, ?_, parsePagedPath_eq_some_iff⟩
  · intro i field value hread
    exact renderEveryPage_partition collate zodIssues here hread
  · intro path h n style
    exact pagedUrl_pageHref h n style
  · intro path h n hn hle
    refine ⟨_, pagedPath_ok hn, ?_, ?_⟩
    · have hparse := parsePagedPath_followUp h hn hle (.inl rfl)
      rwa [List.append_nil] at hparse
    · intro style
      rw [pageHrefForStyle_followUp]
      exact parsePagedPath_followUp h hn hle (slash_slashOf style)

end Overviews

theorem isPagePath_guides : IsPagePath "/guides".toList := by
  refine ⟨by decide, ?_⟩
  intro c hc
  have hall : ("/guides".toList.all fun c => c != '?' && c != '#' && !isLineTerminator c) = true := by decide
  simpa [and_assoc] using List.all_eq_true.mp hall c hc

/-- The pager of the second of three pages. -/
theorem pagerEntries_link_guides :
    ∃ entries, (pagerEntries ⟨⟨[], [], []⟩, none, some (pageHrefForStyle "/guides".toList .directory), some .directory⟩
        (some ⟨2, 3⟩) ⟨none, false, false⟩).1 = .pager entries ∧
      List.Forall₂ (fun n entry => entry.number = n ∧ (n = 1 ∧ entry.link = pageHrefForStyle "/guides".toList .directory ∨
        parsePagedPath entry.link = some ("/guides".toList, n))) (List.range' 1 3) entries :=
  pagerEntries_link _ isPagePath_guides rfl rfl rfl (by decide) (by decide)

/-- The second page of an overview at `/guides`. -/
theorem pagination_partitions_guides :
    IsPagePath "/guides".toList ∧ ∃ paged, pagedPath "/guides".toList 2 = .ok paged ∧
      parsePagedPath paged = some ("/guides".toList, 2) ∧
      ∀ style, parsePagedPath (pageHrefForStyle paged style) = some ("/guides".toList, 2) :=
  have hzod : ZodIssues := fun _ _ => ⟨[⟨.other, [], "invalid"⟩], by simp⟩
  have here : RenderingPage := ⟨⟨[], [], []⟩, none, none, none⟩
  ⟨isPagePath_guides,
    (pagination_partitions compareIds hzod here []).2.2.1 _ isPagePath_guides 2 (by decide) (by decide)⟩

/-- A request with a doubled slash in front of the page segment is read as page 3 of the overview, though no page of a
sequence has that path or URL. -/
theorem parsePagedPath_doubled :
    parsePagedPath "/guides//page/3".toList = some ("/guides".toList, 3) ∧
      ¬∃ path style paged, pagedPath path 3 = .ok paged ∧
        ("/guides//page/3".toList = paged ∨ "/guides//page/3".toList = pageHrefForStyle paged style) := by
  refine ⟨by decide +kernel, ?_⟩
  rintro ⟨path, style, paged, hpaged, heq⟩
  obtain rfl := Except.ok.inj ((pagedPath_ok (by omega)).symm.trans hpaged)
  -- the slash style cannot add is the one in the middle
  have hfront : ∃ last, Slash last ∧ "/guides/".toList ++ followUp 3 = frontOf path ++ followUp 3 ++ last := by
    rcases heq with heq | heq
    · exact ⟨[], .inl rfl, heq.trans (List.append_nil _).symm⟩
    · rw [pageHrefForStyle_followUp] at heq
      exact ⟨_, slash_slashOf style, heq⟩
  obtain ⟨last, hlast, heq⟩ := hfront
  rcases hlast with rfl | rfl
  · rw [List.append_nil] at heq
    have hpath := List.append_cancel_right heq
    have hend : (frontOf path).getLast? ≠ some '/' := by
      rw [frontOf]
      split
      next =>
        rw [List.getLast?_nil]
        exact (Option.some_ne_none _).symm
      next hne =>
        rw [List.getLast?_cons_of_ne_nil hne]
        exact (trimmed_trimSlashes path).2
    rw [← hpath] at hend
    exact hend (by decide)
  · have hend := congrArg List.getLast? heq
    rw [List.getLast?_concat] at hend
    exact absurd hend (by decide +kernel)

end CaeloCms.Lists
