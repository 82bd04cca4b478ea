import CaeloCms.Lists.Overlay
import CaeloCms.Template.Scope

/-!
# Overlays by page batch

`BuildListOverlays`: a build asks each plugin for the list overlay of a batch of pages at a time, for the union of
their scopes, and keeps the answers for shared lists and for pages that a batch only shows.  A plugin's overlay of a
source depends on that source and the variant alone, so it is the part of one overlay of the whole site that lies in
the scope asked for.  Every batch then gets what each of its pages would get from a call of its own
(`forBatch_answers`).
-/

namespace CaeloCms.Lists.Overlay

open Template (TemplateField)

abbrev Address := List Char

/-! ### The scope of a page -/

structure ListOverlayScope where
  listIds : List String
  contentInstanceIds : List String
  pageIds : List String

structure ScopedModule where
  fields : List TemplateField
  html : List Char

structure OverlayBatchPage where
  pageId : String
  modules : List ScopedModule
  markup : List (List Char)
  contentInstanceIds : List String

/-- `LIST_SCOPE_READ_RE`, after the character `before`. -/
def readsScope : Option Char → List Char → Bool
  | _, [] => false
  | before, c :: s =>
    (!before.any Template.isWord &&
        ["page.", "site_text."].any fun read => read.toList.isPrefixOf ((c :: s).map Char.toLower)) ||
      readsScope (some c) s

def readsLists (m : ScopedModule) : Bool := (m.fields.any fun f => f.kind == "list") || readsScope none m.html

def SourceDef.isPlugin : SourceDef → Bool
  | .plugin _ => true
  | _ => false

variable (data : OverlayRenderData)

def generatesPages (fields : List TemplateField) : Bool :=
  fields.any fun f => f.kind == "list" &&
    ((f.bind == some .source && (f.source.bind (Json.stringField "kind")) != some "plugin") ||
      (f.listType.bind fun slug => InsertionMap.get data.listTypes slug).any fun type =>
        type.nodes.any fun node => node.2.source.any fun source => !SourceDef.isPlugin source)

/-- The pages of a variant that have properties. -/
def generatedPages (variant : String) : List String :=
  (data.pages.filter fun p => data.variantOf p.id == some variant &&
    !((InsertionMap.get data.pageTypes p.pageTypeSlug).getD []).isEmpty).map (·.id)

def pageListOverlayScope (page : OverlayBatchPage) : Option ListOverlayScope :=
  if page.modules.any readsLists || page.markup.any (readsScope none) then
    some
      { listIds := data.lists.map (·.id)
        contentInstanceIds := page.contentInstanceIds
        pageIds := page.pageId ::
          match data.variantOf page.pageId with
          | none => []
          | some variant => if page.modules.any fun m => generatesPages data m.fields then generatedPages data variant else [] }
  else none

/-! ### Addresses and answers -/

inductive Source
  | list (id : String)
  | instance_ (id : String)
  | page (id : String)
deriving DecidableEq

def segment (s : List Char) : String := String.ofList (s.takeWhile fun c => c != '/')

def isListAddress (a : Address) : Bool := "list/".toList.isPrefixOf a

/-- `PAGE_PROPS_RE` -/
def pageOf (a : Address) : Option String :=
  if "page/".toList.isPrefixOf a && segment (a.drop 5) != "" &&
      "/props/".toList.isPrefixOf ((a.drop 5).dropWhile fun c => c != '/') then some (segment (a.drop 5))
  else none

/-- What an address is about. -/
def sourceOf (a : Address) : Option Source :=
  if isListAddress a then some (.list (segment (a.drop 5)))
  else if "instance/".toList.isPrefixOf a then some (.instance_ (segment (a.drop 9)))
  else (pageOf a).map Source.page

def ListOverlayScope.has (scope : ListOverlayScope) : Source → Bool
  | .list id => scope.listIds.contains id
  | .instance_ id => scope.contentInstanceIds.contains id
  | .page id => scope.pageIds.contains id

def ListOverlayScope.covers (scope : ListOverlayScope) (a : Address) : Bool := (sourceOf a).any scope.has

def ListOverlayScope.isEmpty (scope : ListOverlayScope) : Bool :=
  scope.listIds.isEmpty && scope.contentInstanceIds.isEmpty && scope.pageIds.isEmpty

structure VariantOverlay where
  values : Address → Option Json
  hidden : List Address

def VariantOverlay.empty : VariantOverlay := ⟨fun _ => none, []⟩

/-- `resolveListOverlays([variant], scope)` of a plugin, from its overlay of the whole site. -/
def answer (site : VariantOverlay) (scope : ListOverlayScope) : VariantOverlay :=
  ⟨fun a => if scope.covers a then site.values a else none, site.hidden.filter scope.covers⟩

/-! ### A batch -/

def KEPT_PAGES_PER_CALL : Nat := 1000

structure VariantAsk where
  listIds : List String
  contentInstanceIds : List String
  ownPageIds : List String
  otherPageIds : List String

/-- `#asksOf(pages)`, of one variant. -/
def askOf (pages : List OverlayBatchPage) (variant : String) : Option VariantAsk :=
  let scopes := (pages.filter fun p => data.variantOf p.pageId == some variant).filterMap fun p =>
    (pageListOverlayScope data p).map fun scope => (p.pageId, scope)
  if scopes.isEmpty then none
  else
    some
      { listIds := scopes.flatMap fun p => p.2.listIds
        contentInstanceIds := scopes.flatMap fun p => p.2.contentInstanceIds
        ownPageIds := scopes.flatMap fun p => p.2.pageIds.filter (· == p.1)
        otherPageIds := scopes.flatMap fun p => p.2.pageIds.filter (· != p.1) }

/-- What is kept of a variant; the overlays by plugin. -/
structure VariantState where
  listsAsked : Bool
  keptPages : List String
  kept : String → VariantOverlay

structure OverlayCall where
  scope : ListOverlayScope
  keep : List String

def slice (ids : List String) (i : Nat) : List String := (ids.drop (i * KEPT_PAGES_PER_CALL)).take KEPT_PAGES_PER_CALL

variable (st : VariantState) (ask : VariantAsk)

def newPages : List String := ask.otherPageIds.dedup.filter fun id => !st.keptPages.contains id

def firstCall : OverlayCall where
  scope :=
    { listIds := if st.listsAsked then [] else ask.listIds
      contentInstanceIds := ask.contentInstanceIds
      pageIds := (ask.ownPageIds.filter fun id => !st.keptPages.contains id && !ask.otherPageIds.contains id) ++
        slice (newPages st ask) 0 }
  keep := slice (newPages st ask) 0

def callsOf : List OverlayCall :=
  (firstCall st ask :: (List.range ((newPages st ask).length / KEPT_PAGES_PER_CALL)).map fun i =>
    ⟨⟨[], [], slice (newPages st ask) (i + 1)⟩, slice (newPages st ask) (i + 1)⟩).filter fun call => !call.scope.isEmpty

def keeps (keepPages : List String) (a : Address) : Bool := isListAddress a || (pageOf a).any keepPages.contains

/-- `#take` for one plugin: the kept overlay and the batch's, after an answer. -/
def take (keepPages : List String) (o : VariantOverlay × VariantOverlay) (given : VariantOverlay) :
    VariantOverlay × VariantOverlay :=
  (⟨fun a => if keeps keepPages a then (given.values a).or (o.1.values a) else o.1.values a,
      o.1.hidden ++ given.hidden.filter isListAddress⟩,
    ⟨fun a => if !keeps keepPages a then (given.values a).or (o.2.values a) else o.2.values a,
      o.2.hidden ++ given.hidden.filter fun a => !isListAddress a⟩)

/-- `#merge` for one plugin. -/
def merge (o : VariantOverlay × VariantOverlay) : VariantOverlay :=
  ⟨fun a => (o.2.values a).or (o.1.values a), o.1.hidden ++ o.2.hidden⟩

def takeAll (site : VariantOverlay) (calls : List OverlayCall) (o : VariantOverlay × VariantOverlay) :
    VariantOverlay × VariantOverlay :=
  calls.foldl (fun o call => take call.keep o (answer site call.scope)) o

/-- What a plugin's answers make of its kept overlay, and of an empty one for the batch. -/
def taken (site kept : VariantOverlay) : VariantOverlay × VariantOverlay := takeAll site (callsOf st ask) (kept, .empty)

/-- `forBatch` of one variant; `site` gives the plugins' overlays. -/
def variantBatch (site : String → VariantOverlay) : VariantState × (String → VariantOverlay) :=
  ({ listsAsked := true
     keptPages := st.keptPages ++ newPages st ask
     kept := fun slug => (taken st ask (site slug) (st.kept slug)).1 },
    fun slug => merge (taken st ask (site slug) (st.kept slug)))

/-- By variant. -/
abbrev BuildListOverlays := String → VariantState

def BuildListOverlays.start : BuildListOverlays := fun _ => ⟨false, [], fun _ => .empty⟩

/-- `forBatch(pages)`: the state after it, and the overlays of the variants it asked. -/
def forBatch (site : String → String → VariantOverlay) (build : BuildListOverlays) (pages : List OverlayBatchPage) :
    BuildListOverlays × (String → Option (String → VariantOverlay)) :=
  (fun variant => match askOf data pages variant with
    | none => build variant
    | some ask => (variantBatch (build variant) ask (site variant)).1,
  fun variant => (askOf data pages variant).map fun ask => (variantBatch (build variant) ask (site variant)).2)

/-! ### What a call brings -/

variable {data st ask} {site given : VariantOverlay} {o : VariantOverlay × VariantOverlay} {a : Address} {id : String}

theorem isListAddress_of_source (h : sourceOf a = some (.list id)) : isListAddress a = true := by
  unfold sourceOf at h
  split at h
  next hlist => exact hlist
  next =>
    split at h
    · cases h
    · cases hpage : pageOf a <;> simp [hpage] at h

theorem not_isListAddress (h : sourceOf a = some (.instance_ id) ∨ sourceOf a = some (.page id)) :
    isListAddress a = false := by
  rw [Bool.eq_false_iff]
  intro hlist
  simp [sourceOf, hlist] at h

theorem pageOf_of_source (h : sourceOf a = some (.page id)) : pageOf a = some id := by
  rw [sourceOf, if_neg (by simp [not_isListAddress (Or.inr h)])] at h
  split at h
  · cases h
  · cases hpage : pageOf a with
    | none => simp [hpage] at h
    | some id' => simpa [hpage] using h

/-- Whether a call brings the address, to the kept part (`kept`) or to the batch's. -/
def brings (kept : Bool) (calls : List OverlayCall) (a : Address) : Bool :=
  calls.any fun call => call.scope.covers a && keeps call.keep a == kept

/-- The value is missing or the site's. -/
def OfSite (site o : VariantOverlay) (a : Address) : Prop := o.values a = none ∨ o.values a = site.values a

theorem values_take (call : OverlayCall) (h : OfSite site o.1 a) (h' : OfSite site o.2 a) :
    (take call.keep o (answer site call.scope)).1.values a =
        (if brings true [call] a then site.values a else o.1.values a) ∧
      (take call.keep o (answer site call.scope)).2.values a =
        if brings false [call] a then site.values a else o.2.values a := by
  have hor : ∀ {x : Option Json}, x = none ∨ x = site.values a → (site.values a).or x = site.values a := by
    rintro x (rfl | rfl)
    · exact Option.or_none
    · exact Option.or_self
  cases hcovers : call.scope.covers a <;> cases hkeep : keeps call.keep a <;>
    simp [take, answer, brings, hcovers, hkeep, hor h, hor h']

/-- The calls together: each part has the site's values where something was brought to it, and its own elsewhere. -/
theorem values_takeAll (calls : List OverlayCall) (h : OfSite site o.1 a) (h' : OfSite site o.2 a) :
    (takeAll site calls o).1.values a = (if brings true calls a then site.values a else o.1.values a) ∧
      (takeAll site calls o).2.values a = if brings false calls a then site.values a else o.2.values a := by
  induction calls generalizing o with
  | nil => exact ⟨rfl, rfl⟩
  | cons call calls ih =>
    obtain ⟨hfirst, hsecond⟩ := values_take call h h'
    have hrest := @ih (take call.keep o (answer site call.scope)) ?_ ?_
    · rw [hfirst, hsecond] at hrest
      have hcons : ∀ kept, brings kept (call :: calls) a = (brings kept [call] a || brings kept calls a) := by
        intro kept
        simp [brings]
      refine ⟨hrest.1.trans ?_, hrest.2.trans ?_⟩
      · rw [hcons]
        cases brings true [call] a <;> simp
      · rw [hcons]
        cases brings false [call] a <;> simp
    · rw [OfSite, hfirst]
      split
      · exact Or.inr rfl
      · exact h
    · rw [OfSite, hsecond]
      split
      · exact Or.inr rfl
      · exact h'

theorem mem_hidden_takeAll (calls : List OverlayCall) (o : VariantOverlay × VariantOverlay) :
    (a ∈ (takeAll site calls o).1.hidden ↔ a ∈ o.1.hidden ∨
      ∃ call ∈ calls, a ∈ (answer site call.scope).hidden ∧ isListAddress a = true) ∧
    (a ∈ (takeAll site calls o).2.hidden ↔ a ∈ o.2.hidden ∨
      ∃ call ∈ calls, a ∈ (answer site call.scope).hidden ∧ isListAddress a = false) := by
  induction calls generalizing o with
  | nil => simp [takeAll]
  | cons call calls ih =>
    have h := ih (take call.keep o (answer site call.scope))
    refine ⟨h.1.trans ?_, h.2.trans ?_⟩
    · simp [take, or_assoc]
    · simp [take, or_assoc]

/-! ### Over the batches of a build -/

theorem mem_slice {ids : List String} (h : id ∈ ids) :
    id ∈ slice ids 0 ∨ ∃ i < ids.length / KEPT_PAGES_PER_CALL, id ∈ slice ids (i + 1) := by
  obtain ⟨j, hj, rfl⟩ := List.getElem_of_mem h
  have hmem : ids[j] ∈ slice ids (j / KEPT_PAGES_PER_CALL) := by
    rw [slice, List.mem_take_iff_getElem]
    have hmod : j % KEPT_PAGES_PER_CALL < KEPT_PAGES_PER_CALL := Nat.mod_lt _ (by decide)
    have hdiv := Nat.div_add_mod j KEPT_PAGES_PER_CALL
    rw [Nat.mul_comm] at hdiv
    refine ⟨j % KEPT_PAGES_PER_CALL, ?_, ?_⟩
    · rw [List.length_drop]
      omega
    · rw [List.getElem_drop]
      congr 1
  rcases hzero : j / KEPT_PAGES_PER_CALL with _ | i
  · exact Or.inl (hzero ▸ hmem)
  · refine Or.inr ⟨i, ?_, hzero ▸ hmem⟩
    have hle : j / KEPT_PAGES_PER_CALL ≤ ids.length / KEPT_PAGES_PER_CALL := Nat.div_le_div_right hj.le
    omega

theorem covers_of_source {scope : ListOverlayScope} {source : Source} (h : sourceOf a = some source) :
    scope.covers a = scope.has source := by
  rw [ListOverlayScope.covers, h, Option.any_some]

theorem not_isEmpty_of_covers {scope : ListOverlayScope} (h : scope.covers a = true) : scope.isEmpty = false := by
  obtain ⟨source, -, hhas⟩ := (Option.any_eq_true _ _).1 h
  cases source with
  | list id => simp [ListOverlayScope.isEmpty, List.ne_nil_of_mem (List.contains_iff_mem.1 hhas)]
  | instance_ id => simp [ListOverlayScope.isEmpty, List.ne_nil_of_mem (List.contains_iff_mem.1 hhas)]
  | page id => simp [ListOverlayScope.isEmpty, List.ne_nil_of_mem (List.contains_iff_mem.1 hhas)]

/-- What a build keeps of a plugin's overlay of a variant, `lists` being all shared lists. -/
structure KeptOk (lists : List String) (site : VariantOverlay) (st : VariantState) (kept : VariantOverlay) : Prop where
  values : ∀ a, OfSite site kept a
  hidden : ∀ a ∈ kept.hidden, a ∈ site.hidden
  lists : st.listsAsked = true → ∀ a id, sourceOf a = some (.list id) → id ∈ lists →
    kept.values a = site.values a ∧ (a ∈ site.hidden → a ∈ kept.hidden)
  pages : ∀ id ∈ st.keptPages, ∀ a, sourceOf a = some (.page id) → kept.values a = site.values a

theorem mem_callsOf {call : OverlayCall} (h : call = firstCall st ask ∨
    ∃ i < (newPages st ask).length / KEPT_PAGES_PER_CALL,
      call = ⟨⟨[], [], slice (newPages st ask) (i + 1)⟩, slice (newPages st ask) (i + 1)⟩)
    (hcovers : call.scope.covers a = true) : call ∈ callsOf st ask := by
  refine List.mem_filter.2 ⟨?_, by rw [not_isEmpty_of_covers hcovers]; rfl⟩
  rcases h with rfl | ⟨i, hi, rfl⟩
  · exact List.mem_cons_self
  · exact List.mem_cons_of_mem _ (List.mem_map.2 ⟨i, List.mem_range.2 hi, rfl⟩)

/-- A page that the batch only shows is kept, whichever slice asks for it. -/
theorem call_of_newPage (h : id ∈ newPages st ask) (hsource : sourceOf a = some (.page id)) :
    ∃ call ∈ callsOf st ask, call.scope.covers a = true ∧ keeps call.keep a = true := by
  have hkeeps : ∀ {keep : List String}, id ∈ keep → keeps keep a = true := by
    intro keep hkeep
    simp [keeps, pageOf_of_source hsource, hkeep]
  rcases mem_slice h with hslice | ⟨i, hi, hslice⟩
  · have hcovers : (firstCall st ask).scope.covers a = true := by
      simp [covers_of_source hsource, ListOverlayScope.has, firstCall, hslice]
    exact ⟨_, mem_callsOf (Or.inl rfl) hcovers, hcovers, hkeeps hslice⟩
  · have hcovers : (⟨[], [], slice (newPages st ask) (i + 1)⟩ : ListOverlayScope).covers a = true := by
      simp [covers_of_source hsource, ListOverlayScope.has, hslice]
    exact ⟨_, mem_callsOf (Or.inr ⟨i, hi, rfl⟩) hcovers, hcovers, hkeeps hslice⟩

theorem brings_of_mem {call : OverlayCall} {kept : Bool} (h : call ∈ callsOf st ask) (hcovers : call.scope.covers a = true)
    (hkeeps : keeps call.keep a = kept) : brings kept (callsOf st ask) a = true :=
  List.any_eq_true.2 ⟨call, h, by simp [hcovers, hkeeps]⟩

/-- What a batch does to the kept part and to its own, at one address. -/
theorem KeptOk.values_taken {lists : List String} {kept : VariantOverlay} (h : KeptOk lists site st kept) (a : Address) :
    (taken st ask site kept).1.values a =
        (if brings true (callsOf st ask) a then site.values a else kept.values a) ∧
      (taken st ask site kept).2.values a =
        if brings false (callsOf st ask) a then site.values a else none :=
  values_takeAll (callsOf st ask) (h.values a) (Or.inl rfl)

/-- After a batch the kept part has all lists and every page the batch showed. -/
theorem KeptOk.batch {lists : List String} {kept : VariantOverlay} (h : KeptOk lists site st kept)
    (hlists : ∀ id ∈ lists, id ∈ ask.listIds) :
    KeptOk lists site ⟨true, st.keptPages ++ newPages st ask, st.kept⟩ (taken st ask site kept).1 := by
  have hsame : ∀ {a}, kept.values a = site.values a →
      (taken st ask site kept).1.values a = site.values a := by
    intro a ha
    rw [(h.values_taken a).1, ha, ite_self]
  have hbrought : ∀ {a}, brings true (callsOf st ask) a = true →
      (taken st ask site kept).1.values a = site.values a := by
    intro a ha
    rw [(h.values_taken a).1, if_pos ha]
  refine ⟨fun a => ?_, fun a ha => ?_, fun _ a id hsource hid => ?_, fun id hid a hsource => ?_⟩
  · rcases h.values a with hnone | hsite
    · rw [OfSite, (h.values_taken a).1]
      split
      · exact Or.inr rfl
      · exact Or.inl hnone
    · exact Or.inr (hsame hsite)
  · rcases (mem_hidden_takeAll _ _).1.1 ha with ha | ⟨call, -, ha, -⟩
    · exact h.hidden a ha
    · exact (List.mem_filter.1 ha).1
  · cases hasked : st.listsAsked with
    | true =>
      obtain ⟨hvalue, hhides⟩ := h.lists hasked a id hsource hid
      exact ⟨hsame hvalue, fun ha => (mem_hidden_takeAll _ _).1.2 (Or.inl (hhides ha))⟩
    | false =>
      have hlist := isListAddress_of_source hsource
      have hcovers : (firstCall st ask).scope.covers a = true := by
        simp [covers_of_source hsource, ListOverlayScope.has, firstCall, hasked, hlists id hid]
      have hcall := mem_callsOf (Or.inl rfl) hcovers
      refine ⟨hbrought (brings_of_mem hcall hcovers (by simp [keeps, hlist])), fun ha => ?_⟩
      exact (mem_hidden_takeAll _ _).1.2 (Or.inr ⟨_, hcall, List.mem_filter.2 ⟨ha, hcovers⟩, hlist⟩)
  · rcases List.mem_append.1 hid with hid | hid
    · exact hsame (h.pages id hid a hsource)
    · obtain ⟨call, hcall, hcovers, hkeeps⟩ := call_of_newPage hid hsource
      exact hbrought (brings_of_mem hcall hcovers hkeeps)

/-- A scope that the ask of a batch takes in. -/
structure Asked (lists : List String) (ask : VariantAsk) (scope : ListOverlayScope) : Prop where
  lists : ∀ id ∈ scope.listIds, id ∈ lists
  instances : ∀ id ∈ scope.contentInstanceIds, id ∈ ask.contentInstanceIds
  pages : ∀ id ∈ scope.pageIds, id ∈ ask.ownPageIds ∨ id ∈ ask.otherPageIds

/-- What a batch answers to a plugin's overlay, at the addresses of a scope it asked for. -/
theorem KeptOk.merged {lists : List String} {kept : VariantOverlay} {scope : ListOverlayScope} (h : KeptOk lists site st kept)
    (hlists : ∀ id ∈ lists, id ∈ ask.listIds) (hasked : Asked lists ask scope) (hcovers : scope.covers a = true) :
    (merge (taken st ask site kept)).values a = site.values a ∧
      (pageOf a = none → a ∈ site.hidden → a ∈ (merge (taken st ask site kept)).hidden) := by
  have hbatch := h.batch hlists
  -- a value of the batch's part covers the kept one, and is the site's
  have hmerge : (taken st ask site kept).1.values a = site.values a ∨
      brings false (callsOf st ask) a = true →
      (merge (taken st ask site kept)).values a = site.values a := by
    intro heither
    show ((taken st ask site kept).2.values a).or _ = _
    rw [(h.values_taken a).2]
    cases hbrings : brings false (callsOf st ask) a with
    | true =>
      rcases hbatch.values a with hnone | hsite
      · rw [if_pos rfl, hnone, Option.or_none]
      · rw [if_pos rfl, hsite, Option.or_self]
    | false => simpa [hbrings] using heither
  have hfirst : (firstCall st ask).scope.covers a = true →
      (merge (taken st ask site kept)).values a = site.values a := by
    intro hfirst
    have hcall := mem_callsOf (Or.inl rfl) hfirst
    cases hkeeps : keeps (firstCall st ask).keep a with
    | true => exact hmerge (Or.inl (by rw [(h.values_taken a).1, if_pos (brings_of_mem hcall hfirst hkeeps)]))
    | false => exact hmerge (Or.inr (brings_of_mem hcall hfirst hkeeps))
  obtain ⟨source, hsource, hhas⟩ := (Option.any_eq_true _ _).1 hcovers
  cases source with
  | list id =>
    obtain ⟨hvalue, hhides⟩ := hbatch.lists rfl a id hsource (hasked.lists id (List.contains_iff_mem.1 hhas))
    exact ⟨hmerge (Or.inl hvalue), fun _ ha => List.mem_append_left _ (hhides ha)⟩
  | instance_ id =>
    have hcall : (firstCall st ask).scope.covers a = true := by
      simp [covers_of_source hsource, ListOverlayScope.has, firstCall, hasked.instances id (List.contains_iff_mem.1 hhas)]
    refine ⟨hfirst hcall, fun _ ha => List.mem_append_right _ ?_⟩
    refine (mem_hidden_takeAll _ _).2.2 (Or.inr ⟨_, mem_callsOf (Or.inl rfl) hcall, ?_, not_isListAddress (Or.inl hsource)⟩)
    exact List.mem_filter.2 ⟨ha, hcall⟩
  | page id =>
    refine ⟨?_, fun hpage => absurd (pageOf_of_source hsource) (by simp [hpage])⟩
    by_cases hkept : id ∈ st.keptPages
    · exact hmerge (Or.inl (hbatch.pages id (List.mem_append_left _ hkept) a hsource))
    by_cases hother : id ∈ ask.otherPageIds
    · refine hmerge (Or.inl (hbatch.pages id (List.mem_append_right _ ?_) a hsource))
      simp [newPages, hother, hkept]
    · have hown := (hasked.pages id (List.contains_iff_mem.1 hhas)).resolve_right hother
      refine hfirst ?_
      simp [covers_of_source hsource, ListOverlayScope.has, firstCall, hown, hkept, hother]

theorem listIds_of_scope {page : OverlayBatchPage} {scope : ListOverlayScope}
    (h : pageListOverlayScope data page = some scope) : scope.listIds = data.lists.map (·.id) := by
  unfold pageListOverlayScope at h
  split at h
  · obtain rfl := Option.some.inj h
    rfl
  · cases h

theorem askOf_lists {pages : List OverlayBatchPage} {variant : String} (h : askOf data pages variant = some ask) :
    ∀ id ∈ data.lists.map (·.id), id ∈ ask.listIds := by
  unfold askOf at h
  dsimp only at h
  split at h
  · cases h
  · rename_i hne
    obtain rfl := Option.some.inj h
    rw [List.isEmpty_iff] at hne
    obtain ⟨p, hp⟩ := List.exists_mem_of_ne_nil _ hne
    obtain ⟨page, -, hpage⟩ := List.mem_filterMap.1 hp
    obtain ⟨scope, hscope, rfl⟩ := Option.map_eq_some_iff.1 hpage
    intro id hid
    exact List.mem_flatMap.2 ⟨_, hp, (listIds_of_scope hscope).symm ▸ hid⟩

theorem askOf_page {pages : List OverlayBatchPage} {page : OverlayBatchPage} {variant : String} {scope : ListOverlayScope}
    (hpage : page ∈ pages) (hvariant : data.variantOf page.pageId = some variant)
    (hscope : pageListOverlayScope data page = some scope) :
    ∃ ask, askOf data pages variant = some ask ∧ Asked (data.lists.map (·.id)) ask scope := by
  have hmem : (page.pageId, scope) ∈ (pages.filter fun p => data.variantOf p.pageId == some variant).filterMap fun p =>
      (pageListOverlayScope data p).map fun scope => (p.pageId, scope) :=
    List.mem_filterMap.2 ⟨page, List.mem_filter.2 ⟨hpage, by simp [hvariant]⟩, by rw [hscope, Option.map_some]⟩
  refine ⟨_, by rw [askOf, if_neg (by simpa using List.ne_nil_of_mem hmem)], ?_, ?_, ?_⟩
  · exact fun id hid => listIds_of_scope hscope ▸ hid
  · exact fun id hid => List.mem_flatMap.2 ⟨_, hmem, hid⟩
  · intro id hid
    by_cases hown : id = page.pageId
    · exact Or.inl (List.mem_flatMap.2 ⟨_, hmem, List.mem_filter.2 ⟨hid, by simp [hown]⟩⟩)
    · exact Or.inr (List.mem_flatMap.2 ⟨_, hmem, List.mem_filter.2 ⟨hid, by simp [hown]⟩⟩)

/-- The state of a build after its batches. -/
def afterBatches (data : OverlayRenderData) (site : String → String → VariantOverlay) (batches : List (List OverlayBatchPage)) :
    BuildListOverlays :=
  batches.foldl (fun build pages => (forBatch data site build pages).1) .start

theorem keptOk_afterBatches (data : OverlayRenderData) (site : String → String → VariantOverlay)
    (batches : List (List OverlayBatchPage)) (variant slug : String) :
    KeptOk (data.lists.map (·.id)) (site variant slug) (afterBatches data site batches variant)
      ((afterBatches data site batches variant).kept slug) := by
  induction batches using List.reverseRecOn with
  | nil => exact ⟨fun _ => Or.inl rfl, nofun, nofun, nofun⟩
  | append_singleton batches pages ih =>
    rw [afterBatches, List.foldl_append, ← afterBatches, List.foldl_cons, List.foldl_nil]
    cases hask : askOf data pages variant with
    | none => simpa only [forBatch, hask] using ih
    | some ask =>
      have h := ih.batch (askOf_lists hask)
      simp only [forBatch, hask]
      exact ⟨h.values, h.hidden, h.lists, h.pages⟩

/-- However a build's pages are cut into batches, the overlays of a batch say at each address of a page's scope what the
plugins answer to a call for this page alone. -/
theorem forBatch_answers (data : OverlayRenderData) (site : String → String → VariantOverlay)
    (batches : List (List OverlayBatchPage)) {pages : List OverlayBatchPage} {page : OverlayBatchPage} {variant : String}
    {scope : ListOverlayScope} (hpage : page ∈ pages) (hvariant : data.variantOf page.pageId = some variant)
    (hscope : pageListOverlayScope data page = some scope) :
    ∃ overlays, (forBatch data site (afterBatches data site batches) pages).2 variant = some overlays ∧
      ∀ slug a, scope.covers a = true →
        (overlays slug).values a = (answer (site variant slug) scope).values a ∧
        (pageOf a = none → (a ∈ (overlays slug).hidden ↔ a ∈ (answer (site variant slug) scope).hidden)) := by
  obtain ⟨ask, hask, hasked⟩ := askOf_page hpage hvariant hscope
  refine ⟨_, (congrArg (Option.map _) hask).trans rfl, fun slug a hcovers => ?_⟩
  have hkept := keptOk_afterBatches data site batches variant slug
  obtain ⟨hvalues, hhidden⟩ := hkept.merged (askOf_lists hask) hasked hcovers
  refine ⟨hvalues.trans (by simp [answer, hcovers]), fun hnot => ⟨fun ha => ?_, fun ha => ?_⟩⟩
  · rcases List.mem_append.1 ha with ha | ha
    · exact List.mem_filter.2 ⟨(hkept.batch (askOf_lists hask)).hidden a ha, hcovers⟩
    · rcases (mem_hidden_takeAll _ _).2.1 ha with ha | ⟨call, -, ha, -⟩
      · cases ha
      · exact List.mem_filter.2 ⟨(List.mem_filter.1 ha).1, hcovers⟩
  · exact hhidden hnot (List.mem_filter.1 ha).1

/-- A page with a menu. -/
def menuPage : OverlayBatchPage where
  pageId := "home"
  modules := [⟨[⟨"menu", "list", none, none, none, none, none, none⟩], []⟩]
  markup := []
  contentInstanceIds := []

/-- A translated title of the page. -/
def titleOverlay : VariantOverlay :=
  ⟨fun a => if a = "page/home/props/title".toList then some (.str "Start") else none, []⟩

theorem forBatch_answers_menu :
    ∃ overlays, (forBatch ghostData (fun _ _ => titleOverlay)
        (afterBatches ghostData (fun _ _ => titleOverlay) [[menuPage]]) [menuPage]).2 "de" = some overlays ∧
      ∀ slug a, (⟨[], [], ["home"]⟩ : ListOverlayScope).covers a = true →
        (overlays slug).values a = (answer titleOverlay ⟨[], [], ["home"]⟩).values a ∧
        (pageOf a = none → (a ∈ (overlays slug).hidden ↔ a ∈ (answer titleOverlay ⟨[], [], ["home"]⟩).hidden)) :=
  forBatch_answers ghostData (fun _ _ => titleOverlay) [[menuPage]] (List.mem_singleton.2 rfl) (by decide) rfl

end CaeloCms.Lists.Overlay
