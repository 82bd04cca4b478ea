import CaeloCms.Lists.Render

/-!
# What the write path accepts, the render path reads

For a checked list type and a validated entry tree, the stored tree passes `checkTree` and every entry's query source
merges to a complete query.  The filters of that query are applied, and the media values read, exactly when the
references are spelt as `parseLinkRef` reads them: the write path admits any 36 characters of `[0-9a-f-]` as an id.
-/

namespace CaeloCms.Lists

open Link (parseLinkRef LinkRef isUuid)

/-! ### The entries of a tree -/

mutual

def inputEntry (depth : Nat) : ListItemInput → List (Nat × ListItemInput)
  | ⟨id, node, values, children, query⟩ => (depth, ⟨id, node, values, children, query⟩) :: inputEntries (depth + 1) children

def inputEntries (depth : Nat) : List ListItemInput → List (Nat × ListItemInput)
  | [] => []
  | it :: rest => inputEntry depth it ++ inputEntries depth rest

end

mutual

def itemEntry (depth : Nat) : ListItem → List (Nat × ListItem)
  | ⟨id, node, values, children, query⟩ => (depth, ⟨id, node, values, children, query⟩) :: itemEntries (depth + 1) children

def itemEntries (depth : Nat) : List ListItem → List (Nat × ListItem)
  | [] => []
  | it :: rest => itemEntry depth it ++ itemEntries depth rest

end

/-! ### The stored tree -/

section CheckTree

variable {type : ListTypeDef}

/-- What `checkTree` asks of an entry. -/
def Fits (type : ListTypeDef) (e : Nat × ListItem) : Prop :=
  (type.node e.2.node).isSome = true ∧ e.1 ≤ type.effectiveMaxDepth

mutual

theorem walkEntry_of_fits (it : ListItem) (depth : Nat) (at_ : String)
    (h : ∀ e ∈ itemEntry depth it, Fits type e) : walkEntry type (itemJson it) depth at_ = none := by
  obtain ⟨id, node, values, children, query⟩ := it
  have hself : Fits type (depth, ⟨id, node, values, children, query⟩) := h _ (by simp [itemEntry])
  have hbelow : ∀ e ∈ itemEntries (depth + 1) children, Fits type e := by
    intro e he
    exact h e (by simp [itemEntry, he])
  obtain ⟨hnode, hdepth⟩ := hself
  have hlevel := walkEntries_of_fits children 0 (depth + 1) s!"{at_}.children" hbelow
  have hsome : (type.node node).isNone = false := by simpa using hnode
  have hle : ¬type.effectiveMaxDepth < depth := Nat.not_lt.2 hdepth
  unfold itemJson walkEntry checkEntry
  by_cases hempty : children.isEmpty = true
  · cases query with
    | none => simp [lookup, isObject, hempty, hsome, hle, walkChildren]
    | some q => simp [lookup, isObject, hempty, hsome, hle, walkChildren]
  · simp [lookup, isObject, hempty, hsome, hle, walkChildren, walkArray, hlevel]

theorem walkEntries_of_fits (items : List ListItem) (i depth : Nat) (path : String)
    (h : ∀ e ∈ itemEntries depth items, Fits type e) : walkEntries type (itemsJson items) i depth path = none := by
  cases items with
  | nil => rfl
  | cons it rest =>
    have hit := walkEntry_of_fits it depth s!"{path}[{i}]" fun e he => h e (by simp [itemEntries, he])
    have hrest := walkEntries_of_fits rest (i + 1) depth path fun e he => h e (by simp [itemEntries, he])
    unfold itemsJson walkEntries
    rw [hit, hrest]
    rfl

end

theorem checkTree_of_fits {items : List ListItem} (h : ∀ e ∈ itemEntries 1 items, Fits type e) (field : String) :
    checkTree type (.arr (itemsJson items)) field = .ok (itemsJson items) := by
  simp [checkTree, walkEntries_of_fits items 0 1 "items" h]

end CheckTree

/-! ### What the walk stores -/

section Walk

variable (zodIssues : ZodIssues) (type : ListTypeDef) (newId : Nat → String)

/-- An entry that was written without an issue, and the entry that is stored of it. -/
structure StoredOf (e : Nat × ListItemInput) (out : Nat × ListItem) : Prop where
  depth : out.1 = e.1
  kind : out.2.node = e.2.node
  fits : Fits type out
  values : ∀ node, type.node e.2.node = some node →
    out.2.values = valuesOf e.2 node ∧ ∃ at_, checkValues zodIssues e.2 node at_ = []
  query : ∀ node, type.node e.2.node = some node →
    out.2.query = queryOf e.2 node ∧ ∃ at_, checkQuery zodIssues e.2 node at_ = []

theorem takeId_issues {it : ListItemInput} {at_ : String} {s : WalkState}
    (h : (takeId newId it at_ s).2.issues = []) : s.issues = [] := by
  unfold takeId at h
  exact (List.append_eq_nil_iff.1 h).1

theorem report_issues {s : WalkState} {issues : List ListIssue} (h : (s.report issues).issues = []) :
    s.issues = [] ∧ issues = [] :=
  List.append_eq_nil_iff.1 h

mutual

/-- A walk over an entry that ends without an issue began without one and stored the entries it was given. -/
theorem walkItem_stores (it : ListItemInput) (allow : List String) (depth : Nat) (at_ : String) (s : WalkState)
    (h : (walkItem zodIssues type newId it allow depth at_ s).2.issues = []) :
    s.issues = [] ∧ List.Forall₂ (StoredOf zodIssues type) (inputEntry depth it)
      (itemEntry depth (walkItem zodIssues type newId it allow depth at_ s).1) := by
  obtain ⟨id, kind, values, children, query⟩ := it
  unfold walkItem at h ⊢
  cases hnode : type.node kind with
  | none =>
    simp only [hnode] at h
    have hreport := (report_issues h).2
    cases hreport
  | some node =>
    simp only [hnode] at h ⊢
    -- the entry itself
    have hself : ∀ {t : WalkState}, (t.report (checkItem zodIssues type ⟨id, kind, values, children, query⟩ node allow
        depth at_)).issues = [] → t.issues = [] ∧ depth ≤ type.effectiveMaxDepth ∧
          checkValues zodIssues ⟨id, kind, values, children, query⟩ node at_ = [] ∧
          checkQuery zodIssues ⟨id, kind, values, children, query⟩ node at_ = [] := by
      intro t ht
      obtain ⟨hstart, hcheck⟩ := report_issues ht
      unfold checkItem at hcheck
      simp only [List.append_eq_nil_iff] at hcheck
      obtain ⟨⟨⟨-, hdeep⟩, hvalues⟩, hquery⟩ := hcheck
      refine ⟨hstart, ?_, hvalues, hquery⟩
      by_contra hlt
      simp [Nat.lt_of_not_le hlt] at hdeep
    -- what it stores, given what is stored below it
    have hstored : ∀ {t : WalkState} {below : List ListItem} {taken : String},
        (t.report (checkItem zodIssues type ⟨id, kind, values, children, query⟩ node allow depth at_)).issues = [] →
        List.Forall₂ (StoredOf zodIssues type) (inputEntries (depth + 1) children) (itemEntries (depth + 1) below) →
        List.Forall₂ (StoredOf zodIssues type) (inputEntry depth ⟨id, kind, values, children, query⟩)
          (itemEntry depth ⟨taken, kind, valuesOf ⟨id, kind, values, children, query⟩ node, below,
            queryOf ⟨id, kind, values, children, query⟩ node⟩) := by
      intro t below taken ht hbelow
      obtain ⟨-, hdepth, hvalues, hquery⟩ := hself ht
      refine List.Forall₂.cons ⟨rfl, rfl, ⟨?_, hdepth⟩, ?_, ?_⟩ hbelow
      · simp [hnode]
      · intro node' hnode'
        cases hnode.symm.trans hnode'
        exact ⟨rfl, at_, hvalues⟩
      · intro node' hnode'
        cases hnode.symm.trans hnode'
        exact ⟨rfl, at_, hquery⟩
    by_cases hempty : children.isEmpty = true
    · have hnil : children = [] := List.isEmpty_iff.1 hempty
      subst hnil
      simp only [List.isEmpty_nil, if_true] at h ⊢
      exact ⟨takeId_issues newId (hself h).1, hstored h List.Forall₂.nil⟩
    · simp only [hempty] at h ⊢
      cases hchildren : node.children with
      | none =>
        simp only [hchildren] at h
        have hreport := (report_issues h).2
        cases hreport
      | some c =>
        simp only [hchildren] at h ⊢
        obtain ⟨hmid, hbelow⟩ := walkItems_stores children 0 c.allow (depth + 1) _ _ h
        have hchecked := (report_issues hmid).1
        exact ⟨takeId_issues newId (hself hchecked).1, hstored hchecked hbelow⟩

theorem walkItems_stores (items : List ListItemInput) (i : Nat) (allow : List String) (depth : Nat) (path : String)
    (s : WalkState) (h : (walkItems zodIssues type newId items i allow depth path s).2.issues = []) :
    s.issues = [] ∧ List.Forall₂ (StoredOf zodIssues type) (inputEntries depth items)
      (itemEntries depth (walkItems zodIssues type newId items i allow depth path s).1) := by
  cases items with
  | nil => exact ⟨h, List.Forall₂.nil⟩
  | cons it rest =>
    unfold walkItems at h ⊢
    obtain ⟨hmid, hrest⟩ := walkItems_stores rest (i + 1) allow depth path _ h
    obtain ⟨hstart, hit⟩ := walkItem_stores it allow depth _ s hmid
    exact ⟨hstart, List.rel_append hit hrest⟩

end

theorem validateListItems_stores {input : Json} {root : String}
    (h : (validateListItems zodIssues type newId input root).issues = []) :
    ∃ items, parseListItems input = some items ∧ List.Forall₂ (StoredOf zodIssues type) (inputEntries 1 items)
      (itemEntries 1 (validateListItems zodIssues type newId input root).items) := by
  unfold validateListItems at h ⊢
  cases hparse : parseListItems input with
  | none =>
    simp only [hparse] at h
    -- Zod says at least one thing about a refused input
    obtain ⟨issue, issues, hissues⟩ := List.exists_cons_of_ne_nil (zodIssues .listItems input).2
    rw [hissues] at h
    cases h
  | some items =>
    simp only [hparse] at h
    have hwalk := (List.append_eq_nil_iff.1 h).1
    exact ⟨items, rfl, (walkItems_stores zodIssues type newId items 0 _ 1 root _ hwalk).2⟩

end Walk

/-! ### Filters -/

def writtenKnob (source : QuerySource) (own : Option Fields) (k : String) : Option Json :=
  (own.bind (lookup k)).or (lookup k source.defaults)

/-- The id in `caelo:page/<id>`. -/
def namedPage (ref : String) : String := String.ofList (ref.toList.drop 11)

/-- The id in `caelo:media/<id>` and `caelo:media/<id>/<variant>`. -/
def namedAsset (ref : String) : String := String.ofList ((ref.toList.drop 12).take 36)

structure PassesFilters (written : String → Option Json) (pageId : Option String) (p : ListPageRecord) : Prop where
  page_type : ∀ slug, written "page_type" = some (.str slug) → p.pageTypeSlug = slug
  parent : ∀ ref, written "parent" = some (.str ref) → p.parentId = some (namedPage ref)
  allTerms : ∀ terms, written "terms" = some (.arr terms) → written "terms_mode" = some (.str "all") →
    ∀ t, Json.str t ∈ terms → t ∈ p.terms
  anyTerm : ∀ terms, written "terms" = some (.arr terms) → terms ≠ [] → written "terms_mode" ≠ some (.str "all") →
    ∃ t, Json.str t ∈ terms ∧ t ∈ p.terms
  exclude_current : written "exclude_current" ≠ some (.bool false) → some p.id ≠ pageId

def AppliesFilters (written : String → Option Json) (q : PageQuery) : Prop :=
  ∀ (collate : String → String → Ordering) (data : ListRenderData) (pageId : Option String) (p : ListPageRecord),
    p ∈ queryHits collate data pageId q ↔
      p ∈ data.pages ∧ p.inBuild = true ∧
        (pageId.bind data.variantOf = none ∨ data.variantOf p.id = pageId.bind data.variantOf) ∧
        PassesFilters written pageId p

section Filters

variable {written : String → Option Json} {q : PageQuery}

structure Reads (written : String → Option Json) (q : PageQuery) : Prop where
  page_type : optional slugValue (written "page_type") = some q.page_type
  terms : optional termsValue (written "terms") = some q.terms
  terms_mode : optional termsModeValue (written "terms_mode") = some q.terms_mode
  parent : optional parentValue (written "parent") = some q.parent
  exclude_current : optional boolValue (written "exclude_current") = some q.exclude_current

variable {p : ListPageRecord} {pageId : Option String}

theorem hasTerms_iff :
    hasTerms q p = true ↔
      (q.terms_mode = some .all → ∀ t ∈ q.terms.getD [], t ∈ p.terms) ∧
      (q.terms_mode ≠ some .all → q.terms.getD [] ≠ [] → ∃ t ∈ q.terms.getD [], t ∈ p.terms) := by
  unfold hasTerms
  generalize q.terms.getD [] = ts
  cases ts with
  | nil => simp
  | cons t ts =>
    cases hmode : q.terms_mode with
    | none => simp
    | some mode => cases mode <;> simp

theorem passesFilters_iff (h : Reads written q) :
    PassesFilters written pageId p ↔
      (∀ slug ∈ q.page_type, p.pageTypeSlug = slug) ∧ (∀ ref ∈ q.parent, p.parentId = some (namedPage ref)) ∧
        hasTerms q p = true ∧ (q.exclude_current ≠ some false → some p.id ≠ pageId) := by
  have hslug := (optional_textValue h.page_type).1
  have hparent := (optional_textValue h.parent).1
  have hterms := optional_termsValue h.terms
  have hmode := optional_termsModeValue h.terms_mode
  have hcurrent := optional_boolValue h.exclude_current
  have hcurrentIff : written "exclude_current" = some (.bool false) ↔ q.exclude_current = some false := by
    rw [hcurrent]
    cases q.exclude_current <;> simp
  rw [hasTerms_iff]
  constructor
  · intro hp
    refine ⟨?_, ?_, ⟨?_, ?_⟩, fun hne => hp.exclude_current fun heq => hne (hcurrentIff.1 heq)⟩
    · intro slug hq
      exact hp.page_type slug (by rw [hslug, hq]; rfl)
    · intro ref hq
      exact hp.parent ref (by rw [hparent, hq]; rfl)
    · intro hall t ht
      cases hq : q.terms with
      | none => simp [hq] at ht
      | some ts =>
        rw [hq] at hterms ht
        exact hp.allTerms _ hterms (hmode.2 hall) t (by simpa using ht)
    · intro hany hne
      cases hq : q.terms with
      | none => simp [hq] at hne
      | some ts =>
        rw [hq] at hterms hne
        obtain ⟨t, ht, hpage⟩ := hp.anyTerm _ hterms (by simpa using hne) fun heq => hany (hmode.1 heq)
        exact ⟨t, by simpa using ht, hpage⟩
  · intro hq
    obtain ⟨hpageType, hparentOf, ⟨hall, hany⟩, hexclude⟩ := hq
    refine ⟨?_, ?_, ?_, ?_, fun hne => hexclude fun heq => hne (hcurrentIff.2 heq)⟩
    · intro slug hw
      rw [hslug] at hw
      obtain ⟨t, ht, heq⟩ := Option.map_eq_some_iff.1 hw
      cases heq
      exact hpageType slug ht
    · intro ref hw
      rw [hparent] at hw
      obtain ⟨t, ht, heq⟩ := Option.map_eq_some_iff.1 hw
      cases heq
      exact hparentOf ref ht
    · intro terms hw hwmode t ht
      rw [hterms] at hw
      obtain ⟨ts, hts, heq⟩ := Option.map_eq_some_iff.1 hw
      cases heq
      exact hall (hmode.1 hwmode) t (by simpa [hts] using ht)
    · intro terms hw hne hwmode
      rw [hterms] at hw
      obtain ⟨ts, hts, heq⟩ := Option.map_eq_some_iff.1 hw
      cases heq
      obtain ⟨t, ht, hpage⟩ := hany (fun heq => hwmode (hmode.2 heq)) (by simpa [hts] using hne)
      exact ⟨t, by simpa [hts] using ht, hpage⟩

/-- A parent the schema admits names a page in 36 characters; they are read back when they form a UUID. -/
theorem parentOf_of_isParentRef {ref : String} (hq : q.parent = some ref) (href : isParentRef ref = true) :
    parentOf q = if isUuid (ref.toList.drop 11) then some (namedPage ref) else none := by
  unfold isParentRef at href
  obtain ⟨id, hpre, hid⟩ := (Option.any_eq_true _ _).1 href
  have htext := Link.eq_append_of_isPrefixOf hpre
  have hlen : id.length = 36 := by
    unfold isLooseId at hid
    simp only [Bool.and_eq_true, beq_iff_eq] at hid
    exact hid.1
  have hdrop : ref.toList.drop 11 = id := by
    rw [htext]
    rfl
  unfold parentOf namedPage
  rw [hq, Option.bind_some, Link.parseLinkRef_page htext hlen, hdrop]
  by_cases h : isUuid id = true
  · simp [h]
  · simp [h]

theorem isHit_iff {data : ListRenderData} :
    isHit data pageId q p = true ↔
      p.inBuild = true ∧ (pageId.bind data.variantOf = none ∨ data.variantOf p.id = pageId.bind data.variantOf) ∧
        (∀ slug ∈ q.page_type, p.pageTypeSlug = slug) ∧ (∀ parent ∈ parentOf q, p.parentId = some parent) ∧
        (q.exclude_current ≠ some false → some p.id ≠ pageId) ∧ hasTerms q p = true := by
  have hcurrent : (!q.exclude_current.getD true || some p.id != pageId) = true ↔
      (q.exclude_current ≠ some false → some p.id ≠ pageId) := by
    cases q.exclude_current with
    | none => simp
    | some b => cases b <;> simp
  have hall : ∀ {o : Option String} {test : String → Bool}, o.all test = true ↔ ∀ s ∈ o, test s = true := by
    intro o test
    cases o <;> simp
  unfold isHit
  simp only [Bool.and_eq_true, hcurrent, hall, and_assoc, Bool.or_eq_true, Option.isNone_iff_eq_none, beq_iff_eq]

theorem mem_queryHits {collate : String → String → Ordering} {data : ListRenderData} :
    p ∈ queryHits collate data pageId q ↔ p ∈ data.pages ∧ isHit data pageId q p = true := by
  simp [queryHits]

/-- A page without a parent that carries everything else `q` asks for. -/
def orphan (q : PageQuery) : ListPageRecord :=
  { id := "page", title := "", parentId := none, pageTypeSlug := q.page_type.getD "", properties := [],
    terms := q.terms.getD [], firstPublishedAt := none, updatedAt := "", inBuild := true }

theorem isHit_orphan (hparent : parentOf q = none) :
    isHit { pages := [orphan q], media := [], pageVariants := [] } none q (orphan q) = true := by
  apply isHit_iff.2
  refine ⟨rfl, Or.inl rfl, ?_, ?_, by simp, hasTerms_iff.2 ⟨fun _ t ht => ht, ?_⟩⟩
  · intro slug hslug
    simp [orphan, Option.mem_def.1 hslug]
  · simp [hparent]
  · intro _ hne
    obtain ⟨t, ts, hts⟩ := List.exists_cons_of_ne_nil hne
    refine ⟨t, ?_, ?_⟩
    · simp [hts]
    · simp [orphan, hts]

/-- The filters a query writes are applied exactly when its parent, if it writes one, is spelt as a UUID. -/
theorem appliesFilters_iff (h : Reads written q) :
    AppliesFilters written q ↔ ∀ ref, written "parent" = some (.str ref) → isUuid (ref.toList.drop 11) = true := by
  obtain ⟨hparent, hshape⟩ := optional_textValue h.parent
  constructor
  · intro happlies ref hwritten
    have hq : q.parent = some ref := by
      rw [hparent] at hwritten
      simpa using hwritten
    by_contra hid
    -- the filter is dropped, so a page without a parent is returned
    have hnone : parentOf q = none := by
      rw [parentOf_of_isParentRef hq (hshape ref hq), if_neg hid]
    have hmem : orphan q ∈ queryHits (fun _ _ => .eq) { pages := [orphan q], media := [], pageVariants := [] } none q :=
      mem_queryHits.2 ⟨List.mem_singleton_self _, isHit_orphan hnone⟩
    have hpasses := ((happlies _ _ _ _).1 hmem).2.2.2
    have horphan := hpasses.parent ref hwritten
    simp [orphan] at horphan
  · intro hid collate data pageId p
    have hparentIff : (∀ parent ∈ parentOf q, p.parentId = some parent) ↔
        (∀ ref ∈ q.parent, p.parentId = some (namedPage ref)) := by
      cases hq : q.parent with
      | none => simp [parentOf, hq]
      | some ref =>
        have hwritten : written "parent" = some (.str ref) := by
          rw [hparent, hq]
          rfl
        rw [parentOf_of_isParentRef hq (hshape ref hq), if_pos (hid ref hwritten)]
        simp
    rw [mem_queryHits, isHit_iff, passesFilters_iff h, hparentIff]
    tauto

end Filters

/-! ### Media values -/

/-- A media value is read as the asset it names. -/
def ReadsMedia (ref : String) : Prop :=
  ∀ data : ListRenderData, mediaValue ref data = mediaScope ref (data.mediaRecord (namedAsset ref))

/-- The id of a media value is a UUID; its variant starts with a letter and has at most 64 characters. -/
def isReadableMediaRef (ref : String) : Bool :=
  isUuid ((ref.toList.drop 12).take 36) && Link.isVariantTail (ref.toList.drop 48)

theorem readsMedia_iff {ref : String} (h : isMediaRef ref = true) :
    ReadsMedia ref ↔ isReadableMediaRef ref = true := by
  unfold isMediaRef at h
  split at h
  · cases h
  · rename_i body hpre
    have htext := Link.eq_append_of_isPrefixOf hpre
    simp only [Bool.and_eq_true] at h
    have htail : body.drop 36 = [] ∨ ∃ variant, body.drop 36 = '/' :: variant ∧ variant ≠ [] ∧
        variant.all Link.isVariantChar = true := by
      cases hdrop : body.drop 36 with
      | nil => exact Or.inl rfl
      | cons c variant =>
        right
        have hvariant := h.2
        rw [hdrop] at hvariant
        simp only [Bool.and_eq_true, beq_iff_eq] at hvariant
        obtain ⟨⟨rfl, hne⟩, hchars⟩ := hvariant
        exact ⟨variant, rfl, by simpa using hne, hchars⟩
    have hid : (ref.toList.drop 12).take 36 = body.take 36 := by
      rw [htext]
      rfl
    have hrest : ref.toList.drop 48 = body.drop 36 := by
      rw [htext]
      rfl
    unfold ReadsMedia isReadableMediaRef namedAsset mediaValue
    rw [hid, hrest]
    rcases Link.parseLinkRef_media htext htail with ⟨hshape, variant, hparse⟩ | ⟨hshape, hparse⟩
    · simp [hshape, hparse]
    · rw [hshape, hparse]
      constructor
      · intro hall
        -- the asset's alt text is lost
        have hlost := congrArg MediaScope.alt
          (hall { pages := [], pageVariants := [], media := [⟨String.ofList (body.take 36), some "alt", none, none⟩] })
        simp [mediaScope, ListRenderData.mediaRecord] at hlost
      · intro hfalse
        cases hfalse

/-! ### The two paths -/

variable (zodIssues : ZodIssues) (type : ListTypeDef)

structure RendersAsWritten (items : List ListItem) : Prop where
  tree : ∀ field, checkTree type (.arr (itemsJson items)) field = .ok (itemsJson items)
  queries : ∀ e ∈ itemEntries 1 items, ∀ node source, type.node e.2.node = some node →
    node.source = some (.query source) → ∀ field path,
      ∃ q, mergeQuerySource zodIssues source (e.2.query.map Json.obj) field path false = .ok q ∧
        AppliesFilters (writtenKnob source e.2.query) q
  media : ∀ e ∈ itemEntries 1 items, ∀ node, type.node e.2.node = some node → ∀ f ∈ node.fields, f.type = .media →
    ∀ ref, lookup f.name e.2.values = some (.str ref) → ReadsMedia ref

/-- Every reference an entry writes is spelt as a reference: the parent of its query, its own where the source opens
the parent up, and its media values, the default where the entry has none. -/
def SpeltRefs (input : Json) : Prop :=
  ∀ items, parseListItems input = some items → ∀ e ∈ inputEntries 1 items, ∀ node, type.node e.2.node = some node →
    (∀ source, node.source = some (.query source) → ∀ ref,
      writtenKnob source (queryOf e.2 node) "parent" = some (.str ref) → isUuid (ref.toList.drop 11) = true) ∧
    (∀ f ∈ node.fields, f.type = .media → ∀ ref, storedValue f e.2.values = some (.str ref) →
      isReadableMediaRef ref = true)

/-! ### Field names -/

variable {zodIssues type}

theorem names_nodup_of_checkFields {at_ : String} {i : Nat} {seen : List String} {fields : List FieldDef}
    (h : checkFields zodIssues at_ i seen fields = []) :
    (fields.map FieldDef.name).Nodup ∧ ∀ f ∈ fields, f.name ∉ seen := by
  induction fields generalizing i seen with
  | nil => simp
  | cons f fields ih =>
    unfold checkFields at h
    simp only [List.append_eq_nil_iff] at h
    obtain ⟨⟨hdup, -⟩, hrest⟩ := h
    obtain ⟨hnodup, hseen⟩ := ih hrest
    have hnew : f.name ∉ seen := by
      intro hmem
      simp [hmem] at hdup
    refine ⟨?_, ?_⟩
    · rw [List.map_cons, List.nodup_cons]
      refine ⟨?_, hnodup⟩
      intro hmem
      obtain ⟨g, hg, hname⟩ := List.mem_map.1 hmem
      exact hseen g hg (by simp [hname])
    · intro g hg
      rcases List.mem_cons.1 hg with rfl | hg
      · exact hnew
      · exact fun hmem => hseen g hg (List.mem_cons_of_mem _ hmem)

theorem lookup_valuesOf {it : ListItemInput} {fields : List FieldDef} (hnodup : (fields.map FieldDef.name).Nodup)
    {f : FieldDef} (hf : f ∈ fields) :
    lookup f.name (fields.filterMap fun f => (storedValue f it.values).map fun v => (f.name, v)) =
      storedValue f it.values := by
  induction fields with
  | nil => cases hf
  | cons g fields ih =>
    rw [List.map_cons, List.nodup_cons] at hnodup
    obtain ⟨hg, hnodup⟩ := hnodup
    rcases List.mem_cons.1 hf with rfl | hf
    · cases hv : storedValue f it.values with
      | some v => simp [lookup, hv]
      | none =>
        rw [List.filterMap_cons_none (by simp [hv]), lookup_eq_none_iff]
        simp only [List.any_eq_false, beq_iff_eq]
        intro e he hname
        obtain ⟨g, hmem, hmap⟩ := List.mem_filterMap.1 he
        obtain ⟨v, -, rfl⟩ := Option.map_eq_some_iff.1 hmap
        exact hg (List.mem_map.2 ⟨g, hmem, hname⟩)
    · have hne : g.name ≠ f.name := by
        intro heq
        exact hg (List.mem_map.2 ⟨f, hf, heq.symm⟩)
      rw [← ih hnodup hf]
      cases hv : storedValue g it.values with
      | some v => simp [lookup, hv, hne]
      | none => rw [List.filterMap_cons_none (by simp [hv])]

theorem names_nodup_of_checkListTypeDef (h : checkListTypeDef zodIssues type = []) {kind : String} {node : NodeDef}
    (hnode : type.node kind = some node) : (node.fields.map FieldDef.name).Nodup := by
  obtain ⟨n, hfind, rfl⟩ := Option.map_eq_some_iff.1 hnode
  have hcheck := checkNode_of_checkListTypeDef zodIssues h (List.mem_of_find?_eq_some hfind)
  unfold checkNode at hcheck
  simp only [List.append_eq_nil_iff] at hcheck
  exact (names_nodup_of_checkFields hcheck.1.1.1.1.2).1

/-! ### The query of an entry -/

def StoredQuery (source : QuerySource) (stored : Option Fields) : Prop :=
  ∀ own, stored = some own → isPartialQuery own = true ∧ ∀ f ∈ own, (editableNames source).contains f.1 = true

theorem storedQuery_of_checkQuery {it : ListItemInput} {node : NodeDef} {at_ : String} {source : QuerySource}
    (hsource : node.source = some (.query source)) (h : checkQuery zodIssues it node at_ = []) :
    StoredQuery source (queryOf it node) := by
  intro own hown
  unfold queryOf at hown
  unfold checkQuery at h
  rw [hsource] at hown h
  cases hquery : it.query with
  | none => simp [hquery] at hown
  | some query =>
    simp only [hquery, Option.some.injEq] at hown
    subst hown
    simp only [hquery, List.append_eq_nil_iff] at h
    have hadmitted : isPartialQuery query = true := by
      by_contra hnot
      rw [if_neg hnot] at h
      cases h.1
    refine ⟨isPartialQuery_filter _ hadmitted, ?_⟩
    intro f hf
    exact (List.mem_filter.1 hf).2

theorem merge_of_storedQuery {source : QuerySource} {stored : Option Fields} (hdefaults : CompleteDefaults source)
    (hstored : StoredQuery source stored) (field path : String) (paginated : Bool) :
    ∃ q, mergeQuerySource zodIssues source (stored.map Json.obj) field path paginated = .ok q ∧
      Reads (writtenKnob source stored) q := by
  -- a complete list of knobs that reads as written
  have hcomplete : ∀ merged : Fields, isPartialQuery merged = true →
      (∀ k, lookup k merged = writtenKnob source stored k) →
      ∃ q, parsePageQuery merged = some q ∧ Reads (writtenKnob source stored) q := by
    intro merged hadmitted hlookup
    have hset : ∀ k, lookup k source.defaults ≠ none → lookup k merged ≠ none := by
      intro k hk
      rw [hlookup]
      unfold writtenKnob
      cases stored.bind (lookup k) with
      | none => exact hk
      | some v => simp
    obtain ⟨q, hq⟩ := exists_parsePageQuery hadmitted (hset _ hdefaults.order) (hset _ hdefaults.limit)
    refine ⟨q, hq, ?_⟩
    obtain ⟨hpage, hterms, hmode, hparent, hcurrent, -, -, -⟩ := parsePageQuery_eq_some.1 hq
    simp only [hlookup] at hpage hterms hmode hparent hcurrent
    exact ⟨hpage, hterms, hmode, hparent, hcurrent⟩
  cases stored with
  | none =>
    obtain ⟨q, hq, hreads⟩ := hcomplete source.defaults hdefaults.partialQuery fun _ => rfl
    exact ⟨q, by simp [mergeQuerySource, hq], hreads⟩
  | some own =>
    obtain ⟨hown, heditable⟩ := hstored own rfl
    have hnone : notEditable source own = none := by
      apply List.find?_eq_none.2
      intro f hf
      simp only [heditable f hf]
      decide
    obtain ⟨q, hq, hreads⟩ := hcomplete (spread source.defaults own) (isPartialQuery_spread hdefaults.partialQuery hown)
      fun k => lookup_spread k _ _
    exact ⟨q, by simp [mergeQuerySource, hnone, hq], hreads⟩

/-! ### The result -/

theorem exists_left_of_forall₂ {α β : Type} {R : α → β → Prop} {as : List α} {bs : List β}
    (h : List.Forall₂ R as bs) {b : β} (hb : b ∈ bs) : ∃ a ∈ as, R a b := by
  induction h with
  | nil => cases hb
  | cons hab _ ih =>
    rcases List.mem_cons.1 hb with rfl | hb
    · exact ⟨_, List.mem_cons_self, hab⟩
    · obtain ⟨a, ha, hR⟩ := ih hb
      exact ⟨a, List.mem_cons_of_mem _ ha, hR⟩

theorem entry_iff (htype : checkListTypeDef zodIssues type = []) {e : Nat × ListItemInput} {out : Nat × ListItem}
    (h : StoredOf zodIssues type e out) {node : NodeDef} (hnode : type.node e.2.node = some node) :
    (∀ source, node.source = some (.query source) → ∀ field path,
      ∃ q, mergeQuerySource zodIssues source (out.2.query.map Json.obj) field path false = .ok q ∧
        (AppliesFilters (writtenKnob source out.2.query) q ↔
          ∀ ref, writtenKnob source (queryOf e.2 node) "parent" = some (.str ref) →
            isUuid (ref.toList.drop 11) = true)) ∧
    (∀ f ∈ node.fields, f.type = .media →
      lookup f.name out.2.values = storedValue f e.2.values ∧
        ∀ ref, storedValue f e.2.values = some (.str ref) → (ReadsMedia ref ↔ isReadableMediaRef ref = true)) := by
  constructor
  · intro source hsource field path
    obtain ⟨hquery, at_, hcheck⟩ := h.query node hnode
    have hdefaults := completeDefaults_of_checkListTypeDef zodIssues htype hnode hsource
    rw [hquery]
    obtain ⟨q, hmerge, hreads⟩ :=
      merge_of_storedQuery hdefaults (storedQuery_of_checkQuery hsource hcheck) field path false
    exact ⟨q, hmerge, appliesFilters_iff hreads⟩
  · intro f hf hmedia
    obtain ⟨hvalues, at_, hcheck⟩ := h.values node hnode
    have hnodup := names_nodup_of_checkListTypeDef htype hnode
    refine ⟨?_, ?_⟩
    · rw [hvalues]
      exact lookup_valuesOf hnodup hf
    · intro ref href
      have hvalid := List.flatMap_eq_nil_iff.1 (List.append_eq_nil_iff.1 hcheck).1 f hf
      rw [href] at hvalid
      obtain ⟨s, hs, hshape⟩ := isMediaRef_of_validate zodIssues hmedia (by simp) hvalid
      cases hs
      exact readsMedia_iff hshape

/-- Of a checked type and a validated tree, the render path reads what was written exactly when the parents and the
media values are spelt as references. -/
theorem writtenLists_render (newId : Nat → String) (input : Json) (root : String)
    (htype : checkListTypeDef zodIssues type = [])
    (hitems : (validateListItems zodIssues type newId input root).issues = []) :
    RendersAsWritten zodIssues type (validateListItems zodIssues type newId input root).items ↔
      SpeltRefs type input := by
  obtain ⟨items, hparse, hstored⟩ := validateListItems_stores zodIssues type newId hitems
  generalize (validateListItems zodIssues type newId input root).items = out at hstored
  constructor
  · intro hrenders items' hparse' e he node hnode
    cases hparse.symm.trans hparse'
    obtain ⟨o, ho, hso⟩ := exists_left_of_forall₂ hstored.flip he
    have hkind : type.node o.2.node = some node := by rw [hso.kind, hnode]
    obtain ⟨hqueries, hmedia⟩ := entry_iff htype hso hnode
    refine ⟨?_, ?_⟩
    · intro source hsource
      obtain ⟨q, hmerge, hiff⟩ := hqueries source hsource "" ""
      obtain ⟨q', hmerge', happlies⟩ := hrenders.queries o ho node source hkind hsource "" ""
      cases hmerge.symm.trans hmerge'
      exact hiff.1 happlies
    · intro f hf hmediaField ref href
      obtain ⟨hlookup, hiff⟩ := hmedia f hf hmediaField
      exact (hiff ref href).1 (hrenders.media o ho node hkind f hf hmediaField ref (hlookup.trans href))
  · intro hspelt
    refine ⟨?_, ?_, ?_⟩
    · apply checkTree_of_fits
      intro o ho
      obtain ⟨e, -, hso⟩ := exists_left_of_forall₂ hstored ho
      exact hso.fits
    · intro o ho node source hkind hsource field path
      obtain ⟨e, he, hso⟩ := exists_left_of_forall₂ hstored ho
      have hnode : type.node e.2.node = some node := by rw [← hso.kind, hkind]
      obtain ⟨hqueries, -⟩ := entry_iff htype hso hnode
      obtain ⟨q, hmerge, hiff⟩ := hqueries source hsource field path
      exact ⟨q, hmerge, hiff.2 ((hspelt items hparse e he node hnode).1 source hsource)⟩
    · intro o ho node hkind f hf hmediaField ref href
      obtain ⟨e, he, hso⟩ := exists_left_of_forall₂ hstored ho
      have hnode : type.node e.2.node = some node := by rw [← hso.kind, hkind]
      obtain ⟨-, hmedia⟩ := entry_iff htype hso hnode
      obtain ⟨hlookup, hiff⟩ := hmedia f hf hmediaField
      have hvalue : storedValue f e.2.values = some (.str ref) := hlookup.symm.trans href
      exact (hiff ref hvalue).2 ((hspelt items hparse e he node hnode).2 f hf hmediaField ref hvalue)

/-! ### A list of news -/

def sampleZod : ZodIssues := fun _ _ => ⟨[⟨.other, [], "invalid"⟩], by simp⟩

/-- News below `parent`; an entry may set how many it shows. -/
def newsSource (parent : String) : QuerySource :=
  { editable := [.limit]
    defaults := [("parent", .str parent), ("order", .str "published_desc"), ("limit", .num "3")] }

def newsNode (parent : String) : NodeDef :=
  { fields := [⟨"image", .media, false, none⟩], children := none, current_from := none,
    source := some (.query (newsSource parent)) }

def newsType (parent : String) : ListTypeDef :=
  { slug := "news", role := .content, root := ⟨["news"], none⟩, nodes := [("news", newsNode parent)],
    max_depth := some 1 }

def newsInput : Json :=
  .arr [.obj [("node", .str "news"),
    ("values", .obj [("image", .str "caelo:media/7d1f4a52-0c3b-4e68-9a1d-5b2f8c7e6a01/webp-800")]),
    ("query", .obj [("limit", .num "5")])]]

def newsId (_ : Nat) : String := "0b6c2a5e-3f41-4d7a-8e90-1c2d3e4f5a6b"

def newsParent : String := "caelo:page/c1d2e3f4-a5b6-4c7d-8e9f-0a1b2c3d4e5f"

/-- 36 characters of `[0-9a-f-]` that are no UUID. -/
def looseParent : String := "caelo:page/c1d2e3f4a5b64c7d8e9f0a1b2c3d4e5f0000"

theorem writtenLists_render_news :
    checkListTypeDef sampleZod (newsType newsParent) = [] ∧
      (validateListItems sampleZod (newsType newsParent) newsId newsInput "items").issues = [] ∧
      (RendersAsWritten sampleZod (newsType newsParent)
          (validateListItems sampleZod (newsType newsParent) newsId newsInput "items").items ↔
        SpeltRefs (newsType newsParent) newsInput) :=
  ⟨by decide +kernel, by decide +kernel, writtenLists_render newsId newsInput "items" (by decide +kernel) (by decide +kernel)⟩

def newsItem : ListItem :=
  { id := newsId 0, node := "news", children := [], query := some [("limit", .num "5")],
    values := [("image", .str "caelo:media/7d1f4a52-0c3b-4e68-9a1d-5b2f8c7e6a01/webp-800")] }

theorem newsSource_merges (parent : String) (hparent : isParentRef parent = true) :
    ∃ q, mergeQuerySource sampleZod (newsSource parent) (newsItem.query.map Json.obj) "" "" false = .ok q ∧
      Reads (writtenKnob (newsSource parent) newsItem.query) q := by
  have hdefaults : CompleteDefaults (newsSource parent) := by
    refine ⟨?_, by simp [newsSource, lookup], by simp [newsSource, lookup]⟩
    have hvalue : parentValue (.str parent) = some parent := textValue_eq_some.2 ⟨rfl, hparent⟩
    have horder : (orderValue (.str "published_desc")).isSome = true := by decide
    have hlimit : (limitValue (.num "3")).isSome = true := by decide +kernel
    simp [isPartialQuery, newsSource, lookup, optional, hvalue, horder, hlimit, knownKnobs, QUERY_KNOBS, QueryKnob.name]
  have hstored : StoredQuery (newsSource parent) newsItem.query := by
    intro own hown
    cases hown
    exact ⟨by decide +kernel, by simp [newsSource, editableNames, QueryKnob.name]⟩
  exact merge_of_storedQuery hdefaults hstored "" "" false

/-- The parent of the defaults passes the write path and is dropped by the render path. -/
theorem looseParent_dropped :
    checkListTypeDef sampleZod (newsType looseParent) = [] ∧
      (validateListItems sampleZod (newsType looseParent) newsId newsInput "items").issues = [] ∧
      ¬RendersAsWritten sampleZod (newsType looseParent)
          (validateListItems sampleZod (newsType looseParent) newsId newsInput "items").items := by
  refine ⟨by decide +kernel, by decide +kernel, ?_⟩
  intro h
  have hitems : (validateListItems sampleZod (newsType looseParent) newsId newsInput "items").items = [newsItem] := by
    rfl
  rw [hitems] at h
  obtain ⟨q, hq, hreads⟩ := newsSource_merges looseParent (by decide)
  obtain ⟨q', hq', happlies⟩ := h.queries (1, newsItem) (by simp [itemEntries, itemEntry, newsItem])
    (newsNode looseParent) (newsSource looseParent) rfl rfl "" ""
  cases hq.symm.trans hq'
  have huuid := (appliesFilters_iff hreads).1 happlies looseParent rfl
  exact absurd huuid (by decide)

end CaeloCms.Lists
