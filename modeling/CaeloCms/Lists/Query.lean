import CaeloCms.Lists.Fields

/-!
# Page queries

The query sources of `list-type.ts`: the schema of a complete query (`parsePageQuery`), its partial form for defaults
and overrides (`isPartialQuery`), and the merge of the two at render time (`mergeQuerySource`, `query-merge.ts`).
-/

namespace CaeloCms.Lists

def LIST_QUERY_MAX_LIMIT : Nat := 50

inductive QueryKnob
  | page_type
  | terms
  | terms_mode
  | parent
  | exclude_current
  | order
  | limit
deriving DecidableEq, Repr

def QueryKnob.name : QueryKnob → String
  | page_type => "page_type"
  | terms => "terms"
  | terms_mode => "terms_mode"
  | parent => "parent"
  | exclude_current => "exclude_current"
  | order => "order"
  | limit => "limit"

def QUERY_KNOBS : List QueryKnob := [.page_type, .terms, .terms_mode, .parent, .exclude_current, .order, .limit]

inductive TermsMode
  | any
  | all
deriving DecidableEq, Repr

structure PageQuery where
  page_type : Option String
  terms : Option (List String)
  terms_mode : Option TermsMode
  parent : Option String
  exclude_current : Option Bool
  order : String
  limit : Nat
deriving DecidableEq, Repr

/-! ### The values of the knobs -/

/-- `/^[a-z0-9-]+$/` -/
def isSlugText (s : String) : Bool := !s.isEmpty && s.toList.all Link.isVariantChar

def isParentRef (s : String) : Bool := ("caelo:page/".toList.isPrefixOf? s.toList).any isLooseId

def isQueryOrder (s : String) : Bool :=
  ["published_desc", "published_asc", "title_asc"].contains s ||
    ["prop_desc:", "prop_asc:"].any fun p =>
      (p.toList.isPrefixOf? s.toList).any fun name => isListName (String.ofList name)

/-- `z.string().regex(…)` -/
def textValue (matches_ : String → Bool) : Json → Option String
  | .str s => if matches_ s then some s else none
  | _ => none

def slugValue : Json → Option String := textValue isSlugText

def termValue : Json → Option String := textValue isTermRef

def parentValue : Json → Option String := textValue isParentRef

def orderValue : Json → Option String := textValue isQueryOrder

def termsValue : Json → Option (List String)
  | .arr items => if items.length ≤ 20 then items.mapM termValue else none
  | _ => none

def termsModeValue : Json → Option TermsMode
  | .str "any" => some .any
  | .str "all" => some .all
  | _ => none

def boolValue : Json → Option Bool
  | .bool b => some b
  | _ => none

/-- `z.number().int().min(1).max(LIST_QUERY_MAX_LIMIT)` -/
def limitValue : Json → Option Nat
  | .num t => (List.range' 1 LIST_QUERY_MAX_LIMIT).find? fun n => toString n == t
  | _ => none

/-- `.optional()`: an absent knob passes, a present one must parse. -/
def optional {α : Type} (value : Json → Option α) : Option Json → Option (Option α)
  | none => some none
  | some v => (value v).map some

/-- `.strict()` -/
def knownKnobs (fields : Fields) : Bool := fields.all fun f => QUERY_KNOBS.any fun k => k.name == f.1

/-! ### The schemas -/

/-- `pageQuerySchema.safeParse(fields)`, its data when it succeeds. -/
def parsePageQuery (fields : Fields) : Option PageQuery := do
  let page_type ← optional slugValue (lookup "page_type" fields)
  let terms ← optional termsValue (lookup "terms" fields)
  let terms_mode ← optional termsModeValue (lookup "terms_mode" fields)
  let parent ← optional parentValue (lookup "parent" fields)
  let exclude_current ← optional boolValue (lookup "exclude_current" fields)
  let order ← (lookup "order" fields).bind orderValue
  let limit ← (lookup "limit" fields).bind limitValue
  if knownKnobs fields then some { page_type, terms, terms_mode, parent, exclude_current, order, limit } else none

/-- `pageQueryPartialSchema.safeParse(fields).success` -/
def isPartialQuery (fields : Fields) : Bool :=
  (optional slugValue (lookup "page_type" fields)).isSome && (optional termsValue (lookup "terms" fields)).isSome &&
    (optional termsModeValue (lookup "terms_mode" fields)).isSome &&
    (optional parentValue (lookup "parent" fields)).isSome &&
    (optional boolValue (lookup "exclude_current" fields)).isSome &&
    (optional orderValue (lookup "order" fields)).isSome && (optional limitValue (lookup "limit" fields)).isSome &&
    knownKnobs fields

/-! ### Merging -/

structure QuerySource where
  editable : List QueryKnob
  defaults : Fields

def QUERY_SOURCE_EXAMPLE : String :=
  "\x7bkind:\"query\", defaults:\x7bpage_type:\"<slug>\", order:\"published_desc\", limit:10\x7d\x7d"

def PAGINATED_QUERY_SOURCE_EXAMPLE : String :=
  "\x7bkind:\"query\", defaults:\x7bpage_type:\"<slug>\", order:\"published_desc\"\x7d\x7d with paginate:\x7b\x7d on the field (no limit; paginate.per_page is the page size)"

def ORDER_VALUES : String :=
  "\"published_desc\", \"published_asc\", \"title_asc\", \"prop_desc:<property>\" or \"prop_asc:<property>\""

structure QueryMergeFailure where
  marker : String
  detail : String

def spread (base own : Fields) : Fields := own ++ base.filter fun f => !own.any fun g => g.1 == f.1

def editableNames (source : QuerySource) : List String := source.editable.map QueryKnob.name

def incompleteQuery (zodIssues : ZodIssues) (merged : Fields) (field path : String) (paginated : Bool) :
    QueryMergeFailure :=
  let issue := (zodIssues .pageQuery (.obj merged)).1.head (zodIssues .pageQuery (.obj merged)).2
  let knob := ".".intercalate (issue.path.map PathPart.text)
  let at_ := if knob.isEmpty then path else s!"{path}.{knob}"
  let marker := s!"list-malformed:{field}[{at_}]"
  if knob = "order" ∧ (lookup "order" merged).isNone then
    let example_ := if paginated then PAGINATED_QUERY_SOURCE_EXAMPLE else QUERY_SOURCE_EXAMPLE
    ⟨marker, s!"the query has no \"order\" — add order ({ORDER_VALUES}) to source.defaults, e.g. {example_}."⟩
  else if knob = "limit" ∧ (lookup "limit" merged).isNone then
    ⟨marker, s!"the query has no \"limit\" — add limit (1–50) to source.defaults, e.g. {QUERY_SOURCE_EXAMPLE}; for an overview of every matching page, give the list field paginate:\x7b\x7d instead."⟩
  else ⟨marker, s!"query knob \"{knob}\" is invalid: {issue.message}."⟩

def notEditable (source : QuerySource) (overrides : Fields) : Option (String × Json) :=
  overrides.find? fun f => !(editableNames source).contains f.1

def mergeQuerySource (zodIssues : ZodIssues) (source : QuerySource) (overrides : Option Json) (field path : String)
    (paginated : Bool) : Except QueryMergeFailure PageQuery :=
  let complete := fun (merged : Fields) =>
    match parsePageQuery merged with
    | some q => .ok q
    | none => .error (incompleteQuery zodIssues merged field path paginated)
  match overrides with
  | none => complete source.defaults
  | some .null => complete source.defaults
  | some (.obj knobs) =>
    match notEditable source knobs with
    | some (k, _) =>
      let editable := if source.editable.isEmpty then "empty" else ", ".intercalate (editableNames source)
      .error ⟨s!"list-malformed:{field}[{path}.{k}]",
        s!"\"{k}\" cannot be set per entry or placement — the source's editable list is {editable}. Remove \"{k}\" from the value, or add it to source.editable."⟩
    | none => complete (spread source.defaults knobs)
  | some _ => .error ⟨s!"list-malformed:{field}[{path}]",
      "the value of a query field is an object of query knobs, e.g. \x7blimit:3\x7d."⟩

/-! ### Values -/

theorem textValue_eq_some {matches_ : String → Bool} {v : Json} {s : String} :
    textValue matches_ v = some s ↔ v = .str s ∧ matches_ s = true := by
  constructor
  · intro h
    cases v with
    | str t =>
      by_cases ht : matches_ t = true
      · have hts : t = s := by simpa [textValue, ht] using h
        subst hts
        exact ⟨rfl, ht⟩
      · simp [textValue, ht] at h
    | _ => cases h
  · intro h
    obtain ⟨rfl, hs⟩ := h
    simp [textValue, hs]

variable {fields : Fields} {value : Option Json}

theorem optional_textValue {matches_ : String → Bool} {text : Option String}
    (h : optional (textValue matches_) value = some text) :
    value = text.map Json.str ∧ ∀ s ∈ text, matches_ s = true := by
  cases value with
  | none =>
    cases h
    exact ⟨rfl, by simp⟩
  | some v =>
    obtain ⟨s, hs, rfl⟩ := Option.map_eq_some_iff.1 h
    obtain ⟨rfl, hmatch⟩ := textValue_eq_some.1 hs
    exact ⟨rfl, by simpa using hmatch⟩

theorem optional_boolValue {b : Option Bool} (h : optional boolValue value = some b) :
    value = b.map Json.bool := by
  cases value with
  | none =>
    cases h
    rfl
  | some v =>
    obtain ⟨s, hs, rfl⟩ := Option.map_eq_some_iff.1 h
    cases v with
    | bool b =>
      cases hs
      rfl
    | _ => cases hs

theorem optional_termsModeValue {mode : Option TermsMode}
    (h : optional termsModeValue value = some mode) : value = some (.str "all") ↔ mode = some .all := by
  cases value with
  | none =>
    cases h
    simp
  | some v =>
    obtain ⟨s, hs, rfl⟩ := Option.map_eq_some_iff.1 h
    unfold termsModeValue at hs
    split at hs
    · cases hs
      simp
    · cases hs
      simp
    · cases hs

theorem mapM_termValue {items : List Json} {terms : List String} (h : items.mapM termValue = some terms) :
    items = terms.map Json.str := by
  induction items generalizing terms with
  | nil =>
    cases h
    rfl
  | cons v items ih =>
    rw [List.mapM_cons] at h
    obtain ⟨t, ht, h⟩ := Option.bind_eq_some_iff.1 h
    obtain ⟨ts, hts, h⟩ := Option.bind_eq_some_iff.1 h
    cases h
    rw [(textValue_eq_some.1 ht).1, ih hts]
    rfl

theorem optional_termsValue {terms : Option (List String)}
    (h : optional termsValue value = some terms) : value = terms.map fun ts => Json.arr (ts.map Json.str) := by
  cases value with
  | none =>
    cases h
    rfl
  | some v =>
    obtain ⟨ts, hts, rfl⟩ := Option.map_eq_some_iff.1 h
    cases v with
    | arr items =>
      by_cases hlen : items.length ≤ 20
      · have hmap : items.mapM termValue = some ts := by simpa [termsValue, hlen] using hts
        rw [mapM_termValue hmap]
        rfl
      · simp [termsValue, hlen] at hts
    | _ => cases hts

/-! ### Records -/

theorem lookup_eq_none_iff {name : String} :
    lookup name fields = none ↔ (fields.any fun f => f.1 == name) = false := by
  simp [lookup]

theorem lookup_append (name : String) (fields others : Fields) :
    lookup name (fields ++ others) = (lookup name fields).or (lookup name others) := by
  unfold lookup
  rw [List.find?_append]
  cases fields.find? fun f => f.1 == name <;> rfl

theorem lookup_filter (name : String) (keep : String → Bool) (fields : Fields) :
    lookup name (fields.filter fun f => keep f.1) = if keep name then lookup name fields else none := by
  induction fields with
  | nil => simp [lookup]
  | cons f fields ih =>
    unfold lookup at ih ⊢
    by_cases hf : f.1 = name
    · subst hf
      by_cases hk : keep f.1 = true
      · simp [hk]
      · simpa [hk] using ih
    · by_cases hk : keep f.1 = true
      · simpa [hk, hf] using ih
      · simpa [hk, hf] using ih

theorem lookup_spread (name : String) (base own : Fields) :
    lookup name (spread base own) = (lookup name own).or (lookup name base) := by
  unfold spread
  rw [lookup_append, lookup_filter name fun k => !own.any fun g => g.1 == k]
  by_cases h : lookup name own = none
  · have hnone := lookup_eq_none_iff.1 h
    simp [h, hnone]
  · obtain ⟨v, hv⟩ := Option.ne_none_iff_exists'.1 h
    simp [hv]

/-! ### Merged queries -/

/-- What the schema asks of a knob when it is present. -/
def knobOk (knob : QueryKnob) (value : Option Json) : Bool :=
  match knob with
  | .page_type => (optional slugValue value).isSome
  | .terms => (optional termsValue value).isSome
  | .terms_mode => (optional termsModeValue value).isSome
  | .parent => (optional parentValue value).isSome
  | .exclude_current => (optional boolValue value).isSome
  | .order => (optional orderValue value).isSome
  | .limit => (optional limitValue value).isSome

@[simp] theorem knobOk_none (knob : QueryKnob) : knobOk knob none = true := by
  cases knob <;> rfl

theorem isPartialQuery_iff :
    isPartialQuery fields = true ↔ (∀ k, knobOk k (lookup k.name fields) = true) ∧ knownKnobs fields = true := by
  unfold isPartialQuery
  simp only [Bool.and_eq_true]
  constructor
  · intro h
    obtain ⟨⟨⟨⟨⟨⟨⟨hpage, hterms⟩, hmode⟩, hparent⟩, hcurrent⟩, horder⟩, hlimit⟩, hknown⟩ := h
    refine ⟨?_, hknown⟩
    intro k
    cases k <;> assumption
  · intro h
    obtain ⟨hknobs, hknown⟩ := h
    exact ⟨⟨⟨⟨⟨⟨⟨hknobs .page_type, hknobs .terms⟩, hknobs .terms_mode⟩, hknobs .parent⟩,
      hknobs .exclude_current⟩, hknobs .order⟩, hknobs .limit⟩, hknown⟩

theorem isPartialQuery_filter (keep : String → Bool) (h : isPartialQuery fields = true) :
    isPartialQuery (fields.filter fun f => keep f.1) = true := by
  obtain ⟨hknobs, hknown⟩ := isPartialQuery_iff.1 h
  apply isPartialQuery_iff.2
  constructor
  · intro k
    rw [lookup_filter]
    split
    · exact hknobs k
    · exact knobOk_none k
  · unfold knownKnobs at hknown ⊢
    rw [List.all_eq_true] at hknown ⊢
    intro f hf
    exact hknown f (List.mem_of_mem_filter hf)

theorem isPartialQuery_spread {base own : Fields} (hbase : isPartialQuery base = true)
    (hown : isPartialQuery own = true) : isPartialQuery (spread base own) = true := by
  obtain ⟨hbaseKnobs, hbaseKnown⟩ := isPartialQuery_iff.1 hbase
  obtain ⟨hownKnobs, hownKnown⟩ := isPartialQuery_iff.1 hown
  apply isPartialQuery_iff.2
  constructor
  · intro k
    rw [lookup_spread]
    cases h : lookup k.name own with
    | none => exact hbaseKnobs k
    | some v =>
      have hv := hownKnobs k
      rw [h] at hv
      exact hv
  · unfold knownKnobs spread at *
    rw [List.all_eq_true] at *
    intro f hf
    rcases List.mem_append.1 hf with hf | hf
    · exact hownKnown f hf
    · exact hbaseKnown f (List.mem_of_mem_filter hf)

theorem parsePageQuery_eq_some {q : PageQuery} :
    parsePageQuery fields = some q ↔
      optional slugValue (lookup "page_type" fields) = some q.page_type ∧
      optional termsValue (lookup "terms" fields) = some q.terms ∧
      optional termsModeValue (lookup "terms_mode" fields) = some q.terms_mode ∧
      optional parentValue (lookup "parent" fields) = some q.parent ∧
      optional boolValue (lookup "exclude_current" fields) = some q.exclude_current ∧
      (lookup "order" fields).bind orderValue = some q.order ∧
      (lookup "limit" fields).bind limitValue = some q.limit ∧ knownKnobs fields = true := by
  unfold parsePageQuery
  constructor
  · intro h
    simp only [bind, Option.bind_eq_some_iff] at h
    obtain ⟨a, ha, b, hb, c, hc, d, hd, e, he, f, hf, g, hg, h⟩ := h
    split at h
    · rename_i hknown
      cases h
      exact ⟨ha, hb, hc, hd, he, Option.bind_eq_some_iff.2 hf, Option.bind_eq_some_iff.2 hg, hknown⟩
    · cases h
  · intro h
    obtain ⟨hpage, hterms, hmode, hparent, hcurrent, horder, hlimit, hknown⟩ := h
    simp [hpage, hterms, hmode, hparent, hcurrent, horder, hlimit, hknown]

theorem exists_parsePageQuery (h : isPartialQuery fields = true)
    (horder : lookup "order" fields ≠ none) (hlimit : lookup "limit" fields ≠ none) :
    ∃ q, parsePageQuery fields = some q := by
  obtain ⟨hknobs, hknown⟩ := isPartialQuery_iff.1 h
  obtain ⟨page, hpage⟩ := Option.isSome_iff_exists.1 (hknobs .page_type)
  obtain ⟨terms, hterms⟩ := Option.isSome_iff_exists.1 (hknobs .terms)
  obtain ⟨mode, hmode⟩ := Option.isSome_iff_exists.1 (hknobs .terms_mode)
  obtain ⟨parent, hparent⟩ := Option.isSome_iff_exists.1 (hknobs .parent)
  obtain ⟨current, hcurrent⟩ := Option.isSome_iff_exists.1 (hknobs .exclude_current)
  obtain ⟨orderJson, horderJson⟩ := Option.ne_none_iff_exists'.1 horder
  obtain ⟨limitJson, hlimitJson⟩ := Option.ne_none_iff_exists'.1 hlimit
  have horderOk : knobOk .order (lookup "order" fields) = true := hknobs .order
  have hlimitOk : knobOk .limit (lookup "limit" fields) = true := hknobs .limit
  rw [horderJson] at horderOk
  rw [hlimitJson] at hlimitOk
  obtain ⟨order, horderValue⟩ := Option.isSome_iff_exists.1 (by simpa [knobOk, optional] using horderOk)
  obtain ⟨limit, hlimitValue⟩ := Option.isSome_iff_exists.1 (by simpa [knobOk, optional] using hlimitOk)
  refine ⟨⟨page, terms, mode, parent, current, order, limit⟩, ?_⟩
  apply parsePageQuery_eq_some.2
  refine ⟨hpage, hterms, hmode, hparent, hcurrent, ?_, ?_, hknown⟩
  · rw [horderJson]
    exact horderValue
  · rw [hlimitJson]
    exact hlimitValue

end CaeloCms.Lists
