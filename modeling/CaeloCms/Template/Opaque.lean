import CaeloCms.Template.Shape

/-!
# What a value says does not matter to the template

Two renders of one template whose values, list entries and partials differ in their texts only go through the same
tags and sections: they report the same markers, ask for the same partials, and give the same html but for the texts
behind the sentinels, each of which stands for the corresponding text (`prepared_rel`).  `R` relates the texts.
-/

namespace CaeloCms.Template

variable {R : List Char → List Char → Prop}

/-! ### Related texts and values -/

/-- Equal or related, both empty or neither, both blank or neither. -/
structure TextRel (R : List Char → List Char → Prop) (s s' : String) : Prop where
  text : s = s' ∨ R s.toList s'.toList
  empty : s = "" ↔ s' = ""
  blank : notBlank s = notBlank s'

theorem TextRel.refl (s : String) : TextRel R s s := ⟨Or.inl rfl, Iff.rfl, rfl⟩

mutual

inductive ValueRel (R : List Char → List Char → Prop) : ScopeValue → ScopeValue → Prop
  | text {s s' : String} (h : TextRel R s s') : ValueRel R (.text s) (.text s')
  | bool (b : Bool) : ValueRel R (.bool b) (.bool b)
  | record {t t' : Option String} {ps ps' : List (String × ScopeValue)} (present : Bool)
    (ht : Option.Rel (TextRel R) t t') (h : PartsRel R ps ps') : ValueRel R (.record t present ps) (.record t' present ps')
  | list {es es' : List ScopeEntry} (h : EntriesRel R es es') : ValueRel R (.list es) (.list es')
  | module (ref : Nested.NestedRefValue) : ValueRel R (.module ref) (.module ref)
  | failed (marker : String) : ValueRel R (.failed marker) (.failed marker)

inductive PartsRel (R : List Char → List Char → Prop) :
    List (String × ScopeValue) → List (String × ScopeValue) → Prop
  | nil : PartsRel R [] []
  | cons {v v' : ScopeValue} {ps ps' : List (String × ScopeValue)} (k : String) (h : ValueRel R v v')
    (hs : PartsRel R ps ps') : PartsRel R ((k, v) :: ps) ((k, v') :: ps')

inductive EntryRel (R : List Char → List Char → Prop) : ScopeEntry → ScopeEntry → Prop
  | mk {ps ps' : List (String × ScopeValue)} (id : String) (itemAttr childrenKey : Option String)
    (h : PartsRel R ps ps') : EntryRel R (.mk id ps itemAttr childrenKey) (.mk id ps' itemAttr childrenKey)

inductive EntriesRel (R : List Char → List Char → Prop) : List ScopeEntry → List ScopeEntry → Prop
  | nil : EntriesRel R [] []
  | cons {e e' : ScopeEntry} {es es' : List ScopeEntry} (h : EntryRel R e e') (hs : EntriesRel R es es') :
    EntriesRel R (e :: es) (e' :: es')

end

mutual

theorem ValueRel.refl : ∀ v : ScopeValue, ValueRel R v v
  | .text s => .text (.refl s)
  | .bool b => .bool b
  | .record t present ps => .record present (by cases t; exacts [.none, .some (.refl _)]) (PartsRel.refl ps)
  | .list es => .list (EntriesRel.refl es)
  | .module ref => .module ref
  | .failed marker => .failed marker

theorem PartsRel.refl : ∀ ps : List (String × ScopeValue), PartsRel R ps ps
  | [] => .nil
  | (k, v) :: ps => .cons k (ValueRel.refl v) (PartsRel.refl ps)

theorem EntryRel.refl : ∀ e : ScopeEntry, EntryRel R e e
  | .mk id ps itemAttr childrenKey => .mk id itemAttr childrenKey (PartsRel.refl ps)

theorem EntriesRel.refl : ∀ es : List ScopeEntry, EntriesRel R es es
  | [] => .nil
  | e :: es => .cons (EntryRel.refl e) (EntriesRel.refl es)

end

theorem partAt_rel {ps ps' : List (String × ScopeValue)} (h : PartsRel R ps ps') (key : String) :
    Option.Rel (ValueRel R) (partAt ps key) (partAt ps' key) := by
  induction ps generalizing ps' with
  | nil =>
    cases h
    exact .none
  | cons p ps ih =>
    cases h with
    | cons k hv hs =>
      by_cases hk : k = key
      · simpa [partAt, hk] using Option.Rel.some hv
      · simpa [partAt, hk] using ih hs

theorem EntryRel.get {e e' : ScopeEntry} (h : EntryRel R e e') (key : String) :
    Option.Rel (ValueRel R) (e.get key) (e'.get key) := by
  cases h with
  | mk id itemAttr childrenKey hs => exact partAt_rel hs key

theorem EntryRel.id {e e' : ScopeEntry} (h : EntryRel R e e') : e.id = e'.id := by
  cases h
  rfl

variable {s s' : List Sym} {st st' : RenderState} {v v' : ScopeValue}

theorem ValueRel.kind (h : ValueRel R v v') : v.kind = v'.kind := by
  cases h <;> rfl

/-! ### Related outputs -/

/-- The same symbol, or sentinels for related texts. -/
inductive SymRel (R : List Char → List Char → Prop) : Sym → Sym → Prop
  | same (x : Sym) : SymRel R x x
  | value {s s' : List Char} (h : R s s') : SymRel R (.mask (chars s)) (.mask (chars s'))

abbrev HtmlRel (R : List Char → List Char → Prop) : List Sym → List Sym → Prop := List.Forall₂ (SymRel R)

theorem HtmlRel.refl (s : List Sym) : HtmlRel R s s := List.forall₂_same.2 fun x _ => .same x

theorem HtmlRel.append {a a' b b' : List Sym} (ha : HtmlRel R a a') (hb : HtmlRel R b b') :
    HtmlRel R (a ++ b) (a' ++ b') := List.rel_append ha hb

theorem SymRel.shape {x y : Sym} (h : SymRel R x y) : x.shape = y.shape := by
  cases h <;> rfl

theorem HtmlRel.shape (h : HtmlRel R s s') : Template.shape s = Template.shape s' := by
  induction h with
  | nil => rfl
  | cons hx _ ih => rw [shape_cons, shape_cons, hx.shape, ih]

theorem HtmlRel.of_chars {cs : List Char} (h : HtmlRel R (chars cs) s) : s = chars cs := by
  induction cs generalizing s with
  | nil => cases h; rfl
  | cons c cs ih =>
    obtain ⟨y, t, hy, ht, rfl⟩ := List.forall₂_cons_left_iff.1 h
    rw [ih ht]
    cases hy
    rfl

/-- Outputs that differ in the texts behind sentinels only. -/
structure OutRel (R : List Char → List Char → Prop) (o o' : Out) : Prop where
  html : HtmlRel R o.html o'.html
  missing : o.missing = o'.missing
  asks : o.asks = o'.asks

namespace OutRel

theorem refl (o : Out) : OutRel R o o := ⟨.refl _, rfl, rfl⟩

theorem text {s s' : List Sym} (h : HtmlRel R s s') : OutRel R (.text s) (.text s') := ⟨h, rfl, rfl⟩

theorem append {a a' b b' : Out} (ha : OutRel R a a') (hb : OutRel R b b') : OutRel R (a ++ b) (a' ++ b') :=
  ⟨ha.html.append hb.html, by rw [Out.missing_append, Out.missing_append, ha.missing, hb.missing],
    by rw [Out.asks_append, Out.asks_append, ha.asks, hb.asks]⟩

theorem concat {os os' : List Out} (h : List.Forall₂ (OutRel R) os os') : OutRel R (Out.concat os) (Out.concat os') := by
  induction h with
  | nil => exact refl _
  | cons ho _ ih => exact ho.append ih

end OutRel

theorem pasted_rel {s s' : String} (h : TextRel R s s') : HtmlRel R (pasted s) (pasted s') := by
  unfold pasted
  by_cases hs : s = ""
  · rw [if_pos hs, if_pos (h.empty.1 hs)]
    exact .nil
  · rw [if_neg hs, if_neg fun hs' => hs (h.empty.2 hs')]
    rcases h.text with rfl | h
    · exact .refl _
    · exact .cons (.value h) .nil

theorem stamped_rel {o o' : Out} (h : OutRel R o o') (attr : Option String) : OutRel R (o.stamped attr) (o'.stamped attr) := by
  cases attr with
  | none => exact h
  | some attr =>
    refine ⟨?_, h.missing, h.asks⟩
    show HtmlRel R (stampListItem o.html attr) (stampListItem o'.html attr)
    have hplace : stampPlace o.html = stampPlace o'.html := by
      rw [← stampPlace_shape, h.html.shape, stampPlace_shape]
    unfold stampListItem
    rw [hplace]
    cases stampPlace o'.html with
    | none => exact h.html
    | some n =>
      exact (((HtmlRel.append (List.forall₂_take n h.html) (.refl _)).append (.refl _)).append (.refl _)).append
        (List.forall₂_drop n h.html)

/-! ### Related states -/

structure FrameRel (R : List Char → List Char → Prop) (f f' : Frame) : Prop where
  entry : EntryRel R f.entry f'.entry
  name : f.name = f'.name

structure StateRel (R : List Char → List Char → Prop) (st st' : RenderState) : Prop where
  chain : List.Forall₂ (FrameRel R) st.chain st'.chain
  dot : Option.Rel (fun s s' => s = s' ∨ R s.toList s'.toList) st.dot st'.dot
  again : OutRel R st.again st'.again

theorem StateRel.names (h : StateRel R st st') :
    st.chain.map (·.name) = st'.chain.map (·.name) := by
  obtain ⟨hchain, -, -⟩ := h
  generalize st.chain = fs at hchain
  generalize st'.chain = fs' at hchain
  induction hchain with
  | nil => rfl
  | cons hf _ ih => rw [List.map_cons, List.map_cons, hf.name, ih]

theorem StateRel.listField (h : StateRel R st st') :
    Template.listField st = Template.listField st' := by
  unfold Template.listField
  rw [← List.getLast?_map, h.names, List.getLast?_map]

theorem StateRel.isEmpty (h : StateRel R st st') : st.chain.isEmpty = st'.chain.isEmpty := by
  rw [← List.isEmpty_map (f := (·.name)), h.names, List.isEmpty_map]

theorem StateRel.entryValue (h : StateRel R st st') (key : String) :
    Option.Rel (ValueRel R) (st.chain.findSome? fun f => f.entry.get key) (st'.chain.findSome? fun f => f.entry.get key) := by
  obtain ⟨hchain, -, -⟩ := h
  generalize st.chain = fs at hchain
  generalize st'.chain = fs' at hchain
  induction hchain with
  | nil => exact .none
  | @cons f f' fs fs' hf _ ih =>
    have hget := hf.entry.get key
    rw [List.findSome?_cons, List.findSome?_cons]
    cases hv : f.entry.get key with
    | none =>
      rw [hv] at hget
      cases hv' : f'.entry.get key with
      | none => exact ih
      | some v' =>
        rw [hv'] at hget
        cases hget
    | some v =>
      rw [hv] at hget
      cases hv' : f'.entry.get key with
      | none =>
        rw [hv'] at hget
        cases hget
      | some v' =>
        rw [hv'] at hget
        exact hget

/-! ### Related environments -/

inductive FoundRel (R : List Char → List Char → Prop) : Found → Found → Prop
  | unknown : FoundRel R .unknown .unknown
  | missing : FoundRel R .missing .missing
  | value {v v' : ScopeValue} (h : ValueRel R v v') : FoundRel R (.value v) (.value v')

theorem follow_rel (h : ValueRel R v v') (path : List String) :
    FoundRel R (follow v path) (follow v' path) := by
  induction path generalizing v v' with
  | nil =>
    cases v <;> cases v' <;> exact .value h
  | cons p path ih =>
    cases h with
    | record present ht hs =>
      have hpart := partAt_rel hs (lower p)
      simp only [follow]
      revert hpart
      generalize partAt _ (lower p) = x
      generalize partAt _ (lower p) = x'
      intro hpart
      cases hpart with
      | none => exact .missing
      | some hv => exact ih hv
    | _ => exact .missing

theorem linkKey_rel (h : ValueRel R v v') (path : List String) :
    FoundRel R (linkKey v path) (linkKey v' path) := by
  cases path with
  | nil => exact .value h
  | cons key rest =>
    cases h with
    | record present ht hs =>
      have hpart := partAt_rel hs (if rest.isEmpty then lower key else "")
      simp only [linkKey]
      revert hpart
      generalize partAt _ (if rest.isEmpty then lower key else "") = x
      generalize partAt _ (if rest.isEmpty then lower key else "") = x'
      intro hpart
      cases hpart with
      | none => exact .missing
      | some hv => exact .value hv
    | text ht => exact .value (.text ht)
    | bool b => exact .value (.bool b)
    | list hs => exact .value (.list hs)
    | module ref => exact .value (.module ref)
    | failed m => exact .value (.failed m)

inductive ResolutionRel (R : List Char → List Char → Prop) : ListFieldResolution → ListFieldResolution → Prop
  | error (marker : String) : ResolutionRel R (.error marker) (.error marker)
  | ok {es es' : List ScopeEntry} (h : EntriesRel R es es') : ResolutionRel R (.ok es) (.ok es')

/-- For each element of a `module-list`, whether it is a reference. -/
def elementRefs (v : Option Json) : List Bool := (itemsOf v).map fun el => (Nested.nestedRef el).isSome

/-- Stored values that a section reads alike. -/
structure StoredRel (R : List Char → List Char → Prop) (v v' : Option Json) : Prop where
  present : isPresentSectionValue v = isPresentSectionValue v'
  dot : TextRel R (scalarSectionString v) (scalarSectionString v')
  elements : elementRefs v = elementRefs v'

structure ContextRel (R : List Char → List Char → Prop) (lists lists' : ListPageContext) : Prop where
  page : Option.Rel (ValueRel R) lists.pageScope lists'.pageScope
  siteText : ValueRel R lists.siteTextScope lists'.siteTextScope
  plugin : ∀ name, Option.Rel (ResolutionRel R) (lists.pluginSource name) (lists'.pluginSource name)

/-- Environments of one module whose values, lists and partials differ in texts only. -/
structure EnvRel (R : List Char → List Char → Prop) (env env' : SectionEnv) : Prop where
  fields : env.fields = env'.fields
  partials : ∀ key ref, Option.Rel R (env.partials key ref) (env'.partials key ref)
  link : ∀ head, Option.Rel (ValueRel R) (env.moduleLink head) (env'.moduleLink head)
  stored : ∀ (f : TemplateField) name, StoredRel R (f.stored env.values name) (f.stored env'.values name)
  slot : ∀ name, slotRef (env.values.own name) = slotRef (env'.values.own name)
  lists : Option.Rel (ContextRel R) env.lists env'.lists
  resolved : ∀ lists lists', env.lists = some lists → env'.lists = some lists' → ∀ spec name,
    ResolutionRel R (lists.resolveField spec (env.values.own name) env.holder)
      (lists'.resolveField spec (env'.values.own name) env'.holder)

namespace EnvRel

variable {env env' : SectionEnv} {st st' : RenderState}

theorem field (h : EnvRel R env env') (name : String) : env.field name = env'.field name := by
  rw [SectionEnv.field, h.fields, SectionEnv.field]

theorem isModuleLevel (h : EnvRel R env env') (name : String) : env.isModuleLevel name = env'.isModuleLevel name := by
  rw [SectionEnv.isModuleLevel, h.field, h.field, SectionEnv.isModuleLevel]

theorem listsNone (h : EnvRel R env env') : env.lists.isNone = env'.lists.isNone := by
  have hlists := h.lists
  revert hlists
  cases env.lists <;> cases env'.lists <;> intro hlists
  · rfl
  · cases hlists
  · cases hlists
  · rfl

theorem lookup (h : EnvRel R env env') (hst : StateRel R st st') (name : Name) :
    FoundRel R (env.lookup name st) (env'.lookup name st') := by
  have hlists := h.lists
  unfold SectionEnv.lookup
  rw [hst.isEmpty]
  split
  · revert hlists
    generalize env.lists = x
    generalize env'.lists = x'
    intro hlists
    cases hlists with
    | none =>
      simp only [Option.bind_none]
      split
      · exact .missing
      · exact .unknown
    | @some lists lists' hcontext =>
      have hpage := hcontext.page
      simp only [Option.bind_some]
      revert hpage
      generalize lists.pageScope = y
      generalize lists'.pageScope = y'
      intro hpage
      cases hpage with
      | none =>
        dsimp only
        split
        · exact .missing
        · exact .unknown
      | some hv => exact follow_rel hv name.path
  · split
    · revert hlists
      generalize env.lists = x
      generalize env'.lists = x'
      intro hlists
      cases hlists with
      | none => exact .missing
      | some hcontext => exact follow_rel hcontext.siteText name.path
    · have hvalue := hst.entryValue (lower name.head)
      revert hvalue
      generalize (st.chain.findSome? fun f => f.entry.get (lower name.head)) = x
      generalize (st'.chain.findSome? fun f => f.entry.get (lower name.head)) = x'
      intro hvalue
      cases hvalue with
      | none => exact .unknown
      | some hv => exact follow_rel hv name.path

theorem linkPath (h : EnvRel R env env') (name : Name) : FoundRel R (env.linkPath name) (env'.linkPath name) := by
  have hlink := h.link (lower name.head)
  unfold SectionEnv.linkPath
  revert hlink
  generalize env.moduleLink (lower name.head) = x
  generalize env'.moduleLink (lower name.head) = x'
  intro hlink
  cases hlink with
  | none => exact .unknown
  | some hv => exact linkKey_rel hv name.path

theorem linkUnset (h : EnvRel R env env') (name : Name) : env.linkUnset name = env'.linkUnset name := by
  have hlink := h.link (lower name.head)
  unfold SectionEnv.linkUnset
  revert hlink
  generalize env.moduleLink (lower name.head) = x
  generalize env'.moduleLink (lower name.head) = x'
  intro hlink
  cases hlink with
  | none => rfl
  | some hv => cases hv <;> rfl

theorem unknownPath (h : EnvRel R env env') (hst : StateRel R st st') (name : Name) :
    env.unknownPath name st = env'.unknownPath name st' := by
  unfold SectionEnv.unknownPath notDeclared
  rw [h.listsNone, hst.listField]

end EnvRel

/-! ### Tags -/

section Render

variable {env env' : SectionEnv} {st st' : RenderState}

theorem notDeclared_rel (hst : StateRel R st st') (name : Name) : notDeclared name st = notDeclared name st' := by
  rw [notDeclared, hst.listField, notDeclared]

theorem valueText_rel (hst : StateRel R st st') {v v' : ScopeValue} (h : ValueRel R v v') (source : List Sym) (name : Name) :
    OutRel R (valueText v source name st) (valueText v' source name st') := by
  unfold valueText
  cases h with
  | text ht => exact .text (pasted_rel ht)
  | bool b => exact .refl _
  | record present ht hs =>
    cases ht with
    | none =>
      dsimp only
      rw [notDeclared_rel hst]
      exact .refl _
    | some ht => exact .text (pasted_rel ht)
  | list hs =>
    dsimp only
    rw [notDeclared_rel hst]
    exact .refl _
  | module ref =>
    dsimp only
    rw [notDeclared_rel hst]
    exact .refl _
  | failed m => exact .refl _

theorem fieldTag_rel (henv : EnvRel R env env') (hst : StateRel R st st') (t : Tag) (source : List Sym) :
    OutRel R (fieldTag env t source st) (fieldTag env' t source st') := by
  have hpath := henv.linkPath t.name
  unfold fieldTag
  rw [henv.isModuleLevel, henv.isModuleLevel, hst.isEmpty, notDeclared_rel hst, henv.unknownPath hst, henv.linkUnset]
  revert hpath
  generalize env.linkPath t.name = x
  generalize env'.linkPath t.name = x'
  intro hpath
  cases hpath with
  | unknown => exact .refl _
  | missing => exact .refl _
  | value hv =>
    dsimp only
    split
    · exact .refl _
    · exact valueText_rel hst hv source t.name

theorem valueTag_rel (henv : EnvRel R env env') (hst : StateRel R st st') (t : Tag) (source : List Sym) :
    OutRel R (valueTag env t source st) (valueTag env' t source st') := by
  have hlookup := henv.lookup hst t.name
  unfold valueTag
  rw [hst.isEmpty, henv.field, henv.unknownPath hst]
  split
  · exact .refl _
  · revert hlookup
    generalize env.lookup t.name st = x
    generalize env'.lookup t.name st' = x'
    intro hlookup
    cases hlookup with
    | unknown => exact fieldTag_rel henv hst t source
    | missing => exact .refl _
    | value hv => exact valueText_rel hst hv source t.name

theorem plainTag_rel (henv : EnvRel R env env') (hst : StateRel R st st') (t : Tag) (source : List Sym) :
    OutRel R (plainTag env t source st) (plainTag env' t source st') := by
  have hdot := hst.dot
  have hrest := valueTag_rel henv hst t source
  unfold plainTag
  rw [hst.isEmpty]
  split
  · revert hdot
    generalize st.dot = d
    generalize st'.dot = d'
    intro hdot
    cases hdot with
    | none => exact hrest
    | some hd =>
      rcases hd with rfl | hd
      · exact .refl _
      · exact .text (.cons (.value hd) .nil)
  · exact hrest

theorem mismatched_rel (hst : StateRel R st st') {v v' : ScopeValue} (h : ValueRel R v v') (name : Name) :
    OutRel R (mismatched v name st) (mismatched v' name st') := by
  rw [mismatched, hst.listField, h.kind, mismatched]
  exact .refl _

theorem entryPartial_rel (henv : EnvRel R env env') (hst : StateRel R st st') {v v' : ScopeValue} (h : ValueRel R v v')
    (id : String) (name : Name) (source : List Sym) :
    OutRel R (entryPartial env id v name source st) (entryPartial env' id v' name source st') := by
  have hmismatched := mismatched_rel hst h name
  cases h with
  | module ref =>
    have hpartial := henv.partials ("list:" ++ (listField st').getD "" ++ "/" ++ id ++ "/" ++ name.text) (some ref)
    unfold entryPartial
    rw [hst.listField]
    dsimp only
    revert hpartial
    generalize env.partials _ (some ref) = y
    generalize env'.partials _ (some ref) = y'
    intro hpartial
    cases hpartial with
    | none => exact .refl _
    | some hp => exact ⟨.cons (.value hp) .nil, rfl, rfl⟩
  | @text s s' ht =>
    unfold entryPartial
    by_cases hs : s = ""
    · simp only [if_pos hs, if_pos (ht.empty.1 hs)]
      exact .refl _
    · simp only [if_neg hs, if_neg fun h => hs (ht.empty.2 h)]
      exact hmismatched
  | bool b => exact hmismatched
  | record present ht hs => exact hmismatched
  | list hs => exact hmismatched
  | failed m => exact .refl _

theorem partialTag_rel (henv : EnvRel R env env') (hst : StateRel R st st') (t : Tag) (source : List Sym) :
    OutRel R (partialTag env t source st) (partialTag env' t source st') := by
  have hlookup := henv.lookup hst t.name
  have hchain := hst.chain
  unfold partialTag
  rw [henv.isModuleLevel, notDeclared_rel hst]
  revert hchain
  generalize st.chain = fs
  generalize st'.chain = fs'
  intro hchain
  cases hchain with
  | nil => exact .refl _
  | @cons f f' fs fs' hf _ =>
    dsimp only
    split
    · exact hst.again
    · revert hlookup
      generalize env.lookup t.name st = x
      generalize env'.lookup t.name st' = x'
      intro hlookup
      cases hlookup with
      | unknown => exact .refl _
      | missing => exact .refl _
      | value hv =>
        dsimp only
        rw [hf.entry.id]
        exact entryPartial_rel henv hst hv f'.entry.id t.name source

theorem renderTag_rel (henv : EnvRel R env env') (hst : StateRel R st st') (t : Tag) (source : List Sym) :
    OutRel R (renderTag env t source st) (renderTag env' t source st') := by
  unfold renderTag
  cases t.sigil with
  | angle => exact partialTag_rel henv hst t source
  | none => exact plainTag_rel henv hst t source
  | hash => exact .refl _
  | caret => exact .refl _
  | slash => exact .refl _

theorem renderText_rel (hst : StateRel R st st') (s : List Sym) : OutRel R (renderText s st) (renderText s st') := by
  have hdot := hst.dot
  unfold renderText
  revert hdot
  generalize st.dot = d
  generalize st'.dot = d'
  intro hdot
  cases hdot with
  | none => exact .refl _
  | @some d d' hd =>
    rcases hd with rfl | hd
    · exact .refl _
    · refine .text ?_
      unfold Scan.replace
      refine List.rel_flatMap (List.forall₂_same.2 fun p _ => rfl) ?_
      rintro p _ rfl
      cases p with
      | plain c => exact HtmlRel.refl [c]
      | found a source => exact .cons (.value hd) .nil

theorem renderElement_rel (henv : EnvRel R env env') (name : String) (i : Nat) {el el' : Json}
    (h : (Nested.nestedRef el).isSome = (Nested.nestedRef el').isSome) :
    OutRel R (renderElement env name i el) (renderElement env' name i el') := by
  have hpartial := henv.partials (name ++ "__" ++ toString i) none
  unfold renderElement
  cases hel : Nested.nestedRef el with
  | none =>
    rw [hel, Option.isSome_none, eq_comm, Option.isSome_eq_false_iff, Option.isNone_iff_eq_none] at h
    rw [h]
    exact .refl _
  | some ref =>
    rw [hel, Option.isSome_some, eq_comm, Option.isSome_iff_exists] at h
    obtain ⟨ref', h⟩ := h
    rw [h]
    dsimp only
    revert hpartial
    generalize env.partials (name ++ "__" ++ toString i) none = y
    generalize env'.partials (name ++ "__" ++ toString i) none = y'
    intro hpartial
    cases hpartial with
    | none => exact .refl _
    | some hp => exact ⟨.cons (.value hp) .nil, rfl, rfl⟩

theorem renderModuleList_rel (henv : EnvRel R env env') (name : String) (field : TemplateField) :
    OutRel R (renderModuleList env name field) (renderModuleList env' name field) := by
  have helements := (henv.stored field name).elements
  unfold renderModuleList
  unfold elementRefs at helements
  revert helements
  generalize itemsOf (field.stored env.values name) = items
  generalize itemsOf (field.stored env'.values name) = items'
  intro helements
  refine .concat ?_
  rw [List.forall₂_map_left_iff, List.forall₂_map_right_iff, List.forall₂_iff_get]
  have hlength : items.length = items'.length := by simpa using congrArg List.length helements
  refine ⟨by simpa using hlength, fun i hi hi' => ?_⟩
  have hlt : i < items.length := by simpa using hi
  have hlt' : i < items'.length := by simpa using hi'
  have hel : (Nested.nestedRef items[i]).isSome = (Nested.nestedRef items'[i]).isSome := by
    have hget := congrArg (fun l => l[i]?) helements
    simpa [List.getElem?_eq_getElem hlt, List.getElem?_eq_getElem hlt'] using hget
  simpa using renderElement_rel henv name i hel

/-! ### List entries -/

section Iterate

variable {body body' : List Frame → Out → Out} {name : String}

/-- The two blocks give related outputs on related frames. -/
def BodyRel (R : List Char → List Char → Prop) (body body' : List Frame → Out → Out) : Prop :=
  ∀ chain chain' again again', List.Forall₂ (FrameRel R) chain chain' → OutRel R again again' →
    OutRel R (body chain again) (body' chain' again')

mutual

theorem iterateEntries_rel (hbody : BodyRel R body body') : ∀ (es es' : List ScopeEntry) (chain chain' : List Frame),
    EntriesRel R es es' → List.Forall₂ (FrameRel R) chain chain' →
    OutRel R (iterateEntries body name chain es) (iterateEntries body' name chain' es')
  | [], _, _, _, h, _ => by
    cases h
    exact .refl _
  | e :: es, _, _, _, h, hchain => by
    cases h with
    | cons he hs => exact (iterateEntry_rel hbody e _ _ _ he hchain).append (iterateEntries_rel hbody es _ _ _ hs hchain)

theorem iterateEntry_rel (hbody : BodyRel R body body') : ∀ (e e' : ScopeEntry) (chain chain' : List Frame),
    EntryRel R e e' → List.Forall₂ (FrameRel R) chain chain' →
    OutRel R (iterateEntry body name chain e) (iterateEntry body' name chain' e')
  | .mk id ps itemAttr childrenKey, _, chain, chain', h, hchain => by
    cases h with
    | @mk _ ps' _ _ _ hs =>
      have hframe : List.Forall₂ (FrameRel R) (⟨.mk id ps itemAttr childrenKey, name⟩ :: chain)
          (⟨.mk id ps' itemAttr childrenKey, name⟩ :: chain') := .cons ⟨.mk id itemAttr childrenKey hs, rfl⟩ hchain
      cases childrenKey with
      | none => exact stamped_rel (hbody _ _ _ _ hframe (.refl _)) itemAttr
      | some key => exact stamped_rel (hbody _ _ _ _ hframe (childrenOf_rel hbody key ps ps' _ _ hs hframe)) itemAttr

theorem childrenOf_rel (hbody : BodyRel R body body') (key : String) : ∀ (ps ps' : List (String × ScopeValue))
    (chain chain' : List Frame), PartsRel R ps ps' → List.Forall₂ (FrameRel R) chain chain' →
    OutRel R (childrenOf body name chain key ps) (childrenOf body' name chain' key ps')
  | [], _, _, _, h, _ => by
    cases h
    exact .refl _
  | (k, v) :: ps, _, _, _, h, hchain => by
    cases h with
    | cons _ hv hs =>
      unfold childrenOf
      split
      · exact iterateValue_rel hbody v _ _ _ hv hchain
      · exact childrenOf_rel hbody key ps _ _ _ hs hchain

theorem iterateValue_rel (hbody : BodyRel R body body') : ∀ (v v' : ScopeValue) (chain chain' : List Frame),
    ValueRel R v v' → List.Forall₂ (FrameRel R) chain chain' →
    OutRel R (iterateValue body name chain v) (iterateValue body' name chain' v')
  | .list [], _, _, _, h, _ => by
    cases h with
    | list hs =>
      cases hs
      exact .refl _
  | .list (e :: es), _, _, _, h, hchain => by
    cases h with
    | list hs =>
      cases hs with
      | cons he hs =>
        exact (OutRel.refl _).append
          ((iterateEntry_rel hbody e _ _ _ he hchain).append (iterateEntries_rel hbody es _ _ _ hs hchain))
  | .text _, _, _, _, h, _ => by
    cases h
    exact .refl _
  | .bool _, _, _, _, h, _ => by
    cases h
    exact .refl _
  | .record _ _ _, _, _, _, h, _ => by
    cases h
    exact .refl _
  | .module _, _, _, _, h, _ => by
    cases h
    exact .refl _
  | .failed _, _, _, _, h, _ => by
    cases h
    exact .refl _

end

theorem iterate_rel (hbody : BodyRel R body body') {es es' : List ScopeEntry} (h : EntriesRel R es es')
    (hst : StateRel R st st') : OutRel R (iterate body name st.chain es) (iterate body' name st'.chain es') :=
  iterateValue_rel hbody _ _ _ _ (.list h) hst.chain

end Iterate

/-! ### Sections -/

section Sections

variable {body body' : RenderState → Out} {t : Tag} {source : List Sym}

theorem entriesSection_rel (hst : StateRel R st st')
    (hbody : ∀ st st', StateRel R st st' → OutRel R (body st) (body' st')) {es es' : List ScopeEntry}
    (h : EntriesRel R es es') : OutRel R (entriesSection t st body es) (entriesSection t st' body' es') := by
  unfold entriesSection
  split
  · have hempty : es.isEmpty = es'.isEmpty := by
      cases h <;> rfl
    rw [hempty]
    split
    · exact hbody _ _ ⟨hst.chain, .none, hst.again⟩
    · exact .refl _
  · exact iterate_rel (fun _ _ _ _ hchain hagain => hbody _ _ ⟨hchain, .none, hagain⟩) h hst

theorem scopeSection_rel (hst : StateRel R st st')
    (hbody : ∀ st st', StateRel R st st' → OutRel R (body st) (body' st')) {v v' : ScopeValue} (h : ValueRel R v v') :
    OutRel R (scopeSection t source st body v) (scopeSection t source st' body' v') := by
  cases h with
  | list hs => exact entriesSection_rel hst hbody hs
  | failed m => exact .refl _
  | bool b =>
    unfold scopeSection
    dsimp only
    split
    · exact hbody _ _ hst
    · exact .refl _
  | text ht =>
    unfold scopeSection
    dsimp only
    rw [ht.blank]
    split
    · exact hbody _ _ hst
    · exact .refl _
  | record present ht hs =>
    unfold scopeSection
    dsimp only
    split
    · exact hbody _ _ hst
    · exact .refl _
  | module ref =>
    unfold scopeSection
    dsimp only
    split
    · exact .refl _
    · exact hbody _ _ hst

theorem resolvedSection_rel (hst : StateRel R st st')
    (hbody : ∀ st st', StateRel R st st' → OutRel R (body st) (body' st')) {res res' : ListFieldResolution}
    (h : ResolutionRel R res res') :
    OutRel R (resolvedSection t source st body res) (resolvedSection t source st' body' res') := by
  cases h with
  | error m => exact .refl _
  | ok hs => exact entriesSection_rel hst hbody hs

theorem conditional_rel (hst : StateRel R st st')
    (hbody : ∀ st st', StateRel R st st' → OutRel R (body st) (body' st')) {dot dot' : String} (h : TextRel R dot dot')
    (present : Bool) : OutRel R (conditional t st body present dot) (conditional t st' body' present dot') := by
  unfold conditional
  split
  · exact .refl _
  · refine hbody _ _ ⟨hst.chain, ?_, hst.again⟩
    have hiff : ((!present) = true ∨ dot = "") ↔ ((!present) = true ∨ dot' = "") := or_congr_right h.empty
    dsimp only
    by_cases hdot : (!present) = true ∨ dot = ""
    · rw [if_pos (by simpa using hdot), if_pos (by simpa using hiff.1 hdot)]
      exact hst.dot
    · rw [if_neg (by simpa using hdot), if_neg (by simpa using fun h => hdot (hiff.2 h))]
      exact .some h.text

theorem moduleSection_rel (henv : EnvRel R env env') (hst : StateRel R st st')
    (hbody : ∀ st st', StateRel R st st' → OutRel R (body st) (body' st')) :
    OutRel R (moduleSection env t source st body) (moduleSection env' t source st' body') := by
  have hlink := henv.link t.name.head
  have hlists := henv.lists
  have hresolved := henv.resolved
  unfold moduleSection
  dsimp only
  rw [henv.field]
  cases env'.field t.name.head with
  | none =>
    dsimp only
    rw [notDeclared_rel hst]
    revert hlists
    generalize env.lists = x
    generalize env'.lists = x'
    intro hlists
    cases hlists with
    | none => exact .refl _
    | @some lists lists' hcontext =>
      have hplugin := hcontext.plugin t.name.head
      simp only [Option.bind_some]
      revert hplugin
      generalize lists.pluginSource t.name.head = y
      generalize lists'.pluginSource t.name.head = y'
      intro hplugin
      cases hplugin with
      | none => exact .refl _
      | some hres => exact resolvedSection_rel hst hbody hres
  | some field =>
    have hstored := henv.stored field t.name.head
    dsimp only
    split
    · split
      · have hempty : ∀ v, (itemsOf v).isEmpty = (elementRefs v).isEmpty := fun _ => List.isEmpty_map.symm
        rw [hempty, hempty, hstored.elements]
        split
        · exact hbody _ _ ⟨hst.chain, .none, hst.again⟩
        · exact .refl _
      · exact renderModuleList_rel henv t.name.head field
    · split
      · revert hlists hresolved
        generalize env.lists = x
        generalize env'.lists = x'
        intro hlists hresolved
        cases hlists with
        | none => exact .refl _
        | some hcontext => exact resolvedSection_rel hst hbody (hresolved _ _ rfl rfl field.spec t.name.head)
      · split
        · revert hlink
          generalize env.moduleLink t.name.head = y
          generalize env'.moduleLink t.name.head = y'
          intro hlink
          cases hlink with
          | none => exact .refl _
          | some hv =>
            cases hv with
            | record present ht hs =>
              refine conditional_rel hst hbody ?_ present
              cases ht with
              | none => exact .refl _
              | some ht => exact ht
            | _ => exact .refl _
        · rw [hstored.present]
          exact conditional_rel hst hbody hstored.dot _

theorem renderSection_rel (henv : EnvRel R env env') (hst : StateRel R st st')
    (hbody : ∀ st st', StateRel R st st' → OutRel R (body st) (body' st')) :
    OutRel R (renderSection env t source st body) (renderSection env' t source st' body') := by
  have hlookup := henv.lookup hst t.name
  have hpath := henv.linkPath t.name
  unfold renderSection
  rw [henv.unknownPath hst, notDeclared_rel hst]
  revert hlookup
  generalize env.lookup t.name st = x
  generalize env'.lookup t.name st' = x'
  intro hlookup
  cases hlookup with
  | missing => exact .refl _
  | value hv => exact scopeSection_rel hst hbody hv
  | unknown =>
    dsimp only
    split
    · revert hpath
      generalize env.linkPath t.name = y
      generalize env'.linkPath t.name = y'
      intro hpath
      cases hpath with
      | unknown => exact .refl _
      | missing => exact .refl _
      | value hv => exact scopeSection_rel hst hbody hv
    · exact moduleSection_rel henv hst hbody

end Sections

mutual

theorem renderNodes_rel (henv : EnvRel R env env') : ∀ (ns : List Node) (st st' : RenderState), StateRel R st st' →
    OutRel R (renderNodes env ns st) (renderNodes env' ns st')
  | [], _, _, _ => .refl _
  | n :: ns, _, _, hst => (renderNode_rel henv n _ _ hst).append (renderNodes_rel henv ns _ _ hst)

theorem renderNode_rel (henv : EnvRel R env env') : ∀ (n : Node) (st st' : RenderState), StateRel R st st' →
    OutRel R (renderNode env n st) (renderNode env' n st')
  | .text s, _, _, hst => renderText_rel hst s
  | .tag t source, _, _, hst => renderTag_rel henv hst t source
  | .block _ _ body, _, _, hst => renderSection_rel henv hst (renderNodes_rel henv body)

end

theorem renderSections_rel (henv : EnvRel R env env') (html : List Sym) :
    OutRel R (renderSections env html) (renderSections env' html) := by
  unfold renderSections
  dsimp only
  split
  · exact .refl _
  · split
    · exact .refl _
    · exact renderNodes_rel henv _ _ _ ⟨.nil, .none, .refl _⟩

end Render

/-! ### The passes -/

theorem matchTag_rel (h : HtmlRel R s s') (before before' : List Sym) :
    Option.Rel (fun x y => x.2 = y.2 ∧ (x.1, s.take x.2) = (y.1, s'.take y.2)) (matchTag before s) (matchTag before' s') := by
  have hsame : matchTag before s = matchTag before' s' := by
    rw [← matchTag_shape before, h.shape, matchTag_shape before before']
  cases hmatch : matchTag before s with
  | none =>
    rw [← hsame, hmatch]
    exact .none
  | some r =>
    rw [← hsame, hmatch]
    obtain ⟨cs, hcs⟩ := matchTag_read (t := r.1) (n := r.2) hmatch
    have htake := List.forall₂_take r.2 h
    rw [hcs] at htake
    exact .some ⟨rfl, by rw [hcs, HtmlRel.of_chars htake]⟩

theorem matchPartial_rel (h : HtmlRel R s s') (before before' : List Sym) :
    Option.Rel (fun x y => x.2 = y.2 ∧ (x.1, s.take x.2) = (y.1, s'.take y.2)) (matchPartial before s)
      (matchPartial before' s') := by
  have htag := matchTag_rel h before before'
  unfold matchPartial
  revert htag
  generalize matchTag before s = x
  generalize matchTag before' s' = x'
  intro htag
  cases htag with
  | none => exact .none
  | @some r r' hr =>
    obtain ⟨t, n⟩ := r
    obtain ⟨t', n'⟩ := r'
    obtain ⟨rfl, hr⟩ := hr
    obtain ⟨rfl, htake⟩ := Prod.mk.inj hr
    simp only [Option.bind_some]
    split
    · exact .some ⟨rfl, Prod.ext rfl htake⟩
    · exact .none

theorem matchPrimitive_rel (h : HtmlRel R s s') (before before' : List Sym) :
    Option.Rel (fun x y => x.2 = y.2 ∧ (x.1, s.take x.2) = (y.1, s'.take y.2)) (matchPrimitive before s)
      (matchPrimitive before' s') := by
  have htag := matchTag_rel h before before'
  unfold matchPrimitive
  revert htag
  generalize matchTag before s = x
  generalize matchTag before' s' = x'
  intro htag
  cases htag with
  | none => exact .none
  | @some r r' hr =>
    obtain ⟨t, n⟩ := r
    obtain ⟨t', n'⟩ := r'
    obtain ⟨rfl, hr⟩ := hr
    obtain ⟨rfl, htake⟩ := Prod.mk.inj hr
    simp only [Option.bind_some]
    split
    · exact .some ⟨rfl, Prod.ext rfl htake⟩
    · exact .none

theorem replaceOut_rel {α : Type} {m : List Sym → List Sym → Option (α × Nat)} {f f' : α → List Sym → Out}
    (hm : ∀ before before' s s', HtmlRel R s s' →
      Option.Rel (fun x y => x.2 = y.2 ∧ (x.1, s.take x.2) = (y.1, s'.take y.2)) (m before s) (m before' s'))
    (hf : ∀ a source, OutRel R (f a source) (f' a source)) (h : HtmlRel R s s') :
    OutRel R (replaceOut m f s) (replaceOut m f' s') := by
  refine .concat ?_
  rw [List.forall₂_map_left_iff, List.forall₂_map_right_iff]
  refine (Scan.scan_rel (Q := Eq) hm h).imp ?_
  intro p p' hp
  cases hp with
  | plain hc => exact .text (.cons hc .nil)
  | found heq =>
    cases heq
    exact hf _ _

theorem andThen_rel {o o' : Out} (ho : OutRel R o o') {pass pass' : List Sym → Out}
    (hpass : ∀ s s', HtmlRel R s s' → OutRel R (pass s) (pass' s')) : OutRel R (o.andThen pass) (o'.andThen pass') := by
  have hout := hpass _ _ ho.html
  exact ⟨hout.html, congrArg₂ _ ho.missing hout.missing, congrArg₂ _ ho.asks hout.asks⟩

theorem renderPartialRef_rel {env env' : SectionEnv} (henv : EnvRel R env env') (name : String) (source : List Sym) :
    OutRel R (renderPartialRef env name source) (renderPartialRef env' name source) := by
  have hslot := henv.slot name
  have hpartial := henv.partials name none
  unfold renderPartialRef
  rw [henv.field]
  cases env'.field name with
  | none => exact .refl _
  | some field =>
    dsimp only
    split
    · exact .refl _
    · rw [hslot]
      cases slotRef (env'.values.own name) with
      | none => exact .refl _
      | some b =>
        cases b with
        | false => exact .refl _
        | true =>
          dsimp only
          revert hpartial
          generalize env.partials name none = y
          generalize env'.partials name none = y'
          intro hpartial
          cases hpartial with
          | none => exact .refl _
          | some hp => exact ⟨.cons (.value hp) .nil, rfl, rfl⟩

/-- Symbols of the text handed to the library: a sentinel there may stand for a literal tag with sentinels inside. -/
inductive PreparedRel (R : List Char → List Char → Prop) : Sym → Sym → Prop
  | sym {x y : Sym} (h : SymRel R x y) : PreparedRel R x y
  | literal {s s' : List Sym} (h : HtmlRel R s s') : PreparedRel R (.mask s) (.mask s')

/-- Inputs with one template whose values, lists and partials differ in texts only. -/
structure InputRel (R : List Char → List Char → Prop) (input input' : RenderTemplateInput) : Prop where
  env : EnvRel R input.toSectionEnv input'.toSectionEnv
  html : input.html = input'.html
  view : ∀ name, (input.view name).isSome = (input'.view name).isSome

namespace InputRel

variable {input input' : RenderTemplateInput}

theorem declares (h : InputRel R input input') (name : String) : input.declares name = input'.declares name := by
  rw [RenderTemplateInput.declares, h.env.fields, RenderTemplateInput.declares]

theorem primitive (h : InputRel R input input') (name : String) (source : List Sym) :
    renderPrimitive input name source = renderPrimitive input' name source := by
  rw [renderPrimitive, h.view, h.declares, renderPrimitive]

theorem substituted (h : InputRel R input input') : OutRel R input.substituted input'.substituted := by
  unfold RenderTemplateInput.substituted
  rw [← h.html]
  refine andThen_rel (andThen_rel (renderSections_rel h.env _) ?_) ?_
  · exact fun s s' hs => replaceOut_rel (fun before before' s s' hs => matchPartial_rel hs before before')
      (renderPartialRef_rel h.env) hs
  · refine fun s s' hs => replaceOut_rel (fun before before' s s' hs => matchPrimitive_rel hs before before') ?_ hs
    intro name source
    rw [h.primitive]
    exact .refl _

end InputRel

theorem literal_rel (h : HtmlRel R s s') :
    List.Forall₂ (PreparedRel R) (Scan.replace matchLiteral renderLiteral [] s)
      (Scan.replace matchLiteral renderLiteral [] s') := by
  have hscan : List.Forall₂ (Scan.PieceRel (SymRel R) fun x y => isIdentifier x.1 = isIdentifier y.1 ∧ HtmlRel R x.2 y.2)
      (Scan.scan matchLiteral [] s) (Scan.scan matchLiteral [] s') := by
    refine Scan.scan_rel ?_ h
    intro before before' s s' hs
    have hs : HtmlRel R s s' := hs
    have hmatch : (matchLiteral before s).map (fun r => (shape r.1, r.2)) =
        (matchLiteral before' s').map fun r => (shape r.1, r.2) := by
      rw [← matchLiteral_shape before, hs.shape, matchLiteral_shape before before']
    revert hmatch
    generalize matchLiteral before s = x
    generalize matchLiteral before' s' = x'
    intro hmatch
    cases x with
    | none =>
      cases x' with
      | none => exact .none
      | some r' => cases hmatch
    | some r =>
      cases x' with
      | none => cases hmatch
      | some r' =>
        obtain ⟨hname, hn⟩ := Prod.mk.inj (Option.some.inj hmatch)
        refine .some ⟨hn, ?_, ?_⟩
        · rw [← isIdentifier_shape, hname, isIdentifier_shape]
        · show HtmlRel R (s.take r.2) (s'.take r'.2)
          rw [← show r.2 = r'.2 from hn]
          exact List.forall₂_take _ hs
  unfold Scan.replace
  refine List.rel_flatMap hscan ?_
  intro p p' hp
  cases hp with
  | plain hc => exact .cons (.sym hc) .nil
  | @found name name' raw raw' hfound =>
    obtain ⟨hname, hraw⟩ := hfound
    show List.Forall₂ (PreparedRel R) (renderLiteral name raw) (renderLiteral name' raw')
    unfold renderLiteral
    rw [show isIdentifier name = isIdentifier name' from hname]
    split
    · exact List.Forall₂.imp (fun _ _ => .sym) hraw
    · exact .cons (.literal hraw) .nil

section

variable (input : RenderTemplateInput)

theorem prepared_html : input.prepared.html = Scan.replace matchLiteral renderLiteral [] input.substituted.html := rfl

theorem prepared_missing : input.prepared.missing = input.substituted.missing := rfl

theorem prepared_asks : input.prepared.asks = input.substituted.asks := rfl

end

/-- Two renders of one template with values that differ in texts only hand the library texts that differ in what the
sentinels stand for only, report the same markers and ask for the same partials. -/
theorem prepared_rel {input input' : RenderTemplateInput} (h : InputRel R input input') :
    List.Forall₂ (PreparedRel R) input.prepared.html input'.prepared.html ∧
      input.prepared.missing = input'.prepared.missing ∧ input.prepared.asks = input'.prepared.asks := by
  have hsub := h.substituted
  refine ⟨?_, ?_, ?_⟩
  · rw [prepared_html, prepared_html]
    exact literal_rel hsub.html
  · rw [prepared_missing, prepared_missing]
    exact hsub.missing
  · rw [prepared_asks, prepared_asks]
    exact hsub.asks

theorem asks_concat (os : List Out) : (Out.concat os).asks = os.flatMap Out.asks := by
  induction os with
  | nil => rfl
  | cons o os ih => rw [Out.concat, Out.asks_append, ih, List.flatMap_cons]

theorem asks_renderPrimitive (input : RenderTemplateInput) (name : String) (source : List Sym) :
    (renderPrimitive input name source).asks = [] := by
  unfold renderPrimitive
  split
  · rfl
  · split
    · rfl
    · split <;> rfl

/-- The partials are asked for before the values of the view matter. -/
theorem asks_prepared (input : RenderTemplateInput) : input.prepared.asks =
    ((renderSections input.toSectionEnv (chars (stripCdataGuards input.html))).andThen
      (replaceOut matchPartial (renderPartialRef input.toSectionEnv))).asks := by
  have hprimitive : ∀ html, (replaceOut matchPrimitive (renderPrimitive input) html).asks = [] := by
    intro html
    rw [replaceOut, asks_concat, List.flatMap_map, List.flatMap_eq_nil_iff]
    intro p _
    cases p with
    | plain c => rfl
    | found name source => exact asks_renderPrimitive input name source
  exact (congrArg _ (hprimitive _)).trans (List.append_nil _)

theorem asks_rel {input input' : RenderTemplateInput} (henv : EnvRel R input.toSectionEnv input'.toSectionEnv)
    (hhtml : input.html = input'.html) : input.prepared.asks = input'.prepared.asks := by
  rw [asks_prepared, asks_prepared, hhtml]
  refine (andThen_rel (renderSections_rel henv _) fun s s' hs => ?_).asks
  exact replaceOut_rel (fun before before' s s' hs => matchPartial_rel hs before before') (renderPartialRef_rel henv) hs

/-- The same module, the same values and lists, and partials that are there for the same keys. -/
theorem EnvRel.of_partials {env env' : SectionEnv} (hfields : env.fields = env'.fields) (hvalues : env.values = env'.values)
    (hlists : env.lists = env'.lists)
    (hresolved : ∀ lists, env.lists = some lists → ∀ spec value,
      lists.resolveField spec value env.holder = lists.resolveField spec value env'.holder)
    (hpartials : ∀ key ref, (env.partials key ref).isSome = (env'.partials key ref).isSome) :
    EnvRel (fun _ _ => True) env env' := by
  have hlink : ∀ head, env.moduleLink head = env'.moduleLink head := by
    intro head
    rw [SectionEnv.moduleLink, SectionEnv.field, hfields, hvalues, hlists, SectionEnv.moduleLink, SectionEnv.field]
  refine ⟨hfields, fun key ref => ?_, fun head => ?_, fun f name => ?_, fun name => by rw [hvalues], ?_, ?_⟩
  · have h := hpartials key ref
    revert h
    cases env.partials key ref <;> cases env'.partials key ref <;> intro h
    · exact .none
    · cases h
    · cases h
    · exact .some trivial
  · rw [hlink]
    cases env'.moduleLink head with
    | none => exact .none
    | some v => exact .some (.refl v)
  · rw [hvalues]
    exact ⟨rfl, .refl _, rfl⟩
  · rw [hlists]
    cases env'.lists with
    | none => exact .none
    | some lists =>
      refine .some ⟨?_, .refl _, fun name => ?_⟩
      · cases lists.pageScope with
        | none => exact .none
        | some v => exact .some (.refl v)
      · cases lists.pluginSource name with
        | none => exact .none
        | some res =>
          cases res with
          | error m => exact .some (.error m)
          | ok es => exact .some (.ok (.refl es))
  · intro lists lists' h h' spec name
    rw [← hlists, h, Option.some.injEq] at h'
    subst h'
    rw [hvalues, hresolved lists h]
    cases lists.resolveField spec (env'.values.own name) env'.holder with
    | error m => exact .error m
    | ok es => exact .ok (.refl es)

end CaeloCms.Template
