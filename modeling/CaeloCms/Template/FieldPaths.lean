import CaeloCms.Template.Engine

/-!
# Paths into fields, checked when a module is saved

`fieldPathProblems` refuses a template with a path that its field cannot answer, and skips what is inside the sections
that open entries.  The renderer reads some of what is skipped there outside of entries: the block of an inverted list
section, a section over a value of the page.  A template that passes renders without `field-path-unknown` exactly when
the check has compared what the renderer reads (`fieldPathProblems_sound_iff`).
-/

namespace CaeloCms.Template

/-! ### The check -/

def LINK_VALUE_KEYS : List String := ["href", "target", "title"]

def ENTRY_SCOPE_KINDS : List String := ["list", "module-list"]

/-- A dotted placeholder a module's fields cannot answer. -/
structure FieldPathProblem where
  /-- The tag as written. -/
  tag : List Sym
  field : String
  kind : String

section Check

variable (fields : List TemplateField)

def comparedKind (t : Token) : Option String :=
  if t.tag.sigil = .slash ∨ t.tag.sigil = .angle ∨ t.tag.name.dotted = false ∨ isContextHead t.tag.name = true then none
  else (fieldNamed fields (lower t.tag.name.head)).map TemplateField.kind

/-- `path.length === 1 && LINK_VALUE_KEYS.includes(path[0])` -/
def isLinkPath (name : Name) : Bool :=
  match name.path with
  | [key] => LINK_VALUE_KEYS.contains (lower key)
  | _ => false

def problemAt (t : Token) : Option FieldPathProblem :=
  match comparedKind fields t with
  | none => none
  | some kind =>
    if kind == "link" && isLinkPath t.tag.name then none else some ⟨t.source, lower t.tag.name.head, kind⟩

def opensEntries (name : Name) : Bool :=
  match fieldNamed fields (lower name.head) with
  | none => true
  | some field => ENTRY_SCOPE_KINDS.contains field.kind && !name.dotted

/-- The loop from token `i` on; it continues behind the section when it skips one. -/
def problemsFrom (tokens : List Token) (pairs : List (Nat × Nat)) : (fuel i : Nat) → List FieldPathProblem
  | 0, _ => []
  | fuel + 1, i =>
    match tokens[i]? with
    | none => []
    | some t =>
      match (closeOf pairs i).filter fun _ => opensEntries fields t.tag.name with
      | none => (problemAt fields t).toList ++ problemsFrom tokens pairs fuel (i + 1)
      | some close => problemsFrom tokens pairs fuel (close + 1)

def fieldPathProblems (html : List Char) : List FieldPathProblem :=
  let tokens := (tokenize (chars html)).1
  problemsFrom fields tokens (matchSections tokens) tokens.length 0

def readFrom (tokens : List Token) (pairs : List (Nat × Nat)) : (fuel i : Nat) → List Token
  | 0, _ => []
  | fuel + 1, i =>
    match tokens[i]? with
    | none => []
    | some t =>
      match (closeOf pairs i).filter fun _ => opensEntries fields t.tag.name with
      | none => t :: readFrom tokens pairs fuel (i + 1)
      | some close => readFrom tokens pairs fuel (close + 1)

def Compared (html : List Char) (name : Name) : Prop :=
  ∃ t ∈ readFrom fields (tokenize (chars html)).1 (matchSections (tokenize (chars html)).1) (tokenize (chars html)).1.length 0,
    t.tag.name = name ∧ (comparedKind fields t).isSome = true

theorem problemsFrom_eq (tokens : List Token) (pairs : List (Nat × Nat)) (fuel i : Nat) :
    problemsFrom fields tokens pairs fuel i = (readFrom fields tokens pairs fuel i).filterMap (problemAt fields) := by
  induction fuel generalizing i with
  | zero => rfl
  | succ fuel ih =>
    unfold problemsFrom readFrom
    cases tokens[i]? with
    | none => rfl
    | some t =>
      dsimp only
      cases (closeOf pairs i).filter fun _ => opensEntries fields t.tag.name with
      | some close => exact ih (close + 1)
      | none =>
        dsimp only
        rw [ih, List.filterMap_cons]
        cases problemAt fields t <;> rfl

end Check

/-! ### What the renderer reads -/

/-- The name of a module field, in its own spelling or in lower case. -/
def SectionEnv.isField (env : SectionEnv) (head : String) : Bool :=
  (env.field head).isSome || (env.field (lower head)).isSome

/-- The block of a section over the value is rendered with the entries around it. -/
def ScopeValue.shows (inverted : Bool) : ScopeValue → Bool
  | .failed _ => false
  | .list entries => inverted && entries.isEmpty
  | .bool value => value != inverted
  | .text s => notBlank s != inverted
  | .record _ present _ => present != inverted
  | .module _ => !inverted

def showsEmpty (inverted : Bool) : ListFieldResolution → Bool
  | .error _ => false
  | .ok entries => inverted && entries.isEmpty

section Reads

variable (env : SectionEnv)

/-- The same of a section over a module field. -/
def fieldShows (t : Tag) (field : TemplateField) : Bool :=
  if field.kind = "module-list" then t.inverted && (itemsOf (field.stored env.values t.name.head)).isEmpty
  else if field.kind = "list" then
    env.lists.any fun lists => showsEmpty t.inverted (lists.resolveField field.spec (env.values.own t.name.head) env.holder)
  else if field.kind = "link" then
    match env.moduleLink t.name.head with
    | some (.record _ present _) => present != t.inverted
    | _ => false
  else isPresentSectionValue (field.stored env.values t.name.head) != t.inverted

/-- Outside of entries, the block of the section is rendered outside of entries. -/
def sectionShows (t : Tag) : Bool :=
  match env.lookup t.name .top with
  | .missing => false
  | .value v => v.shows t.inverted
  | .unknown =>
    if t.name.dotted then
      match env.linkPath t.name with
      | .value v => v.shows t.inverted
      | _ => false
    else
      match env.field t.name.head with
      | none => (env.lists.bind fun lists => lists.pluginSource t.name.head).any (showsEmpty t.inverted)
      | some field => fieldShows env t field

def sectionPaths (t : Tag) (inner : List Name) : List Name :=
  (if (env.moduleLink (lower t.name.head)).isSome then [t.name] else []) ++ if sectionShows env t then inner else []

mutual

/-- The names that are read from module fields outside of entries. -/
def pathsRead : List Node → List Name
  | [] => []
  | n :: ns => pathsReadAt n ++ pathsRead ns

def pathsReadAt : Node → List Name
  | .text _ => []
  | .tag t _ => if t.sigil = .none then [t.name] else []
  | .block t _ body => sectionPaths env t (pathsRead body)

end

/-- A path into a module field that is not there. -/
def SectionEnv.loses (name : Name) : Bool :=
  name.dotted && !isContextHead name &&
    match env.linkPath name with
    | .unknown => env.isModuleLevel name.head
    | .missing => true
    | .value _ => false

/-- One of the paths is `p`, and is not there. -/
def Lost (names : List Name) (p : String) : Prop := ∃ name ∈ names, env.loses name = true ∧ p = name.text

end Reads

/-! ### The markers of a render -/

/-- The marker is in the output exactly when `q`. -/
def Tells (p : String) (o : Out) (q : Prop) : Prop := Marker.fieldPathUnknown none p ∈ o.missing ↔ q

namespace Tells

variable {p : String} {q q' : Prop}

theorem of_nil {o : Out} (h : o.missing = []) : Tells p o False := by
  rw [Tells, h]
  exact iff_of_false List.not_mem_nil id

theorem raw {m : Marker} (h : m = .fieldPathUnknown none p ↔ q) (source : List Sym) : Tells p (Template.raw source m) q := by
  rw [Tells, ← h, Template.raw, List.mem_singleton, eq_comm]

theorem raw_other {m : Marker} (h : m ≠ .fieldPathUnknown none p) (source : List Sym) :
    Tells p (Template.raw source m) False := .raw (iff_of_false h id) source

theorem append {o o' : Out} (h : Tells p o q) (h' : Tells p o' q') : Tells p (o ++ o') (q ∨ q') := by
  rw [Tells, Out.missing_append, List.mem_append]
  exact or_congr h h'

theorem of_iff {o : Out} (h : Tells p o q) (hq : q ↔ q') : Tells p o q' := Iff.trans h hq

theorem closed : Out.Closed fun o => Tells p o False where
  empty := .of_nil rfl
  front := .of_nil rfl
  append := fun _ _ h h' => (h.append h').of_iff (or_self_iff)
  stamped := fun _ attr h => by cases attr <;> exact h

theorem concat {os : List Out} (h : ∀ o ∈ os, Tells p o False) : Tells p (Out.concat os) False := by
  induction os with
  | nil => exact .of_nil rfl
  | cons o os ih =>
    exact closed.append _ _ (h o List.mem_cons_self) (ih fun o ho => h o (List.mem_cons_of_mem _ ho))

end Tells

section Render

variable {env : SectionEnv} {st : RenderState} {p : String}

theorem unknownPath_eq_iff (name : Name) : env.unknownPath name st = .fieldPathUnknown none p ↔
    st.chain = [] ∧ isContextHead name = false ∧ p = name.text := by
  unfold SectionEnv.unknownPath
  cases isContextHead name with
  | true =>
    rw [if_pos rfl]
    refine iff_of_false ?_ (fun h => by cases h.2.1)
    split
    · exact Marker.noConfusion
    · exact Marker.noConfusion
  | false =>
    rw [if_neg Bool.false_ne_true, Marker.fieldPathUnknown.injEq, listField, Option.map_eq_none_iff,
      List.getLast?_eq_none_iff, eq_comm (a := name.text)]
    exact and_congr_right fun _ => (and_iff_right rfl).symm

variable {name : Name} {q : Prop}

theorem lookup_outside (hst : st.chain = []) (hhead : isContextHead name = false) :
    env.lookup name st = .unknown := by
  rw [isContextHead, List.contains_eq_mem, decide_eq_false_iff_not, List.mem_cons, List.mem_singleton, not_or] at hhead
  rw [SectionEnv.lookup, if_neg hhead.1, if_neg hhead.2, hst]
  rfl

theorem linkKey_nil (v : ScopeValue) : linkKey v [] = .value v := by cases v <;> rfl

theorem linkPath_of_undotted (h : name.dotted = false) : env.linkPath name ≠ .missing := by
  have hpath : name.path = [] := by
    rw [Name.dotted, Bool.not_eq_false', List.isEmpty_iff] at h
    exact h
  unfold SectionEnv.linkPath
  cases env.moduleLink (lower name.head) with
  | none => exact Found.noConfusion
  | some v =>
    dsimp only
    rw [hpath, linkKey_nil]
    exact Found.noConfusion

/-! ### Tags -/

theorem valueText_tells (v : ScopeValue) (source : List Sym) (name : Name) (st : RenderState) :
    Tells p (valueText v source name st) False := by
  cases v with
  | record text present parts =>
    cases text with
    | none => exact .raw_other Marker.noConfusion source
    | some text => exact .of_nil rfl
  | text text => exact .of_nil rfl
  | bool value => exact .of_nil rfl
  | _ => exact .raw_other Marker.noConfusion source

theorem loses_dotted (h : env.loses name = true) : name.dotted = true ∧ isContextHead name = false := by
  rw [SectionEnv.loses, Bool.and_eq_true, Bool.and_eq_true, Bool.not_eq_true'] at h
  exact h.1

theorem not_lost_of_known (h : env.lookup name st ≠ .unknown) :
    ¬(st.chain = [] ∧ env.loses name = true ∧ q) :=
  fun hlost => h (lookup_outside hlost.1 (loses_dotted hlost.2.1).2)

theorem not_lost_of_undotted (h : name.dotted = false) {r : Prop} : ¬(r ∧ env.loses name = true ∧ q) := by
  intro hlost
  rw [(loses_dotted hlost.2.1).1] at h
  cases h

theorem fieldTag_tells (t : Tag) (source : List Sym) (st : RenderState) :
    Tells p (fieldTag env t source st) (st.chain = [] ∧ env.loses t.name = true ∧ p = t.name.text) := by
  have hpath : t.name.dotted = true → (∀ v, env.linkPath t.name ≠ .value v) →
      (env.linkPath t.name = .unknown → env.isModuleLevel t.name.head = true) →
      Tells p (raw source (env.unknownPath t.name st)) (st.chain = [] ∧ env.loses t.name = true ∧ p = t.name.text) := by
    intro hdotted hvalue hlevel
    refine (Tells.raw (unknownPath_eq_iff t.name) source).of_iff (and_congr_right fun _ => and_congr_left fun _ => ?_)
    unfold SectionEnv.loses
    rw [hdotted, Bool.true_and, Bool.and_eq_true, Bool.not_eq_true']
    refine (and_iff_left ?_).symm
    cases hlink : env.linkPath t.name with
    | unknown => exact hlevel hlink
    | missing => rfl
    | value v => exact absurd hlink (hvalue v)
  unfold fieldTag
  cases hlink : env.linkPath t.name with
  | unknown =>
    dsimp only
    have hlost : env.isModuleLevel t.name.head ≠ true → env.loses t.name = false := by
      intro hlevel
      rw [SectionEnv.loses, hlink, Bool.eq_false_of_not_eq_true hlevel, Bool.and_false]
    split
    · rename_i hdotted
      split
      · rename_i hlevel
        exact hpath hdotted (fun v h => by rw [hlink] at h; cases h) fun _ => hlevel
      · rename_i hlevel
        have hno : ¬(st.chain = [] ∧ env.loses t.name = true ∧ p = t.name.text) := by
          rw [hlost hlevel]
          exact fun h => by cases h.2.1
        split
        · exact (Tells.of_nil rfl).of_iff (iff_of_false id hno)
        · exact (Tells.raw_other Marker.noConfusion source).of_iff (iff_of_false id hno)
    · rename_i hdotted
      have hno : ¬(st.chain = [] ∧ env.loses t.name = true ∧ p = t.name.text) :=
        not_lost_of_undotted (Bool.eq_false_of_not_eq_true hdotted)
      split
      · exact (Tells.of_nil rfl).of_iff (iff_of_false id hno)
      · exact (Tells.raw_other Marker.noConfusion source).of_iff (iff_of_false id hno)
  | missing =>
    have hdotted : t.name.dotted = true := Bool.of_not_eq_false fun h => linkPath_of_undotted h hlink
    exact hpath hdotted (fun v h => by rw [hlink] at h; cases h) fun h => by rw [hlink] at h; cases h
  | value v =>
    dsimp only
    have hno : ¬(st.chain = [] ∧ env.loses t.name = true ∧ p = t.name.text) := by
      rw [SectionEnv.loses, hlink, Bool.and_false]
      exact fun h => by cases h.2.1
    split
    · split
      · exact (Tells.raw_other Marker.noConfusion source).of_iff (iff_of_false id hno)
      · exact (Tells.of_nil rfl).of_iff (iff_of_false id hno)
    · exact (valueText_tells v source t.name st).of_iff (iff_of_false id hno)

theorem valueTag_tells (t : Tag) (source : List Sym) (st : RenderState) :
    Tells p (valueTag env t source st) (st.chain = [] ∧ env.loses t.name = true ∧ p = t.name.text) := by
  unfold valueTag
  split
  · rename_i hplain
    rw [Bool.and_eq_true, Bool.and_eq_true, Bool.not_eq_true'] at hplain
    exact (Tells.of_nil rfl).of_iff (iff_of_false id (not_lost_of_undotted hplain.1.2))
  · cases hlookup : env.lookup t.name st with
    | unknown => exact fieldTag_tells t source st
    | missing =>
      have hknown : env.lookup t.name st ≠ .unknown := by rw [hlookup]; exact Found.noConfusion
      refine (Tells.raw (unknownPath_eq_iff t.name) source).of_iff (iff_of_false ?_ (not_lost_of_known hknown))
      exact fun h => hknown (lookup_outside h.1 h.2.1)
    | value v =>
      have hknown : env.lookup t.name st ≠ .unknown := by rw [hlookup]; exact Found.noConfusion
      exact (valueText_tells v source t.name st).of_iff (iff_of_false id (not_lost_of_known hknown))

theorem plainTag_tells (t : Tag) (source : List Sym) (st : RenderState) :
    Tells p (plainTag env t source st) (st.chain = [] ∧ env.loses t.name = true ∧ p = t.name.text) := by
  unfold plainTag
  split
  · rename_i hitem
    cases st.dot with
    | none => exact valueTag_tells t source st
    | some dot =>
      have hdotted : t.name.dotted = false := by rw [hitem.1]; rfl
      exact (Tells.of_nil rfl).of_iff (iff_of_false id (not_lost_of_undotted hdotted))
  · exact valueTag_tells t source st

theorem entryPartial_tells (id : String) (v : ScopeValue) (name : Name) (source : List Sym) (st : RenderState) :
    Tells p (entryPartial env id v name source st) False := by
  have hmismatched : ∀ v, Tells p (mismatched v name st) False := by
    intro v
    rw [Tells, mismatched, List.mem_singleton]
    exact iff_of_false Marker.noConfusion False.elim
  unfold entryPartial
  cases v with
  | module ref =>
    dsimp only
    generalize env.partials _ (some ref) = html
    cases html with
    | none => exact iff_of_false (fun h => Marker.noConfusion (List.mem_singleton.1 h)) False.elim
    | some html => exact .of_nil rfl
  | text text =>
    dsimp only
    split
    · exact .of_nil rfl
    · exact hmismatched _
  | failed marker => exact .raw_other Marker.noConfusion source
  | _ => exact hmismatched _

theorem partialTag_tells (hagain : Tells p st.again False) (t : Tag) (source : List Sym) :
    Tells p (partialTag env t source st) False := by
  unfold partialTag
  cases st.chain with
  | nil => exact .of_nil rfl
  | cons frame fs =>
    dsimp only
    split
    · exact hagain
    · cases env.lookup t.name st with
      | unknown =>
        dsimp only
        split
        · exact .of_nil rfl
        · exact .raw_other Marker.noConfusion source
      | missing => exact .raw_other Marker.noConfusion source
      | value v => exact entryPartial_tells _ v t.name source st

theorem renderTag_tells (hagain : Tells p st.again False) (t : Tag) (source : List Sym) :
    Tells p (renderTag env t source st) (st.chain = [] ∧ Lost env (if t.sigil = .none then [t.name] else []) p) := by
  have hnil : ∀ {o : Out}, Tells p o False → Tells p o (st.chain = [] ∧ Lost env [] p) := by
    intro o h
    refine h.of_iff (iff_of_false id ?_)
    rintro ⟨-, name, hname, -⟩
    cases hname
  unfold renderTag
  cases t.sigil with
  | angle => exact hnil (partialTag_tells hagain t source)
  | none =>
    refine (plainTag_tells t source st).of_iff (and_congr_right fun _ => ?_)
    rw [if_pos rfl, Lost]
    simp only [List.mem_singleton, exists_eq_left]
  | hash => exact hnil (.of_nil rfl)
  | caret => exact hnil (.of_nil rfl)
  | slash => exact hnil (.of_nil rfl)

theorem renderText_tells (s : List Sym) (st : RenderState) : Tells p (renderText s st) False := by
  unfold renderText
  cases st.dot with
  | none => exact .of_nil rfl
  | some dot => exact .of_nil rfl

theorem renderModuleList_tells (name : String) (field : TemplateField) : Tells p (renderModuleList env name field) False := by
  refine .concat fun o ho => ?_
  obtain ⟨q, -, rfl⟩ := List.mem_map.1 ho
  unfold renderElement
  cases Nested.nestedRef q.1 with
  | none => exact iff_of_false (fun h => Marker.noConfusion (List.mem_singleton.1 h)) False.elim
  | some ref =>
    dsimp only
    generalize env.partials _ none = html
    cases html with
    | none => exact iff_of_false (fun h => Marker.noConfusion (List.mem_singleton.1 h)) False.elim
    | some html => exact .of_nil rfl

/-! ### Sections -/

theorem lookup_top (hst : st.chain = []) (name : Name) : env.lookup name st = env.lookup name .top := by
  unfold SectionEnv.lookup
  rw [hst]
  rfl

theorem linkKey_ne_unknown (v : ScopeValue) (path : List String) : linkKey v path ≠ .unknown := by
  cases path with
  | nil =>
    rw [linkKey_nil]
    exact Found.noConfusion
  | cons key rest =>
    cases v with
    | record text present parts =>
      unfold linkKey
      dsimp only
      cases partAt parts (if rest.isEmpty then lower key else "") with
      | none => exact Found.noConfusion
      | some v => exact Found.noConfusion
    | _ => exact Found.noConfusion

theorem linkPath_eq_unknown (h : env.linkPath name = .unknown) : env.moduleLink (lower name.head) = none := by
  unfold SectionEnv.linkPath at h
  cases hlink : env.moduleLink (lower name.head) with
  | none => rfl
  | some v =>
    rw [hlink] at h
    exact absurd h (linkKey_ne_unknown v name.path)

theorem not_lost_nil : ¬Lost env [] p := by
  rintro ⟨name, hname, -⟩
  cases hname

theorem lost_append (names names' : List Name) : Lost env (names ++ names') p ↔ Lost env names p ∨ Lost env names' p := by
  unfold Lost
  simp only [List.mem_append, or_and_right, exists_or]

theorem lost_if (b : Bool) (name : Name) : Lost env (if b then [name] else []) p ↔
    b = true ∧ env.loses name = true ∧ p = name.text := by
  cases b with
  | false => exact iff_of_false not_lost_nil fun h => Bool.false_ne_true h.1
  | true =>
    rw [if_pos rfl, Lost]
    simp only [List.mem_singleton, exists_eq_left, true_and]

section

variable {body : RenderState → Out} {t : Tag} {source : List Sym} {inner : List Name}

theorem Tells.hidden {o : Out} (h : Tells p o False) :
    Tells p o (st.chain = [] ∧ Lost env (if false = true then inner else []) p) :=
  h.of_iff (iff_of_false id fun hlost => not_lost_nil hlost.2)

theorem Tells.shown {o : Out} {names : List Name} {b : Bool} (h : Tells p o (st.chain = [] ∧ Lost env names p)) (hb : b = true) :
    Tells p o (st.chain = [] ∧ Lost env (if b = true then names else []) p) := by
  rw [if_pos hb]
  exact h

theorem entriesSection_tells (hagain : Tells p st.again False)
    (hbody : ∀ st : RenderState, Tells p st.again False → Tells p (body st) (st.chain = [] ∧ Lost env inner p))
    (entries : List ScopeEntry) : Tells p (entriesSection t st body entries)
      (st.chain = [] ∧ Lost env (if (t.inverted && entries.isEmpty) = true then inner else []) p) := by
  unfold entriesSection
  cases t.inverted with
  | true =>
    rw [if_pos rfl, Bool.true_and]
    cases entries.isEmpty with
    | true => exact (hbody { st with dot := none } hagain).shown rfl
    | false => exact (Tells.of_nil rfl).hidden
  | false =>
    rw [if_neg Bool.false_ne_true, Bool.false_and]
    refine Tells.hidden (iterate_all Tells.closed (fun frame chain again h => ?_) st.chain entries)
    exact (hbody ⟨frame :: chain, none, again⟩ h).of_iff (iff_of_false (fun hlost => List.cons_ne_nil _ _ hlost.1) id)

theorem scopeSection_tells (hagain : Tells p st.again False)
    (hbody : ∀ st : RenderState, Tells p st.again False → Tells p (body st) (st.chain = [] ∧ Lost env inner p))
    (v : ScopeValue) : Tells p (scopeSection t source st body v)
      (st.chain = [] ∧ Lost env (if v.shows t.inverted = true then inner else []) p) := by
  have hcond : ∀ b : Bool, Tells p (if b ≠ t.inverted then body st else .empty)
      (st.chain = [] ∧ Lost env (if (b != t.inverted) = true then inner else []) p) := by
    intro b
    cases b <;> cases t.inverted
    · exact (Tells.of_nil rfl).hidden
    · exact (hbody st hagain).shown rfl
    · exact (hbody st hagain).shown rfl
    · exact (Tells.of_nil rfl).hidden
  unfold scopeSection
  cases v with
  | failed marker => exact (Tells.raw_other Marker.noConfusion source).hidden
  | list entries => exact entriesSection_tells hagain hbody entries
  | bool value => exact hcond value
  | text text => exact hcond (notBlank text)
  | record text present parts => exact hcond present
  | module ref =>
    rw [ScopeValue.shows]
    dsimp only
    cases t.inverted with
    | true => exact (Tells.of_nil rfl).hidden
    | false => exact (hbody st hagain).shown rfl

theorem resolvedSection_tells (hagain : Tells p st.again False)
    (hbody : ∀ st : RenderState, Tells p st.again False → Tells p (body st) (st.chain = [] ∧ Lost env inner p))
    (res : ListFieldResolution) : Tells p (resolvedSection t source st body res)
      (st.chain = [] ∧ Lost env (if showsEmpty t.inverted res = true then inner else []) p) := by
  unfold resolvedSection
  cases res with
  | error marker => exact (Tells.raw_other Marker.noConfusion source).hidden
  | ok entries => exact entriesSection_tells hagain hbody entries

theorem conditional_tells (hagain : Tells p st.again False)
    (hbody : ∀ st : RenderState, Tells p st.again False → Tells p (body st) (st.chain = [] ∧ Lost env inner p))
    (present : Bool) (dot : String) : Tells p (conditional t st body present dot)
      (st.chain = [] ∧ Lost env (if (present != t.inverted) = true then inner else []) p) := by
  unfold conditional
  by_cases h : present = t.inverted
  · rw [if_pos h, h, bne_self_eq_false]
    exact (Tells.of_nil rfl).hidden
  · rw [if_neg h]
    exact (hbody { st with dot := if !present || dot = "" then st.dot else some dot } hagain).shown (bne_iff_ne.2 h)

theorem fieldSection_tells (hagain : Tells p st.again False)
    (hbody : ∀ st : RenderState, Tells p st.again False → Tells p (body st) (st.chain = [] ∧ Lost env inner p))
    {field : TemplateField} (hfield : env.field t.name.head = some field) : Tells p (moduleSection env t source st body)
      (st.chain = [] ∧ Lost env (if fieldShows env t field = true then inner else []) p) := by
  unfold moduleSection fieldShows
  dsimp only
  rw [hfield]
  dsimp only
  split
  · cases t.inverted with
    | false =>
      rw [if_neg Bool.false_ne_true, Bool.false_and]
      exact (renderModuleList_tells t.name.head field).hidden
    | true =>
      rw [if_pos rfl, Bool.true_and]
      cases (itemsOf (field.stored env.values t.name.head)).isEmpty with
      | true => exact (hbody { st with dot := none } hagain).shown rfl
      | false => exact (Tells.of_nil rfl).hidden
  · split
    · cases env.lists with
      | none => exact (Tells.raw_other Marker.noConfusion source).hidden
      | some lists => exact resolvedSection_tells hagain hbody _
    · split
      · cases env.moduleLink t.name.head with
        | none => exact (Tells.of_nil rfl).hidden
        | some v =>
          cases v with
          | record text present parts => exact conditional_tells hagain hbody present _
          | failed marker => exact (Tells.raw_other Marker.noConfusion source).hidden
          | _ => exact (Tells.of_nil rfl).hidden
      · exact conditional_tells hagain hbody _ _

theorem pluginSection_tells (hagain : Tells p st.again False)
    (hbody : ∀ st : RenderState, Tells p st.again False → Tells p (body st) (st.chain = [] ∧ Lost env inner p))
    (hfield : env.field t.name.head = none) : Tells p (moduleSection env t source st body) (st.chain = [] ∧ Lost env
      (if (env.lists.bind fun lists => lists.pluginSource t.name.head).any (showsEmpty t.inverted) = true then inner else []) p) := by
  unfold moduleSection
  dsimp only
  rw [hfield]
  dsimp only
  cases env.lists.bind fun lists => lists.pluginSource t.name.head with
  | none => exact (Tells.raw_other Marker.noConfusion source).hidden
  | some res => exact resolvedSection_tells hagain hbody res

theorem renderSection_tells (hagain : Tells p st.again False)
    (hbody : ∀ st : RenderState, Tells p st.again False → Tells p (body st) (st.chain = [] ∧ Lost env inner p)) :
    Tells p (renderSection env t source st body) (st.chain = [] ∧ Lost env (sectionPaths env t inner) p) := by
  -- outside of entries, the path of the section and what its block reads, when it is shown
  have hsplit : ∀ {o : Out} {b : Bool}, Tells p o (st.chain = [] ∧ Lost env (if b = true then inner else []) p) →
      (st.chain = [] → sectionShows env t = b) →
      (st.chain = [] → ¬((env.moduleLink (lower t.name.head)).isSome = true ∧ env.loses t.name = true ∧ p = t.name.text)) →
      Tells p o (st.chain = [] ∧ Lost env (sectionPaths env t inner) p) := by
    intro o b h hshows hown
    refine h.of_iff (and_congr_right fun hst => ?_)
    rw [sectionPaths, lost_append, lost_if, hshows hst]
    exact (or_iff_right (hown hst)).symm
  unfold renderSection
  cases hlookup : env.lookup t.name st with
  | missing =>
    have hknown : env.lookup t.name st ≠ .unknown := by rw [hlookup]; exact Found.noConfusion
    refine hsplit (b := false) (Tells.hidden ?_) (fun hst => ?_) fun hst h => not_lost_of_known hknown ⟨hst, h.2⟩
    · exact .raw (iff_of_false (fun h => hknown (lookup_outside ((unknownPath_eq_iff _).1 h).1
        ((unknownPath_eq_iff _).1 h).2.1)) id) source
    · rw [sectionShows, ← lookup_top hst, hlookup]
  | value v =>
    have hknown : env.lookup t.name st ≠ .unknown := by rw [hlookup]; exact Found.noConfusion
    refine hsplit (scopeSection_tells hagain hbody v) (fun hst => ?_) fun hst h => not_lost_of_known hknown ⟨hst, h.2⟩
    rw [sectionShows, ← lookup_top hst, hlookup]
  | unknown =>
    dsimp only
    by_cases hdotted : t.name.dotted = true
    · rw [if_pos hdotted]
      have hshows : st.chain = [] → sectionShows env t = match env.linkPath t.name with
          | .value v => v.shows t.inverted
          | _ => false := by
        intro hst
        rw [sectionShows, ← lookup_top hst, hlookup]
        dsimp only
        rw [if_pos hdotted]
      cases hlink : env.linkPath t.name with
      | unknown =>
        rw [hlink] at hshows
        refine hsplit (b := false) (Tells.raw_other Marker.noConfusion source).hidden hshows fun _ h => ?_
        rw [linkPath_eq_unknown hlink] at h
        cases h.1
      | missing =>
        rw [hlink] at hshows
        refine (Tells.raw (unknownPath_eq_iff t.name) source).of_iff (and_congr_right fun hst => ?_)
        have hsome : (env.moduleLink (lower t.name.head)).isSome = true := by
          cases h : env.moduleLink (lower t.name.head) with
          | none =>
            rw [SectionEnv.linkPath, h] at hlink
            cases hlink
          | some v => rfl
        rw [sectionPaths, lost_append, lost_if, hshows hst, hsome, SectionEnv.loses, hlink, hdotted, if_neg Bool.false_ne_true,
          or_iff_left not_lost_nil, Bool.true_and, Bool.and_true, Bool.not_eq_true', and_iff_right rfl]
      | value v =>
        rw [hlink] at hshows
        refine hsplit (scopeSection_tells hagain hbody v) hshows fun _ h => ?_
        rw [SectionEnv.loses, hlink, Bool.and_false] at h
        cases h.2.1
    · have hundotted : t.name.dotted = false := Bool.eq_false_of_not_eq_true hdotted
      rw [if_neg hdotted]
      have hshows : st.chain = [] → sectionShows env t = match env.field t.name.head with
          | none => (env.lists.bind fun lists => lists.pluginSource t.name.head).any (showsEmpty t.inverted)
          | some field => fieldShows env t field := by
        intro hst
        rw [sectionShows, ← lookup_top hst, hlookup]
        dsimp only
        rw [if_neg hdotted]
      cases hfield : env.field t.name.head with
      | none =>
        rw [hfield] at hshows
        exact hsplit (pluginSection_tells hagain hbody hfield) hshows fun _ => not_lost_of_undotted hundotted
      | some field =>
        rw [hfield] at hshows
        exact hsplit (fieldSection_tells hagain hbody hfield) hshows fun _ => not_lost_of_undotted hundotted

end

mutual

theorem renderNodes_tells : ∀ (ns : List Node) (st : RenderState), Tells p st.again False →
    Tells p (renderNodes env ns st) (st.chain = [] ∧ Lost env (pathsRead env ns) p)
  | [], _, _ => (Tells.of_nil rfl).of_iff (iff_of_false id fun h => not_lost_nil h.2)
  | n :: ns, st, hagain => by
    rw [pathsRead, lost_append, and_or_left]
    exact (renderNode_tells n st hagain).append (renderNodes_tells ns st hagain)

theorem renderNode_tells : ∀ (n : Node) (st : RenderState), Tells p st.again False →
    Tells p (renderNode env n st) (st.chain = [] ∧ Lost env (pathsReadAt env n) p)
  | .text s, st, _ => (renderText_tells s st).of_iff (iff_of_false id fun h => not_lost_nil h.2)
  | .tag t source, _, hagain => renderTag_tells hagain t source
  | .block _ _ body, _, hagain => renderSection_tells hagain (renderNodes_tells body)

end

/-! ### The names of a template -/

theorem mem_cut {gap : List Sym} {ps : List (Scan.Piece Sym Tag)} {t : Token} (h : t ∈ (cut gap ps).1) :
    .found t.tag t.source ∈ ps := by
  induction ps generalizing gap with
  | nil => cases h
  | cons q ps ih =>
    cases q with
    | plain c => exact List.mem_cons_of_mem _ (ih h)
    | found tag source =>
      rcases List.mem_cons.1 h with rfl | h
      · exact List.mem_cons_self
      · exact List.mem_cons_of_mem _ (ih h)

theorem spanChars_all (p : Char → Bool) (s : List Sym) : ∀ c ∈ (spanChars p s).1, p c = true := by
  induction s with
  | nil => exact fun c h => by cases h
  | cons x s ih =>
    cases x with
    | mask original => exact fun c h => by cases h
    | char d =>
      unfold spanChars
      split
      · rename_i hd
        exact List.forall_mem_cons.2 ⟨hd, ih⟩
      · exact fun c h => by cases h

theorem head_of_tokenize {html : List Sym} {t : Token} (h : t ∈ (tokenize html).1) : '.' ∉ t.tag.name.head.toList := by
  obtain ⟨before, s, n, hmatch, -⟩ := Scan.mem_scan_found (mem_cut h)
  obtain ⟨r, hscan, heq⟩ := Option.map_eq_some_iff.1 hmatch
  obtain ⟨inner, -, hscan⟩ := Option.bind_eq_some_iff.1 hscan
  obtain ⟨found, hname, hscan⟩ := Option.bind_eq_some_iff.1 hscan
  obtain ⟨rest, -, hr⟩ := Option.map_eq_some_iff.1 hscan
  have htag : t.tag.name = found.1 := by
    rw [← (Prod.mk.inj heq).1, ← hr]
  unfold scanName at hname
  rw [Option.ite_none_right_eq_some, Option.some.injEq] at hname
  rw [htag, ← hname.2, String.toList_ofList]
  exact fun hdot => absurd (spanChars_all isWord _ _ hdot) (by decide)

theorem pathsRead_nodesIn {tokens : List Token} {trailing : List Sym} {pairs : List (Nat × Nat)} {fuel i stop : Nat}
    (h : name ∈ pathsRead env (nodesIn tokens trailing pairs fuel i stop)) : ∃ t ∈ tokens, t.tag.name = name := by
  induction fuel generalizing i stop with
  | zero => cases h
  | succ fuel ih =>
    unfold nodesIn at h
    split at h
    · cases h
    · cases htoken : tokens[i]? with
      | none =>
        rw [htoken] at h
        cases h
      | some t =>
        have hmem : t ∈ tokens := List.mem_of_getElem? htoken
        rw [htoken] at h
        dsimp only at h
        revert h
        generalize (closeOf pairs i).filter _ = close
        intro h
        cases close with
        | none =>
          rw [pathsRead, pathsReadAt, List.nil_append, pathsRead, pathsReadAt] at h
          rcases List.mem_append.1 h with h | h
          · rw [List.mem_ite_nil_right, List.mem_singleton] at h
            exact ⟨t, hmem, h.2.symm⟩
          · exact ih h
        | some close =>
          rw [pathsRead, pathsReadAt, List.nil_append, pathsRead, pathsReadAt, sectionPaths] at h
          rcases List.mem_append.1 h with h | h
          · rcases List.mem_append.1 h with h | h
            · rw [List.mem_ite_nil_right, List.mem_singleton] at h
              exact ⟨t, hmem, h.2.symm⟩
            · rw [List.mem_ite_nil_right] at h
              exact ih h.2
          · exact ih h

theorem renderSections_tells (html : List Sym) :
    Tells p (renderSections env html) (Lost env (pathsRead env (parse html)) p) := by
  have hnone : ((tokenize html).1.any fun t => t.tag.name.dotted) = false →
      Tells p (.text html) (Lost env (pathsRead env (parse html)) p) := by
    intro hdotted
    refine (Tells.of_nil rfl).of_iff (iff_of_false id ?_)
    rintro ⟨name, hname, hloses, -⟩
    obtain ⟨t, ht, rfl⟩ := pathsRead_nodesIn hname
    exact absurd (loses_dotted hloses).1 (List.any_eq_false.1 hdotted t ht)
  unfold renderSections
  dsimp only
  split
  · rename_i hempty
    refine hnone ?_
    rw [List.isEmpty_iff.1 hempty]
    rfl
  · split
    · rename_i hplain
      rw [Bool.and_eq_true, Bool.not_eq_true'] at hplain
      exact hnone hplain.2
    · exact (renderNodes_tells _ .top (.of_nil rfl)).of_iff (and_iff_right rfl)

/-! ### The engine -/

theorem Tells.replaceOut {α : Type} {m : List Sym → List Sym → Option (α × Nat)} {f : α → List Sym → Out}
    (h : ∀ a source, Tells p (f a source) False) (html : List Sym) : Tells p (Template.replaceOut m f html) False := by
  refine .concat fun o ho => ?_
  obtain ⟨q, -, rfl⟩ := List.mem_map.1 ho
  cases q with
  | plain c => exact .of_nil rfl
  | found a source => exact h a source

theorem Tells.andThen {o : Out} {pass : List Sym → Out} (h : Tells p o q)
    (hpass : ∀ html, Tells p (pass html) False) : Tells p (o.andThen pass) q := by
  rw [Tells, Out.andThen, List.mem_append]
  exact (or_congr h (hpass o.html)).trans (iff_of_eq (or_false q))

theorem renderPartialRef_tells (name : String) (source : List Sym) : Tells p (renderPartialRef env name source) False := by
  unfold renderPartialRef
  cases env.field name with
  | none => exact .raw_other Marker.noConfusion source
  | some field =>
    dsimp only
    split
    · exact iff_of_false (fun h => Marker.noConfusion (List.mem_singleton.1 h)) False.elim
    · cases slotRef (env.values.own name) with
      | none => exact .of_nil rfl
      | some made =>
        cases made with
        | false => exact iff_of_false (fun h => Marker.noConfusion (List.mem_singleton.1 h)) False.elim
        | true =>
          dsimp only
          cases env.partials name none with
          | none => exact iff_of_false (fun h => Marker.noConfusion (List.mem_singleton.1 h)) False.elim
          | some html => exact .of_nil rfl

theorem renderPrimitive_tells (input : RenderTemplateInput) (name : String) (source : List Sym) :
    Tells p (renderPrimitive input name source) False := by
  unfold renderPrimitive
  split
  · exact .of_nil rfl
  · cases assetSlot (lower name) with
    | some slot => exact .raw_other Marker.noConfusion source
    | none =>
      dsimp only
      split
      · exact .of_nil rfl
      · exact .raw_other Marker.noConfusion source

end Render

/-- A render reports the paths it reads outside of entries and does not find, and no others. -/
theorem renderTemplate_tells {mustache : Mustache} {key : List Char} {input : RenderTemplateInput}
    {out : RenderTemplateOutput} (h : renderTemplate mustache key input = some out) (p : String) :
    Marker.fieldPathUnknown none p ∈ out.missingSlots ↔
      Lost input.toSectionEnv (pathsRead input.toSectionEnv (parse (chars (stripCdataGuards input.html)))) p := by
  have hsections : Tells p (renderSections input.toSectionEnv (chars (stripCdataGuards input.html)))
      (Lost input.toSectionEnv (pathsRead input.toSectionEnv (parse (chars (stripCdataGuards input.html)))) p) :=
    renderSections_tells _
  have hpasses : Tells p input.substituted
      (Lost input.toSectionEnv (pathsRead input.toSectionEnv (parse (chars (stripCdataGuards input.html)))) p) :=
    (hsections.andThen (.replaceOut renderPartialRef_tells)).andThen (.replaceOut (renderPrimitive_tells input))
  obtain ⟨rendered, -, rfl⟩ := Option.map_eq_some_iff.1 h
  have hlink : Marker.fieldPathUnknown none p ∉
      (Link.resolveLinkRefsInHtml (restore key rendered) input.linkResolver).2.map Marker.link := by
    intro hmem
    obtain ⟨text, -, heq⟩ := List.mem_map.1 hmem
    cases heq
  exact (List.mem_append.trans (or_iff_left hlink)).trans hpasses

/-! ### Checked templates -/

/-- `name.split(".")[0]` -/
def pathHead (p : String) : String := String.ofList (p.toList.takeWhile (· ≠ '.'))

theorem text_of_path (path : List String) (s : String) : ∃ rest : List Char,
    (path.foldl (fun s part => s ++ "." ++ part) s).toList = s.toList ++ rest ∧ rest.takeWhile (· ≠ '.') = [] := by
  cases path with
  | nil => exact ⟨[], (List.append_nil _).symm, rfl⟩
  | cons part path =>
    have hgrows : ∀ (path : List String) (s : String), ∃ rest : List Char,
        (path.foldl (fun s part => s ++ "." ++ part) s).toList = s.toList ++ rest := by
      intro path
      induction path with
      | nil => exact fun s => ⟨[], (List.append_nil _).symm⟩
      | cons part path ih =>
        intro s
        obtain ⟨rest, hrest⟩ := ih (s ++ "." ++ part)
        refine ⟨'.' :: (part.toList ++ rest), ?_⟩
        rw [List.foldl_cons, hrest, String.toList_append, String.toList_append]
        simp
    obtain ⟨rest, hrest⟩ := hgrows path (s ++ "." ++ part)
    refine ⟨'.' :: (part.toList ++ rest), ?_, rfl⟩
    rw [List.foldl_cons, hrest, String.toList_append, String.toList_append]
    simp

theorem pathHead_text {name : Name} (h : '.' ∉ name.head.toList) : pathHead name.text = name.head := by
  obtain ⟨rest, htext, hrest⟩ := text_of_path name.path name.head
  have hall : ∀ c ∈ name.head.toList, (decide (c ≠ '.')) = true := by
    intro c hc
    exact decide_eq_true fun heq => h (heq ▸ hc)
  rw [pathHead, Name.text, htext, List.takeWhile_append_of_pos hall, hrest, List.append_nil, String.ofList_toList]

theorem linkPath_of_checked {env : SectionEnv} {html : List Char} (hcheck : fieldPathProblems env.fields html = [])
    {name : Name} (h : Compared env.fields html name) : ∃ v, env.linkPath name = .value v := by
  obtain ⟨t, ht, rfl, hkind⟩ := h
  obtain ⟨kind, hkind⟩ := Option.isSome_iff_exists.1 hkind
  have hproblem : problemAt env.fields t = none := by
    rw [fieldPathProblems, problemsFrom_eq, List.filterMap_eq_nil_iff] at hcheck
    exact hcheck t ht
  rw [problemAt, hkind] at hproblem
  dsimp only at hproblem
  rw [ite_eq_left_iff] at hproblem
  have hlink : (kind == "link" && isLinkPath t.tag.name) = true := by
    by_contra hno
    cases hproblem hno
  rw [Bool.and_eq_true, beq_iff_eq] at hlink
  obtain ⟨rfl, hpath⟩ := hlink
  unfold comparedKind at hkind
  rw [Option.ite_none_left_eq_some] at hkind
  obtain ⟨field, hfield, hkind⟩ := Option.map_eq_some_iff.1 hkind.2
  have hmodule : ((env.field (lower t.tag.name.head)).filter fun f => f.kind == "link") = some field :=
    Option.filter_eq_some_iff.2 ⟨hfield, beq_iff_eq.2 hkind⟩
  unfold isLinkPath at hpath
  unfold SectionEnv.linkPath SectionEnv.moduleLink
  rw [hmodule]
  dsimp only
  cases hp : t.tag.name.path with
  | nil =>
    rw [hp] at hpath
    cases hpath
  | cons key rest =>
    rw [hp] at hpath
    cases rest with
    | cons key' rest => cases hpath
    | nil =>
      cases parseLinkFieldValue (field.stored env.values (lower t.tag.name.head)) with
      | none => exact ⟨_, rfl⟩
      | some link =>
        dsimp only at hpath ⊢
        rw [LINK_VALUE_KEYS, List.contains_eq_mem, decide_eq_true_iff, List.mem_cons, List.mem_cons, List.mem_singleton] at hpath
        rw [linkKey.eq_def]
        rcases hpath with hkey | hkey | hkey
        · exact ⟨_, by simp only [linkValue, List.isEmpty_nil, if_true, hkey]; rfl⟩
        · exact ⟨_, by simp only [linkValue, List.isEmpty_nil, if_true, hkey]; rfl⟩
        · exact ⟨_, by simp only [linkValue, List.isEmpty_nil, if_true, hkey]; rfl⟩

/-- Every path that the renderer reads from a module field outside of entries has been compared with the field by the
check, or the field answers it. -/
def ReadsChecked (input : RenderTemplateInput) : Prop :=
  ∀ name ∈ pathsRead input.toSectionEnv (parse (chars (stripCdataGuards input.html))),
    name.dotted = true → isContextHead name = false → input.isField name.head = true →
      Compared input.fields input.html name ∨ ∃ v, input.linkPath name = .value v

/-- A template without problems renders without an unknown path into a module field, outside of entries, exactly when
the check has compared what the renderer reads there. -/
theorem fieldPathProblems_sound_iff {mustache : Mustache} {key : List Char} {input : RenderTemplateInput}
    {out : RenderTemplateOutput} (h : renderTemplate mustache key input = some out)
    (hcheck : fieldPathProblems input.fields input.html = []) :
    (∀ p, Marker.fieldPathUnknown none p ∈ out.missingSlots → input.isField (pathHead p) = false) ↔ ReadsChecked input := by
  have hhead : ∀ name ∈ pathsRead input.toSectionEnv (parse (chars (stripCdataGuards input.html))),
      pathHead name.text = name.head := by
    intro name hname
    obtain ⟨t, ht, rfl⟩ := pathsRead_nodesIn hname
    exact pathHead_text (head_of_tokenize ht)
  refine ⟨fun hsound name hname hdotted hcontext hfield => ?_, fun hreads p hp => ?_⟩
  · by_contra hno
    rw [not_or, not_exists] at hno
    have hloses : input.loses name = true := by
      rw [SectionEnv.loses, hdotted, hcontext]
      cases hlink : input.linkPath name with
      | unknown =>
        rw [SectionEnv.isField] at hfield
        exact Bool.or_eq_true_iff.2 (Or.inl hfield)
      | missing => rfl
      | value v => exact absurd hlink (hno.2 v)
    have hmarker := hsound name.text ((renderTemplate_tells h _).2 ⟨name, hname, hloses, rfl⟩)
    rw [hhead name hname, hfield] at hmarker
    cases hmarker
  · obtain ⟨name, hname, hloses, rfl⟩ := (renderTemplate_tells h p).1 hp
    rw [hhead name hname]
    by_contra hfield
    obtain ⟨hdotted, hcontext⟩ := loses_dotted hloses
    have hvalue : ∃ v, input.linkPath name = .value v :=
      (hreads name hname hdotted hcontext (Bool.of_not_eq_false hfield)).elim (linkPath_of_checked hcheck) id
    obtain ⟨v, hv⟩ := hvalue
    rw [SectionEnv.loses, hv, Bool.and_false] at hloses
    cases hloses

def buttonInput (html : String) : RenderTemplateInput where
  fields := [⟨"cta", "link", none, none, none, none, none, none⟩, ⟨"cards", "module-list", none, none, none, none, none, none⟩]
  values := []
  partials := fun _ _ => none
  lists := none
  holder := none
  html := html.toList
  themeAssets := none
  linkResolver := none

theorem fieldPathProblems_sound_iff_button :
    (∀ p, Marker.fieldPathUnknown none p ∈ (buttonInput "\x7b\x7bcta.href\x7d\x7d").prepared.missing →
      (buttonInput "\x7b\x7bcta.href\x7d\x7d").isField (pathHead p) = false) ↔
        ReadsChecked (buttonInput "\x7b\x7bcta.href\x7d\x7d") := by
  have hcheck : fieldPathProblems (buttonInput "\x7b\x7bcta.href\x7d\x7d").fields (buttonInput "\x7b\x7bcta.href\x7d\x7d").html = [] := by
    decide +kernel
  have hrender : (renderTemplate (fun html _ => some html) [] (buttonInput "\x7b\x7bcta.href\x7d\x7d")).map (·.missingSlots) =
      some (buttonInput "\x7b\x7bcta.href\x7d\x7d").prepared.missing := by decide +kernel
  obtain ⟨out, hout, hmissing⟩ := Option.map_eq_some_iff.1 hrender
  rw [← hmissing]
  exact fieldPathProblems_sound_iff hout hcheck

/-- The block of an inverted section is skipped by the check, and rendered when there are no cards. -/
theorem fieldPathProblems_skips_inverted : ¬∀ (mustache : Mustache) (key : List Char) (input : RenderTemplateInput)
    (out : RenderTemplateOutput), renderTemplate mustache key input = some out →
      fieldPathProblems input.fields input.html = [] →
      ∀ p, Marker.fieldPathUnknown none p ∈ out.missingSlots → input.isField (pathHead p) = false := by
  intro h
  have hcheck : fieldPathProblems (buttonInput "\x7b\x7b^cards\x7d\x7d\x7b\x7bcta.label\x7d\x7d\x7b\x7b/cards\x7d\x7d").fields
      (buttonInput "\x7b\x7b^cards\x7d\x7d\x7b\x7bcta.label\x7d\x7d\x7b\x7b/cards\x7d\x7d").html = [] := by decide +kernel
  have hrender : (renderTemplate (fun html _ => some html) []
      (buttonInput "\x7b\x7b^cards\x7d\x7d\x7b\x7bcta.label\x7d\x7d\x7b\x7b/cards\x7d\x7d")).map (·.missingSlots) =
      some [.fieldPathUnknown none "cta.label"] := by decide +kernel
  obtain ⟨out, hout, hmissing⟩ := Option.map_eq_some_iff.1 hrender
  have hfield := h _ _ _ out hout hcheck "cta.label" (by rw [hmissing]; exact List.mem_singleton_self _)
  exact absurd hfield (by decide +kernel)

end CaeloCms.Template
