import CaeloCms.Template.Engine

/-!
# Partials that are not there

An ask for a partial that the caller does not have comes with a marker, so a render without markers asks for partials
that are there only (`asked_of_missing_nil`).
-/

namespace CaeloCms.Template

/-- Where nothing is reported, the partials asked for are there. -/
def Answered (env : SectionEnv) (o : Out) : Prop :=
  o.missing = [] → ∀ a ∈ o.asks, (env.partials a.key a.ref).isSome = true

namespace Answered

variable {env : SectionEnv}

theorem of_asks_nil {o : Out} (h : o.asks = []) : Answered env o := by
  intro _ a ha
  rw [h] at ha
  cases ha

theorem append {o o' : Out} (h : Answered env o) (h' : Answered env o') : Answered env (o ++ o') := by
  intro hmissing a ha
  obtain ⟨hnil, hnil'⟩ := List.append_eq_nil_iff.1 hmissing
  rcases List.mem_append.1 ha with ha | ha
  · exact h hnil a ha
  · exact h' hnil' a ha

theorem concat {os : List Out} (h : ∀ o ∈ os, Answered env o) : Answered env (Out.concat os) := by
  induction os with
  | nil => exact of_asks_nil rfl
  | cons o os ih => exact (h o List.mem_cons_self).append (ih fun o ho => h o (List.mem_cons_of_mem _ ho))

theorem stamped {o : Out} (h : Answered env o) (attr : Option String) : Answered env (o.stamped attr) := by
  cases attr with
  | none => exact h
  | some attr => exact h

theorem closed : Out.Closed (Answered env) :=
  ⟨of_asks_nil rfl, of_asks_nil rfl, fun _ _ h h' => h.append h', fun _ attr h => h.stamped attr⟩

/-- A partial, pasted in when it is there and reported when it is not. -/
theorem partial_ (key : String) (ref : Option Nested.NestedRefValue) (html : List Sym) (marker : Marker) :
    Answered env (match env.partials key ref with
      | none => ⟨html, [marker], [⟨key, ref⟩]⟩
      | some html => ⟨mkSentinel (chars html), [], [⟨key, ref⟩]⟩) := by
  cases h : env.partials key ref with
  | none =>
    intro hmissing
    cases hmissing
  | some html' =>
    intro _ a ha
    rw [List.mem_singleton.1 ha, h]
    rfl

end Answered

section Render

variable {env : SectionEnv} {st : RenderState}

theorem valueText_asks (v : ScopeValue) (source : List Sym) (name : Name) (st : RenderState) :
    (valueText v source name st).asks = [] := by
  cases v with
  | record text present parts => cases text <;> rfl
  | _ => rfl

theorem fieldTag_asks (t : Tag) (source : List Sym) (st : RenderState) : (fieldTag env t source st).asks = [] := by
  unfold fieldTag
  cases env.linkPath t.name with
  | unknown =>
    dsimp only
    split
    · split
      · rfl
      · split <;> rfl
    · split <;> rfl
  | missing => rfl
  | value v =>
    dsimp only
    split
    · split <;> rfl
    · exact valueText_asks v source t.name st

theorem valueTag_asks (t : Tag) (source : List Sym) (st : RenderState) : (valueTag env t source st).asks = [] := by
  unfold valueTag
  split
  · rfl
  · cases env.lookup t.name st with
    | unknown => exact fieldTag_asks t source st
    | missing => rfl
    | value v => exact valueText_asks v source t.name st

theorem plainTag_asks (t : Tag) (source : List Sym) (st : RenderState) : (plainTag env t source st).asks = [] := by
  unfold plainTag
  split
  · cases st.dot with
    | none => exact valueTag_asks t source st
    | some dot => rfl
  · exact valueTag_asks t source st

theorem entryPartial_answered (id : String) (v : ScopeValue) (name : Name) (source : List Sym) (st : RenderState) :
    Answered env (entryPartial env id v name source st) := by
  unfold entryPartial
  cases v with
  | module ref => exact .partial_ _ _ _ _
  | text text =>
    dsimp only
    split
    · exact .of_asks_nil rfl
    · exact .of_asks_nil rfl
  | _ => exact .of_asks_nil rfl

theorem renderTag_answered (hagain : Answered env st.again) (t : Tag) (source : List Sym) :
    Answered env (renderTag env t source st) := by
  have hpartial : Answered env (partialTag env t source st) := by
    unfold partialTag
    cases st.chain with
    | nil => exact .of_asks_nil rfl
    | cons frame fs =>
      dsimp only
      split
      · exact hagain
      · cases env.lookup t.name st with
        | unknown =>
          dsimp only
          split
          · exact .of_asks_nil rfl
          · exact .of_asks_nil rfl
        | missing => exact .of_asks_nil rfl
        | value v => exact entryPartial_answered _ v t.name source st
  unfold renderTag
  cases t.sigil with
  | angle => exact hpartial
  | none => exact .of_asks_nil (plainTag_asks t source st)
  | _ => exact .of_asks_nil rfl

theorem renderText_answered (s : List Sym) (st : RenderState) : Answered env (renderText s st) := by
  unfold renderText
  cases st.dot with
  | none => exact .of_asks_nil rfl
  | some dot => exact .of_asks_nil rfl

theorem renderModuleList_answered (name : String) (field : TemplateField) : Answered env (renderModuleList env name field) := by
  refine .concat fun o ho => ?_
  obtain ⟨p, -, rfl⟩ := List.mem_map.1 ho
  unfold renderElement
  cases Nested.nestedRef p.1 with
  | none => exact .of_asks_nil rfl
  | some ref => exact .partial_ _ _ _ _

/-! ### Sections -/

section Sections

variable {body : RenderState → Out} {t : Tag} {source : List Sym}

theorem entriesSection_answered (hagain : Answered env st.again)
    (hbody : ∀ st : RenderState, Answered env st.again → Answered env (body st)) (entries : List ScopeEntry) :
    Answered env (entriesSection t st body entries) := by
  unfold entriesSection
  split
  · split
    · exact hbody _ hagain
    · exact .of_asks_nil rfl
  · exact iterate_all Answered.closed (fun frame chain again h => hbody ⟨frame :: chain, none, again⟩ h) _ _

theorem scopeSection_answered (hagain : Answered env st.again)
    (hbody : ∀ st : RenderState, Answered env st.again → Answered env (body st)) (v : ScopeValue) :
    Answered env (scopeSection t source st body v) := by
  have hif : ∀ (b : Prop) [Decidable b], Answered env (if b then body st else .empty) := by
    intro b _
    split
    · exact hbody st hagain
    · exact .of_asks_nil rfl
  unfold scopeSection
  cases v with
  | failed marker => exact .of_asks_nil rfl
  | list entries => exact entriesSection_answered hagain hbody entries
  | module ref =>
    dsimp only
    split
    · exact .of_asks_nil rfl
    · exact hbody st hagain
  | _ => exact hif _

theorem resolvedSection_answered (hagain : Answered env st.again)
    (hbody : ∀ st : RenderState, Answered env st.again → Answered env (body st)) (res : ListFieldResolution) :
    Answered env (resolvedSection t source st body res) := by
  unfold resolvedSection
  cases res with
  | error marker => exact .of_asks_nil rfl
  | ok entries => exact entriesSection_answered hagain hbody entries

theorem conditional_answered (hagain : Answered env st.again)
    (hbody : ∀ st : RenderState, Answered env st.again → Answered env (body st)) (present : Bool) (dot : String) :
    Answered env (conditional t st body present dot) := by
  unfold conditional
  split
  · exact .of_asks_nil rfl
  · exact hbody _ hagain

theorem moduleSection_answered (hagain : Answered env st.again)
    (hbody : ∀ st : RenderState, Answered env st.again → Answered env (body st)) :
    Answered env (moduleSection env t source st body) := by
  unfold moduleSection
  dsimp only
  cases env.field t.name.head with
  | none =>
    dsimp only
    cases env.lists.bind fun lists => lists.pluginSource t.name.head with
    | none => exact .of_asks_nil rfl
    | some res => exact resolvedSection_answered hagain hbody res
  | some field =>
    dsimp only
    split
    · split
      · split
        · exact hbody _ hagain
        · exact .of_asks_nil rfl
      · exact renderModuleList_answered t.name.head field
    · split
      · cases env.lists with
        | none => exact .of_asks_nil rfl
        | some lists => exact resolvedSection_answered hagain hbody _
      · split
        · cases env.moduleLink t.name.head with
          | none => exact .of_asks_nil rfl
          | some v =>
            cases v with
            | record text present parts => exact conditional_answered hagain hbody present _
            | _ => exact .of_asks_nil rfl
        · exact conditional_answered hagain hbody _ _

theorem renderSection_answered (hagain : Answered env st.again)
    (hbody : ∀ st : RenderState, Answered env st.again → Answered env (body st)) :
    Answered env (renderSection env t source st body) := by
  unfold renderSection
  cases env.lookup t.name st with
  | missing => exact .of_asks_nil rfl
  | value v => exact scopeSection_answered hagain hbody v
  | unknown =>
    dsimp only
    split
    · cases env.linkPath t.name with
      | unknown => exact .of_asks_nil rfl
      | missing => exact .of_asks_nil rfl
      | value v => exact scopeSection_answered hagain hbody v
    · exact moduleSection_answered hagain hbody

end Sections

mutual

theorem renderNodes_answered : ∀ (ns : List Node) (st : RenderState), Answered env st.again →
    Answered env (renderNodes env ns st)
  | [], _, _ => .of_asks_nil rfl
  | n :: ns, st, hagain => (renderNode_answered n st hagain).append (renderNodes_answered ns st hagain)

theorem renderNode_answered : ∀ (n : Node) (st : RenderState), Answered env st.again → Answered env (renderNode env n st)
  | .text s, st, _ => renderText_answered s st
  | .tag t source, _, hagain => renderTag_answered hagain t source
  | .block _ _ body, _, hagain => renderSection_answered hagain (renderNodes_answered body)

end

theorem renderSections_answered (html : List Sym) : Answered env (renderSections env html) := by
  unfold renderSections
  dsimp only
  split
  · exact .of_asks_nil rfl
  · split
    · exact .of_asks_nil rfl
    · exact renderNodes_answered _ _ (.of_asks_nil rfl)

end Render

/-! ### The engine -/

theorem renderPartialRef_answered {env : SectionEnv} (name : String) (source : List Sym) :
    Answered env (renderPartialRef env name source) := by
  unfold renderPartialRef
  cases env.field name with
  | none => exact .of_asks_nil rfl
  | some field =>
    dsimp only
    split
    · exact .of_asks_nil rfl
    · cases slotRef (env.values.own name) with
      | none => exact .of_asks_nil rfl
      | some b =>
        cases b with
        | false => exact .of_asks_nil rfl
        | true => exact .partial_ _ _ _ _

theorem replaceOut_answered {env : SectionEnv} {α : Type} {m : List Sym → List Sym → Option (α × Nat)}
    {f : α → List Sym → Out} (hf : ∀ a source, Answered env (f a source)) (html : List Sym) :
    Answered env (replaceOut m f html) := by
  refine .concat fun o ho => ?_
  obtain ⟨p, -, rfl⟩ := List.mem_map.1 ho
  cases p with
  | plain c => exact .of_asks_nil rfl
  | found a source => exact hf a source

theorem renderPrimitive_answered (input : RenderTemplateInput) (name : String) (source : List Sym) :
    Answered input.toSectionEnv (renderPrimitive input name source) := by
  unfold renderPrimitive
  split
  · exact .of_asks_nil rfl
  · cases assetSlot (lower name) with
    | some slot => exact .of_asks_nil rfl
    | none =>
      dsimp only
      split
      · exact .of_asks_nil rfl
      · exact .of_asks_nil rfl

theorem andThen_answered {env : SectionEnv} {o : Out} (ho : Answered env o) {pass : List Sym → Out}
    (hpass : ∀ html, Answered env (pass html)) : Answered env (o.andThen pass) := by
  intro hmissing a ha
  obtain ⟨hnil, hnil'⟩ := List.append_eq_nil_iff.1 hmissing
  rcases List.mem_append.1 ha with ha | ha
  · exact ho hnil a ha
  · exact hpass _ hnil' a ha

theorem substituted_answered (input : RenderTemplateInput) : Answered input.toSectionEnv input.substituted := by
  unfold RenderTemplateInput.substituted
  refine andThen_answered (andThen_answered ?_ ?_) ?_
  · exact renderSections_answered _
  · exact fun html => replaceOut_answered renderPartialRef_answered html
  · exact fun html => replaceOut_answered (renderPrimitive_answered input) html

theorem prepared_answered (input : RenderTemplateInput) : Answered input.toSectionEnv input.prepared := by
  intro hmissing a ha
  exact substituted_answered input hmissing a ha

end CaeloCms.Template
