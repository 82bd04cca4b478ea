import CaeloCms.Template.Opaque

/-!
# Inputs that differ in their texts

Two inputs of one template whose stored values have the same form, and whose strings, list entries and partials are
related by `R`, are related for the passes of the engine (`SameBut.inputRel`), and so are the values that the library
finds in their views (`SameBut.view`).
-/

namespace CaeloCms.Template

open Link (parseLinkRef)

variable {R : List Char → List Char → Prop}

/-! ### Texts -/

/-- Texts that are the same but for stretches that are related. -/
inductive TextsRel (R : List Char → List Char → Prop) : List Char → List Char → Prop
  | nil : TextsRel R [] []
  | same {s s' : List Char} (c : Char) (h : TextsRel R s s') : TextsRel R (c :: s) (c :: s')
  | value {t t' s s' : List Char} (ht : R t t') (h : TextsRel R s s') : TextsRel R (t ++ s) (t' ++ s')

namespace TextsRel

theorem refl (s : List Char) : TextsRel R s s := by
  induction s with
  | nil => exact .nil
  | cons c s ih => exact .same c ih

theorem append {s s' t t' : List Char} (h : TextsRel R s s') (ht : TextsRel R t t') : TextsRel R (s ++ t) (s' ++ t') := by
  induction h with
  | nil => exact ht
  | same c _ ih => exact .same c ih
  | value hv _ ih =>
    rw [List.append_assoc, List.append_assoc]
    exact .value hv ih

theorem of_rel {t t' : List Char} (h : R t t') : TextsRel R t t' := by
  have hvalue := TextsRel.value h .nil
  rw [List.append_nil, List.append_nil] at hvalue
  exact hvalue

theorem of_text {s s' : String} (h : TextRel R s s') : TextsRel R s.toList s'.toList := by
  rcases h.text with rfl | hr
  · exact refl _
  · exact of_rel hr

theorem flatMap {α β : Type} {Q : α → β → Prop} {f : α → List Char} {g : β → List Char} {as : List α} {bs : List β}
    (h : List.Forall₂ Q as bs) (hfg : ∀ a b, Q a b → TextsRel R (f a) (g b)) : TextsRel R (as.flatMap f) (bs.flatMap g) := by
  induction h with
  | nil => exact .nil
  | cons hab _ ih =>
    rw [List.flatMap_cons, List.flatMap_cons]
    exact (hfg _ _ hab).append ih

end TextsRel

/-! ### Values -/

mutual

/-- Values of one form, with related strings. -/
inductive JsonRel (R : List Char → List Char → Prop) : Json → Json → Prop
  | null : JsonRel R .null .null
  | bool (b : Bool) : JsonRel R (.bool b) (.bool b)
  | num (t : String) : JsonRel R (.num t) (.num t)
  | str {s s' : String} (h : TextRel R s s') : JsonRel R (.str s) (.str s')
  | arr {vs vs' : List Json} (h : ItemsRel R vs vs') : JsonRel R (.arr vs) (.arr vs')
  | obj {fs fs' : List (String × Json)} (h : FieldsRel R fs fs') : JsonRel R (.obj fs) (.obj fs')

inductive ItemsRel (R : List Char → List Char → Prop) : List Json → List Json → Prop
  | nil : ItemsRel R [] []
  | cons {v v' : Json} {vs vs' : List Json} (h : JsonRel R v v') (hs : ItemsRel R vs vs') : ItemsRel R (v :: vs) (v' :: vs')

inductive FieldsRel (R : List Char → List Char → Prop) : List (String × Json) → List (String × Json) → Prop
  | nil : FieldsRel R [] []
  | cons {v v' : Json} {fs fs' : List (String × Json)} (k : String) (h : JsonRel R v v') (hs : FieldsRel R fs fs') :
    FieldsRel R ((k, v) :: fs) ((k, v') :: fs')

end

mutual

theorem JsonRel.refl : ∀ v : Json, JsonRel R v v
  | .null => .null
  | .bool b => .bool b
  | .num t => .num t
  | .str s => .str (.refl s)
  | .arr vs => .arr (ItemsRel.refl vs)
  | .obj fs => .obj (FieldsRel.refl fs)

theorem ItemsRel.refl : ∀ vs : List Json, ItemsRel R vs vs
  | [] => .nil
  | v :: vs => .cons (JsonRel.refl v) (ItemsRel.refl vs)

theorem FieldsRel.refl : ∀ fs : List (String × Json), FieldsRel R fs fs
  | [] => .nil
  | (k, v) :: fs => .cons k (JsonRel.refl v) (FieldsRel.refl fs)

end

/-- Values that are there or not, alike. -/
abbrev StoredJsonRel (R : List Char → List Char → Prop) : Option Json → Option Json → Prop := Option.Rel (JsonRel R)

theorem StoredJsonRel.refl (v : Option Json) : StoredJsonRel R v v := by
  cases v with
  | none => exact .none
  | some v => exact .some (JsonRel.refl v)

theorem FieldsRel.find {fs fs' : List (String × Json)} (h : FieldsRel R fs fs') (name : String) :
    StoredJsonRel R ((fs.find? fun p => p.1 == name).map (·.2)) ((fs'.find? fun p => p.1 == name).map (·.2)) := by
  induction fs generalizing fs' with
  | nil =>
    cases h
    exact .none
  | cons p fs ih =>
    cases h with
    | cons k hv hs =>
      rw [List.find?_cons, List.find?_cons]
      cases hk : k == name with
      | true => exact .some hv
      | false => exact ih hs

theorem JsonRel.stringField {v v' : Json} (h : JsonRel R v v') (name : String) :
    Option.Rel (TextRel R) (v.stringField name) (v'.stringField name) := by
  cases h with
  | obj hs =>
    have hfind := hs.find name
    unfold Json.stringField Json.field
    dsimp only
    revert hfind
    generalize (List.find? _ _).map _ = x
    generalize (List.find? _ _).map _ = x'
    intro hfind
    cases hfind with
    | none => exact .none
    | some hv =>
      cases hv with
      | str ht => exact .some ht
      | _ => exact .none
  | _ => exact .none

theorem JsonRel.isRef {v v' : Json} (h : JsonRel R v v') : (Nested.nestedRef v).isSome = (Nested.nestedRef v').isSome := by
  have hmodule := h.stringField "moduleId"
  have hcontent := h.stringField "contentInstanceId"
  unfold Nested.nestedRef
  revert hmodule hcontent
  generalize v.stringField "moduleId" = x
  generalize v'.stringField "moduleId" = x'
  generalize v.stringField "contentInstanceId" = y
  generalize v'.stringField "contentInstanceId" = y'
  intro hmodule hcontent
  cases hmodule with
  | none => rfl
  | some _ => cases hcontent <;> rfl

theorem ItemsRel.refs {vs vs' : List Json} (h : ItemsRel R vs vs') :
    (vs.map fun v => (Nested.nestedRef v).isSome) = vs'.map fun v => (Nested.nestedRef v).isSome := by
  induction vs generalizing vs' with
  | nil =>
    cases h
    rfl
  | cons v vs ih =>
    cases h with
    | cons hv hs => rw [List.map_cons, List.map_cons, hv.isRef, ih hs]

theorem StoredJsonRel.stored {v v' : Option Json} (h : StoredJsonRel R v v') : StoredRel R v v' := by
  cases h with
  | none => exact ⟨rfl, .refl _, rfl⟩
  | some h =>
    cases h with
    | null => exact ⟨rfl, .refl _, rfl⟩
    | bool b => exact ⟨rfl, .refl _, rfl⟩
    | num t => exact ⟨rfl, .refl _, rfl⟩
    | str ht => exact ⟨ht.blank, ht, rfl⟩
    | arr hs =>
      refine ⟨?_, .refl _, hs.refs⟩
      cases hs <;> rfl
    | obj hs =>
      refine ⟨?_, .refl _, rfl⟩
      cases hs <;> rfl

theorem StoredJsonRel.slotRef {v v' : Option Json} (h : StoredJsonRel R v v') : slotRef v = slotRef v' := by
  cases h with
  | none => rfl
  | some h =>
    have href := h.isRef
    cases h with
    | null => rfl
    | _ => exact congrArg some href

/-! ### Links -/

structure LinkFieldRel (R : List Char → List Char → Prop) (v v' : LinkFieldValue) : Prop where
  href : TextRel R v.href v'.href
  target : Option.Rel (TextRel R) v.target v'.target

theorem StoredJsonRel.link {v v' : Option Json} (h : StoredJsonRel R v v') :
    Option.Rel (LinkFieldRel R) (parseLinkFieldValue v) (parseLinkFieldValue v') := by
  cases h with
  | none => exact .some ⟨.refl _, .none⟩
  | some h =>
    cases h with
    | null => exact .some ⟨.refl _, .none⟩
    | bool b => exact .none
    | num t => exact .none
    | str ht => exact .some ⟨ht, .none⟩
    | arr hs => exact .none
    | obj hs =>
      have hobj : JsonRel R (.obj _) (.obj _) := .obj hs
      have hhref := hobj.stringField "href"
      have htarget := hobj.stringField "target"
      unfold parseLinkFieldValue
      dsimp only
      revert hhref
      generalize Json.stringField "href" _ = x
      generalize Json.stringField "href" _ = x'
      intro hhref
      cases hhref with
      | none => exact .none
      | some hh => exact .some ⟨hh, htarget⟩

def SameTargets (R : List Char → List Char → Prop) : Prop :=
  ∀ s s' : String, R s.toList s'.toList → parseLinkRef s = parseLinkRef s'

theorem linkValue_rel (hR : SameTargets R) (titles : String → Option String) {v v' : LinkFieldValue}
    (h : LinkFieldRel R v v') : ValueRel R (linkValue titles v) (linkValue titles v') := by
  have hempty : (v.href = "") = (v'.href = "") := propext h.href.empty
  have htarget : TextRel R (v.target.getD "") (v'.target.getD "") := by
    have ht := h.target
    revert ht
    generalize v.target = x
    generalize v'.target = x'
    intro ht
    cases ht with
    | none => exact .refl _
    | some ht => exact ht
  have hparse : parseLinkRef v.href = parseLinkRef v'.href := by
    rcases h.href.text with heq | hr
    · rw [heq]
    · exact hR _ _ hr
  have hpresent : (decide (v.href ≠ "")) = decide (v'.href ≠ "") := by
    simp only [ne_eq, hempty]
  unfold linkValue
  rw [hpresent]
  simp only [hempty, hparse]
  exact .record _ (.some h.href) (.cons _ (.text h.href) (.cons _ (.text htarget) (.cons _ (.text (.refl _)) .nil)))

/-! ### Inputs -/

structure ListsRel (R : List Char → List Char → Prop) (lists lists' : ListPageContext) : Prop
    extends ContextRel R lists lists' where
  titles : lists.titles = lists'.titles
  resolved : ∀ spec v v' holder, StoredJsonRel R v v' →
    ResolutionRel R (lists.resolveField spec v holder) (lists'.resolveField spec v' holder)

structure SameBut (R : List Char → List Char → Prop) (input input' : RenderTemplateInput) : Prop where
  html : input.html = input'.html
  fields : input.fields = input'.fields
  assets : input.themeAssets = input'.themeAssets
  holder : input.holder = input'.holder
  values : FieldsRel R input.values input'.values
  partials : ∀ key ref, Option.Rel R (input.partials key ref) (input'.partials key ref)
  lists : Option.Rel (ListsRel R) input.lists input'.lists

theorem stored_rel {values values' : Values} (h : FieldsRel R values values') (f : TemplateField) (name : String) :
    StoredJsonRel R (f.stored values name) (f.stored values' name) := by
  have hfind := h.find name
  unfold TemplateField.stored Values.own
  revert hfind
  generalize (List.find? _ values).map _ = x
  generalize (List.find? _ values').map _ = x'
  intro hfind
  cases hfind with
  | none => exact .refl _
  | some hv => exact .some hv

namespace SameBut

variable {input input' : RenderTemplateInput}

theorem moduleLink (hR : SameTargets R) (h : SameBut R input input') (head : String) :
    Option.Rel (ValueRel R) (input.moduleLink head) (input'.moduleLink head) := by
  have htitles : (input.lists.map (·.titles)).getD (fun _ => none) = (input'.lists.map (·.titles)).getD fun _ => none := by
    have hlists := h.lists
    revert hlists
    generalize input.lists = x
    generalize input'.lists = x'
    intro hlists
    cases hlists with
    | none => rfl
    | some hl => exact hl.titles
  unfold SectionEnv.moduleLink SectionEnv.field
  rw [← h.fields, htitles]
  cases (fieldNamed input.fields head).filter fun f => f.kind == "link" with
  | none => exact .none
  | some f =>
    have hlink := (stored_rel h.values f head).link
    dsimp only
    revert hlink
    generalize parseLinkFieldValue (f.stored input.values head) = x
    generalize parseLinkFieldValue (f.stored input'.values head) = x'
    intro hlink
    cases hlink with
    | none => exact .some (.failed _)
    | some hv => exact .some (linkValue_rel hR _ hv)

theorem envRel (hR : SameTargets R) (h : SameBut R input input') : EnvRel R input.toSectionEnv input'.toSectionEnv where
  fields := h.fields
  partials := h.partials
  link := h.moduleLink hR
  stored := fun f name => (stored_rel h.values f name).stored
  slot := fun name => (h.values.find name).slotRef
  lists := by
    have hlists := h.lists
    revert hlists
    generalize input.lists = x
    generalize input'.lists = x'
    intro hlists
    cases hlists with
    | none => exact .none
    | some hl => exact .some hl.toContextRel
  resolved := by
    intro lists lists' hl hl' spec name
    have hlists := h.lists
    rw [hl, hl'] at hlists
    cases hlists with
    | some hlists =>
      rw [← h.holder]
      exact hlists.resolved _ _ _ _ (h.values.find name)

end SameBut

/-! ### Views -/

def ViewRel (R : List Char → List Char → Prop) (view view' : View) : Prop :=
  ∀ name, StoredJsonRel R (view name) (view' name)

namespace ViewRel

variable {view view' : View}

theorem update (h : ViewRel R view view') (name : String) {v v' : Option Json} (hv : StoredJsonRel R v v') :
    ViewRel R (Function.update view name v) (Function.update view' name v') := by
  intro other
  by_cases hother : other = name
  · rw [hother, Function.update_self, Function.update_self]
    exact hv
  · rw [Function.update_of_ne hother, Function.update_of_ne hother]
    exact h other

theorem isSome (h : ViewRel R view view') (name : String) : (view name).isSome = (view' name).isSome := by
  have hname := h name
  revert hname
  generalize view name = x
  generalize view' name = x'
  intro hname
  cases hname <;> rfl

theorem foldl {α : Type} {f f' : View → α → View} (hf : ∀ view view' a, ViewRel R view view' → ViewRel R (f view a) (f' view' a))
    (as : List α) (h : ViewRel R view view') : ViewRel R (as.foldl f view) (as.foldl f' view') := by
  induction as generalizing view view' with
  | nil => exact h
  | cons a as ih => exact ih (hf _ _ a h)

end ViewRel

theorem ViewRel.foldl_fields {f f' : View → String × Json → View}
    (hf : ∀ view view' k v v', JsonRel R v v' → ViewRel R view view' → ViewRel R (f view (k, v)) (f' view' (k, v')))
    {values values' : Values} (h : FieldsRel R values values') {view view' : View} (hview : ViewRel R view view') :
    ViewRel R (values.foldl f view) (values'.foldl f' view') := by
  induction values generalizing values' view view' with
  | nil =>
    cases h
    exact hview
  | cons p values ih =>
    cases h with
    | cons k hv hs =>
      rw [List.foldl_cons, List.foldl_cons]
      exact ih hs (hf _ _ k _ _ hv hview)

theorem storedView_rel {values values' : Values} (h : FieldsRel R values values') :
    ViewRel R (storedView values) (storedView values') := by
  unfold storedView
  refine ViewRel.foldl_fields ?_ h fun _ => .none
  intro view view' k v v' hv hview
  refine hview.update _ (.some ?_)
  cases hv with
  | null => exact JsonRel.refl _
  | bool b => exact .bool b
  | num t => exact .num t
  | str ht => exact .str ht
  | arr hs => exact .arr hs
  | obj hs => exact .obj hs

theorem addDefault_rel {view view' : View} (f : TemplateField) (h : ViewRel R view view') :
    ViewRel R (addDefault view f) (addDefault view' f) := by
  unfold addDefault
  rw [h.isSome]
  split
  · exact h
  · cases f.default with
    | none => exact h
    | some v =>
      cases v with
      | null => exact h
      | _ => exact h.update _ (.refl _)

theorem flattenLink_rel {view view' : View} (f : TemplateField) (h : ViewRel R view view') :
    ViewRel R (flattenLink view f) (flattenLink view' f) := by
  unfold flattenLink
  split
  · have hname := h (lower f.name)
    revert hname
    generalize view (lower f.name) = x
    generalize view' (lower f.name) = x'
    intro hname
    cases hname with
    | none => exact h
    | some hv =>
      cases hv with
      | obj hs =>
        have hlink : Option.Rel (LinkFieldRel R) (parseLinkFieldValue (some (.obj _))) (parseLinkFieldValue (some (.obj _))) :=
          StoredJsonRel.link (.some (.obj hs))
        dsimp only
        revert hlink
        generalize parseLinkFieldValue _ = y
        generalize parseLinkFieldValue _ = y'
        intro hlink
        cases hlink with
        | none => exact h
        | @some link link' hl =>
          refine h.update _ ?_
          by_cases hempty : link.href = ""
          · rw [if_pos hempty, if_pos (hl.href.empty.1 hempty)]
            exact .none
          · rw [if_neg hempty, if_neg (mt hl.href.empty.2 hempty)]
            exact .some (.str hl.href)
      | _ => exact h
  · exact h

theorem addAsset_rel (assets : ThemeAssets) {view view' : View} (p : String × String) (h : ViewRel R view view') :
    ViewRel R (addAsset assets view p) (addAsset assets view' p) := by
  unfold addAsset
  cases assets.url p.2 with
  | none => exact h
  | some url =>
    have hnone : (view p.1).isNone = (view' p.1).isNone := by
      rw [← Option.not_isSome, ← Option.not_isSome, h.isSome]
    dsimp only
    rw [hnone]
    split
    · exact h.update _ (.refl _)
    · exact h

namespace SameBut

variable {input input' : RenderTemplateInput}

theorem view (h : SameBut R input input') : ViewRel R input.view input'.view := by
  have hfields : ViewRel R (input.fields.foldl flattenLink (input.fields.foldl addDefault (storedView input.values)))
      (input'.fields.foldl flattenLink (input'.fields.foldl addDefault (storedView input'.values))) := by
    rw [← h.fields]
    exact .foldl (fun _ _ f => flattenLink_rel f) _ (.foldl (fun _ _ f => addDefault_rel f) _ (storedView_rel h.values))
  unfold RenderTemplateInput.view
  dsimp only
  rw [← h.assets]
  cases input.themeAssets with
  | none => exact hfields
  | some assets => exact hfields.foldl (fun _ _ p => addAsset_rel assets p) _

theorem inputRel (hR : SameTargets R) (h : SameBut R input input') : InputRel R input input' :=
  ⟨h.envRel hR, h.html, fun name => h.view.isSome name⟩

end SameBut

end CaeloCms.Template
