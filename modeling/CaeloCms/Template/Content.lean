import CaeloCms.Template.SameTexts

/-!
# Content is not read as template

With a library that replaces the plain tags it is given and nothing else, what a render pastes in comes out as it is
and changes nothing around it, whatever it says (`content_opaque`).  The one exception is a literal tag with something
pasted in between its braces: its sentinel stands for a text with a sentinel, and sentinels are replaced once.
-/

namespace CaeloCms.Template

open Link (resolveLinkRefsInHtml)

variable {R : List Char → List Char → Prop}

/-! ### The library -/

mutual

/-- `Mustache.escape(v)`, that is `String(v)` with nothing for `null`. -/
def jsString : Json → List Char
  | .null => []
  | .bool b => (if b then "true" else "false").toList
  | .num t => t.toList
  | .str s => s.toList
  | .arr items => joinItems items
  | .obj _ => "[object Object]".toList

def joinItems : List Json → List Char
  | [] => []
  | [v] => jsString v
  | v :: vs => jsString v ++ ',' :: joinItems vs

end

/-- The plain tags replaced by the values of their names. -/
def putPlain (view : View) (html : List Sym) : List Sym :=
  Scan.replace matchPrimitive (fun name _ => chars (((view name).map jsString).getD [])) [] html

/-- The library replaces exactly the plain tags it is given. -/
def PutsPlain (mustache : Mustache) : Prop := ∀ html view, mustache html view = some (putPlain view html)

/-- What such a library gives for the text handed to it. -/
def RenderTemplateInput.written (input : RenderTemplateInput) : List Sym := putPlain input.view input.prepared.html

/-! ### What sentinels stand for -/

mutual

/-- The text with each sentinel replaced by what it stands for, also inside of what another one stands for. -/
def unmask : List Sym → List Char
  | [] => []
  | x :: s => x.unmask ++ unmask s

def Sym.unmask : Sym → List Char
  | .char c => [c]
  | .mask original => Template.unmask original

end

/-- A text without sentinels. -/
def IsChars (s : List Sym) : Prop := ∃ cs, s = chars cs

/-- No sentinel stands for a text with a sentinel. -/
def Flat (s : List Sym) : Prop := ∀ x ∈ s, ∀ original, x = .mask original → IsChars original

variable {s t s' : List Sym}

theorem isChars_iff : IsChars s ↔ ∀ x ∈ s, ∃ c, x = .char c := by
  refine ⟨?_, fun h => ?_⟩
  · rintro ⟨cs, rfl⟩ x hx
    obtain ⟨c, -, rfl⟩ := List.mem_map.1 hx
    exact ⟨c, rfl⟩
  · induction s with
    | nil => exact ⟨[], rfl⟩
    | cons x s ih =>
      obtain ⟨c, rfl⟩ := h x List.mem_cons_self
      obtain ⟨cs, rfl⟩ := ih fun y hy => h y (List.mem_cons_of_mem _ hy)
      exact ⟨c :: cs, rfl⟩

theorem unmask_eq (s : List Sym) : unmask s = s.flatMap Sym.unmask := by
  induction s with
  | nil => rfl
  | cons x s ih => rw [unmask, ih, List.flatMap_cons]

theorem flatMap_chars {f : Sym → List Char} (hf : ∀ c, f (.char c) = [c]) (cs : List Char) : (chars cs).flatMap f = cs := by
  induction cs with
  | nil => rfl
  | cons c cs ih =>
    rw [chars, List.map_cons, List.flatMap_cons, hf]
    exact congrArg (c :: ·) ih

theorem restore_eq (key : List Char) (s : List Sym) : restore key s = s.flatMap fun x => match x with
    | .char c => [c]
    | .mask original => original.flatMap (Sym.text key) := rfl

/-- Replacing sentinels once replaces them all exactly when none is inside another, given a key that nothing else says. -/
theorem restore_eq_unmask_iff {key : List Char} (hkey : ¬key <:+: unmask s) :
    restore key s = unmask s ↔ Flat s := by
  refine ⟨fun heq x hx original hmask => ?_, fun hflat => ?_⟩
  · subst hmask
    by_contra hchars
    obtain ⟨y, hy, hno⟩ : ∃ y ∈ original, ¬∃ c, y = .char c := by
      by_contra hall
      exact hchars (isChars_iff.2 fun y hy => by_contra fun hno => hall ⟨y, hy, hno⟩)
    have hinner : key <:+: original.flatMap (Sym.text key) := by
      obtain ⟨a, b, rfl⟩ := List.append_of_mem hy
      cases y with
      | char c => exact absurd ⟨c, rfl⟩ hno
      | mask inner =>
        rw [List.flatMap_append, List.flatMap_cons]
        exact ⟨_, _, (List.append_assoc _ _ _)⟩
    have houter : original.flatMap (Sym.text key) <:+: restore key s := by
      obtain ⟨a, b, rfl⟩ := List.append_of_mem hx
      rw [restore_eq, List.flatMap_append, List.flatMap_cons]
      exact ⟨_, _, (List.append_assoc _ _ _)⟩
    rw [heq] at houter
    exact hkey (hinner.trans houter)
  · rw [restore_eq, unmask_eq]
    refine List.flatMap_congr fun x hx => ?_
    cases x with
    | char c => rfl
    | mask original =>
      obtain ⟨cs, rfl⟩ := hflat _ hx original rfl
      dsimp only
      rw [Sym.unmask, unmask_eq, flatMap_chars fun c => rfl, flatMap_chars fun c => rfl]

/-! ### Flat texts -/

theorem flat_chars (cs : List Char) : Flat (chars cs) := by
  intro x hx original hmask
  obtain ⟨c, -, rfl⟩ := List.mem_map.1 hx
  cases hmask

theorem IsChars.flat (h : IsChars s) : Flat s := by
  obtain ⟨cs, rfl⟩ := h
  exact flat_chars cs

theorem Flat.append (hs : Flat s) (ht : Flat t) : Flat (s ++ t) := by
  intro x hx
  rcases List.mem_append.1 hx with hx | hx
  · exact hs x hx
  · exact ht x hx

theorem Flat.sublist (ht : Flat t) (h : s ⊆ t) : Flat s := fun x hx => ht x (h hx)

theorem Flat.single (ht : Flat t) {x : Sym} (hx : x ∈ t) : Flat [x] :=
  ht.sublist fun y hy => by rw [List.mem_singleton.1 hy]; exact hx

theorem flat_mkSentinel : Flat (mkSentinel s) ↔ IsChars s := by
  refine ⟨fun h => h _ List.mem_cons_self s rfl, fun h x hx original hmask => ?_⟩
  rw [List.mem_singleton.1 hx, Sym.mask.injEq] at hmask
  rw [← hmask]
  exact h

theorem flat_pasted (text : String) : Flat (pasted text) := by
  unfold pasted
  split
  · exact flat_chars []
  · exact flat_mkSentinel.2 ⟨_, rfl⟩

theorem flat_flatMap {α : Type} {f : α → List Sym} {as : List α} (h : ∀ a ∈ as, Flat (f a)) : Flat (as.flatMap f) := by
  intro x hx
  obtain ⟨a, ha, hx⟩ := List.mem_flatMap.1 hx
  exact h a ha x hx

theorem flat_stamped {o : Out} (h : Flat o.html) (attr : Option String) : Flat (o.stamped attr).html := by
  cases attr with
  | none => exact h
  | some attr =>
    unfold Out.stamped stampListItem
    dsimp only
    cases stampPlace o.html with
    | none => exact h
    | some n =>
      exact ((((h.sublist (List.take_subset _ _)).append (flat_chars _)).append (flat_chars _)).append (flat_chars _)).append
        (h.sublist (List.drop_subset _ _))

theorem flat_closed : Out.Closed fun o => Flat o.html where
  empty := flat_chars []
  front := flat_mkSentinel.2 ⟨[], rfl⟩
  append := fun _ _ h h' => h.append h'
  stamped := fun _ attr h => flat_stamped h attr

theorem flat_concat {os : List Out} (h : ∀ o ∈ os, Flat o.html) : Flat (Out.concat os).html := by
  induction os with
  | nil => exact flat_chars []
  | cons o os ih =>
    exact (h o List.mem_cons_self).append (ih fun o ho => h o (List.mem_cons_of_mem _ ho))

theorem flat_raw {source : List Sym} (h : IsChars source) (marker : Marker) : Flat (raw source marker).html :=
  flat_mkSentinel.2 h

/-! ### The section pass pastes flat texts -/

section Render

variable {env : SectionEnv} {st : RenderState} {t : Tag} {source : List Sym}

theorem flat_valueText (hsource : IsChars source) (v : ScopeValue) (name : Name) (st : RenderState) :
    Flat (valueText v source name st).html := by
  cases v with
  | text text => exact flat_pasted text
  | bool value => exact flat_chars _
  | record text present parts =>
    cases text with
    | none => exact flat_raw hsource _
    | some text => exact flat_pasted text
  | _ => exact flat_raw hsource _

theorem flat_fieldTag (hsource : IsChars source) : Flat (fieldTag env t source st).html := by
  unfold fieldTag
  cases env.linkPath t.name with
  | unknown =>
    dsimp only
    split
    · split
      · exact flat_raw hsource _
      · split
        · exact hsource.flat
        · exact flat_raw hsource _
    · split
      · exact hsource.flat
      · exact flat_raw hsource _
  | missing => exact flat_raw hsource _
  | value v =>
    dsimp only
    split
    · split
      · exact flat_raw hsource _
      · exact hsource.flat
    · exact flat_valueText hsource v t.name st

theorem flat_valueTag (hsource : IsChars source) : Flat (valueTag env t source st).html := by
  unfold valueTag
  split
  · exact hsource.flat
  · cases env.lookup t.name st with
    | unknown => exact flat_fieldTag hsource
    | missing => exact flat_raw hsource _
    | value v => exact flat_valueText hsource v t.name st

theorem flat_plainTag (hsource : IsChars source) : Flat (plainTag env t source st).html := by
  unfold plainTag
  split
  · cases st.dot with
    | none => exact flat_valueTag hsource
    | some dot => exact flat_mkSentinel.2 ⟨_, rfl⟩
  · exact flat_valueTag hsource

theorem flat_entryPartial (hsource : IsChars source) (id : String) (v : ScopeValue) (name : Name) :
    Flat (entryPartial env id v name source st).html := by
  unfold entryPartial
  cases v with
  | module ref =>
    dsimp only
    generalize env.partials _ (some ref) = html
    cases html with
    | none => exact flat_chars _
    | some html => exact flat_mkSentinel.2 ⟨_, rfl⟩
  | text text =>
    dsimp only
    split
    · exact flat_chars []
    · exact flat_chars _
  | failed marker => exact flat_raw hsource _
  | _ => exact flat_chars _

theorem flat_partialTag (hagain : Flat st.again.html) (hsource : IsChars source) : Flat (partialTag env t source st).html := by
  unfold partialTag
  cases st.chain with
  | nil => exact hsource.flat
  | cons frame fs =>
    dsimp only
    split
    · exact hagain
    · cases env.lookup t.name st with
      | unknown =>
        dsimp only
        split
        · exact hsource.flat
        · exact flat_raw hsource _
      | missing => exact flat_raw hsource _
      | value v => exact flat_entryPartial hsource _ v t.name

theorem flat_renderTag (hagain : Flat st.again.html) (hsource : IsChars source) : Flat (renderTag env t source st).html := by
  unfold renderTag
  cases t.sigil with
  | angle => exact flat_partialTag hagain hsource
  | none => exact flat_plainTag hsource
  | _ => exact hsource.flat

theorem flat_renderText (hsource : IsChars source) : Flat (renderText source st).html := by
  unfold renderText
  cases st.dot with
  | none => exact hsource.flat
  | some dot =>
    refine flat_flatMap fun p hp => ?_
    cases p with
    | plain c =>
      have hmem : c ∈ source := by
        rw [← Scan.flatMap_raw (m := matchDot) [] source]
        exact List.mem_flatMap.2 ⟨_, hp, List.mem_singleton_self c⟩
      exact hsource.flat.single hmem
    | found a raw => exact flat_mkSentinel.2 ⟨_, rfl⟩

theorem flat_renderModuleList (name : String) (field : TemplateField) : Flat (renderModuleList env name field).html := by
  refine flat_concat fun o ho => ?_
  obtain ⟨p, -, rfl⟩ := List.mem_map.1 ho
  unfold renderElement
  cases Nested.nestedRef p.1 with
  | none => exact flat_chars _
  | some ref =>
    dsimp only
    generalize env.partials _ none = html
    cases html with
    | none => exact flat_chars _
    | some html => exact flat_mkSentinel.2 ⟨_, rfl⟩

section

variable {body : RenderState → Out}

theorem flat_entriesSection (hagain : Flat st.again.html)
    (hbody : ∀ st : RenderState, Flat st.again.html → Flat (body st).html) (entries : List ScopeEntry) :
    Flat (entriesSection t st body entries).html := by
  unfold entriesSection
  split
  · split
    · exact hbody _ hagain
    · exact flat_chars []
  · exact iterate_all flat_closed (fun frame chain again h => hbody ⟨frame :: chain, none, again⟩ h) st.chain entries

theorem flat_scopeSection (hagain : Flat st.again.html) (hsource : IsChars source)
    (hbody : ∀ st : RenderState, Flat st.again.html → Flat (body st).html) (v : ScopeValue) :
    Flat (scopeSection t source st body v).html := by
  have hif : ∀ (b : Prop) [Decidable b], Flat (if b then body st else .empty).html := by
    intro b _
    split
    · exact hbody st hagain
    · exact flat_chars []
  unfold scopeSection
  cases v with
  | failed marker => exact flat_raw hsource _
  | list entries => exact flat_entriesSection hagain hbody entries
  | module ref =>
    dsimp only
    split
    · exact flat_chars []
    · exact hbody st hagain
  | _ => exact hif _

theorem flat_resolvedSection (hagain : Flat st.again.html) (hsource : IsChars source)
    (hbody : ∀ st : RenderState, Flat st.again.html → Flat (body st).html) (res : ListFieldResolution) :
    Flat (resolvedSection t source st body res).html := by
  unfold resolvedSection
  cases res with
  | error marker => exact flat_raw hsource _
  | ok entries => exact flat_entriesSection hagain hbody entries

theorem flat_conditional (hagain : Flat st.again.html)
    (hbody : ∀ st : RenderState, Flat st.again.html → Flat (body st).html) (present : Bool) (dot : String) :
    Flat (conditional t st body present dot).html := by
  unfold conditional
  split
  · exact flat_chars []
  · exact hbody _ hagain

theorem flat_moduleSection (hagain : Flat st.again.html) (hsource : IsChars source)
    (hbody : ∀ st : RenderState, Flat st.again.html → Flat (body st).html) :
    Flat (moduleSection env t source st body).html := by
  unfold moduleSection
  dsimp only
  cases env.field t.name.head with
  | none =>
    dsimp only
    cases env.lists.bind fun lists => lists.pluginSource t.name.head with
    | none => exact flat_raw hsource _
    | some res => exact flat_resolvedSection hagain hsource hbody res
  | some field =>
    dsimp only
    split
    · split
      · split
        · exact hbody _ hagain
        · exact flat_chars []
      · exact flat_renderModuleList t.name.head field
    · split
      · cases env.lists with
        | none => exact flat_raw hsource _
        | some lists => exact flat_resolvedSection hagain hsource hbody _
      · split
        · cases env.moduleLink t.name.head with
          | none => exact flat_chars []
          | some v =>
            cases v with
            | record text present parts => exact flat_conditional hagain hbody present _
            | failed marker => exact flat_raw hsource _
            | _ => exact flat_chars []
        · exact flat_conditional hagain hbody _ _

theorem flat_renderSection (hagain : Flat st.again.html) (hsource : IsChars source)
    (hbody : ∀ st : RenderState, Flat st.again.html → Flat (body st).html) :
    Flat (renderSection env t source st body).html := by
  unfold renderSection
  cases env.lookup t.name st with
  | missing => exact flat_raw hsource _
  | value v => exact flat_scopeSection hagain hsource hbody v
  | unknown =>
    dsimp only
    split
    · cases env.linkPath t.name with
      | unknown => exact flat_raw hsource _
      | missing => exact flat_raw hsource _
      | value v => exact flat_scopeSection hagain hsource hbody v
    · exact flat_moduleSection hagain hsource hbody

end

mutual

/-- The texts and the tags of the template are without sentinels. -/
inductive NodesChars : List Node → Prop
  | nil : NodesChars []
  | cons {n : Node} {ns : List Node} (h : NodeChars n) (hs : NodesChars ns) : NodesChars (n :: ns)

inductive NodeChars : Node → Prop
  | text {s : List Sym} (h : IsChars s) : NodeChars (.text s)
  | tag (t : Tag) {source : List Sym} (h : IsChars source) : NodeChars (.tag t source)
  | block (t : Tag) {source : List Sym} {body : List Node} (h : IsChars source) (hbody : NodesChars body) :
    NodeChars (.block t source body)

end

mutual

theorem flat_renderNodes : ∀ (ns : List Node) (st : RenderState), NodesChars ns → Flat st.again.html →
    Flat (renderNodes env ns st).html
  | [], _, _, _ => flat_chars []
  | n :: ns, st, h, hagain => by
    cases h with
    | cons hn hs => exact (flat_renderNode n st hn hagain).append (flat_renderNodes ns st hs hagain)

theorem flat_renderNode : ∀ (n : Node) (st : RenderState), NodeChars n → Flat st.again.html → Flat (renderNode env n st).html
  | .text s, st, h, _ => by
    cases h with
    | text h => exact flat_renderText h
  | .tag t source, st, h, hagain => by
    cases h with
    | tag t h => exact flat_renderTag hagain h
  | .block t source body, st, h, hagain => by
    cases h with
    | block t h hbody => exact flat_renderSection hagain h fun st hagain => flat_renderNodes body st hbody hagain

end

/-! ### The parts of a template -/

theorem IsChars.append {s s' : List Sym} (h : IsChars s) (h' : IsChars s') : IsChars (s ++ s') := by
  obtain ⟨cs, rfl⟩ := h
  obtain ⟨cs', rfl⟩ := h'
  exact ⟨cs ++ cs', (chars_append cs cs').symm⟩

theorem isChars_flatMap {α : Type} {f : α → List Sym} {as : List α} (h : ∀ a ∈ as, IsChars (f a)) : IsChars (as.flatMap f) := by
  induction as with
  | nil => exact ⟨[], rfl⟩
  | cons a as ih =>
    rw [List.flatMap_cons]
    exact (h a List.mem_cons_self).append (ih fun b hb => h b (List.mem_cons_of_mem _ hb))

/-- A token with a text before it, without sentinels. -/
def TokenChars (t : Token) : Prop := IsChars t.gap ∧ IsChars t.source

theorem cut_chars {gap : List Sym} {ps : List (Scan.Piece Sym Tag)} (hgap : IsChars gap) (hps : ∀ p ∈ ps, IsChars p.raw) :
    (∀ t ∈ (cut gap ps).1, TokenChars t) ∧ IsChars (cut gap ps).2 := by
  induction ps generalizing gap with
  | nil => exact ⟨fun t ht => (List.not_mem_nil ht).elim, hgap⟩
  | cons p ps ih =>
    have hrest : ∀ q ∈ ps, IsChars q.raw := fun q hq => hps q (List.mem_cons_of_mem _ hq)
    have hhere := hps p List.mem_cons_self
    cases p with
    | plain c => exact ih (hgap.append hhere) hrest
    | found tag source =>
      have hempty : IsChars [] := ⟨[], rfl⟩
      obtain ⟨htokens, htrailing⟩ := ih hempty hrest
      exact ⟨List.forall_mem_cons.2 ⟨⟨hgap, hhere⟩, htokens⟩, htrailing⟩

theorem tokenize_chars (html : List Char) :
    (∀ t ∈ (tokenize (chars html)).1, TokenChars t) ∧ IsChars (tokenize (chars html)).2 := by
  refine cut_chars ⟨[], rfl⟩ fun p hp => isChars_iff.2 fun x hx => ?_
  have hmem : x ∈ chars html := by
    rw [← Scan.flatMap_raw (m := matchTag) [] (chars html)]
    exact List.mem_flatMap.2 ⟨p, hp, hx⟩
  exact isChars_iff.1 ⟨html, rfl⟩ x hmem

theorem nodesIn_chars {tokens : List Token} {trailing : List Sym} {pairs : List (Nat × Nat)}
    (htokens : ∀ t ∈ tokens, TokenChars t) (htrailing : IsChars trailing) (fuel i stop : Nat) :
    NodesChars (nodesIn tokens trailing pairs fuel i stop) := by
  have hgap : ∀ i, IsChars (gapAt tokens trailing i) := by
    intro i
    unfold gapAt
    cases h : tokens[i]? with
    | none => exact htrailing
    | some t => exact (htokens t (List.mem_of_getElem? h)).1
  have hsource : ∀ i close, IsChars (sourceOf tokens i close) := by
    intro i close
    refine isChars_flatMap fun p hp => ?_
    have hmem : p.1 ∈ tokens := by
      have hzip : p.1 ∈ (tokens.drop i).take (close + 1 - i) := by
        rw [← List.zipIdx_map_fst 0 ((tokens.drop i).take (close + 1 - i))]
        exact List.mem_map.2 ⟨p, hp, rfl⟩
      exact List.mem_of_mem_drop (List.mem_of_mem_take hzip)
    refine IsChars.append ?_ (htokens _ hmem).2
    split
    · exact ⟨[], rfl⟩
    · exact (htokens _ hmem).1
  induction fuel generalizing i stop with
  | zero => exact .cons (.text (hgap i)) .nil
  | succ fuel ih =>
    unfold nodesIn
    split
    · exact .cons (.text (hgap i)) .nil
    · cases h : tokens[i]? with
      | none => exact .cons (.text (hgap i)) .nil
      | some t =>
        obtain ⟨htext, htag⟩ := htokens t (List.mem_of_getElem? h)
        dsimp only
        generalize (closeOf pairs i).filter _ = close
        cases close with
        | none => exact .cons (.text htext) (.cons (.tag t.tag htag) (ih _ _))
        | some close => exact .cons (.text htext) (.cons (.block t.tag (hsource i close) (ih _ _)) (ih _ _))

theorem flat_renderSections (env : SectionEnv) (html : List Char) : Flat (renderSections env (chars html)).html := by
  obtain ⟨htokens, htrailing⟩ := tokenize_chars html
  unfold renderSections
  dsimp only
  split
  · exact flat_chars html
  · split
    · exact flat_chars html
    · exact flat_renderNodes _ _ (nodesIn_chars htokens htrailing _ _ _) (flat_chars [])

/-! ### The other passes -/

theorem flat_replaceOut {α : Type} {m : List Sym → List Sym → Option (α × Nat)} {f : α → List Sym → Out} {html : List Sym}
    (hhtml : Flat html) (hm : ∀ before s a n, m before s = some (a, n) → IsChars (s.take n))
    (hf : ∀ a source, IsChars source → Flat (f a source).html) : Flat (replaceOut m f html).html := by
  refine flat_concat fun o ho => ?_
  obtain ⟨p, hp, rfl⟩ := List.mem_map.1 ho
  cases p with
  | plain c =>
    have hmem : c ∈ html := by
      rw [← Scan.flatMap_raw (m := m) [] html]
      exact List.mem_flatMap.2 ⟨_, hp, List.mem_singleton_self c⟩
    exact hhtml.single hmem
  | found a source =>
    obtain ⟨before, s, n, hmatch, rfl⟩ := Scan.mem_scan_found hp
    exact hf a _ (hm _ _ _ _ hmatch)

theorem matchPartial_chars {before s : List Sym} {name : String} {n : Nat} (h : matchPartial before s = some (name, n)) :
    IsChars (s.take n) := by
  obtain ⟨r, hr, h⟩ := Option.bind_eq_some_iff.1 h
  rw [Option.ite_none_right_eq_some, Option.some.injEq, Prod.mk.injEq] at h
  obtain ⟨-, -, rfl⟩ := h
  exact matchTag_read hr

theorem matchPrimitive_chars {before s : List Sym} {name : String} {n : Nat} (h : matchPrimitive before s = some (name, n)) :
    IsChars (s.take n) := by
  obtain ⟨r, hr, h⟩ := Option.bind_eq_some_iff.1 h
  rw [Option.ite_none_right_eq_some, Option.some.injEq, Prod.mk.injEq] at h
  obtain ⟨-, -, rfl⟩ := h
  exact matchTag_read hr

theorem flat_renderPartialRef (env : SectionEnv) (name : String) (hsource : IsChars source) :
    Flat (renderPartialRef env name source).html := by
  unfold renderPartialRef
  cases env.field name with
  | none => exact flat_raw hsource _
  | some field =>
    dsimp only
    split
    · exact flat_chars _
    · cases slotRef (env.values.own name) with
      | none => exact flat_chars []
      | some made =>
        cases made with
        | false => exact flat_chars _
        | true =>
          dsimp only
          cases env.partials name none with
          | none => exact flat_chars _
          | some html => exact flat_mkSentinel.2 ⟨_, rfl⟩

theorem flat_renderPrimitive (input : RenderTemplateInput) (name : String) (hsource : IsChars source) :
    Flat (renderPrimitive input name source).html := by
  unfold renderPrimitive
  split
  · exact flat_chars _
  · cases assetSlot (lower name) with
    | some slot => exact flat_raw hsource _
    | none =>
      dsimp only
      split
      · exact flat_mkSentinel.2 hsource
      · exact flat_raw hsource _

theorem flat_substituted (input : RenderTemplateInput) : Flat input.substituted.html :=
  flat_replaceOut (flat_replaceOut (flat_renderSections _ _) (fun _ _ _ _ => matchPartial_chars)
    fun name _ => flat_renderPartialRef _ name) (fun _ _ _ _ => matchPrimitive_chars) fun name _ =>
      flat_renderPrimitive input name

end Render

/-! ### Literal tags -/

/-- No tag that is kept as it is, as it is no field's, has something pasted in between its braces. -/
def NoPasteInLiterals (input : RenderTemplateInput) : Prop :=
  ∀ name source, .found name source ∈ Scan.scan matchLiteral [] input.substituted.html →
    isIdentifier name = false → IsChars source

theorem flat_prepared_iff (input : RenderTemplateInput) : Flat input.prepared.html ↔ NoPasteInLiterals input := by
  have hsub := flat_substituted input
  have hmem : ∀ p ∈ Scan.scan matchLiteral [] input.substituted.html, ∀ x ∈ p.raw, x ∈ input.substituted.html := by
    intro p hp x hx
    rw [← Scan.flatMap_raw (m := matchLiteral) [] input.substituted.html]
    exact List.mem_flatMap.2 ⟨p, hp, hx⟩
  rw [prepared_html]
  refine ⟨fun hflat name source hp hname => ?_, fun hno => flat_flatMap fun p hp => ?_⟩
  · have hliteral : Flat (renderLiteral name source) := fun x hx => hflat x (List.mem_flatMap.2 ⟨_, hp, hx⟩)
    rw [renderLiteral, if_neg (ne_true_of_eq_false hname)] at hliteral
    exact flat_mkSentinel.1 hliteral
  · cases p with
    | plain c => exact hsub.single (hmem _ hp c (List.mem_singleton_self c))
    | found name source =>
      dsimp only
      unfold renderLiteral
      split
      · exact hsub.sublist (hmem _ hp)
      · rename_i hname
        exact flat_mkSentinel.2 (hno name source hp (Bool.eq_false_of_not_eq_true hname))

theorem flat_putPlain_iff (view : View) (html : List Sym) : Flat (putPlain view html) ↔ Flat html := by
  have hscan := Scan.flatMap_raw (m := matchPrimitive) [] html
  refine ⟨fun hflat x hx original hmask => ?_, fun hflat => flat_flatMap fun p hp => ?_⟩
  · rw [← hscan] at hx
    obtain ⟨p, hp, hx⟩ := List.mem_flatMap.1 hx
    cases p with
    | plain c => exact hflat x (List.mem_flatMap.2 ⟨_, hp, hx⟩) original hmask
    | found name source =>
      obtain ⟨before, s, n, hmatch, rfl⟩ := Scan.mem_scan_found hp
      obtain ⟨c, hc⟩ := isChars_iff.1 (matchPrimitive_chars hmatch) x hx
      rw [hc] at hmask
      cases hmask
  · cases p with
    | plain c =>
      refine hflat.single ?_
      rw [← hscan]
      exact List.mem_flatMap.2 ⟨_, hp, List.mem_singleton_self c⟩
    | found name source => exact flat_chars _

/-! ### Related values -/

mutual

theorem jsString_rel : ∀ {v v' : Json}, JsonRel R v v' → TextsRel R (jsString v) (jsString v')
  | _, _, .null => .nil
  | _, _, .bool _ => .refl _
  | _, _, .num _ => .refl _
  | _, _, .str h => .of_text h
  | _, _, .arr h => joinItems_rel h
  | _, _, .obj _ => .refl _

theorem joinItems_rel : ∀ {vs vs' : List Json}, ItemsRel R vs vs' → TextsRel R (joinItems vs) (joinItems vs')
  | _, _, .nil => .nil
  | _, _, .cons h .nil => jsString_rel h
  | _, _, .cons h (.cons h' hs) => (jsString_rel h).append (.same ',' (joinItems_rel (.cons h' hs)))

end

theorem PreparedRel.shape {x y : Sym} (h : PreparedRel R x y) : x.shape = y.shape := by
  cases h with
  | sym h => exact h.shape
  | literal h => rfl

theorem shape_of_prepared (h : List.Forall₂ (PreparedRel R) s s') : shape s = shape s' := by
  induction h with
  | nil => rfl
  | cons hx _ ih => rw [shape_cons, shape_cons, hx.shape, ih]

theorem keyed_rel (key : List Char) (h : HtmlRel R s s') : s.flatMap (Sym.text key) = s'.flatMap (Sym.text key) := by
  induction h with
  | nil => rfl
  | cons hx _ ih =>
    rw [List.flatMap_cons, List.flatMap_cons, ih]
    cases hx <;> rfl

theorem putPlain_rel (key : List Char) {view view' : View} (hview : ViewRel R view view')
    (h : List.Forall₂ (PreparedRel R) s s') : TextsRel R (restore key (putPlain view s)) (restore key (putPlain view' s')) := by
  have hscan : List.Forall₂ (Scan.PieceRel (PreparedRel R) fun x y => x.1 = y.1) (Scan.scan matchPrimitive [] s)
      (Scan.scan matchPrimitive [] s') := by
    refine Scan.scan_rel ?_ h
    intro before before' t t' ht
    have hsame : matchPrimitive before t = matchPrimitive before' t' := by
      rw [← matchPrimitive_shape before, shape_of_prepared ht, matchPrimitive_shape before before']
    rw [hsame]
    cases matchPrimitive before' t' with
    | none => exact .none
    | some r => exact .some ⟨rfl, rfl⟩
  unfold restore putPlain Scan.replace
  rw [List.flatMap_assoc, List.flatMap_assoc]
  refine TextsRel.flatMap hscan fun p p' hp => ?_
  cases hp with
  | @plain c c' hc =>
    rw [List.flatMap_singleton, List.flatMap_singleton]
    cases hc with
    | sym hx =>
      cases hx with
      | same x => exact .refl _
      | value ht =>
        dsimp only
        rw [flatMap_chars fun c => rfl, flatMap_chars fun c => rfl]
        exact .of_rel ht
    | literal hs =>
      dsimp only
      rw [keyed_rel key hs]
      exact .refl _
  | @found name name' raw raw' hname =>
    have hname : name = name' := hname
    dsimp only
    rw [hname, flatMap_chars fun c => rfl, flatMap_chars fun c => rfl]
    have hv := hview name'
    revert hv
    generalize view name' = v
    generalize view' name' = v'
    intro hv
    cases hv with
    | none => exact .nil
    | some hv => exact jsString_rel hv

/-! ### Content -/

theorem renderTemplate_of_plain {mustache : Mustache} (hmustache : PutsPlain mustache) (key : List Char)
    (input : RenderTemplateInput) : renderTemplate mustache key input =
      some ⟨(resolveLinkRefsInHtml (restore key input.written) input.linkResolver).1, input.prepared.missing ++
        (resolveLinkRefsInHtml (restore key input.written) input.linkResolver).2.map Marker.link, input.prepared.asks⟩ := by
  unfold renderTemplate
  rw [hmustache, Option.map_some, RenderTemplateInput.written]

/-- A render writes what it pastes in as it is, wherever no literal tag has it between its braces, and what is pasted in
changes nothing else: inputs that differ in texts give texts that differ in these texts, and the same markers. -/
theorem content_opaque {mustache : Mustache} (hmustache : PutsPlain mustache) {key : List Char}
    {input : RenderTemplateInput} (hkey : ¬key <:+: unmask input.written) :
    (∃ out, renderTemplate mustache key input = some out ∧
      out.html = (resolveLinkRefsInHtml (restore key input.written) input.linkResolver).1) ∧
    (restore key input.written = unmask input.written ↔ NoPasteInLiterals input) ∧
    ∀ (R : List Char → List Char → Prop) (input' : RenderTemplateInput), SameTargets R → SameBut R input input' →
      TextsRel R (restore key input.written) (restore key input'.written) ∧
        input.prepared.missing = input'.prepared.missing := by
  refine ⟨?_, ?_, fun R input' hR hsame => ?_⟩
  · exact ⟨_, renderTemplate_of_plain hmustache key input, by dsimp only⟩
  · rw [restore_eq_unmask_iff hkey, RenderTemplateInput.written, flat_putPlain_iff, flat_prepared_iff]
  · obtain ⟨hhtml, hmissing, -⟩ := prepared_rel (hsame.inputRel hR)
    exact ⟨putPlain_rel key hsame.view hhtml, hmissing⟩

def labelInput (literal : Bool) (label : String) : RenderTemplateInput where
  fields := [⟨"items", "list", none, none, none, none, none, none⟩]
  values := []
  partials := fun _ _ => none
  lists := some ⟨fun _ _ _ => .ok [.mk "a" [("label", .text label)] none none], none, .text "", fun _ => none, fun _ => none⟩
  holder := none
  html := (if literal then "\x7b\x7b#items\x7d\x7d\x7b\x7bPage \x7b\x7blabel\x7d\x7d \x7d\x7d\x7b\x7b/items\x7d\x7d"
    else "\x7b\x7b#items\x7d\x7d\x7b\x7blabel\x7d\x7d\x7b\x7b/items\x7d\x7d").toList
  themeAssets := none
  linkResolver := none

theorem content_opaque_label : restore ['\x00'] (labelInput false "\x7b\x7bx\x7d\x7d").written =
    unmask (labelInput false "\x7b\x7bx\x7d\x7d").written ↔ NoPasteInLiterals (labelInput false "\x7b\x7bx\x7d\x7d") := by
  have hplain : PutsPlain fun html view => some (putPlain view html) := fun html view => rfl
  have hkey : ¬['\x00'] <:+: unmask (labelInput false "\x7b\x7bx\x7d\x7d").written := by decide +kernel
  obtain ⟨-, hiff, -⟩ := content_opaque hplain hkey
  exact hiff

/-- The label of an item, in a literal tag, comes out as the key of its sentinel. -/
theorem content_lost_in_literal : ¬∀ (mustache : Mustache) (key : List Char) (input : RenderTemplateInput),
    PutsPlain mustache → ¬key <:+: unmask input.written → restore key input.written = unmask input.written := by
  intro h
  have hkey : ¬['\x00'] <:+: unmask (labelInput true "\x7b\x7bx\x7d\x7d").written := by decide +kernel
  have heq := h (fun html view => some (putPlain view html)) ['\x00'] (labelInput true "\x7b\x7bx\x7d\x7d")
    (fun html view => rfl) hkey
  exact absurd heq (by decide +kernel)

end CaeloCms.Template
