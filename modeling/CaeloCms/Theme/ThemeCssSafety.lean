import CaeloCms.Theme.ThemeCss

/-!
# Theme CSS and injection

A property name is read as one name whatever the path is, and a value has no `;`, `{` or `}`.  A value can still leave a
string, a comment, a url, an escape or a bracket open: the stylesheet is read back as the declarations that were written
exactly when no value does (`renderThemeCss_iff`).
-/

namespace CaeloCms.Theme

open Css (run start step Mode Contained Unbounded isBoundary)
open MemoGraph

/-! ### Names -/

def isEscapedNameChar (c : Char) : Bool := Css.isNameChar c || c = '\\' || c = ' '

/-- Reading goes on inside a name, in no bracket. -/
def InName (s : Css.State) : Prop := ∃ name, s = ⟨.plain (some name), []⟩

variable {text : List Char} {v : Json}

theorem run_nameChars (h : ∀ c ∈ text, Css.isNameChar c = true) {s : Css.State} (hs : InName s) :
    InName (run s text) := by
  induction text generalizing s with
  | nil => exact hs
  | cons c text ih =>
    obtain ⟨name, rfl⟩ := hs
    refine ih (fun c hc => h c (List.mem_cons_of_mem _ hc)) ⟨c :: name, ?_⟩
    simp [step, Css.stepPlain, h c List.mem_cons_self]

theorem run_hex {digits : List Char} (hdigits : ∀ c ∈ digits, (Css.hexValue c).isSome = true) (name : Option (List Char))
    (count value : Nat) (hlen : count + digits.length ≤ 6) :
    ∃ value', run ⟨.hex name count value, []⟩ digits = ⟨.hex name (count + digits.length) value', []⟩ := by
  induction digits generalizing count value with
  | nil => exact ⟨value, rfl⟩
  | cons c digits ih =>
    obtain ⟨digit, hdigit⟩ := Option.isSome_iff_exists.mp (hdigits c List.mem_cons_self)
    rw [List.length_cons] at hlen
    have hstep : step ⟨.hex name count value, []⟩ c = ⟨.hex name (count + 1) (16 * value + digit), []⟩ := by
      have hlt : count < 6 := by omega
      simp [step, hdigit, hlt]
    obtain ⟨value', hvalue'⟩ := ih (fun c hc => hdigits c (List.mem_cons_of_mem _ hc)) (count + 1)
      (16 * value + digit) (by omega)
    refine ⟨value', ?_⟩
    rw [run, List.foldl_cons, hstep]
    change run _ digits = _
    rw [hvalue', List.length_cons]
    congr 2
    omega

/-- An escape and the space that ends it are read as one character of the name. -/
theorem run_escape {digits : List Char} (hdigits : ∀ c ∈ digits, (Css.hexValue c).isSome = true) (hne : digits ≠ [])
    (hlen : digits.length ≤ 6) {s : Css.State} (hs : InName s) : InName (run s ('\\' :: digits ++ [' '])) := by
  obtain ⟨name, rfl⟩ := hs
  obtain ⟨c, digits, rfl⟩ := List.exists_cons_of_ne_nil hne
  obtain ⟨digit, hdigit⟩ := Option.isSome_iff_exists.mp (hdigits c List.mem_cons_self)
  rw [List.length_cons] at hlen
  have hnewline : Css.isNewline c = false := by
    by_contra hc
    have hcases : (c = '\n' ∨ c = '\r') ∨ c = '\x0c' := by
      rw [Bool.not_eq_false] at hc
      simpa only [Css.isNewline, Bool.or_eq_true, decide_eq_true_eq] using hc
    rcases hcases with (rfl | rfl) | rfl <;> cases hdigit
  obtain ⟨value', hvalue'⟩ := run_hex (fun c hc => hdigits c (List.mem_cons_of_mem _ hc)) (some name) 1 digit (by omega)
  refine ⟨Char.ofNat value' :: name, ?_⟩
  have hfirst : run ⟨.plain (some name), []⟩ ['\\', c] = ⟨.hex (some name) 1 digit, []⟩ := by
    have hback : step ⟨.plain (some name), []⟩ '\\' = ⟨.escape (some name), []⟩ := rfl
    rw [run, List.foldl_cons, hback, List.foldl_cons, List.foldl_nil]
    simp [step, hnewline, hdigit]
  have hsplit : '\\' :: (c :: digits) ++ [' '] = ['\\', c] ++ (digits ++ [' ']) := rfl
  rw [hsplit, Css.run_append, hfirst, Css.run_append, hvalue']
  rfl

theorem hexDigits_of_lt : ∀ n < 0x80, (Nat.toDigits 16 n).all (fun c => (Css.hexValue c).isSome) = true ∧
    Nat.toDigits 16 n ≠ [] ∧ (Nat.toDigits 16 n).length ≤ 6 := by
  decide +kernel

structure NamePart (text : List Char) : Prop where
  reads : ∀ s, InName s → InName (run s text)
  chars : ∀ c ∈ text, isEscapedNameChar c = true

theorem NamePart.append {a b : List Char} (ha : NamePart a) (hb : NamePart b) : NamePart (a ++ b) := by
  refine ⟨fun s hs => ?_, fun c hc => ?_⟩
  · rw [Css.run_append]
    exact hb.reads _ (ha.reads s hs)
  · exact (List.mem_append.mp hc).elim (ha.chars c) (hb.chars c)

theorem namePart_of_all (h : text.all Css.isNameChar = true) : NamePart text := by
  have hall := List.all_eq_true.mp h
  refine ⟨fun s hs => run_nameChars hall hs, fun c hc => ?_⟩
  unfold isEscapedNameChar
  rw [hall c hc]
  rfl

theorem namePart_escaped (ch : Char) : NamePart (escapeCssIdentPart [ch]) := by
  unfold escapeCssIdentPart
  rw [List.flatMap_cons, List.flatMap_nil, List.append_nil]
  by_cases hzero : ch.toNat = 0
  · rw [if_pos hzero]
    refine ⟨fun s hs => ?_, fun c hc => ?_⟩
    · have hdigits : (['f', 'f', 'f', 'd'].all fun c => (Css.hexValue c).isSome) = true := by decide +kernel
      exact run_escape (List.all_eq_true.mp hdigits) (by decide) (by decide) hs
    · have hall : ("\\fffd ".toList.all isEscapedNameChar) = true := by decide +kernel
      exact List.all_eq_true.mp hall c hc
  · rw [if_neg hzero]
    by_cases hkept : (ch.isAlphanum || ch = '_' || ch = '-' || 0x80 ≤ ch.toNat) = true
    · rw [if_pos hkept]
      refine namePart_of_all ?_
      rw [List.all_cons, List.all_nil, Css.isNameChar, hkept]
      rfl
    · rw [if_neg hkept]
      have hlt : ch.toNat < 0x80 := by
        by_contra hge
        exact hkept (by simp [Nat.le_of_not_lt hge])
      obtain ⟨hall, hne, hlen⟩ := hexDigits_of_lt ch.toNat hlt
      refine ⟨fun s hs => run_escape (fun c hc => List.all_eq_true.mp hall c hc) hne hlen hs, fun c hc => ?_⟩
      have hchars : ∀ n < 0x80, ('\\' :: Nat.toDigits 16 n ++ [' ']).all isEscapedNameChar = true := by decide +kernel
      exact List.all_eq_true.mp (hchars ch.toNat hlt) c hc

theorem namePart_escapeCssIdentPart (part : List Char) : NamePart (escapeCssIdentPart part) := by
  induction part with
  | nil => exact namePart_of_all rfl
  | cons ch part ih =>
    have hsplit : escapeCssIdentPart (ch :: part) = escapeCssIdentPart [ch] ++ escapeCssIdentPart part := by
      simp [escapeCssIdentPart]
    rw [hsplit]
    exact (namePart_escaped ch).append ih

theorem namePart_restOf (path : String) : NamePart (restOf path) := namePart_escapeCssIdentPart _

theorem namePart_baseName (path : String) : NamePart (baseName path) := by
  have hlead : NamePart ("--".toList ++ escapeCssIdentPart (categoryOf path)) :=
    (namePart_of_all (by decide)).append (namePart_escapeCssIdentPart _)
  have hdash : NamePart ['-'] := namePart_of_all (by decide)
  exact hlead.append (hdash.append (namePart_restOf path))

theorem NamePart.colon {name : List Char} (h : NamePart name) :
    (run start name).isOpen = true ∧ run start (name ++ [':']) = start ∧ ':' ∉ name := by
  obtain ⟨word, hword⟩ := h.reads start ⟨[], rfl⟩
  refine ⟨by rw [hword]; rfl, ?_, fun hc => absurd (h.chars ':' hc) (by decide)⟩
  rw [Css.run_append, hword]
  rfl

/-! ### Values -/

theorem unbounded_append {a b : List Char} (ha : Unbounded a) (hb : Unbounded b) : Unbounded (a ++ b) :=
  fun c hc => (List.mem_append.mp hc).elim (ha c) (hb c)

theorem unbounded_of_all (h : (text.all fun c => !isBoundary c) = true) : Unbounded text :=
  fun c hc => by simpa using List.all_eq_true.mp h c hc

theorem unbounded_cons {c : Char} (hc : isBoundary c = false) (h : Unbounded text) :
    Unbounded (c :: text) :=
  List.forall_mem_cons.mpr ⟨hc, h⟩

theorem unbounded_sanitize (value : List Char) : Unbounded (sanitizeCssTokenValue value) := by
  intro c hc
  have hscrubbed := (List.mem_filter.mp hc).2
  simp only [isScrubbed, Bool.not_eq_true', Bool.or_eq_false_iff, decide_eq_false_iff_not] at hscrubbed
  simp [isBoundary, hscrubbed]

theorem unbounded_asString (h : Lists.numbersRead v = true) : Unbounded (asString v) := by
  cases v with
  | null => exact fun c hc => absurd hc List.not_mem_nil
  | bool b => cases b <;> exact unbounded_of_all (by decide)
  | num text =>
    intro c hc
    have hchars : text.toList.all Lists.isNumberChar = true := (Bool.and_eq_true_iff.mp h).2
    have hnumber := List.all_eq_true.mp hchars c hc
    by_contra hboundary
    have hcases : (c = '\x7b' ∨ c = ';') ∨ c = '\x7d' := by
      rw [Bool.not_eq_false] at hboundary
      simpa only [isBoundary, Bool.or_eq_true, decide_eq_true_eq] using hboundary
    rcases hcases with (rfl | rfl) | rfl <;> exact absurd hnumber (by decide)
  | str s => exact unbounded_sanitize _
  | arr items => exact unbounded_sanitize _
  | obj fields => exact unbounded_sanitize _

theorem numbersRead_of_mem_fields {fields : List (String × Json)} (h : Lists.numbersReadFields fields = true)
    {f : String × Json} (hf : f ∈ fields) : Lists.numbersRead f.2 = true := by
  induction fields with
  | nil => cases hf
  | cons g fields ih =>
    obtain ⟨hg, hrest⟩ := Bool.and_eq_true_iff.mp h
    rcases List.mem_cons.mp hf with rfl | hf
    · exact hg
    · exact ih hrest hf

theorem numbersRead_of_mem_items {items : List Json} (h : Lists.numbersReadItems items = true)
    (hv : v ∈ items) : Lists.numbersRead v = true := by
  induction items with
  | nil => cases hv
  | cons w items ih =>
    obtain ⟨hw, hrest⟩ := Bool.and_eq_true_iff.mp h
    rcases List.mem_cons.mp hv with rfl | hv
    · exact hw
    · exact ih hrest hv

theorem numbersRead_field {w : Json} (h : Lists.numbersRead v = true) {name : String} (hw : v.field name = some w) :
    Lists.numbersRead w = true := by
  cases v with
  | obj fields =>
    obtain ⟨f, hf, rfl⟩ := Option.map_eq_some_iff.mp hw
    exact numbersRead_of_mem_fields h (List.mem_of_find?_eq_some hf)
  | null => cases hw
  | bool b => cases hw
  | num text => cases hw
  | str s => cases hw
  | arr items => cases hw

theorem unbounded_fieldOr (h : Lists.numbersRead v = true) (name fallback : String) :
    Unbounded (asString (fieldOr v name fallback)) := by
  unfold fieldOr
  cases hw : v.field name with
  | none => exact unbounded_sanitize _
  | some w =>
    have hread := unbounded_asString (numbersRead_field h hw)
    cases w with
    | null => exact unbounded_sanitize _
    | bool b => exact hread
    | num text => exact hread
    | str s => exact hread
    | arr items => exact hread
    | obj fields => exact hread

theorem unbounded_shadowLayerToCss {layer : Json} (h : Lists.numbersRead layer = true)
    (htext : shadowLayerToCss layer = some text) : Unbounded text := by
  unfold shadowLayerToCss at htext
  by_cases hobj : isObject layer = true
  · rw [if_pos hobj] at htext
    obtain rfl := Option.some.inj htext
    have hspace : isBoundary ' ' = false := by decide
    have hspread : Unbounded (((layer.field "spread").map fun v => ' ' :: asString v).getD []) := by
      cases hv : layer.field "spread" with
      | none => exact fun c hc => absurd hc List.not_mem_nil
      | some v => exact unbounded_cons hspace (unbounded_asString (numbersRead_field h hv))
    have hinset : Unbounded (if (layer.field "inset").any (strictEqual (.bool true)) then " inset".toList else []) := by
      by_cases hi : (layer.field "inset").any (strictEqual (.bool true)) = true
      · rw [if_pos hi]
        exact unbounded_of_all (by decide)
      · rw [if_neg hi]
        exact fun c hc => absurd hc List.not_mem_nil
    have hx := unbounded_fieldOr h "offsetX" "0"
    have hy := unbounded_cons hspace (unbounded_fieldOr h "offsetY" "0")
    have hblur := unbounded_cons hspace (unbounded_fieldOr h "blur" "0")
    have hcolor := unbounded_cons hspace (unbounded_fieldOr h "color" "currentColor")
    have hlead := unbounded_append (unbounded_append (unbounded_append hx hy) hblur) hspread
    simpa using unbounded_append hlead (unbounded_append hcolor hinset)
  · rw [if_neg hobj] at htext
    cases htext

theorem unbounded_intercalate {sep : List Char} (hsep : Unbounded sep) {parts : List (List Char)}
    (h : ∀ part ∈ parts, Unbounded part) : Unbounded (sep.intercalate parts) := by
  induction parts with
  | nil => exact fun c hc => absurd hc List.not_mem_nil
  | cons part parts ih =>
    obtain ⟨hpart, hparts⟩ := List.forall_mem_cons.mp h
    by_cases hnil : parts = []
    · subst hnil
      rw [List.intercalate_singleton]
      exact hpart
    · rw [List.intercalate_cons_of_ne_nil hnil]
      exact unbounded_append (unbounded_append hpart hsep) (ih hparts)

/-- A line whose name and value can be read back when the value is contained. -/
structure LineText (line : Line) : Prop where
  name : NamePart line.1
  value : Unbounded line.2

section Emit

variable {value : Json} (hvalue : Lists.numbersRead value = true)

include hvalue

theorem lineText_emitSimple {name : List Char} (hname : NamePart name) : ∀ line ∈ emitSimple name value, LineText line := by
  intro line hline
  obtain rfl := List.mem_singleton.mp hline
  exact ⟨hname, unbounded_asString hvalue⟩

theorem lineText_emitColor {name : List Char} (hname : NamePart name) :
    ∀ line ∈ (emitColor name value).1 ++ (emitColor name value).2, LineText line := by
  intro line hline
  unfold emitColor at hline
  cases hlight : value.field "light" with
  | none =>
    rw [hlight] at hline
    exact lineText_emitSimple hvalue hname line (by simpa using hline)
  | some light =>
    cases hdark : value.field "dark" with
    | none =>
      rw [hlight, hdark] at hline
      exact lineText_emitSimple hvalue hname line (by simpa using hline)
    | some dark =>
      rw [hlight, hdark] at hline
      have hcases : line = (name, asString light) ∨ line = (name, asString dark) := by simpa using hline
      rcases hcases with rfl | rfl
      · exact ⟨hname, unbounded_asString (numbersRead_field hvalue hlight)⟩
      · exact ⟨hname, unbounded_asString (numbersRead_field hvalue hdark)⟩

theorem lineText_emitTypography {rest : List Char} (hrest : NamePart rest) :
    ∀ line ∈ emitTypography rest value, LineText line := by
  intro line hline
  unfold emitTypography at hline
  by_cases hobj : isObject value = true
  · rw [if_pos hobj] at hline
    obtain ⟨f, hf, hline⟩ := List.mem_filterMap.mp hline
    obtain ⟨v, hv, rfl⟩ := Option.map_eq_some_iff.mp hline
    have hleads : (typographyFields.all fun f => f.2.toList.all Css.isNameChar) = true := by decide +kernel
    have hlead := namePart_of_all (List.all_eq_true.mp hleads f hf)
    exact ⟨hlead.append hrest, unbounded_asString (numbersRead_field hvalue hv)⟩
  · rw [if_neg hobj] at hline
    obtain rfl := List.mem_singleton.mp hline
    have hlead : NamePart "--font-".toList := namePart_of_all (by decide +kernel)
    exact ⟨hlead.append hrest, unbounded_asString hvalue⟩

theorem lineText_emitShadow {name : List Char} (hname : NamePart name) : ∀ line ∈ emitShadow name value, LineText line := by
  intro line hline
  have hlayer : ∀ layer, Lists.numbersRead layer = true →
      line ∈ ((shadowLayerToCss layer).map fun text => (name, text)).toList → LineText line := by
    intro layer hlayer hline
    obtain ⟨text, htext, rfl⟩ := Option.map_eq_some_iff.mp (Option.mem_toList.mp hline)
    exact ⟨hname, unbounded_shadowLayerToCss hlayer htext⟩
  cases value with
  | str s =>
    unfold emitShadow at hline
    dsimp only at hline
    by_cases hempty : sanitizeCssTokenValue (Words.trim Redirect.isSpace s.toList) = []
    · rw [if_pos hempty] at hline
      cases hline
    · rw [if_neg hempty] at hline
      obtain rfl := List.mem_singleton.mp hline
      exact ⟨hname, unbounded_sanitize _⟩
  | arr items =>
    unfold emitShadow at hline
    dsimp only at hline
    by_cases hempty : items.filterMap shadowLayerToCss = []
    · rw [if_pos hempty] at hline
      cases hline
    · rw [if_neg hempty] at hline
      obtain rfl := List.mem_singleton.mp hline
      refine ⟨hname, unbounded_intercalate (unbounded_of_all (by decide)) fun text htext => ?_⟩
      obtain ⟨layer, hmem, htext⟩ := List.mem_filterMap.mp htext
      exact unbounded_shadowLayerToCss (numbersRead_of_mem_items hvalue hmem) htext
  | null => exact hlayer .null hvalue hline
  | bool b => exact hlayer (.bool b) hvalue hline
  | num text => exact hlayer (.num text) hvalue hline
  | obj fields => exact hlayer (.obj fields) hvalue hline

theorem lineText_emitEase {name : List Char} (hname : NamePart name) : ∀ line ∈ emitEase name value, LineText line := by
  intro line hline
  cases value with
  | arr items =>
    unfold emitEase at hline
    dsimp only at hline
    by_cases hlen : items.length = 4
    · rw [if_pos hlen] at hline
      obtain rfl := List.mem_singleton.mp hline
      have hparts : Unbounded (", ".toList.intercalate (items.map asString)) := by
        refine unbounded_intercalate (unbounded_of_all (by decide)) fun text htext => ?_
        obtain ⟨v, hv, rfl⟩ := List.mem_map.mp htext
        exact unbounded_asString (numbersRead_of_mem_items hvalue hv)
      have hlead : Unbounded "cubic-bezier(".toList := unbounded_of_all (by decide)
      exact ⟨hname, unbounded_append (unbounded_append hlead hparts) (unbounded_of_all (by decide))⟩
    · rw [if_neg hlen] at hline
      exact lineText_emitSimple hvalue hname line hline
  | null => exact lineText_emitSimple hvalue hname line hline
  | bool b => exact lineText_emitSimple hvalue hname line hline
  | num text => exact lineText_emitSimple hvalue hname line hline
  | str s => exact lineText_emitSimple hvalue hname line hline
  | obj fields => exact lineText_emitSimple hvalue hname line hline

theorem lineText_emitTokenLines (path : String) :
    ∀ line ∈ (emitTokenLines path value).1 ++ (emitTokenLines path value).2, LineText line := by
  have hname := namePart_baseName path
  unfold emitTokenLines
  dsimp only
  by_cases hcolor : categoryOf path = "color".toList
  · rw [if_pos hcolor]
    exact lineText_emitColor hvalue hname
  · rw [if_neg hcolor]
    by_cases htypography : categoryOf path = "typography".toList
    · rw [if_pos htypography, List.append_nil]
      exact lineText_emitTypography hvalue (namePart_restOf path)
    · rw [if_neg htypography]
      by_cases hshadow : categoryOf path = "shadow".toList
      · rw [if_pos hshadow, List.append_nil]
        exact lineText_emitShadow hvalue hname
      · rw [if_neg hshadow]
        by_cases hease : categoryOf path = "ease".toList
        · rw [if_pos hease, List.append_nil]
          exact lineText_emitEase hvalue hname
        · rw [if_neg hease, List.append_nil]
          exact lineText_emitSimple hvalue hname

end Emit

end CaeloCms.Theme
