import CaeloCms.Theme.ThemeCssSafety

/-!
# Reading the CSS of a theme back

The stylesheet of a theme holds the lines of its tokens' values.  Every line can be read back by itself unless its value
leaves something open, and then what follows the value belongs to it (`renderThemeCss_iff`).
-/

namespace CaeloCms.Theme

open MemoGraph

/-! ### The values of the tokens -/

def Valued (doc : Json) (flat : List (String × Json)) (values : List Json) : Prop :=
  List.Forall₂ (fun token v => Means (aliasTerms doc) (tokenValue token.2) v) flat values

def linesOf (flat : List (String × Json)) (values : List Json) : List (List Line × List Line) :=
  List.zipWith (fun token v => emitTokenLines token.1 v) flat values

variable {doc v : Json} {line : Line} {flat : List (String × Json)} {selector : List Char}

theorem emitTokens_value {depth : Nat} {cache cache' : Memo String Json}
    (hcache : Sound (aliasTerms doc) cache) {lines : List Line × List Line}
    (h : emitTokens doc depth flat cache = (.value lines, cache')) :
    ∃ values, Valued doc flat values ∧ lines.1 = (linesOf flat values).flatMap Prod.fst ∧
      lines.2 = (linesOf flat values).flatMap Prod.snd := by
  induction flat generalizing cache lines cache' with
  | nil =>
    cases h
    exact ⟨[], .nil, rfl, rfl⟩
  | cons token flat ih =>
    obtain ⟨path, node⟩ := token
    rw [emitTokens] at h
    obtain ⟨v, cache₁, hv, h⟩ := andThen_eq_value h
    obtain ⟨rest, cache₂, hrest, h⟩ := andThen_eq_value h
    cases h
    rw [resolveTokenValue, resolveValue_eq] at hv
    have hends := ends_evaluate (S := aliasTerms doc) depth [path] (tokenValue node) hcache
    rw [hv] at hends
    obtain ⟨hsound, hmeans, -⟩ := hends
    obtain ⟨values, hvalues, hlight, hdark⟩ := ih hsound hrest
    refine ⟨v :: values, .cons (hmeans v rfl) hvalues, ?_, ?_⟩
    · rw [hlight]
      rfl
    · rw [hdark]
      rfl

theorem Valued.unique {values values' : List Json}
    (h : Valued doc flat values) (h' : Valued doc flat values') : values = values' := by
  induction h generalizing values' with
  | nil =>
    cases h'
    rfl
  | cons hv _ ih =>
    cases h' with
    | cons hv' h' => rw [hv.unique hv', ih h']

/-! ### Numbers stay numbers -/

theorem numbersRead_property {name : String} {w : Json} (h : Lists.numbersRead v = true)
    (hw : property name v = some w) : Lists.numbersRead w = true := by
  cases v with
  | obj fields => exact numbersRead_field h hw
  | arr items =>
    obtain ⟨p, hp, rfl⟩ := Option.map_eq_some_iff.mp hw
    have hmem : p.1 ∈ items := List.fst_mem_of_mem_zipIdx (List.mem_of_find?_eq_some hp)
    exact numbersRead_of_mem_items h hmem
  | null => cases hw
  | bool b => cases hw
  | num text => cases hw
  | str s => cases hw

theorem numbersRead_lookupParts {parts : List String} {w : Json} (h : Lists.numbersRead v = true)
    (hw : lookupParts v parts = some w) : Lists.numbersRead w = true := by
  induction parts generalizing v with
  | nil =>
    cases hw
    exact h
  | cons p parts ih =>
    obtain ⟨next, hnext, hw⟩ := Option.bind_eq_some_iff.mp hw
    exact ih (numbersRead_property h hnext) hw

theorem numbersRead_tokenValue {token : Json} (h : Lists.numbersRead token = true) :
    Lists.numbersRead (tokenValue token) = true := by
  unfold tokenValue
  cases hv : token.field "$value" with
  | none => rfl
  | some v => exact numbersRead_field h hv

mutual

theorem numbersRead_refill (v : Json) (h : Lists.numbersRead v = true) (vs : List Json)
    (hvs : ∀ w ∈ vs, Lists.numbersRead w = true) : Lists.numbersRead (refill v vs) = true := by
  cases v with
  | str raw =>
    rw [refill]
    by_cases halias : (aliasTarget raw).isSome = true
    · rw [if_pos halias]
      cases vs with
      | nil => rfl
      | cons w vs => exact hvs w List.mem_cons_self
    · rw [if_neg halias]
      rfl
  | obj fields => exact numbersRead_refillFields fields h vs hvs
  | null => exact h
  | bool b => exact h
  | num text => exact h
  | arr items => exact h

theorem numbersRead_refillFields (fields : List (String × Json)) (h : Lists.numbersReadFields fields = true)
    (vs : List Json) (hvs : ∀ w ∈ vs, Lists.numbersRead w = true) :
    Lists.numbersReadFields (refillFields fields vs) = true := by
  cases fields with
  | nil => rfl
  | cons f fields =>
    obtain ⟨k, v⟩ := f
    obtain ⟨hv, hfields⟩ := Bool.and_eq_true_iff.mp h
    have hfirst := numbersRead_refill v hv (vs.take (aliases v).length) fun w hw => hvs w (List.mem_of_mem_take hw)
    have hrest := numbersRead_refillFields fields hfields (vs.drop (aliases v).length) fun w hw =>
      hvs w (List.mem_of_mem_drop hw)
    exact Bool.and_eq_true_iff.mpr ⟨hfirst, hrest⟩

end

theorem numbersRead_of_means (hdoc : Lists.numbersRead doc = true) {t : Json}
    (h : Means (aliasTerms doc) t v) (ht : Lists.numbersRead t = true) : Lists.numbersRead v = true := by
  induction h with
  | of t τ σ htarget _ ih =>
    refine numbersRead_refill t ht _ fun w hw => ?_
    obtain ⟨path, hpath, rfl⟩ := List.mem_map.mp hw
    obtain ⟨token, htoken, hτ⟩ := Option.map_eq_some_iff.mp (htarget path hpath)
    have hread := numbersRead_lookupParts hdoc (Option.filter_eq_some_iff.mp htoken).1
    exact ih path hpath (hτ ▸ numbersRead_tokenValue hread)

mutual

theorem numbersRead_walk (names : List String) (v : Json) (h : Lists.numbersRead v = true) :
    ∀ token ∈ walk names v, Lists.numbersRead token.2 = true := by
  cases v with
  | obj fields =>
    rw [walk]
    by_cases htoken : isToken (.obj fields) = true
    · rw [if_pos htoken]
      exact List.forall_mem_singleton.mpr h
    · rw [if_neg htoken]
      exact numbersRead_walkFields names fields h
  | arr items => exact numbersRead_walkItems names 0 items h
  | null => exact fun _ hmem => absurd hmem List.not_mem_nil
  | bool b => exact fun _ hmem => absurd hmem List.not_mem_nil
  | num text => exact fun _ hmem => absurd hmem List.not_mem_nil
  | str s => exact fun _ hmem => absurd hmem List.not_mem_nil

theorem numbersRead_walkFields (names : List String) (fields : List (String × Json))
    (h : Lists.numbersReadFields fields = true) : ∀ token ∈ walkFields names fields, Lists.numbersRead token.2 = true := by
  cases fields with
  | nil => exact fun _ hmem => absurd hmem List.not_mem_nil
  | cons f fields =>
    obtain ⟨k, v⟩ := f
    obtain ⟨hv, hfields⟩ := Bool.and_eq_true_iff.mp h
    have hrest := numbersRead_walkFields names fields hfields
    rw [walkFields]
    by_cases hmeta : k.toList.head? = some '$'
    · rw [if_pos hmeta]
      exact hrest
    · rw [if_neg hmeta]
      exact List.forall_mem_append.mpr ⟨numbersRead_walk (names ++ [k]) v hv, hrest⟩

theorem numbersRead_walkItems (names : List String) (i : Nat) (items : List Json)
    (h : Lists.numbersReadItems items = true) : ∀ token ∈ walkItems names i items, Lists.numbersRead token.2 = true := by
  cases items with
  | nil => exact fun _ hmem => absurd hmem List.not_mem_nil
  | cons v items =>
    obtain ⟨hv, hitems⟩ := Bool.and_eq_true_iff.mp h
    exact List.forall_mem_append.mpr
      ⟨numbersRead_walk (names ++ [toString i]) v hv, numbersRead_walkItems names (i + 1) items hitems⟩

end

/-! ### The stylesheet is a text of rules -/

def blocksOf (selector : List Char) (lines : List (List Line × List Line)) : List (List Char × List Line) :=
  (selector, lines.flatMap Prod.fst) ::
    if lines.flatMap Prod.snd = [] then [] else [(selector ++ ".dark".toList, lines.flatMap Prod.snd)]

/-- A line without its `;`. -/
def itemText (line : Line) : List Char := line.1 ++ ':' :: line.2

def ruleOf (block : List Char × List Line) : Css.Rule := ⟨block.1, block.2.map itemText⟩

theorem block_eq (selector : List Char) (lines : List Line) :
    block selector lines = Css.sheetText [ruleOf (selector, lines)] := by
  have hlines : lines.flatMap lineText = Css.blockText (lines.map itemText) := by
    rw [Css.blockText, List.flatMap_map]
    rfl
  simp [block, Css.sheetText, ruleOf, hlines]

theorem sheetText_blocksOf (selector : List Char) (lines : List (List Line × List Line)) :
    Css.sheetText ((blocksOf selector lines).map ruleOf) = block selector (lines.flatMap Prod.fst) ++
      if lines.flatMap Prod.snd = [] then [] else block (selector ++ ".dark".toList) (lines.flatMap Prod.snd) := by
  rw [block_eq, block_eq, blocksOf]
  by_cases hdark : lines.flatMap Prod.snd = []
  · rw [if_pos hdark, if_pos hdark, List.append_nil]
    rfl
  · rw [if_neg hdark, if_neg hdark]
    simp [Css.sheetText]

/-! ### Lines that can be read back -/

theorem LineText.itemText (h : LineText line) : Css.ItemText (itemText line) := by
  refine ⟨unbounded_append (fun c hc => ?_) (unbounded_cons (by decide) h.value), ?_⟩
  · have hname := h.name.chars c hc
    by_contra hboundary
    have hcases : (c = '\x7b' ∨ c = ';') ∨ c = '\x7d' := by
      rw [Bool.not_eq_false] at hboundary
      simpa only [Css.isBoundary, Bool.or_eq_true, decide_eq_true_eq] using hboundary
    rcases hcases with (rfl | rfl) | rfl <;> exact absurd hname (by decide)
  · have hcolon : ':' ∈ Theme.itemText line := List.mem_append_right _ List.mem_cons_self
    by_contra hblank
    rw [Bool.not_eq_false] at hblank
    exact absurd (List.all_eq_true.mp hblank ':' hcolon) (by decide)

theorem LineText.contained_iff (h : LineText line) :
    Css.Contained (Theme.itemText line) ↔ Css.Contained line.2 := by
  have hsplit : Theme.itemText line = (line.1 ++ [':']) ++ line.2 := by simp [Theme.itemText]
  rw [Css.Contained, hsplit, Css.run_append, h.name.colon.2.1]
  rfl

theorem LineText.declaration?_eq (h : LineText line) :
    Css.declaration? (Theme.itemText line) = some line :=
  Css.declarationFrom_append h.name.colon.2.2 h.name.colon.1 line.2

theorem itemText_of_declaration? {text : List Char} (h : Css.declaration? text = some line) :
    text = itemText line :=
  Css.declarationFrom_eq_some h

/-- Rules give the declarations of the blocks exactly when they are the rules that were written. -/
theorem declarations_iff {blocks : List (List Char × List Line)} (hblocks : ∀ b ∈ blocks, ∀ line ∈ b.2, LineText line)
    (rules : List Css.Rule) :
    rules.map (fun rule => (rule.prelude, rule.items.map Css.declaration?)) =
        blocks.map (fun b => (b.1, b.2.map some)) ↔ rules = blocks.map ruleOf := by
  constructor
  · intro h
    have hitems : ∀ (items : List (List Char)) (lines : List Line),
        items.map Css.declaration? = lines.map some → items = lines.map itemText := by
      intro items lines heq
      have hforall := List.forall₂_map_left_iff.mp (List.forall₂_map_right_iff.mp (List.forall₂_eq_eq_eq ▸ heq))
      exact (List.forall₂_eq_eq_eq ▸ List.forall₂_map_right_iff.mpr (hforall.imp fun _ _ => itemText_of_declaration?))
    induction rules generalizing blocks with
    | nil =>
      rw [List.map_nil, eq_comm, List.map_eq_nil_iff] at h
      rw [h]
      rfl
    | cons rule rules ih =>
      cases blocks with
      | nil => cases h
      | cons b blocks =>
        obtain ⟨hrule, hrest⟩ := List.cons.inj h
        obtain ⟨hprelude, hdeclarations⟩ := Prod.mk.inj hrule
        rw [ih (fun b hb => hblocks b (List.mem_cons_of_mem _ hb)) hrest, List.map_cons, ruleOf, ← hprelude,
          ← hitems _ _ hdeclarations]
  · rintro rfl
    rw [List.map_map]
    refine List.map_congr_left fun b hb => ?_
    have hlines : (b.2.map itemText).map Css.declaration? = b.2.map some := by
      rw [List.map_map]
      exact List.map_congr_left fun line hline => (hblocks b hb line hline).declaration?_eq
    exact congrArg (Prod.mk b.1) hlines

theorem contained_dark (h : Css.Contained selector) :
    Css.Contained (selector ++ ".dark".toList) := by
  unfold Css.Contained at h ⊢
  rw [Css.run_append]
  generalize Css.run Css.start selector = s at h
  obtain ⟨hfree, hawaited⟩ := Bool.and_eq_true_iff.mp h
  obtain ⟨mode, awaited⟩ := s
  obtain rfl := List.isEmpty_iff.mp hawaited
  have hdot : ∃ name, Css.step ⟨mode, []⟩ '.' = ⟨.plain name, []⟩ := by
    cases mode with
    | plain name => exact ⟨_, rfl⟩
    | slash => exact ⟨_, rfl⟩
    | hex name digits value => exact ⟨_, rfl⟩
    | escapedReturn name => exact ⟨_, rfl⟩
    | comment star => cases hfree
    | escape name => cases hfree
    | string quote => cases hfree
    | stringEscape quote => cases hfree
    | stringReturn quote => cases hfree
    | urlStart => cases hfree
    | url => cases hfree
    | urlEscape => cases hfree
  obtain ⟨name, hname⟩ := hdot
  show (Css.run (Css.step ⟨mode, []⟩ '.') "dark".toList).isOpen = true
  rw [hname]
  rfl

theorem unbounded_of_safe (h : isUnsafeSelector selector = false) : Css.Unbounded selector := by
  intro c hc
  have hany := (Bool.or_eq_false_iff.mp h).1
  have hchar := List.any_eq_false.mp hany c hc
  rw [Bool.not_eq_true] at hchar
  simp only [Bool.or_eq_false_iff, decide_eq_false_iff_not] at hchar
  simp [Css.isBoundary, hchar]

/-! ### Injection -/

/-- The stylesheet is read as one rule for each block, with the lines of the tokens' values as its declarations. -/
def InjectionFree (doc : Json) (selector css : List Char) : Prop :=
  ∃ values, Valued doc (flattenTokens doc) values ∧
    (Css.read css).map (fun rule => (rule.prelude, rule.items.map Css.declaration?)) =
      (blocksOf selector (linesOf (flattenTokens doc) values)).map fun b => (b.1, b.2.map some)

theorem forall_linesOf {values : List Json} (h : Valued doc flat values)
    (P : Line → Prop) :
    (∀ lines ∈ linesOf flat values, ∀ line ∈ lines.1 ++ lines.2, P line) ↔
      ∀ token ∈ flat, ∀ v, Means (aliasTerms doc) (tokenValue token.2) v →
        ∀ line ∈ (emitTokenLines token.1 v).1 ++ (emitTokenLines token.1 v).2, P line := by
  induction h with
  | nil => simp [linesOf]
  | @cons token v flat values hv _ ih =>
    have hone : (∀ v', Means (aliasTerms doc) (tokenValue token.2) v' →
        ∀ line ∈ (emitTokenLines token.1 v').1 ++ (emitTokenLines token.1 v').2, P line) ↔
        ∀ line ∈ (emitTokenLines token.1 v).1 ++ (emitTokenLines token.1 v).2, P line :=
      ⟨fun hall => hall v hv, fun hline v' hv' => hv.unique hv' ▸ hline⟩
    rw [List.forall_mem_cons, hone, ← ih]
    exact List.forall_mem_cons

theorem forall_blocksOf (selector : List Char) (lines : List (List Line × List Line)) (P : Line → Prop) :
    (∀ b ∈ blocksOf selector lines, ∀ line ∈ b.2, P line) ↔ ∀ l ∈ lines, ∀ line ∈ l.1 ++ l.2, P line := by
  have hsplit : (∀ l ∈ lines, ∀ line ∈ l.1 ++ l.2, P line) ↔
      (∀ line ∈ lines.flatMap Prod.fst, P line) ∧ ∀ line ∈ lines.flatMap Prod.snd, P line := by
    constructor
    · intro h
      refine ⟨fun line hline => ?_, fun line hline => ?_⟩
      · obtain ⟨l, hl, hline⟩ := List.mem_flatMap.mp hline
        exact h l hl line (List.mem_append_left _ hline)
      · obtain ⟨l, hl, hline⟩ := List.mem_flatMap.mp hline
        exact h l hl line (List.mem_append_right _ hline)
    · rintro ⟨hlight, hdark⟩ l hl line hline
      rcases List.mem_append.mp hline with hline | hline
      · exact hlight line (List.mem_flatMap.mpr ⟨l, hl, hline⟩)
      · exact hdark line (List.mem_flatMap.mpr ⟨l, hl, hline⟩)
  rw [hsplit, blocksOf, List.forall_mem_cons]
  by_cases hdark : lines.flatMap Prod.snd = []
  · simp [hdark]
  · simp [hdark]

theorem selector_of_mem_blocksOf {lines : List (List Line × List Line)}
    {b : List Char × List Line} (hb : b ∈ blocksOf selector lines) : b.1 = selector ∨ b.1 = selector ++ ".dark".toList := by
  rcases List.mem_cons.mp hb with rfl | hb
  · exact .inl rfl
  · by_cases hdark : lines.flatMap Prod.snd = []
    · rw [if_pos hdark] at hb
      cases hb
    · rw [if_neg hdark] at hb
      exact .inr (congrArg Prod.fst (List.mem_singleton.mp hb))

theorem renderThemeCss_value {depth : Nat} {option : Option (List Char)} {css : List Char}
    (h : renderThemeCss doc depth option = .value css) :
    isUnsafeSelector (option.getD ":root".toList) = false ∧ ∃ values, Valued doc (flattenTokens doc) values ∧
      css = Css.sheetText ((blocksOf (option.getD ":root".toList) (linesOf (flattenTokens doc) values)).map ruleOf) := by
  unfold renderThemeCss at h
  dsimp only at h
  by_cases hunsafe : isUnsafeSelector (option.getD ":root".toList) = true
  · rw [if_pos hunsafe] at h
    cases h
  · rw [if_neg hunsafe] at h
    refine ⟨eq_false_of_ne_true hunsafe, ?_⟩
    cases hout : emitTokens doc depth (flattenTokens doc) fun _ => none with
    | mk outcome cache =>
      rw [hout] at h
      cases outcome with
      | cut => cases h
      | threw e => cases h
      | value lines =>
        have hempty : Sound (aliasTerms doc) fun _ => none := by rintro path v ⟨⟩
        obtain ⟨values, hvalues, hlight, hdark⟩ := emitTokens_value hempty hout
        refine ⟨values, hvalues, ?_⟩
        rw [sheetText_blocksOf, ← hlight, ← hdark]
        cases h
        rfl

/-- A theme stylesheet is free of injection exactly when every value in it, read by itself, leaves nothing open. -/
theorem renderThemeCss_iff (doc : Json) (hdoc : Lists.numbersRead doc = true) (depth : Nat)
    (option : Option (List Char)) (hselector : Css.Contained (option.getD ":root".toList)) (css : List Char)
    (hcss : renderThemeCss doc depth option = .value css) :
    InjectionFree doc (option.getD ":root".toList) css ↔
      ∀ token ∈ flattenTokens doc, ∀ v, Means (aliasTerms doc) (tokenValue token.2) v →
        ∀ line ∈ (emitTokenLines token.1 v).1 ++ (emitTokenLines token.1 v).2, Css.Contained line.2 := by
  obtain ⟨hsafe, values, hvalues, rfl⟩ := renderThemeCss_value hcss
  generalize option.getD ":root".toList = selector at hselector hsafe ⊢
  have hlines : ∀ b ∈ blocksOf selector (linesOf (flattenTokens doc) values), ∀ line ∈ b.2, LineText line := by
    rw [forall_blocksOf, forall_linesOf hvalues]
    intro token htoken v hv
    have hread := numbersRead_tokenValue (numbersRead_walk [] doc hdoc token htoken)
    exact lineText_emitTokenLines (numbersRead_of_means hdoc hv hread) token.1
  have hpreludes : ∀ rule ∈ (blocksOf selector (linesOf (flattenTokens doc) values)).map ruleOf,
      Css.Unbounded rule.prelude ∧ Css.Contained rule.prelude := by
    intro rule hrule
    obtain ⟨b, hb, rfl⟩ := List.mem_map.mp hrule
    rw [ruleOf]
    rcases selector_of_mem_blocksOf hb with heq | heq <;> rw [heq]
    · exact ⟨unbounded_of_safe hsafe, hselector⟩
    · exact ⟨unbounded_append (unbounded_of_safe hsafe) (unbounded_of_all (by decide)), contained_dark hselector⟩
  have hitems : ∀ rule ∈ (blocksOf selector (linesOf (flattenTokens doc) values)).map ruleOf,
      ∀ item ∈ rule.items, Css.ItemText item := by
    intro rule hrule item hitem
    obtain ⟨b, hb, rfl⟩ := List.mem_map.mp hrule
    obtain ⟨line, hline, rfl⟩ := List.mem_map.mp hitem
    exact (hlines b hb line hline).itemText
  have hcontained : (∀ rule ∈ (blocksOf selector (linesOf (flattenTokens doc) values)).map ruleOf,
      ∀ item ∈ rule.items, Css.Contained item) ↔
      ∀ b ∈ blocksOf selector (linesOf (flattenTokens doc) values), ∀ line ∈ b.2, Css.Contained line.2 := by
    rw [List.forall_mem_map]
    refine forall₂_congr fun b hb => ?_
    rw [ruleOf, List.forall_mem_map]
    exact forall₂_congr fun line hline => (hlines b hb line hline).contained_iff
  rw [← forall_linesOf hvalues, ← forall_blocksOf selector, ← hcontained, ← Css.read_sheetText_iff hpreludes hitems,
    ← declarations_iff hlines]
  constructor
  · rintro ⟨values', hvalues', hread⟩
    obtain rfl := hvalues.unique hvalues'
    exact hread
  · exact fun hread => ⟨values, hvalues, hread⟩

/-- One colour. -/
def plainTheme : Json := .obj [("color", .obj [("primary", .obj [("$value", .str "#f00")])])]

theorem renderThemeCss_iff_plain :
    InjectionFree plainTheme ":root".toList ":root\x7b--color-primary:#f00;\x7d".toList ↔
      ∀ token ∈ flattenTokens plainTheme, ∀ v, Means (aliasTerms plainTheme) (tokenValue token.2) v →
        ∀ line ∈ (emitTokenLines token.1 v).1 ++ (emitTokenLines token.1 v).2, Css.Contained line.2 :=
  renderThemeCss_iff plainTheme rfl 1 none (by decide +kernel) _ rfl

/-- A font family with a quote of its own, and a spacing after it. -/
def quoteTheme : Json :=
  .obj [
    ("typography", .obj [("heading", .obj [("$value", .obj [("fontFamily", .str "\"Foo")])])]),
    ("spacing", .obj [("md", .obj [("$value", .str "1rem")])])]

/-- The spacing is read as part of the font family. -/
theorem renderThemeCss_injected :
    renderThemeCss quoteTheme 1 none = .value ":root\x7b--font-heading:\"Foo;--spacing-md:1rem;\x7d".toList ∧
      ¬ InjectionFree quoteTheme ":root".toList ":root\x7b--font-heading:\"Foo;--spacing-md:1rem;\x7d".toList := by
  refine ⟨rfl, ?_⟩
  rintro ⟨values, hvalues, hread⟩
  have hvalued : Valued quoteTheme (flattenTokens quoteTheme) [.obj [("fontFamily", .str "\"Foo")], .str "1rem"] :=
    .cons (means_of_worth .nil) (.cons (means_of_worth .nil) .nil)
  rw [hvalues.unique hvalued] at hread
  have hcount := congrArg (List.map fun r => r.2.length) hread
  exact absurd hcount (by decide +kernel)

end CaeloCms.Theme
