import CaeloCms.Nested.Render
import CaeloCms.Template.Asked

/-!
# Nested renders are complete

A render that reports no failure has rendered every reference it reached: its module and content instance are there, no
instance is on its own path, and no path is longer than the limit.  What is shown for a reference is what was rendered
for its partial key, so this needs keys that tell the references of a module apart (`renderPlacedModule_complete_iff`).
-/

namespace CaeloCms.Nested

open Template

/-! ### What a render passes through -/

/-- The failures a render starts with are among those it ends with. -/
def Keeps (inner : Inner) : Prop := ∀ ref via c out, inner ref via c = some out → out.2.failures = [] → c.failures = []

theorem report_failures {via : String} {ms : List Marker} {c : Collected} (h : (c.report via ms).failures = []) :
    c.failures = [] ∧ ms = [] := by
  have hgrows : ∀ (ms : List Marker) (c : Collected), (c.report via ms).failures = [] → c.failures = [] := by
    intro ms
    induction ms with
    | nil => exact fun c h => h
    | cons m ms ih =>
      intro c h
      have hstep := ih _ h
      dsimp only at hstep
      split at hstep
      · exact hstep
      · exact (List.append_eq_nil_iff.1 hstep).1
  have hnil := hgrows ms c h
  refine ⟨hnil, ?_⟩
  cases ms with
  | nil => rfl
  | cons m ms =>
    have hstep := hgrows ms _ h
    dsimp only at hstep
    have hmissing : c.missing = [] := by rw [Collected.missing, hnil, List.map_nil]
    rw [hmissing, List.contains_nil, Bool.and_false, if_neg Bool.false_ne_true] at hstep
    exact absurd (List.append_eq_nil_iff.1 hstep).2 (List.cons_ne_nil _ _)

theorem firstUses_of_find? {key : String} {a : Ask} {asks : List Ask} {seen : List String} (hseen : key ∉ seen)
    (h : asks.find? (fun b => b.key == key) = some a) : a ∈ firstUses seen asks := by
  induction asks generalizing seen with
  | nil => cases h
  | cons b asks ih =>
    rw [List.find?_cons] at h
    unfold firstUses
    by_cases hkey : b.key = key
    · rw [beq_iff_eq.2 hkey, Option.some.injEq] at h
      subst h
      rw [hkey, List.contains_eq_mem, decide_eq_false hseen, if_neg Bool.false_ne_true]
      exact List.mem_cons_self
    · rw [beq_eq_false_iff_ne.2 hkey] at h
      split
      · exact ih hseen h
      · refine List.mem_cons_of_mem _ (ih ?_ h)
        rw [List.mem_cons, not_or]
        exact ⟨fun heq => hkey heq.symm, hseen⟩

theorem firstUses_sub {asks : List Ask} {seen : List String} {a : Ask} (h : a ∈ firstUses seen asks) : a ∈ asks := by
  induction asks generalizing seen with
  | nil => cases h
  | cons b asks ih =>
    unfold firstUses at h
    split at h
    · exact List.mem_cons_of_mem _ (ih h)
    · rcases List.mem_cons.1 h with rfl | h
      · exact List.mem_cons_self
      · exact List.mem_cons_of_mem _ (ih h)

namespace Renderer

variable {r : Renderer}

variable {p : Placement} {out : List Char × Collected} {inner : Inner} {via : String} {c : Collected}

theorem renderPartials_failures (hkeeps : Keeps inner) {asks : List Ask}
    {c' : Collected} (h : renderPartials inner p via asks c = some c') (hok : c'.failures = []) :
    c.failures = [] ∧ ∀ a ∈ asks, ∀ hit, nestedRefForPartial p.fields p.values a.key a.ref = some hit →
      ∃ via c out, inner hit.ref via c = some out ∧ out.2.failures = [] := by
  induction asks generalizing c with
  | nil =>
    cases h
    exact ⟨hok, fun a ha => by cases ha⟩
  | cons a asks ih =>
    obtain ⟨out, hout, h⟩ := Option.bind_eq_some_iff.1 h
    obtain ⟨hfailures, hrest⟩ := ih h
    unfold renderPartial at hout
    cases hhit : nestedRefForPartial p.fields p.values a.key a.ref with
    | none =>
      rw [hhit] at hout
      cases hout
      refine ⟨hfailures, fun b hb hit hb' => ?_⟩
      rcases List.mem_cons.1 hb with rfl | hb
      · rw [hhit] at hb'
        cases hb'
      · exact hrest b hb hit hb'
    | some hit =>
      rw [hhit] at hout
      obtain ⟨nested, hnested, rfl⟩ := Option.map_eq_some_iff.1 hout
      refine ⟨hkeeps _ _ _ _ hnested hfailures, fun b hb hit' hb' => ?_⟩
      rcases List.mem_cons.1 hb with rfl | hb
      · rw [hhit, Option.some.injEq] at hb'
        subst hb'
        exact ⟨_, _, _, hnested, hfailures⟩
      · exact hrest b hb hit' hb'

/-- A module that is rendered without failures asks for well formed partials, and each is rendered without failures. -/
theorem substituteWithRecursion_failures (hkeeps : Keeps inner) (h : r.substituteWithRecursion inner p via c = some out)
    (hok : out.2.failures = []) :
    c.failures = [] ∧ (∀ a ∈ r.asksOf p, (nestedRefForPartial p.fields p.values a.key a.ref).isSome = true) ∧
      ∀ a ∈ firstUses [] (r.asksOf p), ∀ hit, nestedRefForPartial p.fields p.values a.key a.ref = some hit →
        ∃ via c out, inner hit.ref via c = some out ∧ out.2.failures = [] := by
  obtain ⟨result, hresult, h⟩ := Option.bind_eq_some_iff.1 h
  obtain ⟨c', hpartials, rfl⟩ := Option.map_eq_some_iff.1 h
  obtain ⟨rendered, -, rfl⟩ := Option.map_eq_some_iff.1 hresult
  obtain ⟨hfailures, hmarkers⟩ := report_failures hok
  have hasks : (r.input (r.partials inner p via) p).prepared.asks = r.asksOf p := asks_input inner p via
  rw [hasks] at hpartials
  obtain ⟨hfailures, hnested⟩ := renderPartials_failures hkeeps hpartials hfailures
  refine ⟨hfailures, fun a ha => ?_, hnested⟩
  have hmissing : (r.input (wellFormedPartials p) p).prepared.missing = [] := by
    rw [← missing_input inner p via]
    exact (List.append_eq_nil_iff.1 hmarkers).1
  have hanswered := prepared_answered (r.input (wellFormedPartials p) p) hmissing a ha
  exact (Option.isSome_map).symm.trans hanswered

/-- The module and the content instance of a reference, when both are there and the instance is live and the module's. -/
def placed (r : Renderer) (ref : NestedRefValue) : Option Placement :=
  (r.resolver.getModule ref.moduleId).bind fun mod =>
    (((r.resolver.getContentInstance ref.contentInstanceId).filter fun ci => ci.deletedAt.isNone).filter fun ci =>
      ci.moduleId = ref.moduleId).map fun ci => ⟨mod.html, mod.fields, ci.values, listHolderOf ci⟩

theorem renderInner_failures {levels : Nat} {path : List String} {ref : NestedRefValue}
    (h : r.renderInner levels path ref via c = some out) (hok : out.2.failures = []) :
    ∃ below p c', levels = below + 1 ∧ cycleKey ref ∉ path ∧ r.placed ref = some p ∧ c'.failures = c.failures ∧
      r.substituteWithRecursion (r.renderInner below (cycleKey ref :: path)) p via c' = some out := by
  have hfail : ∀ (html : List Char) (reason : String), some (html, c.fail via reason) ≠ some out := by
    intro html reason heq
    rw [← Option.some.inj heq] at hok
    exact List.cons_ne_nil _ _ (List.append_eq_nil_iff.1 hok).2
  cases levels with
  | zero => exact absurd h (hfail _ _)
  | succ below =>
    unfold renderInner at h
    split at h
    · exact absurd h (hfail _ _)
    · rename_i hcycle
      cases hmod : r.resolver.getModule ref.moduleId with
      | none =>
        rw [hmod] at h
        exact absurd h (hfail _ _)
      | some mod =>
        rw [hmod] at h
        dsimp only at h
        cases hci : (r.resolver.getContentInstance ref.contentInstanceId).filter fun ci => ci.deletedAt.isNone with
        | none =>
          rw [hci] at h
          exact absurd h (hfail _ _)
        | some ci =>
          rw [hci] at h
          dsimp only at h
          split at h
          · exact absurd h (hfail _ _)
          · rename_i hmodule
            rw [ne_eq, not_not] at hmodule
            refine ⟨below, _, _, rfl, fun hmem => hcycle (by simpa using hmem), ?_, ?_, h⟩
            · rw [placed, hmod, Option.bind_some, hci]
              simp [Option.filter, hmodule]
            · rfl

theorem renderInner_keeps (levels : Nat) (path : List String) : Keeps (r.renderInner levels path) := by
  induction levels generalizing path with
  | zero =>
    intro ref via c out h hok
    obtain ⟨below, -, -, hzero, -⟩ := renderInner_failures h hok
    cases hzero
  | succ levels ih =>
    intro ref via c out h hok
    obtain ⟨below, p, c', hlevels, -, -, hsame, hsub⟩ := renderInner_failures h hok
    obtain rfl : levels = below := Nat.succ.inj hlevels
    rw [← hsame]
    exact (substituteWithRecursion_failures (ih _) hsub hok).1

/-! ### Everything that is reached -/

/-- A module that is rendered at the end of a path of references, the innermost first. -/
inductive Reached (r : Renderer) (root : Placement) : List NestedRefValue → Placement → Prop
  | root : Reached r root [] root
  | nested {path : List NestedRefValue} {p q : Placement} {a : Ask} {hit : PartialHit} (h : Reached r root path p)
    (ha : a ∈ firstUses [] (r.asksOf p)) (hhit : nestedRefForPartial p.fields p.values a.key a.ref = some hit)
    (hq : r.placed hit.ref = some q) : Reached r root (hit.ref :: path) q

def shown (r : Renderer) (p : Placement) (a : Ask) : Option PartialHit :=
  ((r.asksOf p).find? fun b => b.key == a.key).bind fun b => nestedRefForPartial p.fields p.values b.key b.ref

/-- Wherever a reached module asks for a partial, there is a reference, it is the one that is shown, its module and its
content instance are there, the instance is not on the path, and the path is within the limit. -/
def Complete (r : Renderer) (root : Placement) : Prop :=
  ∀ path p, r.Reached root path p → ∀ a ∈ r.asksOf p, ∃ hit,
    nestedRefForPartial p.fields p.values a.key a.ref = some hit ∧ r.shown p a = some hit ∧
      (r.placed hit.ref).isSome = true ∧ hit.ref.contentInstanceId ∉ path.map (·.contentInstanceId) ∧
      path.length + 1 < MAX_RECURSION_DEPTH

/-- No reached module dispatches two references under one partial key. -/
def KeysTell (r : Renderer) (root : Placement) : Prop :=
  ∀ path p, r.Reached root path p → ∀ a ∈ r.asksOf p, ∀ b ∈ r.asksOf p, a.key = b.key →
    nestedRefForPartial p.fields p.values a.key a.ref = nestedRefForPartial p.fields p.values b.key b.ref

theorem Reached.rendered {root : Placement} (h : r.renderPlacedModule root = some out)
    (hok : out.2.failures = []) {path : List NestedRefValue} (hreached : r.Reached root path p) :
    (∃ levels via c out, levels + path.length + 1 = MAX_RECURSION_DEPTH ∧ out.2.failures = [] ∧
      r.substituteWithRecursion (r.renderInner levels (path.map cycleKey)) p via c = some out) ∧
      ∀ ref ∈ path, (r.placed ref).isSome = true := by
  induction hreached with
  | root => exact ⟨⟨_, _, _, out, rfl, hok, h⟩, fun ref href => by cases href⟩
  | @nested path p q a hit _ ha hhit hq ih =>
    obtain ⟨⟨levels, via, c, out', hlevels, hok', hsub⟩, hplaced⟩ := ih
    obtain ⟨-, -, hnested⟩ := substituteWithRecursion_failures (renderInner_keeps _ _) hsub hok'
    obtain ⟨via', c', out'', hinner, hok''⟩ := hnested a ha hit hhit
    obtain ⟨below, p', c'', hbelow, -, hp', -, hsub'⟩ := renderInner_failures hinner hok''
    rw [hq, Option.some.injEq] at hp'
    subst hp'
    refine ⟨⟨below, via', c'', out'', ?_, hok'', hsub'⟩, fun ref href => ?_⟩
    · rw [List.length_cons]
      omega
    · rcases List.mem_cons.1 href with rfl | href
      · rw [hq]
        rfl
      · exact hplaced ref href

theorem placed_moduleId {ref ref' : NestedRefValue} (h : (r.placed ref).isSome = true) (h' : (r.placed ref').isSome = true)
    (hsame : ref.contentInstanceId = ref'.contentInstanceId) : ref.moduleId = ref'.moduleId := by
  have hmodule : ∀ ref : NestedRefValue, (r.placed ref).isSome = true →
      ∃ ci, r.resolver.getContentInstance ref.contentInstanceId = some ci ∧ ci.moduleId = ref.moduleId := by
    intro ref h
    obtain ⟨p, hp⟩ := Option.isSome_iff_exists.1 h
    obtain ⟨mod, -, hp⟩ := Option.bind_eq_some_iff.1 hp
    obtain ⟨ci, hci, -⟩ := Option.map_eq_some_iff.1 hp
    obtain ⟨hlive, hci⟩ := Option.filter_eq_some_iff.1 hci
    exact ⟨ci, (Option.filter_eq_some_iff.1 hlive).1, of_decide_eq_true hci⟩
  obtain ⟨ci, hci, hid⟩ := hmodule ref h
  obtain ⟨ci', hci', hid'⟩ := hmodule ref' h'
  rw [hsame, hci', Option.some.injEq] at hci
  rw [← hid, ← hid', hci]

/-- What a template asks for in a render without failures, shown or not. -/
theorem Reached.asked {root : Placement} (h : r.renderPlacedModule root = some out)
    (hok : out.2.failures = []) {path : List NestedRefValue} (hreached : r.Reached root path p) {a : Ask}
    (ha : a ∈ firstUses [] (r.asksOf p)) : ∃ hit, nestedRefForPartial p.fields p.values a.key a.ref = some hit ∧
      (r.placed hit.ref).isSome = true ∧ hit.ref.contentInstanceId ∉ path.map (·.contentInstanceId) ∧
      path.length + 1 < MAX_RECURSION_DEPTH := by
  obtain ⟨⟨levels, via, c, out', hlevels, hok', hsub⟩, hplaced⟩ := hreached.rendered h hok
  obtain ⟨-, hwell, hnested⟩ := substituteWithRecursion_failures (renderInner_keeps _ _) hsub hok'
  obtain ⟨hit, hhit⟩ := Option.isSome_iff_exists.1 (hwell a (firstUses_sub ha))
  obtain ⟨via', c', out'', hinner, hok''⟩ := hnested a ha hit hhit
  obtain ⟨below, p', c'', hbelow, hcycle, hp', -, -⟩ := renderInner_failures hinner hok''
  have hhere : (r.placed hit.ref).isSome = true := by rw [hp']; rfl
  refine ⟨hit, hhit, hhere, fun hmem => ?_, by omega⟩
  obtain ⟨ref, href, hsame⟩ := List.mem_map.1 hmem
  refine hcycle (List.mem_map.2 ⟨ref, href, ?_⟩)
  rw [cycleKey, hsame, placed_moduleId (hplaced ref href) hhere hsame, cycleKey]

theorem substituteWithRecursion_isSome (hmustache : ∀ html view, (r.mustache html view).isSome = true)
    (hinner : ∀ ref via c, (inner ref via c).isSome = true) (p : Placement) (via : String) (c : Collected) :
    (r.substituteWithRecursion inner p via c).isSome = true := by
  have hpartials : ∀ asks c, (renderPartials inner p via asks c).isSome = true := by
    intro asks
    induction asks with
    | nil => exact fun c => rfl
    | cons a asks ih =>
      intro c
      unfold renderPartials renderPartial
      cases nestedRefForPartial p.fields p.values a.key a.ref with
      | none => exact ih c
      | some hit =>
        obtain ⟨out, hout⟩ := Option.isSome_iff_exists.1 (hinner hit.ref (viaStep via hit.step) c)
        simp only [hout, Option.map_some, Option.bind_some]
        exact ih out.2
  obtain ⟨rendered, hrendered⟩ := Option.isSome_iff_exists.1
    (hmustache (r.input (r.partials inner p via) p).prepared.html (r.input (r.partials inner p via) p).view)
  unfold substituteWithRecursion renderTemplate
  rw [hrendered, Option.map_some, Option.bind_some, Option.isSome_map]
  exact hpartials _ c

theorem renderInner_isSome (hmustache : ∀ html view, (r.mustache html view).isSome = true) (levels : Nat)
    (path : List String) (ref : NestedRefValue) (via : String) (c : Collected) :
    (r.renderInner levels path ref via c).isSome = true := by
  induction levels generalizing path ref via c with
  | zero => rfl
  | succ levels ih =>
    unfold renderInner
    split
    · rfl
    · cases r.resolver.getModule ref.moduleId with
      | none => rfl
      | some mod =>
        dsimp only
        cases (r.resolver.getContentInstance ref.contentInstanceId).filter fun ci => ci.deletedAt.isNone with
        | none => rfl
        | some ci =>
          dsimp only
          split
          · rfl
          · exact substituteWithRecursion_isSome hmustache (fun ref via c => ih _ ref via c) _ via _

/-- A render ends with a page, unless the library throws.  One without failures is complete exactly when no two
references of a module it reaches go by one partial key. -/
theorem renderPlacedModule_complete_iff (r : Renderer) (root : Placement) :
    ((∀ html view, (r.mustache html view).isSome = true) → (r.renderPlacedModule root).isSome = true) ∧
      ∀ out, r.renderPlacedModule root = some out → out.2.failures = [] → (r.Complete root ↔ r.KeysTell root) := by
  refine ⟨fun hmustache => ?_, fun out h hok => ⟨fun hcomplete => ?_, fun hkeys => ?_⟩⟩
  · exact substituteWithRecursion_isSome hmustache (renderInner_isSome hmustache _ _) root "" _
  · intro path p hreached a ha b hb hkey
    obtain ⟨hit, hhit, hshown, -⟩ := hcomplete path p hreached a ha
    obtain ⟨hit', hhit', hshown', -⟩ := hcomplete path p hreached b hb
    rw [hhit, hhit', ← hshown, ← hshown', shown, hkey, shown]
  · intro path p hreached a ha
    obtain ⟨first, hfirst⟩ : ∃ first, ((r.asksOf p).find? fun b => b.key == a.key) = some first := by
      rw [← Option.isSome_iff_exists, List.find?_isSome]
      exact ⟨a, ha, beq_self_eq_true a.key⟩
    have hkey : first.key = a.key := eq_of_beq (List.find?_some (p := fun b : Ask => b.key == a.key) hfirst)
    have hmem : first ∈ r.asksOf p := List.mem_of_find?_eq_some hfirst
    obtain ⟨hit, hhit, hplaced, hpath, hdepth⟩ :=
      hreached.asked h hok (firstUses_of_find? List.not_mem_nil hfirst)
    refine ⟨hit, (hkeys path p hreached a ha first hmem hkey.symm).trans hhit, ?_, hplaced, hpath, hdepth⟩
    rw [shown, hfirst]
    exact hhit

end Renderer

/-! ### Two cards with one page -/

def pageEntry : ScopeEntry := .mk "page" [] none none

def cardEntry (id button : String) : ScopeEntry :=
  .mk id [("cta", .module ⟨"button", button⟩), ("pages", .list [pageEntry])] none none

def twoCards : Renderer where
  resolver := ⟨fun id => if id = "button" then some ⟨"button", "<b></b>".toList, []⟩ else none,
    fun id => some ⟨id, "button", [], none, none⟩⟩
  mustache := fun html _ => some html
  sentinel := []
  themeAssets := none
  lists := some ⟨fun _ _ _ => .ok [cardEntry "a" "first", cardEntry "b" "second"], none, .text "", fun _ => none,
    fun _ => none⟩
  linkResolver := none

/-- The cards with the button once for each card, or once for each of its pages. -/
def cardsPage (perPage : Bool) : Placement where
  html := (if perPage then "\x7b\x7b#cards\x7d\x7d\x7b\x7b#pages\x7d\x7d\x7b\x7b>cta\x7d\x7d\x7b\x7b/pages\x7d\x7d\x7b\x7b/cards\x7d\x7d"
    else "\x7b\x7b#cards\x7d\x7d\x7b\x7b>cta\x7d\x7d\x7b\x7b/cards\x7d\x7d").toList
  fields := [⟨"cards", "list", none, none, none, none, none, none⟩]
  values := []
  listHolder := none

theorem renderPlacedModule_complete_iff_cards :
    twoCards.Complete (cardsPage false) ↔ twoCards.KeysTell (cardsPage false) := by
  have hrender : (twoCards.renderPlacedModule (cardsPage false)).map (fun out => out.2.failures) = some [] := by
    decide +kernel
  obtain ⟨out, hout, hok⟩ := Option.map_eq_some_iff.1 hrender
  exact (Renderer.renderPlacedModule_complete_iff twoCards (cardsPage false)).2 out hout hok

/-- The button of the first card is shown for the second one too. -/
theorem renderPlacedModule_shows_first : ¬∀ (r : Renderer) (root : Placement) (out : List Char × Collected),
    r.renderPlacedModule root = some out → out.2.failures = [] → r.Complete root := by
  intro h
  have hrender : (twoCards.renderPlacedModule (cardsPage true)).map (fun out => out.2.failures) = some [] := by
    decide +kernel
  obtain ⟨out, hout, hok⟩ := Option.map_eq_some_iff.1 hrender
  have hasked : ⟨"list:cards/page/cta", some ⟨"button", "second"⟩⟩ ∈ twoCards.asksOf (cardsPage true) := by decide +kernel
  obtain ⟨hit, hhit, hshown, -⟩ := h twoCards (cardsPage true) out hout hok [] _ .root _ hasked
  have hdiffer : twoCards.shown (cardsPage true) ⟨"list:cards/page/cta", some ⟨"button", "second"⟩⟩ ≠
      nestedRefForPartial (cardsPage true).fields (cardsPage true).values "list:cards/page/cta"
        (some ⟨"button", "second"⟩) := by decide +kernel
  exact hdiffer (hshown.trans hhit.symm)

end CaeloCms.Nested
