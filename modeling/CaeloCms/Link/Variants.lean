import CaeloCms.Link.Resolve

/-!
# Links and page variants

A page that is rendered in a variant links to the version of its target in this variant (`forPage_stays`).  A target
that has versions in other variants only is not linked to, except in a staging render, which says so.
-/

namespace CaeloCms.Link

namespace SiteLinkIndexInput

/-- `pageVariants` is a map. -/
def Keyed (input : SiteLinkIndexInput) : Prop := (input.pageVariants.map (·.pageId)).Nodup

def Version (input : SiteLinkIndexInput) (target variant id : String) : Prop :=
  (input.page id).isSome = true ∧ ∃ v ∈ input.pageVariants, v.pageId = id ∧ v.variant = variant ∧
    (id = target ∨ ∃ t ∈ input.pageVariants, t.pageId = target ∧ t.group.isSome = true ∧ t.group = v.group)

def served (input : SiteLinkIndexInput) (query anchor : Option String) (page : IndexPage) : LinkResolution :=
  let url := pageRefUrl query anchor page.path input.pageUrlStyle
  if input.env ≠ .preview ∧ page.published = false then .unpublished url page.id else .resolved url

variable {input : SiteLinkIndexInput}

theorem page_id {id : String} {page : IndexPage} (h : input.page id = some page) : page.id = id :=
  eq_of_beq (List.find?_some (p := fun page : IndexPage => page.id == id) h)

theorem variantOf_pageId {id : String} {v : PageVariant} (h : input.variantOf id = some v) : v.pageId = id :=
  eq_of_beq (List.find?_some (p := fun v : PageVariant => v.pageId == id) h)

theorem variantOf_iff (hkeys : input.Keyed) {id : String} {v : PageVariant} :
    input.variantOf id = some v ↔ v ∈ input.pageVariants ∧ v.pageId = id := by
  constructor
  · intro h
    exact ⟨List.mem_reverse.1 (List.mem_of_find?_eq_some h), variantOf_pageId h⟩
  · rintro ⟨hv, hid⟩
    cases hw : input.variantOf id with
    | none =>
      have hnone := List.find?_eq_none.1 hw v (List.mem_reverse.2 hv)
      exact absurd (beq_iff_eq.2 hid) hnone
    | some w =>
      have hmem := List.mem_reverse.1 (List.mem_of_find?_eq_some hw)
      rw [List.inj_on_of_nodup_map hkeys hmem hv ((variantOf_pageId hw).trans hid.symm)]

theorem sibling_version {target variant id : String} {t : PageVariant} {group : String} (ht : t ∈ input.pageVariants)
    (htarget : t.pageId = target) (hgroup : t.group = some group) (h : input.sibling group variant = some id) :
    input.Version target variant id := by
  obtain ⟨v, hv, rfl⟩ := Option.map_eq_some_iff.1 h
  have hfound := List.find?_some hv
  simp only [Bool.and_eq_true, beq_iff_eq] at hfound
  obtain ⟨⟨hvgroup, hvariant⟩, hpage⟩ := hfound
  refine ⟨hpage, v, List.mem_of_find?_eq_some hv, rfl, hvariant, Or.inr ⟨t, ht, htarget, ?_, ?_⟩⟩
  · rw [hgroup]
    rfl
  · rw [hgroup, hvgroup]

theorem partitioned_unique (hparts : input.partitioned = true) {v w : PageVariant} (hv : v ∈ input.pageVariants)
    (hw : w ∈ input.pageVariants) (hgroup : v.group.isSome = true) (hsame : v.group = w.group)
    (hvariant : v.variant = w.variant) (hvpage : (input.page v.pageId).isSome = true)
    (hwpage : (input.page w.pageId).isSome = true) : v.pageId = w.pageId := by
  have hall := List.all_eq_true.1 (List.all_eq_true.1 hparts v hv) w hw
  rw [Bool.or_eq_true, beq_iff_eq] at hall
  refine hall.resolve_left fun hnot => ?_
  rw [Bool.not_eq_true'] at hnot
  simp [hsame ▸ hgroup, hsame, hvariant, hvpage, hwpage] at hnot

end SiteLinkIndexInput

open SiteLinkIndexInput

section Variants

variable {input : SiteLinkIndexInput} {target variant : String}

theorem pageInVariant_version (hkeys : input.Keyed) (hparts : input.partitioned = true) {id : String}
    (h : input.Version target variant id) (hknown : (input.page target).isSome = true) :
    input.pageInVariant target (some variant) = some id := by
  obtain ⟨hpage, v, hv, rfl, rfl, hsame⟩ := h
  obtain ⟨t, ht⟩ : ∃ t, input.variantOf target = some t := by
    rcases hsame with rfl | ⟨t, ht, rfl, -, -⟩
    · exact ⟨v, (variantOf_iff hkeys).2 ⟨hv, rfl⟩⟩
    · exact ⟨t, (variantOf_iff hkeys).2 ⟨ht, rfl⟩⟩
  obtain ⟨htmem, htid⟩ := (variantOf_iff hkeys).1 ht
  have hin : t.variant = v.variant → v.pageId = target := by
    intro hvariant
    rcases hsame with rfl | ⟨t', ht', htid', hgroup, hgroups⟩
    · rfl
    · have heq : t' = t := List.inj_on_of_nodup_map hkeys ht' htmem (htid'.trans htid.symm)
      subst heq
      rw [← htid'] at hknown ⊢
      exact (partitioned_unique hparts ht' hv hgroup hgroups hvariant hknown hpage).symm
  unfold pageInVariant
  rw [ht]
  dsimp only
  by_cases hvariant : t.variant = v.variant
  · rw [if_pos hvariant, hin hvariant]
  · rw [if_neg hvariant]
    rcases hsame with rfl | ⟨t', ht', htid', hgroup, hgroups⟩
    · have heq : t = v := List.inj_on_of_nodup_map hkeys htmem hv htid
      exact absurd (by rw [heq]) hvariant
    · have heq : t' = t := List.inj_on_of_nodup_map hkeys ht' htmem (htid'.trans htid.symm)
      subst heq
      obtain ⟨group, hg⟩ := Option.isSome_iff_exists.1 hgroup
      rw [hg, Option.bind_some]
      have hmatch : ∀ w : PageVariant, w ∈ input.pageVariants →
          (w.group == some group && w.variant == v.variant && (input.page w.pageId).isSome) = true →
          w.pageId = v.pageId := by
        intro w hw hwmatch
        simp only [Bool.and_eq_true, beq_iff_eq] at hwmatch
        obtain ⟨⟨hwgroup, hwvariant⟩, hwpage⟩ := hwmatch
        refine partitioned_unique hparts hw hv ?_ ?_ hwvariant hwpage hpage
        · rw [hwgroup]
          rfl
        · rw [hwgroup, ← hgroups, hg]
      unfold sibling
      cases hfind : input.pageVariants.find? fun w =>
          w.group == some group && w.variant == v.variant && (input.page w.pageId).isSome with
      | none =>
        have hno := List.find?_eq_none.1 hfind v hv
        rw [← hgroups, hg] at hno
        simp [hpage] at hno
      | some w =>
        have hfound := List.find?_some (p := fun w : PageVariant =>
          w.group == some group && w.variant == v.variant && (input.page w.pageId).isSome) hfind
        rw [Option.map_some, hmatch w (List.mem_of_find?_eq_some hfind) hfound]

theorem pageInVariant_none (hkeys : input.Keyed) (hno : ∀ id, ¬input.Version target variant id)
    (hvariants : input.variantOf target ≠ none) (hknown : (input.page target).isSome = true) :
    input.pageInVariant target (some variant) = none := by
  obtain ⟨t, ht⟩ := Option.ne_none_iff_exists'.1 hvariants
  obtain ⟨htmem, htid⟩ := (variantOf_iff hkeys).1 ht
  unfold pageInVariant
  rw [ht]
  dsimp only
  have hvariant : t.variant ≠ variant := by
    intro hvariant
    exact hno target ⟨hknown, t, htmem, htid, hvariant, Or.inl rfl⟩
  rw [if_neg hvariant]
  cases hgroup : t.group with
  | none => rfl
  | some group =>
    rw [Option.bind_some]
    cases hsibling : input.sibling group variant with
    | none => rfl
    | some id => exact absurd (sibling_version htmem htid hgroup hsibling) (hno id)

end Variants

/-- A link on a page that is rendered in a variant goes to the version of its target in this variant; where there is
none, it goes nowhere, or in a staging render to the target itself, which the answer says; a target that no plugin has
put in a variant is linked to as it is.  A page that is not published resolves in a preview only. -/
theorem forPage_stays {input : SiteLinkIndexInput} (hkeys : input.Keyed) {rendering : String} {pv : PageVariant}
    (hrendering : input.variantOf rendering = some pv) {resolve : LinkRef → LinkResolution}
    (h : forPage input (some rendering) = some resolve) {target : String} {referenced : IndexPage}
    (hknown : input.page target = some referenced) (query anchor : Option String) :
    (∀ page, input.page page.id = some page → input.Version target pv.variant page.id →
      resolve (.page target query anchor) = input.served query anchor page) ∧
    ((∀ id, ¬input.Version target pv.variant id) → input.variantOf target ≠ none →
      resolve (.page target query anchor) = .noVariant pv.variant (if input.env = .staging then
        some (pageRefUrl query anchor referenced.path input.pageUrlStyle, target) else none)) ∧
    (input.variantOf target = none → resolve (.page target query anchor) = input.served query anchor referenced) ∧
    (∀ url, resolve (.page target query anchor) = .resolved url → ∃ page, input.page page.id = some page ∧
      url = pageRefUrl query anchor page.path input.pageUrlStyle ∧ (page.published = true ∨ input.env = .preview)) := by
  unfold forPage at h
  rw [Option.ite_none_right_eq_some, Option.some.injEq, Option.bind_some, hrendering, Option.map_some] at h
  obtain ⟨hparts, rfl⟩ := h
  have hsome : (input.page target).isSome = true := by
    rw [hknown]
    rfl
  have hresolve : ∀ page, (input.pageInVariant target (some pv.variant)).bind input.page = some page →
      input.resolve (some pv.variant) (.page target query anchor) = input.served query anchor page := by
    intro page hpage
    unfold SiteLinkIndexInput.resolve
    dsimp only
    rw [hknown]
    dsimp only
    rw [hpage]
    rfl
  refine ⟨fun page hpage hversion => hresolve page ?_, fun hno hvariants => ?_, fun hnone => hresolve referenced ?_,
    fun url hurl => ?_⟩
  · rw [pageInVariant_version hkeys hparts hversion hsome, Option.bind_some, hpage]
  · unfold SiteLinkIndexInput.resolve
    dsimp only
    rw [hknown]
    dsimp only
    rw [pageInVariant_none hkeys hno hvariants hsome]
    rfl
  · unfold pageInVariant
    rw [hnone]
    exact hknown
  · cases hpage : (input.pageInVariant target (some pv.variant)).bind input.page with
    | none =>
      unfold SiteLinkIndexInput.resolve at hurl
      dsimp only at hurl
      rw [hknown] at hurl
      dsimp only at hurl
      rw [hpage] at hurl
      cases hurl
    | some page =>
      rw [hresolve page hpage] at hurl
      obtain ⟨id, -, hid⟩ := Option.bind_eq_some_iff.1 hpage
      have hsame : input.page page.id = some page := by
        rw [page_id hid]
        exact hid
      unfold served at hurl
      dsimp only at hurl
      split at hurl
      · cases hurl
      · rename_i hserved
        cases hurl
        refine ⟨page, hsame, rfl, ?_⟩
        by_cases hpreview : input.env = .preview
        · exact Or.inr hpreview
        · exact Or.inl (by simpa using fun hdraft => hserved ⟨hpreview, hdraft⟩)

def twoLanguages (env : RenderEnv) : SiteLinkIndexInput where
  pages := [⟨"home", "/".toList, true⟩, ⟨"start", "/de".toList, true⟩, ⟨"jobs", "/jobs".toList, false⟩]
  media := []
  env := env
  pageUrlStyle := .directory
  pageVariants := [⟨"home", "en", some "1"⟩, ⟨"start", "de", some "1"⟩, ⟨"jobs", "en", none⟩]

theorem twoLanguages_keyed (env : RenderEnv) : (twoLanguages env).Keyed := by
  show ["home", "start", "jobs"].Nodup
  decide

theorem forPage_stays_home : ∃ resolve, forPage (twoLanguages .production) (some "start") = some resolve ∧
    ((∀ page, (twoLanguages .production).page page.id = some page → (twoLanguages .production).Version "home" "de" page.id →
      resolve (.page "home" none none) = (twoLanguages .production).served none none page) ∧
    ((∀ id, ¬(twoLanguages .production).Version "home" "de" id) → (twoLanguages .production).variantOf "home" ≠ none →
      resolve (.page "home" none none) = .noVariant "de" (if RenderEnv.production = .staging then
        some (pageRefUrl none none "/".toList .directory, "home") else none)) ∧
    ((twoLanguages .production).variantOf "home" = none → resolve (.page "home" none none) =
      (twoLanguages .production).served none none ⟨"home", "/".toList, true⟩) ∧
    (∀ url, resolve (.page "home" none none) = .resolved url → ∃ page, (twoLanguages .production).page page.id = some page ∧
      url = pageRefUrl none none page.path .directory ∧ (page.published = true ∨ RenderEnv.production = .preview))) := by
  have hrendering : (twoLanguages .production).variantOf "start" = some ⟨"start", "de", some "1"⟩ := by decide
  have hpage : forPage (twoLanguages .production) (some "start") = some _ := rfl
  exact ⟨_, hpage, forPage_stays (twoLanguages_keyed _) hrendering hpage (by decide) none none⟩

/-- The draft, which is English, is linked to from a German page. -/
theorem forPage_leaves : ∃ resolve, forPage (twoLanguages .staging) (some "start") = some resolve ∧
    resolve (.page "jobs" none none) = .noVariant "de" (some ("/jobs/".toList, "jobs")) ∧
    (twoLanguages .staging).variantOf "jobs" = some ⟨"jobs", "en", none⟩ ∧
    ∀ id, ¬(twoLanguages .staging).Version "jobs" "de" id := by
  refine ⟨_, rfl, by decide, by decide, ?_⟩
  rintro id ⟨-, v, hv, rfl, hvariant, hsame⟩
  have hstart : v = ⟨"start", "de", some "1"⟩ := by
    revert hvariant
    revert v
    decide
  subst hstart
  rcases hsame with h | ⟨t, ht, htid, hgroup, -⟩
  · exact absurd h (by decide)
  · revert hgroup htid
    revert t
    decide

end CaeloCms.Link
