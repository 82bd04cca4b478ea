import CaeloCms.Lib.InsertionMap
import CaeloCms.Lib.OrderedSet

/-!
# URL slots

A plugin claims slots of the URL grammar when it is registered, and `full-path` excludes the others.  Whether the claims
of a plugin count depends on whether it is disabled, which changes without a check: the slots stay exclusive as long as no
plugin is enabled into a conflict, and no longer (`slots_exclusive_iff`).
-/

namespace CaeloCms.Plugin

/-! ### The registry -/

inductive UrlSlot
  | host
  | pathPrefix
  | slugFormat
  | fullPath
deriving DecidableEq

def UrlSlot.text : UrlSlot → String
  | .host => "host"
  | .pathPrefix => "path-prefix"
  | .slugFormat => "slug-format"
  | .fullPath => "full-path"

variable {γ : Type}

/-- `UrlContributionDef`: a slot with the code that fills it. -/
structure UrlContributionDef (γ : Type) where
  slot : UrlSlot
  code : γ

structure RegisteredUrlContribution (γ : Type) where
  pluginSlug : String
  contribution : UrlContributionDef γ

abbrev Claims (γ : Type) := List (UrlSlot × RegisteredUrlContribution γ)

/-- `UrlContributionsRegistry`, with the set of disabled plugins it asks. -/
structure Registry (γ : Type) where
  bySlot : Claims γ
  annotationOps : List (String × String)
  disabledSlugs : List String

def Registry.empty : Registry γ := ⟨[], [], []⟩

/-- The slots that count. -/
def activeClaims (disabledSlugs : List String) (claimed : Claims γ) : Claims γ :=
  claimed.filter fun e => e.2.pluginSlug ∉ disabledSlugs

/-- The checks for `full-path` in a round of the loop of `assertClaimable`, and the claim. -/
def claimExclusive (disabledSlugs : List String) (pluginSlug : String) (claimed : Claims γ) (c : UrlContributionDef γ) :
    Except String (Claims γ) :=
  let active := (activeClaims disabledSlugs claimed).map Prod.fst
  if c.slot = .fullPath then
    if active.any (fun s => s ≠ .fullPath) then
      .error ("URL slot \"full-path\" is exclusive with every other slot, but " ++
        ", ".intercalate (active.map UrlSlot.text) ++ " are claimed.")
    else .ok (InsertionMap.set claimed c.slot ⟨pluginSlug, c⟩)
  else
    match InsertionMap.get claimed .fullPath with
    | none => .ok (InsertionMap.set claimed c.slot ⟨pluginSlug, c⟩)
    | some holder =>
      .error ("URL slot \"" ++ c.slot.text ++ "\" cannot be claimed while \"" ++ holder.pluginSlug ++
        "\" holds \"full-path\" (exclusive).")

/-- A round of the loop. -/
def claim (disabledSlugs : List String) (pluginSlug : String) (claimed : Claims γ) (c : UrlContributionDef γ) :
    Except String (Claims γ) :=
  match InsertionMap.get claimed c.slot with
  | none => claimExclusive disabledSlugs pluginSlug claimed c
  | some existing =>
    if existing.pluginSlug ≠ pluginSlug then
      .error ("URL slot \"" ++ c.slot.text ++ "\" is already claimed by plugin \"" ++ existing.pluginSlug ++
        "\" — conflicts with \"" ++ pluginSlug ++ "\". Slots are exclusive; deactivate one of the plugins.")
    else claimExclusive disabledSlugs pluginSlug claimed c

def claimAll (disabledSlugs : List String) (pluginSlug : String) :
    Claims γ → List (UrlContributionDef γ) → Except String (Claims γ)
  | claimed, [] => .ok claimed
  | claimed, c :: contributions =>
    (claim disabledSlugs pluginSlug claimed c).bind fun claimed => claimAll disabledSlugs pluginSlug claimed contributions

/-- Nothing, or the error that is thrown. -/
def Registry.assertClaimable (r : Registry γ) (pluginSlug : String) (contributions : List (UrlContributionDef γ)) :
    Except String Unit :=
  (claimAll r.disabledSlugs pluginSlug r.bySlot contributions).map fun _ => ()

def Registry.register (r : Registry γ) (pluginSlug : String) (contributions : List (UrlContributionDef γ))
    (annotationsOperation : Option String) : Except String (Registry γ) :=
  (r.assertClaimable pluginSlug contributions).map fun _ =>
    { r with
      bySlot := contributions.foldl (fun m c => InsertionMap.set m c.slot ⟨pluginSlug, c⟩) r.bySlot
      annotationOps :=
        match annotationsOperation with
        | none => r.annotationOps
        | some operation => InsertionMap.set r.annotationOps pluginSlug operation }

def Registry.unregisterPlugin (r : Registry γ) (pluginSlug : String) : Registry γ :=
  { r with
    bySlot := r.bySlot.filter fun e => e.2.pluginSlug ≠ pluginSlug
    annotationOps := InsertionMap.erase r.annotationOps pluginSlug }

def Registry.setPluginDisabled (r : Registry γ) (slug : String) (disabled : Bool) : Registry γ :=
  { r with
    disabledSlugs := if disabled then OrderedSet.add r.disabledSlugs slug else r.disabledSlugs.filter (· ≠ slug) }

def Registry.slotHolder (r : Registry γ) (slot : UrlSlot) : Option (RegisteredUrlContribution γ) :=
  (InsertionMap.get r.bySlot slot).filter fun e => e.pluginSlug ∉ r.disabledSlugs

/-- `deregisterPlugin`, as far as the registry sees it. -/
def Registry.deregisterPlugin (r : Registry γ) (slug : String) : Registry γ :=
  (r.setPluginDisabled slug false).unregisterPlugin slug

/-! ### Runs -/

inductive Op (γ : Type)
  | register (pluginSlug : String) (contributions : List (UrlContributionDef γ)) (annotationsOperation : Option String)
  | unregister (pluginSlug : String)
  | deregister (pluginSlug : String)
  | disable (pluginSlug : String)
  | enable (pluginSlug : String)

/-- A registration that is refused throws before it has changed anything. -/
def Registry.step (r : Registry γ) : Op γ → Registry γ
  | .register slug contributions operation =>
    match r.register slug contributions operation with
    | .error _ => r
    | .ok r' => r'
  | .unregister slug => r.unregisterPlugin slug
  | .deregister slug => r.deregisterPlugin slug
  | .disable slug => r.setPluginDisabled slug true
  | .enable slug => r.setPluginDisabled slug false

def run (ops : List (Op γ)) : Registry γ := ops.foldl Registry.step Registry.empty

/-! ### Exclusive slots -/

/-- Each slot has at most one contribution that counts, and `full-path` has one only if no other slot has. -/
structure SlotsExclusive (r : Registry γ) : Prop where
  one : ∀ slot, ((activeClaims r.disabledSlugs r.bySlot).filter fun e => e.1 = slot).length ≤ 1
  alone : r.slotHolder .fullPath ≠ none → ∀ slot, slot ≠ .fullPath → r.slotHolder slot = none

/-- The claims that count are all of `full-path`, or none is. -/
def Agree (disabledSlugs : List String) (claimed : Claims γ) : Prop :=
  ∀ e ∈ activeClaims disabledSlugs claimed, ∀ e' ∈ activeClaims disabledSlugs claimed, e.1 = .fullPath ↔ e'.1 = .fullPath

/-- What the plugin holds goes with what counts, and with the rest it holds. -/
def EnableFits (r : Registry γ) (slug : String) : Prop :=
  ∀ e ∈ r.bySlot, e.2.pluginSlug = slug →
    ∀ e' ∈ r.bySlot, e'.2.pluginSlug = slug ∨ e'.2.pluginSlug ∉ r.disabledSlugs → (e.1 = .fullPath ↔ e'.1 = .fullPath)

def RefusalKeeps (r : Registry γ) : Prop :=
  ∀ slug contributions operation error, r.assertClaimable slug contributions = .error error →
    r.step (.register slug contributions operation) = r

variable {disabledSlugs : List String} {pluginSlug : String}

theorem mem_activeClaims {claimed : Claims γ} {e : UrlSlot × RegisteredUrlContribution γ} :
    e ∈ activeClaims disabledSlugs claimed ↔ e ∈ claimed ∧ e.2.pluginSlug ∉ disabledSlugs := by
  simp [activeClaims]

theorem slotHolder_eq_some {r : Registry γ} (hnodup : (r.bySlot.map Prod.fst).Nodup) {slot : UrlSlot}
    {e : RegisteredUrlContribution γ} :
    r.slotHolder slot = some e ↔ (slot, e) ∈ activeClaims r.disabledSlugs r.bySlot := by
  rw [Registry.slotHolder, Option.filter_eq_some_iff, InsertionMap.get_eq_some hnodup, mem_activeClaims]
  simp

theorem slotsExclusive_iff {r : Registry γ} (hnodup : (r.bySlot.map Prod.fst).Nodup) :
    SlotsExclusive r ↔ Agree r.disabledSlugs r.bySlot := by
  constructor
  · rintro ⟨-, halone⟩
    have hone : ∀ e ∈ activeClaims r.disabledSlugs r.bySlot, ∀ e' ∈ activeClaims r.disabledSlugs r.bySlot,
        e.1 = .fullPath → e'.1 = .fullPath := by
      rintro ⟨slot, c⟩ he ⟨slot', c'⟩ he' rfl
      by_contra hother
      have hholder := (slotHolder_eq_some hnodup).mpr he
      have hnone := halone (by rw [hholder]; exact Option.some_ne_none c) slot' hother
      rw [(slotHolder_eq_some hnodup).mpr he'] at hnone
      cases hnone
    exact fun e he e' he' => ⟨hone e he e' he', hone e' he' e he⟩
  · intro hagree
    refine ⟨fun slot => ?_, fun hfull slot hother => ?_⟩
    · have hkeys : ((activeClaims r.disabledSlugs r.bySlot).filter fun e => e.1 = slot).map Prod.fst =
          List.replicate ((activeClaims r.disabledSlugs r.bySlot).filter fun e => e.1 = slot).length slot := by
        refine List.eq_replicate_iff.mpr ⟨List.length_map _, fun k hk => ?_⟩
        obtain ⟨e, he, rfl⟩ := List.mem_map.mp hk
        simpa using (List.mem_filter.mp he).2
      have hsub := (List.filter_sublist (p := fun e => decide (e.1 = slot))).trans
        (List.filter_sublist (p := fun e : UrlSlot × RegisteredUrlContribution γ => e.2.pluginSlug ∉ r.disabledSlugs)
          (l := r.bySlot))
      have hrep := hnodup.sublist (hsub.map Prod.fst)
      change (((activeClaims r.disabledSlugs r.bySlot).filter fun e => e.1 = slot).map Prod.fst).Nodup at hrep
      rw [hkeys, List.nodup_replicate] at hrep
      exact hrep
    · obtain ⟨e, he⟩ := Option.ne_none_iff_exists'.mp hfull
      by_contra hsome
      obtain ⟨e', he'⟩ := Option.ne_none_iff_exists'.mp hsome
      have hactive := (slotHolder_eq_some hnodup).mp he
      have hactive' := (slotHolder_eq_some hnodup).mp he'
      exact hother ((hagree _ hactive _ hactive').mp rfl)

/-! ### Registering -/

theorem claim_eq_ok {claimed claimed' : Claims γ}
    {c : UrlContributionDef γ} (h : claim disabledSlugs pluginSlug claimed c = .ok claimed') :
    claimed' = InsertionMap.set claimed c.slot ⟨pluginSlug, c⟩ ∧
      (c.slot = .fullPath → ∀ e ∈ activeClaims disabledSlugs claimed, e.1 = .fullPath) ∧
      (c.slot ≠ .fullPath → InsertionMap.get claimed .fullPath = none) := by
  have hexclusive : claimExclusive disabledSlugs pluginSlug claimed c = .ok claimed' := by
    unfold claim at h
    cases hheld : InsertionMap.get claimed c.slot with
    | none =>
      rw [hheld] at h
      exact h
    | some existing =>
      rw [hheld] at h
      dsimp only at h
      by_cases hother : existing.pluginSlug ≠ pluginSlug
      · rw [if_pos hother] at h
        cases h
      · rw [if_neg hother] at h
        exact h
  unfold claimExclusive at hexclusive
  dsimp only at hexclusive
  by_cases hfull : c.slot = .fullPath
  · rw [if_pos hfull] at hexclusive
    by_cases hactive : ((activeClaims disabledSlugs claimed).map Prod.fst).any (fun s => s ≠ .fullPath) = true
    · rw [if_pos hactive] at hexclusive
      cases hexclusive
    · rw [if_neg hactive] at hexclusive
      cases hexclusive
      refine ⟨rfl, fun _ e he => ?_, fun hne => absurd hfull hne⟩
      by_contra hother
      exact hactive (List.any_eq_true.mpr ⟨e.1, List.mem_map_of_mem he, by simpa using hother⟩)
  · rw [if_neg hfull] at hexclusive
    cases hholder : InsertionMap.get claimed .fullPath with
    | none =>
      rw [hholder] at hexclusive
      cases hexclusive
      exact ⟨rfl, fun heq => absurd heq hfull, fun _ => rfl⟩
    | some holder =>
      rw [hholder] at hexclusive
      cases hexclusive

theorem mem_set {claimed : Claims γ} {slot : UrlSlot} {c : RegisteredUrlContribution γ}
    {e : UrlSlot × RegisteredUrlContribution γ} (h : e ∈ InsertionMap.set claimed slot c) : e = (slot, c) ∨ e ∈ claimed := by
  unfold InsertionMap.set at h
  by_cases hhas : InsertionMap.has claimed slot = true
  · rw [if_pos hhas] at h
    obtain ⟨p, hp, rfl⟩ := List.mem_map.mp h
    by_cases hslot : p.1 = slot
    · exact .inl (if_pos hslot)
    · rw [if_neg hslot]
      exact .inr hp
  · rw [if_neg hhas] at h
    exact (List.mem_append.mp h).symm.imp_left List.mem_singleton.mp

theorem agree_claim {claimed claimed' : Claims γ}
    {c : UrlContributionDef γ} (hnodup : (claimed.map Prod.fst).Nodup)
    (h : claim disabledSlugs pluginSlug claimed c = .ok claimed') :
    (claimed'.map Prod.fst).Nodup ∧ Agree disabledSlugs claimed' := by
  obtain ⟨rfl, hfull, hother⟩ := claim_eq_ok h
  refine ⟨InsertionMap.nodup_set hnodup _ _, ?_⟩
  have hsame : ∀ e ∈ activeClaims disabledSlugs (InsertionMap.set claimed c.slot ⟨pluginSlug, c⟩),
      e.1 = .fullPath ↔ c.slot = .fullPath := by
    intro e he
    obtain ⟨hmem, hactive⟩ := mem_activeClaims.mp he
    rcases mem_set hmem with rfl | hold
    · exact Iff.rfl
    · by_cases hslot : c.slot = .fullPath
      · exact iff_of_true (hfull hslot e (mem_activeClaims.mpr ⟨hold, hactive⟩)) hslot
      · refine iff_of_false (fun heq => ?_) hslot
        have hget := (InsertionMap.get_eq_some hnodup).mpr (show (.fullPath, e.2) ∈ claimed from heq ▸ hold)
        rw [hother hslot] at hget
        cases hget
  exact fun e he e' he' => (hsame e he).trans (hsame e' he').symm

theorem claimAll_eq_ok {contributions : List (UrlContributionDef γ)}
    {claimed claimed' : Claims γ} (hnodup : (claimed.map Prod.fst).Nodup) (hagree : Agree disabledSlugs claimed)
    (h : claimAll disabledSlugs pluginSlug claimed contributions = .ok claimed') :
    claimed' = contributions.foldl (fun m c => InsertionMap.set m c.slot ⟨pluginSlug, c⟩) claimed ∧
      (claimed'.map Prod.fst).Nodup ∧ Agree disabledSlugs claimed' := by
  induction contributions generalizing claimed with
  | nil =>
    cases h
    exact ⟨rfl, hnodup, hagree⟩
  | cons c contributions ih =>
    rw [claimAll] at h
    cases hc : claim disabledSlugs pluginSlug claimed c with
    | error e =>
      rw [hc] at h
      cases h
    | ok next =>
      rw [hc] at h
      obtain ⟨hnodup', hagree'⟩ := agree_claim hnodup hc
      obtain rfl := (claim_eq_ok hc).1
      exact ih hnodup' hagree' h

/-! ### Steps and runs -/

/-- The slots are exclusive, and no slot is claimed twice. -/
structure Sound (r : Registry γ) : Prop where
  nodup : (r.bySlot.map Prod.fst).Nodup
  agree : Agree r.disabledSlugs r.bySlot

theorem Agree.mono {disabledSlugs' : List String} {claimed claimed' : Claims γ}
    (h : Agree disabledSlugs claimed)
    (hsub : ∀ e ∈ activeClaims disabledSlugs' claimed', e ∈ activeClaims disabledSlugs claimed) :
    Agree disabledSlugs' claimed' :=
  fun e he e' he' => h e (hsub e he) e' (hsub e' he')

theorem Sound.register {r r' : Registry γ} (h : Sound r) {slug : String} {contributions : List (UrlContributionDef γ)}
    {operation : Option String} (hr : r.register slug contributions operation = .ok r') : Sound r' := by
  unfold Registry.register Registry.assertClaimable at hr
  cases hclaim : claimAll r.disabledSlugs slug r.bySlot contributions with
  | error e =>
    rw [hclaim] at hr
    cases hr
  | ok claimed =>
    rw [hclaim] at hr
    cases hr
    obtain ⟨heq, hnodup, hagree⟩ := claimAll_eq_ok h.nodup h.agree hclaim
    rw [heq] at hnodup hagree
    exact ⟨hnodup, hagree⟩

theorem Sound.unregisterPlugin {r : Registry γ} (h : Sound r) (slug : String) : Sound (r.unregisterPlugin slug) := by
  refine ⟨h.nodup.sublist (List.filter_sublist.map Prod.fst), h.agree.mono fun e he => ?_⟩
  obtain ⟨hmem, hactive⟩ := mem_activeClaims.mp he
  exact mem_activeClaims.mpr ⟨(List.mem_filter.mp hmem).1, hactive⟩

theorem Sound.deregisterPlugin {r : Registry γ} (h : Sound r) (slug : String) : Sound (r.deregisterPlugin slug) := by
  refine ⟨h.nodup.sublist (List.filter_sublist.map Prod.fst), h.agree.mono fun e he => ?_⟩
  obtain ⟨hmem, hactive⟩ := mem_activeClaims.mp he
  obtain ⟨hclaimed, hother⟩ := List.mem_filter.mp hmem
  refine mem_activeClaims.mpr ⟨hclaimed, fun hdisabled => hactive ?_⟩
  exact List.mem_filter.mpr ⟨hdisabled, hother⟩

theorem Sound.disable {r : Registry γ} (h : Sound r) (slug : String) : Sound (r.setPluginDisabled slug true) := by
  refine ⟨h.nodup, h.agree.mono fun e he => ?_⟩
  obtain ⟨hmem, hactive⟩ := mem_activeClaims.mp he
  exact mem_activeClaims.mpr ⟨hmem, fun hdisabled => hactive (OrderedSet.mem_add.mpr (.inl hdisabled))⟩

/-- Enabling a plugin keeps the slots exclusive exactly if its claims fit. -/
theorem Sound.enable_iff {r : Registry γ} (h : Sound r) (slug : String) :
    Sound (r.setPluginDisabled slug false) ↔ EnableFits r slug := by
  have hactive : ∀ e, e ∈ activeClaims (r.setPluginDisabled slug false).disabledSlugs r.bySlot ↔
      e ∈ r.bySlot ∧ (e.2.pluginSlug = slug ∨ e.2.pluginSlug ∉ r.disabledSlugs) := by
    intro e
    rw [mem_activeClaims]
    refine and_congr_right fun _ => ?_
    show e.2.pluginSlug ∉ r.disabledSlugs.filter (· ≠ slug) ↔ _
    rw [List.mem_filter, decide_eq_true_eq, not_and_or, not_not, or_comm]
  constructor
  · intro hsound e he hslug e' he' hcounts
    exact hsound.agree e ((hactive e).mpr ⟨he, .inl hslug⟩) e' ((hactive e').mpr ⟨he', hcounts⟩)
  · intro hfits
    refine ⟨h.nodup, fun e he e' he' => ?_⟩
    obtain ⟨hmem, hcounts⟩ := (hactive e).mp he
    obtain ⟨hmem', hcounts'⟩ := (hactive e').mp he'
    rcases hcounts with hslug | hon
    · exact hfits e hmem hslug e' hmem' hcounts'
    · rcases hcounts' with hslug' | hon'
      · exact (hfits e' hmem' hslug' e hmem (.inr hon)).symm
      · exact h.agree e (mem_activeClaims.mpr ⟨hmem, hon⟩) e' (mem_activeClaims.mpr ⟨hmem', hon'⟩)

theorem Sound.step_iff {r : Registry γ} (h : Sound r) (op : Op γ) :
    Sound (r.step op) ↔ ∀ slug, op = .enable slug → EnableFits r slug := by
  cases op with
  | register slug contributions operation =>
    refine iff_of_true ?_ (by rintro _ ⟨⟩)
    unfold Registry.step
    dsimp only
    cases hr : r.register slug contributions operation with
    | error e => exact h
    | ok r' => exact h.register hr
  | unregister slug => exact iff_of_true (h.unregisterPlugin slug) (by rintro _ ⟨⟩)
  | deregister slug => exact iff_of_true (h.deregisterPlugin slug) (by rintro _ ⟨⟩)
  | disable slug => exact iff_of_true (h.disable slug) (by rintro _ ⟨⟩)
  | enable slug =>
    refine (h.enable_iff slug).trans ⟨?_, fun hfits => hfits slug rfl⟩
    rintro hfits _ ⟨⟩
    exact hfits

theorem run_concat (ops : List (Op γ)) (op : Op γ) : run (ops ++ [op]) = (run ops).step op := by
  simp [run]

theorem sound_empty : Sound (run ([] : List (Op γ))) := by
  refine ⟨List.nodup_nil, fun e he => ?_⟩
  cases he

theorem nodup_foldl_set (pluginSlug : String) (contributions : List (UrlContributionDef γ)) {claimed : Claims γ}
    (h : (claimed.map Prod.fst).Nodup) :
    ((contributions.foldl (fun m c => InsertionMap.set m c.slot ⟨pluginSlug, c⟩) claimed).map Prod.fst).Nodup := by
  induction contributions generalizing claimed with
  | nil => exact h
  | cons c contributions ih => exact ih (InsertionMap.nodup_set h _ _)

theorem nodup_run (ops : List (Op γ)) : ((run ops).bySlot.map Prod.fst).Nodup := by
  induction ops using List.reverseRecOn with
  | nil => exact List.nodup_nil
  | append_singleton ops op ih =>
    rw [run_concat]
    cases op with
    | register slug contributions operation =>
      unfold Registry.step
      dsimp only
      cases hr : (run ops).register slug contributions operation with
      | error e => exact ih
      | ok r' =>
        unfold Registry.register at hr
        cases hclaim : (run ops).assertClaimable slug contributions with
        | error e =>
          rw [hclaim] at hr
          cases hr
        | ok _ =>
          rw [hclaim] at hr
          cases hr
          exact nodup_foldl_set slug contributions ih
    | unregister slug => exact ih.sublist (List.filter_sublist.map Prod.fst)
    | deregister slug => exact ih.sublist (List.filter_sublist.map Prod.fst)
    | disable slug => exact ih
    | enable slug => exact ih

theorem refusalKeeps (r : Registry γ) : RefusalKeeps r := by
  intro slug contributions operation error h
  unfold Registry.step Registry.register
  dsimp only
  rw [h]
  rfl

/-- The slots are exclusive in every state of a run, and refused registrations change nothing, if and only if no plugin is
enabled into a conflict. -/
theorem slots_exclusive_iff (ops : List (Op γ)) :
    (∀ done, done <+: ops → SlotsExclusive (run done) ∧ RefusalKeeps (run done)) ↔
      ∀ done slug, done ++ [.enable slug] <+: ops → EnableFits (run done) slug := by
  have hsound : (∀ done, done <+: ops → Sound (run done)) ↔
      ∀ done slug, done ++ [.enable slug] <+: ops → EnableFits (run done) slug := by
    constructor
    · intro h done slug hdone
      have hstep := h _ hdone
      rw [run_concat] at hstep
      exact ((h done ((List.prefix_append _ _).trans hdone)).step_iff _).mp hstep slug rfl
    · intro h done hdone
      induction done using List.reverseRecOn with
      | nil => exact sound_empty
      | append_singleton done op ih =>
        rw [run_concat]
        refine ((ih ((List.prefix_append _ _).trans hdone)).step_iff op).mpr ?_
        rintro slug rfl
        exact h done slug hdone
  rw [← hsound]
  refine forall₂_congr fun done _ => ?_
  have hnodup := nodup_run done
  rw [slotsExclusive_iff hnodup]
  exact ⟨fun h => ⟨hnodup, h.1⟩, fun h => ⟨h.agree, refusalKeeps _⟩⟩

/-- A prefix is claimed, its plugin is disabled, `full-path` is claimed, and the first plugin is enabled. -/
def prefixThenFullPath : List (Op Unit) :=
  [.register "lang" [⟨.pathPrefix, ()⟩] none, .disable "lang", .register "flat" [⟨.fullPath, ()⟩] none, .enable "lang"]

/-- Both plugins shape the path. -/
theorem slots_not_exclusive :
    (run prefixThenFullPath).slotHolder .fullPath = some ⟨"flat", ⟨.fullPath, ()⟩⟩ ∧
      (run prefixThenFullPath).slotHolder .pathPrefix = some ⟨"lang", ⟨.pathPrefix, ()⟩⟩ ∧
      ¬ ∀ done, done <+: prefixThenFullPath → SlotsExclusive (run done) ∧ RefusalKeeps (run done) := by
  have hfull : (run prefixThenFullPath).slotHolder .fullPath = some ⟨"flat", ⟨.fullPath, ()⟩⟩ := rfl
  have hstarts : (run prefixThenFullPath).slotHolder .pathPrefix = some ⟨"lang", ⟨.pathPrefix, ()⟩⟩ := rfl
  refine ⟨hfull, hstarts, fun h => ?_⟩
  have halone := (h _ List.prefix_rfl).1.alone
  rw [hfull] at halone
  have hnone := halone (by rintro ⟨⟩) .pathPrefix (by decide)
  rw [hstarts] at hnone
  cases hnone

end CaeloCms.Plugin
