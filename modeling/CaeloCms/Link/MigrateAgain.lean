import CaeloCms.Link.Again
import CaeloCms.Link.Convert
import CaeloCms.Link.RevertExact

/-!
# Migrating again

The migration runs the canonicaliser of a write (`computes_canonicaliseHtmlLinks`), and that stores its own output
unchanged where the output is cut into the same attributes.  So a second migration changes nothing of what the first
one stored, whichever of the two needed the lookup.
-/

namespace CaeloCms.Link.Asking

open Redirect (Url)

variable {α : Type} {json : α → Json} {apply : α → Canon α} {lookup : LinkTargets} {value out : α} {run : Run}

/-- The canonicaliser gives a result of every value, with the lookup that only records being asked, too. -/
def Total (apply : α → Canon α) (lookup : LinkTargets) : Prop :=
  ∀ v, (apply v lookup (linkCanonicaliseRun [])).result.isSome = true

theorem Total.probe (h : Total apply nothing) (v : α) : ∃ probe, probeLinkLookup (apply v) = some probe := by
  obtain ⟨r, hr⟩ := Option.isSome_iff_exists.mp (h v)
  exact ⟨_, by rw [probeLinkLookup, hr, Option.map_some]⟩

/-- What is stored is what the canonicaliser gives with the site's lookup. -/
theorem convert_next (htotal : Total apply nothing) (hhonest : Honest (apply value) value)
    (hshape : Yields (apply value) fun out => shape (json out) = shape (json value)) (hjson : Function.Injective json)
    (h : (apply value lookup (linkCanonicaliseRun [])).result = some (out, run)) :
    ∃ first, convert json value lookup (apply value) = some first ∧ first.next = out := by
  obtain ⟨probe, hprobe⟩ := htotal.probe value
  unfold convert
  rw [hprobe, Option.bind_some]
  cases hneeds : probe.needsLookup with
  | false =>
    rw [(hhonest.probe hprobe hneeds).2] at h
    obtain ⟨rfl, -⟩ := Prod.mk.inj (Option.some.inj h)
    exact ⟨_, rfl, rfl⟩
  | true =>
    rw [Bool.not_true, if_neg Bool.false_ne_true, h, Option.map_some]
    refine ⟨_, rfl, ?_⟩
    dsimp only
    cases hsame : sameStableJson (json out) (json value) with
    | false => rfl
    | true => exact (hjson (eq_of_sameStableJson (hshape.yields lookup _ _ h) hsame)).symm

/-- A value that the canonicaliser gives back is left as it is. -/
theorem convert_unchanged (htotal : Total apply nothing)
    (h : (apply value lookup (linkCanonicaliseRun [])).result = some (value, run)) :
    ∃ again, convert json value lookup (apply value) = some again ∧ again.next = value ∧ again.changed = false ∧
      again.converted = 0 := by
  obtain ⟨probe, hprobe⟩ := htotal.probe value
  have hsame : sameStableJson (json value) (json value) = true := Migration.sameText_self _
  unfold convert
  rw [hprobe, Option.bind_some]
  cases hneeds : probe.needsLookup with
  | false => exact ⟨_, rfl, rfl, rfl, rfl⟩
  | true =>
    rw [Bool.not_true, if_neg Bool.false_ne_true, h, Option.map_some]
    exact ⟨_, rfl, by simp [hsame]⟩

/-- The first migration stores something that the second one leaves as it is. -/
def Settles (converted : α → Option (PartOutcome α)) (value : α) : Prop :=
  ∃ first again, converted value = some first ∧ converted first.next = some again ∧ again.next = first.next ∧
    again.changed = false ∧ again.converted = 0

theorem settles_convert (htotal : Total apply nothing) (hhonest : Honest (apply value) value)
    (hshape : Yields (apply value) fun out => shape (json out) = shape (json value)) (hjson : Function.Injective json)
    (h : (apply value lookup (linkCanonicaliseRun [])).result = some (out, run))
    {run' : Run} (hagain : (apply out lookup (linkCanonicaliseRun [])).result = some (out, run')) :
    Settles (fun v => convert json v lookup (apply v)) value := by
  obtain ⟨first, hfirst, rfl⟩ := convert_next htotal hhonest hshape hjson h
  obtain ⟨again, hconvert, hnext⟩ := convert_unchanged htotal hagain
  exact ⟨first, again, hfirst, hconvert, hnext⟩

/-- The lookup of the probe, whose ids are those of no row. -/
def noTargets : LinkTargetLookup := { nothing with pageIds := nofun, mediaIds := nofun, served := nofun }

theorem echoes_start : Echoes [] (linkCanonicaliseRun []) (linkCanonicaliseRun []) := ⟨rfl, fun _ => Or.inl⟩

/-- What a migration of a module's HTML or of a column of any JSON stores, the next migration leaves as it is. -/
theorem migration_settles (parseUrl : List Char → Option Url) (lookup : LinkTargetLookup) :
    (∀ html, Aligned parseUrl lookup html → Settles (fun html => convertModuleHtml parseUrl html lookup) html) ∧
    ∀ column value, AllAligned parseUrl lookup (jsonStrings value (isLinkKeyName column)) →
      Settles (fun value => convertPluginValue parseUrl column value none lookup) value := by
  constructor
  · intro html haligned
    have htotal : Total (fun html => canonicaliseHtmlLinks parseUrl html "html") nothing := by
      intro html
      obtain ⟨run, hrun⟩ := @canonicaliseHtmlLinks_text parseUrl noTargets html (linkCanonicaliseRun []) "html"
      rw [(computes_canonicaliseHtmlLinks html "html").result]
      exact Option.isSome_iff_exists.mpr ⟨_, hrun⟩
    obtain ⟨run, again, hrun, hagain, -⟩ := canonicaliseHtmlLinks_steady "html" haligned _ _ _ echoes_start
    exact settles_convert htotal (honest_canonicaliseHtmlLinks html "html") ⟨fun _ _ _ _ => rfl⟩ htmlJson_injective
      (((computes_canonicaliseHtmlLinks html "html").result lookup _).trans hrun)
      (((computes_canonicaliseHtmlLinks _ "html").result lookup _).trans hagain)
  · intro column value haligned
    have htotal : Total (fun value => pluginApply parseUrl column value none) nothing := by
      intro value
      obtain ⟨run, hrun⟩ :=
        @canonicaliseJsonLinks_text parseUrl noTargets value (linkCanonicaliseRun []) column (isLinkKeyName column)
      exact Option.isSome_iff_exists.mpr ⟨_, ((computes_canonicaliseJsonLinks value column _).result nothing _).trans hrun⟩
    obtain ⟨run, again, hrun, hagain, -⟩ := canonicaliseJsonLinks_steady value column _ haligned _ _ _ echoes_start
    exact settles_convert htotal (honest_pluginApply column value none) (yields_pluginApply column value none)
      Function.injective_id (((computes_canonicaliseJsonLinks value column _).result lookup _).trans hrun)
      (((computes_canonicaliseJsonLinks _ column _).result lookup _).trans hagain)

theorem migration_settles_about :
    Settles (fun html => convertModuleHtml noUrl html aboutSite) "<a href=\" /about#team\">".toList ∧
      Settles (fun value => convertPluginValue noUrl "cta" value none aboutSite) (.obj [("href", .str "/about")]) := by
  have hstrings : jsonStrings (.obj [("href", .str "/about")]) (isLinkKeyName "cta") = [(true, "/about".toList)] := by
    decide +kernel
  refine ⟨(migration_settles noUrl aboutSite).1 _ ?_, (migration_settles noUrl aboutSite).2 "cta" _ ?_⟩
  · unfold Aligned
    decide
  · rw [hstrings]
    intro x hx hhtml
    rw [List.mem_singleton.1 hx] at hhtml
    cases hhtml

end CaeloCms.Link.Asking
