import CaeloCms.Link.Probe

/-!
# What the migration stores

A canonicaliser changes strings and nothing else of a JSON value, so two results with the same `stableJson` are the same
value: a migrated part is what a write of the same content stores.
-/

namespace CaeloCms.Link.Asking

open Redirect (Url)

variable {α β : Type} {parseUrl : List Char → Option Url} {m : Canon α} {next : α → Canon β} {lookup : LinkTargets}
  {run : Run} {place : String}

/-! ### Values alike but for their strings -/

mutual

/-- A value without the text of its strings. -/
def shape (v : Json) : Json :=
  match v with
  | .str _ => .str ""
  | .arr items => .arr (shapeItems items)
  | .obj fields => .obj (shapeFields fields)
  | .null => .null
  | .bool b => .bool b
  | .num t => .num t

def shapeItems (items : List Json) : List Json :=
  match items with
  | [] => []
  | v :: vs => shape v :: shapeItems vs

def shapeFields (fields : List (String × Json)) : List (String × Json) :=
  match fields with
  | [] => []
  | (k, v) :: fs => (k, shape v) :: shapeFields fs

end

theorem shapeItems_eq (items : List Json) : shapeItems items = items.map shape := by
  induction items with
  | nil => rfl
  | cons v vs ih => rw [shapeItems, ih, List.map_cons]

theorem shapeFields_eq (fields : List (String × Json)) : shapeFields fields = fields.map fun e => (e.1, shape e.2) := by
  induction fields with
  | nil => rfl
  | cons e fs ih =>
    obtain ⟨k, v⟩ := e
    rw [shapeFields, ih, List.map_cons]

theorem sortFields_eq (fields : List (String × Json)) : sortFields fields = fields.map fun e => (e.1, sortKeys e.2) := by
  induction fields with
  | nil => rfl
  | cons e fs ih =>
    obtain ⟨k, v⟩ := e
    rw [sortFields, ih, List.map_cons]

/-- Two lists with the same keys that are the same once sorted by them are the same. -/
theorem eq_of_sorted {l l' : List (String × Json)} (hkeys : l.map Prod.fst = l'.map Prod.fst)
    (h : (l.mergeSort fun a b => a.1 ≤ b.1) = l'.mergeSort fun a b => a.1 ≤ b.1) : l = l' := by
  let pairs := l.zip l'
  have hlen : l.length = l'.length := by simpa using congrArg List.length hkeys
  have hfst : pairs.map Prod.fst = l := List.map_fst_zip hlen.le
  have hsnd : pairs.map Prod.snd = l' := List.map_snd_zip hlen.ge
  have hsame : ∀ p ∈ pairs, p.1.1 = p.2.1 := by
    intro p hp
    obtain ⟨i, hi, rfl⟩ := List.getElem_of_mem hp
    have hboth : i < min l.length l'.length := by
      rw [← List.length_zip]
      exact hi
    have hget := (List.ext_getElem_iff.mp hkeys).2 i (by rw [List.length_map]; omega) (by rw [List.length_map]; omega)
    simpa [pairs] using hget
  let sorted := pairs.mergeSort fun a b => decide (a.1.1 ≤ b.1.1)
  have hsorted₁ : sorted.map Prod.fst = l.mergeSort fun a b => a.1 ≤ b.1 := by
    rw [← hfst]
    exact List.map_mergeSort fun a _ b _ => rfl
  have hsorted₂ : sorted.map Prod.snd = l'.mergeSort fun a b => a.1 ≤ b.1 := by
    rw [← hsnd]
    refine List.map_mergeSort fun a ha b hb => ?_
    rw [hsame a ha, hsame b hb]
  have heq : ∀ p ∈ pairs, p.1 = p.2 := by
    intro p hp
    have hmem : p ∈ sorted := (List.mem_mergeSort).mpr hp
    have hmap : sorted.map Prod.fst = sorted.map Prod.snd := by rw [hsorted₁, hsorted₂, h]
    exact List.map_inj_left.mp hmap p hmem
  rw [← hfst, ← hsnd]
  exact List.map_congr_left heq

mutual

theorem eq_of_sortKeys {v w : Json} (hshape : shape v = shape w) (h : sortKeys v = sortKeys w) : v = w := by
  cases v with
  | str s =>
    cases w with
    | str t => simpa [sortKeys] using h
    | _ => simp [shape] at hshape
  | arr vs =>
    cases w with
    | arr ws =>
      simp only [shape, sortKeys, Json.arr.injEq] at hshape h
      rw [eq_of_sortItems hshape h]
    | _ => simp [shape] at hshape
  | obj fs =>
    cases w with
    | obj gs =>
      simp only [shape, sortKeys, Json.obj.injEq] at hshape h
      have hkeys : (sortFields fs).map Prod.fst = (sortFields gs).map Prod.fst := by
        have := congrArg (List.map Prod.fst) hshape
        rw [shapeFields_eq, shapeFields_eq, List.map_map, List.map_map] at this
        rw [sortFields_eq, sortFields_eq, List.map_map, List.map_map]
        exact this
      rw [eq_of_sortFields hshape (eq_of_sorted hkeys h)]
    | _ => simp [shape] at hshape
  | null => cases w <;> simp [shape] at hshape ⊢
  | bool b => cases w <;> simp [shape] at hshape ⊢; exact hshape
  | num t => cases w <;> simp [shape] at hshape ⊢; exact hshape

theorem eq_of_sortItems {vs ws : List Json} (hshape : shapeItems vs = shapeItems ws)
    (h : sortItems vs = sortItems ws) : vs = ws := by
  cases vs with
  | nil =>
    cases ws with
    | nil => rfl
    | cons w ws => simp [shapeItems] at hshape
  | cons v vs =>
    cases ws with
    | nil => simp [shapeItems] at hshape
    | cons w ws =>
      simp only [shapeItems, sortItems, List.cons.injEq] at hshape h
      rw [eq_of_sortKeys hshape.1 h.1, eq_of_sortItems hshape.2 h.2]

theorem eq_of_sortFields {fs gs : List (String × Json)} (hshape : shapeFields fs = shapeFields gs)
    (h : sortFields fs = sortFields gs) : fs = gs := by
  match fs, gs with
  | [], [] => rfl
  | [], (l, w) :: gs => simp [shapeFields] at hshape
  | (k, v) :: fs, [] => simp [shapeFields] at hshape
  | (k, v) :: fs, (l, w) :: gs =>
    simp only [shapeFields, sortFields, List.cons.injEq, Prod.mk.injEq] at hshape h
    rw [h.1.1, eq_of_sortKeys hshape.1.2 h.1.2, eq_of_sortFields hshape.2 h.2]

end

mutual

theorem eq_of_sameText {v w : Json} (h : sameText v w = true) : v = w := by
  cases v with
  | null => cases w <;> simp [sameText] at h ⊢
  | bool b => cases w <;> simp [sameText] at h ⊢; exact h
  | num t => cases w <;> simp [sameText] at h ⊢; exact h
  | str s => cases w <;> simp [sameText] at h ⊢; exact h
  | arr vs =>
    cases w with
    | arr ws =>
      rw [sameText] at h
      rw [eq_of_sameItems h]
    | _ => simp [sameText] at h
  | obj fs =>
    cases w with
    | obj gs =>
      rw [sameText] at h
      rw [eq_of_sameFields h]
    | _ => simp [sameText] at h

theorem eq_of_sameItems {vs ws : List Json} (h : sameItems vs ws = true) : vs = ws := by
  cases vs with
  | nil => cases ws <;> simp [sameItems] at h ⊢
  | cons v vs =>
    cases ws with
    | nil => simp [sameItems] at h
    | cons w ws =>
      rw [sameItems, Bool.and_eq_true] at h
      rw [eq_of_sameText h.1, eq_of_sameItems h.2]

theorem eq_of_sameFields {fs gs : List (String × Json)} (h : sameFields fs gs = true) : fs = gs := by
  match fs, gs with
  | [], [] => rfl
  | [], (l, w) :: gs => simp [sameFields] at h
  | (k, v) :: fs, [] => simp [sameFields] at h
  | (k, v) :: fs, (l, w) :: gs =>
    simp only [sameFields, Bool.and_eq_true, beq_iff_eq] at h
    rw [h.1.1, eq_of_sameText h.1.2, eq_of_sameFields h.2]

end

theorem eq_of_sameStableJson {v w : Json} (hshape : shape v = shape w) (h : sameStableJson v w = true) : v = w :=
  eq_of_sortKeys hshape (eq_of_sameText h)

/-! ### What a canonicaliser gives back -/

/-- What is true of its result, whatever the lookup and the run. -/
structure Yields (m : Canon α) (p : α → Prop) : Prop where
  yields : ∀ lookup run r, (m lookup run).result = some r → p r.1

theorem Yields.pure {p : α → Prop} {a : α} (h : p a) : Yields (pure a : Canon α) p where
  yields := by
    rintro lookup run r ⟨⟩
    exact h

theorem Yields.bind {p : α → Prop} {q : β → Prop} (hm : Yields m p) (hnext : ∀ a, p a → Yields (next a) q) :
    Yields (m >>= next) q where
  yields lookup run r h := by
    rw [result_bind] at h
    obtain ⟨r₁, h₁, h₂⟩ := Option.bind_eq_some_iff.mp h
    exact (hnext r₁.1 (hm.yields lookup run r₁ h₁)).yields lookup r₁.2 r h₂

theorem Yields.trivial (m : Canon α) : Yields m fun _ => True := ⟨fun _ _ _ _ => True.intro⟩

theorem Yields.mapCanon {γ : Type} {f : α → Canon β} {g : α → γ} {k : β → γ} (h : ∀ x, Yields (f x) fun y => k y = g x)
    (xs : List α) : Yields (mapCanon f xs) fun ys => ys.map k = xs.map g := by
  induction xs with
  | nil => exact .pure rfl
  | cons x xs ih =>
    refine (h x).bind fun y hy => ih.bind fun ys hys => .pure ?_
    rw [List.map_cons, List.map_cons, hy, hys]

mutual

theorem yields_canonicaliseJsonLinks (value : Json) (place : String) (asUrl : Bool) :
    Yields (canonicaliseJsonLinks parseUrl value place asUrl) fun out => shape out = shape value := by
  cases value with
  | str s =>
    unfold canonicaliseJsonLinks
    split
    · exact (Yields.trivial _).bind fun _ _ => .pure rfl
    · split
      · exact (Yields.trivial _).bind fun _ _ => .pure rfl
      · exact (Yields.trivial _).bind fun _ _ => .pure rfl
  | arr items =>
    unfold canonicaliseJsonLinks
    exact (yields_canonicaliseItems items 0 place asUrl).bind fun out hout => .pure (by rw [shape, shape, hout])
  | obj fields =>
    unfold canonicaliseJsonLinks
    exact (yields_canonicaliseFields fields place).bind fun out hout => .pure (by rw [shape, shape, hout])
  | null => exact .pure rfl
  | bool b => exact .pure rfl
  | num t => exact .pure rfl

theorem yields_canonicaliseItems (items : List Json) (i : Nat) (place : String) (asUrl : Bool) :
    Yields (canonicaliseItems parseUrl items i place asUrl) fun out => shapeItems out = shapeItems items := by
  cases items with
  | nil => exact .pure rfl
  | cons v vs =>
    refine (yields_canonicaliseJsonLinks v s!"{place}[{i}]" asUrl).bind fun out hout => ?_
    refine (yields_canonicaliseItems vs (i + 1) place asUrl).bind fun outs houts => .pure ?_
    rw [shapeItems, shapeItems, hout, houts]

theorem yields_canonicaliseFields (fields : List (String × Json)) (place : String) :
    Yields (canonicaliseFields parseUrl fields place) fun out => shapeFields out = shapeFields fields := by
  match fields with
  | [] => exact .pure rfl
  | (k, v) :: fs =>
    refine (yields_canonicaliseJsonLinks v s!"{place}.{k}" (isLinkKeyName k)).bind fun out hout => ?_
    refine (yields_canonicaliseFields fs place).bind fun outs houts => .pure ?_
    rw [shapeFields, shapeFields, hout, houts]

end

theorem yields_canonicaliseFieldValue (field : Option Json) (name : String) (value : Json) (place : String)
    (urlNames : Option (List (List Char))) :
    Yields (canonicaliseFieldValue parseUrl field name value place urlNames) fun out => shape out = shape value := by
  unfold canonicaliseFieldValue
  split
  · exact .pure rfl
  · split
    · exact yields_canonicaliseJsonLinks ..
    · exact yields_canonicaliseJsonLinks ..

theorem yields_canonicaliseContentValues (fields : List Json) (values : List (String × Json))
    (urlNames : Option (List (List Char))) :
    Yields (canonicaliseContentValues parseUrl fields values urlNames) fun out => shapeFields out = shapeFields values := by
  unfold canonicaliseContentValues
  simp only [shapeFields_eq]
  refine Yields.mapCanon (fun entry => ?_) values
  exact (yields_canonicaliseFieldValue ..).bind fun out hout => .pure (by rw [hout])

theorem shape_setDefault {f value next : Json} (hvalue : f.field "default" = some value)
    (hnext : shape next = shape value) : shape (setDefault f next) = shape f := by
  cases f with
  | obj entries =>
    have hentries : shapeFields (withDefault next entries) = shapeFields entries := by
      induction entries with
      | nil => rfl
      | cons e entries ih =>
        obtain ⟨k, v⟩ := e
        unfold withDefault
        by_cases hk : k = "default"
        · subst hk
          have hv : v = value := by simpa [Json.field] using hvalue
          rw [if_pos rfl, shapeFields, shapeFields, hnext, hv]
        · rw [if_neg hk, shapeFields, shapeFields, ih (by simpa [Json.field, hk] using hvalue)]
    rw [setDefault, shape, shape, hentries]
  | null => rfl
  | bool b => rfl
  | num t => rfl
  | str s => rfl
  | arr items => rfl

theorem yields_canonicaliseFieldDefault (urlNames : Option (List (List Char))) (f : Json) :
    Yields (canonicaliseFieldDefault parseUrl urlNames f) fun out => shape out = shape f := by
  unfold canonicaliseFieldDefault
  split
  · exact .pure rfl
  · exact .pure rfl
  next value hvalue =>
    exact (yields_canonicaliseFieldValue ..).bind fun next hnext => .pure (shape_setDefault hvalue hnext)

theorem yields_pluginApply (column : String) (value : Json) (fields : Option (List Json)) :
    Yields (pluginApply parseUrl column value fields) fun out => shape out = shape value := by
  unfold pluginApply
  split
  · exact (yields_canonicaliseContentValues ..).bind fun out hout => .pure (by rw [shape, shape, hout])
  · exact yields_canonicaliseJsonLinks ..

/-! ### The probe, and the two ways to store -/

/-- Where the probe needs no lookup, every run gives its value and records nothing. -/
def ProbeSound (apply : Canon α) : Prop :=
  ∀ probe, probeLinkLookup apply = some probe → probe.needsLookup = false → ∀ lookup grandfathered,
    (apply lookup (linkCanonicaliseRun grandfathered)).result = some (probe.value, linkCanonicaliseRun grandfathered)

def WriteOutcome.stored : WriteOutcome α → Option (α × List Issue)
  | .ok value issues _ => some (value, issues)
  | .refused _ => none

def SameAsWrite (converted : Option (PartOutcome α)) (written : Option (WriteOutcome α)) : Prop :=
  written.map WriteOutcome.stored = converted.map fun out => some (out.next, out.issues)

theorem Honest.probe {x : α} (h : Honest m x) {probe : Probe α} (hprobe : probeLinkLookup m = some probe)
    (hneeds : probe.needsLookup = false) :
    probe.value = x ∧ ∀ lookup real, m lookup real = ⟨some (x, real), false⟩ := by
  obtain ⟨r, hr, rfl⟩ := Option.map_eq_some_iff.mp hprobe
  obtain ⟨hasked, hissues⟩ := Bool.or_eq_false_iff.mp hneeds
  obtain ⟨rfl, hreal⟩ := h.quiet _ r rfl hasked hr (by simpa using hissues)
  exact ⟨rfl, hreal⟩

theorem Honest.probeSound {x : α} (h : Honest m x) : ProbeSound m := by
  intro probe hprobe hneeds lookup grandfathered
  obtain ⟨rfl, hreal⟩ := h.probe hprobe hneeds
  rw [hreal]

/-- Where the results are alike but for strings, converting is writing. -/
theorem convert_sameAsWrite {json : α → Json} {value : α} {apply : Canon α} (hhonest : Honest apply value)
    (hshape : Yields apply fun out => shape (json out) = shape (json value))
    (hjson : Function.Injective json) (lookup : LinkTargets) :
    SameAsWrite (convert json value lookup apply) (canonicaliseLinksForWrite apply lookup .report []) := by
  unfold SameAsWrite convert canonicaliseLinksForWrite
  cases hprobe : probeLinkLookup apply with
  | none => rfl
  | some probe =>
    rw [Option.bind_some, Option.bind_some]
    cases hneeds : probe.needsLookup with
    | false =>
      rw [(hhonest.probe hprobe hneeds).1]
      rfl
    | true =>
      rw [Bool.not_true, if_neg Bool.false_ne_true, if_neg Bool.false_ne_true]
      cases hresult : (apply lookup (linkCanonicaliseRun [])).result with
      | none => rfl
      | some r =>
        rw [Option.map_some, Option.map_some, Option.map_some, Option.map_some]
        dsimp only
        have hreport : ¬ (Mode.report = .strict ∧ r.2.issues ≠ []) := by rintro ⟨⟨⟩, _⟩
        rw [if_neg hreport]
        cases hsame : sameStableJson (json r.1) (json value) with
        | false => rfl
        | true =>
          have heq := hjson (eq_of_sameStableJson (hshape.yields lookup _ r hresult) hsame)
          show some (some (r.1, r.2.issues)) = some (some (value, r.2.issues))
          rw [heq]

theorem htmlJson_injective : Function.Injective htmlJson := by
  intro s t h
  exact String.ofList_injective (Json.str.inj h)

theorem applies_isField (urlNames : List (List Char)) (fields : List { f : Json // isField f = true }) :
    mapCanon (fun f => if isField f then canonicaliseFieldDefault parseUrl (some urlNames) f else pure f)
        (fields.map Subtype.val) =
      canonicaliseFieldDefaults parseUrl (fields.map Subtype.val) (some urlNames) := by
  unfold canonicaliseFieldDefaults
  induction fields with
  | nil => rfl
  | cons f fields ih =>
    rw [List.map_cons, mapCanon, mapCanon, ih, if_pos f.2]

/-- Where the probe needs no lookup, the canonicaliser gives the same value with every lookup, and no issue; and each
conversion of the migration is what a write in report mode stores, with the same issues. -/
theorem probe_sound_and_convert_writes (urlFieldNamesInHtml : List Char → List (List Char)) (lookup : LinkTargets) :
    (∀ value place scope, ProbeSound (canonicaliseUrl parseUrl value place scope)) ∧
    (∀ html place, ProbeSound (canonicaliseHtmlLinks parseUrl html place)) ∧
    (∀ value place asUrl, ProbeSound (canonicaliseJsonLinks parseUrl value place asUrl)) ∧
    (∀ fields values urlNames, ProbeSound (canonicaliseContentValues parseUrl fields values urlNames)) ∧
    (∀ fields urlNames, ProbeSound (canonicaliseFieldDefaults parseUrl fields urlNames)) ∧
    (∀ html, SameAsWrite (convertModuleHtml parseUrl html lookup)
      (canonicaliseLinksForWrite (canonicaliseHtmlLinks parseUrl html "html") lookup .report [])) ∧
    (∀ (fields : List { f : Json // isField f = true }) (html : List Char),
      SameAsWrite (convertFieldDefaults parseUrl urlFieldNamesInHtml (fields.map Subtype.val) lookup html)
        (canonicaliseLinksForWrite (canonicaliseFieldDefaults parseUrl (fields.map Subtype.val)
          (some (urlFieldNamesInHtml html))) lookup .report [])) ∧
    (∀ fields values html, SameAsWrite (convertContentValues parseUrl urlFieldNamesInHtml fields values lookup html)
      (canonicaliseLinksForWrite (canonicaliseContentValues parseUrl fields values (html.map urlFieldNamesInHtml)) lookup
        .report [])) ∧
    ∀ column value fields, SameAsWrite (convertPluginValue parseUrl column value fields lookup)
      (canonicaliseLinksForWrite (pluginApply parseUrl column value fields) lookup .report []) := by
  refine ⟨fun value place scope => (honest_canonicaliseUrl value place scope).probeSound,
    fun html place => (honest_canonicaliseHtmlLinks html place).probeSound,
    fun value place asUrl => (honest_canonicaliseJsonLinks value place asUrl).probeSound,
    fun fields values urlNames => (honest_canonicaliseContentValues fields values urlNames).probeSound,
    fun fields urlNames => (honest_canonicaliseFieldDefaults fields urlNames).probeSound, ?_, ?_, ?_, ?_⟩
  · intro html
    exact convert_sameAsWrite (honest_canonicaliseHtmlLinks html "html") ⟨fun _ _ _ _ => rfl⟩ htmlJson_injective lookup
  · intro fields html
    unfold convertFieldDefaults
    dsimp only
    rw [applies_isField]
    refine convert_sameAsWrite (honest_canonicaliseFieldDefaults _ _) ⟨fun lookup run r h => ?_⟩ (fun _ _ => Json.arr.inj) lookup
    have hmap := (Yields.mapCanon (yields_canonicaliseFieldDefault (some (urlFieldNamesInHtml html)))
      (fields.map Subtype.val)).yields lookup run r h
    rw [shape, shape, shapeItems_eq, shapeItems_eq, hmap]
  · intro fields values html
    refine convert_sameAsWrite (honest_canonicaliseContentValues fields values _) ⟨fun lookup run r h => ?_⟩
      (fun _ _ => Json.obj.inj) lookup
    rw [shape, shape, (yields_canonicaliseContentValues fields values _).yields lookup run r h]
  · intro column value fields
    exact convert_sameAsWrite (honest_pluginApply column value fields) (yields_pluginApply column value fields)
      Function.injective_id lookup

end CaeloCms.Link.Asking
