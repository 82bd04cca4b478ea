import CaeloCms.Theme.AliasResolution

/-!
# What an alias stands for

The values of a document are terms that mention paths: the aliases of a value in reading order, and the value with each
alias replaced.  `resolveValue` is the depth-first evaluation of these terms with a memo, so it gives a value exactly
when neither a cycle nor a missing path is reached, and the memo never shows.
-/

namespace CaeloCms.Theme

open MemoGraph

/-! ### Values as terms -/

mutual

/-- The paths a value names, in reading order. -/
def aliases : Json → List String
  | .str raw => (aliasTarget raw).toList
  | .obj fields => fieldAliases fields
  | _ => []

def fieldAliases : List (String × Json) → List String
  | [] => []
  | (_, v) :: fields => aliases v ++ fieldAliases fields

end

mutual

/-- A value with its aliases replaced, in reading order. -/
def refill : Json → List Json → Json
  | .str raw, vs => if (aliasTarget raw).isSome then vs.headD (.str raw) else .str raw
  | .obj fields, vs => .obj (refillFields fields vs)
  | raw, _ => raw

def refillFields : List (String × Json) → List Json → List (String × Json)
  | [], _ => []
  | (k, v) :: fields, vs =>
    (k, refill v (vs.take (aliases v).length)) :: refillFields fields (vs.drop (aliases v).length)

end

/-- The values of a document as terms that mention paths. -/
def aliasTerms (doc : Json) : Terms String Json Json ThemeRenderError where
  parts := aliases
  build := refill
  target path := (lookupPath doc path).map tokenValue
  cyclic := cyclicAlias
  missing := missingAlias

variable {v doc token next : Json} {path name : String} {fields : List (String × Json)}

/-! ### Resolution evaluates the terms -/

section

variable {onAlias : String → Memo String Json → Outcome ThemeRenderError Json × Memo String Json}

mutual

theorem resolveIn_eq (v : Json) (cache : Memo String Json) :
    resolveIn onAlias v cache =
      andThen (inOrder onAlias (aliases v) cache) fun vs cache => (.value (refill v vs), cache) := by
  cases v with
  | str raw =>
    rw [resolveIn, aliases]
    cases htarget : aliasTarget raw with
    | none => simp [inOrder, refill, htarget]
    | some path =>
      show onAlias path cache = andThen (inOrder onAlias [path] cache) _
      rw [inOrder, andThen_assoc]
      obtain ⟨o, cache'⟩ := onAlias path cache
      cases o <;> simp [inOrder, refill, htarget]
  | obj fields =>
    rw [resolveIn, aliases, resolveFields_eq fields cache, andThen_assoc]
    simp [refill]
  | null => simp [resolveIn, aliases, inOrder, refill]
  | bool b => simp [resolveIn, aliases, inOrder, refill]
  | num text => simp [resolveIn, aliases, inOrder, refill]
  | arr items => simp [resolveIn, aliases, inOrder, refill]

theorem resolveFields_eq (fields : List (String × Json)) (cache : Memo String Json) :
    resolveFields onAlias fields cache =
      andThen (inOrder onAlias (fieldAliases fields) cache) fun vs cache => (.value (refillFields fields vs), cache) := by
  cases fields with
  | nil => simp [resolveFields, fieldAliases, inOrder, refillFields]
  | cons f fields =>
    obtain ⟨k, v⟩ := f
    rw [resolveFields, fieldAliases, inOrder_append, resolveIn_eq v cache, andThen_assoc, andThen_assoc]
    refine andThen_congr fun vs cache' hvs => ?_
    have hlen := inOrder_length hvs
    rw [andThen_value, andThen_assoc, resolveFields_eq fields cache', andThen_assoc]
    refine andThen_congr fun ws cache'' _ => ?_
    simp [refillFields, ← hlen]

end

end

theorem resolveValue_eq (doc : Json) (depth : Nat) (seen : List String) (raw : Json) (cache : Memo String Json) :
    resolveValue doc depth seen raw cache = evaluate (aliasTerms doc) depth seen raw cache := by
  induction depth generalizing seen raw cache with
  | zero => rfl
  | succ depth ih =>
    have henter : evaluate (aliasTerms doc) depth = resolveValue doc depth := by
      funext seen raw cache
      exact (ih seen raw cache).symm
    rw [resolveValue, resolveIn_eq, evaluate, henter]
    refine congrArg (fun f => andThen (inOrder f (aliases raw) cache) _) ?_
    funext path cache
    by_cases hseen : path ∈ seen
    · simp [follow, hseen, aliasTerms]
    · cases hcache : cache path with
      | some v => simp [follow, hseen, hcache]
      | none => cases hlookup : lookupPath doc path <;> simp [follow, hseen, hcache, hlookup, aliasTerms]

/-! ### The paths of a document -/

theorem property_sizeOf_lt (h : property name v = some next) :
    sizeOf next < sizeOf v := by
  cases v with
  | obj fields =>
    obtain ⟨f, hf, rfl⟩ := Option.map_eq_some_iff.mp h
    have hmem := List.sizeOf_lt_of_mem (List.mem_of_find?_eq_some hf)
    have hfield : sizeOf f = 1 + sizeOf f.1 + sizeOf f.2 := by cases f; simp
    rw [Json.obj.sizeOf_spec]
    omega
  | arr items =>
    obtain ⟨p, hp, rfl⟩ := Option.map_eq_some_iff.mp h
    have hmem := List.mem_of_find?_eq_some hp
    have hitem : p.1 ∈ items := by
      obtain ⟨v, i⟩ := p
      exact (List.mem_zipIdx hmem).2.2 ▸ List.getElem_mem _
    have hlt := List.sizeOf_lt_of_mem hitem
    rw [Json.arr.sizeOf_spec]
    omega
  | null => cases h
  | bool b => cases h
  | num text => cases h
  | str raw => cases h

/-- `Object.keys` -/
def propertyNames : Json → List String
  | .obj fields => fields.map Prod.fst
  | .arr items => items.zipIdx.map fun p => toString p.2
  | _ => []

theorem mem_propertyNames (h : property name v = some next) :
    name ∈ propertyNames v := by
  cases v with
  | obj fields =>
    obtain ⟨f, hf, rfl⟩ := Option.map_eq_some_iff.mp h
    have hname := List.find?_some hf
    exact List.mem_map.mpr ⟨f, List.mem_of_find?_eq_some hf, by simpa using hname⟩
  | arr items =>
    obtain ⟨p, hp, rfl⟩ := Option.map_eq_some_iff.mp h
    have hname := List.find?_some hp
    exact List.mem_map.mpr ⟨p, List.mem_of_find?_eq_some hp, by simpa using hname⟩
  | null => cases h
  | bool b => cases h
  | num text => cases h
  | str raw => cases h

theorem exists_paths (v : Json) : ∃ paths : List (List String), ∀ parts, lookupParts v parts ≠ none → parts ∈ paths := by
  have hchild : ∀ name, ∃ paths : List (List String), ∀ next, property name v = some next →
      ∀ parts, lookupParts next parts ≠ none → parts ∈ paths := by
    intro name
    cases hnext : property name v with
    | none => exact ⟨[], by rintro next ⟨⟩⟩
    | some next =>
      have := property_sizeOf_lt hnext
      obtain ⟨paths, hpaths⟩ := exists_paths next
      refine ⟨paths, ?_⟩
      rintro _ ⟨⟩
      exact hpaths
  choose paths hbelow using hchild
  refine ⟨[] :: (propertyNames v).flatMap fun name => (paths name).map (name :: ·), fun parts hparts => ?_⟩
  cases parts with
  | nil => exact List.mem_cons_self
  | cons name parts =>
    cases hnext : property name v with
    | none => simp [lookupParts, hnext] at hparts
    | some next =>
      have hrest : lookupParts next parts ≠ none := by simpa [lookupParts, hnext] using hparts
      refine List.mem_cons_of_mem _ (List.mem_flatMap.mpr ⟨name, mem_propertyNames hnext, ?_⟩)
      exact List.mem_map.mpr ⟨parts, hbelow name next hnext parts hrest, rfl⟩
termination_by sizeOf v

theorem joinPath_splitPath (path : String) : joinPath (splitPath path) = path := by
  unfold joinPath splitPath
  rw [List.map_map]
  have hid : String.toList ∘ String.ofList = id := funext fun l => String.toList_ofList
  rw [hid, List.map_id, List.intercalate_splitOn, String.ofList_toList]

theorem exists_targets (doc : Json) :
    ∃ paths : List String, ∀ path, (aliasTerms doc).target path ≠ none → path ∈ paths := by
  obtain ⟨paths, hpaths⟩ := exists_paths doc
  refine ⟨paths.map joinPath, fun path hpath => ?_⟩
  have hparts : lookupParts doc (splitPath path) ≠ none := by
    intro hnone
    simp [aliasTerms, lookupPath, hnone] at hpath
  exact List.mem_map.mpr ⟨splitPath path, hpaths _ hparts, joinPath_splitPath path⟩

/-! ### Tokens that their path names -/

/-- The aliases spelled with `path` stand for `token`. -/
def Named (doc : Json) (path : String) (token : Json) : Prop :=
  ∀ raw, aliasTarget raw = some path → lookupPath doc path = some token

mutual

theorem exists_alias_of_mem {path : String} (v : Json) (h : path ∈ aliases v) :
    ∃ raw, aliasTarget raw = some path := by
  cases v with
  | str raw => exact ⟨raw, Option.mem_toList.mp h⟩
  | obj fields => exact exists_alias_of_mem_fields fields h
  | null => cases h
  | bool b => cases h
  | num text => cases h
  | arr items => cases h

theorem exists_alias_of_mem_fields {path : String} (fields : List (String × Json)) (h : path ∈ fieldAliases fields) :
    ∃ raw, aliasTarget raw = some path := by
  cases fields with
  | nil => cases h
  | cons f fields =>
    obtain ⟨k, v⟩ := f
    rcases List.mem_append.mp h with h | h
    · exact exists_alias_of_mem v h
    · exact exists_alias_of_mem_fields fields h

end

theorem Named.leads (h : Named doc path token) :
    Leads (aliasTerms doc) [path] (tokenValue token) := by
  intro s hs
  obtain rfl := List.mem_singleton.mp hs
  by_cases hraw : ∃ raw, aliasTarget raw = some s
  · obtain ⟨raw, hraw⟩ := hraw
    exact .inr ⟨tokenValue token, by simp [aliasTerms, h raw hraw], .refl⟩
  · exact .inl fun t hs => hraw (exists_alias_of_mem t hs)

/-! ### Paths and properties -/

theorem property_of_mem {k : String}
    (hnodup : (fields.map Prod.fst).Nodup) (h : (k, v) ∈ fields) : property k (.obj fields) = some v := by
  show (fields.find? fun f => f.1 == k).map Prod.snd = some v
  induction fields with
  | nil => cases h
  | cons f fields ih =>
    rw [List.map_cons, List.nodup_cons] at hnodup
    rcases List.mem_cons.mp h with rfl | h
    · simp
    · have hne : f.1 ≠ k := by
        rintro rfl
        exact hnodup.1 (List.mem_map.mpr ⟨(f.1, v), h, rfl⟩)
      rw [List.find?_cons_of_neg (by simpa using hne)]
      exact ih hnodup.2 h

theorem splitPath_joinPath {parts : List String} (hne : parts ≠ []) (hparts : ∀ p ∈ parts, '.' ∉ p.toList) :
    splitPath (joinPath parts) = parts := by
  unfold splitPath joinPath
  rw [String.toList_ofList, List.splitOn_intercalate, List.map_map]
  · have hid : String.ofList ∘ String.toList = id := funext fun s => String.ofList_toList
    rw [hid, List.map_id]
  · intro l hl
    obtain ⟨p, hp, rfl⟩ := List.mem_map.mp hl
    exact hparts p hp
  · simpa using hne

/-! ### Resolution is exact -/

/-- Whatever was resolved before, and however it ended, the cache holds values of its paths. -/
theorem sound_cacheAfter (doc : Json) (earlier : List (Nat × String × Json)) :
    Sound (aliasTerms doc) (cacheAfter doc earlier) := by
  have hfold : ∀ cache, Sound (aliasTerms doc) cache → Sound (aliasTerms doc)
      (earlier.foldl (fun cache call => (resolveTokenValue doc call.1 call.2.1 call.2.2 cache).2) cache) := by
    induction earlier with
    | nil => exact fun cache hcache => hcache
    | cons call earlier ih =>
      intro cache hcache
      refine ih _ ?_
      show Sound (aliasTerms doc) (resolveValue doc call.1 [call.2.1] (tokenValue call.2.2) cache).2
      rw [resolveValue_eq]
      exact (ends_evaluate _ _ _ hcache).1
  exact hfold _ (by rintro path v ⟨⟩)

def Throws (kind : ThemeRenderErrorKind) (result : Outcome ThemeRenderError Json) : Prop :=
  ∃ e, result = .threw e ∧ e.kind = kind

/-- What the resolution of a token says about its aliases: `threw_iff` names the error when both kinds of trouble can be
reached. -/
structure ResolvesExactly (doc : Json) (path : String) (token : Json) (result : Outcome ThemeRenderError Json) :
    Prop where
  terminates : result ≠ .cut
  value_iff : ∀ v, result = .value v ↔ Means (aliasTerms doc) (tokenValue token) v
  hasValue_iff : (∃ v, result = .value v) ↔
    ¬ Looping (aliasTerms doc) (tokenValue token) ∧ ¬ Dangling (aliasTerms doc) (tokenValue token)
  threw_iff : ∀ e, result = .threw e ↔ Stops (aliasTerms doc) [path] (tokenValue token) e
  looping_of_throws : Throws .cyclicAlias result → Looping (aliasTerms doc) (tokenValue token)
  dangling_of_throws : Throws .missingAlias result → Dangling (aliasTerms doc) (tokenValue token)
  cyclic_iff : ¬ Dangling (aliasTerms doc) (tokenValue token) →
    (Throws .cyclicAlias result ↔ Looping (aliasTerms doc) (tokenValue token))
  missing_iff : ¬ Looping (aliasTerms doc) (tokenValue token) →
    (Throws .missingAlias result ↔ Dangling (aliasTerms doc) (tokenValue token))

theorem Stops.kind {seen : List String} {e : ThemeRenderError}
    (h : Stops (aliasTerms doc) seen v e) (hleads : Leads (aliasTerms doc) seen v) :
    (e.kind = .cyclicAlias ∧ Looping (aliasTerms doc) v) ∨ (e.kind = .missingAlias ∧ Dangling (aliasTerms doc) v) := by
  rcases h.cause hleads with ⟨hloop, seen', n, rfl⟩ | ⟨hdangling, n, rfl⟩
  · exact .inl ⟨rfl, hloop⟩
  · exact .inr ⟨rfl, hdangling⟩

theorem throws_of_trouble {result : Outcome ThemeRenderError Json} (hcut : result ≠ .cut)
    (hvalue : (∃ w, result = .value w) ↔ ¬ Looping (aliasTerms doc) v ∧ ¬ Dangling (aliasTerms doc) v)
    (hkind : ∀ e, result = .threw e → (e.kind = .cyclicAlias ∧ Looping (aliasTerms doc) v) ∨
      (e.kind = .missingAlias ∧ Dangling (aliasTerms doc) v))
    (h : Looping (aliasTerms doc) v ∨ Dangling (aliasTerms doc) v) :
    (Throws .cyclicAlias result ∧ Looping (aliasTerms doc) v) ∨
      (Throws .missingAlias result ∧ Dangling (aliasTerms doc) v) := by
  cases result with
  | cut => exact absurd rfl hcut
  | threw e =>
    rcases hkind e rfl with ⟨he, hloop⟩ | ⟨he, hdangling⟩
    · exact .inl ⟨⟨e, rfl, he⟩, hloop⟩
    · exact .inr ⟨⟨e, rfl, he⟩, hdangling⟩
  | value w =>
    obtain ⟨hloop, hdangling⟩ := hvalue.mp ⟨w, rfl⟩
    exact (h.elim hloop hdangling).elim

theorem resolvesExactly (hnamed : Named doc path token)
    {paths : List String} (hpaths : ∀ path, (aliasTerms doc).target path ≠ none → path ∈ paths) {depth : Nat}
    (hdepth : paths.length < depth) {cache : Memo String Json} (hcache : Sound (aliasTerms doc) cache) :
    ResolvesExactly doc path token (resolveTokenValue doc depth path token cache).1 := by
  have hunseen : (unseen paths [path]).length < depth := lt_of_le_of_lt (List.length_filter_le _ _) hdepth
  have hr : resolveTokenValue doc depth path token cache =
      evaluate (aliasTerms doc) depth [path] (tokenValue token) cache := resolveValue_eq doc depth [path] _ cache
  rw [hr]
  have hcut := evaluate_ne_cut hpaths hunseen (tokenValue token) cache
  have hthrew : ∀ e, (evaluate (aliasTerms doc) depth [path] (tokenValue token) cache).1 = .threw e ↔
      Stops (aliasTerms doc) [path] (tokenValue token) e :=
    fun e => evaluate_threw_iff hpaths hunseen hnamed.leads hcache
  have hvalue : (∃ v, (evaluate (aliasTerms doc) depth [path] (tokenValue token) cache).1 = .value v) ↔
      ¬ Looping (aliasTerms doc) (tokenValue token) ∧ ¬ Dangling (aliasTerms doc) (tokenValue token) := by
    rw [← exists_means_iff hpaths]
    exact exists_congr fun v => evaluate_value_iff hpaths hunseen hnamed.leads hcache
  have hkind := fun e he => Stops.kind ((hthrew e).mp he) hnamed.leads
  have hloop : Throws .cyclicAlias (evaluate (aliasTerms doc) depth [path] (tokenValue token) cache).1 →
      Looping (aliasTerms doc) (tokenValue token) := by
    rintro ⟨e, he, hcyclic⟩
    rcases hkind e he with ⟨_, h⟩ | ⟨hmissing, _⟩
    · exact h
    · rw [hcyclic] at hmissing
      cases hmissing
  have hdangling : Throws .missingAlias (evaluate (aliasTerms doc) depth [path] (tokenValue token) cache).1 →
      Dangling (aliasTerms doc) (tokenValue token) := by
    rintro ⟨e, he, hmissing⟩
    rcases hkind e he with ⟨hcyclic, _⟩ | ⟨_, h⟩
    · rw [hmissing] at hcyclic
      cases hcyclic
    · exact h
  exact
    { terminates := hcut
      value_iff := fun v => evaluate_value_iff hpaths hunseen hnamed.leads hcache
      hasValue_iff := hvalue
      threw_iff := hthrew
      looping_of_throws := hloop
      dangling_of_throws := hdangling
      cyclic_iff := fun hnot => ⟨hloop, fun h =>
        (throws_of_trouble hcut hvalue hkind (.inl h)).elim And.left fun hboth => absurd hboth.2 hnot⟩
      missing_iff := fun hnot => ⟨hdangling, fun h =>
        (throws_of_trouble hcut hvalue hkind (.inr h)).elim (fun hboth => absurd hboth.2 hnot) And.left⟩ }

theorem ResolvesExactly.unique {r r' : Outcome ThemeRenderError Json}
    (h : ResolvesExactly doc path token r) (h' : ResolvesExactly doc path token r') : r = r' := by
  cases r with
  | cut => exact absurd rfl h.terminates
  | threw e => exact ((h'.threw_iff e).mpr ((h.threw_iff e).mp rfl)).symm
  | value v => exact ((h'.value_iff v).mpr ((h.value_iff v).mp rfl)).symm

/-- Resolving a token that its path names ends, with a value exactly when it reaches neither a cycle nor a missing
path, and with the error of the first trouble otherwise; what was resolved before does not show. -/
theorem resolveTokenValue_exact (doc : Json) (path : String) (token : Json) (hnamed : Named doc path token) :
    ∃ enough, ∀ depth, enough ≤ depth → ∀ earlier,
      ResolvesExactly doc path token (resolveTokenValue doc depth path token (cacheAfter doc earlier)).1 ∧
        (resolveTokenValue doc depth path token (cacheAfter doc earlier)).1 =
          (resolveTokenValue doc depth path token fun _ => none).1 := by
  obtain ⟨paths, hpaths⟩ := exists_targets doc
  refine ⟨paths.length + 1, fun depth hdepth earlier => ?_⟩
  have hempty : Sound (aliasTerms doc) fun _ => none := by rintro path v ⟨⟩
  have hexact := resolvesExactly hnamed hpaths hdepth (sound_cacheAfter doc earlier)
  exact ⟨hexact, hexact.unique (resolvesExactly hnamed hpaths hdepth hempty)⟩

/-- A link colour that stands for the primary colour, which stands for a shade. -/
def linkTheme : Json :=
  .obj [("color", .obj [
    ("link", .obj [("$value", .obj [("light", .str "\x7bcolor.primary\x7d"), ("dark", .str "#fff")])]),
    ("primary", .obj [("$value", .str "\x7bcolor.blue\x7d")]),
    ("blue", .obj [("$value", .str "#00f")])])]

theorem resolveTokenValue_exact_link :
    ∃ enough, ∀ depth, enough ≤ depth → ∀ earlier,
      ResolvesExactly linkTheme "color.primary" (.obj [("$value", .str "\x7bcolor.blue\x7d")])
          (resolveTokenValue linkTheme depth "color.primary" (.obj [("$value", .str "\x7bcolor.blue\x7d")])
            (cacheAfter linkTheme earlier)).1 ∧
        (resolveTokenValue linkTheme depth "color.primary" (.obj [("$value", .str "\x7bcolor.blue\x7d")])
            (cacheAfter linkTheme earlier)).1 =
          (resolveTokenValue linkTheme depth "color.primary" (.obj [("$value", .str "\x7bcolor.blue\x7d")])
            fun _ => none).1 :=
  resolveTokenValue_exact linkTheme "color.primary" (.obj [("$value", .str "\x7bcolor.blue\x7d")]) fun _ _ => rfl

/-- A colour that names a missing one for light and itself for dark. -/
def selfTheme : Json :=
  .obj [("color", .obj [
    ("a", .obj [("$value", .obj [("light", .str "\x7bcolor.gone\x7d"), ("dark", .str "\x7bcolor.a\x7d")])])])]

/-- The token `a.b` and a token with the name `a.b`. -/
def dottedTheme : Json :=
  .obj [
    ("a", .obj [("b", .obj [("$value", .str "red")])]),
    ("a.b", .obj [("$value", .str "\x7bq\x7d")]),
    ("q", .obj [("$value", .str "\x7ba.b\x7d")]),
    ("r", .obj [("$value", .str "\x7bq\x7d")])]

/-- A cycle that is reached behind a missing path is not reported, and a dotted name lets the cache show. -/
theorem resolveTokenValue_not_exact :
    (Looping (aliasTerms selfTheme) (.obj [("light", .str "\x7bcolor.gone\x7d"), ("dark", .str "\x7bcolor.a\x7d")]) ∧
      (resolveTokenValue selfTheme 3 "color.a"
          (.obj [("$value", .obj [("light", .str "\x7bcolor.gone\x7d"), ("dark", .str "\x7bcolor.a\x7d")])])
          fun _ => none).1 = .threw (missingAlias "color.gone")) ∧
      (flattenTokens dottedTheme).map Prod.fst = ["a.b", "a.b", "q", "r"] ∧
      (resolveTokenValue dottedTheme 4 "a.b" (.obj [("$value", .str "\x7bq\x7d")]) fun _ => none).1 =
        .threw (cyclicAlias ["a.b", "q"] "a.b") ∧
      (resolveTokenValue dottedTheme 4 "a.b" (.obj [("$value", .str "\x7bq\x7d")])
          (cacheAfter dottedTheme [(4, "r", .obj [("$value", .str "\x7bq\x7d")])])).1 = .value (.str "red") := by
  refine ⟨⟨⟨_, .refl, .single ⟨"color.a", ?_, rfl⟩⟩, rfl⟩, by decide +kernel, rfl, rfl⟩
  show "color.a" ∈ ["color.gone", "color.a"]
  decide

end CaeloCms.Theme
