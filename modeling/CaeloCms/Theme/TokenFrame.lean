import CaeloCms.Lib.Words
import CaeloCms.Theme.TokenPositions

/-!
# What token writes touch

`applyDtcgWrites` touches only what it names when its paths are apart from one another and from the tokens of the
document, and in a document whose names are spelled plainly only then (`applyDtcgWrites_iff`).
-/

namespace CaeloCms.Theme

open InsertionMap (set)

/-! ### A list of writes -/

theorem isToken_nextLeaf (path : String) (existing : Option Json) (value : Json) (type description : Option String) :
    isToken (nextLeaf path existing value type description) = true := by
  unfold nextLeaf isToken Json.field
  by_cases hext : nextExtensions path existing value = [] <;> simp [hext]

theorem isToken_describeLeaf {existing : Json} (h : isToken existing = true) (description : String) :
    isToken (describeLeaf existing description) = true := by
  obtain ⟨fields, rfl⟩ := exists_fields (tidy_token h)
  exact isToken_set_of_isToken h _ _

theorem splitPath_ne_nil (path : String) : splitPath path ≠ [] := by
  intro h
  exact List.splitOn_ne_nil _ _ (List.map_eq_nil_iff.mp h)

theorem dot_not_mem_splitPath {path name : String} (h : name ∈ splitPath path) : '.' ∉ name.toList := by
  obtain ⟨l, hl, rfl⟩ := List.mem_map.mp h
  rw [String.toList_ofList]
  intro hdot
  have hclean := Words.splitOnP_clean hl _ hdot
  simp at hclean

theorem splitPath_injective {path path' : String} (h : splitPath path = splitPath path') : path = path' := by
  rw [← joinPath_splitPath path, h, joinPath_splitPath]

def namedPaths (writes : Entries Json) (descriptions : Entries String) : List String :=
  writes.keys ++ descriptions.keys.filter fun path => path ∉ writes.keys

def writtenToken (current : Json) (writes : Entries Json) (types descriptions : Entries String) (path : String) :
    Option Json :=
  match writes.get path with
  | none => (readLeafAtPath current path).bind fun existing => (descriptions.get path).map (describeLeaf existing)
  | some value =>
    some (nextLeaf path (readLeafAtPath current path) value (types.get path) (descriptions.get path))

/-- The paths can be written without touching a token they do not name: their segments are names of tokens and groups, no
token of the document lies above or below one of them or is spelled like it, and none of them lies above another. -/
structure Apart (current : Json) (paths : List String) : Prop where
  clean : ∀ path ∈ paths, ∀ name ∈ splitPath path, name ≠ "" ∧ isMeta name = false
  alone : ∀ path ∈ paths, ∀ names, tokenAt names current ≠ none →
    names <+: splitPath path ∨ splitPath path <+: names ∨ joinPath names = path → names = splitPath path
  distinct : ∀ path ∈ paths, ∀ path' ∈ paths, splitPath path <+: splitPath path' → path = path'

/-- `done` has been written and everything else is as it was. -/
structure Progress (current : Json) (done : List (String × Json)) (out : Json) : Prop where
  tidy : Tidy out
  written : ∀ x ∈ done, tokenAt (splitPath x.1) out = some x.2
  others : ∀ names, (∀ x ∈ done, splitPath x.1 ≠ names) → tokenAt names out = tokenAt names current

theorem readParts_eq {parts : List String} {v : Json} (hv : Tidy v) (hclean : ∀ k ∈ parts, isMeta k = false)
    (habove : ∀ names, tokenAt names v ≠ none → names <+: parts → names = parts) :
    (lookupParts v parts).filter isToken = tokenAt parts v := by
  induction parts generalizing v with
  | nil => cases hroot : isToken v <;> simp [lookupParts, tokenAt, hroot, Option.filter]
  | cons k parts ih =>
    obtain ⟨fields, rfl⟩ := exists_fields hv
    have hmeta := hclean k List.mem_cons_self
    have htoken : isToken (.obj fields) = false := by
      by_contra hroot
      have hroot' : tokenAt [] (.obj fields) ≠ none := by
        rw [tokenAt, if_pos (by simpa using hroot)]
        exact Option.some_ne_none _
      exact absurd (habove [] hroot' List.nil_prefix) (by simp)
    have hfields := (hv.resolve_left (by simp [htoken])).2
    rw [tokenAt_cons htoken hmeta, field_eq_get, lookupParts]
    change (Option.bind (InsertionMap.get fields k) _).filter isToken = _
    cases hget : InsertionMap.get fields k with
    | none => rfl
    | some next =>
      refine ih (tidy_entry hfields hmeta hget) (fun k hk => hclean k (List.mem_cons_of_mem _ hk)) ?_
      intro names hnames hstarts
      have hcons : tokenAt (k :: names) (.obj fields) ≠ none := by
        rw [tokenAt_cons htoken hmeta, field_eq_get, hget]
        exact hnames
      simpa using habove (k :: names) hcons (by simpa using hstarts)

section Writes

variable {current out out' : Json} {done : List (String × Json)} {paths : List String} {path : String}

/-- Next to what has been written a further path is still apart. -/
theorem Progress.apart (h : Progress current done out) (hapart : Apart current paths) (hdone : ∀ x ∈ done, x.1 ∈ paths)
    (hpath : path ∈ paths) (hnew : ∀ x ∈ done, x.1 ≠ path) {names : List String} (hnames : tokenAt names out ≠ none)
    (hstarts : names <+: splitPath path ∨ splitPath path <+: names) : names = splitPath path := by
  by_cases hwritten : ∃ x ∈ done, splitPath x.1 = names
  · obtain ⟨x, hx, rfl⟩ := hwritten
    rcases hstarts with hstarts | hstarts
    · exact absurd (hapart.distinct x.1 (hdone x hx) path hpath hstarts) (hnew x hx)
    · exact absurd (hapart.distinct path hpath x.1 (hdone x hx) hstarts).symm (hnew x hx)
  · have hother := h.others names fun x hx heq => hwritten ⟨x, hx, heq⟩
    rw [hother] at hnames
    exact hapart.alone path hpath names hnames (by tauto)

theorem Progress.read (h : Progress current done out) (hapart : Apart current paths) (hdone : ∀ x ∈ done, x.1 ∈ paths)
    (hpath : path ∈ paths) (hnew : ∀ x ∈ done, x.1 ≠ path) :
    readLeafAtPath out path = tokenAt (splitPath path) current := by
  have hclean := hapart.clean path hpath
  have hempty : "" ∉ splitPath path := fun hmem => (hclean "" hmem).1 rfl
  rw [readLeafAtPath, if_neg hempty, readParts_eq h.tidy fun k hk => (hclean k hk).2]
  · exact h.others _ fun x hx heq => hnew x hx (splitPath_injective heq)
  · exact fun names hnames hstarts => h.apart hapart hdone hpath hnew hnames (.inl hstarts)

theorem Progress.step (h : Progress current done out) (hapart : Apart current paths) (hdone : ∀ x ∈ done, x.1 ∈ paths)
    (hpath : path ∈ paths) (hnew : ∀ x ∈ done, x.1 ≠ path) {leaf : Json} (hleaf : isToken leaf = true)
    (hset : setLeafAtPath out path leaf = .ok out') : Progress current (done ++ [(path, leaf)]) out' := by
  have hset' := tokenAt_setLeafParts hleaf h.tidy hset (splitPath_ne_nil path) (hapart.clean path hpath)
    fun names hnames hstarts => h.apart hapart hdone hpath hnew hnames hstarts
  refine ⟨tidy_setLeafParts hleaf h.tidy hset, ?_, ?_⟩
  · intro x hx
    rcases List.mem_append.mp hx with hx | hx
    · rw [hset', if_neg fun heq => hnew x hx (splitPath_injective heq)]
      exact h.written x hx
    · obtain rfl := List.mem_singleton.mp hx
      rw [hset', if_pos rfl]
  · intro names hnames
    rw [hset', if_neg fun heq => hnames (path, leaf) (by simp) heq.symm]
    exact h.others names fun x hx => hnames x (List.mem_append_left _ hx)

theorem progress_writeValues {types descriptions : Entries String} (hcurrent : Tidy current)
    (hapart : Apart current paths) {writes : List (String × Json)} (h : Progress current done out)
    (hdone : ∀ x ∈ done, x.1 ∈ paths) (hpaths : ∀ x ∈ writes, x.1 ∈ paths)
    (hnodup : (done.map Prod.fst ++ writes.map Prod.fst).Nodup)
    (hout : writeValues types descriptions writes out = .ok out') :
    Progress current (done ++ writes.map fun x => (x.1, nextLeaf x.1 (readLeafAtPath current x.1) x.2 (types.get x.1)
      (descriptions.get x.1))) out' := by
  induction writes generalizing done out with
  | nil =>
    cases hout
    simpa using h
  | cons x writes ih =>
    obtain ⟨path, value⟩ := x
    have hpath := hpaths (path, value) List.mem_cons_self
    have hnew : ∀ x ∈ done, x.1 ≠ path := by
      intro x hx heq
      exact (List.nodup_append.mp hnodup).2.2 x.1 (List.mem_map_of_mem hx) path (by simp) heq
    have hstart : Progress current [] current := ⟨hcurrent, by simp, fun _ _ => rfl⟩
    have hread : readLeafAtPath out path = readLeafAtPath current path :=
      (h.read hapart hdone hpath hnew).trans (hstart.read hapart (by simp) hpath (by simp)).symm
    rw [writeValues, hread] at hout
    cases hset : setLeafAtPath out path
        (nextLeaf path (readLeafAtPath current path) value (types.get path) (descriptions.get path)) with
    | error e =>
      rw [hset] at hout
      cases hout
    | ok out₁ =>
      rw [hset] at hout
      have hstep := h.step hapart hdone hpath hnew (isToken_nextLeaf _ _ _ _ _) hset
      have hrest := ih hstep ?_ (fun x hx => hpaths x (List.mem_cons_of_mem _ hx)) ?_ hout
      · simpa using hrest
      · intro x hx
        rcases List.mem_append.mp hx with hx | hx
        · exact hdone x hx
        · obtain rfl := List.mem_singleton.mp hx
          exact hpath
      · simpa using hnodup

theorem progress_writeRoles {written : List String} (hcurrent : Tidy current) (hapart : Apart current paths)
    {roles : List (String × String)} (h : Progress current done out) (hdone : ∀ x ∈ done, x.1 ∈ paths)
    (hpaths : ∀ x ∈ roles, x.1 ∉ written → x.1 ∈ paths)
    (hnodup : (done.map Prod.fst ++ (roles.filter fun x => x.1 ∉ written).map Prod.fst).Nodup)
    (hout : writeRoles written roles out = .ok out') :
    ∃ more, Progress current (done ++ more) out' ∧ more.map Prod.fst = (roles.filter fun x => x.1 ∉ written).map Prod.fst ∧
      ∀ x ∈ more, ∃ description existing, (x.1, description) ∈ roles ∧ readLeafAtPath current x.1 = some existing ∧
        x.2 = describeLeaf existing description := by
  induction roles generalizing done out with
  | nil =>
    cases hout
    exact ⟨[], by simpa using h, rfl, by simp⟩
  | cons x roles ih =>
    obtain ⟨path, description⟩ := x
    have hpaths' : ∀ x ∈ roles, x.1 ∉ written → x.1 ∈ paths := fun x hx => hpaths x (List.mem_cons_of_mem _ hx)
    rw [writeRoles] at hout
    by_cases hwritten : path ∈ written
    · rw [if_pos hwritten] at hout
      have hskip : ((path, description) :: roles).filter (fun x => x.1 ∉ written) = roles.filter fun x => x.1 ∉ written :=
        List.filter_cons_of_neg (by simpa using hwritten)
      rw [hskip] at hnodup ⊢
      obtain ⟨more, hprogress, hkeys, hmore⟩ := ih h hdone hpaths' hnodup hout
      refine ⟨more, hprogress, hkeys, fun x hx => ?_⟩
      obtain ⟨d, existing, hmem, hx⟩ := hmore x hx
      exact ⟨d, existing, List.mem_cons_of_mem _ hmem, hx⟩
    · rw [if_neg hwritten] at hout
      have htake : ((path, description) :: roles).filter (fun x => x.1 ∉ written) =
          (path, description) :: roles.filter fun x => x.1 ∉ written :=
        List.filter_cons_of_pos (by simpa using hwritten)
      rw [htake] at hnodup ⊢
      have hpath := hpaths (path, description) List.mem_cons_self hwritten
      have hnew : ∀ x ∈ done, x.1 ≠ path := by
        intro x hx heq
        exact (List.nodup_append.mp hnodup).2.2 x.1 (List.mem_map_of_mem hx) path (by simp) heq
      have hstart : Progress current [] current := ⟨hcurrent, by simp, fun _ _ => rfl⟩
      have hread : readLeafAtPath out path = readLeafAtPath current path :=
        (h.read hapart hdone hpath hnew).trans (hstart.read hapart (by simp) hpath (by simp)).symm
      have hposition := hstart.read hapart (by simp) hpath (by simp)
      rw [hread] at hout
      cases hexisting : readLeafAtPath current path with
      | none =>
        rw [hexisting] at hout
        cases hout
      | some existing =>
        have htoken : isToken existing = true := isToken_of_tokenAt (hposition.symm.trans hexisting)
        rw [hexisting] at hout
        dsimp only at hout
        cases hset : setLeafAtPath out path (describeLeaf existing description) with
        | error e =>
          rw [hset] at hout
          cases hout
        | ok out₁ =>
          rw [hset] at hout
          have hstep := h.step hapart hdone hpath hnew (isToken_describeLeaf htoken description) hset
          have hdone' : ∀ x ∈ done ++ [(path, describeLeaf existing description)], x.1 ∈ paths := by
            intro x hx
            rcases List.mem_append.mp hx with hx | hx
            · exact hdone x hx
            · obtain rfl := List.mem_singleton.mp hx
              exact hpath
          obtain ⟨more, hprogress, hkeys, hmore⟩ := ih hstep hdone' hpaths' (by simpa using hnodup) hout
          refine ⟨(path, describeLeaf existing description) :: more, by simpa using hprogress, ?_, ?_⟩
          · rw [List.map_cons, List.map_cons, hkeys]
          · intro x hx
            rcases List.mem_cons.mp hx with rfl | hx
            · exact ⟨description, existing, List.mem_cons_self, hexisting, rfl⟩
            · obtain ⟨d, existing, hmem, hx⟩ := hmore x hx
              exact ⟨d, existing, List.mem_cons_of_mem _ hmem, hx⟩

end Writes

/-! ### What accepted writes touch -/

/-- Flattening the result gives the same tokens at every path that is not named, and at a named path the token that was
written. -/
structure TouchesOnlyNamed (current : Json) (writes : Entries Json) (types descriptions : Entries String)
    (result : Json) : Prop where
  unnamed : ∀ path, path ∉ namedPaths writes descriptions → ∀ token,
    (path, token) ∈ flattenTokens result ↔ (path, token) ∈ flattenTokens current
  named : ∀ path ∈ namedPaths writes descriptions, ∃ leaf,
    writtenToken current writes types descriptions path = some leaf ∧
      ∀ token, (path, token) ∈ flattenTokens result ↔ token = leaf

section Accepted

variable {current result : Json} {writes : Entries Json} {types descriptions : Entries String}

theorem mem_keys_of_get {α : Type} {r : Entries α} {key : String} {v : α} (h : r.get key = some v) : key ∈ r.keys :=
  List.mem_map.mpr ⟨(key, v), (InsertionMap.get_eq_some r.nodup).mp h, rfl⟩

theorem get_of_mem {α : Type} {r : Entries α} {x : String × α} (h : x ∈ r.entries) : r.get x.1 = some x.2 :=
  (InsertionMap.get_eq_some r.nodup).mpr h

theorem nodup_namedPaths (writes : Entries Json) (descriptions : Entries String) :
    (namedPaths writes descriptions).Nodup := by
  unfold namedPaths
  refine List.nodup_append.mpr ⟨writes.nodup, descriptions.nodup.filter _, ?_⟩
  rintro path hpath path' hpath' rfl
  exact absurd hpath (by simpa using (List.mem_filter.mp hpath').2)

theorem progress_applyDtcgWrites (hcurrent : Tidy current) (hapart : Apart current (namedPaths writes descriptions))
    (h : applyDtcgWrites current writes types descriptions = .ok result) :
    ∃ done, Progress current done result ∧ done.map Prod.fst = namedPaths writes descriptions ∧
      ∀ x ∈ done, writtenToken current writes types descriptions x.1 = some x.2 := by
  unfold applyDtcgWrites at h
  cases hvalues : writeValues types descriptions writes.entries current with
  | error e =>
    rw [hvalues] at h
    cases h
  | ok out =>
    rw [hvalues] at h
    have hstart : Progress current [] current := ⟨hcurrent, by simp, fun _ _ => rfl⟩
    have hkeys : ∀ x ∈ writes.entries, x.1 ∈ namedPaths writes descriptions :=
      fun x hx => List.mem_append_left _ (List.mem_map_of_mem hx)
    have hwritten := progress_writeValues hcurrent hapart hstart (by simp) hkeys (by simpa using writes.nodup) hvalues
    rw [List.nil_append] at hwritten
    have hfilter : (descriptions.entries.filter fun x => x.1 ∉ writes.keys).map Prod.fst =
        descriptions.keys.filter fun path => path ∉ writes.keys := by
      unfold Entries.keys
      rw [List.filter_map]
      rfl
    have hroles := progress_writeRoles hcurrent hapart hwritten ?_ ?_ ?_ h
    · obtain ⟨more, hprogress, hmorekeys, hmore⟩ := hroles
      refine ⟨_, hprogress, ?_, ?_⟩
      · rw [List.map_append, List.map_map, hmorekeys, hfilter]
        rfl
      · intro x hx
        rcases List.mem_append.mp hx with hx | hx
        · obtain ⟨y, hy, rfl⟩ := List.mem_map.mp hx
          unfold writtenToken
          rw [get_of_mem hy]
        · obtain ⟨description, existing, hmem, hexisting, hleaf⟩ := hmore x hx
          have hkey : x.1 ∈ (descriptions.entries.filter fun x => x.1 ∉ writes.keys).map Prod.fst :=
            hmorekeys ▸ List.mem_map_of_mem hx
          rw [hfilter] at hkey
          have hnotin : x.1 ∉ writes.keys := by simpa using (List.mem_filter.mp hkey).2
          have hget : writes.get x.1 = none := by
            cases hget : writes.get x.1 with
            | none => rfl
            | some v => exact absurd (mem_keys_of_get hget) hnotin
          have hdescription := get_of_mem hmem
          unfold writtenToken
          rw [hget, hexisting, hdescription, hleaf]
          rfl
    · intro x hx
      obtain ⟨y, hy, rfl⟩ := List.mem_map.mp hx
      exact hkeys y hy
    · intro x hx hnotin
      refine List.mem_append_right _ (List.mem_filter.mpr ⟨List.mem_map_of_mem hx, by simpa using hnotin⟩)
    · rw [List.map_map, hfilter]
      exact nodup_namedPaths writes descriptions

theorem touchesOnlyNamed_of_apart (hcurrent : Tidy current) (hapart : Apart current (namedPaths writes descriptions))
    (h : applyDtcgWrites current writes types descriptions = .ok result) :
    TouchesOnlyNamed current writes types descriptions result := by
  obtain ⟨done, hprogress, hkeys, hwritten⟩ := progress_applyDtcgWrites hcurrent hapart h
  have hcases : ∀ names token, tokenAt names result = some token →
      (∃ x ∈ done, splitPath x.1 = names ∧ x.2 = token) ∨
        ((∀ x ∈ done, splitPath x.1 ≠ names) ∧ tokenAt names current = some token) := by
    intro names token htoken
    by_cases hdone : ∃ x ∈ done, splitPath x.1 = names
    · obtain ⟨x, hx, rfl⟩ := hdone
      rw [hprogress.written x hx] at htoken
      exact .inl ⟨x, hx, rfl, Option.some.inj htoken⟩
    · have hnot : ∀ x ∈ done, splitPath x.1 ≠ names := fun x hx heq => hdone ⟨x, hx, heq⟩
      rw [hprogress.others names hnot] at htoken
      exact .inr ⟨hnot, htoken⟩
  refine ⟨fun path hpath token => ?_, fun path hpath => ?_⟩
  · have hnot : ∀ x ∈ done, x.1 ≠ path := by
      rintro x hx rfl
      exact hpath (hkeys ▸ List.mem_map_of_mem hx)
    rw [mem_flattenTokens hprogress.tidy, mem_flattenTokens hcurrent]
    refine exists_congr fun names => and_congr_right fun hnames => ?_
    have hother : ∀ x ∈ done, splitPath x.1 ≠ names := by
      rintro x hx rfl
      exact hnot x hx ((joinPath_splitPath x.1).symm.trans hnames.symm)
    rw [hprogress.others names hother]
  · obtain ⟨x, hx, rfl⟩ := List.mem_map.mp (hkeys.symm ▸ hpath)
    refine ⟨x.2, hwritten x hx, fun token => ?_⟩
    rw [mem_flattenTokens hprogress.tidy]
    constructor
    · rintro ⟨names, hnames, htoken⟩
      rcases hcases names token htoken with ⟨y, hy, rfl, rfl⟩ | ⟨hnot, hcurrenttoken⟩
      · rw [joinPath_splitPath] at hnames
        have hboth := hprogress.written x hx
        rw [hnames, hprogress.written y hy] at hboth
        exact Option.some.inj hboth
      · have hsome : tokenAt names current ≠ none := by
          rw [hcurrenttoken]
          exact Option.some_ne_none token
        exact absurd (hapart.alone x.1 hpath names hsome (.inr (.inr hnames.symm))).symm (hnot x hx)
    · rintro rfl
      exact ⟨splitPath x.1, (joinPath_splitPath x.1).symm, hprogress.written x hx⟩

/-! ### Only such writes -/

/-- The names that lead to a token are neither empty nor dotted, so a path spells one position. -/
def Addressable (doc : Json) : Prop :=
  ∀ names, tokenAt names doc ≠ none → names ≠ [] ∧ ∀ name ∈ names, name ≠ "" ∧ '.' ∉ name.toList

theorem tokenAt_assign_arr (k : String) (c : Json) (items : List Json) (names : List String) :
    tokenAt names (assign k c (.arr items)) = none := by
  cases names <;> simp [assign, tokenAt, isToken, Json.field]

variable {names : List String} {path : String} {doc : Json}

theorem tokenAt_of_assign {k : String} {c v : Json} {rest : List String} (hnames : tokenAt names (assign k c v) ≠ none)
    (hc : ∀ names, tokenAt names c ≠ none → tokenAt names (child k v) ≠ none ∨ names <+: rest) :
    tokenAt names v ≠ none ∨ names <+: k :: rest := by
  cases v with
  | obj fields =>
    cases names with
    | nil => exact .inr List.nil_prefix
    | cons k' names =>
      change tokenAt (k' :: names) (.obj (set fields k c)) ≠ none at hnames
      obtain ⟨htoken, hmeta, next, hnext, hbelow⟩ := tokenAt_cons_ne_none hnames
      have htoken' : isToken (.obj fields) = false := by
        by_contra hroot
        rw [isToken_set_of_isToken (by simpa using hroot)] at htoken
        cases htoken
      by_cases hk : k' = k
      · subst hk
        rw [field_eq_get, InsertionMap.get_set_self] at hnext
        obtain rfl := Option.some.inj hnext
        rcases hc names hbelow with hchild | hstarts
        · refine .inl ?_
          rw [tokenAt_cons htoken' hmeta, field_eq_get]
          cases hget : InsertionMap.get fields k' with
          | none =>
            rw [child_of_get_none hget] at hchild
            cases names <;> simp [tokenAt, isToken, Json.field] at hchild
          | some entry =>
            have hentry : child k' (.obj fields) = entry ∨ child k' (.obj fields) = .obj [] := by
              have hprop : property k' (.obj fields) = some entry := hget
              rw [child, hprop]
              cases hobj : isObject entry <;> simp [Option.filter, hobj]
            rcases hentry with hentry | hentry
            · rw [hentry] at hchild
              exact hchild
            · rw [hentry] at hchild
              cases names <;> simp [tokenAt, isToken, Json.field] at hchild
        · exact .inr (by simpa using hstarts)
      · rw [field_eq_get, InsertionMap.get_set_of_ne hk] at hnext
        refine .inl ?_
        rw [tokenAt_cons htoken' hmeta, field_eq_get, hnext]
        exact hbelow
  | arr items => exact absurd (tokenAt_assign_arr k c items names) hnames
  | null => exact .inl hnames
  | bool b => exact .inl hnames
  | num text => exact .inl hnames
  | str raw => exact .inl hnames

theorem tokenAt_of_setLeafParts {leaf : Json} (hleaf : isToken leaf = true) {parts : List String}
    {v v' : Json} (h : setLeafParts path leaf parts v = .ok v') (hnames : tokenAt names v' ≠ none) :
    tokenAt names v ≠ none ∨ names <+: parts.filter (· ≠ "") := by
  induction parts generalizing v v' names with
  | nil =>
    cases h
    exact .inl hnames
  | cons k parts ih =>
    rcases setLeafParts_cons h with ⟨rfl, hrest⟩ | ⟨hk, rfl, rfl⟩ | ⟨hk, _, c, hc, rfl⟩
    · have hskip : ("" :: parts).filter (· ≠ "") = parts.filter (· ≠ "") := List.filter_cons_of_neg (by simp)
      rw [hskip]
      exact ih hrest hnames
    · rw [List.filter_cons_of_pos (by simpa using hk)]
      refine tokenAt_of_assign hnames fun names' hnames' => ?_
      rw [tokenAt_token hleaf] at hnames'
      have hnil : names' = [] := by
        by_contra hne
        exact hnames' (if_neg hne)
      rw [hnil]
      exact .inr List.nil_prefix
    · rw [List.filter_cons_of_pos (by simpa using hk)]
      exact tokenAt_of_assign hnames fun names' hnames' => ih hc hnames'

theorem isToken_of_readLeafAtPath {leaf : Json} (h : readLeafAtPath doc path = some leaf) :
    isToken leaf = true := by
  unfold readLeafAtPath at h
  by_cases hempty : "" ∈ splitPath path
  · rw [if_pos hempty] at h
    cases h
  · rw [if_neg hempty] at h
    exact (Option.filter_eq_some_iff.mp h).2

section Invariant

variable {I : Json → Prop}

theorem writeValues_keeps {entries : List (String × Json)} {out : Json}
    (hstep : ∀ x ∈ entries, ∀ leaf doc doc', isToken leaf = true → setLeafAtPath doc x.1 leaf = .ok doc' → I doc → I doc')
    (h : writeValues types descriptions entries current = .ok out) (hcurrent : I current) : I out := by
  induction entries generalizing current with
  | nil =>
    cases h
    exact hcurrent
  | cons x entries ih =>
    obtain ⟨path, value⟩ := x
    rw [writeValues] at h
    cases hset : setLeafAtPath current path
        (nextLeaf path (readLeafAtPath current path) value (types.get path) (descriptions.get path)) with
    | error e =>
      rw [hset] at h
      cases h
    | ok out₁ =>
      rw [hset] at h
      have hout₁ := hstep (path, value) List.mem_cons_self _ _ _ (isToken_nextLeaf _ _ _ _ _) hset hcurrent
      exact ih (fun x hx => hstep x (List.mem_cons_of_mem _ hx)) h hout₁

theorem writeRoles_keeps {written : List String} {roles : List (String × String)} {out : Json}
    (hstep : ∀ x ∈ roles, x.1 ∉ written → ∀ leaf doc doc', isToken leaf = true → setLeafAtPath doc x.1 leaf = .ok doc' →
      I doc → I doc')
    (h : writeRoles written roles current = .ok out) (hcurrent : I current) : I out := by
  induction roles generalizing current with
  | nil =>
    cases h
    exact hcurrent
  | cons x roles ih =>
    obtain ⟨path, description⟩ := x
    have hrest := fun x hx => hstep x (List.mem_cons_of_mem (path, description) hx)
    rw [writeRoles] at h
    by_cases hwritten : path ∈ written
    · rw [if_pos hwritten] at h
      exact ih hrest h hcurrent
    · rw [if_neg hwritten] at h
      cases hexisting : readLeafAtPath current path with
      | none =>
        rw [hexisting] at h
        cases h
      | some existing =>
        rw [hexisting] at h
        dsimp only at h
        cases hset : setLeafAtPath current path (describeLeaf existing description) with
        | error e =>
          rw [hset] at h
          cases h
        | ok out₁ =>
          rw [hset] at h
          have hleaf := isToken_describeLeaf (isToken_of_readLeafAtPath hexisting) description
          exact ih hrest h (hstep (path, description) List.mem_cons_self hwritten _ _ _ hleaf hset hcurrent)

/-- What every setting of a leaf at a named path keeps, accepted writes keep. -/
theorem applyDtcgWrites_keeps
    (hstep : ∀ path ∈ namedPaths writes descriptions, ∀ leaf doc doc', isToken leaf = true →
      setLeafAtPath doc path leaf = .ok doc' → I doc → I doc')
    (h : applyDtcgWrites current writes types descriptions = .ok result) (hcurrent : I current) : I result := by
  unfold applyDtcgWrites at h
  cases hvalues : writeValues types descriptions writes.entries current with
  | error e =>
    rw [hvalues] at h
    cases h
  | ok out =>
    rw [hvalues] at h
    have hout : I out :=
      writeValues_keeps (fun x hx => hstep x.1 (List.mem_append_left _ (List.mem_map_of_mem hx))) hvalues hcurrent
    refine writeRoles_keeps (fun x hx hnotin => hstep x.1 (List.mem_append_right _ ?_)) h hout
    exact List.mem_filter.mpr ⟨List.mem_map_of_mem hx, by simpa using hnotin⟩

end Invariant

theorem tidy_applyDtcgWrites (hcurrent : Tidy current)
    (h : applyDtcgWrites current writes types descriptions = .ok result) : Tidy result :=
  applyDtcgWrites_keeps (fun _ _ _ _ _ hleaf hset hdoc => tidy_setLeafParts hleaf hdoc hset) h hcurrent

theorem tokenAt_of_applyDtcgWrites (h : applyDtcgWrites current writes types descriptions = .ok result)
    (hnames : tokenAt names result ≠ none) :
    tokenAt names current ≠ none ∨
      ∃ path ∈ namedPaths writes descriptions, names <+: (splitPath path).filter (· ≠ "") := by
  have hkeeps := applyDtcgWrites_keeps (I := fun doc => ∀ names, tokenAt names doc ≠ none →
    tokenAt names current ≠ none ∨ ∃ path ∈ namedPaths writes descriptions, names <+: (splitPath path).filter (· ≠ ""))
    ?_ h (fun _ => .inl)
  · exact hkeeps names hnames
  · intro path hpath leaf doc doc' hleaf hset hdoc names hnames
    rcases tokenAt_of_setLeafParts hleaf hset hnames with hold | hstarts
    · exact hdoc names hold
    · exact .inr ⟨path, hpath, hstarts⟩

theorem setLeafAtPath_empty (doc leaf : Json) : setLeafAtPath doc "" leaf = .ok doc := rfl

variable (hcurrent : Tidy current) (haddressable : Addressable current)
  (h : applyDtcgWrites current writes types descriptions = .ok result)
  (htouches : TouchesOnlyNamed current writes types descriptions result)

include hcurrent h htouches in
theorem exists_position (hpath : path ∈ namedPaths writes descriptions) :
    ∃ names, path = joinPath names ∧ tokenAt names result ≠ none := by
  obtain ⟨leaf, _, hleaf⟩ := htouches.named path hpath
  obtain ⟨names, hnames, htoken⟩ := (mem_flattenTokens (tidy_applyDtcgWrites hcurrent h)).mp ((hleaf leaf).mpr rfl)
  exact ⟨names, hnames, by rw [htoken]; exact Option.some_ne_none leaf⟩

include hcurrent haddressable h htouches in
theorem addressable_result : Addressable result := by
  intro names hnames
  constructor
  · rintro rfl
    -- a root that is a token leaves no position for a path with a name, and a path without names writes nothing
    have hroot : ∀ path ∈ namedPaths writes descriptions, path = "" := by
      intro path hpath
      obtain ⟨names', rfl, hnames'⟩ := exists_position hcurrent h htouches hpath
      by_cases hnil : names' = []
      · rw [hnil]
        rfl
      · exact absurd (tokenAt_append hnames hnil) hnames'
    have hsame : result = current := by
      refine applyDtcgWrites_keeps (I := fun doc => doc = current) ?_ h rfl
      intro path hpath leaf doc doc' _ hset hdoc
      rw [hroot path hpath, setLeafAtPath_empty] at hset
      cases hset
      exact hdoc
    rw [hsame] at hnames
    exact absurd rfl (haddressable [] hnames).1
  · rcases tokenAt_of_applyDtcgWrites h hnames with hold | ⟨path, _, hstarts⟩
    · exact (haddressable names hold).2
    · intro name hname
      obtain ⟨hmem, hne⟩ := List.mem_filter.mp (hstarts.subset hname)
      exact ⟨by simpa using hne, dot_not_mem_splitPath hmem⟩

theorem Addressable.split (hdoc : Addressable doc) (hnames : tokenAt names doc ≠ none) :
    splitPath (joinPath names) = names :=
  splitPath_joinPath (hdoc names hnames).1 fun name hname => ((hdoc names hnames).2 name hname).2

include hcurrent haddressable h htouches in
theorem position_of_named (hpath : path ∈ namedPaths writes descriptions) :
    tokenAt (splitPath path) result ≠ none := by
  obtain ⟨names, rfl, hnames⟩ := exists_position hcurrent h htouches hpath
  rw [(addressable_result hcurrent haddressable h htouches).split hnames]
  exact hnames

include hcurrent haddressable h htouches in
theorem position_of_token (hnames : tokenAt names current ≠ none) :
    tokenAt names result ≠ none := by
  have hsplit := haddressable.split hnames
  by_cases hpath : joinPath names ∈ namedPaths writes descriptions
  · rw [← hsplit]
    exact position_of_named hcurrent haddressable h htouches hpath
  · obtain ⟨token, htoken⟩ := Option.ne_none_iff_exists'.mp hnames
    have hmem := (htouches.unnamed _ hpath token).mpr ((mem_flattenTokens hcurrent).mpr ⟨names, rfl, htoken⟩)
    obtain ⟨names', hjoin, htoken'⟩ := (mem_flattenTokens (tidy_applyDtcgWrites hcurrent h)).mp hmem
    have hnames' : tokenAt names' result ≠ none := by
      rw [htoken']
      exact Option.some_ne_none token
    have hsplit' := (addressable_result hcurrent haddressable h htouches).split hnames'
    rw [← hjoin, hsplit] at hsplit'
    rw [hsplit']
    exact hnames'

theorem eq_of_isPrefix {names' : List String} (hnames : tokenAt names doc ≠ none)
    (hnames' : tokenAt names' doc ≠ none) (hstarts : names <+: names') : names = names' := by
  obtain ⟨more, rfl⟩ := hstarts
  by_cases hmore : more = []
  · rw [hmore, List.append_nil]
  · exact absurd (tokenAt_append hnames hmore) hnames'

include hcurrent haddressable h htouches in
theorem apart_of_touchesOnlyNamed : Apart current (namedPaths writes descriptions) := by
  have hposition := fun path (hpath : path ∈ namedPaths writes descriptions) =>
    position_of_named hcurrent haddressable h htouches hpath
  refine ⟨fun path hpath name hname => ⟨?_, ?_⟩, fun path hpath names hnames hrelated => ?_, ?_⟩
  · exact ((addressable_result hcurrent haddressable h htouches _ (hposition path hpath)).2 name hname).1
  · exact not_meta_of_tokenAt (hposition path hpath) name hname
  · have hnames' := position_of_token hcurrent haddressable h htouches hnames
    rcases hrelated with hstarts | hstarts | rfl
    · exact eq_of_isPrefix hnames' (hposition path hpath) hstarts
    · exact (eq_of_isPrefix (hposition path hpath) hnames' hstarts).symm
    · exact (haddressable.split hnames).symm
  · intro path hpath path' hpath' hstarts
    exact splitPath_injective (eq_of_isPrefix (hposition path hpath) (hposition path' hpath') hstarts)

end Accepted

/-- A document that `validateThemeTokens` accepts: what is no metadata is a group or a token. -/
structure ThemeDocument where
  tokens : Json
  tidy : Tidy tokens

/-- Accepted writes touch only the tokens they name when their paths are apart, and, in a document whose names are
neither empty nor dotted, only then. -/
theorem applyDtcgWrites_iff (current : ThemeDocument) (writes : Entries Json) (types descriptions : Entries String)
    (result : Json) (h : applyDtcgWrites current.tokens writes types descriptions = .ok result) :
    (Apart current.tokens (namedPaths writes descriptions) →
        TouchesOnlyNamed current.tokens writes types descriptions result) ∧
      (Addressable current.tokens → (TouchesOnlyNamed current.tokens writes types descriptions result ↔
        Apart current.tokens (namedPaths writes descriptions))) :=
  ⟨fun hapart => touchesOnlyNamed_of_apart current.tidy hapart h, fun haddressable =>
    ⟨fun htouches => apart_of_touchesOnlyNamed current.tidy haddressable h htouches,
      fun hapart => touchesOnlyNamed_of_apart current.tidy hapart h⟩⟩

def shadeTheme : ThemeDocument where
  tokens := .obj [("color", .obj [("primary", .obj [("500", .obj [("$value", .str "#00f")])])])]
  tidy := .inr ⟨by decide, .inr (.inr ⟨by decide, .inr (.inr ⟨by decide, .inr (.inl rfl), trivial⟩), trivial⟩), trivial⟩

def noEntries : Entries String := ⟨[], List.nodup_nil⟩

def accentWrite : Entries Json := ⟨[("color.accent", .str "#f00")], by decide⟩

theorem applyDtcgWrites_iff_accent :
    (Apart shadeTheme.tokens (namedPaths accentWrite noEntries) →
        TouchesOnlyNamed shadeTheme.tokens accentWrite noEntries noEntries
          (.obj [("color", .obj [("primary", .obj [("500", .obj [("$value", .str "#00f")])]),
            ("accent", .obj [("$value", .str "#f00")])])])) ∧
      (Addressable shadeTheme.tokens → (TouchesOnlyNamed shadeTheme.tokens accentWrite noEntries noEntries
          (.obj [("color", .obj [("primary", .obj [("500", .obj [("$value", .str "#00f")])]),
            ("accent", .obj [("$value", .str "#f00")])])]) ↔
        Apart shadeTheme.tokens (namedPaths accentWrite noEntries))) :=
  applyDtcgWrites_iff shadeTheme accentWrite noEntries noEntries _ rfl

def primaryWrite : Entries Json := ⟨[("color.primary", .str "#f00")], by decide⟩

/-- A colour written over a group of shades drops the shades, and a shade written below a colour is no token. -/
theorem applyDtcgWrites_touches_more :
    (applyDtcgWrites shadeTheme.tokens primaryWrite noEntries noEntries =
        .ok (.obj [("color", .obj [("primary", .obj [("$value", .str "#f00")])])]) ∧
      (flattenTokens shadeTheme.tokens).map Prod.fst = ["color.primary.500"] ∧
      (flattenTokens (.obj [("color", .obj [("primary", .obj [("$value", .str "#f00")])])])).map Prod.fst =
        ["color.primary"] ∧
      ¬ TouchesOnlyNamed shadeTheme.tokens primaryWrite noEntries noEntries
        (.obj [("color", .obj [("primary", .obj [("$value", .str "#f00")])])])) ∧
    applyDtcgWrites (.obj [("color", .obj [("primary", .obj [("$value", .str "#f00")])])])
        ⟨[("color.primary.500", .str "#00f")], by decide⟩ noEntries noEntries =
      .ok (.obj [("color", .obj [("primary", .obj [("$value", .str "#f00"),
        ("500", .obj [("$value", .str "#00f")])])])]) ∧
    (flattenTokens (.obj [("color", .obj [("primary", .obj [("$value", .str "#f00"),
        ("500", .obj [("$value", .str "#00f")])])])])).map Prod.fst = ["color.primary"] := by
  refine ⟨⟨rfl, rfl, rfl, fun htouches => ?_⟩, rfl, rfl⟩
  have hiff := htouches.unnamed "color.primary.500" (by decide) (.obj [("$value", .str "#00f")])
  have hmem := List.mem_map_of_mem (f := Prod.fst) (hiff.mpr List.mem_cons_self)
  exact absurd hmem (by decide)

end CaeloCms.Theme
