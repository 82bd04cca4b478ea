import CaeloCms.Theme.AliasMeaning
import CaeloCms.Theme.TokenWrites

/-!
# Tokens by position

The tokens of a document are a map from positions, lists of names, to tokens: `tokenAt` reads it and `flattenTokens` lists
it.  A write to a position that no other token lies above or below sets the map there and nowhere else
(`tokenAt_setLeafParts`).
-/

namespace CaeloCms.Theme

open InsertionMap (set)

/-- A name that starts with `$` is metadata. -/
def isMeta (name : String) : Bool := name.toList.head? = some '$'

/-! ### Tokens by position -/

def tokenAt : List String → Json → Option Json
  | [], v => if isToken v then some v else none
  | k :: names, v => if isToken v || isMeta k then none else (v.field k).bind (tokenAt names)

variable {v leaf v' : Json} {k path : String} {fields : List (String × Json)} {names parts : List String}

theorem tokenAt_cons (hv : isToken v = false) (hk : isMeta k = false) :
    tokenAt (k :: names) v = (v.field k).bind (tokenAt names) := by
  rw [tokenAt, hv, hk]
  rfl

theorem tokenAt_token (hv : isToken v = true) (names : List String) :
    tokenAt names v = if names = [] then some v else none := by
  cases names <;> simp [tokenAt, hv]

theorem tokenAt_cons_ne_none (h : tokenAt (k :: names) v ≠ none) :
    isToken v = false ∧ isMeta k = false ∧ ∃ next, v.field k = some next ∧ tokenAt names next ≠ none := by
  rw [tokenAt] at h
  by_cases hv : (isToken v || isMeta k) = true
  · exact absurd (if_pos hv) h
  · rw [if_neg hv] at h
    rw [Bool.or_eq_true, not_or, Bool.not_eq_true, Bool.not_eq_true] at hv
    cases hnext : v.field k with
    | none => simp [hnext] at h
    | some next => exact ⟨hv.1, hv.2, next, rfl, by simpa [hnext] using h⟩

theorem isToken_of_tokenAt {t : Json} (h : tokenAt names v = some t) : isToken t = true := by
  induction names generalizing v with
  | nil =>
    rw [tokenAt] at h
    by_cases hv : isToken v = true
    · rw [if_pos hv] at h
      exact Option.some.inj h ▸ hv
    · rw [if_neg hv] at h
      cases h
  | cons k names ih =>
    obtain ⟨hv, hk, next, hnext, _⟩ := tokenAt_cons_ne_none (by rw [h]; exact Option.some_ne_none t)
    rw [tokenAt_cons hv hk, hnext] at h
    exact ih h

theorem tokenAt_append {more : List String} (h : tokenAt names v ≠ none) (hmore : more ≠ []) :
    tokenAt (names ++ more) v = none := by
  induction names generalizing v with
  | nil =>
    have hv : isToken v = true := by
      by_contra hv
      exact h (if_neg hv)
    rw [List.nil_append, tokenAt_token hv, if_neg hmore]
  | cons k names ih =>
    obtain ⟨hv, hk, next, hnext, hrest⟩ := tokenAt_cons_ne_none h
    rw [List.cons_append, tokenAt_cons hv hk, hnext]
    exact ih hrest

theorem not_meta_of_tokenAt (h : tokenAt names v ≠ none) :
    ∀ k ∈ names, isMeta k = false := by
  induction names generalizing v with
  | nil => simp
  | cons k names ih =>
    obtain ⟨_, hk, next, _, hrest⟩ := tokenAt_cons_ne_none h
    exact List.forall_mem_cons.mpr ⟨hk, ih hrest⟩

mutual

/-- A token, or a group with distinct names whose entries, metadata apart, are groups and tokens. -/
def Tidy : Json → Prop
  | .obj fields => isToken (.obj fields) = true ∨ (fields.map Prod.fst).Nodup ∧ TidyFields fields
  | _ => False

def TidyFields : List (String × Json) → Prop
  | [] => True
  | (k, v) :: fields => (isMeta k = true ∨ Tidy v) ∧ TidyFields fields

end

theorem tidyFields_iff :
    TidyFields fields ↔ ∀ f ∈ fields, isMeta f.1 = true ∨ Tidy f.2 := by
  induction fields with
  | nil => simp [TidyFields]
  | cons f fields ih => simp [TidyFields, ih]

theorem tidy_token (h : isToken v = true) : Tidy v := by
  cases v with
  | obj fields => exact .inl h
  | null => cases h
  | bool b => cases h
  | num text => cases h
  | str raw => cases h
  | arr items => cases h

theorem exists_fields (hv : Tidy v) : ∃ fields, v = .obj fields := by
  cases v with
  | obj fields => exact ⟨fields, rfl⟩
  | null => exact hv.elim
  | bool b => exact hv.elim
  | num text => exact hv.elim
  | str raw => exact hv.elim
  | arr items => exact hv.elim

theorem mem_walkFields {x : String × Json} :
    x ∈ walkFields names fields ↔ ∃ f ∈ fields, isMeta f.1 = false ∧ x ∈ walk (names ++ [f.1]) f.2 := by
  induction fields with
  | nil => simp [walkFields]
  | cons f fields ih =>
    obtain ⟨k, v⟩ := f
    rw [walkFields]
    by_cases hk : k.toList.head? = some '$'
    · rw [if_pos hk, ih]
      simp [isMeta, hk]
    · rw [if_neg hk, List.mem_append, ih]
      simp [isMeta, hk]

theorem mem_walk (names : List String) (v : Json) (hv : Tidy v) {path : String} {token : Json} :
    (path, token) ∈ walk names v ↔ ∃ more, path = joinPath (names ++ more) ∧ tokenAt more v = some token := by
  obtain ⟨fields, hcase⟩ := exists_fields hv
  rw [hcase] at hv ⊢
  rw [walk]
  by_cases htoken : isToken (.obj fields) = true
  · rw [if_pos htoken, List.mem_singleton, Prod.mk.injEq]
    constructor
    · rintro ⟨rfl, rfl⟩
      exact ⟨[], by rw [List.append_nil], if_pos htoken⟩
    · rintro ⟨more, rfl, hmore⟩
      rw [tokenAt_token htoken] at hmore
      by_cases hnil : more = []
      · rw [if_pos hnil] at hmore
        exact ⟨by rw [hnil, List.append_nil], (Option.some.inj hmore).symm⟩
      · rw [if_neg hnil] at hmore
        cases hmore
  · rw [if_neg htoken, mem_walkFields]
    obtain ⟨hnodup, hfields⟩ := hv.resolve_left htoken
    have hfalse : isToken (.obj fields) = false := by simpa using htoken
    constructor
    · rintro ⟨f, hf, hmeta, hmem⟩
      have htidy := (tidyFields_iff.mp hfields f hf).resolve_left (by simp [hmeta])
      have hlt := List.sizeOf_lt_of_mem hf
      have hsize : sizeOf f = 1 + sizeOf f.1 + sizeOf f.2 := by cases f; simp
      obtain ⟨more, hpath, hmore⟩ := (mem_walk (names ++ [f.1]) f.2 htidy).mp hmem
      refine ⟨f.1 :: more, by simpa using hpath, ?_⟩
      have hfield : (Json.obj fields).field f.1 = some f.2 := property_of_mem hnodup hf
      rw [tokenAt_cons hfalse hmeta, hfield]
      exact hmore
    · rintro ⟨more, hpath, hmore⟩
      cases more with
      | nil =>
        rw [tokenAt, if_neg htoken] at hmore
        cases hmore
      | cons k more =>
        obtain ⟨_, hk, next, hnext, _⟩ := tokenAt_cons_ne_none (by rw [hmore]; exact Option.some_ne_none token)
        rw [tokenAt_cons hfalse hk, hnext] at hmore
        obtain ⟨f, hf, rfl⟩ := Option.map_eq_some_iff.mp hnext
        have hmem := List.mem_of_find?_eq_some hf
        have hname : f.1 = k := by simpa using List.find?_some hf
        have htidy := (tidyFields_iff.mp hfields f hmem).resolve_left (by simp [hname, hk])
        have hlt := List.sizeOf_lt_of_mem hmem
        have hsize : sizeOf f = 1 + sizeOf f.1 + sizeOf f.2 := by cases f; simp
        refine ⟨f, hmem, hname ▸ hk, (mem_walk (names ++ [f.1]) f.2 htidy).mpr ⟨more, ?_, hmore⟩⟩
        simpa [hname] using hpath
termination_by sizeOf v
decreasing_by all_goals rw [hcase, Json.obj.sizeOf_spec]; omega

theorem mem_flattenTokens {doc : Json} (hdoc : Tidy doc) {token : Json} :
    (path, token) ∈ flattenTokens doc ↔ ∃ names, path = joinPath names ∧ tokenAt names doc = some token :=
  mem_walk [] doc hdoc

/-! ### One write -/

theorem field_eq_get (fields : List (String × Json)) (k : String) :
    (Json.obj fields).field k = InsertionMap.get fields k := rfl

theorem isToken_set (hk : isMeta k = false) (v : Json) :
    isToken (.obj (set fields k v)) = isToken (.obj fields) := by
  have hne : "$value" ≠ k := by
    rintro rfl
    cases hk
  unfold isToken
  rw [field_eq_get, field_eq_get, InsertionMap.get_set_of_ne hne]

theorem isToken_set_of_isToken (h : isToken (.obj fields) = true) (k : String)
    (v : Json) : isToken (.obj (set fields k v)) = true := by
  unfold isToken at h ⊢
  rw [field_eq_get] at h ⊢
  by_cases hk : "$value" = k
  · subst hk
    rw [InsertionMap.get_set_self]
    rfl
  · rw [InsertionMap.get_set_of_ne hk]
    exact h

/-- What a write walks into: the entry, when it is an object, or an empty group. -/
def child (k : String) (v : Json) : Json := ((property k v).filter isObject).getD (.obj [])

theorem child_of_get {next : Json}
    (hget : InsertionMap.get fields k = some next) (hobj : isObject next = true) : child k (.obj fields) = next := by
  have hprop : property k (.obj fields) = some next := hget
  rw [child, hprop, Option.filter_some_pos hobj]
  rfl

theorem child_of_get_none (hget : InsertionMap.get fields k = none) :
    child k (.obj fields) = .obj [] := by
  have hprop : property k (.obj fields) = none := hget
  rw [child, hprop]
  rfl

theorem isObject_of_tidy (hv : Tidy v) : isObject v = true := by
  obtain ⟨fields, rfl⟩ := exists_fields hv
  rfl

theorem tidy_entry (h : TidyFields fields) (hk : isMeta k = false)
    {next : Json} (hget : InsertionMap.get fields k = some next) : Tidy next := by
  obtain ⟨f, hf, rfl⟩ := Option.map_eq_some_iff.mp hget
  have hname : f.1 = k := by simpa using List.find?_some hf
  exact (tidyFields_iff.mp h f (List.mem_of_find?_eq_some hf)).resolve_left (by simp [hname, hk])

theorem tidy_child (h : TidyFields fields) (hk : isMeta k = false) :
    Tidy (child k (.obj fields)) := by
  cases hget : InsertionMap.get fields k with
  | none =>
    rw [child_of_get_none hget]
    exact .inr ⟨List.nodup_nil, trivial⟩
  | some next =>
    have htidy := tidy_entry h hk hget
    rw [child_of_get hget (isObject_of_tidy htidy)]
    exact htidy

/-- Below a name that is no metadata a write sees the tokens of the group. -/
theorem tokenAt_child (htoken : isToken (.obj fields) = false) (h : TidyFields fields) (hk : isMeta k = false)
    (names : List String) :
    tokenAt names (child k (.obj fields)) = tokenAt (k :: names) (.obj fields) := by
  rw [tokenAt_cons htoken hk, field_eq_get]
  cases hget : InsertionMap.get fields k with
  | none =>
    rw [child_of_get_none hget]
    cases names <;> simp [tokenAt, isToken, Json.field]
  | some next =>
    rw [child_of_get hget (isObject_of_tidy (tidy_entry h hk hget))]
    rfl

theorem tidy_set (h : Tidy (.obj fields))
    (hv : isMeta k = true ∨ isToken (.obj fields) = true ∨ Tidy v) : Tidy (.obj (set fields k v)) := by
  by_cases htoken : isToken (.obj fields) = true
  · exact tidy_token (isToken_set_of_isToken htoken k v)
  · obtain ⟨hnodup, hfields⟩ := h.resolve_left htoken
    refine .inr ⟨InsertionMap.nodup_set hnodup k v, tidyFields_iff.mpr ?_⟩
    rintro ⟨k', v'⟩ hmem
    by_cases hk : k' = k
    · subst hk
      have hget := (InsertionMap.get_eq_some (InsertionMap.nodup_set hnodup k' v)).mpr hmem
      rw [InsertionMap.get_set_self] at hget
      obtain rfl := Option.some.inj hget
      exact hv.imp_right fun hv => hv.resolve_left htoken
    · exact tidyFields_iff.mp hfields _ ((InsertionMap.mem_set_of_ne hk).mp hmem)

theorem setLeafParts_cons
    (h : setLeafParts path leaf (k :: parts) v = .ok v') :
    (k = "" ∧ setLeafParts path leaf parts v = .ok v') ∨
      (k ≠ "" ∧ parts = [] ∧ v' = assign k leaf v) ∨
      (k ≠ "" ∧ parts ≠ [] ∧ ∃ c, setLeafParts path leaf parts (child k v) = .ok c ∧ v' = assign k c v) := by
  rw [setLeafParts] at h
  by_cases hk : k = ""
  · rw [if_pos hk] at h
    exact .inl ⟨hk, h⟩
  · rw [if_neg hk] at h
    by_cases hunsafe : isUnsafeKey k = true
    · rw [if_pos hunsafe] at h
      cases h
    · rw [if_neg hunsafe] at h
      by_cases hparts : parts = []
      · rw [if_pos hparts] at h
        cases h
        exact .inr (.inl ⟨hk, hparts, rfl⟩)
      · rw [if_neg hparts] at h
        refine .inr (.inr ⟨hk, hparts, ?_⟩)
        change (setLeafParts path leaf parts (child k v)).map _ = _ at h
        cases hc : setLeafParts path leaf parts (child k v) with
        | error e =>
          rw [hc] at h
          cases h
        | ok c =>
          rw [hc] at h
          cases h
          exact ⟨c, rfl, rfl⟩

theorem tidy_setLeafParts (hleaf : isToken leaf = true)
    (hv : Tidy v) (h : setLeafParts path leaf parts v = .ok v') : Tidy v' := by
  induction parts generalizing v v' with
  | nil =>
    cases h
    exact hv
  | cons k parts ih =>
    obtain ⟨fields, rfl⟩ := exists_fields hv
    rcases setLeafParts_cons h with ⟨_, hrest⟩ | ⟨_, _, rfl⟩ | ⟨_, _, c, hc, rfl⟩
    · exact ih hv hrest
    · exact tidy_set hv (.inr (.inr (tidy_token hleaf)))
    · refine tidy_set hv ?_
      by_cases hk : isMeta k = true
      · exact .inl hk
      · by_cases htoken : isToken (.obj fields) = true
        · exact .inr (.inl htoken)
        · have hfields := (hv.resolve_left htoken).2
          exact .inr (.inr (ih (tidy_child hfields (by simpa using hk)) hc))

/-- A write at a position that no other token lies above or below sets the token there and touches no other. -/
theorem tokenAt_setLeafParts (hleaf : isToken leaf = true) (hv : Tidy v)
    (h : setLeafParts path leaf parts v = .ok v') (hne : parts ≠ [])
    (hclean : ∀ k ∈ parts, k ≠ "" ∧ isMeta k = false)
    (hapart : ∀ names, tokenAt names v ≠ none → names <+: parts ∨ parts <+: names → names = parts) (names : List String) :
    tokenAt names v' = if names = parts then some leaf else tokenAt names v := by
  induction parts generalizing v v' names with
  | nil => exact absurd rfl hne
  | cons k parts ih =>
    obtain ⟨fields, rfl⟩ := exists_fields hv
    obtain ⟨hk, hmeta⟩ := hclean k List.mem_cons_self
    have htoken : isToken (.obj fields) = false := by
      by_contra hroot
      have hroot' : tokenAt [] (.obj fields) ≠ none := by
        rw [tokenAt, if_pos (by simpa using hroot)]
        exact Option.some_ne_none _
      exact absurd (hapart [] hroot' (.inl List.nil_prefix)) (by simp)
    obtain ⟨hnodup, hfields⟩ := hv.resolve_left (by simp [htoken])
    have hother : ∀ c, ∀ k' names', k' ≠ k →
        tokenAt (k' :: names') (.obj (set fields k c)) = tokenAt (k' :: names') (.obj fields) := by
      intro c k' names' hk'
      rw [tokenAt, tokenAt, isToken_set hmeta, field_eq_get, field_eq_get, InsertionMap.get_set_of_ne hk']
    have hroot : ∀ c, tokenAt [] (.obj (set fields k c)) = tokenAt [] (.obj fields) := by
      intro c
      have hset : isToken (.obj (set fields k c)) = false := (isToken_set hmeta c).trans htoken
      rw [tokenAt, tokenAt, if_neg (by simp [hset]), if_neg (by simp [htoken])]
    have hsame : ∀ c names', tokenAt (k :: names') (.obj (set fields k c)) = tokenAt names' c := by
      intro c names'
      rw [tokenAt_cons ((isToken_set hmeta c).trans htoken) hmeta, field_eq_get, InsertionMap.get_set_self]
      rfl
    rcases setLeafParts_cons h with ⟨hempty, _⟩ | ⟨_, rfl, rfl⟩ | ⟨_, hparts, c, hc, rfl⟩
    · exact absurd hempty hk
    · show tokenAt names (.obj (set fields k leaf)) = _
      cases names with
      | nil => rw [hroot, if_neg (by simp)]
      | cons k' names' =>
        by_cases hk' : k' = k
        · subst hk'
          rw [hsame, tokenAt_token hleaf]
          by_cases hnames : names' = []
          · rw [if_pos hnames, if_pos (by rw [hnames])]
          · rw [if_neg hnames, if_neg (by simpa using hnames)]
            by_contra hsome
            have heq := hapart (k' :: names') (fun hnone => hsome hnone.symm) (.inr (by simp))
            exact hnames (by simpa using heq)
        · rw [hother leaf k' names' hk', if_neg (by simp [hk'])]
    · show tokenAt names (.obj (set fields k c)) = _
      cases names with
      | nil => rw [hroot, if_neg (by simp)]
      | cons k' names' =>
        by_cases hk' : k' = k
        · subst hk'
          have hchild := tokenAt_child htoken hfields hmeta
          have hrest := ih (tidy_child hfields hmeta) hc hparts (fun k hk => hclean k (List.mem_cons_of_mem _ hk))
            (fun names hnames hprefix => ?_) names'
          · rw [hsame, hrest, hchild]
            by_cases hnames : names' = parts
            · rw [if_pos hnames, if_pos (by rw [hnames])]
            · rw [if_neg hnames, if_neg (by simpa using hnames)]
          · rw [hchild] at hnames
            have heq := hapart (k' :: names) hnames (by simpa using hprefix)
            simpa using heq
        · rw [hother c k' names' hk', if_neg (by simp [hk'])]

end CaeloCms.Theme
