import Mathlib

/-!
# Maps that keep their insertion order

A JavaScript `Map`, or a record, keeps its entries in the order their keys were first set: `set` replaces the value
of a key where it stands, or appends a new key.  It is modelled as a list of pairs; `get` reads the first pair of a
key.
-/

namespace InsertionMap

variable {κ α : Type*} [DecidableEq κ]

/-- `map.has(k)` -/
def has (m : List (κ × α)) (k : κ) : Bool := m.any fun p => p.1 = k

def get (m : List (κ × α)) (k : κ) : Option α := (m.find? fun p => p.1 = k).map Prod.snd

/-- `map.set(k, v)` -/
def set (m : List (κ × α)) (k : κ) (v : α) : List (κ × α) :=
  if has m k then m.map fun p => if p.1 = k then (k, v) else p else m ++ [(k, v)]

/-- `for (const [k, v] of entries) map.set(k, v)` -/
def setAll (m entries : List (κ × α)) : List (κ × α) := entries.foldl (fun m p => set m p.1 p.2) m

/-- `map.delete(k)` -/
def erase (m : List (κ × α)) (k : κ) : List (κ × α) := m.filter fun p => p.1 ≠ k

theorem has_iff {m : List (κ × α)} {k : κ} : has m k = true ↔ k ∈ m.map Prod.fst := by
  simp [has]

theorem setAll_eq_append (m entries : List (κ × α)) (h : ((m ++ entries).map Prod.fst).Nodup) :
    setAll m entries = m ++ entries := by
  induction entries generalizing m with
  | nil => exact (List.append_nil m).symm
  | cons p entries ih =>
    have hsplit : m ++ p :: entries = (m ++ [p]) ++ entries := by simp
    rw [hsplit] at h
    have hnew : has m p.1 = false := by
      rw [Bool.eq_false_iff, Ne, has_iff]
      intro hmem
      rw [List.map_append, List.map_append, List.nodup_append, List.nodup_append] at h
      exact h.1.2.2 p.1 hmem p.1 (by simp) rfl
    have hset : set m p.1 p.2 = m ++ [p] := by
      unfold set
      rw [hnew]
      rfl
    show setAll (set m p.1 p.2) entries = _
    rw [hset, ih _ h, ← hsplit]

theorem keys_set (m : List (κ × α)) (k : κ) (v : α) :
    (set m k v).map Prod.fst = if has m k then m.map Prod.fst else m.map Prod.fst ++ [k] := by
  unfold set
  split
  · rw [List.map_map]
    refine List.map_congr_left fun p _ => ?_
    by_cases hp : p.1 = k <;> simp [hp]
  · rw [List.map_append]
    rfl

theorem nodup_set {m : List (κ × α)} (h : (m.map Prod.fst).Nodup) (k : κ) (v : α) :
    ((set m k v).map Prod.fst).Nodup := by
  rw [keys_set]
  split
  · exact h
  · rename_i hnew
    rw [List.nodup_append]
    refine ⟨h, List.nodup_singleton k, ?_⟩
    rintro a ha b hb rfl
    rw [List.mem_singleton.1 hb] at ha
    exact hnew (has_iff.2 ha)

theorem mem_set_of_ne {m : List (κ × α)} {k k' : κ} {v v' : α} (hne : k' ≠ k) : (k', v') ∈ set m k v ↔ (k', v') ∈ m := by
  unfold set
  split
  · rw [List.mem_map]
    constructor
    · rintro ⟨p, hp, heq⟩
      by_cases hk : p.1 = k
      · rw [if_pos hk, Prod.mk.injEq] at heq
        exact absurd heq.1.symm hne
      · rw [if_neg hk] at heq
        exact heq ▸ hp
    · intro h
      exact ⟨_, h, if_neg hne⟩
  · simp [hne]

theorem get_set_self (m : List (κ × α)) (k : κ) (v : α) : get (set m k v) k = some v := by
  unfold set
  by_cases hnew : has m k = true
  · rw [if_pos hnew]
    have hsome : ∃ p ∈ m, p.1 = k := by simpa [has] using hnew
    clear hnew
    induction m with
    | nil => simp at hsome
    | cons p m ih =>
      by_cases hp : p.1 = k
      · simp [get, hp]
      · have hrest : ∃ p ∈ m, p.1 = k := by simpa [hp] using hsome
        have hcons : get ((p :: m).map fun p => if p.1 = k then (k, v) else p) k =
            get (m.map fun p => if p.1 = k then (k, v) else p) k := by simp [get, hp]
        rw [hcons, ih hrest]
  · rw [if_neg hnew]
    have hnone : m.find? (fun p => p.1 = k) = none := by
      refine List.find?_eq_none.mpr fun p hp hk => hnew (has_iff.mpr ?_)
      exact List.mem_map.mpr ⟨p, hp, by simpa using hk⟩
    simp [get, List.find?_append, hnone]

theorem get_set_of_ne {m : List (κ × α)} {k k' : κ} {v : α} (hne : k' ≠ k) : get (set m k v) k' = get m k' := by
  unfold set
  by_cases hnew : has m k = true
  · rw [if_pos hnew]
    clear hnew
    induction m with
    | nil => rfl
    | cons p m ih =>
      by_cases hp : p.1 = k
      · have hpk : p.1 ≠ k' := fun h => hne (h.symm.trans hp)
        simpa [get, hp, hne.symm, hpk] using ih
      · by_cases hpk : p.1 = k'
        · simp [get, hpk, hne]
        · simpa [get, hp, hpk] using ih
  · rw [if_neg hnew]
    simp [get, List.find?_append, hne.symm]

theorem mem_of_get {m : List (κ × α)} {k : κ} {v : α} (h : get m k = some v) : (k, v) ∈ m := by
  obtain ⟨p, hp, rfl⟩ := Option.map_eq_some_iff.1 h
  have hk : p.1 = k := by simpa using List.find?_some hp
  exact hk ▸ List.mem_of_find?_eq_some hp

theorem mem_of_mem_set {m : List (κ × α)} {k : κ} {v : α} {p : κ × α} (h : p ∈ set m k v) : p ∈ m ∨ p = (k, v) := by
  unfold set at h
  split at h
  · obtain ⟨q, hq, rfl⟩ := List.mem_map.1 h
    by_cases hk : q.1 = k
    · exact Or.inr (if_pos hk)
    · exact Or.inl (by rwa [if_neg hk])
  · rcases List.mem_append.1 h with h | h
    · exact Or.inl h
    · exact Or.inr (List.mem_singleton.1 h)

theorem get_eq_some {m : List (κ × α)} (h : (m.map Prod.fst).Nodup) {k : κ} {v : α} :
    get m k = some v ↔ (k, v) ∈ m := by
  induction m with
  | nil => simp [get]
  | cons p m ih =>
    rw [List.map_cons, List.nodup_cons] at h
    by_cases hk : p.1 = k
    · subst hk
      have hget : get (p :: m) p.1 = some p.2 := by simp [get]
      rw [hget, List.mem_cons, Option.some.injEq]
      constructor
      · rintro rfl
        exact Or.inl rfl
      · rintro (heq | hmem)
        · rw [← heq]
        · exact absurd (List.mem_map_of_mem (f := Prod.fst) hmem) h.1
    · have hget : get (p :: m) k = get m k := by simp [get, hk]
      rw [hget, ih h.2, List.mem_cons]
      constructor
      · exact Or.inr
      · rintro (heq | hmem)
        · exact absurd (congrArg Prod.fst heq).symm hk
        · exact hmem

end InsertionMap
