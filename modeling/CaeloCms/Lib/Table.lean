import Mathlib

/-!
# Tables with several keys an entry

A table is a list of entries, each with its keys; it answers a key with its first entry that has it.  Written out as
one pair a key, it is looked up with `List.lookup`; where no key occurs twice, the order of the pairs does not matter.
-/

namespace Table

variable {ε κ α : Type*} [BEq κ] [LawfulBEq κ]

def pairs (keys : ε → List κ) (value : ε → α) (entries : List ε) : List (κ × α) :=
  entries.flatMap fun e => (keys e).map fun k => (k, value e)

theorem lookup_keys (keys : List κ) (value : α) (k : κ) :
    (keys.map fun k' => (k', value)).lookup k = if keys.contains k then some value else none := by
  induction keys with
  | nil => rfl
  | cons k' keys ih =>
    by_cases hk : k = k'
    · subst hk
      simp
    · have hb : (k == k') = false := by simpa using hk
      rw [List.map_cons, List.lookup_cons, hb, List.contains_cons, hb, Bool.false_or]
      exact ih

theorem lookup_pairs (keys : ε → List κ) (value : ε → α) (entries : List ε) (k : κ) :
    (pairs keys value entries).lookup k = (entries.find? fun e => (keys e).contains k).map value := by
  induction entries with
  | nil => rfl
  | cons e entries ih =>
    have hcons : pairs keys value (e :: entries) =
        ((keys e).map fun k' => (k', value e)) ++ pairs keys value entries := rfl
    rw [hcons, List.lookup_append, lookup_keys, ih]
    by_cases hk : (keys e).contains k = true
    · rw [if_pos hk, List.find?_cons, hk]
      rfl
    · have hk' : (keys e).contains k = false := by simpa using hk
      rw [if_neg hk, List.find?_cons, hk', Option.none_or]

omit [BEq κ] [LawfulBEq κ] in
theorem keys_pairs (keys : ε → List κ) (value : ε → α) (entries : List ε) :
    (pairs keys value entries).map Prod.fst = entries.flatMap keys := by
  induction entries with
  | nil => rfl
  | cons e entries ih =>
    have hcons : pairs keys value (e :: entries) =
        ((keys e).map fun k' => (k', value e)) ++ pairs keys value entries := rfl
    have hkeys : ((keys e).map fun k' => (k', value e)).map Prod.fst = keys e := by
      rw [List.map_map]
      exact List.map_id _
    rw [hcons, List.map_append, ih, hkeys, List.flatMap_cons]

theorem lookup_eq_some_of_nodup {t : List (κ × α)} (h : (t.map Prod.fst).Nodup) {k : κ} {a : α} :
    t.lookup k = some a ↔ (k, a) ∈ t := by
  induction t with
  | nil => simp
  | cons p t ih =>
    obtain ⟨k', a'⟩ := p
    rw [List.map_cons, List.nodup_cons] at h
    obtain ⟨hnew, hnodup⟩ := h
    by_cases hk : k = k'
    · subst hk
      rw [List.lookup_cons_self, List.mem_cons]
      constructor
      · intro heq
        cases heq
        exact Or.inl rfl
      · rintro (heq | hmem)
        · cases heq
          rfl
        · exact absurd (List.mem_map_of_mem hmem) hnew
    · have hb : (k == k') = false := by simpa using hk
      rw [List.lookup_cons, hb, List.mem_cons]
      dsimp only
      rw [ih hnodup]
      constructor
      · exact Or.inr
      · rintro (heq | hmem)
        · cases heq
          exact absurd rfl hk
        · exact hmem

theorem lookup_perm {t t' : List (κ × α)} (hp : t.Perm t') (h : (t.map Prod.fst).Nodup) (k : κ) :
    t.lookup k = t'.lookup k := by
  have h' : (t'.map Prod.fst).Nodup := (hp.map Prod.fst).nodup_iff.1 h
  refine Option.ext fun a => ?_
  rw [lookup_eq_some_of_nodup h, lookup_eq_some_of_nodup h', hp.mem_iff]

/-- A table whose values are read off what its keys are made of. -/
theorem lookup_map {β : Type*} {f : β → κ} {g : β → α} {l : List β} {b : β} (hb : b ∈ l)
    (hinj : ∀ c ∈ l, f c = f b → g c = g b) : (l.map fun c => (f c, g c)).lookup (f b) = some (g b) := by
  induction l with
  | nil => cases hb
  | cons c l ih =>
    by_cases hc : f b = f c
    · rw [List.map_cons, hc, List.lookup_cons_self, hinj c List.mem_cons_self hc.symm]
    · have hmem : b ∈ l := by
        rcases List.mem_cons.1 hb with rfl | hmem
        · exact absurd rfl hc
        · exact hmem
      have hbeq : (f b == f c) = false := by simpa using hc
      rw [List.map_cons, List.lookup_cons, hbeq]
      exact ih hmem fun d hd => hinj d (List.mem_cons_of_mem _ hd)

theorem exists_of_forall₂ {α β : Type*} {R : α → β → Prop} {l : List α} {l' : List β} (h : List.Forall₂ R l l') :
    ∀ a ∈ l, ∃ b ∈ l', R a b := by
  induction h with
  | nil =>
    intro a ha
    cases ha
  | cons hab _ ih =>
    intro a ha
    rcases List.mem_cons.1 ha with rfl | ha
    · exact ⟨_, List.mem_cons_self, hab⟩
    · obtain ⟨b, hb, h⟩ := ih a ha
      exact ⟨b, List.mem_cons_of_mem _ hb, h⟩

theorem find?_forall₂ {α β : Type*} {R : α → β → Prop} {p : α → Bool} {q : β → Bool}
    (hpq : ∀ a b, R a b → p a = q b) {l : List α} {l' : List β} (h : List.Forall₂ R l l') :
    (l.find? p = none ∧ l'.find? q = none) ∨ ∃ a b, l.find? p = some a ∧ l'.find? q = some b ∧ R a b := by
  induction h with
  | nil => exact Or.inl ⟨rfl, rfl⟩
  | @cons a b l l' hab _ ih =>
    rw [List.find?_cons, List.find?_cons, hpq a b hab]
    cases q b with
    | true => exact Or.inr ⟨a, b, rfl, rfl, hab⟩
    | false => exact ih

end Table
