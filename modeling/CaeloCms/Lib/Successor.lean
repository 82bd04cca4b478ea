import Mathlib

/-!
# Following a partial successor

Walks along `next : α → Option α`, with the elements they pass.  A walk that ends, where nothing follows, is the only one
that ends, and no walk from its start comes back to where it has been.
-/

namespace Successor

variable {α : Type*}

/-- A walk from `a` to `b`, and what it passes after `a`. -/
inductive Walk (next : α → Option α) : α → List α → α → Prop
  | nil (a : α) : Walk next a [] a
  | cons {a b c : α} {l : List α} (h : next a = some b) (w : Walk next b l c) : Walk next a (b :: l) c

/-- Some walk from `a` comes back to where it has been. -/
def Loops (next : α → Option α) (a : α) : Prop :=
  ∃ before b l, Walk next a before b ∧ l ≠ [] ∧ Walk next b l b

variable {next next' : α → Option α} {a b c d : α} {l l' : List α}

theorem Walk.append (h : Walk next a l b) (h' : Walk next b l' c) : Walk next a (l ++ l') c := by
  induction h with
  | nil => exact h'
  | cons hnext _ ih => exact .cons hnext (ih h')

theorem Walk.concat (h : Walk next a l b) (hnext : next b = some c) : Walk next a (l ++ [c]) c :=
  h.append (.cons hnext (.nil c))

theorem Walk.imp_on {S : α → Prop} (hclosed : ∀ a b, S a → next a = some b → S b)
    (himp : ∀ a b, S a → next a = some b → next' a = some b) (h : Walk next a l b) (ha : S a) : Walk next' a l b := by
  induction h with
  | nil => exact .nil _
  | cons hnext _ ih => exact .cons (himp _ _ ha hnext) (ih (hclosed _ _ ha hnext))

theorem Walk.imp (himp : ∀ a b, next a = some b → next' a = some b) (h : Walk next a l b) : Walk next' a l b :=
  h.imp_on (fun _ _ _ _ => trivial : ∀ a b, True → next a = some b → True) (fun a b _ => himp a b) trivial

theorem Loops.imp (himp : ∀ a b, next a = some b → next' a = some b) (h : Loops next a) : Loops next' a := by
  obtain ⟨before, b, l, hreach, hne, hback⟩ := h
  exact ⟨before, b, l, hreach.imp himp, hne, hback.imp himp⟩

theorem Walk.closed {S : α → Prop} (hclosed : ∀ a b, S a → next a = some b → S b) (h : Walk next a l b) (ha : S a) :
    S b ∧ ∀ x ∈ l, S x := by
  induction h with
  | nil => exact ⟨ha, by simp⟩
  | cons hnext _ ih =>
    obtain ⟨hend, hall⟩ := ih (hclosed _ _ ha hnext)
    exact ⟨hend, List.forall_mem_cons.2 ⟨hclosed _ _ ha hnext, hall⟩⟩

theorem Walk.rest (h : Walk next a l c) (hend : next c = none) (h' : Walk next a l' b) :
    ∃ rest, l = l' ++ rest ∧ Walk next b rest c := by
  induction h' generalizing l with
  | nil => exact ⟨l, rfl, h⟩
  | cons hnext _ ih =>
    cases h with
    | nil =>
      rw [hend] at hnext
      cases hnext
    | cons hfirst hrest =>
      obtain rfl := Option.some.inj (hfirst.symm.trans hnext)
      obtain ⟨rest, rfl, hw⟩ := ih hrest
      exact ⟨rest, rfl, hw⟩

theorem Walk.unique (h : Walk next a l c) (hend : next c = none) (h' : Walk next a l' d) (hend' : next d = none) :
    l = l' ∧ c = d := by
  obtain ⟨rest, rfl, hw⟩ := h.rest hend h'
  cases hw with
  | nil => simp
  | cons hnext _ =>
    rw [hend'] at hnext
    cases hnext

theorem not_loops_of_ends (h : Walk next a l c) (hend : next c = none) : ¬ Loops next a := by
  rintro ⟨before, b, back, hreach, hne, hback⟩
  obtain ⟨rest, -, hrest⟩ := h.rest hend hreach
  obtain ⟨rest', hsplit, hrest'⟩ := hrest.rest hend hback
  obtain ⟨hsame, -⟩ := hrest.unique hend hrest' hend
  rw [hsame] at hsplit
  exact hne (by simpa using hsplit)

theorem loops_of_mem (h : Walk next a l b) (hnext : next b = some c) (hmem : c ∈ a :: l) : Loops next a := by
  obtain ⟨before, after, hreach, hback⟩ : ∃ before after, Walk next a before c ∧ Walk next c after b := by
    clear hnext
    induction h with
    | nil =>
      obtain rfl := List.mem_singleton.1 hmem
      exact ⟨[], [], .nil _, .nil _⟩
    | cons hfirst hrest ih =>
      rcases List.mem_cons.1 hmem with rfl | hmem
      · exact ⟨[], _, .nil _, .cons hfirst hrest⟩
      · obtain ⟨before, after, hreach, hback⟩ := ih hmem
        exact ⟨_, after, .cons hfirst hreach, hback⟩
  exact ⟨before, c, after ++ [c], hreach, by simp, hback.concat hnext⟩

end Successor
