import Mathlib

/-!
# Ideal authenticated encryption

A sealed value opens to exactly what was sealed, and only under its key: the values a party sealed are kept in a ledger, and
opening looks a text up there.  What a payload stands for is a property of the ledger entry and of what has happened so
far; while what has happened only grows, it is established once, where the value is sealed.
-/

/-- A value that was sealed: the text that was handed out, the key and what is inside. -/
structure SealedBox (κ π : Type) where
  token : String
  key : κ
  payload : π
deriving DecidableEq

namespace SealedBox

variable {κ π ε : Type} [DecidableEq κ]

/-- What the text opens to under the keys of `ring`. -/
def unsealed (issued : List (SealedBox κ π)) (ring : List κ) (token : String) : Option π :=
  (issued.find? fun b => b.token == token && ring.contains b.key).map payload

variable {issued : List (SealedBox κ π)} {ring : List κ} {token : String} {p : π}

theorem exists_of_unsealed (h : unsealed issued ring token = some p) :
    ∃ b ∈ issued, b.token = token ∧ b.key ∈ ring ∧ b.payload = p := by
  obtain ⟨b, hfind, hp⟩ := Option.map_eq_some_iff.mp h
  have hmatch := List.find?_some hfind
  simp only [Bool.and_eq_true, beq_iff_eq, List.contains_iff_mem] at hmatch
  exact ⟨b, List.mem_of_find?_eq_some hfind, hmatch.1, hmatch.2, hp⟩

/-! ### What the payloads stand for -/

/-- Every value in the ledger is what `J` says of it, given what has happened. -/
def Justified (J : List ε → SealedBox κ π → Prop) (issued : List (SealedBox κ π)) (past : List ε) : Prop :=
  ∀ b ∈ issued, J past b

variable {J : List ε → SealedBox κ π → Prop} {past : List ε}

omit [DecidableEq κ] in
@[simp] theorem justified_nil : Justified J [] past := by
  simp [Justified]

omit [DecidableEq κ] in
theorem Justified.cons (h : Justified J issued past) (mono : ∀ (e : ε) (b : SealedBox κ π), J past b → J (e :: past) b)
    {e : ε} {new : List (SealedBox κ π)} (hnew : ∀ b ∈ new, J (e :: past) b) :
    Justified J (new ++ issued) (e :: past) := by
  intro b hb
  cases List.mem_append.mp hb with
  | inl hb => exact hnew b hb
  | inr hb => exact mono e b (h b hb)

theorem Justified.of_unsealed (h : Justified J issued past) (hopen : unsealed issued ring token = some p) :
    ∃ k ∈ ring, J past ⟨token, k, p⟩ := by
  obtain ⟨b, hb, rfl, hk, rfl⟩ := exists_of_unsealed hopen
  exact ⟨b.key, hk, h b hb⟩

end SealedBox
