import Mathlib

/-!
# Semantic versions

A version is three numbers, the identifiers of a pre-release and those of its build metadata; a release has none of the
former.  `Precedes` is its precedence: the numbers first, then a pre-release before its release, then the identifiers one
after the other, where numbers come before words and a list before one that continues it.  Build metadata has no part in it.

A rank of versions is made from a rank of the numbers and one of the identifiers (`rank_lt_iff`); precedence is the order of
such a rank (`precedes_iff_rank`), so it is irreflexive, transitive and total up to build metadata.
-/

namespace SemVer

def isIdentifierChar (c : Char) : Bool := c.isAlphanum || c = '-'

inductive Identifier
  | numeric (n : Nat)
  | alphanumeric (s : List Char) (hchars : s.all isIdentifierChar = true) (hletter : s.any (fun c => !c.isDigit) = true)
deriving DecidableEq

abbrev BuildIdentifier := {s : List Char // s ≠ [] ∧ s.all isIdentifierChar = true}

structure Version where
  major : Nat
  minor : Nat
  patch : Nat
  prerelease : List Identifier
  build : List BuildIdentifier

/-! ### The text of a version -/

def decimal (n : Nat) : List Char := Nat.toDigits 10 n

def Identifier.text : Identifier → List Char
  | .numeric n => decimal n
  | .alphanumeric s _ _ => s

def dotted (parts : List (List Char)) : List Char := ['.'].intercalate parts

def Version.text (v : Version) : List Char :=
  decimal v.major ++ '.' :: (decimal v.minor ++ '.' :: (decimal v.patch ++
    ((if v.prerelease = [] then [] else '-' :: dotted (v.prerelease.map Identifier.text)) ++
      if v.build = [] then [] else '+' :: dotted (v.build.map Subtype.val))))

/-! ### Precedence -/

def Identifier.Before : Identifier → Identifier → Prop
  | .numeric m, .numeric n => m < n
  | .numeric _, .alphanumeric _ _ _ => True
  | .alphanumeric _ _ _, .numeric _ => False
  | .alphanumeric s _ _, .alphanumeric t _ _ => s < t

def ListBefore {α : Type*} (before : α → α → Prop) : List α → List α → Prop
  | _, [] => False
  | [], _ :: _ => True
  | x :: xs, y :: ys => before x y ∨ x = y ∧ ListBefore before xs ys

def ReleaseBefore {α : Type*} (before : α → α → Prop) (xs ys : List α) : Prop :=
  xs ≠ [] ∧ (ys = [] ∨ ListBefore before xs ys)

def Version.Precedes (u v : Version) : Prop :=
  u.major < v.major ∨ u.major = v.major ∧ (u.minor < v.minor ∨ u.minor = v.minor ∧ (u.patch < v.patch ∨
    u.patch = v.patch ∧ ReleaseBefore Identifier.Before u.prerelease v.prerelease))

def Version.SameUpToBuild (u v : Version) : Prop :=
  u.major = v.major ∧ u.minor = v.minor ∧ u.patch = v.patch ∧ u.prerelease = v.prerelease

/-! ### Ranks -/

section Rank

variable {κ ι : Type*} [LinearOrder κ] [LinearOrder ι] (core : Nat → κ) (ident : Identifier → ι)

/-- The place of a pre-release, with that of a release behind all others. -/
def prereleaseRank (xs : List Identifier) : WithTop (List ι) := if xs = [] then ⊤ else ↑(xs.map ident)

def Version.rank (v : Version) : κ ×ₗ κ ×ₗ κ ×ₗ WithTop (List ι) :=
  toLex (core v.major, toLex (core v.minor, toLex (core v.patch, prereleaseRank ident v.prerelease)))

variable {core ident}

variable {before : Identifier → Identifier → Prop} {xs ys : List Identifier}

theorem listBefore_iff
    (h : ∀ x y, before x y ↔ ident x < ident y) (heq : ∀ x y, ident x = ident y → x = y) :
    ListBefore before xs ys ↔ xs.map ident < ys.map ident := by
  induction xs generalizing ys with
  | nil =>
    cases ys with
    | nil => simp [ListBefore]
    | cons y ys => simp [ListBefore]
  | cons x xs ih =>
    cases ys with
    | nil => simp [ListBefore]
    | cons y ys =>
      have hxy : x = y ↔ ident x = ident y := ⟨fun h => h ▸ rfl, heq x y⟩
      rw [ListBefore, h, ih, List.map_cons, List.map_cons, List.cons_lt_cons_iff, hxy]

theorem prereleaseRank_lt_iff
    (h : ∀ x y, before x y ↔ ident x < ident y) (heq : ∀ x y, ident x = ident y → x = y) :
    ReleaseBefore before xs ys ↔ prereleaseRank ident xs < prereleaseRank ident ys := by
  unfold ReleaseBefore prereleaseRank
  by_cases hxs : xs = []
  · simp [hxs]
  · by_cases hys : ys = []
    · simp [hxs, hys]
    · rw [if_neg hxs, if_neg hys, WithTop.coe_lt_coe, listBefore_iff h heq]
      simp [hxs, hys]

theorem rank_lt_iff {u v : Version}
    (h : ∀ x y, before x y ↔ ident x < ident y) (heq : ∀ x y, ident x = ident y → x = y) :
    u.rank core ident < v.rank core ident ↔
      core u.major < core v.major ∨ core u.major = core v.major ∧ (core u.minor < core v.minor ∨
        core u.minor = core v.minor ∧ (core u.patch < core v.patch ∨
          core u.patch = core v.patch ∧ ReleaseBefore before u.prerelease v.prerelease)) := by
  rw [Version.rank, Version.rank, Prod.Lex.toLex_lt_toLex, Prod.Lex.toLex_lt_toLex, Prod.Lex.toLex_lt_toLex,
    prereleaseRank_lt_iff h heq]

omit [LinearOrder ι] in
theorem eq_of_prereleaseRank_eq (heq : ∀ x y, ident x = ident y → x = y)
    (h : prereleaseRank ident xs = prereleaseRank ident ys) : xs = ys := by
  unfold prereleaseRank at h
  by_cases hxs : xs = []
  · by_cases hys : ys = []
    · rw [hxs, hys]
    · rw [if_pos hxs, if_neg hys] at h
      exact absurd h (WithTop.top_ne_coe)
  · by_cases hys : ys = []
    · rw [if_neg hxs, if_pos hys] at h
      exact absurd h (WithTop.coe_ne_top)
    · rw [if_neg hxs, if_neg hys] at h
      exact List.map_injective_iff.2 (fun x y => heq x y) (WithTop.coe_injective h)

end Rank

/-! ### Precedence is an order -/

def Identifier.rank : Identifier → ℕ ⊕ₗ List Char
  | .numeric n => toLex (.inl n)
  | .alphanumeric s _ _ => toLex (.inr s)

theorem before_iff (x y : Identifier) : x.Before y ↔ x.rank < y.rank := by
  cases x <;> cases y <;> simp [Identifier.Before, Identifier.rank]

theorem eq_of_rank_eq (x y : Identifier) (h : x.rank = y.rank) : x = y := by
  cases x <;> cases y <;> simp_all [Identifier.rank]

theorem precedes_iff_rank (u v : Version) :
    u.Precedes v ↔ u.rank id Identifier.rank < v.rank id Identifier.rank := by
  rw [rank_lt_iff before_iff eq_of_rank_eq]
  rfl

theorem precedes_total (u v : Version) : u.Precedes v ∨ v.Precedes u ∨ u.SameUpToBuild v := by
  rw [precedes_iff_rank, precedes_iff_rank]
  rcases lt_trichotomy (u.rank id Identifier.rank) (v.rank id Identifier.rank) with hlt | heq | hgt
  · exact Or.inl hlt
  · rw [Version.rank, Version.rank, EmbeddingLike.apply_eq_iff_eq, Prod.mk.injEq, EmbeddingLike.apply_eq_iff_eq,
      Prod.mk.injEq, EmbeddingLike.apply_eq_iff_eq, Prod.mk.injEq] at heq
    exact Or.inr (Or.inr ⟨heq.1, heq.2.1, heq.2.2.1, eq_of_prereleaseRank_eq eq_of_rank_eq heq.2.2.2⟩)
  · exact Or.inr (Or.inl hgt)

end SemVer
