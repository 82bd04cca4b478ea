import CaeloCms.Update.Kind

/-!
# Updates and the precedence of versions

On semantic versions `updateKind` is the order of a rank in which numbers are doubles (`updateKind_isSome_iff`), so it is
irreflexive and transitive.  It is the precedence of the versions if and only if the place that decides is told apart by the
doubles (`TellsApart`) and there is no build metadata, which `SEMVER` does not match (`precedence_iff`).
-/

namespace CaeloCms.Update

open SemVer (Identifier Version ListBefore ReleaseBefore decimal dotted)

/-! ### The order of the code is a rank -/

def Later (u v : Version) : Prop := laterPrerelease (prereleaseGroup u) (prereleaseGroup v) = true

theorem later_iff (u v : Version) : Later u v ↔ ReleaseBefore Earlier u.prerelease v.prerelease := by
  unfold Later prereleaseGroup ReleaseBefore
  by_cases hu : u.prerelease = []
  · simp [hu, laterPrerelease]
  · by_cases hv : v.prerelease = []
    · simp [hu, hv, laterPrerelease]
    · rw [if_neg hu, if_neg hv, laterPrerelease, decide_eq_true_iff, comparePrerelease, splitOn_dotted hu,
        splitOn_dotted hv, compareIdentifiers_texts]
      simp [hu, hv]

def numberRank : Identifier → (WithTop ℕ ×ₗ List Char) ⊕ₗ List Char
  | .numeric n => toLex (.inl (toLex (Binary64.ofNat n, decimal n)))
  | .alphanumeric s _ _ => toLex (.inr s)

theorem earlier_iff (x y : Identifier) : Earlier x y ↔ numberRank x < numberRank y := by
  cases x <;> cases y <;> simp [Earlier, numberRank, Prod.Lex.toLex_lt_toLex]

theorem eq_of_numberRank_eq (x y : Identifier) (h : numberRank x = numberRank y) : x = y := by
  cases x with
  | numeric m =>
    cases y with
    | numeric n =>
      simp only [numberRank, EmbeddingLike.apply_eq_iff_eq, Sum.inl.injEq, Prod.mk.injEq] at h
      rw [decimal_injective h.2]
    | alphanumeric t hchars hletter => simp [numberRank] at h
  | alphanumeric s hchars hletter =>
    cases y with
    | numeric n => simp [numberRank] at h
    | alphanumeric t hchars' hletter' =>
      simp only [numberRank, EmbeddingLike.apply_eq_iff_eq, Sum.inr.injEq] at h
      subst h
      rfl

/-- One number of the comparison. -/
theorem isSome_ite_iff (a b : WithTop ℕ) (kind : UpdateKind) (rest : Option UpdateKind) :
    (if b ≠ a then if a < b then some kind else none else rest).isSome = true ↔ a < b ∨ a = b ∧ rest.isSome = true := by
  by_cases heq : a = b
  · subst heq
    simp
  · rw [if_pos (Ne.symm heq)]
    by_cases hlt : a < b <;> simp [hlt, heq]

theorem updateKind_text (u v : Version) : (updateKind u.text v.text).isSome ↔
    u.build = [] ∧ v.build = [] ∧
      (Binary64.ofNat u.major < Binary64.ofNat v.major ∨ Binary64.ofNat u.major = Binary64.ofNat v.major ∧
        (Binary64.ofNat u.minor < Binary64.ofNat v.minor ∨ Binary64.ofNat u.minor = Binary64.ofNat v.minor ∧
          (Binary64.ofNat u.patch < Binary64.ofNat v.patch ∨ Binary64.ofNat u.patch = Binary64.ofNat v.patch ∧
            Later u v))) := by
  unfold updateKind
  rw [semver_text, semver_text]
  by_cases hu : u.build = []
  · by_cases hv : v.build = []
    · simp only [hu, hv, if_true, Option.bind_some, number_decimal, true_and, isSome_ite_iff]
      unfold Later
      by_cases hlater : laterPrerelease (prereleaseGroup u) (prereleaseGroup v) = true <;> simp [hlater]
    · simp [hu, hv]
  · simp [hu]

def codeRank (v : Version) : WithTop ℕ ×ₗ WithTop ℕ ×ₗ WithTop ℕ ×ₗ WithTop (List ((WithTop ℕ ×ₗ List Char) ⊕ₗ List Char)) :=
  v.rank Binary64.ofNat numberRank

theorem updateKind_isSome_iff (u v : Version) :
    (updateKind u.text v.text).isSome ↔ u.build = [] ∧ v.build = [] ∧ codeRank u < codeRank v := by
  rw [updateKind_text, codeRank, codeRank, SemVer.rank_lt_iff earlier_iff eq_of_numberRank_eq, later_iff]

theorem updateKind_irrefl (v : Version) : (updateKind v.text v.text).isSome = false := by
  rw [← Bool.not_eq_true, updateKind_isSome_iff]
  exact fun h => lt_irrefl _ h.2.2

theorem updateKind_trans {u v w : Version} (huv : (updateKind u.text v.text).isSome = true)
    (hvw : (updateKind v.text w.text).isSome = true) : (updateKind u.text w.text).isSome = true := by
  rw [updateKind_isSome_iff] at huv hvw ⊢
  exact ⟨huv.1, hvw.2.1, lt_trans huv.2.2 hvw.2.2⟩

/-! ### Where the two orders agree -/

/-- Two numbers that differ are told apart by their doubles or by their texts. -/
def Told : Identifier → Identifier → Prop
  | .numeric m, .numeric n => Binary64.ofNat m ≠ Binary64.ofNat n ∨ (decimal m < decimal n ↔ m < n)
  | _, _ => True

def IdentifiersTold : List Identifier → List Identifier → Prop
  | x :: xs, y :: ys => Told x y ∧ (x = y → IdentifiersTold xs ys)
  | _, _ => True

def numbers (u v : Version) : List (ℕ × ℕ) := [(u.major, v.major), (u.minor, v.minor), (u.patch, v.patch)]

def firstOther (u v : Version) : Option (ℕ × ℕ) := (numbers u v).find? fun p => p.1 ≠ p.2

def firstTold (u v : Version) : Option (ℕ × ℕ) := (numbers u v).find? fun p => Binary64.ofNat p.1 ≠ Binary64.ofNat p.2

/-- The first numbers that differ and the first ones whose doubles differ, or else the pre-releases, say the same. -/
def TellsApart (u v : Version) : Prop :=
  match firstOther u v, firstTold u v with
  | none, _ => IdentifiersTold u.prerelease v.prerelease
  | some p, none => p.1 < p.2 ↔ Later u v
  | some p, some q => p.1 < p.2 ↔ q.1 < q.2

/-- Neither version has build metadata and the doubles tell them apart, or one has and there is no step between them. -/
def PrecedenceKept (u v : Version) : Prop :=
  u.build = [] ∧ v.build = [] ∧ TellsApart u v ∨ (u.build ≠ [] ∨ v.build ≠ []) ∧ ¬u.Precedes v

theorem told_iff (x y : Identifier) : (Earlier x y ↔ x.Before y) ↔ Told x y := by
  cases x with
  | numeric m =>
    cases y with
    | numeric n =>
      rw [Earlier, Identifier.Before, Told]
      by_cases heq : Binary64.ofNat m = Binary64.ofNat n
      · simp [heq]
      · simp [heq, Binary64.ofNat_lt_iff heq]
    | alphanumeric t hchars hletter => simp [Earlier, Identifier.Before, Told]
  | alphanumeric s hchars hletter => cases y <;> simp [Earlier, Identifier.Before, Told]

theorem not_earlier_self (x : Identifier) : ¬Earlier x x := by
  rw [earlier_iff]
  exact lt_irrefl _

theorem not_before_self (x : Identifier) : ¬x.Before x := by
  rw [SemVer.before_iff]
  exact lt_irrefl _

theorem identifiersTold_iff (xs ys : List Identifier) :
    (ListBefore Earlier xs ys ↔ ListBefore Identifier.Before xs ys) ↔ IdentifiersTold xs ys := by
  induction xs generalizing ys with
  | nil => cases ys <;> simp [ListBefore, IdentifiersTold]
  | cons x xs ih =>
    cases ys with
    | nil => simp [ListBefore, IdentifiersTold]
    | cons y ys =>
      rw [ListBefore, ListBefore, IdentifiersTold, ← told_iff]
      by_cases hxy : x = y
      · subst hxy
        simp [not_earlier_self, not_before_self, ih]
      · simp [hxy]

theorem releaseTold_iff (xs ys : List Identifier) :
    (ReleaseBefore Earlier xs ys ↔ ReleaseBefore Identifier.Before xs ys) ↔ IdentifiersTold xs ys := by
  unfold ReleaseBefore
  by_cases hxs : xs = []
  · subst hxs
    simp [IdentifiersTold]
  · by_cases hys : ys = []
    · subst hys
      cases xs <;> simp [IdentifiersTold]
    · simp [hxs, hys, identifiersTold_iff]

/-- The first of three pairs that are ranked differently decides a lexicographic order. -/
theorem lex_iff_elim {κ : Type*} [LinearOrder κ] (rank : ℕ → κ) (u v : Version) (R : Prop) :
    (rank u.major < rank v.major ∨ rank u.major = rank v.major ∧ (rank u.minor < rank v.minor ∨
      rank u.minor = rank v.minor ∧ (rank u.patch < rank v.patch ∨ rank u.patch = rank v.patch ∧ R))) ↔
      ((numbers u v).find? fun p => rank p.1 ≠ rank p.2).elim R fun p => rank p.1 < rank p.2 := by
  unfold numbers
  by_cases hmajor : rank u.major = rank v.major
  · by_cases hminor : rank u.minor = rank v.minor
    · by_cases hpatch : rank u.patch = rank v.patch <;> simp [hmajor, hminor, hpatch]
    · simp [hmajor, hminor]
  · simp [hmajor]

theorem tellsApart_iff (u v : Version) : (codeRank u < codeRank v ↔ u.Precedes v) ↔ TellsApart u v := by
  have hcode : codeRank u < codeRank v ↔ (firstTold u v).elim (ReleaseBefore Earlier u.prerelease v.prerelease)
      fun p => Binary64.ofNat p.1 < Binary64.ofNat p.2 := by
    unfold codeRank
    rw [SemVer.rank_lt_iff earlier_iff eq_of_numberRank_eq]
    exact lex_iff_elim Binary64.ofNat u v _
  have hprecedes : u.Precedes v ↔ (firstOther u v).elim (ReleaseBefore Identifier.Before u.prerelease v.prerelease)
      fun p => p.1 < p.2 := lex_iff_elim id u v _
  rw [hcode, hprecedes]
  unfold TellsApart
  cases hother : firstOther u v with
  | none =>
    have htold : firstTold u v = none := by
      unfold firstOther at hother
      rw [List.find?_eq_none] at hother
      unfold firstTold
      rw [List.find?_eq_none]
      intro p hp
      have heq : p.1 = p.2 := by simpa using hother p hp
      simp [heq]
    rw [htold]
    exact releaseTold_iff _ _
  | some p =>
    cases htold : firstTold u v with
    | none =>
      rw [later_iff]
      exact iff_comm
    | some q =>
      have hne : Binary64.ofNat q.1 ≠ Binary64.ofNat q.2 := by simpa using List.find?_some htold
      rw [Option.elim_some, Option.elim_some, Binary64.ofNat_lt_iff hne]
      exact iff_comm

theorem kept_iff (u v : Version) :
    ((updateKind u.text v.text).isSome = true ↔ u.Precedes v) ↔ PrecedenceKept u v := by
  rw [updateKind_isSome_iff, PrecedenceKept, ← tellsApart_iff]
  by_cases hu : u.build = []
  · by_cases hv : v.build = []
    · simp [hu, hv]
    · simp [hu, hv]
  · simp [hu]

/-- `updateKind` is the precedence of versions if and only if the doubles tell them apart and there is no build metadata. -/
theorem precedence_iff (u v w : Version) :
    (((updateKind u.text v.text).isSome = true ↔ u.Precedes v) ↔ PrecedenceKept u v) ∧
      (updateKind u.text u.text).isSome = false ∧
      ((updateKind u.text v.text).isSome = true → (updateKind v.text w.text).isSome = true →
        (updateKind u.text w.text).isSome = true) ∧
      (PrecedenceKept u v → PrecedenceKept v u →
        (updateKind u.text v.text).isSome = true ∨ (updateKind v.text u.text).isSome = true ∨ u.SameUpToBuild v) := by
  refine ⟨kept_iff u v, updateKind_irrefl u, updateKind_trans, ?_⟩
  intro huv hvu
  rw [(kept_iff u v).2 huv, (kept_iff v u).2 hvu]
  exact SemVer.precedes_total u v

/-- A double does not tell `2 ^ 53` from the number after it, and a version with build metadata does not match. -/
theorem precedence_fails :
    ¬((updateKind (Version.mk (2 ^ 53) 0 0 [] []).text (Version.mk (2 ^ 53 + 1) 0 0 [] []).text).isSome = true ↔
      (Version.mk (2 ^ 53) 0 0 [] []).Precedes (Version.mk (2 ^ 53 + 1) 0 0 [] [])) ∧
    ¬((updateKind (Version.mk 1 0 0 [] []).text (Version.mk 2 0 0 [] [⟨['b'], by decide⟩]).text).isSome = true ↔
      (Version.mk 1 0 0 [] []).Precedes (Version.mk 2 0 0 [] [⟨['b'], by decide⟩])) := by
  have hlarge : (updateKind (Version.mk (2 ^ 53) 0 0 [] []).text (Version.mk (2 ^ 53 + 1) 0 0 [] []).text).isSome = false := by
    decide +kernel
  have hbuild : (updateKind (Version.mk 1 0 0 [] []).text (Version.mk 2 0 0 [] [⟨['b'], by decide⟩]).text).isSome = false := by
    decide +kernel
  rw [hlarge, hbuild]
  refine ⟨fun h => ?_, fun h => ?_⟩
  · exact absurd (h.2 (Or.inl (by decide))) Bool.false_ne_true
  · exact absurd (h.2 (Or.inl (by decide))) Bool.false_ne_true

end CaeloCms.Update
