import CaeloCms.Lib.Binary64
import CaeloCms.Lib.SemVer
import CaeloCms.Redirect.JsonText

/-!
# The size of an update

`updateKind` says how big the step from one release version to another is, and nothing where there is none.  The numbers
are compared as doubles.  The texts of semantic versions without build metadata match `SEMVER` group by group
(`semver_text`), and `comparePrerelease` goes through their identifiers one by one (`compareIdentifiers_texts`).
-/

namespace CaeloCms.Update

open SemVer (Identifier Version ListBefore ReleaseBefore decimal dotted isIdentifierChar)

/-! ### Source -/

/-- The groups of `SEMVER`. -/
structure Match where
  major : List Char
  minor : List Char
  patch : List Char
  prerelease : Option (List Char)
deriving DecidableEq, Repr

/-- `\d+` -/
def digits (s : List Char) : Option (List Char × List Char) :=
  if s.takeWhile Char.isDigit = [] then none else some (s.takeWhile Char.isDigit, s.dropWhile Char.isDigit)

def dot (s : List Char) : Option (List Char) := if s.head? = some '.' then some s.tail else none

/-- `(?:-([0-9A-Za-z.-]+))?$` -/
def suffix (s : List Char) : Option (Option (List Char)) :=
  if s = [] then some none
  else if s.head? = some '-' ∧ s.tail ≠ [] ∧ s.tail.all (fun c => isIdentifierChar c || c = '.') then some (some s.tail)
  else none

/-- `SEMVER.exec` -/
def semver (s : List Char) : Option Match :=
  (digits s).bind fun major => (dot major.2).bind fun s =>
    (digits s).bind fun minor => (dot minor.2).bind fun s =>
      (digits s).bind fun patch => (suffix patch.2).map fun prerelease =>
        ⟨major.1, minor.1, patch.1, prerelease⟩

inductive UpdateKind
  | major
  | minor
  | patch
deriving DecidableEq, Repr

/-- `Number` of decimal digits -/
def number (s : List Char) : WithTop Nat := Binary64.ofNat (Nat.ofDigitChars 10 s 0)

/-- `/^\d+$/` -/
def isNumeric (s : List Char) : Bool := decide (s ≠ []) && s.all Char.isDigit

/-- The sign of `comparePrerelease`, on the identifiers from one place on. -/
def compareIdentifiers : List (List Char) → List (List Char) → Ordering
  | [], [] => .eq
  | [], _ :: _ => .lt
  | _ :: _, [] => .gt
  | p :: xs, q :: ys =>
    if isNumeric p ∧ isNumeric q ∧ number p ≠ number q then if number p < number q then .lt else .gt
    else if isNumeric p ≠ isNumeric q then if isNumeric p then .lt else .gt
    else if p ≠ q then if p < q then .lt else .gt
    else compareIdentifiers xs ys

def comparePrerelease (x y : List Char) : Ordering := compareIdentifiers (x.splitOn '.') (y.splitOn '.')

/-- Whether the second of two pre-releases of one version is later; a release has none. -/
def laterPrerelease : Option (List Char) → Option (List Char) → Bool
  | none, _ => false
  | some _, none => true
  | some x, some y => comparePrerelease y x = .gt

def updateKind (from_ to_ : List Char) : Option UpdateKind :=
  (semver from_).bind fun a => (semver to_).bind fun b =>
    if number b.major ≠ number a.major then if number a.major < number b.major then some .major else none
    else if number b.minor ≠ number a.minor then if number a.minor < number b.minor then some .minor else none
    else if number b.patch ≠ number a.patch then if number a.patch < number b.patch then some .patch else none
    else if laterPrerelease a.prerelease b.prerelease then some .patch else none

/-! ### The text of a version -/

theorem isDigit_decimal {n : Nat} {c : Char} (h : c ∈ decimal n) : c.isDigit = true :=
  Nat.isDigit_of_mem_toDigits (by omega) (by omega) h

theorem number_decimal (n : Nat) : number (decimal n) = Binary64.ofNat n :=
  congrArg Binary64.ofNat Nat.ofDigitChars_ten_toDigits

theorem digits_decimal (n : Nat) {s : List Char} (h : ∀ c, s.head? = some c → c.isDigit = false) :
    digits (decimal n ++ s) = some (decimal n, s) := by
  have htake : (decimal n ++ s).takeWhile Char.isDigit = decimal n := by
    rw [List.takeWhile_append_of_pos fun c hc => isDigit_decimal hc]
    cases s with
    | nil => simp
    | cons c s => rw [List.takeWhile_cons_of_neg (by simp [h c rfl]), List.append_nil]
  have hdrop : (decimal n ++ s).dropWhile Char.isDigit = s := by
    rw [List.dropWhile_append_of_pos fun c hc => isDigit_decimal hc]
    cases s with
    | nil => rfl
    | cons c s => rw [List.dropWhile_cons_of_neg (by simp [h c rfl])]
  have hne : decimal n ≠ [] := Nat.toDigits_ne_nil
  rw [digits, htake, hdrop, if_neg hne]

theorem isIdentifierChar_text {x : Identifier} {c : Char} (h : c ∈ x.text) : isIdentifierChar c = true := by
  cases x with
  | numeric n => simp [isIdentifierChar, Char.isAlphanum, isDigit_decimal h]
  | alphanumeric s hchars hletter => exact List.all_eq_true.1 hchars c h

theorem text_ne_nil (x : Identifier) : x.text ≠ [] := by
  cases x with
  | numeric n => exact Nat.toDigits_ne_nil
  | alphanumeric s hchars hletter =>
    rintro rfl
    cases hletter

theorem dot_notMem_text (x : Identifier) : '.' ∉ x.text := by
  intro h
  exact absurd (isIdentifierChar_text h) (by decide)

theorem splitOn_dotted {xs : List Identifier} (hne : xs ≠ []) :
    (dotted (xs.map Identifier.text)).splitOn '.' = xs.map Identifier.text := by
  apply List.splitOn_intercalate
  · intro l hl
    obtain ⟨x, -, rfl⟩ := List.mem_map.1 hl
    exact dot_notMem_text x
  · simpa using hne

theorem mem_dotted {parts : List (List Char)} {c : Char} (h : c ∈ dotted parts) : c = '.' ∨ ∃ p ∈ parts, c ∈ p := by
  induction parts with
  | nil => simp [dotted] at h
  | cons p parts ih =>
    by_cases hparts : parts = []
    · subst hparts
      rw [dotted, List.intercalate_singleton] at h
      exact Or.inr ⟨p, List.mem_cons_self, h⟩
    · rw [dotted, List.intercalate_cons_of_ne_nil hparts, List.append_assoc, List.mem_append, List.mem_append,
        List.mem_singleton] at h
      rcases h with h | h | h
      · exact Or.inr ⟨p, List.mem_cons_self, h⟩
      · exact Or.inl h
      · rcases ih h with h | ⟨q, hq, hc⟩
        · exact Or.inl h
        · exact Or.inr ⟨q, List.mem_cons_of_mem p hq, hc⟩

theorem dotted_ne_nil {xs : List Identifier} (hne : xs ≠ []) : dotted (xs.map Identifier.text) ≠ [] := by
  intro hnil
  have hsplit := splitOn_dotted hne
  rw [hnil] at hsplit
  cases xs with
  | nil => exact hne rfl
  | cons x xs =>
    rw [List.map_cons] at hsplit
    exact text_ne_nil x (List.cons.inj hsplit).1.symm

def prereleaseGroup (v : Version) : Option (List Char) :=
  if v.prerelease = [] then none else some (dotted (v.prerelease.map Identifier.text))

theorem suffix_text (v : Version) :
    suffix ((if v.prerelease = [] then [] else '-' :: dotted (v.prerelease.map Identifier.text)) ++
      if v.build = [] then [] else '+' :: dotted (v.build.map Subtype.val)) =
      if v.build = [] then some (prereleaseGroup v) else none := by
  unfold prereleaseGroup
  by_cases hpre : v.prerelease = []
  · by_cases hbuild : v.build = []
    · simp [hpre, hbuild, suffix]
    · simp [hpre, hbuild, suffix]
  · by_cases hbuild : v.build = []
    · have hall : (dotted (v.prerelease.map Identifier.text)).all (fun c => isIdentifierChar c || c = '.') = true := by
        rw [List.all_eq_true]
        intro c hc
        rcases mem_dotted hc with rfl | ⟨p, hp, hcp⟩
        · decide
        · obtain ⟨x, -, rfl⟩ := List.mem_map.1 hp
          rw [isIdentifierChar_text hcp, Bool.true_or]
      simp only [hpre, hbuild, if_true, if_false, List.append_nil, suffix, List.cons_ne_nil, List.head?_cons,
        List.tail_cons, dotted_ne_nil hpre, hall, ne_eq, not_false_eq_true, and_self]
    · have hall : (dotted (v.prerelease.map Identifier.text) ++ '+' :: dotted (v.build.map Subtype.val)).all
          (fun c => isIdentifierChar c || c = '.') = false := by
        rw [List.all_append, List.all_cons, show (isIdentifierChar '+' || decide ('+' = '.')) = false by decide,
          Bool.false_and, Bool.and_false]
      simp only [hpre, hbuild, if_false, List.cons_append, suffix, List.cons_ne_nil, List.head?_cons,
        List.tail_cons, hall, Bool.false_eq_true, and_false]

theorem semver_text (v : Version) :
    semver v.text = if v.build = [] then
      some ⟨decimal v.major, decimal v.minor, decimal v.patch, prereleaseGroup v⟩ else none := by
  have hdot : ∀ (s : List Char) c, ('.' :: s).head? = some c → c.isDigit = false := by
    intro s c hc
    cases hc
    decide
  have hsuffix : ∀ c, ((if v.prerelease = [] then [] else '-' :: dotted (v.prerelease.map Identifier.text)) ++
      if v.build = [] then [] else '+' :: dotted (v.build.map Subtype.val)).head? = some c → c.isDigit = false := by
    intro c hc
    by_cases hpre : v.prerelease = []
    · by_cases hbuild : v.build = []
      · simp [hpre, hbuild] at hc
      · simp only [hpre, hbuild, if_true, if_false, List.nil_append, List.head?_cons, Option.some.injEq] at hc
        rw [← hc]
        decide
    · simp only [hpre, if_false, List.cons_append, List.head?_cons, Option.some.injEq] at hc
      rw [← hc]
      decide
  have hdots : ∀ s, dot ('.' :: s) = some s := fun s => rfl
  unfold semver Version.text
  rw [digits_decimal v.major (hdot _), Option.bind_some, hdots, Option.bind_some, digits_decimal v.minor (hdot _),
    Option.bind_some, hdots, Option.bind_some, digits_decimal v.patch hsuffix, Option.bind_some, suffix_text]
  by_cases hbuild : v.build = []
  · simp only [if_pos hbuild, Option.map_some]
  · simp only [if_neg hbuild, Option.map_none]

/-! ### The order of the code -/

/-- What the code takes for the order of identifiers: numbers as doubles first, then as texts. -/
def Earlier : Identifier → Identifier → Prop
  | .numeric m, .numeric n =>
    Binary64.ofNat m < Binary64.ofNat n ∨ Binary64.ofNat m = Binary64.ofNat n ∧ decimal m < decimal n
  | .numeric _, .alphanumeric _ _ _ => True
  | .alphanumeric _ _ _, .numeric _ => False
  | .alphanumeric s _ _, .alphanumeric t _ _ => s < t

theorem decimal_injective {m n : Nat} (h : decimal m = decimal n) : m = n := by
  have hm : Nat.ofDigitChars 10 (decimal m) 0 = m := Nat.ofDigitChars_ten_toDigits
  rw [← hm, h]
  exact Nat.ofDigitChars_ten_toDigits

theorem not_lt_iff_of_ne {α : Type*} [LinearOrder α] {a b : α} (hne : a ≠ b) : ¬a < b ↔ b < a :=
  not_lt.trans (le_iff_lt_or_eq.trans (or_iff_left hne.symm))

theorem ite_gt_iff {p : Prop} [Decidable p] : (if p then Ordering.lt else Ordering.gt) = .gt ↔ ¬p := by
  split <;> simp [*]

theorem isNumeric_of_alphanumeric {s : List Char} (hletter : s.any (fun c => !c.isDigit) = true) : isNumeric s = false := by
  have hall : s.all Char.isDigit = false := by
    rw [List.all_eq_false]
    obtain ⟨c, hc, hdigit⟩ := List.any_eq_true.1 hletter
    exact ⟨c, hc, by simpa using hdigit⟩
  rw [isNumeric, hall, Bool.and_false]

theorem isNumeric_decimal (n : Nat) : isNumeric (decimal n) = true := by
  have hne : decimal n ≠ [] := Nat.toDigits_ne_nil
  have hall : (decimal n).all Char.isDigit = true := List.all_eq_true.2 fun c hc => isDigit_decimal hc
  simp [isNumeric, hne, hall]

theorem text_injective {x y : Identifier} (h : x.text = y.text) : x = y := by
  have hnumeric : isNumeric x.text = isNumeric y.text := congrArg isNumeric h
  cases x with
  | numeric m =>
    cases y with
    | numeric n => rw [decimal_injective h]
    | alphanumeric t hchars hletter =>
      rw [Identifier.text, Identifier.text, isNumeric_decimal, isNumeric_of_alphanumeric hletter] at hnumeric
      cases hnumeric
  | alphanumeric s hchars hletter =>
    cases y with
    | numeric n =>
      rw [Identifier.text, Identifier.text, isNumeric_decimal, isNumeric_of_alphanumeric hletter] at hnumeric
      cases hnumeric
    | alphanumeric t hchars' hletter' =>
      have hst : s = t := h
      subst hst
      rfl

theorem compareIdentifiers_cons (p q : List Char) (xs ys : List (List Char)) :
    compareIdentifiers (q :: ys) (p :: xs) = .gt ↔
      if isNumeric p = true ∧ isNumeric q = true ∧ number p ≠ number q then number p < number q
      else if isNumeric p ≠ isNumeric q then isNumeric p = true
      else p < q ∨ p = q ∧ compareIdentifiers ys xs = .gt := by
  rw [compareIdentifiers]
  by_cases hnum : isNumeric p = true ∧ isNumeric q = true ∧ number p ≠ number q
  · rw [if_pos ⟨hnum.2.1, hnum.1, hnum.2.2.symm⟩, if_pos hnum, ite_gt_iff, not_lt_iff_of_ne hnum.2.2.symm]
  · rw [if_neg fun h => hnum ⟨h.2.1, h.1, h.2.2.symm⟩, if_neg hnum]
    by_cases hkind : isNumeric p = isNumeric q
    · rw [if_neg (not_not.2 hkind.symm), if_neg (not_not.2 hkind)]
      by_cases htext : p = q
      · subst htext
        simp
      · have hlt : ¬q < p ↔ p < q := not_lt_iff_of_ne (Ne.symm htext)
        rw [if_pos (Ne.symm htext), ite_gt_iff, hlt]
        simp [htext]
    · rw [if_pos (Ne.symm hkind), if_pos hkind, ite_gt_iff]
      cases hp : isNumeric p <;> cases hq : isNumeric q <;> simp_all

theorem compareIdentifiers_text (x y : Identifier) (xs ys : List (List Char)) :
    compareIdentifiers (y.text :: ys) (x.text :: xs) = .gt ↔
      Earlier x y ∨ x = y ∧ compareIdentifiers ys xs = .gt := by
  rw [compareIdentifiers_cons]
  have heq : x.text = y.text ↔ x = y := ⟨text_injective, fun h => h ▸ rfl⟩
  cases x with
  | numeric m =>
    have hm : isNumeric (Identifier.numeric m).text = true := isNumeric_decimal m
    have hm' : number (Identifier.numeric m).text = Binary64.ofNat m := number_decimal m
    cases y with
    | numeric n =>
      have hn : isNumeric (Identifier.numeric n).text = true := isNumeric_decimal n
      have hn' : number (Identifier.numeric n).text = Binary64.ofNat n := number_decimal n
      rw [hm, hn, hm', hn', heq, Earlier]
      by_cases hne : Binary64.ofNat m = Binary64.ofNat n
      · rw [if_neg (by simp [hne]), if_neg (by simp)]
        simp only [hne, lt_irrefl, true_and, false_or]
        rfl
      · have hmn : Identifier.numeric m ≠ Identifier.numeric n := fun h => hne (congrArg Binary64.ofNat (Identifier.numeric.inj h))
        rw [if_pos ⟨rfl, rfl, hne⟩]
        simp [hne, hmn]
    | alphanumeric t hchars hletter =>
      have ht : isNumeric (Identifier.alphanumeric t hchars hletter).text = false := isNumeric_of_alphanumeric hletter
      rw [hm, ht]
      simp [Earlier]
  | alphanumeric s hchars hletter =>
    have hs : isNumeric (Identifier.alphanumeric s hchars hletter).text = false := isNumeric_of_alphanumeric hletter
    cases y with
    | numeric n =>
      have hn : isNumeric (Identifier.numeric n).text = true := isNumeric_decimal n
      rw [hs, hn]
      simp [Earlier]
    | alphanumeric t hchars' hletter' =>
      have ht : isNumeric (Identifier.alphanumeric t hchars' hletter').text = false := isNumeric_of_alphanumeric hletter'
      rw [hs, ht, heq, if_neg (by simp), if_neg (by simp)]
      rfl

theorem compareIdentifiers_texts (xs ys : List Identifier) :
    compareIdentifiers (ys.map Identifier.text) (xs.map Identifier.text) = .gt ↔ ListBefore Earlier xs ys := by
  induction xs generalizing ys with
  | nil =>
    cases ys with
    | nil => simp [compareIdentifiers, ListBefore]
    | cons y ys => simp [compareIdentifiers, ListBefore]
  | cons x xs ih =>
    cases ys with
    | nil => simp [compareIdentifiers, ListBefore]
    | cons y ys => rw [List.map_cons, List.map_cons, compareIdentifiers_text, ih, ListBefore]

end CaeloCms.Update
