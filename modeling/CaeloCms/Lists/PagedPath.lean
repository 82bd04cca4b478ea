import CaeloCms.Link.Resolve
import CaeloCms.Redirect.JsonText

/-!
# Paths of follow-up pages

Page `n` of a paginated overview is served at `<path>/page/<n>` (`lists/pagination.ts`).  The path is built twice, from
the overview's path (`pagedPath`) and from its URL (`pagedUrl`), and read back by `parsePagedPath`.
-/

namespace CaeloCms.Lists

open Link (PageUrlStyle trimSlashes pageHrefForStyle)
open Redirect (natText)

def PAGINATION_SEGMENT : List Char := "page".toList

/-- What every page from the second on carries behind the overview's path. -/
def followUp (n : Nat) : List Char := '/' :: PAGINATION_SEGMENT ++ '/' :: natText n

def assertFollowUp (n : Nat) : Except String Unit :=
  if n < 2 then .error s!"pagination: follow-up page numbers start at 2 (got {n})." else .ok ()

def pagedPath (path : List Char) (n : Nat) : Except String (List Char) := do
  assertFollowUp n
  let trimmed := trimSlashes path
  .ok ((if trimmed = [] then [] else '/' :: trimmed) ++ followUp n)

def pagedUrl (url : List Char) (n : Nat) (style : PageUrlStyle) : Except String (List Char) := do
  assertFollowUp n
  -- `url.split(/[?#]/, 1)[0]`, and the slashes at its end cut
  let base := url.takeWhile fun c => c != '?' && c != '#'
  let base := (base.reverse.dropWhile fun c => c == '/').reverse
  .ok (base ++ followUp n ++ if style = .directory then ['/'] else [])

/-! ### Reading -/

/-- What `.` does not match. -/
def isLineTerminator (c : Char) : Bool := ['\n', '\r', '\u2028', '\u2029'].contains c

/-- `/^[1-9][0-9]{0,5}$/` -/
def isPageNumber : List Char → Bool
  | [] => false
  | c :: cs => c.isDigit && c != '0' && cs.all Char.isDigit && cs.length ≤ 5

/-- `/^\/page\/([1-9][0-9]{0,5})\/?$/`: the digits it captures. -/
def readFollowUp (rest : List Char) : Option (List Char) :=
  ("/page/".toList.isPrefixOf? rest).bind fun tail =>
    let digits := tail.takeWhile Char.isDigit
    let last := tail.dropWhile Char.isDigit
    if isPageNumber digits ∧ (last = [] ∨ last = ['/']) then some digits else none

/-- `/^(.*?)\/page\/([1-9][0-9]{0,5})\/?$/`: the first place from which the rest reads as a follow-up page. -/
def matchPaged : List Char → Option (List Char × List Char)
  | [] => none
  | c :: cs =>
    match readFollowUp (c :: cs) with
    | none => if isLineTerminator c then none else (matchPaged cs).map fun m => (c :: m.1, m.2)
    | some digits => some ([], digits)

def parsePagedPath (path : List Char) : Option (List Char × Nat) :=
  match matchPaged path with
  | none => none
  | some (front, digits) =>
    let page := Nat.ofDigitChars 10 digits 0
    if page < 2 then none
    else
      let base := trimSlashes front
      some (if base = [] then ['/'] else '/' :: base, page)

/-! ### Page numbers -/

variable {path digits last front rest : List Char} {n : Nat} {c : Char}

theorem isDigit_natText (h : c ∈ natText n) : c.isDigit = true :=
  Nat.isDigit_of_mem_toDigits (by omega) (by omega) h

theorem digit_eq_digitChar (h : c.isDigit = true) : ∃ d, d < 10 ∧ c = Nat.digitChar d := by
  have hval : 48 ≤ c.toNat ∧ c.toNat ≤ 57 := by
    simp only [Char.isDigit, Bool.and_eq_true, decide_eq_true_eq, UInt32.le_iff_toNat_le] at h
    exact h
  refine ⟨c.toNat - 48, by omega, ?_⟩
  have hlt : ∀ d < 10, Nat.digitChar d = Char.ofNat (48 + d) := by decide
  rw [hlt _ (by omega), show 48 + (c.toNat - 48) = c.toNat by omega, Char.ofNat_toNat]

/-- The decimal digits of a number that is written without leading zeros are the text it was read from. -/
theorem natText_ofDigitChars (digits : List Char) (hne : digits ≠ []) (hall : ∀ c ∈ digits, c.isDigit = true)
    (hhead : digits.head hne ≠ '0') :
    natText (Nat.ofDigitChars 10 digits 0) = digits ∧ 0 < Nat.ofDigitChars 10 digits 0 := by
  induction digits using List.reverseRecOn with
  | nil => exact absurd rfl hne
  | append_singleton init c ih =>
    obtain ⟨d, hd, rfl⟩ := digit_eq_digitChar (hall c (by simp))
    have hlast : ∀ v, Nat.ofDigitChars 10 [Nat.digitChar d] v = 10 * v + d := by
      intro v
      rw [Nat.ofDigitChars_cons_digitChar_of_lt_ten hd, Nat.ofDigitChars_nil]
    rw [Nat.ofDigitChars_append, hlast]
    by_cases hinit : init = []
    · subst hinit
      have hpos : d ≠ 0 := by
        rintro rfl
        exact hhead rfl
      refine ⟨?_, by omega⟩
      rw [Nat.ofDigitChars_nil, Nat.mul_zero, Nat.zero_add]
      exact Nat.toDigits_of_lt_base hd
    · have hhead' : init.head hinit ≠ '0' := by
        rw [List.head_append_of_ne_nil hinit] at hhead
        exact hhead
      obtain ⟨htext, hpos⟩ := ih hinit (fun c hc => hall c (by simp [hc])) hhead'
      refine ⟨?_, by omega⟩
      have happend := Nat.toDigits_append_toDigits (b := 10) (by omega) hpos hd
      rw [Nat.toDigits_of_lt_base hd] at happend
      rw [natText] at htext ⊢
      rw [← happend, htext]

theorem head_natText (hn : 0 < n) {cs : List Char} (h : natText n = c :: cs) : c ≠ '0' := by
  induction n using Nat.strong_induction_on generalizing c cs with
  | _ n ih =>
    rw [natText, Nat.toDigits_eq_if (by omega)] at h
    split at h
    next hlt =>
      obtain ⟨rfl, -⟩ := List.cons.inj h
      have hdigit : ∀ d < 10, 0 < d → Nat.digitChar d ≠ '0' := by decide
      exact hdigit n hlt hn
    next hle =>
      cases htext : natText (n / 10) with
      | nil => exact absurd htext Nat.toDigits_ne_nil
      | cons c' cs' =>
        rw [natText] at htext
        rw [htext] at h
        obtain ⟨rfl, -⟩ := List.cons.inj h
        exact ih (n / 10) (by omega) (by omega) htext

theorem isPageNumber_iff (digits : List Char) :
    isPageNumber digits = true ↔ ∃ n, 0 < n ∧ n ≤ 999999 ∧ digits = natText n := by
  have hlength : ∀ n, (natText n).length ≤ 6 ↔ n ≤ 999999 := by
    intro n
    rw [natText, Nat.length_toDigits_le_iff (by omega) (by omega)]
    omega
  constructor
  · intro h
    cases digits with
    | nil => cases h
    | cons c cs =>
      simp only [isPageNumber, Bool.and_eq_true, bne_iff_ne, ne_eq, List.all_eq_true, decide_eq_true_eq] at h
      obtain ⟨⟨⟨hc, hzero⟩, hcs⟩, hlen⟩ := h
      have hall : ∀ x ∈ c :: cs, x.isDigit = true := by
        intro x hx
        rcases List.mem_cons.mp hx with rfl | hx
        · exact hc
        · exact hcs x hx
      obtain ⟨htext, hpos⟩ := natText_ofDigitChars (c :: cs) (List.cons_ne_nil c cs) hall hzero
      refine ⟨_, hpos, ?_, htext.symm⟩
      rw [← hlength, htext, List.length_cons]
      omega
  · rintro ⟨n, hpos, hle, rfl⟩
    have hlen := (hlength n).mpr hle
    cases htext : natText n with
    | nil => exact absurd htext Nat.toDigits_ne_nil
    | cons c cs =>
      have hall : ∀ x ∈ c :: cs, x.isDigit = true := fun x hx => isDigit_natText (htext ▸ hx)
      rw [htext, List.length_cons] at hlen
      simp only [isPageNumber, Bool.and_eq_true, bne_iff_ne, ne_eq, List.all_eq_true, decide_eq_true_eq]
      exact ⟨⟨⟨hall c (by simp), head_natText hpos htext⟩, fun x hx => hall x (by simp [hx])⟩, by omega⟩

/-! ### Requests -/

theorem isPrefixOf?_eq_some {α : Type} [DecidableEq α] {front text rest : List α}
    (h : front.isPrefixOf? text = some rest) : text = front ++ rest := by
  induction front generalizing text with
  | nil =>
    rw [List.isPrefixOf?] at h
    exact Option.some.inj h
  | cons c cs ih =>
    cases text with
    | nil => cases h
    | cons d ds =>
      rw [List.isPrefixOf?] at h
      split at h
      next heq =>
        rw [beq_iff_eq] at heq
        rw [ih h, heq, List.cons_append]
      next => cases h

theorem isPrefixOf?_append {α : Type} [DecidableEq α] (front rest : List α) :
    front.isPrefixOf? (front ++ rest) = some rest := by
  induction front with
  | nil => rfl
  | cons c cs ih => rw [List.cons_append, List.isPrefixOf?, if_pos (beq_self_eq_true c), ih]

theorem followUp_eq (n : Nat) : followUp n = "/page/".toList ++ natText n := rfl

def Slash (last : List Char) : Prop := last = [] ∨ last = ['/']

theorem digits_split (hall : ∀ c ∈ digits, c.isDigit = true) (hlast : Slash last) :
    (digits ++ last).takeWhile Char.isDigit = digits ∧ (digits ++ last).dropWhile Char.isDigit = last := by
  refine Redirect.digits_span hall ?_
  intro c hc
  rcases hlast with rfl | rfl
  · cases hc
  · obtain rfl := Option.some.inj hc
    decide

theorem readFollowUp_iff (rest digits : List Char) :
    readFollowUp rest = some digits ↔
      ∃ n last, 0 < n ∧ n ≤ 999999 ∧ Slash last ∧ digits = natText n ∧ rest = followUp n ++ last := by
  constructor
  · intro h
    obtain ⟨tail, htail, h⟩ := Option.bind_eq_some_iff.mp h
    dsimp only at h
    split at h
    next hread =>
      obtain ⟨hnumber, hlast⟩ := hread
      obtain rfl := Option.some.inj h
      obtain ⟨n, hpos, hle, htext⟩ := (isPageNumber_iff _).mp hnumber
      refine ⟨n, tail.dropWhile Char.isDigit, hpos, hle, hlast, htext, ?_⟩
      rw [isPrefixOf?_eq_some htail, followUp_eq, ← htext, List.append_assoc, List.takeWhile_append_dropWhile]
    next => cases h
  · rintro ⟨n, last, hpos, hle, hlast, rfl, rfl⟩
    have hdigits : ∀ c ∈ natText n, c.isDigit = true := fun c hc => isDigit_natText hc
    obtain ⟨htake, hdrop⟩ := digits_split hdigits hlast
    have hnumber : isPageNumber (natText n) = true := (isPageNumber_iff _).mpr ⟨n, hpos, hle, rfl⟩
    rw [readFollowUp, followUp_eq, List.append_assoc, isPrefixOf?_append, Option.bind_some]
    simp only [htake, hdrop]
    rw [if_pos ⟨hnumber, hlast⟩]

theorem count_p_followUp (hlast : Slash last) : (followUp n ++ last).count 'p' = 1 := by
  have hdigits : (natText n).count 'p' = 0 := by
    rw [List.count_eq_zero]
    intro hp
    exact absurd (isDigit_natText hp) (by decide)
  have hend : last.count 'p' = 0 := by
    rcases hlast with rfl | rfl <;> decide
  rw [followUp_eq, List.count_append, List.count_append, hdigits, hend]
  decide

/-- The end of a request that reads as a follow-up page starts in one place only. -/
theorem readFollowUp_append (hne : front ≠ []) (h : readFollowUp rest = some digits) :
    readFollowUp (front ++ rest) = none := by
  by_contra hsome
  obtain ⟨digits', hread⟩ := Option.ne_none_iff_exists'.mp hsome
  obtain ⟨n, last, -, -, hlast, -, hrest⟩ := (readFollowUp_iff _ _).mp h
  obtain ⟨n', last', -, -, hlast', -, hwhole⟩ := (readFollowUp_iff _ _).mp hread
  -- the only `p` is in `rest`, so `front` ends before the first one
  have hcount : (front ++ rest).count 'p' = 1 := by
    rw [hwhole]
    exact count_p_followUp hlast'
  rw [List.count_append, hrest, count_p_followUp hlast] at hcount
  have hfront : 'p' ∉ front := by
    rw [← List.count_eq_zero]
    omega
  rw [hrest] at hwhole
  cases front with
  | nil => exact hne rfl
  | cons c cs =>
    cases cs with
    | nil =>
      have hsecond : ('/' : Char) = 'p' := congrArg (fun l => l.getD 1 'x') hwhole
      exact absurd hsecond (by decide)
    | cons d ds =>
      have hsecond : d = 'p' := congrArg (fun l => l.getD 1 'x') hwhole
      exact hfront (by simp [hsecond])

theorem matchPaged_eq_some (h : matchPaged path = some (front, digits)) :
    ∃ rest, path = front ++ rest ∧ (∀ c ∈ front, isLineTerminator c = false) ∧ readFollowUp rest = some digits := by
  induction path generalizing front with
  | nil => cases h
  | cons c cs ih =>
    rw [matchPaged] at h
    split at h
    next hread =>
      split at h
      next => cases h
      next hc =>
        obtain ⟨⟨front', digits'⟩, hmatch, heq⟩ := Option.map_eq_some_iff.mp h
        obtain ⟨rfl, rfl⟩ := Prod.mk.inj heq
        obtain ⟨rest, rfl, hplain, hrest⟩ := ih hmatch
        refine ⟨rest, rfl, ?_, hrest⟩
        intro d hd
        rcases List.mem_cons.mp hd with rfl | hd
        · exact Bool.not_eq_true _ ▸ hc
        · exact hplain d hd
    next digits' hread =>
      obtain ⟨rfl, rfl⟩ := Prod.mk.inj (Option.some.inj h)
      exact ⟨c :: cs, rfl, by simp, hread⟩

theorem matchPaged_append (hplain : ∀ c ∈ front, isLineTerminator c = false)
    (h : readFollowUp rest = some digits) : matchPaged (front ++ rest) = some (front, digits) := by
  induction front with
  | nil =>
    cases rest with
    | nil => cases h
    | cons c cs => rw [List.nil_append, matchPaged, h]
  | cons c cs ih =>
    have hnone := readFollowUp_append (List.cons_ne_nil c cs) h
    have hc : isLineTerminator c = false := hplain c (by simp)
    rw [List.cons_append] at hnone ⊢
    rw [matchPaged, hnone]
    simp only [hc, Bool.false_eq_true, if_false]
    rw [ih fun d hd => hplain d (by simp [hd])]
    rfl

def pathOf (front : List Char) : List Char := '/' :: trimSlashes front

/-- The requests that name a follow-up page: anything without a line terminator, its page number from 2 to 999999, and
possibly a slash. -/
theorem parsePagedPath_eq_some_iff (path base : List Char) (n : Nat) :
    parsePagedPath path = some (base, n) ↔
      ∃ front last, path = front ++ followUp n ++ last ∧ Slash last ∧ (∀ c ∈ front, isLineTerminator c = false) ∧
        2 ≤ n ∧ n ≤ 999999 ∧ base = pathOf front := by
  have hbase : ∀ front, (if trimSlashes front = [] then ['/'] else '/' :: trimSlashes front) = pathOf front := by
    intro front
    split
    next hnil => rw [pathOf, hnil]
    next => rfl
  constructor
  · intro h
    rw [parsePagedPath] at h
    split at h
    next => cases h
    next front digits hmatch =>
      obtain ⟨rest, rfl, hplain, hread⟩ := matchPaged_eq_some hmatch
      obtain ⟨n', last, -, hle, hlast, rfl, rfl⟩ := (readFollowUp_iff _ _).mp hread
      have hvalue : Nat.ofDigitChars 10 (natText n') 0 = n' := Nat.ofDigitChars_ten_toDigits
      simp only [hvalue, hbase] at h
      split at h
      next => cases h
      next hge =>
        obtain ⟨rfl, rfl⟩ := Prod.mk.inj (Option.some.inj h)
        exact ⟨front, last, by rw [List.append_assoc], hlast, hplain, by omega, hle, rfl⟩
  · rintro ⟨front, last, rfl, hlast, hplain, hge, hle, rfl⟩
    have hread : readFollowUp (followUp n ++ last) = some (natText n) :=
      (readFollowUp_iff _ _).mpr ⟨n, last, by omega, hle, hlast, rfl, rfl⟩
    have hvalue : Nat.ofDigitChars 10 (natText n) 0 = n := Nat.ofDigitChars_ten_toDigits
    rw [List.append_assoc, parsePagedPath, matchPaged_append hplain hread]
    simp only [hvalue, hbase]
    rw [if_neg (by omega)]

/-! ### Page paths -/

/-- The path of a page, as the site serves it: `/`, or segments between single slashes that no query, fragment or line
terminator cuts. -/
structure IsPagePath (path : List Char) : Prop where
  trimmed : path = pathOf path
  plain : ∀ c ∈ path, c ≠ '?' ∧ c ≠ '#' ∧ isLineTerminator c = false

/-- What is in front of the page number: nothing for the root, the path itself for any other page. -/
def frontOf (path : List Char) : List Char := if trimSlashes path = [] then [] else '/' :: trimSlashes path

def slashOf (style : PageUrlStyle) : List Char := if style = .directory then ['/'] else []

theorem slash_slashOf (style : PageUrlStyle) : Slash (slashOf style) := by
  cases style with
  | noExtension => exact .inl rfl
  | directory => exact .inr rfl

/-- A text without a slash at either end. -/
def Trimmed (s : List Char) : Prop := s.head? ≠ some '/' ∧ s.getLast? ≠ some '/'

theorem trimSlashes_eq (s : List Char) :
    trimSlashes s = (s.dropWhile fun c => c == '/').rdropWhile fun c => c == '/' := rfl

theorem rdropWhile_of_getLast? {s : List Char} (h : s.getLast? ≠ some '/') : s.rdropWhile (fun c => c == '/') = s := by
  rw [List.rdropWhile_eq_self_iff]
  intro hne hlast
  rw [List.getLast?_eq_some_getLast hne] at h
  exact h (congrArg some (beq_iff_eq.mp hlast))

theorem trimSlashes_of_trimmed {s : List Char} (h : Trimmed s) : trimSlashes s = s := by
  have hfront : s.dropWhile (fun c => c == '/') = s := by
    cases s with
    | nil => rfl
    | cons c cs =>
      refine List.dropWhile_cons_of_neg ?_
      intro hc
      exact h.1 (congrArg some (beq_iff_eq.mp hc))
  rw [trimSlashes_eq, hfront, rdropWhile_of_getLast? h.2]

theorem trimmed_trimSlashes (s : List Char) : Trimmed (trimSlashes s) := by
  constructor
  · intro hhead
    -- the first character of the result is the first one that is left in front
    obtain ⟨tail, htail⟩ : ∃ tail, trimSlashes s = '/' :: tail := List.head?_eq_some_iff.mp hhead
    obtain ⟨rest, hrest⟩ := List.rdropWhile_prefix (fun c => c == '/') (s.dropWhile fun c => c == '/')
    rw [← trimSlashes_eq, htail, List.cons_append] at hrest
    have hdrop := List.head_dropWhile_not (p := fun c : Char => c == '/') (l := s) (by rw [← hrest]; exact List.cons_ne_nil _ _)
    simp only [← hrest, List.head_cons] at hdrop
    exact absurd hdrop (by decide)
  · intro hlast
    have hne : trimSlashes s ≠ [] := by
      intro hnil
      rw [hnil] at hlast
      cases hlast
    rw [List.getLast?_eq_some_getLast hne] at hlast
    refine List.rdropWhile_last_not (fun c : Char => c == '/') (s.dropWhile fun c => c == '/') hne ?_
    exact beq_iff_eq.mpr (Option.some.inj hlast)

theorem trimSlashes_cons_slash (s : List Char) : trimSlashes ('/' :: s) = trimSlashes s := rfl

theorem pathOf_frontOf (h : path = pathOf path) : pathOf (frontOf path) = path := by
  rw [frontOf]
  split
  next hnil =>
    rw [h, pathOf, pathOf, hnil]
    rfl
  next =>
    rw [pathOf, trimSlashes_cons_slash, trimSlashes_of_trimmed (trimmed_trimSlashes path)]
    exact h.symm

theorem frontOf_subset (h : path = pathOf path) (hc : c ∈ frontOf path) : c ∈ path := by
  rw [frontOf] at hc
  split at hc
  next => cases hc
  next =>
    rw [h]
    exact hc

theorem getLast?_followUp (n : Nat) (front : List Char) : (front ++ followUp n).getLast? ≠ some '/' := by
  intro h
  have hne : natText n ≠ [] := Nat.toDigits_ne_nil
  rw [followUp_eq, ← List.append_assoc, List.getLast?_append_of_ne_nil _ hne] at h
  exact absurd (isDigit_natText (List.mem_of_getLast? h)) (by decide)

theorem followUp_trimmed (path : List Char) (n : Nat) :
    ∃ rest, frontOf path ++ followUp n = '/' :: rest ∧ Trimmed rest ∧ rest ≠ [] := by
  have hnumber : natText n ≠ [] := Nat.toDigits_ne_nil
  by_cases hroot : trimSlashes path = []
  · have hlast := getLast?_followUp n []
    refine ⟨"page/".toList ++ natText n, ?_, ⟨nofun, ?_⟩, nofun⟩
    · rw [frontOf, if_pos hroot]
      rfl
    · rw [List.nil_append, followUp_eq, List.getLast?_append_of_ne_nil _ hnumber] at hlast
      rw [List.getLast?_append_of_ne_nil _ hnumber]
      exact hlast
  · refine ⟨trimSlashes path ++ followUp n, ?_, ⟨?_, getLast?_followUp n _⟩, ?_⟩
    · rw [frontOf, if_neg hroot]
      rfl
    · rw [List.head?_append_of_ne_nil _ hroot]
      exact (trimmed_trimSlashes path).1
    · exact List.append_ne_nil_of_left_ne_nil hroot _

theorem pageHrefForStyle_cons (htrimmed : Trimmed rest) (hne : rest ≠ []) (style : PageUrlStyle) :
    pageHrefForStyle ('/' :: rest) style = '/' :: rest ++ slashOf style := by
  unfold pageHrefForStyle
  rw [trimSlashes_cons_slash, trimSlashes_of_trimmed htrimmed]
  cases style with
  | noExtension => exact (if_neg hne).trans (List.append_nil _).symm
  | directory => exact if_neg hne

theorem pageHrefForStyle_followUp (path : List Char) (n : Nat) (style : PageUrlStyle) :
    pageHrefForStyle (frontOf path ++ followUp n) style = frontOf path ++ followUp n ++ slashOf style := by
  obtain ⟨rest, hrest, htrimmed, hne⟩ := followUp_trimmed path n
  rw [hrest]
  exact pageHrefForStyle_cons htrimmed hne style

theorem base_pageHref (h : IsPagePath path) (style : PageUrlStyle) :
    ((pageHrefForStyle path style).takeWhile fun c => c != '?' && c != '#').rdropWhile (fun c => c == '/') =
      frontOf path := by
  have hplain : ∀ c ∈ frontOf path, (c != '?' && c != '#') = true := by
    intro c hc
    obtain ⟨hquery, hfragment, -⟩ := h.plain c (frontOf_subset h.trimmed hc)
    simp [hquery, hfragment]
  have hcut : ∀ last, Slash last →
      ((frontOf path ++ last).takeWhile fun c => c != '?' && c != '#') = frontOf path ++ last := by
    intro last hlast
    rw [List.takeWhile_eq_self_iff]
    intro c hc
    rcases List.mem_append.mp hc with hc | hc
    · exact hplain c hc
    · rcases hlast with rfl | rfl
      · cases hc
      · rw [List.mem_singleton.mp hc]
        rfl
  by_cases hroot : trimSlashes path = []
  · have hfront : frontOf path = [] := if_pos hroot
    have hhref : pageHrefForStyle path style = ['/'] := by
      unfold pageHrefForStyle
      exact if_pos hroot
    rw [hhref, hfront]
    rfl
  · have hfront : frontOf path = '/' :: trimSlashes path := if_neg hroot
    have hhref : pageHrefForStyle path style = frontOf path ++ slashOf style := by
      rw [hfront, ← pageHrefForStyle_cons (trimmed_trimSlashes path) hroot style]
      exact congrArg (pageHrefForStyle · style) h.trimmed
    have hlast : (frontOf path).getLast? ≠ some '/' := by
      rw [hfront, List.getLast?_cons_of_ne_nil hroot]
      exact (trimmed_trimSlashes path).2
    rw [hhref, hcut _ (slash_slashOf style)]
    cases style with
    | noExtension => rw [slashOf, if_neg (by decide), List.append_nil, rdropWhile_of_getLast? hlast]
    | directory =>
      rw [slashOf, if_pos rfl, List.rdropWhile_concat_pos _ _ _ (by decide), rdropWhile_of_getLast? hlast]

theorem pagedPath_eq (path : List Char) (n : Nat) :
    pagedPath path n = (assertFollowUp n).map fun _ => frontOf path ++ followUp n := by
  rw [pagedPath]
  cases assertFollowUp n with
  | error message => rfl
  | ok => rfl

theorem pagedUrl_pageHref (h : IsPagePath path) (n : Nat) (style : PageUrlStyle) :
    pagedUrl (pageHrefForStyle path style) n style = (pagedPath path n).map (pageHrefForStyle · style) := by
  rw [pagedPath_eq, pagedUrl]
  cases assertFollowUp n with
  | error message => rfl
  | ok =>
    have hbase := base_pageHref h style
    rw [List.rdropWhile] at hbase
    refine congrArg Except.ok ?_
    rw [hbase]
    exact (pageHrefForStyle_followUp path n style).symm

theorem pagedPath_ok (hn : 2 ≤ n) : pagedPath path n = .ok (frontOf path ++ followUp n) := by
  rw [pagedPath_eq, assertFollowUp, if_neg (by omega)]
  rfl

theorem parsePagedPath_followUp (h : IsPagePath path) (hn : 2 ≤ n) (hle : n ≤ 999999)
    (hlast : Slash last) : parsePagedPath (frontOf path ++ followUp n ++ last) = some (path, n) := by
  rw [parsePagedPath_eq_some_iff]
  refine ⟨frontOf path, last, rfl, hlast, ?_, hn, hle, (pathOf_frontOf h.trimmed).symm⟩
  intro c hc
  exact (h.plain c (frontOf_subset h.trimmed hc)).2.2

end CaeloCms.Lists
