import CaeloCms.Lib.InsertionMap
import CaeloCms.Shared.NumberText
import CaeloCms.Shared.WebForm
import CaeloCms.Staging.SessionCookie

/-!
# Writing the session cookie

`sessionCookieValue` writes entries by key, and refuses what the reader would not read back.  It checks only that an expiry is
a positive whole number, and the reader takes at most twelve digits: a map of entries is read back if and only if none that
is still running expires from `10 ^ 12` on (`sessionCookie_iff`).  Setting or deleting an entry never touches another one
(`keeps_others`).
-/

namespace CaeloCms.Staging

open CaeloCms.Redirect (isSpace natText)
open CaeloCms.Web (decodeURIComponent encodeURIComponent searchParams formText)

/-! ### Source -/

structure OwnerEntry where
  value : List Char
  expiresAt : ℚ
deriving DecidableEq, Repr

structure SessionEntries where
  entries : List (List Char × OwnerEntry)
  nodup : (entries.map Prod.fst).Nodup

def SessionKey.name : SessionKey → List Char
  | .visitorId => "vid".toList
  | .login => "login".toList
  | .staging => "staging".toList

def entryParam (entry : List Char × OwnerEntry) : Option (List Char × List Char) :=
  if sessionKey entry.1 = none then none
  else if isEntryValue entry.2.value = false then none
  else if entry.2.expiresAt.den ≠ 1 ∨ entry.2.expiresAt ≤ 0 then none
  else some (entry.1, numberText entry.2.expiresAt.num.toNat ++ '.' :: entry.2.value)

/-- The cookie value for entries, with `le` for the order of `localeCompare`. -/
def sessionCookieValue (le : List Char → List Char → Bool) (entries : SessionEntries) : Option (List Char) :=
  ((entries.entries.mergeSort fun a b => le a.1 b.1).mapM entryParam).map fun params => encodeURIComponent (formText params)

def cookieHeader (parts : List (List Char)) : List Char := "; ".toList.intercalate parts

/-- A cookie of another name, or a text that is none. -/
def OtherCookie (part : List Char) : Prop := ';' ∉ part ∧ ∀ c, cookieOf part = some c → c.1 ≠ "__session".toList

/-! ### The cookie in its header -/

theorem cookieParts_header {first : List Char} {rest : List (List Char)} (hfirst : ';' ∉ first) (hrest : ∀ p ∈ rest, ';' ∉ p) :
    cookieParts (cookieHeader (first :: rest)) = first :: rest.map fun p => p.dropWhile isSpace := by
  have hsplit : (cookieHeader (first :: rest)).splitOn ';' = first :: rest.map (' ' :: ·) := by
    have htext : cookieHeader (first :: rest) = [';'].intercalate (first :: rest.map (' ' :: ·)) := by
      unfold cookieHeader
      induction rest generalizing first with
      | nil => rfl
      | cons p rest ih =>
        rw [List.intercalate_cons_of_ne_nil (List.cons_ne_nil _ _), ih (hrest p List.mem_cons_self)
            fun q hq => hrest q (List.mem_cons_of_mem p hq), List.map_cons,
          List.intercalate_cons_of_ne_nil (List.cons_ne_nil _ _)]
        cases rest with
        | nil => simp [List.intercalate]
        | cons q rest =>
          rw [List.map_cons, List.intercalate_cons_of_ne_nil (List.cons_ne_nil _ _),
            List.intercalate_cons_of_ne_nil (List.cons_ne_nil _ _)]
          simp
    rw [htext]
    apply List.splitOn_intercalate _ _ (List.cons_ne_nil _ _)
    intro l hl
    rcases List.mem_cons.1 hl with rfl | hl
    · exact hfirst
    · obtain ⟨p, hp, rfl⟩ := List.mem_map.1 hl
      rw [List.mem_cons, not_or]
      exact ⟨by decide, hrest p hp⟩
  unfold cookieParts
  rw [hsplit]
  dsimp only
  rw [List.map_map]
  congr 1

theorem cookieOf_dropWhile {part : List Char} {c : List Char × List Char} (h : cookieOf (part.dropWhile isSpace) = some c) :
    ∃ c', cookieOf part = some c' ∧ c'.1 = c.1 := by
  induction part with
  | nil => exact ⟨c, h, rfl⟩
  | cons d part ih =>
    by_cases hd : isSpace d = true
    · rw [List.dropWhile_cons_of_pos hd] at h
      obtain ⟨c', hc', hname⟩ := ih h
      have hne : (d != '=') = true := by
        rw [bne_iff_ne]
        rintro rfl
        exact absurd hd (by decide)
      have htake : (d :: part).takeWhile (fun c => c != '=') = d :: part.takeWhile fun c => c != '=' :=
        List.takeWhile_cons_of_pos hne
      unfold cookieOf at hc' ⊢
      dsimp only at hc' ⊢
      rw [htake]
      split at hc'
      · cases hc'
      · rename_i hcond
        cases hc'
        rw [Bool.or_eq_true, not_or, decide_eq_true_eq] at hcond
        rw [if_neg]
        · refine ⟨_, rfl, ?_⟩
          rw [← hname]
          unfold Words.trim
          rw [List.dropWhile_cons_of_pos hd]
        · simp only [List.isEmpty_cons, Bool.false_or, decide_eq_true_eq, List.length_cons, Nat.add_right_cancel_iff]
          exact hcond.2
    · rw [List.dropWhile_cons_of_neg hd] at h
      exact ⟨c, h, rfl⟩

/-- What `rawSessionCookie` looks for in one part. -/
def sessionValue (part : List Char) : Option (List Char) :=
  (cookieOf part).bind fun cookie => if cookie.1 = "__session".toList then some cookie.2 else none

theorem sessionValue_of_other {part : List Char} (h : OtherCookie part) :
    sessionValue part = none ∧ sessionValue (part.dropWhile isSpace) = none := by
  unfold sessionValue
  constructor
  · rw [Option.bind_eq_none_iff]
    exact fun c hc => if_neg (h.2 c hc)
  · rw [Option.bind_eq_none_iff]
    intro c hc
    obtain ⟨c', hc', hname⟩ := cookieOf_dropWhile hc
    exact if_neg (hname ▸ h.2 c' hc')

variable {now : Int} {k : SessionKey} {before after : List (List Char)} {params : List (List Char × List Char)}
  {e : SessionEntry} {c : Char} {value : List Char} {header : Option (List Char)}

theorem not_isSpace_of_range (hlow : 33 ≤ c.toNat) (hhigh : c.toNat ≤ 126) : isSpace c = false := by
  unfold isSpace
  simp only [Bool.or_eq_false_iff, Bool.and_eq_false_iff, decide_eq_false_iff_not]
  omega

theorem not_isSpace_of_isUnescaped (h : Web.isUnescaped c = true) : isSpace c = false := by
  have hle : ∀ a b : Char, a ≤ b ↔ a.toNat ≤ b.toNat := fun a b => UInt32.le_iff_toNat_le
  have hletters : 'A'.toNat = 65 ∧ 'Z'.toNat = 90 ∧ 'a'.toNat = 97 ∧ 'z'.toNat = 122 ∧ '0'.toNat = 48 ∧ '9'.toNat = 57 :=
    ⟨rfl, rfl, rfl, rfl, rfl, rfl⟩
  have hmarks : ("-_.!~*'()".toList.all fun c => !isSpace c) = true := by decide
  unfold Web.isUnescaped at h
  simp only [Bool.or_eq_true, Bool.and_eq_true, decide_eq_true_eq, hle, List.contains_iff_mem] at h
  rcases h with ((h | h) | h) | h
  · exact not_isSpace_of_range (by omega) (by omega)
  · exact not_isSpace_of_range (by omega) (by omega)
  · exact not_isSpace_of_range (by omega) (by omega)
  · simpa using List.all_eq_true.1 hmarks c h

theorem not_isSpace_of_mem_encode {s : List Char} (h : c ∈ encodeURIComponent s) :
    isSpace c = false ∧ c ≠ ';' := by
  have hchar : ∀ d, Web.isUnescaped d = true → isSpace d = false ∧ d ≠ ';' := by
    refine fun d hd => ⟨not_isSpace_of_isUnescaped hd, ?_⟩
    rintro rfl
    exact absurd hd (by decide)
  have hdigit : ∀ n < 16, Web.isUnescaped (Web.upperHexDigit n) = true := by decide +kernel
  obtain ⟨d, -, hc⟩ := List.mem_flatMap.1 h
  unfold Web.escapeChar at hc
  split at hc
  · rename_i hd
    rw [List.mem_singleton] at hc
    exact hchar c (hc ▸ hd)
  · obtain ⟨b, hb, hc⟩ := List.mem_flatMap.1 hc
    have hlt := Web.utf8_lt hb
    simp only [Web.escapeByte, List.mem_cons, List.not_mem_nil, or_false] at hc
    rcases hc with rfl | rfl | rfl
    · decide
    · exact hchar _ (hdigit _ (by omega))
    · exact hchar _ (hdigit _ (Nat.mod_lt _ (by omega)))

def sessionCookie (value : List Char) : List Char := "__session=".toList ++ value

theorem sessionValue_sessionCookie (h : ∀ c ∈ value, isSpace c = false) :
    sessionValue (sessionCookie value) = some value := by
  have htrim : Words.trim isSpace value = value :=
    Words.trim_eq_self (fun c hc => h c (List.mem_of_mem_head? hc)) fun c hc => h c (List.mem_of_getLast? hc)
  have hcookie : cookieOf (sessionCookie value) = some ("__session".toList, Words.trim isSpace value) := rfl
  rw [sessionValue, hcookie, htrim]
  rfl

theorem findSome?_others {parts : List (List Char)} (h : ∀ p ∈ parts, OtherCookie p) (rest : List (List Char)) :
    ((parts.map fun p => p.dropWhile isSpace) ++ rest).findSome? sessionValue = rest.findSome? sessionValue := by
  rw [List.findSome?_append]
  have hnone : (parts.map fun p => p.dropWhile isSpace).findSome? sessionValue = none := by
    rw [List.findSome?_eq_none_iff]
    intro p hp
    obtain ⟨q, hq, rfl⟩ := List.mem_map.1 hp
    exact (sessionValue_of_other (h q hq)).2
  rw [hnone, Option.none_or]

theorem rawSessionCookie_header {entries : List Char}
    (hbefore : ∀ p ∈ before, OtherCookie p) (hafter : ∀ p ∈ after, OtherCookie p) :
    rawSessionCookie (some (cookieHeader (before ++ sessionCookie (encodeURIComponent entries) :: after))) =
      some (encodeURIComponent entries) := by
  have hclean : ';' ∉ sessionCookie (encodeURIComponent entries) := by
    intro hmem
    rcases List.mem_append.1 hmem with hmem | hmem
    · exact absurd hmem (by decide)
    · exact (not_isSpace_of_mem_encode hmem).2 rfl
  have hvalue : sessionValue (sessionCookie (encodeURIComponent entries)) = some (encodeURIComponent entries) :=
    sessionValue_sessionCookie fun c hc => (not_isSpace_of_mem_encode hc).1
  have hdrop : (sessionCookie (encodeURIComponent entries)).dropWhile isSpace = sessionCookie (encodeURIComponent entries) := rfl
  show (cookieParts (cookieHeader (before ++ sessionCookie (encodeURIComponent entries) :: after))).findSome? sessionValue = _
  cases before with
  | nil =>
    rw [List.nil_append, cookieParts_header hclean fun p hp => (hafter p hp).1, List.findSome?_cons, hvalue]
  | cons b before =>
    have hb := hbefore b List.mem_cons_self
    have hbefore' : ∀ p ∈ before, OtherCookie p := fun p hp => hbefore p (List.mem_cons_of_mem b hp)
    rw [List.cons_append, cookieParts_header hb.1, List.findSome?_cons, (sessionValue_of_other hb).1, List.map_append,
      List.map_cons, findSome?_others hbefore', List.findSome?_cons, hdrop, hvalue]
    intro p hp
    rcases List.mem_append.1 hp with hp | hp
    · exact (hbefore' p hp).1
    · rcases List.mem_cons.1 hp with rfl | hp
      · exact hclean
      · exact (hafter p hp).1

/-! ### The entries in the value -/

theorem sessionKey_eq_some {name : List Char} : sessionKey name = some k ↔ name = k.name := by
  constructor
  · intro h
    unfold sessionKey at h
    split_ifs at h with hvid hlogin hstaging <;> cases h <;> assumption
  · rintro rfl
    cases k <;> rfl

def readParam (now : Int) (p : List Char × List Char) : Option (SessionKey × SessionEntry) :=
  (sessionKey p.1).bind fun key => (entryOf now p.2).map fun e => (key, e)

theorem readEntries_eq {out : List (SessionKey × SessionEntry)}
    (hnodup : (params.map Prod.fst).Nodup)
    (hout : ∀ p ∈ params, ∀ q ∈ out, sessionKey p.1 ≠ some q.1) :
    readEntries now out params = out ++ params.filterMap (readParam now) := by
  induction params generalizing out with
  | nil => exact (List.append_nil out).symm
  | cons p params ih =>
    obtain ⟨name, entry⟩ := p
    rw [List.map_cons, List.nodup_cons] at hnodup
    have hrest : ∀ p ∈ params, ∀ q ∈ out, sessionKey p.1 ≠ some q.1 := fun p hp => hout p (List.mem_cons_of_mem _ hp)
    rw [readEntries]
    cases hkey : sessionKey name with
    | none =>
      have hnone : readParam now (name, entry) = none := by rw [readParam, hkey]; rfl
      rw [List.filterMap_cons_none hnone]
      exact ih hnodup.2 hrest
    | some key =>
      cases hentry : entryOf now entry with
      | none =>
        have hnone : readParam now (name, entry) = none := by rw [readParam, hkey, Option.bind_some, hentry]; rfl
        rw [List.filterMap_cons_none hnone]
        exact ih hnodup.2 hrest
      | some e =>
        have hsome : readParam now (name, entry) = some (key, e) := by rw [readParam, hkey, Option.bind_some, hentry]; rfl
        have hnew : (out.any fun p => p.1 = key) = false := by
          rw [List.any_eq_false]
          intro q hq
          have hne := hout (name, entry) List.mem_cons_self q hq
          rw [hkey] at hne
          simpa using fun heq : q.1 = key => hne (by rw [heq])
        rw [List.filterMap_cons_some hsome]
        dsimp only
        rw [hnew]
        rw [if_neg Bool.false_ne_true, ih hnodup.2, List.append_assoc]
        · rfl
        · intro p hp q hq
          rcases List.mem_append.1 hq with hq | hq
          · exact hrest p hp q hq
          · rw [List.mem_singleton.1 hq]
            intro hsame
            have hname : p.1 = name := (sessionKey_eq_some.1 hsame).trans (sessionKey_eq_some.1 hkey).symm
            exact hnodup.1 (List.mem_map.2 ⟨p, hp, hname⟩)

theorem isDigit_eq (c : Char) : isDigit c = c.isDigit := by
  rw [Bool.eq_iff_iff]
  unfold isDigit Char.isDigit
  simp only [Bool.and_eq_true, decide_eq_true_eq, Char.le_def, ge_iff_le]

theorem entryOf_append {a v : List Char} (ha : '.' ∉ a) :
    entryOf now (a ++ '.' :: v) = if !isExpiry a || !isEntryValue v then none
      else if (digitsNumber a : Int) ≤ now then none else some ⟨v, digitsNumber a⟩ := by
  have hne : ∀ c ∈ a, (c != '.') = true := fun c hc => bne_iff_ne.2 fun heq => ha (heq ▸ hc)
  have htake : (a ++ '.' :: v).takeWhile (fun c => c != '.') = a := by
    rw [List.takeWhile_append_of_pos hne, List.takeWhile_cons_of_neg (by decide), List.append_nil]
  have hdrop : (a ++ '.' :: v).drop (a.length + 1) = v := by
    rw [← List.drop_drop, List.drop_left]
    rfl
  have hlength : decide (a.length = (a ++ '.' :: v).length) = false := by
    rw [decide_eq_false_iff_not, List.length_append, List.length_cons]
    omega
  rw [entryOf, htake, hdrop, hlength, Bool.false_or]

theorem entryOf_of_plus {entry : List Char} (h : '+' ∈ entry) : entryOf now entry = none := by
  unfold entryOf
  dsimp only
  generalize hexp : entry.takeWhile (fun c => c != '.') = expRaw
  rw [if_pos]
  rw [Bool.or_eq_true, Bool.or_eq_true, Bool.not_eq_true', Bool.not_eq_true', decide_eq_true_eq]
  have hsplit : entry.take (expRaw.length + 1) ++ entry.drop (expRaw.length + 1) = entry := List.take_append_drop _ _
  rw [← hsplit, List.mem_append] at h
  rcases h with h | h
  · by_cases hlength : expRaw.length = entry.length
    · exact Or.inl (Or.inl hlength)
    · have hmem : '+' ∈ expRaw := by
        have hdrop : entry.dropWhile (fun c => c != '.') ≠ [] := by
          intro hnil
          have happ := List.takeWhile_append_dropWhile (p := fun c => c != '.') (l := entry)
          rw [hexp, hnil, List.append_nil] at happ
          exact hlength (congrArg List.length happ)
        obtain ⟨d, rest, hrest⟩ := List.exists_cons_of_ne_nil hdrop
        have hdot : d = '.' := by
          have hhead := List.head?_dropWhile_not (fun c => c != '.') entry
          rw [hrest] at hhead
          simpa using hhead
        have happ := List.takeWhile_append_dropWhile (p := fun c => c != '.') (l := entry)
        rw [hexp, hrest, hdot] at happ
        have htake : entry.take (expRaw.length + 1) = expRaw ++ ['.'] := by
          rw [← happ, List.take_append]
          simp
        rw [htake, List.mem_append, List.mem_singleton] at h
        exact h.resolve_right (by decide)
      refine Or.inl (Or.inr ?_)
      rw [← Bool.not_eq_true]
      intro hexpiry
      unfold isExpiry at hexpiry
      rw [Bool.and_eq_true, List.all_eq_true] at hexpiry
      exact absurd (hexpiry.2 _ hmem) (by decide)
  · refine Or.inr ?_
    rw [← Bool.not_eq_true]
    intro hvalue
    unfold isEntryValue at hvalue
    rw [Bool.and_eq_true, List.all_eq_true] at hvalue
    exact absurd (hvalue.2 _ h) (by decide)

/-- A written entry is read back while it runs, if its expiry has at most twelve digits. -/
theorem entryOf_written {n : Nat} {v : List Char} (hn : 0 < n) (hv : isEntryValue v = true) :
    entryOf now (numberText n ++ '.' :: v) = if n < 10 ^ 12 ∧ now < n then some ⟨v, n⟩ else none := by
  by_cases hsmall : n < 10 ^ 12
  · have htext : numberText n = natText n := if_pos (by omega)
    have hdot : '.' ∉ natText n := fun h => absurd (isDigit_natText' h) (by decide)
    have hexpiry : isExpiry (natText n) = true := by
      unfold isExpiry
      rw [Bool.and_eq_true, Bool.and_eq_true, decide_eq_true_eq, decide_eq_true_eq, List.all_eq_true]
      refine ⟨⟨length_natText_pos n, (length_natText_le_iff (by omega)).2 hsmall⟩, fun c hc => ?_⟩
      rw [isDigit_eq]
      exact isDigit_natText' hc
    have hvalue : digitsNumber (natText n) = n := Nat.ofDigitChars_ten_toDigits
    rw [htext, entryOf_append hdot, hexpiry, hv, hvalue, Bool.not_true, Bool.or_self]
    by_cases hnow : now < n
    · rw [if_neg Bool.false_ne_true, if_neg (not_le.2 hnow), if_pos ⟨hsmall, hnow⟩]
    · rw [if_neg Bool.false_ne_true, if_pos (not_lt.1 hnow), if_neg fun h => hnow h.2]
  · rw [if_neg fun h => hsmall h.1]
    rcases numberText_of_le (Nat.not_lt.1 hsmall) with hplus | ⟨hdigits, hlength⟩
    · exact entryOf_of_plus (List.mem_append_left _ hplus)
    · have hdot : '.' ∉ numberText n := fun h => absurd (hdigits _ h) (by decide)
      have hexpiry : isExpiry (numberText n) = false := by
        unfold isExpiry
        rw [decide_eq_false (by omega : ¬(numberText n).length ≤ 12), Bool.and_false, Bool.false_and]
      rw [entryOf_append hdot, hexpiry]
      rfl

theorem entryParam_eq_some {entry : List Char × OwnerEntry} {p : List Char × List Char} :
    entryParam entry = some p ↔ ∃ (k : SessionKey) (n : Nat), entry.1 = k.name ∧ isEntryValue entry.2.value = true ∧ 0 < n ∧
      entry.2.expiresAt = n ∧ p = (k.name, numberText n ++ '.' :: entry.2.value) := by
  obtain ⟨name, value, expiresAt⟩ := entry
  unfold entryParam
  dsimp only
  constructor
  · intro h
    split at h
    · cases h
    · rename_i hkey
      split at h
      · cases h
      · rename_i hvalue
        split at h
        · cases h
        · rename_i hexp
          rw [not_or, not_not, not_le] at hexp
          obtain ⟨k, hk⟩ := Option.ne_none_iff_exists'.1 hkey
          have hpos : 0 < expiresAt.num := Rat.num_pos.2 hexp.2
          have hnum : (expiresAt.num.toNat : Int) = expiresAt.num := Int.toNat_of_nonneg hpos.le
          have hint : expiresAt = expiresAt.num := (Rat.den_eq_one_iff expiresAt).1 hexp.1 |>.symm
          refine ⟨k, expiresAt.num.toNat, sessionKey_eq_some.1 hk, by simpa using hvalue, by omega, ?_, ?_⟩
          · conv_lhs => rw [hint, ← hnum]
            rfl
          · rw [← sessionKey_eq_some.1 hk]
            exact (Option.some.inj h).symm
  · rintro ⟨k, n, rfl, hvalue, hn, rfl, rfl⟩
    have hkey : sessionKey k.name ≠ none := by
      rw [sessionKey_eq_some.2 rfl]
      exact Option.some_ne_none k
    have hcond : ¬(((n : ℚ)).den ≠ 1 ∨ (n : ℚ) ≤ 0) := by
      rw [not_or, not_not, not_le]
      exact ⟨Rat.den_natCast n, by exact_mod_cast hn⟩
    rw [if_neg hkey, if_neg (by rw [hvalue]; decide), if_neg hcond]
    simp

def Carries (m : SessionEntries) (k : SessionKey) (e : SessionEntry) : Prop :=
  (k.name, ⟨e.value, e.expiresAt⟩) ∈ m.entries

theorem mem_of_forall₂ {σ ρ : Type} {R : σ → ρ → Prop} {l : List σ} {r : List ρ} (h : List.Forall₂ R l r) :
    (∀ a ∈ l, ∃ b ∈ r, R a b) ∧ ∀ b ∈ r, ∃ a ∈ l, R a b := by
  induction h with
  | nil => simp
  | cons hab _ ih =>
    constructor
    · intro a ha
      rcases List.mem_cons.1 ha with rfl | ha
      · exact ⟨_, List.mem_cons_self, hab⟩
      · obtain ⟨b, hb, hab⟩ := ih.1 a ha
        exact ⟨b, List.mem_cons_of_mem _ hb, hab⟩
    · intro b hb
      rcases List.mem_cons.1 hb with rfl | hb
      · exact ⟨_, List.mem_cons_self, hab⟩
      · obtain ⟨a, ha, hab⟩ := ih.2 b hb
        exact ⟨a, List.mem_cons_of_mem _ ha, hab⟩

theorem names_eq {entries : List (List Char × OwnerEntry)}
    (h : List.Forall₂ (fun entry p => entryParam entry = some p) entries params) :
    params.map Prod.fst = entries.map Prod.fst := by
  induction h with
  | nil => rfl
  | cons hentry _ ih =>
    obtain ⟨k, n, hkey, -, -, -, rfl⟩ := entryParam_eq_some.1 hentry
    rw [List.map_cons, List.map_cons, ih, hkey]

theorem read_header (hnodup : (params.map Prod.fst).Nodup) (hbefore : ∀ p ∈ before, OtherCookie p)
    (hafter : ∀ p ∈ after, OtherCookie p)
    (now : Int) :
    readSessionCookie (some (cookieHeader (before ++ sessionCookie (encodeURIComponent (formText params)) :: after))) now =
      params.filterMap (readParam now) := by
  have hdecode := Web.decodeURIComponent_encodeURIComponent (formText params)
  have hread : readEntries now [] params = params.filterMap (readParam now) :=
    readEntries_eq hnodup fun _ _ q hq => absurd hq List.not_mem_nil
  rw [readSessionCookie, rawSessionCookie_header hbefore hafter]
  dsimp only
  by_cases hempty : (encodeURIComponent (formText params)).isEmpty = true
  · have hnil : params = [] := by
      rw [List.isEmpty_iff.1 hempty] at hdecode
      have htext : formText params = [] := (Option.some.inj hdecode).symm
      rw [← Web.searchParams_formText params, htext]
      rfl
    rw [if_pos hempty, hnil]
    rfl
  · rw [if_neg hempty, hdecode]
    dsimp only
    rw [Web.searchParams_formText, hread]

theorem mem_read_iff {le : List Char → List Char → Bool} {m : SessionEntries}
    (hvalue : sessionCookieValue le m = some value) (hbefore : ∀ p ∈ before, OtherCookie p)
    (hafter : ∀ p ∈ after, OtherCookie p) (now : Int) (k : SessionKey) (e : SessionEntry) :
    (k, e) ∈ readSessionCookie (some (cookieHeader (before ++ sessionCookie value :: after))) now ↔
      Carries m k e ∧ e.expiresAt < 10 ^ 12 ∧ now < e.expiresAt := by
  obtain ⟨params, hparams, rfl⟩ := Option.map_eq_some_iff.1 hvalue
  rw [Words.mapM_eq_some_iff] at hparams
  have hperm := List.mergeSort_perm m.entries fun a b => le a.1 b.1
  have hnodup : (params.map Prod.fst).Nodup := by
    rw [names_eq hparams]
    exact (hperm.map Prod.fst).nodup_iff.2 m.nodup
  obtain ⟨hwritten, hread⟩ := mem_of_forall₂ hparams
  have hkey : ∀ k : SessionKey, sessionKey k.name = some k := fun k => sessionKey_eq_some.2 rfl
  rw [read_header hnodup hbefore hafter, List.mem_filterMap]
  constructor
  · rintro ⟨p, hp, hpe⟩
    obtain ⟨entry, hentry, hparam⟩ := hread p hp
    obtain ⟨k', n, hname, hval, hn, hexp, rfl⟩ := entryParam_eq_some.1 hparam
    rw [readParam, hkey, Option.bind_some, entryOf_written hn hval] at hpe
    split at hpe
    · rename_i hrange
      rw [Option.map_some, Option.some.injEq, Prod.mk.injEq] at hpe
      obtain ⟨rfl, rfl⟩ := hpe
      refine ⟨?_, hrange⟩
      have heq : entry = (k'.name, ⟨entry.2.value, (n : ℚ)⟩) := by rw [← hname, ← hexp]
      unfold Carries
      rw [← heq]
      exact hperm.mem_iff.1 hentry
    · cases hpe
  · rintro ⟨hcarries, hrange⟩
    obtain ⟨p, hp, hparam⟩ := hwritten _ (hperm.mem_iff.2 hcarries)
    refine ⟨p, hp, ?_⟩
    obtain ⟨k', n, hname, hval, hn, hexp, rfl⟩ := entryParam_eq_some.1 hparam
    have hkk : k' = k := by
      have hsome := hkey k
      rw [show k.name = k'.name from hname, hkey] at hsome
      exact Option.some.inj hsome
    have hexp' : (e.expiresAt : ℚ) = n := hexp
    have hne : n = e.expiresAt := by exact_mod_cast hexp'.symm
    subst hkk hne
    rw [readParam, hkey, Option.bind_some, entryOf_written hn hval, if_pos hrange]
    rfl

/-! ### Updates -/

theorem name_injective {k' : SessionKey} (h : k.name = k'.name) : k = k' := by
  have hkey : sessionKey k.name = some k' := sessionKey_eq_some.2 h
  rw [sessionKey_eq_some.2 rfl] at hkey
  exact Option.some.inj hkey

def readMap (header : Option (List Char)) (now : Int) : SessionEntries where
  entries := (readSessionCookie header now).map fun p => (p.1.name, ⟨p.2.value, p.2.expiresAt⟩)
  nodup := by
    rw [List.map_map]
    refine List.Nodup.map_on ?_ (List.Nodup.of_map _ (readSessionCookie_spec header now).1)
    intro p hp q hq heq
    exact List.inj_on_of_nodup_map (readSessionCookie_spec header now).1 hp hq (name_injective heq)

theorem carries_readMap :
    Carries (readMap header now) k e ↔ (k, e) ∈ readSessionCookie header now := by
  unfold Carries readMap
  rw [List.mem_map]
  constructor
  · rintro ⟨⟨k', v, n⟩, hp, heq⟩
    obtain ⟨v', n'⟩ := e
    simp only [Prod.mk.injEq, OwnerEntry.mk.injEq] at heq
    obtain ⟨hname, rfl, hexp⟩ := heq
    have hexp' : n = n' := by exact_mod_cast hexp
    obtain rfl := name_injective hname
    exact hexp' ▸ hp
  · intro h
    exact ⟨(k, e), h, rfl⟩

/-- What an owner does to its entry. -/
inductive Change
  | set (e : OwnerEntry)
  | delete

/-- `entries.set(key, e)` or `entries.delete(key)` -/
def SessionEntries.change (m : SessionEntries) (key : List Char) (change : Change) : SessionEntries where
  entries :=
    match change with
    | .set e => InsertionMap.set m.entries key e
    | .delete => InsertionMap.erase m.entries key
  nodup := by
    cases change with
    | set e => exact InsertionMap.nodup_set m.nodup key e
    | delete => exact m.nodup.sublist (List.filter_sublist.map _)

theorem carries_change {m : SessionEntries} {key : SessionKey} {change : Change} (hne : k ≠ key) :
    Carries (m.change key.name change) k e ↔ Carries m k e := by
  have hname : k.name ≠ key.name := fun h => hne (name_injective h)
  unfold Carries
  cases change with
  | set e' => exact InsertionMap.mem_set_of_ne hname
  | delete => simp [SessionEntries.change, InsertionMap.erase, hname]

theorem digitsNumber_lt {s : List Char} (h : ∀ c ∈ s, isDigit c = true) : digitsNumber s < 10 ^ s.length := by
  unfold digitsNumber
  induction s with
  | nil => simp
  | cons c s ih =>
    rw [List.forall_mem_cons, isDigit_eq] at h
    have hle := ih h.2
    have hdigit : c.toNat - '0'.toNat ≤ 9 := by
      have hc := h.1
      unfold Char.isDigit at hc
      rw [Bool.and_eq_true, decide_eq_true_eq, decide_eq_true_eq] at hc
      have hhigh : c.toNat ≤ 57 := UInt32.le_iff_toNat_le.1 hc.2
      have hzero : '0'.toNat = 48 := rfl
      omega
    rw [Nat.ofDigitChars_cons, Nat.mul_zero, Nat.zero_add, Nat.ofDigitChars_eq_ofDigitChars_zero, List.length_cons, Nat.pow_succ]
    have hmul : 10 ^ s.length * (c.toNat - '0'.toNat) ≤ 10 ^ s.length * 9 := Nat.mul_le_mul_left _ hdigit
    omega

theorem expiresAt_lt {entry : List Char} (h : entryOf now entry = some e) :
    e.expiresAt < 10 ^ 12 := by
  unfold entryOf at h
  dsimp only at h
  split at h
  · cases h
  · rename_i hform
    split at h
    · cases h
    · cases h
      rw [Bool.or_eq_true, Bool.or_eq_true, not_or, not_or, Bool.not_eq_true', Bool.not_eq_false] at hform
      have hexpiry := hform.1.2
      unfold isExpiry at hexpiry
      rw [Bool.and_eq_true, Bool.and_eq_true, decide_eq_true_eq, decide_eq_true_eq, List.all_eq_true] at hexpiry
      exact Nat.lt_of_lt_of_le (digitsNumber_lt hexpiry.2) (Nat.pow_le_pow_right (by omega) hexpiry.1.2)

theorem expiresAt_lt_of_readEntries {out : List (SessionKey × SessionEntry)}
    (hout : ∀ p ∈ out, p.2.expiresAt < 10 ^ 12) : ∀ p ∈ readEntries now out params, p.2.expiresAt < 10 ^ 12 := by
  induction params generalizing out with
  | nil => exact hout
  | cons param params ih =>
    obtain ⟨name, entry⟩ := param
    unfold readEntries
    split
    · rename_i key e hkey hentry
      split
      · exact ih hout
      · refine ih fun p hp => ?_
        rcases List.mem_append.1 hp with hp | hp
        · exact hout p hp
        · rw [List.mem_singleton.1 hp]
          exact expiresAt_lt hentry
    · exact ih hout

theorem expiresAt_lt_of_read
    (h : (k, e) ∈ readSessionCookie header now) : e.expiresAt < 10 ^ 12 := by
  unfold readSessionCookie at h
  split at h
  · cases h
  · split at h
    · cases h
    · split at h
      · cases h
      · exact expiresAt_lt_of_readEntries (fun _ hp => absurd hp List.not_mem_nil) _ h

theorem keeps_others {le : List Char → List Char → Bool} {key : SessionKey}
    {change : Change} (hvalue : sessionCookieValue le ((readMap header now).change key.name change) = some value)
    (hbefore : ∀ p ∈ before, OtherCookie p) (hafter : ∀ p ∈ after, OtherCookie p)
    (later : Int) (hne : k ≠ key) (e : SessionEntry) :
    (k, e) ∈ readSessionCookie (some (cookieHeader (before ++ sessionCookie value :: after))) later ↔
      (k, e) ∈ readSessionCookie header now ∧ later < e.expiresAt := by
  rw [mem_read_iff hvalue hbefore hafter, carries_change hne, carries_readMap]
  constructor
  · rintro ⟨hread, -, hlater⟩
    exact ⟨hread, hlater⟩
  · rintro ⟨hread, hlater⟩
    exact ⟨hread, expiresAt_lt_of_read hread, hlater⟩

/-- A written map is read back, entry by entry while they run, if and only if no expiry is too long for the reader. -/
theorem sessionCookie_iff {le : List Char → List Char → Bool} {m : SessionEntries} {value : List Char}
    (hvalue : sessionCookieValue le m = some value) {before after : List (List Char)} (hbefore : ∀ p ∈ before, OtherCookie p)
    (hafter : ∀ p ∈ after, OtherCookie p) (now : Int) :
    ((∀ k e, (k, e) ∈ readSessionCookie (some (cookieHeader (before ++ sessionCookie value :: after))) now ↔
      Carries m k e ∧ now < e.expiresAt) ↔
      ∀ p ∈ m.entries, (now : ℚ) < p.2.expiresAt → p.2.expiresAt < 10 ^ 12) ∧
    ∀ header key change value' later k e,
      sessionCookieValue le ((readMap header now).change (SessionKey.name key) change) = some value' → k ≠ key →
        ((k, e) ∈ readSessionCookie (some (cookieHeader (before ++ sessionCookie value' :: after))) later ↔
          (k, e) ∈ readSessionCookie header now ∧ later < e.expiresAt) := by
  constructor
  · constructor
    · intro hread p hp hnow
      obtain ⟨params, hparams, -⟩ := Option.map_eq_some_iff.1 hvalue
      rw [Words.mapM_eq_some_iff] at hparams
      have hperm := List.mergeSort_perm m.entries fun a b => le a.1 b.1
      obtain ⟨param, -, hparam⟩ := (mem_of_forall₂ hparams).1 p (hperm.mem_iff.2 hp)
      obtain ⟨k, n, hname, -, -, hexp, -⟩ := entryParam_eq_some.1 hparam
      have hcarries : Carries m k ⟨p.2.value, n⟩ := by
        have heq : p = (k.name, ⟨p.2.value, (n : ℚ)⟩) := by rw [← hname, ← hexp]
        unfold Carries
        rw [← heq]
        exact hp
      rw [hexp] at hnow ⊢
      have hmem := (hread k ⟨p.2.value, n⟩).2 ⟨hcarries, by exact_mod_cast hnow⟩
      exact_mod_cast ((mem_read_iff hvalue hbefore hafter now k _).1 hmem).2.1
    · intro hshort k e
      rw [mem_read_iff hvalue hbefore hafter]
      constructor
      · rintro ⟨hcarries, -, hnow⟩
        exact ⟨hcarries, hnow⟩
      · rintro ⟨hcarries, hnow⟩
        have hnow' : (now : ℚ) < e.expiresAt := by exact_mod_cast hnow
        have hlt : (e.expiresAt : ℚ) < 10 ^ 12 := hshort _ hcarries hnow'
        exact ⟨hcarries, by exact_mod_cast hlt, hnow⟩
  · intro header key change value' later k e hvalue' hne
    exact keeps_others hvalue' hbefore hafter later hne e

def oneEntry (expiresAt : ℚ) : SessionEntries := ⟨[("staging".toList, ⟨['x'], expiresAt⟩)], by simp⟩

/-- The cookie value of the map whose entry runs until 150. -/
theorem sessionCookie_oneEntry :
    (SessionKey.staging, ⟨['x'], 150⟩) ∈
      readSessionCookie (some (cookieHeader ["a=b".toList, sessionCookie "staging%3D150.x".toList])) 100 := by
  have hvalue : sessionCookieValue (fun _ _ => true) (oneEntry 150) = some "staging%3D150.x".toList := by decide +kernel
  have hother : ∀ p ∈ ["a=b".toList], OtherCookie p := by
    intro p hp
    rw [List.mem_singleton.1 hp]
    refine ⟨by decide, fun c hc => ?_⟩
    cases hc
    decide
  have hread := sessionCookie_iff hvalue hother (fun p (hp : p ∈ []) => absurd hp List.not_mem_nil) 100
  refine (hread.1.2 ?_ .staging ⟨['x'], 150⟩).2 ⟨List.mem_singleton.2 rfl, by decide⟩
  intro p hp _
  rw [List.mem_singleton.1 hp]
  norm_num

/-- An expiry of thirteen digits is written and not read back. -/
theorem sessionCookie_lost :
    ∃ value, sessionCookieValue (fun _ _ => true) (oneEntry (10 ^ 12)) = some value ∧
      ¬∀ k e, (k, e) ∈ readSessionCookie (some (cookieHeader [sessionCookie value])) 0 ↔
        Carries (oneEntry (10 ^ 12)) k e ∧ (0 : Int) < e.expiresAt := by
  refine ⟨"staging%3D1000000000000.x".toList, by decide +kernel, fun h => ?_⟩
  have hread : readSessionCookie (some (cookieHeader [sessionCookie "staging%3D1000000000000.x".toList])) 0 = [] := by
    decide +kernel
  have hcarries : Carries (oneEntry (10 ^ 12)) .staging ⟨['x'], 10 ^ 12⟩ := by
    unfold Carries
    rw [Nat.cast_pow, Nat.cast_ofNat]
    exact List.mem_singleton.2 rfl
  have hmem := (h .staging ⟨['x'], 10 ^ 12⟩).2 ⟨hcarries, by norm_num⟩
  rw [hread] at hmem
  cases hmem

end CaeloCms.Staging
