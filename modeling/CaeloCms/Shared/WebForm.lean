import CaeloCms.Shared.WebEncode

/-!
# Search parameters

`URLSearchParams.toString`, and that its text is read back entry by entry (`searchParams_formText`): a name or value escapes
the characters that separate them.
-/

namespace CaeloCms.Web

/-- The characters that a name or value keeps. -/
def isFormChar (c : Char) : Bool :=
  ('A' ≤ c && c ≤ 'Z') || ('a' ≤ c && c ≤ 'z') || ('0' ≤ c && c ≤ '9') || "*-._".toList.contains c

def formEscapeChar (c : Char) : List Char :=
  if isFormChar c then [c] else if c = ' ' then ['+'] else (utf8 [c]).flatMap escapeByte

def formEncode (s : List Char) : List Char := s.flatMap formEscapeChar

def formPart (entry : List Char × List Char) : List Char := formEncode entry.1 ++ '=' :: formEncode entry.2

/-- `params.toString()` -/
def formText (entries : List (List Char × List Char)) : List Char := ['&'].intercalate (entries.map formPart)

/-! ### Reading it back -/

/-- The text with its `+` as blanks, which `formDecode` starts with. -/
def plusAsBlank (c : Char) : Char := if c = '+' then ' ' else c

theorem isFormChar_ne {c d : Char} (h : isFormChar c = true) (hd : isFormChar d = false) : c ≠ d := by
  rintro rfl
  rw [h] at hd
  cases hd

theorem mem_escapeByte {b : Nat} (hb : b < 256) {c : Char} (h : c ∈ escapeByte b) : c = '%' ∨ isFormChar c = true := by
  have hdigit : ∀ n < 16, isFormChar (upperHexDigit n) = true := by decide +kernel
  simp only [escapeByte, List.mem_cons, List.not_mem_nil, or_false] at h
  rcases h with rfl | rfl | rfl
  · exact Or.inl rfl
  · exact Or.inr (hdigit _ (by omega))
  · exact Or.inr (hdigit _ (Nat.mod_lt _ (by omega)))

theorem mem_formEscapeChar {c d : Char} (h : d ∈ formEscapeChar c) :
    d = '%' ∨ isFormChar d = true ∨ c = ' ' ∧ d = '+' := by
  unfold formEscapeChar at h
  split at h
  · rename_i hc
    rw [List.mem_singleton] at h
    exact Or.inr (Or.inl (h ▸ hc))
  · split at h
    · rename_i hc
      exact Or.inr (Or.inr ⟨hc, List.mem_singleton.1 h⟩)
    · obtain ⟨b, hb, hd⟩ := List.mem_flatMap.1 h
      rcases mem_escapeByte (utf8_lt hb) hd with h | h
      · exact Or.inl h
      · exact Or.inr (Or.inl h)

/-- A name or value has none of the characters that separate them. -/
theorem notMem_formEncode {d : Char} (hd : isFormChar d = false) (hpercent : d ≠ '%') (hplus : d ≠ '+') (s : List Char) :
    d ∉ formEncode s := by
  intro h
  obtain ⟨c, -, hc⟩ := List.mem_flatMap.1 h
  rcases mem_formEscapeChar hc with h | h | h
  · exact hpercent h
  · rw [h] at hd
    cases hd
  · exact hplus h.2

theorem standsFor_form : StandsFor fun c => (formEscapeChar c).map plusAsBlank := by
  intro c
  dsimp only
  unfold formEscapeChar
  by_cases hc : isFormChar c = true
  · rw [if_pos hc, List.map_singleton, plusAsBlank, if_neg (isFormChar_ne hc (by decide))]
    exact .inl ⟨rfl, isFormChar_ne hc (by decide)⟩
  · rw [if_neg hc]
    by_cases hblank : c = ' '
    · subst hblank
      exact .inl ⟨rfl, by decide⟩
    · rw [if_neg hblank]
      refine .inr ((List.map_congr_left fun d hd => ?_).trans (List.map_id _))
      obtain ⟨b, hb, hd⟩ := List.mem_flatMap.1 hd
      rw [plusAsBlank, if_neg]
      · rfl
      · rintro rfl
        rcases mem_escapeByte (utf8_lt hb) hd with h | h
        · cases h
        · exact absurd h (by decide)

theorem formDecode_formEncode (s : List Char) : formDecode (formEncode s) = s := by
  have hmap : (formEncode s).map plusAsBlank = s.flatMap fun c => (formEscapeChar c).map plusAsBlank := by
    rw [formEncode, List.map_flatMap]
  have hdecode : formDecode (formEncode s) =
      utf8Decode ((percentBytes ((formEncode s).map plusAsBlank)).map fun b => b.getD 37) := rfl
  rw [hdecode, hmap, percentBytes_escaped standsFor_form, List.map_map, utf8Decode]
  have hbytes : (utf8 s).map ((fun b : Option Nat => b.getD 37) ∘ some) = utf8 s := by simp
  rw [hbytes, utf8Chars_utf8, List.map_map]
  simp

theorem formPart_spec (entry : List Char × List Char) :
    '&' ∉ formPart entry ∧ formPart entry ≠ [] ∧ (formPart entry).head? ≠ some '?' ∧
      formDecode ((formPart entry).takeWhile fun c => c != '=') = entry.1 ∧
      formDecode (((formPart entry).dropWhile fun c => c != '=').drop 1) = entry.2 := by
  have hamp : ∀ s, '&' ∉ formEncode s := notMem_formEncode (by decide) (by decide) (by decide)
  have heq : ∀ c ∈ formEncode entry.1, (c != '=') = true := fun c hc =>
    bne_iff_ne.2 fun h => notMem_formEncode (by decide) (by decide) (by decide) _ (h ▸ hc)
  unfold formPart
  refine ⟨by simp [hamp], by simp, ?_, ?_, ?_⟩
  · cases hname : formEncode entry.1 with
    | nil => simp
    | cons c cs =>
      have hquestion : '?' ∉ formEncode entry.1 := notMem_formEncode (by decide) (by decide) (by decide) _
      rw [hname, List.mem_cons, not_or] at hquestion
      rw [List.cons_append, List.head?_cons]
      exact fun h => hquestion.1 (Option.some.inj h).symm
  · rw [List.takeWhile_append_of_pos heq, List.takeWhile_cons_of_neg (by decide), List.append_nil, formDecode_formEncode]
  · rw [List.dropWhile_append_of_pos heq, List.dropWhile_cons_of_neg (by decide), List.drop_one, List.tail_cons,
      formDecode_formEncode]

theorem head?_formText (entries : List (List Char × List Char)) : (formText entries).head? ≠ some '?' := by
  unfold formText
  cases entries with
  | nil => simp
  | cons entry entries =>
    obtain ⟨-, hne, hhead, -⟩ := formPart_spec entry
    obtain ⟨c, cs, hpart⟩ := List.exists_cons_of_ne_nil hne
    rw [hpart] at hhead
    by_cases hentries : entries = []
    · subst hentries
      rw [List.map_singleton, List.intercalate_singleton, hpart]
      exact hhead
    · rw [List.map_cons, List.intercalate_cons_of_ne_nil (by simpa using hentries), hpart]
      exact hhead

theorem searchParams_formText (entries : List (List Char × List Char)) : searchParams (formText entries) = entries := by
  have hparts : ((formText entries).splitOn '&').filter (fun part => !part.isEmpty) = entries.map formPart := by
    by_cases hentries : entries = []
    · subst hentries
      rfl
    · unfold formText
      rw [List.splitOn_intercalate '&' ?_ (by simpa using hentries)]
      · rw [List.filter_eq_self]
        intro part hpart
        obtain ⟨entry, -, rfl⟩ := List.mem_map.1 hpart
        simpa using (formPart_spec entry).2.1
      · intro part hpart
        obtain ⟨entry, -, rfl⟩ := List.mem_map.1 hpart
        exact (formPart_spec entry).1
  unfold searchParams
  dsimp only
  split
  · rename_i rest heq
    have hhead := head?_formText entries
    rw [heq] at hhead
    exact absurd rfl hhead
  · rw [hparts, List.map_map]
    conv_rhs => rw [← List.map_id entries]
    apply List.map_congr_left
    intro entry _
    obtain ⟨-, -, -, hname, hvalue⟩ := formPart_spec entry
    exact Prod.ext hname hvalue

end CaeloCms.Web
