import CaeloCms.Shared.Units

/-!
# A cut that leaves ids whole

`idSafeCutIndex` looks for ids in a window around the cut.  The ids of a text are found from left to right, each after
the one before (`idStarts`), so a window that begins inside an id can show others than the text has.
`idSafeCutIndex_safe_iff` says when the cut is inside none of the text's ids.
-/

namespace CaeloCms

/-! ### Where an id stands -/

def groupsLength : List Nat → Nat
  | [] => 0
  | [n] => n
  | n :: ns => n + 1 + groupsLength ns

theorem length_of_matchesGroups : ∀ {ns : List Nat} {s : Units}, matchesGroups ns s = true → groupsLength ns ≤ s.length
  | [], _, _ => Nat.zero_le _
  | [n], s, h => by
    simp only [matchesGroups, Bool.and_eq_true, decide_eq_true_eq] at h
    exact h.1
  | n :: m :: ns, s, h => by
    simp only [matchesGroups, Bool.and_eq_true, decide_eq_true_eq] at h
    obtain ⟨⟨⟨hn, -⟩, hhyphen⟩, hrest⟩ := h
    have hlength := length_of_matchesGroups hrest
    have hlt : n < s.length := by
      by_contra hle
      rw [List.drop_eq_nil_of_le (by omega)] at hhyphen
      cases hhyphen
    rw [List.length_drop] at hlength
    simp only [groupsLength]
    omega

theorem matchesGroups_append : ∀ {ns : List Nat} {s : Units} (t : Units), groupsLength ns ≤ s.length →
    matchesGroups ns (s ++ t) = matchesGroups ns s
  | [], _, _, _ => rfl
  | [n], s, t, h => by
    have hn : n ≤ s.length := h
    simp only [matchesGroups, List.take_append_of_le_length hn, List.length_append, hn, Nat.le_add_right_of_le hn]
  | n :: m :: ns, s, t, h => by
    have hlength : n + 1 + groupsLength (m :: ns) ≤ s.length := h
    have hn : n ≤ s.length := by omega
    have hhead : ((s ++ t).drop n).head? = (s.drop n).head? := by
      rw [List.drop_append_of_le_length hn, List.head?_append_of_ne_nil]
      intro hnil
      have := List.drop_eq_nil_iff.1 hnil
      omega
    have hrest : matchesGroups (m :: ns) ((s ++ t).drop (n + 1)) = matchesGroups (m :: ns) (s.drop (n + 1)) := by
      rw [List.drop_append_of_le_length (by omega)]
      exact matchesGroups_append t (by rw [List.length_drop]; omega)
    simp only [matchesGroups] at hrest ⊢
    rw [List.take_append_of_le_length hn, hhead, hrest]
    simp [hn, Nat.le_add_right_of_le hn]

variable {text s : Units} {at_ i w : Nat}

theorem length_of_startsWithId (h : startsWithId s = true) : 36 ≤ s.length := length_of_matchesGroups h

theorem startsWithId_take (u : Units) (k : Nat) :
    startsWithId (u.take k) = true ↔ startsWithId u = true ∧ 36 ≤ k := by
  have hlength : (u.take k).length = min k u.length := List.length_take
  constructor
  · intro h
    have hlong := length_of_startsWithId h
    have happend : startsWithId (u.take k ++ u.drop k) = startsWithId (u.take k) :=
      matchesGroups_append (u.drop k) hlong
    rw [List.take_append_drop] at happend
    exact ⟨happend.trans h, by omega⟩
  · rintro ⟨h, hk⟩
    have hlong := length_of_startsWithId h
    have hfits : groupsLength UUID_PATTERN ≤ (u.take k).length := by
      rw [hlength]
      exact Nat.le_min.2 ⟨hk, hlong⟩
    have happend : startsWithId (u.take k ++ u.drop k) = startsWithId (u.take k) :=
      matchesGroups_append (u.drop k) hfits
    rw [List.take_append_drop] at happend
    exact happend.symm.trans h

theorem startsWithId_window (text : Units) (n i j : Nat) :
    startsWithId (((text.take n).drop i).drop j) = true ↔ startsWithId (text.drop (i + j)) = true ∧ i + j + 36 ≤ n := by
  rw [List.drop_drop, List.drop_take, startsWithId_take]
  exact and_congr Iff.rfl ⟨fun h => by omega, fun h => by omega⟩

/-! ### The ids of a text -/

theorem mem_idStarts : ∀ {skip base i : Nat}, i ∈ idStarts skip base s →
    ∃ j, i = base + j ∧ skip ≤ j ∧ startsWithId (s.drop j) = true := by
  induction s with
  | nil =>
    intro skip base i h
    cases skip <;> exact (List.not_mem_nil h).elim
  | cons u s ih =>
    intro skip base i h
    have hlater : ∀ {skip}, i ∈ idStarts skip (base + 1) s →
        ∃ j, i = base + j ∧ skip + 1 ≤ j ∧ startsWithId ((u :: s).drop j) = true := by
      intro skip h
      obtain ⟨j, rfl, hskip, hid⟩ := ih h
      exact ⟨j + 1, by omega, by omega, hid⟩
    cases skip with
    | succ skip => exact hlater h
    | zero =>
      rw [idStarts] at h
      split at h
      · rename_i hid
        rcases List.mem_cons.1 h with rfl | h
        · exact ⟨0, rfl, Nat.zero_le _, hid⟩
        · obtain ⟨j, hj, -, hid'⟩ := hlater h
          exact ⟨j, hj, Nat.zero_le _, hid'⟩
      · obtain ⟨j, hj, -, hid'⟩ := hlater h
        exact ⟨j, hj, Nat.zero_le _, hid'⟩

/-- An id that is not found overlaps one that is found before it. -/
theorem idStarts_covers : ∀ {skip base j : Nat}, skip ≤ j → startsWithId (s.drop j) = true →
    base + j ∈ idStarts skip base s ∨ ∃ h ∈ idStarts skip base s, h < base + j ∧ base + j < h + 36 := by
  induction s with
  | nil =>
    intro skip base j _ hid
    rw [List.drop_nil] at hid
    cases hid
  | cons u s ih =>
    intro skip base j hskip hid
    have hlater : ∀ {skip}, skip + 1 ≤ j → base + j ∈ idStarts skip (base + 1) s ∨
        ∃ h ∈ idStarts skip (base + 1) s, h < base + j ∧ base + j < h + 36 := by
      intro skip hskip
      obtain ⟨j, rfl⟩ : ∃ j', j = j' + 1 := ⟨j - 1, by omega⟩
      have hbase : base + (j + 1) = base + 1 + j := by omega
      rw [hbase]
      exact ih (by omega) hid
    cases skip with
    | succ skip => exact hlater hskip
    | zero =>
      rw [idStarts]
      by_cases hfirst : startsWithId (u :: s) = true
      · rw [if_pos hfirst]
        rcases Nat.eq_zero_or_pos j with rfl | hpos
        · exact Or.inl List.mem_cons_self
        · rcases Nat.lt_or_ge j 36 with hlt | hge
          · exact Or.inr ⟨base, List.mem_cons_self, by omega, by omega⟩
          · have hrest : base + j ∈ idStarts 35 (base + 1) s ∨
                ∃ h ∈ idStarts 35 (base + 1) s, h < base + j ∧ base + j < h + 36 := hlater (by omega)
            rcases hrest with hmem | ⟨h, hmem, hspec⟩
            · exact Or.inl (List.mem_cons_of_mem _ hmem)
            · exact Or.inr ⟨h, List.mem_cons_of_mem _ hmem, hspec⟩
      · rw [if_neg hfirst]
        refine hlater ?_
        rcases Nat.eq_zero_or_pos j with rfl | hpos
        · exact absurd hid hfirst
        · exact hpos

theorem idStarts_apart (s : Units) : ∀ skip base : Nat, (idStarts skip base s).Pairwise fun i j => i + 36 ≤ j := by
  induction s with
  | nil =>
    intro skip base
    cases skip <;> exact List.Pairwise.nil
  | cons u s ih =>
    intro skip base
    cases skip with
    | succ skip => exact ih skip (base + 1)
    | zero =>
      rw [idStarts]
      split
      · refine List.pairwise_cons.2 ⟨fun i hi => ?_, ih 35 (base + 1)⟩
        obtain ⟨j, rfl, hj, -⟩ := mem_idStarts hi
        omega
      · exact ih 0 (base + 1)

theorem eq_or_apart {skip base j : Nat} (hi : i ∈ idStarts skip base s) (hj : j ∈ idStarts skip base s) :
    i = j ∨ i + 36 ≤ j ∨ j + 36 ≤ i := by
  have hpair := idStarts_apart s skip base
  exact List.Pairwise.forall_of_forall_of_flip (R := fun i j => i = j ∨ i + 36 ≤ j ∨ j + 36 ≤ i) (fun _ _ => Or.inl rfl)
    (hpair.imp fun h => Or.inr (Or.inl h)) (hpair.imp fun h => Or.inr (Or.inr h)) hi hj

/-! ### The cut -/

/-- The cut is at most the one asked for, less than an id before it (a place past the end is the end), and inside no id
of the text. -/
structure CutSafe (text : Units) (at_ r : Nat) : Prop where
  le : r ≤ at_
  near : min at_ text.length < r + 36
  whole : ∀ i ∈ idStarts 0 0 text, ¬ (i < r ∧ r < i + 36)

/-- An id of the text reaches into the window before the cut, and the window begins with what looks like an id inside
it: one that the cut goes through, or one that hides an id of the text that the cut goes through. -/
def WindowMisleads (text : Units) (at_ : Nat) : Prop :=
  at_ < text.length ∧ ∃ h ∈ idStarts 0 0 text, h + 36 < at_ ∧ at_ < h + 72 ∧
    ((startsWithId (text.drop (at_ - 36)) = false ∧
        ∃ w, startsWithId (text.drop w) = true ∧ at_ < w + 36 ∧ w < h + 36) ∨
      (startsWithId (text.drop (at_ - 36)) = true ∧ ∃ g ∈ idStarts 0 0 text, g < at_ ∧ at_ < g + 36))

def windowIds (text : Units) (at_ : Nat) : List Nat :=
  idStarts 0 (at_ - 36) ((text.take (at_ + 36)).drop (at_ - 36))

theorem mem_windowIds (h : i ∈ windowIds text at_) :
    at_ - 36 ≤ i ∧ i ≤ at_ ∧ startsWithId (text.drop i) = true := by
  obtain ⟨j, rfl, -, hid⟩ := mem_idStarts h
  obtain ⟨hid, hle⟩ := (startsWithId_window _ _ _ _).1 hid
  exact ⟨by omega, by omega, hid⟩

theorem windowIds_covers (hlow : at_ - 36 ≤ w) (hhigh : w ≤ at_)
    (hid : startsWithId (text.drop w) = true) :
    w ∈ windowIds text at_ ∨ ∃ h ∈ windowIds text at_, h < w ∧ w < h + 36 := by
  obtain ⟨j, rfl⟩ : ∃ j, w = at_ - 36 + j := ⟨w - (at_ - 36), by omega⟩
  exact idStarts_covers (Nat.zero_le j) ((startsWithId_window _ _ _ _).2 ⟨hid, by omega⟩)

theorem first_mem_windowIds (hid : startsWithId (text.drop (at_ - 36)) = true) :
    at_ - 36 ∈ windowIds text at_ := by
  rcases windowIds_covers (Nat.le_refl _) (Nat.sub_le _ _) hid with hmem | ⟨h, hmem, hlt, -⟩
  · exact hmem
  · have hlow := (mem_windowIds hmem).1
    omega

theorem mem_ids (h : i ∈ idStarts 0 0 text) : startsWithId (text.drop i) = true := by
  obtain ⟨j, rfl, -, hid⟩ := mem_idStarts h
  rwa [Nat.zero_add]

theorem ids_cover (hid : startsWithId (text.drop w) = true) :
    w ∈ idStarts 0 0 text ∨ ∃ h ∈ idStarts 0 0 text, h < w ∧ w < h + 36 := by
  have hcovers : 0 + w ∈ idStarts 0 0 text ∨ ∃ h ∈ idStarts 0 0 text, h < 0 + w ∧ 0 + w < h + 36 :=
    idStarts_covers (Nat.zero_le w) hid
  rwa [Nat.zero_add] at hcovers

theorem safe_of_found (hlength : at_ < text.length) (hw : w ∈ windowIds text at_)
    (hlt : w < at_) (hgt : at_ < w + 36) : CutSafe text at_ w ↔ ¬ WindowMisleads text at_ := by
  have hfirst : startsWithId (text.drop (at_ - 36)) = true → at_ < 36 := by
    intro hid
    rcases eq_or_apart (first_mem_windowIds hid) hw with heq | hapart | hapart <;> omega
  constructor
  · rintro hsafe ⟨-, h, hh, hreach, hreach', hcase⟩
    rcases hcase with ⟨hno, w', hid, hlow, hhigh⟩ | ⟨hid, -⟩
    · -- the first of the window's ids lies inside `h`, and is the one that is cut
      have hfound : ∃ v ∈ windowIds text at_, at_ < v + 36 ∧ v < h + 36 := by
        have hlow' : at_ - 36 ≤ w' := by omega
        have hhigh' : w' ≤ at_ := by omega
        rcases windowIds_covers hlow' hhigh' hid with hmem | ⟨v, hmem, hvw, -⟩
        · exact ⟨w', hmem, hlow, hhigh⟩
        · obtain ⟨hvlow, -, hvid⟩ := mem_windowIds hmem
          have hne : v ≠ at_ - 36 := by
            rintro rfl
            rw [hno] at hvid
            cases hvid
          exact ⟨v, hmem, by omega, by omega⟩
      obtain ⟨v, hv, hvlow, hvhigh⟩ := hfound
      have hvw : v = w := by
        rcases eq_or_apart hv hw with heq | hapart | hapart
        · exact heq
        · omega
        · omega
      exact hsafe.whole h hh ⟨by omega, by omega⟩
    · have := hfirst hid
      omega
  · intro hleads
    refine ⟨by omega, by omega, fun h hh hin => hleads ?_⟩
    have hbefore : h < at_ - 36 := by
      by_contra hge
      have hlow : at_ - 36 ≤ h := by omega
      have hhigh : h ≤ at_ := by omega
      rcases windowIds_covers hlow hhigh (mem_ids hh) with hmem | ⟨v, hmem, hvh, hvh'⟩
      · rcases eq_or_apart hmem hw with heq | hapart | hapart <;> omega
      · have hvlow := (mem_windowIds hmem).1
        rcases eq_or_apart hmem hw with heq | hapart | hapart <;> omega
    refine ⟨hlength, h, hh, by omega, by omega, Or.inl ⟨?_, w, (mem_windowIds hw).2.2, hgt, hin.2⟩⟩
    by_contra hid
    have := hfirst (by simpa using hid)
    omega

theorem safe_of_not_found (hlength : at_ < text.length)
    (hnone : ∀ w ∈ windowIds text at_, ¬ (w < at_ ∧ at_ < w + 36)) :
    CutSafe text at_ at_ ↔ ¬ WindowMisleads text at_ := by
  constructor
  · rintro hsafe ⟨-, h, hh, hreach, hreach', hcase⟩
    rcases hcase with ⟨hno, w, hid, hlow, hhigh⟩ | ⟨-, g, hg, hcut⟩
    · have hlow' : at_ - 36 ≤ w := by omega
      have hhigh' : w ≤ at_ := by omega
      rcases windowIds_covers hlow' hhigh' hid with hmem | ⟨v, hmem, hvw, -⟩
      · exact hnone w hmem ⟨by omega, hlow⟩
      · obtain ⟨hvlow, -, hvid⟩ := mem_windowIds hmem
        have hne : v ≠ at_ - 36 := by
          rintro rfl
          rw [hno] at hvid
          cases hvid
        exact hnone v hmem ⟨by omega, by omega⟩
    · exact hsafe.whole g hg hcut
  · intro hleads
    refine ⟨Nat.le_refl _, by omega, fun g hg hcut => hleads ?_⟩
    have hlow : at_ - 36 ≤ g := by omega
    have hhigh : g ≤ at_ := by omega
    rcases windowIds_covers hlow hhigh (mem_ids hg) with hmem | ⟨v, hmem, hvg, hvg'⟩
    · exact absurd hcut (hnone g hmem)
    · -- the window's id that hides `g` ends at the cut or before, so it begins where the window does
      obtain ⟨hvlow, -, hvid⟩ := mem_windowIds hmem
      have hv := hnone v hmem
      have hstart : v = at_ - 36 := by omega
      have hat : 36 ≤ at_ := by omega
      rw [hstart] at hvid hvg hvg'
      rcases ids_cover hvid with hmem' | ⟨h, hh, hlt, hgt⟩
      · rcases eq_or_apart hmem' hg with heq | hapart | hapart <;> omega
      · exact ⟨hlength, h, hh, by omega, by omega, Or.inr ⟨hvid, g, hg, hcut⟩⟩

/-- The cut is safe unless the window misleads. -/
theorem idSafeCutIndex_safe_iff (text : Units) (at_ : Nat) :
    CutSafe text at_ (idSafeCutIndex text at_) ↔ ¬ WindowMisleads text at_ := by
  unfold idSafeCutIndex
  split
  · rename_i hzero
    subst hzero
    refine ⟨fun _ hleads => ?_, fun _ => ⟨Nat.le_refl _, by omega, fun i _ hin => by omega⟩⟩
    obtain ⟨-, h, -, hreach, -⟩ := hleads
    omega
  rename_i hpos
  split
  · rename_i hlong
    refine ⟨fun _ hleads => ?_, fun _ => ⟨hlong, by omega, fun i hi hin => ?_⟩⟩
    · have := hleads.1
      omega
    · have hlength := length_of_startsWithId (mem_ids hi)
      rw [List.length_drop] at hlength
      omega
  rename_i hlength
  have hlength : at_ < text.length := by omega
  show CutSafe text at_ (((windowIds text at_).find? fun i => i < at_ && at_ < i + 36).getD at_) ↔ _
  cases hfind : (windowIds text at_).find? fun i => i < at_ && at_ < i + 36 with
  | some w =>
    have hcut := List.find?_some hfind
    simp only [Bool.and_eq_true, decide_eq_true_eq] at hcut
    exact safe_of_found hlength (List.mem_of_find?_eq_some hfind) hcut.1 hcut.2
  | none =>
    refine safe_of_not_found hlength fun w hw hcut => ?_
    exact List.find?_eq_none.1 hfind w hw (by simp [hcut.1, hcut.2])

/-- An id and then the groups of another: the window begins inside the first, and shows one that overlaps it. -/
theorem idSafeCutIndex_splits_chain :
    ¬ CutSafe (units "aaaaaaaa-aaaa-aaaa-aaaa-aaaaaaaaaaaa-aaaa-aaaa-aaaa-aaaaaaaaaaaa") 50
      (idSafeCutIndex (units "aaaaaaaa-aaaa-aaaa-aaaa-aaaaaaaaaaaa-aaaa-aaaa-aaaa-aaaaaaaaaaaa") 50) := by
  intro hsafe
  exact hsafe.whole 0 (by decide +kernel) (by decide +kernel)

end CaeloCms
