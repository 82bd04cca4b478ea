import Mathlib

/-!
# Builds that are kept

Every build of a self-hosted target makes a directory and then prunes the old ones.  Which ones go is decided by their
names, so the directory holds the most recent builds as long as the oldest name sorts first whenever one has to go, and no
longer (`builds_kept_iff`).
-/

namespace CaeloCms.Deploy.Retention

variable {α : Type} [LinearOrder α]

/-! ### Source -/

def defaultRetainedBuilds : Nat := 5

/-- `pruneOldBuilds`: the directories that are left.  Names are in the order `sort` puts them in. -/
def pruneOldBuilds (dirs : List α) (keepRunId : α) (retain : Nat) : List α :=
  if dirs.length ≤ retain then dirs
  else
    let sorted := dirs.insertionSort (· ≤ ·)
    let toDrop := sorted.take (sorted.length - retain)
    dirs.filter fun name => name = keepRunId || name ∉ toDrop

def buildSite (retainBuilds : Nat) (dirs : List α) (runId : α) : List α :=
  if 0 < retainBuilds then pruneOldBuilds (dirs ++ [runId]) runId retainBuilds else dirs ++ [runId]

def buildsDir (retainBuilds : Nat) (made : List α) : List α := made.foldl (buildSite retainBuilds) []

/-! ### The builds that are kept -/

/-- The directory holds exactly the last `retain` builds. -/
def Kept (retain : Nat) (made : List α) : Prop := (buildsDir retain made).Perm (made.rtake retain)

/-- When a build has to go, the oldest one that is kept has the least name. -/
def OldestSortsFirst (retain : Nat) (made : List α) (runId : α) : Prop :=
  0 < retain ∧ ∀ oldest newer, made.rtake retain = oldest :: newer → newer.length + 1 = retain →
    ∀ name ∈ newer ++ [runId], oldest < name

theorem buildsDir_concat (retain : Nat) (made : List α) (runId : α) :
    buildsDir retain (made ++ [runId]) = buildSite retain (buildsDir retain made) runId := by
  simp [buildsDir]

omit [LinearOrder α] in
theorem length_rtake (retain : Nat) (made : List α) : (made.rtake retain).length = min retain made.length := by
  rw [List.rtake, List.length_drop]
  omega

omit [LinearOrder α] in
variable {retain : Nat}

theorem rtake_concat (hretain : 0 < retain) (made : List α) (runId : α) :
    (made ++ [runId]).rtake retain = made.rtake (retain - 1) ++ [runId] := by
  obtain ⟨n, rfl⟩ := Nat.exists_eq_succ_of_ne_zero (Nat.ne_of_gt hretain)
  exact List.rtake_concat_succ _ _ _

omit [LinearOrder α] in
theorem rtake_of_short {made : List α} (h : made.length < retain) :
    made.rtake retain = made ∧ made.rtake (retain - 1) = made := by
  constructor
  · rw [List.rtake, Nat.sub_eq_zero_of_le (by omega), List.drop_zero]
  · rw [List.rtake, Nat.sub_eq_zero_of_le (by omega), List.drop_zero]

omit [LinearOrder α] in
theorem rtake_of_full (hretain : 0 < retain) {made : List α} (h : retain ≤ made.length) :
    ∃ oldest newer, made.rtake retain = oldest :: newer ∧ made.rtake (retain - 1) = newer ∧
      newer.length + 1 = retain := by
  have hlen := length_rtake retain made
  rw [Nat.min_eq_left h] at hlen
  have hne : made.rtake retain ≠ [] := by
    rw [← List.length_pos_iff, hlen]
    exact hretain
  obtain ⟨oldest, newer, hsplit⟩ := List.exists_cons_of_ne_nil hne
  have htail : made.rtake (retain - 1) = (made.rtake retain).tail := by
    rw [List.rtake, List.rtake, List.tail_drop]
    congr 1
    omega
  rw [hsplit, List.length_cons] at hlen
  exact ⟨oldest, newer, hsplit, by rw [htail, hsplit, List.tail_cons], hlen⟩

/-- Of one build too many, the least name goes, unless it is the new one. -/
theorem pruneOldBuilds_full {dirs : List α} (keepRunId : α) (h : dirs.length = retain + 1) :
    ∃ least ∈ dirs, (∀ name ∈ dirs, least ≤ name) ∧
      pruneOldBuilds dirs keepRunId retain = dirs.filter fun name => name = keepRunId || name ≠ least := by
  have hperm := List.perm_insertionSort (· ≤ ·) dirs
  have hlen : (dirs.insertionSort (· ≤ ·)).length = retain + 1 := by rw [hperm.length_eq, h]
  obtain ⟨least, others, hsorted⟩ := List.exists_cons_of_length_eq_add_one hlen
  refine ⟨least, ?_, fun name hname => ?_, ?_⟩
  · rw [← hperm.mem_iff, hsorted]
    exact List.mem_cons_self
  · rw [← hperm.mem_iff, hsorted] at hname
    have hpairwise := List.pairwise_insertionSort (· ≤ ·) dirs
    rw [hsorted] at hpairwise
    rcases List.mem_cons.mp hname with rfl | hname
    · exact le_refl _
    · exact List.rel_of_pairwise_cons hpairwise hname
  · have hone : retain + 1 - retain = 1 := by omega
    unfold pruneOldBuilds
    rw [if_neg (by omega)]
    dsimp only
    rw [hlen, hone, hsorted]
    simp

theorem prune_perm_iff {oldest runId : α} {newer dirs : List α} (hnodup : (oldest :: (newer ++ [runId])).Nodup)
    (hdirs : dirs.Perm (oldest :: (newer ++ [runId]))) (hlen : newer.length + 1 = retain) :
    (pruneOldBuilds dirs runId retain).Perm (newer ++ [runId]) ↔ ∀ name ∈ newer ++ [runId], oldest < name := by
  have hlength : dirs.length = retain + 1 := by
    rw [hdirs.length_eq]
    simp [hlen]
  obtain ⟨least, hmem, hleast, hprune⟩ := pruneOldBuilds_full runId hlength
  have hfresh : oldest ∉ newer ++ [runId] := (List.nodup_cons.mp hnodup).1
  have hne : ∀ name ∈ newer ++ [runId], oldest ≠ name := fun name hname heq => hfresh (heq ▸ hname)
  have holdest : oldest ∈ dirs := hdirs.mem_iff.mpr List.mem_cons_self
  rw [hprune]
  constructor
  · intro h name hname
    have hgone : oldest ∉ dirs.filter fun name => name = runId || name ≠ least := fun hin => hfresh (h.mem_iff.mp hin)
    have heq : oldest = least := by
      by_contra hother
      exact hgone (List.mem_filter.mpr ⟨holdest, by simp [hother]⟩)
    have hle : oldest ≤ name := heq ▸ hleast name (hdirs.mem_iff.mpr (List.mem_cons_of_mem _ hname))
    exact lt_of_le_of_ne hle (hne name hname)
  · intro h
    have heq : least = oldest := by
      rcases List.mem_cons.mp (hdirs.mem_iff.mp hmem) with heq | hin
      · exact heq
      · exact absurd (hleast oldest holdest) (not_le_of_gt (h least hin))
    subst heq
    have hrun : least ≠ runId := hne runId (by simp)
    have hfilter : (least :: (newer ++ [runId])).filter (fun name => name = runId || name ≠ least) = newer ++ [runId] := by
      rw [List.filter_cons_of_neg (by simp [hrun])]
      exact List.filter_eq_self.mpr fun name hname => by simp [(hne name hname).symm]
    have hperm := hdirs.filter fun name => name = runId || name ≠ least
    rwa [hfilter] at hperm

theorem kept_concat_iff {made : List α} {runId : α} (hnodup : (made ++ [runId]).Nodup)
    (hkept : Kept retain made) : Kept retain (made ++ [runId]) ↔ OldestSortsFirst retain made runId := by
  rw [Kept, buildsDir_concat, buildSite, OldestSortsFirst]
  by_cases hretain : 0 < retain
  · rw [if_pos hretain, rtake_concat hretain]
    by_cases hshort : made.length < retain
    · -- nothing has to go
      obtain ⟨hall, hall'⟩ := rtake_of_short hshort
      have hdirs : (buildsDir retain made).Perm made := by
        rw [Kept, hall] at hkept
        exact hkept
      have hnone : ((buildsDir retain made) ++ [runId]).length ≤ retain := by
        rw [List.length_append, hdirs.length_eq]
        exact hshort
      rw [hall', hall, pruneOldBuilds, if_pos hnone]
      refine iff_of_true (hdirs.append_right _) ⟨hretain, fun oldest newer hmade hlen => ?_⟩
      rw [hmade, List.length_cons] at hshort
      omega
    · obtain ⟨oldest, newer, hsplit, hnewer, hlen⟩ := rtake_of_full hretain (Nat.le_of_not_lt hshort)
      have hdirs : (buildsDir retain made ++ [runId]).Perm (oldest :: (newer ++ [runId])) := by
        rw [Kept, hsplit] at hkept
        exact hkept.append_right _
      have hsub : (oldest :: (newer ++ [runId])).Nodup := by
        have hsublist : List.Sublist (oldest :: newer ++ [runId]) (made ++ [runId]) := by
          rw [← hsplit]
          exact (List.drop_sublist _ _).append_right _
        exact hnodup.sublist hsublist
      rw [hnewer, hsplit, prune_perm_iff hsub hdirs hlen]
      constructor
      · intro h
        refine ⟨hretain, ?_⟩
        rintro _ _ ⟨⟩ _
        exact h
      · exact fun h => h.2 oldest newer rfl hlen
  · obtain rfl : retain = 0 := by omega
    rw [if_neg hretain]
    refine iff_of_false (fun hperm => ?_) fun h => hretain h.1
    have hlength := hperm.length_eq
    simp [List.rtake] at hlength

/-- After every build the directory holds exactly the last `retain` builds, if and only if whenever a build has to go the
oldest one has the least name. -/
theorem builds_kept_iff (retain : Nat) (made : List α) (hnodup : made.Nodup) :
    (∀ done, done <+: made → Kept retain done) ↔
      ∀ done runId, done ++ [runId] <+: made → OldestSortsFirst retain done runId := by
  constructor
  · intro h done runId hdone
    have hbefore : done <+: made := (List.prefix_append _ _).trans hdone
    exact (kept_concat_iff (hnodup.sublist hdone.sublist) (h done hbefore)).mp (h _ hdone)
  · intro h done hdone
    induction done using List.reverseRecOn with
    | nil => simp [Kept, buildsDir, List.rtake]
    | append_singleton done runId ih =>
      have hbefore : done <+: made := (List.prefix_append _ _).trans hdone
      exact (kept_concat_iff (hnodup.sublist hdone.sublist) (ih hbefore)).mpr (h done runId hdone)

theorem builds_kept_iff_two :
    (∀ done, done <+: ["a", "b"] → Kept 1 done) ↔
      ∀ done runId, done ++ [runId] <+: ["a", "b"] → OldestSortsFirst 1 done runId :=
  builds_kept_iff 1 ["a", "b"] (by decide)

/-- Six builds, five of which are to be kept: the first one stays, and the second one goes. -/
theorem builds_not_kept :
    buildsDir defaultRetainedBuilds ["f", "a", "b", "c", "d", "e"] = ["f", "b", "c", "d", "e"] ∧
      ¬ ∀ done, done <+: ["f", "a", "b", "c", "d", "e"] → Kept defaultRetainedBuilds done := by
  have hdir : buildsDir defaultRetainedBuilds ["f", "a", "b", "c", "d", "e"] = ["f", "b", "c", "d", "e"] := by
    decide +kernel
  refine ⟨hdir, fun h => ?_⟩
  have hkept := h _ List.prefix_rfl
  rw [Kept, hdir] at hkept
  exact absurd (hkept.mem_iff (a := "a")) (by decide +kernel)

end CaeloCms.Deploy.Retention
