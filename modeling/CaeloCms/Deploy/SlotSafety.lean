import CaeloCms.Deploy.StagingSlots

/-!
# A slot with a manifest is exactly one build

What the last run that opened a slot has done to it, phase by phase (`PhaseInv`), as long as the operations of earlier runs do not
land in it any more and the live objects a sync copies are those of its build (`Prompt`, `servedSlot_exact`).
-/

namespace CaeloCms.Deploy

variable {β : Type} {crc32c : β → String}

/-! ### Slots and builds -/

structure Exactly (objects : AList fun _ : String => β) (entries : List (BuildEntry β)) : Prop where
  listed : ∀ e ∈ entries, objects.lookup e.path = some e.bytes
  only : ∀ path, path ∈ objects → ∃ e ∈ entries, e.path = path

def Staging.Has (s : Staging β) (run : RunId) (entries : List (BuildEntry β)) : Prop :=
  ∃ y, s.sync run = some y ∧ y.phase ≠ .acquired ∧ y.entries = entries

def HoldsBuild (has : RunId → List (BuildEntry β) → Prop) (objects : AList fun _ : String => β) (m : StagedManifest) : Prop :=
  ∃ entries, has m.runId entries ∧ m.files = entries.map (fun e => (e.path, e.hash)) ∧ Exactly objects entries

theorem HoldsBuild.mono {has has' : RunId → List (BuildEntry β) → Prop} {objects : AList fun _ : String => β}
    {m : StagedManifest} (h : HoldsBuild has objects m) (hhas : ∀ run entries, has run entries → has' run entries) :
    HoldsBuild has' objects m := by
  obtain ⟨entries, hrun, hfiles, hexact⟩ := h
  exact ⟨entries, hhas _ _ hrun, hfiles, hexact⟩

def BuildEntry.source (e : BuildEntry β) : CopySource β := if e.inPrefix then .staged e.bytes else .live

/-- What the last run that opened a slot has done to it; `ops` are its operations in flight. -/
inductive PhaseInv (has : RunId → List (BuildEntry β) → Prop) (run : RunId) (y : SlotSync β)
    (objects : AList fun _ : String => β) (manifest : Option StagedManifest) (ops : List (SlotOp β)) : Prop
  | opening (hphase : y.phase = .opening) (htaken : y.taken = []) (hremaining : y.remaining = y.entries)
      (hops : ∀ op ∈ ops, op = .deleteManifest) (hmanifest : ∀ m, manifest = some m → y.previous = some m)
      (hgone : manifest = none ∨ ops ≠ [] ∨ y.failed = true) (hbase : ∀ m, y.previous = some m → HoldsBuild has objects m)
  | taking (hphase : y.phase = .taking) (hsplit : y.taken ++ y.remaining = y.entries)
      (hnodup : (y.taken.map (·.path)).Nodup) (hmanifest : manifest = none)
      (hops : ∀ op ∈ ops, ∃ e ∈ y.taken, op = .write e.path e.source)
      (hwritten : ∀ e ∈ y.taken, objects.lookup e.path = some e.bytes ∨ .write e.path e.source ∈ ops ∨ y.failed = true)
      (hbase : ∀ m, y.previous = some m → ∃ entries, has m.runId entries ∧
        m.files = entries.map (fun e => (e.path, e.hash)) ∧
        ∀ e₀ ∈ entries, (∀ e ∈ y.taken, e.path ≠ e₀.path) → objects.lookup e₀.path = some e₀.bytes)
  | deleting (hphase : y.phase = .deleting) (htaken : y.taken = y.entries) (hmanifest : manifest = none)
      (hops : ∀ op ∈ ops, ∃ path, op = .delete path ∧ ∀ e ∈ y.entries, e.path ≠ path)
      (hlisted : ∀ e ∈ y.entries, objects.lookup e.path = some e.bytes)
      (honly : ∀ path, path ∈ objects → (∃ e ∈ y.entries, e.path = path) ∨ .delete path ∈ ops ∨ y.failed = true)
  | saved (hphase : y.phase = .saving ∨ y.phase = .recorded) (htaken : y.taken = y.entries)
      (hops : ∀ op ∈ ops, op = .saveManifest (y.manifestOf run))
      (hmanifest : ∀ m, manifest = some m → m = y.manifestOf run)
      (hsaved : manifest = some (y.manifestOf run) ∨ y.phase = .saving ∧ (ops ≠ [] ∨ y.failed = true))
      (hexact : Exactly objects y.entries)

variable {run : RunId} {manifest : Option StagedManifest}

theorem PhaseInv.mono {has has' : RunId → List (BuildEntry β) → Prop} {y : SlotSync β}
    {objects : AList fun _ : String => β} {ops : List (SlotOp β)}
    (h : PhaseInv has run y objects manifest ops) (hhas : ∀ run entries, has run entries → has' run entries) :
    PhaseInv has' run y objects manifest ops := by
  cases h with
  | opening hphase htaken hremaining hops hmanifest hgone hbase =>
    exact .opening hphase htaken hremaining hops hmanifest hgone fun m hm => (hbase m hm).mono hhas
  | taking hphase hsplit hnodup hmanifest hops hwritten hbase =>
    refine .taking hphase hsplit hnodup hmanifest hops hwritten fun m hm => ?_
    obtain ⟨entries, hrun, hfiles, hkept⟩ := hbase m hm
    exact ⟨entries, hhas _ _ hrun, hfiles, hkept⟩
  | deleting hphase htaken hmanifest hops hlisted honly =>
    exact .deleting hphase htaken hmanifest hops hlisted honly
  | saved hphase htaken hops hmanifest hsaved hexact => exact .saved hphase htaken hops hmanifest hsaved hexact

theorem PhaseInv.fail {has : RunId → List (BuildEntry β) → Prop} {y : SlotSync β}
    {objects : AList fun _ : String => β} {ops ops' : List (SlotOp β)}
    (h : PhaseInv has run y objects manifest ops) (hops' : ∀ op ∈ ops', op ∈ ops) :
    PhaseInv has run { y with failed := true } objects manifest ops' := by
  cases h with
  | opening hphase htaken hremaining hops hmanifest hgone hbase =>
    exact .opening hphase htaken hremaining (fun op hop => hops op (hops' op hop)) hmanifest (Or.inr (Or.inr rfl)) hbase
  | taking hphase hsplit hnodup hmanifest hops hwritten hbase =>
    exact .taking hphase hsplit hnodup hmanifest (fun op hop => hops op (hops' op hop)) (fun _ _ => Or.inr (Or.inr rfl)) hbase
  | deleting hphase htaken hmanifest hops hlisted honly =>
    exact .deleting hphase htaken hmanifest (fun op hop => hops op (hops' op hop)) hlisted fun _ _ => Or.inr (Or.inr rfl)
  | saved hphase htaken hops hmanifest hsaved hexact =>
    refine .saved hphase htaken (fun op hop => hops op (hops' op hop)) hmanifest ?_ hexact
    rcases hsaved with hsaved | ⟨hsaving, _⟩
    · exact Or.inl hsaved
    · exact Or.inr ⟨hsaving, Or.inr rfl⟩

theorem PhaseInv.holds {has : RunId → List (BuildEntry β) → Prop} {y : SlotSync β}
    {objects : AList fun _ : String => β} {ops : List (SlotOp β)}
    (h : PhaseInv has run y objects manifest ops) (hhas : has run y.entries) {m : StagedManifest} (hm : manifest = some m) :
    HoldsBuild has objects m := by
  cases h with
  | opening hphase htaken hremaining hops hmanifest hgone hbase => exact hbase m (hmanifest m hm)
  | taking hphase hsplit hnodup hmanifest hops hwritten hbase =>
    rw [hmanifest] at hm
    cases hm
  | deleting hphase htaken hmanifest hops hlisted honly =>
    rw [hmanifest] at hm
    cases hm
  | saved hphase htaken hops hmanifest hsaved hexact =>
    rw [hmanifest m hm]
    refine ⟨y.entries, hhas, ?_, hexact⟩
    unfold SlotSync.manifestOf
    rw [htaken]

/-! ### Operations that land -/

section Land

variable {has : RunId → List (BuildEntry β) → Prop} {run : RunId} {y : SlotSync β} {objects : AList fun _ : String => β}
  {manifest : Option StagedManifest} {a b : List (SlotOp β)}

theorem mem_removed {op op' : SlotOp β} (h : op' ∈ a ++ op :: b) (hne : op' ≠ op) : op' ∈ a ++ b := by
  rcases List.mem_append.1 h with h | h
  · exact List.mem_append_left _ h
  · exact List.mem_append_right _ ((List.mem_cons.1 h).resolve_left hne)

theorem mem_of_removed {op op' : SlotOp β} (h : op' ∈ a ++ b) : op' ∈ a ++ op :: b := by
  rcases List.mem_append.1 h with h | h
  · exact List.mem_append_left _ h
  · exact List.mem_append_right _ (List.mem_cons_of_mem _ h)

theorem mem_landed (op : SlotOp β) : op ∈ a ++ op :: b := List.mem_append_right _ List.mem_cons_self

theorem PhaseInv.landDeleteManifest (h : PhaseInv has run y objects manifest (a ++ .deleteManifest :: b)) :
    PhaseInv has run y objects none (a ++ b) := by
  cases h with
  | opening hphase htaken hremaining hops hmanifest hgone hbase =>
    exact .opening hphase htaken hremaining (fun op hop => hops op (mem_of_removed hop)) (fun m hm => by cases hm)
      (Or.inl rfl) hbase
  | taking hphase hsplit hnodup hmanifest hops hwritten hbase =>
    obtain ⟨e, _, hop⟩ := hops _ (mem_landed _)
    cases hop
  | deleting hphase htaken hmanifest hops hlisted honly =>
    obtain ⟨path, hop, _⟩ := hops _ (mem_landed _)
    cases hop
  | saved hphase htaken hops hmanifest hsaved hexact => cases hops _ (mem_landed _)

theorem PhaseInv.landSaveManifest {m : StagedManifest}
    (h : PhaseInv has run y objects manifest (a ++ .saveManifest m :: b)) : PhaseInv has run y objects (some m) (a ++ b) := by
  cases h with
  | opening hphase htaken hremaining hops hmanifest hgone hbase => cases hops _ (mem_landed _)
  | taking hphase hsplit hnodup hmanifest hops hwritten hbase =>
    obtain ⟨e, _, hop⟩ := hops _ (mem_landed _)
    cases hop
  | deleting hphase htaken hmanifest hops hlisted honly =>
    obtain ⟨path, hop, _⟩ := hops _ (mem_landed _)
    cases hop
  | saved hphase htaken hops hmanifest hsaved hexact =>
    have hm : m = y.manifestOf run := by
      have hop := hops _ (mem_landed _)
      cases hop
      rfl
    subst hm
    exact .saved hphase htaken (fun op hop => hops op (mem_of_removed hop)) (fun m' hm' => (Option.some.inj hm').symm)
      (Or.inl rfl) hexact

theorem PhaseInv.landDelete {path : String} (h : PhaseInv has run y objects manifest (a ++ .delete path :: b)) :
    PhaseInv has run y (objects.erase path) manifest (a ++ b) := by
  cases h with
  | opening hphase htaken hremaining hops hmanifest hgone hbase => cases hops _ (mem_landed _)
  | taking hphase hsplit hnodup hmanifest hops hwritten hbase =>
    obtain ⟨e, _, hop⟩ := hops _ (mem_landed _)
    cases hop
  | deleting hphase htaken hmanifest hops hlisted honly =>
    have hstale : ∀ e ∈ y.entries, e.path ≠ path := by
      obtain ⟨path', hop, hstale⟩ := hops _ (mem_landed _)
      cases hop
      exact hstale
    refine .deleting hphase htaken hmanifest (fun op hop => hops op (mem_of_removed hop)) (fun e he => ?_) fun path' hpath' => ?_
    · rw [AList.lookup_erase_ne (hstale e he)]
      exact hlisted e he
    · obtain ⟨hne, hmem⟩ := AList.mem_erase.1 hpath'
      rcases honly path' hmem with hlisted' | hop | hfailed
      · exact Or.inl hlisted'
      · refine Or.inr (Or.inl (mem_removed hop fun heq => hne ?_))
        cases heq
        rfl
      · exact Or.inr (Or.inr hfailed)
  | saved hphase htaken hops hmanifest hsaved hexact => cases hops _ (mem_landed _)

theorem PhaseInv.landWrite {path : String} {source : CopySource β} {bytes : β}
    (hbytes : ∀ e ∈ y.entries, e.path = path → e.source = source → bytes = e.bytes)
    (h : PhaseInv has run y objects manifest (a ++ .write path source :: b)) :
    PhaseInv has run y (objects.insert path bytes) manifest (a ++ b) := by
  cases h with
  | opening hphase htaken hremaining hops hmanifest hgone hbase => cases hops _ (mem_landed _)
  | taking hphase hsplit hnodup hmanifest hops hwritten hbase =>
    obtain ⟨e, he, hop⟩ := hops _ (mem_landed _)
    have hpath : e.path = path := by
      cases hop
      rfl
    have hsource : e.source = source := by
      cases hop
      rfl
    have hentries : e ∈ y.entries := by
      rw [← hsplit]
      exact List.mem_append_left _ he
    have hebytes := hbytes e hentries hpath hsource
    refine .taking hphase hsplit hnodup hmanifest (fun op hop => hops op (mem_of_removed hop)) (fun e' he' => ?_) fun m hm => ?_
    · by_cases heq : e'.path = path
      · have hsame : e' = e := List.inj_on_of_nodup_map hnodup he' he (heq.trans hpath.symm)
        left
        rw [hsame, hpath, AList.lookup_insert, hebytes]
      · rw [AList.lookup_insert_ne heq]
        rcases hwritten e' he' with hdone | hpending | hfailed
        · exact Or.inl hdone
        · refine Or.inr (Or.inl (mem_removed hpending fun hop' => heq ?_))
          cases hop'
          rfl
        · exact Or.inr (Or.inr hfailed)
    · obtain ⟨entries, hrun, hfiles, hkept⟩ := hbase m hm
      refine ⟨entries, hrun, hfiles, fun e₀ he₀ huntaken => ?_⟩
      have hne : e₀.path ≠ path := fun heq => huntaken e he (hpath.trans heq.symm)
      rw [AList.lookup_insert_ne hne]
      exact hkept e₀ he₀ huntaken
  | deleting hphase htaken hmanifest hops hlisted honly =>
    obtain ⟨path', hop, _⟩ := hops _ (mem_landed _)
    cases hop
  | saved hphase htaken hops hmanifest hsaved hexact => cases hops _ (mem_landed _)

end Land

/-! ### The steps of a sync -/

section Steps

variable {has : RunId → List (BuildEntry β) → Prop} {run : RunId} {y : SlotSync β} {objects : AList fun _ : String => β}
  {manifest : Option StagedManifest}

theorem PhaseInv.begin (h : PhaseInv has run y objects manifest []) (hphase : y.phase = .opening) (hok : y.failed = false) :
    PhaseInv has run { y with phase := .taking } objects manifest [] := by
  cases h with
  | opening _ htaken hremaining hops hmanifest hgone hbase =>
    have hnone : manifest = none := by
      rcases hgone with hnone | hops | hfailed
      · exact hnone
      · exact absurd rfl hops
      · rw [hok] at hfailed
        cases hfailed
    refine .taking rfl ?_ ?_ hnone (fun op hop => absurd hop List.not_mem_nil) (fun e he => ?_) fun m hm => ?_
    · dsimp only
      rw [htaken, hremaining]
      rfl
    · dsimp only
      rw [htaken]
      exact List.nodup_nil
    · dsimp only at he
      rw [htaken] at he
      exact absurd he List.not_mem_nil
    · obtain ⟨entries, hrun, hfiles, hexact⟩ := hbase m hm
      exact ⟨entries, hrun, hfiles, fun e₀ he₀ _ => hexact.listed e₀ he₀⟩
  | taking hphase' => rw [hphase] at hphase'; cases hphase'
  | deleting hphase' => rw [hphase] at hphase'; cases hphase'
  | saved hphase' => rw [hphase] at hphase'; rcases hphase' with h | h <;> cases h

theorem lookup_files {entries : List (BuildEntry β)} {path hash : String}
    (h : (entries.map fun e => (e.path, e.hash)).lookup path = some hash) : ∃ e ∈ entries, e.path = path ∧ e.hash = hash := by
  induction entries with
  | nil => cases h
  | cons e entries ih =>
    rw [List.map_cons, List.lookup_cons] at h
    by_cases heq : path = e.path
    · subst heq
      rw [beq_self_eq_true] at h
      exact ⟨e, List.mem_cons_self, rfl, Option.some.inj h⟩
    · rw [beq_eq_false_iff_ne.2 heq] at h
      obtain ⟨e', he', h'⟩ := ih h
      exact ⟨e', List.mem_cons_of_mem _ he', h'⟩

theorem PhaseInv.take {ops : List (SlotOp β)} (h : PhaseInv has run y objects manifest ops) (hphase : y.phase = .taking)
    {e : BuildEntry β} {rest : List (BuildEntry β)} (hremaining : y.remaining = e :: rest)
    (hsame : ∀ m entries e₀, y.previous = some m → m.files.lookup e.path = some e.hash → has m.runId entries → e₀ ∈ entries →
      e₀.path = e.path → e₀.bytes = e.bytes) :
    PhaseInv has run (y.take run e rest).1 objects manifest (ops ++ (y.take run e rest).2.map (·.op)) := by
  cases h with
  | opening hphase' => rw [hphase] at hphase'; cases hphase'
  | deleting hphase' => rw [hphase] at hphase'; cases hphase'
  | saved hphase' => rw [hphase] at hphase'; rcases hphase' with h | h <;> cases h
  | taking _ hsplit hnodup hmanifest hops hwritten hbase =>
    unfold SlotSync.take
    by_cases htwice : (y.taken.any fun e' => e'.path == e.path) = true
    · rw [if_pos htwice]
      dsimp only
      rw [List.map_nil, List.append_nil]
      exact .taking hphase hsplit hnodup hmanifest hops (fun _ _ => Or.inr (Or.inr rfl)) hbase
    · rw [if_neg htwice]
      have hnew : ∀ e' ∈ y.taken, e'.path ≠ e.path := by
        intro e' he' heq
        exact htwice (List.any_eq_true.2 ⟨e', he', beq_iff_eq.2 heq⟩)
      have hsplit' : (y.taken ++ [e]) ++ rest = y.entries := by
        rw [← hsplit, hremaining, List.append_assoc]
        rfl
      have hnodup' : ((y.taken ++ [e]).map (·.path)).Nodup := by
        rw [List.map_append, List.nodup_append]
        refine ⟨hnodup, List.nodup_singleton _, fun p hp q hq heq => ?_⟩
        obtain ⟨e', he', rfl⟩ := List.mem_map.1 hp
        rw [List.map_singleton, List.mem_singleton] at hq
        exact hnew e' he' (heq.trans hq)
      have hbase' : ∀ m, y.previous = some m → ∃ entries, has m.runId entries ∧
          m.files = entries.map (fun e => (e.path, e.hash)) ∧
          ∀ e₀ ∈ entries, (∀ e' ∈ y.taken ++ [e], e'.path ≠ e₀.path) → objects.lookup e₀.path = some e₀.bytes := by
        intro m hm
        obtain ⟨entries, hrun, hfiles, hkept⟩ := hbase m hm
        exact ⟨entries, hrun, hfiles, fun e₀ he₀ huntaken => hkept e₀ he₀ fun e' he' => huntaken e' (List.mem_append_left _ he')⟩
      by_cases hneeds : y.needs e.path e.hash = true
      · rw [if_pos hneeds]
        dsimp only
        refine .taking hphase hsplit' hnodup' hmanifest (fun op hop => ?_) (fun e' he' => ?_) hbase'
        · rcases List.mem_append.1 hop with hop | hop
          · obtain ⟨e', he', heq⟩ := hops op hop
            exact ⟨e', List.mem_append_left _ he', heq⟩
          · rw [List.map_singleton, List.mem_singleton] at hop
            exact ⟨e, List.mem_append_right _ (List.mem_singleton_self e), hop⟩
        · rcases List.mem_append.1 he' with he' | he'
          · rcases hwritten e' he' with hdone | hpending | hfailed
            · exact Or.inl hdone
            · exact Or.inr (Or.inl (List.mem_append_left _ hpending))
            · exact Or.inr (Or.inr hfailed)
          · rw [List.mem_singleton.1 he']
            refine Or.inr (Or.inl (List.mem_append_right _ ?_))
            rw [List.map_singleton]
            exact List.mem_singleton_self _
      · -- the manifest of before has the file's hash, and the object is untouched
        rw [if_neg hneeds]
        dsimp only
        rw [List.map_nil, List.append_nil]
        refine .taking hphase hsplit' hnodup' hmanifest (fun op hop => ?_) (fun e' he' => ?_) hbase'
        · obtain ⟨e', he', heq⟩ := hops op hop
          exact ⟨e', List.mem_append_left _ he', heq⟩
        · rcases List.mem_append.1 he' with he' | he'
          · exact hwritten e' he'
          · rw [List.mem_singleton.1 he']
            have hhash : (y.previous.bind fun m => m.files.lookup e.path) = some e.hash := by
              unfold SlotSync.needs at hneeds
              simpa using hneeds
            obtain ⟨m, hm, hlookup⟩ := Option.bind_eq_some_iff.1 hhash
            obtain ⟨entries, hrun, hfiles, hkept⟩ := hbase m hm
            have hlisted := hlookup
            rw [hfiles] at hlisted
            obtain ⟨e₀, he₀, hpath, _⟩ := lookup_files hlisted
            left
            rw [← hsame m entries e₀ hm hlookup hrun he₀ hpath, ← hpath]
            exact hkept e₀ he₀ fun e' he'' => hpath ▸ hnew e' he''

theorem PhaseInv.list (h : PhaseInv has run y objects manifest []) (hphase : y.phase = .taking) (hok : y.failed = false)
    (hremaining : y.remaining = []) :
    PhaseInv has run { y with phase := .deleting } objects manifest ((y.stale objects).map .delete) := by
  cases h with
  | opening hphase' => rw [hphase] at hphase'; cases hphase'
  | deleting hphase' => rw [hphase] at hphase'; cases hphase'
  | saved hphase' => rw [hphase] at hphase'; rcases hphase' with h | h <;> cases h
  | taking _ hsplit hnodup hmanifest hops hwritten hbase =>
    have htaken : y.taken = y.entries := by
      rw [← hsplit, hremaining, List.append_nil]
    refine .deleting rfl htaken hmanifest (fun op hop => ?_) (fun e he => ?_) fun path hpath => ?_
    · obtain ⟨path, hpath, rfl⟩ := List.mem_map.1 hop
      refine ⟨path, rfl, fun e he heq => ?_⟩
      have hstale := (List.mem_filter.1 hpath).2
      have hlisted : (y.taken.any fun e => e.path == path) = true := by
        rw [htaken]
        exact List.any_eq_true.2 ⟨e, he, beq_iff_eq.2 heq⟩
      rw [hlisted] at hstale
      cases hstale
    · dsimp only at he
      rw [← htaken] at he
      rcases hwritten e he with hdone | hpending | hfailed
      · exact hdone
      · exact absurd hpending List.not_mem_nil
      · rw [hok] at hfailed
        cases hfailed
    · cases hlisted : y.taken.any fun e => e.path == path with
      | true =>
        obtain ⟨e, he, heq⟩ := List.any_eq_true.1 hlisted
        left
        dsimp only
        rw [← htaken]
        exact ⟨e, he, beq_iff_eq.1 heq⟩
      | false =>
        refine Or.inr (Or.inl (List.mem_map_of_mem (List.mem_filter.2 ⟨AList.mem_keys.1 hpath, ?_⟩)))
        rw [hlisted]
        rfl

theorem PhaseInv.save (h : PhaseInv has run y objects manifest []) (hphase : y.phase = .deleting) (hok : y.failed = false) :
    PhaseInv has run { y with phase := .saving } objects manifest [.saveManifest (y.manifestOf run)] := by
  cases h with
  | opening hphase' => rw [hphase] at hphase'; cases hphase'
  | taking hphase' => rw [hphase] at hphase'; cases hphase'
  | saved hphase' => rw [hphase] at hphase'; rcases hphase' with h | h <;> cases h
  | deleting _ htaken hmanifest hops hlisted honly =>
    refine .saved (Or.inl rfl) htaken (fun op hop => List.mem_singleton.1 hop) (fun m hm => ?_) ?_ ⟨hlisted, fun path hpath => ?_⟩
    · rw [hmanifest] at hm
      cases hm
    · exact Or.inr ⟨rfl, Or.inl (List.cons_ne_nil _ _)⟩
    · rcases honly path hpath with hlisted' | hpending | hfailed
      · exact hlisted'
      · exact absurd hpending List.not_mem_nil
      · rw [hok] at hfailed
        cases hfailed

theorem PhaseInv.record (h : PhaseInv has run y objects manifest []) (hphase : y.phase = .saving) (hok : y.failed = false) :
    PhaseInv has run { y with phase := .recorded } objects manifest [] ∧ manifest.isSome = true := by
  cases h with
  | opening hphase' => rw [hphase] at hphase'; cases hphase'
  | taking hphase' => rw [hphase] at hphase'; cases hphase'
  | deleting hphase' => rw [hphase] at hphase'; cases hphase'
  | saved _ htaken hops hmanifest hsaved hexact =>
    have hsome : manifest = some (y.manifestOf run) := by
      rcases hsaved with hsome | ⟨_, hpending | hfailed⟩
      · exact hsome
      · exact absurd rfl hpending
      · rw [hok] at hfailed
        cases hfailed
    refine ⟨.saved (Or.inr rfl) htaken (fun op hop => absurd hop List.not_mem_nil) hmanifest (Or.inl hsome) hexact, ?_⟩
    rw [hsome]
    rfl

end Steps

/-! ### Runs -/

/-- An operation lands in a slot that no later run has opened, and a copy of a live object finds the bytes of the build; a file
whose hash is that of the slot's manifest has the bytes of that build. -/
def Prompt (s : Staging β) : StageAction β → Prop
  | .land n => ∀ o, s.inFlight[n]? = some o → s.opened o.slot = some o.run ∧
      ∀ path y e, o.op = .write path .live → s.sync o.run = some y → e ∈ y.entries → e.path = path →
        s.live path = none ∨ s.live path = some e.bytes
  | .take run => ∀ y e rest m, s.sync run = some y → y.remaining = e :: rest → y.previous = some m →
      m.files.lookup e.path = some e.hash → ∀ entries e₀, s.Has m.runId entries → e₀ ∈ entries → e₀.path = e.path →
        e₀.bytes = e.bytes
  | _ => True

/-- `s` is reached by any interleaving of such steps, from any bucket without manifests. -/
inductive PromptRun (crc32c : β → String) : Staging β → Prop
  | start (live : String → Option β) (liveManifest : Option BuildManifest)
      (objects : StagingSlot → AList fun _ : String => β) : PromptRun crc32c (Staging.start live liveManifest objects)
  | step {s s' : Staging β} {a : StageAction β} (h : PromptRun crc32c s) (ha : Prompt s a)
      (hu : stageStep crc32c s a = some s') : PromptRun crc32c s'

def Staging.ops (s : Staging β) (run : RunId) : List (SlotOp β) := (s.inFlight.filter fun o => o.run == run).map (·.op)

def SyncPhase.entered : SyncPhase → Prop
  | .acquired => False
  | .uploaded => False
  | _ => True

/-- The hash of each file is that of its bytes, or it carries it in its name. -/
def Hashed (crc32c : β → String) (entries : List (BuildEntry β)) : Prop :=
  ∀ e ∈ entries, e.hash = crc32c e.bytes ∨ e.hash = "name:" ++ e.path

structure SyncOk (crc32c : β → String) (y : SlotSync β) : Prop where
  hashed : Hashed crc32c y.entries
  fresh : ¬y.phase.entered → y.taken = [] ∧ y.remaining = y.entries

structure StagingInv (crc32c : β → String) (s : Staging β) : Prop where
  unopened : ∀ slot, s.opened slot = none → s.manifest slot = none
  openers : ∀ slot run, s.opened slot = some run → ∃ y, s.sync run = some y ∧ y.slot = slot ∧
    PhaseInv s.Has run y (s.objects slot) (s.manifest slot) (s.ops run)
  ops : ∀ o ∈ s.inFlight, ∃ y, s.sync o.run = some y ∧ y.slot = o.slot ∧ y.phase.entered
  syncs : ∀ run y, s.sync run = some y → SyncOk crc32c y
  holder : ∀ run y, s.lease = some run → s.sync run = some y → s.served ≠ some y.slot ∧
    (y.phase.entered → s.opened y.slot = some run)
  served : ∀ slot, s.served = some slot → ∃ run y, s.opened slot = some run ∧ s.sync run = some y ∧ y.phase = .recorded

theorem uploadEntries_hashed (manifest : Option BuildManifest) (build : BuildFiles β) :
    Hashed crc32c (uploadEntries crc32c manifest build) := by
  intro e he
  rcases List.mem_append.1 he with he | he
  · obtain ⟨file, _, rfl⟩ := List.mem_map.1 he
    exact Or.inl rfl
  · obtain ⟨asset, _, rfl⟩ := List.mem_map.1 he
    exact Or.inr rfl

theorem StagingInv.start (live : String → Option β) (liveManifest : Option BuildManifest)
    (objects : StagingSlot → AList fun _ : String => β) : StagingInv crc32c (Staging.start live liveManifest objects) where
  unopened slot _ := rfl
  openers slot run h := by cases h
  ops o ho := absurd ho List.not_mem_nil
  syncs run y h := by cases h
  holder run y h := by cases h
  served slot h := by cases h

theorem entered_of_phaseInv {has : RunId → List (BuildEntry β) → Prop} {y : SlotSync β}
    {objects : AList fun _ : String => β} {ops : List (SlotOp β)}
    (h : PhaseInv has run y objects manifest ops) : y.phase.entered := by
  cases h with
  | opening hphase => rw [hphase]; trivial
  | taking hphase => rw [hphase]; trivial
  | deleting hphase => rw [hphase]; trivial
  | saved hphase => rcases hphase with hphase | hphase <;> (rw [hphase]; trivial)

theorem syncing_spec {s : Staging β} {phase : SyncPhase} {y : SlotSync β} (h : s.syncing run phase = some y) :
    s.sync run = some y ∧ s.lease = some run ∧ y.phase = phase ∧ y.failed = false := by
  unfold Staging.syncing at h
  obtain ⟨hsync, hcond⟩ := Option.filter_eq_some_iff.1 h
  rw [Bool.and_eq_true, Bool.and_eq_true] at hcond
  obtain ⟨⟨hlease, hphase⟩, hfailed⟩ := hcond
  refine ⟨hsync, beq_iff_eq.1 hlease, beq_iff_eq.1 hphase, ?_⟩
  simpa using hfailed

theorem quiet_ops {s : Staging β} (h : s.quiet run = true) : s.ops run = [] := by
  unfold Staging.ops
  rw [List.map_eq_nil_iff, List.filter_eq_nil_iff]
  intro o ho heq
  have hne := List.all_eq_true.1 h o ho
  rw [beq_iff_eq.1 heq] at hne
  simp at hne

structure SyncMoves (s : Staging β) (run : RunId) (y y' : SlotSync β) (calls : List (InFlight β)) (s' : Staging β) : Prop where
  was : s.sync run = some y
  sync : s'.sync = Function.update s.sync run (some y')
  inFlight : s'.inFlight = s.inFlight ++ calls
  objects : s'.objects = s.objects
  manifest : s'.manifest = s.manifest
  slot : y'.slot = y.slot
  own : ∀ o ∈ calls, o.run = run ∧ o.slot = y.slot
  entered : calls ≠ [] ∨ y.phase.entered → y'.phase.entered
  kept : y.phase = .acquired ∨ y'.phase ≠ .acquired ∧ y'.entries = y.entries

section Moves

variable {s s' : Staging β} {run : RunId} {y y' : SlotSync β} {calls : List (InFlight β)}

theorem SyncMoves.sync_self (h : SyncMoves s run y y' calls s') : s'.sync run = some y' := by
  rw [h.sync]
  exact Function.update_self _ _ _

theorem SyncMoves.sync_other (h : SyncMoves s run y y' calls s') {run' : RunId} (hne : run' ≠ run) :
    s'.sync run' = s.sync run' := by
  rw [h.sync]
  exact Function.update_of_ne hne _ _

theorem SyncMoves.has (h : SyncMoves s run y y' calls s') {run' : RunId} {entries : List (BuildEntry β)}
    (hhas : s.Has run' entries) : s'.Has run' entries := by
  obtain ⟨y₀, hy₀, hphase, hentries⟩ := hhas
  by_cases heq : run' = run
  · subst heq
    have hy : y₀ = y := Option.some.inj (hy₀.symm.trans h.was)
    subst hy
    rcases h.kept with hacquired | ⟨hphase', hentries'⟩
    · exact absurd hacquired hphase
    · exact ⟨y', h.sync_self, hphase', hentries'.trans hentries⟩
  · exact ⟨y₀, (h.sync_other heq).trans hy₀, hphase, hentries⟩

theorem SyncMoves.ops_self (h : SyncMoves s run y y' calls s') : s'.ops run = s.ops run ++ calls.map (·.op) := by
  unfold Staging.ops
  rw [h.inFlight, List.filter_append, List.map_append]
  congr 2
  rw [List.filter_eq_self]
  intro o ho
  exact beq_iff_eq.2 (h.own o ho).1

theorem SyncMoves.ops_other (h : SyncMoves s run y y' calls s') {run' : RunId} (hne : run' ≠ run) : s'.ops run' = s.ops run' := by
  unfold Staging.ops
  have hnone : calls.filter (fun o => o.run == run') = [] := by
    rw [List.filter_eq_nil_iff]
    intro o ho heq
    exact hne ((beq_iff_eq.1 heq).symm.trans (h.own o ho).1)
  rw [h.inFlight, List.filter_append, hnone, List.append_nil]

theorem SyncMoves.inFlight_ok (hs : StagingInv crc32c s) (h : SyncMoves s run y y' calls s') :
    ∀ o ∈ s'.inFlight, ∃ y, s'.sync o.run = some y ∧ y.slot = o.slot ∧ y.phase.entered := by
  intro o ho
  rw [h.inFlight] at ho
  rcases List.mem_append.1 ho with ho | ho
  · obtain ⟨y₀, hy₀, hslot, hentered⟩ := hs.ops o ho
    by_cases heq : o.run = run
    · rw [heq] at hy₀
      have hy : y₀ = y := Option.some.inj (hy₀.symm.trans h.was)
      subst hy
      rw [heq]
      exact ⟨y', h.sync_self, h.slot.trans hslot, h.entered (Or.inr hentered)⟩
    · exact ⟨y₀, (h.sync_other heq).trans hy₀, hslot, hentered⟩
  · obtain ⟨hrun, hslot⟩ := h.own o ho
    rw [hrun]
    exact ⟨y', h.sync_self, h.slot.trans hslot.symm, h.entered (Or.inl (List.ne_nil_of_mem ho))⟩

theorem SyncMoves.opener_other (hs : StagingInv crc32c s) (h : SyncMoves s run y y' calls s') {slot : StagingSlot} {run' : RunId}
    (hopened : s.opened slot = some run') (hne : run' ≠ run) : ∃ y, s'.sync run' = some y ∧ y.slot = slot ∧
      PhaseInv s'.Has run' y (s'.objects slot) (s'.manifest slot) (s'.ops run') := by
  obtain ⟨y₀, hy₀, hslot, hinv⟩ := hs.openers slot run' hopened
  refine ⟨y₀, (h.sync_other hne).trans hy₀, hslot, ?_⟩
  rw [h.objects, h.manifest, h.ops_other hne]
  exact hinv.mono fun _ _ => h.has

theorem SyncMoves.syncs (hs : StagingInv crc32c s) (h : SyncMoves s run y y' calls s') (hy' : SyncOk crc32c y') :
    ∀ run y, s'.sync run = some y → SyncOk crc32c y := by
  intro run' y₀ hy₀
  by_cases heq : run' = run
  · subst heq
    rw [h.sync_self] at hy₀
    rw [← Option.some.inj hy₀]
    exact hy'
  · rw [h.sync_other heq] at hy₀
    exact hs.syncs run' y₀ hy₀

theorem StagingInv.moves (hs : StagingInv crc32c s) (h : SyncMoves s run y y' calls s') (hopened : s'.opened = s.opened)
    (hserved : s'.served = s.served) (hlease : s'.lease = s.lease) (hok : SyncOk crc32c y')
    (hphase : s.opened y.slot = some run →
      PhaseInv s'.Has run y' (s.objects y.slot) (s.manifest y.slot) (s.ops run ++ calls.map (·.op)))
    (hrecorded : y.phase = .recorded → y'.phase = .recorded) (hentered : y'.phase.entered → y.phase.entered) :
    StagingInv crc32c s' where
  unopened slot hslot := by
    rw [hopened] at hslot
    rw [h.manifest]
    exact hs.unopened slot hslot
  openers slot run' hslot := by
    rw [hopened] at hslot
    by_cases heq : run' = run
    · subst heq
      obtain ⟨y₀, hy₀, hy₀slot, _⟩ := hs.openers slot run' hslot
      have hy : y₀ = y := Option.some.inj (hy₀.symm.trans h.was)
      subst hy
      subst hy₀slot
      refine ⟨y', h.sync_self, h.slot, ?_⟩
      rw [h.objects, h.manifest, h.ops_self]
      exact hphase hslot
    · exact h.opener_other hs hslot heq
  ops := h.inFlight_ok hs
  syncs := h.syncs hs hok
  holder run' y₀ hrun' hy₀ := by
    rw [hlease] at hrun'
    rw [hserved, hopened]
    by_cases heq : run' = run
    · subst heq
      have hy : y₀ = y' := by
        rw [h.sync_self] at hy₀
        exact (Option.some.inj hy₀).symm
      subst hy
      obtain ⟨hfree, hopen⟩ := hs.holder run' y hrun' h.was
      rw [h.slot]
      exact ⟨hfree, fun hin => hopen (hentered hin)⟩
    · rw [h.sync_other heq] at hy₀
      exact hs.holder run' y₀ hrun' hy₀
  served slot hslot := by
    rw [hserved] at hslot
    obtain ⟨run', y₀, hopener, hy₀, hphase₀⟩ := hs.served slot hslot
    rw [hopened]
    by_cases heq : run' = run
    · subst heq
      have hy : y₀ = y := Option.some.inj (hy₀.symm.trans h.was)
      subst hy
      exact ⟨run', y', hopener, h.sync_self, hrecorded hphase₀⟩
    · exact ⟨run', y₀, hopener, (h.sync_other heq).trans hy₀, hphase₀⟩

/-! ### Failures -/

theorem failRun_moves (hwas : s.sync run = some y) : SyncMoves s run y { y with failed := true } [] (s.failRun run) where
  was := hwas
  sync := by
    unfold Staging.failRun
    rw [hwas]
    rfl
  inFlight := (List.append_nil _).symm
  objects := rfl
  manifest := rfl
  slot := rfl
  own o ho := absurd ho List.not_mem_nil
  entered h := h.resolve_left fun hne => hne rfl
  kept := by
    by_cases hacquired : y.phase = .acquired
    · exact Or.inl hacquired
    · exact Or.inr ⟨hacquired, rfl⟩

theorem failRun_none (hwas : s.sync run = none) : s.failRun run = s := by
  unfold Staging.failRun
  rw [hwas, Option.map_none, ← hwas, Function.update_eq_self]

theorem StagingInv.failRun (hs : StagingInv crc32c s) (run : RunId) : StagingInv crc32c (s.failRun run) := by
  cases hwas : s.sync run with
  | none =>
    rw [failRun_none hwas]
    exact hs
  | some y =>
    have hmoves := failRun_moves hwas
    refine hs.moves hmoves rfl rfl rfl ⟨(hs.syncs run y hwas).hashed, (hs.syncs run y hwas).fresh⟩ (fun hopened => ?_) (fun h => h) fun h => h
    obtain ⟨y₀, hy₀, hslot, hinv⟩ := hs.openers y.slot run hopened
    have hy : y₀ = y := Option.some.inj (hy₀.symm.trans hwas)
    subst hy
    rw [List.map_nil, List.append_nil]
    exact (hinv.fail fun op hop => hop).mono fun _ _ => hmoves.has

/-! ### Operations that land or are lost -/

theorem ops_of_split {o : InFlight β} {l₁ l₂ : List (InFlight β)} (h : s.inFlight = l₁ ++ o :: l₂) :
    s.ops o.run = (l₁.filter fun o' => o'.run == o.run).map (·.op) ++ o.op ::
      (l₂.filter fun o' => o'.run == o.run).map (·.op) := by
  unfold Staging.ops
  rw [h, List.filter_append, List.filter_cons_of_pos (by simp), List.map_append, List.map_cons]

theorem ops_of_erased {l₁ l₂ : List (InFlight β)} (h : s.inFlight = l₁ ++ l₂) (run : RunId) :
    s.ops run = (l₁.filter fun o' => o'.run == run).map (·.op) ++ (l₂.filter fun o' => o'.run == run).map (·.op) := by
  unfold Staging.ops
  rw [h, List.filter_append, List.map_append]

theorem ops_erased_other {o : InFlight β} {l₁ l₂ : List (InFlight β)} (h : s.inFlight = l₁ ++ o :: l₂)
    (h' : s'.inFlight = l₁ ++ l₂) {run : RunId} (hne : run ≠ o.run) : s'.ops run = s.ops run := by
  unfold Staging.ops
  have hnot : ¬(o.run == run) = true := fun heq => hne (beq_iff_eq.1 heq).symm
  have hcons : (o :: l₂).filter (fun o' => o'.run == run) = l₂.filter fun o' => o'.run == run := List.filter_cons_of_neg hnot
  rw [h, h', List.filter_append, List.filter_append, hcons]

theorem split_of_getElem? {α : Type} {l : List α} {n : Nat} {a : α} (h : l[n]? = some a) :
    ∃ l₁ l₂, l = l₁ ++ a :: l₂ ∧ l.eraseIdx n = l₁ ++ l₂ := by
  obtain ⟨hlt, rfl⟩ := List.getElem?_eq_some_iff.1 h
  refine ⟨l.take n, l.drop (n + 1), ?_, List.eraseIdx_eq_take_drop_succ l n⟩
  rw [List.getElem_cons_drop, List.take_append_drop]

/-- An operation is no longer in flight; it has changed its slot at most, and only where its run was the last to open it. -/
theorem StagingInv.erased (hs : StagingInv crc32c s) {o : InFlight β} {l₁ l₂ : List (InFlight β)}
    (hsplit : s.inFlight = l₁ ++ o :: l₂) (hinFlight : s'.inFlight = l₁ ++ l₂) (hsync : s'.sync = s.sync)
    (hopened : s'.opened = s.opened) (hserved : s'.served = s.served) (hlease : s'.lease = s.lease)
    (hslots : ∀ slot, slot ≠ o.slot ∨ s.opened o.slot ≠ some o.run →
      s'.objects slot = s.objects slot ∧ s'.manifest slot = s.manifest slot)
    (hphase : ∀ y a b, s.sync o.run = some y →
      PhaseInv s.Has o.run y (s.objects o.slot) (s.manifest o.slot) (a ++ o.op :: b) →
      PhaseInv s.Has o.run y (s'.objects o.slot) (s'.manifest o.slot) (a ++ b)) : StagingInv crc32c s' := by
  have hhas : s'.Has = s.Has := by
    unfold Staging.Has
    rw [hsync]
  have hmem : o ∈ s.inFlight := by
    rw [hsplit]
    exact List.mem_append_right _ List.mem_cons_self
  refine ⟨fun slot hslot => ?_, fun slot run hslot => ?_, fun o' ho' => ?_, ?_, ?_, ?_⟩
  · rw [hopened] at hslot
    have hother : slot ≠ o.slot ∨ s.opened o.slot ≠ some o.run := by
      by_cases heq : slot = o.slot
      · right
        rw [← heq, hslot]
        exact fun h => by cases h
      · exact Or.inl heq
    rw [(hslots slot hother).2]
    exact hs.unopened slot hslot
  · rw [hopened] at hslot
    obtain ⟨y, hy, hyslot, hinv⟩ := hs.openers slot run hslot
    rw [hsync, hhas]
    refine ⟨y, hy, hyslot, ?_⟩
    by_cases hrun : run = o.run
    · subst hrun
      -- the operations of a run are all of its slot
      obtain ⟨y₀, hy₀, hslot₀, _⟩ := hs.ops o hmem
      have hyy : y₀ = y := Option.some.inj (hy₀.symm.trans hy)
      subst hyy
      have heq : slot = o.slot := hyslot.symm.trans hslot₀
      subst heq
      rw [ops_of_split hsplit] at hinv
      rw [ops_of_erased hinFlight]
      exact hphase y₀ _ _ hy hinv
    · have hother : slot ≠ o.slot ∨ s.opened o.slot ≠ some o.run := by
        by_cases heq : slot = o.slot
        · right
          rw [← heq, hslot]
          exact fun h => hrun (Option.some.inj h)
        · exact Or.inl heq
      rw [(hslots slot hother).1, (hslots slot hother).2, ops_erased_other hsplit hinFlight hrun]
      exact hinv
  · rw [hinFlight] at ho'
    rw [hsync]
    refine hs.ops o' ?_
    rw [hsplit]
    rcases List.mem_append.1 ho' with ho' | ho'
    · exact List.mem_append_left _ ho'
    · exact List.mem_append_right _ (List.mem_cons_of_mem _ ho')
  · rw [hsync]
    exact hs.syncs
  · rw [hsync, hopened, hserved, hlease]
    exact hs.holder
  · rw [hsync, hopened, hserved]
    exact hs.served

theorem StagingInv.drops (hs : StagingInv crc32c s) {o : InFlight β} {l₁ l₂ : List (InFlight β)}
    (hsplit : s.inFlight = l₁ ++ o :: l₂) : StagingInv crc32c { s.failRun o.run with inFlight := l₁ ++ l₂ } := by
  refine (hs.failRun o.run).erased hsplit rfl rfl rfl rfl rfl (fun slot _ => ⟨rfl, rfl⟩) fun y a b hy hinv => ?_
  have hfailed : y.failed = true := by
    unfold Staging.failRun at hy
    dsimp only at hy
    rw [Function.update_self] at hy
    obtain ⟨y₀, _, rfl⟩ := Option.map_eq_some_iff.1 hy
    rfl
  have hsame : { y with failed := true } = y := by rw [← hfailed]
  rw [← hsame]
  exact hinv.fail fun op hop => mem_of_removed hop

theorem StagingInv.land (hs : StagingInv crc32c s) {o : InFlight β} {l₁ l₂ : List (InFlight β)}
    (hsplit : s.inFlight = l₁ ++ o :: l₂) (howner : s.opened o.slot = some o.run)
    (hlive : ∀ path y e, o.op = .write path .live → s.sync o.run = some y → e ∈ y.entries → e.path = path →
      s.live path = none ∨ s.live path = some e.bytes) :
    StagingInv crc32c { s.effect o with inFlight := l₁ ++ l₂ } := by
  obtain ⟨run, slot, op⟩ := o
  dsimp only at howner hlive
  have hslots : ∀ {x : StagingSlot}, x ≠ slot ∨ s.opened slot ≠ some run → x ≠ slot := by
    intro x hx
    exact hx.resolve_right fun hne => hne howner
  cases op with
  | write path source =>
    -- the copy takes the bytes of the build, or its source is gone
    have hwrites : ∀ bytes : β, (∀ y e, s.sync run = some y → e ∈ y.entries → e.path = path → e.source = source →
        bytes = e.bytes) → StagingInv crc32c { s with
          objects := Function.update s.objects slot ((s.objects slot).insert path bytes), inFlight := l₁ ++ l₂ } := by
      intro bytes hbytes
      refine hs.erased hsplit rfl rfl rfl rfl rfl (fun x hx => ⟨Function.update_of_ne (hslots hx) _ _, rfl⟩)
        fun y a b hy hinv => ?_
      dsimp only
      rw [Function.update_self]
      exact hinv.landWrite fun e he hpath hsource => hbytes y e hy he hpath hsource
    cases source with
    | staged bytes =>
      refine hwrites bytes fun y e _ _ _ hsource => ?_
      unfold BuildEntry.source at hsource
      split at hsource
      · cases hsource
        rfl
      · cases hsource
    | live =>
      unfold Staging.effect
      dsimp only
      cases hbytes : s.live path with
      | none => exact hs.drops hsplit
      | some bytes =>
        refine hwrites bytes fun y e hy he hpath _ => ?_
        rcases hlive path y e rfl hy he hpath with hnone | hsome
        · rw [hbytes] at hnone
          cases hnone
        · exact Option.some.inj (hbytes.symm.trans hsome)
  | delete path =>
    refine hs.erased hsplit rfl rfl rfl rfl rfl (fun x hx => ⟨Function.update_of_ne (hslots hx) _ _, rfl⟩)
      fun y a b hy hinv => ?_
    unfold Staging.effect
    dsimp only
    rw [Function.update_self]
    exact hinv.landDelete
  | deleteManifest =>
    refine hs.erased hsplit rfl rfl rfl rfl rfl (fun x hx => ⟨rfl, Function.update_of_ne (hslots hx) _ _⟩)
      fun y a b hy hinv => ?_
    unfold Staging.effect
    dsimp only
    rw [Function.update_self]
    exact hinv.landDeleteManifest
  | saveManifest m =>
    refine hs.erased hsplit rfl rfl rfl rfl rfl (fun x hx => ⟨rfl, Function.update_of_ne (hslots hx) _ _⟩)
      fun y a b hy hinv => ?_
    unfold Staging.effect
    dsimp only
    rw [Function.update_self]
    exact hinv.landSaveManifest

/-! ### Every step -/

theorem StagingInv.phase (hs : StagingInv crc32c s) {run : RunId} {y : SlotSync β} (hy : s.sync run = some y)
    (hopened : s.opened y.slot = some run) : PhaseInv s.Has run y (s.objects y.slot) (s.manifest y.slot) (s.ops run) := by
  obtain ⟨y₀, hy₀, hslot, hinv⟩ := hs.openers y.slot run hopened
  have hyy : y₀ = y := Option.some.inj (hy₀.symm.trans hy)
  subst hyy
  exact hinv

theorem nextStagingSlot_ne (served : Option StagingSlot) : served ≠ some (nextStagingSlot served) := by
  unfold nextStagingSlot
  split
  · rename_i h
    rw [h]
    decide
  · rename_i h
    exact h

theorem StagingInv.acquire (hs : StagingInv crc32c s) (hnew : s.sync run = none) :
    StagingInv crc32c { s.setSync run { slot := nextStagingSlot s.served } with lease := some run } := by
  have hother : ∀ {run' : RunId} {y : SlotSync β}, s.sync run' = some y →
      Function.update s.sync run (some { slot := nextStagingSlot s.served }) run' = some y := by
    intro run' y hy
    have hne : run' ≠ run := by
      rintro rfl
      rw [hnew] at hy
      cases hy
    rw [Function.update_of_ne hne]
    exact hy
  have hhas : ∀ run' entries, s.Has run' entries →
      Staging.Has { s.setSync run { slot := nextStagingSlot s.served } with lease := some run } run' entries := by
    intro run' entries h
    obtain ⟨y, hy, hphase, hentries⟩ := h
    exact ⟨y, hother hy, hphase, hentries⟩
  refine ⟨hs.unopened, fun slot run' hslot => ?_, fun o ho => ?_, fun run' y hy => ?_, fun run' y hrun' hy => ?_, fun slot hslot => ?_⟩
  · obtain ⟨y, hy, hyslot, hinv⟩ := hs.openers slot run' hslot
    exact ⟨y, hother hy, hyslot, hinv.mono hhas⟩
  · obtain ⟨y, hy, h⟩ := hs.ops o ho
    exact ⟨y, hother hy, h⟩
  · have hy' : Function.update s.sync run (some { slot := nextStagingSlot s.served }) run' = some y := hy
    by_cases heq : run' = run
    · subst heq
      rw [Function.update_self] at hy'
      rw [← Option.some.inj hy']
      exact ⟨fun e he => absurd he List.not_mem_nil, fun _ => ⟨rfl, rfl⟩⟩
    · rw [Function.update_of_ne heq] at hy'
      exact hs.syncs run' y hy'
  · have heq : run' = run := (Option.some.inj hrun').symm
    subst heq
    have hy' : Function.update s.sync run' (some { slot := nextStagingSlot s.served }) run' = some y := hy
    rw [Function.update_self] at hy'
    rw [← Option.some.inj hy']
    exact ⟨nextStagingSlot_ne _, fun h => h.elim⟩
  · obtain ⟨run', y, hopener, hy, hphase⟩ := hs.served slot hslot
    exact ⟨run', y, hopener, hother hy, hphase⟩

theorem StagingInv.openSync (hs : StagingInv crc32c s) (hy : s.sync run = some y) (hlease : s.lease = some run)
    (hphase : y.phase = .uploaded)
    (h : SyncMoves s run y { y with phase := .opening, previous := s.manifest y.slot }
      (if (s.manifest y.slot).isSome then [⟨run, y.slot, .deleteManifest⟩] else []) s')
    (hopened : s'.opened = Function.update s.opened y.slot (some run)) (hserved : s'.served = s.served)
    (hlease' : s'.lease = s.lease) : StagingInv crc32c s' := by
  have hfree := (hs.holder run y hlease hy).1
  have hremaining : y.taken = [] ∧ y.remaining = y.entries := by
    refine (hs.syncs run y hy).fresh ?_
    rw [hphase]
    exact fun h => h
  have hnoops : s.ops run = [] := by
    unfold Staging.ops
    rw [List.map_eq_nil_iff, List.filter_eq_nil_iff]
    intro o ho heq
    obtain ⟨y₀, hy₀, _, hentered⟩ := hs.ops o ho
    rw [beq_iff_eq.1 heq, hy] at hy₀
    rw [← Option.some.inj hy₀, hphase] at hentered
    exact hentered
  have hnever : ∀ slot, s.opened slot ≠ some run := by
    intro slot hslot
    obtain ⟨y₀, hy₀, _, hinv⟩ := hs.openers slot run hslot
    have hyy : y₀ = y := Option.some.inj (hy₀.symm.trans hy)
    subst hyy
    have hentered := entered_of_phaseInv hinv
    rw [hphase] at hentered
    exact hentered
  refine ⟨fun slot hslot => ?_, fun slot run' hslot => ?_, h.inFlight_ok hs, h.syncs hs ⟨(hs.syncs run y hy).hashed, fun hnot => absurd trivial hnot⟩,
    fun run' y₀ hrun' hy₀ => ?_, fun slot hslot => ?_⟩
  · rw [hopened] at hslot
    have hne : slot ≠ y.slot := by
      rintro rfl
      rw [Function.update_self] at hslot
      cases hslot
    rw [Function.update_of_ne hne] at hslot
    rw [h.manifest]
    exact hs.unopened slot hslot
  · rw [hopened] at hslot
    by_cases heq : slot = y.slot
    · subst heq
      rw [Function.update_self] at hslot
      have hrun : run' = run := (Option.some.inj hslot).symm
      subst hrun
      refine ⟨_, h.sync_self, rfl, ?_⟩
      rw [h.objects, h.manifest, h.ops_self, hnoops, List.nil_append]
      refine .opening rfl hremaining.1 hremaining.2 (fun op hop => ?_) (fun m hm => hm) ?_ fun m hm => ?_
      · obtain ⟨o, ho, rfl⟩ := List.mem_map.1 hop
        split at ho
        · rw [List.mem_singleton.1 ho]
        · exact absurd ho List.not_mem_nil
      · cases hmanifest : s.manifest y.slot with
        | none => exact Or.inl rfl
        | some m => exact Or.inr (Or.inl (List.cons_ne_nil _ _))
      · -- the slot held the build of its manifest
        cases hopener : s.opened y.slot with
        | none =>
          rw [hs.unopened y.slot hopener] at hm
          cases hm
        | some run₀ =>
          obtain ⟨y₀, hy₀, hslot₀, hinv⟩ := hs.openers y.slot run₀ hopener
          have hacquired : y₀.phase ≠ .acquired := by
            intro hacq
            have hentered := entered_of_phaseInv hinv
            rw [hacq] at hentered
            exact hentered
          exact (hinv.holds ⟨y₀, hy₀, hacquired, rfl⟩ hm).mono fun _ _ => h.has
    · rw [Function.update_of_ne heq] at hslot
      exact h.opener_other hs hslot fun hrun => hnever slot (hrun ▸ hslot)
  · rw [hlease', hlease] at hrun'
    have hrun : run' = run := (Option.some.inj hrun').symm
    subst hrun
    rw [h.sync_self] at hy₀
    rw [← Option.some.inj hy₀, hserved, hopened]
    exact ⟨hfree, fun _ => Function.update_self _ _ _⟩
  · rw [hserved] at hslot
    obtain ⟨run', y₀, hopener, hy₀, hphase₀⟩ := hs.served slot hslot
    have hne : slot ≠ y.slot := by
      rintro rfl
      exact hfree hslot
    rw [hopened, Function.update_of_ne hne]
    have hrun : run' ≠ run := fun heq => hnever slot (heq ▸ hopener)
    exact ⟨run', y₀, hopener, (h.sync_other hrun).trans hy₀, hphase₀⟩

theorem StagingInv.record (hs : StagingInv crc32c s) (hy : s.sync run = some y) (hlease : s.lease = some run)
    (hphase : y.phase = .saving) (hok : y.failed = false) (hquiet : s.ops run = []) :
    StagingInv crc32c { s.setSync run { y with phase := .recorded } with served := some y.slot, lease := none } := by
  have hentered : y.phase.entered := by
    rw [hphase]
    trivial
  have hopened := (hs.holder run y hlease hy).2 hentered
  have hinv := hs.phase hy hopened
  rw [hquiet] at hinv
  have hmoves : SyncMoves s run y { y with phase := .recorded } []
      { s.setSync run { y with phase := .recorded } with served := some y.slot, lease := none } := by
    refine ⟨hy, rfl, (List.append_nil _).symm, rfl, rfl, rfl, fun o ho => absurd ho List.not_mem_nil, fun _ => trivial, ?_⟩
    exact Or.inr ⟨fun h => (by cases h), rfl⟩
  refine ⟨hs.unopened, fun slot run' hslot => ?_, hmoves.inFlight_ok hs, hmoves.syncs hs ⟨(hs.syncs run y hy).hashed, fun hnot => absurd trivial hnot⟩,
    fun run' y₀ hrun' _ => (by cases hrun'), fun slot hslot => ?_⟩
  · by_cases heq : run' = run
    · subst heq
      obtain ⟨y₀, hy₀, hslot₀, _⟩ := hs.openers slot run' hslot
      have hyy : y₀ = y := Option.some.inj (hy₀.symm.trans hy)
      subst hyy
      subst hslot₀
      refine ⟨_, hmoves.sync_self, rfl, ?_⟩
      rw [hmoves.ops_self, hquiet]
      exact (hinv.record hphase hok).1.mono fun _ _ => hmoves.has
    · exact hmoves.opener_other hs hslot heq
  · have hsame : slot = y.slot := (Option.some.inj hslot).symm
    subst hsame
    exact ⟨run, _, hopened, hmoves.sync_self, rfl⟩

theorem entered_of_phase {y : SlotSync β} {phase : SyncPhase} (h : y.phase = phase) (hphase : phase.entered) : y.phase.entered := by
  rw [h]
  exact hphase

theorem StagingInv.advance (hs : StagingInv crc32c s) (hy : s.sync run = some y) (hlease : s.lease = some run)
    (hentered : y.phase.entered) (hentered' : y'.phase.entered) (hnot : y.phase ≠ .recorded) (hentries : y'.entries = y.entries)
    (hslot : y'.slot = y.slot) (hown : ∀ o ∈ calls, o.run = run ∧ o.slot = y.slot)
    (hphase : PhaseInv s.Has run y (s.objects y.slot) (s.manifest y.slot) (s.ops run) →
      PhaseInv s.Has run y' (s.objects y.slot) (s.manifest y.slot) (s.ops run ++ calls.map (·.op))) :
    StagingInv crc32c { s.setSync run y' with inFlight := s.inFlight ++ calls } := by
  have hnacq : y'.phase ≠ .acquired := by
    intro h
    rw [h] at hentered'
    exact hentered'
  have hmoves : SyncMoves s run y y' calls { s.setSync run y' with inFlight := s.inFlight ++ calls } :=
    ⟨hy, rfl, rfl, rfl, rfl, hslot, hown, fun _ => hentered', Or.inr ⟨hnacq, hentries⟩⟩
  have hok : SyncOk crc32c y' := by
    refine ⟨?_, fun h => absurd hentered' h⟩
    rw [hentries]
    exact (hs.syncs run y hy).hashed
  refine hs.moves hmoves rfl rfl rfl hok (fun hopened => ?_) (fun h => absurd h hnot) fun _ => hentered
  exact (hphase (hs.phase hy hopened)).mono fun _ _ => hmoves.has

theorem StagingInv.upload (hs : StagingInv crc32c s) (hy : s.sync run = some y) (hphase : y.phase = .acquired)
    (build : BuildFiles β) : StagingInv crc32c (s.setSync run { y with
      phase := .uploaded, entries := uploadEntries crc32c s.liveManifest build
      remaining := uploadEntries crc32c s.liveManifest build }) := by
  have hnot : ¬y.phase.entered := by
    rw [hphase]
    exact fun h => h
  have htaken := ((hs.syncs run y hy).fresh hnot).1
  have hmoves : SyncMoves s run y { y with
      phase := .uploaded, entries := uploadEntries crc32c s.liveManifest build
      remaining := uploadEntries crc32c s.liveManifest build } []
      (s.setSync run { y with
        phase := .uploaded, entries := uploadEntries crc32c s.liveManifest build
        remaining := uploadEntries crc32c s.liveManifest build }) := by
    refine ⟨hy, rfl, (List.append_nil _).symm, rfl, rfl, rfl, fun o ho => absurd ho List.not_mem_nil, fun h => ?_, Or.inl hphase⟩
    exact absurd (h.resolve_left fun hne => hne rfl) hnot
  refine hs.moves hmoves rfl rfl rfl ⟨uploadEntries_hashed _ build, fun _ => ⟨htaken, rfl⟩⟩ (fun hopened => ?_)
    (fun h => ?_) fun h => absurd h fun h => h
  · have hentered := entered_of_phaseInv (hs.phase hy hopened)
    exact absurd hentered hnot
  · rw [hphase] at h
    cases h

theorem take_fst (y : SlotSync β) (run : RunId) (e : BuildEntry β) (rest : List (BuildEntry β)) :
    (y.take run e rest).1.phase = y.phase ∧ (y.take run e rest).1.entries = y.entries ∧ (y.take run e rest).1.slot = y.slot ∧
      ∀ o ∈ (y.take run e rest).2, o.run = run ∧ o.slot = y.slot := by
  unfold SlotSync.take
  split
  · exact ⟨rfl, rfl, rfl, fun o ho => absurd ho List.not_mem_nil⟩
  · dsimp only
    split
    · refine ⟨rfl, rfl, rfl, fun o ho => ?_⟩
      rw [List.mem_singleton.1 ho]
      exact ⟨rfl, rfl⟩
    · exact ⟨rfl, rfl, rfl, fun o ho => absurd ho List.not_mem_nil⟩

theorem StagingInv.step {a : StageAction β} (hs : StagingInv crc32c s) (ha : Prompt s a) (hu : stageStep crc32c s a = some s') :
    StagingInv crc32c s' := by
  cases a with
  | acquire run =>
    simp only [stageStep] at hu
    split at hu
    · rename_i hfree
      cases hu
      rw [Bool.and_eq_true] at hfree
      exact hs.acquire (Option.isNone_iff_eq_none.1 hfree.2)
    · cases hu
  | upload run build =>
    obtain ⟨y, hy, rfl⟩ := Option.map_eq_some_iff.1 hu
    obtain ⟨hsync, _, hphase, _⟩ := syncing_spec hy
    dsimp only
    split
    · exact hs.upload hsync hphase build
    · exact hs.failRun run
  | openSync run =>
    obtain ⟨y, hy, rfl⟩ := Option.map_eq_some_iff.1 hu
    obtain ⟨hsync, hlease, hphase, _⟩ := syncing_spec hy
    refine hs.openSync hsync hlease hphase ⟨hsync, rfl, rfl, rfl, rfl, rfl, fun o ho => ?_, fun _ => trivial, ?_⟩ rfl rfl rfl
    · split at ho
      · rw [List.mem_singleton.1 ho]
        exact ⟨rfl, rfl⟩
      · exact absurd ho List.not_mem_nil
    · exact Or.inr ⟨fun h => (by cases h), rfl⟩
  | begin run =>
    obtain ⟨y, hy, hu⟩ := Option.bind_eq_some_iff.1 hu
    obtain ⟨hsync, hlease, hphase, hok⟩ := syncing_spec hy
    split at hu
    · rename_i hquiet
      cases hu
      have hadvance : StagingInv crc32c
          { s.setSync run { y with phase := .taking } with inFlight := s.inFlight ++ [] } := by
        refine hs.advance hsync hlease (entered_of_phase hphase trivial) trivial (by rw [hphase]; exact fun h => by cases h) rfl rfl
          (fun o ho => absurd ho List.not_mem_nil) fun hinv => ?_
        rw [quiet_ops hquiet] at hinv ⊢
        exact hinv.begin hphase hok
      rw [List.append_nil] at hadvance
      exact hadvance
    · cases hu
  | take run =>
    obtain ⟨y, hy, hu⟩ := Option.bind_eq_some_iff.1 hu
    obtain ⟨hsync, hlease, hphase, hok⟩ := syncing_spec hy
    split at hu
    · cases hu
    · rename_i e rest hremaining
      cases hu
      obtain ⟨htphase, htentries, htslot, htown⟩ := take_fst y run e rest
      refine hs.advance hsync hlease (entered_of_phase hphase trivial) (entered_of_phase (htphase.trans hphase) trivial)
        (by rw [hphase]; exact fun h => by cases h) htentries htslot htown fun hinv => ?_
      refine hinv.take hphase hremaining fun m entries e₀ hm hlookup hrun he₀ hpath => ?_
      exact ha y e rest m hsync hremaining hm hlookup entries e₀ hrun he₀ hpath
  | list run =>
    obtain ⟨y, hy, hu⟩ := Option.bind_eq_some_iff.1 hu
    obtain ⟨hsync, hlease, hphase, hok⟩ := syncing_spec hy
    split at hu
    · rename_i hcond
      cases hu
      rw [Bool.and_eq_true] at hcond
      have hremaining : y.remaining = [] := List.isEmpty_iff.1 hcond.1
      refine hs.advance hsync hlease (entered_of_phase hphase trivial) trivial (by rw [hphase]; exact fun h => by cases h) rfl rfl
        (fun o ho => ?_) fun hinv => ?_
      · obtain ⟨path, _, rfl⟩ := List.mem_map.1 ho
        exact ⟨rfl, rfl⟩
      · rw [quiet_ops hcond.2] at hinv ⊢
        rw [List.nil_append, List.map_map]
        exact hinv.list hphase hok hremaining
    · cases hu
  | save run =>
    obtain ⟨y, hy, hu⟩ := Option.bind_eq_some_iff.1 hu
    obtain ⟨hsync, hlease, hphase, hok⟩ := syncing_spec hy
    split at hu
    · rename_i hquiet
      cases hu
      refine hs.advance hsync hlease (entered_of_phase hphase trivial) trivial (by rw [hphase]; exact fun h => by cases h) rfl rfl
        (fun o ho => ?_) fun hinv => ?_
      · rw [List.mem_singleton.1 ho]
        exact ⟨rfl, rfl⟩
      · rw [quiet_ops hquiet] at hinv ⊢
        exact hinv.save hphase hok
    · cases hu
  | record run =>
    obtain ⟨y, hy, hu⟩ := Option.bind_eq_some_iff.1 hu
    obtain ⟨hsync, hlease, hphase, hok⟩ := syncing_spec hy
    split at hu
    · rename_i hquiet
      cases hu
      exact hs.record hsync hlease hphase hok (quiet_ops hquiet)
    · cases hu
  | stop run =>
    simp only [stageStep] at hu
    split at hu
    · cases hu
      exact ⟨hs.unopened, hs.openers, hs.ops, hs.syncs, fun run' y h => (by cases h), hs.served⟩
    · cases hu
  | land n =>
    obtain ⟨o, ho, rfl⟩ := Option.map_eq_some_iff.1 hu
    obtain ⟨l₁, l₂, hsplit, herase⟩ := split_of_getElem? ho
    obtain ⟨howner, hlive⟩ := ha o ho
    rw [herase]
    exact hs.land hsplit howner hlive
  | drop n =>
    obtain ⟨o, ho, rfl⟩ := Option.map_eq_some_iff.1 hu
    obtain ⟨l₁, l₂, hsplit, herase⟩ := split_of_getElem? ho
    rw [herase]
    exact hs.drops hsplit
  | timeout run =>
    cases hu
    exact hs.failRun run
  | writeLive path body =>
    cases hu
    exact ⟨hs.unopened, hs.openers, hs.ops, hs.syncs, hs.holder, hs.served⟩
  | writeLiveManifest manifest =>
    cases hu
    exact ⟨hs.unopened, hs.openers, hs.ops, hs.syncs, hs.holder, hs.served⟩

theorem StagingInv.of_run (h : PromptRun crc32c s) : StagingInv crc32c s := by
  induction h with
  | start live liveManifest objects => exact StagingInv.start live liveManifest objects
  | step _ ha hu ih => exact ih.step ha hu

/-- The slot is the build of its manifest: every object is listed and has the bytes of the build with the recorded hash, and every
listed file exists. -/
structure SlotHolds (crc32c : β → String) (s : Staging β) (slot : StagingSlot) (m : StagedManifest) (entries : List (BuildEntry β)) :
    Prop where
  run : s.Has m.runId entries
  files : m.files = entries.map fun e => (e.path, e.hash)
  hashed : Hashed crc32c entries
  exactly : Exactly (s.objects slot) entries

/-- **The served staging slot is exactly one build**: in a run whose steps are prompt, a slot with a manifest is exactly the build
of its run, and staging serves a slot with a manifest. -/
theorem servedSlot_exact (h : PromptRun crc32c s) :
    (∀ slot m, s.manifest slot = some m → ∃ entries, SlotHolds crc32c s slot m entries) ∧
      ∀ slot, s.served = some slot → ∃ m, s.manifest slot = some m := by
  have hs := StagingInv.of_run h
  refine ⟨fun slot m hm => ?_, fun slot hslot => ?_⟩
  · cases hopener : s.opened slot with
    | none =>
      rw [hs.unopened slot hopener] at hm
      cases hm
    | some run =>
      obtain ⟨y, hy, hyslot, hinv⟩ := hs.openers slot run hopener
      have hacquired : y.phase ≠ .acquired := by
        intro hacq
        have hentered := entered_of_phaseInv hinv
        rw [hacq] at hentered
        exact hentered
      obtain ⟨entries, hrun, hfiles, hexact⟩ := hinv.holds ⟨y, hy, hacquired, rfl⟩ hm
      have hupload := hrun
      obtain ⟨y₀, hy₀, _, hentries⟩ := hupload
      have hhashed := (hs.syncs _ y₀ hy₀).hashed
      rw [hentries] at hhashed
      exact ⟨entries, hrun, hfiles, hhashed, hexact⟩
  · obtain ⟨run, y, hopener, hy, hphase⟩ := hs.served slot hslot
    obtain ⟨y₀, hy₀, _, hinv⟩ := hs.openers slot run hopener
    have hyy : y₀ = y := Option.some.inj (hy₀.symm.trans hy)
    subst hyy
    cases hinv with
    | opening hphase' => rw [hphase] at hphase'; cases hphase'
    | taking hphase' => rw [hphase] at hphase'; cases hphase'
    | deleting hphase' => rw [hphase] at hphase'; cases hphase'
    | saved _ htaken hops hmanifest hsaved hexact =>
      rcases hsaved with hsome | ⟨hsaving, _⟩
      · exact ⟨_, hsome⟩
      · rw [hphase] at hsaving
        cases hsaving

end Moves

/-! ### Stages of a small site -/

def stageRun (crc32c : β → String) (s : Staging β) : List (StageAction β) → Option (Staging β)
  | [] => some s
  | a :: as => (stageStep crc32c s a).bind fun s' => stageRun crc32c s' as

def emptyBucket : Staging String := Staging.start (fun _ => none) none (fun _ => ∅)

def onePage (body : String) : BuildFiles String := ⟨[{ relPath := "index.html", body := body }], []⟩

/-- A Stage of one page that is not live. -/
theorem servedSlot_exact_first : ∃ s : Staging String, s.served = some .a ∧
    s.manifest .a = some ⟨"r1", [("index.html", "A")]⟩ ∧ ∃ entries, SlotHolds id s .a ⟨"r1", [("index.html", "A")]⟩ entries := by
  have hstart : PromptRun id emptyBucket := .start _ _ _
  have hacquire := hstart.step (a := .acquire "r1") trivial rfl
  have hupload := hacquire.step (a := .upload "r1" (onePage "A")) trivial rfl
  have hopen := hupload.step (a := .openSync "r1") trivial rfl
  have hbegin := hopen.step (a := .begin "r1") trivial rfl
  have htake := hbegin.step (a := .take "r1") (fun y e rest m hy _ hprevious => by cases hy; cases hprevious) rfl
  have hcopy := htake.step (a := .land 0) (fun o ho => by cases ho; exact ⟨rfl, fun path y e hop => by cases hop⟩) rfl
  have hlist := hcopy.step (a := .list "r1") trivial rfl
  have hsave := hlist.step (a := .save "r1") trivial rfl
  have hmanifest := hsave.step (a := .land 0) (fun o ho => by cases ho; exact ⟨rfl, fun path y e hop => by cases hop⟩) rfl
  have hrecord := hmanifest.step (a := .record "r1") trivial rfl
  exact ⟨_, rfl, rfl, (servedSlot_exact hrecord).1 .a _ rfl⟩

def replacedLive : List (StageAction String) :=
  [.writeLive "index.html" (some "A"), .writeLiveManifest (some [("index.html", "A")]), .acquire "r1", .upload "r1" (onePage "A"),
    .writeLive "index.html" (some "B"), .openSync "r1", .begin "r1", .take "r1", .land 0, .list "r1", .save "r1", .land 0,
    .record "r1"]

def lateCopy : List (StageAction String) :=
  [.acquire "r1", .upload "r1" (onePage "A"), .openSync "r1", .begin "r1", .take "r1", .timeout "r1", .stop "r1",
    .acquire "r2", .upload "r2" (onePage "B"), .openSync "r2", .begin "r2", .take "r2", .land 1, .list "r2", .save "r2", .land 1,
    .record "r2", .land 0]

def replacedStaging : Staging String := (stageRun id emptyBucket replacedLive).get (by decide)

def lateStaging : Staging String := (stageRun id emptyBucket lateCopy).get (by decide)

/-- Both slots are served, and neither holds the build of its manifest. -/
theorem servedSlot_mixed :
    (stageRun id emptyBucket replacedLive = some replacedStaging ∧ replacedStaging.served = some .a ∧
      replacedStaging.manifest .a = some ⟨"r1", [("index.html", "A")]⟩ ∧
      (replacedStaging.objects .a).lookup "index.html" = some "B") ∧
    stageRun id emptyBucket lateCopy = some lateStaging ∧ lateStaging.served = some .a ∧
      lateStaging.manifest .a = some ⟨"r2", [("index.html", "B")]⟩ ∧
      (lateStaging.objects .a).lookup "index.html" = some "A" := by
  refine ⟨⟨(Option.some_get _).symm, by decide, by decide, by decide⟩, (Option.some_get _).symm, by decide, by decide, by decide⟩

end CaeloCms.Deploy
