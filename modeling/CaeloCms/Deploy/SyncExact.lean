import CaeloCms.Deploy.SyncContents

/-!
# What a mirrored build leaves

Every pass has an outline: what is true before, at each call and after each worker, whatever the others do meanwhile.
-/

namespace CaeloCms.Deploy.Sync

open FileTree Tasks

variable {src dst t t' : Tree} {faulty : Path → Prop} {rel path q : Path}

/-! ### Listings -/

theorem length_le_height (h : t.get q ≠ none) : q.length ≤ height t := by
  obtain ⟨e, he, hq⟩ : ∃ e ∈ t.entries, e.1 = q := by
    by_contra hno
    push Not at hno
    refine h ?_
    show (t.entries.find? _).map _ = none
    rw [Option.map_eq_none_iff, List.find?_eq_none]
    exact fun e he => by simpa using hno e he
  unfold height
  rw [← hq]
  have hmem : e.1.length ∈ t.entries.map fun e => e.1.length := List.mem_map.mpr ⟨e, he, rfl⟩
  generalize t.entries.map (fun e => e.1.length) = lengths at hmem
  induction lengths with
  | nil => exact absurd hmem List.not_mem_nil
  | cons n lengths ih =>
    rcases List.mem_cons.mp hmem with rfl | hmem
    · exact le_max_left _ _
    · exact (ih hmem).trans (le_max_right _ _)

/-- `q` stands below `rel`, no deeper than that. -/
def Within (depth : Nat) (rel q : Path) : Prop := rel <:+ q ∧ rel ≠ q ∧ q.length ≤ rel.length + depth

variable {reply : Except Errno Unit} {op : Call} {dirs : List Path} {depth : Nat}

theorem within_succ :
    Within (depth + 1) rel q ↔ ∃ name, name :: rel = q ∨ Within depth (name :: rel) q := by
  constructor
  · rintro ⟨⟨outer, rfl⟩, hne, hlen⟩
    rcases List.eq_nil_or_concat outer with rfl | ⟨outer, name, rfl⟩
    · exact absurd rfl hne
    · refine ⟨name, ?_⟩
      rcases outer with _ | ⟨o, outer⟩
      · exact .inl rfl
      · refine .inr ⟨⟨o :: outer, by simp⟩, ?_, ?_⟩
        · intro heq
          have := congrArg List.length heq
          simp at this
          omega
        · simp at hlen ⊢
          omega
  · rintro ⟨name, rfl | ⟨hbelow, hne, hlen⟩⟩
    · exact ⟨List.suffix_cons _ _, fun h => by simpa using congrArg List.length h, by simp⟩
    · refine ⟨(List.suffix_cons _ _).trans hbelow, ?_, by simpa [Nat.add_assoc, Nat.add_comm 1] using hlen⟩
      rintro rfl
      have := hbelow.length_le
      simp at this

theorem mem_walk (t : Tree) (depth : Nat) (rel q : Path) :
    (q ∈ (walk t depth rel).files ↔ Within depth rel q ∧ ∃ bytes, t.get q = some (.file bytes)) ∧
      (q ∈ (walk t depth rel).dirs ↔ Within depth rel q ∧ t.get q = some .dir) := by
  induction depth generalizing rel with
  | zero =>
    have hnot : ¬ Within 0 rel q := fun h => h.2.1 (h.1.eq_of_length_le (by simpa using h.2.2))
    simp [walk, hnot]
  | succ depth ih =>
    have hchild : ∀ name, Within depth (name :: rel) q → t.get q ≠ none → t.get (name :: rel) = some .dir := by
      intro name hwithin hq
      exact (Tree.get_above hq hwithin.1).resolve_left hwithin.2.1
    constructor
    · simp only [walk, List.mem_flatMap, List.mem_map, Tree.mem_names, exists_exists_and_eq_and]
      rw [within_succ]
      constructor
      · rintro ⟨name, hname, hmem⟩
        split at hmem
        next hdir =>
          obtain ⟨hwithin, hfile⟩ := (ih (name :: rel)).1.mp hmem
          exact ⟨⟨name, .inr hwithin⟩, hfile⟩
        next hdir =>
          rw [List.mem_singleton.mp hmem]
          refine ⟨⟨name, .inl rfl⟩, ?_⟩
          cases hget : t.get (name :: rel) with
          | none => exact absurd hget hname
          | some node =>
            cases node with
            | dir => exact absurd hget hdir
            | file bytes => exact ⟨bytes, rfl⟩
      · rintro ⟨⟨name, rfl | hwithin⟩, bytes, hfile⟩
        · exact ⟨name, by rw [hfile]; simp, by rw [if_neg (by rw [hfile]; simp)]; exact List.mem_singleton.mpr rfl⟩
        · have hdir := hchild name hwithin (by rw [hfile]; simp)
          refine ⟨name, by rw [hdir]; simp, ?_⟩
          rw [if_pos hdir]
          exact (ih (name :: rel)).1.mpr ⟨hwithin, bytes, hfile⟩
    · simp only [walk, List.mem_flatMap, List.mem_map, Tree.mem_names, exists_exists_and_eq_and]
      rw [within_succ]
      constructor
      · rintro ⟨name, hname, hmem⟩
        split at hmem
        next hdir =>
          rcases List.mem_cons.mp hmem with rfl | hmem
          · exact ⟨⟨name, .inl rfl⟩, hdir⟩
          · obtain ⟨hwithin, hq⟩ := (ih (name :: rel)).2.mp hmem
            exact ⟨⟨name, .inr hwithin⟩, hq⟩
        next => exact absurd hmem List.not_mem_nil
      · rintro ⟨⟨name, rfl | hwithin⟩, hq⟩
        · exact ⟨name, by rw [hq]; simp, by rw [if_pos hq]; exact List.mem_cons_self⟩
        · have hdir := hchild name hwithin (by rw [hq]; simp)
          refine ⟨name, by rw [hdir]; simp, ?_⟩
          rw [if_pos hdir]
          exact List.mem_cons_of_mem _ ((ih (name :: rel)).2.mpr ⟨hwithin, hq⟩)

theorem within_height (hq : t.get q ≠ none) : Within (height t) [] q ↔ q ≠ [] :=
  ⟨fun h => Ne.symm h.2.1, fun h => ⟨List.nil_suffix, Ne.symm h, by simpa using length_le_height hq⟩⟩

theorem mem_listTree_files : q ∈ (listTree t).files ↔ ∃ bytes, t.get q = some (.file bytes) := by
  rw [listTree, (mem_walk t (height t) [] q).1]
  refine and_iff_right_of_imp ?_
  rintro ⟨bytes, hfile⟩
  rw [within_height (by rw [hfile]; simp)]
  rintro rfl
  rw [Tree.get_root] at hfile
  cases hfile

theorem mem_listTree_dirs : q ∈ (listTree t).dirs ↔ q ≠ [] ∧ t.get q = some .dir := by
  rw [listTree, (mem_walk t (height t) [] q).2]
  refine and_congr_left fun hdir => within_height (by rw [hdir]; simp)

theorem mem_source_files :
    rel ∈ (sourceOf src).files ↔ (∃ bytes, src.get rel = some (.file bytes)) ∧ rel ∉ buildInternalFiles := by
  show rel ∈ (listTree src).files.filter _ ↔ _
  rw [List.mem_filter, mem_listTree_files, decide_eq_true_eq]

theorem mem_source_dirs : rel ∈ (sourceOf src).dirs ↔ rel ≠ [] ∧ src.get rel = some .dir := mem_listTree_dirs

/-! ### What a call does -/

theorem performs_stat {reply : Except Errno Node} (h : Performs src faulty (.stat path) t reply t') :
    reply = t.stat path ∧ t' = t := by
  rcases h with _ | ⟨_, _, _, hremoves, _⟩
  · exact ⟨rfl, rfl⟩
  · cases hremoves

theorem performs_statSrc {reply : Except Errno Node} (h : Performs src faulty (.statSrc path) t reply t') :
    reply = src.stat path ∧ t' = t := by
  rcases h with _ | ⟨_, _, _, hremoves, _⟩
  · exact ⟨rfl, rfl⟩
  · cases hremoves

theorem performs_readdir {reply : Except Errno (List String)} (h : Performs src faulty (.readdir path) t reply t') :
    reply = t.readdir path ∧ t' = t := by
  rcases h with _ | ⟨_, _, _, hremoves, _⟩
  · exact ⟨rfl, rfl⟩
  · cases hremoves

theorem changing_cases (t : Tree) (result : Except Errno Tree) :
    (∃ t', result = .ok t' ∧ changing t result = (.ok (), t')) ∨
      ∃ e, result = .error e ∧ changing t result = (.error e, t) := by
  cases result with
  | ok t' => exact .inl ⟨t', rfl, rfl⟩
  | error e => exact .inr ⟨e, rfl, rfl⟩

theorem performs_mkdir (h : Performs src faulty (.mkdir path) t reply t') :
    (∃ made, t.mkdir path = .ok made ∧ reply = .ok () ∧ t' = made.1) ∨
      ∃ e, t.mkdir path = .error e ∧ reply = .error e ∧ t' = t := by
  rcases h with _ | ⟨_, _, _, hremoves, _⟩
  · cases hmade : t.mkdir path with
    | ok made => exact .inl ⟨made, rfl, by simp [perform, hmade, Except.map, changing], by simp [perform, hmade, Except.map, changing]⟩
    | error e => exact .inr ⟨e, rfl, by simp [perform, hmade, Except.map, changing], by simp [perform, hmade, Except.map, changing]⟩
  · cases hremoves

theorem performs_copyFile {bytes : List UInt8} (hbuilt : src.get rel = some (.file bytes))
    (h : Performs src faulty (.copyFile rel) t reply t') :
    (t.writeFile rel bytes = .ok t' ∧ reply = .ok ()) ∨ ∃ e, t.writeFile rel bytes = .error e ∧ reply = .error e ∧ t' = t := by
  rcases h with _ | ⟨_, _, _, hremoves, _⟩
  · have hstat : src.stat rel = .ok (.file bytes) := Tree.stat_eq_ok.mpr hbuilt
    have hperform : perform src (.copyFile rel) t = changing t (t.writeFile rel bytes) := by
      unfold perform
      dsimp only
      rw [hstat]
    rw [hperform]
    rcases changing_cases t (t.writeFile rel bytes) with ⟨t', hok, hch⟩ | ⟨e, herr, hch⟩
    · exact .inl ⟨by rw [hch, hok], by rw [hch]⟩
    · exact .inr ⟨e, herr, by rw [hch], by rw [hch]⟩
  · cases hremoves

def Removal (faulty : Path → Prop) (path : Path) (result : Except Errno Tree) (t : Tree) (reply : Except Errno Unit)
    (t' : Tree) : Prop :=
  (result = .ok t' ∧ reply = .ok ()) ∨ t' = t ∧ ((∃ e, result = .error e ∧ reply = .error e) ∨ faulty path ∧ reply = .error .EFAULT)

theorem removal_of_changing (result : Except Errno Tree) :
    Removal faulty path result t (changing t result).1 (changing t result).2 := by
  rcases changing_cases t result with ⟨t', hok, hch⟩ | ⟨e, herr, hch⟩
  · exact .inl ⟨by rw [hch]; exact hok, by rw [hch]⟩
  · exact .inr ⟨by rw [hch], .inl ⟨e, herr, by rw [hch]⟩⟩

theorem performs_rm (h : Performs src faulty (.rm path) t reply t') :
    Removal faulty path (t.rm path) t reply t' := by
  rcases h with _ | ⟨_, _, _, hremoves, hfaulty⟩
  · exact removal_of_changing _
  · cases hremoves
    exact .inr ⟨rfl, .inr ⟨hfaulty, rfl⟩⟩

theorem performs_rmAll (h : Performs src faulty (.rmAll path) t reply t') :
    Removal faulty path (t.rmAll path) t reply t' := by
  rcases h with _ | ⟨_, _, _, hremoves, hfaulty⟩
  · exact removal_of_changing _
  · cases hremoves
    exact .inr ⟨rfl, .inr ⟨hfaulty, rfl⟩⟩

theorem performs_rmdir (h : Performs src faulty (.rmdir path) t reply t') :
    Removal faulty path (t.rmdir path) t reply t' := by
  rcases h with _ | ⟨_, _, _, hremoves, hfaulty⟩
  · exact removal_of_changing _
  · cases hremoves
    exact .inr ⟨rfl, .inr ⟨hfaulty, rfl⟩⟩

theorem Removal.gone_or_same {result : Except Errno Tree}
    (h : Removal faulty path result t reply t')
    (hresult : ∀ t', result = .ok t' → ∀ q, t'.get q = if q = path then none else t.get q) :
    (∀ q, t'.get q = if q = path then none else t.get q) ∨ t' = t := by
  rcases h with ⟨hok, _⟩ | ⟨rfl, _⟩
  · exact .inl (hresult t' hok)
  · exact .inr rfl

/-- A removal that the file system does not refuse: the worker goes on, and the path is gone or faulty. -/
theorem Removal.goes_on {result : Except Errno Tree}
    (h : Removal faulty path result t reply t') (hresult : ∃ t', result = .ok t') (next : Work) :
    tolerate next reply = next ∧ (result = .ok t' ∨ t' = t ∧ faulty path) := by
  rcases h with ⟨hok, rfl⟩ | ⟨rfl, ⟨e, herr, _⟩ | ⟨hfaulty, rfl⟩⟩
  · exact ⟨rfl, .inl hok⟩
  · obtain ⟨t'', hok⟩ := hresult
    rw [herr] at hok
    cases hok
  · exact ⟨by simp [tolerate], .inr ⟨rfl, hfaulty⟩⟩

/-! ### Clearing -/

def NotFile (t : Tree) (rel : Path) : Prop := ∀ bytes, t.get rel ≠ some (.file bytes)

def OldFiles (dst t : Tree) : Prop := ∀ rel bytes, t.get rel = some (.file bytes) → dst.get rel = some (.file bytes)

theorem OldFiles.of_gone (h : OldFiles dst t) (hgone : ∀ q, t'.get q = if q = path then none else t.get q) :
    OldFiles dst t' := by
  intro q bytes hq
  rw [hgone] at hq
  split at hq
  · cases hq
  · exact h q bytes hq

inductive ClearAt (faulty : Path → Prop) (dirs : List Path) (rel : Path) : Work → Tree → Prop where
  | start {t : Tree} : ClearAt faulty dirs rel (clearWorker rel) t
  | remove {t : Tree} (h : t.get rel ≠ some .dir) : ClearAt faulty dirs rel (.call (.rm rel) (tolerate .done)) t
  | done {t : Tree} (h : rel ∈ dirs → NotFile t rel ∨ faulty rel) : ClearAt faulty dirs rel .done t

theorem clear_outline (src dst : Tree) (faulty : Path → Prop) (dirs : List Path) :
    Outline (Performs src faulty) (OldFiles dst) (ClearAt faulty dirs) where
  always := by
    intro i op next s reply s' hholds hat hperforms
    rcases hat with _ | hdir | _
    · rw [(performs_stat hperforms).2]
      exact hholds
    · rcases (performs_rm hperforms).gone_or_same fun t' h => Tree.rm_get h with hgone | rfl
      · exact hholds.of_gone hgone
      · exact hholds
  own := by
    intro i op next s reply s' hholds hat hperforms
    rcases hat with _ | hdir | _
    · obtain ⟨rfl, rfl⟩ := performs_stat hperforms
      unfold Tree.stat
      cases hget : s'.get i with
      | none => exact .done fun _ => .inl fun bytes => by rw [hget]; simp
      | some node =>
        cases node with
        | dir => exact .done fun _ => .inl fun bytes => by rw [hget]; simp
        | file bytes => exact .remove (by rw [hget]; simp)
    · obtain ⟨hnext, hremoved⟩ := (performs_rm hperforms).goes_on (Tree.rm_ok hdir) .done
      rw [hnext]
      refine .done fun _ => ?_
      rcases hremoved with hok | ⟨rfl, hfaulty⟩
      · refine .inl fun bytes => ?_
        rw [Tree.rm_get hok, if_pos rfl]
        simp
      · exact .inr hfaulty
  other := by
    intro i j task op next s reply s' hij hholds hi hj hperforms
    have hsame : s'.get i = s.get i := by
      rcases hj with _ | hdir | _
      · rw [(performs_stat hperforms).2]
      · rcases (performs_rm hperforms).gone_or_same fun t' h => Tree.rm_get h with hgone | rfl
        · rw [hgone, if_neg hij]
        · rfl
    rcases hi with _ | hdir | hdone
    · exact .start
    · exact .remove (by rw [hsame]; exact hdir)
    · refine .done fun hmem => (hdone hmem).imp_left fun hnot bytes => ?_
      rw [hsame]
      exact hnot bytes

theorem clear_meets (src dst : Tree) (faulty : Path → Prop) (dirs : List Path) :
    Meets (runBatched src faulty dirs clearWorker) dst
      (fun t => OldFiles dst t ∧ ∀ rel ∈ dirs, NotFile t rel ∨ faulty rel) (∃ path, faulty path) := by
  refine ((clear_outline src dst faulty dirs).ends (fun _ _ h => h) (fun rel => ?_) ?_).mono ?_
  · split
    · exact .start
    next hmem => exact .done fun h => absurd h hmem
  · rintro rel e t' ⟨⟩
  · rintro t' ⟨hold, hat⟩
    refine ⟨hold, fun rel hrel => ?_⟩
    cases hat rel with
    | done h => exact h hrel

/-! ### Making directories -/

theorem performs_mkdir_keeps (h : Performs src faulty (.mkdir path) t reply t') :
    (∀ q, t.get q = some .dir → t'.get q = some .dir) ∧ ∀ q bytes, t'.get q = some (.file bytes) → t.get q = some (.file bytes) := by
  rcases performs_mkdir h with ⟨made, hmade, _, rfl⟩ | ⟨e, _, _, rfl⟩
  · constructor
    · intro q hq
      rw [Tree.mkdir_get hmade, if_neg (by rw [hq]; simp), hq]
    · intro q bytes hq
      rw [Tree.mkdir_get hmade] at hq
      split at hq
      · cases hq
      · exact hq
  · exact ⟨fun _ => id, fun _ _ => id⟩

inductive MkdirAt (faulty : Path → Prop) (level : List Path) (rel : Path) : Work → Tree → Prop where
  | start {t : Tree} (hroot : rel ≠ []) (hparent : t.get rel.tail = some .dir) (hfile : NotFile t rel ∨ faulty rel) :
      MkdirAt faulty level rel (mkdirWorker rel) t
  | done {t : Tree} (h : rel ∈ level → t.get rel = some .dir) : MkdirAt faulty level rel .done t
  | fail {t : Tree} (e : Errno) (h : faulty rel) : MkdirAt faulty level rel (.fail e) t

/-- Directories stay, and no file is added. -/
structure Grown (t t' : Tree) : Prop where
  dirs : ∀ q, t.get q = some .dir → t'.get q = some .dir
  files : ∀ q bytes, t'.get q = some (.file bytes) → t.get q = some (.file bytes)

theorem mkdir_outline (src start : Tree) (faulty : Path → Prop) (level : List Path) :
    Outline (Performs src faulty) (Grown start) (MkdirAt faulty level) where
  always := by
    intro i op next s reply s' hholds hat hperforms
    cases hat
    obtain ⟨hdirs, hfiles⟩ := performs_mkdir_keeps hperforms
    exact ⟨fun q hq => hdirs q (hholds.dirs q hq), fun q bytes hq => hholds.files q bytes (hfiles q bytes hq)⟩
  own := by
    intro i op next s reply s' hholds hat hperforms
    obtain ⟨hroot, hparent, hfile⟩ | _ | _ := hat
    rcases performs_mkdir hperforms with ⟨made, hmade, rfl, rfl⟩ | ⟨e, herr, rfl, rfl⟩
    · exact .done fun _ => made.2
    · refine .fail e (hfile.resolve_left fun hnot => ?_)
      obtain ⟨name, parent, rfl⟩ := List.exists_cons_of_ne_nil hroot
      have hmade : ∃ made, s'.mkdir (name :: parent) = .ok made := Tree.mkdir_ok hparent hnot
      rw [herr] at hmade
      obtain ⟨_, ⟨⟩⟩ := hmade
  other := by
    intro i j task op next s reply s' hij hholds hi hj hperforms
    cases hj
    obtain ⟨hdirs, hfiles⟩ := performs_mkdir_keeps hperforms
    rcases hi with ⟨hroot, hparent, hfile⟩ | hdone | ⟨e, hfaulty⟩
    · exact .start hroot (hdirs _ hparent) (hfile.imp_left fun hnot bytes h => hnot bytes (hfiles _ _ h))
    · exact .done fun hmem => hdirs _ (hdone hmem)
    · exact .fail e hfaulty

def depthsOf (paths : List Path) (order : Nat → Nat → Bool) : List Nat := (paths.map List.length).dedup.mergeSort order

theorem mem_depthsOf {paths : List Path} {order : Nat → Nat → Bool} (h : rel ∈ paths) :
    rel.length ∈ depthsOf paths order := by
  unfold depthsOf
  rw [List.mem_mergeSort, List.mem_dedup]
  exact List.mem_map.mpr ⟨rel, h, rfl⟩

theorem shallowest_first (paths : List Path) : (depthsOf paths (· ≤ ·)).Pairwise (· ≤ ·) := by
  have h : (depthsOf paths (· ≤ ·)).Pairwise fun a b => decide (a ≤ b) = true :=
    List.pairwise_mergeSort (by simp; omega) (by simp; omega) _
  exact h.imp (by simp)

theorem deepest_first (paths : List Path) : (depthsOf paths (· ≥ ·)).Pairwise (· > ·) := by
  have h : (depthsOf paths (· ≥ ·)).Pairwise fun a b => decide (a ≥ b) = true :=
    List.pairwise_mergeSort (by simp; omega) (by simp; omega) _
  have hnodup : (depthsOf paths (· ≥ ·)).Nodup := (List.mergeSort_perm _ _).nodup_iff.mpr (List.nodup_dedup _)
  exact (h.and hnodup).imp fun hab => lt_of_le_of_ne (by simpa using hab.1) (Ne.symm hab.2)

theorem byDepth_map (paths : List Path) (order : Nat → Nat → Bool) (phase : List Path → Phase Tree Errno) :
    (byDepth paths order).map phase =
      (depthsOf paths order).map fun depth => phase (paths.filter fun p => p.length = depth) := by
  unfold byDepth depthsOf
  rw [List.map_map]
  rfl

/-- The directories of a tree: each in one of them, or at the root. -/
structure DirPaths (dirs : List Path) : Prop where
  root : [] ∉ dirs
  parent : ∀ name path, name :: path ∈ dirs → path = [] ∨ path ∈ dirs

theorem source_dirPaths (src : Tree) : DirPaths (sourceOf src).dirs where
  root h := (mem_source_dirs.mp h).1 rfl
  parent name path h := by
    rw [mem_source_dirs] at h ⊢
    have hparent : src.get path = some .dir := Tree.get_parent (by rw [h.2]; simp)
    exact or_iff_not_imp_left.mpr fun hne => ⟨hne, hparent⟩

/-- When these depths are still to come. -/
structure Making (dst : Tree) (faulty : Path → Prop) (dirs : List Path) (rest : List Nat) (t : Tree) : Prop where
  sorted : rest.Pairwise (· ≤ ·)
  old : OldFiles dst t
  free : ∀ rel ∈ dirs, NotFile t rel ∨ faulty rel
  made : ∀ rel ∈ dirs, rel.length ∉ rest → t.get rel = some .dir

theorem making_level (hdirs : DirPaths dirs) {rest : List Nat}
    (h : Making dst faulty dirs (depth :: rest) t) :
    Meets (runBatched src faulty (dirs.filter fun p => p.length = depth) mkdirWorker) t
      (Making dst faulty dirs rest) (∃ path, faulty path) := by
  refine ((mkdir_outline src t faulty (dirs.filter fun p => p.length = depth)).ends ⟨fun _ => id, fun _ _ => id⟩
    (fun rel => ?_) ?_).mono ?_
  · split
    next hmem =>
      rw [List.mem_filter, decide_eq_true_eq] at hmem
      obtain ⟨hrel, hlen⟩ := hmem
      cases rel with
      | nil => exact absurd hrel hdirs.root
      | cons name path =>
        refine .start (List.cons_ne_nil _ _) ?_ (h.free _ hrel)
        show t.get path = some .dir
        rcases hdirs.parent name path hrel with rfl | hpath
        · exact Tree.get_root t
        · refine h.made path hpath fun hmem => ?_
          rw [List.length_cons] at hlen
          rcases List.mem_cons.mp hmem with heq | hmem
          · omega
          · have := List.rel_of_pairwise_cons h.sorted hmem
            omega
    next hmem => exact .done fun hin => absurd hin hmem
  · rintro rel e t' ⟨⟩
    exact ⟨rel, ‹_›⟩
  · rintro t' ⟨hgrown, hat⟩
    refine ⟨h.sorted.of_cons, ?_, ?_, ?_⟩
    · exact fun q bytes hq => h.old q bytes (hgrown.files q bytes hq)
    · exact fun rel hrel => (h.free rel hrel).imp_left fun hnot bytes hq => hnot bytes (hgrown.files rel bytes hq)
    · intro rel hrel hrest
      by_cases hlen : rel.length = depth
      · cases hat rel with
        | done hmade => exact hmade (List.mem_filter.mpr ⟨hrel, by simpa using hlen⟩)
      · exact hgrown.dirs rel (h.made rel hrel (by simp [hlen, hrest]))

theorem mkdir_meets (src : Tree) (hdirs : DirPaths dirs) (hold : OldFiles dst t)
    (hfree : ∀ rel ∈ dirs, NotFile t rel ∨ faulty rel) :
    Meets (Phase.each ((byDepth dirs (· ≤ ·)).map fun level => runBatched src faulty level mkdirWorker)) t
      (fun t' => OldFiles dst t' ∧ ∀ rel ∈ dirs, t'.get rel = some .dir) (∃ path, faulty path) := by
  rw [byDepth_map dirs (· ≤ ·) fun level => runBatched src faulty level mkdirWorker]
  have hinit : Making dst faulty dirs (depthsOf dirs (· ≤ ·)) t :=
    ⟨shallowest_first dirs, hold, hfree, fun rel hrel hnot => absurd (mem_depthsOf hrel) hnot⟩
  have hlevel : ∀ depth rest s, Making dst faulty dirs (depth :: rest) s →
      Meets (runBatched src faulty (dirs.filter fun p => p.length = depth) mkdirWorker) s
        (Making dst faulty dirs rest) (∃ path, faulty path) := fun _ _ _ hs => making_level hdirs hs
  refine (Meets.each hlevel _ hinit).mono fun t' h => ?_
  exact ⟨h.old, fun rel hrel => h.made rel hrel List.not_mem_nil⟩

/-! ### Copying -/

/-- A content-hashed file of the same size has the same bytes. -/
def HashesName (src dst : Tree) : Prop :=
  ∀ rel bytes built, isContentHashedPath (relText rel) = true → dst.get rel = some (.file bytes) →
    src.get rel = some (.file built) → bytes.length = built.length → bytes = built

/-- While files are copied. -/
structure Copying (src dst t : Tree) : Prop where
  dirs : ∀ rel ∈ (sourceOf src).dirs, t.get rel = some .dir
  files : ∀ rel bytes, t.get rel = some (.file bytes) → dst.get rel = some (.file bytes) ∨
    rel ∈ (sourceOf src).files ∧ src.get rel = some (.file bytes)

inductive CopyAt (src : Tree) (faulty : Path → Prop) (rel : Path) : Work → Tree → Prop where
  | start {t : Tree} (hrel : rel ∈ (sourceOf src).files) : CopyAt src faulty rel (copyWorker rel) t
  | same {t : Tree} (hrel : rel ∈ (sourceOf src).files) (bytes : List UInt8) (h : t.get rel = some (.file bytes))
      (hhashed : isContentHashedPath (relText rel) = true) :
      CopyAt src faulty rel (.call (.statSrc rel) (unlessSameSize rel bytes)) t
  | remove {t : Tree} (hrel : rel ∈ (sourceOf src).files) :
      CopyAt src faulty rel (.call (.rmAll rel) (tolerate (copy rel))) t
  | copy {t : Tree} (hrel : rel ∈ (sourceOf src).files) (h : t.get rel ≠ some .dir ∨ faulty rel) :
      CopyAt src faulty rel (copy rel) t
  | done {t : Tree} (h : rel ∈ (sourceOf src).files → t.get rel = src.get rel) : CopyAt src faulty rel .done t
  | fail {t : Tree} (e : Errno) (h : faulty rel) : CopyAt src faulty rel (.fail e) t

/-- A call of a copying worker leaves what is not at its path or below. -/
theorem copy_keeps {next : Except Errno (Reply op) → Work} {reply : Except Errno (Reply op)}
    (hat : CopyAt src faulty rel (.call op next) t) (hperforms : Performs src faulty op t reply t')
    (hq : ¬ rel <:+ q) : t'.get q = t.get q := by
  rcases hat with hrel | ⟨hrel, _, _, _⟩ | hrel | ⟨hrel, _⟩
  · rw [(performs_stat hperforms).2]
  · rw [(performs_statSrc hperforms).2]
  · rcases performs_rmAll hperforms with ⟨hok, _⟩ | ⟨rfl, _⟩
    · rw [Tree.rmAll_get hok, if_neg hq]
    · rfl
  · obtain ⟨bytes, hbuilt⟩ := (mem_source_files.mp hrel).1
    rcases performs_copyFile hbuilt hperforms with ⟨hok, _⟩ | ⟨_, _, _, rfl⟩
    · rw [Tree.writeFile_get hok, if_neg]
      rintro rfl
      exact hq List.suffix_rfl
    · rfl

/-- What a copying worker leaves at its path and below: what was there, or the file of the build. -/
theorem copy_own {next : Except Errno (Reply op) → Work} {reply : Except Errno (Reply op)}
    (hat : CopyAt src faulty rel (.call op next) t) (hperforms : Performs src faulty op t reply t')
    {bytes : List UInt8} (hq : t'.get q = some (.file bytes)) :
    t.get q = some (.file bytes) ∨ q ∈ (sourceOf src).files ∧ src.get q = some (.file bytes) := by
  rcases hat with hrel | ⟨hrel, _, _, _⟩ | hrel | ⟨hrel, _⟩
  · exact .inl (by rw [← (performs_stat hperforms).2]; exact hq)
  · exact .inl (by rw [← (performs_statSrc hperforms).2]; exact hq)
  · rcases performs_rmAll hperforms with ⟨hok, _⟩ | ⟨rfl, _⟩
    · rw [Tree.rmAll_get hok] at hq
      split at hq
      · cases hq
      · exact .inl hq
    · exact .inl hq
  · obtain ⟨built, hbuilt⟩ := (mem_source_files.mp hrel).1
    rcases performs_copyFile hbuilt hperforms with ⟨hok, _⟩ | ⟨_, _, _, rfl⟩
    · rw [Tree.writeFile_get hok] at hq
      split at hq
      next heq =>
        cases hq
        exact .inr ⟨heq ▸ hrel, heq ▸ hbuilt⟩
      next => exact .inl hq
    · exact .inl hq

theorem not_below_file (hrel : rel ∈ (sourceOf src).files) (hq : src.get q ≠ none) (hne : rel ≠ q) : ¬ rel <:+ q := by
  intro hbelow
  obtain ⟨bytes, hfile⟩ := (mem_source_files.mp hrel).1
  exact hq (Tree.get_below (by rw [hfile]; simp) hbelow hne)

theorem CopyAt.mem {next : Except Errno (Reply op) → Work} (hat : CopyAt src faulty rel (.call op next) t) :
    rel ∈ (sourceOf src).files := by
  rcases hat with hrel | ⟨hrel, _, _, _⟩ | hrel | ⟨hrel, _⟩ <;> exact hrel

theorem Copying.parent (h : Copying src dst t) (hrel : rel ∈ (sourceOf src).files) :
    ∃ name path, rel = name :: path ∧ t.get path = some .dir := by
  obtain ⟨bytes, hfile⟩ := (mem_source_files.mp hrel).1
  cases rel with
  | nil =>
    rw [Tree.get_root] at hfile
    cases hfile
  | cons name path =>
    refine ⟨name, path, rfl, ?_⟩
    by_cases hroot : path = []
    · rw [hroot, Tree.get_root]
    · exact h.dirs path (mem_source_dirs.mpr ⟨hroot, Tree.get_parent (by rw [hfile]; simp)⟩)

theorem copy_outline (hhash : HashesName src dst) :
    Outline (Performs src faulty) (Copying src dst) (CopyAt src faulty) where
  always := by
    intro i op next s reply s' hholds hat hperforms
    constructor
    · intro rel hrel
      obtain ⟨_, hdir⟩ := mem_source_dirs.mp hrel
      have hbelow : ¬ i <:+ rel := by
        refine not_below_file hat.mem (by rw [hdir]; simp) ?_
        rintro rfl
        obtain ⟨bytes, hfile⟩ := (mem_source_files.mp hat.mem).1
        rw [hdir] at hfile
        cases hfile
      rw [copy_keeps hat hperforms hbelow]
      exact hholds.dirs rel hrel
    · intro rel bytes hq
      rcases copy_own hat hperforms hq with hold | hnew
      · exact hholds.files rel bytes hold
      · exact .inr hnew
  own := by
    intro i op next s reply s' hholds hat hperforms
    rcases hat with hrel | ⟨hrel, bytes, hget, hhashed⟩ | hrel | ⟨hrel, hfree⟩
    · obtain ⟨rfl, rfl⟩ := performs_stat hperforms
      unfold Tree.stat
      cases hget : s'.get i with
      | none => exact .copy hrel (.inl (by rw [hget]; simp))
      | some node =>
        cases node with
        | dir => exact .remove hrel
        | file bytes =>
          dsimp only
          split
          next hhashed => exact .same hrel bytes hget hhashed
          next => exact .copy hrel (.inl (by rw [hget]; simp))
    · obtain ⟨rfl, rfl⟩ := performs_statSrc hperforms
      obtain ⟨built, hbuilt⟩ := (mem_source_files.mp hrel).1
      rw [Tree.stat_eq_ok.mpr hbuilt]
      unfold unlessSameSize
      dsimp only
      split
      next hlen =>
        refine .done fun _ => ?_
        rw [hget, hbuilt]
        rcases hholds.files i bytes hget with hold | ⟨_, hnew⟩
        · rw [hhash i bytes built hhashed hold hbuilt hlen]
        · rw [← hnew, hbuilt]
      next => exact .copy hrel (.inl (by rw [hget]; simp))
    · obtain ⟨name, path, rfl, _⟩ := hholds.parent hrel
      obtain ⟨hnext, hremoved⟩ := (performs_rmAll hperforms).goes_on ⟨_, dif_neg (List.cons_ne_nil _ _)⟩ (copy (name :: path))
      rw [hnext]
      refine .copy hrel ?_
      rcases hremoved with hok | ⟨_, hfaulty⟩
      · exact .inl (by rw [Tree.rmAll_get hok, if_pos List.suffix_rfl]; simp)
      · exact .inr hfaulty
    · obtain ⟨built, hbuilt⟩ := (mem_source_files.mp hrel).1
      rcases performs_copyFile hbuilt hperforms with ⟨hok, rfl⟩ | ⟨e, herr, rfl, rfl⟩
      · refine .done fun _ => ?_
        rw [Tree.writeFile_get hok, if_pos rfl, hbuilt]
      · refine .fail e (hfree.resolve_left fun hdir => ?_)
        obtain ⟨name, path, rfl, hparent⟩ := hholds.parent hrel
        have hok : ∃ t', s'.writeFile (name :: path) built = .ok t' := Tree.writeFile_ok hparent hdir
        rw [herr] at hok
        obtain ⟨_, ⟨⟩⟩ := hok
  other := by
    intro i j task op next s reply s' hij hholds hi hj hperforms
    have hsame : i ∈ (sourceOf src).files → s'.get i = s.get i := by
      intro hmem
      obtain ⟨bytes, hfile⟩ := (mem_source_files.mp hmem).1
      exact copy_keeps hj hperforms (not_below_file hj.mem (by rw [hfile]; simp) (Ne.symm hij))
    rcases hi with hrel | ⟨hrel, bytes, hget, hhashed⟩ | hrel | ⟨hrel, hfree⟩ | hdone | ⟨e, hfaulty⟩
    · exact .start hrel
    · exact .same hrel bytes (by rw [hsame hrel, hget]) hhashed
    · exact .remove hrel
    · exact .copy hrel (hfree.imp_left fun hdir => by rw [hsame hrel]; exact hdir)
    · exact .done fun hmem => by rw [hsame hmem, hdone hmem]
    · exact .fail e hfaulty

theorem copy_meets (hhash : HashesName src dst) (hholds : Copying src dst t) :
    Meets (runBatched src faulty (sourceOf src).files copyWorker) t
      (fun t' => Copying src dst t' ∧ ∀ rel ∈ (sourceOf src).files, t'.get rel = src.get rel) (∃ path, faulty path) := by
  refine ((copy_outline hhash).ends hholds (fun rel => ?_) ?_).mono ?_
  · split
    next hmem => exact .start hmem
    next hmem => exact .done fun h => absurd h hmem
  · rintro rel e t' ⟨⟩
    exact ⟨rel, ‹_›⟩
  · rintro t' ⟨hcopying, hat⟩
    refine ⟨hcopying, fun rel hrel => ?_⟩
    cases hat rel with
    | done h => exact h hrel

/-! ### Removing what the build has not -/

/-- Some files are gone, and nothing else has changed. -/
structure Thinned (keep : Path → Prop) (t t' : Tree) : Prop where
  kept : ∀ q, keep q → t'.get q = t.get q
  files : ∀ q bytes, t'.get q = some (.file bytes) → t.get q = some (.file bytes)
  dirs : ∀ q, t'.get q = some .dir ↔ t.get q = some .dir

inductive RemoveAt (faulty : Path → Prop) (items : List Path) (rel : Path) : Work → Tree → Prop where
  | start {t : Tree} (hrel : rel ∈ items) (h : t.get rel ≠ some .dir) : RemoveAt faulty items rel (removeWorker rel) t
  | done {t : Tree} (h : rel ∈ items → t.get rel = none ∨ faulty rel) : RemoveAt faulty items rel .done t

theorem remove_gone {items : List Path} {next : Except Errno (Reply op) → Work}
    {reply : Except Errno (Reply op)} (hat : RemoveAt faulty items rel (.call op next) t)
    (hperforms : Performs src faulty op t reply t') :
    rel ∈ items ∧ t.get rel ≠ some .dir ∧ ((∀ q, t'.get q = if q = rel then none else t.get q) ∨ t' = t) := by
  obtain ⟨hrel, hdir⟩ | _ := hat
  exact ⟨hrel, hdir, (performs_rm hperforms).gone_or_same fun t' h => Tree.rm_get h⟩

theorem remove_outline (src start : Tree) (faulty : Path → Prop) (items : List Path) :
    Outline (Performs src faulty) (Thinned (· ∉ items) start) (RemoveAt faulty items) where
  always := by
    intro i op next s reply s' hholds hat hperforms
    obtain ⟨hitem, hdir, hgone | rfl⟩ := remove_gone hat hperforms
    · refine ⟨fun q hq => ?_, fun q bytes hq => ?_, fun q => ?_⟩
      · rw [hgone, if_neg (by rintro rfl; exact hq hitem), hholds.kept q hq]
      · rw [hgone] at hq
        split at hq
        · cases hq
        · exact hholds.files q bytes hq
      · rw [hgone, ← hholds.dirs q]
        split
        next heq =>
          subst heq
          exact iff_of_false (by simp) hdir
        next => rfl
    · exact hholds
  own := by
    intro i op next s reply s' hholds hat hperforms
    obtain ⟨hrel, hdir⟩ | _ := hat
    obtain ⟨hnext, hremoved⟩ := (performs_rm hperforms).goes_on (Tree.rm_ok hdir) .done
    rw [hnext]
    refine .done fun _ => ?_
    rcases hremoved with hok | ⟨_, hfaulty⟩
    · exact .inl (by rw [Tree.rm_get hok, if_pos rfl])
    · exact .inr hfaulty
  other := by
    intro i j task op next s reply s' hij hholds hi hj hperforms
    have hsame : s'.get i = s.get i := by
      obtain ⟨_, _, hgone | rfl⟩ := remove_gone hj hperforms
      · rw [hgone, if_neg hij]
      · rfl
    rcases hi with ⟨hrel, hdir⟩ | hdone
    · exact .start hrel (by rw [hsame]; exact hdir)
    · exact .done fun hmem => by rw [hsame]; exact hdone hmem

theorem remove_meets (src : Tree) {items : List Path} (hitems : ∀ rel ∈ items, t.get rel ≠ some .dir) :
    Meets (runBatched src faulty items removeWorker) t
      (fun t' => Thinned (· ∉ items) t t' ∧ ∀ rel ∈ items, t'.get rel = none ∨ faulty rel) (∃ path, faulty path) := by
  refine ((remove_outline src t faulty items).ends ⟨fun _ _ => rfl, fun _ _ => id, fun _ => Iff.rfl⟩
    (fun rel => ?_) ?_).mono ?_
  · split
    next hmem => exact .start hmem (hitems rel hmem)
    next hmem => exact .done fun h => absurd h hmem
  · rintro rel e t' ⟨⟩
  · rintro t' ⟨hthinned, hat⟩
    refine ⟨hthinned, fun rel hrel => ?_⟩
    cases hat rel with
    | done h => exact h hrel

/-! ### Pruning -/

def NotEmpty (t : Tree) (rel : Path) : Prop := ∃ name, t.get (name :: rel) ≠ none

/-- A directory that may stay, or is gone. -/
def Pruned (faulty : Path → Prop) (t : Tree) (rel : Path) : Prop := t.get rel = none ∨ NotEmpty t rel ∨ faulty rel

/-- Some directories are gone, and nothing else has changed. -/
structure Shrunk (level : List Path) (t t' : Tree) : Prop where
  kept : ∀ q, q ∉ level → t'.get q = t.get q
  less : ∀ q node, t'.get q = some node → t.get q = some node

inductive PruneAt (faulty : Path → Prop) (level : List Path) (rel : Path) : Work → Tree → Prop where
  | start {t : Tree} (hrel : rel ∈ level) (h : t.get rel = some .dir) : PruneAt faulty level rel (pruneWorker rel) t
  | remove {t : Tree} (hrel : rel ∈ level) (h : t.get rel = some .dir) (hempty : t.names rel = []) :
      PruneAt faulty level rel (.call (.rmdir rel) (tolerate .done)) t
  | done {t : Tree} (h : rel ∈ level → Pruned faulty t rel) : PruneAt faulty level rel .done t

theorem prune_gone {level : List Path} {next : Except Errno (Reply op) → Work}
    {reply : Except Errno (Reply op)} (hat : PruneAt faulty level rel (.call op next) t)
    (hperforms : Performs src faulty op t reply t') :
    rel ∈ level ∧ ((∀ q, t'.get q = if q = rel then none else t.get q) ∨ t' = t) := by
  rcases hat with ⟨hrel, _⟩ | ⟨hrel, _, _⟩
  · exact ⟨hrel, .inr (performs_readdir hperforms).2⟩
  · exact ⟨hrel, (performs_rmdir hperforms).gone_or_same fun t' h => Tree.rmdir_get h⟩

theorem prune_outline (src start : Tree) (faulty : Path → Prop) {level : List Path} (hroot : [] ∉ level)
    (hflat : ∀ rel ∈ level, ∀ name, name :: rel ∉ level) :
    Outline (Performs src faulty) (Shrunk level start) (PruneAt faulty level) where
  always := by
    intro i op next s reply s' hholds hat hperforms
    obtain ⟨hitem, hgone | rfl⟩ := prune_gone hat hperforms
    · refine ⟨fun q hq => ?_, fun q node hq => ?_⟩
      · rw [hgone, if_neg (by rintro rfl; exact hq hitem), hholds.kept q hq]
      · rw [hgone] at hq
        split at hq
        · cases hq
        · exact hholds.less q node hq
    · exact hholds
  own := by
    intro i op next s reply s' hholds hat hperforms
    rcases hat with ⟨hrel, hdir⟩ | ⟨hrel, hdir, hempty⟩
    · obtain ⟨rfl, rfl⟩ := performs_readdir hperforms
      unfold Tree.readdir
      rw [hdir]
      dsimp only
      cases hnames : s'.names i with
      | nil => exact .remove hrel hdir hnames
      | cons name rest =>
        have hname : name ∈ s'.names i := by
          rw [hnames]
          exact List.mem_cons_self
        exact .done fun _ => .inr (.inl ⟨name, Tree.mem_names.mp hname⟩)
    · have hok : ∃ t', s.rmdir i = .ok t' := Tree.rmdir_ok (by rintro rfl; exact hroot hrel) hdir hempty
      obtain ⟨hnext, hremoved⟩ := (performs_rmdir hperforms).goes_on hok .done
      rw [hnext]
      refine .done fun _ => ?_
      rcases hremoved with hok | ⟨_, hfaulty⟩
      · exact .inl (by rw [Tree.rmdir_get hok, if_pos rfl])
      · exact .inr (.inr hfaulty)
  other := by
    intro i j task op next s reply s' hij hholds hi hj hperforms
    obtain ⟨hjlevel, hsame⟩ : j ∈ level ∧ ∀ q, q ≠ j → s'.get q = s.get q := by
      obtain ⟨hjlevel, hgone | rfl⟩ := prune_gone hj hperforms
      · exact ⟨hjlevel, fun q hq => by rw [hgone, if_neg hq]⟩
      · exact ⟨hjlevel, fun _ _ => rfl⟩
    have hchild : i ∈ level → ∀ name, s'.get (name :: i) = s.get (name :: i) := by
      intro hi name
      refine hsame _ ?_
      rintro rfl
      exact hflat i hi name hjlevel
    rcases hi with ⟨hrel, hdir⟩ | ⟨hrel, hdir, hempty⟩ | hdone
    · exact .start hrel (by rw [hsame i hij, hdir])
    · refine .remove hrel (by rw [hsame i hij, hdir]) (List.eq_nil_iff_forall_not_mem.mpr fun name hname => ?_)
      rw [Tree.mem_names, hchild hrel name, ← Tree.mem_names, hempty] at hname
      exact List.not_mem_nil hname
    · refine .done fun hmem => ?_
      unfold Pruned NotEmpty
      rw [hsame i hij]
      simp only [hchild hmem]
      exact hdone hmem

/-- When these depths are still to come: deeper directories are pruned, the others have not been touched. -/
structure Pruning (faulty : Path → Prop) (start : Tree) (dirs : List Path) (rest : List Nat) (t : Tree) : Prop where
  sorted : rest.Pairwise (· > ·)
  files : ∀ q bytes, t.get q = some (.file bytes) ↔ start.get q = some (.file bytes)
  less : ∀ q, t.get q = some .dir → start.get q = some .dir
  whole : ∀ rel ∈ dirs, rel.length ∈ rest → t.get rel = some .dir
  deeper : ∀ rel ∈ dirs, rel.length ∉ rest → ∀ depth ∈ rest, depth < rel.length
  pruned : ∀ rel ∈ dirs, rel.length ∉ rest → Pruned faulty t rel

theorem pruning_level {start : Tree} (hdirs : ∀ rel ∈ dirs, rel ≠ [] ∧ start.get rel = some .dir) {rest : List Nat}
    (h : Pruning faulty start dirs (depth :: rest) t) :
    Meets (runBatched src faulty (dirs.filter fun p => p.length = depth) pruneWorker) t
      (Pruning faulty start dirs rest) (∃ path, faulty path) := by
  have hmem : ∀ rel, (rel ∈ dirs.filter fun p => p.length = depth) ↔ rel ∈ dirs ∧ rel.length = depth := by
    intro rel
    rw [List.mem_filter, decide_eq_true_eq]
  have hroot : [] ∉ dirs.filter fun p => p.length = depth := fun h => (hdirs [] ((hmem _).mp h).1).1 rfl
  have hflat : ∀ rel ∈ dirs.filter (fun p => p.length = depth), ∀ name,
      name :: rel ∉ dirs.filter fun p => p.length = depth := by
    intro rel hrel name hname
    have h₁ := ((hmem _).mp hrel).2
    have h₂ := ((hmem _).mp hname).2
    rw [List.length_cons] at h₂
    omega
  refine ((prune_outline src t faulty hroot hflat).ends ⟨fun _ _ => rfl, fun _ _ => id⟩ (fun rel => ?_) ?_).mono ?_
  · split
    next hrel => exact .start hrel (h.whole rel ((hmem _).mp hrel).1 (by rw [((hmem _).mp hrel).2]; exact List.mem_cons_self))
    next hrel => exact .done fun hin => absurd hin hrel
  · rintro rel e t' ⟨⟩
  · rintro t' ⟨hshrunk, hat⟩
    have hlevel : ∀ rel, rel.length ≠ depth → t'.get rel = t.get rel :=
      fun rel hlen => hshrunk.kept rel fun hrel => hlen ((hmem _).mp hrel).2
    have hless : ∀ d ∈ rest, d < depth := fun d hd => List.rel_of_pairwise_cons h.sorted hd
    refine ⟨h.sorted.of_cons, fun q bytes => ?_, fun q hq => h.less q (hshrunk.less q _ hq), fun rel hrel hlen => ?_, ?_, ?_⟩
    · constructor
      · exact fun hq => (h.files q bytes).mp (hshrunk.less q _ hq)
      · intro hq
        rw [hshrunk.kept q, h.files q bytes]
        · exact hq
        · intro hin
          have := (hdirs q ((hmem _).mp hin).1).2
          rw [hq] at this
          cases this
    · rw [hlevel rel (by have := hless _ hlen; omega)]
      exact h.whole rel hrel (List.mem_cons_of_mem _ hlen)
    · intro rel hrel hlen d hd
      by_cases heq : rel.length = depth
      · rw [heq]
        exact hless d hd
      · exact h.deeper rel hrel (by simp [heq, hlen]) d (List.mem_cons_of_mem _ hd)
    · intro rel hrel hlen
      by_cases heq : rel.length = depth
      · cases hat rel with
        | done hdone => exact hdone ((hmem _).mpr ⟨hrel, heq⟩)
      · have hnot : rel.length ∉ depth :: rest := by simp [heq, hlen]
        have hdeeper := h.deeper rel hrel hnot depth List.mem_cons_self
        have hpruned := h.pruned rel hrel hnot
        unfold Pruned NotEmpty at hpruned ⊢
        rw [hlevel rel heq]
        refine hpruned.imp_right fun hor => hor.imp_left ?_
        rintro ⟨name, hname⟩
        refine ⟨name, ?_⟩
        rw [hlevel (name :: rel) (by rw [List.length_cons]; omega)]
        exact hname

theorem prune_meets (src : Tree) {start : Tree}
    (hdirs : ∀ rel ∈ dirs, rel ≠ [] ∧ start.get rel = some .dir) :
    Meets (Phase.each ((byDepth dirs (· ≥ ·)).map fun level => runBatched src faulty level pruneWorker)) start
      (Pruning faulty start dirs []) (∃ path, faulty path) := by
  rw [byDepth_map dirs (· ≥ ·) fun level => runBatched src faulty level pruneWorker]
  have hinit : Pruning faulty start dirs (depthsOf dirs (· ≥ ·)) start := by
    refine ⟨deepest_first _, fun _ _ => Iff.rfl, fun _ => id, fun rel hrel _ => (hdirs rel hrel).2, ?_, ?_⟩
    · exact fun rel hrel hnot => absurd (mem_depthsOf hrel) hnot
    · exact fun rel hrel hnot => absurd (mem_depthsOf hrel) hnot
  have hlevel : ∀ depth rest s, Pruning faulty start dirs (depth :: rest) s →
      Meets (runBatched src faulty (dirs.filter fun p => p.length = depth) pruneWorker) s
        (Pruning faulty start dirs rest) (∃ path, faulty path) := fun _ _ _ hs => pruning_level hdirs hs
  exact Meets.each hlevel _ hinit

/-! ### The whole sync -/

/-- The target holds the files of the build; what else it holds is where a removal failed. -/
structure MirroredUpTo (faulty : Path → Prop) (src t : Tree) : Prop where
  built : ∀ rel bytes, src.get rel = some (.file bytes) → rel ∉ buildInternalFiles → t.get rel = some (.file bytes)
  only : ∀ rel bytes, t.get rel = some (.file bytes) →
    src.get rel = some (.file bytes) ∧ rel ∉ buildInternalFiles ∨ faulty rel
  notEmpty : ∀ rel, rel ≠ [] → t.get rel = some .dir → NotEmpty t rel ∨ faulty rel

theorem syncContents_meets (hhash : HashesName src dst) (faulty : Path → Prop) :
    Meets (syncContents src faulty) dst (MirroredUpTo faulty src) (∃ path, faulty path) := by
  unfold syncContents
  refine (clear_meets src dst faulty (sourceOf src).dirs).andThen fun t₁ h₁ => ?_
  refine (mkdir_meets src (source_dirPaths src) h₁.1 h₁.2).andThen fun t₂ h₂ => ?_
  have hcopying : Copying src dst t₂ := ⟨h₂.2, fun rel bytes h => .inl (h₂.1 rel bytes h)⟩
  refine (copy_meets hhash hcopying).andThen fun t₃ h₃ => ?_
  have hitems : ∀ rel, (rel ∈ (listTree t₃).files.filter fun rel => rel ∉ (sourceOf src).files) ↔
      (∃ bytes, t₃.get rel = some (.file bytes)) ∧ rel ∉ (sourceOf src).files := by
    intro rel
    rw [List.mem_filter, mem_listTree_files, decide_eq_true_eq]
  have hnotdir : ∀ rel ∈ (listTree t₃).files.filter (fun rel => rel ∉ (sourceOf src).files), t₃.get rel ≠ some .dir := by
    intro rel hrel
    obtain ⟨⟨bytes, hfile⟩, _⟩ := (hitems rel).mp hrel
    rw [hfile]
    simp
  refine (remove_meets src hnotdir).andThen fun t₄ h₄ => ?_
  have hdirs : ∀ rel ∈ (listTree t₃).dirs, rel ≠ [] ∧ t₄.get rel = some .dir := by
    intro rel hrel
    rw [h₄.1.dirs]
    exact mem_listTree_dirs.mp hrel
  refine (prune_meets src hdirs).mono fun t₅ h₅ => ⟨?_, ?_, ?_⟩
  · intro rel bytes hbuilt hinternal
    have hmem : rel ∈ (sourceOf src).files := mem_source_files.mpr ⟨⟨bytes, hbuilt⟩, hinternal⟩
    rw [h₅.files, h₄.1.kept rel fun h => ((hitems rel).mp h).2 hmem, h₃.2 rel hmem, hbuilt]
  · intro rel bytes hfile
    have h₄file := (h₅.files rel bytes).mp hfile
    have h₃file := h₄.1.files rel bytes h₄file
    by_cases hmem : rel ∈ (sourceOf src).files
    · have hsame := h₃.2 rel hmem
      rw [h₃file] at hsame
      exact .inl ⟨hsame.symm, (mem_source_files.mp hmem).2⟩
    · have hgone := h₄.2 rel ((hitems rel).mpr ⟨⟨bytes, h₃file⟩, hmem⟩)
      rw [h₄file] at hgone
      exact .inr (hgone.resolve_left (by simp))
  · intro rel hroot hdir
    have h₃dir := (h₄.1.dirs rel).mp (h₅.less rel hdir)
    have hpruned := h₅.pruned rel (mem_listTree_dirs.mpr ⟨hroot, h₃dir⟩) List.not_mem_nil
    exact hpruned.resolve_left (by rw [hdir]; simp)

theorem runBatched_total (src : Tree) (faulty : Path → Prop) (items : List Path) (worker : Path → Work) :
    Total (runBatched src faulty items worker) :=
  Total.batch (fun op t => ⟨_, _, .performs op t⟩) items _ fun _ hrel => if_neg hrel

theorem syncContents_total (src : Tree) (faulty : Path → Prop) : Total (syncContents src faulty) := by
  have hlevels : ∀ (levels : List (List Path)) (worker : Path → Work),
      Total (Phase.each (levels.map fun level => runBatched src faulty level worker)) := by
    intro levels worker
    refine .each fun phase hphase => ?_
    obtain ⟨level, _, rfl⟩ := List.mem_map.mp hphase
    exact runBatched_total src faulty level worker
  refine Total.andThen (runBatched_total _ _ _ _) (Total.andThen (hlevels _ _) (Total.andThen (runBatched_total _ _ _ _) ?_))
  exact fun t => Total.andThen (runBatched_total _ _ _ _) (hlevels _ _) t

/-- The target holds exactly the files of the build that are not internal, and no empty directory. -/
structure Mirrored (src t : Tree) : Prop where
  files : ∀ rel bytes,
    t.get rel = some (.file bytes) ↔ src.get rel = some (.file bytes) ∧ rel ∉ buildInternalFiles
  notEmpty : ∀ rel, rel ≠ [] → t.get rel = some .dir → NotEmpty t rel

/-- Where no removal fails, a sync does not throw, and mirrors the build. -/
theorem syncContents_mirrors (src dst : Tree) (hhash : HashesName src dst) :
    (∃ t, syncContents src (fun _ => False) dst (.ok t)) ∧
      Meets (syncContents src fun _ => False) dst (Mirrored src) False := by
  have hmeets : Meets (syncContents src fun _ => False) dst (Mirrored src) False := by
    obtain ⟨hends, hthrows⟩ := syncContents_meets hhash fun _ => False
    refine ⟨fun t ht => ?_, fun e he => (hthrows e he).elim fun _ => id⟩
    have h := hends t ht
    exact ⟨fun rel bytes => ⟨fun hfile => (h.only rel bytes hfile).resolve_right id, fun hfile => h.built rel bytes hfile.1 hfile.2⟩,
      fun rel hroot hdir => (h.notEmpty rel hroot hdir).resolve_right id⟩
  obtain ⟨e | t, hresult⟩ := syncContents_total src (fun _ => False) dst
  · exact (hmeets.2 e hresult).elim
  · exact ⟨⟨t, hresult⟩, hmeets⟩

def pageAsFile : Tree :=
  .ofEntries [([], .dir), (["a"], .file [1]), (["_caelo-asset-references.json"], .file [2])] rfl (by decide)

def pageAsDirectory : Tree :=
  .ofEntries [([], .dir), (["a"], .dir), (["index.html", "a"], .file [3])] rfl (by decide)

theorem syncContents_mirrors_page :
    (∃ t, syncContents pageAsFile (fun _ => False) pageAsDirectory (.ok t)) ∧
      Meets (syncContents pageAsFile fun _ => False) pageAsDirectory (Mirrored pageAsFile) False := by
  refine syncContents_mirrors pageAsFile pageAsDirectory fun rel bytes built _ hold hbuilt _ => ?_
  have hrel : rel = ["index.html", "a"] := by
    have hmem : (rel, Node.file bytes) ∈ pageAsDirectory.entries := mem_of_find hold
    simp [pageAsDirectory, Tree.ofEntries] at hmem
    exact hmem.1
  subst hrel
  have hnone : pageAsFile.get ["index.html", "a"] = none := by decide
  rw [hnone] at hbuilt
  cases hbuilt

end CaeloCms.Deploy.Sync
