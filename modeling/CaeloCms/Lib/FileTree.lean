import Mathlib

/-!
# Directory trees

A tree maps paths to what stands there, a directory or a file with its bytes.  A path is the list of its names, the
innermost one first, so `name :: path` stands in `path`; the root is `[]`.  Everything stands in a directory, which is
part of the type: the calls below either fail as a file system does or give a tree again.
-/

namespace FileTree

abbrev Path := List String

inductive Node where
  | dir
  | file (bytes : List UInt8)
  deriving DecidableEq, Repr

inductive Errno where
  | ENOENT | EEXIST | ENOTDIR | EISDIR | ENOTEMPTY | EBUSY | EFAULT
  deriving DecidableEq, Repr

def find (entries : List (Path × Node)) (path : Path) : Option Node :=
  (entries.find? fun e => e.1 = path).map Prod.snd

structure Tree where
  entries : List (Path × Node)
  root : find entries [] = some .dir
  parent : ∀ name path, find entries (name :: path) ≠ none → find entries path = some .dir

namespace Tree

variable {t : Tree} {path q : Path}

def get (t : Tree) (path : Path) : Option Node := find t.entries path

@[simp]
theorem get_root (t : Tree) : t.get [] = some .dir := t.root

theorem get_parent {name : String} (h : t.get (name :: path) ≠ none) : t.get path = some .dir := t.parent name path h

theorem get_above (hq : t.get q ≠ none) (hbelow : path <:+ q) : path = q ∨ t.get path = some .dir := by
  induction q with
  | nil => exact .inl (List.suffix_nil.mp hbelow)
  | cons name q ih =>
    rcases List.suffix_cons_iff.mp hbelow with rfl | hbelow
    · exact .inl rfl
    · have hdir := get_parent hq
      rcases ih (by rw [hdir]; exact Option.some_ne_none _) hbelow with rfl | habove
      · exact .inr hdir
      · exact .inr habove

theorem get_below (hpath : t.get path ≠ some .dir) (hbelow : path <:+ q) (hne : path ≠ q) : t.get q = none := by
  by_contra hq
  rcases get_above hq hbelow with rfl | hdir
  · exact hne rfl
  · exact hpath hdir

end Tree

theorem find_filter (entries : List (Path × Node)) (keep : Path → Bool) (q : Path) :
    find (entries.filter fun e => keep e.1) q = if keep q then find entries q else none := by
  unfold find
  induction entries with
  | nil => cases keep q <;> rfl
  | cons e entries ih =>
    by_cases he : e.1 = q
    · subst he
      cases hkeep : keep e.1 with
      | true => simp [hkeep]
      | false =>
        rw [hkeep] at ih
        simpa [hkeep] using ih
    · cases hkeep : keep e.1 with
      | true => simpa [hkeep, he] using ih
      | false => simpa [hkeep, he] using ih

/-- What stands at `path` is replaced. -/
def replace (entries : List (Path × Node)) (path : Path) (node : Node) : List (Path × Node) :=
  (path, node) :: entries.filter fun e => decide (e.1 ≠ path)

theorem find_replace (entries : List (Path × Node)) (path : Path) (node : Node) (q : Path) :
    find (replace entries path node) q = if q = path then some node else find entries q := by
  by_cases hq : q = path
  · subst hq
    simp [replace, find]
  · have hcons : find (replace entries path node) q = find (entries.filter fun e => decide (e.1 ≠ path)) q := by
      simp [replace, find, Ne.symm hq]
    rw [hcons, find_filter entries (fun p => decide (p ≠ path)), if_neg hq, if_pos (by simpa using hq)]

theorem mem_of_find {entries : List (Path × Node)} {q : Path} {node : Node} (h : find entries q = some node) :
    (q, node) ∈ entries := by
  obtain ⟨e, he, rfl⟩ := Option.map_eq_some_iff.mp h
  have hq : e.1 = q := by simpa using List.find?_some he
  rw [← hq]
  exact List.mem_of_find?_eq_some he

def Tree.ofEntries (entries : List (Path × Node)) (hroot : find entries [] = some .dir)
    (hparent : ∀ e ∈ entries, e.1 = [] ∨ find entries e.1.tail = some .dir) : Tree where
  entries := entries
  root := hroot
  parent name path h := by
    obtain ⟨node, hnode⟩ := Option.ne_none_iff_exists'.mp h
    exact (hparent _ (mem_of_find hnode)).resolve_left (List.cons_ne_nil _ _)

namespace Tree

variable {t : Tree} {path q : Path}

/-- A tree with another node at `name :: path`, where that leaves everything in a directory. -/
def put (t : Tree) (name : String) (path : Path) (node : Node) (hparent : t.get path = some .dir)
    (hbelow : node = .dir ∨ t.get (name :: path) ≠ some .dir) : Tree where
  entries := replace t.entries (name :: path) node
  root := by
    rw [find_replace, if_neg (List.cons_ne_nil _ _).symm]
    exact t.root
  parent n p h := by
    rw [find_replace] at h ⊢
    have hold : find t.entries p = some .dir := by
      by_cases hname : n :: p = name :: path
      · cases hname
        exact hparent
      · rw [if_neg hname] at h
        exact t.parent n p h
    by_cases hp : p = name :: path
    · subst hp
      rw [if_pos rfl]
      rcases hbelow with rfl | hbelow
      · rfl
      · exact absurd hold hbelow
    · rw [if_neg hp]
      exact hold

@[simp]
theorem get_put {name : String} {node : Node} {hparent : t.get path = some .dir}
    {hbelow : node = .dir ∨ t.get (name :: path) ≠ some .dir} :
    (t.put name path node hparent hbelow).get q = if q = name :: path then some node else t.get q :=
  find_replace t.entries (name :: path) node q

/-- A tree without what stands at `path` and below. -/
def drop (t : Tree) (path : Path) (hroot : path ≠ []) : Tree where
  entries := t.entries.filter fun e => decide (¬ path <:+ e.1)
  root := by
    rw [find_filter t.entries (fun p => decide (¬ path <:+ p)), if_pos]
    · exact t.root
    · simpa using hroot
  parent name p h := by
    rw [find_filter t.entries (fun p => decide (¬ path <:+ p))] at h ⊢
    by_cases hbelow : path <:+ name :: p
    · rw [if_neg (by simpa using hbelow)] at h
      exact absurd rfl h
    · rw [if_pos (by simpa using hbelow)] at h
      rw [if_pos (by simpa using fun hp => hbelow (hp.trans (List.suffix_cons name p)))]
      exact t.parent name p h

@[simp]
theorem get_drop {hroot : path ≠ []} : (t.drop path hroot).get q = if path <:+ q then none else t.get q := by
  show find (t.entries.filter _) q = _
  rw [find_filter t.entries (fun p => decide (¬ path <:+ p))]
  by_cases hbelow : path <:+ q <;> simp [hbelow, get]

/-! ### Calls -/

def stat (t : Tree) (path : Path) : Except Errno Node :=
  match t.get path with
  | none => .error .ENOENT
  | some node => .ok node

def names (t : Tree) (path : Path) : List String :=
  t.entries.filterMap fun e =>
    match e.1 with
    | [] => none
    | name :: parent => if parent = path then some name else none

def readdir (t : Tree) (path : Path) : Except Errno (List String) :=
  match t.get path with
  | none => .error .ENOENT
  | some (.file _) => .error .ENOTDIR
  | some .dir => .ok (t.names path)

/-- `mkdir` with `recursive`: the directories on the way are made too, and one that exists is fine. -/
def mkdir (t : Tree) : (path : Path) → Except Errno { t' : Tree // t'.get path = some .dir }
  | [] => .ok ⟨t, t.root⟩
  | name :: path =>
    match mkdir t path with
    | .error .EEXIST => .error .ENOTDIR
    | .error e => .error e
    | .ok ⟨t', ht'⟩ =>
      match hget : t'.get (name :: path) with
      | none => .ok ⟨t'.put name path .dir ht' (.inl rfl), by simp⟩
      | some (.file _) => .error .EEXIST
      | some .dir => .ok ⟨t', hget⟩

/-- `copyFile`, with the bytes of the file that is copied. -/
def writeFile (t : Tree) (path : Path) (bytes : List UInt8) : Except Errno Tree :=
  match path with
  | [] => .error .EISDIR
  | name :: path =>
    match hparent : t.get path with
    | none => .error .ENOENT
    | some (.file _) => .error .ENOTDIR
    | some .dir =>
      if hdir : t.get (name :: path) = some .dir then .error .EISDIR
      else .ok (t.put name path (.file bytes) hparent (.inr hdir))

/-- `rm` with `force`: what is not there is fine, a directory is not. -/
def rm (t : Tree) (path : Path) : Except Errno Tree :=
  match hget : t.get path with
  | none => .ok t
  | some .dir => .error .EISDIR
  | some (.file _) => .ok (t.drop path (by rintro rfl; rw [get_root] at hget; cases hget))

/-- `rm` with `force` and `recursive` -/
def rmAll (t : Tree) (path : Path) : Except Errno Tree :=
  if hroot : path = [] then .error .EBUSY else .ok (t.drop path hroot)

def rmdir (t : Tree) (path : Path) : Except Errno Tree :=
  if hroot : path = [] then .error .EBUSY
  else
    match t.get path with
    | none => .error .ENOENT
    | some (.file _) => .error .ENOTDIR
    | some .dir => if t.names path = [] then .ok (t.drop path hroot) else .error .ENOTEMPTY

/-! ### What the calls do -/

variable {t' : Tree}

@[simp]
theorem mem_names {name : String} : name ∈ t.names path ↔ t.get (name :: path) ≠ none := by
  show name ∈ t.entries.filterMap _ ↔ (t.entries.find? _).map _ ≠ none
  rw [List.mem_filterMap, Ne, Option.map_eq_none_iff, List.find?_eq_none]
  push Not
  refine exists_congr fun e => and_congr_right fun _ => ?_
  rcases e with ⟨_ | ⟨n, p⟩, node⟩
  · simp
  · by_cases hp : p = path
    · simp [hp]
    · simp [hp]

theorem stat_eq_ok {node : Node} : t.stat path = .ok node ↔ t.get path = some node := by
  unfold stat
  cases t.get path <;> simp

theorem mkdir_get {made : { t' : Tree // t'.get path = some .dir }} (h : t.mkdir path = .ok made) (q : Path) :
    made.1.get q = if q <:+ path ∧ t.get q = none then some .dir else t.get q := by
  induction path with
  | nil =>
    unfold mkdir at h
    cases h
    rw [if_neg]
    rintro ⟨hq, hnone⟩
    rw [List.suffix_nil.mp hq, get_root] at hnone
    cases hnone
  | cons name path ih =>
    unfold mkdir at h
    cases hup : t.mkdir path with
    | error e =>
      rw [hup] at h
      cases e <;> cases h
    | ok up =>
      have hget := ih hup
      rw [hup] at h
      dsimp only at h
      have hself : name :: path <:+ path ↔ False :=
        iff_false_intro fun hs => by simpa using hs.length_le
      split at h
      next hnone =>
        cases h
        rw [get_put]
        by_cases hq : q = name :: path
        · subst hq
          have hold : t.get (name :: path) = none := by
            have := hnone
            rw [hget, if_neg (by simp [hself])] at this
            exact this
          simp [hold]
        · rw [if_neg hq, hget]
          simp [List.suffix_cons_iff, hq]
      next hfile => cases h
      next hdir =>
        cases h
        show up.1.get q = _
        by_cases hq : q = name :: path
        · subst hq
          have hold : t.get (name :: path) = some .dir := by
            have := hdir
            rw [hget, if_neg (by simp [hself])] at this
            exact this
          rw [hdir, hold, if_neg (by simp)]
        · rw [hget]
          simp [List.suffix_cons_iff, hq]

/-- A directory can be made in a directory, unless there is a file. -/
theorem mkdir_ok {name : String} (hparent : t.get path = some .dir) (hfile : ∀ b, t.get (name :: path) ≠ some (.file b)) :
    ∃ made, t.mkdir (name :: path) = .ok made := by
  have hup : ∀ p, t.get p = some .dir → ∃ made, t.mkdir p = .ok made := by
    intro p hp
    induction p with
    | nil => exact ⟨_, rfl⟩
    | cons n p ih =>
      obtain ⟨up, hup⟩ := ih (get_parent (by rw [hp]; exact Option.some_ne_none _))
      have hkeep := mkdir_get hup (n :: p)
      rw [if_neg (by rw [hp]; simp), hp] at hkeep
      unfold mkdir
      rw [hup]
      dsimp only
      split
      next hnone => exact ⟨_, rfl⟩
      next hfile =>
        rw [hkeep] at hfile
        cases hfile
      next hdir => exact ⟨_, rfl⟩
  obtain ⟨up, hmade⟩ := hup path hparent
  have hkeep := mkdir_get hmade (name :: path)
  unfold mkdir
  rw [hmade]
  dsimp only
  split
  next hnone => exact ⟨_, rfl⟩
  next bytes hbytes =>
    rw [hkeep] at hbytes
    split at hbytes
    · cases hbytes
    · exact absurd hbytes (hfile bytes)
  next hdir => exact ⟨_, rfl⟩

theorem writeFile_get {bytes : List UInt8} (h : t.writeFile path bytes = .ok t') (q : Path) :
    t'.get q = if q = path then some (.file bytes) else t.get q := by
  unfold writeFile at h
  split at h
  · cases h
  · split at h
    · cases h
    · cases h
    · split at h
      · cases h
      · cases h
        exact get_put

theorem writeFile_ok {name : String} {bytes : List UInt8} (hparent : t.get path = some .dir)
    (hdir : t.get (name :: path) ≠ some .dir) : ∃ t', t.writeFile (name :: path) bytes = .ok t' := by
  unfold writeFile
  dsimp only
  split
  next h => exact absurd (hparent.symm.trans h) (by simp)
  next h => exact absurd (hparent.symm.trans h) (by simp)
  next h =>
    rw [dif_neg hdir]
    exact ⟨_, rfl⟩

theorem rm_get (h : t.rm path = .ok t') (q : Path) : t'.get q = if q = path then none else t.get q := by
  unfold rm at h
  split at h
  next hnone =>
    cases h
    by_cases hq : q = path
    · rw [if_pos hq, hq, hnone]
    · rw [if_neg hq]
  next => cases h
  next bytes hfile =>
    cases h
    rw [get_drop]
    by_cases hq : q = path
    · rw [if_pos hq, if_pos (hq ▸ List.suffix_rfl)]
    · rw [if_neg hq]
      by_cases hbelow : path <:+ q
      · rw [if_pos hbelow, get_below (by rw [hfile]; simp) hbelow (Ne.symm hq)]
      · rw [if_neg hbelow]

theorem rm_ok (h : t.get path ≠ some .dir) : ∃ t', t.rm path = .ok t' := by
  unfold rm
  split
  next => exact ⟨_, rfl⟩
  next hdir => exact absurd hdir h
  next => exact ⟨_, rfl⟩

theorem rmAll_get (h : t.rmAll path = .ok t') (q : Path) : t'.get q = if path <:+ q then none else t.get q := by
  unfold rmAll at h
  split at h
  · cases h
  · cases h
    exact get_drop

theorem rmdir_get (h : t.rmdir path = .ok t') (q : Path) : t'.get q = if q = path then none else t.get q := by
  unfold rmdir at h
  split at h
  · cases h
  · split at h
    · cases h
    · cases h
    · split at h
      next hempty =>
        cases h
        rw [get_drop]
        by_cases hq : q = path
        · rw [if_pos hq, if_pos (hq ▸ List.suffix_rfl)]
        · rw [if_neg hq]
          by_cases hbelow : path <:+ q
          · rw [if_pos hbelow]
            obtain ⟨above, rfl⟩ := hbelow
            rcases List.eq_nil_or_concat above with rfl | ⟨outer, name, rfl⟩
            · exact absurd rfl hq
            · by_contra hsome
              have hchild : t.get (name :: path) ≠ none := by
                have hbelow : name :: path <:+ outer.concat name ++ path := ⟨outer, by simp⟩
                rcases get_above (Ne.symm hsome) hbelow with heq | hdir
                · rw [heq]
                  exact Ne.symm hsome
                · rw [hdir]
                  exact Option.some_ne_none _
              rw [← mem_names, hempty] at hchild
              exact absurd hchild List.not_mem_nil
          · rw [if_neg hbelow]
      · cases h

theorem rmdir_ok (hroot : path ≠ []) (hdir : t.get path = some .dir) (hempty : t.names path = []) :
    ∃ t', t.rmdir path = .ok t' := by
  unfold rmdir
  rw [dif_neg hroot, hdir]
  dsimp only
  rw [if_pos hempty]
  exact ⟨_, rfl⟩

end Tree

end FileTree
