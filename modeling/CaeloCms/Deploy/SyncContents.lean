import CaeloCms.Lib.FileTree
import CaeloCms.Lib.Tasks

/-!
# Mirroring a build

`syncContents` turns the directory that is served into the files of a build, in place: it clears what is in the way,
makes the directories, copies, removes what the build has not, and prunes what is empty.  Each pass starts its workers
side by side, and every call of a worker to the file system is a step of its own.  A removal may fail with `EFAULT` at
the paths `faulty` names, which the code tolerates.
-/

namespace CaeloCms.Deploy.Sync

open FileTree Tasks

/-! ### `static-cache-policy` -/

def isHex (c : Char) : Bool := c.isDigit || ('a' ≤ c && c ≤ 'f')

def isLowerOrDigit (c : Char) : Bool := c.isLower || c.isDigit

/-- `[0-9a-f]` that many times -/
def hexes (n : Nat) (cs : List Char) : Bool := cs.length == n && cs.all isHex

/-- `[…][a-z0-9-]*` with what the first character may be -/
def slugOf (first : Char → Bool) : List Char → Bool
  | [] => false
  | c :: cs => first c && cs.all fun c => isLowerOrDigit c || c == '-'

/-- `[a-z]+(?:-[a-z]+)?` -/
def sliceName (cs : List Char) : Bool :=
  let parts := cs.splitOn '-'
  parts.length ≤ 2 && parts.all fun p => !p.isEmpty && p.all Char.isLower

def isLineTerminator (c : Char) : Bool := c == '\n' || c == '\r' || c == '\u2028' || c == '\u2029'

/-- `<hash>.<ext>` behind the first name of a published media file -/
def mediaSuffix (hash ext : List Char) : Bool :=
  hexes 16 hash && 2 ≤ ext.length && ext.length ≤ 5 && ext.all isLowerOrDigit

/-- `CONTENT_HASHED_PATH_PATTERN`, behind its leading slash -/
def contentHashed (rest : List Char) : Bool :=
  let immutable := "_app/immutable/".toList
  (immutable.isPrefixOf rest && immutable.length < rest.length &&
      (rest.drop immutable.length).all fun c => !isLineTerminator c) ||
    match (rest.splitOn '/').map String.ofList with
    | ["_assets", "fonts", "pinned", name] =>
      (match name.toList.splitOn '.' with
        | [source, axes, slice, tag, ext] =>
          hexes 64 source && hexes 12 axes && sliceName slice && hexes 12 tag && ext == "woff2".toList
        | [hash, ext] => hexes 16 hash && ext == "woff2".toList
        | _ => false)
    | ["_assets", "fonts", family, name] =>
      (match name.toList.splitOn '.' with
        | [hash, ext] => !family.isEmpty && hexes 16 hash && ext == "woff2".toList
        | _ => false)
    | ["_assets", name] =>
      (match name.toList.splitOn '.' with
        | [slug, hash, ext] => slugOf isLowerOrDigit slug && mediaSuffix hash ext
        | _ => false)
    | ["_assets", slug, name] =>
      (match name.toList.splitOn '.' with
        | [variant, hash, ext] =>
          slugOf isLowerOrDigit slug.toList && slugOf Char.isLower variant && mediaSuffix hash ext
        | _ => false)
    | ["_caelo", "plugin", plugin, name] =>
      (match (name.toList.splitOn '.').reverse with
        | ext :: hash :: part :: parts =>
          !plugin.isEmpty && (!part.isEmpty || !parts.isEmpty) && hexes 12 hash &&
            (ext == "js".toList || ext == "css".toList)
        | _ => false)
    | _ => false

def isContentHashedPath (path : List Char) : Bool :=
  contentHashed (if path.head? = some '/' then path.tail else path)

example : isContentHashedPath "_assets/logo.0123456789abcdef.png".toList = true := by decide +kernel

def relText (rel : Path) : List Char := ['/'].intercalate (rel.reverse.map String.toList)

/-! ### Calls -/

inductive Call where
  | stat (path : Path)
  /-- `stat` in the build -/
  | statSrc (rel : Path)
  | mkdir (path : Path)
  | rm (path : Path)
  | rmAll (path : Path)
  | copyFile (rel : Path)
  | readdir (path : Path)
  | rmdir (path : Path)

abbrev Reply : Call → Type
  | .stat _ => Node
  | .statSrc _ => Node
  | .readdir _ => List String
  | _ => Unit

abbrev Work := Task Call Reply Errno

def changing (t : Tree) (result : Except Errno Tree) : Except Errno Unit × Tree :=
  match result with
  | .ok t' => (.ok (), t')
  | .error e => (.error e, t)

/-- What the file system replies, and the target after it. -/
def perform (src : Tree) (call : Call) (dst : Tree) : Except Errno (Reply call) × Tree :=
  match call with
  | .stat path => (dst.stat path, dst)
  | .statSrc rel => (src.stat rel, dst)
  | .mkdir path => changing dst ((dst.mkdir path).map Subtype.val)
  | .rm path => changing dst (dst.rm path)
  | .rmAll path => changing dst (dst.rmAll path)
  | .copyFile rel =>
    match src.stat rel with
    | .ok (.file bytes) => changing dst (dst.writeFile rel bytes)
    | .ok .dir => (.error .EISDIR, dst)
    | .error e => (.error e, dst)
  | .readdir path => (dst.readdir path, dst)
  | .rmdir path => changing dst (dst.rmdir path)

def removes : Call → Option Path
  | .rm path => some path
  | .rmAll path => some path
  | .rmdir path => some path
  | _ => none

inductive Performs (src : Tree) (faulty : Path → Prop) : Machine Call Reply Errno Tree where
  | performs (call : Call) (dst : Tree) :
      Performs src faulty call dst (perform src call dst).1 (perform src call dst).2
  | faults (call : Call) (dst : Tree) (path : Path) (hremoves : removes call = some path) (hfaulty : faulty path) :
      Performs src faulty call dst (.error .EFAULT) dst

/-! ### `sync-contents.ts` -/

def orThrow {α : Type} (next : Work) : Except Errno α → Work
  | .ok _ => next
  | .error e => .fail e

/-- `tolerate`: go on, unless the error is another one. -/
def tolerate {α : Type} (next : Work) : Except Errno α → Work
  | .ok _ => next
  | .error e => if e ≠ .EFAULT ∧ e ≠ .ENOENT then .fail e else next

/-- `listTree` -/
structure Listing where
  files : List Path
  dirs : List Path

/-- `walk`, as deep as `depth` directories. -/
def walk (t : Tree) : Nat → Path → Listing
  | 0, _ => ⟨[], []⟩
  | depth + 1, rel =>
    let children := (t.names rel).map fun name =>
      let childRel := name :: rel
      if t.get childRel = some .dir then
        let sub := walk t depth childRel
        ⟨sub.files, childRel :: sub.dirs⟩
      else ⟨[childRel], []⟩
    ⟨children.flatMap Listing.files, children.flatMap Listing.dirs⟩

def height (t : Tree) : Nat := (t.entries.map fun e => e.1.length).foldr max 0

def listTree (t : Tree) : Listing := walk t (height t) []

/-- `byDepth`, with the order of the depths. -/
def byDepth (paths : List Path) (order : Nat → Nat → Bool) : List (List Path) :=
  ((paths.map List.length).dedup.mergeSort order).map fun depth => paths.filter fun p => p.length = depth

/-- `ASSET_REFERENCES_FILE` is the one internal file. -/
def buildInternalFiles : List Path := [["_caelo-asset-references.json"]]

/-- `listTree(src)`, without the internal files. -/
def sourceOf (src : Tree) : Listing :=
  let source := listTree src
  ⟨source.files.filter fun rel => rel ∉ buildInternalFiles, source.dirs⟩

/-- A file where the build has a directory goes. -/
def clearWorker (rel : Path) : Work :=
  .call (.stat rel) fun existing =>
    match existing with
    | .ok (.file _) => .call (.rm rel) (tolerate .done)
    | .ok .dir => .done
    | .error _ => .done

def mkdirWorker (rel : Path) : Work := .call (.mkdir rel) (orThrow .done)

def copy (rel : Path) : Work := .call (.copyFile rel) (orThrow .done)

/-- The bytes of a file; of a directory nothing is asked. -/
def sizeOf : Node → Nat
  | .dir => 0
  | .file bytes => bytes.length

/-- The copy is left out where the sizes agree. -/
def unlessSameSize (rel : Path) (bytes : List UInt8) : Except Errno Node → Work
  | .ok built => if bytes.length = sizeOf built then .done else copy rel
  | .error e => .fail e

/-- A file is copied, unless it is content-hashed and there with the same size. -/
def copyWorker (rel : Path) : Work :=
  .call (.stat rel) fun existing =>
    match existing with
    | .ok .dir => .call (.rmAll rel) (tolerate (copy rel))
    | .ok (.file bytes) =>
      if isContentHashedPath (relText rel) then .call (.statSrc rel) (unlessSameSize rel bytes) else copy rel
    | .error _ => copy rel

def removeWorker (rel : Path) : Work := .call (.rm rel) (tolerate .done)

/-- An empty directory goes; one that cannot be read counts as empty. -/
def pruneWorker (rel : Path) : Work :=
  .call (.readdir rel) fun remaining =>
    match remaining with
    | .ok (_ :: _) => .done
    | .ok [] => .call (.rmdir rel) (tolerate .done)
    | .error _ => .call (.rmdir rel) (tolerate .done)

def runBatched (src : Tree) (faulty : Path → Prop) (items : List Path) (worker : Path → Work) : Phase Tree Errno :=
  Batch (Performs src faulty) fun rel => if rel ∈ items then worker rel else .done

/-- What a call of `syncContents` may come to. -/
def syncContents (src : Tree) (faulty : Path → Prop) : Phase Tree Errno :=
  let source := sourceOf src
  (runBatched src faulty source.dirs clearWorker).andThen <|
  (Phase.each ((byDepth source.dirs (· ≤ ·)).map fun level => runBatched src faulty level mkdirWorker)).andThen <|
  (runBatched src faulty source.files copyWorker).andThen fun dst =>
    let mirrored := listTree dst
    ((runBatched src faulty (mirrored.files.filter fun rel => rel ∉ source.files) removeWorker).andThen <|
      Phase.each ((byDepth mirrored.dirs (· ≥ ·)).map fun level => runBatched src faulty level pruneWorker)) dst

end CaeloCms.Deploy.Sync
