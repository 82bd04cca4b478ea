import Mathlib

/-!
# The slots of the staged site

A Stage streams its build into an upload (`GcsBuildUpload`), whose files differ from the live ones or are identical to them, and
syncs the slot staging does not serve (`GcsSlotSync`): the manifest is deleted first, the files that changed are copied, what the
build no longer has is deleted, and the new manifest is written last.  Every change of the staging bucket is an operation in
flight from the call that starts it until it takes effect (`land`) or is lost (`drop`); a call may also fail while its operation
is still in flight (`timeout`).  Publish live and plugin-data builds write the live bucket at any time.

`opened` records which run was the last to open the sync of a slot.
-/

namespace CaeloCms.Deploy

abbrev RunId := String

inductive StagingSlot
  | a
  | b
deriving DecidableEq, Repr

def nextStagingSlot (served : Option StagingSlot) : StagingSlot := if served = some .a then .b else .a

/-- `StagedManifest`: the run and the hash of each file. -/
structure StagedManifest where
  runId : RunId
  files : List (String × String)
deriving DecidableEq, Repr

/-- The hash of each object of the live bucket (`BuildManifest.files`). -/
abbrev BuildManifest := List (String × String)

structure BuildUploadFile (β : Type) where
  relPath : String
  body : β
  alwaysUpload : Bool := false

/-- A referenced media file or font, with the bytes of its store. -/
structure BuildAsset (β : Type) where
  path : String
  bytes : β

structure BuildFiles (β : Type) where
  files : List (BuildUploadFile β)
  assets : List (BuildAsset β)

/-- A file of an upload: saved under the run's prefix, or identical to its live object. -/
structure BuildEntry (β : Type) where
  path : String
  hash : String
  bytes : β
  inPrefix : Bool

section

variable {β : Type}

/-- `GcsBuildUpload.put` -/
def put (crc32c : β → String) (manifest : Option BuildManifest) (file : BuildUploadFile β) : BuildEntry β :=
  let crc := crc32c file.body
  let identical := !file.alwaysUpload && (manifest.bind fun m => m.lookup file.relPath) == some crc
  { path := file.relPath, hash := crc, bytes := file.body, inPrefix := !identical }

/-- `uploadMissingAssets`: a path the live bucket holds is the same file. -/
def putAsset (manifest : Option BuildManifest) (asset : BuildAsset β) : BuildEntry β :=
  let present := (manifest.bind fun m => m.lookup asset.path).isSome
  { path := asset.path, hash := "name:" ++ asset.path, bytes := asset.bytes, inPrefix := !present }

def uploadEntries (crc32c : β → String) (manifest : Option BuildManifest) (build : BuildFiles β) : List (BuildEntry β) :=
  build.files.map (put crc32c manifest) ++ build.assets.map (putAsset manifest)

inductive CopySource (β : Type)
  /-- The object under the run's prefix, which has these bytes. -/
  | staged (bytes : β)
  /-- The live object of the same path, as it is when the copy takes effect. -/
  | live

inductive SlotOp (β : Type)
  | write (path : String) (source : CopySource β)
  | delete (path : String)
  | deleteManifest
  | saveManifest (manifest : StagedManifest)

structure InFlight (β : Type) where
  run : RunId
  slot : StagingSlot
  op : SlotOp β

inductive SyncPhase
  /-- The lease is held, and the upload is not open yet. -/
  | acquired
  | uploaded
  | opening
  | taking
  | deleting
  | saving
  | recorded
deriving DecidableEq, Repr

structure SlotSync (β : Type) where
  slot : StagingSlot
  phase : SyncPhase := .acquired
  entries : List (BuildEntry β) := []
  /-- The manifest the slot had. -/
  previous : Option StagedManifest := none
  /-- The files taken so far, and those still to be taken. -/
  taken : List (BuildEntry β) := []
  remaining : List (BuildEntry β) := []
  failed : Bool := false

structure Staging (β : Type) where
  live : String → Option β
  liveManifest : Option BuildManifest
  objects : StagingSlot → AList fun _ : String => β
  manifest : StagingSlot → Option StagedManifest
  inFlight : List (InFlight β)
  sync : RunId → Option (SlotSync β)
  opened : StagingSlot → Option RunId
  /-- The slot the projection points at. -/
  served : Option StagingSlot
  /-- The run that holds the staging publication. -/
  lease : Option RunId

inductive StageAction (β : Type)
  | acquire (run : RunId)
  | upload (run : RunId) (build : BuildFiles β)
  | openSync (run : RunId)
  | begin (run : RunId)
  | take (run : RunId)
  | list (run : RunId)
  | save (run : RunId)
  | record (run : RunId)
  /-- The run gives up, crashes, or its lease lapses. -/
  | stop (run : RunId)
  | land (n : Nat)
  | drop (n : Nat)
  | timeout (run : RunId)
  | writeLive (path : String) (body : Option β)
  | writeLiveManifest (manifest : Option BuildManifest)

/-- `GcsSlotSync.needs` -/
def SlotSync.needs (y : SlotSync β) (path hash : String) : Bool :=
  (y.previous.bind fun m => m.files.lookup path) != some hash

def SlotSync.manifestOf (y : SlotSync β) (run : RunId) : StagedManifest := ⟨run, y.taken.map fun e => (e.path, e.hash)⟩

def Staging.setSync (s : Staging β) (run : RunId) (y : SlotSync β) : Staging β :=
  { s with sync := Function.update s.sync run (some y) }

def Staging.quiet (s : Staging β) (run : RunId) : Bool := s.inFlight.all fun o => o.run != run

def Staging.syncing (s : Staging β) (run : RunId) (phase : SyncPhase) : Option (SlotSync β) :=
  (s.sync run).filter fun y => s.lease == some run && y.phase == phase && !y.failed

def Staging.failRun (s : Staging β) (run : RunId) : Staging β :=
  { s with sync := Function.update s.sync run ((s.sync run).map fun y => { y with failed := true }) }

def Staging.effect (s : Staging β) (o : InFlight β) : Staging β :=
  match o.op with
  | .write path source =>
    let bytes := match source with
      | .staged bytes => some bytes
      | .live => s.live path
    match bytes with
    | some bytes => { s with objects := Function.update s.objects o.slot ((s.objects o.slot).insert path bytes) }
    -- the copy's source is gone
    | none => s.failRun o.run
  | .delete path => { s with objects := Function.update s.objects o.slot ((s.objects o.slot).erase path) }
  | .deleteManifest => { s with manifest := Function.update s.manifest o.slot none }
  | .saveManifest m => { s with manifest := Function.update s.manifest o.slot (some m) }

/-- `GcsSlotSync.take` of the next file. -/
def SlotSync.take (run : RunId) (y : SlotSync β) (e : BuildEntry β) (rest : List (BuildEntry β)) :
    SlotSync β × List (InFlight β) :=
  if y.taken.any fun e' => e'.path == e.path then ({ y with failed := true }, [])
  else
    let y' := { y with taken := y.taken ++ [e], remaining := rest }
    if y.needs e.path e.hash then (y', [⟨run, y.slot, .write e.path (if e.inPrefix then .staged e.bytes else .live)⟩])
    else (y', [])

def SlotSync.stale (y : SlotSync β) (objects : AList fun _ : String => β) : List String :=
  objects.keys.filter fun path => !y.taken.any fun e => e.path == path

def stageStep (crc32c : β → String) (s : Staging β) : StageAction β → Option (Staging β)
  | .acquire run =>
    if s.lease.isNone && (s.sync run).isNone then
      some { s.setSync run { slot := nextStagingSlot s.served } with lease := some run }
    else none
  | .upload run build =>
    (s.syncing run .acquired).map fun y =>
      let entries := uploadEntries crc32c s.liveManifest build
      -- a file that is written twice stops the upload
      if (build.files.map (·.relPath)).Nodup then
        s.setSync run { y with phase := .uploaded, entries := entries, remaining := entries }
      else s.failRun run
  | .openSync run =>
    (s.syncing run .uploaded).map fun y =>
      let previous := s.manifest y.slot
      let calls := if previous.isSome then [⟨run, y.slot, .deleteManifest⟩] else []
      { s.setSync run { y with phase := .opening, previous := previous } with
        opened := Function.update s.opened y.slot (some run), inFlight := s.inFlight ++ calls }
  | .begin run =>
    (s.syncing run .opening).bind fun y => if s.quiet run then some (s.setSync run { y with phase := .taking }) else none
  | .take run =>
    (s.syncing run .taking).bind fun y =>
      match y.remaining with
      | [] => none
      | e :: rest =>
        let taken := y.take run e rest
        some { s.setSync run taken.1 with inFlight := s.inFlight ++ taken.2 }
  | .list run =>
    (s.syncing run .taking).bind fun y =>
      if y.remaining.isEmpty && s.quiet run then
        some { s.setSync run { y with phase := .deleting } with
          inFlight := s.inFlight ++ (y.stale (s.objects y.slot)).map fun path => ⟨run, y.slot, .delete path⟩ }
      else none
  | .save run =>
    (s.syncing run .deleting).bind fun y =>
      if s.quiet run then
        some { s.setSync run { y with phase := .saving } with
          inFlight := s.inFlight ++ [⟨run, y.slot, .saveManifest (y.manifestOf run)⟩] }
      else none
  | .record run =>
    (s.syncing run .saving).bind fun y =>
      if s.quiet run then
        some { s.setSync run { y with phase := .recorded } with served := some y.slot, lease := none }
      else none
  | .stop run => if s.lease == some run then some { s with lease := none } else none
  | .land n => s.inFlight[n]?.map fun o => { s.effect o with inFlight := s.inFlight.eraseIdx n }
  | .drop n => s.inFlight[n]?.map fun o => { s.failRun o.run with inFlight := s.inFlight.eraseIdx n }
  | .timeout run => some (s.failRun run)
  | .writeLive path body => some { s with live := Function.update s.live path body }
  | .writeLiveManifest manifest => some { s with liveManifest := manifest }

def Staging.start (live : String → Option β) (liveManifest : Option BuildManifest)
    (objects : StagingSlot → AList fun _ : String => β) : Staging β where
  live := live
  liveManifest := liveManifest
  objects := objects
  manifest _ := none
  inFlight := []
  sync _ := none
  opened _ := none
  served := none
  lease := none

end

end CaeloCms.Deploy
