import Gufo.Store.Publish

/-!
# Startup, retirement and reclamation

The constructor of `DiskStore::Impl`, `Retire` and `Reclaim` of
`src/cache/disk.cpp`. Discovery reads manifests and the sizes of their payload
files; a manifest it cannot read counts as rejected.
-/

namespace Gufo.Store
open Gufo.Disk Gufo.Program

section
variable (folding : Bool) (sizes : Layouts)

/-! ## Startup -/

/-- `Check`: the file is there, alone, and of the claimed size. -/
def dependencyPresent (w : Site) (p : Bool × DiskPayload) : Bool :=
  (w.now (keyOf p).folder p.2.file).any fun f => f.regular && f.size == p.2.bytes.toNat

/-- `ReadManifest` and the checks of its payloads, when every read succeeds. -/
def discover (w : Site) (file : DiskFileId) : Option DiskManifest := do
  let f ← w.now .manifests file
  invalidIf (!f.regular || decide (f.size < 20) || decide (f.size > maxManifestBytes))
  let _ ← planMetadata sizes f.bytes
  let m ← decodeManifest folding f.bytes
  invalidIf (!(payloads m).all (dependencyPresent w))
  return m

/-- One manifest file. `readable` tells whether its reads and those of its payloads' sizes
succeed; a failed one rejects it. -/
def discoverFile (readable : DiskFileId → Bool) (file : DiskFileId) : Op Unit := do
  reserve
  let w ← site
  match if readable file then discover folding sizes w file else none with
  | none => update fun w => { w with store := { w.store with
      rejectedManifests := w.store.rejectedManifests + 1 } }
  | some m => update fun w => { w with store := { w.store with
      entries := w.store.entries.concat { file, manifest := m, epoch := w.store.nextEpoch }
      nextEpoch := w.store.nextEpoch + 1 } }

/-- `ValidateReferences()`: every side of a conflict goes. -/
def rejectConflicts : Op Unit := do
  reserve
  update fun w => { w with store := { w.store with
    rejectedManifests := w.store.rejectedManifests +
      (w.store.entries.length - (accepted w.store.entries).length)
    entries := accepted w.store.entries } }

/-- The order of the index after startup. -/
def byFile (a b : DurableEntry) : Bool := decide (a.file.toList ≤ b.file.toList)

/-- The managed files counted; the sum must fit. -/
def countManaged : Op Unit := do
  call .io
  let w ← site
  reject (2 ^ 64 ≤ w.managedSize) .invalid
  update fun w => { w with store := { w.store with managedBytes := w.managedSize.toUInt64 } }

/-- The constructor, from the first scan on. -/
def startup (readable : DiskFileId → Bool) : Op Unit := do
  call .io
  countManaged
  reserve
  let files ← scan .manifests
  files.forM (discoverFile folding sizes readable)
  rejectConflicts
  update fun w => w.setRecovery (w.store.rejectedManifests != 0)
  syncFolder .manifests
  syncFolder .chunks
  syncFolder .privateFiles
  syncFolder .temporary
  update fun w => w.setEntries (w.store.entries.mergeSort byFile)

end

/-! ## Retirement -/

inductive RetireResult where
  | retired
  | missing
  | pinned
  deriving DecidableEq, Repr

/-- The payload files that no entry claims any more. -/
def removeDependency (p : Bool × DiskPayload) : Op Unit := do
  let w ← site
  if referenced w.store.entries (keyOf p) then return ()
  else remove (keyOf p).folder p.2.file

/-- The `try` block of `Retire`. -/
def removeFiles (retired : DurableEntry) : Op Unit := do
  remove .manifests retired.file
  syncFolder .manifests
  (payloads retired.manifest).forM removeDependency
  syncFolder .chunks
  syncFolder .privateFiles

/-- `Retire`. `pinned` tells whether a snapshot still holds the entry's pin. -/
def retire (id epoch : UInt64) (pinned : Bool) : Op RetireResult := do
  let w ← site
  reject (w.store.recoveryRequired = true) .recovery
  match w.store.entries.find? fun e => e.manifest.checkpoint == id with
  | none => return .missing
  | some e =>
    if epoch ≠ 0 ∧ e.epoch ≠ epoch then return .missing
    else if pinned then return .pinned
    else
      update fun w => { w with
        store := { w.store with entries := w.store.entries.erase e }
        published := w.published.filter (· != (e.file, e.manifest)) }
      onError (·.setRecovery true) (removeFiles e)
      return .retired

/-! ## Reclamation -/

/-- The unclaimed files of one directory removed. -/
def reclaimFolder (folder : Folder) (claimed : List DurableEntry → DiskFileId → Bool) : Op Unit := do
  let files ← scan folder
  files.forM fun id => do
    let w ← site
    if claimed w.store.entries id then return ()
    else remove folder id
  syncFolder folder

/-- `Reclaim` -/
def reclaim : Op Unit := do
  update (·.setRecovery true)
  reclaimFolder .manifests indexed
  reclaimFolder .chunks fun entries id => referenced entries (false, id)
  reclaimFolder .privateFiles fun entries id => referenced entries (true, id)
  reclaimFolder .temporary fun _ _ => false
  countManaged
  update (·.setRecovery false)

/-! ## Quarantine from outside -/

/-- `Invalidate` -/
def invalidate (id epoch : UInt64) : Op Unit :=
  update fun w => w.setEntries (w.store.entries.map fun e =>
    if e.manifest.checkpoint = id ∧ e.epoch = epoch then { e with available := false } else e)

/-- `InvalidateDependency` -/
def invalidateDependency (key : FileKey) : Op Unit := update (quarantine key)

end Gufo.Store
