import Gufo.Disk.Codec
import Gufo.Lib.Program
import Gufo.Lib.Volatile

/-!
# The disk store

`DiskStore::Impl` of `src/cache/disk.cpp`: its four managed directories, its index
and the file-system calls it makes.

* A directory is keyed by the ids that `ParseName` accepts, one name each; files
  under other names are `foreign`, and nothing here touches them.
* Every call into the system asks the world for an answer: it may proceed, fail
  without or with its effect, or be the point of a crash.
* Ghosts, which no step reads: what the payload files of a manifest held when it
  was put in place, the checkpoints published and not retired, and whether the
  byte counter ever went below zero.
-/

namespace Gufo.Store
open Gufo.Disk Gufo.Program Gufo.Volatile

/-- A managed directory. -/
inductive Folder where
  | manifests
  | chunks
  | privateFiles
  | temporary
  deriving DecidableEq, Repr

def Folder.all : List Folder := [.manifests, .chunks, .privateFiles, .temporary]

/-- A payload file: whether it is private, and its id. -/
abbrev FileKey := Bool × DiskFileId

def FileKey.folder (key : FileKey) : Folder := if key.1 then .privateFiles else .chunks

/-- A regular file. -/
structure File where
  bytes : List UInt8 := []
  links : Nat := 1
  synced : Bool := false
  attested : List (FileKey × List UInt8) := []
  deriving DecidableEq

def File.size (f : File) : Nat := f.bytes.length

/-- `Regular` of a file that is one. -/
def File.regular (f : File) : Bool := f.links == 1

structure DurableEntry where
  file : DiskFileId
  manifest : DiskManifest
  durable : Bool := true
  payloadVerified : Bool := false
  available : Bool := true
  epoch : UInt64 := 0
  deriving DecidableEq

structure DiskStore where
  entries : List DurableEntry := []
  budgetBytes : UInt64
  managedBytes : UInt64 := 0
  recoveryRequired : Bool := false
  nextEpoch : UInt64 := 1
  rejectedManifests : Nat := 0
  underflow : Bool := false

/-- What the system answers to one call. -/
inductive Reply where
  | proceed
  | fail
  /-- The effect took place, and an error is reported. -/
  | uncertain
  | crash
  deriving DecidableEq, Repr

/-- A reply, with the number of bytes a write took or the order a scan met its files in. -/
structure Answer where
  reply : Reply := .proceed
  count : Nat := 0
  order : List DiskFileId := []

/-- The directories and the store. -/
structure Site where
  folders : Folder → Directory DiskFileId File := fun _ => {}
  foreign : Folder → List (List UInt8) := fun _ => []
  store : DiskStore
  published : List (DiskFileId × DiskManifest) := []

structure World extends Site where
  answers : Nat → Answer := fun _ => {}
  asked : Nat := 0

/-- Why a call ends early. A crash is no exception: no handler sees it. -/
inductive Failure where
  | invalid
  | io
  | dependency (key : FileKey)
  | capacity
  /-- `ResourceExhausted` of the ledger. -/
  | exhausted
  | recovery
  | quarantined
  | epochs
  /-- What a caller's `read` or `acquire` throws. -/
  | callback
  | crashed
  deriving DecidableEq

abbrev Op := EStateM Failure World

namespace Site

def now (w : Site) (folder : Folder) (id : DiskFileId) : Option File := (w.folders folder).now id

/-- One directory changed. -/
def change (w : Site) (folder : Folder) (f : Directory DiskFileId File → Directory DiskFileId File) :
    Site :=
  { w with folders := fun g => if g = folder then f (w.folders g) else w.folders g }

/-- The size of every managed file. -/
def managedSize (w : Site) : Nat := (Folder.all.map fun g => (w.folders g).size File.size).sum

/-- The size of every file in the managed directories. -/
def totalSize (w : Site) : Nat :=
  w.managedSize + (Folder.all.map fun g => ((w.foreign g).map List.length).sum).sum

def setEntries (w : Site) (entries : List DurableEntry) : Site :=
  { w with store := { w.store with entries } }

def setRecovery (w : Site) (required : Bool) : Site :=
  { w with store := { w.store with recoveryRequired := required } }

/-- `stats.managed_bytes += n` -/
def credit (w : Site) (n : Nat) : Site :=
  { w with store := { w.store with managedBytes := w.store.managedBytes + n.toUInt64 } }

/-- `stats.managed_bytes -= n` -/
def debit (w : Site) (n : Nat) : Site :=
  { w with store := { w.store with
      managedBytes := w.store.managedBytes - n.toUInt64
      underflow := w.store.underflow || decide (w.store.managedBytes.toNat < n) } }

end Site

/-! ## System calls -/

def site : Op Site := do
  let w ← get
  return w.toSite

def update (f : Site → Site) : Op Unit := modify fun w => { w with toSite := f w.toSite }

/-- The world's next answer; a crash ends everything here. -/
def ask : Op Answer := do
  let w ← get
  set { w with asked := w.asked + 1 }
  reject ((w.answers w.asked).reply = .crash) .crashed
  return w.answers w.asked

/-- A call without effect that may fail. -/
def call (e : Failure) : Op Unit := do
  let a ← ask
  reject (a.reply ≠ .proceed) e

/-- `Reserve` of the ledger. -/
def reserve : Op Unit := call .exhausted

/-- A call with an effect: it fails without it, or succeeds or fails with it. -/
def effect (f : Site → Site) : Op Unit := do
  let a ← ask
  reject (a.reply = .fail) .io
  update f
  reject (a.reply = .uncertain) .io

/-- `Exists` -/
def exists_ (folder : Folder) (id : DiskFileId) : Op Bool := do
  call .io
  let w ← site
  return (w.now folder id).isSome

/-- `Create`: the name must be new. -/
def create (id : DiskFileId) : Op Unit := do
  let w ← site
  reject ((w.now .temporary id).isSome) .io
  effect fun w => w.change .temporary (·.put id (some {}))

/-- One `write`, which takes at least a byte, and its bytes counted. -/
def writeSome (id : DiskFileId) (bytes : List UInt8) : Op Nat := do
  let a ← ask
  reject (a.reply ≠ .proceed) .io
  let n := max 1 (min a.count bytes.length)
  update fun w => (w.change .temporary
    (·.amend id fun f => { f with bytes := f.bytes ++ bytes.take n })).credit n
  return n

/-- `WriteFile`; the fuel is the number of bytes. -/
def writeLoop (id : DiskFileId) : Nat → List UInt8 → Op Unit
  | 0, _ => return ()
  | _ + 1, [] => return ()
  | fuel + 1, b :: bytes => do
    let n ← writeSome id (b :: bytes)
    writeLoop id fuel ((b :: bytes).drop n)

def writeFile (id : DiskFileId) (bytes : List UInt8) : Op Unit := writeLoop id bytes.length bytes

/-- `Sync` of a new file. -/
def syncFile (id : DiskFileId) : Op Unit :=
  effect fun w => w.change .temporary (·.amend id fun f => { f with synced := true })

/-- `Sync` of a directory. -/
def syncFolder (folder : Folder) : Op Unit := effect fun w => w.change folder (·.sync)

/-- `Rename`: from the temporary directory, never over a file. -/
def rename (folder : Folder) (id : DiskFileId) : Op Unit := do
  let w ← site
  reject ((w.now .temporary id).isNone ∨ (w.now folder id).isSome) .io
  effect fun w => (w.change folder (·.put id (w.now .temporary id))).change .temporary (·.put id none)

/-- `Remove`: a file with other links stays. -/
def remove (folder : Folder) (id : DiskFileId) : Op Unit := do
  call .io
  let w ← site
  match w.now folder id with
  | none => return ()
  | some f =>
    if !f.regular then return ()
    else
      effect fun w => w.change folder (·.put id none)
      update (·.debit f.size)

/-- The files of a directory in the order a scan met them. -/
def arrange (order present : List DiskFileId) : List DiskFileId :=
  (order.dedup.filter (· ∈ present)) ++ present.filter (· ∉ order)

/-- `Scan`: the names that `ParseName` accepts. -/
def scan (folder : Folder) : Op (List DiskFileId) := do
  let a ← ask
  reject (a.reply ≠ .proceed) .io
  let w ← site
  return arrange a.order (w.folders folder).present

/-! ## Exceptions -/

/-- `catch (...) { f; throw; }` -/
def onError (f : Site → Site) (body : Op α) : Op α := fun w =>
  match body w with
  | .ok a w => .ok a w
  | .error .crashed w => .error .crashed w
  | .error e w => .error e { w with toSite := f w.toSite }

/-! ## Claims of the index -/

/-- Every payload of a manifest, with the directory it is in. -/
def payloads (m : DiskManifest) : List (Bool × DiskPayload) :=
  m.components.flatMap fun c =>
    c.chunks.map (fun p => (false, p)) ++ (c.tail.toList ++ c.privateState.toList).map (fun p => (true, p))

def keyOf (p : Bool × DiskPayload) : FileKey := (p.1, p.2.file)

/-- `Referenced`, for a payload. -/
def referenced (entries : List DurableEntry) (key : FileKey) : Bool :=
  entries.any fun e => (payloads e.manifest).any fun p => keyOf p == key

/-- `Referenced`, for a manifest. -/
def indexed (entries : List DurableEntry) (file : DiskFileId) : Bool :=
  entries.any (·.file == file)

/-- What a claim on a file says about its contents. -/
structure Geometry where
  compatibility : CompatibilityDigest
  lineage : UInt64
  component : UInt32
  layoutVersion : UInt32
  rowBytes : UInt64
  rowsPerChunk : UInt64
  /-- The first row; `Add` cannot overflow, since `Validate` bounds the chunks by the rows. -/
  first : Nat
  bytes : UInt64
  checksum : UInt64
  deriving DecidableEq

structure Claim where
  key : FileKey
  geometry : Geometry
  deriving DecidableEq

def geometry (m : DiskManifest) (d : ComponentDescriptor) (first : Nat) (p : DiskPayload) :
    Geometry :=
  ⟨m.compatibility, m.lineage, d.id, d.layoutVersion, d.rowBytes, d.rowsPerChunk, first, p.bytes,
    p.checksum⟩

def componentClaims (m : DiskManifest) (c : DiskComponent) : List Claim :=
  let d := c.descriptor
  let first := c.chunks.length * d.rowsPerChunk.toNat
  c.chunks.zipIdx.map (fun (p, n) =>
      ⟨(false, p.file), geometry m d (n * d.rowsPerChunk.toNat) p⟩) ++
    (c.tail.toList ++ c.privateState.toList).map fun p => ⟨(true, p.file), geometry m d first p⟩

/-- The claims of one manifest. -/
def manifestClaims (m : DiskManifest) : List Claim := m.components.flatMap (componentClaims m)

/-- A later claim on a file conflicts with the first: always on a private file, and on a chunk
when they differ. -/
def conflicts (cs : List Claim) (key : FileKey) : Bool :=
  match cs.filter fun c => c.key == key with
  | [] => false
  | first :: rest => rest.any fun c => key.1 || c.geometry != first.geometry

/-- Another manifest has the checkpoint's id. -/
def duplicated (ms : List DiskManifest) (m : DiskManifest) : Bool :=
  decide (1 < (ms.filter fun o => o.checkpoint == m.checkpoint).length)

/-- What `ValidateReferences` marks: an entry with a claim on a file in conflict, or with a
checkpoint of two owners. -/
def rejected (ms : List DiskManifest) (m : DiskManifest) : Bool :=
  duplicated ms m ||
    (manifestClaims m).any fun c => conflicts (ms.flatMap manifestClaims) c.key

def manifestsOf (entries : List DurableEntry) : List DiskManifest := entries.map (·.manifest)

/-- The entries that no conflict touches. -/
def accepted (entries : List DurableEntry) : List DurableEntry :=
  entries.filter fun e => !rejected (manifestsOf entries) e.manifest

/-- `ValidateReferences(false)` -/
def requireCoherent : Op Unit := do
  reserve
  let w ← site
  reject (w.store.entries.any fun e => rejected (manifestsOf w.store.entries) e.manifest) .invalid

/-- `Quarantine` -/
def quarantine (key : FileKey) (w : Site) : Site :=
  w.setEntries (w.store.entries.map fun e =>
    if (payloads e.manifest).any fun p => keyOf p == key then { e with available := false } else e)

end Gufo.Store
