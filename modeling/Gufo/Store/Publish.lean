import Gufo.Store.State
import Gufo.Disk.Plan

/-!
# Publication

`DiskStore::Impl::Publish` of `src/cache/disk.cpp`, in the order of its code: checks,
capacity, dependencies, the provisional index entry, payload files, the three
directory syncs, and the manifest.

* A streamed source is its bytes; reading a piece of it may throw.
* Whether the verification cache knows a file, and what other threads quarantine
  meanwhile, are answers of the world.
-/

namespace Gufo.Store
open Gufo.Disk Gufo.Program

/-- `DiskWriteBuffer` -/
structure WriteBuffer where
  privateFile : Bool
  file : DiskFileId
  bytes : List UInt8

/-- `DiskWriteSource`: `read` fills each piece from `content`. -/
structure WriteSource where
  privateFile : Bool
  file : DiskFileId
  content : List UInt8
  hasRead : Bool := true
  alignment : Nat := 1

def WriteBuffer.key (b : WriteBuffer) : FileKey := (b.privateFile, b.file)
def WriteSource.key (s : WriteSource) : FileKey := (s.privateFile, s.file)

/-- The payload files a manifest depends on, in the order of their keys. -/
abbrev Dependencies := List (FileKey × DiskPayload)

/-- The order of `std::pair<bool, DiskFileId>`. -/
def before (a b : FileKey) : Bool :=
  (!a.1 && b.1) || (a.1 == b.1 && decide (a.2.toList < b.2.toList))

/-- `emplace`: a key that is there keeps its payload. -/
def emplace (key : FileKey) (p : DiskPayload) : Dependencies → Dependencies
  | [] => [(key, p)]
  | (k, q) :: rest =>
    if key = k then (k, q) :: rest
    else if before key k then (key, p) :: (k, q) :: rest
    else (k, q) :: emplace key p rest

def dependencies (m : DiskManifest) : Dependencies :=
  (payloads m).foldl (fun deps p => emplace (keyOf p) p.2 deps) []

def lookup (deps : Dependencies) (key : FileKey) : Option DiskPayload :=
  (deps.find? fun d => d.1 == key).map (·.2)

/-- A manifest with its payloads changed. -/
def mapPayloads (f : Bool × DiskPayload → DiskPayload) (m : DiskManifest) : DiskManifest :=
  { m with components := m.components.map fun c =>
      { c with
        chunks := c.chunks.map fun p => f (false, p)
        tail := c.tail.map fun p => f (true, p)
        privateState := c.privateState.map fun p => f (true, p) } }

/-- The payload of a key replaced. -/
def replacePayload (key : FileKey) (q : DiskPayload) : DiskManifest → DiskManifest :=
  mapPayloads fun p => if keyOf p = key then q else p.2

/-- The checksum of a key set. -/
def setChecksum (key : FileKey) (crc : UInt64) : DiskManifest → DiskManifest :=
  mapPayloads fun p => if keyOf p = key then { p.2 with checksum := crc } else p.2

section
variable (folding : Bool) (sizes : Layouts)

/-- The checksum of bytes met piece by piece. -/
def streamChecksum (piece : Nat) : Nat → List UInt8 → UInt64 → UInt64
  | 0, _, crc => crc
  | fuel + 1, bytes, crc =>
    if bytes = [] then crc
    else streamChecksum piece fuel (bytes.drop piece) (diskChecksum folding (bytes.take piece) crc)

/-- A pass over all of the bytes in pieces of at most that size. -/
def checksumIn (piece : Nat) (bytes : List UInt8) : UInt64 :=
  streamChecksum folding piece bytes.length bytes 0

/-! ## Existing payloads -/

/-- `DependencyFailure` -/
def dependencyFailure (key : FileKey) : Op Unit := do
  update (quarantine key)
  throw (.dependency key)

/-- `Verify`; the first answer's count tells whether the verification cache knows the file. -/
def verify (staging : Nat) (key : FileKey) (p : DiskPayload) : Op Unit := do
  let w ← site
  reject (w.store.entries.any fun e => (payloads e.manifest).any fun q =>
    keyOf q == key && q.2 != p) .invalid
  let a ← ask
  let w ← site
  match w.now key.folder p.file with
  | none => dependencyFailure key
  | some f =>
    if a.reply ≠ .proceed ∨ !f.regular ∨ f.size ≠ p.bytes.toNat then dependencyFailure key
    else if a.count ≠ 0 then return ()
    else
      call (if staging = 0 then .exhausted else .callback)
      let b ← ask
      if b.reply ≠ .proceed ∨
          checksumIn folding (if staging = 0 then 65536 else staging) f.bytes ≠ p.checksum then
        dependencyFailure key
      else return ()

/-- An unspecified checksum resolved from the last entry that claims the file. -/
def resolved (entries : List DurableEntry) (key : FileKey) : Option DiskPayload :=
  ((entries.flatMap fun e => (payloads e.manifest).filter fun p => keyOf p == key).getLast?).map (·.2)

/-- What `Publish` was called with. -/
structure Publication where
  file : DiskFileId
  manifest : DiskManifest
  buffers : List WriteBuffer := []
  sources : List WriteSource := []
  staging : Nat := 0

/-- The candidate manifest and the dependencies met so far, with the bytes that are new. -/
structure Plan where
  candidate : DiskManifest
  dependencies : Dependencies := []
  additional : UInt64

/-- `Add` of the code: a sum that does not fit is invalid. -/
def add (a b : UInt64) : Op UInt64 := do
  reject (2 ^ 64 ≤ a.toNat + b.toNat) .invalid
  return a + b

/-- The dependency of a file that the index already claims. -/
def reuse (r : Publication) (key : FileKey) (p : DiskPayload) (plan : Plan) : Op Plan := do
  let w ← site
  if p.checksum = 0 ∧ r.sources.any (·.key == key) then
    reject (w.store.entries.any fun e => (payloads e.manifest).any fun q =>
      keyOf q == key && q.2.bytes != p.bytes) .invalid
    let p := ((resolved w.store.entries key).map fun q => { p with checksum := q.checksum }).getD p
    verify folding r.staging key p
    return { plan with
      candidate := replacePayload key p plan.candidate
      dependencies := plan.dependencies ++ [(key, p)] }
  else
    verify folding r.staging key p
    return { plan with dependencies := plan.dependencies ++ [(key, p)] }

/-- The dependency of a file that is to be written. -/
def supply (r : Publication) (key : FileKey) (p : DiskPayload) (plan : Plan) : Op Plan := do
  let stored ← exists_ key.folder p.file
  reject (stored = true) .invalid
  let temporary ← exists_ .temporary p.file
  reject (temporary = true) .invalid
  reject (p.file = r.file) .invalid
  reject (!r.buffers.any (·.key == key) && !r.sources.any (·.key == key)) .invalid
  let additional ← add plan.additional p.bytes
  return { plan with dependencies := plan.dependencies ++ [(key, p)], additional }

/-- One turn of the loop over the dependencies. -/
def planDependency (r : Publication) (plan : Plan) (d : FileKey × DiskPayload) : Op Plan := do
  let w ← site
  if referenced w.store.entries d.1 then reuse folding r d.1 d.2 plan
  else supply r d.1 d.2 plan

/-! ## Checks before anything is written -/

/-- The check of the supplied buffers. -/
def badBuffers (deps : Dependencies) (buffers : List WriteBuffer) : Bool :=
  buffers.any (fun b => match lookup deps b.key with
    | none => true
    | some p => b.bytes.length != p.bytes.toNat || diskChecksum folding b.bytes 0 != p.checksum) ||
    !(buffers.map (·.key)).Nodup

/-- The check of the streamed sources. -/
def badSources (deps : Dependencies) (sources : List WriteSource) (staging : Nat) : Bool :=
  sources.any (fun s => match lookup deps s.key with
    | none => true
    | some p => s.content.length != p.bytes.toNat || !s.hasRead || s.alignment == 0 ||
        decide (staging < s.alignment) || s.content.length % s.alignment != 0) ||
    !(sources.map (·.key)).Nodup

/-- Whether everything would fit even if every payload were new. -/
def surelyFits : UInt64 → Dependencies → Bool
  | _, [] => true
  | remaining, (_, p) :: rest =>
    if p.bytes > remaining then false else surelyFits (remaining - p.bytes) rest

/-- The payloads that the index does not claim. -/
def requiredBytes (entries : List DurableEntry) : UInt64 → Dependencies → Op UInt64
  | required, [] => return required
  | required, (key, p) :: rest => do
    if referenced entries key then requiredBytes entries required rest
    else
      let required ← add required p.bytes
      requiredBytes entries required rest

/-- The capacity check before the stored payloads are read. -/
def checkCapacity (manifestBytes : UInt64) (deps : Dependencies) : Op Unit := do
  let w ← site
  let s := w.store
  let remaining := if s.managedBytes > s.budgetBytes then 0 else s.budgetBytes - s.managedBytes
  if manifestBytes ≤ remaining ∧ surelyFits (remaining - manifestBytes) deps then return ()
  else
    let required ← requiredBytes s.entries manifestBytes deps
    reject (s.managedBytes > s.budgetBytes ∨ required > s.budgetBytes - s.managedBytes) .capacity

/-- The exact check. -/
def requireCapacity (additional : UInt64) : Op Unit := do
  let w ← site
  let s := w.store
  reject (s.managedBytes > s.budgetBytes ∨ additional > s.budgetBytes - s.managedBytes) .capacity

/-- No dependency belongs to a quarantined entry. -/
def requireAvailable (deps : Dependencies) : Op Unit := do
  let w ← site
  let poisoned := (w.store.entries.filter fun e => !e.available).flatMap fun e =>
    (payloads e.manifest).filter fun p => (lookup deps (keyOf p)).isSome
  match poisoned with
  | [] => return ()
  | p :: _ => throw (.dependency (keyOf p))

/-- The last entry's manifest changed. -/
def changeLast (f : DurableEntry → DurableEntry) (entries : List DurableEntry) :
    List DurableEntry :=
  entries.modify (entries.length - 1) f

/-! ## Writing -/

/-- Another thread may have quarantined the candidate. -/
def requireUnquarantined : Op Unit := do
  let a ← ask
  reject (a.reply ≠ .proceed) .quarantined

/-- A source copied piece by piece, with its checksum. -/
def copyLoop (id : DiskFileId) (piece : Nat) : Nat → List UInt8 → UInt64 → Op UInt64
  | 0, _, crc => return crc
  | fuel + 1, bytes, crc =>
    if bytes = [] then return crc
    else do
      call .callback
      writeFile id (bytes.take piece)
      copyLoop id piece fuel (bytes.drop piece) (diskChecksum folding (bytes.take piece) crc)

/-- A streamed payload's bytes, and the checksum set in the candidate. -/
def copySource (r : Publication) (s : WriteSource) (key : FileKey) (p : DiskPayload) : Op Unit := do
  let piece := r.staging / s.alignment * s.alignment
  let crc ← copyLoop folding p.file piece s.content.length s.content 0
  reject (p.checksum ≠ 0 ∧ p.checksum ≠ crc) .invalid
  update fun w => w.setEntries (changeLast (fun e =>
    { e with manifest := setChecksum key crc e.manifest }) w.store.entries)

/-- One turn of the loop that writes the payloads. A key without buffer or source was found in
the directory. -/
def writeDependency (r : Publication) (d : FileKey × DiskPayload) : Op Unit := do
  let stored ← exists_ d.1.folder d.2.file
  if stored then return ()
  else
    create d.2.file
    match r.buffers.find? (·.key == d.1), r.sources.find? (·.key == d.1) with
    | some b, _ => writeFile d.2.file b.bytes
    | none, some s => copySource folding r s d.1 d.2
    | none, none => throw .invalid
    syncFile d.2.file
    rename d.1.folder d.2.file

/-- The bytes of the final manifest: a stream may have set checksums. -/
def finalBytes (r : Publication) (bytes : List UInt8) : Op (List UInt8) := do
  if r.sources = [] then return bytes
  else
    let w ← site
    match w.store.entries.getLast?.bind fun e => encodeManifest folding e.manifest with
    | none => throw .invalid
    | some bytes => return bytes

/-- What the payload files of a manifest hold. -/
def snapshot (w : Site) (m : DiskManifest) : List (FileKey × List UInt8) :=
  (payloads m).filterMap fun p =>
    (w.now (keyOf p).folder p.2.file).map fun f => (keyOf p, f.bytes)

/-- The manifest written to the temporary directory. -/
def writeManifest (r : Publication) (bytes : List UInt8) : Op Unit := do
  create r.file
  writeFile r.file bytes
  update fun w => w.change .temporary (·.amend r.file fun f =>
    { f with attested := ((w.store.entries.getLast?).map fun e => snapshot w e.manifest).getD [] })
  syncFile r.file

/-- From the manifest's rename on, a failure leaves the outcome uncertain. -/
def commit (r : Publication) : Op Unit := do
  rename .manifests r.file
  syncFolder .manifests
  syncFolder .temporary
  requireUnquarantined
  update fun w => w.setEntries (changeLast (fun e =>
    { e with durable := true, payloadVerified := true }) w.store.entries)

/-- The `try` block. -/
def write (r : Publication) (deps : Dependencies) (bytes : List UInt8) : Op Unit := do
  requireCoherent
  deps.forM (writeDependency folding r)
  syncFolder .temporary
  syncFolder .chunks
  syncFolder .privateFiles
  requireUnquarantined
  let bytes ← finalBytes folding r bytes
  writeManifest r bytes
  onError (·.setRecovery true) (commit r)

/-- The candidate joins the index, not yet durable. -/
def provision (r : Publication) (candidate : DiskManifest) : Op Unit := do
  let w ← site
  reject (w.store.nextEpoch = 0xffffffffffffffff) .epochs
  update fun w => { w with store := { w.store with
    entries := w.store.entries.concat
      { file := r.file, manifest := candidate, durable := false, epoch := w.store.nextEpoch }
    nextEpoch := w.store.nextEpoch + 1 } }

/-- The checkpoint counts as published from its return on. -/
def recordPublished (w : Site) : Site :=
  { w with published := w.published ++ (w.store.entries.getLast?.map fun e => (e.file, e.manifest)).toList }

/-- The checks on the request itself. -/
def checkRequest (r : Publication) : Op (List UInt8 × DiskManifest) := do
  reserve
  match encodeManifest folding r.manifest with
  | none => throw .invalid
  | some bytes =>
    reject ((planMetadata sizes bytes).isNone) .invalid
    reserve
    match decodeManifest folding bytes with
    | none => throw .invalid
    | some candidate =>
      reserve
      reserve
      let stored ← exists_ .manifests r.file
      reject (stored = true) .invalid
      let temporary ← exists_ .temporary r.file
      reject (temporary = true) .invalid
      let deps := dependencies r.manifest
      reject (badBuffers folding deps r.buffers = true) .invalid
      reject (badSources deps r.sources r.staging = true) .invalid
      return (bytes, candidate)

/-- `Publish` -/
def publish (r : Publication) : Op Unit := do
  let w ← site
  reject (w.store.recoveryRequired = true) .recovery
  let (bytes, candidate) ← checkRequest folding sizes r
  checkCapacity bytes.length.toUInt64 (dependencies r.manifest)
  let plan ← (dependencies r.manifest).foldlM (planDependency folding r)
    { candidate, additional := bytes.length.toUInt64 }
  requireCapacity plan.additional
  requireAvailable plan.dependencies
  reserve
  provision r plan.candidate
  onError (fun w => w.setEntries w.store.entries.dropLast) (write folding r plan.dependencies bytes)
  update recordPublished

end

end Gufo.Store
