import Gufo.Disk.Checksum
import Gufo.Disk.Manifest
import Gufo.Lib.Program

/-!
# Streaming restore

`StreamedStore::Restore` (`src/cache/streaming.cpp`) and `DiskStore::ReadPayload`
(`src/cache/disk.cpp`): a checkpoint is read from disk, payload by payload through one
staging buffer, and copied into a slot.

* What the device, the adapter, the files and the stop token answer is an argument; a
  question is known by its number.
* A transfer takes its bytes out of staging when it is issued. That nothing else is
  written there until it has settled is proved of the trace.
* Timings and the prefetcher, which only gives hints, are left out.
-/

namespace Gufo.Streaming
open Gufo.Disk Gufo.Program

/-- Calls into the adapter, and what staging and its transfers do meanwhile. -/
inductive Event where
  | beginRestore (positions : List ComponentPosition)
  /-- So many bytes of staging, from the first number on, are read from a file. -/
  | fill (start length : Nat)
  | copyRowsIn (component : UInt32) (first finish : Nat) (bytes : List UInt8)
  | loadPrivatePiece (component : UInt32) (offset : Nat) (bytes : List UInt8)
  /-- `Settle` has waited for the transfer. -/
  | settled
  | validate
  deriving DecidableEq

/-- What ends the `try` block. -/
inductive Error where
  | stopped
  | missing
  | unsupported
  | refused
  | layout
  | adapter
  | lease
  | transfer
  | invalidLease
  | outsideSnapshot
  /-- `DiskDependencyError` -/
  | dependency (privateFile : Bool) (file : DiskFileId)
  | validation
  deriving DecidableEq

/-- A file, opened and read from its start. -/
structure FileAnswer where
  /-- It is there, and a regular file. -/
  opens : Bool := true
  size : Nat
  content : List UInt8
  /-- How many bytes each call reads at most; an interrupted call reads none. -/
  reads : List (Option Nat)
  cached : Bool := false
  /-- `Stat` gives the same identity at the end. -/
  unchanged : Bool := true

inductive Transfer where
  | succeeded
  | failed
  /-- The adapter throws. -/
  | threw
  deriving DecidableEq

/-- A callback: absent, or it returns or throws. -/
inductive Callback where
  | absent
  | returns
  | throws
  deriving DecidableEq

structure Services where
  stopped : Nat → Bool := fun _ => false
  /-- Failed attempts to lock the staging. -/
  waits : Nat := 0
  /-- `Open` -/
  snapshot : Option DiskManifest
  /-- The snapshot is of this store, and its pin is held. -/
  pinned : Bool := true
  /-- A reservation or an allocation. -/
  refused : Nat → Bool := fun _ => false
  /-- `BeginRestore` returns. -/
  begins : Bool := true
  file : Bool → DiskFileId → FileAnswer
  leased : Nat → Bool := fun _ => true
  transfer : Nat → Transfer := fun _ => .succeeded
  /-- `Validate`, unless it throws. -/
  validates : Option Bool := some true
  invalidates : Bool := true
  dependencyFailed : Callback := .absent
  fallback : Callback := .absent

structure Adapter where
  components : List ComponentDescriptor
  continuation : Bool := true
  persistentEncoding : Bool := true

/-- What the `try` block changes. -/
structure Run where
  staging : List UInt8
  asked : Nat := 0
  events : List Event := []

abbrev M := EStateM Error Run

/-- The number of the next question. -/
def question : M Nat := do
  let s ← get
  set { s with asked := s.asked + 1 }
  return s.asked

def record (event : Event) : M Unit := modify fun s => { s with events := s.events ++ [event] }

/-- `CheckStop` -/
def checkStop (services : Services) : M Unit := do
  let n ← question
  reject (services.stopped n = true) .stopped

def ask (services : Services) : M Unit := do
  let n ← question
  reject (services.refused n = true) .refused

/-! ## Reading a payload -/

/-- The loop that fills a piece, with what is left of the answers and of the file. -/
def fillPiece : List (Option Nat) → Nat → List UInt8 →
    Option (List UInt8 × List (Option Nat) × List UInt8)
  | reads, 0, rest => some ([], reads, rest)
  | [], _ + 1, _ => none
  | none :: reads, wanted + 1, rest => fillPiece reads (wanted + 1) rest
  | some n :: reads, wanted + 1, rest =>
    let got := rest.take (min n (wanted + 1))
    if got = [] then none
    else (fillPiece reads (wanted + 1 - got.length) (rest.drop got.length)).map fun p =>
      (got ++ p.1, p.2)

/-- A write into a buffer. -/
def overwrite (buffer : List UInt8) (start : Nat) (bytes : List UInt8) : List UInt8 :=
  buffer.take start ++ bytes ++ buffer.drop (start + bytes.length)

/-- `DependencyFailure`, here or on what is none. -/
def orFail {α : Type} (privateFile : Bool) (payload : DiskPayload) : Option α → M α
  | some a => pure a
  | none => throw (.dependency privateFile payload.file)

/-- What `ReadPayload` carries from piece to piece. -/
structure Reader where
  offset : Nat := 0
  checksum : UInt64 := 0
  reads : List (Option Nat)
  rest : List UInt8

/-- The loop of `ReadPayload`, through `size` bytes of staging from `base` on; `fuel` counts
the pieces. -/
def readLoop (folding cached privateFile : Bool) (payload : DiskPayload) (base size : Nat)
    (consume : Nat → List UInt8 → M Unit) : Nat → Reader → M Reader
  | 0, reader => pure reader
  | fuel + 1, reader => do
    if reader.offset < payload.bytes.toNat then
      let length := min size (payload.bytes.toNat - reader.offset)
      record (.fill base length)
      let (bytes, reads, rest) ←
        orFail privateFile payload (fillPiece reader.reads length reader.rest)
      modify fun s => { s with staging := overwrite s.staging base bytes }
      consume reader.offset bytes
      readLoop folding cached privateFile payload base size consume fuel
        { offset := reader.offset + length
          checksum :=
            if cached then reader.checksum else diskChecksum folding bytes reader.checksum
          reads
          rest }
    else pure reader

/-- `Contains` -/
def contains (manifest : DiskManifest) (privateFile : Bool) (payload : DiskPayload) : Bool :=
  manifest.components.any fun c =>
    if privateFile then c.tail == some payload || c.privateState == some payload
    else c.chunks.contains payload

/-- `ReadPayload` -/
def readPayload (folding : Bool) (services : Services) (manifest : DiskManifest)
    (privateFile : Bool) (payload : DiskPayload) (base size : Nat)
    (consume : Nat → List UInt8 → M Unit) : M Unit := do
  reject (services.pinned = false ∨ size = 0) .invalidLease
  reject (contains manifest privateFile payload = false) .outsideSnapshot
  let file := services.file privateFile payload.file
  reject (file.opens = false ∨ file.size ≠ payload.bytes.toNat)
    (.dependency privateFile payload.file)
  let reader ← readLoop folding file.cached privateFile payload base size consume
    payload.bytes.toNat { reads := file.reads, rest := file.content }
  reject (file.unchanged = false ∨
    (file.cached = false ∧ reader.checksum ≠ payload.checksum))
    (.dependency privateFile payload.file)

/-! ## Restoring a component -/

/-- A stream is leased, the transfer issued, and waited for. -/
def transfer (services : Services) (event : Event) : M Unit := do
  let n ← question
  reject (services.leased n = false) .lease
  record event
  let n ← question
  match services.transfer n with
  | .threw => throw .adapter
  | .failed => do
    record .settled
    throw .transfer
  | .succeeded => record .settled

/-- `first` and `staged` -/
structure Progress where
  first : Nat := 0
  staged : Nat := 0

/-- `rows`: so much of staging is used. -/
def rowsSize (d : ComponentDescriptor) (size : Nat) : Nat :=
  if d.kind = .appendRows then size / d.rowBytes.toNat * d.rowBytes.toNat else size

/-- `flush` -/
def flush (services : Services) (d : ComponentDescriptor) (p : Progress) : M Progress := do
  if p.staged = 0 then return p
  checkStop services
  let s ← get
  transfer services (.copyRowsIn d.id (p.first - p.staged / d.rowBytes.toNat) p.first
    (s.staging.take p.staged))
  checkStop services
  return { p with staged := 0 }

/-- `consume`, when the bytes are not collected. -/
def consumePiece (services : Services) (d : ComponentDescriptor) (privateState : Bool)
    (first offset : Nat) (bytes : List UInt8) : M Unit := do
  checkStop services
  transfer services (
    if privateState then .loadPrivatePiece d.id offset bytes
    else .copyRowsIn d.id (first + offset / d.rowBytes.toNat)
      (first + (offset + bytes.length) / d.rowBytes.toNat) bytes)
  checkStop services

/-- Staging is emptied first where the payload does not fit behind what it holds. -/
def makeRoom (services : Services) (d : ComponentDescriptor) (size : Nat) (payload : DiskPayload)
    (privateState : Bool) (p : Progress) : M Progress :=
  if privateState = true ∨ payload.bytes.toNat > rowsSize d size - p.staged then
    flush services d p
  else pure p

/-- `ReadPayload` through `piece`; what is collected is not consumed yet. -/
def readPiece (folding : Bool) (services : Services) (manifest : DiskManifest)
    (d : ComponentDescriptor) (size : Nat) (privateFile : Bool) (payload : DiskPayload)
    (privateState : Bool) (p : Progress) : M Unit :=
  if privateState then
    readPayload folding services manifest privateFile payload 0 size
      (consumePiece services d true p.first)
  else if payload.bytes.toNat ≤ rowsSize d size then
    readPayload folding services manifest privateFile payload p.staged payload.bytes.toNat
      fun _ _ => checkStop services
  else
    readPayload folding services manifest privateFile payload 0 (rowsSize d size)
      (consumePiece services d false p.first)

/-- The rows of the payload are counted, and staging is emptied when it is full. -/
def advance (services : Services) (d : ComponentDescriptor) (size : Nat) (payload : DiskPayload)
    (p : Progress) : M Progress :=
  let bytes := payload.bytes.toNat
  let next : Progress :=
    { first := p.first + bytes / d.rowBytes.toNat
      staged := if bytes ≤ rowsSize d size then p.staged + bytes else p.staged }
  if next.staged = rowsSize d size then flush services d next else pure next

/-- `read` -/
def read (folding : Bool) (services : Services) (manifest : DiskManifest)
    (d : ComponentDescriptor) (size : Nat) (privateFile : Bool) (payload : DiskPayload)
    (privateState : Bool) (p : Progress) : M Progress := do
  let p ← makeRoom services d size payload privateState p
  readPiece folding services manifest d size privateFile payload privateState p
  if privateState then pure p else advance services d size payload p

/-- The payloads of a component, in order; the last flag is `private_state`. -/
def payloads (c : DiskComponent) : List (Bool × DiskPayload × Bool) :=
  c.chunks.map (false, ·, false) ++ c.tail.toList.map (true, ·, false) ++
    c.privateState.toList.map (true, ·, true)

/-- The payloads of a component, one after the other. -/
def readAll (folding : Bool) (services : Services) (manifest : DiskManifest)
    (d : ComponentDescriptor) (size : Nat) :
    List (Bool × DiskPayload × Bool) → Progress → M Progress
  | [], p => pure p
  | (privateFile, payload, privateState) :: rest, p => do
    if !privateFile then checkStop services
    let p ← read folding services manifest d size privateFile payload privateState p
    readAll folding services manifest d size rest p

def restoreComponent (folding : Bool) (services : Services) (manifest : DiskManifest) (size : Nat)
    (c : DiskComponent) : M Unit := do
  let p ← readAll folding services manifest c.descriptor size (payloads c) {}
  let _ ← flush services c.descriptor p

/-! ## Restore -/

/-- The adapter has the component, and its rows fit into staging. -/
def supports (adapter : Adapter) (size : Nat) (c : DiskComponent) : Bool :=
  match adapter.components.find? (·.id == c.descriptor.id) with
  | none => false
  | some d => decide (d = c.descriptor) &&
      !(d.kind == .appendRows && decide (d.rowBytes.toNat > size))

/-- `Lock`: a stop is looked for after each failed attempt, and once the lock is held. -/
def lockStaging (services : Services) : M Unit :=
  (List.range (services.waits + 1)).forM fun _ => checkStop services

/-- The `try` block. -/
def restoreBlock (folding : Bool) (services : Services) (compatibility : CompatibilityDigest)
    (adapter : Adapter) : M Unit := do
  lockStaging services
  ask services
  match services.snapshot with
  | none => throw .missing
  | some manifest => do
    reject (manifest.compatibility ≠ compatibility ∨ adapter.continuation = false ∨
      adapter.persistentEncoding = false ∨
      adapter.components.length ≠ manifest.components.length) .unsupported
    ask services
    let size := (← get).staging.length
    reject (manifest.components.all (supports adapter size) = false) .layout
    checkStop services
    record (.beginRestore (manifest.components.map (·.position)))
    reject (services.begins = false) .adapter
    ask services
    manifest.components.forM (restoreComponent folding services manifest size)
    checkStop services
    record .validate
    match services.validates with
    | none => throw .adapter
    | some valid => reject (valid = false) .validation

inductive Recovery where
  | invalidate
  | dependencyFailed (privateFile : Bool) (file : DiskFileId)
  | fallback
  deriving DecidableEq

inductive Outcome where
  | returned (restored : Bool)
  | threw
  deriving DecidableEq

/-- How a call ends, what the `try` block did, and what the handler did then. -/
structure Restored where
  outcome : Outcome
  run : Run
  recovery : List Recovery := []

/-- The handler of `Restore` after a successful `Invalidate`. -/
def callbacks (services : Services) (error : Error) (stopped : Bool) : List Recovery × Outcome :=
  let (first, threw) : List Recovery × Bool :=
    match error with
    | .dependency privateFile file =>
      if services.dependencyFailed = .absent then ([], false)
      else ([.dependencyFailed privateFile file], decide (services.dependencyFailed = .throws))
    | _ => ([], false)
  if threw then (first, .threw)
  else if stopped ∨ services.fallback = .absent then (first, .returned false)
  else (first ++ [.fallback],
    if services.fallback = .throws then .threw else .returned false)

/-- `Restore` -/
def restore (folding : Bool) (services : Services) (compatibility : CompatibilityDigest)
    (adapter : Adapter) (staging : List UInt8) : Restored :=
  match restoreBlock folding services compatibility adapter { staging } with
  | .ok () run => ⟨.returned true, run, []⟩
  | .error error run =>
    if services.invalidates = false then ⟨.threw, run, [.invalidate]⟩
    else
      let (recovery, outcome) := callbacks services error (services.stopped run.asked)
      ⟨outcome, run, .invalidate :: recovery⟩

end Gufo.Streaming
