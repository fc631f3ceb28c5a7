import Gufo.Disk.Manifest
import Mathlib.Data.UInt

/-!
# Retained checkpoints

The records of `RetentionPolicy` (`src/cache/retention.cpp`) and everything it
reads off them.

* `limit` is the record limit, and a record index is a `Fin limit`; `none` is the
  index `limit_` that the code returns for no record.
* A chunk is a pointer; `object` is the immutable chunk object it points to.
* A checkpoint carries what `ExecutionHistory::Capture` builds it with.
-/

namespace Gufo.Retention
open Gufo.Disk

abbrev Identity := List UInt8
abbrev CheckpointId := UInt64
abbrev ChunkRef := Nat

/-- What `detail::Chunk` owns: rows `first` to `first + rows` of one component. -/
structure Chunk where
  component : UInt32
  first : Nat
  rows : Nat
  bytes : UInt64
  deriving DecidableEq

structure CheckpointComponent where
  descriptor : ComponentDescriptor
  position : ComponentPosition
  chunks : List ChunkRef
  /-- `Bytes()` of the payload. -/
  tail : Option UInt64
  privateState : Option UInt64
  deriving DecidableEq

/-- A captured checkpoint: its components have different ids, and chunk `n` of a
component holds its rows from `n * rowsPerChunk` on. -/
structure Checkpoint (object : ChunkRef → Chunk) where
  id : CheckpointId
  tokens : List Token
  compatibility : Identity
  input : Identity
  components : List CheckpointComponent
  distinct : (components.map (·.descriptor.id)).Nodup
  placed : ∀ c ∈ components, ∀ n chunk, c.chunks[n]? = some chunk →
    (object chunk).component = c.descriptor.id ∧ 0 < (object chunk).rows ∧
      (object chunk).rows = c.descriptor.rowsPerChunk.toNat ∧
      (object chunk).first = n * (object chunk).rows

def Checkpoint.boundary {object : ChunkRef → Chunk} (c : Checkpoint object) : Nat := c.tokens.length

inductive RetentionPurpose where
  | retry
  | history
  | continuation
  | branchPoint
  deriving DecidableEq, Repr

structure RetentionRequest where
  tokens : List Token
  compatibility : Identity
  input : Identity
  purpose : RetentionPurpose := .continuation
  stable : Nat := 0
  source : CheckpointId := 0
  preserveSource : Bool := true
  newPayloadBytes : UInt64 := 0
  protectedCheckpoints : List CheckpointId := []
  reused : Bool := false
  reusedTokens : Nat := 0

inductive RetentionAction where
  | admitted
  | refused
  | removed
  | touched
  deriving DecidableEq, Repr

inductive RetentionReason where
  | captured
  | byteCapacity
  | recordCapacity
  | exactReplacement
  | editedTail
  | captureFailure
  | cancelled
  | invalid
  | explicit
  deriving DecidableEq, Repr

/-- An event without the ledger's own totals. -/
structure RetentionEvent where
  sequence : UInt64
  action : RetentionAction
  reason : RetentionReason
  checkpoint : CheckpointId
  boundary : Nat
  purpose : RetentionPurpose
  rank : Nat
  lastUsed : UInt64
  retainedRecords : Nat
  retainedPayloadBytes : UInt64

structure LedgerLimits where
  totalBytes : UInt64
  ramBytes : UInt64

/-- `Prefix` -/
abbrev isPrefix (a b : List Token) : Bool := a.isPrefixOf b

/-- `Continuation` -/
def RetentionPurpose.continues (p : RetentionPurpose) : Bool :=
  p == .continuation || p == .branchPoint

/-- `MaxRank` -/
def RetentionPurpose.maxRank : RetentionPurpose → Nat
  | .retry => 0
  | .history => 1
  | _ => 3

variable {object : ChunkRef → Chunk} {limit : Nat}

structure Record (object : ChunkRef → Chunk) (limit : Nat) where
  checkpoint : Checkpoint object
  /-- The index entry, by id. -/
  entry : UInt64
  purpose : RetentionPurpose
  stable : Nat
  lastUsed : UInt64
  reusedAt : Option UInt64 := none
  forked : Bool := false
  below : Fin limit → Bool := fun _ => false

structure Policy (object : ChunkRef → Chunk) (limit : Nat) where
  records : Fin limit → Option (Record object limit) := fun _ => none
  size : Nat := 0
  clock : UInt64 := 0
  sequence : UInt64 := 0
  admittedBytes : UInt64 := 0
  /-- The cached total, `retained_payload_bytes_`. -/
  retained : Option UInt64 := none
  /-- Every event given to the sink. -/
  events : List RetentionEvent := []

def recordLimit : Nat := 128

/-- The constructor's check. -/
def construct (object : ChunkRef → Chunk) (limit : Nat) : Option (Policy object limit) :=
  if limit = 0 ∨ limit > recordLimit then none else some {}

namespace Policy

/-- The retained checkpoint of one slot. -/
def checkpointAt (s : Policy object limit) (i : Fin limit) : Option (Checkpoint object) :=
  (s.records i).map (·.checkpoint)

/-- `Find` -/
def find (s : Policy object limit) (id : CheckpointId) : Option (Fin limit) :=
  (List.finRange limit).find? fun i => (s.checkpointAt i).any (·.id == id)

/-! ## Relations between records -/

/-- `Related`, which the code calls on two retained records only. -/
def related (root peer : Checkpoint object) : Bool :=
  root.compatibility == peer.compatibility && root.input == peer.input &&
    decide (root.boundary < peer.boundary) && isPrefix root.tokens peer.tokens

/-- The deepest retained record that the added one extends. -/
def deepestPrefix (s : Policy object limit) (added : Fin limit) (c : Checkpoint object) :
    Option (Fin limit) :=
  (List.finRange limit).foldl (fun parent j =>
    match s.checkpointAt j with
    | none => parent
    | some d =>
      if j ≠ added ∧ !related c d ∧ related d c then
        if (parent.bind s.checkpointAt).all fun p => decide (p.boundary < d.boundary) then some j
        else parent
      else parent) none

/-- The bits of record `j` after `Relate` met every record. -/
def bitsAfter (s : Policy object limit) (added : Fin limit) (c : Checkpoint object)
    (j : Fin limit) (r : Record object limit) (k : Fin limit) : Bool :=
  r.below k ||
    if j = added then k != added && (s.checkpointAt k).any fun d => related c d
    else k == added && (!related c r.checkpoint && related r.checkpoint c)

def setBelow (s : Policy object limit) (added : Fin limit) (c : Checkpoint object) :
    Policy object limit :=
  { s with records := fun j => (s.records j).map fun r =>
      { r with below := s.bitsAfter added c j r } }

/-- Another record extends the parent apart from the added one. -/
def forks (s : Policy object limit) (added parent : Fin limit) : Bool :=
  (List.finRange limit).any fun j =>
    j != added && ((s.records parent).any (·.below j) && !(s.records added).any (·.below j) &&
      !(s.records j).any (·.below added))

/-- `Relate` -/
def relate (s : Policy object limit) (added : Fin limit) (c : Checkpoint object) :
    Policy object limit :=
  let t := s.setBelow added c
  match s.deepestPrefix added c with
  | none => t
  | some parent =>
    if t.forks added parent then
      { t with records := fun j =>
          if j = parent then (t.records j).map fun r => { r with forked := true } else t.records j }
    else t

/-! ## Ranks -/

/-- The loop of `Branch`: a bit in `below` makes the peer's tokens reach past the boundary. -/
def branchLoop (s : Policy object limit) (e : Record object limit) :
    List (Fin limit) → Bool → Option Token → Bool
  | [], learned, _ => learned
  | i :: rest, learned, next =>
    match s.records i with
    | none => s.branchLoop e rest learned next
    | some peer =>
      if e.below i && peer.purpose.continues then
        let token := peer.checkpoint.tokens.getD e.checkpoint.boundary 0
        if next.any (· != token) then true
        else s.branchLoop e rest (learned && peer.purpose != .branchPoint) (some token)
      else s.branchLoop e rest learned next

/-- `Branch` -/
def branch (s : Policy object limit) (e : Record object limit) : Bool :=
  e.purpose.continues &&
    s.branchLoop e (List.finRange limit) (e.purpose == .branchPoint) none

/-- The request's tokens continue the checkpoint's. -/
def continuedBy (c : Checkpoint object) (r : RetentionRequest) : Bool :=
  c.compatibility == r.compatibility && c.input == r.input &&
    decide (c.boundary < r.tokens.length) && isPrefix c.tokens r.tokens

/-- The loop of `Priority`. -/
def priorityLoop (s : Policy object limit) (candidate : Fin limit) (e : Record object limit) :
    List (Fin limit) → Nat
  | [] => 3
  | i :: rest =>
    match s.records i with
    | none => s.priorityLoop candidate e rest
    | some peer =>
      if i = candidate ∨ !peer.purpose.continues then s.priorityLoop candidate e rest
      else if e.purpose.continues then
        if e.below i then 2 else s.priorityLoop candidate e rest
      else if peer.checkpoint.compatibility ≠ e.checkpoint.compatibility ∨
          peer.checkpoint.input ≠ e.checkpoint.input then s.priorityLoop candidate e rest
      else if e.purpose = .retry ∧ peer.checkpoint.boundary ≤ e.stable ∧
          isPrefix peer.checkpoint.tokens e.checkpoint.tokens then 0
      else if e.purpose = .history ∧ isPrefix e.checkpoint.tokens peer.checkpoint.tokens then 1
      else s.priorityLoop candidate e rest

/-- `Priority` of an occupied slot. -/
def priorityOf (s : Policy object limit) (candidate : Fin limit) (e : Record object limit)
    (incoming : Option RetentionRequest) : Nat :=
  if s.branch e then 3
  else if incoming.any fun r => r.purpose.continues && continuedBy e.checkpoint r then
    match e.purpose with
    | .retry => 0
    | .history => 1
    | _ => 2
  else s.priorityLoop candidate e (List.finRange limit)

def priority (s : Policy object limit) (i : Fin limit) (incoming : Option RetentionRequest) : Nat :=
  ((s.records i).map fun e => s.priorityOf i e incoming).getD 3

/-! ## Payload bytes -/

def storageBytes (object : ChunkRef → Chunk) (chunk : ChunkRef) : UInt64 := (object chunk).bytes

/-- Private state and tail of a component. -/
def privateBytes (c : CheckpointComponent) : UInt64 := c.privateState.getD 0 + c.tail.getD 0

/-- The component of a checkpoint that `UniquePayloadBytes` compares with: the id's first one
with chunks. -/
def chunkedPeer (c : Checkpoint object) (id : UInt32) : Option CheckpointComponent :=
  c.components.find? fun p => p.descriptor.id == id && !p.chunks.isEmpty

/-- Chunks in common from the first one on. -/
def sharedPrefix : List ChunkRef → List ChunkRef → Nat
  | a :: as, b :: bs => if a = b then sharedPrefix as bs + 1 else 0
  | _, _ => 0

/-- `UniqueBytes` -/
def uniqueBytes (s : Policy object limit) (i : Fin limit) : UInt64 :=
  match s.checkpointAt i with
  | none => 0
  | some mine =>
    (mine.components.zipIdx.map fun (c, k) =>
      let shared := (List.finRange limit).foldl (fun shared j =>
        match (if j = i then none else s.checkpointAt j).bind (·.components[k]?) with
        | none => shared
        | some peer =>
          if peer.descriptor.id ≠ c.descriptor.id then shared
          else max shared (sharedPrefix c.chunks peer.chunks)) 0
      privateBytes c + ((c.chunks.drop shared).map (storageBytes object)).sum).sum

/-- One component's part of `UniquePayloadBytes`: its peers stand longest first, and chunk `n`
is compared with those that reach as far. -/
def uniqueComponentBytes (peers : List CheckpointComponent) (c : CheckpointComponent) : UInt64 :=
  let longest := peers.mergeSort fun a b => decide (b.chunks.length ≤ a.chunks.length)
  privateBytes c + (c.chunks.zipIdx.map fun (chunk, n) =>
    if (longest.takeWhile fun p => decide (n < p.chunks.length)).any
        fun p => p.chunks[n]? == some chunk then 0
    else storageBytes object chunk).sum

/-- `UniquePayloadBytes` -/
def uniquePayloadBytes (s : Policy object limit) (i : Fin limit) : UInt64 :=
  match s.checkpointAt i with
  | none => 0
  | some mine =>
    (mine.components.map fun c =>
      if c.chunks.isEmpty then privateBytes c
      else @uniqueComponentBytes object
        ((List.finRange limit).filterMap fun j =>
          if j = i then none else (s.checkpointAt j).bind (chunkedPeer · c.descriptor.id)) c).sum

/-- Some record before `i` has chunks of the component. -/
def counted (s : Policy object limit) (i : Fin limit) (id : UInt32) : Bool :=
  (List.finRange limit).any fun earlier => decide (earlier < i) &&
    (s.checkpointAt earlier).any fun c =>
      c.components.any fun peer => peer.descriptor.id == id && !peer.chunks.isEmpty

/-- The id's first component in each record from `i` on. -/
def peersFrom (s : Policy object limit) (i : Fin limit) (id : UInt32) : List CheckpointComponent :=
  (List.finRange limit).filterMap fun j =>
    if j < i then none
    else (s.checkpointAt j).bind fun c => c.components.find? fun peer => peer.descriptor.id == id

/-- A peer's chunk at index `n`, unless it was `seen`. -/
def addDistinct (n : Nat) (seen : List ChunkRef) (peer : CheckpointComponent) : List ChunkRef :=
  match peer.chunks[n]? with
  | none => seen
  | some chunk => if chunk ∈ seen then seen else seen ++ [chunk]

/-- The chunks at index `n`, each object once. -/
def distinctAt (peers : List CheckpointComponent) (n : Nat) : List ChunkRef :=
  peers.foldl (addDistinct n) []

/-- All chunks that the peers hold, each object once. -/
def chunkBytes (object : ChunkRef → Chunk) (peers : List CheckpointComponent) : UInt64 :=
  let rows := peers.foldl (fun rows peer => max rows peer.chunks.length) 0
  ((List.range rows).map fun n => ((distinctAt peers n).map (storageBytes object)).sum).sum

/-- The count of `RetainedPayloadBytes` when it has no cached total. -/
def countPayloadBytes (s : Policy object limit) : UInt64 :=
  ((List.finRange limit).map fun i =>
    match s.checkpointAt i with
    | none => 0
    | some mine =>
      (mine.components.map fun c =>
        privateBytes c +
          if c.chunks.isEmpty || s.counted i c.descriptor.id then 0
          else chunkBytes object (s.peersFrom i c.descriptor.id)).sum).sum

/-- `RetainedPayloadBytes` -/
def retainedPayloadBytes (s : Policy object limit) : UInt64 × Policy object limit :=
  match s.retained with
  | some bytes => (bytes, s)
  | none => (s.countPayloadBytes, { s with retained := some s.countPayloadBytes })

end Policy

end Gufo.Retention
