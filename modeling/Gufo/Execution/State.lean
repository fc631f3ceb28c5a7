import Gufo.Lib.Program
import Mathlib.Algebra.Order.Ring.Int
import Mathlib.Data.List.Sort

/-!
# Execution histories

`ExecutionHistory` (`src/cache/checkpoint.cpp`): the history of one execution branch
and the capture of checkpoints along it.

* A chunk is a reference to an immutable object; an entry of the history keeps it
  weakly, so whether it is still `alive` and its payload `valid` is an answer of the
  world. The ids of chunks and checkpoints come from one counter.
* Row counts and byte counts are numbers below `2 ^ 64`; a checked operation that does
  not fit throws.
* The sizes of the metadata are not computed: a size that does not fit, is not granted
  or is exceeded by an allocation is a question the world refuses.
-/

open Gufo.Program

namespace Gufo.Execution

abbrev Token := Nat
abbrev Identity := List UInt8
abbrev ChunkRef := Nat

/-! ## Input identities -/

structure InputPrefix where
  tokenCount : Nat
  identity : Identity
  deriving DecidableEq

/-- `InputIdentity` -/
structure InputIdentity where
  tokenCount : Nat := 0
  complete : Identity := []
  prefixes : List InputPrefix := []
  deriving DecidableEq

namespace InputIdentity

/-- The constructor's check, with the previous boundary. -/
def boundariesValid (tokenCount : Nat) : Nat → List InputPrefix → Bool
  | _, [] => true
  | previous, p :: rest =>
    decide (previous ≤ p.tokenCount) && decide (p.tokenCount ≤ tokenCount) &&
      boundariesValid tokenCount p.tokenCount rest

/-- `At`: the first boundary at or after the count wins. -/
def at_ (input : InputIdentity) (count : Nat) : Option Identity :=
  if count > input.tokenCount then none
  else match input.prefixes.find? fun p => decide (count ≤ p.tokenCount) with
    | some p => some p.identity
    | none => some input.complete

end InputIdentity

/-! ## Components -/

inductive ComponentKind where
  | appendRows
  | privateState
  deriving DecidableEq

structure ComponentDescriptor where
  id : Nat
  kind : ComponentKind
  layoutVersion : Nat := 1
  rowBytes : Nat := 0
  rowsPerChunk : Nat := 0
  stateBytes : Nat := 0
  deriving DecidableEq

structure ComponentPosition where
  id : Nat
  validRows : Nat
  deriving DecidableEq

inductive Category where
  | backingAssigned
  | privateTail
  | privateState
  deriving DecidableEq

structure PayloadRequest where
  component : Nat
  category : Category
  first : Nat
  finish : Nat
  bytes : Nat
  deriving DecidableEq

/-- What `detail::Chunk` describes: rows `first` to `finish` of a component. -/
structure Chunk where
  component : Nat
  first : Nat
  finish : Nat
  deriving DecidableEq

/-- The objects made so far: those below `next`. -/
structure Heap where
  next : ChunkRef := 1
  object : ChunkRef → Chunk := fun _ => ⟨0, 0, 0⟩

def Heap.alloc (heap : Heap) (chunk : Chunk) : Heap :=
  { next := heap.next + 1
    object := fun ref => if ref = heap.next then chunk else heap.object ref }

/-- A tail or private state stands for the request it was captured by. -/
structure CheckpointComponent where
  descriptor : ComponentDescriptor
  position : ComponentPosition
  chunks : List ChunkRef := []
  tail : Option PayloadRequest := none
  privateState : Option PayloadRequest := none
  deriving DecidableEq

structure Checkpoint where
  id : Nat
  tokens : List Token
  compatibility : Identity
  input : Identity
  components : List CheckpointComponent
  deriving DecidableEq

/-- `ExecutionHistory::Entry` -/
structure Entry where
  component : Nat
  first : Nat
  chunk : ChunkRef
  deriving DecidableEq

structure ExecutionHistory where
  descriptors : List ComponentDescriptor
  compatibility : Identity
  tokens : List Token := []
  input : Identity := []
  /-- Empty before the first capture, then in the order of the descriptors. -/
  positions : List ComponentPosition := []
  entries : List Entry := []
  deriving DecidableEq

inductive Error where
  /-- not a continuation of this history -/
  | continuation
  | inputChanged
  | inputQuery
  /-- not exactly one position for each component -/
  | positions
  | rewound
  /-- rows whose bytes do not fit -/
  | rowBytes
  /-- payload totals that do not fit -/
  | totalBytes
  | retired
  | refused
  | prepare
  | capture
  | payload
  deriving DecidableEq

/-- How the capture callback ends. -/
inductive Captured where
  | complete
  /-- `ValidatePayload` rejects what it returned -/
  | rejected
  | threw
  deriving DecidableEq

/-- What the world answers during one call; a question is known by its number. A chunk may
expire or retire while the call runs, so what it is depends on the questions before. -/
structure Services where
  hasCapture : Bool := true
  hasPrepare : Bool := false
  alive : Nat → ChunkRef → Bool := fun _ _ => true
  valid : Nat → ChunkRef → Bool := fun _ _ => true
  refused : Nat → Bool := fun _ => false
  captured : Nat → PayloadRequest → Captured := fun _ _ => .complete
  /-- The prepare callback returns. -/
  prepared : List PayloadRequest → Bool := fun _ => true

structure CheckpointRequest where
  tokens : List Token
  input : InputIdentity
  positions : List ComponentPosition

def fits (n : Nat) : Prop := n < 2 ^ 64

instance (n : Nat) : Decidable (fits n) := inferInstanceAs (Decidable (n < 2 ^ 64))

/-- `ValidateDescriptors` -/
def validDescriptors (descriptors : List ComponentDescriptor) : Bool :=
  !descriptors.isEmpty && decide (descriptors.map (·.id)).Nodup && descriptors.all fun d =>
    match d.kind with
    | .appendRows => d.rowBytes != 0 && d.rowsPerChunk != 0 && d.stateBytes == 0 &&
        decide (fits (d.rowsPerChunk * d.rowBytes))
    | .privateState => d.stateBytes != 0 && d.rowBytes == 0 && d.rowsPerChunk == 0

/-! ## The chunk cursor -/

/-- `Chunks`: the first entry of the component, the entries being ordered. -/
def chunks (entries : List Entry) (component : Nat) : List Entry :=
  entries.dropWhile fun e => decide (e.component < component)

/-- `ChunkCursor::Find`: the chunk that starts at a row, and the cursor behind it. -/
def find (alive : ChunkRef → Bool) (component first : Nat) (cursor : List Entry) :
    Option ChunkRef × List Entry :=
  match cursor.dropWhile fun e => e.component == component && decide (e.first < first) with
  | [] => (none, [])
  | e :: rest =>
    if e.component = component ∧ e.first = first then
      (if alive e.chunk then some e.chunk else none, rest)
    else (none, e :: rest)

/-! ## Capture -/

/-- What a call changes while it runs. -/
structure Call where
  history : ExecutionHistory
  heap : Heap
  /-- Questions put to the world so far. -/
  asked : Nat := 0
  /-- Requests the capture callback was given. -/
  issued : List PayloadRequest := []
  /-- The plan for the prepare callback. -/
  planned : List PayloadRequest := []

def Call.start (h : ExecutionHistory) (heap : Heap) : Call := { history := h, heap := heap }

/-- The checkpoint under construction. -/
structure Draft where
  done : List CheckpointComponent := []
  /-- The chunks of the component in work. -/
  current : List ChunkRef := []
  entries : List Entry := []
  /-- The published entries still serve. -/
  reuse : Bool

abbrev M := EStateM Error Call

def liftExcept {α : Type} : Except Error α → M α
  | .ok a => pure a
  | .error e => throw e

/-- A reservation, its conversion, or an allocation. -/
def ask (services : Services) : M Unit := do
  let s ← get
  set { s with asked := s.asked + 1 }
  reject (services.refused s.asked) .refused

def askWhen (services : Services) (c : Prop) [Decidable c] : M Unit :=
  if c then ask services else pure ()

/-- The capture callback and `ValidatePayload`. -/
def issue (services : Services) (r : PayloadRequest) : M Unit := do
  let s ← get
  set { s with asked := s.asked + 1, issued := s.issued ++ [r] }
  match services.captured s.asked r with
  | .complete => pure ()
  | .rejected => throw .payload
  | .threw => throw .capture

/-- The lambda `save`. -/
def save (services : Services) (r : PayloadRequest) : M Unit :=
  if services.hasPrepare then modify fun s => { s with planned := s.planned ++ [r] }
  else issue services r

/-- The only position of a component. -/
def positionFor (positions : List ComponentPosition) (id : Nat) : Option ComponentPosition :=
  if positions.countP (·.id == id) = 1 then positions.find? (·.id == id) else none

/-- The loop that checks the positions, with the previous ones, and counts the chunks. -/
def countChunks (positions : List ComponentPosition) :
    List ComponentDescriptor → List ComponentPosition → Except Error Nat
  | [], _ => .ok 0
  | d :: rest, previous =>
    match positionFor positions d.id with
    | none => .error .positions
    | some p =>
      if previous.head?.any fun old => decide (p.validRows < old.validRows) then .error .rewound
      else if d.kind = .appendRows then
        if fits (p.validRows * d.rowBytes) then do
          let count ← countChunks positions rest previous.tail
          return p.validRows / d.rowsPerChunk + count
        else .error .rowBytes
      else countChunks positions rest previous.tail

/-- The entries of the chunks that the draft has so far. -/
def chunkEntries (heap : Heap) (chunks : List ChunkRef) : List Entry :=
  chunks.map fun chunk => ⟨(heap.object chunk).component, (heap.object chunk).first, chunk⟩

/-- The lambda `replace_entries`. -/
def replaceEntries (services : Services) (draft : Draft) : M Draft := do
  if !draft.reuse then return draft
  ask services
  let s ← get
  return { draft with
    reuse := false
    entries := chunkEntries s.heap (draft.done.flatMap (·.chunks) ++ draft.current) }

def Draft.push (draft : Draft) (component first : Nat) (chunk : ChunkRef) : Draft :=
  { draft with
    current := draft.current ++ [chunk]
    entries := if draft.reuse then draft.entries else draft.entries ++ [⟨component, first, chunk⟩] }

def chunkRequest (d : ComponentDescriptor) (first : Nat) : PayloadRequest :=
  ⟨d.id, .backingAssigned, first, first + d.rowsPerChunk, d.rowsPerChunk * d.rowBytes⟩

/-- A chunk that the history does not have any more. -/
def newChunk (services : Services) (d : ComponentDescriptor) (first : Nat) (draft : Draft) :
    M Draft := do
  let draft ← replaceEntries services draft
  ask services
  let s ← get
  let chunk := s.heap.next
  set { s with heap := s.heap.alloc ⟨d.id, first, first + d.rowsPerChunk⟩ }
  save services (chunkRequest d first)
  ask services
  return draft.push d.id first chunk

/-- The loop over the complete chunks of a component; so many are left. -/
def chunkLoop (services : Services) (d : ComponentDescriptor) :
    Nat → Nat → List Entry → Draft → M Draft
  | 0, _, _, draft => pure draft
  | left + 1, first, cursor, draft => do
    let s ← get
    match find (services.alive s.asked) d.id first cursor with
    | (none, cursor) =>
      let draft ← newChunk services d first draft
      chunkLoop services d left (first + d.rowsPerChunk) cursor draft
    | (some chunk, cursor) =>
      reject (services.valid s.asked chunk = false) .retired
      chunkLoop services d left (first + d.rowsPerChunk) cursor (draft.push d.id first chunk)

def stateRequest (d : ComponentDescriptor) (rows : Nat) : PayloadRequest :=
  ⟨d.id, .privateState, 0, rows, d.stateBytes⟩

/-- `full_end` -/
def fullEnd (d : ComponentDescriptor) (rows : Nat) : Nat := rows - rows % d.rowsPerChunk

def tailRequest (d : ComponentDescriptor) (rows : Nat) : PayloadRequest :=
  ⟨d.id, .privateTail, fullEnd d rows, rows, (rows - fullEnd d rows) * d.rowBytes⟩

/-- The component in work is complete. -/
def Draft.close (draft : Draft) (d : ComponentDescriptor) (p : ComponentPosition)
    (tail state : Option PayloadRequest) : Draft :=
  { draft with
    done := draft.done ++ [⟨d, p, draft.current, tail, state⟩]
    current := [] }

/-- One component of the checkpoint. -/
def captureComponent (services : Services) (published : List Entry) (d : ComponentDescriptor)
    (p : ComponentPosition) (draft : Draft) : M Draft := do
  if d.kind = .privateState then
    save services (stateRequest d p.validRows)
    return draft.close d p none (some (stateRequest d p.validRows))
  let draft ← chunkLoop services d (p.validRows / d.rowsPerChunk) 0 (chunks published d.id) draft
  if fullEnd d p.validRows ≠ p.validRows then
    save services (tailRequest d p.validRows)
    return draft.close d p (some (tailRequest d p.validRows)) none
  return draft.close d p none none

/-- The loop over the components. -/
def captureLoop (services : Services) (published : List Entry)
    (positions : List ComponentPosition) : List ComponentDescriptor → Draft → M Draft
  | [], draft => pure draft
  | d :: rest, draft =>
    match positionFor positions d.id with
    | none => throw .positions
    | some p => do
      let draft ← captureComponent services published d p draft
      captureLoop services published positions rest draft

/-- The prepared plan: every request is known before the first one is issued. -/
def capturePlan (services : Services) : M Unit := do
  if services.hasPrepare then
    let s ← get
    if services.prepared s.planned then s.planned.forM (issue services) else throw .prepare

/-- `Entry::Key` -/
def Entry.le (a b : Entry) : Bool :=
  decide (a.component < b.component) || (a.component == b.component && decide (a.first ≤ b.first))

/-- The entries to be published: ordered by key. -/
def publishedEntries (h : ExecutionHistory) (draft : Draft) : List Entry :=
  if draft.reuse then h.entries
  else if h.descriptors.Pairwise fun a b => a.id ≤ b.id then draft.entries
  else draft.entries.mergeSort Entry.le

/-- The checks before anything is reserved: how many chunks there will be, and the input. -/
def admitRequest (services : Services) (h : ExecutionHistory) (request : CheckpointRequest) :
    Except Error (Nat × Identity) :=
  if !services.hasCapture ∨ request.positions.length ≠ h.descriptors.length ∨
      ¬h.tokens <+: request.tokens then .error .continuation
  else match request.input.at_ h.tokens.length with
    | none => .error .inputQuery
    | some previousInput =>
      if h.positions ≠ [] ∧ h.input ≠ previousInput then .error .inputChanged
      else match countChunks request.positions h.descriptors h.positions with
        | .error e => .error e
        | .ok chunkCount =>
          match request.input.at_ request.tokens.length with
          | none => .error .inputQuery
          | some input => .ok (chunkCount, input)

/-- The swaps at the end, which do not throw. -/
def publish (h : ExecutionHistory) (request : CheckpointRequest) (input : Identity)
    (draft : Draft) : ExecutionHistory :=
  { h with
    tokens := request.tokens
    positions := draft.done.map (·.position)
    input := input
    entries := publishedEntries h draft }

/-- `ExecutionHistory::Capture` -/
def capture (services : Services) (request : CheckpointRequest) : M Checkpoint := do
  let h := (← get).history
  let (chunkCount, input) ← liftExcept (admitRequest services h request)
  ask services
  askWhen services (chunkCount ≠ 0 ∧ chunkCount ≠ h.entries.length)
  ask services
  let s ← get
  let id := s.heap.next
  set { s with heap := s.heap.alloc ⟨0, 0, 0⟩ }
  askWhen services services.hasPrepare
  let draft ← captureLoop services h.entries request.positions h.descriptors
    { reuse := chunkCount = h.entries.length }
  capturePlan services
  ask services
  modify fun s => { s with history := publish h request input draft }
  return ⟨id, request.tokens, h.compatibility, input, draft.done⟩

/-! ## Branches -/

/-- `Restored`: a checkpoint without a retired payload continues as a history. -/
def restored (valid : Bool) (heap : Heap) (k : Checkpoint) : Option ExecutionHistory :=
  if valid then
    some
      { descriptors := k.components.map (·.descriptor)
        compatibility := k.compatibility
        tokens := k.tokens
        input := k.input
        positions := k.components.map (·.position)
        entries := (chunkEntries heap (k.components.flatMap (·.chunks))).mergeSort Entry.le }
  else none

/-- `Prune` -/
def ExecutionHistory.prune (h : ExecutionHistory) (alive : ChunkRef → Bool) : ExecutionHistory :=
  { h with entries := h.entries.filter fun e => alive e.chunk }

/-! ## The estimate -/

/-- `Add` on payload totals. -/
def addBytes (a b : Nat) : Except Error Nat :=
  if fits (a + b) then .ok (a + b) else .error .totalBytes

/-- The chunk loop of `NewPayloadBytes`. -/
def estimateChunks (alive valid : ChunkRef → Bool) (d : ComponentDescriptor) :
    Nat → Nat → List Entry → Nat → Except Error Nat
  | 0, _, _, bytes => .ok bytes
  | left + 1, first, cursor, bytes =>
    match find alive d.id first cursor with
    | (none, cursor) => do
      let bytes ← addBytes bytes (d.rowsPerChunk * d.rowBytes)
      estimateChunks alive valid d left (first + d.rowsPerChunk) cursor bytes
    | (some chunk, cursor) =>
      if valid chunk then
        estimateChunks alive valid d left (first + d.rowsPerChunk) cursor bytes
      else .error .retired

/-- The loop of `NewPayloadBytes` over the components, with their previous positions. -/
def estimateLoop (alive valid : ChunkRef → Bool) (published : List Entry)
    (positions : List ComponentPosition) :
    List ComponentDescriptor → List ComponentPosition → Nat → Except Error Nat
  | [], _, bytes => .ok bytes
  | d :: rest, previous, bytes =>
    match positionFor positions d.id with
    | none => .error .positions
    | some p =>
      if previous.head?.any fun old => decide (p.validRows < old.validRows) then .error .rewound
      else if d.kind = .privateState then do
        let bytes ← addBytes bytes d.stateBytes
        estimateLoop alive valid published positions rest previous.tail bytes
      else if fits (p.validRows * d.rowBytes) then do
        let bytes ← addBytes bytes ((p.validRows - fullEnd d p.validRows) * d.rowBytes)
        let bytes ← estimateChunks alive valid d (p.validRows / d.rowsPerChunk) 0
          (chunks published d.id) bytes
        estimateLoop alive valid published positions rest previous.tail bytes
      else .error .rowBytes

/-- `NewPayloadBytes` -/
def newPayloadBytes (alive valid : ChunkRef → Bool) (h : ExecutionHistory)
    (positions : List ComponentPosition) : Except Error Nat :=
  if positions.length ≠ h.descriptors.length then .error .positions
  else estimateLoop alive valid h.entries positions h.descriptors h.positions 0

end Gufo.Execution
