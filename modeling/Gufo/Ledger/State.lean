import Gufo.Lib.Program
import Gufo.Lib.Sums

/-!
# The resource ledger

`ResourceLedger` of `src/cache/ledger.cpp`: one locked set of byte counters, the
allocations they count, the tokens that own allocations and the pins on tokens.

* Each locked section of the source is one operation here, so any order of
  operations is an interleaving of the threads that hold handles.
* A shared pointer's last release and the destructor it triggers are separate
  operations: another thread can take the lock between them.
* Objects whose admission throws are destroyed before anyone sees them, with
  `admitted` or `active` still false. They change nothing and are not stored.
-/

namespace Gufo.Ledger
open Gufo.Sums Gufo.Program

inductive ResourceCategory where
  | backingFree
  | backingAssigned
  | backingMaterialized
  | privateState
  | privateTail
  | metadata
  | transferStaging
  deriving DecidableEq, Repr

def ResourceCategory.all : List ResourceCategory :=
  [.backingFree, .backingAssigned, .backingMaterialized, .privateState, .privateTail,
    .metadata, .transferStaging]

structure ResourceLimits where
  totalBytes : UInt64
  ramBytes : UInt64
  stagingBytes : UInt64
  persistencePinnedBytes : UInt64

structure ResourceSnapshot where
  bytes : ResourceCategory → UInt64 := fun _ => 0
  reservedBytes : ResourceCategory → UInt64 := fun _ => 0
  totalBytes : UInt64 := 0
  ramBytes : UInt64 := 0
  persistencePinnedBytes : UInt64 := 0
  peakBytes : ResourceCategory → UInt64 := fun _ => 0
  peakTotalBytes : UInt64 := 0
  peakRamBytes : UInt64 := 0
  peakPersistencePinnedBytes : UInt64 := 0

inductive LedgerStep where
  | reserve
  | convert
  | pin
  | release
  deriving DecidableEq, Repr

inductive LedgerError where
  | invalidArgument (what : String)
  | logicError (what : String)
  | badAlloc
  | resourceExhausted
  deriving DecidableEq, Repr

/-! ## Owned objects

Objects stay in their list when they die, so an index names one object for ever. -/

structure Allocation where
  category : ResourceCategory
  backing : Bool
  bytes : UInt64
  reserved : Bool
  pins : Nat
  alive : Bool

/-- Who holds a token: one unconverted reservation, some charges, or nobody
after the reservation was dropped. -/
inductive Handles where
  | reservation
  | charges (count : Nat)
  | cancelled
  deriving DecidableEq, Repr

def Handles.count : Handles → Nat
  | .reservation => 1
  | .charges n => n
  | .cancelled => 0

def Handles.converted : Handles → Bool
  | .charges _ => true
  | _ => false

structure ChargeToken where
  blocks : List Nat
  pooled : Bool
  handles : Handles
  alive : Bool

structure PinToken where
  charge : Nat
  handles : Nat
  alive : Bool

structure LedgerState where
  limits : ResourceLimits
  snapshot : ResourceSnapshot := {}
  faults : LedgerStep → Option Nat := fun _ => none
  allocations : List Allocation := []
  tokens : List ChargeToken := []
  pins : List PinToken := []
  /-- Set for ever once a subtraction has gone below zero. -/
  underflow : Bool := false

abbrev LedgerM := EStateM LedgerError LedgerState

namespace LedgerState

/-! ## Counter arithmetic -/

/-- `bytes[c] -= n` -/
def subBytes (s : LedgerState) (c : ResourceCategory) (n : UInt64) : LedgerState :=
  { s with
    underflow := s.underflow || decide (s.snapshot.bytes c < n)
    snapshot := { s.snapshot with
      bytes := Function.update s.snapshot.bytes c (s.snapshot.bytes c - n) } }

/-- `bytes[c] += n` -/
def addBytes (s : LedgerState) (c : ResourceCategory) (n : UInt64) : LedgerState :=
  { s with
    snapshot := { s.snapshot with
      bytes := Function.update s.snapshot.bytes c (s.snapshot.bytes c + n) } }

/-- `reserved_bytes[c] -= n` -/
def subReserved (s : LedgerState) (c : ResourceCategory) (n : UInt64) : LedgerState :=
  { s with
    underflow := s.underflow || decide (s.snapshot.reservedBytes c < n)
    snapshot := { s.snapshot with
      reservedBytes := Function.update s.snapshot.reservedBytes c
        (s.snapshot.reservedBytes c - n) } }

/-- `reserved_bytes[c] += n` -/
def addReserved (s : LedgerState) (c : ResourceCategory) (n : UInt64) : LedgerState :=
  { s with
    snapshot := { s.snapshot with
      reservedBytes := Function.update s.snapshot.reservedBytes c
        (s.snapshot.reservedBytes c + n) } }

def subTotal (s : LedgerState) (n : UInt64) : LedgerState :=
  { s with
    underflow := s.underflow || decide (s.snapshot.totalBytes < n)
    snapshot := { s.snapshot with totalBytes := s.snapshot.totalBytes - n } }

def addTotal (s : LedgerState) (n : UInt64) : LedgerState :=
  { s with snapshot := { s.snapshot with totalBytes := s.snapshot.totalBytes + n } }

def subRam (s : LedgerState) (n : UInt64) : LedgerState :=
  { s with
    underflow := s.underflow || decide (s.snapshot.ramBytes < n)
    snapshot := { s.snapshot with ramBytes := s.snapshot.ramBytes - n } }

def addRam (s : LedgerState) (n : UInt64) : LedgerState :=
  { s with snapshot := { s.snapshot with ramBytes := s.snapshot.ramBytes + n } }

def subPinned (s : LedgerState) (n : UInt64) : LedgerState :=
  { s with
    underflow := s.underflow || decide (s.snapshot.persistencePinnedBytes < n)
    snapshot := { s.snapshot with
      persistencePinnedBytes := s.snapshot.persistencePinnedBytes - n } }

def addPinned (s : LedgerState) (n : UInt64) : LedgerState :=
  { s with
    snapshot := { s.snapshot with
      persistencePinnedBytes := s.snapshot.persistencePinnedBytes + n } }

def peaks (s : LedgerState) : LedgerState :=
  let p := s.snapshot
  { s with
    snapshot := { p with
      peakBytes := fun c => larger (p.peakBytes c) (p.bytes c)
      peakTotalBytes := larger p.peakTotalBytes p.totalBytes
      peakRamBytes := larger p.peakRamBytes p.ramBytes
      peakPersistencePinnedBytes :=
        larger p.peakPersistencePinnedBytes p.persistencePinnedBytes } }

/-! ## Object access -/

def updateAllocation (s : LedgerState) (i : Nat) (f : Allocation → Allocation) : LedgerState :=
  { s with allocations := s.allocations.modify i f }

def updateToken (s : LedgerState) (t : Nat) (f : ChargeToken → ChargeToken) : LedgerState :=
  { s with tokens := s.tokens.modify t f }

def updatePin (s : LedgerState) (p : Nat) (f : PinToken → PinToken) : LedgerState :=
  { s with pins := s.pins.modify p f }

/-- One block of an `Each` loop: settle its counters, then change it. -/
def blockStep (settle : Allocation → LedgerState → LedgerState) (change : Allocation → Allocation)
    (i : Nat) (s : LedgerState) : LedgerState :=
  match s.allocations[i]? with
  | none => s
  | some block => (settle block s).updateAllocation i change

/-- `ChargeToken::Each` -/
def each (step : Nat → LedgerState → LedgerState) (blocks : List Nat) (s : LedgerState) :
    LedgerState :=
  blocks.foldl (fun s i => step i s) s

/-- No handle and no pin keeps the token: its destructor is due. -/
def tokenUnreferenced (s : LedgerState) (t : Nat) (token : ChargeToken) : Bool :=
  token.handles.count == 0 && s.pins.all fun pin => !(pin.alive && pin.charge == t)

/-- No token keeps the allocation: its destructor is due. -/
def allocationUnreferenced (s : LedgerState) (i : Nat) : Bool :=
  s.tokens.all fun token => !(token.alive && token.blocks.contains i)

end LedgerState

open LedgerState

/-- `limit - used`, as the admission checks compute it. -/
def headroom (limit used : UInt64) : LedgerM UInt64 := do
  modify fun s => { s with underflow := s.underflow || decide (limit < used) }
  return limit - used

/-- `LedgerState::Fail`: one-shot injected failure of a step. -/
def fail (step : LedgerStep) : LedgerM PUnit := do
  match (← get).faults step with
  | none => return
  | some (n + 1) =>
    modify fun s => { s with faults := Function.update s.faults step (some n) }
  | some 0 =>
    modify fun s => { s with faults := Function.update s.faults step none }
    throw .badAlloc

/-- The token of a handle the caller holds. A dead or unheld index stands for an
empty handle, whose `token_` is null. -/
def LedgerState.held? (s : LedgerState) (t : Nat) : Option ChargeToken :=
  (s.tokens[t]?).filter fun token => token.alive && token.handles.count != 0

/-- The token of a `ResourceReservation` the caller holds. -/
def LedgerState.reservation? (s : LedgerState) (t : Nat) : Option ChargeToken :=
  (s.held? t).filter fun token => !token.handles.converted

/-- The token of a `ResourceCharge` the caller holds. -/
def LedgerState.charge? (s : LedgerState) (t : Nat) : Option ChargeToken :=
  (s.held? t).filter fun token => token.handles.converted

/-- The token of an original pool backing handle: assignments refuse any other. -/
def LedgerState.poolHandle? (s : LedgerState) (t : Nat) : Option ChargeToken :=
  (s.charge? t).filter fun token => !token.pooled &&
    token.blocks.all fun i => ((s.allocations[i]?).map (·.backing)).getD false

/-! ## Operations -/

/-- `Reserve` after every check passed: a new block with one reserved owner. -/
def appendBlock (category : ResourceCategory) (bytes : UInt64) (s : LedgerState) : LedgerState :=
  let s := ((s.addBytes category bytes).addReserved category bytes).addTotal bytes
  let s := if category ≠ .transferStaging then s.addRam bytes else s
  peaks { s with
    allocations := s.allocations ++
      [⟨category, decide (category = .backingFree), bytes, true, 0, true⟩]
    tokens := s.tokens ++ [⟨[s.allocations.length], false, .reservation, true⟩] }

/-- The second bound of an admission: staging has its own, every other category is RAM. -/
def ResourceLimits.share (limits : ResourceLimits) (category : ResourceCategory) : UInt64 :=
  if category = .transferStaging then limits.stagingBytes else limits.ramBytes

def ResourceSnapshot.share (p : ResourceSnapshot) (category : ResourceCategory) : UInt64 :=
  if category = .transferStaging then p.bytes .transferStaging else p.ramBytes

/-- `ResourceLedger::Reserve` -/
def reserve (category : ResourceCategory) (bytes : UInt64) : LedgerM Nat := do
  reject (category = .backingAssigned ∨ category = .backingMaterialized ∨ bytes = 0)
    (.invalidArgument "ledger reserve requires a nonzero allocation category")
  fail .reserve
  let s ← get
  let total ← headroom s.limits.totalBytes s.snapshot.totalBytes
  reject (bytes > total) .resourceExhausted
  let rest ← headroom (s.limits.share category) (s.snapshot.share category)
  reject (bytes > rest) .resourceExhausted
  modify (appendBlock category bytes)
  return s.tokens.length

def Allocation.convert (a : Allocation) : Allocation :=
  { a with
    reserved := false
    category :=
      if a.category = .backingAssigned then .backingMaterialized else a.category }

def settleConvert (a : Allocation) (s : LedgerState) : LedgerState :=
  let s := s.subReserved a.category a.bytes
  if a.category = .backingAssigned then
    (s.subBytes .backingAssigned a.bytes).addBytes .backingMaterialized a.bytes
  else s

/-- One block of `ResourceReservation::Convert`. -/
def convertBlock : Nat → LedgerState → LedgerState := blockStep settleConvert Allocation.convert

/-- `ResourceReservation::Convert` -/
def convert (t : Nat) : LedgerM PUnit := do
  match (← get).reservation? t with
  | none => throw (.logicError "empty ledger reservation")
  | some token =>
    fail .convert
    modify (each convertBlock token.blocks)
    modify peaks
    modify fun s => s.updateToken t fun token => { token with handles := .charges 1 }

def Allocation.assign (category : ResourceCategory) (a : Allocation) : Allocation :=
  { a with category := category, reserved := true }

def settleAssign (category : ResourceCategory) (a : Allocation) (s : LedgerState) : LedgerState :=
  ((s.subBytes .backingFree a.bytes).addBytes category a.bytes).addReserved category a.bytes

/-- One block of `ResourceCharge::ReserveBacking`, after every check passed. -/
def assignBlock (category : ResourceCategory) : Nat → LedgerState → LedgerState :=
  blockStep (settleAssign category) (Allocation.assign category)

/-- `ResourceCharge::ReserveBacking` over one or several original pool handles. -/
def reserveBacking (charges : List Nat) (category : ResourceCategory) : LedgerM Nat := do
  reject (category ≠ .backingAssigned ∧ category ≠ .privateState ∧ category ≠ .privateTail)
    (.invalidArgument "backing assignment requires spill, private state or tail")
  reject (charges = []) (.invalidArgument "empty backing assignment")
  let s ← get
  reject (charges.any fun t => (s.poolHandle? t).isNone)
    (.logicError "assignment requires original pool backing handles")
  let blocks := (charges.filterMap s.poolHandle?).flatMap (·.blocks)
  reject (¬blocks.Nodup) (.invalidArgument "duplicate backing block")
  reject (blocks.any fun i => (s.allocations[i]?).any fun a => a.category != .backingFree)
    .resourceExhausted
  fail .reserve
  modify (each (assignBlock category) blocks)
  modify fun s => { s with tokens := s.tokens ++ [⟨blocks, true, .reservation, true⟩] }
  modify peaks
  return s.tokens.length

/-- A block that `Pin` accepts for a token. -/
def pinnable (token : ChargeToken) (block : Allocation) : Bool :=
  let payload := block.category = .backingAssigned ∨ block.category = .backingMaterialized ∨
    block.category = .privateState ∨ block.category = .privateTail
  let borrowed := token.pooled ∧
    (block.category = .backingAssigned ∨ block.category = .privateTail)
  payload ∧ (block.reserved → borrowed) ∧ (block.backing → token.pooled)

/-- `newly_pinned`: what the group adds to the pinned bytes. -/
def newlyPinned (blocks : List Allocation) : UInt64 :=
  blocks.foldl (fun n block => if block.pins = 0 then n + block.bytes else n) 0

def Allocation.pin (a : Allocation) : Allocation := { a with pins := a.pins + 1 }

/-- `++block.pins`; the bytes were added for the group. -/
def pinBlock : Nat → LedgerState → LedgerState := blockStep (fun _ s => s) Allocation.pin

/-- `PinPersistence` of a reservation or a charge. -/
def pin (t : Nat) : LedgerM Nat := do
  let s ← get
  match s.held? t with
  | none => throw (.logicError "empty ledger charge")
  | some token =>
    let blocks := token.blocks.filterMap (s.allocations[·]?)
    reject (blocks.any fun block => !pinnable token block)
      (.logicError "persistence pin requires owned payload")
    fail .pin
    let rest ← headroom s.limits.persistencePinnedBytes s.snapshot.persistencePinnedBytes
    reject (newlyPinned blocks > rest) .badAlloc
    modify fun s => s.addPinned (newlyPinned blocks)
    modify (each pinBlock token.blocks)
    modify fun s => { s with pins := s.pins ++ [⟨t, 1, true⟩] }
    modify peaks
    return s.pins.length

/-- `ResourceLedger::ConstrainLimits` -/
def constrainLimits (limits : ResourceLimits) : LedgerM PUnit := do
  let s ← get
  reject (limits.totalBytes > s.limits.totalBytes ∨ limits.ramBytes > s.limits.ramBytes ∨
      limits.stagingBytes > s.limits.stagingBytes ∨
      limits.persistencePinnedBytes > s.limits.persistencePinnedBytes)
    (.invalidArgument "ledger limits may only decrease")
  reject (limits.totalBytes < s.snapshot.totalBytes ∨ limits.ramBytes < s.snapshot.ramBytes ∨
      limits.stagingBytes < s.snapshot.bytes .transferStaging ∨
      limits.persistencePinnedBytes < s.snapshot.persistencePinnedBytes)
    .resourceExhausted
  modify fun s => { s with limits := limits }

def resetPeaks (s : LedgerState) : LedgerState :=
  { s with
    snapshot := { s.snapshot with
      peakBytes := s.snapshot.bytes
      peakTotalBytes := s.snapshot.totalBytes
      peakRamBytes := s.snapshot.ramBytes
      peakPersistencePinnedBytes := s.snapshot.persistencePinnedBytes } }

/-- `ResourceLedger::SnapshotAndResetPeaks` -/
def snapshotAndResetPeaks : LedgerM ResourceSnapshot := do
  let previous := (← get).snapshot
  modify resetPeaks
  return previous

/-- `ResourceLedger::FailAfter` -/
def failAfter (step : LedgerStep) (count : Nat) : LedgerM PUnit := do
  reject (step = .release) (.invalidArgument "ledger release cannot fail")
  modify fun s => { s with faults := Function.update s.faults step (some count) }

def clearFaults (s : LedgerState) : LedgerState := { s with faults := fun _ => none }

/-! ## Handles and destructors -/

/-- Copying a `ResourceCharge`. -/
def copyCharge (t : Nat) (s : LedgerState) : LedgerState :=
  if (s.charge? t).isSome then
    s.updateToken t fun token => { token with handles := .charges (token.handles.count + 1) }
  else s

/-- Destroying one `ResourceCharge`. -/
def dropCharge (t : Nat) (s : LedgerState) : LedgerState :=
  if (s.charge? t).isSome then
    s.updateToken t fun token => { token with handles := .charges (token.handles.count - 1) }
  else s

/-- Destroying an unconverted `ResourceReservation`. -/
def dropReservation (t : Nat) (s : LedgerState) : LedgerState :=
  if (s.reservation? t).isSome then
    s.updateToken t fun token => { token with handles := .cancelled }
  else s

def PinToken.held (pin : PinToken) : Bool := pin.alive && pin.handles != 0

/-- Copying a `PersistencePin`. -/
def copyPin (p : Nat) (s : LedgerState) : LedgerState :=
  if (s.pins[p]?).any PinToken.held then
    s.updatePin p fun pin => { pin with handles := pin.handles + 1 }
  else s

/-- Destroying one `PersistencePin`. -/
def dropPin (p : Nat) (s : LedgerState) : LedgerState :=
  if (s.pins[p]?).any PinToken.held then
    s.updatePin p fun pin => { pin with handles := pin.handles - 1 }
  else s

def Allocation.free (a : Allocation) : Allocation :=
  { a with category := .backingFree, reserved := false }

def settleFree (a : Allocation) (s : LedgerState) : LedgerState :=
  let s := s.subBytes a.category a.bytes
  let s := if a.reserved then s.subReserved a.category a.bytes else s
  s.addBytes .backingFree a.bytes

/-- One block of `~ChargeToken`. -/
def freeBlock : Nat → LedgerState → LedgerState := blockStep settleFree Allocation.free

/-- `~ChargeToken`, due once nothing refers to the token. -/
def destroyToken (t : Nat) (s : LedgerState) : LedgerState :=
  match s.tokens[t]? with
  | none => s
  | some token =>
    if token.alive ∧ s.tokenUnreferenced t token then
      let s := if token.pooled then (each freeBlock token.blocks s).peaks else s
      s.updateToken t fun token => { token with alive := false }
    else s

def Allocation.unpin (a : Allocation) : Allocation := { a with pins := a.pins - 1 }

def settleUnpin (a : Allocation) (s : LedgerState) : LedgerState :=
  if a.pins - 1 = 0 then s.subPinned a.bytes else s

/-- One block of `~PinToken`. -/
def unpinBlock : Nat → LedgerState → LedgerState := blockStep settleUnpin Allocation.unpin

/-- `~PinToken`, due once its last handle is gone. -/
def destroyPin (p : Nat) (s : LedgerState) : LedgerState :=
  match s.pins[p]? with
  | none => s
  | some pin =>
    if pin.alive ∧ pin.handles = 0 then
      let blocks := ((s.tokens[pin.charge]?).map (·.blocks)).getD []
      (each unpinBlock blocks s).updatePin p fun pin => { pin with alive := false }
    else s

def Allocation.destroy (a : Allocation) : Allocation := { a with alive := false }

def settleDestroy (a : Allocation) (s : LedgerState) : LedgerState :=
  let s := s.subBytes a.category a.bytes
  let s := if a.reserved then s.subReserved a.category a.bytes else s
  let s := s.subTotal a.bytes
  if a.category ≠ .transferStaging then s.subRam a.bytes else s

/-- `~Allocation`, due once no token owns it. -/
def destroyAllocation (i : Nat) (s : LedgerState) : LedgerState :=
  match s.allocations[i]? with
  | none => s
  | some block =>
    if block.alive ∧ s.allocationUnreferenced i then
      blockStep settleDestroy Allocation.destroy i s
    else s

/-! ## Runs -/

inductive Operation where
  | reserve (category : ResourceCategory) (bytes : UInt64)
  | convert (reservation : Nat)
  | reserveBacking (charges : List Nat) (category : ResourceCategory)
  | pin (token : Nat)
  | constrainLimits (limits : ResourceLimits)
  | snapshotAndResetPeaks
  | failAfter (step : LedgerStep) (count : Nat)
  | clearFaults
  | copyCharge (token : Nat)
  | dropCharge (token : Nat)
  | dropReservation (token : Nat)
  | copyPin (pin : Nat)
  | dropPin (pin : Nat)
  | destroyToken (token : Nat)
  | destroyPin (pin : Nat)
  | destroyAllocation (allocation : Nat)

/-- What an operation runs; its result, if it has one, goes to the caller. -/
def Operation.run : Operation → LedgerM PUnit
  | .reserve category bytes => discard (Ledger.reserve category bytes)
  | .convert t => Ledger.convert t
  | .reserveBacking charges category => discard (Ledger.reserveBacking charges category)
  | .pin t => discard (Ledger.pin t)
  | .constrainLimits limits => Ledger.constrainLimits limits
  | .snapshotAndResetPeaks => discard Ledger.snapshotAndResetPeaks
  | .failAfter step count => Ledger.failAfter step count
  | .clearFaults => modify Ledger.clearFaults
  | .copyCharge t => modify (Ledger.copyCharge t)
  | .dropCharge t => modify (Ledger.dropCharge t)
  | .dropReservation t => modify (Ledger.dropReservation t)
  | .copyPin p => modify (Ledger.copyPin p)
  | .dropPin p => modify (Ledger.dropPin p)
  | .destroyToken t => modify (Ledger.destroyToken t)
  | .destroyPin p => modify (Ledger.destroyPin p)
  | .destroyAllocation i => modify (Ledger.destroyAllocation i)

def initial (limits : ResourceLimits) : LedgerState := { limits := limits }

/-- States of a ledger opened with `limits`, after operations that returned or threw. -/
inductive Reachable (limits : ResourceLimits) : LedgerState → Prop
  | start : Reachable limits (initial limits)
  | next {s : LedgerState} (op : Operation) :
      Reachable limits s → Reachable limits (Program.final op.run s)

end Gufo.Ledger
