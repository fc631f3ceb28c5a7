import Gufo.Continuation.State

/-!
# Reserving, publishing and returning

`ReserveSnapshot`, `SkipSnapshot`, `Commit`, `Invalidate` and `Clear`, each one
critical section of the cache's mutex. Removals and skips are reported as events.
-/

namespace Gufo.Continuation

inductive SnapshotEventAction where
  | removed
  | skipped
  deriving DecidableEq, Repr

inductive SnapshotEventReason where
  | byteCapacity
  | entryCapacity
  | exactReplacement
  | captureFailure
  | reservationMismatch
  deriving DecidableEq, Repr

structure SnapshotEvent where
  action : SnapshotEventAction
  reason : SnapshotEventReason
  snapshotBytes : UInt64
  tokenCount : Nat
  retainedSnapshotBytes : UInt64
  reservedSnapshotBytes : UInt64
  capacityBytes : UInt64
  deriving DecidableEq, Repr

/-- A record whose snapshot was taken out. -/
def Entry.emptied {σ : Type} (e : Entry σ) : Entry σ :=
  { e with
    snapshot := none
    tokens := []
    snapshotBytes := 0
    valid := false }

/-- An entry without reuse state; its session and its use stay. -/
def Entry.cleared {σ : Type} (e : Entry σ) : Entry σ :=
  { e with
    snapshot := none
    snapshotBytes := 0
    stablePrefixTokens := 0
    tokens := []
    inputIdentity := []
    liveTokens := []
    liveIdentity := []
    valid := false
    dirty := false }

namespace Cache
variable {σ : Type}

def makeEvent (c : Cache σ) (action : SnapshotEventAction) (reason : SnapshotEventReason)
    (bytes : UInt64) (tokens : Nat) : SnapshotEvent :=
  ⟨action, reason, bytes, tokens, c.retainedSnapshotBytes, c.reservedSnapshotBytes,
    c.snapshotCapacityBytes⟩

/-- Every slot is made by the state factory; records hold no model session. -/
def create (capacity : Nat) (snapshotMode : Bool) (snapshotCapacity : Nat)
    (capacityBytes : Option UInt64) : Except String (Cache σ) :=
  let recordCount := if snapshotCapacity = 0 then capacity else snapshotCapacity
  if capacity = 0 then .error "continuation cache capacity must be at least one"
  else if snapshotMode ∧ 2 ^ 64 - 1 - capacity < recordCount then
    .error "continuation checkpoint capacity overflows"
  else
    .ok {
      entries := List.replicate capacity {} ++
        if snapshotMode then List.replicate recordCount { available := false } else []
      stateCount := capacity
      snapshotMode := snapshotMode
      snapshotCapacityBytes := if snapshotMode then capacityBytes.getD 0 else 0 }

/-- Takes a reservation back. A larger one than what is reserved empties the counter. -/
def release (c : Cache σ) (reservation : UInt64) : Cache σ :=
  if reservation ≤ c.reservedSnapshotBytes then
    { c with reservedSnapshotBytes := c.reservedSnapshotBytes - reservation }
  else { c with reservedSnapshotBytes := 0 }

/-- Takes a record's snapshot out of it. -/
def removeRecord (c : Cache σ) (target : Nat) : Cache σ :=
  { c.update target Entry.emptied with
    retainedSnapshotBytes := c.retainedSnapshotBytes - (c.entry target).snapshotBytes }

def removalEvent (c : Cache σ) (target : Nat) (reason : SnapshotEventReason) : SnapshotEvent :=
  (c.removeRecord target).makeEvent .removed reason (c.entry target).snapshotBytes
    (c.entry target).tokens.length

end Cache

/-! ## ReserveSnapshot -/

structure Reservation where
  sourceIndex : Nat
  snapshotBytes : UInt64
  tokenCount : Nat
  preserveSource : Bool
  purpose : SnapshotPurpose
  replacementPrefix : List Token
  inputIdentity : Identity

namespace Reservation

def maxPriority (r : Reservation) : Nat := r.purpose.maxRemovalPriority

/-- Only a continuation makes its own earlier copies redundant. -/
def incoming (r : Reservation) : List Token :=
  if r.purpose.isContinuation then r.replacementPrefix else []

end Reservation

structure Reserved (σ : Type) where
  cache : Cache σ
  admitted : Bool
  purpose : SnapshotPurpose
  events : List SnapshotEvent

namespace Cache
variable {σ : Type}

def priorityFor (c : Cache σ) (r : Reservation) (candidate : Nat) : Nat :=
  c.removalPriority candidate r.incoming r.inputIdentity

def fits (c : Cache σ) (bytes : UInt64) : Bool :=
  let used := c.retainedSnapshotBytes + c.reservedSnapshotBytes
  bytes ≠ 0 ∧ used ≤ c.snapshotCapacityBytes ∧ bytes ≤ c.snapshotCapacityBytes - used

/-- An optional copy is not admitted when no record is free and none may be displaced. -/
def skipsOptional (c : Cache σ) (r : Reservation) : Bool :=
  !r.purpose.isContinuation && !c.optionalCopiesDisplaceIdle &&
    c.records.all (fun i => (c.entry i).valid) &&
    c.records.all fun i => i = r.sourceIndex ∨ r.maxPriority < c.priorityFor r i

def oldestSnapshot (c : Cache σ) (r : Reservation) (allowSource : Bool) : Option Nat :=
  (leastValuable r.maxPriority
    (fun i => (c.entry i).valid ∧ (c.entry i).snapshot.isSome ∧
      (allowSource ∨ i ≠ r.sourceIndex))
    (c.priorityFor r) (fun i => (c.entry i).snapshotLastUsed) c.records).selected

/-- The source is still the copy that the new prefix extends. -/
def canReplaceSource (c : Cache σ) (r : Reservation) (purpose : SnapshotPurpose) : Bool :=
  let source := c.entry r.sourceIndex
  !r.preserveSource && purpose.isContinuation && decide (r.sourceIndex < c.entries.length) &&
    !r.replacementPrefix.isEmpty && source.valid && source.snapshot.isSome &&
    decide (c.priorityFor r r.sourceIndex < 3 ∧
      source.tokens.length < r.replacementPrefix.length ∧
      source.inputIdentity = r.inputIdentity ∧ source.tokens <+: r.replacementPrefix)

/-- Another record that holds the very prefix to be published. -/
def exactCopy (c : Cache σ) (r : Reservation) : Option Nat :=
  if r.replacementPrefix.length = r.tokenCount then
    c.records.find? fun i =>
      i ≠ r.sourceIndex ∧ (c.entry i).valid ∧ (c.entry i).snapshot.isSome ∧
        (c.entry i).tokens = r.replacementPrefix ∧ (c.entry i).inputIdentity = r.inputIdentity
  else none

def canFitAfterEviction (c : Cache σ) (bytes : UInt64) : Bool :=
  bytes ≠ 0 ∧ c.reservedSnapshotBytes ≤ c.snapshotCapacityBytes ∧
    bytes ≤ c.snapshotCapacityBytes - c.reservedSnapshotBytes

/-- The next victim under byte pressure: this family is advanced before another family's
last copy goes, and the source only where it need not be preserved. -/
def evictionTarget (c : Cache σ) (r : Reservation) (purpose : SnapshotPurpose) : Option Nat :=
  let oldest := c.oldestSnapshot r false
  let target :=
    if c.canReplaceSource r purpose ∧ (∀ t ∈ oldest, c.priorityFor r t = 3) then
      some r.sourceIndex
    else oldest
  match target with
  | some t => some t
  | none => if r.preserveSource then none else c.oldestSnapshot r true

/-- The eviction loop, in at most `fuel` rounds; `none` is a loop that has not ended. -/
def evict (r : Reservation) (exact : Option Nat) :
    Nat → Cache σ → SnapshotPurpose → List SnapshotEvent →
      Option (Cache σ × SnapshotPurpose × List SnapshotEvent)
  | 0, _, _, _ => none
  | fuel + 1, c, purpose, events =>
    if c.fits r.snapshotBytes then some (c, purpose, events)
    else
      match exact.filter fun i => (c.entry i).valid with
      | some i =>
        evict r exact fuel (c.removeRecord i)
          (if (c.entry i).purpose = .branchPoint then .branchPoint else purpose)
          (events ++ [c.removalEvent i .exactReplacement])
      | none =>
        match c.evictionTarget r purpose with
        | none => some (c, purpose, events)
        | some t =>
          evict r exact fuel (c.removeRecord t) purpose
            (events ++ [c.removalEvent t .byteCapacity])

/-- Admits the reservation if it fits by now. -/
def admission (r : Reservation) (c : Cache σ) (purpose : SnapshotPurpose)
    (events : List SnapshotEvent) : Reserved σ :=
  if c.fits r.snapshotBytes then
    { cache := { c with reservedSnapshotBytes := c.reservedSnapshotBytes + r.snapshotBytes }
      admitted := true
      purpose := purpose
      events := events }
  else
    { cache := c
      admitted := false
      purpose := purpose
      events := events ++ [c.makeEvent .skipped .byteCapacity r.snapshotBytes r.tokenCount] }

/-- `none` only where the eviction loop has not ended. Every round removes a record, so that
one round more than there are entries is enough. -/
def reserveSnapshot (c : Cache σ) (r : Reservation) : Option (Reserved σ) :=
  if c.skipsOptional r then
    some {
      cache := c
      admitted := false
      purpose := r.purpose
      events := [c.makeEvent .skipped .entryCapacity r.snapshotBytes r.tokenCount] }
  else if c.canFitAfterEviction r.snapshotBytes then
    (c.evict r (c.exactCopy r) (c.entries.length + 1) r.purpose []).map
      fun s => admission r s.1 s.2.1 s.2.2
  else some (admission r c r.purpose [])

def skipSnapshot (c : Cache σ) (reservation : UInt64) (reason : SnapshotEventReason)
    (bytes : UInt64) (tokens : Nat) : Cache σ × SnapshotEvent :=
  (c.release reservation, (c.release reservation).makeEvent .skipped reason bytes tokens)

end Cache

/-! ## Commit -/

structure Publication (σ : Type) where
  index : Nat
  sourceIndex : Nat
  reservation : UInt64
  tokens : List Token
  snapshot : Option σ
  inputIdentity : Identity
  liveTokens : List Token := []
  liveIdentity : Identity := []
  releaseState : Bool := true
  stablePrefixTokens : Nat := 0
  purpose : SnapshotPurpose := .continuation

structure Committed (σ : Type) where
  cache : Cache σ
  retainedBytes : UInt64 := 0
  published : Option Nat := none
  events : List SnapshotEvent := []

namespace Publication
variable {σ : Type}

def maxPriority (p : Publication σ) : Nat := p.purpose.maxRemovalPriority

def incoming (p : Publication σ) : List Token :=
  if p.purpose.isContinuation then p.tokens else []

/-- The bytes of the snapshot that was captured, zero for none. -/
def bytes (p : Publication σ) (payloadBytes : σ → UInt64) : UInt64 :=
  (p.snapshot.map payloadBytes).getD 0

/-- A snapshot of the reserved size, with tokens to find it by. -/
def matchesReservation (p : Publication σ) (payloadBytes : σ → UInt64) : Bool :=
  p.snapshot.isSome ∧ p.tokens ≠ [] ∧ p.reservation ≠ 0 ∧ p.bytes payloadBytes ≠ 0 ∧
    p.bytes payloadBytes = p.reservation

def skipReason (p : Publication σ) (payloadBytes : σ → UInt64) : SnapshotEventReason :=
  if p.snapshot.isSome ∧ (p.reservation = 0 ∨ p.bytes payloadBytes = 0 ∨
      p.bytes payloadBytes ≠ p.reservation ∨ p.tokens = []) then .reservationMismatch
  else .captureFailure

/-- A record with the publication in it. -/
def fill (p : Publication σ) (snapshotBytes : UInt64) (learned : Bool) (now : UInt64)
    (e : Entry σ) : Entry σ :=
  { e with
    tokens := p.tokens
    inputIdentity := p.inputIdentity
    snapshot := p.snapshot
    snapshotBytes := snapshotBytes
    stablePrefixTokens := p.stablePrefixTokens
    purpose := if learned then .branchPoint else p.purpose
    valid := !p.tokens.isEmpty
    snapshotLastUsed := now }

end Publication

namespace Cache
variable {σ : Type}

def priorityAt (c : Cache σ) (p : Publication σ) (candidate : Nat) : Nat :=
  c.removalPriority candidate p.incoming p.inputIdentity

/-- A valid record of the same tokens under the same identity. -/
def exactRecord (c : Cache σ) (p : Publication σ) : Option Nat :=
  c.records.find? fun i =>
    (c.entry i).valid ∧ (c.entry i).tokens = p.tokens ∧ (c.entry i).inputIdentity = p.inputIdentity

def freeRecord (c : Cache σ) : Option Nat := c.records.find? fun i => (c.entry i).valid = false

/-- The least recently used copy of a conversation that this one does not extend. -/
def idleRecord (c : Cache σ) (p : Publication σ) : Option Nat :=
  leastRecent
    (fun i =>
      let e := c.entry i
      i ≠ p.sourceIndex ∧ e.valid ∧ e.snapshot.isSome ∧
        ¬(e.inputIdentity = p.inputIdentity ∧ (e.tokens <+: p.tokens ∨ p.tokens <+: e.tokens)) ∧
        c.isBranchPoint i = false)
    (fun i => (c.entry i).snapshotLastUsed) c.records

/-- The old, incompatible tail of a conversation that was edited after its source. -/
def editedTail (c : Cache σ) (p : Publication σ) : Option Nat :=
  let source := c.entry p.sourceIndex
  if p.sourceIndex < c.entries.length then
    leastRecent
      (fun i =>
        let e := c.entry i
        source.valid ∧ source.tokens ≠ [] ∧ source.tokens <+: p.tokens ∧ e.valid ∧
          i ≠ p.sourceIndex ∧ e.inputIdentity = p.inputIdentity ∧
          source.tokens.length < e.tokens.length ∧ ¬e.tokens <+: p.tokens ∧
          source.tokens <+: e.tokens ∧ c.priorityAt p i ≤ p.maxPriority)
      (fun i => (c.entry i).snapshotLastUsed) c.records
  else none

def rankedRecord (c : Cache σ) (p : Publication σ) : Ranked :=
  leastValuable p.maxPriority
    (fun i => ¬(i = p.sourceIndex ∧
      (1 < c.entries.length - c.stateCount ∨ p.purpose.isContinuation = false)))
    (c.priorityAt p) (fun i => (c.entry i).snapshotLastUsed) c.records

/-- The source may go in place of another family's last copy. -/
def advancesSource (c : Cache σ) (p : Publication σ) : Bool :=
  let source := c.entry p.sourceIndex
  p.purpose.isContinuation && decide (p.sourceIndex < c.entries.length) && source.valid &&
    decide (c.priorityAt p p.sourceIndex < 3 ∧ source.inputIdentity = p.inputIdentity ∧
      source.tokens.length < p.tokens.length ∧ source.tokens <+: p.tokens)

/-- The record to publish in, and whether it is an exact replacement. -/
def commitTarget (c : Cache σ) (p : Publication σ) : Option Nat × Bool :=
  match c.exactRecord p with
  | some i => (some i, true)
  | none =>
    match c.freeRecord with
    | some i => (some i, false)
    | none =>
      match (if c.optionalCopiesDisplaceIdle then c.idleRecord p else none) with
      | some i => (some i, false)
      | none =>
        match c.editedTail p with
        | some i => (some i, false)
        | none =>
          let ranked := c.rankedRecord p
          if ranked.priority = 3 ∧ c.advancesSource p then (some p.sourceIndex, false)
          else (ranked.selected, false)

/-- Takes the target's old snapshot out, if it has one. -/
def vacate (c : Cache σ) (target : Nat) (exact : Bool) : Cache σ × List SnapshotEvent :=
  if (c.entry target).snapshot.isSome then
    (c.removeRecord target,
      [c.removalEvent target (if exact then .exactReplacement else .entryCapacity)])
  else (c, [])

/-- Puts the snapshot in a record that is free by now, if its bytes fit. -/
def install (c : Cache σ) (p : Publication σ) (snapshotBytes : UInt64) (target : Nat)
    (learned : Bool) : Option (Cache σ) :=
  let used := c.retainedSnapshotBytes + c.reservedSnapshotBytes
  if c.snapshotCapacityBytes < used ∨ c.snapshotCapacityBytes - used < snapshotBytes then none
  else
    some { c.update target (p.fill snapshotBytes learned (c.clock + 1)) with
      clock := c.clock + 1
      retainedSnapshotBytes := c.retainedSnapshotBytes + snapshotBytes }

/-- Finds a record for the snapshot and puts it there. -/
def retain (c : Cache σ) (p : Publication σ) (snapshotBytes : UInt64) : Committed σ :=
  match c.commitTarget p with
  | (none, _) =>
    { cache := c
      events := [c.makeEvent .skipped .entryCapacity snapshotBytes p.tokens.length] }
  | (some target, exact) =>
    let vacated := c.vacate target exact
    let learned := exact && decide ((c.entry target).purpose = .branchPoint)
    match vacated.1.install p snapshotBytes target learned with
    | none =>
      { cache := vacated.1
        events := vacated.2 ++
          [vacated.1.makeEvent .skipped .reservationMismatch snapshotBytes p.tokens.length] }
    | some c' =>
      { cache := c'
        retainedBytes := snapshotBytes
        published := some target
        events := vacated.2 }

def returnState (c : Cache σ) (index : Nat) : Cache σ :=
  (c.update index fun e =>
    { e with
      dirty := true
      available := true
      stateLastUsed := c.clock + 1 }).tick

/-- The tokens the slot's own state holds from now on. -/
def setLive (c : Cache σ) (p : Publication σ) : Cache σ :=
  if p.releaseState then
    c.update p.index fun e =>
      { e with
        liveTokens := p.liveTokens
        liveIdentity := p.liveIdentity }
  else c

/-- A commit in snapshot mode, up to the return of the slot. -/
def commitSnapshot (payloadBytes : σ → UInt64) (c : Cache σ) (p : Publication σ) : Committed σ :=
  let covered := p.reservation ≤ c.reservedSnapshotBytes
  let reason := if covered then p.skipReason payloadBytes else .reservationMismatch
  let c := (c.release p.reservation).setLive p
  if p.matchesReservation payloadBytes ∧ covered then c.retain p (p.bytes payloadBytes)
  else if p.snapshot.isSome ∨ p.reservation ≠ 0 then
    { cache := c
      events := [c.makeEvent .skipped reason (p.bytes payloadBytes) p.tokens.length] }
  else { cache := c }

/-- Without snapshots the slot itself is the entry. -/
def commitState (c : Cache σ) (p : Publication σ) : Committed σ :=
  { cache := (c.release p.reservation).update p.index fun e =>
      { e with
        tokens := p.tokens
        inputIdentity := p.inputIdentity
        valid := !p.tokens.isEmpty } }

def commit (payloadBytes : σ → UInt64) (c : Cache σ) (p : Publication σ) : Committed σ :=
  let done := if c.snapshotMode then c.commitSnapshot payloadBytes p else c.commitState p
  { done with cache := if p.releaseState then done.cache.returnState p.index else done.cache }

/-! ## Invalidate and Clear -/

def invalidate (c : Cache σ) (index : Nat) (reservation : UInt64) : Cache σ :=
  let c := c.release reservation
  (c.update index fun e =>
    { e with
      tokens := if c.snapshotMode then e.tokens else []
      valid := if c.snapshotMode then e.valid else false
      liveTokens := []
      liveIdentity := []
      dirty := false
      available := true
      stateLastUsed := c.clock + 1 }).tick

def clear (c : Cache σ) : Except String (Cache σ) :=
  if c.reservedSnapshotBytes ≠ 0 ∨ ∃ e ∈ c.entries.take c.stateCount, e.available = false then
    .error "cannot clear a continuation cache with active leases"
  else
    .ok { c with
      entries := c.entries.map Entry.cleared
      retainedSnapshotBytes := 0 }

end Cache

end Gufo.Continuation
