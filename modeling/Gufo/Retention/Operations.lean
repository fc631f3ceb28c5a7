import Gufo.Retention.State

/-!
# Operations of the retention policy

`Admit`, `Reclaim`, `Touch` and `Remove` of `src/cache/retention.cpp`, with the
victim selection they share.

* What the world answers is an argument: which payloads a disk job pins, whether
  `DropResident` throws, and for each round of `Admit` what the capture and the
  index do.
* A call that returns or throws leaves a policy. A record index the code takes
  without having one is undefined behaviour, and a capture that is still running
  leaves no policy either.
-/

namespace Gufo.Retention
open Gufo.Disk

variable {object : ChunkRef → Chunk} {limit : Nat}

/-- How the capture callback, or `Insert` of the index, ends. -/
inductive Ending where
  | done
  | exhausted
  | failed
  deriving DecidableEq, Repr

/-- One round of `Admit` as the world makes it. -/
structure Round (object : ChunkRef → Chunk) (limit : Nat) where
  stopped : Bool := false
  captured : Ending := .done
  checkpoint : Option (Checkpoint object) := none
  /-- `IsResidentCoherent` -/
  coherent : Bool := true
  stoppedLater : Bool := false
  /-- `Insert`, and the id of the entry it returns. -/
  inserted : Ending := .done
  entry : UInt64 := 0
  /-- `PersistencePinned` when a record is removed for the new one. -/
  persisting : Fin limit → Bool := fun _ => false
  dropFails : Bool := false
  /-- The same for the eviction after a refusal. -/
  persistingLater : Fin limit → Bool := fun _ => false
  dropFailsLater : Bool := false

/-- What a call leaves. -/
inductive Outcome (object : ChunkRef → Chunk) (limit : Nat) where
  | returned (value : Bool) (s : Policy object limit)
  | threw (s : Policy object limit)
  | undefined
  | running

/-- The policy a call leaves, if it ends. -/
def Outcome.left : Outcome object limit → Option (Policy object limit)
  | .returned _ s => some s
  | .threw s => some s
  | .undefined => none
  | .running => none

namespace Policy

/-! ## Choosing a victim -/

section Victim
variable (s : Policy object limit) (r : RetentionRequest) (recordPressure : Bool)
  (pinned : Fin limit → Bool)

def retryFraming : Nat := 64

/-- `Persisting`: only a checkpoint with a private state is asked. -/
def persisting (e : Record object limit) (i : Fin limit) : Bool :=
  e.checkpoint.components.any (·.privateState.isSome) && pinned i

/-- The record of the request's source. -/
def sourceRecord : Option (Fin limit × Record object limit) :=
  (s.find r.source).bind fun i => (s.records i).map fun e => (i, e)

def resumedTail : Bool :=
  r.reused && r.reusedTokens != 0 && decide (r.reusedTokens ≤ r.tokens.length) &&
    decide (r.tokens.length - r.reusedTokens ≤ retryFraming)

def reusedSource : Bool :=
  !recordPressure && r.purpose == .retry && r.reused && !resumedTail r &&
    (s.sourceRecord r).any fun (_, e) =>
      decide (e.checkpoint.boundary ≤ r.reusedTokens) && isPrefix e.checkpoint.tokens r.tokens

def replacesSource : Bool :=
  !recordPressure && r.purpose == .retry && (s.sourceRecord r).any fun (i, e) =>
    !persisting pinned e i && !r.protectedCheckpoints.contains e.checkpoint.id &&
      continuedBy e.checkpoint r &&
      decide (r.tokens.length - e.checkpoint.boundary ≤ retryFraming)

/-- The highest rank that the request may evict. -/
def maximumRank : Nat :=
  if !recordPressure && r.purpose == .history then 3
  else if !recordPressure && r.purpose == .retry && resumedTail r then 2
  else r.purpose.maxRank

/-- A resumed retry may evict its own covered prefix history. -/
def coveredHistory (i : Fin limit) (e : Record object limit) (level : Nat) : Bool :=
  !recordPressure && r.purpose == .retry && r.reused && r.reusedTokens != 0 &&
    decide (r.reusedTokens ≤ r.tokens.length) && decide (level ≤ 2) &&
    decide (e.checkpoint.boundary ≤ r.reusedTokens) &&
    e.checkpoint.compatibility == r.compatibility && e.checkpoint.input == r.input &&
    if s.reusedSource r recordPressure then
      (s.find r.source).any fun source => i == source || e.below source
    else isPrefix e.checkpoint.tokens r.tokens

def eligible (i : Fin limit) : Bool :=
  (s.records i).any fun e =>
    !persisting pinned e i && !r.protectedCheckpoints.contains e.checkpoint.id &&
      (decide (s.priority i (some r) ≤ maximumRank r recordPressure) ||
        s.coveredHistory r recordPressure i e (s.priority i (some r)))

/-- The incompatible edited tail of the source's family, least recently used first. -/
def editedTail : Option (Fin limit) :=
  match s.sourceRecord r with
  | none => none
  | some (source, from_) =>
    if recordPressure && isPrefix from_.checkpoint.tokens r.tokens then
      (List.finRange limit).foldl (fun tail i =>
        match s.records i with
        | none => tail
        | some e =>
          if i ≠ source ∧ s.eligible r recordPressure pinned i ∧
              e.checkpoint.compatibility = r.compatibility ∧ e.checkpoint.input = r.input ∧
              from_.checkpoint.boundary < e.checkpoint.boundary ∧
              ¬isPrefix e.checkpoint.tokens r.tokens ∧
              isPrefix from_.checkpoint.tokens e.checkpoint.tokens ∧
              (tail.bind s.records).all fun t => decide (e.lastUsed < t.lastUsed) then some i
          else tail) none
    else none

/-- Reused within one turnover of the byte budget. -/
def fresh (ramBytes : UInt64) (e : Record object limit) : Bool :=
  e.reusedAt.any fun at_ => decide (s.admittedBytes - at_ < ramBytes)

/-- Restored rows are worth less than an eighth of the private state. -/
def cheap (c : Checkpoint object) : Bool :=
  let state := (c.components.map fun k =>
    if k.descriptor.kind = .privateState then k.descriptor.stateBytes else 0).sum
  let rows := (c.components.map fun k =>
    if k.descriptor.kind = .privateState then 0
    else k.position.validRows * k.descriptor.rowBytes).sum
  decide (rows * 8 < state) && !continuedBy c r

/-- `PressureOrder` -/
def pressureOrder (ramBytes : UInt64) (i : Fin limit) (e : Record object limit)
    (priority : Nat) : List Nat :=
  if priority = 0 then [0, e.lastUsed.toNat, 0, 0]
  else if cheap r e.checkpoint && !s.fresh ramBytes e then [1, e.lastUsed.toNat, 0, 0]
  else
    let family := (List.finRange limit).filter e.below
    let recency := family.foldl (fun used j =>
      max used (((s.records j).map (·.lastUsed)).getD 0)) e.lastUsed
    let reused := s.fresh ramBytes e || family.any fun j => (s.records j).any (s.fresh ramBytes)
    let rooted := (List.finRange limit).any fun j => (s.records j).any (·.below i)
    let covered := (List.finRange limit).any e.below
    let fork := e.forked || s.branch e
    let shared := fork ||
      (covered && !rooted && (e.purpose == .history || e.purpose == .branchPoint))
    let depth := 2 ^ 64 - 1 - e.checkpoint.boundary
    if reused && !cheap r e.checkpoint then
      [3, if fork then 2 else if covered then 0 else 1, recency.toNat, depth]
    else [2, recency.toNat, if shared then 2 else if covered then 0 else 1, depth]

/-- What the selection loop keeps: the target, its order, and the lowest rank met. -/
structure Selection (limit : Nat) where
  target : Option (Fin limit) := none
  order : List Nat := [0, 0, 0, 0]
  lowest : Nat := 3

/-- One turn of the selection loop. -/
def select (ramBytes : UInt64) (best : Selection limit) (i : Fin limit) : Selection limit :=
  match s.records i with
  | none => best
  | some e =>
    if !s.eligible r recordPressure pinned i || s.find r.source == some i then best
    else if !recordPressure then
      let level := s.priority i (some r)
      let candidate := s.pressureOrder r ramBytes i e level
      let best := { best with lowest := min best.lowest level }
      if best.target.isNone || decide (candidate < best.order) then
        { best with target := some i, order := candidate }
      else best
    else if best.target.all fun target =>
        decide (s.priority i (some r) < s.priority target (some r)) ||
          (s.priority i (some r) == s.priority target (some r) &&
            (s.records target).any fun t => decide (e.lastUsed < t.lastUsed)) then
      { best with target := some i }
    else best

/-- A redundant source gives way before another family's last copy. -/
def advancesSource (best : Selection limit) (source : Fin limit) (e : Record object limit) : Bool :=
  (recordPressure || !r.preserveSource) && s.eligible r recordPressure pinned source &&
    r.purpose.continues && decide (s.priority source (some r) < 3) && continuedBy e.checkpoint r &&
    (best.target.isNone ||
      (if recordPressure then (best.target.map fun t => s.priority t (some r)).getD 3
        else best.lowest) == 3)

/-- Nothing else is left. -/
def onlySource (best : Selection limit) (source : Fin limit) : Bool :=
  best.target.isNone && s.eligible r recordPressure pinned source &&
    ((!recordPressure && !r.preserveSource) ||
      (recordPressure && limit == 1 && r.purpose.continues))

/-- `Victim` -/
def victim (ramBytes : UInt64) : Option (Fin limit) :=
  match s.editedTail r recordPressure pinned with
  | some tail => some tail
  | none =>
    let best := (List.finRange limit).foldl (s.select r recordPressure pinned ramBytes) {}
    if best.target.isNone && s.replacesSource r recordPressure pinned then s.find r.source
    else
      match s.sourceRecord r with
      | none => best.target
      | some (source, e) =>
        if s.advancesSource r recordPressure pinned best source e ||
            s.onlySource r recordPressure pinned best source then some source
        else best.target

end Victim

/-! ## Events and removal -/

/-- `Emit` -/
def emit (s : Policy object limit) (action : RetentionAction) (reason : RetentionReason)
    (id : CheckpointId) (boundary : Nat) (purpose : RetentionPurpose) (rank : Nat)
    (used : UInt64) : Policy object limit :=
  let (bytes, t) := s.retainedPayloadBytes
  { t with
    sequence := s.sequence + 1
    events := s.events ++
      [⟨s.sequence + 1, action, reason, id, boundary, purpose, rank, used, s.size, bytes⟩] }

/-- The record slot emptied, and its bit taken from every other record. -/
def vacate (s : Policy object limit) (i : Fin limit) : Policy object limit :=
  { s with records := fun j => if j = i then none else
      (s.records j).map fun r => { r with below := fun k => r.below k && k != i } }

/-- `Erase` once `DropResident` has returned. -/
def erase (s : Policy object limit) (i : Fin limit) (reason : RetentionReason) (rank : Nat) :
    Policy object limit :=
  match s.records i with
  | none => s
  | some e =>
    let unique := s.uniquePayloadBytes i
    { s.vacate i with size := s.size - 1, retained := s.retained.map (· - unique) }.emit
      .removed reason e.checkpoint.id e.checkpoint.boundary e.purpose rank e.lastUsed

/-- `Reclaim` -/
def reclaim (s : Policy object limit) (r : RetentionRequest) (limits : LedgerLimits)
    (pinned : Fin limit → Bool) (dropFails : Bool) : Outcome object limit :=
  if r.newPayloadBytes > limits.ramBytes then .returned false s
  else
    match s.victim r false pinned limits.ramBytes with
    | none => .returned false s
    | some victim =>
      if dropFails then .threw s
      else .returned true (s.erase victim .byteCapacity (s.priority victim (some r)))

/-! ## Admission -/

/-- The lambda `refuse`. -/
def refuse (s : Policy object limit) (r : RetentionRequest) (purpose : RetentionPurpose)
    (reason : RetentionReason) : Outcome object limit :=
  .returned false (s.emit .refused reason 0 r.tokens.length purpose purpose.maxRank 0)

/-- The slot of a retained checkpoint at this very boundary. -/
def exactMatch (s : Policy object limit) (r : RetentionRequest) : Option (Fin limit) :=
  (List.finRange limit).find? fun i => (s.checkpointAt i).any fun c =>
    c.compatibility == r.compatibility && c.input == r.input && c.tokens == r.tokens

/-- A captured checkpoint that the request did not ask for is refused. -/
def matchesRequest (c : Checkpoint object) (r : RetentionRequest) : Bool :=
  c.compatibility == r.compatibility && c.input == r.input && c.tokens == r.tokens

/-- The first free slot. -/
def freeSlot (s : Policy object limit) : Option (Fin limit) :=
  (List.finRange limit).find? fun i => (s.records i).isNone

/-- A new record in a free slot. -/
def fill (s : Policy object limit) (target : Fin limit) (e : Record object limit) :
    Policy object limit :=
  { s with
    records := fun j => if j = target then some e else s.records j
    clock := s.clock + 1
    size := s.size + 1 }

/-- The new record's bytes. -/
def credit (s : Policy object limit) (target : Fin limit) : Policy object limit :=
  { s with
    retained := s.retained.map (· + s.uniquePayloadBytes target)
    admittedBytes := s.admittedBytes + s.uniqueBytes target }

/-- The conversation's reuse: this turn's, or that of the record it replaces. -/
def markReused (s : Policy object limit) (target : Fin limit) (reused : Bool)
    (reusedAt : Option UInt64) : Policy object limit :=
  if reused || reusedAt.isSome then
    { s with records := fun j => if j = target then
        (s.records j).map fun e =>
          { e with reusedAt := if reused then some s.admittedBytes else reusedAt }
      else s.records j }
  else s

/-- The end of a successful round, from the choice of the slot on. -/
def place (s : Policy object limit) (target : Fin limit) (r : RetentionRequest)
    (purpose : RetentionPurpose) (c : Checkpoint object) (entry : UInt64)
    (reusedAt : Option UInt64) : Policy object limit :=
  let e : Record object limit :=
    { checkpoint := c, entry, purpose, stable := r.stable, lastUsed := s.clock + 1 }
  let t := (((s.fill target e).credit target).relate target c).markReused target r.reused reusedAt
  t.emit .admitted .captured c.id c.boundary purpose (t.priority target none) e.lastUsed

/-- The record that makes way for the new one, with the reason; `none` is one that the code
takes from past the end of its array. -/
def makesWay (s : Policy object limit) (r : RetentionRequest) (exact : Option (Fin limit))
    (pinned : Fin limit → Bool) (ramBytes : UInt64) :
    Option (Option (Fin limit × RetentionReason)) :=
  match exact.filter fun i => (s.records i).isSome with
  | some i => some (some (i, .exactReplacement))
  | none =>
    if s.size = limit then
      match s.victim r true pinned ramBytes with
      | none => none
      | some victim =>
        let edited := (s.sourceRecord r).any fun (_, from_) => (s.checkpointAt victim).any fun c =>
          !isPrefix c.tokens r.tokens && isPrefix from_.checkpoint.tokens c.tokens
        some (some (victim, if edited then .editedTail else .recordCapacity))
    else some none

/-- The record evicted after `ResourceExhausted`. -/
def evicted (s : Policy object limit) (r : RetentionRequest) (exact : Option (Fin limit))
    (pinned : Fin limit → Bool) (ramBytes : UInt64) : Option (Fin limit) :=
  match exact.filter fun i => (s.checkpointAt i).any fun c =>
      (c.id != r.source || !r.preserveSource) && !r.protectedCheckpoints.contains c.id with
  | some i => some i
  | none => s.victim r false pinned ramBytes

/-- The end of a round that stored the new record. -/
def publish (s : Policy object limit) (r : RetentionRequest) (purpose : RetentionPurpose)
    (c : Checkpoint object) (entry : UInt64) (reusedAt : Option UInt64) : Outcome object limit :=
  match s.freeSlot with
  | none => .undefined
  | some target => .returned true (s.place target r purpose c entry reusedAt)

/-- The loop of `Admit`, one round of the world after the other. -/
def admitLoop (r : RetentionRequest) (ramBytes : UInt64) (exact : Option (Fin limit))
    (purpose : RetentionPurpose) :
    List (Round object limit) → Policy object limit → Outcome object limit
  | [], _ => .running
  | round :: rest, s =>
    -- The handler of `ResourceExhausted`.
    let retry : Outcome object limit :=
      match s.evicted r exact round.persistingLater ramBytes with
      | none => s.refuse r purpose .byteCapacity
      | some target =>
        if round.dropFailsLater then .threw s
        else admitLoop r ramBytes exact purpose rest
          (s.erase target (if some target = exact then .exactReplacement else .byteCapacity)
            (s.priority target (some r)))
    if round.stopped then s.refuse r purpose .cancelled
    else
      match round.captured, round.checkpoint with
      | .exhausted, _ => retry
      | .failed, _ => s.refuse r purpose .captureFailure
      | .done, none => s.refuse r purpose .invalid
      | .done, some c =>
        if !round.coherent || !matchesRequest c r then s.refuse r purpose .invalid
        else if round.stoppedLater then s.refuse r purpose .cancelled
        else
          match round.inserted with
          | .exhausted => retry
          | .failed => s.refuse r purpose .captureFailure
          | .done =>
            match s.makesWay r exact round.persisting ramBytes with
            | none => .undefined
            | some none => s.publish r purpose c round.entry none
            | some (some (victim, reason)) =>
              if round.dropFails then s.refuse r purpose .captureFailure
              else (s.erase victim reason (s.priority victim (some r))).publish r purpose c
                round.entry
                (if reason = .exactReplacement then (s.records victim).bind (·.reusedAt) else none)

/-- `Admit`. `pinned` and `pinnedLater` answer its two checks before the loop. -/
def admit_ (s : Policy object limit) (r : RetentionRequest) (limits : LedgerLimits)
    (stopped : Bool) (hasCapture : Bool) (pinned pinnedLater : Fin limit → Bool)
    (rounds : List (Round object limit)) : Outcome object limit :=
  if stopped then s.refuse r r.purpose .cancelled
  else if r.tokens = [] ∨ r.tokens.length < r.stable ∨ !hasCapture then
    s.refuse r r.purpose .invalid
  else if r.newPayloadBytes > limits.totalBytes ∨ r.newPayloadBytes > limits.ramBytes then
    s.refuse r r.purpose .byteCapacity
  else if s.size = limit ∧ !r.purpose.continues ∧
      s.victim r true pinned limits.ramBytes = none then
    s.refuse r r.purpose .recordCapacity
  else
    let exact := s.exactMatch r
    let purpose := if (exact.bind s.records).any (·.purpose == .branchPoint) then
      .branchPoint else r.purpose
    if exact = none ∧ s.size = limit ∧ s.victim r true pinnedLater limits.ramBytes = none then
      s.refuse r purpose .recordCapacity
    else s.admitLoop r limits.ramBytes exact purpose rounds

/-! ## Access -/

/-- `Touch` -/
def touch (s : Policy object limit) (id : CheckpointId) : Outcome object limit :=
  match (s.find id).bind fun i => (s.records i).map fun e => (i, e) with
  | none => .threw s
  | some (i, e) =>
    let e := { e with lastUsed := s.clock + 1, reusedAt := some s.admittedBytes }
    let s := { s with
      clock := s.clock + 1
      records := fun j => if j = i then some e else s.records j }
    .returned true
      (s.emit .touched .explicit id e.checkpoint.boundary e.purpose (s.priority i none) e.lastUsed)

/-- `Remove` -/
def remove (s : Policy object limit) (id : CheckpointId) (dropFails : Bool) :
    Outcome object limit :=
  match s.find id with
  | none => .threw s
  | some i =>
    if dropFails then .threw s
    else .returned true (s.erase i .explicit (s.priority i none))

end Policy

/-- One call with all that the world answers during it. -/
inductive Call (object : ChunkRef → Chunk) (limit : Nat) where
  | admit_ (r : RetentionRequest) (limits : LedgerLimits) (stopped hasCapture : Bool)
      (pinned pinnedLater : Fin limit → Bool) (rounds : List (Round object limit))
  | reclaim (r : RetentionRequest) (limits : LedgerLimits) (pinned : Fin limit → Bool)
      (dropFails : Bool)
  | touch (id : CheckpointId)
  | remove (id : CheckpointId) (dropFails : Bool)
  | retainedPayloadBytes

def Call.run : Call object limit → Policy object limit → Outcome object limit
  | .admit_ r limits stopped hasCapture pinned pinnedLater rounds, s =>
    s.admit_ r limits stopped hasCapture pinned pinnedLater rounds
  | .reclaim r limits pinned dropFails, s => s.reclaim r limits pinned dropFails
  | .touch id, s => s.touch id
  | .remove id dropFails, s => s.remove id dropFails
  | .retainedPayloadBytes, s => .returned true s.retainedPayloadBytes.2

/-- A policy after any sequence of calls that ended. -/
inductive Reachable : Policy object limit → Prop
  | start {s : Policy object limit} : construct object limit = some s → Reachable s
  | call {s t : Policy object limit} (c : Call object limit) :
      Reachable s → (c.run s).left = some t → Reachable t

end Gufo.Retention
