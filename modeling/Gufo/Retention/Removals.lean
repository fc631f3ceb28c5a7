import Gufo.Retention.Admission

/-!
# What a call removes

The records that one call of the policy removes, each with the policy it was
chosen in and the payloads pinned by a disk job at that moment.

Whatever `Victim` chooses for capacity is neither protected nor pinned, and a
retry that has no source nearby and reused nothing is given rank 0 only. The old
record at the very boundary is given up without these questions.
-/

namespace Gufo.Retention
open Gufo.Disk

variable {object : ChunkRef → Chunk} {limit : Nat}

/-! ## One round -/

/-- How a round of `Admit` ends, before the records are looked at. -/
inductive Verdict (object : ChunkRef → Chunk) where
  | refused (reason : RetentionReason)
  | exhausted
  | stored (c : Checkpoint object)

/-- The capture and its checks, up to `Insert`. -/
def Round.verdict (round : Round object limit) (r : RetentionRequest) : Verdict object :=
  if round.stopped then .refused .cancelled
  else
    match round.captured, round.checkpoint with
    | .exhausted, _ => .exhausted
    | .failed, _ => .refused .captureFailure
    | .done, none => .refused .invalid
    | .done, some c =>
      if !round.coherent || !Policy.matchesRequest c r then .refused .invalid
      else if round.stoppedLater then .refused .cancelled
      else
        match round.inserted with
        | .exhausted => .exhausted
        | .failed => .refused .captureFailure
        | .done => .stored c

/-- One removal: the policy and the pins it is decided on, the slot, and what the event says. -/
structure Removal (object : ChunkRef → Chunk) (limit : Nat) where
  before : Policy object limit
  slot : Fin limit
  reason : RetentionReason
  rank : Nat
  pinned : Fin limit → Bool := fun _ => false
  /-- The removal makes room, in bytes or in records. -/
  capacity : Bool := true

/-- The policy after a removal. -/
def Removal.after (m : Removal object limit) : Policy object limit :=
  m.before.erase m.slot m.reason m.rank

namespace Policy

/-- The checks before the first capture, but for the second search for a victim. -/
def entryRefusal (s : Policy object limit) (r : RetentionRequest) (limits : LedgerLimits)
    (stopped hasCapture : Bool) (pinned : Fin limit → Bool) : Option RetentionReason :=
  if stopped then some .cancelled
  else if r.tokens = [] ∨ r.tokens.length < r.stable ∨ !hasCapture then some .invalid
  else if r.newPayloadBytes > limits.totalBytes ∨ r.newPayloadBytes > limits.ramBytes then
    some .byteCapacity
  else if s.size = limit ∧ !r.purpose.continues ∧
      s.victim r true pinned limits.ramBytes = none then some .recordCapacity
  else none

/-- The purpose of the new record: a branch point stays one. -/
def keptPurpose (s : Policy object limit) (r : RetentionRequest) : RetentionPurpose :=
  if ((s.exactMatch r).bind s.records).any (·.purpose == .branchPoint) then .branchPoint
  else r.purpose

/-- The old record at the very boundary, when `ResourceExhausted` may cost it its place. -/
def givenUp (s : Policy object limit) (r : RetentionRequest) (exact : Option (Fin limit)) :
    Option (Fin limit) :=
  exact.filter fun i => (s.checkpointAt i).any fun c =>
    (c.id != r.source || !r.preserveSource) && !r.protectedCheckpoints.contains c.id

/-! ## The removals of a call -/

/-- The removal that answers `ResourceExhausted`. -/
def evictedRemoval (s : Policy object limit) (r : RetentionRequest) (exact : Option (Fin limit))
    (ramBytes : UInt64) (round : Round object limit) : Option (Removal object limit) :=
  (s.evicted r exact round.persistingLater ramBytes).map fun target =>
    { before := s
      slot := target
      reason := if some target = exact then .exactReplacement else .byteCapacity
      rank := s.priority target (some r)
      pinned := round.persistingLater }

end Policy

def Call.request : Call object limit → Option RetentionRequest
  | .admit_ r _ _ _ _ _ _ => some r
  | .reclaim r _ _ _ => some r
  | _ => none

namespace Policy
variable {s t : Policy object limit} {r : RetentionRequest} {recordPressure : Bool}
  {pinned : Fin limit → Bool} {ramBytes : UInt64} {i : Fin limit}

/-! ## Admission round by round -/

/-- The record is stored, after one that makes way for it. -/
def storedRound (s : Policy object limit) (r : RetentionRequest) (ramBytes : UInt64)
    (exact : Option (Fin limit)) (purpose : RetentionPurpose) (round : Round object limit)
    (c : Checkpoint object) : Outcome object limit :=
  match s.makesWay r exact round.persisting ramBytes with
  | none => .undefined
  | some none => s.publish r purpose c round.entry none
  | some (some (victim, reason)) =>
    if round.dropFails then s.refuse r purpose .captureFailure
    else (s.erase victim reason (s.priority victim (some r))).publish r purpose c round.entry
      (if reason = .exactReplacement then (s.records victim).bind (·.reusedAt) else none)

theorem admitLoop_cons (ramBytes : UInt64) (exact : Option (Fin limit))
    (purpose : RetentionPurpose) (round : Round object limit)
    (rest : List (Round object limit)) (s : Policy object limit) :
    admitLoop r ramBytes exact purpose (round :: rest) s =
      match round.verdict r with
      | .refused reason => s.refuse r purpose reason
      | .exhausted =>
        match s.evictedRemoval r exact ramBytes round with
        | none => s.refuse r purpose .byteCapacity
        | some m =>
          if round.dropFailsLater then .threw s
          else admitLoop r ramBytes exact purpose rest m.after
      | .stored c => s.storedRound r ramBytes exact purpose round c := by
  rw [admitLoop]
  unfold Round.verdict
  by_cases stopped : round.stopped = true
  · simp [stopped]
  · simp only [stopped, if_false, Bool.false_eq_true]
    cases round.captured with
    | exhausted =>
      unfold evictedRemoval
      cases s.evicted r exact round.persistingLater ramBytes <;> rfl
    | failed => rfl
    | done =>
      cases round.checkpoint with
      | none => rfl
      | some c =>
        by_cases asked : (!round.coherent || !matchesRequest c r) = true
        · simp [asked]
        · by_cases later : round.stoppedLater = true
          · simp [asked, later]
          · simp only [asked, later, if_false, Bool.false_eq_true]
            cases round.inserted with
            | exhausted =>
              unfold evictedRemoval
              cases s.evicted r exact round.persistingLater ramBytes <;> rfl
            | failed => rfl
            | done => rfl

theorem admit_eq (limits : LedgerLimits) (stopped hasCapture : Bool)
    (pinned pinnedLater : Fin limit → Bool) (rounds : List (Round object limit)) :
    s.admit_ r limits stopped hasCapture pinned pinnedLater rounds =
      match s.entryRefusal r limits stopped hasCapture pinned with
      | some reason => s.refuse r r.purpose reason
      | none =>
        if s.exactMatch r = none ∧ s.size = limit ∧
            s.victim r true pinnedLater limits.ramBytes = none then
          s.refuse r (s.keptPurpose r) .recordCapacity
        else s.admitLoop r limits.ramBytes (s.exactMatch r) (s.keptPurpose r) rounds := by
  unfold admit_ entryRefusal keptPurpose
  split
  · rfl
  · split
    · rfl
    · split
      · rfl
      · split
        · rfl
        · rfl

theorem evictedRemoval_occupied {exact : Option (Fin limit)} {round : Round object limit}
    {m : Removal object limit} (h : s.evictedRemoval r exact ramBytes round = some m) :
    m.before = s ∧ (s.records m.slot).isSome := by
  obtain ⟨target, chosen, eq⟩ := Option.map_eq_some_iff.mp h
  cases eq
  exact ⟨rfl, evicted_occupied chosen⟩

end Policy

end Gufo.Retention
