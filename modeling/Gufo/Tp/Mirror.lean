import Mathlib.Algebra.Order.Ring.Int

/-!
# The mirrored runner of rank 0

The bookkeeping of `TpMirroredRunner` in `src/cli/serve/tp_executor.cpp`: which request
a state is leased to, which request changed it last, what rank 1 has said about a
request, and which unjudged requests a request builds on. A map is a function to an
option, a set a function to `Bool`. A send ends with `none`, or with the error of the
sink.
-/

namespace Gufo.Tp

abbrev Sequence := Nat
abbrev StateId := Nat

/-- An open request's count of instructions. -/
structure Request where
  count : Nat := 0
  deriving DecidableEq

structure TpMirroredRunner where
  requests : Sequence → Option Request := fun _ => none
  /-- State id to the request it is leased to. -/
  leases : StateId → Option Sequence := fun _ => none
  /-- State id to the last request that changed it. -/
  producers : StateId → Option Sequence := fun _ => none
  /-- Requests rank 1 has not judged yet, and those it disagreed with. -/
  unsettled : Sequence → Bool := fun _ => false
  rejected : Sequence → Bool := fun _ => false
  /-- Request to the unjudged requests whose live state it reused. -/
  dependencies : Sequence → List Sequence := fun _ => []
  failure : String := ""
  nextSnapshotId : Nat := 1

namespace TpMirroredRunner

abbrev Result (α : Type) := TpMirroredRunner × Except String α

/-- The end of a send: its error stays with the channel. -/
def sendEnd {α : Type} (runner : TpMirroredRunner) (what fallback : String) (a : α) :
    Option String → Result α
  | none => (runner, .ok a)
  | some error =>
    let failure := if error = "" then fallback else error
    ({ runner with failure }, .error (what ++ failure))

/-- `++request.count` -/
def countCall (runner : TpMirroredRunner) (sequence : Sequence) : TpMirroredRunner :=
  { runner with
    requests := Function.update runner.requests sequence
      ((runner.requests sequence).map fun request => ⟨request.count + 1⟩) }

/-- `BeginRequest` -/
def beginRequest (runner : TpMirroredRunner) (sequence : Sequence) : Result Unit :=
  if sequence = 0 ∨ (runner.requests sequence).isSome ∨ runner.unsettled sequence ∨
      runner.rejected sequence then
    (runner, .error "TP request is unnamed or already open")
  else
    ({ runner with
        requests := Function.update runner.requests sequence (some {})
        unsettled := Function.update runner.unsettled sequence true }, .ok ())

/-- The request is closed and its states are released. -/
def release (runner : TpMirroredRunner) (sequence : Sequence) : TpMirroredRunner :=
  { runner with
    requests := Function.update runner.requests sequence none
    leases := fun state =>
      if runner.leases state = some sequence then none else runner.leases state }

/-- `EndRequest` -/
def endRequest (runner : TpMirroredRunner) (sequence : Sequence) (sent : Option String) :
    Result Unit :=
  match runner.requests sequence with
  | none => (runner, .error ("TP request " ++ toString sequence ++ " is not open"))
  | some request =>
    let runner := runner.release sequence
    if runner.failure ≠ "" then
      (runner, .error ("TP instruction channel failed: " ++ runner.failure))
    else if request.count > 2 ^ 32 - 1 then
      (runner, .error "TP request made too many model calls to report")
    else runner.sendEnd "TP request end send failed: " "send failed" () sent

/-- `Settle` -/
def settle (runner : TpMirroredRunner) (sequence : Sequence) (agreed : Bool) :
    TpMirroredRunner :=
  { runner with
    unsettled := Function.update runner.unsettled sequence false
    dependencies := Function.update runner.dependencies sequence []
    rejected := if agreed then runner.rejected
      else Function.update runner.rejected sequence true }

/-- One round of `AwaitDependencies`: `none` waits for the next verdict. -/
def awaitDependencies (runner : TpMirroredRunner) (sequence : Sequence) : Option Bool :=
  if (runner.dependencies sequence).any runner.rejected then some false
  else if (runner.dependencies sequence).any runner.unsettled then none
  else some true

/-- `CanReuse` of a state -/
def canReuseState (runner : TpMirroredRunner) (state : StateId) : Bool :=
  match runner.producers state with
  | none => true
  | some producer => !runner.rejected producer

/-- `CanReuse` of a snapshot -/
def canReuseSnapshot (runner : TpMirroredRunner) (producer : Sequence) : Bool :=
  !runner.rejected producer

/-- `dependencies_[sequence].insert(producer)`, where the producer is another request
without a verdict. -/
def dependOn (runner : TpMirroredRunner) (sequence producer : Sequence) : TpMirroredRunner :=
  if producer ≠ sequence ∧ runner.unsettled producer then
    { runner with
      dependencies := Function.update runner.dependencies sequence
        (producer :: runner.dependencies sequence) }
  else runner

/-- `Send`: one model call of the request the state is leased to. -/
def send (runner : TpMirroredRunner) (state : StateId) (sent : Option String) :
    Result Sequence :=
  if runner.failure ≠ "" then
    (runner, .error ("TP instruction channel failed: " ++ runner.failure))
  else
    match runner.leases state with
    | none => (runner, .error "TP2 model call outside a request")
    | some sequence =>
      let runner :=
        { runner.countCall sequence with
          producers := Function.update runner.producers state (some sequence) }
      runner.sendEnd "TP instruction send failed: " "send failed" sequence sent

/-- What `SendBatch` records for its members, once every one has a request. -/
def recordBatch (runner : TpMirroredRunner) : List (StateId × Sequence) → TpMirroredRunner
  | [] => runner
  | (state, sequence) :: rest =>
    let runner := runner.countCall sequence
    { runner with producers := Function.update runner.producers state (some sequence) }
      |>.recordBatch rest

/-- `SendBatch`: one call for several states, each with its request. -/
def sendBatch (runner : TpMirroredRunner) (states : List StateId) (sent : Option String) :
    Result (List (StateId × Sequence)) :=
  if runner.failure ≠ "" then
    (runner, .error ("TP instruction channel failed: " ++ runner.failure))
  else
    match states.mapM (fun state => (runner.leases state).map (state, ·)) with
    | none => (runner, .error "TP2 model call outside a request")
    | some members =>
      (runner.recordBatch members).sendEnd "TP instruction send failed: " "send failed" members
        sent

/-- `SendInvalidate`: a reset, also between requests. -/
def sendInvalidate (runner : TpMirroredRunner) (state : StateId) (sent : Option String) :
    TpMirroredRunner :=
  if runner.failure ≠ "" then runner
  else
    let counted := match runner.leases state with
      | none => runner
      | some sequence => runner.countCall sequence
    let erased := { counted with producers := Function.update counted.producers state none }
    (erased.sendEnd "" "reset send failed" () sent).1

/-- `SetPromptContext`: leases the state to a request, or releases it. -/
def setPromptContext (runner : TpMirroredRunner) (state : StateId) (request : Option Sequence)
    (sent : Option String) : Result Unit :=
  if runner.failure ≠ "" then
    (runner, .error ("TP instruction channel failed: " ++ runner.failure))
  else
    match request with
    | none =>
      { runner with leases := Function.update runner.leases state none }
        |>.sendEnd "TP instruction send failed: " "send failed" () sent
    | some sequence =>
      if (runner.requests sequence).isNone then
        (runner, .error "TP request context names no open request")
      else
        let leased :=
          { runner with leases := Function.update runner.leases state (some sequence) }
        -- The state may hold what a request rank 1 has not judged yet.
        let leased := match leased.producers state with
          | none => leased
          | some producer => leased.dependOn sequence producer
        (leased.countCall sequence).sendEnd "TP instruction send failed: " "send failed" () sent

/-- The first part of `CacheCall`; a capture does not change the state. -/
def cacheCall (runner : TpMirroredRunner) (state : StateId) (capture : Bool) :
    Result Sequence :=
  match runner.leases state with
  | none => (runner, .error "TP cache call outside a healthy request")
  | some sequence =>
    if runner.failure ≠ "" then (runner, .error "TP cache call outside a healthy request")
    else
      let counted := runner.countCall sequence
      let changed :=
        { counted with producers := Function.update counted.producers state (some sequence) }
      (if capture then counted else changed, .ok sequence)

/-- The start of `Capture`: an id and the producer, zero for none. -/
def beginCapture (runner : TpMirroredRunner) (state : StateId) : Result (Nat × Sequence) :=
  if runner.nextSnapshotId = 2 ^ 64 - 1 then (runner, .error "TP snapshot ID exhausted")
  else ({ runner with nextSnapshotId := runner.nextSnapshotId + 1 },
    .ok (runner.nextSnapshotId, (runner.producers state).getD 0))

/-- The start of `RestoreOrFork`: the request depends on the snapshot's producer. -/
def beginRestore (runner : TpMirroredRunner) (state : StateId) (producer : Sequence) :
    TpMirroredRunner :=
  match runner.leases state with
  | none => runner
  | some sequence => if producer = 0 then runner else runner.dependOn sequence producer

/-- The start of `RestorePersistentSnapshot` for a file of this process. -/
def beginRestoreDisk (runner : TpMirroredRunner) (state : StateId) (producer : Sequence) :
    Result Unit :=
  if runner.rejected producer then
    (runner, .error "TP snapshot of a request rank 1 rejected")
  else (runner.beginRestore state producer, .ok ())

/-- `BeginPersist`: the producer goes into the file's header. -/
def beginPersist (runner : TpMirroredRunner) (producer : Sequence) (sent : Option String) :
    Result Unit :=
  if runner.failure ≠ "" then
    (runner, .error ("TP instruction channel failed: " ++ runner.failure))
  else if runner.rejected producer then
    (runner, .error "TP snapshot of a rejected request")
  else
    match sent with
    | none => (runner, .ok ())
    | some error =>
      let failure := "snapshot persist send failed: " ++ error
      ({ runner with failure }, .error failure)

/-- `Drop` of a snapshot -/
def drop (runner : TpMirroredRunner) (sent : Option String) : TpMirroredRunner :=
  if runner.failure ≠ "" then runner
  else
    match sent with
    | none => runner
    | some error => { runner with failure := "snapshot drop failed: " ++ error }

end TpMirroredRunner

end Gufo.Tp
