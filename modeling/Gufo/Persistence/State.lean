import Gufo.Disk.Manifest
import Gufo.Lib.Sums

/-!
# The persistence queue

`PersistenceQueue` of `src/cache/streaming.cpp`: submitters that replace queued
jobs, one worker that writes them, and `Stop`.

* A locked section is one step; callbacks run between locked sections, so a
  submitter that still owes one is in `owed`.
* What a submitter's allocation and its sources' `Pin` do is the environment's.
* The accepted, superseded, discarded and lost jobs and the callbacks made are
  recorded; no step reads the record.
* The queue was constructed with a `completed` callback.
-/

namespace Gufo.Persistence
open Gufo.Disk Gufo.Sums

/-- What the queue reads of a job. `submitted` numbers accepted jobs from one on. -/
structure PersistenceJob where
  manifest : DiskManifest
  pinnedBytes : UInt64
  submitted : Nat
  deriving DecidableEq

structure PersistenceQueueStats where
  accepted : Nat := 0
  skipped : Nat := 0
  coalesced : Nat := 0
  superseded : Nat := 0
  completed : Nat := 0
  failed : Nat := 0
  pending : Nat := 0
  pinnedBytes : UInt64 := 0
  peakPending : Nat := 0
  peakPinnedBytes : UInt64 := 0

structure Queue where
  maxBytes : UInt64
  /-- One cell for each place of the configured depth. -/
  pending : List (Option PersistenceJob)
  active : Option PersistenceJob := none
  stats : PersistenceQueueStats := {}
  stopped : Bool := false
  sequence : Nat := 0
  /-- Set for ever once a counter has gone below zero. -/
  underflow : Bool := false

/-! ## Choosing what to replace -/

/-- `SameJob` -/
def sameJob (a b : DiskManifest) : Bool :=
  a.checkpoint == b.checkpoint && a.lineage == b.lineage && a.compatibility == b.compatibility &&
    a.input == b.input && a.tokens == b.tokens &&
    a.components.map (fun c => (c.position, c.descriptor)) ==
      b.components.map fun c => (c.position, c.descriptor)

/-- `Extends` -/
def extends? (next prior : DiskManifest) : Bool :=
  next.compatibility == prior.compatibility && next.input == prior.input &&
    decide (prior.tokens.length < next.tokens.length) && prior.tokens.isPrefixOf next.tokens

/-- A queued ancestor of the new job that is not the first pending boundary of its branch. -/
def Queue.redundant (q : Queue) (job : PersistenceJob) (i : Nat) (cell : Option PersistenceJob) :
    Bool :=
  cell.any fun other =>
    other.manifest.purpose != .learned && extends? job.manifest other.manifest &&
      (q.active.any (fun active => extends? other.manifest active.manifest) ||
        q.pending.zipIdx.any fun (cell, k) => k != i &&
          cell.any fun earlier => extends? other.manifest earlier.manifest)

/-- `std::find_if` for a redundant job. -/
def Queue.findRedundant (q : Queue) (job : PersistenceJob) : Option Nat :=
  (q.pending.zipIdx.find? fun (cell, i) => q.redundant job i cell).map (·.2)

/-- Whether pressure may replace the job in a cell: a learned job yields only to one. -/
def replaceable (job other : PersistenceJob) : Bool :=
  !(other.manifest.purpose == .learned && job.manifest.purpose != .learned)

/-- The loop that looks for the oldest replaceable job. -/
def Queue.findOldest (q : Queue) (job : PersistenceJob) : Option Nat :=
  (q.pending.zipIdx.foldl (fun best (cell, i) =>
    match cell with
    | none => best
    | some other =>
      if replaceable job other then
        match best with
        | none => some (other.submitted, i)
        | some (submitted, _) => if other.submitted < submitted then some (other.submitted, i) else best
      else best) none).map (·.2)

/-- No free place, or not enough bytes left. -/
def Queue.crowded (q : Queue) (job : PersistenceJob) : Bool :=
  q.stats.pending == q.pending.length || decide (job.pinnedBytes > q.maxBytes - q.stats.pinnedBytes)

/-- The cell `TrySubmit` would replace. -/
def Queue.replacement (q : Queue) (job : PersistenceJob) : Option Nat :=
  match q.findRedundant job with
  | some i => some i
  | none => if q.crowded job then q.findOldest job else none

def Queue.jobAt (q : Queue) (i : Nat) : Option PersistenceJob := (q.pending[i]?).join

/-- The pinned bytes that the replacement would return. -/
def Queue.released (q : Queue) (job : PersistenceJob) : UInt64 :=
  (((q.replacement job).bind q.jobAt).map (·.pinnedBytes)).getD 0

/-- Some queued or active job already is this one. -/
def Queue.duplicate (q : Queue) (job : PersistenceJob) : Bool :=
  q.active.any (fun active => sameJob active.manifest job.manifest) ||
    q.pending.any fun cell => cell.any fun other => sameJob other.manifest job.manifest

/-- Not even the replacement makes room. -/
def Queue.full (q : Queue) (job : PersistenceJob) : Bool :=
  (q.stats.pending == q.pending.length && q.released job == 0) ||
    decide (job.pinnedBytes > q.maxBytes - (q.stats.pinnedBytes - q.released job))

/-! ## Submitting -/

/-- What a source's `Pin` does: a charge or a borrowed backing may be out of pinned
bytes, borrowed rows may have retired. -/
inductive PinOutcome where
  | pinned
  | badAlloc
  | retired
  deriving DecidableEq, Repr

/-- The environment of one `TrySubmit`: its allocation and each source's `Pin`. -/
structure Attempt where
  allocates : Bool
  pins : List PinOutcome

/-- How the loop over the sources ends. -/
def pinSources : List PinOutcome → PinOutcome
  | [] => .pinned
  | .pinned :: rest => pinSources rest
  | .badAlloc :: _ => .badAlloc
  | .retired :: _ => .retired

/-- `pending` and `pinned_bytes` without one job. -/
def Queue.release (q : Queue) (job : PersistenceJob) : Queue :=
  { q with
    stats := { q.stats with
      pending := q.stats.pending - 1
      pinnedBytes := q.stats.pinnedBytes - job.pinnedBytes }
    underflow := q.underflow || decide (q.stats.pending < 1) ||
      decide (q.stats.pinnedBytes < job.pinnedBytes) }

def Queue.skip (q : Queue) : Queue :=
  { q with stats := { q.stats with skipped := q.stats.skipped + 1 } }

/-- Discards the job in cell `i`; `coalesced` counts a redundant one. -/
def Queue.discard (q : Queue) (i : Nat) (superseded : PersistenceJob) (redundant : Bool) : Queue :=
  let q := q.release superseded
  { q with
    pending := q.pending.set i none
    stats := { q.stats with
      superseded := q.stats.superseded + 1
      coalesced := if redundant then q.stats.coalesced + 1 else q.stats.coalesced } }

/-- Queues the job in cell `i`. -/
def Queue.accept (q : Queue) (i : Nat) (job : PersistenceJob) : Queue :=
  let job := { job with submitted := q.sequence + 1 }
  let pending := q.stats.pending + 1
  let pinnedBytes := q.stats.pinnedBytes + job.pinnedBytes
  { q with
    sequence := q.sequence + 1
    pending := q.pending.set i (some job)
    stats := { q.stats with
      accepted := q.stats.accepted + 1
      pending := pending
      pinnedBytes := pinnedBytes
      peakPending := max q.stats.peakPending pending
      peakPinnedBytes := larger q.stats.peakPinnedBytes pinnedBytes } }

/-- How a `TrySubmit` ends. It reports the job it superseded only if it returns. -/
inductive Outcome where
  | returned (accepted : Bool) (superseded : Option PersistenceJob)
  | threw (superseded : Option PersistenceJob)
  deriving DecidableEq

/-- The `try` block once every check passed. -/
def Queue.submit (q : Queue) (job : PersistenceJob) (attempt : Attempt) : Outcome × Queue :=
  if attempt.allocates then
    let free := q.pending.findIdx (·.isNone)
    let superseded := (q.replacement job).bind q.jobAt
    let redundant := (q.findRedundant job).isSome
    let slot := (q.replacement job).getD free
    let q := match superseded with
      | none => q
      | some other => q.discard slot other redundant
    match pinSources attempt.pins with
    | .pinned => (.returned true superseded, q.accept slot job)
    | .badAlloc => (.returned false superseded, q.skip)
    -- Only `std::bad_alloc` is caught here.
    | .retired => (.threw superseded, q)
  else (.returned false none, q.skip)

/-- The locked section of `TrySubmit`. -/
def Queue.trySubmit (q : Queue) (job : PersistenceJob) (attempt : Attempt) : Outcome × Queue :=
  if q.stopped then (.returned false none, q.skip)
  else if q.duplicate job then
    (.returned false none,
      { q with stats := { q.stats with coalesced := q.stats.coalesced + 1 } })
  else if q.full job then (.returned false none, q.skip)
  else q.submit job attempt

/-! ## The worker and `Stop` -/

/-- The comparison of the worker's `std::min_element`: an empty cell is last. -/
def earlier (a b : Option PersistenceJob) : Bool :=
  match a, b with
  | none, _ => false
  | some _, none => true
  | some a, some b => decide (a.submitted < b.submitted)

/-- The first smallest cell from a starting best one. -/
def minElement (best : Option PersistenceJob × Nat) :
    List (Option PersistenceJob × Nat) → Option PersistenceJob × Nat
  | [] => best
  | cell :: rest => minElement (if earlier cell.1 best.1 then cell else best) rest

/-- The cell the worker takes. -/
def Queue.next (q : Queue) : Option PersistenceJob × Nat :=
  match q.pending.zipIdx with
  | [] => (none, 0)
  | cell :: rest => minElement cell rest

/-- `active = std::move(*it)` -/
def Queue.take (q : Queue) : Queue :=
  { q with active := q.next.1, pending := q.pending.set q.next.2 none }

/-- The last locked section of one job's write. -/
def Queue.settle (q : Queue) (active : PersistenceJob) (succeeded : Bool) : Queue :=
  let q := q.release active
  { q with
    active := none
    stats := { q.stats with
      completed := if succeeded then q.stats.completed + 1 else q.stats.completed
      failed := if succeeded then q.stats.failed else q.stats.failed + 1 } }

/-- One iteration of the loop in `Stop`. -/
def Queue.drop (q : Queue) (i : Nat) : Queue :=
  match q.jobAt i with
  | none => q
  | some job =>
    let q := (q.release job).skip
    { q with pending := q.pending.set i none }

/-- The locked section of `Stop`. -/
def Queue.stop (q : Queue) : Queue :=
  (List.range q.pending.length).foldl Queue.drop { q with stopped := true }

/-! ## The system -/

/-- Where the worker thread is. -/
inductive Worker where
  | waiting
  | writing
  /-- After the callback, before the locked section that frees the job. -/
  | settling (succeeded : Bool)
  | exited
  deriving DecidableEq

/-- One call of `completed`. -/
structure Report where
  job : PersistenceJob
  succeeded : Bool
  deriving DecidableEq

structure System where
  queue : Queue
  worker : Worker := .waiting
  /-- Superseded jobs whose submitter has unlocked but not called back yet. -/
  owed : List PersistenceJob := []
  reports : List Report := []
  accepted : List PersistenceJob := []
  superseded : List PersistenceJob := []
  discarded : List PersistenceJob := []
  /-- Superseded by a submission that then threw: nobody owes their callback. -/
  lost : List PersistenceJob := []

def initial (depth : Nat) (maxBytes : UInt64) : System :=
  { queue := { maxBytes := maxBytes, pending := List.replicate depth none } }

/-- Every queued job. -/
def Queue.jobs (q : Queue) : List PersistenceJob := q.pending.filterMap id

/-- A submission's locked section, and what is recorded of it. -/
def System.submit (s : System) (job : PersistenceJob) (attempt : Attempt) : System :=
  match s.queue.trySubmit job attempt with
  | (.returned accepted superseded, queue) =>
    { s with
      queue := queue
      owed := s.owed ++ superseded.toList
      accepted := if accepted then s.accepted ++ [{ job with submitted := queue.sequence }]
        else s.accepted
      superseded := s.superseded ++ superseded.toList }
  | (.threw superseded, queue) =>
    { s with
      queue := queue
      superseded := s.superseded ++ superseded.toList
      lost := s.lost ++ superseded.toList }

inductive Action where
  | submit (job : PersistenceJob) (attempt : Attempt)
  | callBack (job : PersistenceJob)
  | take
  | write (succeeded : Bool)
  | settle
  | exit
  | stop

/-- One step of a submitter, of the worker or of `Stop`. -/
inductive Step : System → Action → System → Prop where
  | submit (s : System) (job : PersistenceJob) (attempt : Attempt) :
      Step s (.submit job attempt) (s.submit job attempt)
  | callBack (s : System) (job : PersistenceJob) (owed : job ∈ s.owed) :
      Step s (.callBack job)
        { s with owed := s.owed.erase job, reports := s.reports ++ [⟨job, false⟩] }
  | take (s : System) (waiting : s.worker = .waiting) (running : s.queue.stopped = false)
      (work : s.queue.stats.pending ≠ 0) :
      Step s .take { s with queue := s.queue.take, worker := .writing }
  | write (s : System) (writing : s.worker = .writing) (active : PersistenceJob)
      (busy : s.queue.active = some active) (succeeded : Bool) :
      Step s (.write succeeded)
        { s with worker := .settling succeeded, reports := s.reports ++ [⟨active, succeeded⟩] }
  | settle (s : System) (succeeded : Bool) (settling : s.worker = .settling succeeded)
      (active : PersistenceJob) (busy : s.queue.active = some active) :
      Step s .settle { s with queue := s.queue.settle active succeeded, worker := .waiting }
  | exit (s : System) (waiting : s.worker = .waiting) (stopped : s.queue.stopped) :
      Step s .exit { s with worker := .exited }
  | stop (s : System) :
      Step s .stop
        { s with queue := s.queue.stop, discarded := s.discarded ++ s.queue.jobs }

end Gufo.Persistence
