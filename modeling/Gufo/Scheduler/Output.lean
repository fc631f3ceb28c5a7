import Gufo.Lib.Sums

/-!
# The scheduler's output queues

A streamed request owns a queue of decoded pieces, guarded by its output mutex.
All requests of a scheduler charge one `OutputBudget`, an atomic counter that no
mutex guards. An action below is what one thread does between two accesses to
that counter, so the critical sections of different requests interleave there.
-/

namespace Gufo.Scheduler

open Gufo.Sums

/-! ## The shared budget -/

structure OutputBudget where
  limit : UInt64
  bufferedBytes : UInt64 := 0
  maxBufferedBytes : UInt64 := 0
  deriving DecidableEq, Repr

namespace OutputBudget

/-- The loop condition of `TryReserve`, over the value it last read. -/
def admits (b : OutputBudget) (current bytes : UInt64) : Bool :=
  current ≤ b.limit && bytes ≤ b.limit - current

/-- One compare-exchange of `TryReserve`. The weak form may fail without cause;
what it then read is the counter's present value. -/
def exchange (b : OutputBudget) (current bytes : UInt64) (spurious : Bool) :
    Except UInt64 OutputBudget :=
  if b.bufferedBytes = current ∧ spurious = false then
    .ok { b with bufferedBytes := current + bytes }
  else .error b.bufferedBytes

/-- The second loop of `TryReserve`, which leaves the larger mark. -/
def raise (b : OutputBudget) (updated : UInt64) : OutputBudget :=
  { b with maxBufferedBytes := larger b.maxBufferedBytes updated }

def release (b : OutputBudget) (bytes : UInt64) : OutputBudget :=
  if 0 < bytes then { b with bufferedBytes := b.bufferedBytes - bytes } else b

end OutputBudget

/-! ## Pieces -/

/-- `logprob` holds the bits of the double. -/
structure DecodedLogprob where
  id : UInt32
  token : List UInt8
  tokenCapacity : UInt64
  logprob : UInt64
  deriving DecidableEq, Repr

/-- A move keeps the vector's storage, so both capacities travel with the value. -/
structure DecodedLogprobs where
  entries : List DecodedLogprob
  capacity : UInt64
  deriving DecidableEq, Repr

/-- `sizeof` on the 64-bit targets the server is built for. -/
def sizeofDecodedLogprobs : UInt64 := 24
def sizeofDecodedLogprob : UInt64 := 48

def DecodedLogprobs.storageBytes (l : DecodedLogprobs) : UInt64 :=
  l.entries.foldl (fun bytes entry => bytes + entry.tokenCapacity)
    (sizeofDecodedLogprobs + l.capacity * sizeofDecodedLogprob)

structure OutputPiece where
  text : List UInt8
  logprobs : Option DecodedLogprobs := none
  deriving DecidableEq, Repr

/-- A piece without text still occupies a queue slot, and is charged one byte. -/
def queuedPieceCost (piece : OutputPiece) : UInt64 :=
  larger (UInt64.ofNat piece.text.length) 1 +
    match piece.logprobs with
    | some logprobs => logprobs.storageBytes
    | none => 0

/-! ## Requests -/

inductive FinishReason where
  | stop
  | stopSequence
  | length
  | cancelled
  deriving DecidableEq, Repr

/-- An exception: what was thrown, by its message. -/
abbrev Failure := String

structure Result where
  cancelled : Bool := false
  finishReason : FinishReason := .stop
  maxBufferedOutputBytes : UInt64 := 0
  deriving DecidableEq, Repr

structure PromptProgress where
  total : UInt64
  cache : UInt64
  processed : UInt64
  timeMs : Int64
  deriving DecidableEq

/-- Where the holder of a request's output mutex stands. -/
inductive Section where
  | free
  /-- `TryReserve` is in its loop for the piece, having read `current`. -/
  | reserving (piece : OutputPiece) (current : UInt64)
  /-- The exchange went through; the piece is not queued yet. -/
  | reserved (piece : OutputPiece) (updated : UInt64)
  deriving DecidableEq

/-- The callbacks given to `Wait`, and its local variables. -/
structure Waiting where
  onToken : Bool
  onProgress : Bool
  started : Bool
  deliverPieces : Bool := true
  consumerCancelled : Bool := false
  callbackFailure : Option Failure := none
  deriving DecidableEq

/-- What one turn of `Wait` took while it held the mutex. -/
inductive Taken where
  | start
  | progress (p : PromptProgress)
  | piece (p : OutputPiece)
  | terminal (result : Result) (failure : Option Failure)
  deriving DecidableEq

inductive Outcome where
  | returned (result : Result)
  | threw (failure : Failure)
  deriving DecidableEq

inductive Consumer where
  | idle
  | waiting (w : Waiting)
  | delivering (w : Waiting) (taken : Taken)
  | ended (onToken : Bool) (outcome : Outcome)
  deriving DecidableEq

structure ScheduledRequest where
  publishTokenPieces : Bool
  publishPromptProgress : Bool
  maxBufferedOutputBytes : UInt64
  outputPieces : List OutputPiece := []
  bufferedOutputBytes : UInt64 := 0
  pendingProgress : Option PromptProgress := none
  admitted : Bool := false
  result : Result := {}
  failure : Option Failure := none
  terminal : Bool := false
  cancellationRequested : Bool := false
  /-- The holder of the output mutex. -/
  holder : Section := .free
  /-- `PublishPiece` returned false or threw; the scheduler completes the request next. -/
  refused : Bool := false
  consumer : Consumer := .idle
  /-- The consumer still owns its `Request`. -/
  owned : Bool := true
  /-- Every piece handed to `PublishPiece` for streaming, and every piece handed to the
  token callback, in order. Neither is stored by the program. -/
  published : List OutputPiece := []
  delivered : List OutputPiece := []
  deriving DecidableEq

namespace ScheduledRequest

/-! ## The scheduler's thread -/

/-- `PublishPiece` up to its first access to the budget. -/
def publishPiece (piece : OutputPiece) (b : OutputBudget) (r : ScheduledRequest) :
    ScheduledRequest :=
  if r.publishTokenPieces = false then r
  else
    let r := { r with published := r.published ++ [piece] }
    if r.bufferedOutputBytes > r.maxBufferedOutputBytes ∨
        queuedPieceCost piece > r.maxBufferedOutputBytes - r.bufferedOutputBytes then
      { r with refused := true }
    else { r with holder := .reserving piece b.bufferedBytes }

/-- One turn of the loop in `TryReserve`. -/
def tryReserve (piece : OutputPiece) (current : UInt64) (spurious : Bool) (b : OutputBudget)
    (r : ScheduledRequest) : OutputBudget × ScheduledRequest :=
  if b.admits current (queuedPieceCost piece) then
    match b.exchange current (queuedPieceCost piece) spurious with
    | .ok b => (b, { r with holder := .reserved piece b.bufferedBytes })
    | .error seen => (b, { r with holder := .reserving piece seen })
  else (b, { r with holder := .free, refused := true })

/-- The counters of `PublishPiece` once the budget has reserved the piece. -/
def charge (piece : OutputPiece) (r : ScheduledRequest) : ScheduledRequest :=
  let buffered := r.bufferedOutputBytes + queuedPieceCost piece
  { r with
    bufferedOutputBytes := buffered
    result := { r.result with
      maxBufferedOutputBytes := larger r.result.maxBufferedOutputBytes buffered } }

/-- The end of `PublishPiece`. When the queue cannot grow, the catch block takes the
charge back and the exception leaves the function. -/
def queuePiece (piece : OutputPiece) (updated : UInt64) (grown : Bool) (b : OutputBudget)
    (r : ScheduledRequest) : OutputBudget × ScheduledRequest :=
  let b := b.raise updated
  let r := r.charge piece
  if grown then (b, { r with outputPieces := r.outputPieces ++ [piece], holder := .free })
  else
    (b.release (queuedPieceCost piece),
      { r with
        bufferedOutputBytes := r.bufferedOutputBytes - queuedPieceCost piece
        holder := .free
        refused := true })

def publishAdmission (r : ScheduledRequest) : ScheduledRequest :=
  if r.publishTokenPieces then { r with admitted := true } else r

def publishProgress (p : PromptProgress) (r : ScheduledRequest) : ScheduledRequest :=
  if r.publishPromptProgress then { r with pendingProgress := some p } else r

def releaseBufferedOutputLocked (b : OutputBudget) (r : ScheduledRequest) :
    OutputBudget × ScheduledRequest :=
  (b.release r.bufferedOutputBytes, { r with outputPieces := [], bufferedOutputBytes := 0 })

def publishTerminal (failure : Option Failure) (discardPendingOutput : Bool) (b : OutputBudget)
    (r : ScheduledRequest) : OutputBudget × ScheduledRequest :=
  let (b, r) := if discardPendingOutput then r.releaseBufferedOutputLocked b else (b, r)
  (b, { r with failure := failure, terminal := true })

def completeSuccess (reason : FinishReason) (b : OutputBudget) (r : ScheduledRequest) :
    OutputBudget × ScheduledRequest :=
  publishTerminal none false b { r with result := { r.result with finishReason := reason } }

/-- `thrown` is what the runner's own cancellation threw, before or after the result
was marked. -/
def completeCancelled (thrown : Option (Failure × Bool)) (b : OutputBudget)
    (r : ScheduledRequest) : OutputBudget × ScheduledRequest :=
  let marked := { r with result := { r.result with cancelled := true, finishReason := .cancelled } }
  match thrown with
  | none => publishTerminal none true b marked
  | some (failure, true) => publishTerminal (some failure) true b marked
  | some (failure, false) => publishTerminal (some failure) true b r

def completeFailure (failure : Failure) (b : OutputBudget) (r : ScheduledRequest) :
    OutputBudget × ScheduledRequest :=
  if r.terminal then (b, r) else publishTerminal (some failure) true b r

/-! ## The consumer's thread -/

def cancel (r : ScheduledRequest) : ScheduledRequest :=
  if r.terminal then r else { r with cancellationRequested := true }

/-- Only a stream with a start callback waits for its admission. -/
def wait (onToken onProgress onStart : Bool) (r : ScheduledRequest) : ScheduledRequest :=
  let w : Waiting := { onToken, onProgress, started := !onStart || !r.publishTokenPieces }
  { r with consumer := .waiting w }

/-- The predicate of the condition variable. -/
def ready (w : Waiting) (r : ScheduledRequest) : Bool :=
  r.terminal || (!w.started && r.admitted) || r.pendingProgress.isSome || !r.outputPieces.isEmpty

/-- What `Wait` takes under the mutex: its start first, then progress, a piece, and the
end once the queue is empty. -/
def take (w : Waiting) (b : OutputBudget) (r : ScheduledRequest) :
    OutputBudget × ScheduledRequest :=
  if !w.started && (!r.ready w || r.admitted) then
    (b, { r with consumer := .delivering w .start })
  else match r.pendingProgress, r.outputPieces with
    | some p, _ => (b, { r with pendingProgress := none, consumer := .delivering w (.progress p) })
    | none, piece :: rest =>
      (b.release (queuedPieceCost piece),
        { r with
          outputPieces := rest
          bufferedOutputBytes := r.bufferedOutputBytes - queuedPieceCost piece
          consumer := .delivering w (.piece piece) })
    | none, [] =>
      if r.terminal then (b, { r with consumer := .delivering w (.terminal r.result r.failure) })
      else (b, r)

/-- What a callback did: its boolean, or what it threw. -/
abbrev Answer := Except Failure Bool

/-- The lambda `deliver` of `Wait`. -/
def deliver (answer : Answer) (w : Waiting) (r : ScheduledRequest) : ScheduledRequest :=
  match answer with
  | .ok true => { r with consumer := .waiting w }
  | .ok false =>
    let w := { w with consumerCancelled := true, deliverPieces := false }
    { r.cancel with consumer := .waiting w }
  | .error e =>
    let w := { w with callbackFailure := some e, deliverPieces := false }
    { r.cancel with consumer := .waiting w }

/-- What `Wait` ends with once it read the terminal state. -/
def finish (w : Waiting) (result : Result) (failure : Option Failure) : Outcome :=
  let result :=
    if w.consumerCancelled then { result with cancelled := true, finishReason := .cancelled }
    else result
  match w.callbackFailure, failure with
  | some e, _ => .threw e
  | none, some e => .threw e
  | none, none => .returned result

/-- The part of a turn of `Wait` that runs after the mutex is released. -/
def handle (answer : Answer) (w : Waiting) (taken : Taken) (r : ScheduledRequest) :
    ScheduledRequest :=
  match taken with
  | .start =>
    let w := { w with started := true }
    if w.deliverPieces then r.deliver answer w else { r with consumer := .waiting w }
  | .progress _ =>
    if w.deliverPieces && w.onProgress then r.deliver answer w
    else { r with consumer := .waiting w }
  | .piece piece =>
    if w.deliverPieces && w.onToken then
      let r := { r with delivered := r.delivered ++ [piece] }
      r.deliver answer w
    else { r with consumer := .waiting w }
  | .terminal result failure => { r with consumer := .ended w.onToken (finish w result failure) }

/-- The destructor of the consumer's `Request`. -/
def drop (r : ScheduledRequest) : ScheduledRequest := { r.cancel with owned := false }

end ScheduledRequest

/-! ## Interleavings -/

/-- What a thread does next to one request. -/
inductive Action where
  | publishPiece (piece : OutputPiece)
  | tryReserve (spurious : Bool)
  | queuePiece (grown : Bool)
  | publishAdmission
  | publishProgress (p : PromptProgress)
  | completeSuccess (reason : FinishReason)
  /-- `external` is what the request's own cancellation check said, or that the
  scheduler stops. -/
  | completeCancelled (thrown : Option (Failure × Bool)) (external : Bool)
  | completeFailure (failure : Failure)
  | cancel
  | wait (onToken onProgress onStart : Bool)
  /-- `expired` says that the start deadline of the stream has passed. -/
  | take (expired : Bool)
  | handle (answer : ScheduledRequest.Answer)
  | drop

/-- One action, when the thread it belongs to can do it. The scheduler works on no
request that ended, and completes one whose piece was refused. -/
def ScheduledRequest.act (r : ScheduledRequest) (b : OutputBudget) :
    Action → Option (OutputBudget × ScheduledRequest)
  | .publishPiece piece =>
    if r.holder = .free ∧ r.terminal = false ∧ r.refused = false then
      some (b, r.publishPiece piece b)
    else none
  | .tryReserve spurious =>
    match r.holder with
    | .reserving piece current => some (r.tryReserve piece current spurious b)
    | _ => none
  | .queuePiece grown =>
    match r.holder with
    | .reserved piece updated => some (r.queuePiece piece updated grown b)
    | _ => none
  | .publishAdmission => if r.holder = .free then some (b, r.publishAdmission) else none
  | .publishProgress p => if r.holder = .free then some (b, r.publishProgress p) else none
  | .completeSuccess reason =>
    if r.holder = .free ∧ r.terminal = false ∧ r.refused = false then
      some (r.completeSuccess reason b)
    else none
  | .completeCancelled thrown external =>
    if r.holder = .free ∧ r.terminal = false ∧ (r.cancellationRequested || external) then
      some (r.completeCancelled thrown b)
    else none
  | .completeFailure failure =>
    if r.holder = .free then some (r.completeFailure failure b) else none
  | .cancel => if r.owned then some (b, r.cancel) else none
  | .wait onToken onProgress onStart =>
    if r.owned ∧ r.consumer = .idle then some (b, r.wait onToken onProgress onStart) else none
  | .take expired =>
    match r.consumer with
    | .waiting w =>
      if r.holder = .free ∧ (r.ready w || (!w.started && expired)) then some (r.take w b)
      else none
    | _ => none
  | .handle answer =>
    match r.consumer with
    | .delivering w taken => some (b, r.handle answer w taken)
    | _ => none
  | .drop =>
    match r.consumer with
    | .idle | .ended _ _ => if r.owned then some (b, r.drop) else none
    | _ => none

/-- A scheduler: a request leaves `none` behind when its last owner lets go of it. -/
structure TextGenerationScheduler where
  budget : OutputBudget
  maxBufferedOutputBytesPerRequest : UInt64
  requests : List (Option ScheduledRequest) := []

namespace TextGenerationScheduler

def start (perRequest total : UInt64) : TextGenerationScheduler :=
  { budget := { limit := total }, maxBufferedOutputBytesPerRequest := perRequest }

def live (s : TextGenerationScheduler) : List ScheduledRequest := s.requests.reduceOption

inductive Step where
  | submit (publishTokenPieces returnProgress : Bool)
  | act (i : Nat) (a : Action)
  | destroy (i : Nat)

def submit (publishTokenPieces returnProgress : Bool) (s : TextGenerationScheduler) :
    TextGenerationScheduler :=
  let request : ScheduledRequest :=
    { publishTokenPieces
      publishPromptProgress := publishTokenPieces && returnProgress
      maxBufferedOutputBytes := s.maxBufferedOutputBytesPerRequest }
  { s with requests := s.requests ++ [some request] }

def step (s : TextGenerationScheduler) : Step → Option TextGenerationScheduler
  | .submit publishTokenPieces returnProgress =>
    some (s.submit publishTokenPieces returnProgress)
  | .act i a =>
    match s.requests[i]? with
    | some (some r) =>
      (r.act s.budget a).map fun (budget, r) =>
        { s with budget, requests := s.requests.set i (some r) }
    | _ => none
  | .destroy i =>
    match s.requests[i]? with
    | some (some r) =>
      if r.owned = false ∧ r.holder = .free then
        some { s with
          budget := s.budget.release r.bufferedOutputBytes
          requests := s.requests.set i none }
      else none
    | _ => none

/-- Any interleaving, from a scheduler without requests. -/
def run (s : TextGenerationScheduler) (steps : List Step) : Option TextGenerationScheduler :=
  steps.foldlM step s

end TextGenerationScheduler

end Gufo.Scheduler
