import Gufo.Tp.Mirror

/-!
# What a request builds on

The runner with what the states, snapshots and disk files hold: for each the requests
whose model calls contributed to it. The scheduler's calls are serialised by
`call_mutex_`; a call that takes `mutex_` twice is two actions, and the verdicts of
other threads fall anywhere between. `consumed` collects, for a request, the
contributions to everything it leased or restored.
-/

namespace Gufo.Tp

/-- A snapshot or a file of this process: its recorded producer, and the requests that
contributed to it. -/
structure Kept where
  producer : Sequence
  content : List Sequence
  deriving DecidableEq

/-- A call between its two parts. -/
inductive Pending
  | capture (state : StateId) (id : Nat) (producer : Sequence)
  | restore (state : StateId) (content : List Sequence)
  deriving DecidableEq

structure World where
  runner : TpMirroredRunner := {}
  /-- The requests that contributed to a state since its last reset. -/
  content : StateId → List Sequence := fun _ => []
  snapshots : Nat → Option Kept := fun _ => none
  files : List Kept := []
  consumed : Sequence → List Sequence := fun _ => []
  begun : Sequence → Bool := fun _ => false
  /-- What `AwaitDependencies` returned to a request's thread. -/
  awaited : Sequence → Option Bool := fun _ => none
  /-- Settled as agreed. -/
  agreed : Sequence → Bool := fun _ => false
  /-- `CanReuse` returned true and the state was not leased since. -/
  checkedStates : StateId → Bool := fun _ => false
  checkedSnapshots : Nat → Bool := fun _ => false
  pending : Option Pending := none

/-- A send or a call that takes the channel ends with the error of the sink, if any. -/
inductive Action
  -- the threads of the requests
  | begin (sequence : Sequence)
  | endRequest (sequence : Sequence) (sent : Option String)
  | await (sequence : Sequence) (timeout : Bool)
  | settle (sequence : Sequence) (agreed : Bool)
  -- the scheduler's thread
  | canReuseState (state : StateId)
  | canReuseSnapshot (id : Nat)
  | setPromptContext (state : StateId) (request : Option Sequence) (sent : Option String)
  | call (state : StateId) (sent : Option String)
  | callBatch (states : List StateId) (sent : Option String)
  | cacheCall (state : StateId)
  | beginCapture (state : StateId)
  | endCapture (captured : Bool) (sent : Option String)
  | beginRestore (state : StateId) (id : Nat)
  | beginRestoreDisk (state : StateId) (file : Option Nat)
  | endRestore (restored : Bool)
  | persist (id : Nat) (sent : Option String)
  | drop (id : Nat) (sent : Option String)
  | invalidate (state : StateId) (sent : Option String)

namespace World

/-- A request takes over what `content` holds. -/
def consume (w : World) (sequence : Sequence) (content : List Sequence) : World :=
  { w with
    consumed := Function.update w.consumed sequence (content ++ w.consumed sequence) }

/-- A state holds `content` now. -/
def hold (w : World) (state : StateId) (content : List Sequence) : World :=
  { w with content := Function.update w.content state content }

/-- The members of a batch contribute to their states. -/
def holdAll (w : World) : List (StateId × Sequence) → World
  | [] => w
  | (state, sequence) :: rest => (w.hold state (sequence :: w.content state)).holdAll rest

/-- The request a state is leased to, if any, takes over `content` and a restore begins. -/
def startRestore (w : World) (runner : TpMirroredRunner) (state : StateId)
    (content : List Sequence) : World :=
  let consumed := match w.runner.leases state with
    | none => w
    | some sequence => w.consume sequence content
  { consumed with runner, pending := some (.restore state content) }

/-- A sequence comes from a counter and is begun once. A thread ends its request, awaits
the dependencies and settles it, in this order, and as agreed only after the wait returned
true. -/
def step (w : World) : Action → Option World
  | .begin sequence =>
    if w.begun sequence then none
    else
      match w.runner.beginRequest sequence with
      | (runner, .error _) => some { w with runner }
      | (runner, .ok ()) =>
        some { w with runner, begun := Function.update w.begun sequence true }
  | .endRequest sequence sent =>
    if w.pending.isSome then none
    else some { w with runner := (w.runner.endRequest sequence sent).1 }
  | .await sequence timeout =>
    if w.begun sequence ∧ w.runner.requests sequence = none ∧
        w.runner.unsettled sequence ∧ w.awaited sequence = none then
      match w.runner.awaitDependencies sequence with
      | some verdict =>
        some { w with awaited := Function.update w.awaited sequence (some verdict) }
      | none =>
        if timeout then
          some { w with awaited := Function.update w.awaited sequence (some false) }
        else none
    else none
  | .settle sequence agreed =>
    if w.begun sequence ∧ w.runner.requests sequence = none ∧
        w.runner.unsettled sequence ∧ (agreed → w.awaited sequence = some true) then
      some { w with
        runner := w.runner.settle sequence agreed
        agreed := if agreed then Function.update w.agreed sequence true else w.agreed }
    else none
  | .canReuseState state =>
    some { w with
      checkedStates := Function.update w.checkedStates state (w.runner.canReuseState state) }
  | .canReuseSnapshot id =>
    match w.snapshots id with
    | none => none
    | some kept =>
      some { w with
        checkedSnapshots := Function.update w.checkedSnapshots id
          (w.runner.canReuseSnapshot kept.producer) }
  | .setPromptContext state request sent =>
    if w.pending.isSome then none
    else
      match request with
      | none => some { w with runner := (w.runner.setPromptContext state none sent).1 }
      | some sequence =>
        if w.checkedStates state ∨ w.runner.producers state = none then
          let leased :=
            if w.runner.failure = "" ∧ (w.runner.requests sequence).isSome then
              w.consume sequence (w.content state)
            else w
          some { leased with
            runner := (w.runner.setPromptContext state (some sequence) sent).1
            checkedStates := Function.update w.checkedStates state false }
        else none
  | .call state sent =>
    if w.pending.isSome then none
    else
      match w.runner.send state sent with
      | (runner, .error _) => some { w with runner }
      | (runner, .ok sequence) =>
        some { w.hold state (sequence :: w.content state) with runner }
  | .callBatch states sent =>
    if w.pending.isSome then none
    else
      match w.runner.sendBatch states sent with
      | (runner, .error _) => some { w with runner }
      | (runner, .ok members) => some { w.holdAll members with runner }
  | .cacheCall state =>
    if w.pending.isSome then none
    else
      match w.runner.cacheCall state false with
      | (runner, .error _) => some { w with runner }
      | (runner, .ok sequence) =>
        some { w.hold state (sequence :: w.content state) with runner }
  | .beginCapture state =>
    if w.pending.isSome then none
    else
      match w.runner.beginCapture state with
      | (runner, .error _) => some { w with runner }
      | (runner, .ok (id, producer)) =>
        some { w with runner, pending := some (.capture state id producer) }
  | .endCapture captured sent =>
    match w.pending with
    | some (.capture state id producer) =>
      match w.runner.cacheCall state true with
      | (runner, .error _) => some { w with runner := runner.drop sent, pending := none }
      | (runner, .ok _) =>
        if captured then
          some { w with
            runner
            snapshots := Function.update w.snapshots id (some ⟨producer, w.content state⟩)
            pending := none }
        else some { w with runner := runner.drop sent, pending := none }
    | _ => none
  | .beginRestore state id =>
    if w.pending.isSome ∨ !w.checkedSnapshots id then none
    else
      match w.snapshots id with
      | none => none
      | some kept =>
        some (w.startRestore (w.runner.beginRestore state kept.producer) state kept.content)
  | .beginRestoreDisk state file =>
    if w.pending.isSome then none
    else
      match file with
      -- a file another process wrote holds nothing of this process's requests
      | none => some (w.startRestore w.runner state [])
      | some index =>
        match w.files[index]? with
        | none => none
        | some kept =>
          match w.runner.beginRestoreDisk state kept.producer with
          | (runner, .error _) => some { w with runner }
          | (runner, .ok ()) => some (w.startRestore runner state kept.content)
  | .endRestore restored =>
    match w.pending with
    | some (.restore state content) =>
      match w.runner.cacheCall state false with
      | (runner, .error _) => some { w with runner, pending := none }
      | (runner, .ok sequence) =>
        let content := if restored then content else content ++ w.content state
        some { w.hold state (sequence :: content) with runner, pending := none }
    | _ => none
  | .persist id sent =>
    if w.pending.isSome then none
    else
      match w.snapshots id with
      | none => none
      | some kept =>
        match w.runner.beginPersist kept.producer sent with
        | (runner, .error _) => some { w with runner }
        | (runner, .ok ()) => some { w with runner, files := w.files ++ [kept] }
  | .drop id sent =>
    if w.pending.isSome then none
    else
      some { w with
        runner := w.runner.drop sent
        snapshots := Function.update w.snapshots id none }
  | .invalidate state sent =>
    if w.pending.isSome then none
    else some { w.hold state [] with runner := w.runner.sendInvalidate state sent }

end World

/-- The worlds of runs whose steps all meet `P`. -/
inductive Reached (P : World → Action → Prop) : World → Prop where
  | start : Reached P {}
  | next {w w' : World} {a : Action} :
      Reached P w → P w a → w.step a = some w' → Reached P w'

/-- No lease and no restore builds on a producer that rank 1 has rejected since its
`CanReuse` returned true, unless the request depends on it already. -/
def Timely (w : World) : Action → Prop
  | .setPromptContext state (some sequence) _ =>
    ∀ producer, w.runner.producers state = some producer → w.runner.rejected producer = true →
      producer ∈ w.runner.dependencies sequence
  | .beginRestore state id =>
    ∀ kept sequence, w.snapshots id = some kept → w.runner.leases state = some sequence →
      w.runner.rejected kept.producer = true →
        kept.producer ∈ w.runner.dependencies sequence
  | _ => True

/-- What a request consumed has no rejected contributor when its wait returns true, and
none but itself can get rejected later. -/
structure Contained (w : World) : Prop where
  now : ∀ s, w.begun s = true → w.runner.unsettled s = true →
    w.runner.awaitDependencies s = some true →
      ∀ q ∈ w.consumed s, w.runner.rejected q = false
  later : ∀ s, w.awaited s = some true → ∀ q ∈ w.consumed s, q ≠ s →
    w.runner.rejected q = false

end Gufo.Tp
