import Gufo.Component.State

/-!
# Acquire and the leases it returns

Outside the lock, `Acquire` prepares the entry that it took: it tries the candidates in
turn, starts cold where none is left, and gives up on an exception. Which of its calls
throw is an argument.
-/

namespace Gufo.Component
variable {τ : Type} {count : Nat}

/-- How the loads of a candidate end. -/
inductive Load (τ : Type) where
  | loaded
  /-- the restore was refused before it touched the slot -/
  | refused
  | failed (left : List τ)

/-- The calls of one candidate: `false`, or `none`, where one throws or fails. -/
structure Outcome (τ : Type) where
  load : Load τ := .loaded
  /-- the history, and what is logged before it -/
  adopt : Bool := true
  touch : Bool := true
  /-- `HasDecodeFrontier` -/
  frontier : Option Bool := some true
  reset : Bool := true
  /-- the reset in the handler -/
  recover : Bool := true

/-- The calls around the candidates. -/
structure Service (τ : Type) where
  slot : Answer := .acquired
  bind : Bool := true
  prepare : Bool := true
  frontier : Option Bool := some true
  cancelled : Nat → Bool := fun _ => false
  outcome : Nat → Outcome τ := fun _ => {}
  reset : Bool := true
  history : Bool := true
  finish : Bool := true
  /-- the cancellation check is taken off in `Lease::Invalidate` -/
  detach : Bool := true

/-- What `Acquire` keeps for the entry while it prepares it. -/
structure Progress (τ : Type) where
  slot : Slot τ
  history : Option History
  branch : Option Nat
  durable : Option Nat
  restored : Bool := false
  clean : Bool := false
  cached : Nat := 0
  source : Option Nat := none
  diskHit : Bool := false

/-! ## Candidates

`true` where the block ends, `false` where it throws. -/

def loadCheckpoint (o : Outcome τ) (k : Checkpoint τ) (p : Progress τ) : Progress τ × Bool :=
  let p := { p with clean := false }
  match o.load with
  | .refused => (p, false)
  | .failed left => ({ p with slot := p.slot.disturb left }, false)
  | .loaded =>
    let p := { p with slot := p.slot.load (.checkpoint k.id) k.tokens }
    if o.adopt = false then (p, false)
    else
      let p := { p with
        history := some { origin := .restored k.id, execution := p.slot.execution }
        source := some k.id }
      if o.touch = false then (p, false) else ({ p with restored := true }, true)

/-- `StreamedStore::Restore` resets the slot and returns false where a load fails; it throws
only where that reset does. -/
def loadDurable (o : Outcome τ) (m : Manifest τ) (p : Progress τ) : Progress τ × Bool :=
  let p := { p with clean := false }
  match o.load with
  | .refused => ({ p with slot := p.slot.reset }, true)
  | .failed left => ({ p with slot := p.slot.disturb left }, false)
  | .loaded =>
    let p := { p with
      slot := p.slot.load (.manifest m.checkpoint) m.tokens
      restored := true
      diskHit := true }
    if o.adopt = false then (p, false)
    else
      let p := { p with
        history := some { origin := .restoredUnshared, execution := p.slot.execution } }
      (p, o.touch)

def loadCandidate (o : Outcome τ) (c : Candidate τ count) (p : Progress τ) : Progress τ × Bool :=
  match c.checkpoint with
  | some k => loadCheckpoint o k p
  | none =>
    match c.durable with
    | some m => loadDurable o m p
    | none => (p, true)

/-- A restored frontier that cannot select the next token of its prompt is given up. -/
def settle (length : Nat) (o : Outcome τ) (c : Candidate τ count) (p : Progress τ) :
    Progress τ × Bool :=
  let adopted := { p with
    cached := c.boundary
    durable := c.durable.map Manifest.checkpoint }
  if p.restored = false then (p, true)
  else if c.boundary < length then (adopted, true)
  else match o.frontier with
    | none => (p, false)
    | some true => (adopted, true)
    | some false =>
      if o.reset then
        ({ p with
          slot := p.slot.reset
          history := none
          source := none
          diskHit := false
          restored := false }, true)
      else (p, false)

def tryCandidate (length : Nat) (o : Outcome τ) (c : Candidate τ count) (p : Progress τ) :
    Progress τ × Bool :=
  match loadCandidate o c p with
  | (p, true) => settle length o c p
  | (p, false) => (p, false)

/-- The handler around a candidate: an error is rethrown only where the reset fails. -/
def attempt (length : Nat) (o : Outcome τ) (c : Candidate τ count) (p : Progress τ) :
    Except (Progress τ) (Progress τ) :=
  match tryCandidate length o c p with
  | (p, true) => .ok p
  | (p, false) => if o.recover then .ok { p with slot := p.slot.reset, clean := true } else .error p

def attempts (length : Nat) (service : Service τ) :
    Nat → List (Candidate τ count) → Progress τ → Except (Progress τ) (Progress τ)
  | _, [], p => .ok p
  | k, c :: rest, p =>
    if p.restored ∨ service.cancelled k then .ok p
    else if c.live.isSome then attempts length service (k + 1) rest p
    else do
      let p ← attempt length (service.outcome k) c p
      attempts length service (k + 1) rest p

/-- Without any frontier, the request starts cold. -/
def coldStart (service : Service τ) (p : Progress τ) : Except (Progress τ) (Progress τ) :=
  if p.restored then .ok p
  else if p.clean = false ∧ service.reset = false then .error p
  else
    let p := if p.clean then p else { p with slot := p.slot.reset }
    if service.history then
      .ok { p with history := some { origin := .cold, execution := p.slot.execution } }
    else .error p

/-- The live frontier that the slot was acquired with, unless it cannot be decoded. -/
def liveStart (length used : Nat) (service : Service τ) (live : Option Nat) (p : Progress τ) :
    Except (Progress τ) (Progress τ) :=
  match live with
  | none => .ok { p with clean := true }
  | some boundary =>
    if boundary < length then .ok { p with restored := true, cached := boundary }
    else match service.frontier with
      | none => .error p
      | some true => .ok { p with restored := true, cached := boundary }
      | some false => .ok { p with branch := some used, durable := none }

/-- The `try` block behind the construction of the lease. -/
def prepare (service : Service τ) (used : Nat) (prompt : List τ) (live : Option Nat)
    (candidates : List (Candidate τ count)) (p : Progress τ) :
    Except (Progress τ) (Progress τ) :=
  if service.prepare = false then .error p
  else do
    let p ← liveStart prompt.length used service live p
    let p ← attempts prompt.length service 0 candidates p
    let p ← coldStart service p
    if service.finish then .ok p else .error p

/-! ## Leases -/

namespace Cache

def setLease (s : Cache τ count) (k : Nat) (l : Lease τ count) : Cache τ count :=
  { s with leases := s.leases.set k l }

/-- `Lease::Invalidate`, and the slot lease that ends with it. Where taking off the
cancellation check throws, the entry stays busy. -/
def invalidate (s : Cache τ count) (k : Nat) (l : Lease τ count) (detach : Bool) :
    Cache τ count :=
  let e := s.entries l.entry
  let e := if l.holdsSlot then { e with slot := e.slot.release } else e
  let e := if detach then
      { e with history := none, branch := none, durable := none, busy := false }
    else e
  (s.setEntry l.entry e).setLease k { l with phase := .ended, holdsSlot := false }

/-- The boundary of the live frontier that the lease was claimed with. -/
def liveBoundary (l : Lease τ count) : Option Nat :=
  match l.live with
  | none => none
  | some _ => l.found.selected.map Candidate.boundary

def withProgress (s : Cache τ count) (k : Nat) (l : Lease τ count) (p : Progress τ)
    (phase : Phase) : Cache τ count :=
  (s.setEntry l.entry { s.entries l.entry with
    slot := p.slot
    history := p.history
    branch := p.branch
    durable := p.durable }).setLease k { l with
      phase
      holdsSlot := true
      cached := p.cached
      source := p.source
      diskHit := p.diskHit }

/-- The rest of `Acquire`, from the slot on. -/
def openLease (s : Cache τ count) (k : Nat) (l : Lease τ count) (service : Service τ) :
    Cache τ count :=
  let e := s.entries l.entry
  let ended := { l with phase := .ended }
  match e.slot.acquire (l.live.map Location.generation) service.slot with
  | (slot, false) => (s.setEntry l.entry { e with slot, busy := false }).setLease k ended
  | (slot, true) =>
    if service.bind = false then
      (s.setEntry l.entry { e with slot := slot.release, busy := false }).setLease k ended
    else
      match prepare service e.used l.prompt (liveBoundary l) l.found.candidates
          { slot, history := e.history, branch := e.branch, durable := e.durable } with
      | .ok p => s.withProgress k l p .active
      | .error p =>
        let s := s.withProgress k l p .opening
        match s.leases[k]? with
        | some l => s.invalidate k l service.detach
        | none => s

/-- The request executes: tokens are appended, and an error leaves the slot invalid. -/
def run (s : Cache τ count) (l : Lease τ count) (tokens : List τ) (valid : Bool) : Cache τ count :=
  let e := s.entries l.entry
  s.setEntry l.entry { e with slot := { e.slot with tokens := e.slot.tokens ++ tokens, valid } }

/-- `Lease::Commit` of the frontier that the slot holds, or of none. It throws where the
positions cannot be read, the slot is not valid, or the index takes no entry. -/
def commit (s : Cache τ count) (k : Nat) (l : Lease τ count) (keep positions insert detach : Bool) :
    Cache τ count :=
  let e := s.entries l.entry
  if keep = false ∨ e.slot.tokens = [] then s.invalidate k l detach
  else if positions = false ∨ l.holdsSlot = false then s
  else match e.slot.commit with
    | none => s
    | some slot =>
      let e' := { e with slot, liveTokens := e.slot.tokens }
      if insert = false then (s.setEntry l.entry e').setLease k { l with holdsSlot := false }
      else
        let location := { slot := l.entry, generation := e.slot.generation }
        { (s.setEntry l.entry { e' with live := some s.nextEntry, busy := false }).setLease k
            { l with phase := .ended, holdsSlot := false } with
          index := s.index ++ [(s.nextEntry, { location, tokens := e.slot.tokens })]
          nextEntry := s.nextEntry + 1 }

end Cache

/-! ## Steps -/

/-- One critical section, or what happens to a lease between two. -/
inductive Action (τ : Type) (count : Nat) where
  | claim (query : Query τ) (availability : Availability) (standing : Fin count → Cache.Standing)
  /-- captures, the catalog and retention publish and remove checkpoints -/
  | store (stored : List (Stored τ))
  | open_ (lease : Nat) (service : Service τ)
  | run (lease : Nat) (tokens : List τ) (valid : Bool)
  | commit (lease : Nat) (keep positions insert detach : Bool)
  | invalidate (lease : Nat) (detach : Bool)

namespace Cache

/-- The lease with the given number, in the given phase. -/
def lease? (s : Cache τ count) (k : Nat) (phase : Phase) : Option (Lease τ count) :=
  match s.leases[k]? with
  | some l => if l.phase = phase then some l else none
  | none => none

def step [DecidableEq τ] (s : Cache τ count) : Action τ count → Option (Cache τ count)
  | .claim query availability standing => s.claim query availability standing
  | .store stored => some { s with stored }
  | .open_ k service => (s.lease? k .opening).map fun l => s.openLease k l service
  | .run k tokens valid => (s.lease? k .active).bind fun l =>
      if l.holdsSlot then some (s.run l tokens valid) else none
  | .commit k keep positions insert detach =>
    (s.lease? k .active).map fun l => s.commit k l keep positions insert detach
  | .invalidate k detach => (s.lease? k .active).map fun l => s.invalidate k l detach

end Cache

end Gufo.Component
