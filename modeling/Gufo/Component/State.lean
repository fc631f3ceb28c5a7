import Mathlib.Data.List.Sort

/-!
# The component text cache

`ComponentTextCache`: execution slots that are leased one at a time, the prefix index
that lists their live frontiers, and the loads that a lease can start from.
-/

namespace Gufo.Component

/-- What an execution history was made as. -/
inductive Origin where
  | cold
  | restored (checkpoint : Nat)
  | restoredUnshared
  deriving DecidableEq

/-- `execution` numbers the native execution that the history was made for. -/
structure History where
  origin : Origin
  execution : Nat
  deriving DecidableEq

/-! ## Slots -/

/-- What an execution began from. -/
inductive Contents where
  | empty
  | checkpoint (id : Nat)
  | manifest (checkpoint : Nat)
  | torn
  deriving DecidableEq

/-- `LeasedSlot` with the storage behind it. A reset and a restore each begin another
execution. -/
structure Slot (τ : Type) where
  tokens : List τ := []
  valid : Bool := true
  execution : Nat := 0
  contents : Contents := .empty
  generation : Nat := 1
  leased : Bool := false
  live : Bool := false
  deriving DecidableEq

/-- How `LeasedSlot::Acquire` ends when the frontier matches. -/
inductive Answer where
  | acquired
  /-- preservation or a reader wait threw; the slot is untouched -/
  | refused
  /-- the slot was invalidated, and could not be created anew -/
  | lost
  deriving DecidableEq

namespace Slot
variable {τ : Type}

/-- `Adapter::Invalidate` that succeeded. -/
def reset (s : Slot τ) : Slot τ :=
  { s with
    tokens := []
    valid := true
    execution := s.execution + 1
    contents := .empty
    generation := s.generation + 1 }

/-- All loads and their validation succeeded. -/
def load (contents : Contents) (tokens : List τ) (s : Slot τ) : Slot τ :=
  { s with tokens, valid := true, execution := s.execution + 1, contents }

/-- A restore that failed half way. -/
def disturb (left : List τ) (s : Slot τ) : Slot τ :=
  { s with tokens := left, valid := false, execution := s.execution + 1, contents := .torn }

/-- `LeaseState::Invalidate`: storage that cannot be reset is destroyed, to be created anew. -/
def invalidate (s : Slot τ) : Slot τ := { s.reset with live := false }

/-- `false` where it throws. A live frontier needs no storage made anew. -/
def acquire (live : Option Nat) (answer : Answer) (s : Slot τ) : Slot τ × Bool :=
  if s.leased then (s, false)
  else match live with
    | some generation =>
      if s.live ∧ generation = s.generation ∧ answer ≠ .refused then
        ({ s with leased := true }, true)
      else (s, false)
    | none =>
      match answer with
      | .acquired => ({ s.invalidate with leased := true }, true)
      | .refused => (s, false)
      | .lost => (s.invalidate, false)

/-- The end of a slot lease that was not committed. -/
def release (s : Slot τ) : Slot τ := { s.invalidate with leased := false }

def commit (s : Slot τ) : Option (Slot τ) :=
  if s.valid then some { s with live := true, leased := false } else none

end Slot

/-! ## Lookups -/

structure Checkpoint (τ : Type) where
  id : Nat
  tokens : List τ

structure Manifest (τ : Type) where
  checkpoint : Nat
  tokens : List τ

structure Location (count : Nat) where
  slot : Fin count
  generation : Nat
  deriving DecidableEq

/-- `PrefixCandidate`: a live frontier, or a checkpoint in RAM, on disk or both. -/
structure Candidate (τ : Type) (count : Nat) where
  entry : Nat := 0
  boundary : Nat
  live : Option (Location count) := none
  checkpoint : Option (Checkpoint τ) := none
  durable : Option (Manifest τ) := none

structure PrefixLookup (τ : Type) (count : Nat) where
  selected : Option (Candidate τ count) := none
  candidates : List (Candidate τ count) := []

structure LiveFrontier (τ : Type) (count : Nat) where
  location : Location count
  tokens : List τ

/-- A checkpoint that the index lists. One in RAM and on disk has one list of tokens. -/
structure Stored (τ : Type) where
  entry : Nat
  tokens : List τ
  stable : Nat := 0
  checkpoint : Option (Checkpoint τ) := none
  durable : Option (Manifest τ) := none
  coherent : ∀ k ∈ checkpoint, k.tokens = tokens := by simp
  described : ∀ m ∈ durable, m.tokens = tokens := by simp

/-- The parts of a checkpoint that a load would read. -/
structure Parts where
  ram : Bool := false
  disk : Bool := false

/-- What of the index can be used, by entry: not a record of other inputs, nor one with a
component that is missing. -/
structure Availability where
  live : Nat → Bool := fun _ => true
  parts : Nat → Option Parts := fun _ => none

structure Query (τ : Type) where
  tokens : List τ
  stable : Nat := 0
  reuse : Bool := true

namespace Candidate
variable {τ : Type} {count : Nat}

/-- Deepest first, then live, resident, mixed and durable. -/
def key (length : Nat) (c : Candidate τ count) : List Nat :=
  let kind := if c.live.isSome then 0
    else if c.durable.isSome then (if c.checkpoint.isSome then 2 else 3)
    else 1
  let place := match c.live, c.checkpoint, c.durable with
    | some location, _, _ => location.slot.val + 1
    | none, some k, _ => k.id
    | none, none, some m => m.checkpoint
    | none, none, none => 0
  [length - c.boundary, kind, place, (c.live.map Location.generation).getD 0, c.entry]

end Candidate

/-! ## The cache -/

structure Entry (τ : Type) where
  slot : Slot τ := {}
  live : Option Nat := none
  history : Option History := none
  branch : Option Nat := none
  durable : Option Nat := none
  liveTokens : List τ := []
  used : Nat := 0
  busy : Bool := false
  deriving DecidableEq

inductive Phase where
  /-- `Acquire` has taken the entry and still prepares it -/
  | opening
  | active
  | ended
  deriving DecidableEq

structure Lease (τ : Type) (count : Nat) where
  entry : Fin count
  prompt : List τ
  found : PrefixLookup τ count
  live : Option (Location count)
  phase : Phase := .opening
  holdsSlot : Bool := false
  cached : Nat := 0
  source : Option Nat := none
  diskHit : Bool := false

structure Cache (τ : Type) (count : Nat) where
  entries : Fin count → Entry τ := fun _ => {}
  /-- the live frontiers of the index, by entry -/
  index : List (Nat × LiveFrontier τ count) := []
  stored : List (Stored τ) := []
  nextEntry : Nat := 0
  clock : Nat := 0
  leases : List (Lease τ count) := []

variable {τ : Type} {count : Nat}

namespace Cache

/-! ## Lookup -/

section
variable [DecidableEq τ]

def liveCandidate (availability : Availability) (q : Query τ) (r : Nat × LiveFrontier τ count) :
    Option (Candidate τ count) :=
  if r.2.tokens.isPrefixOf q.tokens && availability.live r.1 then
    some { entry := r.1, boundary := r.2.tokens.length, live := some r.2.location }
  else none

def storedCandidate (availability : Availability) (q : Query τ) (r : Stored τ) :
    Option (Candidate τ count) :=
  if r.tokens.isPrefixOf q.tokens then
    (availability.parts r.entry).map fun parts =>
      { entry := r.entry
        boundary := r.tokens.length
        checkpoint := if parts.ram then r.checkpoint else none
        durable := if parts.disk then r.durable else none }
  else none

/-- The record lets a candidate beyond the stable prefix be used. -/
def allows (availability : Availability) (q : Query τ) (r : Stored τ) : Bool :=
  r.tokens.isPrefixOf q.tokens && (availability.parts r.entry).isSome &&
    (decide (r.tokens.length ≤ q.stable) || (r.stable ≠ 0 && decide (r.stable ≤ q.stable)))

/-- `PrefixIndex::Lookup`, where it does not throw. -/
def lookup (s : Cache τ count) (availability : Availability) (q : Query τ) :
    PrefixLookup τ count :=
  if q.reuse = false then {}
  else
    let fallback := q.stable = 0 || s.stored.any (allows availability q)
    let candidates := s.index.filterMap (liveCandidate availability q) ++
      s.stored.filterMap (storedCandidate availability q)
    let candidates := candidates.filter fun c => fallback || decide (c.boundary ≤ q.stable)
    let candidates := candidates.insertionSort fun a b =>
      ¬b.key q.tokens.length < a.key q.tokens.length
    { selected := candidates.head?, candidates }

end

/-! ## Choosing a slot -/

/-- What `Acquire` asks of the index and of a slot, to choose one. -/
structure Standing where
  uncovered : Bool := false
  preserved : Bool := true
  ready : Bool := true
  /-- an exact checkpoint or another idle live copy covers its tokens -/
  covered : Bool := true

def uncoveredTokens : Nat := 4096

/-- The entry's `Rank`; lists of numbers compare as tuples. -/
def rank (s : Cache τ count) (standing : Fin count → Standing) (i : Fin count) : List Nat :=
  [(standing i).uncovered.toNat, (!(standing i).preserved).toNat, (s.entries i).live.isSome.toNat,
    (decide (uncoveredTokens ≤ (s.entries i).liveTokens.length)).toNat, (s.entries i).used]

def better (s : Cache τ count) (standing : Fin count → Standing) (eligible : Fin count → Bool)
    (best : Option (Fin count)) (i : Fin count) : Option (Fin count) :=
  if eligible i = false then best
  else match best with
    | none => some i
    | some b => if s.rank standing i < s.rank standing b then some i else best

/-- The first entry of the least rank that `eligible` allows. -/
def least (s : Cache τ count) (standing : Fin count → Standing) (eligible : Fin count → Bool) :
    Option (Fin count) :=
  (List.finRange count).foldl (s.better standing eligible) none

/-- A ready entry must not cost uncovered work or foreground preservation. -/
def spares (s : Cache τ count) (standing : Fin count → Standing) (chosen i : Fin count) : Bool :=
  i ≠ chosen && !(s.entries i).busy && (standing i).ready &&
    !decide ((s.rank standing chosen).take 2 < (s.rank standing i).take 2) &&
    !((s.entries i).live.isSome && decide (uncoveredTokens ≤ (s.entries i).liveTokens.length) &&
      !(standing i).covered)

def choose (s : Cache τ count) (standing : Fin count → Standing) : Option (Fin count) :=
  match s.least standing fun i => !(s.entries i).busy with
  | none => none
  | some chosen =>
    if (standing chosen).ready then some chosen
    else (s.least standing (s.spares standing chosen)).or (some chosen)

/-! ## Acquire, under the lock -/

def setEntry (s : Cache τ count) (i : Fin count) (e : Entry τ) : Cache τ count :=
  { s with entries := Function.update s.entries i e }

/-- The selected live frontier, if its entry is free. -/
def selectLive (s : Cache τ count) (found : PrefixLookup τ count) : Option (Location count) :=
  match found.selected with
  | none => none
  | some c =>
    match c.live with
    | none => none
    | some location => if (s.entries location.slot).busy then none else some location

/-- `none` where it throws: the boundaries are invalid, or every slot is busy. -/
def claim [DecidableEq τ] (s : Cache τ count) (q : Query τ) (availability : Availability)
    (standing : Fin count → Standing) : Option (Cache τ count) :=
  if q.tokens.length < q.stable then none
  else
    let found := s.lookup availability q
    let live := s.selectLive found
    match (live.map Location.slot).or (s.choose standing) with
    | none => none
    | some i =>
      let used := s.clock + 1
      let e := { s.entries i with busy := true, used }
      let e := if live.isSome then e else { e with branch := some used, durable := none }
      let index := match e.live with
        | some id => s.index.filter fun r => r.1 ≠ id
        | none => s.index
      let e := if e.live.isSome then { e with live := none, liveTokens := [] } else e
      some { s.setEntry i e with
        index
        clock := used
        leases := s.leases ++ [{ entry := i, prompt := q.tokens, found, live }] }

end Cache

end Gufo.Component
