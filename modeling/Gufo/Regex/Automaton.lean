import Gufo.Lib.Distance
import Mathlib.Algebra.Order.Ring.Int
import Mathlib.Data.List.Dedup
import Mathlib.Data.List.Sort

/-!
# The regex automaton

`JsonSchemaRegex::Compile` explores the derivatives of an expression. The
expressions themselves are a parameter here: what counts is that each has a
derivative for every character and says whether it is nullable. `none` is `kDead`.

`CanFinish` asks for an accepting continuation whose length lies between two
bounds. It follows the set of states that the automaton can be in, and leaves out
whole periods once that set comes back.
-/

namespace Gufo.Regex
open Gufo.Distance

def kMaxStates : Nat := 4096
def kMaxTransitions : Nat := 262144

/-! ## Sets of characters -/

/-- The ranges of an `icu::UnicodeSet`, with both ends. -/
abbrev CharSet := List (Nat × Nat)

namespace CharSet

def contains (s : CharSet) (cp : Nat) : Bool := s.any fun r => decide (r.1 ≤ cp ∧ cp ≤ r.2)

def containsSome (s : CharSet) (first last : Int) : Bool :=
  s.any fun r => decide (r.1 ≤ last ∧ first ≤ r.2)

/-- `charAt(0)` -/
def least (s : CharSet) : Nat := (s.head?.map Prod.fst).getD 0

end CharSet

/-- `static_cast<UChar32>` -/
def asUChar32 (cp : Nat) : Int := if cp < 2 ^ 31 then cp else (cp : Int) - 2 ^ 32

/-- A Unicode scalar value. -/
def Scalar (cp : Nat) : Prop := cp < 0xd800 ∨ 0xe000 ≤ cp ∧ cp < 0x110000

instance (cp : Nat) : Decidable (Scalar cp) := inferInstanceAs (Decidable (_ ∨ _))

def Word (cp : Nat) : Bool :=
  decide (97 ≤ cp ∧ cp ≤ 122 ∨ 65 ≤ cp ∧ cp ≤ 90 ∨ 48 ≤ cp ∧ cp ≤ 57 ∨ cp = 95)

/-- What `Compile` asks of the expressions it has parsed. -/
structure Expressions (E : Type) where
  root : E
  empty : E
  wordBoundaries : Bool
  classes : List CharSet
  nullable : E → Bool → Bool → Bool
  derive : E → Nat → Bool → Bool → Except String E

/-! ## The alphabet -/

def endpoints (classes : List CharSet) : List Nat :=
  (([0, 0xd800, 0xe000, 0x110000] ++
    classes.flatMap fun s : CharSet =>
      s.flatMap fun r : Nat × Nat => [r.1, r.2 + 1]).insertionSort (· ≤ ·)).dedup

/-- The stretches between two endpoints, without the surrogates. -/
def intervals : List Nat → CharSet
  | first :: next :: rest =>
    if 0xd800 ≤ first ∧ first ≤ 0xdfff then intervals (next :: rest)
    else (first, next - 1) :: intervals (next :: rest)
  | _ => []

def membership (classes : List CharSet) (cp : Nat) : List Bool := classes.map (·.contains cp)

/-- `partitions.emplace(membership, alphabet.size())`, and the range added to its set. -/
def addRange (key : List Bool) (range : Nat × Nat) :
    List (List Bool × CharSet) → List (List Bool × CharSet)
  | [] => [(key, [range])]
  | (k, s) :: rest =>
    if k = key then (k, s ++ [range]) :: rest else (k, s) :: addRange key range rest

def alphabet (classes : List CharSet) : List CharSet :=
  ((intervals (endpoints classes)).foldl
    (fun partitions range => addRange (membership classes range.1) range partitions) []).map
    Prod.snd

/-! ## Exploring the derivatives -/

/-- A state before it has a number: its expression, `at_start` and `previous_word`. -/
abbrev Key (E : Type) := E × Bool × Bool

/-- The states that have a number, which is their place, and their depths. -/
abbrev Table (E : Type) := List (Key E × Nat)

/-- A state that has been worked off: whether it accepts, and its transitions. -/
abbrev Row := Bool × List (Option Nat)

section
variable {E : Type} [DecidableEq E]

def intern (letters : Nat) (key : Key E) (depth : Nat) (t : Table E) :
    Except String (Nat × Table E) :=
  match t.findIdx? (fun entry => entry.1 = key) with
  | some i => .ok (i, t)
  | none =>
    if kMaxStates < t.length + 1 ∨ kMaxTransitions < (t.length + 1) * letters then
      .error "compiled regex exceeds the state budget"
    else .ok (t.length, t ++ [(key, depth)])

def transitions (x : Expressions E) (letters : Nat) (key : Key E) (depth : Nat) :
    List CharSet → Table E → Except String (List (Option Nat) × Table E)
  | [], t => .ok ([], t)
  | chars :: rest, t =>
    match x.derive key.1 chars.least key.2.1 key.2.2 with
    | .error reason => .error reason
    | .ok derivative =>
      if derivative = x.empty then
        match transitions x letters key depth rest t with
        | .error reason => .error reason
        | .ok (row, t) => .ok (none :: row, t)
      else
        match intern letters (derivative, false, x.wordBoundaries && Word chars.least)
            (depth + 1) t with
        | .error reason => .error reason
        | .ok (next, t) =>
          match transitions x letters key depth rest t with
          | .error reason => .error reason
          | .ok (row, t) => .ok (some next :: row, t)

/-- The loop over `pending`, which has no more than `kMaxStates` entries. -/
def explore (x : Expressions E) (letters : List CharSet) (maximum : Nat) :
    Nat → Table E → List Row → Except String (List Row)
  | 0, _, rows => .ok rows
  | fuel + 1, t, rows =>
    match t[rows.length]? with
    | none => .ok rows
    | some (key, depth) =>
      let accepting := x.nullable key.1 key.2.1 key.2.2
      if maximum ≤ depth then
        explore x letters maximum fuel t (rows ++ [(accepting, letters.map fun _ => none)])
      else
        match transitions x letters.length key depth letters t with
        | .error reason => .error reason
        | .ok (row, t) => explore x letters maximum fuel t (rows ++ [(accepting, row)])

end

/-! ## The compiled automaton -/

structure State where
  accepting : Bool
  next : List (Option Nat)
  successors : List Nat
  distance : Option Nat

structure Impl where
  alphabet : List CharSet
  states : List State

def successors (row : Row) : List Nat := (row.2.reduceOption.insertionSort (· ≤ ·)).dedup

def acceptingAt (rows : List Row) (v : Nat) : Bool := (rows[v]?.map Prod.fst).getD false

def successorsAt (rows : List Row) (v : Nat) : List Nat := (rows[v]?.map successors).getD []

def predecessors (rows : List Row) (w : Nat) : List Nat :=
  (List.range rows.length).filter fun v => w ∈ successorsAt rows v

/-- The states from which acceptance is near, by backwards search. -/
def distances (rows : List Row) : Nat → Option Nat :=
  search (predecessors rows) rows.length
    ((List.range rows.length).filter fun v => acceptingAt rows v)
    fun v => if acceptingAt rows v then some 0 else none

/-- The transitions into states that never accept are dropped. -/
def prune (distance : Nat → Option Nat) (next : Option Nat) : Option Nat :=
  next.bind fun v => if distance v = none then none else some v

def finish (letters : List CharSet) (rows : List Row) : Impl where
  alphabet := letters
  states := rows.mapIdx fun v row =>
    { accepting := row.1
      next := row.2.map (prune (distances rows))
      successors := successors row
      distance := distances rows v }

def compile {E : Type} [DecidableEq E] (x : Expressions E) (maximum : Nat) : Except String Impl :=
  let letters := alphabet x.classes
  match intern letters.length (x.root, true, false) 0 [] with
  | .error reason => .error reason
  | .ok (_, t) =>
    match explore x letters maximum kMaxStates t [] with
    | .error reason => .error reason
    | .ok rows => .ok (finish letters rows)

/-! ## Walking it -/

namespace Impl

def Accepting (r : Impl) (state : Option Nat) : Bool :=
  state.any fun s => (r.states[s]?.map State.accepting).getD false

def maximumSuffix (r : Impl) : Nat :=
  (r.states.filterMap State.distance).foldl max 0

/-- The set of the alphabet that holds the character, the first one. -/
def Advance (r : Impl) (state : Option Nat) (cp : Nat) : Option Nat :=
  state.bind fun s => (r.states[s]?).bind fun row =>
    ((r.alphabet.zip row.next).find? fun letter => letter.1.contains cp).bind Prod.snd

def distanceAt (r : Impl) (s : Nat) : Option Nat := (r.states[s]?).bind State.distance

/-- The states that the active ones lead to and that can still accept. -/
def reachable (r : Impl) (active : List Nat) : List Nat :=
  (List.range r.states.length).filter fun next =>
    active.any fun current =>
      decide (next ∈ (r.states[current]?.map State.successors).getD []) &&
        (r.distanceAt next).isSome

/-- The loop of `CanFinish`. It steps at least once a turn, so `minimum` turns are enough. -/
def follow (r : Impl) (minimum : Nat) :
    Nat → List Nat → List Nat → Nat → Nat → Nat → Bool → Option (List Nat)
  | 0, active, _, _, _, _, _ => some active
  | fuel + 1, active, anchor, steps, block, period, cycle =>
    if steps < minimum then
      let active := r.reachable active
      if active.isEmpty then none
      else
        let steps := steps + 1
        if cycle then r.follow minimum fuel active anchor steps block period cycle
        else
          let period := period + 1
          if active = anchor then
            r.follow minimum fuel active anchor (steps + (minimum - steps) / period * period)
              block period true
          else if period = block then
            r.follow minimum fuel active active steps (block * 2 % 2 ^ 32) 0 false
          else r.follow minimum fuel active anchor steps block period false
    else some active

def CanFinish (r : Impl) (state : Option Nat) (minimum maximum : Nat) : Bool :=
  match state with
  | none => false
  | some s =>
    if maximum < minimum then false
    else
      match r.distanceAt s with
      | none => false
      | some distance =>
        if maximum < distance then false
        else if minimum ≤ distance then true
        else
          match r.follow minimum minimum [s] [s] 0 1 0 false with
          | none => false
          | some active => active.any fun current =>
            (r.distanceAt current).any fun d => decide (d ≤ maximum - minimum)

def CanAdvance (r : Impl) (state : Option Nat) (first last minimum maximum : Nat) : Bool :=
  match state with
  | none => false
  | some s =>
    if last < first then false
    else
      match r.states[s]? with
      | none => false
      | some row => (r.alphabet.zip row.next).any fun letter =>
          letter.2.isSome && letter.1.containsSome (asUChar32 first) (asUChar32 last) &&
            r.CanFinish letter.2 minimum maximum

end Impl

end Gufo.Regex
