import Gufo.Streaming.Reading
import Mathlib.Algebra.Order.Group.Nat

/-!
# What reaches the slot

The transfers of one component, in the order in which they were issued: their ranges follow
one another without a gap, and their bytes, put together, are the bytes read so far. A
transfer has settled before staging is written again.
-/

namespace Gufo.Streaming
open Gufo.Disk Gufo.Program

/-! ## Ranges and traces -/

/-- Ranges from a start to an end, each behind the one before and none empty. -/
def Tiles : Nat → Nat → List (Nat × Nat) → Prop
  | start, stop, [] => start = stop
  | start, stop, (first, finish) :: rest => first = start ∧ first < finish ∧ Tiles finish stop rest

theorem Tiles.snoc {start first finish : Nat} {l : List (Nat × Nat)} (tiles : Tiles start first l)
    (more : first < finish) : Tiles start finish (l ++ [(first, finish)]) := by
  induction l generalizing start with
  | nil =>
    obtain rfl : start = first := tiles
    exact ⟨rfl, more, rfl⟩
  | cons range rest ih => exact ⟨tiles.1, tiles.2.1, ih tiles.2.2⟩

/-- A transfer into the slot: rows, or bytes of a private state. -/
structure Copy where
  first : Nat
  finish : Nat
  bytes : List UInt8
  deriving DecidableEq

/-- The transfer of a component that an event is. -/
def Event.copy? (privateState : Bool) (id : UInt32) : Event → Option Copy
  | .copyRowsIn component first finish bytes =>
    if privateState = false ∧ component = id then some ⟨first, finish, bytes⟩ else none
  | .loadPrivatePiece component offset bytes =>
    if privateState = true ∧ component = id then some ⟨offset, offset + bytes.length, bytes⟩
    else none
  | _ => none

/-- The transfers of a component. -/
def moved (privateState : Bool) (id : UInt32) (events : List Event) : List Copy :=
  events.filterMap (Event.copy? privateState id)

def Event.isTransfer : Event → Bool
  | .copyRowsIn .. => true
  | .loadPrivatePiece .. => true
  | _ => false

/-- Each transfer has settled before anything else happens. -/
inductive Settled : List Event → Prop
  | nil : Settled []
  | other {event : Event} {rest : List Event} (plain : event.isTransfer = false)
      (settled : Settled rest) : Settled (event :: rest)
  | transfer {event : Event} {rest : List Event} (settled : Settled rest) :
      Settled (event :: .settled :: rest)

theorem Settled.append {l m : List Event} (left : Settled l) (right : Settled m) :
    Settled (l ++ m) := by
  induction left with
  | nil => exact right
  | other plain _ ih => exact .other plain ih
  | transfer _ ih => exact .transfer ih

section moved
variable {privateState : Bool} {id : UInt32} {event : Event} {l m : List Event}

@[simp] theorem moved_append : moved privateState id (l ++ m) =
    moved privateState id l ++ moved privateState id m := List.filterMap_append

theorem moved_fill {start length : Nat} : moved privateState id [.fill start length] = [] := rfl

theorem moved_transfer : moved privateState id [event, .settled] =
    (event.copy? privateState id).toList := by
  cases copied : event.copy? privateState id with
  | none => rw [moved, List.filterMap_cons_none copied]; rfl
  | some c => rw [moved, List.filterMap_cons_some copied]; rfl

/-- Only components of the list have transfers. -/
def Own (ids : List UInt32) (events : List Event) : Prop :=
  ∀ privateState, ∀ id ∉ ids, moved privateState id events = []

theorem Own.append {ids : List UInt32} (left : Own ids l) (right : Own ids m) :
    Own ids (l ++ m) := fun privateState id other => by
  rw [moved_append, left _ _ other, right _ _ other, List.append_nil]

end moved

/-! ## The transfers of one component -/

/-- The transfers of a component: ranges from 0 to `stop` with `unit` bytes for each step, and
these bytes together. -/
structure Delivers (privateState : Bool) (id : UInt32) (unit stop : Nat) (bytes : List UInt8)
    (events : List Event) : Prop where
  tiles : Tiles 0 stop ((moved privateState id events).map fun c => (c.first, c.finish))
  sized : ∀ c ∈ moved privateState id events, c.bytes.length = (c.finish - c.first) * unit
  gathered : (moved privateState id events).flatMap (·.bytes) = bytes

/-- The trace of one component so far. -/
structure Moves (privateState : Bool) (id : UInt32) (unit stop : Nat) (bytes : List UInt8)
    (events : List Event) : Prop extends Delivers privateState id unit stop bytes events where
  settled : Settled events
  own : Own [id] events

section moves
variable {privateState : Bool} {id : UInt32} {unit stop finish start length : Nat}
  {bytes more : List UInt8} {events : List Event} {event : Event}

theorem Moves.nil : Moves privateState id unit 0 [] [] :=
  ⟨⟨rfl, by simp [moved], rfl⟩, .nil, fun _ _ _ => rfl⟩

theorem Moves.fill (moves : Moves privateState id unit stop bytes events) :
    Moves privateState id unit stop bytes (events ++ [.fill start length]) := by
  have same : moved privateState id (events ++ [.fill start length]) =
      moved privateState id events := by rw [moved_append, moved_fill, List.append_nil]
  exact ⟨⟨by rw [same]; exact moves.tiles, by rw [same]; exact moves.sized,
    by rw [same]; exact moves.gathered⟩, moves.settled.append (.other rfl .nil),
    moves.own.append fun _ _ _ => moved_fill⟩

/-- The next transfer, with nobody else's. -/
theorem Moves.transfer (moves : Moves privateState id unit stop bytes events)
    (here : event.copy? privateState id = some ⟨stop, finish, more⟩)
    (others : ∀ k, ∀ id' ∉ [id], event.copy? k id' = none) (nonempty : stop < finish)
    (length : more.length = (finish - stop) * unit) :
    Moves privateState id unit finish (bytes ++ more) (events ++ [event, .settled]) := by
  have next : moved privateState id (events ++ [event, .settled]) =
      moved privateState id events ++ [⟨stop, finish, more⟩] := by
    rw [moved_append, moved_transfer, here]
    rfl
  refine ⟨⟨?_, ?_, ?_⟩, moves.settled.append (.transfer .nil),
    moves.own.append fun k id' other => ?_⟩
  · rw [next, List.map_append]
    exact moves.tiles.snoc nonempty
  · rw [next]
    intro c mem
    rcases List.mem_append.mp mem with mem | mem
    · exact moves.sized c mem
    · rw [List.mem_singleton.mp mem]
      exact length
  · rw [next, List.flatMap_append, moves.gathered]
    simp
  · rw [moved_transfer, others k id' other]
    rfl

end moves

/-! ## Pieces that are consumed at once -/

section stream
variable {folding : Bool} {services : Services} {manifest : DiskManifest}
  {d : ComponentDescriptor} {privateFile privateState : Bool} {payload : DiskPayload}
  {base : List Event} {s t : Run} {u : Unit} {bytes : List UInt8} {size unit first : Nat}

theorem length_overwrite {buffer more : List UInt8} {start : Nat}
    (room : start + more.length ≤ buffer.length) :
    (overwrite buffer start more).length = buffer.length := by
  simp only [overwrite, List.length_append, List.length_take, List.length_drop]
  omega

theorem take_overwrite {buffer more : List UInt8} {start : Nat} (room : start ≤ buffer.length) :
    (overwrite buffer start more).take (start + more.length) = buffer.take start ++ more := by
  rw [overwrite, List.take_left']
  simp only [List.length_append, List.length_take]
  omega

theorem consumePiece_ok {offset : Nat} {more : List UInt8}
    (run : consumePiece services d privateState first offset more s = .ok u t) :
    t.events = s.events ++
      [if privateState then .loadPrivatePiece d.id offset more
        else .copyRowsIn d.id (first + offset / d.rowBytes.toNat)
          (first + (offset + more.length) / d.rowBytes.toNat) more, .settled] ∧
      t.staging = s.staging := by
  obtain ⟨_, s₁, before, run₁⟩ := bind_ok.mp run
  obtain ⟨_, s₂, transferred, after⟩ := bind_ok.mp run₁
  have same := checkStop_ok before
  have same' := checkStop_ok after
  obtain ⟨events, staging⟩ := transfer_ok transferred
  exact ⟨by rw [same'.events, events, same.events], by rw [same'.staging, staging, same.staging]⟩

/-- How far a component is after a payload of which nothing is collected. -/
theorem stream_ok (unit_pos : 0 < unit) (aligned : unit ∣ size)
    (whole : unit ∣ payload.bytes.toNat) (room : size ≤ s.staging.length)
    (kind : (privateState = true ∧ unit = 1 ∧ first = 0) ∨
      (privateState = false ∧ unit = d.rowBytes.toNat))
    (start : ∃ new, s.events = base ++ new ∧ Moves privateState d.id unit first bytes new)
    (run : readPayload folding services manifest privateFile payload 0 size
      (consumePiece services d privateState first) s = .ok u t) :
    (∃ new, t.events = base ++ new ∧
      Moves privateState d.id unit (first + payload.bytes.toNat / unit)
        (bytes ++ services.bytesOf privateFile payload) new) ∧
      t.staging.length = s.staging.length ∧
      (services.bytesOf privateFile payload).length = payload.bytes.toNat := by
  let content := (services.file privateFile payload.file).content
  let I : Nat → Run → Prop := fun offset s' => s'.staging.length = s.staging.length ∧
    unit ∣ offset ∧ ∃ new, s'.events = base ++ new ∧
      Moves privateState d.id unit (first + offset / unit) (bytes ++ content.take offset) new
  have consumes : Consumes payload 0 size (consumePiece services d privateState first) content
      I := by
    intro offset s' t' more inside ⟨length, before, new, events, moves⟩ eq long more_pos consumed
    obtain ⟨events', staging'⟩ := consumePiece_ok consumed
    have step : unit ∣ more.length := by
      rw [long]
      rcases Nat.le_total size (payload.bytes.toNat - offset) with le | le
      · rwa [Nat.min_eq_left le]
      · rw [Nat.min_eq_right le]
        exact Nat.dvd_sub whole before
    obtain ⟨n, rows⟩ := step
    have rows_pos : 0 < n := Nat.pos_of_ne_zero fun zero => by simp [rows, zero] at more_pos
    have finish : first + (offset + more.length) / unit = first + offset / unit + n := by
      rw [rows, Nat.add_mul_div_left _ _ unit_pos, Nat.add_assoc]
    refine ⟨?_, (Nat.dvd_add_right before).mpr ⟨n, rows⟩, ?_⟩
    · rw [staging', length_overwrite (by omega), length]
    · refine ⟨_, by rw [events', events, List.append_assoc, List.append_assoc], ?_⟩
      rw [List.take_add, ← List.append_assoc, finish, ← List.append_assoc]
      have taken : (content.drop offset).take more.length = more := by
        rw [long]
        exact eq.symm
      rw [taken]
      refine (moves.fill).transfer ?_ ?_ (by omega) ?_
      · rcases kind with ⟨rfl, rfl, rfl⟩ | ⟨rfl, rfl⟩
        · simp [Event.copy?, rows]
        · simp [Event.copy?, finish]
      · intro k id' other
        have other' : d.id ≠ id' := fun same => other (List.mem_singleton.mpr same.symm)
        split <;> simp [Event.copy?, other']
      · rw [rows, Nat.add_sub_cancel_left, Nat.mul_comm]
  obtain ⟨⟨length, _, new, events, moves⟩, long⟩ := readPayload_ok (I := I) consumes
    ⟨rfl, Nat.dvd_zero .., by simpa using start⟩ run
  exact ⟨⟨new, events, moves⟩, length, long⟩

end stream

end Gufo.Streaming
