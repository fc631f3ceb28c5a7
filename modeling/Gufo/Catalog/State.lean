import Gufo.Disk.Manifest
import Gufo.Lib.OrderedMap
import Mathlib.Algebra.Order.Ring.Int
import Mathlib.Data.Finset.Basic
import Mathlib.Data.List.AList

/-!
# The disk catalog

`DiskCatalog` (`src/cache/disk_catalog.cpp`): the records of one store, their order
of use, and for each payload file the records that depend on it.

* What the store, the ledger and the workers answer is an argument. The calls into
  the prefix index change none of the three maps and are left out.
* `undefined` is an iterator or a node that the code uses without having one.
-/

namespace Gufo.Catalog
open Gufo.Disk

/-- A payload file: private or shared. -/
abbrev Key := Bool × DiskFileId

/-- `Dependencies`: the files in the order in which they are visited. -/
def dependencies (manifest : DiskManifest) : List Key :=
  manifest.components.flatMap fun component =>
    component.chunks.map (fun payload => (false, payload.file)) ++
      (component.tail.toList ++ component.privateState.toList).map fun payload =>
        (true, payload.file)

/-- `DiskDescription` -/
structure Description where
  manifest : DiskManifest
  epoch : Nat

structure Record where
  description : Description
  used : Nat := 0
  invalid : Bool := false

abbrev Reverse := AList fun _ : Key => Finset Nat

structure DiskCatalog where
  records : OrderedMap Nat Record := .empty
  lru : OrderedMap (Nat ×ₗ Nat) Nat := .empty
  /-- `reverse`, with the checkpoints of each bucket. -/
  reverse : Reverse := ∅
  clock : Nat := 0

inductive Ended (α : Type) where
  | returned (value : α)
  | threw
  | undefined
  deriving DecidableEq

/-- The ledger's answer to one `AddDependency`. -/
inductive Admission where
  | admitted
  /-- the bucket, or its charge -/
  | bucketRefused
  /-- the reference in the bucket, or its charge -/
  | referenceRefused
  deriving DecidableEq

/-- `DiskRetireResult`, and the exception. -/
inductive Retire where
  | retired
  | missing
  | pinned
  | busy
  | threw
  deriving DecidableEq

/-! ## Dependencies -/

/-- `AddDependency`. A bucket made for a refused reference stays behind, empty. -/
def addDependency (answer : Admission) (key : Key) (id : Nat) (reverse : Reverse) :
    Reverse × Bool :=
  match reverse.lookup key with
  | none =>
    match answer with
    | .bucketRefused => (reverse, false)
    | .referenceRefused => (reverse.insert key ∅, false)
    | .admitted => (reverse.insert key {id}, true)
  | some references =>
    if id ∈ references then (reverse, true)
    else if answer = .admitted then (reverse.insert key (insert id references), true)
    else (reverse, false)

/-- `RemoveDependency` -/
def removeDependency (id : Nat) (reverse : Reverse) (key : Key) : Reverse :=
  match reverse.lookup key with
  | none => reverse
  | some references =>
    if references.erase id = ∅ then reverse.erase key
    else reverse.insert key (references.erase id)

/-- The dependencies of a new record, up to the first refusal. -/
def addDependencies (id : Nat) : List Key → List Admission → Reverse → Reverse × Bool
  | [], _, reverse => (reverse, true)
  | key :: keys, answers, reverse =>
    match addDependency (answers.headD .admitted) key id reverse with
    | (reverse, true) => addDependencies id keys answers.tail reverse
    | (reverse, false) => (reverse, false)

/-! ## Operations -/

/-- What the world answers during one `Track`. -/
structure Tracking where
  /-- `Describe` -/
  description : Option Description
  recordAdmitted : Bool := true
  answers : List Admission := []
  converted : Bool := true

def clockLimit : Nat := 2 ^ 64 - 1

namespace DiskCatalog

/-- `Erase` -/
def eraseRecord (c : DiskCatalog) (id : Nat) : DiskCatalog :=
  match c.records.find id with
  | none => c
  | some record =>
    { c with
      reverse := (dependencies record.description.manifest).foldl (removeDependency id) c.reverse
      lru := c.lru.erase (toLex (record.used, id))
      records := c.records.erase id }

/-- The end of `Track`, once the record is to be made. -/
def insertRecord (c : DiskCatalog) (id used : Nat) (description : Description) (w : Tracking) :
    DiskCatalog × Ended Unit :=
  let (reverse, linked) :=
    addDependencies id (dependencies description.manifest) w.answers c.reverse
  let c := { c with
    records := c.records.emplace id { description, used }
    lru := c.lru.emplace (toLex (used, id)) id
    reverse }
  if linked && w.converted then (c, .returned ()) else (c.eraseRecord id, .threw)

/-- `Track`. The clock stands still while the catalog is `loading`. -/
def track (c : DiskCatalog) (loading : Bool) (id : Nat) (w : Tracking) : DiskCatalog × Ended Unit :=
  match w.description with
  | none => (c, .threw)
  | some description =>
    if (c.records.find id).any (·.description.epoch == description.epoch) then (c, .returned ())
    else
      let c := c.eraseRecord id
      if loading then
        if w.recordAdmitted then c.insertRecord id 0 description w else (c, .threw)
      else if c.clock = clockLimit then (c, .threw)
      else
        let c := { c with clock := c.clock + 1 }
        if w.recordAdmitted then c.insertRecord id c.clock description w else (c, .threw)

/-- `Touch` -/
def touch (c : DiskCatalog) (id : Nat) : DiskCatalog × Ended Unit :=
  match c.records.find id with
  | none => (c, .returned ())
  | some record =>
    if record.invalid then (c, .returned ())
    else if c.clock = clockLimit then (c, .threw)
    else
      let used := c.clock + 1
      let c := { c with clock := used }
      match c.lru.find (toLex (record.used, id)) with
      | none => (c, .undefined)
      | some node =>
        ({ c with
          lru := (c.lru.erase (toLex (record.used, id))).emplace (toLex (used, id)) node
          records := c.records.mapValues fun other record =>
            if other = id then { record with used } else record }, .returned ())

/-- `Reconcile`; `quarantined` is what the workers have set so far. -/
def reconcile (c : DiskCatalog) (quarantined : Nat → Bool) : DiskCatalog :=
  { c with records := c.records.mapValues fun id record =>
      if !record.invalid && quarantined id then { record with invalid := true } else record }

/-- The loop of `EvictOne` over the entries of the order of use. -/
def evictLoop (retire : Nat → Retire) :
    List ((Nat ×ₗ Nat) × Nat) → DiskCatalog → DiskCatalog × Ended Bool
  | [], c => (c, .returned false)
  | (_, id) :: rest, c =>
    match c.records.find id with
    | none => (c, .undefined)
    | some _ =>
      match retire id with
      | .threw => (c, .threw)
      | .busy => (c, .returned false)
      | .pinned => evictLoop retire rest c
      | .missing => evictLoop retire rest (c.eraseRecord id)
      | .retired => (c.eraseRecord id, .returned true)

/-- `EvictOne`. Each record is asked at most once, so its answer goes by its id. -/
def evictOne (c : DiskCatalog) (quarantined : Nat → Bool) (retire : Nat → Retire) :
    DiskCatalog × Ended Bool :=
  let c := c.reconcile quarantined
  evictLoop retire c.lru.entries c

/-- `Invalidate`. The records of the bucket are marked in order, up to one that is not there. -/
def invalidate (c : DiskCatalog) (key : Key) : DiskCatalog × Ended Unit :=
  match c.reverse.lookup key with
  | none => (c, .returned ())
  | some ids =>
    let marked := ids.filter fun id => ∀ m ∈ ids, m ≤ id → (c.records.find m).isSome
    ({ c with records := c.records.mapValues fun id record =>
        if id ∈ marked then { record with invalid := true } else record },
      if marked = ids then .returned () else .threw)

/-- The loop of `ReclaimInvalid`, with the number retired so far. -/
def reclaimLoop (retire : Nat → Retire) :
    List (Nat × Record) → Nat → DiskCatalog → DiskCatalog × Ended Nat
  | [], retired, c => (c, .returned retired)
  | (id, record) :: rest, retired, c =>
    if record.invalid then
      match retire id with
      | .threw => (c, .threw)
      | .busy => (c, .returned retired)
      | .pinned => reclaimLoop retire rest retired c
      | .missing => reclaimLoop retire rest retired (c.eraseRecord id)
      | .retired => reclaimLoop retire rest (retired + 1) (c.eraseRecord id)
    else reclaimLoop retire rest retired c

/-- `ReclaimInvalid` -/
def reclaimInvalid (c : DiskCatalog) (quarantined : Nat → Bool) (retire : Nat → Retire) :
    DiskCatalog × Ended Nat :=
  let c := c.reconcile quarantined
  reclaimLoop retire c.records.entries 0 c

end DiskCatalog

/-- The constructor tracks what the store holds; an exception leaves no catalog. -/
def construct : List (Nat × Tracking) → DiskCatalog → Option DiskCatalog
  | [], c => some c
  | (id, w) :: rest, c =>
    match c.track true id w with
    | (c, .returned ()) => construct rest c
    | _ => none

/-- One call with what the world answers during it. -/
inductive Call where
  | track (id : Nat) (w : Tracking)
  | touch (id : Nat)
  | evictOne (quarantined : Nat → Bool) (retire : Nat → Retire)
  | invalidate (key : Key)
  | reconcile (quarantined : Nat → Bool)
  | reclaimInvalid (quarantined : Nat → Bool) (retire : Nat → Retire)

/-- The catalog a call leaves, and whether it took what it had not. -/
def Call.run (c : DiskCatalog) : Call → DiskCatalog × Bool
  | .track id w => let (c, ended) := c.track false id w; (c, ended = .undefined)
  | .touch id => let (c, ended) := c.touch id; (c, ended = .undefined)
  | .evictOne quarantined retire =>
    let (c, ended) := c.evictOne quarantined retire; (c, ended = .undefined)
  | .invalidate key => let (c, ended) := c.invalidate key; (c, ended = .threw)
  | .reconcile quarantined => (c.reconcile quarantined, false)
  | .reclaimInvalid quarantined retire =>
    let (c, ended) := c.reclaimInvalid quarantined retire; (c, ended = .undefined)

/-- A catalog after any sequence of calls. -/
inductive Reachable : DiskCatalog → Prop
  | start {c : DiskCatalog} (discovered : List (Nat × Tracking)) :
      construct discovered {} = some c → Reachable c
  | call {c : DiskCatalog} (call : Call) : Reachable c → Reachable (call.run c).1

end Gufo.Catalog
