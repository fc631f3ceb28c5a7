import Gufo.Execution.State
import Gufo.Lib.OrderedMap
import Gufo.Lib.Radix
import Mathlib.Data.List.Lex

/-!
# The prefix index

`PrefixIndex` (`src/cache/prefix_index.cpp`): for each compatibility identity a
compressed tree of token sequences with the records that end in it.

* The node of the root is the values of a tree; the nodes below it are its forest.
  The directory from entries to nodes is not stored: an entry is looked for by its id.
* Whether the ledger grants a reservation, a payload is valid, a publication can be
  pinned or is quarantined is an answer of the world. The charges are left out.
-/

namespace Gufo.Prefix
open Gufo.Radix
open Gufo.Execution (Token Identity InputIdentity ComponentKind ComponentDescriptor
  ComponentPosition fits)

abbrev CompatibilityDigest := List UInt8

/-- Bytes are compared as numbers. -/
scoped instance instLinearOrderUInt8 : LinearOrder UInt8 where
  le_refl _ := UInt8.le_refl _
  le_trans _ _ _ := UInt8.le_trans
  lt_iff_le_not_ge _ _ := by
    simp only [UInt8.lt_iff_toNat_lt, UInt8.le_iff_toNat_le]
    omega
  le_antisymm _ _ := UInt8.le_antisymm
  le_total _ _ := UInt8.le_total _ _
  toDecidableLE := inferInstance

/-! ## What is indexed -/

/-- What the index reads of a `CheckpointComponent` and of a `DiskComponent`. -/
structure Component where
  descriptor : ComponentDescriptor
  position : ComponentPosition
  deriving DecidableEq

structure Checkpoint where
  id : Nat
  lineage : Nat
  compatibility : Identity
  input : Identity
  tokens : List Token
  components : List Component
  /-- A history has one component of each id. -/
  distinct : (components.map (·.descriptor.id)).Nodup
  deriving DecidableEq

structure DiskManifest where
  checkpoint : Nat
  lineage : Nat
  compatibility : CompatibilityDigest
  input : Identity
  tokens : List Token
  components : List Component
  deriving DecidableEq

structure DiskDescription where
  store : Nat
  epoch : Nat
  manifest : DiskManifest
  deriving DecidableEq

/-- What the stores have published, by store, epoch and checkpoint. -/
abbrev Published := Nat → Nat → Nat → Option DiskManifest

/-- A description is a copy of a publication. -/
def DiskDescription.Of (description : DiskDescription) (published : Published) : Prop :=
  published description.store description.epoch description.manifest.checkpoint =
    some description.manifest

/-- Descriptions of one publication. -/
def DiskDescription.same (a b : DiskDescription) : Bool :=
  decide (a.store = b.store ∧ a.epoch = b.epoch ∧ a.manifest.checkpoint = b.manifest.checkpoint)

structure ComponentAvailability where
  id : Nat
  resident : Bool := false
  durable : Bool := false
  deriving DecidableEq

structure BorrowedLocation where
  slot : Nat
  generation : Nat
  deriving DecidableEq

structure LiveFrontier where
  location : BorrowedLocation
  tokens : List Token
  compatibility : Identity
  input : Identity
  positions : List ComponentPosition
  available : Bool := true
  deriving DecidableEq

structure Record where
  id : Nat := 0
  checkpoint : Option Checkpoint := none
  live : Option LiveFrontier := none
  availability : Option (List ComponentAvailability) := none
  durable : Option DiskDescription := none
  stable : Nat := 0
  deriving DecidableEq

namespace Record

/-- The token sequence, whose length is `Boundary`. An empty record throws, but there is none. -/
def tokens (r : Record) : List Token :=
  match r.checkpoint, r.live, r.durable with
  | some checkpoint, _, _ => checkpoint.tokens
  | none, some live, _ => live.tokens
  | none, none, some durable => durable.manifest.tokens
  | none, none, none => []

/-- `Boundary` -/
def boundary (r : Record) : Nat := r.tokens.length

/-- `Input` -/
def input (r : Record) : Identity :=
  match r.checkpoint, r.live, r.durable with
  | some checkpoint, _, _ => checkpoint.input
  | none, some live, _ => live.input
  | none, none, some durable => durable.manifest.input
  | none, none, none => []

/-- `availability->components` -/
def available (r : Record) : List ComponentAvailability := r.availability.getD []

end Record

structure Tree where
  descriptors : List ComponentDescriptor
  digest : Option CompatibilityDigest := none
  /-- The records of the root. -/
  values : List Record := []
  forest : Forest Token Record := .nil

structure Index where
  trees : OrderedMap Identity Tree := .empty
  next : Nat := 1

inductive Error where
  | noComponents
  | geometry
  | duplicateComponent
  | inventoryChanged
  | digestChanged
  | unregistered
  | unknownEntry
  | unknownAvailability
  | duplicateAvailability
  | checkpoint
  | description
  | attachment
  | checkpointMismatch
  | positionMismatch
  | publicationMismatch
  | liveAvailability
  | notLive
  | boundaries
  | exhausted
  | overflow
  | refused
  deriving DecidableEq

/-- What the world answers during one call. -/
structure Services where
  /-- Every reservation that the call cannot do without. -/
  granted : Bool := true
  /-- The compaction of an empty node, by the entry erased and the node's depth. -/
  merge : Nat → Nat → Bool := fun _ _ => true
  /-- `Pin`, by entry. -/
  pinned : Nat → Bool := fun _ => true
  /-- `Quarantined`, by entry; 0 is the description that the call is given. -/
  quarantined : Nat → Bool := fun _ => false
  /-- `IsValid` of a payload in RAM, by entry, loop and component. -/
  valid : Nat → Nat → Nat → Bool := fun _ _ _ => true

/-! ## Records of a tree -/

namespace Tree

def records (t : Tree) : List Record := t.values ++ t.forest.all.map (·.2)

/-- `Place`, and the insertion of the record. -/
def place (r : Record) (t : Tree) : Tree :=
  if r.tokens = [] then { t with values := t.values ++ [r] }
  else { t with forest := Radix.place r t.forest r.tokens }

/-- The removal of an entry from its node, and `Prune`. -/
def erase (merge : Nat → Bool) (id : Nat) (t : Tree) : Tree :=
  if t.values.any (·.id == id) then { t with values := t.values.filter fun r => !(r.id == id) }
  else match remove (·.id == id) merge t.forest 0 with
    | some (forest, _) => { t with forest := forest }
    | none => t

/-- A change of one entry where it is. -/
def update (id : Nat) (f : Record → Record) (t : Tree) : Tree :=
  let change := fun r : Record => if r.id = id then f r else r
  { t with values := t.values.map change, forest := t.forest.map change }

/-- `Path`: the records of the nodes that a sequence passes. -/
def path (t : Tree) (tokens : List Token) : List Record := t.values ++ t.forest.along tokens

end Tree

namespace Index

/-- A change of one tree. -/
def modify (s : Index) (identity : Identity) (f : Tree → Tree) : Index :=
  { s with trees := s.trees.mapValues fun k t => if k = identity then f t else t }

/-- `Get`: an entry with its tree. -/
def get (s : Index) (id : Nat) : Option (Tree × Record) :=
  s.trees.entries.findSome? fun entry =>
    (entry.2.records.find? (·.id == id)).map (entry.2, ·)

/-- `directory`: the entries in order. -/
def directory (s : Index) : List Nat :=
  (s.trees.entries.flatMap fun entry => entry.2.records.map (·.id)).mergeSort

def update (s : Index) (id : Nat) (f : Record → Record) : Index :=
  { s with trees := s.trees.mapValues fun _ t => t.update id f }

/-- `Erase` -/
def erase (services : Services) (id : Nat) (s : Index) : Index :=
  { s with trees := s.trees.mapValues fun _ t => t.erase (services.merge id) id }

/-- `Publish` -/
def publish (services : Services) (identity : Identity) (r : Record) (s : Index) :
    Except Error (Nat × Index) :=
  if services.granted = false then .error .refused
  else if s.next = 2 ^ 64 - 1 then .error .exhausted
  else .ok (s.next,
    { s.modify identity (Tree.place { r with id := s.next }) with next := s.next + 1 })

end Index

/-! ## Coherence -/

/-- `Same` -/
def same (a b : ComponentDescriptor) : Bool := decide (a = b)

/-- `CheckpointCoherent` -/
def checkpointCoherent (t : Tree) (checkpoint : Checkpoint) : Bool :=
  decide (checkpoint.components.length = t.descriptors.length) && t.descriptors.all fun d =>
    match checkpoint.components.find? (same d ·.descriptor) with
    | none => false
    | some c =>
      !(d.kind == .privateState && c.position.validRows != checkpoint.tokens.length)

/-- `DurableCoherent` -/
def durableCoherent (t : Tree) (description : DiskDescription) : Bool :=
  decide (t.digest = some description.manifest.compatibility) &&
    decide (t.descriptors.length = description.manifest.components.length) &&
    t.descriptors.all fun d => description.manifest.components.any fun c =>
      same d c.descriptor && (d.kind != .privateState ||
        c.position.validRows == description.manifest.tokens.length)

/-- `DurableAvailability` -/
def durableAvailability (t : Tree) (existing : Option (List ComponentAvailability)) :
    List ComponentAvailability :=
  t.descriptors.map fun d =>
    ⟨d.id, ((existing.getD []).find? (·.id == d.id)).any (·.resident), true⟩

/-- The live branch of `Resident`. -/
def liveResident (t : Tree) (live : LiveFrontier) : Bool :=
  live.available && decide (live.positions.length = t.descriptors.length) &&
    t.descriptors.all fun d =>
      match live.positions.find? (·.id == d.id) with
      | none => false
      | some p => !(d.kind == .privateState && p.validRows != live.tokens.length)

/-! ## Operations -/

def geometryValid (d : ComponentDescriptor) : Bool :=
  match d.kind with
  | .appendRows => d.rowBytes != 0 && d.rowsPerChunk != 0 && d.stateBytes == 0
  | .privateState => d.stateBytes != 0 && d.rowBytes == 0 && d.rowsPerChunk == 0

/-- The loop of `Register` over the inventory, with the ids so far. -/
def checkInventory : List Nat → List ComponentDescriptor → Except Error Unit
  | _, [] => .ok ()
  | ids, d :: rest =>
    if geometryValid d = false then .error .geometry
    else if d.id ∈ ids then .error .duplicateComponent
    else checkInventory (d.id :: ids) rest

/-- `ValidateAvailability`, with the ids so far. -/
def validateAvailability (descriptors : List ComponentDescriptor) :
    List Nat → List ComponentAvailability → Except Error Unit
  | _, [] => .ok ()
  | ids, a :: rest =>
    if descriptors.all (·.id != a.id) then .error .unknownAvailability
    else if a.id ∈ ids then .error .duplicateAvailability
    else validateAvailability descriptors (a.id :: ids) rest

/-- `Register` -/
def register (services : Services) (identity : Identity) (descriptors : List ComponentDescriptor)
    (digest : Option CompatibilityDigest) (s : Index) : Except Error Index :=
  if descriptors = [] then .error .noComponents
  else match checkInventory [] descriptors with
    | .error e => .error e
    | .ok () =>
      match s.trees.find identity with
      | some t =>
        if descriptors.length ≠ t.descriptors.length ∨
            descriptors.any (fun d => t.descriptors.all fun other => !same d other) then
          .error .inventoryChanged
        else if t.digest.isSome ∧ digest.isSome ∧ t.digest ≠ digest then .error .digestChanged
        else .ok (s.modify identity fun t => { t with digest := digest.or t.digest })
      | none =>
        if services.granted = false then .error .refused
        else .ok { s with trees := s.trees.emplace identity { descriptors, digest } }

/-- `Insert`, of a checkpoint -/
def insert (services : Services) (checkpoint : Checkpoint)
    (availability : List ComponentAvailability) (stable : Nat) (s : Index) :
    Except Error (Nat × Index) :=
  if stable > checkpoint.tokens.length then .error .checkpoint
  else match s.trees.find checkpoint.compatibility with
    | none => .error .unregistered
    | some t =>
      match validateAvailability t.descriptors [] availability with
      | .error e => .error e
      | .ok () =>
        s.publish services checkpoint.compatibility
          { checkpoint := some checkpoint, availability := some availability, stable }

/-- `Insert`, of a live frontier -/
def insertLive (services : Services) (frontier : LiveFrontier) (s : Index) :
    Except Error (Nat × Index) :=
  match s.trees.find frontier.compatibility with
  | none => .error .unregistered
  | some _ => s.publish services frontier.compatibility { live := some frontier }

/-- `Insert`, of a durable description -/
def insertDurable (services : Services) (compatibility : Identity) (durable : DiskDescription)
    (stable : Nat) (s : Index) : Except Error (Nat × Index) :=
  match s.trees.find compatibility with
  | none => .error .unregistered
  | some t =>
    if stable > durable.manifest.tokens.length ∨ durableCoherent t durable = false ∨
        services.pinned s.next = false then .error .description
    else
      s.publish services compatibility
        { availability := some (durableAvailability t none), durable := some durable, stable }

/-- What `AttachDurable` compares for a checkpoint in RAM. -/
def matchesCheckpoint (checkpoint : Checkpoint) (manifest : DiskManifest) : Except Error Unit :=
  if checkpoint.id ≠ manifest.checkpoint ∨ checkpoint.lineage ≠ manifest.lineage ∨
      checkpoint.input ≠ manifest.input ∨ checkpoint.tokens ≠ manifest.tokens ∨
      checkpoint.components.length ≠ manifest.components.length then .error .checkpointMismatch
  else if checkpoint.components.all fun component =>
      (manifest.components.find? (same component.descriptor ·.descriptor)).any
        (decide <| ·.position = component.position) then .ok ()
  else .error .positionMismatch

/-- `AttachDurable` -/
def attachDurable (services : Services) (id : Nat) (durable : DiskDescription) (s : Index) :
    Except Error Index :=
  match s.get id with
  | none => .error .unknownEntry
  | some (t, r) =>
    if r.live.isSome ∨ durableCoherent t durable = false ∨ services.pinned id = false then
      .error .attachment
    else
      let admitted := match r.checkpoint with
        | some checkpoint => matchesCheckpoint checkpoint durable.manifest
        | none => if r.durable.any durable.same then .ok () else .error .publicationMismatch
      match admitted with
      | .error e => .error e
      | .ok () =>
        if services.granted = false then .error .refused
        else .ok (s.update id fun r =>
          { r with
            availability := some (durableAvailability t r.availability)
            durable := some durable })

/-- `DropResident` -/
def dropResident (services : Services) (id : Nat) (s : Index) : Index :=
  match s.get id with
  | none => s
  | some (t, r) =>
    if r.durable.isSome && r.availability.isSome && services.pinned id &&
        t.descriptors.all fun d => (r.available.find? (·.id == d.id)).any (·.durable) then
      s.update id fun r => { r with checkpoint := none }
    else s.erase services id

/-- One entry in the loop of `RemoveDurable`. -/
def removeFrom (services : Services) (description : DiskDescription) (corrupt : Bool) (s : Index)
    (id : Nat) : Index :=
  match s.get id with
  | none => s
  | some (_, r) =>
    if r.durable.any description.same then
      if corrupt || r.checkpoint.isNone then s.erase services id
      else s.update id fun r => { r with durable := none }
    else s

/-- `RemoveDurable` -/
def removeDurable (services : Services) (description : DiskDescription) (corrupt : Bool)
    (s : Index) : Index :=
  s.directory.foldl (removeFrom services description (corrupt || services.quarantined 0)) s

/-- `SetAvailability` -/
def setAvailability (services : Services) (id : Nat) (availability : List ComponentAvailability)
    (s : Index) : Except Error Index :=
  match s.get id with
  | none => .error .unknownEntry
  | some (t, r) =>
    if r.live.isSome then .error .liveAvailability
    else match validateAvailability t.descriptors [] availability with
      | .error e => .error e
      | .ok () =>
        if services.granted = false then .error .refused
        else .ok (s.update id fun r => { r with availability := some availability })

/-- `SetLiveAvailable` -/
def setLiveAvailable (id : Nat) (available : Bool) (s : Index) : Except Error Index :=
  match s.get id with
  | none => .error .unknownEntry
  | some (_, r) =>
    if r.live.isNone then .error .notLive
    else .ok (s.update id fun r =>
      { r with live := r.live.map fun live => { live with available } })

/-! ## Candidates -/

structure PrefixCandidate where
  entry : Nat
  boundary : Nat
  checkpoint : Option Checkpoint := none
  live : Option BorrowedLocation := none
  transferBytes : Nat := 0
  durable : Option DiskDescription := none
  /-- `disk_pin` is held. -/
  diskPin : Bool := false
  availability : Option (List ComponentAvailability) := none
  deriving DecidableEq

/-- `UsesDisk` -/
def PrefixCandidate.usesDisk (c : PrefixCandidate) (id : Nat) : Bool :=
  c.durable.isSome && (c.checkpoint.isNone ||
    ((c.availability.getD []).find? (·.id == id)).any (!·.resident))

/-- The flags of `Candidate`. -/
structure Plan where
  needDisk : Bool := false
  useRam : Bool := false
  resolvePlan : Bool := false

/-- The first loop of `Candidate`: the source of each component. -/
def planLoop (valid : Nat → Bool) (ram durable : Bool) (available : List ComponentAvailability) :
    List ComponentDescriptor → Plan → Option Plan
  | [], plan => some plan
  | d :: rest, plan =>
    match available.find? (·.id == d.id) with
    | none => none
    | some a =>
      if ram && a.resident && valid d.id then
        planLoop valid ram durable available rest { plan with useRam := true }
      else if durable && a.durable then
        planLoop valid ram durable available rest
          { plan with needDisk := true, resolvePlan := plan.resolvePlan || a.resident }
      else none

/-- The rows of a component; every one of the inventory is there. -/
def rowsOf (components : List Component) (id : Nat) : Nat :=
  ((components.find? (·.descriptor.id == id)).map (·.position.validRows)).getD 0

/-- The last loop of `Candidate`: `transfer_bytes`. -/
def transferLoop (components : List Component) :
    List ComponentDescriptor → Nat → Except Error Nat
  | [], bytes => .ok bytes
  | d :: rest, bytes =>
    let more := if d.kind = .privateState then d.stateBytes
      else rowsOf components d.id * d.rowBytes
    if fits more ∧ fits (bytes + more) then transferLoop components rest (bytes + more)
    else .error .overflow

/-- The rewritten list of a plan. -/
def resolvedPlan (valid : Nat → Bool) (available : List ComponentAvailability) :
    List ComponentAvailability :=
  available.map fun a => { a with resident := a.resident && valid a.id }

/-- The components that say how much is transferred. -/
def Record.components (r : Record) : List Component :=
  match r.checkpoint, r.durable with
  | some checkpoint, _ => checkpoint.components
  | none, some durable => durable.manifest.components
  | none, none => []

/-- `Candidate` -/
def candidate (services : Services) (t : Tree) (r : Record) :
    Except Error (Option PrefixCandidate) :=
  match r.live with
  | some live =>
    if liveResident t live then
      .ok (some { entry := r.id, boundary := r.boundary, live := some live.location })
    else .ok none
  | none =>
    if r.durable.isSome && services.quarantined r.id then .ok none
    else
      match planLoop (services.valid r.id 0) (r.checkpoint.any (checkpointCoherent t))
        r.durable.isSome r.available t.descriptors {} with
      | none => .ok none
      | some plan =>
        if plan.needDisk && !services.pinned r.id then .ok none
        else if plan.resolvePlan && plan.useRam && !services.granted then .error .refused
        else match transferLoop r.components t.descriptors 0 with
          | .error e => .error e
          | .ok bytes =>
            .ok (some
              { entry := r.id
                boundary := r.boundary
                checkpoint := if plan.useRam then r.checkpoint else none
                transferBytes := bytes
                durable := if plan.needDisk then r.durable else none
                diskPin := plan.needDisk
                availability :=
                  if plan.resolvePlan && plan.useRam then
                    some (resolvedPlan (services.valid r.id 1) r.available)
                  else r.availability })

/-! ## Lookup -/

structure PrefixQuery where
  compatibility : Identity
  tokens : List Token
  input : InputIdentity
  stablePrefixTokens : Nat := 0
  reuse : Bool := true

inductive SelectionReason where
  | exactLiveContinuation
  | deepestCheckpoint
  | deepestDurableCheckpoint
  | deepestMixedCheckpoint
  | disabled
  | unknownCompatibility
  | noCompatibleBoundary
  | inputIdentity
  | missingComponent
  | stablePrefixBoundary
  deriving DecidableEq

structure PrefixLookup where
  reason : SelectionReason := .noCompatibleBoundary
  selected : Option PrefixCandidate := none
  candidates : List PrefixCandidate := []

/-- What the visits of `Lookup` find. -/
structure Scan where
  candidates : List PrefixCandidate := []
  fallback : Bool
  inputRejected : Bool := false
  missing : Bool := false

/-- A record that establishes the fallback when it can be restored. -/
def Record.establishes (r : Record) (stablePrefixTokens : Nat) : Bool :=
  r.live.isNone && (decide (r.boundary ≤ stablePrefixTokens) ||
    r.stable != 0 && decide (r.stable ≤ stablePrefixTokens))

/-- The visits of `Lookup`, record by record. -/
def scan (services : Services) (t : Tree) (query : PrefixQuery) :
    List Record → Scan → Except Error Scan
  | [], found => .ok found
  | r :: rest, found =>
    if query.input.at_ r.boundary ≠ some r.input then
      scan services t query rest { found with inputRejected := true }
    else match candidate services t r with
      | .error e => .error e
      | .ok none => scan services t query rest { found with missing := true }
      | .ok (some c) =>
        scan services t query rest
          { found with
            candidates := found.candidates ++ [c]
            fallback := found.fallback || r.establishes query.stablePrefixTokens }

/-- The order of the candidates: the components of the tuple. -/
def PrefixCandidate.key (c : PrefixCandidate) : List Nat :=
  [2 ^ 64 - 1 - c.boundary,
    if c.live.isSome then 0
    else if c.durable.isSome then (if c.checkpoint.isSome then 2 else 3) else 1,
    match c.live, c.checkpoint, c.durable with
    | some live, _, _ => live.slot
    | none, some checkpoint, _ => checkpoint.id
    | none, none, some durable => durable.manifest.checkpoint
    | none, none, none => 0,
    (c.live.map (·.generation)).getD 0,
    c.entry]

def sortCandidates (candidates : List PrefixCandidate) : List PrefixCandidate :=
  candidates.mergeSort fun a b => decide (a.key ≤ b.key)

/-- The reason for a selection. -/
def selectionReason (c : PrefixCandidate) : SelectionReason :=
  if c.live.isSome then .exactLiveContinuation
  else if c.durable.isSome then
    if c.checkpoint.isSome then .deepestMixedCheckpoint else .deepestDurableCheckpoint
  else .deepestCheckpoint

/-- `Lookup` after the visits. -/
def select (query : PrefixQuery) (found : Scan) : PrefixLookup :=
  let rejected := fun c : PrefixCandidate =>
    !found.fallback && decide (c.boundary > query.stablePrefixTokens)
  let candidates := sortCandidates (found.candidates.filter fun c => !rejected c)
  match candidates with
  | [] =>
    { reason :=
        if found.candidates.any rejected then .stablePrefixBoundary
        else if found.missing then .missingComponent
        else if found.inputRejected then .inputIdentity
        else .noCompatibleBoundary }
  | c :: _ => { reason := selectionReason c, selected := some c, candidates }

/-- `Lookup` -/
def lookup (services : Services) (query : PrefixQuery) (s : Index) : Except Error PrefixLookup :=
  if query.stablePrefixTokens > query.tokens.length ∨
      query.input.tokenCount ≠ query.tokens.length then .error .boundaries
  else if query.reuse = false then .ok { reason := .disabled }
  else match s.trees.find query.compatibility with
    | none => .ok { reason := .unknownCompatibility }
    | some t =>
      if t.path query.tokens ≠ [] ∧ services.granted = false then .error .refused
      else match scan services t query (t.path query.tokens)
          { fallback := query.stablePrefixTokens == 0 } with
        | .error e => .error e
        | .ok found => .ok (select query found)

/-- The input identity that a record is compared with. -/
def PrefixQuery.inputAt (query : PrefixQuery) (boundary : Nat) : Option Identity :=
  if boundary ≤ query.tokens.length then query.input.at_ boundary else some query.input.complete

/-- `CommonPrefixTokens` -/
def commonPrefixTokens (query : PrefixQuery) (s : Index) : Except Error Nat :=
  if query.input.tokenCount ≠ query.tokens.length then .error .boundaries
  else match s.trees.find query.compatibility with
    | none => .ok 0
    | some t =>
      .ok (longestAgreement (fun r => decide (query.inputAt r.boundary = some r.input))
        query.tokens t.values t.forest)

/-! ## Runs -/

/-- The successful calls. -/
inductive Step (published : Published) (s : Index) : Index → Prop
  | register {services identity descriptors digest s'}
      (ok : register services identity descriptors digest s = .ok s') : Step published s s'
  | insert {services checkpoint availability stable id s'}
      (ok : insert services checkpoint availability stable s = .ok (id, s')) : Step published s s'
  | insertLive {services frontier id s'}
      (ok : insertLive services frontier s = .ok (id, s')) : Step published s s'
  | insertDurable {services compatibility durable stable id s'} (described : durable.Of published)
      (ok : insertDurable services compatibility durable stable s = .ok (id, s')) :
      Step published s s'
  | attachDurable {services id durable s'} (described : durable.Of published)
      (ok : attachDurable services id durable s = .ok s') : Step published s s'
  | dropResident (services : Services) (id : Nat) : Step published s (dropResident services id s)
  | removeDurable (services : Services) (description : DiskDescription) (corrupt : Bool) :
      Step published s (removeDurable services description corrupt s)
  | setAvailability {services id availability s'}
      (ok : setAvailability services id availability s = .ok s') : Step published s s'
  | setLiveAvailable {id available s'}
      (ok : setLiveAvailable id available s = .ok s') : Step published s s'
  | erase (services : Services) (id : Nat) : Step published s (s.erase services id)

inductive Reachable (published : Published) : Index → Prop
  | initial : Reachable published {}
  | step {s s' : Index} (reach : Reachable published s) (step : Step published s s') :
      Reachable published s'

end Gufo.Prefix
