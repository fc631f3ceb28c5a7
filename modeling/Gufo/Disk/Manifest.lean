/-!
# Cache v2 manifests

The metadata record of one published checkpoint (`src/cache/disk.hpp`) and the
geometry check both the encoder and the decoder run on it.

* `none` is the one exception these functions throw, "invalid cache v2 manifest".
* An enumeration is its byte: a decoded byte need not name an enumerator, and it is
  the check that rejects it.
-/

namespace Gufo.Disk

abbrev Token := UInt32
abbrev DiskFileId := Vector UInt8 16
abbrev CompatibilityDigest := Vector UInt8 32

instance DiskFileId.instLawfulBEq : LawfulBEq DiskFileId := inferInstance

/-- `enum class ComponentKind : std::uint8_t` -/
abbrev ComponentKind := UInt8

def ComponentKind.appendRows : ComponentKind := 0
def ComponentKind.privateState : ComponentKind := 1

/-- `enum class CheckpointPurpose : std::uint8_t` -/
abbrev CheckpointPurpose := UInt8

def CheckpointPurpose.prompt : CheckpointPurpose := 0
def CheckpointPurpose.generated : CheckpointPurpose := 1
def CheckpointPurpose.grid : CheckpointPurpose := 2
def CheckpointPurpose.learned : CheckpointPurpose := 3

structure ComponentDescriptor where
  id : UInt32
  layoutVersion : UInt32
  kind : ComponentKind
  rowBytes : UInt64
  rowsPerChunk : UInt64
  stateBytes : UInt64
  deriving DecidableEq, Repr

structure ComponentPosition where
  id : UInt32
  validRows : UInt64
  deriving DecidableEq, Repr

structure DiskPayload where
  file : DiskFileId
  bytes : UInt64
  checksum : UInt64
  deriving DecidableEq, Repr

structure DiskComponent where
  descriptor : ComponentDescriptor
  position : ComponentPosition
  chunks : List DiskPayload
  tail : Option DiskPayload
  privateState : Option DiskPayload
  deriving DecidableEq, Repr

structure DiskManifest where
  checkpoint : UInt64
  lineage : UInt64
  compatibility : CompatibilityDigest
  input : List UInt8
  tokens : List Token
  components : List DiskComponent
  purpose : CheckpointPurpose
  rank : UInt32
  deriving DecidableEq, Repr

def diskFormatVersion : UInt64 := 2
def maxManifestBytes : Nat := 16 * 1024 * 1024
def maxTokens : Nat := 2 * 1024 * 1024
def maxComponents : Nat := 256
def maxReferences : Nat := 65536
def maxInputBytes : Nat := 65536

/-- Throws `Invalid()` when the condition holds. -/
def invalidIf (c : Prop) [Decidable c] : Option Unit := if c then none else some ()

/-- `Multiply`: a product that does not fit is invalid. -/
def multiply (a b : UInt64) : Option UInt64 :=
  if a ≠ 0 ∧ b > 0xffffffffffffffff / a then none else some (a * b)

/-- What a component's payloads count for the reference limit. -/
def DiskComponent.references (c : DiskComponent) : Nat :=
  c.chunks.length + (if c.tail.isSome then 1 else 0) + (if c.privateState.isSome then 1 else 0)

/-- What the loop over the components carries. -/
structure Validation where
  privateFiles : List DiskFileId := []
  references : Nat := 0
  /-- `previous`, with `first` as its absence. -/
  previous : Option UInt32 := none

/-- The geometry of a component whose rows are stored in chunks. -/
def validateRows (c : DiskComponent) : Option Unit := do
  let d := c.descriptor
  invalidIf (d.rowBytes = 0 ∨ d.rowsPerChunk = 0 ∨ d.stateBytes ≠ 0 ∨ c.privateState.isSome ∨
    c.chunks.length ≠ (c.position.validRows / d.rowsPerChunk).toNat)
  let _ ← multiply d.rowBytes c.position.validRows
  let fullBytes ← multiply d.rowBytes d.rowsPerChunk
  invalidIf (c.chunks.any fun p => p.bytes != fullBytes)
  invalidIf ¬(c.chunks.map (·.file)).Nodup
  let remaining := c.position.validRows % d.rowsPerChunk
  invalidIf (c.tail.isSome ≠ decide (remaining ≠ 0))
  match c.tail with
  | none => return ()
  | some tail =>
    let tailBytes ← multiply d.rowBytes remaining
    invalidIf (tail.bytes ≠ tailBytes)

/-- The geometry of a component that is one private state. -/
def validateState (m : DiskManifest) (c : DiskComponent) : Option Unit :=
  let d := c.descriptor
  invalidIf (d.rowBytes ≠ 0 ∨ d.rowsPerChunk ≠ 0 ∨ d.stateBytes = 0 ∨ c.chunks ≠ [] ∨
    c.tail.isSome ∨ c.privateState.map (·.bytes) ≠ some d.stateBytes ∨
    c.position.validRows.toNat ≠ m.tokens.length)

/-- The geometry the kind asks for; a byte that names no kind is invalid. -/
def validateKind (m : DiskManifest) (c : DiskComponent) : Option Unit :=
  if c.descriptor.kind = .appendRows then validateRows c
  else if c.descriptor.kind = .privateState then validateState m c
  else none

/-- `private_files.insert(p->file)` for the tail, then for the private state. -/
def claimPrivate (files : List DiskFileId) : Option DiskPayload → Option (List DiskFileId)
  | none => some files
  | some p => if p.file ∈ files then none else some (p.file :: files)

/-- One iteration of `Validate`. -/
def validateComponent (m : DiskManifest) (v : Validation) (c : DiskComponent) :
    Option Validation := do
  let d := c.descriptor
  invalidIf (c.position.id ≠ d.id ∨ d.layoutVersion = 0 ∨ v.previous.any fun id => d.id ≤ id)
  invalidIf (v.references + c.references > maxReferences)
  validateKind m c
  let files ← claimPrivate v.privateFiles c.tail
  let files ← claimPrivate files c.privateState
  return ⟨files, v.references + c.references, some d.id⟩

/-- `Validate` -/
def validate (m : DiskManifest) : Option Unit := do
  invalidIf (m.checkpoint = 0 ∨ m.lineage = 0 ∨ m.tokens.length > maxTokens ∨
    m.input.length > maxInputBytes ∨ m.components = [] ∨ m.components.length > maxComponents ∨
    m.purpose > .learned)
  let _ ← m.components.foldlM (validateComponent m) {}
  return ()

end Gufo.Disk
