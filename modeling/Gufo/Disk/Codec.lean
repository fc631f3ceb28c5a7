import Gufo.Lib.Wire
import Gufo.Disk.Checksum
import Gufo.Disk.Manifest

/-!
# The manifest codec

`EncodeManifest` and `DecodeManifest` of `src/cache/disk.cpp`. `layout` is the byte
string both are about: the encoder writes it, the decoder accepts it and nothing
else, so the two are inverse to each other on valid manifests.
-/

namespace Gufo.Disk
open Gufo.Wire

def magic : List UInt8 := [71, 85, 70, 79, 77, 78, 70, 50]

/-! ## Writer -/

/-- `Writer::Number` -/
def Writer.number (n : UInt64) (width : Nat) : Stream Unit := fun bytes =>
  if bytes.length + width > maxManifestBytes - 8 then none
  else some ((), bytes ++ leBytes width n)

/-- `Writer::Blob` -/
def Writer.blob (b : List UInt8) : Stream Unit := fun bytes =>
  if b.length > maxManifestBytes - 8 - bytes.length then none else some ((), bytes ++ b)

/-- `Writer::Payload` -/
def Writer.payload (p : DiskPayload) : Stream Unit := do
  Writer.blob p.file.toList
  Writer.number p.bytes 8
  Writer.number p.checksum 8

/-- A presence byte and the payload, if there is one. -/
def Writer.optionalPayload (p : Option DiskPayload) : Stream Unit := do
  Writer.number (if p.isSome then 1 else 0) 1
  match p with
  | none => return ()
  | some p => Writer.payload p

def Writer.component (c : DiskComponent) : Stream Unit := do
  let d := c.descriptor
  Writer.number d.id.toUInt64 4
  Writer.number d.layoutVersion.toUInt64 4
  Writer.number d.kind.toUInt64 1
  Writer.number d.rowBytes 8
  Writer.number d.rowsPerChunk 8
  Writer.number d.stateBytes 8
  Writer.number c.position.validRows 8
  Writer.number c.chunks.length.toUInt64 4
  c.chunks.forM Writer.payload
  Writer.optionalPayload c.tail
  Writer.optionalPayload c.privateState

def Writer.manifest (m : DiskManifest) : Stream Unit := do
  Writer.blob magic
  Writer.number diskFormatVersion 4
  Writer.number m.checkpoint 8
  Writer.number m.lineage 8
  Writer.blob m.compatibility.toList
  Writer.number m.purpose.toUInt64 1
  Writer.number m.rank.toUInt64 4
  Writer.number m.input.length.toUInt64 4
  Writer.blob m.input
  Writer.number m.tokens.length.toUInt64 4
  m.tokens.forM fun t => Writer.number t.toUInt64 4
  Writer.number m.components.length.toUInt64 4
  m.components.forM Writer.component

/-- `EncodeManifest` -/
def encodeManifest (folding : Bool) (m : DiskManifest) : Option (List UInt8) := do
  validate m
  let ((), bytes) ← Writer.manifest m []
  return bytes ++ leBytes 8 (diskChecksum folding bytes 0)

/-! ## Reader -/

/-- `Reader::Blob` -/
def Reader.blob (n : Nat) : Stream (List UInt8) := fun bytes =>
  if n > bytes.length then none else some (bytes.take n, bytes.drop n)

/-- `Reader::Number` -/
def Reader.number (width : Nat) : Stream UInt64 := do
  let b ← Reader.blob width
  return assemble 0 b

/-- `Blob` copied into an array of that size. -/
def Reader.array (n : Nat) : Stream (Vector UInt8 n) := fun bytes =>
  if h : n ≤ bytes.length then
    some (⟨(bytes.take n).toArray, by simp [h]⟩, bytes.drop n)
  else none

/-- The two bounds of `Count`: the maximum, and what the bytes left can hold. -/
def Reader.bounded (max elementBytes : Nat) (n : UInt64) : Stream Nat := fun bytes =>
  if n.toNat > max ∨ n.toNat > bytes.length / elementBytes then none
  else some (n.toNat, bytes)

/-- `Reader::Count` -/
def Reader.count (max elementBytes : Nat) : Stream Nat := do
  let n ← Reader.number 4
  Reader.bounded max elementBytes n

/-- `Reader::Payload` -/
def Reader.payload : Stream DiskPayload := do
  let file ← Reader.array 16
  let bytes ← Reader.number 8
  let checksum ← Reader.number 8
  return ⟨file, bytes, checksum⟩

/-- `optional_payload`, with the count of references it takes and leaves. -/
def Reader.optionalPayload (references : Nat) : Stream (Option DiskPayload × Nat) := do
  let present ← Reader.number 1
  if present > 1 then failure
  else if present = 0 then return (none, references)
  else if references + 1 > maxReferences then failure
  else
    let p ← Reader.payload
    return (some p, references + 1)

/-- One iteration of the component loop. -/
def Reader.component (references : Nat) : Stream (DiskComponent × Nat) := do
  let id ← Reader.number 4
  let layoutVersion ← Reader.number 4
  let kind ← Reader.number 1
  let rowBytes ← Reader.number 8
  let rowsPerChunk ← Reader.number 8
  let stateBytes ← Reader.number 8
  let validRows ← Reader.number 8
  let n ← Reader.count (maxReferences - references) 32
  let chunks ← many Reader.payload n
  let (tail, references) ← Reader.optionalPayload (references + n)
  let (privateState, references) ← Reader.optionalPayload references
  return (⟨⟨id.toUInt32, layoutVersion.toUInt32, kind.toUInt8, rowBytes, rowsPerChunk,
    stateBytes⟩, ⟨id.toUInt32, validRows⟩, chunks, tail, privateState⟩, references)

def Reader.components : Nat → Nat → Stream (List DiskComponent)
  | 0, _ => return []
  | n + 1, references => do
    let (c, references) ← Reader.component references
    let rest ← Reader.components n references
    return c :: rest

def Reader.token : Stream Token := do
  let n ← Reader.number 4
  return n.toUInt32

def Reader.manifest : Stream DiskManifest := do
  let start ← Reader.blob magic.length
  let version ← Reader.number 4
  reject (start ≠ magic ∨ version ≠ diskFormatVersion)
  let checkpoint ← Reader.number 8
  let lineage ← Reader.number 8
  let compatibility ← Reader.array 32
  let purpose ← Reader.number 1
  let rank ← Reader.number 4
  let inputBytes ← Reader.count maxInputBytes 1
  let input ← Reader.blob inputBytes
  let tokenCount ← Reader.count maxTokens 4
  let tokens ← many Reader.token tokenCount
  let componentCount ← Reader.count maxComponents 47
  let components ← Reader.components componentCount 0
  return ⟨checkpoint, lineage, compatibility, input, tokens, components, purpose.toUInt8,
    rank.toUInt32⟩

/-- `DecodeManifest` -/
def decodeManifest (folding : Bool) (bytes : List UInt8) : Option DiskManifest := do
  invalidIf (bytes.length < 20 ∨ bytes.length > maxManifestBytes)
  let body := bytes.take (bytes.length - 8)
  let (checksum, _) ← Reader.number 8 (bytes.drop (bytes.length - 8))
  invalidIf (diskChecksum folding body 0 ≠ checksum)
  let (m, rest) ← Reader.manifest body
  invalidIf (rest ≠ [])
  validate m
  return m

/-! ## Layout -/

def DiskPayload.layout (p : DiskPayload) : List UInt8 :=
  p.file.toList ++ (leBytes 8 p.bytes ++ leBytes 8 p.checksum)

def optionalLayout (p : Option DiskPayload) : List UInt8 :=
  leBytes 1 (if p.isSome then 1 else 0) ++ (p.map DiskPayload.layout).getD []

def DiskComponent.layout (c : DiskComponent) : List UInt8 :=
  leBytes 4 c.descriptor.id.toUInt64 ++ (leBytes 4 c.descriptor.layoutVersion.toUInt64 ++
    (leBytes 1 c.descriptor.kind.toUInt64 ++ (leBytes 8 c.descriptor.rowBytes ++
      (leBytes 8 c.descriptor.rowsPerChunk ++ (leBytes 8 c.descriptor.stateBytes ++
        (leBytes 8 c.position.validRows ++ (leBytes 4 c.chunks.length.toUInt64 ++
          (c.chunks.flatMap DiskPayload.layout ++
            (optionalLayout c.tail ++ optionalLayout c.privateState)))))))))

def DiskManifest.layout (m : DiskManifest) : List UInt8 :=
  magic ++ (leBytes 4 diskFormatVersion ++ (leBytes 8 m.checkpoint ++ (leBytes 8 m.lineage ++
    (m.compatibility.toList ++ (leBytes 1 m.purpose.toUInt64 ++ (leBytes 4 m.rank.toUInt64 ++
      (leBytes 4 m.input.length.toUInt64 ++ (m.input ++ (leBytes 4 m.tokens.length.toUInt64 ++
        (m.tokens.flatMap (fun t => leBytes 4 t.toUInt64) ++
          (leBytes 4 m.components.length.toUInt64 ++
            m.components.flatMap DiskComponent.layout)))))))))))

end Gufo.Disk
