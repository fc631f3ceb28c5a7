import Gufo.Disk.RoundTrip

/-!
# Planning a manifest's metadata

`PlanMetadata` of `src/cache/disk.cpp` walks an encoded manifest before it is
decoded, to reserve what the decoded one takes: it plans exactly that for what is
accepted, and never more than a fixed multiple of the bytes.
-/

namespace Gufo.Disk
open Gufo.Wire

structure MetadataPlan where
  retained : Nat := 0
  references : Nat := 0
  deriving DecidableEq

/-- `sizeof(DiskComponent)` and `sizeof(DiskPayload)`. -/
structure Layouts where
  component : Nat
  payload : Nat

/-- The presence byte of an optional payload, and the payload. -/
def Plan.optionalPayload (plan : MetadataPlan) : Stream MetadataPlan := do
  let present ← Reader.number 1
  if present > 1 then failure
  else if present = 0 then return plan
  else if plan.references + 1 > maxReferences then failure
  else
    let _ ← Reader.blob 32
    return { plan with references := plan.references + 1 }

def Plan.component (sizes : Layouts) (plan : MetadataPlan) : Stream MetadataPlan := do
  let _ ← Reader.blob 41
  let chunks ← Reader.count (maxReferences - plan.references) 32
  let _ ← Reader.blob (chunks * 32)
  let plan := ⟨plan.retained + chunks * sizes.payload, plan.references + chunks⟩
  let plan ← Plan.optionalPayload plan
  Plan.optionalPayload plan

def Plan.components (sizes : Layouts) : Nat → MetadataPlan → Stream MetadataPlan
  | 0, plan => return plan
  | n + 1, plan => do
    let plan ← Plan.component sizes plan
    Plan.components sizes n plan

/-- The walk up to the checksum; its sums stay far below the word size. -/
def Plan.manifest (sizes : Layouts) : Stream MetadataPlan := do
  let _ ← Reader.blob 65
  let input ← Reader.count maxInputBytes 1
  let _ ← Reader.blob input
  let tokens ← Reader.count maxTokens 4
  let _ ← Reader.blob (tokens * 4)
  let components ← Reader.count maxComponents 47
  Plan.components sizes components ⟨input + tokens * 4 + components * sizes.component, 0⟩

/-- `PlanMetadata` -/
def planMetadata (sizes : Layouts) (bytes : List UInt8) : Option MetadataPlan := do
  invalidIf (bytes.length < 20 ∨ bytes.length > maxManifestBytes)
  let (plan, rest) ← Plan.manifest sizes (bytes.take (bytes.length - 8))
  invalidIf (rest ≠ [])
  return plan

/-! ## Valid manifests pass -/

theorem reads_skip {b : List UInt8} {n : Nat} (h : b.length = n) : Reads (Reader.blob n) b b :=
  h ▸ reads_blob b

theorem plan_optionalPayload (p : Option DiskPayload) {plan : MetadataPlan}
    (fits : plan.references + (if p.isSome then 1 else 0) ≤ maxReferences) :
    Reads (Plan.optionalPayload plan) (optionalLayout p)
      { plan with references := plan.references + (if p.isSome then 1 else 0) } := by
  cases p with
  | none => exact reads_bind (reads_byte 0) (reads_pure _)
  | some p =>
    have room : ¬plan.references + 1 > maxReferences := by simpa using fits
    apply reads_bind (reads_byte 1)
    have body := reads_return (reads_skip (length_payload_layout p))
      fun _ => { plan with references := plan.references + 1 }
    intro rest
    have run := body rest
    simpa [room] using run

/-- What the entries of the decoded components take besides the components. -/
def chunkBytes (sizes : Layouts) (cs : List DiskComponent) : Nat :=
  (cs.map fun c => c.chunks.length * sizes.payload).sum

/-- The capacities that decoding the manifest reserves. -/
def DiskManifest.retained (sizes : Layouts) (m : DiskManifest) : Nat :=
  m.input.length + m.tokens.length * 4 + m.components.length * sizes.component +
    chunkBytes sizes m.components

theorem plan_component (sizes : Layouts) (c : DiskComponent) {plan : MetadataPlan}
    (fits : plan.references + c.references ≤ maxReferences) :
    Reads (Plan.component sizes plan) c.layout
      ⟨plan.retained + c.chunks.length * sizes.payload, plan.references + c.references⟩ := by
  obtain ⟨d, position, chunks, tail, privateState⟩ := c
  simp only [DiskComponent.references] at fits ⊢
  have small : chunks.length < 2 ^ 32 := by
    unfold maxReferences at fits
    omega
  have payloads : (chunks.flatMap DiskPayload.layout).length = chunks.length * 32 := by
    rw [length_flatMap fun p _ => length_payload_layout p, Nat.mul_comm]
  have there : 32 * chunks.length ≤ (chunks.flatMap DiskPayload.layout ++
      (optionalLayout tail ++ optionalLayout privateState)).length := by
    rw [List.length_append]
    omega
  have most : chunks.length ≤ maxReferences - plan.references := by omega
  have head : (leBytes 4 d.id.toUInt64 ++ (leBytes 4 d.layoutVersion.toUInt64 ++
      (leBytes 1 d.kind.toUInt64 ++ (leBytes 8 d.rowBytes ++ (leBytes 8 d.rowsPerChunk ++
        (leBytes 8 d.stateBytes ++ leBytes 8 position.validRows)))))).length = 41 := by
    simp
  have regroup : DiskComponent.layout ⟨d, position, chunks, tail, privateState⟩ =
      (leBytes 4 d.id.toUInt64 ++ (leBytes 4 d.layoutVersion.toUInt64 ++
        (leBytes 1 d.kind.toUInt64 ++ (leBytes 8 d.rowBytes ++ (leBytes 8 d.rowsPerChunk ++
          (leBytes 8 d.stateBytes ++ leBytes 8 position.validRows)))))) ++
        (leBytes 4 chunks.length.toUInt64 ++ (chunks.flatMap DiskPayload.layout ++
          (optionalLayout tail ++ optionalLayout privateState))) := by
    simp [DiskComponent.layout]
  have last := reads_bind (@plan_optionalPayload tail
    ⟨plan.retained + chunks.length * sizes.payload, plan.references + chunks.length⟩
    (by dsimp only; omega)) (plan_optionalPayload privateState (by dsimp only; omega))
  simp only [Nat.add_assoc] at last ⊢
  rw [regroup]
  exact reads_bind (reads_skip head) <| reads_count small most (by decide) there <|
    reads_bind (reads_skip payloads) last

theorem plan_components (sizes : Layouts) (cs : List DiskComponent) {plan : MetadataPlan}
    (fits : plan.references + references cs ≤ maxReferences) :
    Reads (Plan.components sizes cs.length plan) (cs.flatMap DiskComponent.layout)
      ⟨plan.retained + chunkBytes sizes cs, plan.references + references cs⟩ := by
  induction cs generalizing plan with
  | nil => exact reads_pure plan
  | cons c rest ih =>
    simp only [references, chunkBytes, List.map_cons, List.sum_cons, ← Nat.add_assoc] at fits ih ⊢
    exact reads_bind (plan_component sizes c (by omega)) (ih fits)

/-- `PlanMetadata` refuses no encoded manifest, and plans what decoding it reserves. -/
theorem planMetadata_layout (sizes : Layouts) (folding : Bool) {m : DiskManifest}
    (h : validate m = some ()) :
    planMetadata sizes (m.layout ++ leBytes 8 (diskChecksum folding m.layout 0)) =
      some ⟨m.retained sizes, references m.components⟩ := by
  have sized := sized_of_validate h
  have input := sized.input
  have tokens := sized.tokens
  have components := sized.components
  unfold maxInputBytes at input
  unfold maxTokens at tokens
  unfold maxComponents at components
  have tokenBytes : (m.tokens.flatMap fun t => leBytes 4 t.toUInt64).length =
      m.tokens.length * 4 := by
    rw [length_flatMap fun t _ => length_leBytes 4 _, Nat.mul_comm]
  have tokensThere : 4 * m.tokens.length ≤ (m.tokens.flatMap (fun t => leBytes 4 t.toUInt64) ++
      (leBytes 4 m.components.length.toUInt64 ++
        m.components.flatMap DiskComponent.layout)).length := by
    rw [List.length_append]
    omega
  have componentsThere :
      47 * m.components.length ≤ (m.components.flatMap DiskComponent.layout).length := by
    rw [length_components_layout]
    omega
  have head : (magic ++ (leBytes 4 diskFormatVersion ++ (leBytes 8 m.checkpoint ++
      (leBytes 8 m.lineage ++ (m.compatibility.toList ++ (leBytes 1 m.purpose.toUInt64 ++
        leBytes 4 m.rank.toUInt64)))))).length = 65 := by
    simp [magic]
  have regroup : m.layout = (magic ++ (leBytes 4 diskFormatVersion ++ (leBytes 8 m.checkpoint ++
      (leBytes 8 m.lineage ++ (m.compatibility.toList ++ (leBytes 1 m.purpose.toUInt64 ++
        leBytes 4 m.rank.toUInt64)))))) ++ (leBytes 4 m.input.length.toUInt64 ++ (m.input ++
          (leBytes 4 m.tokens.length.toUInt64 ++ (m.tokens.flatMap (fun t => leBytes 4 t.toUInt64) ++
            (leBytes 4 m.components.length.toUInt64 ++
              m.components.flatMap DiskComponent.layout))))) := by
    simp [DiskManifest.layout]
  have walked := @plan_components sizes m.components
    ⟨m.input.length + m.tokens.length * 4 + m.components.length * sizes.component, 0⟩
    (by simpa using sized.references)
  rw [Nat.zero_add] at walked
  have body : Reads (Plan.manifest sizes) m.layout
      ⟨m.retained sizes, references m.components⟩ := by
    rw [regroup]
    exact reads_bind (reads_skip head) <|
      reads_count (by omega) sized.input (by decide) (by simp only [List.length_append]; omega) <|
      reads_bind (reads_blob _) <|
      reads_count (by omega) sized.tokens (by decide) tokensThere <|
      reads_bind (reads_skip tokenBytes) <|
      reads_count (by omega) sized.components (by decide) componentsThere walked
  have fits := sized.fits
  have atLeast := length_manifest_layout m
  unfold maxManifestBytes at fits
  have inside : ¬(m.layout.length + 8 < 20 ∨ maxManifestBytes < m.layout.length + 8) := by
    unfold maxManifestBytes
    omega
  have run := body []
  simp only [List.append_nil] at run
  simp [planMetadata, invalidIf, inside, run]

theorem valid_of_encoded {folding : Bool} {m : DiskManifest} {bytes : List UInt8}
    (h : encodeManifest folding m = some bytes) : validate m = some () := by
  unfold encodeManifest at h
  cases checked : validate m with
  | none => simp [checked] at h
  | some u => rfl

/-- The encoded manifest of any valid one can be planned and decoded again. -/
theorem reads_encoded (sizes : Layouts) (folding : Bool) {m : DiskManifest} {bytes : List UInt8}
    (h : encodeManifest folding m = some bytes) :
    (∃ plan, planMetadata sizes bytes = some plan) ∧ decodeManifest folding bytes = some m := by
  have valid := valid_of_encoded h
  rw [encodeManifest_eq folding valid, Option.some.injEq] at h
  exact h ▸ ⟨⟨_, planMetadata_layout sizes folding valid⟩, decodeManifest_layout folding valid⟩

/-! ## Any bytes -/

section
variable {sizes : Layouts} {plan next : MetadataPlan} {bytes rest : List UInt8}

theorem left_blob {n : Nat} {b : List UInt8} (h : Reader.blob n bytes = some (b, rest)) :
    rest.length + n = bytes.length := by
  obtain ⟨length, eq⟩ := of_blob h
  rw [eq, List.length_append, length, Nat.add_comm]

theorem left_number {width : Nat} {n : UInt64} (h : Reader.number width bytes = some (n, rest)) :
    rest.length + width = bytes.length := by
  obtain ⟨b, mid, blob, done⟩ := of_bind h
  obtain ⟨-, rfl⟩ := of_pure done
  exact left_blob blob

theorem left_count {max width n : Nat} (h : Reader.count max width bytes = some (n, rest)) :
    rest.length + 4 = bytes.length := by
  rw [(of_count h).1, List.length_append, length_leBytes, Nat.add_comm]

theorem left_optionalPayload (h : Plan.optionalPayload plan bytes = some (next, rest)) :
    rest.length < bytes.length ∧ next.retained = plan.retained := by
  obtain ⟨present, mid, number, h⟩ := of_bind h
  have byte := left_number number
  split at h
  · exact absurd h of_failure
  · split at h
    · obtain ⟨rfl, rfl⟩ := of_pure h
      exact ⟨by omega, rfl⟩
    · split at h
      · exact absurd h of_failure
      · obtain ⟨_, _, blob, done⟩ := of_bind h
        obtain ⟨rfl, rfl⟩ := of_pure done
        have payload := left_blob blob
        exact ⟨by omega, rfl⟩

/-- A component takes bytes, and an entry for a chunk no more of them than it stands for. -/
theorem left_component (h : Plan.component sizes plan bytes = some (next, rest)) :
    rest.length < bytes.length ∧
      next.retained + sizes.payload * rest.length ≤
        plan.retained + sizes.payload * bytes.length := by
  obtain ⟨_, _, fixed, h⟩ := of_bind h
  obtain ⟨chunks, _, count, h⟩ := of_bind h
  obtain ⟨_, _, payloads, h⟩ := of_bind h
  obtain ⟨_, _, tail, privateState⟩ := of_bind h
  have fixed := left_blob fixed
  have count := left_count count
  have payloads := left_blob payloads
  obtain ⟨left, same⟩ := left_optionalPayload tail
  obtain ⟨left', same'⟩ := left_optionalPayload privateState
  have spent : chunks + rest.length ≤ bytes.length := by omega
  have scaled := Nat.mul_le_mul_left sizes.payload spent
  rw [Nat.mul_add, Nat.mul_comm _ chunks] at scaled
  rw [same', same]
  exact ⟨by omega, by dsimp only; omega⟩

theorem left_components {n : Nat} (h : Plan.components sizes n plan bytes = some (next, rest)) :
    n + rest.length ≤ bytes.length ∧
      next.retained + sizes.payload * rest.length ≤
        plan.retained + sizes.payload * bytes.length := by
  induction n generalizing plan bytes with
  | zero =>
    obtain ⟨rfl, rfl⟩ := of_pure h
    simp
  | succ n ih =>
    obtain ⟨_, _, first, others⟩ := of_bind h
    have first := left_component first
    have others := ih others
    omega

/-- The plan of any byte string stays within a fixed multiple of its length. -/
theorem planMetadata_retained (h : planMetadata sizes bytes = some plan) :
    plan.retained ≤ (1 + sizes.component + sizes.payload) * bytes.length := by
  obtain ⟨_, _, h⟩ := of_option_bind h
  obtain ⟨⟨plan, rest⟩, walk, h⟩ := of_option_bind h
  obtain ⟨_, _, done⟩ := of_option_bind h
  simp only [pure, Option.some.injEq] at done
  subst done
  obtain ⟨_, _, fixed, h⟩ := of_bind walk
  obtain ⟨input, _, inputCount, h⟩ := of_bind h
  obtain ⟨_, _, inputBytes, h⟩ := of_bind h
  obtain ⟨tokens, _, tokenCount, h⟩ := of_bind h
  obtain ⟨_, _, tokenBytes, h⟩ := of_bind h
  obtain ⟨components, left, componentCount, h⟩ := of_bind h
  have fixed := left_blob fixed
  have inputCount := left_count inputCount
  have inputBytes := left_blob inputBytes
  have tokenCount := left_count tokenCount
  have tokenBytes := left_blob tokenBytes
  have componentCount := left_count componentCount
  obtain ⟨few, retained⟩ := left_components h
  rw [List.length_take] at fixed
  have entries := Nat.mul_le_mul_right sizes.component (show components ≤ bytes.length by omega)
  have chunks := Nat.mul_le_mul_left sizes.payload (show left.length ≤ bytes.length by omega)
  rw [Nat.add_mul, Nat.add_mul, Nat.one_mul, Nat.mul_comm sizes.component]
  dsimp only at retained ⊢
  omega

end

/-- **The planner agrees with the decoder**: it plans exactly what decoding an accepted byte
string reserves, and plans no byte string beyond a fixed multiple of its length. -/
theorem planMetadata_exact (sizes : Layouts) (folding : Bool) (bytes : List UInt8) :
    (∀ m, decodeManifest folding bytes = some m →
      planMetadata sizes bytes = some ⟨m.retained sizes, references m.components⟩) ∧
    ∀ plan, planMetadata sizes bytes = some plan →
      plan.retained ≤ (1 + sizes.component + sizes.payload) * bytes.length := by
  constructor
  · intro m accepted
    obtain ⟨valid, rfl⟩ := of_decodeManifest accepted
    exact planMetadata_layout sizes folding valid
  · intro plan planned
    exact planMetadata_retained planned

theorem planMetadata_sampleManifest : ∃ bytes, decodeManifest true bytes = some sampleManifest ∧
    planMetadata ⟨160, 32⟩ bytes = some ⟨398, 4⟩ ∧ 398 ≤ 193 * bytes.length := by
  obtain ⟨bytes, accepted⟩ : ∃ bytes, decodeManifest true bytes = some sampleManifest :=
    ⟨_, decodeManifest_layout true (by decide)⟩
  obtain ⟨exact, bounded⟩ := planMetadata_exact ⟨160, 32⟩ true bytes
  have planned := exact sampleManifest accepted
  exact ⟨bytes, accepted, planned, bounded _ planned⟩

end Gufo.Disk
