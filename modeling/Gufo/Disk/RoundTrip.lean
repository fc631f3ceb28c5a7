import Gufo.Disk.Codec

/-!
# The codec is a bijection

The encoder writes the layout of every valid manifest: the count limits keep it
well below the size limit. The decoder reads a layout back, and what it reads is
one.
-/

namespace Gufo.Disk
open Gufo.Wire

/-! ## What the check promises -/

theorem of_invalidIf {c : Prop} [Decidable c] (h : invalidIf c = some ()) : ¬c := by
  intro hc
  simp [invalidIf, hc] at h

theorem of_option_bind {α β : Type} {x : Option α} {f : α → Option β} {b : β}
    (h : x >>= f = some b) : ∃ a, x = some a ∧ f a = some b := Option.bind_eq_some_iff.mp h

/-- References of a list of components. -/
def references (cs : List DiskComponent) : Nat := (cs.map DiskComponent.references).sum

variable {m : DiskManifest} {c : DiskComponent}

theorem of_validateComponent {v w : Validation}
    (h : validateComponent m v c = some w) :
    c.position.id = c.descriptor.id ∧ w.references = v.references + c.references ∧
      w.references ≤ maxReferences := by
  obtain ⟨_, position, h⟩ := of_option_bind h
  obtain ⟨_, counted, h⟩ := of_option_bind h
  obtain ⟨_, _, h⟩ := of_option_bind h
  obtain ⟨_, _, h⟩ := of_option_bind h
  obtain ⟨_, _, h⟩ := of_option_bind h
  have position := of_invalidIf position
  have counted := of_invalidIf counted
  simp only [pure, Option.some.injEq] at h
  subst h
  simp only [not_or, not_not] at position
  exact ⟨position.1, rfl, by simpa using counted⟩

variable {cs : List DiskComponent}

theorem of_validateComponents {v w : Validation}
    (start : v.references ≤ maxReferences) (h : cs.foldlM (validateComponent m) v = some w) :
    (∀ c ∈ cs, c.position.id = c.descriptor.id) ∧
      v.references + references cs ≤ maxReferences := by
  induction cs generalizing v with
  | nil => simpa [references] using start
  | cons c rest ih =>
    obtain ⟨u, first, h⟩ := of_option_bind h
    obtain ⟨position, counted, bound⟩ := of_validateComponent first
    obtain ⟨positions, total⟩ := ih bound h
    refine ⟨by simpa [position] using positions, ?_⟩
    simp only [references, List.map_cons, List.sum_cons] at total ⊢
    omega

/-- The limits and the shape a valid manifest has. -/
structure Sized (m : DiskManifest) : Prop where
  tokens : m.tokens.length ≤ maxTokens
  input : m.input.length ≤ maxInputBytes
  components : m.components.length ≤ maxComponents
  references : references m.components ≤ maxReferences
  positions : ∀ c ∈ m.components, c.position.id = c.descriptor.id

theorem sized_of_validate (h : validate m = some ()) : Sized m := by
  obtain ⟨_, fixed, h⟩ := of_option_bind h
  obtain ⟨v, loop, _⟩ := of_option_bind h
  have fixed := of_invalidIf fixed
  simp only [not_or, Nat.not_lt, gt_iff_lt] at fixed
  obtain ⟨positions, total⟩ := of_validateComponents (by simp) loop
  exact ⟨fixed.2.2.1, fixed.2.2.2.1, fixed.2.2.2.2.2.1, by simpa using total, positions⟩

/-! ## Sizes -/

@[simp] theorem length_payload_layout (p : DiskPayload) : p.layout.length = 32 := by
  simp [DiskPayload.layout]

theorem length_optionalLayout (p : Option DiskPayload) :
    (optionalLayout p).length = 1 + 32 * (if p.isSome then 1 else 0) := by
  cases p <;> simp [optionalLayout]

variable {n : Nat}

theorem length_flatMap {α : Type} {f : α → List UInt8} {l : List α}
    (h : ∀ a ∈ l, (f a).length = n) : (l.flatMap f).length = n * l.length := by
  induction l with
  | nil => simp
  | cons a rest ih =>
    have head := h a (by simp)
    have tail := ih fun b hb => h b (by simp [hb])
    simp only [List.flatMap_cons, List.length_append, List.length_cons, head, tail]
    ring

theorem length_component_layout (c : DiskComponent) :
    c.layout.length = 47 + 32 * c.references := by
  have chunks : (c.chunks.flatMap DiskPayload.layout).length = 32 * c.chunks.length :=
    length_flatMap fun p _ => length_payload_layout p
  simp only [DiskComponent.layout, List.length_append, length_leBytes, chunks,
    length_optionalLayout, DiskComponent.references]
  omega

theorem length_components_layout (cs : List DiskComponent) :
    (cs.flatMap DiskComponent.layout).length = 47 * cs.length + 32 * references cs := by
  induction cs with
  | nil => simp [references]
  | cons c rest ih =>
    simp only [List.flatMap_cons, List.length_append, length_component_layout, ih, references,
      List.map_cons, List.sum_cons, List.length_cons]
    omega

theorem length_manifest_layout (m : DiskManifest) :
    m.layout.length = 77 + m.input.length + 4 * m.tokens.length + 47 * m.components.length +
      32 * references m.components := by
  have tokens : (m.tokens.flatMap fun t => leBytes 4 t.toUInt64).length = 4 * m.tokens.length :=
    length_flatMap fun t _ => length_leBytes 4 _
  simp only [DiskManifest.layout, List.length_append, length_leBytes, tokens,
    length_components_layout, Vector.length_toList]
  have start : magic.length = 8 := rfl
  omega

/-- The count limits leave more than five megabytes below the size limit. -/
theorem Sized.fits (h : Sized m) :
    m.layout.length ≤ maxManifestBytes - 8 := by
  have tokens := h.tokens
  have input := h.input
  have components := h.components
  have references := h.references
  rw [length_manifest_layout]
  unfold maxTokens at tokens
  unfold maxInputBytes at input
  unfold maxComponents at components
  unfold maxReferences at references
  unfold maxManifestBytes
  omega

/-! ## The encoder writes the layout -/

abbrev Puts (w : Stream Unit) (l : List UInt8) : Prop := Writes (maxManifestBytes - 8) w l

theorem puts_number (n : UInt64) (width : Nat) :
    Puts (Writer.number n width) (leBytes width n) := by
  intro bytes fits
  rw [length_leBytes] at fits
  simp only [Writer.number]
  rw [if_neg (by omega)]

theorem puts_blob (b : List UInt8) : Puts (Writer.blob b) b := by
  intro bytes fits
  simp only [Writer.blob]
  rw [if_neg (by omega)]

theorem puts_payload (p : DiskPayload) : Puts (Writer.payload p) p.layout :=
  writes_bind (puts_blob _) (writes_bind (puts_number _ _) (puts_number _ _))

theorem puts_optionalPayload (p : Option DiskPayload) :
    Puts (Writer.optionalPayload p) (optionalLayout p) := by
  apply writes_bind (puts_number _ _)
  cases p with
  | none =>
    intro bytes _
    exact congrArg (fun l => some ((), l)) (List.append_nil bytes).symm
  | some p => exact puts_payload p

theorem puts_component (c : DiskComponent) : Puts (Writer.component c) c.layout :=
  writes_bind (puts_number _ _) <| writes_bind (puts_number _ _) <|
  writes_bind (puts_number _ _) <| writes_bind (puts_number _ _) <|
  writes_bind (puts_number _ _) <| writes_bind (puts_number _ _) <|
  writes_bind (puts_number _ _) <| writes_bind (puts_number _ _) <|
  writes_bind (writes_forM fun p _ => puts_payload p) <|
  writes_bind (puts_optionalPayload _) (puts_optionalPayload _)

theorem puts_manifest (m : DiskManifest) : Puts (Writer.manifest m) m.layout :=
  writes_bind (puts_blob _) <| writes_bind (puts_number _ _) <|
  writes_bind (puts_number _ _) <| writes_bind (puts_number _ _) <|
  writes_bind (puts_blob _) <| writes_bind (puts_number _ _) <|
  writes_bind (puts_number _ _) <| writes_bind (puts_number _ _) <|
  writes_bind (puts_blob _) <| writes_bind (puts_number _ _) <|
  writes_bind (writes_forM fun t _ => puts_number t.toUInt64 4) <|
  writes_bind (puts_number _ _) (writes_forM fun c _ => puts_component c)

theorem encodeManifest_eq (folding : Bool) (h : validate m = some ()) :
    encodeManifest folding m =
      some (m.layout ++ leBytes 8 (diskChecksum folding m.layout 0)) := by
  have written := puts_manifest m [] (by simpa using (sized_of_validate h).fits)
  simp [encodeManifest, h, written]

/-! ## The decoder reads the layout -/

theorem reads_blob (b : List UInt8) : Reads (Reader.blob b.length) b b := reads_takeBytes b

theorem reads_number {width : Nat} {n : UInt64} (word : width ≤ 8) (fits : n.toNat < 256 ^ width) :
    Reads (Reader.number width) (leBytes width n) n := reads_takeWord word fits

theorem reads_word (n : UInt64) : Reads (Reader.number 8) (leBytes 8 n) n :=
  reads_number (by decide) n.toNat_lt

theorem reads_word32 (n : UInt32) : Reads (Reader.number 4) (leBytes 4 n.toUInt64) n.toUInt64 :=
  reads_number (by decide) (by simpa using n.toNat_lt)

theorem reads_byte (n : UInt8) : Reads (Reader.number 1) (leBytes 1 n.toUInt64) n.toUInt64 :=
  reads_number (by decide) (by simpa using n.toNat_lt)

theorem reads_array (v : Vector UInt8 n) : Reads (Reader.array n) v.toList v := by
  intro rest
  have length := v.length_toList
  simp only [Reader.array, List.length_append, length]
  rw [dif_pos (by omega)]
  simp only [List.take_left' length, List.drop_left' length]
  rfl

theorem toNat_length (h : n < 2 ^ 32) : n.toUInt64.toNat = n := by
  simp [Nat.toUInt64]
  omega

/-- A count is read if it is within its maximum and its elements are there. -/
theorem reads_count {α : Type} {f : Nat → Stream α} {n max width : Nat} {l : List UInt8} {a : α}
    (small : n < 2 ^ 32) (most : n ≤ max) (positive : 0 < width) (there : width * n ≤ l.length)
    (body : Reads (f n) l a) :
    Reads (Reader.count max width >>= f) (leBytes 4 n.toUInt64 ++ l) a := by
  intro rest
  have number := @reads_number 4 n.toUInt64 (by decide)
    (by rw [toNat_length small]; exact small) (l ++ rest)
  have enough : n ≤ (l ++ rest).length / width := by
    rw [Nat.le_div_iff_mul_le positive, Nat.mul_comm, List.length_append]
    omega
  have passed : ¬(n > max ∨ n > (l ++ rest).length / width) := by omega
  simp only [Reader.count, bind, StateT.bind, List.append_assoc, number, Option.bind_some,
    Reader.bounded, toNat_length small, if_neg passed]
  exact body rest

theorem reads_payload (p : DiskPayload) : Reads Reader.payload p.layout p :=
  reads_bind (reads_array p.file) <| reads_bind (reads_word p.bytes) <|
    reads_return (reads_word p.checksum) fun checksum =>
      (⟨p.file, p.bytes, checksum⟩ : DiskPayload)

theorem reads_optionalPayload (p : Option DiskPayload) {references : Nat}
    (fits : references + (if p.isSome then 1 else 0) ≤ maxReferences) :
    Reads (Reader.optionalPayload references) (optionalLayout p)
      (p, references + (if p.isSome then 1 else 0)) := by
  cases p with
  | none => exact reads_bind (reads_byte 0) (reads_pure _)
  | some p =>
    have room : ¬references + 1 > maxReferences := by simpa using fits
    apply reads_bind (reads_byte 1)
    have body := reads_return (reads_payload p) fun p => (some p, references + 1)
    intro rest
    have run := body rest
    simpa [room] using run

theorem reads_chunks (chunks : List DiskPayload) :
    Reads (many Reader.payload chunks.length) (chunks.flatMap DiskPayload.layout) chunks :=
  reads_many fun p _ => reads_payload p

theorem reads_component {references : Nat}
    (position : c.position.id = c.descriptor.id)
    (fits : references + c.references ≤ maxReferences) :
    Reads (Reader.component references) c.layout (c, references + c.references) := by
  obtain ⟨d, ⟨id, validRows⟩, chunks, tail, privateState⟩ := c
  simp only at position
  subst position
  simp only [DiskComponent.references] at fits
  have small : chunks.length < 2 ^ 32 := by
    unfold maxReferences at fits
    omega
  have there : 32 * chunks.length ≤ (chunks.flatMap DiskPayload.layout ++
      (optionalLayout tail ++ optionalLayout privateState)).length := by
    rw [List.length_append, length_flatMap fun p _ => length_payload_layout p]
    omega
  have most : chunks.length ≤ maxReferences - references := by omega
  have room : references + chunks.length + (if tail.isSome then 1 else 0) ≤ maxReferences := by
    omega
  refine reads_bind (reads_word32 _) <| reads_bind (reads_word32 _) <|
    reads_bind (reads_byte _) <| reads_bind (reads_word _) <| reads_bind (reads_word _) <|
    reads_bind (reads_word _) <| reads_bind (reads_word _) <|
    reads_count small most (by decide) there <| reads_bind (reads_chunks chunks) <|
    reads_bind (reads_optionalPayload tail room) ?_
  have last := reads_return (@reads_optionalPayload privateState
    (references + chunks.length + if tail.isSome then 1 else 0) (by omega))
    fun last => ((⟨d, ⟨d.id, validRows⟩, chunks, tail, last.1⟩ : DiskComponent), last.2)
  simpa [DiskComponent.references, Nat.add_assoc] using last

theorem reads_components {used : Nat}
    (positions : ∀ c ∈ cs, c.position.id = c.descriptor.id)
    (fits : used + references cs ≤ maxReferences) :
    Reads (Reader.components cs.length used) (cs.flatMap DiskComponent.layout) cs := by
  induction cs generalizing used with
  | nil => exact reads_pure []
  | cons c rest ih =>
    simp only [references, List.map_cons, List.sum_cons] at fits
    have tail := @ih (used + c.references) (fun b hb => positions b (by simp [hb]))
      (by simp only [references]; omega)
    exact reads_bind (reads_component (positions c (by simp)) (by omega))
      (reads_return tail fun rest => c :: rest)

theorem reads_token (t : Token) : Reads Reader.token (leBytes 4 t.toUInt64) t := by
  have word := reads_return (reads_word32 t) UInt64.toUInt32
  rwa [UInt32.toUInt32_toUInt64] at word

theorem reads_manifest (h : Sized m) : Reads Reader.manifest m.layout m := by
  have input := h.input
  have tokens := h.tokens
  have components := h.components
  unfold maxInputBytes at input
  unfold maxTokens at tokens
  unfold maxComponents at components
  have tokensThere : 4 * m.tokens.length ≤ (m.tokens.flatMap (fun t => leBytes 4 t.toUInt64) ++
      (leBytes 4 m.components.length.toUInt64 ++
        m.components.flatMap DiskComponent.layout)).length := by
    rw [List.length_append, length_flatMap fun t _ => length_leBytes 4 _]
    omega
  have componentsThere :
      47 * m.components.length ≤ (m.components.flatMap DiskComponent.layout).length := by
    rw [length_components_layout]
    omega
  refine reads_bind (reads_blob magic) <| reads_bind (reads_number (by decide) (by decide)) <|
    reads_reject (by simp) <| reads_bind (reads_word _) <| reads_bind (reads_word _) <|
    reads_bind (reads_array _) <| reads_bind (reads_byte _) <| reads_bind (reads_word32 _) <|
    reads_count (by omega) h.input (by decide) (by simp only [List.length_append]; omega) <|
    reads_bind (reads_blob _) <|
    reads_count (by omega) h.tokens (by decide) tokensThere <|
    reads_bind (reads_many fun t _ => reads_token t) <|
    reads_count (by omega) h.components (by decide) componentsThere ?_
  have last := reads_return (@reads_components _ 0 h.positions (by simpa using h.references))
    fun components => (⟨m.checkpoint, m.lineage, m.compatibility, m.input, m.tokens, components,
      m.purpose.toUInt64.toUInt8, m.rank.toUInt64.toUInt32⟩ : DiskManifest)
  simpa using last

theorem decodeManifest_layout (folding : Bool) (h : validate m = some ()) :
    decodeManifest folding (m.layout ++ leBytes 8 (diskChecksum folding m.layout 0)) = some m := by
  have sized := sized_of_validate h
  have fits := sized.fits
  have atLeast := length_manifest_layout m
  unfold maxManifestBytes at fits
  have inside : ¬(m.layout.length + 8 < 20 ∨ maxManifestBytes < m.layout.length + 8) := by
    unfold maxManifestBytes
    omega
  have checksum := reads_word (diskChecksum folding m.layout 0) []
  have body := reads_manifest sized []
  simp only [List.append_nil] at checksum body
  simp [decodeManifest, invalidIf, inside, checksum, body, h]

/-! ## What the decoder reads is a layout -/

theorem of_blob {bytes b rest : List UInt8} (h : Reader.blob n bytes = some (b, rest)) :
    b.length = n ∧ bytes = b ++ rest := of_takeBytes h

variable {bytes rest : List UInt8}

theorem of_number {width : Nat} {n : UInt64} (word : width ≤ 8)
    (h : Reader.number width bytes = some (n, rest)) :
    bytes = leBytes width n ++ rest ∧ n.toNat < 256 ^ width := of_takeWord word h

theorem of_array {v : Vector UInt8 n}
    (h : Reader.array n bytes = some (v, rest)) : bytes = v.toList ++ rest := by
  unfold Reader.array at h
  split at h
  · obtain ⟨rfl, rfl⟩ := h
    simp [Vector.toList]
  · simp at h

theorem of_count {max width n : Nat}
    (h : Reader.count max width bytes = some (n, rest)) :
    bytes = leBytes 4 n.toUInt64 ++ rest ∧ n ≤ max := by
  obtain ⟨word, mid, number, bounded⟩ := of_bind h
  obtain ⟨eq, -⟩ := of_number (by decide) number
  unfold Reader.bounded at bounded
  split at bounded
  · simp at bounded
  · obtain ⟨rfl, rfl⟩ := bounded
    have same : word.toNat.toUInt64 = word := by simp [Nat.toUInt64]
    rw [same]
    exact ⟨eq, by omega⟩

/-- A word read from four bytes is the value of the 32-bit field it is stored in. -/
theorem word32 {n : UInt64} (h : n.toNat < 256 ^ 4) : n.toUInt32.toUInt64 = n := by
  apply UInt64.toNat_inj.mp
  simpa using Nat.mod_eq_of_lt h

theorem byte {n : UInt64} (h : n.toNat < 256 ^ 1) : n.toUInt8.toUInt64 = n := by
  apply UInt64.toNat_inj.mp
  simpa using Nat.mod_eq_of_lt h

theorem of_payload {p : DiskPayload}
    (h : Reader.payload bytes = some (p, rest)) : bytes = p.layout ++ rest := by
  obtain ⟨file, _, readFile, h⟩ := of_bind h
  obtain ⟨size, _, readBytes, h⟩ := of_bind h
  obtain ⟨checksum, _, readChecksum, h⟩ := of_bind h
  obtain ⟨rfl, rfl⟩ := of_pure h
  rw [of_array readFile, (of_number (by decide) readBytes).1,
    (of_number (by decide) readChecksum).1]
  simp [DiskPayload.layout]

theorem of_optionalPayload {used used' : Nat} {p : Option DiskPayload}
    (h : Reader.optionalPayload used bytes = some ((p, used'), rest)) :
    bytes = optionalLayout p ++ rest := by
  obtain ⟨present, mid, number, h⟩ := of_bind h
  obtain ⟨eq, -⟩ := of_number (by decide) number
  split at h
  · exact absurd h of_failure
  · rename_i small
    split at h
    · rename_i zero
      have done := of_pure h
      obtain ⟨⟨rfl, -⟩, rfl⟩ := done
      simpa [optionalLayout, zero] using eq
    · rename_i nonzero
      have one : present = 1 := by
        rw [gt_iff_lt, UInt64.lt_iff_toNat_lt] at small
        have positive : present.toNat ≠ 0 := fun e => nonzero (UInt64.toNat_inj.mp (by simpa using e))
        apply UInt64.toNat_inj.mp
        simp only [UInt64.toNat_one] at small ⊢
        omega
      split at h
      · exact absurd h of_failure
      · obtain ⟨q, _, payload, done⟩ := of_bind h
        obtain ⟨⟨rfl, -⟩, rfl⟩ := done
        rw [eq, one, of_payload payload]
        simp [optionalLayout]

theorem of_component {used used' : Nat}
    (h : Reader.component used bytes = some ((c, used'), rest)) : bytes = c.layout ++ rest := by
  obtain ⟨id, _, readId, h⟩ := of_bind h
  obtain ⟨layoutVersion, _, readVersion, h⟩ := of_bind h
  obtain ⟨kind, _, readKind, h⟩ := of_bind h
  obtain ⟨rowBytes, _, readRowBytes, h⟩ := of_bind h
  obtain ⟨rowsPerChunk, _, readRowsPerChunk, h⟩ := of_bind h
  obtain ⟨stateBytes, _, readStateBytes, h⟩ := of_bind h
  obtain ⟨validRows, _, readValidRows, h⟩ := of_bind h
  obtain ⟨n, _, readCount, h⟩ := of_bind h
  obtain ⟨chunks, _, readChunks, h⟩ := of_bind h
  obtain ⟨⟨tail, _⟩, _, readTail, h⟩ := of_bind h
  obtain ⟨⟨privateState, _⟩, _, readState, h⟩ := of_bind h
  have done := of_pure h
  obtain ⟨⟨rfl, -⟩, rfl⟩ := done
  have id := of_number (by decide) readId
  have version := of_number (by decide) readVersion
  have kind := of_number (by decide) readKind
  have length := of_many of_payload readChunks
  rw [id.1, version.1, kind.1, (of_number (by decide) readRowBytes).1,
    (of_number (by decide) readRowsPerChunk).1, (of_number (by decide) readStateBytes).1,
    (of_number (by decide) readValidRows).1, (of_count readCount).1, length.2,
    of_optionalPayload readTail, of_optionalPayload readState]
  simp [DiskComponent.layout, word32 id.2, word32 version.2, byte kind.2, length.1]

theorem of_components {n used : Nat}
    (h : Reader.components n used bytes = some (cs, rest)) :
    cs.length = n ∧ bytes = cs.flatMap DiskComponent.layout ++ rest := by
  induction n generalizing used bytes cs with
  | zero =>
    obtain ⟨rfl, rfl⟩ := of_pure h
    simp
  | succ n ih =>
    obtain ⟨⟨c, _⟩, _, readComponent, h⟩ := of_bind h
    obtain ⟨tail, _, readTail, h⟩ := of_bind h
    obtain ⟨rfl, rfl⟩ := of_pure h
    obtain ⟨length, eq⟩ := ih readTail
    exact ⟨by simp [length], by rw [of_component readComponent, eq]; simp⟩

theorem of_token {t : Token} (h : Reader.token bytes = some (t, rest)) :
    bytes = leBytes 4 t.toUInt64 ++ rest := by
  obtain ⟨n, _, number, h⟩ := of_bind h
  obtain ⟨rfl, rfl⟩ := of_pure h
  obtain ⟨eq, small⟩ := of_number (by decide) number
  rw [word32 small]
  exact eq

theorem of_manifest
    (h : Reader.manifest bytes = some (m, rest)) : bytes = m.layout ++ rest := by
  obtain ⟨start, _, readMagic, h⟩ := of_bind h
  obtain ⟨version, _, readVersion, h⟩ := of_bind h
  obtain ⟨accepted, body⟩ := of_reject h
  simp only [ne_eq, not_or, not_not] at accepted
  obtain ⟨rfl, rfl⟩ := accepted
  obtain ⟨checkpoint, _, readCheckpoint, body⟩ := of_bind body
  obtain ⟨lineage, _, readLineage, body⟩ := of_bind body
  obtain ⟨compatibility, _, readCompatibility, body⟩ := of_bind body
  obtain ⟨purpose, _, readPurpose, body⟩ := of_bind body
  obtain ⟨rank, _, readRank, body⟩ := of_bind body
  obtain ⟨inputBytes, _, readInputBytes, body⟩ := of_bind body
  obtain ⟨input, _, readInput, body⟩ := of_bind body
  obtain ⟨tokenCount, _, readTokenCount, body⟩ := of_bind body
  obtain ⟨tokens, _, readTokens, body⟩ := of_bind body
  obtain ⟨componentCount, _, readComponentCount, body⟩ := of_bind body
  obtain ⟨components, _, readComponents, body⟩ := of_bind body
  obtain ⟨rfl, rfl⟩ := of_pure body
  have purpose := of_number (by decide) readPurpose
  have rank := of_number (by decide) readRank
  have input := of_blob readInput
  have tokens := of_many of_token readTokens
  have components := of_components readComponents
  rw [(of_blob readMagic).2, (of_number (by decide) readVersion).1,
    (of_number (by decide) readCheckpoint).1, (of_number (by decide) readLineage).1,
    of_array readCompatibility, purpose.1, rank.1, (of_count readInputBytes).1, input.2,
    (of_count readTokenCount).1, tokens.2, (of_count readComponentCount).1, components.2]
  simp [DiskManifest.layout, byte purpose.2, word32 rank.2, input.1, tokens.1, components.1]

theorem of_decodeManifest {folding : Bool} {bytes : List UInt8}
    (h : decodeManifest folding bytes = some m) :
    validate m = some () ∧
      bytes = m.layout ++ leBytes 8 (diskChecksum folding m.layout 0) := by
  obtain ⟨_, size, h⟩ := of_option_bind h
  obtain ⟨⟨checksum, left⟩, trailer, h⟩ := of_option_bind h
  obtain ⟨_, agrees, h⟩ := of_option_bind h
  obtain ⟨⟨m', rest⟩, body, h⟩ := of_option_bind h
  obtain ⟨_, consumed, h⟩ := of_option_bind h
  obtain ⟨_, valid, h⟩ := of_option_bind h
  simp only [pure, Option.some.injEq] at h
  subst h
  have agrees := of_invalidIf agrees
  have consumed := of_invalidIf consumed
  simp only [ne_eq, not_not] at agrees consumed
  subst consumed
  have front := of_manifest body
  simp only [List.append_nil] at front
  have back := (of_number (by decide) trailer).1
  have nothing : left = [] := by
    have length := congrArg List.length back
    simp only [List.length_drop, List.length_append, length_leBytes] at length
    apply List.length_eq_zero_iff.mp
    omega
  refine ⟨valid, ?_⟩
  rw [← front, agrees]
  rw [nothing, List.append_nil] at back
  rw [← back]
  exact (List.take_append_drop _ _).symm

/-- **The codec is a bijection** between valid manifests and accepted byte strings: a valid
manifest is encoded and read back, and an accepted byte string is encoded as it was. -/
theorem codec_bijective (folding : Bool) :
    (∀ m, validate m = some () → ∃ bytes, encodeManifest folding m = some bytes ∧
      decodeManifest folding bytes = some m) ∧
    (∀ bytes m, decodeManifest folding bytes = some m →
      encodeManifest folding m = some bytes) := by
  constructor
  · intro m valid
    exact ⟨_, encodeManifest_eq folding valid, decodeManifest_layout folding valid⟩
  · intro bytes m accepted
    obtain ⟨valid, eq⟩ := of_decodeManifest accepted
    rw [encodeManifest_eq folding valid, ← eq]

/-- Three tokens, two full chunks, a tail of one row and a private state. -/
def sampleManifest : DiskManifest where
  checkpoint := 7
  lineage := 3
  compatibility := Vector.replicate 32 9
  input := [1, 2]
  tokens := [10, 11, 12]
  components := [
    ⟨⟨1, 1, .appendRows, 16, 2, 0⟩, ⟨1, 5⟩,
      [⟨Vector.replicate 16 1, 32, 100⟩, ⟨Vector.replicate 16 2, 32, 101⟩],
      some ⟨Vector.replicate 16 3, 16, 102⟩, none⟩,
    ⟨⟨2, 1, .privateState, 0, 0, 64⟩, ⟨2, 3⟩, [], none,
      some ⟨Vector.replicate 16 4, 64, 103⟩⟩]
  purpose := .generated
  rank := 4

theorem codec_sampleManifest : ∃ bytes, encodeManifest true sampleManifest = some bytes ∧
    decodeManifest true bytes = some sampleManifest :=
  (codec_bijective true).1 sampleManifest (by decide)

end Gufo.Disk
