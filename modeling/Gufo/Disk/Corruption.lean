import Gufo.Disk.Crc
import Gufo.Disk.RoundTrip

/-!
# Damaged manifests

Bytes that differ inside one register leave different remainders. A manifest damaged there,
or in its checksum, is refused.
-/

namespace Gufo.Disk
open Gufo.Carryless
open Gufo.Wire (assemble_leBytes leBytes length_leBytes)

/-- Leading zeros add nothing. -/
theorem message_zeros (n : Nat) (l : List UInt8) : message (List.replicate n 0 ++ l) = message l := by
  have zeros : message (List.replicate n 0) = 0#64 := by
    induction n with
    | zero => rfl
    | succ n ih =>
      rw [List.replicate_succ', message_append, ih]
      simp [message, value, combine]
  rw [message_append, zeros]
  simp

theorem eq_bytesOf {l : List UInt8} (eight : l.length = 8) : ∃ v : BitVec 64, l = bytesOf v 8 := by
  rcases l with _ | ⟨b0, _ | ⟨b1, _ | ⟨b2, _ | ⟨b3, _ | ⟨b4, _ | ⟨b5, _ | ⟨b6, _ | ⟨b7, _ | ⟨_, _⟩⟩⟩⟩⟩⟩⟩⟩⟩
  all_goals try simp at eight
  exact ⟨_, (bytesOf_bigEndian b0 b1 b2 b3 b4 b5 b6 b7).symm⟩

theorem message_injective {l m : List UInt8} (same : l.length = m.length) (short : l.length ≤ 8)
    (eq : message l = message m) : l = m := by
  obtain ⟨u, left⟩ := @eq_bytesOf (List.replicate (8 - l.length) 0 ++ l) (by simp; omega)
  obtain ⟨v, right⟩ := @eq_bytesOf (List.replicate (8 - l.length) 0 ++ m) (by simp; omega)
  rw [← message_zeros (8 - l.length) l, ← message_zeros (8 - l.length) m, left, right,
    message_word, message_word] at eq
  rw [eq, ← right] at left
  exact List.append_cancel_left left

theorem iterate_injective (k : Nat) : Function.Injective (mulX modulus)^[k] :=
  (mulX_injective (by decide)).iterate k

theorem remainder_injective (bytes : List UInt8) : Function.Injective (remainder bytes) := by
  intro a b same
  simp only [remainder, BitVec.xor_left_inj] at same
  exact iterate_injective _ same

theorem word_of_leBytes {n k : UInt64} (same : leBytes 8 n = leBytes 8 k) : n = k := by
  have word : ∀ v : UInt64, v.toNat < 256 ^ 8 := fun v => v.toNat_lt
  rw [← assemble_leBytes (le_refl 8) (word n), same, assemble_leBytes (le_refl 8) (word k)]

/-- Bytes that differ inside eight consecutive ones have different checksums. -/
theorem diskChecksum_burst {l m : List UInt8} (same : l.length = m.length) (short : l.length ≤ 8)
    (differ : l ≠ m) (before after : List UInt8) (crc : UInt64) (first second : Bool) :
    diskChecksum first (before ++ l ++ after) crc ≠
      diskChecksum second (before ++ m ++ after) crc := by
  intro eq
  rw [← UInt64.toBitVec_inj, diskChecksum_toBitVec, diskChecksum_toBitVec, remainder_append,
    remainder_append, remainder_append _ after, remainder_append before] at eq
  have middle := remainder_injective after eq
  simp only [remainder, same, BitVec.xor_right_inj] at middle
  exact differ (message_injective same short (iterate_injective 64 middle))

variable {m : DiskManifest}

/-- **Local damage is found**: a manifest that differs from an accepted one inside eight
consecutive bytes, all of them before the checksum or all in it, is refused. -/
theorem decodeManifest_corrupted {folding folding' : Bool} {before l l' after : List UInt8}
    (accepted : decodeManifest folding (before ++ l ++ after) = some m)
    (same : l.length = l'.length) (differ : l ≠ l')
    (place : l.length ≤ 8 ∧ 8 ≤ after.length ∨ l.length + after.length ≤ 8) :
    decodeManifest folding' (before ++ l' ++ after) = none := by
  by_contra other
  obtain ⟨m', accepted'⟩ := Option.ne_none_iff_exists'.mp other
  obtain ⟨-, eq⟩ := of_decodeManifest accepted
  obtain ⟨-, eq'⟩ := of_decodeManifest accepted'
  have size := congrArg List.length eq
  have size' := congrArg List.length eq'
  simp only [List.length_append, length_leBytes] at size size'
  rcases place with ⟨short, outside⟩ | inside
  · -- both files end with the same eight bytes
    obtain ⟨rest, trailer, rfl, eight⟩ :
        ∃ rest trailer, after = rest ++ trailer ∧ trailer.length = 8 :=
      ⟨_, _, (List.take_append_drop (after.length - 8) after).symm, by simp; omega⟩
    rw [← List.append_assoc] at eq eq'
    obtain ⟨front, back⟩ := List.append_inj' eq (by simp [eight])
    obtain ⟨front', back'⟩ := List.append_inj' eq' (by simp [eight])
    apply diskChecksum_burst same short differ before rest 0 folding folding'
    rw [front, front']
    exact word_of_leBytes (back.symm.trans back')
  · -- both files begin with the same layout
    obtain ⟨layout, first, rfl, length⟩ :
        ∃ layout first, before = layout ++ first ∧ layout.length = m.layout.length :=
      ⟨_, _, (List.take_append_drop m.layout.length before).symm, by simp; omega⟩
    simp only [List.append_assoc] at eq eq'
    obtain ⟨front, back⟩ := List.append_inj eq length
    obtain ⟨front', back'⟩ := List.append_inj eq' (by omega)
    have checksum : diskChecksum folding m.layout 0 = diskChecksum folding' m'.layout 0 := by
      rw [← UInt64.toBitVec_inj, diskChecksum_toBitVec, diskChecksum_toBitVec, ← front, front']
    rw [checksum, ← back', List.append_cancel_left_eq] at back
    exact differ (List.append_inj_left back same)

theorem sampleManifest_corrupted : decodeManifest false (sampleManifest.layout.take 40 ++ [255] ++
    (sampleManifest.layout.drop 41 ++ leBytes 8 (diskChecksum true sampleManifest.layout 0))) =
      none := by
  apply decodeManifest_corrupted (m := sampleManifest) (l := [9])
  · exact decodeManifest_layout true (by decide)
  · rfl
  · decide
  · exact .inl ⟨by decide, by simp⟩

end Gufo.Disk
