import Gufo.Disk.Checksum
import Gufo.Lib.Carryless

/-!
# One checksum on every path

The checksum is the bitwise CRC-64/ECMA-182, whether eight tables or carry-less products
compute it. All of them are one polynomial: the remainder of the seed and the message.
-/

open Gufo.Carryless

namespace Gufo.Disk

/-- The polynomial without its leading term. -/
abbrev modulus : BitVec 64 := ecma.toBitVec

/-! ## The bitwise checksum -/

/-- One message bit, the polynomial division of the standard. -/
def crcBit (crc : UInt64) (bit : Bool) : UInt64 :=
  (crc <<< 1) ^^^ (if decide (crc >>> 63 ≠ 0) ^^ bit then ecma else 0)

/-- The bits of a byte, the most significant first. -/
def byteBits (b : UInt8) : List Bool := (List.range 8).map fun i => b.toBitVec.getLsbD (8 - 1 - i)

/-- CRC-64/ECMA-182 bit by bit, without a final complement. -/
def checksumBitwise (bytes : List UInt8) (crc : UInt64) : UInt64 :=
  (bytes.flatMap byteBits).foldl crcBit crc

/-! ## The message -/

/-- The polynomial of some bytes, the first most significant. -/
def message (bytes : List UInt8) : BitVec 64 :=
  bytes.foldl (fun sum b => (mulX modulus)^[8] sum ^^^ value modulus b.toBitVec) 0

/-- The remainder after some bytes. -/
def remainder (bytes : List UInt8) (crc : BitVec 64) : BitVec 64 :=
  (mulX modulus)^[8 * bytes.length] crc ^^^ (mulX modulus)^[64] (message bytes)

theorem message_foldl (bytes : List UInt8) (sum : BitVec 64) :
    bytes.foldl (fun sum b => (mulX modulus)^[8] sum ^^^ value modulus b.toBitVec) sum =
      (mulX modulus)^[8 * bytes.length] sum ^^^ message bytes := by
  induction bytes generalizing sum with
  | nil => simp [message]
  | cons b rest ih =>
    rw [message, List.foldl_cons, List.foldl_cons, ih, ih ((mulX modulus)^[8] 0 ^^^ _),
      List.length_cons, iterate_xor, iterate_xor, ← Function.iterate_add_apply, Nat.mul_succ]
    simp [BitVec.xor_assoc]

theorem message_append (l m : List UInt8) :
    message (l ++ m) = (mulX modulus)^[8 * m.length] (message l) ^^^ message m := by
  rw [message, List.foldl_append, message_foldl]
  rfl

@[simp] theorem remainder_nil (crc : BitVec 64) : remainder [] crc = crc := by
  simp [remainder, message]

theorem remainder_append (l m : List UInt8) (crc : BitVec 64) :
    remainder (l ++ m) crc = remainder m (remainder l crc) := by
  simp only [remainder, message_append, iterate_xor, List.length_append, Nat.mul_add,
    ← Function.iterate_add_apply, BitVec.xor_assoc]
  rw [Nat.add_comm (8 * l.length), Nat.add_comm 64]

theorem remainder_cons (b : UInt8) (bytes : List UInt8) (crc : BitVec 64) :
    remainder (b :: bytes) crc =
      remainder bytes
        ((mulX modulus)^[8] crc ^^^ (mulX modulus)^[64] (value modulus b.toBitVec)) := by
  have := remainder_append [b] bytes crc
  rw [List.singleton_append] at this
  rw [this]
  simp [remainder, message]

theorem top_bit (n : UInt64) : decide (n >>> 63 ≠ 0) = n.toBitVec.msb := by
  have msb : n.toBitVec.msb = decide (2 ^ 63 ≤ n.toNat) := BitVec.msb_eq_decide _
  rw [msb, decide_eq_decide, ne_eq, ← UInt64.toNat_inj]
  simp only [UInt64.toNat_shiftRight, UInt64.reduceToNat, Nat.reduceMod, Nat.shiftRight_eq_div_pow]
  omega

theorem toBitVec_ite (c : Bool) (n : UInt64) :
    (if c then n else 0).toBitVec = if c then n.toBitVec else 0#64 := by
  cases c <;> rfl

theorem crcBit_toBitVec (n : UInt64) (bit : Bool) :
    (crcBit n bit).toBitVec = feed modulus n.toBitVec bit := by
  rw [crcBit, UInt64.toBitVec_xor, toBitVec_ite, top_bit]
  rfl

theorem crcShift_toBitVec (n : UInt64) : (crcShift n).toBitVec = mulX modulus n.toBitVec := by
  have same : crcShift n = crcBit n false := by
    simp [crcShift, crcBit]
  rw [same, crcBit_toBitVec, feed_eq]
  simp

theorem repeat_toBitVec (k : Nat) (n : UInt64) :
    (Nat.repeat crcShift k n).toBitVec = (mulX modulus)^[k] n.toBitVec := by
  induction k with
  | zero => rfl
  | succ k ih => rw [Nat.repeat, crcShift_toBitVec, ih, Function.iterate_succ_apply']

theorem crcPower_toBitVec (k : Nat) : (crcPower k).toBitVec = (mulX modulus)^[k] 1#64 := by
  induction k with
  | zero => rfl
  | succ k ih => rw [crcPower, crcShift_toBitVec, ih, Function.iterate_succ_apply']

theorem checksumBitwise_toBitVec (bytes : List UInt8) (crc : UInt64) :
    (checksumBitwise bytes crc).toBitVec = remainder bytes crc.toBitVec := by
  have feeds : ∀ (bits : List Bool) (crc : UInt64),
      (bits.foldl crcBit crc).toBitVec = bits.foldl (feed modulus) crc.toBitVec := by
    intro bits
    induction bits with
    | nil => exact fun _ => rfl
    | cons bit rest ih =>
      intro crc
      rw [List.foldl_cons, ih, crcBit_toBitVec, List.foldl_cons]
  induction bytes generalizing crc with
  | nil => simp [checksumBitwise]
  | cons b rest ih =>
    have one : ((byteBits b).foldl crcBit crc).toBitVec =
        (mulX modulus)^[8] crc.toBitVec ^^^ (mulX modulus)^[64] (value modulus b.toBitVec) := by
      rw [feeds, byteBits, foldl_feed (by decide)]
      rfl
    rw [checksumBitwise, List.flatMap_cons, List.foldl_append]
    refine (ih _).trans ?_
    rw [one, remainder_cons]

/-! ## The tables -/

/-- The bytes of a register, the most significant first. -/
def bytesOf {m : Nat} (v : BitVec m) (n : Nat) : List UInt8 :=
  (List.range n).map fun i => ⟨v.extractLsb' (8 * (n - 1 - i)) 8⟩

theorem message_bytesOf {m : Nat} (v : BitVec m) (n : Nat) :
    message (bytesOf v n) = combine modulus v.getLsbD 1#64 (8 * n) := by
  induction n with
  | zero => simp [bytesOf, message, combine]
  | succ n ih =>
    have parts : bytesOf v (n + 1) = [⟨v.extractLsb' (8 * n) 8⟩] ++ bytesOf v n := by
      simp only [bytesOf, List.range_succ_eq_map, List.map_cons, List.map_map,
        List.singleton_append, Nat.add_sub_cancel, Nat.sub_zero]
      congr 1
      refine List.map_congr_left fun i _ => ?_
      simp only [Function.comp_apply, Nat.succ_eq_add_one]
      rw [show n - (i + 1) = n - 1 - i by omega]
    have length : (bytesOf v n).length = n := by simp [bytesOf]
    rw [parts, message_append, ih, length, Nat.mul_succ, combine_add, BitVec.xor_comm]
    simp [message, value_extractLsb']

theorem message_word (v : BitVec 64) : message (bytesOf v 8) = v :=
  (message_bytesOf v 8).trans (value_self v)

theorem shifted_byte (i : UInt8) :
    (i.toUInt64 <<< 56).toBitVec = (mulX modulus)^[56] (value modulus i.toBitVec) := by
  rw [← value_setWidth_shiftLeft (m := 64) i.toBitVec (by decide), value_self]
  simp

theorem toUInt8_shiftRight (n : UInt64) :
    (n >>> 56).toUInt8.toBitVec = n.toBitVec.extractLsb' 56 8 := by
  ext i below
  simp

theorem iterate_eight (n : UInt64) :
    (mulX modulus)^[8] n.toBitVec =
      (n <<< 8).toBitVec ^^^ (mulX modulus)^[64]
        (value modulus (n.toBitVec.extractLsb' 56 8)) := by
  exact iterate_eq n.toBitVec (by decide)

/-- A table looks up what a byte leaves behind that many bytes. -/
theorem crcTable_toBitVec (slice : Nat) (i : UInt8) :
    (crcTable slice i).toBitVec = (mulX modulus)^[8 * slice + 64] (value modulus i.toBitVec) := by
  have first : ∀ i : UInt8, (Nat.repeat crcShift 8 (i.toUInt64 <<< 56)).toBitVec =
      (mulX modulus)^[64] (value modulus i.toBitVec) := fun i => by
    rw [repeat_toBitVec, shifted_byte, ← Function.iterate_add_apply]
  induction slice with
  | zero => exact first i
  | succ slice ih =>
    rw [crcTable, UInt64.toBitVec_xor, first, toUInt8_shiftRight, ← iterate_eight, ih,
      ← Function.iterate_add_apply, show 8 + (8 * slice + 64) = 8 * (slice + 1) + 64 by omega]

theorem checksumBytes_toBitVec (bytes : List UInt8) (crc : UInt64) :
    (checksumBytes bytes crc).toBitVec = remainder bytes crc.toBitVec := by
  induction bytes generalizing crc with
  | nil => simp [checksumBytes]
  | cons b rest ih =>
    have index : ((crc >>> 56) ^^^ b.toUInt64).toUInt8.toBitVec =
        crc.toBitVec.extractLsb' 56 8 ^^^ b.toBitVec := by
      ext i below
      simp
    refine (ih _).trans ?_
    rw [remainder_cons, UInt64.toBitVec_xor, crcTable_toBitVec, index, value_xor, iterate_xor,
      ← BitVec.xor_assoc, iterate_eight]

/-- The bit that a byte, shifted by so many places, has in a word. -/
def bitAt (b : UInt8) (shift i : Nat) : Bool :=
  !decide (i < shift) && b.toBitVec.getLsbD (i - shift)

theorem bitAt_far {b : UInt8} {shift i : Nat} (far : i < shift ∨ shift + 8 ≤ i) :
    bitAt b shift i = false := by
  unfold bitAt
  rcases far with low | high
  · simp [low]
  · rw [BitVec.getLsbD_of_ge _ _ (by omega), Bool.and_false]

theorem bitAt_here {b : UInt8} {shift i : Nat} :
    bitAt b shift (shift + i) = b.toBitVec.getLsbD i := by
  simp [bitAt]

theorem getLsbD_bigEndian (b0 b1 b2 b3 b4 b5 b6 b7 : UInt8) {i : Nat} (below : i < 64) :
    (bigEndian b0 b1 b2 b3 b4 b5 b6 b7).toBitVec.getLsbD i =
      (bitAt b0 56 i || bitAt b1 48 i || bitAt b2 40 i || bitAt b3 32 i || bitAt b4 24 i ||
        bitAt b5 16 i || bitAt b6 8 i || bitAt b7 0 i) := by
  simp [bigEndian, bitAt, below]

theorem bytesOf_bigEndian (b0 b1 b2 b3 b4 b5 b6 b7 : UInt8) :
    bytesOf (bigEndian b0 b1 b2 b3 b4 b5 b6 b7).toBitVec 8 = [b0, b1, b2, b3, b4, b5, b6, b7] := by
  let word := (bigEndian b0 b1 b2 b3 b4 b5 b6 b7).toBitVec
  have byte : ∀ (start : Nat) (b : UInt8),
      (∀ i < 8, word.getLsbD (start + i) = b.toBitVec.getLsbD i) →
      (⟨word.extractLsb' start 8⟩ : UInt8) = b := by
    intro start b same
    refine UInt8.toBitVec_inj.mp (BitVec.eq_of_getLsbD_eq fun i below => ?_)
    rw [BitVec.getLsbD_extractLsb', same i below]
    simp [below]
  have parts : bytesOf word 8 = [⟨word.extractLsb' 56 8⟩, ⟨word.extractLsb' 48 8⟩,
    ⟨word.extractLsb' 40 8⟩, ⟨word.extractLsb' 32 8⟩, ⟨word.extractLsb' 24 8⟩,
    ⟨word.extractLsb' 16 8⟩, ⟨word.extractLsb' 8 8⟩, ⟨word.extractLsb' 0 8⟩] := rfl
  rw [parts, byte 56 b0, byte 48 b1, byte 40 b2, byte 32 b3, byte 24 b4, byte 16 b5, byte 8 b6,
    byte 0 b7]
  all_goals
    intro i below
    rw [getLsbD_bigEndian _ _ _ _ _ _ _ _ (by omega), bitAt_here]
    simp (disch := omega) [bitAt_far]

/-- Eight lookups at once are the division by eight bytes. -/
theorem lookups_toBitVec (crc : UInt64) :
    (crcTable 7 (crc >>> 56).toUInt8 ^^^ crcTable 6 ((crc >>> 48) &&& 255).toUInt8 ^^^
      crcTable 5 ((crc >>> 40) &&& 255).toUInt8 ^^^ crcTable 4 ((crc >>> 32) &&& 255).toUInt8 ^^^
      crcTable 3 ((crc >>> 24) &&& 255).toUInt8 ^^^ crcTable 2 ((crc >>> 16) &&& 255).toUInt8 ^^^
      crcTable 1 ((crc >>> 8) &&& 255).toUInt8 ^^^ crcTable 0 (crc &&& 255).toUInt8).toBitVec =
      (mulX modulus)^[64] crc.toBitVec := by
  have low : ∀ n : UInt64, (n &&& 255).toUInt8.toBitVec = n.toBitVec.extractLsb' 0 8 := by
    intro n
    ext i below
    have ones : (255#8)[i] = true := by
      rw [show (255#8) = BitVec.allOnes 8 from rfl, BitVec.getElem_allOnes]
    simp [ones]
  have byte : ∀ (n : UInt64) (k : Nat),
      (n.toBitVec >>> k).extractLsb' 0 8 = n.toBitVec.extractLsb' k 8 := by
    intro n k
    ext i below
    simp
  rw [← message_word crc.toBitVec]
  have parts : bytesOf crc.toBitVec 8 = [⟨crc.toBitVec.extractLsb' 56 8⟩,
    ⟨crc.toBitVec.extractLsb' 48 8⟩, ⟨crc.toBitVec.extractLsb' 40 8⟩,
    ⟨crc.toBitVec.extractLsb' 32 8⟩, ⟨crc.toBitVec.extractLsb' 24 8⟩,
    ⟨crc.toBitVec.extractLsb' 16 8⟩, ⟨crc.toBitVec.extractLsb' 8 8⟩,
    ⟨crc.toBitVec.extractLsb' 0 8⟩] := rfl
  rw [parts]
  simp only [message, List.foldl_cons, List.foldl_nil, UInt64.toBitVec_xor, crcTable_toBitVec,
    toUInt8_shiftRight, low, UInt64.toBitVec_shiftRight, iterate_xor,
    ← Function.iterate_add_apply]
  simp [byte]

theorem checksumTable_toBitVec (bytes : List UInt8) (crc : UInt64) :
    (checksumTable bytes crc).toBitVec = remainder bytes crc.toBitVec := by
  induction bytes, crc using checksumTable.induct with
  | case1 b0 b1 b2 b3 b4 b5 b6 b7 rest crc crc' ih =>
    have word : message [b0, b1, b2, b3, b4, b5, b6, b7] =
        (bigEndian b0 b1 b2 b3 b4 b5 b6 b7).toBitVec := by
      rw [← bytesOf_bigEndian, message_word]
    have parts := remainder_append [b0, b1, b2, b3, b4, b5, b6, b7] rest crc.toBitVec
    have first : remainder [b0, b1, b2, b3, b4, b5, b6, b7] crc.toBitVec =
        (mulX modulus)^[64] crc'.toBitVec := by
      rw [remainder, word, UInt64.toBitVec_xor, iterate_xor]
      rfl
    rw [checksumTable, ih, lookups_toBitVec, ← first]
    exact parts.symm
  | case2 bytes crc _ =>
    rw [checksumTable, checksumBytes_toBitVec]
    assumption

/-! ## Folding -/

/-- The product with a power of `x`. -/
theorem value_clmul (a b : BitVec 64) (k : Nat) (power : b = (mulX modulus)^[k] 1#64) :
    value modulus (clmul a b) = (mulX modulus)^[k] a := by
  have partial_products : ∀ n ≤ 64, value modulus ((List.range n).foldl
      (fun product i => if b.getLsbD i then product ^^^ (a.zeroExtend 128 <<< i) else product)
      (0 : BitVec 128)) = combine modulus b.getLsbD (value modulus a) n := by
    intro n within
    induction n with
    | zero => exact combine_false fun i _ => by simp
    | succ n ih =>
      rw [List.range_succ, List.foldl_append, List.foldl_cons, List.foldl_nil, combine,
        ← ih (by omega)]
      cases b.getLsbD n
      · simp
      · simp only [if_true, value_xor]
        rw [← value_setWidth_shiftLeft (m := 128) a (by omega)]
  have product : value modulus (clmul a b) = combine modulus b.getLsbD (value modulus a) 64 :=
    partial_products 64 (by decide)
  calc value modulus (clmul a b)
      = combine modulus a.getLsbD (value modulus b) 64 := by
        rw [product, value, combine_comm]
        rfl
    _ = (mulX modulus)^[k] (value modulus a) := by
        rw [value_self b, power, combine_iterate]
        rfl
    _ = (mulX modulus)^[k] a := by rw [value_self]

/-- One more byte, where no bit of the register is in its way. -/
theorem value_push (n : BitVec 128) (b : UInt8) (high : ∀ i, 120 ≤ i → n.getLsbD i = false) :
    value modulus ((n <<< 8) ||| b.toBitVec.zeroExtend 128) =
      (mulX modulus)^[8] (value modulus n) ^^^ value modulus b.toBitVec := by
  have whole : value modulus n = combine modulus n.getLsbD 1#64 120 := by
    rw [value, combine_add (n := 120) (m := 8),
      combine_false (n := 8) fun i _ => high _ (by omega)]
    simp
  have upper : combine modulus (fun i =>
      ((n <<< 8) ||| b.toBitVec.zeroExtend 128).getLsbD (8 + i)) 1#64 120 = value modulus n :=
    Eq.trans (combine_congr fun i below => by
      have inside : 8 + i < 128 := by omega
      have here : i < 128 := by omega
      have past : ¬8 + i < 8 := by omega
      simp [inside, here, past]) whole.symm
  have lower : combine modulus ((n <<< 8) ||| b.toBitVec.zeroExtend 128).getLsbD 1#64 8 =
      value modulus b.toBitVec :=
    combine_congr fun i below => by
      have inside : i < 128 := by omega
      simp [inside, below]
  rw [value, combine_add (n := 8) (m := 120), upper, lower, BitVec.xor_comm]

theorem value_crcLoad (bytes : List UInt8) :
    value modulus (crcLoad bytes) = message (bytes.take 16) := by
  have loads : ∀ (l : List UInt8) (n : BitVec 128), l.length ≤ 16 →
      (∀ i, 128 ≤ i + 8 * l.length → n.getLsbD i = false) →
      value modulus (l.foldl (fun n b => (n <<< 8) ||| b.toBitVec.zeroExtend 128) n) =
        (mulX modulus)^[8 * l.length] (value modulus n) ^^^ message l := by
    intro l
    induction l with
    | nil => exact fun n _ _ => by simp [message]
    | cons b rest ih =>
      intro n short high
      rw [List.length_cons] at short high
      have push := value_push n b fun i above => high i (by omega)
      have high' : ∀ i, 128 ≤ i + 8 * rest.length →
          ((n <<< 8) ||| b.toBitVec.zeroExtend 128).getLsbD i = false := by
        intro i above
        have gone := high (i - 8) (by omega)
        have far : b.toBitVec.getLsbD i = false := BitVec.getLsbD_of_ge _ _ (by omega)
        simp [gone, far]
      rw [List.foldl_cons, ih _ (by omega) high', push, List.length_cons, Nat.mul_succ,
        Function.iterate_add_apply, ← List.singleton_append, message_append, iterate_xor,
        BitVec.xor_assoc]
      simp [message]
  have all := loads (bytes.take 16) 0 (List.length_take_le _ _) (by simp)
  rw [crcLoad, all]
  simp [value, combine_false]

theorem value_halves (v : BitVec 128) :
    value modulus v = v.extractLsb' 0 64 ^^^ (mulX modulus)^[64] (v.extractLsb' 64 64) := by
  rw [value, combine_add (n := 64) (m := 64), ← value_extractLsb', value_self,
    combine_congr (g := (v.extractLsb' 0 64).getLsbD) fun i below => by simp [below]]
  congr 1
  exact value_self _

theorem value_crcFold (previous next : BitVec 128) (k : Nat) :
    value modulus (crcFold previous (setEpi64x (crcPower (k + 64)) (crcPower k)) next) =
      (mulX modulus)^[k] (value modulus previous) ^^^ value modulus next := by
  have low : (setEpi64x (crcPower (k + 64)) (crcPower k)).extractLsb' 0 64 =
      (mulX modulus)^[k] 1#64 := by
    rw [← crcPower_toBitVec]
    exact BitVec.extractLsb'_append_eq_right
  have high : (setEpi64x (crcPower (k + 64)) (crcPower k)).extractLsb' 64 64 =
      (mulX modulus)^[k + 64] 1#64 := by
    rw [← crcPower_toBitVec]
    exact BitVec.extractLsb'_append_eq_left
  rw [crcFold, value_xor, value_xor, value_clmul _ _ k low, value_clmul _ _ (k + 64) high,
    value_halves previous, iterate_xor, Function.iterate_add_apply]

theorem message_crcStore (v : BitVec 128) : message (crcStore v) = value modulus v :=
  message_bytesOf v 16

/-- The four lanes together. -/
def Lanes.value (lanes : Lanes) : BitVec 64 :=
  (mulX modulus)^[384] (Carryless.value modulus lanes.a) ^^^
    (mulX modulus)^[256] (Carryless.value modulus lanes.b) ^^^
    (mulX modulus)^[128] (Carryless.value modulus lanes.c) ^^^ Carryless.value modulus lanes.d

/-- A lane that the next register joins. -/
theorem crcFold_lane (previous : BitVec 128) (bytes : List UInt8) (k : Nat) :
    value modulus (crcFold previous (setEpi64x (crcPower (k + 64)) (crcPower k)) (crcLoad bytes)) =
      (mulX modulus)^[k] (value modulus previous) ^^^ message (bytes.take 16) := by
  rw [value_crcFold, value_crcLoad]

/-- Sixty-four bytes are four registers. -/
theorem message_four (bytes : List UInt8) (long : 64 ≤ bytes.length) :
    message (bytes.take 64) =
      (mulX modulus)^[384] (message (bytes.take 16)) ^^^
      (mulX modulus)^[256] (message ((bytes.drop 16).take 16)) ^^^
      (mulX modulus)^[128] (message ((bytes.drop 32).take 16)) ^^^
      message ((bytes.drop 48).take 16) := by
  have next : ∀ n, n + 16 ≤ bytes.length → message (bytes.take (n + 16)) =
      (mulX modulus)^[128] (message (bytes.take n)) ^^^ message ((bytes.drop n).take 16) := by
    intro n within
    have length : ((bytes.drop n).take 16).length = 16 := by
      rw [List.length_take, List.length_drop]
      omega
    rw [List.take_add, message_append, length]
  rw [next 48 (by omega), next 32 (by omega), next 16 (by omega)]
  simp only [iterate_xor, ← Function.iterate_add_apply]

theorem remainder_iterate (bytes : List UInt8) (v : BitVec 64) :
    remainder bytes ((mulX modulus)^[64] v) =
      (mulX modulus)^[64] ((mulX modulus)^[8 * bytes.length] v ^^^ message bytes) := by
  rw [remainder, iterate_xor, ← Function.iterate_add_apply, ← Function.iterate_add_apply,
    Nat.add_comm]

theorem remainder_split (n : Nat) (bytes : List UInt8) (crc : BitVec 64) :
    remainder bytes crc = remainder (bytes.drop n) (remainder (bytes.take n) crc) := by
  rw [← remainder_append, List.take_append_drop]

/-- Every lane advances alike. -/
theorem iterate_lanes (k x y z : Nat) {a b c d m₁ m₂ m₃ m₄ : BitVec 64} :
    (mulX modulus)^[x] ((mulX modulus)^[k] a ^^^ m₁) ^^^
      (mulX modulus)^[y] ((mulX modulus)^[k] b ^^^ m₂) ^^^
      (mulX modulus)^[z] ((mulX modulus)^[k] c ^^^ m₃) ^^^ ((mulX modulus)^[k] d ^^^ m₄) =
      (mulX modulus)^[k] ((mulX modulus)^[x] a ^^^ (mulX modulus)^[y] b ^^^
        (mulX modulus)^[z] c ^^^ d) ^^^
      ((mulX modulus)^[x] m₁ ^^^ (mulX modulus)^[y] m₂ ^^^ (mulX modulus)^[z] m₃ ^^^ m₄) := by
  simp only [iterate_xor, iterate_iterate, Nat.add_comm k]
  ac_rfl

/-- The seed leaves the lane it was injected into. -/
theorem iterate_seed (j x l : Nat) {s m r : BitVec 64} :
    (mulX modulus)^[j] ((mulX modulus)^[x] (m ^^^ (mulX modulus)^[l] s) ^^^ r) =
      (mulX modulus)^[j + (x + l)] s ^^^ (mulX modulus)^[j] ((mulX modulus)^[x] m ^^^ r) := by
  simp only [iterate_xor, iterate_iterate]
  ac_rfl

/-- One pass of the wide loop. -/
theorem value_pass (lanes : Lanes) (bytes : List UInt8) (long : 64 ≤ bytes.length) :
    Lanes.value ⟨crcFold lanes.a (setEpi64x (crcPower 576) (crcPower 512)) (crcLoad bytes),
      crcFold lanes.b (setEpi64x (crcPower 576) (crcPower 512)) (crcLoad (bytes.drop 16)),
      crcFold lanes.c (setEpi64x (crcPower 576) (crcPower 512)) (crcLoad (bytes.drop 32)),
      crcFold lanes.d (setEpi64x (crcPower 576) (crcPower 512)) (crcLoad (bytes.drop 48))⟩ =
      (mulX modulus)^[8 * 64] lanes.value ^^^ message (bytes.take 64) := by
  have lane : ∀ (previous : BitVec 128) (next : List UInt8),
      value modulus (crcFold previous (setEpi64x (crcPower 576) (crcPower 512)) (crcLoad next)) =
        (mulX modulus)^[512] (value modulus previous) ^^^ message (next.take 16) :=
    fun previous next => crcFold_lane previous next 512
  rw [message_four bytes long, Lanes.value, Lanes.value, lane, lane, lane, lane]
  exact iterate_lanes 512 384 256 128

/-- The wide loop keeps the remainder of what it has read and what is left. -/
theorem foldLanes_value (fuel : Nat) (lanes : Lanes) (bytes : List UInt8) :
    remainder (foldLanes (setEpi64x (crcPower 576) (crcPower 512)) fuel lanes bytes).2
        ((mulX modulus)^[64]
          (foldLanes (setEpi64x (crcPower 576) (crcPower 512)) fuel lanes bytes).1.value) =
      remainder bytes ((mulX modulus)^[64] lanes.value) := by
  induction fuel generalizing lanes bytes with
  | zero => rfl
  | succ fuel ih =>
    unfold foldLanes
    split
    · rename_i long
      have length : (bytes.take 64).length = 64 := by
        rw [List.length_take]
        omega
      rw [ih, remainder_split 64 bytes, remainder_iterate (bytes.take 64), length,
        value_pass lanes bytes long]
    · rfl

/-- So does the narrow loop. -/
theorem foldRegisters_value (fuel : Nat) (a : BitVec 128) (bytes : List UInt8) :
    remainder (foldRegisters (setEpi64x (crcPower 192) (crcPower 128)) fuel a bytes).2
        ((mulX modulus)^[64] (value modulus
          (foldRegisters (setEpi64x (crcPower 192) (crcPower 128)) fuel a bytes).1)) =
      remainder bytes ((mulX modulus)^[64] (value modulus a)) := by
  induction fuel generalizing a bytes with
  | zero => rfl
  | succ fuel ih =>
    unfold foldRegisters
    split
    · have length : (bytes.take 16).length = 16 := by
        rw [List.length_take]
        omega
      rw [ih, remainder_split 16 bytes, remainder_iterate (bytes.take 16), length,
        crcFold_lane _ _ 128]
    · rfl

theorem value_merge (lanes : Lanes) :
    let powers := setEpi64x (crcPower 192) (crcPower 128)
    value modulus (crcFold (crcFold (crcFold lanes.a powers lanes.b) powers lanes.c) powers
      lanes.d) = lanes.value := by
  simp only [value_crcFold _ _ 128, Lanes.value, iterate_xor, ← Function.iterate_add_apply]

/-- The seed joins the first lane, above the message. -/
theorem value_seed (crc : UInt64) :
    value modulus (setEpi64x crc 0) = (mulX modulus)^[64] crc.toBitVec := by
  have low : (setEpi64x crc 0).extractLsb' 0 64 = 0#64 := BitVec.extractLsb'_append_eq_right
  have high : (setEpi64x crc 0).extractLsb' 64 64 = crc.toBitVec :=
    BitVec.extractLsb'_append_eq_left
  rw [value_halves, low, high, BitVec.zero_xor]

theorem checksumFold_toBitVec (bytes : List UInt8) (crc : UInt64) (long : 64 ≤ bytes.length) :
    (checksumFold bytes crc).toBitVec = remainder bytes crc.toBitVec := by
  let lanes : Lanes := ⟨crcLoad bytes ^^^ setEpi64x crc 0, crcLoad (bytes.drop 16),
    crcLoad (bytes.drop 32), crcLoad (bytes.drop 48)⟩
  have start : (mulX modulus)^[64] lanes.value = remainder (bytes.take 64) crc.toBitVec := by
    have length : (bytes.take 64).length = 64 := by
      rw [List.length_take]
      omega
    rw [remainder, length, message_four bytes long]
    rw [Lanes.value, value_xor, value_seed, value_crcLoad, value_crcLoad, value_crcLoad,
      value_crcLoad]
    simp only [BitVec.xor_assoc]
    exact iterate_seed 64 384 64
  have stored : ∀ v : BitVec 128, (checksumTable (crcStore v) 0).toBitVec =
      (mulX modulus)^[64] (value modulus v) := fun v => by
    have zero : (0 : UInt64).toBitVec = 0#64 := rfl
    rw [checksumTable_toBitVec, remainder, message_crcStore, zero, iterate_zero_vec,
      BitVec.zero_xor]
  rw [checksumFold, checksumTable_toBitVec, stored, foldRegisters_value, value_merge,
    foldLanes_value, start, ← remainder_split]

/-! ## One checksum -/

theorem diskChecksum_toBitVec (folding : Bool) (bytes : List UInt8) (crc : UInt64) :
    (diskChecksum folding bytes crc).toBitVec = remainder bytes crc.toBitVec := by
  unfold diskChecksum
  split
  · exact checksumFold_toBitVec bytes crc (by omega)
  · exact checksumTable_toBitVec bytes crc

/-- The tables are the bitwise checksum, the products are the tables, and a checksum goes on
over the pieces of a file, whichever way each piece was computed. -/
theorem diskChecksum_one_path :
    (∀ bytes crc, checksumTable bytes crc = checksumBitwise bytes crc) ∧
    (∀ bytes crc, 64 ≤ bytes.length → checksumFold bytes crc = checksumTable bytes crc) ∧
    ∀ (whole first second : Bool) (a b : List UInt8) (c : UInt64),
      diskChecksum whole (a ++ b) c = diskChecksum second b (diskChecksum first a c) := by
  refine ⟨fun bytes crc => ?_, fun bytes crc long => ?_, fun whole first second a b c => ?_⟩
  · rw [← UInt64.toBitVec_inj, checksumTable_toBitVec, checksumBitwise_toBitVec]
  · rw [← UInt64.toBitVec_inj, checksumTable_toBitVec, checksumFold_toBitVec bytes crc long]
  · rw [← UInt64.toBitVec_inj, diskChecksum_toBitVec, remainder_append, diskChecksum_toBitVec,
      diskChecksum_toBitVec]

theorem diskChecksum_one_path_zeros :
    checksumFold (List.replicate 64 0) 1 = checksumTable (List.replicate 64 0) 1 :=
  diskChecksum_one_path.2.1 _ _ (by decide)

/-- The check value of the standard. -/
example : checksumBitwise "123456789".toUTF8.toList 0 = 0x6c40df5f0b497347 := by decide +kernel

end Gufo.Disk
