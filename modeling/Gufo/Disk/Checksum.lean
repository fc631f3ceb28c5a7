import Mathlib.Data.List.Basic

/-!
# The payload checksum

`DiskChecksum` of `src/cache/disk.cpp`: CRC-64/ECMA by eight sliced tables, and by
carry-less folding where the processor has it and the input is long enough.
-/

namespace Gufo.Disk

def ecma : UInt64 := 0x42f0e1eba9ea3693

/-- One bit of the division by the polynomial. -/
def crcShift (n : UInt64) : UInt64 :=
  (n <<< 1) ^^^ (if n >>> 63 ≠ 0 then ecma else 0)

/-- `CrcPower`: `x ^ exponent` modulo the polynomial. -/
def crcPower : Nat → UInt64
  | 0 => 1
  | exponent + 1 => crcShift (crcPower exponent)

/-- `table[slice][i]` -/
def crcTable : Nat → UInt8 → UInt64
  | 0, i => Nat.repeat crcShift 8 (i.toUInt64 <<< 56)
  | slice + 1, i =>
    let previous := crcTable slice i
    (previous <<< 8) ^^^ Nat.repeat crcShift 8 (((previous >>> 56).toUInt8).toUInt64 <<< 56)

/-- Eight bytes, first byte most significant: the swapped little-endian load. -/
def bigEndian (b0 b1 b2 b3 b4 b5 b6 b7 : UInt8) : UInt64 :=
  (b0.toUInt64 <<< 56) ||| (b1.toUInt64 <<< 48) ||| (b2.toUInt64 <<< 40) |||
    (b3.toUInt64 <<< 32) ||| (b4.toUInt64 <<< 24) ||| (b5.toUInt64 <<< 16) |||
    (b6.toUInt64 <<< 8) ||| b7.toUInt64

/-- The last loop of `ChecksumTable`, byte by byte. -/
def checksumBytes (bytes : List UInt8) (crc : UInt64) : UInt64 :=
  bytes.foldl (fun crc b => (crc <<< 8) ^^^ crcTable 0 ((crc >>> 56) ^^^ b.toUInt64).toUInt8) crc

/-- `ChecksumTable`: eight bytes at a time while there are eight. -/
def checksumTable : List UInt8 → UInt64 → UInt64
  | b0 :: b1 :: b2 :: b3 :: b4 :: b5 :: b6 :: b7 :: rest, crc =>
    let crc := crc ^^^ bigEndian b0 b1 b2 b3 b4 b5 b6 b7
    checksumTable rest
      (crcTable 7 (crc >>> 56).toUInt8 ^^^ crcTable 6 ((crc >>> 48) &&& 255).toUInt8 ^^^
        crcTable 5 ((crc >>> 40) &&& 255).toUInt8 ^^^ crcTable 4 ((crc >>> 32) &&& 255).toUInt8 ^^^
        crcTable 3 ((crc >>> 24) &&& 255).toUInt8 ^^^ crcTable 2 ((crc >>> 16) &&& 255).toUInt8 ^^^
        crcTable 1 ((crc >>> 8) &&& 255).toUInt8 ^^^ crcTable 0 (crc &&& 255).toUInt8)
  | bytes, crc => checksumBytes bytes crc

/-! ## Folding -/

/-- `_mm_clmulepi64_si128` of two selected limbs: the product without carries. -/
def clmul (a b : BitVec 64) : BitVec 128 :=
  (List.range 64).foldl
    (fun product i => if b.getLsbD i then product ^^^ (a.zeroExtend 128 <<< i) else product) 0

/-- `_mm_set_epi64x(high, low)` -/
def setEpi64x (high low : UInt64) : BitVec 128 := high.toBitVec ++ low.toBitVec

/-- `CrcLoad`: sixteen bytes, the first most significant. -/
def crcLoad (bytes : List UInt8) : BitVec 128 :=
  (bytes.take 16).foldl (fun n b => (n <<< 8) ||| b.toBitVec.zeroExtend 128) 0

/-- `CrcFold` -/
def crcFold (previous powers next : BitVec 128) : BitVec 128 :=
  clmul (previous.extractLsb' 0 64) (powers.extractLsb' 0 64) ^^^
    clmul (previous.extractLsb' 64 64) (powers.extractLsb' 64 64) ^^^ next

/-- The sixteen bytes of a register, the most significant first. -/
def crcStore (n : BitVec 128) : List UInt8 :=
  (List.range 16).map fun i => ⟨n.extractLsb' (8 * (15 - i)) 8⟩

/-- The four lanes of `ChecksumFold`. -/
structure Lanes where
  a : BitVec 128
  b : BitVec 128
  c : BitVec 128
  d : BitVec 128

/-- The loop over blocks of sixty-four bytes, with the bytes left after it. -/
def foldLanes (widePowers : BitVec 128) : Nat → Lanes → List UInt8 → Lanes × List UInt8
  | 0, lanes, bytes => (lanes, bytes)
  | fuel + 1, lanes, bytes =>
    if bytes.length ≥ 64 then
      foldLanes widePowers fuel
        ⟨crcFold lanes.a widePowers (crcLoad bytes),
          crcFold lanes.b widePowers (crcLoad (bytes.drop 16)),
          crcFold lanes.c widePowers (crcLoad (bytes.drop 32)),
          crcFold lanes.d widePowers (crcLoad (bytes.drop 48))⟩
        (bytes.drop 64)
    else (lanes, bytes)

/-- The loop over single registers, with the bytes left after it. -/
def foldRegisters (powers : BitVec 128) : Nat → BitVec 128 → List UInt8 → BitVec 128 × List UInt8
  | 0, a, bytes => (a, bytes)
  | fuel + 1, a, bytes =>
    if bytes.length ≥ 16 then
      foldRegisters powers fuel (crcFold a powers (crcLoad bytes)) (bytes.drop 16)
    else (a, bytes)

/-- `ChecksumFold`, for at least 256 bytes. A pass takes bytes, so their number is fuel enough. -/
def checksumFold (bytes : List UInt8) (crc : UInt64) : UInt64 :=
  let powers := setEpi64x (crcPower 192) (crcPower 128)
  let widePowers := setEpi64x (crcPower 576) (crcPower 512)
  let lanes : Lanes := ⟨crcLoad bytes ^^^ setEpi64x crc 0, crcLoad (bytes.drop 16),
    crcLoad (bytes.drop 32), crcLoad (bytes.drop 48)⟩
  let (lanes, bytes) := foldLanes widePowers bytes.length lanes (bytes.drop 64)
  let a := crcFold (crcFold (crcFold lanes.a powers lanes.b) powers lanes.c) powers lanes.d
  let (a, bytes) := foldRegisters powers bytes.length a bytes
  checksumTable bytes (checksumTable (crcStore a) 0)

/-- `DiskChecksum`; `folding` says whether the processor has `pclmul` and `ssse3`. -/
def diskChecksum (folding : Bool) (bytes : List UInt8) (crc : UInt64) : UInt64 :=
  if folding ∧ bytes.length ≥ 256 then checksumFold bytes crc else checksumTable bytes crc

end Gufo.Disk
