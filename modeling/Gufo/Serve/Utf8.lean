import Gufo.Lib.Scanner

/-!
# Decoding UTF-8 as it arrives

Token pieces split scalars anywhere. The decoder waits for the rest of a scalar that has begun
well, and replaces what cannot become one. Valid UTF-8 is what Lean's own encoder writes.
-/

namespace Gufo.Serve
open Gufo.Scanner

/-! ## The decoder -/

/-- One call of `observe`'s counts, with the bytes it was called for. -/
structure Decoded where
  produced : Nat
  output : List UInt8
deriving DecidableEq

def replacement : Decoded := ⟨3, [0xEF, 0xBF, 0xBD]⟩

/-- `length`; zero for a byte that starts no scalar of several bytes. -/
def scalarLength (lead : Nat) : Nat :=
  if 0xC2 ≤ lead ∧ lead ≤ 0xDF then 2
  else if 0xE0 ≤ lead ∧ lead ≤ 0xEF then 3
  else if 0xF0 ≤ lead ∧ lead ≤ 0xF4 then 4
  else 0

/-- The byte behind `count` bytes of a scalar is not one of it. -/
def Refused (lead count byte : Nat) : Prop :=
  byte < 0x80 ∨ 0xBF < byte ∨ count = 1 ∧ (lead = 0xE0 ∧ byte < 0xA0 ∨ lead = 0xED ∧ 0x9F < byte ∨
    lead = 0xF0 ∧ byte < 0x90 ∨ lead = 0xF4 ∧ 0x8F < byte)

instance (lead count byte : Nat) : Decidable (Refused lead count byte) := by
  unfold Refused
  infer_instance

/-- The loop that counts the bytes of a scalar. -/
def follow (lead length count : Nat) : List UInt8 → Nat
  | [] => count
  | byte :: rest =>
    if count < length then
      if Refused lead count byte.toNat then count else follow lead length (count + 1) rest
    else count

/-- One round of the outer loop. -/
def next : Next UInt8 Decoded
  | _, [] => none
  | final, byte :: rest =>
    let lead := byte.toNat
    if lead < 0x80 then some (1, ⟨1, [byte]⟩)
    else
      let length := scalarLength lead
      if length = 0 then some (1, replacement)
      else
        let count := follow lead length 1 rest
        if count = length then some (length, ⟨length, (byte :: rest).take length⟩)
        else if count = (byte :: rest).length ∧ final = false then none
        else some (count, replacement)

structure Utf8Decoder where
  pending : List UInt8
deriving DecidableEq

/-- The output of a `Push` and its calls of `observe`. -/
structure Pushed where
  output : List UInt8
  calls : List (Nat × Nat)
deriving DecidableEq

def pushedOf (items : List (Nat × Decoded)) : Pushed :=
  ⟨(items.map fun item => item.2.output).flatten, items.map fun item => (item.1, item.2.produced)⟩

namespace Utf8Decoder

def start : Utf8Decoder := ⟨[]⟩

def push (d : Utf8Decoder) (bytes : List UInt8) (final : Bool) : Pushed × Utf8Decoder :=
  let (items, rest) := scan next final (d.pending ++ bytes)
  (pushedOf items, ⟨rest⟩)

/-- Pushes that are not final, with what they gave together. -/
def pushAll (d : Utf8Decoder) : List (List UInt8) → Pushed × Utf8Decoder
  | [] => (⟨[], []⟩, d)
  | piece :: rest =>
    let (pushed, d') := d.push piece false
    let (more, last) := d'.pushAll rest
    (⟨pushed.output ++ more.output, pushed.calls ++ more.calls⟩, last)

/-- The pieces in order, and behind them the one that is final. -/
def pushCut (pieces : List (List UInt8)) (last : List UInt8) : Pushed :=
  let (before, d) := start.pushAll pieces
  let (final, _) := d.push last true
  ⟨before.output ++ final.output, before.calls ++ final.calls⟩

end Utf8Decoder

/-! ## Well-formed scalars -/

/-- Bytes that go on the scalar, from behind `count` of its bytes. -/
def Fits (lead : Nat) (count : Nat) : List UInt8 → Prop
  | [] => True
  | byte :: rest => ¬Refused lead count byte.toNat ∧ Fits lead (count + 1) rest

theorem fits_append {lead count : Nat} {as bs : List UInt8} :
    Fits lead count (as ++ bs) ↔ Fits lead count as ∧ Fits lead (count + as.length) bs := by
  induction as generalizing count with
  | nil => simp [Fits]
  | cons a as ih =>
    rw [List.cons_append, Fits, Fits, ih, List.length_cons, and_assoc,
      show count + 1 + as.length = count + (as.length + 1) by omega]

theorem follow_fits {lead length count : Nat} {as bs : List UInt8} (fits : Fits lead count as)
    (room : count + as.length ≤ length) :
    follow lead length count (as ++ bs) = follow lead length (count + as.length) bs := by
  induction as generalizing count with
  | nil => rfl
  | cons a as ih =>
    obtain ⟨here, rest⟩ := fits
    rw [List.length_cons] at room
    rw [List.cons_append, follow, if_pos (by omega), if_neg here, ih rest (by omega),
      List.length_cons, show count + 1 + as.length = count + (as.length + 1) by omega]

/-- The bytes that the loop counts, and why it stops behind them. -/
theorem follow_spec {lead length : Nat} (count : Nat) (bs : List UInt8) (room : count ≤ length) :
    ∃ as rest, bs = as ++ rest ∧ Fits lead count as ∧ count + as.length ≤ length ∧
      follow lead length count bs = count + as.length ∧
      (count + as.length = length ∨ rest = [] ∨
        ∃ b more, rest = b :: more ∧ Refused lead (count + as.length) b.toNat) := by
  induction bs generalizing count with
  | nil => exact ⟨[], [], rfl, trivial, room, rfl, .inr (.inl rfl)⟩
  | cons b bs ih =>
    by_cases whole : count = length
    · refine ⟨[], b :: bs, rfl, trivial, room, ?_, .inl whole⟩
      rw [follow, if_neg (by omega)]
      rfl
    · by_cases stop : Refused lead count b.toNat
      · refine ⟨[], b :: bs, rfl, trivial, room, ?_, .inr (.inr ⟨b, bs, rfl, stop⟩)⟩
        rw [follow, if_pos (by omega), if_pos stop]
        rfl
      · obtain ⟨as, rest, rfl, fits, inside, counts, why⟩ := ih (count + 1) (by omega)
        rw [show count + 1 + as.length = count + (b :: as).length by
          rw [List.length_cons]; omega] at inside counts why
        refine ⟨b :: as, rest, rfl, ⟨stop, fits⟩, inside, ?_, why⟩
        rw [follow, if_pos (by omega), if_neg stop, counts]

/-- What one round reads, and its answer. -/
inductive Reads (final : Bool) : List UInt8 → Option (Nat × Decoded) → Prop
  | nothing : Reads final [] none
  | ascii {b rest} : b.toNat < 0x80 → Reads final (b :: rest) (some (1, ⟨1, [b]⟩))
  | stray {b rest} : 0x80 ≤ b.toNat → scalarLength b.toNat = 0 →
      Reads final (b :: rest) (some (1, replacement))
  | whole {b as rest} : 0x80 ≤ b.toNat → scalarLength b.toNat = as.length + 1 →
      Fits b.toNat 1 as →
      Reads final (b :: (as ++ rest)) (some (as.length + 1, ⟨as.length + 1, b :: as⟩))
  | open_ {b as} : 0x80 ≤ b.toNat → as.length + 1 < scalarLength b.toNat → Fits b.toNat 1 as →
      Reads final (b :: as) (if final then some (as.length + 1, replacement) else none)
  | broken {b as c rest} : 0x80 ≤ b.toNat → as.length + 1 < scalarLength b.toNat →
      Fits b.toNat 1 as → Refused b.toNat (as.length + 1) c.toNat →
      Reads final (b :: (as ++ c :: rest)) (some (as.length + 1, replacement))

theorem next_reads (final : Bool) (input : List UInt8) : Reads final input (next final input) := by
  cases input with
  | nil => exact .nothing
  | cons b bs =>
    simp only [next]
    by_cases low : b.toNat < 0x80
    · rw [if_pos low]
      exact .ascii low
    rw [if_neg low]
    have high : 0x80 ≤ b.toNat := by omega
    by_cases zero : scalarLength b.toNat = 0
    · rw [if_pos zero]
      exact .stray high zero
    rw [if_neg zero]
    obtain ⟨as, rest, rfl, fits, inside, counts, why⟩ :=
      @follow_spec b.toNat (scalarLength b.toNat) 1 bs (by omega)
    rw [counts]
    rw [Nat.add_comm] at inside counts why ⊢
    by_cases whole : as.length + 1 = scalarLength b.toNat
    · rw [if_pos whole, ← whole, List.take_succ_cons, List.take_left]
      exact .whole high whole.symm fits
    rw [if_neg whole]
    cases why with
    | inl all => exact absurd all whole
    | inr why =>
      cases why with
      | inl empty =>
        subst empty
        have reads : Reads final (b :: as) _ := .open_ high (by omega) fits
        cases final <;> simpa using reads
      | inr stop =>
        obtain ⟨c, more, rfl, refused⟩ := stop
        rw [if_neg (by simp only [List.length_cons, List.length_append]; omega)]
        exact .broken high (by omega) fits refused

variable {input : List UInt8} {final : Bool}

theorem Reads.eq {r : Option (Nat × Decoded)}
    (h : Reads final input r) : next final input = r := by
  cases h with
  | nothing => rfl
  | ascii low => simp [next, if_pos low]
  | stray high zero => simp [next, if_neg (Nat.not_lt.mpr high), if_pos zero]
  | @whole b as rest high length fits =>
    have counts : follow b.toNat (as.length + 1) 1 (as ++ rest) = as.length + 1 := by
      rw [follow_fits fits (by omega), Nat.add_comm]
      cases rest with
      | nil => rfl
      | cons c rest => rw [follow, if_neg (by omega)]
    simp [next, if_neg (Nat.not_lt.mpr high), length, counts]
  | @open_ b as high room fits =>
    have counts : follow b.toNat (scalarLength b.toNat) 1 as = as.length + 1 := by
      have := @follow_fits _ (scalarLength b.toNat) 1 as [] fits (by omega)
      rw [List.append_nil] at this
      rw [this, follow, Nat.add_comm]
    simp only [next, if_neg (Nat.not_lt.mpr high), if_neg (by omega : ¬scalarLength b.toNat = 0),
      counts, if_neg (by omega : ¬as.length + 1 = scalarLength b.toNat), List.length_cons, true_and]
    cases final <;> rfl
  | @broken b as c rest high room fits refused =>
    have counts : follow b.toNat (scalarLength b.toNat) 1 (as ++ c :: rest) = as.length + 1 := by
      rw [follow_fits fits (by omega), follow, Nat.add_comm, if_pos (by omega), if_pos refused]
    simp only [next, if_neg (Nat.not_lt.mpr high), if_neg (by omega : ¬scalarLength b.toNat = 0),
      counts, if_neg (by omega : ¬as.length + 1 = scalarLength b.toNat), List.length_cons,
      List.length_append]
    rw [if_neg (by omega)]

/-- What is settled before the end of the input is settled. -/
theorem Reads.grows {r : Nat × Decoded} (h : Reads false input (some r))
    (final : Bool) (more : List UInt8) : Reads final (input ++ more) (some r) := by
  generalize answer : some r = o at h
  cases h with
  | nothing => cases answer
  | ascii low => exact .ascii low
  | stray high zero => exact .stray high zero
  | whole high length fits =>
    rw [List.cons_append, List.append_assoc]
    exact .whole high length fits
  | open_ => cases answer
  | broken high room fits refused =>
    rw [List.cons_append, List.append_assoc, List.cons_append]
    exact .broken high room fits refused

theorem next_steady : Steady next where
  takes := by
    intro final input count item some
    have reads := next_reads final input
    rw [some] at reads
    generalize answer : Option.some (count, item) = o at reads
    cases reads with
    | nothing => cases answer
    | ascii => cases answer; simp
    | stray => cases answer; simp
    | whole => cases answer; simp
    | open_ =>
      cases final with
      | false => cases answer
      | true => cases answer; simp
    | broken => cases answer; simp
  settled := by
    intro final input more r some
    have reads := next_reads false input
    rw [some] at reads
    exact (reads.grows final more).eq
  ends := by
    intro input none
    have reads := next_reads true input
    rw [none] at reads
    generalize answer : (Option.none : Option (Nat × Decoded)) = o at reads
    cases reads with
    | nothing => rfl
    | open_ => cases answer
    | _ => cases answer

/-! ## Against the encoder -/

theorem scalarLength_spec {lead count : Nat} :
    scalarLength lead = count + 1 ↔ count = 1 ∧ 0xC2 ≤ lead ∧ lead ≤ 0xDF ∨
      count = 2 ∧ 0xE0 ≤ lead ∧ lead ≤ 0xEF ∨ count = 3 ∧ 0xF0 ≤ lead ∧ lead ≤ 0xF4 := by
  unfold scalarLength
  split
  · omega
  · split
    · omega
    · split <;> omega

theorem val_ofNat {v : Nat} (valid : v.isValidChar) : (Char.ofNat v).val.toNat = v := by
  unfold Char.ofNat
  rw [dif_pos valid]
  rfl

theorem byte_eq {n : Nat} {b : UInt8} (h : n = b.toNat) : UInt8.ofNat n = b := by
  subst h
  exact UInt8.ofNat_toNat

theorem byte_toNat {n : Nat} (small : n < 256) : (UInt8.ofNat n).toNat = n := by
  exact Nat.mod_eq_of_lt small

theorem exists_two {b c : UInt8} (lead : 0xC2 ≤ b.toNat ∧ b.toNat ≤ 0xDF)
    (second : ¬Refused b.toNat 1 c.toNat) : ∃ x, String.utf8EncodeChar x = [b, c] := by
  simp only [Refused, true_and] at second
  refine ⟨Char.ofNat ((b.toNat - 0xC0) * 64 + (c.toNat - 0x80)), ?_⟩
  simp only [String.utf8EncodeChar, val_ofNat (.inl (by omega) :
    ((b.toNat - 0xC0) * 64 + (c.toNat - 0x80)).isValidChar)]
  rw [if_neg (by omega), if_pos (by omega), @byte_eq _ b (by omega), @byte_eq _ c (by omega)]

theorem exists_three {b c d : UInt8} (lead : 0xE0 ≤ b.toNat ∧ b.toNat ≤ 0xEF)
    (second : ¬Refused b.toNat 1 c.toNat) (third : ¬Refused b.toNat 2 d.toNat) :
    ∃ x, String.utf8EncodeChar x = [b, c, d] := by
  simp only [Refused, true_and, Nat.reduceEqDiff, false_and, or_false] at second third
  refine ⟨Char.ofNat ((b.toNat - 0xE0) * 4096 + (c.toNat - 0x80) * 64 + (d.toNat - 0x80)), ?_⟩
  have valid :
      ((b.toNat - 0xE0) * 4096 + (c.toNat - 0x80) * 64 + (d.toNat - 0x80)).isValidChar := by
    omega
  simp only [String.utf8EncodeChar, val_ofNat valid]
  rw [if_neg (by omega), if_neg (by omega), if_pos (by omega), @byte_eq _ b (by omega),
    @byte_eq _ c (by omega), @byte_eq _ d (by omega)]

theorem exists_four {b c d e : UInt8} (lead : 0xF0 ≤ b.toNat ∧ b.toNat ≤ 0xF4)
    (second : ¬Refused b.toNat 1 c.toNat) (third : ¬Refused b.toNat 2 d.toNat)
    (fourth : ¬Refused b.toNat 3 e.toNat) : ∃ x, String.utf8EncodeChar x = [b, c, d, e] := by
  simp only [Refused, true_and, Nat.reduceEqDiff, false_and, or_false] at second third fourth
  refine ⟨Char.ofNat ((b.toNat - 0xF0) * 262144 + (c.toNat - 0x80) * 4096 +
    (d.toNat - 0x80) * 64 + (e.toNat - 0x80)), ?_⟩
  have valid : ((b.toNat - 0xF0) * 262144 + (c.toNat - 0x80) * 4096 + (d.toNat - 0x80) * 64 +
      (e.toNat - 0x80)).isValidChar := .inr (by omega)
  simp only [String.utf8EncodeChar, val_ofNat valid]
  rw [if_neg (by omega), if_neg (by omega), if_neg (by omega), @byte_eq _ b (by omega),
    @byte_eq _ c (by omega), @byte_eq _ d (by omega), @byte_eq _ e (by omega)]

/-- A scalar that passed the decoder is one. -/
theorem exists_scalar {b : UInt8} {as : List UInt8} (length : scalarLength b.toNat = as.length + 1)
    (fits : Fits b.toNat 1 as) : ∃ c, String.utf8EncodeChar c = b :: as := by
  obtain ⟨two, lead⟩ | ⟨three, lead⟩ | ⟨four, lead⟩ := scalarLength_spec.mp length
  · obtain ⟨c, rfl⟩ := List.length_eq_one_iff.mp two
    exact exists_two lead fits.1
  · obtain ⟨c, d, rfl⟩ := List.length_eq_two.mp three
    exact exists_three lead fits.1 fits.2.1
  · obtain ⟨c, d, e, rfl⟩ := List.length_eq_three.mp four
    exact exists_four lead fits.1 fits.2.1 fits.2.2.1

/-- Every scalar passes the decoder. -/
theorem scalar_shape (c : Char) :
    (∃ b, b.toNat < 0x80 ∧ String.utf8EncodeChar c = [b]) ∨ ∃ b as, 0x80 ≤ b.toNat ∧
      scalarLength b.toNat = as.length + 1 ∧ Fits b.toNat 1 as ∧
      String.utf8EncodeChar c = b :: as := by
  have valid := c.valid
  simp only [UInt32.isValidChar, Nat.isValidChar] at valid
  unfold String.utf8EncodeChar
  generalize c.val.toNat = v at valid ⊢
  simp only
  split
  · exact .inl ⟨_, by rw [byte_toNat (by omega)]; omega, rfl⟩
  right
  split
  · refine ⟨_, _, ?_, ?_, ?_, rfl⟩ <;> rw [byte_toNat (by omega)]
    · omega
    · exact scalarLength_spec.mpr (.inl ⟨rfl, by omega⟩)
    · simp only [Fits, Refused, true_and, and_true, byte_toNat (by omega : v % 64 + 128 < 256)]
      omega
  split
  · refine ⟨_, _, ?_, ?_, ?_, rfl⟩ <;> rw [byte_toNat (by omega)]
    · omega
    · exact scalarLength_spec.mpr (.inr (.inl ⟨rfl, by omega⟩))
    · simp only [Fits, Refused, true_and, and_true, byte_toNat (by omega : v % 64 + 128 < 256),
        byte_toNat (by omega : v / 64 % 64 + 128 < 256)]
      omega
  · refine ⟨_, _, ?_, ?_, ?_, rfl⟩ <;> rw [byte_toNat (by omega)]
    · omega
    · exact scalarLength_spec.mpr (.inr (.inr ⟨rfl, by omega⟩))
    · simp only [Fits, Refused, true_and, and_true, byte_toNat (by omega : v % 64 + 128 < 256),
        byte_toNat (by omega : v / 64 % 64 + 128 < 256),
        byte_toNat (by omega : v / 4096 % 64 + 128 < 256)]
      omega

theorem scalar_length (c : Char) : (String.utf8EncodeChar c).length ≤ 4 := by
  obtain ⟨b, -, same⟩ | ⟨b, as, -, length, -, same⟩ := scalar_shape c
  · rw [same]
    simp
  · have := scalarLength_spec.mp length
    rw [same, List.length_cons]
    omega

/-- A byte that goes on any scalar behind `lead`. -/
theorem exists_fits (lead : Nat) (count : Nat) : ∃ b : UInt8, ¬Refused lead count b.toNat := by
  by_cases upper : lead = 0xE0 ∨ lead = 0xF0
  · refine ⟨0xA0, ?_⟩
    simp only [Refused, show (0xA0 : UInt8).toNat = 0xA0 from rfl]
    omega
  · refine ⟨0x80, ?_⟩
    simp only [Refused, show (0x80 : UInt8).toNat = 0x80 from rfl]
    omega

theorem exists_rest (lead count n : Nat) : ∃ bs, bs.length = n ∧ Fits lead count bs := by
  induction n generalizing count with
  | zero => exact ⟨[], rfl, trivial⟩
  | succ n ih =>
    obtain ⟨b, fits⟩ := exists_fits lead count
    obtain ⟨bs, length, rest⟩ := ih (count + 1)
    exact ⟨b :: bs, by rw [List.length_cons, length], fits, rest⟩

/-- What the decoder waits with begins a scalar and is not a whole one. -/
theorem exists_longer {b : UInt8} {as : List UInt8} (room : as.length + 1 < scalarLength b.toNat)
    (fits : Fits b.toNat 1 as) :
    ∃ c, b :: as <+: String.utf8EncodeChar c ∧ b :: as ≠ String.utf8EncodeChar c := by
  obtain ⟨bs, length, rest⟩ :=
    exists_rest b.toNat (1 + as.length) (scalarLength b.toNat - (as.length + 1))
  obtain ⟨c, same⟩ := @exists_scalar b (as ++ bs)
    (by rw [List.length_append]; omega) (fits_append.mpr ⟨fits, rest⟩)
  refine ⟨c, ⟨bs, by rw [same, List.cons_append]⟩, fun whole => ?_⟩
  have := congrArg List.length (whole.trans same)
  simp only [List.length_cons, List.length_append] at this
  omega

/-- The text of some scalars. -/
def ValidUtf8 (bytes : List UInt8) : Prop :=
  ∃ scalars : List Char, bytes = scalars.flatMap String.utf8EncodeChar

theorem ValidUtf8.append {a b : List UInt8} (ha : ValidUtf8 a) (hb : ValidUtf8 b) :
    ValidUtf8 (a ++ b) := by
  obtain ⟨cs, rfl⟩ := ha
  obtain ⟨ds, rfl⟩ := hb
  exact ⟨cs ++ ds, List.flatMap_append.symm⟩

theorem replacement_scalar : String.utf8EncodeChar '\uFFFD' = replacement.output := by decide

/-- Each round gives one scalar, and counts its bytes. -/
theorem next_scalar {count : Nat} {item : Decoded}
    (some : next final input = some (count, item)) :
    item.produced = item.output.length ∧ ∃ c, item.output = String.utf8EncodeChar c := by
  have reads := next_reads final input
  rw [some] at reads
  generalize answer : Option.some (count, item) = o at reads
  cases reads with
  | nothing => cases answer
  | @ascii b rest low =>
    cases answer
    refine ⟨rfl, Char.ofNat b.toNat, ?_⟩
    simp only [String.utf8EncodeChar, val_ofNat (.inl (by omega) : b.toNat.isValidChar)]
    rw [if_pos (by omega), byte_eq rfl]
  | stray => cases answer; exact ⟨rfl, _, replacement_scalar.symm⟩
  | whole high length fits =>
    cases answer
    obtain ⟨c, same⟩ := exists_scalar length fits
    exact ⟨rfl, c, same.symm⟩
  | open_ =>
    cases final with
    | false => cases answer
    | true => cases answer; exact ⟨rfl, _, replacement_scalar.symm⟩
  | broken => cases answer; exact ⟨rfl, _, replacement_scalar.symm⟩

/-- A scalar at the front is taken as it is. -/
theorem next_encoded (final : Bool) (c : Char) (rest : List UInt8) :
    next final (String.utf8EncodeChar c ++ rest) =
      some ((String.utf8EncodeChar c).length,
        ⟨(String.utf8EncodeChar c).length, String.utf8EncodeChar c⟩) := by
  obtain ⟨b, low, same⟩ | ⟨b, as, high, length, fits, same⟩ := scalar_shape c
  · rw [same]
    exact (Reads.ascii low).eq
  · rw [same]
    exact (Reads.whole high length fits).eq

/-! ## Runs -/

theorem scans_scalars {input rest : List UInt8} {items : List (Nat × Decoded)}
    (h : Scans next final input items rest) :
    ValidUtf8 (pushedOf items).output ∧
      (items.map fun item => item.2.produced).sum = (pushedOf items).output.length := by
  induction h with
  | wait => exact ⟨⟨[], rfl⟩, rfl⟩
  | take some _ ih =>
    obtain ⟨counts, c, same⟩ := next_scalar some
    obtain ⟨valid, sums⟩ := ih
    simp only [pushedOf, List.map_cons, List.flatten_cons, List.sum_cons, List.length_append]
      at valid sums ⊢
    exact ⟨ValidUtf8.append ⟨[c], by rw [same]; simp⟩ valid, by rw [counts, sums]⟩

theorem scan_valid (scalars : List Char) :
    (pushedOf (scan next true (scalars.flatMap String.utf8EncodeChar)).1).output =
      scalars.flatMap String.utf8EncodeChar := by
  have scans : ∃ items,
      Scans next true (scalars.flatMap String.utf8EncodeChar) items [] ∧
        (pushedOf items).output = scalars.flatMap String.utf8EncodeChar := by
    induction scalars with
    | nil => exact ⟨[], .wait rfl, rfl⟩
    | cons c rest ih =>
      obtain ⟨items, scans, same⟩ := ih
      rw [List.flatMap_cons]
      refine ⟨_, .take (next_encoded true c _) (by rw [List.drop_left]; exact scans), ?_⟩
      simp only [pushedOf, List.map_cons, List.flatten_cons] at same ⊢
      rw [same]
  obtain ⟨items, scans, same⟩ := scans
  rw [scans.eq next_steady, same]

/-- What a round waits with is short, and begins a scalar. -/
theorem next_waits (none : next false input = none) :
    ∃ c, input <+: String.utf8EncodeChar c ∧ input ≠ String.utf8EncodeChar c := by
  have reads := next_reads false input
  rw [none] at reads
  cases reads with
  | nothing => exact ⟨'a', List.nil_prefix, by decide⟩
  | open_ high room fits => exact exists_longer room fits

theorem scans_positive {input rest : List UInt8} {items : List (Nat × Decoded)}
    (h : Scans next final input items rest) :
    ∀ call ∈ (pushedOf items).calls, 0 < call.1 ∧ 0 < call.2 := by
  induction h with
  | wait => intro call hc; cases hc
  | @take input count item items rest some _ ih =>
    intro call hc
    cases List.mem_cons.mp hc with
    | inl same =>
      subst same
      obtain ⟨counts, c, encoded⟩ := next_scalar some
      refine ⟨(next_steady.takes some).1, ?_⟩
      simp only [counts, encoded]
      exact List.length_pos_iff.mpr String.utf8EncodeChar_ne_nil
    | inr later => exact ih call later

/-- A text that comes out of the decoder as it is is valid, and only such a text. -/
theorem decoded_eq {text : List UInt8} :
    (Utf8Decoder.start.push text true).1.output = text ↔ ValidUtf8 text := by
  constructor
  · intro same
    exact same ▸ (scans_scalars (scan_scans next_steady true ([] ++ text))).1
  · rintro ⟨scalars, rfl⟩
    exact scan_valid scalars

namespace Utf8Decoder

/-- The calls of a push count the bytes that are no longer pending. -/
theorem push_counts (d : Utf8Decoder) (bytes : List UInt8) (final : Bool) :
    ((d.push bytes final).1.calls.map Prod.fst).sum + (d.push bytes final).2.pending.length =
      d.pending.length + bytes.length := by
  have := (scan_scans next_steady final (d.pending ++ bytes)).counts next_steady
  simpa [push, pushedOf, Function.comp_def] using this

theorem push_positive (d : Utf8Decoder) (bytes : List UInt8) (final : Bool) :
    ∀ call ∈ (d.push bytes final).1.calls, 0 < call.1 ∧ 0 < call.2 :=
  scans_positive (scan_scans next_steady final (d.pending ++ bytes))

theorem pushedOf_append (as bs : List (Nat × Decoded)) :
    pushedOf (as ++ bs) = ⟨(pushedOf as).output ++ (pushedOf bs).output,
      (pushedOf as).calls ++ (pushedOf bs).calls⟩ := by
  simp [pushedOf]

theorem pushAll_feed (pending : List UInt8) (pieces : List (List UInt8)) :
    pushAll ⟨pending⟩ pieces =
      (pushedOf (feed next pending pieces).1, ⟨(feed next pending pieces).2⟩) := by
  induction pieces generalizing pending with
  | nil => rfl
  | cons piece rest ih => simp [pushAll, push, feed, ih, pushedOf_append]

/-- Cut or whole, the pushes give and report the same. -/
theorem pushCut_eq (pieces : List (List UInt8)) (last : List UInt8) :
    pushCut pieces last = pushedOf (scan next true (pieces.flatten ++ last)).1 := by
  have fed : start.pushAll pieces =
      (pushedOf (feed next [] pieces).1, ⟨(feed next [] pieces).2⟩) := pushAll_feed [] pieces
  simp only [pushCut, fed, push, ← pushedOf_append]
  rw [feed_final next_steady]

/-- However the bytes are cut, the decoder gives and reports the same; what it gives is valid
UTF-8, is the input where that is valid, and is counted byte by byte; and it keeps no more than
the beginning of one scalar. -/
theorem push_exact (pieces : List (List UInt8)) (last : List UInt8) :
    pushCut pieces last = (start.push (pieces.flatten ++ last) true).1 ∧
    (∀ d bytes final, ValidUtf8 (push d bytes final).1.output) ∧
    ValidUtf8 (pushCut pieces last).output ∧
    (ValidUtf8 (pieces.flatten ++ last) →
      (pushCut pieces last).output = pieces.flatten ++ last) ∧
    ((pushCut pieces last).calls.map Prod.fst).sum = (pieces.flatten ++ last).length ∧
    ((pushCut pieces last).calls.map Prod.snd).sum = (pushCut pieces last).output.length ∧
    (start.pushAll pieces).2.pending.length < 4 ∧
    ∃ c, (start.pushAll pieces).2.pending <+: String.utf8EncodeChar c ∧
      (start.pushAll pieces).2.pending ≠ String.utf8EncodeChar c := by
  have fed : start.pushAll pieces =
      (pushedOf (feed next [] pieces).1, ⟨(feed next [] pieces).2⟩) := pushAll_feed [] pieces
  have scans := scan_scans next_steady true (pieces.flatten ++ last)
  have waits := (scan_scans next_steady false ([] ++ pieces.flatten)).waits
  rw [← feed_eq next_steady (next_steady.nil false) pieces] at waits
  have counted := scans.counts next_steady
  rw [scan_ends next_steady, List.length_nil, Nat.add_zero] at counted
  obtain ⟨c, begins, proper⟩ := next_waits waits
  rw [pushCut_eq, fed]
  refine ⟨rfl, fun d bytes final => ?_, (scans_scalars scans).1, ?_, ?_, ?_, ?_, c, begins, proper⟩
  · exact (scans_scalars (scan_scans next_steady final (d.pending ++ bytes))).1
  · rintro ⟨scalars, same⟩
    rw [same]
    exact scan_valid scalars
  · simpa [pushedOf, Function.comp_def] using counted
  · simpa [pushedOf, Function.comp_def] using (scans_scalars scans).2
  · have short := scalar_length c
    have le := begins.length_le
    have ne : (feed next [] pieces).2.length ≠ (String.utf8EncodeChar c).length :=
      fun same => proper (begins.eq_of_length same)
    simp only
    omega

end Utf8Decoder
end Gufo.Serve
