import Gufo.Serve.Utf8
import Mathlib.Tactic.Ring

/-!
# The WebSocket reader

One loop reads the frames of a client, answers pings and the close, and puts whole text
messages into a bounded queue. It stops at the first frame that it does not take.
-/

namespace Gufo.Serve.WebSocket

abbrev Bytes := List UInt8

def kMaximumMessage : Nat := 4 * 2 ^ 20
def kMaximumQueue : Nat := 8 * 2 ^ 20

def validUtf8 (text : Bytes) : Bool := decide ((Utf8Decoder.start.push text true).1.output = text)

/-! ## The socket -/

/-- `buffered_` and what each receive returns; nothing for one that is interrupted. The list ends
where the stream does, or where the other side of the server closes. -/
abbrev Socket := List Bytes

/-- `Read`. -/
def read : Socket → Nat → Option (Bytes × Socket)
  | [], size => if size = 0 then some ([], []) else none
  | chunk :: rest, size =>
    if size = 0 then some ([], chunk :: rest)
    else if chunk.length ≤ size then
      match read rest (size - chunk.length) with
      | none => none
      | some (bytes, left) => some (chunk ++ bytes, left)
    else some (chunk.take size, chunk.drop size :: rest)

/-- A read stops at the end of the stream, or closes with a code. -/
inductive Reading (α : Type) where
  | ended
  | refused (code : Nat)
  | got (value : α) (socket : Socket)

/-! ## Frames -/

structure Frame where
  final : Bool
  opcode : Nat
  payload : Bytes
deriving DecidableEq

def bigEndian (bytes : Bytes) : Nat := bytes.foldl (fun length b => length * 256 + b.toNat) 0

/-- The length, from the seven bits of the second byte on. -/
def readLength (control : Bool) (length : Nat) (socket : Socket) : Reading Nat :=
  if length < 126 then .got length socket
  else if control then .refused 1002
  else
    let count := if length = 126 then 2 else 8
    match read socket count with
    | none => .ended
    | some (extended, socket) =>
      let length := bigEndian extended
      if count = 8 ∧ 128 ≤ (extended.headD 0).toNat ∨ count = 2 ∧ length < 126 ∨
          count = 8 ∧ length ≤ 65535 then
        .refused 1002
      else .got length socket

def unmask (mask payload : Bytes) : Bytes :=
  payload.mapIdx fun i b => b ^^^ mask.getD (i % 4) 0

/-- One frame, behind so many bytes of its message. -/
def readFrame (message : Nat) (socket : Socket) : Reading Frame :=
  match read socket 2 with
  | none => .ended
  | some (header, socket) =>
    let first := (header.getD 0 0).toNat
    let second := (header.getD 1 0).toNat
    let final := decide (128 ≤ first)
    let opcode := first % 16
    let control := decide (8 ≤ opcode)
    if first / 16 % 8 ≠ 0 ∨ second < 128 ∨
        (opcode ≠ 0 ∧ opcode ≠ 1 ∧ opcode ≠ 8 ∧ opcode ≠ 9 ∧ opcode ≠ 10) ∨
        control = true ∧ final = false then
      .refused 1002
    else
      match readLength control (second % 128) socket with
      | .ended => .ended
      | .refused code => .refused code
      | .got length socket =>
        if kMaximumMessage < length ∨ control = false ∧ kMaximumMessage - message < length then
          .refused 1009
        else
          match read socket 4 with
          | none => .ended
          | some (mask, socket) =>
            match read socket length with
            | none => .ended
            | some (payload, socket) => .got ⟨final, opcode, unmask mask payload⟩ socket

/-- The low `count` bytes of a length, the highest one first. -/
def bigEndianBytes : Nat → Nat → Bytes
  | 0, _ => []
  | count + 1, length => UInt8.ofNat (length / 256 ^ count % 256) :: bigEndianBytes count length

/-- The header that `Send` writes in front of a payload. -/
def sendHeader (opcode length : Nat) : Bytes :=
  UInt8.ofNat (128 + opcode) ::
    if length < 126 then [UInt8.ofNat length]
    else
      let count := if length ≤ 65535 then 2 else 8
      UInt8.ofNat (if count = 2 then 126 else 127) :: bigEndianBytes count length

/-! ## The loop -/

/-- `messages_` and `queued_bytes_`. -/
structure Queue where
  messages : List Bytes
  queuedBytes : Nat
deriving DecidableEq

/-- `Receive`, when a message is there. -/
def Queue.receive (q : Queue) : Queue :=
  match q.messages with
  | [] => q
  | text :: rest => ⟨rest, q.queuedBytes - text.length⟩

def Queue.receiveMany (q : Queue) : Nat → Queue
  | 0 => q
  | n + 1 => q.receive.receiveMany n

/-- The other threads: how many messages are received between the last message and the `k`-th
one, and whether the answer to the `k`-th ping goes out. -/
structure Others where
  received : Nat → Nat
  answered : Nat → Bool

/-- `message` and `fragmented`, the queue, and how many messages and pings there were. -/
structure Reader where
  message : Bytes
  fragmented : Bool
  queue : Queue
  pushed : Nat
  pings : Nat
deriving DecidableEq

def Reader.start : Reader := ⟨[], false, ⟨[], 0⟩, 0, 0⟩

/-- A frame to send: its opcode and payload. -/
abbrev Sent := Nat × Bytes

def closeFrame (code : Nat) : Sent := (8, [UInt8.ofNat (code / 256), UInt8.ofNat (code % 256)])

/-- What follows a frame: the end, or the reader that goes on and the message it put in the
queue. -/
inductive Step where
  | stop (sent : List Sent)
  | go (reader : Reader) (delivered : List Bytes) (sent : List Sent)

/-- The answer to a close frame. -/
def closing (payload : Bytes) : Sent :=
  if payload.length = 1 then closeFrame 1002
  else if 2 ≤ payload.length then
    let code := (payload.getD 0 0).toNat * 256 + (payload.getD 1 0).toNat
    if code < 1000 ∨ 5000 ≤ code ∨ code = 1004 ∨ code = 1005 ∨ code = 1006 ∨ code = 1015 ∨
        1016 ≤ code ∧ code < 3000 then
      closeFrame 1002
    else if validUtf8 (payload.drop 2) then (8, payload)
    else closeFrame 1007
  else (8, payload)

/-- What the loop does with a frame. -/
def handle (o : Others) (r : Reader) (f : Frame) : Step :=
  if f.opcode = 8 then .stop [closing f.payload]
  else if f.opcode = 9 then
    if o.answered r.pings then .go { r with pings := r.pings + 1 } [] [(10, f.payload)]
    else .stop []
  else if f.opcode = 10 then .go r [] []
  else if decide (f.opcode = 0) ≠ r.fragmented then .stop [closeFrame 1002]
  else
    let message := r.message ++ f.payload
    if f.final = false then .go { r with message, fragmented := true } [] []
    else if validUtf8 message = false then .stop [closeFrame 1007]
    else
      let queue := r.queue.receiveMany (o.received r.pushed)
      if 128 ≤ queue.messages.length ∨ kMaximumQueue - queue.queuedBytes < message.length then
        .stop [closeFrame 1009]
      else
        .go { r with
          message := []
          fragmented := false
          queue := ⟨queue.messages ++ [message], queue.queuedBytes + message.length⟩
          pushed := r.pushed + 1 } [message] []

structure Outcome where
  messages : List Bytes
  sent : List Sent
deriving DecidableEq

def readFrom (o : Others) : Nat → Reader → Socket → Outcome
  | 0, _, _ => ⟨[], []⟩
  | fuel + 1, r, socket =>
    match readFrame r.message.length socket with
    | .ended => ⟨[], []⟩
    | .refused code => ⟨[], [closeFrame code]⟩
    | .got f socket =>
      match handle o r f with
      | .stop sent => ⟨[], sent⟩
      | .go r' delivered sent =>
        let rest := readFrom o fuel r' socket
        ⟨delivered ++ rest.messages, sent ++ rest.sent⟩

/-- `ReadLoop`: every frame takes bytes, so their number is fuel enough. -/
def readLoop (o : Others) (socket : Socket) : Outcome :=
  readFrom o (socket.flatten.length + 1) .start socket

/-- One frame of the loop. -/
def Round (o : Others) (a b : Reader × Socket) : Prop :=
  ∃ f delivered sent, readFrame a.1.message.length a.2 = .got f b.2 ∧
    handle o a.1 f = .go b.1 delivered sent

/-! ## Reading -/

theorem read_spec (socket : Socket) (size : Nat) :
    (size ≤ socket.flatten.length → ∃ left,
      read socket size = some (socket.flatten.take size, left) ∧
      left.flatten = socket.flatten.drop size) ∧
    (socket.flatten.length < size → read socket size = none) := by
  induction socket generalizing size with
  | nil =>
    unfold read
    split
    · rename_i zero
      subst zero
      exact ⟨fun _ => ⟨[], rfl, rfl⟩, fun lt => by simp at lt⟩
    · exact ⟨fun le => by simp at le; omega, fun _ => rfl⟩
  | cons chunk rest ih =>
    unfold read
    simp only [List.flatten_cons, List.length_append]
    split
    · rename_i zero
      subst zero
      exact ⟨fun _ => ⟨_, rfl, rfl⟩, fun lt => by omega⟩
    · split
      · rename_i short
        obtain ⟨enough, few⟩ := ih (size - chunk.length)
        constructor
        · intro le
          obtain ⟨left, same, drops⟩ := enough (by omega)
          refine ⟨left, ?_, ?_⟩
          · rw [same, List.take_append, List.take_of_length_le short]
          · rw [drops, List.drop_append, List.drop_of_length_le short, List.nil_append]
        · intro lt
          rw [few (by omega)]
      · refine ⟨fun _ => ⟨chunk.drop size :: rest, ?_, ?_⟩, fun lt => by omega⟩
        · rw [List.take_append_of_le_length (by omega)]
        · rw [List.flatten_cons, List.drop_append_of_le_length (by omega)]

/-- What is read stood at the front. -/
theorem read_some {socket left : Socket} {size : Nat} {bytes : Bytes}
    (some : read socket size = some (bytes, left)) :
    bytes.length = size ∧ socket.flatten = bytes ++ left.flatten := by
  obtain ⟨enough, few⟩ := read_spec socket size
  by_cases le : size ≤ socket.flatten.length
  · obtain ⟨left', same, drops⟩ := enough le
    rw [same] at some
    cases some
    rw [drops, List.take_append_drop, List.length_take]
    exact ⟨by omega, rfl⟩
  · rw [few (by omega)] at some
    cases some

theorem read_append {socket : Socket} {bytes rest : Bytes}
    (front : socket.flatten = bytes ++ rest) :
    ∃ left, read socket bytes.length = some (bytes, left) ∧ left.flatten = rest := by
  obtain ⟨left, same, drops⟩ := (read_spec socket bytes.length).1
    (by rw [front, List.length_append]; omega)
  rw [front, List.take_left] at same
  rw [front, List.drop_left] at drops
  exact ⟨left, same, drops⟩

/-! ## Big-endian lengths -/

theorem bigEndian_from (bs : Bytes) (v : Nat) :
    bs.foldl (fun length b => length * 256 + b.toNat) v = v * 256 ^ bs.length + bigEndian bs := by
  unfold bigEndian
  induction bs generalizing v with
  | nil => simp
  | cons b bs ih =>
    rw [List.foldl_cons, List.foldl_cons, ih, ih (0 * 256 + b.toNat), List.length_cons, pow_succ]
    ring

theorem bigEndian_cons (b : UInt8) (bs : Bytes) :
    bigEndian (b :: bs) = b.toNat * 256 ^ bs.length + bigEndian bs := by
  have := bigEndian_from bs (0 * 256 + b.toNat)
  rw [Nat.zero_mul, Nat.zero_add] at this
  rw [← this, bigEndian, List.foldl_cons, Nat.zero_mul, Nat.zero_add]

theorem bigEndian_lt (bs : Bytes) : bigEndian bs < 256 ^ bs.length := by
  induction bs with
  | nil => simp [bigEndian]
  | cons b bs ih =>
    have small : b.toNat + 1 ≤ 256 := b.toNat_lt
    have whole := Nat.mul_le_mul_right (256 ^ bs.length) small
    rw [bigEndian_cons, List.length_cons, pow_succ']
    rw [Nat.add_mul, Nat.one_mul] at whole
    omega

theorem bigEndianBytes_length (count length : Nat) :
    (bigEndianBytes count length).length = count := by
  induction count with
  | zero => rfl
  | succ count ih => rw [bigEndianBytes, List.length_cons, ih]

theorem bigEndian_bytes (count length : Nat) :
    bigEndian (bigEndianBytes count length) = length % 256 ^ count := by
  induction count with
  | zero => simp [bigEndianBytes, bigEndian, Nat.mod_one]
  | succ count ih =>
    rw [bigEndianBytes, bigEndian_cons, bigEndianBytes_length, ih,
      byte_toNat (Nat.mod_lt _ (by simp)), pow_succ, Nat.mod_mul, Nat.mul_comm, Nat.add_comm]

theorem bigEndianBytes_add (count length high : Nat) :
    bigEndianBytes count (high * 256 ^ count + length) = bigEndianBytes count length := by
  induction count generalizing high with
  | zero => rfl
  | succ count ih =>
    have pos : 0 < 256 ^ count := Nat.pow_pos (by omega)
    have split : high * 256 ^ (count + 1) = high * 256 * 256 ^ count := by ring
    rw [bigEndianBytes, bigEndianBytes, split, ih (high * 256), Nat.mul_comm (high * 256),
      Nat.mul_add_div pos, show (high * 256 + length / 256 ^ count) % 256 =
        length / 256 ^ count % 256 by omega]

/-- The bytes of a length are those it was read from. -/
theorem bigEndianBytes_bigEndian (bs : Bytes) : bigEndianBytes bs.length (bigEndian bs) = bs := by
  induction bs with
  | nil => rfl
  | cons b bs ih =>
    have low := bigEndian_lt bs
    rw [List.length_cons, bigEndianBytes, bigEndian_cons, bigEndianBytes_add, ih,
      Nat.mul_comm, Nat.mul_add_div (by omega), Nat.div_eq_of_lt low, Nat.add_zero,
      Nat.mod_eq_of_lt b.toNat_lt]
    rw [UInt8.ofNat_toNat]

/-! ## Frames of a client -/

theorem unmask_length (mask payload : Bytes) : (unmask mask payload).length = payload.length :=
  List.length_mapIdx

theorem unmask_unmask (mask payload : Bytes) : unmask mask (unmask mask payload) = payload := by
  unfold unmask
  rw [List.mapIdx_mapIdx]
  refine List.ext_getElem List.length_mapIdx fun i h h' => ?_
  rw [List.getElem_mapIdx, Function.comp_apply, UInt8.xor_assoc, UInt8.xor_self, UInt8.xor_zero]

/-- The seven bits that announce a length. -/
def sevenOf (length : Nat) : Nat :=
  if length < 126 then length else if length ≤ 65535 then 126 else 127

/-- The bytes that follow them. -/
def extendedOf (length : Nat) : Bytes :=
  if length < 126 then [] else bigEndianBytes (if length ≤ 65535 then 2 else 8) length

/-- A frame as a client sends it, with the length in as few bytes as hold it. -/
def clientFrame (mask : Bytes) (f : Frame) : Bytes :=
  UInt8.ofNat ((if f.final then 128 else 0) + f.opcode) ::
    UInt8.ofNat (128 + sevenOf f.payload.length) ::
      (extendedOf f.payload.length ++ mask ++ unmask mask f.payload)

/-- What a frame may be, behind so many bytes of its message. -/
structure Legal (message : Nat) (f : Frame) : Prop where
  known : f.opcode = 0 ∨ f.opcode = 1 ∨ f.opcode = 8 ∨ f.opcode = 9 ∨ f.opcode = 10
  control : 8 ≤ f.opcode → f.final = true ∧ f.payload.length < 126
  fits : f.payload.length ≤ kMaximumMessage
  room : f.opcode < 8 → f.payload.length ≤ kMaximumMessage - message

theorem readLength_got {control : Bool} {seven length : Nat} {socket left : Socket}
    (small : seven < 128) (got : readLength control seven socket = .got length left) :
    seven = sevenOf length ∧ socket.flatten = extendedOf length ++ left.flatten ∧
      (control = true → length < 126) ∧ length < 2 ^ 63 := by
  unfold readLength at got
  split at got
  · rename_i short
    cases got
    simp only [sevenOf, extendedOf, if_pos short, List.nil_append]
    exact ⟨trivial, trivial, fun _ => short, by omega⟩
  split at got
  · cases got
  rename_i data
  simp only at got
  generalize count_ : (if seven = 126 then 2 else 8) = count at got
  split at got
  · cases got
  rename_i extended socket' read_
  obtain ⟨length_, front⟩ := read_some read_
  split at got
  · cases got
  rename_i minimal
  cases got
  have bound := bigEndian_lt extended
  have bytes := bigEndianBytes_bigEndian extended
  rw [length_] at bound bytes
  simp only [not_or, not_and, not_lt, not_le] at minimal
  obtain ⟨top, two, eight⟩ := minimal
  by_cases first : seven = 126
  · rw [if_pos first] at count_
    subst count_
    have high : bigEndian extended ≤ 65535 := by omega
    refine ⟨?_, ?_, fun control => absurd control data, by omega⟩
    · rw [sevenOf, if_neg (by omega), if_pos high, first]
    · rw [extendedOf, if_neg (by omega), if_pos high, bytes, front]
  · rw [if_neg first] at count_
    subst count_
    refine ⟨?_, ?_, fun control => absurd control data, ?_⟩
    · rw [sevenOf, if_neg (by omega), if_neg (by omega)]
      omega
    · rw [extendedOf, if_neg (by omega), if_neg (by omega), bytes, front]
    · -- the highest bit is clear
      have clear := top rfl
      cases extended with
      | nil => simp at length_
      | cons b bs =>
        have rest := bigEndian_lt bs
        rw [List.length_cons] at length_
        have seven_ : bs.length = 7 := by omega
        rw [seven_] at rest
        rw [bigEndian_cons, seven_]
        simp only [List.headD_cons] at clear
        omega

theorem readLength_extended {control : Bool} {length : Nat} {socket : Socket} {rest : Bytes}
    (short : control = true → length < 126) (bound : length < 2 ^ 63)
    (front : socket.flatten = extendedOf length ++ rest) :
    ∃ left, readLength control (sevenOf length) socket = .got length left ∧
      left.flatten = rest := by
  unfold extendedOf at front
  unfold readLength sevenOf
  by_cases small : length < 126
  · rw [if_pos small] at front ⊢
    rw [if_pos small]
    exact ⟨socket, rfl, by rw [front, List.nil_append]⟩
  · have data : control = false := by
      cases control with
      | false => rfl
      | true => exact absurd (short rfl) small
    rw [if_neg small] at front ⊢
    subst data
    by_cases two : length ≤ 65535
    · rw [if_pos two] at front ⊢
      obtain ⟨left, read_, rest_⟩ := read_append front
      rw [bigEndianBytes_length] at read_
      refine ⟨left, ?_, rest_⟩
      have value : bigEndian (bigEndianBytes 2 length) = length := by
        rw [bigEndian_bytes]
        exact Nat.mod_eq_of_lt (by omega)
      simp only [Nat.lt_irrefl, if_false, Bool.false_eq_true, if_true, read_, value]
      rw [if_neg (by omega)]
    · rw [if_neg two] at front ⊢
      obtain ⟨left, read_, rest_⟩ := read_append front
      rw [bigEndianBytes_length] at read_
      refine ⟨left, ?_, rest_⟩
      have value : bigEndian (bigEndianBytes 8 length) = length := by
        rw [bigEndian_bytes]
        exact Nat.mod_eq_of_lt (by omega)
      have top : ((bigEndianBytes 8 length).headD 0).toNat < 128 := by
        rw [bigEndianBytes, List.headD_cons, byte_toNat (Nat.mod_lt _ (by omega))]
        omega
      simp only [show ¬127 < 126 by omega, if_false, Bool.false_eq_true, show ¬127 = 126 by omega,
        read_, value]
      rw [if_neg (by omega)]

/-- What is read as a frame stood at the front of the stream as one. -/
theorem readFrame_got {message : Nat} {socket left : Socket} {f : Frame}
    (got : readFrame message socket = .got f left) :
    Legal message f ∧ ∃ mask, mask.length = 4 ∧
      socket.flatten = clientFrame mask f ++ left.flatten := by
  unfold readFrame at got
  split at got
  · cases got
  rename_i header socket1 read1
  obtain ⟨two, front1⟩ := read_some read1
  obtain ⟨a, b, rfl⟩ := List.length_eq_two.mp two
  simp only [List.getD_cons_zero, List.getD_cons_succ] at got
  split at got
  · cases got
  rename_i checks
  simp only [not_or, not_and, not_lt, ne_eq, Decidable.not_not] at checks
  obtain ⟨reserved, masked, known, control⟩ := checks
  split at got
  · cases got
  · cases got
  rename_i length socket2 lengths
  obtain ⟨seven, front2, short, bound⟩ := readLength_got (Nat.mod_lt _ (by omega)) lengths
  split at got
  · cases got
  rename_i sizes
  simp only [not_or, not_and, not_lt] at sizes
  split at got
  · cases got
  rename_i mask socket3 read3
  obtain ⟨four, front3⟩ := read_some read3
  split at got
  · cases got
  rename_i payload socket4 read4
  obtain ⟨size, front4⟩ := read_some read4
  cases got
  have byteA := a.toNat_lt
  have byteB := b.toNat_lt
  refine ⟨⟨?_, fun high => ?_, ?_, fun low => ?_⟩, mask, four, ?_⟩
  · by_contra none
    simp only [not_or] at none
    obtain ⟨zero, one, eight, nine, ten⟩ := none
    exact ten (known zero one eight nine)
  · have isControl := decide_eq_true high
    refine ⟨?_, ?_⟩
    · simpa using control isControl
    · rw [unmask_length, size]
      exact short isControl
  · rw [unmask_length, size]
    exact sizes.1
  · simp only at low
    rw [unmask_length, size]
    exact sizes.2 (decide_eq_false (by omega))
  · have first : UInt8.ofNat ((if decide (128 ≤ a.toNat) = true then 128 else 0) + a.toNat % 16) =
        a := by
      refine byte_eq ?_
      simp only [decide_eq_true_eq]
      split <;> omega
    have second : UInt8.ofNat (128 + sevenOf length) = b := by
      refine byte_eq ?_
      omega
    simp only [clientFrame, unmask_length, unmask_unmask, first, second, size]
    rw [front1, front2, front3, front4]
    simp

/-- Every legal frame at the front of the stream is read. -/
theorem readFrame_client {message : Nat} {socket : Socket} {mask rest : Bytes} {f : Frame}
    (legal : Legal message f) (four : mask.length = 4)
    (front : socket.flatten = clientFrame mask f ++ rest) :
    ∃ left, readFrame message socket = .got f left ∧ left.flatten = rest := by
  obtain ⟨final, opcode, payload⟩ := f
  obtain ⟨known, control, fits, room⟩ := legal
  simp only at known control fits room
  have sevens : sevenOf payload.length < 128 := by
    unfold sevenOf
    split
    · omega
    · split <;> omega
  have bound : payload.length < 2 ^ 63 := by
    unfold kMaximumMessage at fits
    omega
  unfold clientFrame at front
  simp only [List.cons_append, List.append_assoc] at front
  obtain ⟨socket1, read1, front1⟩ := @read_append socket
    [UInt8.ofNat ((if final then 128 else 0) + opcode), UInt8.ofNat (128 + sevenOf payload.length)]
    _ front
  obtain ⟨socket2, lengths, front2⟩ := @readLength_extended (decide (8 ≤ opcode)) _ _ _
    (fun isControl => (control (of_decide_eq_true isControl)).2) bound front1
  obtain ⟨socket3, read3, front3⟩ := read_append front2
  obtain ⟨socket4, read4, front4⟩ := read_append front3
  rw [four] at read3
  rw [unmask_length] at read4
  refine ⟨socket4, ?_, front4⟩
  have first : (UInt8.ofNat ((if final then 128 else 0) + opcode)).toNat =
      (if final then 128 else 0) + opcode := byte_toNat (by cases final <;> simp <;> omega)
  have second : (UInt8.ofNat (128 + sevenOf payload.length)).toNat =
      128 + sevenOf payload.length := byte_toNat (by omega)
  have isFinal : decide (128 ≤ (if final = true then 128 else 0) + opcode) = final := by
    cases final with
    | true => exact decide_eq_true (by simp)
    | false => exact decide_eq_false (by simp; omega)
  have low : ((if final = true then 128 else 0) + opcode) % 16 = opcode := by
    cases final with
    | true => simp; omega
    | false => simp; omega
  have reserved : ((if final = true then 128 else 0) + opcode) / 16 % 8 = 0 := by
    cases final with
    | true => simp; omega
    | false => simp; omega
  unfold readFrame
  simp only [List.length_cons, List.length_nil] at read1
  simp only [read1, List.getD_cons_zero, List.getD_cons_succ, first, second, isFinal, low, reserved,
    Nat.add_mod_left, Nat.mod_eq_of_lt sevens, lengths, read3, read4, unmask_unmask]
  rw [if_neg, if_neg]
  · simp only [not_or, not_and, not_lt, decide_eq_false_iff_not]
    exact ⟨fits, fun data => room (by omega)⟩
  · simp only [not_or, not_and, not_lt, ne_eq, not_true_eq_false, not_false_eq_true, true_and,
      decide_eq_true_eq, Decidable.not_not, Bool.not_eq_false]
    exact ⟨by omega, by omega, fun isControl => (control isControl).1⟩

end Gufo.Serve.WebSocket
