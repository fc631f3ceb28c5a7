import Gufo.Serve.WebSocket

/-!
# What the reader delivers

The text messages of the legal frames, one after another, up to the first frame that is not
taken; the fragmentation of the stream makes no difference.
-/

namespace Gufo.Serve.WebSocket

/-! ## The messages of a stream -/

/-- Between two frames: the message so far, the messages that wait, and how many messages and
pings there were. -/
structure Receiving where
  message : Bytes
  fragmented : Bool
  waiting : List Bytes
  pushed : Nat
  pings : Nat

def Receiving.start : Receiving := ⟨[], false, [], 0, 0⟩

/-- Whether a message finds room among those that wait. -/
abbrev Room := List Bytes → Bytes → Prop

/-- The queue's bounds. -/
def queueRoom : Room := fun waiting message =>
  waiting.length < 128 ∧ message.length + (waiting.map List.length).sum ≤ kMaximumQueue

/-- A frame is taken, and completes these messages. Control frames leave the message alone. -/
inductive Takes (o : Others) (room : Room) : Receiving → Frame → Receiving → List Bytes → Prop
  | ping {st f} : f.opcode = 9 → o.answered st.pings = true →
      Takes o room st f { st with pings := st.pings + 1 } []
  | pong {st f} : f.opcode = 10 → Takes o room st f st []
  | part {st f} : f.opcode < 8 → (f.opcode = 0 ↔ st.fragmented = true) → f.final = false →
      Takes o room st f { st with message := st.message ++ f.payload, fragmented := true } []
  | whole {st f} : f.opcode < 8 → (f.opcode = 0 ↔ st.fragmented = true) → f.final = true →
      ValidUtf8 (st.message ++ f.payload) →
      room (st.waiting.drop (o.received st.pushed)) (st.message ++ f.payload) →
      Takes o room st f
        ⟨[], false, st.waiting.drop (o.received st.pushed) ++ [st.message ++ f.payload],
          st.pushed + 1, st.pings⟩ [st.message ++ f.payload]

/-- The messages of a stream of masked frames, up to the first one that is not legal or not
taken. -/
inductive Yields (o : Others) (room : Room) : Receiving → Bytes → List Bytes → Prop
  | frame {st st' f mask rest messages more} : mask.length = 4 → Legal st.message.length f →
      Takes o room st f st' messages → Yields o room st' rest more →
      Yields o room st (clientFrame mask f ++ rest) (messages ++ more)
  | stop {st stream} : (∀ f mask rest st' messages, stream = clientFrame mask f ++ rest →
      mask.length = 4 → Legal st.message.length f → ¬Takes o room st f st' messages) →
      Yields o room st stream []

/-! ## The loop follows -/

theorem validUtf8_iff (text : Bytes) : validUtf8 text = true ↔ ValidUtf8 text := by
  unfold validUtf8
  rw [decide_eq_true_eq, decoded_eq]

/-- The reader stands where the stream does, within its bounds. -/
structure Stands (r : Reader) (st : Receiving) : Prop where
  message : r.message = st.message
  fragmented : r.fragmented = st.fragmented
  waiting : r.queue.messages = st.waiting
  bytes : r.queue.queuedBytes = (r.queue.messages.map List.length).sum
  pushed : r.pushed = st.pushed
  pings : r.pings = st.pings
  bounded : r.message.length ≤ kMaximumMessage
  queued : r.queue.queuedBytes ≤ kMaximumQueue

theorem stands_start : Stands .start .start :=
  ⟨rfl, rfl, rfl, rfl, rfl, rfl, Nat.zero_le _, Nat.zero_le _⟩

theorem receiveMany_spec (q : Queue) (bytes : q.queuedBytes = (q.messages.map List.length).sum)
    (n : Nat) :
    (q.receiveMany n).messages = q.messages.drop n ∧
      (q.receiveMany n).queuedBytes = ((q.messages.drop n).map List.length).sum := by
  induction n generalizing q with
  | zero => exact ⟨rfl, bytes⟩
  | succ n ih =>
    obtain ⟨messages, queued⟩ := q
    simp only at bytes
    subst bytes
    cases messages with
    | nil =>
      have same : (Queue.mk [] (([] : List Bytes).map List.length).sum).receive =
          ⟨[], (([] : List Bytes).map List.length).sum⟩ := rfl
      rw [Queue.receiveMany, same]
      obtain ⟨rest, sum⟩ := ih ⟨[], (([] : List Bytes).map List.length).sum⟩ rfl
      rw [rest, sum]
      simp
    | cons text rest =>
      refine ih ⟨rest, _⟩ ?_
      simp

section
variable {o : Others} {r : Reader} {st : Receiving} {f : Frame}

/-- A whole message: it is delivered when it is valid text and finds room. -/
theorem handle_whole (stands : Stands r st) (data : f.opcode < 8)
    (sequence : f.opcode = 0 ↔ st.fragmented = true) (final : f.final = true)
    (valid : ValidUtf8 (st.message ++ f.payload))
    (room : queueRoom (st.waiting.drop (o.received st.pushed)) (st.message ++ f.payload)) :
    ∃ r', handle o r f = .go r' [st.message ++ f.payload] [] ∧
      Stands r' ⟨[], false, st.waiting.drop (o.received st.pushed) ++ [st.message ++ f.payload],
        st.pushed + 1, st.pings⟩ := by
  obtain ⟨kept, sums⟩ := receiveMany_spec r.queue stands.bytes (o.received r.pushed)
  obtain ⟨few, fits⟩ := room
  rw [stands.waiting] at kept sums
  rw [← stands.pushed] at few fits ⊢
  have order : ¬decide (f.opcode = 0) ≠ r.fragmented := by
    rw [stands.fragmented]
    simp only [ne_eq, Decidable.not_not]
    cases fragmented : st.fragmented with
    | true => exact decide_eq_true (sequence.mpr fragmented)
    | false =>
      exact decide_eq_false fun zero => by rw [sequence.mp zero] at fragmented; cases fragmented
  refine ⟨⟨[], false, ⟨st.waiting.drop (o.received r.pushed) ++ [st.message ++ f.payload],
    ((st.waiting.drop (o.received r.pushed)).map List.length).sum +
      (st.message ++ f.payload).length⟩, r.pushed + 1, r.pings⟩, ?_, ?_⟩
  · unfold handle
    rw [if_neg (by omega), if_neg (by omega), if_neg (by omega), if_neg order]
    simp only [final, Bool.true_eq_false, if_false, stands.message, (validUtf8_iff _).mpr valid,
      kept, sums]
    rw [if_neg (by omega)]
  · refine ⟨rfl, rfl, rfl, ?_, rfl, stands.pings, Nat.zero_le _, ?_⟩
    · simp
    · simp only
      omega

theorem handle_part (stands : Stands r st) (legal : Legal st.message.length f)
    (data : f.opcode < 8) (sequence : f.opcode = 0 ↔ st.fragmented = true)
    (final : f.final = false) :
    ∃ r', handle o r f = .go r' [] [] ∧
      Stands r' { st with message := st.message ++ f.payload, fragmented := true } := by
  have order : ¬decide (f.opcode = 0) ≠ r.fragmented := by
    rw [stands.fragmented]
    simp only [ne_eq, Decidable.not_not]
    cases fragmented : st.fragmented with
    | true => exact decide_eq_true (sequence.mpr fragmented)
    | false =>
      exact decide_eq_false fun zero => by rw [sequence.mp zero] at fragmented; cases fragmented
  refine ⟨{ r with message := r.message ++ f.payload, fragmented := true }, ?_, ?_⟩
  · unfold handle
    rw [if_neg (by omega), if_neg (by omega), if_neg (by omega), if_neg order]
    simp [final]
  · have room := legal.room data
    have bounded := stands.bounded
    refine ⟨?_, rfl, stands.waiting, stands.bytes, stands.pushed, stands.pings, ?_, stands.queued⟩
    · simp [stands.message]
    · simp only [List.length_append, stands.message] at bounded ⊢
      omega

/-- What the stream takes, the loop takes. -/
theorem takes_handle (stands : Stands r st) (legal : Legal st.message.length f)
    {st' : Receiving} {messages : List Bytes} (takes : Takes o queueRoom st f st' messages) :
    ∃ r' sent, handle o r f = .go r' messages sent ∧ Stands r' st' := by
  cases takes with
  | ping nine answered =>
    rw [← stands.pings] at answered
    refine ⟨{ r with pings := r.pings + 1 }, [(10, f.payload)], ?_,
      ⟨stands.message, stands.fragmented, stands.waiting, stands.bytes, stands.pushed,
        congrArg (· + 1) stands.pings, stands.bounded, stands.queued⟩⟩
    unfold handle
    rw [if_neg (by omega), if_pos nine, if_pos answered]
  | pong ten =>
    refine ⟨r, [], ?_, stands⟩
    unfold handle
    rw [if_neg (by omega), if_neg (by omega), if_pos ten]
  | part data sequence final =>
    obtain ⟨r', goes, after⟩ := @handle_part o r st f stands legal data sequence final
    exact ⟨r', [], goes, after⟩
  | whole data sequence final valid room =>
    obtain ⟨r', goes, after⟩ := @handle_whole o r st f stands data sequence final valid room
    exact ⟨r', [], goes, after⟩

/-- What the loop goes on with, the stream takes. -/
theorem handle_go (stands : Stands r st) (legal : Legal st.message.length f) {r' : Reader}
    {delivered : List Bytes} {sent : List Sent} (goes : handle o r f = .go r' delivered sent) :
    ∃ st', Takes o queueRoom st f st' delivered := by
  obtain ⟨kept, sums⟩ := receiveMany_spec r.queue stands.bytes (o.received r.pushed)
  rw [stands.waiting, stands.pushed] at kept sums
  unfold handle at goes
  split at goes
  · cases goes
  split at goes
  · rename_i ping
    split at goes
    · rename_i answered
      cases goes
      exact ⟨_, .ping ping (stands.pings ▸ answered)⟩
    · cases goes
  split at goes
  · rename_i pong
    cases goes
    exact ⟨_, .pong pong⟩
  have data : f.opcode < 8 := by
    have := legal.known
    omega
  split at goes
  · cases goes
  rename_i order
  have sequence : f.opcode = 0 ↔ st.fragmented = true := by
    rw [ne_eq, Decidable.not_not, stands.fragmented] at order
    rw [← order, decide_eq_true_eq]
  simp only at goes
  split at goes
  · rename_i part
    cases goes
    exact ⟨_, .part data sequence part⟩
  rename_i whole
  split at goes
  · cases goes
  rename_i valid
  split at goes
  · cases goes
  rename_i room
  rw [Bool.not_eq_false, validUtf8_iff] at valid
  simp only [stands.pushed, kept, sums, not_or, not_le, not_lt] at room
  have bound : (((st.waiting.drop (o.received st.pushed)).map List.length).sum) ≤
      (st.waiting.map List.length).sum := by
    have split := congrArg List.sum
      (congrArg (List.map List.length) (List.take_append_drop (o.received st.pushed) st.waiting))
    rw [List.map_append, List.sum_append] at split
    omega
  have total := stands.queued
  rw [stands.bytes, stands.waiting] at total
  cases goes
  rw [stands.message] at valid room ⊢
  exact ⟨_, .whole data sequence (by simpa using whole) valid ⟨room.1, by omega⟩⟩

/-- A round keeps the reader within its bounds. -/
theorem round_stands (stands : Stands r st) {socket : Socket} {b : Reader × Socket}
    (round : Round o (r, socket) b) : ∃ st', Stands b.1 st' := by
  obtain ⟨f, delivered, sent, got, goes⟩ := round
  have legal := (readFrame_got got).1
  rw [stands.message] at legal
  obtain ⟨st', takes⟩ := handle_go stands legal goes
  obtain ⟨r', sent', same, after⟩ := takes_handle stands legal takes
  rw [goes] at same
  cases same
  exact ⟨st', after⟩

theorem rounds_stands {socket : Socket} {b : Reader × Socket}
    (rounds : Relation.ReflTransGen (Round o) (.start, socket) b) : ∃ st, Stands b.1 st := by
  induction rounds with
  | refl => exact ⟨.start, stands_start⟩
  | tail _ round ih =>
    obtain ⟨st, stands⟩ := ih
    exact round_stands stands round

theorem clientFrame_length (mask : Bytes) (f : Frame) : 0 < (clientFrame mask f).length := by
  exact Nat.succ_pos _

/-- The messages of the loop are those of the stream, and the stream has no others. -/
theorem readFrom_yields (stands : Stands r st) {fuel : Nat} {socket : Socket}
    (enough : socket.flatten.length < fuel) (messages : List Bytes) :
    Yields o queueRoom st socket.flatten messages ↔
      messages = (readFrom o fuel r socket).messages := by
  induction fuel generalizing r st socket messages with
  | zero => omega
  | succ fuel ih =>
    have length := stands.message
    -- a frame of the stream is the one that is read
    have reads : ∀ f mask rest, socket.flatten = clientFrame mask f ++ rest → mask.length = 4 →
        Legal st.message.length f →
        ∃ left, readFrame r.message.length socket = .got f left ∧ left.flatten = rest :=
      fun f mask rest front four legal => readFrame_client (by rwa [length]) four front
    unfold readFrom
    cases read_ : readFrame r.message.length socket with
    | got f left =>
      obtain ⟨legal, mask, four, front⟩ := readFrame_got read_
      rw [length] at legal
      have shorter : left.flatten.length < fuel := by
        have := congrArg List.length front
        have := clientFrame_length mask f
        rw [List.length_append] at *
        omega
      cases step : handle o r f with
      | stop sent =>
        simp only [step]
        constructor
        · intro yields
          generalize stream : socket.flatten = bytes at yields
          cases yields with
          | stop => rfl
          | @frame _ st' f' mask' rest _ _ four' legal' takes =>
            obtain ⟨left', got, -⟩ := reads f' mask' rest stream four' legal'
            rw [read_] at got
            cases got
            obtain ⟨r', sent', goes, -⟩ := takes_handle stands legal takes
            rw [step] at goes
            cases goes
        · rintro rfl
          refine .stop fun f' mask' rest st' ms stream four' legal' takes => ?_
          obtain ⟨left', got, -⟩ := reads f' mask' rest stream four' legal'
          rw [read_] at got
          cases got
          obtain ⟨r', sent', goes, -⟩ := takes_handle stands legal takes
          rw [step] at goes
          cases goes
      | go r' delivered sent =>
        obtain ⟨st', takes⟩ := handle_go stands legal step
        obtain ⟨r'', sent'', same, after⟩ := takes_handle stands legal takes
        rw [step] at same
        cases same
        simp only [step]
        constructor
        · intro yields
          generalize stream : socket.flatten = bytes at yields
          cases yields with
          | stop none => exact absurd takes (none f mask _ st' _ (stream ▸ front) four legal)
          | @frame _ st2 f' mask' rest ms more four' legal' takes' yields =>
            obtain ⟨left', got, rest_⟩ := reads f' mask' rest stream four' legal'
            rw [read_] at got
            cases got
            obtain ⟨r2, sent2, goes, after2⟩ := takes_handle stands legal takes'
            rw [step] at goes
            cases goes
            rw [← rest_] at yields
            rw [(ih after2 shorter more).mp yields]
        · rintro rfl
          rw [front]
          exact .frame four legal takes ((ih after shorter _).mpr rfl)
    | _ =>
      constructor
      · intro yields
        generalize stream : socket.flatten = bytes at yields
        cases yields with
        | stop => rfl
        | @frame _ st' f' mask' rest _ _ four' legal' takes =>
          obtain ⟨left', got, -⟩ := reads f' mask' rest stream four' legal'
          rw [read_] at got
          cases got
      · rintro rfl
        refine .stop fun f' mask' rest st' ms stream four' legal' takes => ?_
        obtain ⟨left', got, -⟩ := reads f' mask' rest stream four' legal'
        rw [read_] at got
        cases got

end

/-- The loop delivers the messages of the stream, however it arrives: the legal text frames up to
the first frame that is not taken. No message grows beyond its bound, and the length that `Send`
announces is read as that length. -/
theorem readLoop_exact (o : Others) (socket : Socket) :
    (∀ messages, Yields o queueRoom .start socket.flatten messages ↔
      messages = (readLoop o socket).messages) ∧
    (∀ r socket', Relation.ReflTransGen (Round o) (.start, socket) (r, socket') →
      r.message.length ≤ kMaximumMessage ∧ r.queue.queuedBytes ≤ kMaximumQueue) ∧
    ∀ opcode length rest, length < 2 ^ 63 → ∃ second extended, sendHeader opcode length =
      UInt8.ofNat (128 + opcode) :: second :: extended ∧ second.toNat < 128 ∧
      ∃ left, readLength false second.toNat [extended ++ rest] = .got length left ∧
        left.flatten = rest := by
  refine ⟨readFrom_yields stands_start (Nat.lt_succ_self _), fun r socket' rounds => ?_,
    fun opcode length rest bound => ?_⟩
  · obtain ⟨st, stands⟩ := rounds_stands rounds
    exact ⟨stands.bounded, stands.queued⟩
  · have small : sevenOf length < 128 := by
      unfold sevenOf
      split
      · omega
      · split <;> omega
    refine ⟨UInt8.ofNat (sevenOf length), extendedOf length, ?_, ?_, ?_⟩
    · unfold sendHeader sevenOf extendedOf
      by_cases short : length < 126
      · simp [if_pos short]
      · by_cases two : length ≤ 65535
        · simp [if_neg short, if_pos two]
        · simp [if_neg short, if_neg two, show ¬8 = 2 by omega]
    · rw [byte_toNat (by omega)]
      exact small
    · rw [byte_toNat (by omega)]
      exact readLength_extended (fun control => by cases control) bound
        (by rw [List.flatten_cons, List.flatten_nil, List.append_nil])

/-! ## The queue is bounded -/

/-- An empty text message. -/
def emptyText : Frame := ⟨true, 1, []⟩

/-- Nobody receives. -/
def nobody : Others := ⟨fun _ => 0, fun _ => true⟩

theorem emptyText_legal : Legal 0 emptyText :=
  ⟨.inr (.inl rfl), fun high => by simp [emptyText] at high, Nat.zero_le _, fun _ => Nat.zero_le _⟩

/-- Without a bound, every message of a stream of them is yielded. -/
theorem yields_all (n : Nat) {st : Receiving} (message : st.message = [])
    (fragmented : st.fragmented = false) :
    Yields nobody (fun _ _ => True) st
      (List.replicate n (clientFrame [0, 0, 0, 0] emptyText)).flatten (List.replicate n []) := by
  induction n generalizing st with
  | zero =>
    refine .stop fun f mask rest st' messages stream => ?_
    have := congrArg List.length stream
    have := clientFrame_length mask f
    simp only [List.replicate_zero, List.flatten_nil, List.length_nil, List.length_append] at *
    omega
  | succ n ih =>
    have empty : st.message ++ emptyText.payload = [] := by rw [message]; rfl
    have takes : Takes nobody (fun _ _ => True) st emptyText _ [st.message ++ emptyText.payload] :=
      .whole (by decide) (by rw [fragmented]; decide) rfl (empty ▸ ⟨[], rfl⟩) trivial
    rw [empty] at takes
    exact .frame rfl (message ▸ emptyText_legal) takes (ih rfl rfl)

/-- As long as nobody receives, no more than 128 messages are delivered. -/
theorem yields_bounded {st : Receiving} {stream : Bytes} {messages : List Bytes}
    (yields : Yields nobody queueRoom st stream messages) (few : st.waiting.length ≤ 128) :
    st.waiting.length + messages.length ≤ 128 := by
  induction yields with
  | stop => exact few
  | frame _ _ takes _ ih =>
    cases takes with
    | ping => exact ih few
    | pong => exact ih few
    | part => exact ih few
    | whole _ _ _ _ room =>
      have bound := room.1
      simp only [nobody, List.drop_zero, List.length_append, List.length_singleton] at bound ih ⊢
      omega

/-- The decoding of the stream goes on where the queue is full: of 129 messages that nobody
receives the loop delivers 128. -/
theorem readLoop_full :
    ¬∀ (o : Others) (socket : Socket) (messages : List Bytes),
      Yields o (fun _ _ => True) .start socket.flatten messages →
        messages = (readLoop o socket).messages := by
  intro claim
  have few : ∀ n, n ≤ 128 := fun n => by
    have all := claim nobody (List.replicate n (clientFrame [0, 0, 0, 0] emptyText)) _
      (yields_all n rfl rfl)
    have delivered := (readFrom_yields stands_start (Nat.lt_succ_self _) _).mpr all
    have bounded := yields_bounded delivered (Nat.zero_le 128)
    rw [List.length_replicate] at bounded
    exact Nat.le_trans (Nat.le_add_left n _) bounded
  exact absurd (few 129) (by omega)

end Gufo.Serve.WebSocket
