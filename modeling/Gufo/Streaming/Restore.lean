import Gufo.Streaming.Moves
import Gufo.Disk.RoundTrip

/-!
# A restore brings every component

Small payloads are collected in staging and moved together, large ones go through it piece
by piece. Both ways the rows of a component reach the slot in order, each once, with the
bytes of its chunks and then its tail.
-/

namespace Gufo.Streaming
open Gufo.Disk Gufo.Program

variable {folding : Bool} {services : Services} {manifest : DiskManifest}
  {d : ComponentDescriptor} {size : Nat} {base : List Event} {p p' : Progress} {s t : Run}
  {bytes : List UInt8}

/-! ## Rows -/

/-- The component's rows so far: `copied` has been moved, the rest is in staging. -/
structure Rows (d : ComponentDescriptor) (size : Nat) (base : List Event) (p : Progress) (s : Run)
    (bytes copied : List UInt8) (new : List Event) : Prop where
  length : s.staging.length = size
  events : s.events = base ++ new
  aligned : d.rowBytes.toNat ∣ p.staged
  room : p.staged ≤ rowsSize d size
  moves : Moves false d.id d.rowBytes.toNat (p.first - p.staged / d.rowBytes.toNat) copied new
  read : copied ++ s.staging.take p.staged = bytes
  rows : p.first * d.rowBytes.toNat = bytes.length

theorem rowsSize_le (kind : d.kind = .appendRows) (size : Nat) : rowsSize d size ≤ size := by
  rw [rowsSize, if_pos kind]
  exact Nat.div_mul_le_self _ _

theorem dvd_rowsSize (kind : d.kind = .appendRows) (size : Nat) :
    d.rowBytes.toNat ∣ rowsSize d size := by
  rw [rowsSize, if_pos kind]
  exact Nat.dvd_mul_left _ _

section rows
variable {copied : List UInt8} {new : List Event} (kind : d.kind = .appendRows)
  (rows_pos : 0 < d.rowBytes.toNat)

include kind rows_pos in
theorem flush_ok (before : Rows d size base p s bytes copied new)
    (run : flush services d p s = .ok p' t) :
    p'.staged = 0 ∧ p'.first = p.first ∧ ∃ copied new, Rows d size base p' t bytes copied new := by
  unfold flush at run
  split at run
  · rename_i none
    obtain ⟨rfl, rfl⟩ := pure_ok.mp run
    exact ⟨none, rfl, copied, new, before⟩
  · rename_i some
    obtain ⟨_, s₁, first, run₁⟩ := bind_ok.mp run
    obtain ⟨_, s₂, got, run₂⟩ := bind_ok.mp run₁
    obtain ⟨rfl, rfl⟩ := get_ok.mp got
    obtain ⟨_, s₃, moved, run₃⟩ := bind_ok.mp run₂
    obtain ⟨_, s₄, last, run₄⟩ := bind_ok.mp run₃
    obtain ⟨rfl, rfl⟩ := pure_ok.mp run₄
    have same := checkStop_ok first
    have same' := checkStop_ok last
    obtain ⟨events, staging⟩ := transfer_ok moved
    obtain ⟨k, eq⟩ := before.aligned
    have held : (s.staging.take p.staged).length = p.staged := by
      have := rowsSize_le kind size
      have := before.room
      rw [List.length_take, before.length]
      omega
    have quotient : p.staged / d.rowBytes.toNat = k := by
      rw [eq, Nat.mul_div_cancel_left _ rows_pos]
    have k_pos : 0 < k := Nat.pos_of_ne_zero fun zero => some (by rw [eq, zero, Nat.mul_zero])
    have k_le : k ≤ p.first := by
      have total := before.rows
      rw [← before.read, List.length_append, held, eq] at total
      refine Nat.le_of_mul_le_mul_left ?_ rows_pos
      rw [Nat.mul_comm _ p.first, total]
      exact Nat.le_add_left _ _
    refine ⟨rfl, rfl, copied ++ s.staging.take p.staged,
      new ++ [.copyRowsIn d.id (p.first - k) p.first (s.staging.take p.staged), .settled],
      ?_, ?_, Nat.dvd_zero _, Nat.zero_le _, ?_, ?_, before.rows⟩
    · rw [same'.staging, staging, same.staging]
      exact before.length
    · rw [same'.events, events, same.events, before.events, same.staging, quotient,
        List.append_assoc]
    · have moves := before.moves
      rw [quotient] at moves
      have finish : p.first - 0 / d.rowBytes.toNat = p.first := by simp
      rw [finish]
      refine moves.transfer (by simp [Event.copy?]) (fun k' id' other => ?_) (by omega) ?_
      · have other' : d.id ≠ id' := fun same => other (List.mem_singleton.mpr same.symm)
        simp [Event.copy?, other']
      · rw [held, eq, Nat.mul_comm]
        congr 1
        omega
    · rw [List.take_zero, List.append_nil]
      exact before.read

include rows_pos in
/-- A payload that is collected lies in staging behind what was collected before. -/
theorem collect_ok {payload : DiskPayload} {privateFile : Bool} {u : Unit}
    (before : Rows d size base p s bytes copied new)
    (aligned : d.rowBytes.toNat ∣ payload.bytes.toNat)
    (room : p.staged + payload.bytes.toNat ≤ rowsSize d size) (fits : rowsSize d size ≤ size)
    (run : readPayload folding services manifest privateFile payload p.staged
      payload.bytes.toNat (fun _ _ => checkStop services) s = .ok u t) :
    (∃ new, Rows d size base
      ⟨p.first + payload.bytes.toNat / d.rowBytes.toNat, p.staged + payload.bytes.toNat⟩ t
      (bytes ++ services.bytesOf privateFile payload) copied new) ∧
      (services.bytesOf privateFile payload).length = payload.bytes.toNat := by
  let content := (services.file privateFile payload.file).content
  let stop := p.first - p.staged / d.rowBytes.toNat
  -- One piece holds the whole payload.
  let I : Nat → Run → Prop := fun offset s' => (offset = 0 ∨ offset = payload.bytes.toNat) ∧
    s'.staging.length = size ∧
    s'.staging.take (p.staged + offset) = s.staging.take p.staged ++ content.take offset ∧
    ∃ new, s'.events = base ++ new ∧ Moves false d.id d.rowBytes.toNat stop copied new
  have consumes : Consumes payload p.staged payload.bytes.toNat (fun _ _ => checkStop services)
      content I := by
    intro offset s' t' more inside ⟨at_, length, kept, new', events, moves⟩ eq long _ consumed
    obtain rfl : offset = 0 := by omega
    have same := checkStop_ok consumed
    have whole : more.length = payload.bytes.toNat := by rw [long]; omega
    refine ⟨.inr (by omega), ?_, ?_, new' ++ [.fill p.staged more.length], ?_, moves.fill⟩
    · rw [same.staging, length_overwrite (by omega), length]
    · rw [same.staging, Nat.zero_add, take_overwrite (by omega)]
      have taken : content.take more.length = more := by
        rw [long]
        exact eq.symm
      have kept' := kept
      rw [Nat.add_zero, List.take_zero, List.append_nil] at kept'
      rw [kept', taken]
    · rw [same.events, events, List.append_assoc]
  obtain ⟨⟨_, length, kept, new', events, moves⟩, long⟩ := readPayload_ok (I := I) consumes
    ⟨.inl rfl, before.length, by simp, new, before.events, before.moves⟩ run
  obtain ⟨n, rows⟩ := aligned
  have quotient : payload.bytes.toNat / d.rowBytes.toNat = n := by
    rw [rows, Nat.mul_div_cancel_left _ rows_pos]
  refine ⟨⟨new', length, events, (Nat.dvd_add_right before.aligned).mpr ⟨n, rows⟩, room, ?_, ?_,
    ?_⟩, long⟩
  · have same : p.first + n - (p.staged + payload.bytes.toNat) / d.rowBytes.toNat = stop := by
      rw [rows, Nat.add_mul_div_left _ _ rows_pos]
      omega
    dsimp only
    rw [quotient, same]
    exact moves
  · rw [kept, ← List.append_assoc, before.read]
    rfl
  · rw [List.length_append, long, ← before.rows, quotient, Nat.add_mul, rows, Nat.mul_comm n]

include kind rows_pos in
theorem makeRoom_ok {payload : DiskPayload} (before : Rows d size base p s bytes copied new)
    (run : makeRoom services d size payload false p s = .ok p' t) :
    (payload.bytes.toNat ≤ rowsSize d size - p'.staged ∨ p'.staged = 0) ∧
      ∃ copied new, Rows d size base p' t bytes copied new := by
  unfold makeRoom at run
  split at run
  · obtain ⟨empty, _, after⟩ := flush_ok kind rows_pos before run
    exact ⟨.inr empty, after⟩
  · rename_i roomy
    obtain ⟨rfl, rfl⟩ := pure_ok.mp run
    exact ⟨.inl (by simpa using roomy), copied, new, before⟩

include kind rows_pos in
/-- One payload of the component, collected or piece by piece. -/
theorem read_ok {payload : DiskPayload} {privateFile : Bool}
    (before : Rows d size base p s bytes copied new)
    (aligned : d.rowBytes.toNat ∣ payload.bytes.toNat)
    (run : read folding services manifest d size privateFile payload false p s = .ok p' t) :
    (∃ copied new, Rows d size base p' t (bytes ++ services.bytesOf privateFile payload) copied
      new) ∧ (services.bytesOf privateFile payload).length = payload.bytes.toNat := by
  obtain ⟨q, s₁, roomy, run₁⟩ := bind_ok.mp run
  obtain ⟨_, s₂, piece, advanced⟩ := bind_ok.mp run₁
  obtain ⟨room, copied, new, ready⟩ := makeRoom_ok kind rows_pos before roomy
  have within := rowsSize_le kind size
  have after : (∃ copied new, Rows d size base
      ⟨q.first + payload.bytes.toNat / d.rowBytes.toNat,
        if payload.bytes.toNat ≤ rowsSize d size then q.staged + payload.bytes.toNat
        else q.staged⟩ s₂ (bytes ++ services.bytesOf privateFile payload) copied new) ∧
      (services.bytesOf privateFile payload).length = payload.bytes.toNat := by
    have held := ready.room
    unfold readPiece at piece
    rw [if_neg Bool.false_ne_true] at piece
    split at piece
    · rename_i small
      rw [if_pos small]
      obtain ⟨⟨new, rows⟩, long⟩ := collect_ok rows_pos ready aligned (by omega) within piece
      exact ⟨⟨copied, new, rows⟩, long⟩
    · rename_i large
      rw [if_neg large]
      have empty : q.staged = 0 := by omega
      have copied_eq : copied = bytes := by
        have read := ready.read
        rwa [empty, List.take_zero, List.append_nil] at read
      have moves := ready.moves
      rw [empty, Nat.zero_div, Nat.sub_zero, copied_eq] at moves
      obtain ⟨⟨new, events, moves⟩, length, long⟩ := stream_ok rows_pos
        (dvd_rowsSize kind size) aligned (by rw [ready.length]; exact within) (.inr ⟨rfl, rfl⟩)
        ⟨_, ready.events, moves⟩ piece
      refine ⟨⟨bytes ++ services.bytesOf privateFile payload, new, length.trans ready.length,
        events, by rw [empty]; exact Nat.dvd_zero _, ready.room, ?_, ?_, ?_⟩, long⟩
      · dsimp only
        rw [empty, Nat.zero_div, Nat.sub_zero]
        exact moves
      · dsimp only
        rw [empty, List.take_zero, List.append_nil]
      · dsimp only
        rw [List.length_append, long, ← ready.rows, Nat.add_mul, Nat.div_mul_cancel aligned]
  obtain ⟨⟨copied, new, rows⟩, long⟩ := after
  refine ⟨?_, long⟩
  rw [if_neg Bool.false_ne_true] at advanced
  unfold advance at advanced
  dsimp only at advanced
  generalize (if payload.bytes.toNat ≤ rowsSize d size then q.staged + payload.bytes.toNat
    else q.staged) = staged at rows advanced
  split at advanced
  · obtain ⟨_, _, flushed⟩ := flush_ok kind rows_pos rows advanced
    exact flushed
  · obtain ⟨rfl, rfl⟩ := pure_ok.mp advanced
    exact ⟨copied, new, rows⟩

include kind rows_pos in
theorem readAll_ok {l : List (Bool × DiskPayload)}
    (before : Rows d size base p s bytes copied new)
    (aligned : ∀ x ∈ l, d.rowBytes.toNat ∣ x.2.bytes.toNat)
    (run : readAll folding services manifest d size (l.map fun x => (x.1, x.2, false)) p s =
      .ok p' t) :
    (∃ copied new, Rows d size base p' t
      (bytes ++ l.flatMap fun x => services.bytesOf x.1 x.2) copied new) ∧
      ∀ x ∈ l, (services.bytesOf x.1 x.2).length = x.2.bytes.toNat := by
  induction l generalizing p s bytes copied new with
  | nil =>
    obtain ⟨rfl, rfl⟩ := pure_ok.mp run
    exact ⟨⟨copied, new, by simpa using before⟩, by simp⟩
  | cons x rest ih =>
    obtain ⟨privateFile, payload⟩ := x
    have rest_of : ∀ {r : Run}, Same s r → (read folding services manifest d size privateFile
        payload false p >>= readAll folding services manifest d size
          (rest.map fun x => (x.1, x.2, false))) r = .ok p' t →
        (∃ copied new, Rows d size base p' t
          (bytes ++ ((privateFile, payload) :: rest).flatMap fun x => services.bytesOf x.1 x.2)
          copied new) ∧ ∀ x ∈ (privateFile, payload) :: rest,
            (services.bytesOf x.1 x.2).length = x.2.bytes.toNat := by
      intro r same run
      obtain ⟨q, s₁, first, others⟩ := bind_ok.mp run
      have start : Rows d size base p r bytes copied new :=
        ⟨by rw [same.staging]; exact before.length, by rw [same.events]; exact before.events,
          before.aligned, before.room, before.moves, by rw [same.staging]; exact before.read,
          before.rows⟩
      obtain ⟨⟨copied', new', rows⟩, long⟩ := read_ok kind rows_pos start
        (aligned _ List.mem_cons_self) first
      rw [List.flatMap_cons, ← List.append_assoc, List.forall_mem_cons]
      obtain ⟨all, lengths⟩ := ih rows (fun x mem => aligned x (List.mem_cons_of_mem _ mem)) others
      exact ⟨all, long, lengths⟩
    cases privateFile with
    | true => exact rest_of ⟨rfl, rfl⟩ run
    | false =>
      obtain ⟨_, r, stop, run₁⟩ := bind_ok.mp run
      exact rest_of (checkStop_ok stop) run₁

end rows

/-! ## Components -/

/-- What the geometry check of a valid manifest says about a component of rows. -/
structure RowGeometry (c : DiskComponent) : Prop where
  rowBytes : 0 < c.descriptor.rowBytes.toNat
  noState : c.privateState = none
  chunks : ∀ p ∈ c.chunks, p.bytes.toNat =
    c.descriptor.rowBytes.toNat * c.descriptor.rowsPerChunk.toNat
  count : c.chunks.length = c.position.validRows.toNat / c.descriptor.rowsPerChunk.toNat
  tail : (c.tail.toList.map (·.bytes.toNat)).sum =
    c.descriptor.rowBytes.toNat * (c.position.validRows.toNat % c.descriptor.rowsPerChunk.toNat)

theorem multiply_toNat {a b p : UInt64} (product : multiply a b = some p) :
    p.toNat = a.toNat * b.toNat := by
  unfold multiply at product
  split at product
  · cases product
  · rename_i fits
    cases product
    rw [UInt64.toNat_mul]
    refine Nat.mod_eq_of_lt ?_
    by_cases zero : a = 0
    · simp [zero]
    · have bound : b.toNat ≤ (2 ^ 64 - 1) / a.toNat := by
        have le : b ≤ 0xffffffffffffffff / a := by
          by_contra more
          exact fits ⟨zero, UInt64.not_le.mp more⟩
        simpa [UInt64.le_iff_toNat_le] using le
      have positive : 0 < a.toNat := Nat.pos_of_ne_zero fun none => zero (UInt64.toNat_inj.mp none)
      have := (Nat.le_div_iff_mul_le positive).mp bound
      rw [Nat.mul_comm]
      omega

theorem validateRows_geometry {c : DiskComponent} (valid : validateRows c = some ()) :
    RowGeometry c := by
  obtain ⟨_, shape, rest₁⟩ := of_option_bind valid
  obtain ⟨_, _, rest₂⟩ := of_option_bind rest₁
  obtain ⟨fullBytes, full, rest₃⟩ := of_option_bind rest₂
  obtain ⟨_, sizes, rest₄⟩ := of_option_bind rest₃
  obtain ⟨_, _, rest₅⟩ := of_option_bind rest₄
  obtain ⟨_, tailed, rest₆⟩ := of_option_bind rest₅
  have shape := of_invalidIf shape
  have sizes := of_invalidIf sizes
  have tailed := of_invalidIf tailed
  simp only [not_or, not_not, Bool.not_eq_true, Option.isSome_eq_false_iff,
    Option.isNone_iff_eq_none] at shape
  obtain ⟨rowBytes, _, _, noState, count⟩ := shape
  refine ⟨?_, noState, fun p mem => ?_, ?_, ?_⟩
  · exact Nat.pos_of_ne_zero fun none => rowBytes (UInt64.toNat_inj.mp none)
  · have same : p.bytes = fullBytes := by
      by_contra other
      exact sizes (List.any_eq_true.mpr ⟨p, mem, by simpa using other⟩)
    rw [same, multiply_toNat full]
  · rw [count, UInt64.toNat_div]
  · cases last : c.tail with
    | none =>
      have none_left : c.position.validRows % c.descriptor.rowsPerChunk = 0 := by
        simpa [last] using tailed
      have : c.position.validRows.toNat % c.descriptor.rowsPerChunk.toNat = 0 := by
        rw [← UInt64.toNat_mod, none_left]
        rfl
      simp [this]
    | some tail =>
      rw [last] at rest₆
      obtain ⟨tailBytes, product, rest₇⟩ := of_option_bind rest₆
      have same := not_not.mp (of_invalidIf rest₇)
      simp [same, multiply_toNat product, UInt64.toNat_mod]

/-- The payloads of a component of rows: its chunks, then its tail. -/
def rowPayloads (c : DiskComponent) : List (Bool × DiskPayload) :=
  c.chunks.map (false, ·) ++ c.tail.toList.map (true, ·)

section geometry
variable {c : DiskComponent} (geometry : RowGeometry c)
include geometry

theorem RowGeometry.payloads_eq :
    payloads c = (rowPayloads c).map fun x => (x.1, x.2, false) := by
  simp [payloads, rowPayloads, geometry.noState, Function.comp_def]

theorem RowGeometry.sum_bytes : ((rowPayloads c).map (·.2.bytes.toNat)).sum =
    c.position.validRows.toNat * c.descriptor.rowBytes.toNat := by
  have chunks : (c.chunks.map (·.bytes.toNat)).sum = c.chunks.length *
      (c.descriptor.rowBytes.toNat * c.descriptor.rowsPerChunk.toNat) := by
    rw [List.map_congr_left geometry.chunks]
    simp
  have rows := Nat.div_add_mod c.position.validRows.toNat c.descriptor.rowsPerChunk.toNat
  calc ((rowPayloads c).map (·.2.bytes.toNat)).sum
      = (c.chunks.map (·.bytes.toNat)).sum + (c.tail.toList.map (·.bytes.toNat)).sum := by
        simp [rowPayloads, Function.comp_def]
    _ = c.descriptor.rowBytes.toNat * (c.descriptor.rowsPerChunk.toNat *
          (c.position.validRows.toNat / c.descriptor.rowsPerChunk.toNat) +
          c.position.validRows.toNat % c.descriptor.rowsPerChunk.toNat) := by
        rw [chunks, geometry.tail, geometry.count, Nat.mul_add]
        ring
    _ = c.position.validRows.toNat * c.descriptor.rowBytes.toNat := by
        rw [rows, Nat.mul_comm]

theorem RowGeometry.aligned : ∀ x ∈ rowPayloads c,
    c.descriptor.rowBytes.toNat ∣ x.2.bytes.toNat := by
  intro x mem
  rcases List.mem_append.mp mem with mem | mem
  · obtain ⟨p, here, rfl⟩ := List.mem_map.mp mem
    exact ⟨_, geometry.chunks p here⟩
  · obtain ⟨p, here, rfl⟩ := List.mem_map.mp mem
    have tail := geometry.tail
    rw [Option.mem_def.mp (Option.mem_toList.mp here)] at tail
    exact ⟨_, by simpa using tail⟩

end geometry

/-- The bytes of a component's payloads, in the order of the manifest. -/
def Services.contents (services : Services) (c : DiskComponent) : List UInt8 :=
  (payloads c).flatMap fun x => services.bytesOf x.1 x.2.1

/-- The transfers of a component bring its rows, or its private state. -/
def Arrives (services : Services) (c : DiskComponent) (events : List Event) : Prop :=
  if c.descriptor.kind = .appendRows then
    Delivers false c.descriptor.id c.descriptor.rowBytes.toNat c.position.validRows.toNat
      (services.contents c) events
  else
    Delivers true c.descriptor.id 1 c.descriptor.stateBytes.toNat (services.contents c) events

section component
variable {c : DiskComponent} {u : Unit}

theorem restoreRows_ok (geometry : RowGeometry c) (kind : c.descriptor.kind = .appendRows)
    (length : s.staging.length = size)
    (run : restoreComponent folding services manifest size c s = .ok u t) :
    t.staging.length = size ∧ ∃ new, t.events = s.events ++ new ∧
      Moves false c.descriptor.id c.descriptor.rowBytes.toNat c.position.validRows.toNat
        (services.contents c) new := by
  obtain ⟨p, s₁, reading, run₁⟩ := bind_ok.mp run
  obtain ⟨q, s₂, flushed, done⟩ := bind_ok.mp run₁
  obtain ⟨_, rfl⟩ := pure_ok.mp done
  have start : Rows c.descriptor size s.events {} s [] [] [] :=
    ⟨length, (List.append_nil _).symm, Nat.dvd_zero _, Nat.zero_le _, by simpa using Moves.nil,
      by simp, by simp⟩
  rw [geometry.payloads_eq] at reading
  obtain ⟨⟨copied, new, rows⟩, lengths⟩ := readAll_ok kind geometry.rowBytes start
    geometry.aligned reading
  obtain ⟨empty, _, copied', new', rows'⟩ := flush_ok kind geometry.rowBytes rows flushed
  refine ⟨rows'.length, new', rows'.events, ?_⟩
  have all : copied' = services.contents c := by
    have read := rows'.read
    rw [empty, List.take_zero, List.append_nil, List.nil_append] at read
    rw [read, Services.contents, geometry.payloads_eq, List.flatMap_map]
  have first : q.first = c.position.validRows.toNat := by
    have total := rows'.rows
    rw [List.nil_append, List.length_flatMap, List.map_congr_left lengths,
      geometry.sum_bytes] at total
    exact Nat.eq_of_mul_eq_mul_right geometry.rowBytes total
  have moves := rows'.moves
  rwa [empty, Nat.zero_div, Nat.sub_zero, first, all] at moves

theorem restoreState_ok (valid : validateState manifest c = some ())
    (length : s.staging.length = size)
    (run : restoreComponent folding services manifest size c s = .ok u t) :
    t.staging.length = size ∧ ∃ new, t.events = s.events ++ new ∧
      Moves true c.descriptor.id 1 c.descriptor.stateBytes.toNat (services.contents c) new := by
  have shape := of_invalidIf valid
  simp only [not_or, not_not] at shape
  obtain ⟨_, _, _, chunks, tail, state, _⟩ := shape
  obtain ⟨payload, state, bytes⟩ := Option.map_eq_some_iff.mp state
  have tail : c.tail = none := by simpa using tail
  have one : payloads c = [(true, payload, true)] := by simp [payloads, chunks, tail, state]
  have contents : services.contents c = services.bytesOf true payload := by
    simp [Services.contents, one]
  have unflushed : ∀ {q : Progress} {r r' : Run}, flush services c.descriptor {} r = .ok q r' →
      q = {} ∧ r' = r := by
    intro q r r' run
    obtain ⟨rfl, rfl⟩ := pure_ok.mp run
    exact ⟨rfl, rfl⟩
  obtain ⟨p, s₁, reading, run₁⟩ := bind_ok.mp run
  obtain ⟨q, s₂, flushed, done⟩ := bind_ok.mp run₁
  obtain ⟨_, rfl⟩ := pure_ok.mp done
  rw [one] at reading
  obtain ⟨p₁, s₃, first, last⟩ := bind_ok.mp reading
  obtain ⟨rfl, rfl⟩ := pure_ok.mp last
  obtain ⟨p₂, s₄, roomy, first₁⟩ := bind_ok.mp first
  obtain ⟨_, s₅, piece, first₂⟩ := bind_ok.mp first₁
  obtain ⟨rfl, rfl⟩ := pure_ok.mp first₂
  obtain ⟨rfl, rfl⟩ := unflushed roomy
  obtain ⟨_, rfl⟩ := unflushed flushed
  obtain ⟨⟨new, events, moves⟩, length', _⟩ := stream_ok Nat.one_pos (Nat.one_dvd _)
    (Nat.one_dvd _) (Nat.le_of_eq length.symm) (.inl ⟨rfl, rfl, rfl⟩)
    ⟨[], (List.append_nil _).symm, Moves.nil⟩ piece
  refine ⟨length'.trans length, new, events, ?_⟩
  rw [contents, ← bytes]
  simpa using moves

theorem restoreComponent_ok (valid : validateKind manifest c = some ())
    (length : s.staging.length = size)
    (run : restoreComponent folding services manifest size c s = .ok u t) :
    t.staging.length = size ∧ ∃ new, t.events = s.events ++ new ∧ Settled new ∧
      Own [c.descriptor.id] new ∧ Arrives services c new := by
  unfold validateKind at valid
  split at valid
  · rename_i kind
    obtain ⟨length', new, events, moves⟩ := restoreRows_ok (validateRows_geometry valid) kind
      length run
    exact ⟨length', new, events, moves.settled, moves.own, by
      rw [Arrives, if_pos kind]
      exact moves.toDelivers⟩
  · rename_i kind
    split at valid
    · obtain ⟨length', new, events, moves⟩ := restoreState_ok valid length run
      exact ⟨length', new, events, moves.settled, moves.own, by
        rw [Arrives, if_neg kind]
        exact moves.toDelivers⟩
    · cases valid

/-- Events without transfers of the component change nothing for it. -/
theorem Arrives.of_moved {events events' : List Event} (arrives : Arrives services c events)
    (same : ∀ k, moved k c.descriptor.id events' = moved k c.descriptor.id events) :
    Arrives services c events' := by
  unfold Arrives at arrives ⊢
  split
  · rw [if_pos ‹_›] at arrives
    exact ⟨by rw [same]; exact arrives.tiles, by rw [same]; exact arrives.sized,
      by rw [same]; exact arrives.gathered⟩
  · rw [if_neg ‹_›] at arrives
    exact ⟨by rw [same]; exact arrives.tiles, by rw [same]; exact arrives.sized,
      by rw [same]; exact arrives.gathered⟩

theorem restoreComponents_ok {cs : List DiskComponent}
    (valid : ∀ c ∈ cs, validateKind manifest c = some ())
    (distinct : cs.Pairwise fun a b => a.descriptor.id ≠ b.descriptor.id)
    (length : s.staging.length = size)
    (run : cs.forM (restoreComponent folding services manifest size) s = .ok u t) :
    ∃ new, t.events = s.events ++ new ∧ Settled new ∧ Own (cs.map (·.descriptor.id)) new ∧
      ∀ c ∈ cs, Arrives services c new := by
  induction cs generalizing s with
  | nil =>
    obtain ⟨_, rfl⟩ := pure_ok.mp run
    exact ⟨[], (List.append_nil _).symm, .nil, fun _ _ _ => rfl, by simp⟩
  | cons c rest ih =>
    obtain ⟨_, s₁, first, others⟩ := bind_ok.mp run
    obtain ⟨apart, distinct⟩ := List.pairwise_cons.mp distinct
    obtain ⟨length', new, events, settled, own, arrives⟩ :=
      restoreComponent_ok (valid c List.mem_cons_self) length first
    obtain ⟨new', events', settled', own', arrives'⟩ :=
      ih (fun c mem => valid c (List.mem_cons_of_mem _ mem)) distinct length' others
    refine ⟨new ++ new', by rw [events', events, List.append_assoc], settled.append settled',
      fun k id other => ?_, List.forall_mem_cons.mpr ⟨?_, fun c' mem => ?_⟩⟩
    · rw [List.map_cons, List.mem_cons, not_or] at other
      rw [moved_append, own k id (by simpa using other.1), own' k id other.2, List.append_nil]
    · refine arrives.of_moved fun k => ?_
      have absent : c.descriptor.id ∉ rest.map (·.descriptor.id) := fun mem => by
        obtain ⟨c', mem, eq⟩ := List.mem_map.mp mem
        exact apart c' mem eq.symm
      rw [moved_append, own' k _ absent, List.append_nil]
    · refine (arrives' c' mem).of_moved fun k => ?_
      have absent : c'.descriptor.id ∉ [c.descriptor.id] := by
        simpa using fun eq => apart c' mem eq.symm
      rw [moved_append, own k _ absent, List.nil_append]

end component

/-! ## The whole restore -/

theorem validateComponents_ok {m : DiskManifest} {cs : List DiskComponent} {v w : Validation}
    (valid : cs.foldlM (validateComponent m) v = some w) :
    (∀ c ∈ cs, validateKind m c = some ()) ∧
      (cs.Pairwise fun a b => a.descriptor.id < b.descriptor.id) ∧
      ∀ id, v.previous = some id → ∀ c ∈ cs, id < c.descriptor.id := by
  induction cs generalizing v with
  | nil => simp
  | cons c rest ih =>
    obtain ⟨v', first, others⟩ := of_option_bind valid
    obtain ⟨_, order, first₁⟩ := of_option_bind first
    obtain ⟨_, _, first₂⟩ := of_option_bind first₁
    obtain ⟨_, kind, first₃⟩ := of_option_bind first₂
    obtain ⟨_, _, first₄⟩ := of_option_bind first₃
    obtain ⟨_, _, first₅⟩ := of_option_bind first₄
    obtain rfl := (Option.some.inj first₅)
    obtain ⟨kinds, ordered, behind⟩ := ih others
    have above := behind c.descriptor.id rfl
    refine ⟨List.forall_mem_cons.mpr ⟨kind, kinds⟩, List.pairwise_cons.mpr ⟨above, ordered⟩,
      fun id previous => ?_⟩
    have here : id < c.descriptor.id := by
      have order := of_invalidIf order
      simp only [previous, Option.any_some, not_or, decide_eq_true_eq, UInt32.not_le] at order
      exact order.2.2
    exact List.forall_mem_cons.mpr ⟨here, fun c' mem => UInt32.lt_trans here (above c' mem)⟩

theorem restoreBlock_ok {compatibility : CompatibilityDigest} {adapter : Adapter} {u : Unit}
    (stored : ∀ manifest, services.snapshot = some manifest → validate manifest = some ())
    (run : restoreBlock folding services compatibility adapter s = .ok u t) :
    ∃ manifest new, services.snapshot = some manifest ∧ t.events = s.events ++ new ∧
      Settled new ∧ ∀ c ∈ manifest.components, Arrives services c new := by
  obtain ⟨_, s₁, locked, run₁⟩ := bind_ok.mp run
  obtain ⟨_, s₂, opened, run₂⟩ := bind_ok.mp run₁
  have same := (checkStops_ok locked).trans (ask_ok opened)
  cases snapshot : services.snapshot with
  | none =>
    rw [snapshot] at run₂
    exact absurd run₂ throw_ok
  | some manifest =>
    rw [snapshot] at run₂
    obtain ⟨_, s₃, supported, run₃⟩ := bind_ok.mp run₂
    obtain ⟨_, s₄, reserved, run₄⟩ := bind_ok.mp run₃
    obtain ⟨_, s₅, got, run₅⟩ := bind_ok.mp run₄
    obtain ⟨_, s₆, laid, run₆⟩ := bind_ok.mp run₅
    obtain ⟨_, s₇, stop, run₇⟩ := bind_ok.mp run₆
    obtain ⟨_, s₈, began, run₈⟩ := bind_ok.mp run₇
    obtain ⟨_, s₉, begun, run₉⟩ := bind_ok.mp run₈
    obtain ⟨_, s₁₀, hinted, run₁₀⟩ := bind_ok.mp run₉
    obtain ⟨_, s₁₁, components, run₁₁⟩ := bind_ok.mp run₁₀
    obtain ⟨_, s₁₂, stop', run₁₂⟩ := bind_ok.mp run₁₁
    obtain ⟨_, s₁₃, validating, last⟩ := bind_ok.mp run₁₂
    obtain ⟨_, rfl⟩ := reject_ok.mp supported
    obtain ⟨rfl, rfl⟩ := get_ok.mp got
    obtain ⟨_, rfl⟩ := reject_ok.mp laid
    obtain ⟨_, rfl⟩ := reject_ok.mp begun
    have before := (same.trans (ask_ok reserved)).trans (checkStop_ok stop)
    have hints := ask_ok hinted
    have after := checkStop_ok stop'
    obtain rfl : t = s₁₃ := by
      cases answer : services.validates with
      | none =>
        rw [answer] at last
        exact absurd last throw_ok
      | some valid =>
        rw [answer] at last
        exact (reject_ok.mp last).2
    obtain ⟨_, _, checked⟩ := of_option_bind (stored manifest snapshot)
    obtain ⟨_, valid, _⟩ := of_option_bind checked
    obtain ⟨kinds, ordered, _⟩ := validateComponents_ok valid
    have staging := hints.staging
    have events := hints.events
    rw [record_ok began] at staging events
    obtain ⟨new, brought, settled, _, arrives⟩ := restoreComponents_ok kinds
      (ordered.imp fun lt => UInt32.ne_of_lt lt) (by rw [staging, (checkStop_ok stop).staging])
      components
    refine ⟨manifest, .beginRestore (manifest.components.map (·.position)) :: (new ++ [.validate]),
      rfl, ?_, .other rfl (settled.append (.other rfl .nil)), fun c mem => ?_⟩
    · rw [record_ok validating, after.events, brought, events, before.events]
      simp
    · refine (arrives c mem).of_moved fun k => ?_
      change moved k c.descriptor.id ([.beginRestore _] ++ (new ++ [.validate])) = _
      rw [moved_append, moved_append]
      exact (List.nil_append _).trans (List.append_nil _)

/-- How a failed restore ends: the slot is invalidated first, and only then the callbacks run. -/
structure Recovers (services : Services) (result : Restored) : Prop where
  invalidates : ∃ calls, result.recovery = .invalidate :: calls ∧ .invalidate ∉ calls
  refused : services.invalidates = false →
    result.recovery = [.invalidate] ∧ result.outcome = .threw
  returns : services.invalidates = true → services.dependencyFailed ≠ .throws →
    services.fallback ≠ .throws → result.outcome = .returned false

theorem callbacks_recovery (services : Services) (error : Error) (stopped : Bool) :
    .invalidate ∉ (callbacks services error stopped).1 ∧
      (callbacks services error stopped).2 ≠ .returned true ∧
      (services.dependencyFailed ≠ .throws → services.fallback ≠ .throws →
        (callbacks services error stopped).2 = .returned false) := by
  cases first : services.dependencyFailed <;> cases last : services.fallback <;>
    cases stopped <;> cases error <;> simp [callbacks, first, last]

/-- A restore that succeeds has brought every component of the manifest, each transfer settled
before staging was used again; one that fails has invalidated the slot before any callback, and
returns false unless the slot cannot be invalidated or a callback throws. -/
theorem restore_exact (folding : Bool) (services : Services)
    (compatibility : CompatibilityDigest) (adapter : Adapter) (staging : List UInt8)
    (stored : ∀ manifest, services.snapshot = some manifest → validate manifest = some ()) :
    let result := restore folding services compatibility adapter staging
    if result.outcome = .returned true then
      ∃ manifest, services.snapshot = some manifest ∧ Settled result.run.events ∧
        ∀ c ∈ manifest.components, Arrives services c result.run.events
    else Recovers services result := by
  intro result
  cases run : restoreBlock folding services compatibility adapter { staging } with
  | ok u t =>
    obtain ⟨manifest, new, snapshot, events, settled, arrives⟩ := restoreBlock_ok stored run
    have same : result = ⟨.returned true, t, []⟩ := by
      simp [result, restore, run]
    rw [same, if_pos rfl, events]
    exact ⟨manifest, snapshot, settled, arrives⟩
  | error error t =>
    obtain ⟨first, failed, returned⟩ := callbacks_recovery services error (services.stopped t.asked)
    cases invalidates : services.invalidates with
    | false =>
      have same : result = ⟨.threw, t, [.invalidate]⟩ := by
        simp [result, restore, run, invalidates]
      rw [same, if_neg (by simp)]
      exact ⟨⟨[], rfl, by simp⟩, fun _ => ⟨rfl, rfl⟩, fun able => by simp [invalidates] at able⟩
    | true =>
      have same : result = ⟨(callbacks services error (services.stopped t.asked)).2, t,
          .invalidate :: (callbacks services error (services.stopped t.asked)).1⟩ := by
        simp [result, restore, run, invalidates]
      rw [same, if_neg failed]
      exact ⟨⟨_, rfl, first⟩, fun unable => by simp [invalidates] at unable, fun _ => returned⟩

/-- The checkpoint is missing, and the adapter cannot invalidate the slot. -/
theorem restore_throws :
    let services : Services :=
      { snapshot := none, file := fun _ _ => ⟨true, 0, [], [], false, true⟩, invalidates := false }
    let result := restore false services (Vector.replicate 32 0) ⟨[], true, true⟩ []
    result.outcome ≠ .returned true ∧ result.outcome ≠ .returned false := by
  decide

/-- Three rows in two payloads, through a staging of two rows, and a private state. -/
theorem restore_exact_of_two :
    let rows : ComponentDescriptor := ⟨1, 1, .appendRows, 2, 2, 0⟩
    let state : ComponentDescriptor := ⟨2, 1, .privateState, 0, 0, 3⟩
    let chunk : DiskPayload := ⟨Vector.replicate 16 1, 4, 0⟩
    let tail : DiskPayload := ⟨Vector.replicate 16 2, 2, 0⟩
    let whole : DiskPayload := ⟨Vector.replicate 16 3, 3, 0⟩
    let manifest : DiskManifest := ⟨1, 1, Vector.replicate 32 0, [], [7, 8, 9],
      [⟨rows, ⟨1, 3⟩, [chunk], some tail, none⟩, ⟨state, ⟨2, 3⟩, [], none, some whole⟩], .prompt, 0⟩
    let services : Services :=
      { snapshot := some manifest
        file := fun privateFile file =>
          if privateFile = false then ⟨true, 4, [1, 2, 3, 4], [some 3, none, some 9], true, true⟩
          else if file = tail.file then ⟨true, 2, [5, 6], [some 9], true, true⟩
          else ⟨true, 3, [7, 8, 9], [some 1, some 9], true, true⟩ }
    let result := restore false services (Vector.replicate 32 0) ⟨[rows, state], true, true⟩
      [0, 0, 0, 0, 0]
    result.outcome = .returned true ∧ Settled result.run.events ∧
      ∀ c ∈ manifest.components, Arrives services c result.run.events := by
  intro rows state chunk tail whole manifest services result
  have restored : result.outcome = .returned true := by decide +kernel
  have exact := restore_exact false services (Vector.replicate 32 0) ⟨[rows, state], true, true⟩
    [0, 0, 0, 0, 0] fun m eq => by
      cases eq
      decide +kernel
  rw [if_pos restored] at exact
  obtain ⟨m, eq, settled, arrives⟩ := exact
  cases eq
  exact ⟨restored, settled, arrives⟩

end Gufo.Streaming
