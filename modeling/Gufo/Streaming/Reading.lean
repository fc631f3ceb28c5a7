import Gufo.Streaming.State

/-!
# What reading a payload does

A payload goes through staging piece by piece. A loop rule says what holds after the last
piece from what each one does; whatever the sizes of the single reads, the pieces are the
beginning of the file.
-/

namespace Gufo.Streaming
open Gufo.Disk Gufo.Program

variable {services : Services} {s t : Run} {u : Unit} {event : Event}

/-! ## Questions and transfers -/

/-- Nothing but questions came between. -/
structure Same (s t : Run) : Prop where
  events : t.events = s.events
  staging : t.staging = s.staging

theorem Same.trans {r : Run} (first : Same r s) (second : Same s t) : Same r t :=
  ⟨second.events.trans first.events, second.staging.trans first.staging⟩

theorem question_ok {n : Nat} (run : question s = .ok n t) : Same s t := by
  obtain ⟨_, _, got, rest⟩ := bind_ok.mp run
  obtain ⟨rfl, rfl⟩ := get_ok.mp got
  obtain ⟨_, _, put, done⟩ := bind_ok.mp rest
  obtain ⟨_, rfl⟩ := pure_ok.mp done
  rw [set_ok.mp put]
  exact ⟨rfl, rfl⟩

theorem checkStop_ok (run : checkStop services s = .ok u t) : Same s t := by
  obtain ⟨_, _, asked, run⟩ := bind_ok.mp run
  rw [(reject_ok.mp run).2]
  exact question_ok asked

theorem ask_ok (run : ask services s = .ok u t) : Same s t := by
  obtain ⟨_, _, asked, run⟩ := bind_ok.mp run
  rw [(reject_ok.mp run).2]
  exact question_ok asked

theorem checkStops_ok {l : List Nat} (run : (l.forM fun _ => checkStop services) s = .ok u t) :
    Same s t := by
  induction l generalizing s with
  | nil =>
    obtain ⟨_, rfl⟩ := pure_ok.mp run
    exact ⟨rfl, rfl⟩
  | cons n rest ih =>
    obtain ⟨_, _, first, run⟩ := bind_ok.mp run
    exact (checkStop_ok first).trans (ih run)

theorem record_ok (run : record event s = .ok u t) :
    t = { s with events := s.events ++ [event] } := modify_ok.mp run

/-- A transfer has settled when the program goes on. -/
theorem transfer_ok (run : transfer services event s = .ok u t) :
    t.events = s.events ++ [event, .settled] ∧ t.staging = s.staging := by
  obtain ⟨_, s₁, first, run₁⟩ := bind_ok.mp run
  obtain ⟨_, s₂, leased, run₂⟩ := bind_ok.mp run₁
  obtain ⟨_, s₃, issued, run₃⟩ := bind_ok.mp run₂
  obtain ⟨n, s₄, second, run₄⟩ := bind_ok.mp run₃
  have same := question_ok first
  have later := question_ok second
  rw [record_ok issued, (reject_ok.mp leased).2] at later
  cases answer : services.transfer n with
  | threw =>
    rw [answer] at run₄
    exact absurd run₄ throw_ok
  | failed =>
    rw [answer] at run₄
    obtain ⟨_, _, _, thrown⟩ := bind_ok.mp run₄
    exact absurd thrown throw_ok
  | succeeded =>
    rw [answer] at run₄
    rw [record_ok run₄]
    exact ⟨by simp [later.events, same.events], later.staging.trans same.staging⟩

/-! ## Pieces of a file -/

theorem fillPiece_eq {reads reads' : List (Option Nat)} {wanted : Nat}
    {rest rest' bytes : List UInt8}
    (filled : fillPiece reads wanted rest = some (bytes, reads', rest')) :
    bytes = rest.take wanted ∧ bytes.length = wanted ∧ rest' = rest.drop wanted := by
  induction reads, wanted, rest using fillPiece.induct generalizing bytes with
  | case1 reads rest =>
    simp only [fillPiece, Option.some.injEq, Prod.mk.injEq] at filled
    obtain ⟨rfl, _, rfl⟩ := filled
    exact ⟨rfl, rfl, rfl⟩
  | case2 wanted rest => simp [fillPiece] at filled
  | case3 reads wanted rest ih => exact ih (by simpa [fillPiece] using filled)
  | case4 n reads wanted rest got =>
    rename_i none
    simp [fillPiece, show rest.take (min n (wanted + 1)) = [] from none] at filled
  | case5 n reads wanted rest got =>
    rename_i some ih
    have some' : rest.take (min n (wanted + 1)) ≠ [] := some
    rw [fillPiece, if_neg some'] at filled
    obtain ⟨⟨more, _, _⟩, found, eq⟩ := Option.map_eq_some_iff.mp filled
    cases eq
    obtain ⟨rfl, length, rfl⟩ := ih found
    have short : got.length ≤ wanted + 1 := by
      simp only [got, List.length_take]
      omega
    have here : got = rest.take got.length := by
      simp only [got, List.length_take]
      rw [Nat.min_comm, List.take_eq_take_min, Nat.min_comm]
    have sum : got.length + (wanted + 1 - got.length) = wanted + 1 := by omega
    refine ⟨?_, ?_, ?_⟩
    · calc got ++ (rest.drop got.length).take (wanted + 1 - got.length)
          = rest.take got.length ++ (rest.drop got.length).take (wanted + 1 - got.length) := by
            rw [← here]
        _ = rest.take (wanted + 1) := by rw [← List.take_add, sum]
    · rw [List.length_append, length, sum]
    · rw [List.drop_drop, sum]

/-! ## The loop over the pieces -/

section loop
variable {folding cached privateFile : Bool} {payload : DiskPayload} {base size : Nat}
  {consume : Nat → List UInt8 → M Unit} {content : List UInt8} {I : Nat → Run → Prop}

/-- A piece is in staging when it is consumed. -/
def Consumes (payload : DiskPayload) (base size : Nat) (consume : Nat → List UInt8 → M Unit)
    (content : List UInt8) (I : Nat → Run → Prop) : Prop :=
  ∀ offset s t bytes, offset < payload.bytes.toNat → I offset s →
    bytes = (content.drop offset).take (min size (payload.bytes.toNat - offset)) →
    bytes.length = min size (payload.bytes.toNat - offset) → 0 < bytes.length →
    consume offset bytes
      { s with
        events := s.events ++ [.fill base bytes.length]
        staging := overwrite s.staging base bytes } = .ok () t →
    I (offset + bytes.length) t

/-- An invariant of the offset holds at the end, and the file was as long as the payload. -/
theorem readLoop_ok (consumes : Consumes payload base size consume content I) (nonempty : 0 < size)
    {fuel : Nat} {reader reader' : Reader} (rest : reader.rest = content.drop reader.offset)
    (within : reader.offset ≤ payload.bytes.toNat) (held : reader.offset ≤ content.length)
    (enough : payload.bytes.toNat - reader.offset ≤ fuel) (start : I reader.offset s)
    (run : readLoop folding cached privateFile payload base size consume fuel reader s =
      .ok reader' t) :
    I payload.bytes.toNat t ∧ payload.bytes.toNat ≤ content.length := by
  induction fuel generalizing reader s with
  | zero =>
    obtain ⟨_, rfl⟩ := pure_ok.mp run
    have same : reader.offset = payload.bytes.toNat := by omega
    exact ⟨same ▸ start, same ▸ held⟩
  | succ fuel ih =>
    unfold readLoop at run
    split at run
    · rename_i more
      obtain ⟨_, s₁, recorded, run₁⟩ := bind_ok.mp run
      obtain ⟨⟨bytes, reads, rest'⟩, s₂, filled, run₂⟩ := bind_ok.mp run₁
      obtain ⟨_, s₃, written, run₃⟩ := bind_ok.mp run₂
      obtain ⟨_, s₄, consumed, run₄⟩ := bind_ok.mp run₃
      have piece : fillPiece reader.reads (min size (payload.bytes.toNat - reader.offset))
          reader.rest = some (bytes, reads, rest') ∧ s₂ = s₁ := by
        cases eq : fillPiece reader.reads (min size (payload.bytes.toNat - reader.offset))
            reader.rest with
        | none =>
          rw [eq] at filled
          exact absurd filled throw_ok
        | some found =>
          rw [eq] at filled
          obtain ⟨rfl, rfl⟩ := pure_ok.mp filled
          exact ⟨rfl, rfl⟩
      obtain ⟨taken, rfl⟩ := piece
      obtain ⟨eq, length, left⟩ := fillPiece_eq taken
      rw [rest] at eq left
      rw [modify_ok.mp written, record_ok recorded] at consumed
      have next := consumes reader.offset s s₄ bytes more start eq length (by omega)
        (by rwa [length])
      rw [length] at next
      have fits : reader.offset + min size (payload.bytes.toNat - reader.offset) ≤
          content.length := by
        rw [eq, List.length_take, List.length_drop] at length
        omega
      exact ih (by rw [left, List.drop_drop]) (by dsimp only; omega) fits
        (by dsimp only; omega) next run₄
    · obtain ⟨_, rfl⟩ := pure_ok.mp run
      have same : reader.offset = payload.bytes.toNat := by omega
      exact ⟨same ▸ start, same ▸ held⟩

/-- What a dependency holds, as far as the payload goes. -/
def Services.bytesOf (services : Services) (privateFile : Bool) (payload : DiskPayload) :
    List UInt8 :=
  (services.file privateFile payload.file).content.take payload.bytes.toNat

theorem readPayload_ok {manifest : DiskManifest}
    (consumes : Consumes payload base size consume
      (services.file privateFile payload.file).content I) (start : I 0 s)
    (run : readPayload folding services manifest privateFile payload base size consume s =
      .ok u t) :
    I payload.bytes.toNat t ∧
      (services.bytesOf privateFile payload).length = payload.bytes.toNat := by
  obtain ⟨_, s₁, leased, run₁⟩ := bind_ok.mp run
  obtain ⟨_, s₂, contained, run₂⟩ := bind_ok.mp run₁
  obtain ⟨_, s₃, opened, run₃⟩ := bind_ok.mp run₂
  obtain ⟨reader, s₄, loop, run₄⟩ := bind_ok.mp run₃
  obtain ⟨allowed, rfl⟩ := reject_ok.mp leased
  obtain ⟨_, rfl⟩ := reject_ok.mp contained
  obtain ⟨_, rfl⟩ := reject_ok.mp opened
  obtain ⟨_, rfl⟩ := reject_ok.mp run₄
  have nonempty : 0 < size := by
    by_contra zero
    exact allowed (.inr (by omega))
  obtain ⟨done, long⟩ := readLoop_ok consumes nonempty rfl (Nat.zero_le _) (Nat.zero_le _)
    (Nat.sub_le _ _) start loop
  exact ⟨done, by rw [Services.bytesOf, List.length_take, Nat.min_eq_left long]⟩

end loop

end Gufo.Streaming
