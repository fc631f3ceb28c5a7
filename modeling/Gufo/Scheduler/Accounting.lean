import Gufo.Scheduler.Output

/-!
# The budget is the sum of the buffers

Each action moves the shared counter by exactly what it moves in its own request.
Between the exchange of `TryReserve` and the queueing of the piece a request
holds bytes that are in no queue yet; `held` counts them.
-/

namespace Gufo.Scheduler

open Gufo.Sums

namespace OutputBudget
variable {b : OutputBudget} {bytes : UInt64}

@[simp] theorem release_limit : (b.release bytes).limit = b.limit := by
  unfold release
  split <;> rfl

theorem release_bufferedBytes (h : bytes.toNat ≤ b.bufferedBytes.toNat) :
    (b.release bytes).bufferedBytes.toNat = b.bufferedBytes.toNat - bytes.toNat := by
  unfold release
  split
  · exact toNat_sub h
  · rename_i zero
    have : bytes.toNat = 0 := by
      rw [UInt64.lt_iff_toNat_lt] at zero
      simpa using zero
    omega

theorem admits_room {current : UInt64} (h : b.admits current bytes) :
    (current + bytes).toNat = current.toNat + bytes.toNat ∧
      current.toNat + bytes.toNat ≤ b.limit.toNat := by
  simp only [admits, Bool.and_eq_true, decide_eq_true_eq, UInt64.le_iff_toNat_le] at h
  rw [toNat_sub h.1] at h
  have bound := b.limit.toNat_lt
  exact ⟨toNat_add (by omega), by omega⟩

end OutputBudget

/-- The cost of a piece, as a number. -/
def cost (piece : OutputPiece) : Nat := (queuedPieceCost piece).toNat

/-- The piece that `PublishPiece` is charging. -/
def Section.pending : Section → List OutputPiece
  | .free => []
  | .reserving piece _ => [piece]
  | .reserved piece _ => [piece]

/-- What the budget holds for a piece that is not queued yet. -/
def Section.held : Section → Nat
  | .reserved piece _ => cost piece
  | _ => 0

namespace ScheduledRequest

/-! ## What one action can do -/

/-- The actions that went through, each with what it needed. -/
inductive Acts (b : OutputBudget) (r : ScheduledRequest) : OutputBudget × ScheduledRequest → Prop
  | publishPiece (piece : OutputPiece) (free : r.holder = .free) (running : r.terminal = false)
      (accepted : r.refused = false) : Acts b r (b, r.publishPiece piece b)
  | tryReserve (piece : OutputPiece) (current : UInt64) (spurious : Bool)
      (holder : r.holder = .reserving piece current) :
      Acts b r (r.tryReserve piece current spurious b)
  | queuePiece (piece : OutputPiece) (updated : UInt64) (grown : Bool)
      (holder : r.holder = .reserved piece updated) : Acts b r (r.queuePiece piece updated grown b)
  | publishAdmission : Acts b r (b, r.publishAdmission)
  | publishProgress (p : PromptProgress) : Acts b r (b, r.publishProgress p)
  | completeSuccess (reason : FinishReason) (free : r.holder = .free)
      (running : r.terminal = false) (accepted : r.refused = false) :
      Acts b r (r.completeSuccess reason b)
  | completeCancelled (thrown : Option (Failure × Bool)) (free : r.holder = .free)
      (running : r.terminal = false) : Acts b r (r.completeCancelled thrown b)
  | completeFailure (failure : Failure) (free : r.holder = .free) :
      Acts b r (r.completeFailure failure b)
  | cancel : Acts b r (b, r.cancel)
  | wait (onToken onProgress onStart : Bool) (idle : r.consumer = .idle) :
      Acts b r (b, r.wait onToken onProgress onStart)
  | take (w : Waiting) (free : r.holder = .free) (waiting : r.consumer = .waiting w) :
      Acts b r (r.take w b)
  | handle (answer : Answer) (w : Waiting) (taken : Taken)
      (delivering : r.consumer = .delivering w taken) : Acts b r (b, r.handle answer w taken)
  | drop : Acts b r (b, r.drop)

theorem act_cases {r : ScheduledRequest} {b : OutputBudget} {a : Action}
    {after : OutputBudget × ScheduledRequest} (h : r.act b a = some after) : Acts b r after := by
  cases a with
  | publishPiece piece =>
    obtain ⟨⟨free, running, accepted⟩, done⟩ := Option.ite_none_right_eq_some.mp h
    cases done
    exact .publishPiece piece free running accepted
  | tryReserve spurious =>
    simp only [act] at h
    split at h
    · rename_i holder
      rw [← Option.some.inj h]
      exact .tryReserve _ _ spurious holder
    · cases h
  | queuePiece grown =>
    simp only [act] at h
    split at h
    · rename_i holder
      rw [← Option.some.inj h]
      exact .queuePiece _ _ grown holder
    · cases h
  | publishAdmission =>
    rw [← Option.some.inj (Option.ite_none_right_eq_some.mp h).2]
    exact .publishAdmission
  | publishProgress p =>
    rw [← Option.some.inj (Option.ite_none_right_eq_some.mp h).2]
    exact .publishProgress p
  | completeSuccess reason =>
    obtain ⟨⟨free, running, accepted⟩, done⟩ := Option.ite_none_right_eq_some.mp h
    rw [← Option.some.inj done]
    exact .completeSuccess reason free running accepted
  | completeCancelled thrown external =>
    obtain ⟨⟨free, running, _⟩, done⟩ := Option.ite_none_right_eq_some.mp h
    rw [← Option.some.inj done]
    exact .completeCancelled thrown free running
  | completeFailure failure =>
    obtain ⟨free, done⟩ := Option.ite_none_right_eq_some.mp h
    rw [← Option.some.inj done]
    exact .completeFailure failure free
  | cancel =>
    rw [← Option.some.inj (Option.ite_none_right_eq_some.mp h).2]
    exact .cancel
  | wait onToken onProgress onStart =>
    obtain ⟨⟨_, idle⟩, done⟩ := Option.ite_none_right_eq_some.mp h
    rw [← Option.some.inj done]
    exact .wait onToken onProgress onStart idle
  | take expired =>
    simp only [act] at h
    split at h
    · rename_i waiting
      obtain ⟨⟨free, _⟩, done⟩ := Option.ite_none_right_eq_some.mp h
      rw [← Option.some.inj done]
      exact .take _ free waiting
    · cases h
  | handle answer =>
    simp only [act] at h
    split at h
    · rename_i delivering
      rw [← Option.some.inj h]
      exact .handle answer _ _ delivering
    · cases h
  | drop =>
    simp only [act] at h
    split at h
    · rw [← Option.some.inj (Option.ite_none_right_eq_some.mp h).2]
      exact .drop
    · rw [← Option.some.inj (Option.ite_none_right_eq_some.mp h).2]
      exact .drop
    · cases h

/-! ## What it moves -/

/-- The bytes of the budget that the request answers for. -/
def held (r : ScheduledRequest) : Nat := r.bufferedOutputBytes.toNat + r.holder.held

structure Sound (r : ScheduledRequest) : Prop where
  queued : r.bufferedOutputBytes.toNat = total cost r.outputPieces
  room : r.bufferedOutputBytes.toNat + total cost r.holder.pending ≤ r.maxBufferedOutputBytes.toNat

/-- What one action does to the budget it shares with the other requests. -/
structure Moves (b : OutputBudget) (r : ScheduledRequest) (b' : OutputBudget)
    (r' : ScheduledRequest) : Prop where
  sound : r'.Sound
  total : b'.bufferedBytes.toNat + r.held = b.bufferedBytes.toNat + r'.held
  limit : b'.limit = b.limit
  within : b'.bufferedBytes.toNat ≤ b.limit.toNat
  most : r'.maxBufferedOutputBytes = r.maxBufferedOutputBytes

variable {r r' : ScheduledRequest} {b b' : OutputBudget}

theorem Sound.bounded (h : r.Sound) :
    r.bufferedOutputBytes.toNat ≤ r.maxBufferedOutputBytes.toNat := by
  have := h.room
  omega

/-- An action that leaves the queue alone moves nothing. -/
theorem Moves.quiet (h : r.Sound) (hb : b.bufferedBytes.toNat ≤ b.limit.toNat)
    (pieces : r'.outputPieces = r.outputPieces)
    (bytes : r'.bufferedOutputBytes = r.bufferedOutputBytes)
    (most : r'.maxBufferedOutputBytes = r.maxBufferedOutputBytes)
    (holder : r'.holder = r.holder) : Moves b r b r' where
  sound := by
    constructor
    · rw [bytes, pieces]
      exact h.queued
    · rw [bytes, holder, most]
      exact h.room
  total := by simp [held, bytes, holder]
  limit := rfl
  within := hb
  most := most

section
variable (sound : r.Sound) (holds : r.held ≤ b.bufferedBytes.toNat)
  (fits : b.bufferedBytes.toNat ≤ b.limit.toNat)
include sound

theorem moves_publishPiece (fits : b.bufferedBytes.toNat ≤ b.limit.toNat)
    (free : r.holder = .free) (piece : OutputPiece) :
    Moves b r b (r.publishPiece piece b) := by
  unfold publishPiece
  split
  · exact .quiet sound fits rfl rfl rfl rfl
  dsimp only
  split
  · exact .quiet sound fits rfl rfl rfl rfl
  · rename_i passed
    have bounded := sound.bounded
    simp only [gt_iff_lt, not_or, UInt64.lt_iff_toNat_lt] at passed
    rw [toNat_sub bounded] at passed
    refine ⟨⟨sound.queued, ?_⟩, ?_, rfl, fits, rfl⟩
    · simp only [Section.pending, total_cons, total_nil, cost]
      omega
    · simp [held, free, Section.held]

include fits in
theorem moves_tryReserve {piece : OutputPiece} {current : UInt64}
    (holder : r.holder = .reserving piece current) (spurious : Bool) :
    Moves b r (r.tryReserve piece current spurious b).1
      (r.tryReserve piece current spurious b).2 := by
  have room := sound.room
  simp only [holder, Section.pending] at room
  unfold tryReserve
  split
  · rename_i admitted
    obtain ⟨exact_, bound⟩ := OutputBudget.admits_room admitted
    unfold OutputBudget.exchange
    by_cases same : b.bufferedBytes = current ∧ spurious = false
    · rw [if_pos same]
      refine ⟨⟨sound.queued, room⟩, ?_, rfl, ?_, rfl⟩
      · simp only [held, holder, Section.held, exact_, same.1, cost]
        omega
      · simp only [exact_]
        omega
    · rw [if_neg same]
      exact ⟨⟨sound.queued, room⟩, by simp [held, holder, Section.held], rfl, fits, rfl⟩
  · refine ⟨⟨sound.queued, ?_⟩, by simp [held, holder, Section.held], rfl, fits, rfl⟩
    simpa [Section.pending] using sound.bounded

theorem charge_bufferedOutputBytes {piece : OutputPiece} {updated : UInt64}
    (holder : r.holder = .reserved piece updated) :
    (r.charge piece).bufferedOutputBytes.toNat = r.bufferedOutputBytes.toNat + cost piece := by
  have room := sound.room
  simp only [holder, Section.pending, total_cons, total_nil] at room
  have bound := r.maxBufferedOutputBytes.toNat_lt
  simp only [charge, cost] at room ⊢
  exact toNat_add (by omega)

include holds fits in
theorem moves_queuePiece {piece : OutputPiece} {updated : UInt64}
    (holder : r.holder = .reserved piece updated) (grown : Bool) :
    Moves b r (r.queuePiece piece updated grown b).1 (r.queuePiece piece updated grown b).2 := by
  have room := sound.room
  simp only [holder, Section.pending, total_cons, total_nil, Nat.add_zero] at room
  have charged := charge_bufferedOutputBytes sound holder
  simp only [held, holder, Section.held] at holds
  unfold queuePiece
  cases grown with
  | true =>
    refine ⟨⟨?_, ?_⟩, ?_, rfl, fits, rfl⟩
    · simp only [if_true, charged, total_append, total_cons, total_nil]
      simp only [charge, sound.queued, Nat.add_zero]
    · simp only [if_true, charged, Section.pending, total_nil]
      simpa only [charge, Nat.add_zero] using room
    · simp only [if_true, held, holder, Section.held, charged, OutputBudget.raise, Nat.add_zero]
  | false =>
    have covered : (queuedPieceCost piece).toNat ≤ (r.charge piece).bufferedOutputBytes.toNat := by
      rw [charged]
      exact Nat.le_add_left _ _
    have enough : (queuedPieceCost piece).toNat ≤ (b.raise updated).bufferedBytes.toNat :=
      Nat.le_trans (Nat.le_add_left _ _) holds
    have released := OutputBudget.release_bufferedBytes enough
    simp only [OutputBudget.raise] at released
    have back : (r.charge piece).bufferedOutputBytes.toNat - (queuedPieceCost piece).toNat =
        r.bufferedOutputBytes.toNat := by
      rw [charged]
      exact Nat.add_sub_cancel _ _
    simp only [cost] at holds room
    refine ⟨⟨?_, ?_⟩, ?_, ?_, ?_, rfl⟩
    · simp only [Bool.false_eq_true, if_false, toNat_sub covered, back]
      exact sound.queued
    · simp only [Bool.false_eq_true, if_false, toNat_sub covered, back, Section.pending, total_nil]
      simp only [charge]
      omega
    · simp only [Bool.false_eq_true, if_false, held, toNat_sub covered, back, Section.held, holder,
        OutputBudget.raise, released, cost]
      omega
    · simp [OutputBudget.raise]
    · simp only [Bool.false_eq_true, if_false, OutputBudget.raise, released]
      omega

/-- `ReleaseBufferedOutputLocked`, inside or outside of `PublishTerminal`. -/
theorem moves_publishTerminal (free : r.holder = .free) (holds : r.held ≤ b.bufferedBytes.toNat)
    (fits : b.bufferedBytes.toNat ≤ b.limit.toNat) (failure : Option Failure) (discard : Bool) :
    Moves b r (r.publishTerminal failure discard b).1 (r.publishTerminal failure discard b).2 := by
  unfold publishTerminal
  cases discard with
  | false => exact .quiet sound fits rfl rfl rfl rfl
  | true =>
    simp only [held, free, Section.held, Nat.add_zero] at holds
    have released := OutputBudget.release_bufferedBytes holds
    simp only [releaseBufferedOutputLocked, if_true]
    refine ⟨⟨rfl, ?_⟩, ?_, OutputBudget.release_limit, ?_, rfl⟩
    · simp [free, Section.pending]
    · simp only [held, free, Section.held, released, UInt64.toNat_zero]
      omega
    · omega

theorem moves_take (free : r.holder = .free) (holds : r.held ≤ b.bufferedBytes.toNat)
    (fits : b.bufferedBytes.toNat ≤ b.limit.toNat) (w : Waiting) :
    Moves b r (r.take w b).1 (r.take w b).2 := by
  unfold take
  split
  · exact .quiet sound fits rfl rfl rfl rfl
  split
  · exact .quiet sound fits rfl rfl rfl rfl
  · rename_i piece rest _ pieces
    have queued := sound.queued
    have bounded := sound.bounded
    rw [pieces, total_cons] at queued
    simp only [held, free, Section.held, Nat.add_zero] at holds
    have own : (queuedPieceCost piece).toNat ≤ r.bufferedOutputBytes.toNat := by
      rw [queued]
      exact Nat.le_add_right _ _
    have released := OutputBudget.release_bufferedBytes (Nat.le_trans own holds)
    refine ⟨⟨?_, ?_⟩, ?_, OutputBudget.release_limit, ?_, rfl⟩
    · simp only [toNat_sub own, queued, cost]
      omega
    · simp only [toNat_sub own, free, Section.pending, total_nil]
      omega
    · simp only [held, free, Section.held, toNat_sub own, released]
      omega
    · rw [released]
      omega
  · split
    · exact .quiet sound fits rfl rfl rfl rfl
    · exact .quiet sound fits rfl rfl rfl rfl

theorem moves_deliver (fits : b.bufferedBytes.toNat ≤ b.limit.toNat) (answer : Answer)
    (w : Waiting) : Moves b r b (r.deliver answer w) := by
  unfold deliver cancel
  split
  · exact .quiet sound fits rfl rfl rfl rfl
  all_goals
    split
    · exact .quiet sound fits rfl rfl rfl rfl
    · exact .quiet sound fits rfl rfl rfl rfl

/-- Handing a piece to its callback changes nothing that is charged. -/
theorem moves_handle (fits : b.bufferedBytes.toNat ≤ b.limit.toNat) (answer : Answer)
    (w : Waiting) (taken : Taken) : Moves b r b (r.handle answer w taken) := by
  cases taken with
  | start =>
    simp only [handle]
    split
    · exact moves_deliver sound fits answer _
    · exact .quiet sound fits rfl rfl rfl rfl
  | progress =>
    simp only [handle]
    split
    · exact moves_deliver sound fits answer w
    · exact .quiet sound fits rfl rfl rfl rfl
  | piece piece =>
    simp only [handle]
    split
    · have recorded : ({ r with delivered := r.delivered ++ [piece] } : ScheduledRequest).Sound :=
        ⟨sound.queued, sound.room⟩
      obtain ⟨kept, moved, limit, within, most⟩ := moves_deliver recorded fits answer w
      exact ⟨kept, moved, limit, within, most⟩
    · exact .quiet sound fits rfl rfl rfl rfl
  | terminal => exact .quiet sound fits rfl rfl rfl rfl

theorem moves_act (holds : r.held ≤ b.bufferedBytes.toNat)
    (fits : b.bufferedBytes.toNat ≤ b.limit.toNat) {after : OutputBudget × ScheduledRequest}
    (h : Acts b r after) : Moves b r after.1 after.2 := by
  cases h with
  | publishPiece piece free => exact moves_publishPiece sound fits free piece
  | tryReserve piece current spurious holder => exact moves_tryReserve sound fits holder spurious
  | queuePiece piece updated grown holder => exact moves_queuePiece sound holds fits holder grown
  | publishAdmission =>
    unfold publishAdmission
    split <;> exact .quiet sound fits rfl rfl rfl rfl
  | publishProgress =>
    unfold publishProgress
    split <;> exact .quiet sound fits rfl rfl rfl rfl
  | completeSuccess reason free =>
    have moved := moves_publishTerminal
      (r := { r with result := { r.result with finishReason := reason } })
      ⟨sound.queued, sound.room⟩ free holds fits none false
    exact ⟨moved.sound, moved.total, moved.limit, moved.within, moved.most⟩
  | completeCancelled thrown free =>
    have marked : ∀ failure, Moves b r
        (publishTerminal failure true b { r with result :=
          { r.result with cancelled := true, finishReason := .cancelled } }).1
        (publishTerminal failure true b { r with result :=
          { r.result with cancelled := true, finishReason := .cancelled } }).2 := by
      intro failure
      have moved := moves_publishTerminal (r := { r with result :=
          { r.result with cancelled := true, finishReason := .cancelled } })
        ⟨sound.queued, sound.room⟩ free holds fits failure true
      exact ⟨moved.sound, moved.total, moved.limit, moved.within, moved.most⟩
    unfold completeCancelled
    split
    · exact marked none
    · exact marked _
    · exact moves_publishTerminal sound free holds fits _ true
  | completeFailure failure free =>
    unfold completeFailure
    split
    · exact .quiet sound fits rfl rfl rfl rfl
    · exact moves_publishTerminal sound free holds fits _ true
  | cancel =>
    unfold cancel
    split <;> exact .quiet sound fits rfl rfl rfl rfl
  | wait => exact .quiet sound fits rfl rfl rfl rfl
  | take w free => exact moves_take sound free holds fits w
  | handle answer w taken => exact moves_handle sound fits answer w taken
  | drop =>
    unfold drop cancel
    split <;> exact .quiet sound fits rfl rfl rfl rfl

end

end ScheduledRequest

/-! ## Every interleaving -/

namespace TextGenerationScheduler

/-- The bytes a slot of the table answers for: none once its request is destroyed. -/
def heldBy : Option ScheduledRequest → Nat
  | some r => r.held
  | none => 0

structure Accounted (s : TextGenerationScheduler) : Prop where
  sound : ∀ r, some r ∈ s.requests → r.Sound
  limited : ∀ r, some r ∈ s.requests →
    r.maxBufferedOutputBytes = s.maxBufferedOutputBytesPerRequest
  total : s.budget.bufferedBytes.toNat = total heldBy s.requests
  within : s.budget.bufferedBytes.toNat ≤ s.budget.limit.toNat

variable {s t : TextGenerationScheduler}

theorem Accounted.holds (h : s.Accounted) {i : Nat} {r : ScheduledRequest}
    (hr : s.requests[i]? = some (some r)) : r.held ≤ s.budget.bufferedBytes.toNat := by
  rw [h.total]
  exact le_total heldBy hr

/-- The limits a scheduler was built with. -/
def SameLimits (s t : TextGenerationScheduler) : Prop :=
  t.budget.limit = s.budget.limit ∧
    t.maxBufferedOutputBytesPerRequest = s.maxBufferedOutputBytesPerRequest

theorem accounted_step {a : Step} (h : s.step a = some t) (ok : s.Accounted) :
    t.Accounted ∧ SameLimits s t := by
  cases a with
  | submit streamed progress =>
    simp only [step, Option.some.injEq] at h
    subst h
    refine ⟨⟨?_, ?_, ?_, ok.within⟩, rfl, rfl⟩
    · intro r hr
      simp only [submit, List.mem_append, List.mem_singleton, Option.some.injEq] at hr
      rcases hr with old | rfl
      · exact ok.sound r old
      · exact ⟨rfl, Nat.zero_le _⟩
    · intro r hr
      simp only [submit, List.mem_append, List.mem_singleton, Option.some.injEq] at hr
      rcases hr with old | rfl
      · exact ok.limited r old
      · rfl
    · simp only [submit, total_append, total_cons, total_nil, ← ok.total]
      rfl
  | act i a =>
    simp only [step] at h
    split at h
    · rename_i r hr
      simp only [Option.map_eq_some_iff, Prod.exists] at h
      obtain ⟨budget, r', hact, rfl⟩ := h
      have sound := ok.sound r (List.mem_of_getElem? hr)
      have moved := ScheduledRequest.moves_act sound (ok.holds hr) ok.within
        (ScheduledRequest.act_cases hact)
      have sums := total_set heldBy hr (some r')
      refine ⟨⟨?_, ?_, ?_, ?_⟩, moved.limit, rfl⟩
      · intro q hq
        rcases List.mem_or_eq_of_mem_set hq with old | new
        · exact ok.sound q old
        · cases new
          exact moved.sound
      · intro q hq
        rcases List.mem_or_eq_of_mem_set hq with old | new
        · exact ok.limited q old
        · cases new
          exact moved.most.trans (ok.limited r (List.mem_of_getElem? hr))
      · have moved := moved.total
        have before := ok.total
        simp only [heldBy] at sums moved ⊢
        omega
      · rw [moved.limit]
        exact moved.within
    · cases h
  | destroy i =>
    simp only [step] at h
    split at h
    · rename_i r hr
      simp only [Option.ite_none_right_eq_some, Option.some.injEq] at h
      obtain ⟨⟨_, free⟩, rfl⟩ := h
      have holds := ok.holds hr
      simp only [ScheduledRequest.held, free, Section.held, Nat.add_zero] at holds
      have released := OutputBudget.release_bufferedBytes holds
      have sums := total_set heldBy hr none
      refine ⟨⟨?_, ?_, ?_, ?_⟩, OutputBudget.release_limit, rfl⟩
      · intro q hq
        rcases List.mem_or_eq_of_mem_set hq with old | new
        · exact ok.sound q old
        · cases new
      · intro q hq
        rcases List.mem_or_eq_of_mem_set hq with old | new
        · exact ok.limited q old
        · cases new
      · have := ok.total
        simp only [heldBy, ScheduledRequest.held, free, Section.held] at sums
        dsimp only
        omega
      · have := ok.within
        dsimp only
        rw [OutputBudget.release_limit]
        omega
    · cases h

theorem accounted_run {steps : List Step} (h : s.run steps = some t) (ok : s.Accounted) :
    t.Accounted ∧ SameLimits s t := by
  induction steps generalizing s with
  | nil =>
    cases h
    exact ⟨ok, rfl, rfl⟩
  | cons a steps ih =>
    simp only [run, List.foldlM_cons, Option.bind_eq_bind, Option.bind_eq_some_iff] at h
    obtain ⟨u, first, rest⟩ := h
    obtain ⟨mid, limit⟩ := accounted_step first ok
    obtain ⟨last, limit'⟩ := ih rest mid
    exact ⟨last, limit'.1.trans limit.1, limit'.2.trans limit.2⟩

theorem accounted_start (perRequest limit : UInt64) : (start perRequest limit).Accounted :=
  ⟨by simp [start], by simp [start], by simp [start], by simp [start]⟩

end TextGenerationScheduler

end Gufo.Scheduler
