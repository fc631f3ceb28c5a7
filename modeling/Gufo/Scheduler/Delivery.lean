import Mathlib.Data.List.ReduceOption
import Gufo.Scheduler.Accounting

/-!
# What the consumer receives

A published piece is pending, queued, in the consumer's hand, or delivered, in
this order. Pieces are lost only at the far end: one that was refused, or those
that a failed or cancelled request discards. Either way the request does not end
as an uncancelled success.
-/

namespace Gufo.Scheduler

open Gufo.Sums

/-- The consumer still hands pieces to a token callback. -/
def Consumer.listening : Consumer → Bool
  | .idle => true
  | .waiting w => w.deliverPieces && w.onToken
  | .delivering w _ => w.deliverPieces && w.onToken
  | .ended _ _ => false

/-- The piece taken from the queue whose callback has not run. -/
def Consumer.hand : Consumer → List OutputPiece
  | .delivering _ (.piece p) => [p]
  | _ => []

/-- `Wait` stops delivering for a reason it reports. -/
def Waiting.Honest (w : Waiting) : Prop :=
  w.deliverPieces = false → w.consumerCancelled = true ∨ w.callbackFailure.isSome = true

namespace ScheduledRequest

/-- The request ended with an error, or cancelled. -/
def stopped (r : ScheduledRequest) : Bool := r.terminal && (r.failure.isSome || r.result.cancelled)

/-- The pieces the consumer has not taken yet, the next one first. -/
def behind (r : ScheduledRequest) : List OutputPiece := r.outputPieces ++ r.holder.pending

/-- What the consumer's side knows of the end. -/
def Answered (r : ScheduledRequest) : Prop :=
  match r.consumer with
  | .idle => True
  | .waiting w => w.Honest
  | .delivering w taken => w.Honest ∧ ∀ result failure, taken = .terminal result failure →
      r.terminal = true ∧ r.outputPieces = [] ∧ result = r.result ∧ failure = r.failure
  | .ended onToken outcome => r.terminal = true ∧ (onToken = true → ∀ result,
      outcome = .returned result → result.cancelled = false → r.delivered = r.published)

structure Ordered (r : ScheduledRequest) : Prop where
  begins : r.delivered <+: r.published
  whole : r.consumer.listening = true → ∃ lost,
    r.published = r.delivered ++ r.consumer.hand ++ r.behind ++ lost ∧
      (r.refused = false → r.stopped = false → lost = [])
  completed : r.refused = true → r.terminal = true → r.stopped = true
  rests : r.terminal = true → r.holder = .free
  answered : r.Answered

variable {r : ScheduledRequest} {b : OutputBudget}

theorem stopped_of_running (running : r.terminal = false) : r.stopped = false := by
  simp [stopped, running]

/-- While the request runs, the consumer has not seen its end. -/
theorem Ordered.running (h : r.Ordered) (running : r.terminal = false) :
    (∃ w, r.consumer = .waiting w ∧ w.Honest) ∨ r.consumer = .idle ∨
      ∃ w taken, r.consumer = .delivering w taken ∧ w.Honest ∧
        ∀ result failure, taken ≠ .terminal result failure := by
  have answered := h.answered
  unfold Answered at answered
  split at answered
  · rename_i idle
    exact .inr (.inl idle)
  · rename_i w waiting
    exact .inl ⟨w, waiting, answered⟩
  · rename_i w taken delivering
    refine .inr (.inr ⟨w, taken, delivering, answered.1, fun result failure same => ?_⟩)
    have := (answered.2 result failure same).1
    simp [running] at this
  · simp [running] at answered

/-- The consumer's side of a running request says nothing about its fields. -/
theorem Ordered.answered_running (h : r.Ordered) (running : r.terminal = false)
    {r' : ScheduledRequest} (same : r'.consumer = r.consumer) : r'.Answered := by
  unfold Answered
  rw [same]
  rcases h.running running with ⟨w, eq, honest⟩ | eq | ⟨w, taken, eq, honest, other⟩
  · rw [eq]
    exact honest
  · rw [eq]
    trivial
  · rw [eq]
    exact ⟨honest, fun result failure same => absurd same (other result failure)⟩

/-- A running request moves its pieces along, or refuses the last one. -/
theorem Ordered.advance (h : r.Ordered) (running : r.terminal = false) {r' : ScheduledRequest}
    (consumer : r'.consumer = r.consumer) (delivered : r'.delivered = r.delivered)
    (terminal : r'.terminal = false) {new : List OutputPiece}
    (published : r'.published = r.published ++ new)
    (line : ∀ lost, (r.refused = false → lost = []) → ∃ lost', r.behind ++ lost ++ new =
      r'.behind ++ lost' ∧ (r'.refused = false → lost' = [])) : r'.Ordered where
  begins := by
    rw [delivered, published]
    exact h.begins.trans (List.prefix_append _ _)
  whole := by
    rw [consumer, delivered, published]
    intro listening
    obtain ⟨lost, all, empty⟩ := h.whole listening
    obtain ⟨lost', moved, empty'⟩ :=
      line lost fun accepted => empty accepted (stopped_of_running running)
    refine ⟨lost', ?_, fun accepted _ => empty' accepted⟩
    calc r.published ++ new
        = r.delivered ++ r.consumer.hand ++ (r.behind ++ lost ++ new) := by
          simp [all]
      _ = r.delivered ++ r.consumer.hand ++ r'.behind ++ lost' := by
          rw [moved, ← List.append_assoc]
  completed := by simp [terminal]
  rests := by simp [terminal]
  answered := h.answered_running running consumer

/-! ## The scheduler's side -/

theorem ordered_publishPiece (h : r.Ordered) (free : r.holder = .free)
    (running : r.terminal = false) (accepted : r.refused = false) (piece : OutputPiece) :
    (r.publishPiece piece b).Ordered := by
  unfold publishPiece
  split
  · exact h
  dsimp only
  split
  · refine h.advance running rfl rfl running rfl fun lost empty => ⟨[piece], ?_, by simp⟩
    simp [behind, free, Section.pending, empty accepted]
  · refine h.advance running rfl rfl running rfl fun lost empty => ⟨[], ?_, by simp⟩
    simp [behind, free, Section.pending, empty accepted]

/-- A piece is charged only while its request runs. -/
theorem Ordered.charging (h : r.Ordered) (holder : r.holder ≠ .free) : r.terminal = false := by
  cases terminal : r.terminal with
  | false => rfl
  | true => exact absurd (h.rests terminal) holder

theorem ordered_tryReserve (h : r.Ordered) {piece : OutputPiece} {current : UInt64}
    (holder : r.holder = .reserving piece current) (spurious : Bool) :
    (r.tryReserve piece current spurious b).2.Ordered := by
  have running := h.charging (by simp [holder])
  have published : r.published = r.published ++ [] := by simp
  unfold tryReserve
  split
  · split
    · refine h.advance running rfl rfl running published fun lost empty => ⟨lost, ?_, empty⟩
      simp [behind, holder, Section.pending]
    · refine h.advance running rfl rfl running published fun lost empty => ⟨lost, ?_, empty⟩
      simp [behind, holder, Section.pending]
  · refine h.advance running rfl rfl running published fun lost _ => ⟨piece :: lost, ?_, by simp⟩
    simp [behind, holder, Section.pending]

theorem ordered_queuePiece (h : r.Ordered) {piece : OutputPiece} {updated : UInt64}
    (holder : r.holder = .reserved piece updated) (grown : Bool) :
    (r.queuePiece piece updated grown b).2.Ordered := by
  have running := h.charging (by simp [holder])
  have published : r.published = r.published ++ [] := by simp
  unfold queuePiece charge
  cases grown with
  | true =>
    refine h.advance running rfl rfl running published fun lost empty => ⟨lost, ?_, empty⟩
    simp [behind, holder, Section.pending]
  | false =>
    refine h.advance running rfl rfl running published fun lost _ => ⟨piece :: lost, ?_, by simp⟩
    simp [behind, holder, Section.pending]

/-- A request completes with its queue, or loses it and is stopped. -/
theorem ordered_publishTerminal (h : r.Ordered) (free : r.holder = .free)
    (running : r.terminal = false) (failure : Option Failure) (discard : Bool)
    (accepted : r.refused = true → discard = true)
    (loses : discard = true → failure.isSome = true ∨ r.result.cancelled = true) :
    (r.publishTerminal failure discard b).2.Ordered := by
  unfold publishTerminal
  cases discard with
  | true =>
    have ends : ((r.publishTerminal failure true b).2).stopped = true := by
      rcases loses rfl with failed | cancelled
      · simp [publishTerminal, releaseBufferedOutputLocked, stopped, failed]
      · simp [publishTerminal, releaseBufferedOutputLocked, stopped, cancelled]
    refine ⟨h.begins, fun listening => ?_, fun _ _ => ends, fun _ => free,
      h.answered_running running rfl⟩
    · obtain ⟨lost, all, _⟩ := h.whole listening
      refine ⟨r.behind ++ lost, ?_, fun _ unstopped => absurd (ends.symm.trans unstopped) (by simp)⟩
      simpa [releaseBufferedOutputLocked, behind, free, Section.pending] using all
  | false =>
    refine ⟨h.begins, fun listening => ?_, fun refused => ?_, fun _ => free,
      h.answered_running running rfl⟩
    · obtain ⟨lost, all, empty⟩ := h.whole listening
      exact ⟨lost, all, fun accepted _ => empty accepted (stopped_of_running running)⟩
    · exact absurd (accepted refused) (by simp)

/-- What the scheduler writes into the result of a running request is not read yet. -/
theorem Ordered.mark (h : r.Ordered) (running : r.terminal = false) (result : Result) :
    ({ r with result := result } : ScheduledRequest).Ordered :=
  h.advance running rfl rfl running (List.append_nil _).symm fun lost empty =>
    ⟨lost, by simp [behind], empty⟩

theorem ordered_completeCancelled (h : r.Ordered) (free : r.holder = .free)
    (running : r.terminal = false) (thrown : Option (Failure × Bool)) :
    (r.completeCancelled thrown b).2.Ordered := by
  unfold completeCancelled
  split
  · have marked := h.mark running { r.result with cancelled := true, finishReason := .cancelled }
    exact ordered_publishTerminal marked free running none true (fun _ => rfl) (by simp)
  · rename_i failure
    have marked := h.mark running { r.result with cancelled := true, finishReason := .cancelled }
    exact ordered_publishTerminal marked free running (some failure) true (fun _ => rfl) (by simp)
  · rename_i failure
    exact ordered_publishTerminal h free running (some failure) true (fun _ => rfl) (by simp)

/-! ## The consumer's side -/

variable {w : Waiting}

theorem Ordered.honest (h : r.Ordered) (waiting : r.consumer = .waiting w) :
    w.Honest := by
  simpa [Answered, waiting] using h.answered

theorem ordered_wait (h : r.Ordered) (idle : r.consumer = .idle)
    (onToken onProgress onStart : Bool) : (r.wait onToken onProgress onStart).Ordered := by
  refine ⟨h.begins, fun _ => ?_, h.completed, h.rests, by simp [wait, Answered, Waiting.Honest]⟩
  obtain ⟨lost, all, empty⟩ := h.whole (by simp [idle, Consumer.listening])
  refine ⟨lost, ?_, empty⟩
  simpa [wait, behind, idle, Consumer.hand] using all

theorem ordered_take (h : r.Ordered) (waiting : r.consumer = .waiting w) :
    (r.take w b).2.Ordered := by
  have honest := h.honest waiting
  have whole := h.whole
  simp only [waiting, Consumer.listening, Consumer.hand, List.append_nil] at whole
  unfold take
  split
  · refine ⟨h.begins, fun listening => ?_, h.completed, h.rests, ⟨honest, by simp⟩⟩
    obtain ⟨lost, all, empty⟩ := whole listening
    exact ⟨lost, by simpa [Consumer.hand, behind] using all, empty⟩
  split
  · refine ⟨h.begins, fun listening => ?_, h.completed, h.rests, ⟨honest, by simp⟩⟩
    obtain ⟨lost, all, empty⟩ := whole listening
    exact ⟨lost, by simpa [Consumer.hand, behind] using all, empty⟩
  · rename_i piece rest _ pieces
    refine ⟨h.begins, fun listening => ?_, h.completed, h.rests, ⟨honest, by simp⟩⟩
    obtain ⟨lost, all, empty⟩ := whole listening
    exact ⟨lost, by simpa [Consumer.hand, behind, pieces] using all, empty⟩
  · rename_i pieces
    split
    · rename_i ended
      refine ⟨h.begins, fun listening => ?_, h.completed, h.rests, ⟨honest, ?_⟩⟩
      · obtain ⟨lost, all, empty⟩ := whole listening
        exact ⟨lost, by simpa [Consumer.hand, behind] using all, empty⟩
      · rintro _ _ ⟨⟩
        exact ⟨ended, pieces, rfl, rfl⟩
    · exact h

/-- The consumer goes on waiting with nothing in its hand. -/
theorem Ordered.wait_on (h : r.Ordered) (honest : w.Honest)
    (delivered : List OutputPiece) (begins : delivered <+: r.published)
    (whole : w.deliverPieces = true → w.onToken = true → r.consumer.listening = true ∧
      delivered = r.delivered ++ r.consumer.hand) :
    ({ r with delivered := delivered, consumer := .waiting w } : ScheduledRequest).Ordered := by
  refine ⟨begins, fun listening => ?_, h.completed, h.rests, honest⟩
  simp only [Consumer.listening, Bool.and_eq_true] at listening
  obtain ⟨before, same⟩ := whole listening.1 listening.2
  obtain ⟨lost, all, empty⟩ := h.whole before
  exact ⟨lost, by simpa [Consumer.hand, behind, same] using all, empty⟩

theorem ordered_cancel (h : r.Ordered) : r.cancel.Ordered := by
  unfold cancel
  split
  · exact h
  · exact ⟨h.begins, h.whole, h.completed, h.rests, h.answered⟩

/-- A callback that refuses or throws ends the deliveries. -/
theorem ordered_deliver (h : r.Ordered) (answer : Answer) (honest : w.Honest)
    (delivered : List OutputPiece) (begins : delivered <+: r.published)
    (whole : w.deliverPieces = true → w.onToken = true → r.consumer.listening = true ∧
      delivered = r.delivered ++ r.consumer.hand) :
    (({ r with delivered := delivered } : ScheduledRequest).deliver answer w).Ordered := by
  unfold deliver
  split
  · exact h.wait_on honest delivered begins whole
  all_goals
    unfold cancel
    split
    · exact h.wait_on (by simp [Waiting.Honest]) delivered begins (by simp)
    · have waiting := h.wait_on (w := { w with deliverPieces := false, consumerCancelled := true })
        (by simp [Waiting.Honest]) delivered begins (by simp)
      exact ⟨waiting.begins, by simp [Consumer.listening], waiting.completed, waiting.rests,
        by simp [Answered, Waiting.Honest]⟩

/-- What `Wait` returns uncancelled, it delivered whole. -/
theorem Ordered.finished (h : r.Ordered) {result : Result} {failure : Option Failure}
    (delivering : r.consumer = .delivering w (.terminal result failure))
    (onToken : w.onToken = true)
    {last : Result} (returned : finish w result failure = .returned last)
    (success : last.cancelled = false) : r.delivered = r.published := by
  have answered := h.answered
  simp only [Answered, delivering] at answered
  obtain ⟨honest, known⟩ := answered
  obtain ⟨terminal, empty, rfl, rfl⟩ := known result failure rfl
  have uncancelled : w.consumerCancelled = false := by
    cases cancelled : w.consumerCancelled with
    | false => rfl
    | true =>
      simp only [finish, cancelled, if_true] at returned
      split at returned <;> cases returned
      simp at success
  simp only [finish, uncancelled, Bool.false_eq_true, if_false] at returned
  split at returned
  all_goals cases returned
  rename_i quiet failed
  have unstopped : r.stopped = false := by simp [stopped, failed, success]
  have listening : r.consumer.listening = true := by
    cases deliver : w.deliverPieces with
    | true => simp [delivering, Consumer.listening, deliver, onToken]
    | false => simpa [uncancelled, quiet] using honest deliver
  have accepted : r.refused = false := by
    cases refused : r.refused with
    | false => rfl
    | true => simpa [unstopped] using h.completed refused terminal
  obtain ⟨lost, all, none_⟩ := h.whole listening
  rw [all, none_ accepted unstopped]
  simp [delivering, Consumer.hand, behind, empty, h.rests terminal, Section.pending]

theorem ordered_handle (h : r.Ordered) {taken : Taken}
    (delivering : r.consumer = .delivering w taken) (answer : Answer) :
    (r.handle answer w taken).Ordered := by
  have answered := h.answered
  simp only [Answered, delivering] at answered
  obtain ⟨honest, known⟩ := answered
  have listens : w.deliverPieces = true → w.onToken = true → r.consumer.listening = true := by
    simp only [delivering, Consumer.listening]
    intro deliver onToken
    simp [deliver, onToken]
  have nothing : ∀ hand : r.consumer.hand = [], w.deliverPieces = true → w.onToken = true →
      r.consumer.listening = true ∧ r.delivered = r.delivered ++ r.consumer.hand :=
    fun hand deliver onToken => ⟨listens deliver onToken, by simp [hand]⟩
  cases taken with
  | start =>
    have hand := nothing (by simp [delivering, Consumer.hand])
    simp only [handle]
    split
    · exact ordered_deliver h answer (w := { w with started := true }) honest r.delivered h.begins
        hand
    · exact h.wait_on (w := { w with started := true }) honest r.delivered h.begins hand
  | progress p =>
    have hand := nothing (by simp [delivering, Consumer.hand])
    simp only [handle]
    split
    · exact ordered_deliver h answer honest r.delivered h.begins hand
    · exact h.wait_on honest r.delivered h.begins hand
  | piece piece =>
    have hand : r.consumer.hand = [piece] := by simp [delivering, Consumer.hand]
    simp only [handle]
    split
    · rename_i delivers
      simp only [Bool.and_eq_true] at delivers
      have listening := listens delivers.1 delivers.2
      obtain ⟨lost, all, _⟩ := h.whole listening
      have begins : r.delivered ++ [piece] <+: r.published := by
        rw [all, hand, List.append_assoc _ r.behind]
        exact List.prefix_append _ _
      exact ordered_deliver h answer honest _ begins fun _ _ => ⟨listening, by rw [hand]⟩
    · rename_i silent
      exact h.wait_on honest r.delivered h.begins fun deliver onToken =>
        absurd (by simp [deliver, onToken]) silent
  | terminal result failure =>
    refine ⟨h.begins, by simp [handle, Consumer.listening], h.completed, h.rests,
      (known result failure rfl).1, ?_⟩
    intro onToken last returned success
    exact h.finished delivering onToken returned success

theorem ordered_act (h : r.Ordered) {after : OutputBudget × ScheduledRequest}
    (act : Acts b r after) : after.2.Ordered := by
  cases act with
  | publishPiece piece free running accepted =>
    exact ordered_publishPiece h free running accepted piece
  | tryReserve piece current spurious holder => exact ordered_tryReserve h holder spurious
  | queuePiece piece updated grown holder => exact ordered_queuePiece h holder grown
  | publishAdmission =>
    unfold publishAdmission
    split
    · exact ⟨h.begins, h.whole, h.completed, h.rests, h.answered⟩
    · exact h
  | publishProgress =>
    unfold publishProgress
    split
    · exact ⟨h.begins, h.whole, h.completed, h.rests, h.answered⟩
    · exact h
  | completeSuccess reason free running accepted =>
    have marked := h.mark running { r.result with finishReason := reason }
    exact ordered_publishTerminal marked free running none false
      (by simp [accepted]) (by simp)
  | completeCancelled thrown free running => exact ordered_completeCancelled h free running thrown
  | completeFailure failure free =>
    unfold completeFailure
    split
    · exact h
    · rename_i running
      exact ordered_publishTerminal h free (by simpa using running) (some failure) true (fun _ => rfl)
        (by simp)
  | cancel => exact ordered_cancel h
  | wait onToken onProgress onStart idle => exact ordered_wait h idle onToken onProgress onStart
  | take w free waiting => exact ordered_take h waiting
  | handle answer w taken delivering => exact ordered_handle h delivering answer
  | drop =>
    have cancelled := ordered_cancel h
    exact ⟨cancelled.begins, cancelled.whole, cancelled.completed, cancelled.rests,
      cancelled.answered⟩

/-- What the next step of a request can hand to `Release`: its whole buffer, its front
piece, or the piece it has just reserved. -/
def releases (r : ScheduledRequest) : List UInt64 :=
  r.bufferedOutputBytes :: (r.outputPieces.head?.toList.map queuedPieceCost ++
    match r.holder with
    | .reserved piece _ => [queuedPieceCost piece]
    | _ => [])

theorem Sound.covers (h : r.Sound) {bytes : UInt64} (member : bytes ∈ r.releases) :
    bytes.toNat ≤ r.held := by
  simp only [releases, List.mem_cons, List.mem_append] at member
  unfold held
  rcases member with rfl | front | pending
  · omega
  · have queued := h.queued
    cases pieces : r.outputPieces with
    | nil => simp [pieces] at front
    | cons piece rest =>
      simp only [pieces, List.head?_cons, Option.toList_some, List.map_cons, List.map_nil,
        List.mem_singleton] at front
      simp only [pieces, total_cons, cost] at queued
      subst front
      omega
  · split at pending
    · rename_i piece _ holder
      simp only [List.mem_singleton] at pending
      subst pending
      simp only [holder, Section.held, cost]
      omega
    · simp at pending

end ScheduledRequest

/-! ## Every interleaving -/

namespace TextGenerationScheduler
variable {s t : TextGenerationScheduler} {perRequest limit : UInt64}

theorem ordered_step {a : Step} (h : s.step a = some t)
    (ok : ∀ r, some r ∈ s.requests → r.Ordered) : ∀ r, some r ∈ t.requests → r.Ordered := by
  cases a with
  | submit streamed progress =>
    simp only [step, Option.some.injEq] at h
    subst h
    intro r hr
    simp only [submit, List.mem_append, List.mem_singleton, Option.some.injEq] at hr
    rcases hr with old | rfl
    · exact ok r old
    · exact ⟨List.prefix_rfl, fun _ => ⟨[], rfl, fun _ _ => rfl⟩, by simp, by simp, trivial⟩
  | act i a =>
    simp only [step] at h
    split at h
    · rename_i r hr
      simp only [Option.map_eq_some_iff, Prod.exists] at h
      obtain ⟨budget, r', hact, rfl⟩ := h
      intro q hq
      rcases List.mem_or_eq_of_mem_set hq with old | new
      · exact ok q old
      · cases new
        exact ScheduledRequest.ordered_act (ok r (List.mem_of_getElem? hr))
          (ScheduledRequest.act_cases hact)
    · cases h
  | destroy i =>
    simp only [step] at h
    split at h
    · simp only [Option.ite_none_right_eq_some, Option.some.injEq] at h
      obtain ⟨_, rfl⟩ := h
      intro q hq
      rcases List.mem_or_eq_of_mem_set hq with old | new
      · exact ok q old
      · cases new
    · cases h

theorem ordered_run {steps : List Step} (h : s.run steps = some t)
    (ok : ∀ r, some r ∈ s.requests → r.Ordered) : ∀ r, some r ∈ t.requests → r.Ordered := by
  induction steps generalizing s with
  | nil =>
    cases h
    exact ok
  | cons a steps ih =>
    simp only [run, List.foldlM_cons, Option.bind_eq_bind, Option.bind_eq_some_iff] at h
    obtain ⟨u, first, rest⟩ := h
    exact ih rest (ordered_step first ok)

theorem mem_live {r : ScheduledRequest} : r ∈ s.live ↔ some r ∈ s.requests := by
  simp [live, List.reduceOption_mem_iff]

theorem total_live : total ScheduledRequest.held s.live = total heldBy s.requests := by
  unfold live
  induction s.requests with
  | nil => rfl
  | cons slot slots ih =>
    cases slot with
    | none => simpa [heldBy] using ih
    | some r => simpa [heldBy] using ih

/-- The budget is the sum of the live buffers and of the pieces being queued, within its
limit, and covers all that the next step can release. What a consumer received is where
the published pieces start, and all of them when its `Wait` returns uncancelled. -/
theorem output_accounting {steps : List Step} (h : (start perRequest limit).run steps = some s) :
    s.budget.bufferedBytes.toNat =
        total (fun r => total cost r.outputPieces + r.holder.held) s.live ∧
      s.budget.bufferedBytes ≤ limit ∧
      (s.live = [] → s.budget.bufferedBytes = 0) ∧
      ∀ r ∈ s.live, r.bufferedOutputBytes.toNat = total cost r.outputPieces ∧
        r.bufferedOutputBytes ≤ perRequest ∧
        (∀ bytes ∈ r.releases, bytes ≤ s.budget.bufferedBytes) ∧
        r.delivered <+: r.published ∧
        ∀ result, r.consumer = .ended true (.returned result) → result.cancelled = false →
          r.delivered = r.published := by
  obtain ⟨accounted, sameTotal, sameRequest⟩ := accounted_run h (accounted_start perRequest limit)
  have ordered := ordered_run h (by simp [start])
  have sum : s.budget.bufferedBytes.toNat =
      total (fun r => total cost r.outputPieces + r.holder.held) s.live := by
    rw [accounted.total, ← total_live]
    refine total_congr fun r hr => ?_
    rw [ScheduledRequest.held, (accounted.sound r (mem_live.mp hr)).queued]
  refine ⟨sum, ?_, fun none_ => ?_, fun r hr => ?_⟩
  · have same : s.budget.limit = limit := sameTotal
    exact same ▸ accounted.within
  · rw [none_] at sum
    exact UInt64.toNat_inj.mp sum
  · have member := mem_live.mp hr
    have sound := accounted.sound r member
    have received := ordered r member
    refine ⟨sound.queued, ?_, fun bytes released => ?_, received.begins, ?_⟩
    · have most : r.maxBufferedOutputBytes = perRequest :=
        (accounted.limited r member).trans sameRequest
      exact most ▸ sound.bounded
    · obtain ⟨i, hi⟩ := List.getElem?_of_mem member
      exact Nat.le_trans (sound.covers released) (accounted.holds hi)
    · intro result ended success
      have answered := received.answered
      simp only [ScheduledRequest.Answered, ended] at answered
      exact answered.2 trivial result rfl success

/-- A stream whose only piece reaches its consumer before the request succeeds. -/
def streamed : List Step :=
  [.submit true false, .act 0 (.wait true false false),
    .act 0 (.publishPiece { text := [72, 105] }), .act 0 (.tryReserve false),
    .act 0 (.queuePiece true), .act 0 (.take false), .act 0 (.handle (.ok true)),
    .act 0 (.completeSuccess .stop), .act 0 (.take false), .act 0 (.handle (.ok true))]

theorem output_accounting_streamed :
    (((start 64 256).run streamed).get rfl).budget.bufferedBytes.toNat =
        total (fun r => total cost r.outputPieces + r.holder.held)
          (((start 64 256).run streamed).get rfl).live ∧
      (((start 64 256).run streamed).get rfl).budget.bufferedBytes ≤ 256 :=
  have accounted := output_accounting (Option.some_get rfl).symm
  ⟨accounted.1, accounted.2.1⟩

/-- A stream that is cancelled before its consumer takes the piece. -/
def cancelledStream : List Step :=
  [.submit true false, .act 0 (.wait true false false),
    .act 0 (.publishPiece { text := [72, 105] }), .act 0 (.tryReserve false),
    .act 0 (.queuePiece true), .act 0 .cancel, .act 0 (.completeCancelled none false),
    .act 0 (.take false), .act 0 (.handle (.ok true))]

/-- A cancelled request discards what was published and ends without an error. -/
theorem cancelledStream_lost : ¬∀ s, (start 64 256).run cancelledStream = some s →
    ∀ r ∈ s.live, ∀ result, r.consumer = .ended true (.returned result) → r.failure = none →
      r.delivered = r.published := by
  intro claim
  have lost := claim (((start 64 256).run cancelledStream).get rfl) (Option.some_get rfl).symm
    _ (List.mem_cons_self ..) _ rfl rfl
  exact absurd lost (by decide)

end TextGenerationScheduler

end Gufo.Scheduler
