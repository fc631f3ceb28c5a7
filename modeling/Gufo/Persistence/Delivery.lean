import Gufo.Persistence.Completion

/-!
# When every accepted job is completed

The counters are exact in every run. The completions are exactly those promised
when no submission that supersedes a job meets a retired source: that submission
throws past the callback it owes.
-/

namespace Gufo.Persistence
open Gufo.Sums

variable {s t : System} {q : Queue} {a : Action} {depth : Nat} {maxBytes : UInt64}

/-- The submission would discard a queued job before it pins its sources. -/
def Queue.supersedes (q : Queue) (job : PersistenceJob) : Bool :=
  !q.stopped && !q.duplicate job && !q.full job && (q.replacement job).isSome

/-- Not a submission that supersedes a queued job while one of its sources has retired. -/
def Sound (s : System) : Action → Prop
  | .submit job attempt =>
    ¬(s.queue.supersedes job ∧ attempt.allocates ∧ pinSources attempt.pins = .retired)
  | _ => True

/-- A run from the start, with the states its steps were taken in. -/
inductive Run (depth : Nat) (maxBytes : UInt64) : List (System × Action) → System → Prop
  | start : Run depth maxBytes [] (initial depth maxBytes)
  | next {trace : List (System × Action)} {s t : System} {a : Action} :
      Run depth maxBytes trace s → Step s a t → Run depth maxBytes ((s, a) :: trace) t

/-! ## What is lost -/

theorem submit_lost (s : System) (job : PersistenceJob) (attempt : Attempt) :
    (Sound s (.submit job attempt) → (s.submit job attempt).lost = s.lost) ∧
      (¬Sound s (.submit job attempt) → ∃ other, (s.submit job attempt).lost = s.lost ++ [other])
    := by
  unfold Sound System.submit Queue.trySubmit Queue.supersedes
  by_cases stopped : s.queue.stopped
  · simp [stopped]
  · by_cases duplicate : s.queue.duplicate job
    · simp [stopped, duplicate]
    · by_cases full : s.queue.full job
      · simp [stopped, duplicate, full]
      · simp only [stopped, duplicate, full, Bool.false_eq_true, if_false, Queue.submit]
        by_cases allocates : attempt.allocates
        · simp only [allocates, if_true]
          cases victim : s.queue.replacement job with
          | none => cases pins : pinSources attempt.pins <;> simp
          | some i =>
            obtain ⟨other, cell⟩ := replacement_some victim
            cases pins : pinSources attempt.pins <;> simp [jobAt_of_cell cell]
        · simp [allocates]

theorem step_lost (step : Step s a t) : (Sound s a → t.lost = s.lost) ∧
    (¬Sound s a → ∃ other, t.lost = s.lost ++ [other]) := by
  cases step with
  | submit job attempt => exact submit_lost s job attempt
  | _ => simp [Sound]

variable {trace : List (System × Action)}

theorem run_lost (run : Run depth maxBytes trace s) :
    s.lost = [] ↔ ∀ step ∈ trace, Sound step.1 step.2 := by
  induction run with
  | start => simp [initial]
  | @next trace s t a _ step ih =>
    have kept := step_lost step
    rw [List.forall_mem_cons, ← ih]
    by_cases sound : Sound s a
    · simp [sound, kept.1 sound]
    · obtain ⟨other, eq⟩ := kept.2 sound
      simp [sound, eq]

/-! ## Runs keep the invariant -/

theorem valid_initial (depth : Nat) (maxBytes : UInt64) : Valid (initial depth maxBytes) := by
  have empty : (initial depth maxBytes).queue.jobs = [] := by
    simp [Queue.jobs, initial]
  have counted : ∀ w : Option PersistenceJob → Nat, w none = 0 →
      total w (List.replicate depth none) = 0 := by
    intro w zero
    apply total_eq_zero
    intro cell hc
    rw [(List.mem_replicate.mp hc).2, zero]
  constructor
  case accounted =>
    have cells := counted cellCount rfl
    have bytes := counted cellBytes rfl
    constructor <;> simp [initial, cells, bytes, UInt64.le_iff_toNat_le]
  case placed => simp [System.outstanding, System.writing, System.reported, initial, Queue.jobs]
  case drained => exact fun _ => empty
  all_goals simp [initial]

theorem run_valid (run : Run depth maxBytes trace s) :
    Valid s := by
  induction run with
  | start => exact valid_initial depth maxBytes
  | next _ step ih => exact step_valid step ih

/-- Depth and byte limit are the ones configured. -/
def Configured (depth : Nat) (maxBytes : UInt64) (q : Queue) : Prop :=
  q.pending.length = depth ∧ q.maxBytes = maxBytes

variable {job : PersistenceJob}

theorem Submission.configured {attempt : Attempt} {outcome : Outcome}
    {r : Queue} (done : Submission q job attempt outcome r) (h : Configured depth maxBytes q) :
    Configured depth maxBytes r := by
  obtain ⟨length, limit⟩ := h
  cases done with
  | refused r same => exact ⟨by rw [same.pending, length], by rw [same.maxBytes, limit]⟩
  | _ => simp [Configured, Queue.accept, Queue.discard, Queue.release, Queue.skip, length, limit]

theorem drops_configured (indices : List Nat) (h : Configured depth maxBytes q) :
    Configured depth maxBytes (indices.foldl Queue.drop q) := by
  induction indices generalizing q with
  | nil => exact h
  | cons i rest ih =>
    apply ih
    unfold Queue.drop
    cases q.jobAt i with
    | none => exact h
    | some job => simpa [Configured, Queue.skip, Queue.release] using h

theorem step_configured (step : Step s a t) (valid : Valid s)
    (h : Configured depth maxBytes s.queue) : Configured depth maxBytes t.queue := by
  cases step with
  | submit job attempt =>
    have done := trySubmit_cases valid.accounted job attempt
    unfold System.submit
    generalize s.queue.trySubmit job attempt = result at done
    obtain ⟨outcome, r⟩ := result
    cases outcome <;> exact done.configured h
  | take => simpa [Configured, Queue.take] using h
  | settle => exact h
  | stop => exact drops_configured _ h
  | callBack => exact h
  | write => exact h
  | exit => exact h

theorem run_configured (run : Run depth maxBytes trace s) :
    Configured depth maxBytes s.queue := by
  induction run with
  | start => exact ⟨by simp [initial], rfl⟩
  | next before step ih => exact step_configured step (run_valid before) ih

/-! ## The worker finishes what is outstanding -/

/-- A step of the worker, or a callback a submitter owes. -/
def Action.internal : Action → Bool
  | .callBack _ => true
  | .take => true
  | .write _ => true
  | .settle => true
  | _ => false

inductive Completing : System → System → Prop
  | refl (s : System) : Completing s s
  | step {s t u : System} {a : Action} (internal : a.internal) (first : Step s a t)
      (rest : Completing t u) : Completing s u

def System.remaining (s : System) : Nat :=
  3 * s.queue.jobs.length + s.owed.length +
    match s.worker with
    | .writing => 2
    | .settling _ => 1
    | _ => 0

theorem length_jobs (q : Queue) : q.jobs.length = total cellCount q.pending := by
  unfold Queue.jobs
  induction q.pending with
  | nil => rfl
  | cons cell rest ih => cases cell <;> simpa [Nat.add_comm] using ih

theorem step_remaining (step : Step s a t) (internal : a.internal) (h : Valid s) :
    t.remaining < s.remaining := by
  cases step with
  | submit => simp [Action.internal] at internal
  | exit => simp [Action.internal] at internal
  | stop => simp [Action.internal] at internal
  | callBack job owed =>
    have shorter := List.length_erase_of_mem owed
    have positive := List.length_pos_of_mem owed
    simp only [System.remaining, shorter]
    omega
  | take waiting running work =>
    have active := take_active s.queue h.accounted (h.idle (.inl waiting)) work
    have fewer : s.queue.take.jobs.length + 1 = s.queue.jobs.length := by
      rw [length_jobs, length_jobs]
      rcases next_spec s.queue with ⟨nothing, empty⟩ | cell
      · simp [Queue.take, nothing] at active
      · have moved := total_set cellCount cell none
        cases taken : s.queue.next.1 with
        | none => simp [Queue.take, taken] at active
        | some job =>
          rw [taken, cellCount_some, cellCount_none] at moved
          simp only [Queue.take]
          omega
    simp only [System.remaining, waiting]
    omega
  | write writing active busy succeeded =>
    simp only [System.remaining, writing]
    omega
  | settle succeeded settling active busy =>
    have same : (s.queue.settle active succeeded).jobs = s.queue.jobs := rfl
    simp only [System.remaining, settling, same]
    omega

/-- While a callback is outstanding, somebody can take a step towards it. -/
theorem progress (h : Valid s) (work : s.outstanding ≠ []) :
    ∃ a t, a.internal ∧ Step s a t := by
  by_cases owed : s.owed = []
  · cases worker : s.worker with
    | waiting =>
      have jobs : s.queue.jobs ≠ [] := by
        intro empty
        exact work (by simp [System.outstanding, System.writing, worker, empty, owed])
      have running : s.queue.stopped = false := by
        by_contra stopped
        exact jobs (h.drained (by simpa using stopped))
      have counted : s.queue.stats.pending ≠ 0 := by
        rw [h.accounted.pending, ← length_jobs]
        have := List.length_pos_iff.mpr jobs
        omega
      exact ⟨.take, _, rfl, .take s worker running counted⟩
    | writing =>
      obtain ⟨active, busy⟩ := Option.isSome_iff_exists.mp (h.busy (by simp [worker])
        (by simp [worker]))
      exact ⟨.write true, _, rfl, .write s worker active busy true⟩
    | settling succeeded =>
      obtain ⟨active, busy⟩ := Option.isSome_iff_exists.mp (h.busy (by simp [worker])
        (by simp [worker]))
      exact ⟨.settle, _, rfl, .settle s succeeded worker active busy⟩
    | exited =>
      have jobs := h.drained (h.exited worker)
      exact absurd (by simp [System.outstanding, System.writing, worker, jobs, owed]) work
  · obtain ⟨job, rest, eq⟩ := List.exists_cons_of_ne_nil owed
    exact ⟨.callBack job, _, rfl, .callBack s job (by simp [eq])⟩

theorem internal_record (step : Step s a t) (internal : a.internal) :
    t.accepted = s.accepted ∧ t.discarded = s.discarded ∧ t.lost = s.lost := by
  cases step with
  | submit => simp [Action.internal] at internal
  | stop => simp [Action.internal] at internal
  | _ => exact ⟨rfl, rfl, rfl⟩

theorem completes (h : Valid s) : ∃ t, Completing s t ∧ Valid t ∧ t.outstanding = [] ∧
    t.accepted = s.accepted ∧ t.discarded = s.discarded ∧ t.lost = s.lost := by
  generalize measure : s.remaining = n
  induction n using Nat.strongRecOn generalizing s with
  | ind n ih =>
    by_cases done : s.outstanding = []
    · exact ⟨s, .refl s, h, done, rfl, rfl, rfl⟩
    · obtain ⟨a, u, internal, first⟩ := progress h done
      have less := step_remaining first internal h
      have record := internal_record first internal
      obtain ⟨t, rest, valid, empty, accepted, discarded, lost⟩ :=
        ih u.remaining (measure ▸ less) (step_valid first h) rfl
      exact ⟨t, .step internal first rest, valid, empty, accepted.trans record.1,
        discarded.trans record.2.1, lost.trans record.2.2⟩

/-! ## Completions -/

/-- Every accepted job that `Stop` did not discard has one callback, made or to come, false
if it was superseded; and the steps left to the worker and the submitters make it. -/
structure Completed (s : System) : Prop where
  once : ∀ job ∈ s.accepted, job ∉ s.discarded → (s.outstanding ++ s.reported).count job = 1
  superseded : ∀ job ∈ s.superseded, job ∈ s.owed ∨ ⟨job, false⟩ ∈ s.reports
  delivered : ∃ t, Completing s t ∧ t.outstanding = [] ∧
    ∀ job ∈ s.accepted, job ∉ s.discarded → t.reported.count job = 1

theorem count_accepted (h : Valid s) (accepted : job ∈ s.accepted) :
    s.accepted.count job = 1 := by
  rw [h.distinct.count, if_pos accepted]

theorem Valid.once (h : Valid s) (lost : s.lost = [])
    (accepted : job ∈ s.accepted) (kept : job ∉ s.discarded) :
    (s.outstanding ++ s.reported).count job = 1 := by
  have placed := h.placed job
  rw [count_accepted h accepted, List.count_eq_zero_of_not_mem kept, lost, List.count_nil] at placed
  rw [List.count_append]
  omega

theorem completed_iff (h : Valid s) : Completed s ↔ s.lost = [] := by
  constructor
  · intro completed
    by_contra some_lost
    obtain ⟨job, rest, eq⟩ := List.exists_cons_of_ne_nil some_lost
    have placed := h.placed job
    have counted : 1 ≤ s.lost.count job := by simp [eq]
    have accepted : job ∈ s.accepted := List.count_pos_iff.mp (by omega)
    rw [count_accepted h accepted] at placed
    have kept : job ∉ s.discarded := by
      intro hd
      have := List.count_pos_iff.mpr hd
      omega
    have once := completed.once job accepted kept
    rw [List.count_append] at once
    omega
  · intro lost
    obtain ⟨t, rest, valid, empty, accepted, discarded, sameLost⟩ := completes h
    refine ⟨fun job => h.once lost, ?_, t, rest, empty, ?_⟩
    · intro job superseded
      have answered := h.answered job superseded
      simpa [lost] using answered
    · intro job hj kept
      have once := valid.once (sameLost.trans lost) (accepted ▸ hj) (discarded ▸ kept)
      simpa [empty] using once

/-! ## Accounting -/

theorem total_jobs (q : Queue) : total (·.pinnedBytes.toNat) q.jobs = total cellBytes q.pending := by
  unfold Queue.jobs
  induction q.pending with
  | nil => rfl
  | cons cell rest ih => cases cell <;> simpa using ih

/-- The active job is replaced by no step: only its own worker's last one removes it. -/
theorem step_active (step : Step s a t) (h : Valid s) {active : PersistenceJob}
    (busy : s.queue.active = some active) :
    t.queue.active = some active ∨ a = .settle ∧ t.queue.active = none := by
  cases step with
  | submit job attempt =>
    have done := trySubmit_cases h.accounted job attempt
    unfold System.submit
    generalize s.queue.trySubmit job attempt = result at done
    obtain ⟨outcome, r⟩ := result
    cases outcome <;> exact .inl (done.active.trans busy)
  | callBack => exact .inl busy
  | take waiting =>
    rw [h.idle (.inl waiting)] at busy
    cases busy
  | write => exact .inl busy
  | settle => exact .inr ⟨rfl, rfl⟩
  | exit => exact .inl busy
  | stop => exact .inl ((drops_others _ _).1.trans busy)

/-- What the queue promises in a state. -/
structure Correct (depth : Nat) (maxBytes : UInt64) (s : System) : Prop where
  pending : s.queue.stats.pending = (s.queue.jobs ++ s.queue.active.toList).length
  withinDepth : s.queue.stats.pending ≤ depth
  pinnedBytes : s.queue.stats.pinnedBytes.toNat =
    total (·.pinnedBytes.toNat) (s.queue.jobs ++ s.queue.active.toList)
  withinBytes : s.queue.stats.pinnedBytes ≤ maxBytes
  noUnderflow : s.queue.underflow = false
  activeKept : ∀ a t, Step s a t → ∀ active, s.queue.active = some active →
    t.queue.active = some active ∨ a = .settle ∧ t.queue.active = none
  completed : Completed s

/-- **Accounting and completion.** Counters, limits and the active job are right in every
run; every accepted job is completed exactly when no submission that superseded a queued job
met a retired source. -/
theorem run_correct_iff {trace : List (System × Action)} (run : Run depth maxBytes trace s) :
    Correct depth maxBytes s ↔ ∀ step ∈ trace, Sound step.1 step.2 := by
  have valid := run_valid run
  have configured := run_configured run
  have accounted := valid.accounted
  rw [← run_lost run, ← completed_iff valid]
  refine ⟨Correct.completed, fun completed => ⟨?_, ?_, ?_, ?_, accounted.noUnderflow,
    fun a t step active => step_active step valid, completed⟩⟩
  · rw [accounted.pending, List.length_append, length_jobs]
    cases s.queue.active <;> rfl
  · rw [← configured.1]
    exact accounted.withinDepth
  · rw [accounted.pinned, total_append, total_jobs]
    cases s.queue.active <;> simp
  · rw [← configured.2]
    exact accounted.withinBytes

/-- A generated checkpoint of one token, pinning ten bytes. -/
def sampleJob (checkpoint : UInt64) (token : UInt32) : PersistenceJob where
  manifest := ⟨checkpoint, 1, Vector.replicate 32 0, [], [token], [], .generated, 0⟩
  pinnedBytes := 10
  submitted := 0

/-- A queue of one place after a job and a second one that takes the place. -/
def crowdedQueue (pin : PinOutcome) : System :=
  ((initial 1 100).submit (sampleJob 1 5) ⟨true, [.pinned]⟩).submit (sampleJob 2 6) ⟨true, [pin]⟩

theorem crowdedQueue_run (pin : PinOutcome) :
    Run 1 100 [((initial 1 100).submit (sampleJob 1 5) ⟨true, [.pinned]⟩,
        .submit (sampleJob 2 6) ⟨true, [pin]⟩),
      (initial 1 100, .submit (sampleJob 1 5) ⟨true, [.pinned]⟩)] (crowdedQueue pin) :=
  .next (.next .start (.submit _ _ _)) (.submit _ _ _)

/-- Superseding a job, or failing to pin with `std::bad_alloc`, loses nothing. -/
theorem crowdedQueue_correct : Correct 1 100 (crowdedQueue .pinned) ∧
    Correct 1 100 (crowdedQueue .badAlloc) :=
  ⟨(run_correct_iff (crowdedQueue_run .pinned)).mpr (by simp [Sound, pinSources]),
    (run_correct_iff (crowdedQueue_run .badAlloc)).mpr (by simp [Sound, pinSources])⟩

/-- With a retired source the first job is accepted, not discarded by `Stop`, and has neither
a callback nor one to come. -/
theorem crowdedQueue_retired : ¬∀ depth maxBytes trace s, Run depth maxBytes trace s →
    Correct depth maxBytes s := by
  intro always
  have correct := always 1 100 _ _ (crowdedQueue_run .retired)
  have once := correct.completed.once { sampleJob 1 5 with submitted := 1 } (by decide) (by decide)
  revert once
  decide

end Gufo.Persistence
