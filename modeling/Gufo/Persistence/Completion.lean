import Gufo.Persistence.Accounting

/-!
# One completion for each accepted job

An accepted job is in one place: queued, being written, owed a callback by the
submitter that superseded it, reported, discarded by `Stop`, or lost by a
submission that threw after it had discarded it.
-/

namespace Gufo.Persistence
open Gufo.Sums

/-- The active job until its callback. -/
def System.writing (s : System) : List PersistenceJob :=
  if s.worker = .writing then s.queue.active.toList else []

/-- The jobs whose callback is still to come. -/
def System.outstanding (s : System) : List PersistenceJob := s.queue.jobs ++ s.writing ++ s.owed

def System.reported (s : System) : List PersistenceJob := s.reports.map (·.job)

structure Valid (s : System) : Prop where
  accounted : Accounted s.queue
  placed : ∀ job, s.accepted.count job =
    s.outstanding.count job + s.reported.count job + s.discarded.count job + s.lost.count job
  numbered : ∀ job ∈ s.accepted, job.submitted ≤ s.queue.sequence
  distinct : s.accepted.Nodup
  answered : ∀ job ∈ s.superseded, job ∈ s.owed ∨ ⟨job, false⟩ ∈ s.reports ∨ job ∈ s.lost
  idle : s.worker = .waiting ∨ s.worker = .exited → s.queue.active = none
  busy : s.worker ≠ .waiting → s.worker ≠ .exited → s.queue.active.isSome
  drained : s.queue.stopped → s.queue.jobs = []
  exited : s.worker = .exited → s.queue.stopped

/-! ## Queued jobs -/

/-- Whether a cell holds this job. -/
def holds (job : PersistenceJob) (cell : Option PersistenceJob) : Nat :=
  if cell = some job then 1 else 0

theorem count_jobs (q : Queue) (job : PersistenceJob) :
    q.jobs.count job = total (holds job) q.pending := by
  unfold Queue.jobs
  induction q.pending with
  | nil => rfl
  | cons cell rest ih =>
    cases cell with
    | none => simpa [holds] using ih
    | some other =>
      rw [total_cons, ← ih]
      simp only [List.filterMap_cons_some, id_eq, List.count_cons, holds, Option.some.injEq,
        beq_iff_eq]
      omega

theorem count_jobs_set {q : Queue} {i : Nat} {old : Option PersistenceJob}
    (cell : q.pending[i]? = some old) (new : Option PersistenceJob) (job : PersistenceJob) :
    total (holds job) (q.pending.set i new) + holds job old = q.jobs.count job + holds job new := by
  rw [count_jobs]
  exact total_set (holds job) cell new

theorem holds_some (job other : PersistenceJob) : holds job (some other) = [other].count job := by
  by_cases eq : other = job <;> simp [holds, eq]

theorem count_toList (job : PersistenceJob) (cell : Option PersistenceJob) :
    cell.toList.count job = holds job cell := by
  cases cell with
  | none => simp [holds]
  | some other => simp [holds_some]

variable {s t : System} {q : Queue}

/-! ## Submissions -/

variable {job : PersistenceJob} {attempt : Attempt} {r : Queue} {outcome : Outcome}

theorem Submission.stopped
    (done : Submission q job attempt outcome r) : r.stopped = q.stopped := by
  cases done with
  | refused r same => exact same.stopped
  | _ => rfl

theorem Submission.active
    (done : Submission q job attempt outcome r) : r.active = q.active := by
  cases done with
  | refused r same => exact same.active
  | _ => rfl

variable {superseded : Option PersistenceJob}

/-- What a submission that returns does to the jobs: the new one is accepted, the
superseded one is owed a callback. -/
theorem Submission.returned {accepted : Bool}
    (done : Submission q job attempt (.returned accepted superseded) r) (other : PersistenceJob) :
    r.jobs.count other + superseded.toList.count other = q.jobs.count other +
      (if accepted then [{ job with submitted := r.sequence }] else []).count other := by
  cases done with
  | refused r same => simp [Queue.jobs, same.pending]
  | queued i running admits =>
    have moved := count_jobs_set admits.free (some { job with submitted := q.sequence + 1 }) other
    rw [holds_some] at moved
    rw [count_jobs]
    simp only [Queue.accept, holds, reduceCtorEq, if_false, Option.toList_none, List.count_nil,
      if_true] at moved ⊢
    omega
  | replaced i old redundant running cell admits =>
    have gone := count_jobs_set cell none other
    have moved := count_jobs_set admits.free
      (some { job with submitted := (q.discard i old redundant).sequence + 1 }) other
    rw [count_jobs (q.discard i old redundant)] at moved
    rw [holds_some] at gone moved
    rw [count_jobs, count_toList, holds_some]
    simp only [Queue.accept, Queue.discard, Queue.release, holds, reduceCtorEq, if_false, if_true]
      at gone moved ⊢
    omega
  | dropped i old redundant running cell =>
    have gone := count_jobs_set cell none other
    rw [holds_some] at gone
    rw [count_jobs, count_toList, holds_some]
    simp only [Queue.skip, Queue.discard, Queue.release, holds, reduceCtorEq, if_false,
      Bool.false_eq_true, List.count_nil] at gone ⊢
    omega

theorem Submission.sequence {accepted : Bool}
    (done : Submission q job attempt (.returned accepted superseded) r) :
    r.sequence = if accepted then q.sequence + 1 else q.sequence := by
  cases done with
  | refused r same => exact same.sequence
  | _ => rfl

/-- A stopped queue takes and discards nothing. -/
theorem Submission.of_stopped
    (done : Submission q job attempt outcome r) (stopped : q.stopped) :
    r.jobs = q.jobs := by
  cases done with
  | refused r same => simp [Queue.jobs, same.pending]
  | unpinned pins => rfl
  | queued i running => simp [stopped] at running
  | replaced i other redundant running => simp [stopped] at running
  | dropped i other redundant running => simp [stopped] at running
  | lost i other redundant running => simp [stopped] at running

theorem System.writing_congr (worker : t.worker = s.worker)
    (active : t.queue.active = s.queue.active) : t.writing = s.writing := by
  simp [System.writing, worker, active]

theorem Valid.returned (h : Valid s) {accepted : Bool}
    (done : Submission s.queue job attempt (.returned accepted superseded) r) :
    Valid { s with
      queue := r
      owed := s.owed ++ superseded.toList
      accepted := if accepted then s.accepted ++ [{ job with submitted := r.sequence }]
        else s.accepted
      superseded := s.superseded ++ superseded.toList } := by
  have writing : System.writing { s with
      queue := r
      owed := s.owed ++ superseded.toList
      accepted := if accepted then s.accepted ++ [{ job with submitted := r.sequence }]
        else s.accepted
      superseded := s.superseded ++ superseded.toList } = s.writing :=
    System.writing_congr rfl done.active
  have sequence := done.sequence
  constructor
  case accounted => exact done.accounted h.accounted
  case placed =>
    intro other
    have moved := done.returned other
    have placed := h.placed other
    simp only [System.outstanding, System.reported, List.count_append] at placed ⊢
    rw [writing]
    cases accepted with
    | false =>
      simp only [Bool.false_eq_true, if_false, List.count_nil] at moved ⊢
      omega
    | true =>
      simp only [if_true, List.count_append] at moved ⊢
      omega
  case numbered =>
    intro other hm
    show other.submitted ≤ r.sequence
    cases accepted with
    | false =>
      have le := h.numbered other (by simpa using hm)
      simp only [Bool.false_eq_true, if_false] at sequence
      omega
    | true =>
      simp only [if_true] at hm sequence
      rcases List.mem_append.mp hm with old | new
      · have le := h.numbered other old
        omega
      · have eq : other = { job with submitted := r.sequence } := by simpa using new
        simp [eq]
  case distinct =>
    cases accepted with
    | false => exact h.distinct
    | true =>
      simp only [if_true] at sequence ⊢
      apply List.nodup_append.mpr
      refine ⟨h.distinct, by simp, ?_⟩
      intro old hold new hnew eq
      have le := h.numbered old hold
      have number : new.submitted = r.sequence := by
        have same : new = { job with submitted := r.sequence } := by simpa using hnew
        simp [same]
      rw [eq] at le
      omega
  case answered =>
    intro other hm
    rcases List.mem_append.mp hm with old | new
    · exact (h.answered other old).imp (fun owed => by simp [owed]) id
    · exact .inl (List.mem_append.mpr (.inr new))
  case idle =>
    intro worker
    rw [done.active]
    exact h.idle worker
  case busy =>
    intro waiting exited
    rw [done.active]
    exact h.busy waiting exited
  case drained =>
    intro stopped
    rw [done.stopped] at stopped
    rw [done.of_stopped stopped]
    exact h.drained stopped
  case exited =>
    intro exited
    rw [done.stopped]
    exact h.exited exited

theorem Valid.lost (h : Valid s) {job other : PersistenceJob}
    (done : Submission s.queue job attempt (.threw (some other)) r) :
    Valid { s with
      queue := r
      superseded := s.superseded ++ [other]
      lost := s.lost ++ [other] } := by
  have active := done.active
  have stopped := done.stopped
  have accounted := done.accounted h.accounted
  cases done with
  | lost i other redundant running cell pins =>
    constructor
    case accounted => exact accounted
    case placed =>
      intro one
      have placed := h.placed one
      have gone := count_jobs_set cell none one
      rw [holds_some] at gone
      have empty : holds one none = 0 := rfl
      have left : (s.queue.discard i other redundant).jobs.count one =
          total (holds one) (s.queue.pending.set i none) := count_jobs _ _
      simp only [System.outstanding, System.writing, System.reported, List.count_append, active]
        at placed ⊢
      omega
    case numbered => exact h.numbered
    case distinct => exact h.distinct
    case answered =>
      intro one hm
      rcases List.mem_append.mp hm with old | new
      · exact (h.answered one old).imp id (.imp id fun lost => by simp [lost])
      · exact .inr (.inr (List.mem_append.mpr (.inr new)))
    case idle =>
      intro worker
      exact h.idle worker
    case busy =>
      intro waiting exited
      exact h.busy waiting exited
    case drained =>
      intro stopped'
      simp only [stopped, running] at stopped'
      exact absurd stopped' (by simp)
    case exited =>
      intro exited
      exact h.exited exited

theorem Valid.submit (h : Valid s) (job : PersistenceJob) (attempt : Attempt) :
    Valid (s.submit job attempt) := by
  have done := trySubmit_cases h.accounted job attempt
  unfold System.submit
  generalize s.queue.trySubmit job attempt = result at done
  obtain ⟨outcome, r⟩ := result
  cases outcome with
  | returned accepted superseded => exact h.returned done
  | threw superseded =>
    cases superseded with
    | some other => exact h.lost done
    | none =>
      cases done with
      | unpinned pins =>
        simp only [Option.toList_none, List.append_nil]
        exact h

/-! ## The other steps -/

theorem Valid.callBack (h : Valid s) (owed : job ∈ s.owed) :
    Valid { s with owed := s.owed.erase job, reports := s.reports ++ [⟨job, false⟩] } := by
  refine ⟨h.accounted, ?_, h.numbered, h.distinct, ?_, h.idle, h.busy, h.drained, h.exited⟩
  · intro other
    have placed := h.placed other
    have erased := List.perm_cons_erase owed
    have counted := erased.count_eq other
    have one : [job].count other + (s.owed.erase job).count other = s.owed.count other := by
      rw [counted, List.count_cons (a := other), List.count_cons (a := other), List.count_nil]
      omega
    simp only [System.outstanding, System.reported, System.writing, List.count_append,
      List.map_append, List.map_cons, List.map_nil] at placed ⊢
    omega
  · intro other hm
    rcases h.answered other hm with still | answered | lost
    · by_cases eq : other = job
      · subst eq
        exact .inr (by simp)
      · exact .inl ((List.mem_erase_of_ne eq).mpr still)
    · exact .inr (.inl (by simp [answered]))
    · exact .inr (.inr lost)

theorem count_take (q : Queue) (job : PersistenceJob) :
    q.take.jobs.count job + q.take.active.toList.count job = q.jobs.count job := by
  rw [count_toList, count_jobs q.take]
  rcases next_spec q with ⟨nothing, empty⟩ | cell
  · simp [Queue.take, nothing, empty, Queue.jobs, holds]
  · have moved := count_jobs_set cell none job
    have empty : holds job none = 0 := rfl
    simp only [Queue.take]
    omega

theorem take_active (q : Queue) (h : Accounted q) (idle : q.active = none)
    (work : q.stats.pending ≠ 0) : q.take.active.isSome := by
  by_contra empty
  have none : q.next.1 = none := by simpa [Queue.take] using empty
  have counted := h.pending
  rw [next_none none, idle, cellCount_none] at counted
  exact work counted

theorem Valid.take (h : Valid s) (waiting : s.worker = .waiting)
    (running : s.queue.stopped = false) (work : s.queue.stats.pending ≠ 0) :
    Valid { s with queue := s.queue.take, worker := .writing } := by
  have idle := h.idle (.inl waiting)
  constructor
  case accounted => exact h.accounted.take idle
  case placed =>
    intro job
    have placed := h.placed job
    have moved := count_take s.queue job
    simp only [System.outstanding, System.writing, System.reported, waiting, List.count_append,
      reduceCtorEq, if_false, if_true, List.count_nil] at placed ⊢
    omega
  case numbered => exact h.numbered
  case distinct => exact h.distinct
  case answered => exact h.answered
  case idle => simp
  case busy => exact fun _ _ => take_active s.queue h.accounted idle work
  case drained => simp [Queue.take, running]
  case exited => simp

theorem Valid.write (h : Valid s) (writing : s.worker = .writing) {active : PersistenceJob}
    (busy : s.queue.active = some active) (succeeded : Bool) :
    Valid { s with
      worker := .settling succeeded, reports := s.reports ++ [⟨active, succeeded⟩] } := by
  constructor
  case accounted => exact h.accounted
  case placed =>
    intro job
    have placed := h.placed job
    simp only [System.outstanding, System.writing, System.reported, writing, busy,
      List.count_append, List.map_append, List.map_cons, List.map_nil, if_true,
      Option.toList_some, reduceCtorEq, if_false, List.count_nil] at placed ⊢
    omega
  case numbered => exact h.numbered
  case distinct => exact h.distinct
  case answered =>
    intro job hm
    exact (h.answered job hm).imp id (.imp (fun answered => by simp [answered]) id)
  case idle => simp
  case busy => simp [busy]
  case drained => exact h.drained
  case exited => simp

theorem Valid.settle (h : Valid s) {succeeded : Bool} (settling : s.worker = .settling succeeded)
    {active : PersistenceJob} (busy : s.queue.active = some active) :
    Valid { s with queue := s.queue.settle active succeeded, worker := .waiting } := by
  constructor
  case accounted => exact h.accounted.settle busy succeeded
  case placed =>
    intro job
    have placed := h.placed job
    have same : (s.queue.settle active succeeded).jobs = s.queue.jobs := rfl
    simpa [System.outstanding, System.writing, System.reported, settling, same] using placed
  case numbered => exact h.numbered
  case distinct => exact h.distinct
  case answered => exact h.answered
  case idle => exact fun _ => rfl
  case busy => simp
  case drained => exact h.drained
  case exited => simp

theorem Valid.exit (h : Valid s) (waiting : s.worker = .waiting) (stopped : s.queue.stopped) :
    Valid { s with worker := .exited } := by
  refine ⟨h.accounted, ?_, h.numbered, h.distinct, h.answered, ?_, by simp, h.drained, ?_⟩
  · intro job
    have placed := h.placed job
    simpa [System.outstanding, System.writing, System.reported, waiting] using placed
  · exact fun _ => h.idle (.inl waiting)
  · exact fun _ => stopped

/-! ## Stop -/

theorem drop_cell (q : Queue) (i j : Nat) :
    (q.drop i).pending[j]? = if i = j then (q.pending[j]?).map fun _ => none else q.pending[j]? := by
  unfold Queue.drop
  cases cell : q.jobAt i with
  | none =>
    by_cases eq : i = j
    · subst eq
      unfold Queue.jobAt at cell
      cases stored : q.pending[i]? with
      | none => simp
      | some old =>
        rw [stored] at cell
        simpa using cell
    · simp [eq]
  | some job =>
    simp only [Queue.skip, Queue.release, List.getElem?_set]
    by_cases eq : i = j
    · subst eq
      cases stored : q.pending[i]? with
      | none => simp [List.getElem?_eq_none_iff.mp stored]
      | some old => simp [(List.getElem?_eq_some_iff.mp stored).1]
    · simp [eq]

theorem drops_cell (indices : List Nat) (q : Queue) (j : Nat) :
    (indices.foldl Queue.drop q).pending[j]? =
      if j ∈ indices then (q.pending[j]?).map fun _ => none else q.pending[j]? := by
  induction indices generalizing q with
  | nil => simp
  | cons i rest ih =>
    rw [List.foldl_cons, ih, drop_cell]
    by_cases here : i = j
    · subst here
      by_cases later : i ∈ rest <;> simp [later, Function.comp_def]
    · have other : ¬j = i := fun eq => here eq.symm
      by_cases later : j ∈ rest <;> simp [later, here, other]

theorem stop_jobs (q : Queue) : q.stop.jobs = [] := by
  unfold Queue.jobs
  rw [List.filterMap_eq_nil_iff]
  intro cell hc
  obtain ⟨j, hj⟩ := List.mem_iff_getElem?.mp hc
  unfold Queue.stop at hj
  rw [drops_cell] at hj
  by_cases inside : j < q.pending.length
  · simp_all
  · simp [List.mem_range, inside] at hj

theorem drops_others (indices : List Nat) (q : Queue) :
    (indices.foldl Queue.drop q).active = q.active ∧
      (indices.foldl Queue.drop q).stopped = q.stopped ∧
      (indices.foldl Queue.drop q).sequence = q.sequence := by
  induction indices generalizing q with
  | nil => simp
  | cons i rest ih =>
    have one : (q.drop i).active = q.active ∧ (q.drop i).stopped = q.stopped ∧
        (q.drop i).sequence = q.sequence := by
      unfold Queue.drop
      cases q.jobAt i <;> simp [Queue.skip, Queue.release]
    have others := ih (q.drop i)
    rwa [one.1, one.2.1, one.2.2] at others

theorem Valid.stop (h : Valid s) :
    Valid { s with queue := s.queue.stop, discarded := s.discarded ++ s.queue.jobs } := by
  have others := drops_others (List.range s.queue.pending.length)
    { s.queue with stopped := true }
  constructor
  case accounted => exact h.accounted.stop
  case placed =>
    intro job
    have placed := h.placed job
    have active : s.queue.stop.active = s.queue.active := others.1
    simp only [System.outstanding, System.writing, System.reported, stop_jobs, active,
      List.count_append, List.count_nil] at placed ⊢
    omega
  case numbered =>
    intro job hm
    have sequence : s.queue.stop.sequence = s.queue.sequence := others.2.2
    rw [sequence]
    exact h.numbered job hm
  case distinct => exact h.distinct
  case answered => exact h.answered
  case idle =>
    intro worker
    have active : s.queue.stop.active = s.queue.active := others.1
    rw [active]
    exact h.idle worker
  case busy =>
    intro waiting exited
    have active : s.queue.stop.active = s.queue.active := others.1
    rw [active]
    exact h.busy waiting exited
  case drained => exact fun _ => stop_jobs s.queue
  case exited => exact fun _ => others.2.1

theorem step_valid {a : Action} (step : Step s a t) (h : Valid s) : Valid t := by
  cases step with
  | submit job attempt => exact h.submit job attempt
  | callBack job owed => exact h.callBack owed
  | take waiting running work => exact h.take waiting running work
  | write writing active busy succeeded => exact h.write writing busy succeeded
  | settle succeeded settling active busy => exact h.settle settling busy
  | exit waiting stopped => exact h.exit waiting stopped
  | stop => exact h.stop

end Gufo.Persistence
