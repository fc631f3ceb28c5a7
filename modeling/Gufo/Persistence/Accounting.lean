import Gufo.Persistence.State

/-!
# The queue's counters

`pending` and `pinned_bytes` count the queued jobs and the active one, in every
state: also after a submission that threw, which released what it discarded.
-/

namespace Gufo.Persistence
open Gufo.Sums

def cellCount (cell : Option PersistenceJob) : Nat := if cell.isSome then 1 else 0

def cellBytes (cell : Option PersistenceJob) : Nat := (cell.map (·.pinnedBytes.toNat)).getD 0

@[simp] theorem cellCount_none : cellCount none = 0 := rfl

@[simp] theorem cellCount_some (job : PersistenceJob) : cellCount (some job) = 1 := rfl

@[simp] theorem cellBytes_none : cellBytes none = 0 := rfl

@[simp] theorem cellBytes_some (job : PersistenceJob) :
    cellBytes (some job) = job.pinnedBytes.toNat := rfl

structure Accounted (q : Queue) : Prop where
  pending : q.stats.pending = total cellCount q.pending + cellCount q.active
  pinned : q.stats.pinnedBytes.toNat = total cellBytes q.pending + cellBytes q.active
  withinDepth : q.stats.pending ≤ q.pending.length
  withinBytes : q.stats.pinnedBytes ≤ q.maxBytes
  noUnderflow : q.underflow = false

variable {q : Queue} {i : Nat} {job other : PersistenceJob}

/-! ## What the searches return -/

theorem findRedundant_some {job : PersistenceJob} (h : q.findRedundant job = some i) :
    ∃ other, q.pending[i]? = some (some other) := by
  obtain ⟨⟨cell, k⟩, found, rfl⟩ := Option.map_eq_some_iff.mp h
  have inside := List.mem_zipIdx_iff_getElem?.mp (List.mem_of_find?_eq_some found)
  have holds := List.find?_some found
  cases cell with
  | none => simp [Queue.redundant] at holds
  | some other => exact ⟨other, inside⟩

/-- The search keeps only indices of queued jobs. -/
theorem oldest_some (job : PersistenceJob) {cells : List (Option PersistenceJob × Nat)}
    {best : Option (Nat × Nat)} (stored : ∀ cell k, (cell, k) ∈ cells → q.pending[k]? = some cell)
    (start : ∀ n k, best = some (n, k) → ∃ other, q.pending[k]? = some (some other)) :
    ∀ n k, cells.foldl (fun best (cell, i) =>
      match cell with
      | none => best
      | some other =>
        if replaceable job other then
          match best with
          | none => some (other.submitted, i)
          | some (submitted, _) =>
            if other.submitted < submitted then some (other.submitted, i) else best
        else best) best = some (n, k) → ∃ other, q.pending[k]? = some (some other) := by
  induction cells generalizing best with
  | nil => exact start
  | cons first rest ih =>
    obtain ⟨cell, i⟩ := first
    apply ih fun c k hc => stored c k (by simp [hc])
    intro n k
    cases cell with
    | none => exact start n k
    | some other =>
      have here := stored (some other) i (by simp)
      dsimp only
      split
      · cases hb : best with
        | none =>
          intro eq
          simp only [Option.some.injEq, Prod.mk.injEq] at eq
          exact ⟨other, eq.2 ▸ here⟩
        | some b =>
          dsimp only
          split
          · intro eq
            simp only [Option.some.injEq, Prod.mk.injEq] at eq
            exact ⟨other, eq.2 ▸ here⟩
          · intro eq
            exact start n k (hb.trans eq)
      · exact start n k

theorem replacement_some (h : q.replacement job = some i) :
    ∃ other, q.pending[i]? = some (some other) := by
  unfold Queue.replacement at h
  cases found : q.findRedundant job with
  | some k =>
    rw [found] at h
    simp only [Option.some.injEq] at h
    exact findRedundant_some (h ▸ found)
  | none =>
    simp only [found] at h
    split at h
    · obtain ⟨⟨n, k⟩, eq, rfl⟩ := Option.map_eq_some_iff.mp h
      exact oldest_some job (fun cell k hc => List.mem_zipIdx_iff_getElem?.mp hc)
        (by simp) n k eq
    · simp at h

theorem minElement_mem (best : Option PersistenceJob × Nat)
    (cells : List (Option PersistenceJob × Nat)) : minElement best cells ∈ best :: cells := by
  induction cells generalizing best with
  | nil => simp [minElement]
  | cons cell rest ih =>
    have next := ih (if earlier cell.1 best.1 then cell else best)
    simp only [minElement]
    rcases List.mem_cons.mp next with eq | inside
    · rw [eq]
      split <;> simp
    · simp [inside]

/-- An empty cell comes last: it is taken only if every cell is empty. -/
theorem minElement_none {best : Option PersistenceJob × Nat}
    {cells : List (Option PersistenceJob × Nat)} (h : (minElement best cells).1 = none) :
    best.1 = none ∧ ∀ cell ∈ cells, cell.1 = none := by
  induction cells generalizing best with
  | nil => simpa [minElement] using h
  | cons cell rest ih =>
    obtain ⟨first, others⟩ := ih h
    by_cases less : earlier cell.1 best.1
    · rw [if_pos less] at first
      simp [earlier, first] at less
    · rw [if_neg less] at first
      have empty : cell.1 = none := by
        cases hc : cell.1 with
        | none => rfl
        | some job => simp [earlier, hc, first] at less
      exact ⟨first, by simpa [empty] using others⟩

theorem next_spec (q : Queue) : (q.next = (none, 0) ∧ q.pending = []) ∨
    q.pending[q.next.2]? = some q.next.1 := by
  unfold Queue.next
  cases cells : q.pending.zipIdx with
  | nil => exact .inl ⟨rfl, by simpa using cells⟩
  | cons cell rest =>
    have inside : minElement cell rest ∈ q.pending.zipIdx := cells ▸ minElement_mem cell rest
    exact .inr (List.mem_zipIdx_iff_getElem?.mp inside)

theorem next_none (h : q.next.1 = none) : total cellCount q.pending = 0 := by
  unfold Queue.next at h
  apply total_eq_zero
  intro cell hc
  obtain ⟨k, hk⟩ := List.mem_iff_getElem?.mp hc
  have inside : (cell, k) ∈ q.pending.zipIdx := List.mem_zipIdx_iff_getElem?.mpr hk
  cases cells : q.pending.zipIdx with
  | nil => simp [cells] at inside
  | cons first rest =>
    rw [cells] at h inside
    have empty := minElement_none h
    have none : cell = none := by
      rcases List.mem_cons.mp inside with eq | later
      · rw [← eq] at empty
        exact empty.1
      · exact empty.2 (cell, k) later
    simp [none, cellCount]

/-! ## One job more or less -/

theorem Accounted.bytes_covers (h : Accounted q) (cell : q.pending[i]? = some (some job)) :
    job.pinnedBytes.toNat ≤ q.stats.pinnedBytes.toNat := by
  have counted := le_total cellBytes cell
  rw [h.pinned]
  rw [cellBytes_some] at counted
  omega

theorem Accounted.release (h : Accounted q) (cell : q.pending[i]? = some (some job)) :
    Accounted { q.release job with pending := q.pending.set i none } := by
  have count := total_set cellCount cell none
  have bytes := total_set cellBytes cell none
  have covered := h.bytes_covers cell
  have depth := h.withinDepth
  have counted := h.pending
  have pinned := h.pinned
  have within := UInt64.le_iff_toNat_le.mp h.withinBytes
  have exact := toNat_sub covered
  have ne : ¬q.stats.pinnedBytes < job.pinnedBytes := not_lt_of_toNat covered
  simp only [cellCount_some, cellCount_none] at count
  simp only [cellBytes_some, cellBytes_none] at bytes
  constructor
  case pending =>
    simp only [Queue.release]
    omega
  case pinned =>
    simp only [Queue.release]
    omega
  case withinDepth =>
    simp only [Queue.release, List.length_set]
    omega
  case withinBytes =>
    rw [UInt64.le_iff_toNat_le]
    simp only [Queue.release]
    omega
  case noUnderflow =>
    have positive : ¬q.stats.pending < 1 := by
      omega
    simp [Queue.release, h.noUnderflow, ne, positive]

theorem Accounted.accept (h : Accounted q) (cell : q.pending[i]? = some none)
    (room : q.stats.pending < q.pending.length)
    (fits : job.pinnedBytes ≤ q.maxBytes - q.stats.pinnedBytes) : Accounted (q.accept i job) := by
  have count := total_set cellCount cell (some { job with submitted := q.sequence + 1 })
  have bytes := total_set cellBytes cell (some { job with submitted := q.sequence + 1 })
  have counted := h.pending
  have pinned := h.pinned
  have within := UInt64.le_iff_toNat_le.mp h.withinBytes
  rw [UInt64.le_iff_toNat_le, toNat_sub within] at fits
  have small := q.maxBytes.toNat_lt
  have sum : (q.stats.pinnedBytes + job.pinnedBytes).toNat =
      q.stats.pinnedBytes.toNat + job.pinnedBytes.toNat := toNat_add (by omega)
  simp only [cellCount_some, cellCount_none] at count
  simp only [cellBytes_some, cellBytes_none] at bytes
  constructor
  case pending =>
    simp only [Queue.accept]
    omega
  case pinned =>
    simp only [Queue.accept, sum]
    omega
  case withinDepth =>
    simp only [Queue.accept, List.length_set]
    omega
  case withinBytes =>
    rw [UInt64.le_iff_toNat_le]
    simp only [Queue.accept, sum]
    omega
  case noUnderflow => exact h.noUnderflow

/-! ## Submissions -/

/-- Two queues that differ at most in the counters of refusals and the peaks. -/
structure Same (q r : Queue) : Prop where
  pending : r.pending = q.pending
  active : r.active = q.active
  maxBytes : r.maxBytes = q.maxBytes
  stopped : r.stopped = q.stopped
  sequence : r.sequence = q.sequence
  underflow : r.underflow = q.underflow
  count : r.stats.pending = q.stats.pending
  bytes : r.stats.pinnedBytes = q.stats.pinnedBytes

theorem Same.accounted {r : Queue} (same : Same q r) (h : Accounted q) : Accounted r := by
  constructor
  case pending => rw [same.count, same.pending, same.active, h.pending]
  case pinned => rw [same.bytes, same.pending, same.active, h.pinned]
  case withinDepth => rw [same.count, same.pending]; exact h.withinDepth
  case withinBytes => rw [same.bytes, same.maxBytes]; exact h.withinBytes
  case noUnderflow => rw [same.underflow, h.noUnderflow]

theorem same_skip (q : Queue) : Same q q.skip := ⟨rfl, rfl, rfl, rfl, rfl, rfl, rfl, rfl⟩

/-- Job `job` can be queued in cell `i`. -/
structure Admits (q : Queue) (i : Nat) (job : PersistenceJob) : Prop where
  free : q.pending[i]? = some none
  room : q.stats.pending < q.pending.length
  fits : job.pinnedBytes ≤ q.maxBytes - q.stats.pinnedBytes

/-- Everything a submission can do: it refuses the job, queues it, or discards a queued job
and then queues the new one, fails with `std::bad_alloc`, or throws. -/
inductive Submission (q : Queue) (job : PersistenceJob) (attempt : Attempt) :
    Outcome → Queue → Prop where
  | refused (r : Queue) (same : Same q r) : Submission q job attempt (.returned false none) r
  | queued (i : Nat) (running : q.stopped = false) (admits : Admits q i job) :
      Submission q job attempt (.returned true none) (q.accept i job)
  | unpinned (pins : pinSources attempt.pins = .retired) :
      Submission q job attempt (.threw none) q
  | replaced (i : Nat) (other : PersistenceJob) (redundant : Bool) (running : q.stopped = false)
      (cell : q.pending[i]? = some (some other))
      (admits : Admits (q.discard i other redundant) i job) :
      Submission q job attempt (.returned true (some other))
        ((q.discard i other redundant).accept i job)
  | dropped (i : Nat) (other : PersistenceJob) (redundant : Bool) (running : q.stopped = false)
      (cell : q.pending[i]? = some (some other)) :
      Submission q job attempt (.returned false (some other)) (q.discard i other redundant).skip
  | lost (i : Nat) (other : PersistenceJob) (redundant : Bool) (running : q.stopped = false)
      (cell : q.pending[i]? = some (some other)) (pins : pinSources attempt.pins = .retired)
      (victim : q.replacement job = some i) (allocates : attempt.allocates) :
      Submission q job attempt (.threw (some other)) (q.discard i other redundant)

theorem exists_free (h : Accounted q) (room : q.stats.pending < q.pending.length) :
    q.pending[q.pending.findIdx (·.isNone)]? = some none := by
  have some_free : ∃ cell ∈ q.pending, cell.isNone := by
    by_contra occupied
    have every : total cellCount q.pending = q.pending.length := by
      have ones : total cellCount q.pending = total (fun _ => 1) q.pending := by
        apply total_congr
        intro cell hc
        cases cell with
        | none => exact absurd ⟨none, hc, rfl⟩ occupied
        | some job => rfl
      rw [ones]
      simp [total]
    have counted := h.pending
    omega
  have found := List.findIdx_getElem (w := List.findIdx_lt_length_of_exists some_free)
  rw [List.getElem?_eq_getElem (List.findIdx_lt_length_of_exists some_free)]
  simpa using found

theorem Accounted.discard (h : Accounted q) (cell : q.pending[i]? = some (some other))
    (redundant : Bool) : Accounted (q.discard i other redundant) :=
  have released := h.release cell
  ⟨released.pending, released.pinned, released.withinDepth, released.withinBytes,
    released.noUnderflow⟩

theorem jobAt_of_cell (cell : q.pending[i]? = some (some other)) : q.jobAt i = some other := by
  simp [Queue.jobAt, cell]

theorem submit_cases (h : Accounted q) {job : PersistenceJob} (running : q.stopped = false)
    (space : q.full job = false) (attempt : Attempt) :
    Submission q job attempt (q.submit job attempt).1 (q.submit job attempt).2 := by
  simp only [Queue.full, Bool.or_eq_false_iff, Bool.and_eq_false_iff, beq_eq_false_iff_ne,
    decide_eq_false_iff_not, gt_iff_lt, UInt64.not_lt] at space
  obtain ⟨room, fits⟩ := space
  unfold Queue.submit
  by_cases allocates : attempt.allocates
  · rw [if_pos allocates]
    cases victim : q.replacement job with
    | none =>
      have nothing : q.released job = 0 := by simp [Queue.released, victim]
      have depth := h.withinDepth
      have below : q.stats.pending < q.pending.length := by
        rcases room with ne | ne
        · omega
        · exact absurd nothing ne
      have admits : Admits q (q.pending.findIdx (·.isNone)) job :=
        ⟨exists_free h below, below, by simpa [nothing] using fits⟩
      cases pins : pinSources attempt.pins with
      | pinned => exact .queued _ running admits
      | badAlloc => exact .refused _ (same_skip q)
      | retired => exact .unpinned pins
    | some i =>
      obtain ⟨other, cell⟩ := replacement_some victim
      have released : q.released job = other.pinnedBytes := by
        simp [Queue.released, victim, jobAt_of_cell cell]
      have depth := h.withinDepth
      have inside := (List.getElem?_eq_some_iff.mp cell).1
      have admits (redundant : Bool) : Admits (q.discard i other redundant) i job := by
        refine ⟨?_, ?_, ?_⟩
        · simp [Queue.discard, Queue.release, inside]
        · simp only [Queue.discard, Queue.release, List.length_set]
          omega
        · simpa [Queue.discard, Queue.release, released] using fits
      simp only [Option.bind_some, jobAt_of_cell cell, Option.getD_some]
      cases pins : pinSources attempt.pins with
      | pinned => exact .replaced i other _ running cell (admits _)
      | badAlloc => exact .dropped i other _ running cell
      | retired => exact .lost i other _ running cell pins victim allocates
  · rw [if_neg allocates]
    exact .refused _ (same_skip q)

theorem trySubmit_cases (h : Accounted q) (job : PersistenceJob) (attempt : Attempt) :
    Submission q job attempt (q.trySubmit job attempt).1 (q.trySubmit job attempt).2 := by
  unfold Queue.trySubmit
  split
  · exact .refused _ (same_skip q)
  · rename_i running
    split
    · exact .refused _ ⟨rfl, rfl, rfl, rfl, rfl, rfl, rfl, rfl⟩
    · split
      · exact .refused _ (same_skip q)
      · rename_i space
        exact submit_cases h (by simpa using running) (by simpa using space) attempt

theorem Submission.accounted {attempt : Attempt} {outcome : Outcome} {r : Queue}
    (done : Submission q job attempt outcome r) (h : Accounted q) : Accounted r := by
  cases done with
  | refused r same => exact same.accounted h
  | queued i running admits => exact h.accept admits.free admits.room admits.fits
  | unpinned pins => exact h
  | replaced i other redundant running cell admits =>
    exact (h.discard cell redundant).accept admits.free admits.room admits.fits
  | dropped i other redundant running cell => exact (same_skip _).accounted (h.discard cell redundant)
  | lost i other redundant running cell => exact h.discard cell redundant

/-! ## The worker and `Stop` -/

theorem Accounted.take (h : Accounted q) (idle : q.active = none) : Accounted q.take := by
  have counted := h.pending
  have pinned := h.pinned
  rw [idle, cellCount_none] at counted
  rw [idle, cellBytes_none] at pinned
  rcases next_spec q with ⟨nothing, empty⟩ | cell
  · refine ⟨?_, ?_, ?_, h.withinBytes, h.noUnderflow⟩
    · simpa [Queue.take, nothing, empty] using counted
    · simpa [Queue.take, nothing, empty] using pinned
    · simpa [Queue.take, nothing, empty] using h.withinDepth
  · have count := total_set cellCount cell none
    have bytes := total_set cellBytes cell none
    rw [cellCount_none] at count
    rw [cellBytes_none] at bytes
    refine ⟨?_, ?_, by simpa [Queue.take] using h.withinDepth, h.withinBytes, h.noUnderflow⟩
    · simp only [Queue.take]
      omega
    · simp only [Queue.take]
      omega

theorem Accounted.settle (h : Accounted q) (busy : q.active = some job) (succeeded : Bool) :
    Accounted (q.settle job succeeded) := by
  have counted := h.pending
  have pinned := h.pinned
  rw [busy, cellCount_some] at counted
  rw [busy, cellBytes_some] at pinned
  have covered : job.pinnedBytes.toNat ≤ q.stats.pinnedBytes.toNat := by omega
  have exact := toNat_sub covered
  have ne : ¬q.stats.pinnedBytes < job.pinnedBytes := not_lt_of_toNat covered
  have positive : ¬q.stats.pending < 1 := by omega
  have depth := h.withinDepth
  have within := UInt64.le_iff_toNat_le.mp h.withinBytes
  constructor
  case pending =>
    simp only [Queue.settle, Queue.release, cellCount_none]
    omega
  case pinned =>
    simp only [Queue.settle, Queue.release, cellBytes_none, exact]
    omega
  case withinDepth =>
    simp only [Queue.settle, Queue.release]
    omega
  case withinBytes =>
    rw [UInt64.le_iff_toNat_le]
    simp only [Queue.settle, Queue.release, exact]
    omega
  case noUnderflow => simp [Queue.settle, Queue.release, h.noUnderflow, ne, positive]

theorem Accounted.drop (h : Accounted q) (i : Nat) : Accounted (q.drop i) := by
  unfold Queue.drop
  cases cell : q.jobAt i with
  | none => exact h
  | some job =>
    have stored : q.pending[i]? = some (some job) := by
      exact Option.join_eq_some_iff.mp cell
    have released := h.release stored
    exact ⟨released.pending, released.pinned, released.withinDepth, released.withinBytes,
      released.noUnderflow⟩

theorem Accounted.stop (h : Accounted q) : Accounted q.stop := by
  have drops : ∀ (indices : List Nat) (q : Queue), Accounted q →
      Accounted (indices.foldl Queue.drop q) := by
    intro indices
    induction indices with
    | nil => exact fun _ h => h
    | cons i rest ih => exact fun q h => ih _ (h.drop i)
  exact drops _ _ ⟨h.pending, h.pinned, h.withinDepth, h.withinBytes, h.noUnderflow⟩

end Gufo.Persistence
