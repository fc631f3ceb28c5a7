import Mathlib.Data.List.Count

/-!
# Distances by breadth-first search

`search` walks backwards from the vertices that have a distance already. It keeps
them in a queue, oldest first, and gives each predecessor that has none yet one more
than the vertex it came from. Enough fuel is one unit for each vertex.
-/

namespace Gufo.Distance

variable {α : Type}

/-- `n` steps lead from a vertex to a goal. -/
inductive Walk (step : α → α → Prop) (goal : α → Prop) : Nat → α → Prop
  | here {v : α} : goal v → Walk step goal 0 v
  | there {v w : α} {n : Nat} : step v w → Walk step goal n w → Walk step goal (n + 1) v

/-- The distances while the queue is being worked off. -/
structure Searching (step : α → α → Prop) (goal : α → Prop) (queue : List α)
    (dist : α → Option Nat) : Prop where
  walks : ∀ v d, dist v = some d → Walk step goal d v
  goals : ∀ v, goal v → dist v = some 0
  queued : ∀ v ∈ queue, dist v ≠ none
  sorted : queue.Pairwise fun v w => (dist v).getD 0 ≤ (dist w).getD 0
  near : ∀ q ∈ queue, ∀ v d, dist v = some d → d ≤ (dist q).getD 0 + 1
  closed : ∀ w d, dist w = some d → w ∉ queue → ∀ v, step v w → ∃ e, dist v = some e ∧ e ≤ d + 1

variable {step : α → α → Prop} {goal : α → Prop} {dist : α → Option Nat}

/-- A finished search has found every walk, and a shortest one. -/
theorem Searching.shortest (h : Searching step goal [] dist) {n : Nat}
    {v : α} (walk : Walk step goal n v) : ∃ d, dist v = some d ∧ d ≤ n := by
  induction walk with
  | here isGoal => exact ⟨0, h.goals _ isGoal, Nat.le_refl _⟩
  | there edge _ ih =>
    obtain ⟨d, found, le⟩ := ih
    obtain ⟨e, reached, near⟩ := h.closed _ d found (by simp) _ edge
    exact ⟨e, reached, by omega⟩

/-- Below a distance every other one occurs. -/
theorem Searching.levels (h : Searching step goal [] dist) {n : Nat} {v : α}
    (walk : Walk step goal n v) (here : dist v = some n) : ∀ k ≤ n, ∃ u, dist u = some k := by
  induction walk with
  | here =>
    intro k le
    rw [Nat.le_zero.mp le]
    exact ⟨_, here⟩
  | @there v w n edge walk ih =>
    intro k le
    obtain ⟨d, found, near⟩ := h.shortest walk
    obtain ⟨e, reached, far⟩ := h.closed w d found (by simp) v edge
    cases here.symm.trans reached
    have same : d = n := by omega
    rcases Nat.lt_or_eq_of_le le with less | rfl
    · exact ih (same ▸ found) k (by omega)
    · exact ⟨v, here⟩

/-- The queue and the distances that a search starts from. -/
theorem searching_start [DecidablePred goal] {queue : List α} (all : ∀ v, v ∈ queue ↔ goal v) :
    Searching step goal queue fun v => if goal v then some 0 else none := by
  constructor
  case walks =>
    intro v d eq
    split at eq
    · rename_i isGoal
      cases eq
      exact .here isGoal
    · cases eq
  case goals => exact fun v isGoal => if_pos isGoal
  case queued => exact fun v mem => by rw [if_pos ((all v).mp mem)]; simp
  case sorted =>
    refine List.pairwise_of_forall_mem_list fun a inA b inB => ?_
    exact Nat.le_of_eq (by rw [if_pos ((all a).mp inA), if_pos ((all b).mp inB)])
  case near =>
    intro q _ v d eq
    split at eq
    · cases eq
      exact Nat.zero_le _
    · cases eq
  case closed =>
    intro w d eq out
    split at eq
    · rename_i isGoal
      exact absurd ((all w).mpr isGoal) out
    · cases eq

section
variable [DecidableEq α]

/-- The predecessors that have no distance yet get `d`, and join the queue. -/
def relax (d : Nat) : List α → (α → Option Nat) → List α → (α → Option Nat) × List α
  | [], dist, queue => (dist, queue)
  | p :: rest, dist, queue =>
    if dist p = none then relax d rest (Function.update dist p (some d)) (queue ++ [p])
    else relax d rest dist queue

def search (pred : α → List α) : Nat → List α → (α → Option Nat) → α → Option Nat
  | 0, _, dist => dist
  | _ + 1, [], dist => dist
  | fuel + 1, v :: queue, dist =>
    let next := relax ((dist v).getD 0 + 1) (pred v) dist queue
    search pred fuel next.2 next.1

/-! ## One vertex -/

/-- What `relax` does to the distances: it fills gaps with `d`, and queues what it filled. -/
structure Relaxed (d : Nat) (ps : List α) (dist : α → Option Nat) (queue : List α)
    (dist' : α → Option Nat) (queue' : List α) : Prop where
  kept : ∀ v e, dist v = some e → dist' v = some e
  given : ∀ v e, dist' v = some e → dist v = some e ∨ dist v = none ∧ v ∈ ps ∧ e = d
  covers : ∀ p ∈ ps, dist' p ≠ none
  queue : ∃ new, queue' = queue ++ new ∧ ∀ v, v ∈ new ↔ dist v = none ∧ dist' v ≠ none

theorem relax_relaxed (d : Nat) (ps : List α) (dist : α → Option Nat) (queue : List α) :
    Relaxed d ps dist queue (relax d ps dist queue).1 (relax d ps dist queue).2 := by
  induction ps generalizing dist queue with
  | nil =>
    refine ⟨fun v e h => h, fun v e h => .inl h, by simp, [], by simp [relax], fun v => ?_⟩
    simp [relax]
  | cons p rest ih =>
    unfold relax
    split
    · rename_i gap
      obtain ⟨kept, given, covers, new, grown, fresh⟩ :=
        ih (Function.update dist p (some d)) (queue ++ [p])
      have here := kept p d (Function.update_self p _ _)
      refine ⟨fun v e h => kept v e ?_, fun v e h => ?_, fun q mem => ?_, p :: new, ?_, fun v => ?_⟩
      · by_cases same : v = p
        · rw [same, gap] at h
          cases h
        · rwa [Function.update_of_ne same]
      · rcases given v e h with old | ⟨none, later, eq⟩
        · by_cases same : v = p
          · subst same
            rw [Function.update_self] at old
            exact .inr ⟨gap, List.mem_cons_self, (Option.some.inj old).symm⟩
          · rw [Function.update_of_ne same] at old
            exact .inl old
        · by_cases same : v = p
          · subst same
            rw [Function.update_self] at none
            cases none
          · rw [Function.update_of_ne same] at none
            exact .inr ⟨none, List.mem_cons_of_mem _ later, eq⟩
      · cases List.mem_cons.mp mem with
        | inl same => rw [same, here]; simp
        | inr later => exact covers q later
      · rw [grown, List.append_assoc, List.singleton_append]
      · rw [List.mem_cons, fresh]
        by_cases same : v = p
        · subst same
          simp [gap, here]
        · simp [same]
    · rename_i filled
      obtain ⟨kept, given, covers, new, grown, fresh⟩ := ih dist queue
      refine ⟨kept, fun v e h => ?_, fun q mem => ?_, new, grown, fresh⟩
      · rcases given v e h with old | ⟨gap, later, eq⟩
        · exact .inl old
        · exact .inr ⟨gap, List.mem_cons_of_mem _ later, eq⟩
      · cases List.mem_cons.mp mem with
        | inl same =>
          subst same
          cases known : dist q with
          | none => exact absurd known filled
          | some e => rw [kept q e known]; simp
        | inr later => exact covers q later

/-- How many vertices have no distance. -/
def gaps (vertices : List α) (dist : α → Option Nat) : Nat := vertices.countP (dist · = none)

theorem gaps_update {vertices : List α} {p : α} {d : Nat}
    (mem : p ∈ vertices) (gap : dist p = none) :
    gaps vertices (Function.update dist p (some d)) + 1 ≤ gaps vertices dist := by
  induction vertices with
  | nil => cases mem
  | cons v rest ih =>
    have le : gaps rest (Function.update dist p (some d)) ≤ gaps rest dist := by
      refine List.countP_mono_left fun w _ h => ?_
      by_cases same : w = p
      · simp [same] at h
      · simpa [Function.update_of_ne same] using h
    simp only [gaps, List.countP_cons] at le ih ⊢
    by_cases same : v = p
    · subst same
      simp only [Function.update_self, gap]
      simpa using le
    · have later := ih ((List.mem_cons.mp mem).resolve_left (Ne.symm same))
      rw [Function.update_of_ne same]
      omega

theorem relax_gaps {vertices ps : List α} (inside : ∀ p ∈ ps, p ∈ vertices) (d : Nat)
    (dist : α → Option Nat) (queue : List α) :
    (relax d ps dist queue).2.length + gaps vertices (relax d ps dist queue).1
      ≤ queue.length + gaps vertices dist := by
  induction ps generalizing dist queue with
  | nil => exact Nat.le_refl _
  | cons p rest ih =>
    have later : ∀ q ∈ rest, q ∈ vertices := fun q mem => inside q (List.mem_cons_of_mem _ mem)
    unfold relax
    split
    · rename_i gap
      have filled := gaps_update (d := d) (inside p List.mem_cons_self) gap
      have next := ih later (Function.update dist p (some d)) (queue ++ [p])
      simp only [List.length_append, List.length_singleton] at next
      omega
    · exact ih later dist queue

/-! ## The search -/

variable {pred : α → List α}

theorem searching_next (edges : ∀ v w, step v w ↔ v ∈ pred w) {v : α} {queue : List α}
    (h : Searching step goal (v :: queue) dist) :
    Searching step goal (relax ((dist v).getD 0 + 1) (pred v) dist queue).2
      (relax ((dist v).getD 0 + 1) (pred v) dist queue).1 := by
  obtain ⟨kept, given, covers, new, grown, fresh⟩ :=
    relax_relaxed ((dist v).getD 0 + 1) (pred v) dist queue
  obtain ⟨d, known⟩ := Option.ne_none_iff_exists'.mp (h.queued v List.mem_cons_self)
  have first : (dist v).getD 0 = d := by rw [known]; rfl
  rw [first] at kept given covers grown fresh ⊢
  -- what was queued keeps its distance, and what is new has one more than `v`
  have rank : ∀ q ∈ queue, ((relax (d + 1) (pred v) dist queue).1 q).getD 0 = (dist q).getD 0 := by
    intro q mem
    obtain ⟨e, eq⟩ := Option.ne_none_iff_exists'.mp (h.queued q (List.mem_cons_of_mem _ mem))
    rw [eq, kept q e eq]
  have late : ∀ q ∈ new, (relax (d + 1) (pred v) dist queue).1 q = some (d + 1) := by
    intro q mem
    obtain ⟨gap, filled⟩ := (fresh q).mp mem
    obtain ⟨e, eq⟩ := Option.ne_none_iff_exists'.mp filled
    rcases given q e eq with old | ⟨_, _, same⟩
    · rw [gap] at old
      cases old
    · rw [eq, same]
  have order : ∀ q ∈ queue, d ≤ (dist q).getD 0 := by
    intro q mem
    have := (List.pairwise_cons.mp h.sorted).1 q mem
    rwa [first] at this
  have most : ∀ w e, (relax (d + 1) (pred v) dist queue).1 w = some e → e ≤ d + 1 := by
    intro w e eq
    rcases given w e eq with old | ⟨_, _, rfl⟩
    · exact first ▸ h.near v List.mem_cons_self w e old
    · exact Nat.le_refl _
  constructor
  case walks =>
    intro w e eq
    rcases given w e eq with old | ⟨_, mem, rfl⟩
    · exact h.walks w e old
    · exact .there ((edges w v).mpr mem) (h.walks v d known)
  case goals => exact fun w isGoal => kept w 0 (h.goals w isGoal)
  case queued =>
    rw [grown]
    intro w mem
    cases List.mem_append.mp mem with
    | inl old =>
      obtain ⟨e, eq⟩ := Option.ne_none_iff_exists'.mp (h.queued w (List.mem_cons_of_mem _ old))
      rw [kept w e eq]
      simp
    | inr added => rw [late w added]; simp
  case sorted =>
    rw [grown]
    refine List.pairwise_append.mpr ⟨?_, ?_, ?_⟩
    · refine (List.pairwise_cons.mp h.sorted).2.imp_of_mem fun a b le => ?_
      rwa [rank _ a, rank _ b]
    · exact List.pairwise_of_forall_mem_list fun a inA b inB =>
        Nat.le_of_eq (by rw [late a inA, late b inB])
    · intro a inA b inB
      rw [late b inB]
      cases eq : (relax (d + 1) (pred v) dist queue).1 a with
      | none => exact Nat.zero_le _
      | some e => exact most a e eq
  case near =>
    rw [grown]
    intro q mem w e eq
    have := most w e eq
    cases List.mem_append.mp mem with
    | inl old =>
      rw [rank q old]
      have := order q old
      omega
    | inr added =>
      rw [late q added]
      exact Nat.le_succ_of_le this
  case closed =>
    rw [grown]
    intro w e eq out u edge
    simp only [List.mem_append, not_or] at out
    rcases given w e eq with old | ⟨gap, _, _⟩
    · by_cases same : w = v
      · subst same
        obtain ⟨f, found⟩ := Option.ne_none_iff_exists'.mp (covers u ((edges u w).mp edge))
        rw [known] at old
        cases old
        exact ⟨f, found, most u f found⟩
      · obtain ⟨f, found, le⟩ := h.closed w e old (by simp [same, out.1]) u edge
        exact ⟨f, kept u f found, le⟩
    · exact absurd ((fresh w).mpr ⟨gap, by rw [eq]; simp⟩) out.2

/-- With one unit of fuel for each vertex the queue is worked off. -/
theorem search_searching (edges : ∀ v w, step v w ↔ v ∈ pred w) {vertices : List α}
    (inside : ∀ v, ∀ p ∈ pred v, p ∈ vertices) {fuel : Nat} {queue : List α}
    (h : Searching step goal queue dist)
    (enough : queue.length + gaps vertices dist ≤ fuel) :
    Searching step goal [] (search pred fuel queue dist) := by
  induction fuel generalizing queue dist with
  | zero =>
    have empty : queue = [] := List.length_eq_zero_iff.mp (by omega)
    subst empty
    exact h
  | succ fuel ih =>
    cases queue with
    | nil => exact h
    | cons v queue =>
      have spent := relax_gaps (inside v) ((dist v).getD 0 + 1) dist queue
      simp only [List.length_cons] at enough
      exact ih (searching_next edges h) (by omega)

end

end Gufo.Distance
