import Gufo.Retention.Exact

/-!
# The searches of admission

What `Admit` finds when it looks for a checkpoint, a source, a victim or the record that
makes way: always a slot that holds a record, and a victim only among the eligible ones.
-/

namespace Gufo.Retention

variable {object : ChunkRef → Chunk} {limit : Nat}

namespace Policy
variable {s : Policy object limit} {r : RetentionRequest} {recordPressure : Bool}
  {pinned pinned' : Fin limit → Bool} {ramBytes : UInt64} {i : Fin limit}

/-! ## What a search finds -/

theorem find_occupied {id : CheckpointId} (h : s.find id = some i) : (s.records i).isSome := by
  have met := List.find?_some h
  simp only [checkpointAt, Option.any_map] at met
  cases at_i : s.records i with
  | none => simp [at_i] at met
  | some e => rfl

theorem sourceRecord_eq {e : Record object limit} (h : s.sourceRecord r = some (i, e)) :
    s.find r.source = some i ∧ s.records i = some e := by
  obtain ⟨j, found, eq⟩ := Option.bind_eq_some_iff.mp h
  obtain ⟨f, at_j, eq⟩ := Option.map_eq_some_iff.mp eq
  cases eq
  exact ⟨found, at_j⟩

theorem eligible_occupied (h : s.eligible r recordPressure pinned i = true) :
    (s.records i).isSome := by
  unfold eligible at h
  cases at_i : s.records i with
  | none => simp [at_i] at h
  | some e => rfl

/-- An eligible record other than the source. -/
def Candidate (s : Policy object limit) (r : RetentionRequest) (recordPressure : Bool)
    (pinned : Fin limit → Bool) (i : Fin limit) : Prop :=
  s.eligible r recordPressure pinned i = true ∧ s.find r.source ≠ some i

theorem select_target (best : Selection limit) (i : Fin limit) :
    (¬s.Candidate r recordPressure pinned i →
      s.select r recordPressure pinned ramBytes best i = best) ∧
    (s.Candidate r recordPressure pinned i → best.target = none →
      (s.select r recordPressure pinned ramBytes best i).target = some i) ∧
    ((s.select r recordPressure pinned ramBytes best i).target = best.target ∨
      (s.select r recordPressure pinned ramBytes best i).target = some i) := by
  unfold select
  cases at_i : s.records i with
  | none =>
    refine ⟨fun _ => rfl, fun candidate => ?_, .inl rfl⟩
    have := eligible_occupied candidate.1
    rw [at_i] at this
    cases this
  | some e =>
    dsimp only
    by_cases skip : (!s.eligible r recordPressure pinned i || s.find r.source == some i) = true
    · rw [if_pos skip]
      refine ⟨fun _ => rfl, fun candidate => ?_, .inl rfl⟩
      simp [candidate.1, candidate.2] at skip
    · rw [if_neg skip]
      refine ⟨fun out => ?_, fun _ empty => ?_, ?_⟩
      · refine absurd ⟨?_, ?_⟩ out
        · simp only [Bool.or_eq_true, not_or, Bool.not_eq_true', Bool.not_eq_false] at skip
          exact skip.1
        · simpa using (fun found => skip (by simp [found]) : s.find r.source ≠ some i)
      · cases recordPressure <;> simp [empty]
      · cases recordPressure
        · simp only [Bool.not_false, if_true]
          split
          · exact .inr rfl
          · exact .inl rfl
        · simp only [Bool.not_true, Bool.false_eq_true, if_false]
          split
          · exact .inr rfl
          · exact .inl rfl

theorem select_keeps {best : Selection limit} (some_ : best.target ≠ none) (i : Fin limit) :
    (s.select r recordPressure pinned ramBytes best i).target ≠ none := by
  have turn := @select_target object limit s r recordPressure pinned ramBytes best i
  rcases turn.2.2 with same | new
  · rwa [same]
  · simp [new]

/-- The loop finds a target exactly when there is a candidate, and it is one. -/
theorem fold_target (l : List (Fin limit)) (best : Selection limit) :
    ((l.foldl (s.select r recordPressure pinned ramBytes) best).target ≠ none ↔
      best.target ≠ none ∨ ∃ i ∈ l, s.Candidate r recordPressure pinned i) ∧
    ∀ i, (l.foldl (s.select r recordPressure pinned ramBytes) best).target = some i →
      best.target = some i ∨ s.Candidate r recordPressure pinned i := by
  induction l generalizing best with
  | nil => exact ⟨by simp, fun i target => .inl target⟩
  | cons a l ih =>
    have turn := @select_target object limit s r recordPressure pinned ramBytes best a
    obtain ⟨found, is_one⟩ := ih (s.select r recordPressure pinned ramBytes best a)
    simp only [List.foldl_cons, List.mem_cons, exists_eq_or_imp]
    by_cases candidate : s.Candidate r recordPressure pinned a
    · refine ⟨found.trans ?_, fun i target => ?_⟩
      · have set : (s.select r recordPressure pinned ramBytes best a).target ≠ none := by
          by_cases empty : best.target = none
          · simp [turn.2.1 candidate empty]
          · exact select_keeps empty a
        exact iff_of_true (.inl set) (.inr (.inl candidate))
      · rcases is_one i target with at_a | later
        · rcases turn.2.2 with same | new
          · exact .inl (same.symm.trans at_a)
          · rw [new, Option.some.injEq] at at_a
            exact .inr (at_a ▸ candidate)
        · exact .inr later
    · rw [turn.1 candidate] at found is_one ⊢
      exact ⟨found.trans (by simp [candidate]), is_one⟩

/-- An edited tail is a candidate. -/
theorem editedTail_candidate (h : s.editedTail r recordPressure pinned = some i) :
    s.Candidate r recordPressure pinned i := by
  unfold editedTail at h
  split at h
  · cases h
  · rename_i source from_ at_source
    split at h
    · refine List.foldlRecOn (motive := fun tail : Option (Fin limit) => ∀ i, tail = some i →
          s.Candidate r recordPressure pinned i) (List.finRange limit) _ (by simp) ?_ i h
      intro tail is_one a _ j taken
      split at taken
      · exact is_one j taken
      · split at taken
        · rename_i met
          cases taken
          refine ⟨met.2.1, fun found => ?_⟩
          rw [(sourceRecord_eq at_source).1, Option.some.injEq] at found
          exact met.1 found.symm
        · exact is_one j taken
    · cases h

/-! ## The victim -/

/-- Whatever is chosen is a retained record. -/
theorem victim_occupied (h : s.victim r recordPressure pinned ramBytes = some i) :
    (s.records i).isSome := by
  have target_occupied : ((List.finRange limit).foldl
      (s.select r recordPressure pinned ramBytes) {}).target = some i → (s.records i).isSome := by
    intro target
    rcases (fold_target (List.finRange limit) {}).2 i target with empty | candidate
    · cases empty
    · exact eligible_occupied candidate.1
  unfold victim at h
  split at h
  · rename_i tail found
    cases h
    exact eligible_occupied (editedTail_candidate found).1
  · dsimp only at h
    split at h
    · exact find_occupied h
    · split at h
      · exact target_occupied h
      · rename_i source e at_source
        split at h
        · cases h
          rw [(sourceRecord_eq at_source).2]
          rfl
        · exact target_occupied h

theorem evicted_occupied {exact_ : Option (Fin limit)}
    (h : s.evicted r exact_ pinned ramBytes = some i) : (s.records i).isSome := by
  unfold evicted at h
  split at h
  · rename_i j kept
    cases h
    have met := (Option.filter_eq_some_iff.mp kept).2
    simp only [checkpointAt, Option.any_map] at met
    cases at_i : s.records i with
    | none => simp [at_i] at met
    | some e => rfl
  · exact victim_occupied h

end Policy

end Gufo.Retention
