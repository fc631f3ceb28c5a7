import Gufo.Retention.Removals

/-!
# Capacity removals respect protection

Whatever `Victim` chooses was eligible: no checkpoint of the current turn, none
whose private state a disk job holds, and of rank 0 for a retry that neither
reused a prefix nor has its source nearby. The old record at the very boundary of
an admission is given up after `ResourceExhausted` without the last two questions.
-/

namespace Gufo.Retention
open Policy

variable {object : ChunkRef → Chunk} {limit : Nat}

namespace Policy

/-- The source of the request is retained and ends just before the request does. -/
def NearbySource (s : Policy object limit) (r : RetentionRequest) : Prop :=
  ∃ i e, s.records i = some e ∧ e.checkpoint.id = r.source ∧ continuedBy e.checkpoint r = true ∧
    r.tokens.length - e.checkpoint.boundary ≤ retryFraming

/-- A retry without a nearby source and without a reused prefix. -/
structure BareRetry (s : Policy object limit) (r : RetentionRequest) : Prop where
  retry : r.purpose = .retry
  apart : ¬s.NearbySource r
  cold : ¬(r.reused = true ∧ r.reusedTokens ≠ 0)

/-- `t` retains nothing that `s` does not. -/
def Shrinks (t s : Policy object limit) : Prop :=
  ∀ i c, t.checkpointAt i = some c → s.checkpointAt i = some c

end Policy

namespace Policy
variable {s t u : Policy object limit} {r : RetentionRequest} {recordPressure : Bool}
  {pinned : Fin limit → Bool} {ramBytes : UInt64} {i : Fin limit} {e : Record object limit}

theorem Shrinks.refl (s : Policy object limit) : s.Shrinks s := fun _ _ h => h

theorem Shrinks.erase (h : t.Shrinks s) (reason : RetentionReason) (rank : Nat) :
    (t.erase i reason rank).Shrinks s := by
  intro j c at_j
  apply h
  cases at_i : t.records i with
  | none => simpa [Policy.erase, at_i] using at_j
  | some e =>
    have same : (t.erase i reason rank).checkpointAt j = (t.vacate i).checkpointAt j := by
      simp [Policy.erase, at_i, checkpointAt]
    rw [same, checkpointAt_vacate] at at_j
    split at at_j
    · cases at_j
    · exact at_j

theorem NearbySource.mono (h : t.Shrinks s) (near : t.NearbySource r) : s.NearbySource r := by
  obtain ⟨i, e, at_i, id, continued, close⟩ := near
  have at_s := h i e.checkpoint (checkpointAt_of_records at_i)
  obtain ⟨f, at_f, same⟩ := Option.map_eq_some_iff.mp at_s
  rw [← same] at id continued close
  exact ⟨i, f, at_f, id, continued, close⟩

theorem BareRetry.mono (h : t.Shrinks s) (bare : s.BareRetry r) : t.BareRetry r where
  retry := bare.retry
  apart := fun near => bare.apart (near.mono h)
  cold := bare.cold

/-! ## The victim -/

/-- The three questions that `eligible` asks. -/
theorem eligible_spec (h : s.eligible r recordPressure pinned i = true)
    (at_i : s.records i = some e) :
    persisting pinned e i = false ∧ e.checkpoint.id ∉ r.protectedCheckpoints ∧
      (s.BareRetry r → s.priority i (some r) = 0) := by
  unfold eligible at h
  rw [at_i, Option.any_some] at h
  simp only [Bool.and_eq_true, Bool.not_eq_true', Bool.or_eq_true, decide_eq_true_eq] at h
  refine ⟨h.1.1, by simpa using h.1.2, fun bare => ?_⟩
  have cold : r.reused = false ∨ r.reusedTokens = 0 := by
    have := not_and_or.mp bare.cold
    simpa using this
  have no_tail : resumedTail r = false := by
    rcases cold with reused | tokens
    · simp [resumedTail, reused]
    · simp [resumedTail, tokens]
  have no_history : s.coveredHistory r recordPressure i e (s.priority i (some r)) = false := by
    rcases cold with reused | tokens
    · simp [coveredHistory, reused]
    · simp [coveredHistory, tokens]
  rcases h.2 with low | covered
  · simpa [maximumRank, bare.retry, no_tail, RetentionPurpose.maxRank] using low
  · rw [no_history] at covered
    cases covered

theorem replacesSource_spec (h : s.replacesSource r recordPressure pinned = true)
    (found : s.find r.source = some i) (at_i : s.records i = some e) :
    persisting pinned e i = false ∧ e.checkpoint.id ∉ r.protectedCheckpoints ∧
      s.NearbySource r := by
  have source : s.sourceRecord r = some (i, e) := by simp [sourceRecord, found, at_i]
  unfold replacesSource at h
  rw [source, Option.any_some] at h
  simp only [Bool.and_eq_true, Bool.not_eq_true', decide_eq_true_eq] at h
  obtain ⟨-, ⟨⟨free, unprotected⟩, continued⟩, close⟩ := h
  refine ⟨free, by simpa using unprotected, i, e, at_i, ?_, continued, close⟩
  have met := List.find?_some found
  simpa [checkpointAt, at_i] using met

/-- What every victim is. -/
theorem victim_spec (h : s.victim r recordPressure pinned ramBytes = some i)
    (at_i : s.records i = some e) :
    persisting pinned e i = false ∧ e.checkpoint.id ∉ r.protectedCheckpoints ∧
      (s.BareRetry r → s.priority i (some r) = 0) := by
  have of_target : ((List.finRange limit).foldl
      (s.select r recordPressure pinned ramBytes) {}).target = some i →
      s.eligible r recordPressure pinned i = true := by
    intro target
    rcases (fold_target (List.finRange limit) {}).2 i target with empty | candidate
    · cases empty
    · exact candidate.1
  unfold victim at h
  split at h
  · rename_i tail found
    cases h
    exact eligible_spec (editedTail_candidate found).1 at_i
  · dsimp only at h
    split at h
    · rename_i replaced
      obtain ⟨free, unprotected, near⟩ :=
        replacesSource_spec (Bool.and_eq_true_iff.mp replaced).2 h at_i
      exact ⟨free, unprotected, fun bare => absurd near bare.apart⟩
    · split at h
      · exact eligible_spec (of_target h) at_i
      · split at h
        · rename_i yields
          cases h
          have eligible_ : s.eligible r recordPressure pinned i = true := by
            simp only [Bool.or_eq_true, advancesSource, onlySource, Bool.and_eq_true] at yields
            rcases yields with advances | only
            · exact advances.1.1.1.1.2
            · exact only.1.2
          exact eligible_spec eligible_ at_i
        · exact eligible_spec (of_target h) at_i

variable {m : Removal object limit}

theorem evicted_eq (exact_ : Option (Fin limit)) :
    s.evicted r exact_ pinned ramBytes =
      match s.givenUp r exact_ with
      | some i => some i
      | none => s.victim r false pinned ramBytes := rfl

variable {exact_ : Option (Fin limit)}

theorem givenUp_shrinks (h : t.Shrinks s)
    (kept : s.givenUp r exact_ = none) : t.givenUp r exact_ = none := by
  unfold givenUp at kept ⊢
  rw [Option.filter_eq_none_iff] at kept ⊢
  intro i exact_i met
  refine kept i exact_i ?_
  rw [Option.any_eq_true] at met ⊢
  obtain ⟨c, at_i, rest⟩ := met
  exact ⟨c, h i c at_i, rest⟩

variable {round : Round object limit}

theorem givenUp_spec (h : s.givenUp r exact_ = some i) :
    exact_ = some i ∧ ∃ e, s.records i = some e ∧ e.checkpoint.id ∉ r.protectedCheckpoints ∧
      (e.checkpoint.id ≠ r.source ∨ r.preserveSource = false) := by
  obtain ⟨same, met⟩ := Option.filter_eq_some_iff.mp h
  obtain ⟨c, at_i, rest⟩ := (Option.any_eq_true _ _).mp met
  obtain ⟨e, at_e, rfl⟩ := Option.map_eq_some_iff.mp at_i
  refine ⟨same, e, at_e, ?_, ?_⟩
  · simp only [Bool.and_eq_true, Bool.not_eq_true', List.contains_eq_mem] at rest
    simpa using rest.2
  · simp only [Bool.and_eq_true, Bool.or_eq_true] at rest
    simpa using rest.1

end Policy

def sampleRequest : RetentionRequest :=
  { tokens := List.replicate 16 5, compatibility := [], input := [] }

end Gufo.Retention
