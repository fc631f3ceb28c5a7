import Gufo.Lib.Draws
import Gufo.Lib.Weighted
import Gufo.Lib.Outcome
import Gufo.Speculative.Verification

/-!
# Sampling in exact arithmetic

The sampler over the reals, with ideal uniform draws.

* `distribution_isLaw`: what a random sampler returns for a row is a probability
  distribution.
* `expect_sampleEntries`: a sample is drawn from it.
* `expect_verifySampledToken`: a draft is accepted with probability `min 1 (p / q)`
  and otherwise replaced by a sample of the leftover.
-/

namespace Gufo.Speculative
open Gufo.Draws Gufo.Weighted Outcome
open scoped ENNReal

set_option linter.unusedSectionVars false

/-- Every real number is finite. -/
noncomputable instance : Floating ℝ where
  finite _ := true
  exp := Real.exp
  log := Real.log

/-- The generator has no state: every draw is a new uniform number. -/
noncomputable instance : Uniform Drawing Unit ℝ where
  uniform rng := do return (← Drawing.uniform, rng)

section
variable {Γ : Type} {c : SamplingConfig Γ ℝ} {s s' : SamplerState Γ ℝ Unit} {row : Row ℝ}
  {p q entries : Entries ℝ} {token draft : TokenId}

/-! ## What the sampler returns is a distribution -/

theorem sumValues_eq (entries : Entries ℝ) : sumValues entries = total entries := by
  rw [sumValues, Weighted.total, List.sum_eq_foldl]

theorem keys_adjustedRow {penalties : List TokenPenalty} {start : Nat}
    (h : adjustedRow c penalties start row = .ok entries) :
    (keys entries).Nodup ∧
      ∀ token : Nat, token ∈ keys entries → start ≤ token ∧ token < start + row.length := by
  induction row generalizing start entries with
  | nil =>
    cases h
    exact ⟨List.nodup_nil, nofun⟩
  | cons logit rest ih =>
    have wider {entries : Entries ℝ} (h : adjustedRow c penalties (start + 1) rest = .ok entries) :
        ∀ token : Nat, token ∈ keys entries →
          start + 1 ≤ token ∧ token < start + (rest.length + 1) := by
      intro token member
      have := (ih h).2 token member
      omega
    rw [adjustedRow] at h
    split at h
    · refine ⟨(ih h).1, fun token member => ?_⟩
      have := wider h token member
      rw [List.length_cons]
      omega
    · simp only [bind_eq_ok, pure_eq_ok] at h
      obtain ⟨value, -, others, found, rfl⟩ := h
      simp only [keys, List.map_cons, List.nodup_cons, List.mem_cons, List.length_cons]
      refine ⟨⟨fun member => ?_, (ih found).1⟩, ?_⟩
      · have := wider found start member
        omega
      · rintro token (rfl | member)
        · omega
        · have := wider found token member
          omega

theorem isLaw_normalize {weight : Entries ℝ} {sum : ℝ} (distinct : (keys weight).Nodup)
    (nonneg : ∀ e ∈ weight, 0 ≤ e.2) (same : total weight = sum)
    (h : normalize weight sum = .ok entries) : IsLaw entries := by
  unfold normalize at h
  split at h
  case isFalse => exact absurd h throw_ne_ok
  case isTrue positive =>
    obtain rfl := pure_eq_ok.mp h
    have scaled : ∀ e ∈ weight.map fun e => (e.1, e.2 / sum), 0 ≤ e.2 := by
      intro e member
      obtain ⟨a, inside, rfl⟩ := List.mem_map.mp member
      exact div_nonneg (nonneg a inside) positive.1.le
    have whole : total (weight.map fun e => (e.1, e.2 / sum)) = 1 := by
      have divided : total (weight.map fun e => (e.1, e.2 / sum)) = total weight / sum := by
        simp [Weighted.total, Function.comp_def, div_eq_mul_inv, List.sum_map_mul_right]
      rw [divided, same, div_self positive.1.ne']
    have dropped : total ((weight.map fun e => (e.1, e.2 / sum)).filter (·.2 != 0)) =
        total (weight.map fun e => (e.1, e.2 / sum)) :=
      sum_map_filter (fun e _ none_ => by simpa using none_) (fun _ w => w) fun _ => rfl
    refine ⟨⟨?_, fun e member => scaled e (List.mem_of_mem_filter member)⟩, ?_⟩
    · refine List.Nodup.sublist (List.filter_sublist.map Prod.fst) ?_
      simpa [keys, Function.comp_def] using distinct
    · rw [dropped, whole]

theorem linearDistribution_isLaw {penalties : List TokenPenalty}
    (h : linearDistribution c penalties row = .ok entries) : IsLaw entries := by
  simp only [linearDistribution, bind_eq_ok] at h
  obtain ⟨candidates, found, maximum, -, normalized⟩ := h
  refine isLaw_normalize ?_ ?_ (sumValues_eq _).symm normalized
  · simpa [keys, Function.comp_def] using (keys_adjustedRow found).1
  · intro e member
    obtain ⟨a, -, rfl⟩ := List.mem_map.mp member
    have positive := (Real.exp_pos ((a.2 - maximum) / c.temperature)).le
    split_ifs
    exacts [positive, le_rfl, positive, le_rfl]

theorem filterSelected_sublist (full : Option ℝ) (entries : Entries ℝ) :
    (filterSelected c full entries).Sublist entries := by
  cases entries with
  | nil => exact List.Sublist.refl _
  | cons best rest => exact List.take_sublist _ _

theorem keys_prepareSelected {penalties : List TokenPenalty}
    (h : prepareSelected c penalties row = .ok entries) :
    (keys entries).Nodup ∧ ∀ token : Nat, token ∈ keys entries → token < row.length := by
  simp only [prepareSelected, bind_eq_ok] at h
  obtain ⟨candidates, found, maximum, -, h⟩ := h
  obtain ⟨distinct, bound⟩ := keys_adjustedRow found
  have sorted : (keys (candidates.mergeSort fun a b => !better b a)).Perm (keys candidates) :=
    (List.mergeSort_perm _ _).map _
  have enough (h : entries.Sublist (candidates.mergeSort fun a b => !better b a)) :
      (keys entries).Nodup ∧ ∀ token : Nat, token ∈ keys entries → token < row.length := by
    refine ⟨(sorted.nodup_iff.mpr distinct).sublist (h.map _), fun token member => ?_⟩
    have := bound token (sorted.mem_iff.mp ((h.map Prod.fst).mem member))
    omega
  split at h
  · obtain rfl := pure_eq_ok.mp h
    exact enough ((filterSelected_sublist _ _).trans (List.take_sublist _ _))
  · split at h
    · simp only [bind_eq_ok, pure_eq_ok] at h
      obtain ⟨-, -, rfl⟩ := h
      refine enough ((filterSelected_sublist _ _).trans ?_)
      split
      · exact List.Sublist.refl _
      · exact List.take_sublist _ _
    · obtain rfl := pure_eq_ok.mp h
      exact enough (filterSelected_sublist _ _)

theorem selectedDistribution_isLaw (distinct : (keys p).Nodup)
    (h : selectedDistribution c p = .ok entries) : IsLaw entries := by
  cases p with
  | nil => exact absurd h throw_ne_ok
  | cons best rest =>
    refine isLaw_normalize ?_ ?_ (sumValues_eq _).symm h
    · simpa [keys, Function.comp_def] using distinct
    · intro e member
      obtain ⟨a, -, rfl⟩ := List.mem_map.mp member
      exact (Real.exp_pos _).le

theorem unconstrained_isLaw (h : s.unconstrained row = .ok entries) : IsLaw entries := by
  simp only [SamplerState.unconstrained, bind_eq_ok] at h
  obtain ⟨-, -, -, -, h⟩ := h
  split at h
  · simp only [bind_eq_ok, pure_eq_ok] at h
    obtain ⟨token, -, rfl⟩ := h
    exact isLaw_single token
  · split at h
    · exact linearDistribution_isLaw h
    · obtain ⟨selected, prepared, h⟩ := bind_eq_ok.mp h
      exact selectedDistribution_isLaw (keys_prepareSelected prepared).1 h

/-- What a sampler returns for a row is a probability distribution. -/
theorem distribution_isLaw (h : s.distribution row = .ok entries) : IsLaw entries := by
  unfold SamplerState.distribution at h
  split at h
  · split at h
    · exact absurd h throw_ne_ok
    · obtain rfl := pure_eq_ok.mp h
      exact isLaw_single _
  · split at h
    · exact unconstrained_isLaw h
    · split at h
      · exact unconstrained_isLaw h
      · split at h
        · simp only [bind_eq_ok, pure_eq_ok] at h
          obtain ⟨-, -, token, -, rfl⟩ := h
          exact isLaw_single token
        · obtain ⟨masked, -, h⟩ := bind_eq_ok.mp h
          exact unconstrained_isLaw h

/-! ## Drawing from a distribution -/

theorem pick_eq_choose (entries : Entries ℝ) (sample : ℝ) :
    pick entries sample = Drawing.choose 0 entries sample := by
  induction entries generalizing sample with
  | nil => rfl
  | cons e rest ih =>
    cases rest with
    | nil => rfl
    | cons next rest =>
      rw [pick, Drawing.choose_cons, ih]
      exact nofun

/-- A sample is drawn from its distribution. -/
theorem expect_sampleEntries (h : IsLaw entries) (f : TokenId → ℝ≥0∞) :
    (sampleEntries entries () : Drawing (TokenId × Unit)).expect (fun r => f r.1) =
      mean entries f := by
  match entries, h with
  | [], h => exact absurd rfl h.ne_nil
  | [e], h =>
    have whole : e.2 = 1 := by simpa [Weighted.total] using h.whole
    simp [sampleEntries, mean, whole]
  | e :: next :: rest, h =>
    have law : ∫⁻ u in Set.Ico 0 ((e :: next :: rest).map Prod.snd).sum,
        f (Drawing.choose 0 (e :: next :: rest) u) = mean (e :: next :: rest) f :=
      Drawing.lintegral_choose h.ne_nil h.nonneg f
    rw [show ((e :: next :: rest).map Prod.snd).sum = 1 from h.whole] at law
    rw [← law]
    show (∫⁻ u in Set.Ico (0 : ℝ) 1, f (pick (e :: next :: rest) u)) = _
    simp [pick_eq_choose]

/-! ## A rejected draft -/

theorem sparseProbability_eq (h : (keys q).Nodup) (token : TokenId) :
    sparseProbability q token = weightOf q token := by
  rw [sparseProbability, sumValues_eq]
  induction q with
  | nil => rfl
  | cons e rest ih =>
    rw [keys, List.map_cons, List.nodup_cons] at h
    by_cases same : e.1 = token
    · have none_ : rest.filter (fun e => e.1 == token) = [] := by
        rw [List.filter_eq_nil_iff]
        intro a member
        simp only [beq_iff_eq]
        rintro key
        exact h.1 (same.trans key.symm ▸ List.mem_map_of_mem member)
      simp [Weighted.total, weightOf, same, none_]
    · have other : (e.1 == token) = false := by simpa using same
      rw [List.filter_cons_of_neg (by simp [other]), ih h.2]
      simp [weightOf, other]

theorem residual_eq (h : (keys q).Nodup) :
    residual p q = (p.map fun e => (e.1, max (e.2 - weightOf q e.1) 0)).filter
      fun e => decide (0 < e.2) := by
  unfold residual
  simp [sparseProbability_eq h]

theorem sum_residual {M : Type} [AddCommMonoid M] (hq : (keys q).Nodup) (g : TokenId → ℝ → M)
    (zero : ∀ token, g token 0 = 0) :
    ((residual p q).map fun e => g e.1 e.2).sum =
      (p.map fun e => g e.1 (max (e.2 - weightOf q e.1) 0)).sum := by
  rw [residual_eq hq, sum_map_filter _ g zero, List.map_map]
  · rfl
  · intro e member none_
    obtain ⟨a, -, rfl⟩ := List.mem_map.mp member
    exact le_antisymm (not_lt.mp (of_decide_eq_false none_)) (le_max_right _ _)

theorem nonneg_residual {e : TokenId × ℝ} (member : e ∈ residual p q) : 0 ≤ e.2 := by
  have positive : 0 < e.2 := of_decide_eq_true (List.mem_filter.mp member).2
  exact positive.le

theorem keys_residual (hp : (keys p).Nodup) : (keys (residual p q)).Nodup := by
  refine List.Nodup.sublist (List.filter_sublist.map Prod.fst) ?_
  simpa [keys, Function.comp_def] using hp

/-- A rejected draft's replacement is drawn from the leftover. -/
theorem expect_sampleResidual (hp : IsLaw p) (hq : Weights q) (f : TokenId → ℝ≥0∞) :
    (sampleResidual p q () : Drawing (TokenId × Unit)).expect (fun r => f r.1) = leftover p q f := by
  have valid : (q.any fun e => !Floating.finite e.2 || decide (e.2 < 0)) = false := by
    rw [List.any_eq_false]
    intro e member
    simp [Floating.finite, hq.nonneg e member]
  have sum : sumValues (residual p q) = excess p q := by
    rw [sumValues_eq]
    exact sum_residual hq.distinct (fun _ w => w) fun _ => rfl
  unfold sampleResidual leftover
  simp only [valid, sum, Bool.false_eq_true, if_false]
  by_cases positive : 0 < excess p q
  · rw [if_pos ⟨positive, rfl⟩, if_pos positive]
    have normalized : normalize (residual p q) (excess p q) =
        .ok (((residual p q).map fun e => (e.1, e.2 / excess p q)).filter (·.2 != 0)) :=
      if_pos ⟨positive, rfl⟩
    have law := isLaw_normalize (keys_residual hp.distinct) (fun _ => nonneg_residual)
      ((sumValues_eq _).symm.trans sum) normalized
    rw [normalized, MonadExcept.ofExcept, pure_bind, expect_sampleEntries law, mean,
      sum_map_filter (fun e _ none_ => by simpa using none_)
        (fun token w => ENNReal.ofReal w * f token) (by simp), List.map_map]
    exact sum_residual hq.distinct
      (fun token w => ENNReal.ofReal (w / excess p q) * f token) (by simp)
  · rw [if_neg (fun h => positive h.1), if_neg positive]
    exact expect_sampleEntries hp f

/-- A draft is accepted with its acceptance probability, and is otherwise replaced by a sample of
the leftover. -/
theorem expect_verifySampledToken (law : s.distribution row = .ok p) (hq : Weights q)
    (positive : 0 < weightOf q draft)
    (accepts : 0 < weightOf p draft → s.accept draft = .ok s')
    (f : (TokenId × Bool) × SamplerState Γ ℝ Unit → ℝ≥0∞) :
    (verifySampledToken row draft q (weightOf q draft) s :
        Drawing ((TokenId × Bool) × SamplerState Γ ℝ Unit)).expect f =
      ENNReal.ofReal (acceptance p q draft) * f ((draft, true), s') +
        ENNReal.ofReal (1 - acceptance p q draft) *
          leftover p q fun token => f ((token, false), s) := by
  have hp := distribution_isLaw law
  have low : 0 ≤ acceptance p q draft :=
    le_min zero_le_one (div_nonneg (hp.toWeights.weightOf_nonneg draft) positive.le)
  rw [← Drawing.lintegral_below low (min_le_left _ _)]
  unfold verifySampledToken
  rw [law]
  refine MeasureTheory.setLIntegral_congr_fun measurableSet_Ico fun u inside => ?_
  have threshold : u * weightOf q draft < weightOf p draft ↔ u < acceptance p q draft := by
    rw [acceptance, lt_min_iff, lt_div_iff₀ positive]
    exact ⟨fun h => ⟨inside.2, h⟩, And.right⟩
  show (if u * weightOf q draft < weightOf p draft then
      (do return ((draft, true), ← MonadExcept.ofExcept (s.accept draft)) :
        Drawing ((TokenId × Bool) × SamplerState Γ ℝ Unit))
    else do
      let (token, rng) ← sampleResidual p q ()
      return ((token, false), { s with rng })).expect f = _
  by_cases below : u < acceptance p q draft
  · have weighs : 0 < weightOf p draft :=
      (mul_nonneg inside.1 positive.le).trans_lt (threshold.mpr below)
    rw [if_pos (threshold.mpr below), if_pos below, accepts weighs]
    rfl
  · rw [if_neg fun h => below (threshold.mp h), if_neg below, Drawing.expect_bind]
    exact expect_sampleResidual hp hq fun token => f ((token, false), s)

theorem ofExcept_ok {α : Type} (a : α) :
    (MonadExcept.ofExcept (.ok a : Except String α) : Drawing α) = pure a := rfl

theorem ofExcept_pure {α : Type} (a : α) :
    (MonadExcept.ofExcept (pure a : Except String α) : Drawing α) = pure a := rfl

theorem distribution_nonempty (h : s.distribution row = .ok entries) : row ≠ [] := by
  rintro rfl
  have refused : ¬s.unconstrained [] = .ok entries := by
    simp [SamplerState.unconstrained, bind_eq_ok, reject]
  unfold SamplerState.distribution at h
  split at h
  · simp at h
  · split at h
    · exact refused h
    · split at h
      · exact refused h
      · split at h
        · simp only [bind_eq_ok, SamplerState.sampleConstrainedGreedy, greedy, pure_eq_ok] at h
          obtain ⟨-, -, token, ⟨-, -, best, rfl, absent⟩, -⟩ := h
          exact absurd absent throw_ne_ok
        · obtain ⟨masked, given, h⟩ := bind_eq_ok.mp h
          simp only [SamplerState.constrainedLogits, bind_eq_ok, pure_eq_ok, List.zipWith_nil_left]
            at given
          obtain ⟨-, -, rfl⟩ := given
          exact refused h

/-- A sample is drawn from the sampler's distribution. -/
theorem expect_sample (valid : s.config.validate = .ok ⟨⟩)
    (random : s.config.usesRandomSampling = true) (settled : s.pending = none)
    (size : row.length ≤ maxTokenId) (law : s.distribution row = .ok p) (f : TokenId → ℝ≥0∞) :
    (s.sample row : Drawing (TokenId × SamplerState Γ ℝ Unit)).expect (fun r => f r.1) =
      mean p f := by
  have warm : s.config.temperature ≠ 0 := by
    simp only [SamplingConfig.usesRandomSampling, Bool.and_eq_true, decide_eq_true_eq] at random
    exact random.1.ne'
  have nonempty : row.isEmpty = false := by simpa using distribution_nonempty law
  have short : decide (maxTokenId < row.length) = false := by simpa using size
  have accepted (e : String) : reject false e = .ok ⟨⟩ := rfl
  simp only [SamplerState.sample, valid, nonempty, short, accepted, ofExcept_ok, pure_bind]
  cases forced : s.forcedToken with
  | some token =>
    simp only [SamplerState.distribution, forced] at law
    split at law
    · exact absurd law throw_ne_ok
    · next inside =>
      obtain rfl := pure_eq_ok.mp law
      simp [inside, accepted, ofExcept_ok, mean]
  | none =>
    simp only [settled, ne_eq, warm, not_false_eq_true, if_true, SamplerState.sampleDistribution,
      law, ofExcept_ok, pure_bind, Drawing.expect_bind]
    exact expect_sampleEntries (distribution_isLaw law) f

/-- The row after the drafts gives a sample of its distribution. -/
theorem expect_selectAt {Hidden : Type} {t : Target ℝ Hidden} {tokens : List TokenId}
    (valid : s.config.validate = .ok ⟨⟩) (random : s.config.usesRandomSampling = true)
    (settled : s.pending = none) (size : (t.logits tokens).length ≤ maxTokenId)
    (law : s.distribution (t.logits tokens) = .ok p) (f : TokenId → ℝ≥0∞) :
    (selectAt t tokens s : Drawing (TokenId × SamplerState Γ ℝ Unit)).expect (fun r => f r.1) =
      mean p f := by
  have warm : (s.config.temperature != 0) = true := by
    simp only [SamplingConfig.usesRandomSampling, Bool.and_eq_true, decide_eq_true_eq] at random
    simpa using random.1.ne'
  have sampled := expect_sample valid random settled size law f
  unfold selectAt SamplerState.canSelectArgmax
  cases forced : s.forcedToken with
  | some token =>
    simp only [settled, Option.isNone_none, Bool.true_and, ofExcept_pure, pure_bind]
    by_cases same : t.predict tokens = token
    · subst same
      simp only [SamplerState.distribution, forced] at law
      split at law
      · exact absurd law throw_ne_ok
      · obtain rfl := pure_eq_ok.mp law
        simp [mean]
    · have other : (t.predict tokens == token) = false := by simpa using same
      simpa [other] using sampled
  | none =>
    simpa [settled, warm, ofExcept_pure] using sampled

end

end Gufo.Speculative
