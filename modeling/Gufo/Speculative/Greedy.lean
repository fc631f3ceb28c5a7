import Gufo.Speculative.Verification
import Gufo.Lib.Outcome

/-!
# Sampling without a draw

A sampler at temperature zero, or with a single candidate, draws nothing.

* `sample_argmax`: where `CanSelectArgmax` holds of the target's argmax, `Sample`
  returns it.
* `sample_unmodified`: where nothing modifies the row, `Sample` returns the argmax.
* `sample_same`: `Sample` leaves the sampler as it is.
-/

namespace Gufo.Speculative
open Outcome

set_option linter.unusedSectionVars false

/-- IEEE identities the single candidate's probability rests on. -/
class LawfulFloating (F : Type) [LinearOrder F] [Zero F] [One F] [Add F] [Sub F] [Div F]
    [Floating F] : Prop where
  exp_self (v t : F) : 0 < t → Floating.exp ((v - v) / t) = 1
  zero_add_one : (0 : F) + 1 = 1
  zero_lt_one : (0 : F) < 1
  finite_one : Floating.finite (1 : F) = true
  one_div_one : (1 : F) / 1 = 1

section
variable {Γ F G : Type} [LinearOrder F] [Zero F] [One F] [Add F] [Sub F] [Mul F] [Div F]
  [NatCast F] [Floating F]
variable {c : SamplingConfig Γ F} {s s' : SamplerState Γ F G} {row : Row F} {token : TokenId}

/-! ## The argmax of a row -/

/-- The first of the largest finite logits. -/
def IsArgmax (row : Row F) (token : TokenId) : Prop :=
  ∃ v, row[token]? = some (.finite v) ∧
    ∀ (i : Nat) (w : F), row[i]? = some (.finite w) → w < v ∨ w = v ∧ token ≤ i

theorem IsArgmax.lt_length (h : IsArgmax row token) : token < row.length := by
  obtain ⟨v, at_token, -⟩ := h
  exact (List.getElem?_eq_some_iff.mp at_token).1

theorem adjustedLogit_nil {logit : F} : adjustedLogit c [] token logit = .ok logit := rfl

variable {allowed : TokenId → Bool}

theorem greedy_keep {start : Nat} {b : TokenId × F}
    (top : ∀ (i : Nat) (w : F), row[i]? = some (.finite w) → allowed (start + i) = true → w ≤ b.2) :
    greedy c [] allowed start row (some b) = .ok (some b) := by
  induction row generalizing start with
  | nil => rfl
  | cons logit rest ih =>
    have tail : greedy c [] allowed (start + 1) rest (some b) = .ok (some b) := by
      refine ih fun i w at_i allowed_i => top (i + 1) w (by simpa using at_i) ?_
      rwa [Nat.add_right_comm, Nat.add_assoc] at allowed_i
    rw [greedy]
    split
    · next _ _ w allows finite =>
      have low : w ≤ b.2 := by
        cases logit with
        | finite value =>
          cases finite
          exact top 0 _ (by simp) allows
        | negativeInfinity => cases finite
        | other => cases finite
      rw [adjustedLogit_nil, Outcome.ok_bind, larger, if_neg (not_lt.mpr low)]
      exact tail
    · exact tail

theorem greedy_first {start k : Nat} {v : F}
    {best : Option (TokenId × F)} (at_k : row[k]? = some (.finite v))
    (allowed_k : allowed (start + k) = true) (less : ∀ b, best = some b → b.2 < v)
    (top : ∀ (i : Nat) (w : F), row[i]? = some (.finite w) → w < v ∨ w = v ∧ k ≤ i) :
    greedy c [] allowed start row best = .ok (some (start + k, v)) := by
  induction row generalizing start k best with
  | nil => simp at at_k
  | cons logit rest ih =>
    cases k with
    | zero =>
      have head : logit = .finite v := by simpa using at_k
      subst head
      have chosen : larger best (start, v) = some (start, v) := by
        cases best with
        | none => rfl
        | some b => rw [larger, if_pos (less b rfl)]
      rw [greedy]
      simp only [Nat.add_zero] at allowed_k ⊢
      rw [allowed_k]
      simp only [Logit.value?, adjustedLogit_nil, Outcome.ok_bind, chosen]
      refine greedy_keep fun i w at_i _ => ?_
      obtain low | ⟨same, -⟩ := top (i + 1) w (by simpa using at_i)
      · exact low.le
      · exact same.le
    | succ k =>
      have tail {best : Option (TokenId × F)} (less : ∀ b, best = some b → b.2 < v) :
          greedy c [] allowed (start + 1) rest best = .ok (some (start + (k + 1), v)) := by
        have next : start + (k + 1) = start + 1 + k := by omega
        rw [next] at allowed_k ⊢
        refine ih (by simpa using at_k) allowed_k less fun i w at_i => ?_
        obtain low | ⟨same, later⟩ := top (i + 1) w (by simpa using at_i)
        · exact .inl low
        · exact .inr ⟨same, by omega⟩
      rw [greedy]
      split
      · next _ _ w allows finite =>
        refine tail fun b chosen => ?_
        have low : w < v := by
          cases logit with
          | finite value =>
            cases finite
            obtain low | ⟨-, early⟩ := top 0 w (by simp)
            · exact low
            · omega
          | negativeInfinity => cases finite
          | other => cases finite
        cases best with
        | none =>
          cases chosen
          exact low
        | some old =>
          rw [larger] at chosen
          split at chosen
          · cases chosen
            exact low
          · cases chosen
            exact less _ rfl
      · exact tail less

theorem IsArgmax.greedy (h : IsArgmax row token)
    (allows : allowed token = true) :
    (greedy c [] allowed 0 row none >>= found) = .ok token := by
  obtain ⟨v, at_token, top⟩ := h
  rw [greedy_first at_token (by rwa [Nat.zero_add]) (by simp) top, Nat.zero_add]
  rfl

/-! ## A sampler that draws nothing -/

/-- No draw is pending, and counts are kept only for penalties. -/
structure SamplerState.Settled (s : SamplerState Γ F G) : Prop where
  pending : s.pending = none
  counts : s.config.penaltiesEnabled = false → s.penaltyCounts = []

/-- The sampler's configuration is valid and its token never random. -/
structure SamplingConfig.Deterministic (c : SamplingConfig Γ F) : Prop where
  valid : c.validate = .ok ⟨⟩
  random : c.usesRandomSampling = false

/-- The rows a sampler is given: their argmax is the prediction, and their size the
vocabulary's. -/
structure Fits (c : SamplingConfig Γ F) (row : Row F) (prediction : TokenId) : Prop where
  argmax : IsArgmax row prediction
  size : row.length ≤ maxTokenId
  vocabulary : ∀ k, c.constraint = some k → k.size = row.length

@[simp]
theorem reject_eq_ok {refused : Bool} {e : String} {u : Unit} :
    reject refused e = .ok u ↔ refused = false := by
  cases refused <;> simp [reject, throw_ne_ok]

theorem temperature_nonneg (h : c.validate = .ok ⟨⟩) : 0 ≤ c.temperature := by
  simp only [SamplingConfig.validate, bind_eq_ok, reject_eq_ok] at h
  obtain ⟨_, -, _, -, _, -, _, temperature, -⟩ := h
  simp only [Bool.or_eq_false_iff, decide_eq_false_iff_not, not_lt] at temperature
  exact temperature.2

/-- Above temperature zero there is one candidate. -/
theorem SamplingConfig.Deterministic.single (h : c.Deterministic) (warm : c.temperature ≠ 0) :
    c.topK = 1 ∧ c.minKeep ≤ 1 := by
  have positive : 0 < c.temperature := lt_of_le_of_ne (temperature_nonneg h.valid) warm.symm
  have random := h.random
  simpa [SamplingConfig.usesRandomSampling, positive] using random

/-! ## One candidate -/

theorem filterSelected_take {full : Option F} (entries : Entries F) :
    filterSelected c full (entries.take 1) = entries.take 1 := by
  cases entries with
  | nil => rfl
  | cons best rest => simp [filterSelected]

variable {entries : Entries F}

theorem length_prepareSelected (topK : c.topK = 1) (keep : c.minKeep ≤ 1)
    {penalties : List TokenPenalty}
    (done : prepareSelected c penalties row = .ok entries) : entries.length ≤ 1 := by
  simp only [prepareSelected, bind_eq_ok, topK, Int.zero_lt_one, if_true, pure_eq_ok] at done
  obtain ⟨candidates, -, maximum, -, rfl⟩ := done
  obtain many | many : min row.length (max (Int.toNat 1) (max c.minKeep 1)) = 0 ∨
      min row.length (max (Int.toNat 1) (max c.minKeep 1)) = 1 := by omega
  · rw [many, List.take_zero]
    exact Nat.zero_le 1
  · rw [many, filterSelected_take]
    exact List.length_take_le 1 _

theorem length_normalize {entries normalized : Entries F} {total : F}
    (done : normalize entries total = .ok normalized) : normalized.length ≤ entries.length := by
  unfold normalize at done
  split at done
  · simp only [pure_eq_ok] at done
    subst done
    exact (List.length_filter_le _ _).trans (by simp)
  · cases done

theorem length_selectedDistribution {entries normalized : Entries F}
    (done : selectedDistribution c entries = .ok normalized) :
    normalized.length ≤ entries.length := by
  cases entries with
  | nil => cases done
  | cons best rest => exact (length_normalize done).trans (by simp)

theorem length_unconstrained (h : s.config.Deterministic) (warm : s.config.temperature ≠ 0)
    (done : s.unconstrained row = .ok entries) : entries.length ≤ 1 := by
  obtain ⟨topK, keep⟩ := h.single warm
  simp only [SamplerState.unconstrained, if_neg warm, topK, bind_eq_ok] at done
  obtain ⟨-, -, -, -, done⟩ := done
  rw [if_neg (by simp), bind_eq_ok] at done
  obtain ⟨selected, prepared, done⟩ := done
  exact (length_selectedDistribution done).trans (length_prepareSelected topK keep prepared)

theorem length_distribution (h : s.config.Deterministic) (warm : s.config.temperature ≠ 0)
    (done : s.distribution row = .ok entries) : entries.length ≤ 1 := by
  unfold SamplerState.distribution at done
  split at done
  · split at done
    · cases done
    · cases done
      exact Nat.le_refl 1
  · split at done
    · exact length_unconstrained h warm done
    · split at done
      · exact length_unconstrained h warm done
      · rw [bind_eq_ok] at done
        obtain ⟨masked, -, done⟩ := done
        exact length_unconstrained h warm done

/-! ## `Sample` -/

section
variable [Uniform (Except String) G F]

theorem SamplerState.Settled.forget (h : s.Settled) : { s with pending := none } = s := by
  rw [← h.pending]

/-- Nothing is drawn. -/
theorem sample_same (h : s.config.Deterministic) (settled : s.Settled)
    (done : s.sample row = (.ok (token, s') : Except String _)) : s' = s := by
  simp only [SamplerState.sample, ofExcept_eq, bind_eq_ok, settled.pending] at done
  obtain ⟨-, -, -, -, -, -, done⟩ := done
  split at done
  · rw [bind_eq_ok] at done
    obtain ⟨-, -, done⟩ := done
    cases done
    exact settled.forget
  · next pending => cases pending
  · split at done
    · next warm =>
      simp only [SamplerState.sampleDistribution, ofExcept_eq, bind_eq_ok] at done
      obtain ⟨entries, distribution, ⟨drawn, rng⟩, drew, done⟩ := done
      have few := length_distribution h warm distribution
      cases done
      match entries, few with
      | [], _ => cases drew
      | [e], _ =>
        cases drew
        rfl
    · split at done
      · rw [bind_eq_ok] at done
        obtain ⟨entries, -, done⟩ := done
        rw [bind_eq_ok] at done
        obtain ⟨best, -, done⟩ := done
        cases done
        rfl
      · rw [bind_eq_ok] at done
        obtain ⟨best, -, done⟩ := done
        cases done
        rfl

/-- The part of `Sample` after the checks of a row that fits. -/
theorem sample_eq (valid : s.config.validate = .ok ⟨⟩) (settled : s.Settled)
    {prediction : TokenId} (fits : Fits s.config row prediction) :
    (s.sample row : Except String (TokenId × SamplerState Γ F G)) =
      match s.forcedToken with
      | some forced =>
        if row.length ≤ forced then .error "forced token exceeds vocabulary" else .ok (forced, s)
      | none =>
        if s.config.temperature ≠ 0 then s.sampleDistribution row
        else if s.config.constraint.isSome then
          s.distribution row >>= bestToken >>= fun best => pure (best, s)
        else s.sampleGreedy row >>= fun best => pure (best, s) := by
  have nonempty : row.isEmpty = false := by
    cases row with
    | nil => exact absurd fits.argmax.lt_length (Nat.not_lt_zero _)
    | cons _ _ => rfl
  have size : decide (maxTokenId < row.length) = false := by simpa using fits.size
  simp only [SamplerState.sample, ofExcept_eq, valid, nonempty, size, settled.pending]
  cases s.forcedToken with
  | some forced =>
    by_cases long : row.length ≤ forced
    · simp [long, reject, bind, Except.bind, throw, throwThe, MonadExceptOf.throw, pure, Except.pure]
    · simp [long, reject, bind, Except.bind, pure, Except.pure, settled.forget]
  | none =>
    by_cases warm : s.config.temperature = 0
    · by_cases constrained : s.config.constraint.isSome
      · simp only [warm, constrained, bind_assoc, ne_eq, not_true_eq_false, if_false, if_true]
        rfl
      · simp only [warm, constrained, ne_eq, not_true_eq_false, if_false]
        rfl
    · simp only [ne_eq, warm, not_false_eq_true, if_true]
      rfl

theorem sampleGreedy_argmax (counts : s.penaltyCounts = []) (h : IsArgmax row token) :
    s.sampleGreedy row = .ok token := by
  rw [SamplerState.sampleGreedy, counts]
  exact h.greedy rfl

variable {k : TokenConstraint Γ}

theorem getElem?_allowed {g : Γ} (inside : token < k.size) :
    (k.allowed g)[token]? = some (k.allows g token) := by
  simp [TokenConstraint.allowed, inside]

theorem length_allowed {g : Γ} : (k.allowed g).length = k.size := by
  simp [TokenConstraint.allowed]

theorem unconstrained_argmax (valid : s.config.validate = .ok ⟨⟩) (cold : s.config.temperature = 0)
    (counts : s.penaltyCounts = []) (fits : Fits s.config row token) :
    s.unconstrained row = .ok [(token, 1)] := by
  have nonempty : row.isEmpty = false := by
    cases row with
    | nil => exact absurd fits.argmax.lt_length (Nat.not_lt_zero _)
    | cons _ _ => rfl
  have size : decide (maxTokenId < row.length) = false := by simpa using fits.size
  simp only [SamplerState.unconstrained, valid, nonempty, size, cold, if_true,
    sampleGreedy_argmax counts fits.argmax]
  rfl

theorem sampleConstrainedGreedy_argmax (counts : s.penaltyCounts = [])
    (h : IsArgmax row token) (vocabulary : k.size = row.length)
    (allows : k.allows s.constraintState token = true) :
    s.sampleConstrainedGreedy k row = .ok token := by
  have inside : token < k.size := vocabulary ▸ h.lt_length
  have same : (row.length != (k.allowed s.constraintState).length) = false := by
    simp [length_allowed, vocabulary]
  simp only [SamplerState.sampleConstrainedGreedy, same, counts]
  exact h.greedy (by simp [getElem?_allowed inside, allows])

/-- A grammar that allows the argmax leaves it the only entry. -/
theorem distribution_argmax (valid : s.config.validate = .ok ⟨⟩)
    (cold : s.config.temperature = 0) (counts : s.penaltyCounts = []) (forced : s.forcedToken = none)
    (fits : Fits s.config row token) (constraint : s.config.constraint = some k)
    (allows : k.allows s.constraintState token = true) :
    s.distribution row = .ok [(token, 1)] := by
  unfold SamplerState.distribution
  simp only [forced, constraint]
  split
  · exact unconstrained_argmax valid cold counts fits
  · simp only [valid,
      sampleConstrainedGreedy_argmax counts fits.argmax (fits.vocabulary k constraint) allows]
    rfl

/-- `Sample` returns the argmax where the code takes it without sampling. -/
theorem sample_argmax (h : s.config.Deterministic) (settled : s.Settled)
    (fits : Fits s.config row token) (selectable : s.canSelectArgmax token = .ok true) :
    s.sample row = (.ok (token, s) : Except String _) := by
  rw [sample_eq h.valid settled fits]
  unfold SamplerState.canSelectArgmax at selectable
  cases forced : s.forcedToken with
  | some f =>
    rw [forced] at selectable
    simp only [pure_eq_ok, settled.pending, Option.isNone_none, Bool.true_and, beq_iff_eq]
      at selectable
    subst selectable
    exact if_neg (by simpa using fits.argmax.lt_length)
  | none =>
    rw [forced] at selectable
    simp only [settled.pending, Option.isSome_none, Bool.false_or] at selectable
    split at selectable
    · cases selectable
    · next plain =>
      simp only [Bool.or_eq_true, bne_iff_ne, ne_eq, not_or, not_not, Bool.not_eq_true] at plain
      obtain ⟨cold, unpenalized⟩ := plain
      have counts := settled.counts unpenalized
      cases constraint : s.config.constraint with
      | none => simp [cold, sampleGreedy_argmax counts fits.argmax, bind, Except.bind, pure, Except.pure]
      | some k =>
        rw [constraint] at selectable
        simp only at selectable
        split at selectable
        · cases selectable
        · next inside =>
          simp only [pure_eq_ok, Bool.and_eq_true] at selectable
          rw [if_neg (not_not.mpr cold), Option.isSome_some, if_pos rfl,
            distribution_argmax h.valid cold counts forced fits constraint selectable.2]
          rfl

/-- `CanSelectArgmax` does not fail on a token of the vocabulary. -/
theorem canSelectArgmax_ok (fits : Fits s.config row token) :
    ∃ selectable, s.canSelectArgmax token = .ok selectable := by
  unfold SamplerState.canSelectArgmax
  cases s.forcedToken with
  | some f => exact ⟨_, rfl⟩
  | none =>
    dsimp only
    split
    · exact ⟨_, rfl⟩
    · cases constraint : s.config.constraint with
      | none => exact ⟨_, rfl⟩
      | some k =>
        have inside : ¬k.size ≤ token := by
          rw [fits.vocabulary k constraint]
          exact not_le.mpr fits.argmax.lt_length
        simp only [if_neg inside]
        exact ⟨_, rfl⟩

/-- A row's selection is what `Sample` returns for it. -/
theorem selectAt_eq {Hidden : Type} {t : Target F Hidden} {tokens : List TokenId}
    (h : s.config.Deterministic) (settled : s.Settled)
    (fits : Fits s.config (t.logits tokens) (t.predict tokens)) :
    selectAt t tokens s = (s.sample (t.logits tokens) : Except String _) := by
  obtain ⟨selectable, decided⟩ := canSelectArgmax_ok fits
  simp only [selectAt, ofExcept_eq, decided, Outcome.ok_bind]
  cases selectable with
  | true => exact (sample_argmax h settled fits decided).symm
  | false => rfl

/-! ## An unmodified row -/

/-- The finite logits of a row, by token. -/
def finiteLogits : Nat → Row F → Entries F
  | _, [] => []
  | token, logit :: row =>
    match logit.value? with
    | none => finiteLogits (token + 1) row
    | some value => (token, value) :: finiteLogits (token + 1) row

theorem adjustedRow_nil {start : Nat} :
    adjustedRow c [] start row = .ok (finiteLogits start row) := by
  induction row generalizing start with
  | nil => rfl
  | cons logit rest ih =>
    rw [adjustedRow, finiteLogits]
    cases logit.value? with
    | none => exact ih
    | some value =>
      simp only [adjustedLogit_nil, ih, Outcome.ok_bind]
      rfl

theorem mem_finiteLogits {start : Nat} {e : TokenId × F} :
    e ∈ finiteLogits start row ↔ ∃ i, e.1 = start + i ∧ row[i]? = some (.finite e.2) := by
  induction row generalizing start with
  | nil => simp [finiteLogits]
  | cons logit rest ih =>
    have later : (∃ i, e.1 = start + 1 + i ∧ rest[i]? = some (.finite e.2)) ↔
        ∃ i, e.1 = start + (i + 1) ∧ (logit :: rest)[i + 1]? = some (.finite e.2) := by
      simp [Nat.add_assoc, Nat.add_comm 1]
    constructor
    · intro member
      cases logit with
      | finite value =>
        obtain rfl | member := List.mem_cons.mp member
        · exact ⟨0, rfl, rfl⟩
        · obtain ⟨i, found⟩ := later.mp (ih.mp member)
          exact ⟨i + 1, found⟩
      | negativeInfinity =>
        obtain ⟨i, found⟩ := later.mp (ih.mp member)
        exact ⟨i + 1, found⟩
      | other =>
        obtain ⟨i, found⟩ := later.mp (ih.mp member)
        exact ⟨i + 1, found⟩
    · rintro ⟨i, place, at_i⟩
      cases i with
      | zero =>
        have head : logit = .finite e.2 := by simpa using at_i
        subst head
        have same : e = (start, e.2) := Prod.ext place rfl
        rw [same]
        exact List.mem_cons_self
      | succ i =>
        have member := ih.mpr (later.mpr ⟨i, place, at_i⟩)
        cases logit with
        | finite value => exact List.mem_cons_of_mem _ member
        | negativeInfinity => exact member
        | other => exact member

theorem better_trans {x y z : TokenId × F} (xy : (!better y x) = true) (yz : (!better z y) = true) :
    (!better z x) = true := by
  simp only [better, Bool.not_eq_true'] at xy yz ⊢
  grind

theorem better_total (x y : TokenId × F) : ((!better y x) || !better x y) = true := by
  simp only [better]
  grind

/-- The best candidate of an unmodified row. -/
theorem mergeSort_finiteLogits (h : IsArgmax row token) :
    ∃ v, ((finiteLogits 0 row).mergeSort fun a b => !better b a).take 1 = [(token, v)] := by
  obtain ⟨v, at_token, top⟩ := h
  have member : (token, v) ∈ (finiteLogits 0 row).mergeSort fun a b => !better b a :=
    List.mem_mergeSort.mpr (mem_finiteLogits.mpr ⟨token, (Nat.zero_add _).symm, at_token⟩)
  have sorted : ((finiteLogits 0 row).mergeSort fun a b => !better b a).Pairwise
      fun a b => (!better b a) = true :=
    List.pairwise_mergeSort (fun _ _ _ => better_trans) better_total _
  cases order : (finiteLogits 0 row).mergeSort fun a b => !better b a with
  | nil =>
    rw [order] at member
    cases member
  | cons best rest =>
    rw [order] at member sorted
    have first : (!better (token, v) best) = true := by
      obtain rfl | later := List.mem_cons.mp member
      · simp [better]
      · exact List.rel_of_pairwise_cons sorted later
    have inside : best ∈ (finiteLogits 0 row).mergeSort fun a b => !better b a := by
      rw [order]
      exact List.mem_cons_self
    have found : best ∈ finiteLogits 0 row := List.mem_mergeSort.mp inside
    obtain ⟨i, place, at_i⟩ := mem_finiteLogits.mp found
    have same : best = (token, v) := by
      refine Prod.ext ?_ ?_ <;> obtain low | ⟨same, early⟩ := top i best.2 at_i
      all_goals simp [better] at first
      all_goals grind
    exact ⟨v, by rw [same]; rfl⟩

theorem forcedToken_none (h : s.config.reasoningBudget = none) : s.forcedToken = none := by
  simp [SamplerState.forcedToken, h]

/-- A single candidate has probability one. -/
theorem selectedDistribution_single [LawfulFloating F] (warm : 0 < c.temperature) {v : F} :
    selectedDistribution c [(token, v)] = .ok [(token, 1)] := by
  have one : weight c v v = 1 := LawfulFloating.exp_self v c.temperature warm
  have total : sumValues [(token, (1 : F))] = 1 := LawfulFloating.zero_add_one
  have positive : (0 : F) < 1 := LawfulFloating.zero_lt_one
  simp [selectedDistribution, one, total, normalize, positive, LawfulFloating.finite_one,
    LawfulFloating.one_div_one, positive.ne', pure, Except.pure]

theorem prepareSelected_argmax (topK : c.topK = 1) (keep : c.minKeep ≤ 1) (h : IsArgmax row token) :
    ∃ v, prepareSelected c [] row = .ok [(token, v)] := by
  obtain ⟨v, best⟩ := mergeSort_finiteLogits h
  have many : (finiteLogits 0 row) ≠ [] := by
    intro empty
    rw [empty] at best
    simp at best
  have rows : min row.length (max (Int.toNat 1) (max c.minKeep 1)) = 1 := by
    have inside : 0 < row.length := Nat.zero_lt_of_lt h.lt_length
    omega
  have nonempty : ∃ maximum, largest (finiteLogits 0 row) = .ok maximum := by
    cases candidates : finiteLogits 0 row with
    | nil => exact absurd candidates many
    | cons e rest => exact ⟨_, rfl⟩
  obtain ⟨maximum, found⟩ := nonempty
  refine ⟨v, ?_⟩
  simp only [prepareSelected, adjustedRow_nil, Outcome.ok_bind, found, topK, Int.zero_lt_one,
    if_true, rows, filterSelected_take, best]
  rfl

/-- `Sample` returns the argmax of a row nothing modifies. -/
theorem sample_unmodified [LawfulFloating F] (h : s.config.Deterministic) (settled : s.Settled)
    (fits : Fits s.config row token) (constraint : s.config.constraint = none)
    (budget : s.config.reasoningBudget = none) (penalties : s.config.penaltiesEnabled = false) :
    s.sample row = (.ok (token, s) : Except String _) := by
  have forced : s.forcedToken = none := forcedToken_none budget
  have counts := settled.counts penalties
  by_cases warm : s.config.temperature = 0
  · refine sample_argmax h settled fits ?_
    simp [SamplerState.canSelectArgmax, forced, settled.pending, warm, penalties, constraint,
      pure, Except.pure]
  · obtain ⟨topK, keep⟩ := h.single warm
    have positive : 0 < s.config.temperature :=
      lt_of_le_of_ne (temperature_nonneg h.valid) (Ne.symm warm)
    obtain ⟨v, prepared⟩ := prepareSelected_argmax topK keep fits.argmax
    have nonempty : row.isEmpty = false := by
      cases row with
      | nil => exact absurd fits.argmax.lt_length (Nat.not_lt_zero _)
      | cons _ _ => rfl
    have size : decide (maxTokenId < row.length) = false := by simpa using fits.size
    have entries : s.distribution row = .ok [(token, 1)] := by
      simp only [SamplerState.distribution, forced, constraint, SamplerState.unconstrained, h.valid,
        nonempty, size, warm, if_false, topK, counts, prepared]
      exact selectedDistribution_single positive
    rw [sample_eq h.valid settled fits]
    simp only [forced, ne_eq, warm, not_false_eq_true, if_true, SamplerState.sampleDistribution,
      entries, ofExcept_eq]
    rfl

end

/-! ## Accepted tokens -/

theorem advanceReasoning_keeps (b : ReasoningBudget) (s : SamplerState Γ F G) (token : TokenId) :
    (SamplerState.advanceReasoning b s token).config = s.config ∧
      (SamplerState.advanceReasoning b s token).pending = s.pending ∧
      (SamplerState.advanceReasoning b s token).rng = s.rng ∧
      (SamplerState.advanceReasoning b s token).penaltyCounts = s.penaltyCounts := by
  grind [SamplerState.advanceReasoning]

theorem rebuildPenaltyCounts_keeps (s : SamplerState Γ F G) :
    s.rebuildPenaltyCounts.config = s.config ∧ s.rebuildPenaltyCounts.pending = s.pending ∧
      s.rebuildPenaltyCounts.rng = s.rng ∧
      (s.config.penaltiesEnabled = false → s.rebuildPenaltyCounts = s) := by
  unfold SamplerState.rebuildPenaltyCounts
  split
  · next enabled => exact ⟨rfl, rfl, rfl, fun disabled => absurd enabled (by simp [disabled])⟩
  · exact ⟨rfl, rfl, rfl, fun _ => rfl⟩

/-- What `Accept` leaves as it is. -/
structure SamplerState.Kept (s s' : SamplerState Γ F G) : Prop where
  config : s'.config = s.config
  rng : s'.rng = s.rng
  settled : s.Settled → s'.Settled

theorem SamplerState.Kept.refl (s : SamplerState Γ F G) : s.Kept s := ⟨rfl, rfl, id⟩

theorem SamplerState.Kept.trans {s s' s'' : SamplerState Γ F G} (h : s.Kept s') (h' : s'.Kept s'') :
    s.Kept s'' :=
  ⟨h'.config.trans h.config, h'.rng.trans h.rng, h'.settled ∘ h.settled⟩

theorem penaltiesEnabled_false (h : c.penaltiesEnabled = false) :
    c.repeatPenalty = 1 ∧ c.frequencyPenalty = 0 ∧ c.presencePenalty = 0 := by
  simpa [SamplingConfig.penaltiesEnabled, and_assoc] using h

/-- The sampler after its reasoning has seen a token. -/
def SamplerState.reasoned (s : SamplerState Γ F G) (token : TokenId) : SamplerState Γ F G :=
  match s.config.reasoningBudget with
  | some b => SamplerState.advanceReasoning b s token
  | none => s

theorem reasoned_keeps (s : SamplerState Γ F G) (token : TokenId) :
    (s.reasoned token).config = s.config ∧ (s.reasoned token).pending = s.pending ∧
      (s.reasoned token).rng = s.rng := by
  unfold SamplerState.reasoned
  split
  · next b _ =>
    obtain ⟨config, pending, rng, -⟩ := advanceReasoning_keeps b s token
    exact ⟨config, pending, rng⟩
  · exact ⟨rfl, rfl, rfl⟩

/-- What `Accept` changes. -/
theorem accept_eq_ok (done : s.accept token = .ok s') :
    ∃ state counts history, (s.config.penaltiesEnabled = false → counts = s.penaltyCounts) ∧
      s' = (SamplerState.trimHistory { s.reasoned token with
        constraintState := state, penaltyCounts := counts, history }).rebuildPenaltyCounts := by
  have finish (state : Γ) (counted : (if s.config.frequencyPenalty ≠ 0 ∨ s.config.presencePenalty ≠ 0
        then SamplerState.countGenerated s.penaltyCounts token
        else pure s.penaltyCounts) >>= (fun counts => pure (SamplerState.trimHistory
          { s.reasoned token with
            constraintState := state, penaltyCounts := counts
            history := if s.config.repeatLastN ≠ 0 then s.history ++ [token] else s.history
              }).rebuildPenaltyCounts) = Except.ok s') :
      ∃ state counts history, (s.config.penaltiesEnabled = false → counts = s.penaltyCounts) ∧
        s' = (SamplerState.trimHistory { s.reasoned token with
          constraintState := state, penaltyCounts := counts, history }).rebuildPenaltyCounts := by
    rw [bind_eq_ok] at counted
    obtain ⟨counts, counted, done⟩ := counted
    refine ⟨state, counts, _, fun disabled => ?_, (pure_eq_ok.mp done).symm⟩
    obtain ⟨-, frequency, presence⟩ := penaltiesEnabled_false disabled
    rw [if_neg (by simp [frequency, presence])] at counted
    exact (pure_eq_ok.mp counted).symm
  unfold SamplerState.accept at done
  dsimp only at done
  split at done
  · rw [bind_eq_ok] at done
    obtain ⟨state, -, done⟩ := done
    refine finish state ?_
    rw [← done]
    split <;> rfl
  · refine finish s.constraintState ?_
    rw [← done]
    split <;> rfl

theorem accept_kept (done : s.accept token = .ok s') : s.Kept s' := by
  obtain ⟨state, counts, history, unpenalized, rfl⟩ := accept_eq_ok done
  obtain ⟨config, pending, rng⟩ := reasoned_keeps s token
  obtain ⟨config', pending', rng', same⟩ := rebuildPenaltyCounts_keeps (SamplerState.trimHistory
    { s.reasoned token with constraintState := state, penaltyCounts := counts, history })
  refine ⟨config'.trans config, rng'.trans rng, fun settled => ?_⟩
  refine ⟨pending'.trans (pending.trans settled.pending), fun disabled => ?_⟩
  have disabled_ : s.config.penaltiesEnabled = false := by
    rw [← config, ← disabled, config']
    rfl
  rw [same (by rw [← disabled, config'])]
  exact (unpenalized disabled_).trans (settled.counts disabled_)

/-- Where nothing modifies a row every token is accepted. -/
theorem accept_unmodified (token : TokenId) (constraint : s.config.constraint = none)
    (penalties : s.config.penaltiesEnabled = false) : ∃ s', s.accept token = .ok s' := by
  obtain ⟨-, frequency, presence⟩ := penaltiesEnabled_false penalties
  simp only [SamplerState.accept, constraint, frequency, presence, ne_eq, not_true_eq_false, or_self,
    if_false, pure_bind]
  exact ⟨_, rfl⟩

/-- The samplers of a request: a new one, and what `Accept` makes of them. -/
inductive SamplerState.Reachable [Inhabited Γ] : SamplerState Γ F G → Prop where
  | create {config : SamplingConfig Γ F} {history : List TokenId} {rng : G} {s : SamplerState Γ F G}
      (done : SamplerState.create config history rng = .ok s) : Reachable s
  | accept {s s' : SamplerState Γ F G} {token : TokenId} (reachable : Reachable s)
      (done : s.accept token = .ok s') : Reachable s'

theorem startReasoning_keeps (s : SamplerState Γ F G) :
    s.startReasoning.pending = s.pending ∧ s.startReasoning.penaltyCounts = s.penaltyCounts := by
  have fold (b : ReasoningBudget) (tokens : List TokenId) (s : SamplerState Γ F G) :
      (tokens.foldl (SamplerState.advanceReasoning b) s).pending = s.pending ∧
        (tokens.foldl (SamplerState.advanceReasoning b) s).penaltyCounts = s.penaltyCounts := by
    induction tokens generalizing s with
    | nil => exact ⟨rfl, rfl⟩
    | cons token rest ih =>
      obtain ⟨-, pending, -, counts⟩ := advanceReasoning_keeps b s token
      exact ⟨(ih _).1.trans pending, (ih _).2.trans counts⟩
  unfold SamplerState.startReasoning
  split
  · exact ⟨rfl, rfl⟩
  · exact fold _ _ _

theorem SamplerState.Reachable.settled [Inhabited Γ] (h : s.Reachable) : s.Settled := by
  induction h with
  | create done =>
    simp only [SamplerState.create, bind_eq_ok, pure_eq_ok] at done
    obtain ⟨-, -, rfl⟩ := done
    obtain ⟨config, pending, -, same⟩ := rebuildPenaltyCounts_keeps (SamplerState.trimHistory
      (SamplerState.startReasoning _ : SamplerState Γ F G))
    refine ⟨pending.trans (startReasoning_keeps _).1, fun disabled => ?_⟩
    rw [config] at disabled
    rw [same disabled]
    exact (startReasoning_keeps _).2
  | accept _ done ih => exact (accept_kept done).settled ih

end

end Gufo.Speculative
