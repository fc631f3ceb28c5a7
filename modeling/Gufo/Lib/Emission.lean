import Gufo.Lib.Weighted

/-!
# Drafts verified against a target

A draft proposes keys from the distributions `q` of what it has proposed; each is
kept with its acceptance probability against the target's distribution `p`. A
rejected one is replaced by the leftover, and a proposal kept whole is followed by
one more key.

* `proposalLaw_emissionLaw`: the law of what is emitted, with one draft at a time.
* `step_preserved`: whatever is emitted next, it is distributed as the target's.
-/

namespace Gufo.Weighted
open scoped ENNReal

set_option linter.unusedSectionVars false

variable {α : Type} [DecidableEq α]

/-- The expectation of `f` over the proposals of at most `k` more keys; `more` says whether the
draft goes on. -/
noncomputable def proposalLaw (q : List α → List (α × ℝ)) (more : List α → Bool) :
    Nat → List α → (List α → ℝ≥0∞) → ℝ≥0∞
  | 0, done, f => f done
  | k + 1, done, f =>
    if more done then mean (q done) fun x => proposalLaw q more k (done ++ [x]) f else f done

/-- The expectation of `f` over what is emitted of a proposal's remaining drafts. -/
noncomputable def emissionLaw (p q : List α → List (α × ℝ)) (stop : α → Bool) (done : List α) :
    List α → (List α → ℝ≥0∞) → ℝ≥0∞
  | [], f => mean (p done) fun x => f (done ++ [x])
  | draft :: rest, f =>
    ENNReal.ofReal (acceptance (p done) (q done) draft) *
        (if stop draft then f (done ++ [draft])
          else emissionLaw p q stop (done ++ [draft]) rest f) +
      ENNReal.ofReal (1 - acceptance (p done) (q done) draft) *
        leftover (p done) (q done) fun x => f (done ++ [x])

/-- The same with every draft verified before the next is proposed. -/
noncomputable def stepLaw (p q : List α → List (α × ℝ)) (more : List α → Bool) (stop : α → Bool) :
    Nat → List α → (List α → ℝ≥0∞) → ℝ≥0∞
  | 0, done, f => mean (p done) fun x => f (done ++ [x])
  | k + 1, done, f =>
    if more done then
      mean (q done) fun x =>
        ENNReal.ofReal (acceptance (p done) (q done) x) *
            (if stop x then f (done ++ [x]) else stepLaw p q more stop k (done ++ [x]) f) +
          ENNReal.ofReal (1 - acceptance (p done) (q done) x) *
            leftover (p done) (q done) fun x => f (done ++ [x])
    else mean (p done) fun x => f (done ++ [x])

/-- What can have been kept of a proposal. -/
inductive Reached (p : List α → List (α × ℝ)) (stop : α → Bool) : List α → Prop where
  | start : Reached p stop []
  | next {done : List α} {x : α} (reached : Reached p stop done)
      (weighs : 0 < weightOf (p done) x) (open_ : stop x = false) : Reached p stop (done ++ [x])

section
variable {p q : List α → List (α × ℝ)} {more : List α → Bool} {stop : α → Bool} {k : Nat}
  {done : List α}

/-- A history is kept one key at a time. -/
theorem Reached.split {l : List α} (h : Reached p stop l) {rest : List α} {x : α}
    (parts : l = done ++ x :: rest) :
    Reached p stop done ∧ 0 < weightOf (p done) x ∧ stop x = false := by
  induction h generalizing rest with
  | start => simp at parts
  | @next l y reached weighs open_ ih =>
    obtain rfl | ⟨rest, z, rfl⟩ := List.eq_nil_or_concat rest
    · obtain ⟨rfl, same⟩ := List.append_inj' parts rfl
      cases same
      exact ⟨reached, weighs, open_⟩
    · rw [List.concat_eq_append, ← List.cons_append, ← List.append_assoc] at parts
      exact ih (List.append_inj' parts rfl).1

/-! ## One draft at a time -/

theorem proposalLaw_congr {f g : List α → ℝ≥0∞} (h : ∀ rest, f (done ++ rest) = g (done ++ rest)) :
    proposalLaw q more k done f = proposalLaw q more k done g := by
  induction k generalizing done with
  | zero => simpa [proposalLaw] using h []
  | succ k ih =>
    simp only [proposalLaw]
    split
    · refine mean_congr fun e _ => ih fun rest => ?_
      simpa using h (e.1 :: rest)
    · simpa using h []

theorem mean_affine {entries : List (α × ℝ)} (law : IsLaw entries) (a b : ℝ≥0∞) (g : α → ℝ≥0∞) :
    (mean entries fun x => a * g x + b) = a * mean entries g + b := by
  have sum := law.mean_const b
  simp only [mean, mul_add, List.sum_map_add] at sum ⊢
  rw [sum, ← List.sum_map_mul_left]
  simp [mul_left_comm]

theorem proposalLaw_affine (laws : ∀ done, IsLaw (q done)) (a b : ℝ≥0∞) (g : List α → ℝ≥0∞) :
    (proposalLaw q more k done fun l => a * g l + b) = a * proposalLaw q more k done g + b := by
  induction k generalizing done with
  | zero => rfl
  | succ k ih =>
    simp only [proposalLaw]
    split
    · simp only [ih]
      exact mean_affine (laws done) a b _
    · rfl

/-- Proposing everything first makes no difference. -/
theorem proposalLaw_emissionLaw (laws : ∀ done, IsLaw (q done)) (f : List α → ℝ≥0∞) :
    (proposalLaw q more k done fun full =>
        emissionLaw p q stop done (full.drop done.length) f) = stepLaw p q more stop k done f := by
  induction k generalizing done with
  | zero => simp [proposalLaw, stepLaw, emissionLaw]
  | succ k ih =>
    simp only [proposalLaw, stepLaw]
    split
    · refine mean_congr fun e _ => ?_
      have head (rest : List α) :
          emissionLaw p q stop done ((done ++ [e.1] ++ rest).drop done.length) f =
            ENNReal.ofReal (acceptance (p done) (q done) e.1) *
                (if stop e.1 then f (done ++ [e.1])
                  else emissionLaw p q stop (done ++ [e.1])
                    ((done ++ [e.1] ++ rest).drop (done ++ [e.1]).length) f) +
              ENNReal.ofReal (1 - acceptance (p done) (q done) e.1) *
                leftover (p done) (q done) fun x => f (done ++ [x]) := by
        rw [List.drop_left, List.append_assoc, List.drop_left]
        rfl
      rw [proposalLaw_congr (g := fun full => ENNReal.ofReal (acceptance (p done) (q done) e.1) *
          (if stop e.1 then f (done ++ [e.1])
            else emissionLaw p q stop (done ++ [e.1]) (full.drop (done ++ [e.1]).length) f) +
        ENNReal.ofReal (1 - acceptance (p done) (q done) e.1) *
          leftover (p done) (q done) fun x => f (done ++ [x])) head, proposalLaw_affine laws]
      congr 2
      split
      · have constant : (proposalLaw q more k (done ++ [e.1]) fun _ => 0 * 0 + f (done ++ [e.1])) =
            0 * proposalLaw q more k (done ++ [e.1]) (fun _ => 0) + f (done ++ [e.1]) :=
          proposalLaw_affine laws 0 _ fun _ => 0
        simpa using constant
      · exact ih
    · simp [emissionLaw]

/-! ## What is emitted -/

/-- One draft: what is kept and what replaces it. -/
theorem mean_step {p q : List (α × ℝ)} (hp : IsLaw p) (hq : IsLaw q) (g f : α → ℝ≥0∞) :
    (mean q fun x => ENNReal.ofReal (acceptance p q x) * g x +
        ENNReal.ofReal (1 - acceptance p q x) * leftover p q f) =
      (q.map fun e => ENNReal.ofReal (min e.2 (weightOf p e.1)) * g e.1).sum +
        ENNReal.ofReal (q.map fun e => e.2 - min e.2 (weightOf p e.1)).sum * leftover p q f := by
  have kept {e : α × ℝ} (member : e ∈ q) :
      e.2 * acceptance p q e.1 = min e.2 (weightOf p e.1) := by
    rw [acceptance, weightOf_mem hq.distinct member]
    obtain positive | none_ := (hq.nonneg e member).lt_or_eq
    · rw [mul_min_of_nonneg _ _ positive.le, mul_one, mul_div_cancel₀ _ positive.ne']
    · rw [← none_, zero_mul, min_eq_left (hp.toWeights.weightOf_nonneg e.1)]
  have rejected : ENNReal.ofReal (q.map fun e => e.2 - min e.2 (weightOf p e.1)).sum =
      (q.map fun e => ENNReal.ofReal (e.2 * (1 - acceptance p q e.1))).sum := by
    have terms : ∀ e ∈ q, e.2 - min e.2 (weightOf p e.1) = e.2 * (1 - acceptance p q e.1) := by
      intro e member
      rw [mul_sub, mul_one, kept member]
    rw [List.map_congr_left terms]
    exact ofReal_sum fun e member => mul_nonneg (hq.nonneg e member)
      (sub_nonneg.mpr (min_le_left _ _))
  rw [rejected, ← List.sum_map_mul_right, ← List.sum_map_add, mean]
  refine congrArg _ (List.map_congr_left fun e member => ?_)
  rw [mul_add, ← mul_assoc, ← mul_assoc, ← ENNReal.ofReal_mul (hq.nonneg e member),
    ← ENNReal.ofReal_mul (hq.nonneg e member), kept member]

variable (laws : ∀ done, Reached p stop done → IsLaw (p done)) (drafts : ∀ done, IsLaw (q done))
include laws drafts

theorem stepLaw_succ (reached : Reached p stop done) (goes_on : more done = true)
    (f : List α → ℝ≥0∞) :
    stepLaw p q more stop (k + 1) done f =
      ((q done).map fun e => ENNReal.ofReal (min e.2 (weightOf (p done) e.1)) *
          (if stop e.1 then f (done ++ [e.1])
            else stepLaw p q more stop k (done ++ [e.1]) f)).sum +
        ENNReal.ofReal ((q done).map fun e => e.2 - min e.2 (weightOf (p done) e.1)).sum *
          leftover (p done) (q done) fun x => f (done ++ [x]) := by
  rw [stepLaw, if_pos goes_on]
  exact mean_step (laws done reached) (drafts done)
    (fun x => if stop x then f (done ++ [x]) else stepLaw p q more stop k (done ++ [x]) f)
    fun x => f (done ++ [x])

/-- A kept draft is a key of the target's, or counts nothing. -/
theorem kept_congr (reached : Reached p stop done) {e : α × ℝ} {a b : ℝ≥0∞}
    (h : stop e.1 = false → Reached p stop (done ++ [e.1]) → a = b) (c : ℝ≥0∞) :
    ENNReal.ofReal (min e.2 (weightOf (p done) e.1)) * (if stop e.1 then c else a) =
      ENNReal.ofReal (min e.2 (weightOf (p done) e.1)) * (if stop e.1 then c else b) := by
  cases stops : stop e.1 with
  | true => rfl
  | false =>
    obtain weighs | none_ := ((laws done reached).toWeights.weightOf_nonneg e.1).lt_or_eq
    · rw [h stops (reached.next weighs stops)]
    · rw [ENNReal.ofReal_of_nonpos ((min_le_right _ _).trans none_.ge), zero_mul, zero_mul]

/-- The first key emitted has the target's distribution. -/
theorem stepLaw_first (reached : Reached p stop done) {f : List α → ℝ≥0∞} {g : α → ℝ≥0∞}
    (h : ∀ x rest, f (done ++ x :: rest) = g x) :
    stepLaw p q more stop k done f = mean (p done) g := by
  induction k generalizing done g with
  | zero => exact mean_congr fun e _ => h e.1 []
  | succ k ih =>
    cases goes_on : more done with
    | false =>
      rw [stepLaw, if_neg (by simp [goes_on])]
      exact mean_congr fun e _ => h e.1 []
    | true =>
      have one (x : α) : f (done ++ [x]) = g x := h x []
      have tail (e : α × ℝ) (reached : Reached p stop (done ++ [e.1])) :
          stepLaw p q more stop k (done ++ [e.1]) f = g e.1 := by
        rw [ih reached fun x rest => by simpa using h e.1 (x :: rest)]
        exact (laws _ reached).mean_const _
      rw [stepLaw_succ laws drafts reached goes_on, ← mean_eq (laws done reached) (drafts done) g]
      congr 1
      · refine congrArg _ (List.map_congr_left fun e _ => ?_)
        rw [kept_congr laws drafts reached (b := g e.1) (fun _ reached => tail e reached), one,
          ite_self]
      · simp [one]

/-- Nothing is emitted that the function counts nothing for. -/
theorem stepLaw_zero (reached : Reached p stop done) {f : List α → ℝ≥0∞}
    (h : ∀ x rest, f (done ++ x :: rest) = 0) : stepLaw p q more stop k done f = 0 := by
  rw [stepLaw_first laws drafts reached (g := fun _ => 0) h]
  exact (laws _ reached).mean_const 0

/-- Given what is emitted so far and that something follows, the next key has the target's
distribution. -/
theorem step_preserved (reached : Reached p stop done) (rest : List α) (x : α) :
    (stepLaw p q more stop k done fun l => if done ++ rest ++ [x] <+: l then 1 else 0) =
      (stepLaw p q more stop k done fun l => if done ++ rest <+: l ∧ done ++ rest ≠ l then 1 else 0) *
        ENNReal.ofReal (weightOf (p (done ++ rest)) x) := by
  have law := laws done reached
  induction rest generalizing k done with
  | nil =>
    have first : (stepLaw p q more stop k done fun l => if done ++ [] ++ [x] <+: l then 1 else 0) =
        mean (p done) fun y => if y = x then 1 else 0 :=
      stepLaw_first laws drafts reached fun y rest => by simp [eq_comm]
    have whole : (stepLaw p q more stop k done fun l =>
        if done ++ [] <+: l ∧ done ++ [] ≠ l then 1 else 0) = mean (p done) fun _ => 1 :=
      stepLaw_first laws drafts reached fun y rest => by simp
    rw [first, whole, law.mean_const, mean_indicator law, List.append_nil, mul_one, one_mul]
  | cons y rest ih =>
    generalize weight : ENNReal.ofReal (weightOf (p (done ++ y :: rest)) x) = c
    -- Nothing is emitted after `y` where the step ends with this key.
    have ends (z : α) : ¬done ++ y :: rest ++ [x] <+: done ++ [z] := by simp
    have ends' (z : α) : ¬(done ++ y :: rest <+: done ++ [z] ∧ done ++ y :: rest ≠ done ++ [z]) := by
      simp
    have stopped : (mean (p done) fun z => if done ++ y :: rest ++ [x] <+: done ++ [z] then 1 else 0) =
        (mean (p done) fun z => if done ++ y :: rest <+: done ++ [z] ∧ done ++ y :: rest ≠ done ++ [z]
          then 1 else 0) * c := by
      simp only [ends, ends', if_false, law.mean_const, zero_mul]
    cases k with
    | zero => exact stopped
    | succ k =>
      cases goes_on : more done with
      | false =>
        rw [stepLaw, stepLaw, if_neg (by simp [goes_on]), if_neg (by simp [goes_on])]
        exact stopped
      | true =>
        have kept (z : α) (next : Reached p stop (done ++ [z])) :
            (stepLaw p q more stop k (done ++ [z]) fun l =>
                if done ++ y :: rest ++ [x] <+: l then 1 else 0) =
              (stepLaw p q more stop k (done ++ [z]) fun l =>
                if done ++ y :: rest <+: l ∧ done ++ y :: rest ≠ l then 1 else 0) * c := by
          by_cases same : y = z
          · subst same
            have tail := ih (k := k) next (laws _ next)
            rw [← weight]
            simpa using tail
          · rw [stepLaw_zero laws drafts next fun w more => by simp [same],
              stepLaw_zero laws drafts next fun w more => by simp [same], zero_mul]
        have none_ : (leftover (p done) (q done) fun _ => (0 : ℝ≥0∞)) = 0 := by
          simp [leftover, mean]
        rw [stepLaw_succ laws drafts reached goes_on, stepLaw_succ laws drafts reached goes_on]
        simp only [ends, ends', if_false, none_, mul_zero, add_zero]
        rw [← List.sum_map_mul_right]
        refine congrArg _ (List.map_congr_left fun e _ => ?_)
        rw [kept_congr laws drafts reached fun _ next => kept e.1 next, mul_assoc]
        split
        · rw [zero_mul]
        · rfl

end

end Gufo.Weighted
