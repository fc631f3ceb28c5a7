import Mathlib.Algebra.BigOperators.Group.Finset.Basic
import Mathlib.Data.ENNReal.Real
import Mathlib.Algebra.Order.BigOperators.Group.List
import Mathlib.Algebra.BigOperators.Ring.List

/-!
# Weighted entries

Lists of entries with distinct keys and nonnegative weights, and what two of them
have in common.

* `sum_min_comm`: the common weight counts the same from either list.
* `sum_min_add_sum_excess`: what is common and what exceeds make up the whole.
* `rejected_eq_excess`: where both have one total, each exceeds the other by as much.
* `mean_eq`: keeping a draft with its acceptance probability and drawing the leftover
  otherwise gives back the distribution.
-/

namespace Gufo.Weighted
open scoped ENNReal

set_option linter.unusedSectionVars false

variable {α M : Type} [DecidableEq α] [AddCommMonoid M]

/-- The weight of a key; zero where there is no entry. -/
def weightOf (entries : List (α × ℝ)) (key : α) : ℝ :=
  ((entries.find? fun e => e.1 == key).map Prod.snd).getD 0

def keys (entries : List (α × ℝ)) : List α := entries.map Prod.fst

noncomputable def total (entries : List (α × ℝ)) : ℝ := (entries.map Prod.snd).sum

/-- Distinct keys and no negative weight. -/
structure Weights (entries : List (α × ℝ)) : Prop where
  distinct : (keys entries).Nodup
  nonneg : ∀ e ∈ entries, 0 ≤ e.2

variable {p q : List (α × ℝ)}

theorem weightOf_mem (h : (keys p).Nodup) {e : α × ℝ} (member : e ∈ p) : weightOf p e.1 = e.2 := by
  induction p with
  | nil => cases member
  | cons first rest ih =>
    rw [keys, List.map_cons, List.nodup_cons] at h
    obtain rfl | later := List.mem_cons.mp member
    · simp [weightOf]
    · have other : first.1 ≠ e.1 := by
        intro same
        exact h.1 (same ▸ List.mem_map_of_mem later)
      rw [weightOf, List.find?_cons_of_neg (by simpa using other)]
      exact ih h.2 later

theorem weightOf_not_mem {key : α} (h : key ∉ keys p) : weightOf p key = 0 := by
  have none_ : p.find? (fun e => e.1 == key) = none := by
    rw [List.find?_eq_none]
    intro e member
    simp only [beq_iff_eq]
    rintro rfl
    exact h (List.mem_map_of_mem member)
  rw [weightOf, none_]
  rfl

theorem Weights.weightOf_nonneg (h : Weights p) (key : α) : 0 ≤ weightOf p key := by
  by_cases member : key ∈ keys p
  · obtain ⟨e, inside, rfl⟩ := List.mem_map.mp member
    rw [weightOf_mem h.distinct inside]
    exact h.nonneg e inside
  · rw [weightOf_not_mem member]

/-- A sum over the entries, by key. -/
theorem sum_eq_sum_keys (h : (keys p).Nodup) (f : α → ℝ → M) :
    (p.map fun e => f e.1 e.2).sum = ∑ key ∈ (keys p).toFinset, f key (weightOf p key) := by
  rw [List.sum_toFinset _ h, keys, List.map_map]
  refine congrArg _ (List.map_congr_left fun e member => ?_)
  simp [weightOf_mem h member]

/-- The common weight of two lists, counted from either. -/
theorem sum_min_comm (hp : Weights p) (hq : Weights q) (f : α → ℝ → M) (zero : ∀ key, f key 0 = 0) :
    (p.map fun e => f e.1 (min e.2 (weightOf q e.1))).sum =
      (q.map fun e => f e.1 (min e.2 (weightOf p e.1))).sum := by
  rw [sum_eq_sum_keys hp.distinct fun key w => f key (min w (weightOf q key)),
    sum_eq_sum_keys hq.distinct fun key w => f key (min w (weightOf p key))]
  have common {a b : List (α × ℝ)} (hb : Weights b) :
      ∑ key ∈ (keys a).toFinset, f key (min (weightOf a key) (weightOf b key)) =
        ∑ key ∈ (keys a).toFinset ∪ (keys b).toFinset,
          f key (min (weightOf a key) (weightOf b key)) := by
    refine Finset.sum_subset Finset.subset_union_left fun key _ outside => ?_
    rw [weightOf_not_mem (by simpa using outside), min_eq_left (hb.weightOf_nonneg key), zero]
  rw [common hq, common hp, Finset.union_comm]
  exact Finset.sum_congr rfl fun key _ => by rw [min_comm]

/-- The common part and the excess are the whole. -/
theorem sum_min_add_sum_excess (hp : Weights p) (hq : Weights q) (f : α → ℝ≥0∞) :
    (q.map fun e => ENNReal.ofReal (min e.2 (weightOf p e.1)) * f e.1).sum +
        (p.map fun e => ENNReal.ofReal (max (e.2 - weightOf q e.1) 0) * f e.1).sum =
      (p.map fun e => ENNReal.ofReal e.2 * f e.1).sum := by
  rw [sum_min_comm hq hp (fun key w => ENNReal.ofReal w * f key) (by simp),
    ← List.sum_map_add]
  refine congrArg _ (List.map_congr_left fun e member => ?_)
  rw [← add_mul, ← ENNReal.ofReal_add (le_min (hp.nonneg e member) (hq.weightOf_nonneg _))
    (le_max_right _ _)]
  rcases le_total e.2 (weightOf q e.1) with low | high
  · rw [min_eq_left low, max_eq_right (by linarith), add_zero]
  · rw [min_eq_right high, max_eq_left (by linarith)]
    ring

/-- The weight `q` has above `p` is the weight `p` has above `q`. -/
theorem rejected_eq_excess (hp : Weights p) (hq : Weights q) (same : total p = total q) :
    (q.map fun e => e.2 - min e.2 (weightOf p e.1)).sum =
      (p.map fun e => max (e.2 - weightOf q e.1) 0).sum := by
  have common := sum_min_comm hp hq (fun _ w => w) fun _ => rfl
  have excess : (p.map fun e => max (e.2 - weightOf q e.1) 0).sum =
      (p.map fun e => e.2 - min e.2 (weightOf q e.1)).sum := by
    refine congrArg _ (List.map_congr_left fun e _ => ?_)
    rcases le_total e.2 (weightOf q e.1) with low | high
    · rw [min_eq_left low, max_eq_right (by linarith), sub_self]
    · rw [min_eq_right high, max_eq_left (by linarith)]
  have difference (l : List (α × ℝ)) (g : α × ℝ → ℝ) :
      (l.map fun e => e.2 - g e).sum = total l - (l.map g).sum := by
    induction l with
    | nil => simp [total]
    | cons e rest ih =>
      simp only [total, List.map_cons, List.sum_cons] at ih ⊢
      rw [ih]
      ring
  rw [excess, difference, difference, same, common]

/-! ## Distributions -/

/-- Distinct tokens, no negative probability, and total one. -/
structure IsLaw (entries : List (α × ℝ)) : Prop extends Weights entries where
  whole : total entries = 1

/-- The expectation of `f` over a distribution. -/
noncomputable def mean (entries : List (α × ℝ)) (f : α → ℝ≥0∞) : ℝ≥0∞ :=
  (entries.map fun e => ENNReal.ofReal e.2 * f e.1).sum

variable {entries : List (α × ℝ)}

theorem isLaw_single (key : α) : IsLaw [(key, (1 : ℝ))] where
  distinct := by simp [keys]
  nonneg e member := by
    obtain rfl := List.mem_singleton.mp member
    exact zero_le_one
  whole := by simp [total]

theorem IsLaw.ne_nil (h : IsLaw entries) : entries ≠ [] := by
  rintro rfl
  simpa [total] using h.whole

theorem IsLaw.le_one (h : IsLaw entries) {e : α × ℝ} (member : e ∈ entries) : e.2 ≤ 1 := by
  rw [← h.whole]
  exact List.single_le_sum
    (fun x inside => by
      obtain ⟨y, place, rfl⟩ := List.mem_map.mp inside
      exact h.nonneg y place) _ (List.mem_map_of_mem member)

theorem mean_congr {f g : α → ℝ≥0∞} (h : ∀ e ∈ entries, f e.1 = g e.1) :
    mean entries f = mean entries g := by
  unfold mean
  exact congrArg _ (List.map_congr_left fun e member => by rw [h e member])

theorem ofReal_sum {l : List (α × ℝ)} {g : α × ℝ → ℝ} (nonneg : ∀ e ∈ l, 0 ≤ g e) :
    ENNReal.ofReal (l.map g).sum = (l.map fun e => ENNReal.ofReal (g e)).sum := by
  induction l with
  | nil => simp
  | cons e rest ih =>
    have later : ∀ x ∈ rest, 0 ≤ g x := fun x member => nonneg x (List.mem_cons_of_mem _ member)
    have rest_nonneg : 0 ≤ (rest.map g).sum := List.sum_nonneg fun x member => by
      obtain ⟨y, inside, rfl⟩ := List.mem_map.mp member
      exact later y inside
    rw [List.map_cons, List.sum_cons, List.map_cons, List.sum_cons, ← ih later,
      ENNReal.ofReal_add (nonneg e List.mem_cons_self) rest_nonneg]

theorem IsLaw.mean_const (h : IsLaw entries) (a : ℝ≥0∞) : (mean entries fun _ => a) = a := by
  rw [mean, List.sum_map_mul_right, ← ofReal_sum h.nonneg, show (entries.map Prod.snd).sum = 1 from
    h.whole, ENNReal.ofReal_one, one_mul]

theorem mean_indicator (h : IsLaw entries) (key : α) (a : ℝ≥0∞) :
    (mean entries fun x => if x = key then a else 0) =
      ENNReal.ofReal (weightOf entries key) * a := by
  rw [mean, sum_eq_sum_keys h.distinct fun x w => ENNReal.ofReal w * if x = key then a else 0]
  by_cases member : key ∈ keys entries
  · rw [Finset.sum_eq_single key]
    · simp
    · intro x _ other
      simp [other]
    · intro outside
      exact absurd (List.mem_toFinset.mpr member) outside
  · rw [weightOf_not_mem member, ENNReal.ofReal_zero, zero_mul]
    refine Finset.sum_eq_zero fun x inside => ?_
    have other : x ≠ key := by
      rintro rfl
      exact member (List.mem_toFinset.mp inside)
    simp [other]

/-- Entries without weight count nothing. -/
theorem sum_map_filter {keep : α × ℝ → Bool}
    (h : ∀ e ∈ entries, keep e = false → e.2 = 0) (g : α → ℝ → M)
    (zero : ∀ key, g key 0 = 0) :
    ((entries.filter keep).map fun e => g e.1 e.2).sum = (entries.map fun e => g e.1 e.2).sum := by
  induction entries with
  | nil => rfl
  | cons e rest ih =>
    have tail := ih fun x member => h x (List.mem_cons_of_mem _ member)
    cases kept : keep e with
    | true => simp [List.filter_cons_of_pos kept, tail]
    | false =>
      rw [List.filter_cons_of_neg (by simp [kept]), tail, List.map_cons, List.sum_cons,
        h e List.mem_cons_self kept, zero, zero_add]

/-- Entries without weight do not matter. -/
theorem Weights.mean_congr (h : Weights entries) {f g : α → ℝ≥0∞}
    (same : ∀ x, 0 < weightOf entries x → f x = g x) : mean entries f = mean entries g := by
  unfold mean
  refine congrArg _ (List.map_congr_left fun e member => ?_)
  obtain positive | none_ := (h.nonneg e member).lt_or_eq
  · rw [same e.1 (by rwa [weightOf_mem h.distinct member])]
  · rw [← none_, ENNReal.ofReal_zero, zero_mul, zero_mul]

/-! ## A draft and its replacement -/

/-- The probability that a draft is accepted. -/
noncomputable def acceptance (p q : List (α × ℝ)) (key : α) : ℝ :=
  min 1 (weightOf p key / weightOf q key)

/-- The weight a distribution has above a sparse row. -/
noncomputable def excess (p q : List (α × ℝ)) : ℝ :=
  (p.map fun e => max (e.2 - weightOf q e.1) 0).sum

/-- The law of a token that replaces a rejected draft: the positive part of `p - q`, normalised,
or `p` where there is none. -/
noncomputable def leftover (p q : List (α × ℝ)) (f : α → ℝ≥0∞) : ℝ≥0∞ :=
  if 0 < excess p q then
    (p.map fun e => ENNReal.ofReal (max (e.2 - weightOf q e.1) 0 / excess p q) * f e.1).sum
  else mean p f

theorem Weights.leftover_congr (h : Weights p) (hq : Weights q) {f g : α → ℝ≥0∞}
    (same : ∀ x, 0 < weightOf p x → f x = g x) : leftover p q f = leftover p q g := by
  unfold leftover
  split
  · refine congrArg _ (List.map_congr_left fun e member => ?_)
    by_cases positive : 0 < e.2 - weightOf q e.1
    · have weighs : 0 < e.2 := (sub_pos.mp positive).trans_le' (hq.weightOf_nonneg e.1)
      rw [same e.1 (by rwa [weightOf_mem h.distinct member])]
    · rw [max_eq_right (not_lt.mp positive), zero_div, ENNReal.ofReal_zero, zero_mul, zero_mul]
  · exact h.mean_congr same

/-- What the draft keeps and what replaces it are together the distribution. -/
theorem mean_eq (hp : IsLaw p) (hq : IsLaw q) (f : α → ℝ≥0∞) :
    (q.map fun e => ENNReal.ofReal (min e.2 (weightOf p e.1)) * f e.1).sum +
        ENNReal.ofReal (q.map fun e => e.2 - min e.2 (weightOf p e.1)).sum * leftover p q f =
      mean p f := by
  have rejected := rejected_eq_excess hp.toWeights hq.toWeights (hp.whole.trans hq.whole.symm)
  have scaled : ENNReal.ofReal (excess p q) * leftover p q f =
      (p.map fun e => ENNReal.ofReal (max (e.2 - weightOf q e.1) 0) * f e.1).sum := by
    by_cases positive : 0 < excess p q
    · rw [leftover, if_pos positive, ← List.sum_map_mul_left]
      refine congrArg _ (List.map_congr_left fun e _ => ?_)
      rw [← mul_assoc, ← ENNReal.ofReal_mul positive.le, mul_div_cancel₀ _ positive.ne']
    · have terms : ∀ x ∈ p.map fun e => max (e.2 - weightOf q e.1) 0, 0 ≤ x := by
        intro x member
        obtain ⟨e, -, rfl⟩ := List.mem_map.mp member
        exact le_max_right _ _
      have none_ : excess p q = 0 := le_antisymm (not_lt.mp positive) (List.sum_nonneg terms)
      rw [none_, ENNReal.ofReal_zero, zero_mul, eq_comm, List.sum_eq_zero]
      intro x member
      obtain ⟨e, inside, rfl⟩ := List.mem_map.mp member
      have small := List.single_le_sum terms _ (List.mem_map_of_mem inside)
      rw [ENNReal.ofReal_of_nonpos (small.trans none_.le), zero_mul]
  rw [rejected, ← excess, scaled]
  exact sum_min_add_sum_excess hp.toWeights hq.toWeights f

end Gufo.Weighted
