import Mathlib.Data.List.Basic

/-!
# Binary search

Where a predicate holds of a beginning of a list and of nothing behind it, halving the range
finds the place where it ends.
-/

namespace Gufo.LowerBound

variable {α : Type}

/-- Halves the `count` places from `first` on, at most `fuel` times. -/
def search (below : Nat → Bool) : Nat → Nat → Nat → Nat
  | 0, first, _ => first
  | fuel + 1, first, count =>
    if count = 0 then first
    else
      let half := count / 2
      if below (first + half) then search below fuel (first + half + 1) (count - half - 1)
      else search below fuel first half

def lowerBound (below : α → Bool) (l : List α) : Nat :=
  search (fun i => l[i]?.any below) l.length 0 l.length

theorem search_spec {below : Nat → Bool} {fuel first count : Nat} (enough : count ≤ fuel)
    (down : ∀ i j, i ≤ j → j < first + count → below j = true → below i = true) :
    first ≤ search below fuel first count ∧ search below fuel first count ≤ first + count ∧
      (∀ i, first ≤ i → i < search below fuel first count → below i = true) ∧
      ∀ i, search below fuel first count ≤ i → i < first + count → below i = false := by
  induction fuel generalizing first count with
  | zero =>
    simp only [search]
    refine ⟨Nat.le_refl _, by omega, fun i low high => ?_, fun i low high => ?_⟩ <;> omega
  | succ fuel ih =>
    unfold search
    split
    · refine ⟨Nat.le_refl _, by omega, fun i low high => ?_, fun i low high => ?_⟩ <;> omega
    · simp only
      split
      · rename_i holds
        obtain ⟨low, high, inside, outside⟩ := @ih (first + count / 2 + 1) (count - count / 2 - 1)
          (by omega) fun i j le lt => down i j le (by omega)
        refine ⟨by omega, by omega, fun i least most => ?_, fun i least most => ?_⟩
        · by_cases passed : i ≤ first + count / 2
          · exact down i _ passed (by omega) holds
          · exact inside i (by omega) most
        · exact outside i least (by omega)
      · rename_i fails
        obtain ⟨low, high, inside, outside⟩ := @ih first (count / 2) (by omega)
          fun i j le lt => down i j le (by omega)
        refine ⟨low, by omega, inside, fun i least most => ?_⟩
        by_cases passed : i < first + count / 2
        · exact outside i least passed
        · by_contra holds
          exact fails (down _ i (by omega) most (by simpa using holds))

/-- The list is cut where the predicate stops to hold. -/
theorem lowerBound_cut {below : α → Bool} {l : List α}
    (sorted : l.Pairwise fun a b => below b = true → below a = true) :
    ∃ front back, l = front ++ back ∧ front.length = lowerBound below l ∧
      (∀ a ∈ front, below a = true) ∧ ∀ a ∈ back, below a = false := by
  have down : ∀ i j, i ≤ j → j < 0 + l.length → l[j]?.any below = true →
      l[i]?.any below = true := by
    intro i j le lt holds
    rcases Nat.lt_or_eq_of_le le with lt' | rfl
    · rw [List.getElem?_eq_getElem (by omega)] at holds ⊢
      exact List.pairwise_iff_getElem.mp sorted i j (by omega) (by omega) lt' holds
    · exact holds
  obtain ⟨-, high, inside, outside⟩ := search_spec (Nat.le_refl l.length) down
  refine ⟨l.take (lowerBound below l), l.drop (lowerBound below l),
    (List.take_append_drop _ l).symm, ?_, fun a ha => ?_, fun a ha => ?_⟩
  · rw [List.length_take]
    unfold lowerBound
    omega
  · obtain ⟨i, lt, rfl⟩ := List.mem_take_iff_getElem.mp ha
    have := inside i (Nat.zero_le i) (by unfold lowerBound at lt; omega)
    rwa [List.getElem?_eq_getElem (by omega)] at this
  · obtain ⟨i, lt, rfl⟩ := List.mem_drop_iff_getElem.mp ha
    have := outside (lowerBound below l + i) (Nat.le_add_right _ i) (by omega)
    rwa [List.getElem?_eq_getElem (by omega)] at this

end Gufo.LowerBound
