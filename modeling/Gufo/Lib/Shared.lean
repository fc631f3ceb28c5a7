import Mathlib.Data.Fintype.BigOperators
import Mathlib.Data.UInt

/-!
# Objects with several owners

Every owner holds a finite set of objects, and an object of several owners is
counted once. Adding or removing one owner moves the count by what only this
owner holds. The count may be kept in machine words.
-/

namespace Gufo.Shared

section Owners
variable {ι α M : Type} [Fintype ι] [DecidableEq ι] [DecidableEq α] [AddCommMonoid M]
variable {refs refs' : ι → Finset α} {i : ι}

/-- All objects that some owner holds. -/
def held (refs : ι → Finset α) : Finset α := Finset.univ.biUnion refs

/-- What the owners other than `i` hold. -/
def others (refs : ι → Finset α) (i : ι) : Finset α := (Finset.univ.erase i).biUnion refs

omit [DecidableEq ι] in
@[simp] theorem mem_held {a : α} : a ∈ held refs ↔ ∃ i, a ∈ refs i := by simp [held]

@[simp] theorem mem_others {a : α} : a ∈ others refs i ↔ ∃ j, j ≠ i ∧ a ∈ refs j := by
  simp [others]

theorem others_congr (h : ∀ j, j ≠ i → refs j = refs' j) : others refs i = others refs' i := by
  ext a
  simp only [mem_others]
  constructor
  · rintro ⟨j, hj, ha⟩
    exact ⟨j, hj, h j hj ▸ ha⟩
  · rintro ⟨j, hj, ha⟩
    exact ⟨j, hj, h j hj ▸ ha⟩

theorem held_eq_union : held refs = others refs i ∪ (refs i \ others refs i) := by
  ext a
  simp only [mem_held, Finset.mem_union, Finset.mem_sdiff, mem_others]
  constructor
  · rintro ⟨j, ha⟩
    by_cases other : ∃ k, k ≠ i ∧ a ∈ refs k
    · exact .inl other
    · have hj : j = i := by
        by_contra hj
        exact other ⟨j, hj, ha⟩
      exact .inr ⟨hj ▸ ha, other⟩
  · rintro (⟨j, -, ha⟩ | ⟨ha, -⟩)
    · exact ⟨j, ha⟩
    · exact ⟨i, ha⟩

/-- The whole count is the others' and what only `i` holds. -/
theorem sum_held (w : α → M) (i : ι) :
    ∑ a ∈ held refs, w a = ∑ a ∈ others refs i, w a + ∑ a ∈ refs i \ others refs i, w a := by
  rw [held_eq_union (i := i), Finset.sum_union Finset.disjoint_sdiff]

/-- An owner of nothing does not count. -/
theorem held_eq_others (h : refs i = ∅) : held refs = others refs i := by
  rw [held_eq_union (i := i), h]
  simp

/-- One owner's count replaced by another. -/
theorem sum_held_of_agree (w : α → M) (agree : ∀ j, j ≠ i → refs j = refs' j) (h : refs i = ∅) :
    ∑ a ∈ held refs', w a = ∑ a ∈ held refs, w a + ∑ a ∈ refs' i \ others refs' i, w a := by
  rw [sum_held w i, held_eq_others h, others_congr agree]

end Owners

/-! ## Counting over lists -/

section Lists
variable {α β M : Type} [DecidableEq α] [AddCommMonoid M]

/-- The union of a list of sets. -/
def union (l : List (Finset α)) : Finset α := l.foldr (· ∪ ·) ∅

@[simp] theorem mem_union {a : α} {l : List (Finset α)} : a ∈ union l ↔ ∃ s ∈ l, a ∈ s := by
  induction l with
  | nil => simp [union]
  | cons s l ih =>
    have step : union (s :: l) = s ∪ union l := rfl
    simp [step, ih]

/-- Sets that share nothing are counted one by one. -/
theorem sum_union (w : α → M) {l : List (Finset α)} (h : l.Pairwise Disjoint) :
    (l.map fun s => ∑ a ∈ s, w a).sum = ∑ a ∈ union l, w a := by
  induction l with
  | nil => simp [union]
  | cons s l ih =>
    obtain ⟨apart, rest⟩ := List.pairwise_cons.mp h
    have disjoint : Disjoint s (union l) := by
      rw [Finset.disjoint_left]
      intro a ha hu
      obtain ⟨t, ht, hat⟩ := mem_union.mp hu
      exact Finset.disjoint_left.mp (apart t ht) ha hat
    have step : union (s :: l) = s ∪ union l := rfl
    rw [List.map_cons, List.sum_cons, ih rest, step, Finset.sum_union disjoint]

/-- The same for a set given for each element of a list. -/
theorem sum_map_union (w : α → M) {l : List β} (f : β → Finset α)
    (h : l.Pairwise fun b c => Disjoint (f b) (f c)) :
    (l.map fun b => ∑ a ∈ f b, w a).sum = ∑ a ∈ union (l.map f), w a := by
  rw [← sum_union w (List.pairwise_map.mpr h), List.map_map]
  rfl

/-- A list without repetitions is counted as its set. -/
theorem sum_nodup (w : α → M) {l : List α} (h : l.Nodup) :
    (l.map w).sum = ∑ a ∈ l.toFinset, w a := (List.sum_toFinset w h).symm

/-- Collecting what is new keeps a list without repetitions, of the elements met. -/
theorem collect {f : β → Option α} {g : List α → β → List α}
    (none_ : ∀ seen b, f b = none → g seen b = seen)
    (old : ∀ seen b a, f b = some a → a ∈ seen → g seen b = seen)
    (new : ∀ seen b a, f b = some a → a ∉ seen → g seen b = seen ++ [a])
    (l : List β) {seen : List α} (h : seen.Nodup) :
    (l.foldl g seen).Nodup ∧
      ∀ a, a ∈ l.foldl g seen ↔ a ∈ seen ∨ ∃ b ∈ l, f b = some a := by
  induction l generalizing seen with
  | nil => simpa using h
  | cons b l ih =>
    simp only [List.foldl_cons, List.mem_cons, exists_eq_or_imp]
    cases hb : f b with
    | none =>
      rw [none_ seen b hb]
      simpa using ih h
    | some c =>
      simp only [Option.some.injEq]
      by_cases hc : c ∈ seen
      · rw [old seen b c hb hc]
        obtain ⟨nodup, mem⟩ := ih h
        refine ⟨nodup, fun a => (mem a).trans ?_⟩
        constructor
        · rintro (ha | ha)
          · exact .inl ha
          · exact .inr (.inr ha)
        · rintro (ha | rfl | ha)
          · exact .inl ha
          · exact .inl hc
          · exact .inr ha
      · rw [new seen b c hb hc]
        have fresh : (seen ++ [c]).Nodup := by
          rw [List.nodup_append]
          refine ⟨h, by simp, ?_⟩
          intro a ha d hd
          rw [List.mem_singleton] at hd
          intro eq
          exact hc (hd ▸ eq ▸ ha)
        obtain ⟨nodup, mem⟩ := ih fresh
        refine ⟨nodup, fun a => (mem a).trans ?_⟩
        simp [or_assoc, eq_comm]

end Lists

/-! ## Counts in machine words -/

/-- Reduction to a 64-bit word. -/
def word : ℕ →+ UInt64 where
  toFun := UInt64.ofNat
  map_zero' := rfl
  map_add' := UInt64.ofNat_add

theorem word_toNat (a : UInt64) : word a.toNat = a := UInt64.ofNat_toNat

theorem sum_word {α : Type} (s : Finset α) (w : α → UInt64) :
    ∑ a ∈ s, w a = word (∑ a ∈ s, (w a).toNat) := by
  rw [map_sum]
  exact Finset.sum_congr rfl fun a _ => (word_toNat (w a)).symm

end Gufo.Shared
