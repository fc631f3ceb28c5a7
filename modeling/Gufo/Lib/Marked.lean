import Gufo.Lib.Text

/-!
# Marking the words of a text

From left to right, every place where one of some words stands is marked with the longest
word there, and the search goes on behind it. A symbol that no word holds separates: what
is marked on either side does not depend on the other.
-/

namespace Gufo.Marked
open Gufo.Text

section
variable {α : Type} [DecidableEq α] (words : List (List α))

/-- The length of the longest word that the text starts with; zero where none does. -/
def longest (t : List α) : Nat :=
  words.foldl (fun best w => if w <+: t then max best w.length else best) 0

/-- Whether each symbol belongs to a word; `skip` symbols of the last word are still to come. -/
def marked : Nat → List α → List Bool
  | _, [] => []
  | skip + 1, _ :: t => true :: marked skip t
  | 0, a :: t =>
    match longest words (a :: t) with
    | 0 => false :: marked 0 t
    | n + 1 => true :: marked n t

def marks (t : List α) : List Bool := marked words 0 t

variable {words}

attribute [local simp] marked in
variable {t : List α}

theorem longest_le_iff {n : Nat} :
    longest words t ≤ n ↔ ∀ w ∈ words, w <+: t → w.length ≤ n := by
  have step : ∀ (l : List (List α)) (best : Nat),
      l.foldl (fun best w => if w <+: t then max best w.length else best) best ≤ n ↔
        best ≤ n ∧ ∀ w ∈ l, w <+: t → w.length ≤ n := by
    intro l
    induction l with
    | nil => simp
    | cons w l ih =>
      simp only [List.foldl_cons, ih, List.forall_mem_cons]
      split
      · rename_i here
        simp [here, Nat.max_le, and_assoc]
      · rename_i none
        simp [none]
  exact (step words 0).trans (by simp)

variable {t w : List α}

theorem le_longest (mem : w ∈ words) (here : w <+: t) : w.length ≤ longest words t := by
  have bound := le_refl (longest words t)
  rw [longest_le_iff] at bound
  exact bound w mem here

theorem longest_eq (mem : w ∈ words) (here : w <+: t)
    (most : ∀ w' ∈ words, w' <+: t → w'.length ≤ w.length) : longest words t = w.length := by
  apply Nat.le_antisymm _ (le_longest mem here)
  rw [longest_le_iff]
  exact most

theorem longest_le (t : List α) : longest words t ≤ t.length := by
  rw [longest_le_iff]
  exact fun _ _ here => here.length_le

theorem longest_congr {s t : List α} (same : ∀ w ∈ words, w <+: s ↔ w <+: t) :
    longest words s = longest words t := by
  apply Nat.le_antisymm
  · rw [longest_le_iff]
    exact fun w mem here => le_longest mem ((same w mem).mp here)
  · rw [longest_le_iff]
    exact fun w mem here => le_longest mem ((same w mem).mpr here)

@[simp] theorem marked_length (skip : Nat) (t : List α) :
    (marked words skip t).length = t.length := by
  induction t generalizing skip with
  | nil => cases skip <;> rfl
  | cons a t ih =>
    cases skip with
    | succ skip => simp [marked, ih]
    | zero =>
      unfold marked
      split <;> simp [ih]

@[simp] theorem marks_length (t : List α) : (marks words t).length = t.length := marked_length 0 t

theorem marks_cons_word {a : α} {n : Nat} (word : longest words (a :: t) = n + 1) :
    marks words (a :: t) = true :: marked words n t := by
  unfold marks
  rw [marked, word]

theorem marks_cons_none {a : α} (none : longest words (a :: t) = 0) :
    marks words (a :: t) = false :: marks words t := by
  unfold marks
  rw [marked, none]

/-- The rest of a word is marked. -/
theorem marked_skip {skip : Nat} (le : skip ≤ t.length) :
    marked words skip t = List.replicate skip true ++ marks words (t.drop skip) := by
  induction skip generalizing t with
  | zero => rfl
  | succ skip ih =>
    cases t with
    | nil => cases le
    | cons a t =>
      simp only [marked, List.replicate_succ, List.cons_append, List.drop_succ_cons]
      rw [ih (Nat.le_of_succ_le_succ le)]

/-- Where a word starts is marked, by that word or by one that reaches over its start. -/
theorem marked_start {i : Nat} (mem : w ∈ words) (nonempty : w ≠ [])
    (here : w <+: t.drop i) (skip : Nat) : (marked words skip t)[i]? = some true := by
  induction t generalizing skip i with
  | nil => exact absurd (List.prefix_nil.mp (by simpa using here)) nonempty
  | cons a t ih =>
    cases skip with
    | succ skip =>
      cases i with
      | zero => rfl
      | succ i => exact ih here skip
    | zero =>
      unfold marked
      cases i with
      | zero =>
        have positive := le_longest mem here
        have := List.length_pos_of_ne_nil nonempty
        simp only [List.drop_zero] at positive
        cases size : longest words (a :: t) with
        | zero => omega
        | succ n => rfl
      | succ i =>
        cases longest words (a :: t) with
        | zero => exact ih here 0
        | succ n => exact ih here n

/-- A word at the start, where no longer one stands. -/
theorem marks_word (mem : w ∈ words) (nonempty : w ≠ []) (here : w <+: t)
    (most : ∀ w' ∈ words, w' <+: t → w'.length ≤ w.length) :
    marks words t = List.replicate w.length true ++ marks words (t.drop w.length) := by
  cases t with
  | nil => exact absurd (List.prefix_nil.mp here) nonempty
  | cons a t =>
    have length := longest_eq mem here most
    obtain ⟨n, eq⟩ : ∃ n, w.length = n + 1 :=
      ⟨w.length - 1, by have := List.length_pos_of_ne_nil nonempty; omega⟩
    have le := here.length_le
    rw [eq] at length le ⊢
    rw [marks_cons_word length, marked_skip (Nat.le_of_succ_le_succ le)]
    rfl

/-- No word starts before `n`. -/
theorem marks_none {n : Nat} (le : n ≤ t.length)
    (none : ∀ j < n, ∀ w ∈ words, w <+: t.drop j → w = []) :
    marks words t = List.replicate n false ++ marks words (t.drop n) := by
  induction n generalizing t with
  | zero => rfl
  | succ n ih =>
    cases t with
    | nil => cases le
    | cons a t =>
      have zero : longest words (a :: t) = 0 :=
        Nat.le_zero.mp (longest_le_iff.mpr fun w mem here => by
          rw [none 0 (by omega) w mem here]
          exact le_rfl)
      have rest := ih (t := t) (Nat.le_of_succ_le_succ le) fun j lt w mem here =>
        none (j + 1) (by omega) w mem here
      rw [marks_cons_none zero, rest]
      rfl

theorem marks_eq_false (none : ∀ j < t.length, ∀ w ∈ words, w <+: t.drop j → w = []) :
    marks words t = List.replicate t.length false := by
  rw [marks_none le_rfl none, List.drop_length]
  simp [marks, marked]

variable {sep : α}

omit [DecidableEq α] in
/-- A word that holds no separator does not reach over one. -/
theorem prefix_before {a b w : List α} (free : sep ∉ w) :
    w <+: a ++ sep :: b ↔ w <+: a := by
  constructor
  · intro here
    by_cases fits : w.length ≤ a.length
    · exact prefix_of_le here (List.prefix_append _ _) fits
    · have inside : a ++ [sep] <+: w := by
        refine prefix_of_le (t := w) ?_ here (by simp; omega)
        exact ⟨b, by simp⟩
      exact absurd (inside.subset (by simp)) free
  · exact fun here => here.trans (List.prefix_append _ _)

theorem marked_separator (free : ∀ w ∈ words, sep ∉ w) {skip : Nat} {a : List α}
    (le : skip ≤ a.length) (b : List α) :
    marked words skip (a ++ sep :: b) = marked words skip a ++ false :: marks words b := by
  induction a generalizing skip with
  | nil =>
    obtain rfl := Nat.le_zero.mp le
    have zero : longest words (sep :: b) = 0 :=
      Nat.le_zero.mp (longest_le_iff.mpr fun w mem here => by
        have := (prefix_before (a := []) (free w mem)).mp here
        rw [List.prefix_nil.mp this]
        exact le_rfl)
    exact marks_cons_none zero
  | cons x a ih =>
    cases skip with
    | succ skip =>
      simp only [List.cons_append, marked]
      rw [ih (Nat.le_of_succ_le_succ le)]
    | zero =>
      have same : longest words (x :: (a ++ sep :: b)) = longest words (x :: a) :=
        longest_congr fun w mem => prefix_before (a := x :: a) (free w mem)
      have bound : longest words (x :: a) ≤ (x :: a).length := longest_le (x :: a)
      cases size : longest words (x :: a) with
      | zero =>
        have whole := marks_cons_none (same.trans size)
        have own := marks_cons_none size
        unfold marks at whole own
        rw [List.cons_append, whole, own, ih (Nat.zero_le _)]
        rfl
      | succ n =>
        have whole := marks_cons_word (same.trans size)
        have own := marks_cons_word size
        unfold marks at whole own
        simp only [List.length_cons] at bound
        rw [List.cons_append, whole, own, ih (show n ≤ a.length by omega)]
        rfl

/-- On either side of a separator the marks are the side's own. -/
theorem marks_separator (free : ∀ w ∈ words, sep ∉ w) (a b : List α) :
    marks words (a ++ sep :: b) = marks words a ++ false :: marks words b :=
  marked_separator free (Nat.zero_le _) b

/-- A run of separators at the start. -/
theorem marks_separators (free : ∀ w ∈ words, sep ∉ w) (n : Nat) (b : List α) :
    marks words (List.replicate n sep ++ b) = List.replicate n false ++ marks words b := by
  induction n with
  | zero => rfl
  | succ n ih =>
    have step := marks_separator free [] (List.replicate n sep ++ b)
    rw [List.replicate_succ, List.cons_append, List.replicate_succ, List.cons_append, ← ih]
    exact step

theorem marks_run (free : ∀ w ∈ words, sep ∉ w) {n : Nat} (positive : 0 < n)
    (a b : List α) :
    marks words (a ++ (List.replicate n sep ++ b)) =
      marks words a ++ (List.replicate n false ++ marks words b) := by
  obtain ⟨n, rfl⟩ : ∃ k, n = k + 1 := ⟨n - 1, by omega⟩
  rw [List.replicate_succ, List.cons_append, marks_separator free, marks_separators free]
  rfl

/-- Renaming symbols apart changes no mark. -/
theorem marked_map {β : Type} [DecidableEq β] {f : α → β} (injective : Function.Injective f)
    (skip : Nat) (t : List α) :
    marked (words.map (List.map f)) skip (t.map f) = marked words skip t := by
  induction t generalizing skip with
  | nil => cases skip <;> rfl
  | cons a t ih =>
    have same : longest (words.map (List.map f)) ((a :: t).map f) = longest words (a :: t) := by
      refine Nat.le_antisymm (longest_le_iff.mpr fun w mem here => ?_)
        (longest_le_iff.mpr fun w mem here => ?_)
      · obtain ⟨v, hv, rfl⟩ := List.mem_map.mp mem
        rw [List.length_map]
        exact le_longest hv ((List.prefix_map_iff_of_injective injective).mp here)
      · have := le_longest (List.mem_map.mpr ⟨w, mem, rfl⟩ : w.map f ∈ words.map (List.map f))
          (here.map f)
        rwa [List.length_map] at this
    cases skip with
    | succ skip => exact congrArg (true :: ·) (ih skip)
    | zero =>
      simp only [List.map_cons] at same ⊢
      unfold marked
      rw [same]
      split
      · exact congrArg (false :: ·) (ih 0)
      · exact congrArg (true :: ·) (ih _)

theorem marks_map {β : Type} [DecidableEq β] {f : α → β} (injective : Function.Injective f)
    (t : List α) : marks (words.map (List.map f)) (t.map f) = marks words t :=
  marked_map injective 0 t

end

end Gufo.Marked
