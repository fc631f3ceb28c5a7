import Mathlib.Data.List.Infix

/-!
# Matching a pattern as it is read

How much of a pattern stands at the end of what was read so far, kept from one element to the
next with the table of the pattern's own borders.
-/

namespace Gufo.Borders

variable {α : Type} [DecidableEq α]

/-- Falls back along the borders until the next element fits. -/
def fall (p : List α) (table : List Nat) (b : α) : Nat → Nat → Nat
  | 0, k => k
  | fuel + 1, k =>
    if k ≠ 0 ∧ p[k]? ≠ some b then fall p table b fuel (table.getD (k - 1) 0) else k

def advance (p : List α) (table : List Nat) (b : α) (k : Nat) : Nat :=
  let k := fall p table b p.length k
  if p[k]? = some b then k + 1 else 0

/-- The first `n` entries: the pattern matched against itself. -/
def borders (p : List α) : Nat → List Nat
  | 0 => []
  | 1 => [0]
  | n + 2 =>
    borders p (n + 1) ++ [(p[n + 1]?).elim 0 fun b =>
      advance p (borders p (n + 1)) b ((borders p (n + 1)).getD n 0)]

/-- The longest beginning of the pattern, up to a bound, that a text ends with. -/
structure Longest (p s : List α) (bound k : Nat) : Prop where
  le : k ≤ bound
  ends : p.take k <:+ s
  longest : ∀ j ≤ bound, p.take j <:+ s → j ≤ k

/-- The first `n` entries are the longest proper borders. -/
def Table (p : List α) (table : List Nat) (n : Nat) : Prop :=
  ∀ i < n, Longest p (p.take (i + 1)) i (table.getD i 0)

section
omit [DecidableEq α]
variable {p s : List α} {b : α} {j k bound : Nat}

theorem take_succ_ends (inside : j < p.length) :
    p.take (j + 1) <:+ s ++ [b] ↔ p[j]? = some b ∧ p.take j <:+ s := by
  rw [List.take_succ_eq_append_getElem inside, List.getElem?_eq_getElem inside,
    List.suffix_concat_iff]
  constructor
  · rintro (none | ⟨t, same, ends⟩)
    · exact absurd none (List.append_ne_nil_of_right_ne_nil _ (List.cons_ne_nil _ _))
    · obtain ⟨front, last⟩ := List.append_inj' same rfl
      rw [List.singleton_inj] at last
      exact ⟨congrArg some last, front ▸ ends⟩
  · rintro ⟨last, ends⟩
    rw [Option.some.injEq] at last
    exact .inr ⟨_, by rw [last], ends⟩

/-- Two beginnings at the end of one text: the shorter one ends the longer one. -/
theorem ends_of_le (ends : p.take j <:+ s) (ends' : p.take k <:+ s) (le : j ≤ k) :
    p.take j <:+ p.take k :=
  List.suffix_of_suffix_length_le ends ends' (by rw [List.length_take, List.length_take]; omega)

theorem longest_nil (p : List α) (bound : Nat) (inside : bound ≤ p.length) :
    Longest p [] bound 0 := by
  refine ⟨Nat.zero_le _, by rw [List.take_zero], fun j le ends => ?_⟩
  have := congrArg List.length (List.suffix_nil.mp ends)
  rw [List.length_take, List.length_nil] at this
  omega

end

section
variable {p s : List α} {b : α} {k bound : Nat} {table : List Nat}

/-- Falling back finds the longest beginning that goes on with the element. -/
theorem fall_longest {fuel : Nat} (enough : k ≤ fuel) (inside : k < p.length)
    (fits : Table p table k) :
    Longest p (p.take k ++ [b]) (k + 1)
      (if p[fall p table b fuel k]? = some b then fall p table b fuel k + 1 else 0) := by
  induction fuel generalizing k with
  | zero =>
    cases Nat.le_zero.mp enough
    split
    · rename_i here
      exact ⟨Nat.le_refl _, (take_succ_ends inside).mpr ⟨here, List.suffix_refl _⟩,
        fun j le _ => le⟩
    · rename_i differs
      refine ⟨Nat.zero_le _, by exact List.nil_suffix, fun j le ends => ?_⟩
      by_contra pos
      obtain rfl : j = 0 + 1 := by omega
      exact differs ((take_succ_ends inside).mp ends).1
  | succ fuel ih =>
    unfold fall
    by_cases falls : k ≠ 0 ∧ p[k]? ≠ some b
    · rw [if_pos falls]
      obtain ⟨some, differs⟩ := falls
      obtain ⟨le, border, longest⟩ := fits (k - 1) (by omega)
      rw [show k - 1 + 1 = k by omega] at border longest
      generalize table.getD (k - 1) 0 = k' at le border longest
      obtain ⟨le', ends, most⟩ := ih (k := k') (by omega) (by omega)
        (fun i lt => fits i (by omega))
      refine ⟨by omega, ends.trans ?_, fun j le ends => ?_⟩
      · obtain ⟨front, same⟩ := border
        exact ⟨front, by rw [← List.append_assoc, same]⟩
      · cases j with
        | zero => exact Nat.zero_le _
        | succ j =>
          obtain ⟨next, ends⟩ := (take_succ_ends (by omega)).mp ends
          -- it is not the whole: the element differs there
          have proper : j ≠ k := by
            rintro rfl
            exact differs next
          have shorter := longest j (by omega) ends
          exact most (j + 1) (by omega)
            ((take_succ_ends (by omega)).mpr ⟨next, ends_of_le ends border shorter⟩)
    · rw [if_neg falls]
      split
      · rename_i here
        exact ⟨Nat.le_refl _, (take_succ_ends inside).mpr ⟨here, List.suffix_refl _⟩,
          fun j le _ => le⟩
      · rename_i differs
        have zero : k = 0 := by
          by_contra some
          exact falls ⟨some, differs⟩
        subst zero
        refine ⟨Nat.zero_le _, by exact List.nil_suffix, fun j le ends => ?_⟩
        by_contra pos
        obtain rfl : j = 0 + 1 := by omega
        exact differs ((take_succ_ends inside).mp ends).1

/-- One more element is read. -/
theorem Longest.advance (h : Longest p s bound k) (inside : bound < p.length)
    (fits : Table p table k) (b : α) :
    Longest p (s ++ [b]) (bound + 1) (advance p table b k) := by
  obtain ⟨le, ends, longest⟩ := h
  obtain ⟨le', ends', longest'⟩ := @fall_longest α _ p b k table p.length (by omega) (by omega) fits
  refine ⟨Nat.le_trans le' (by omega), ends'.trans ?_, fun j le ends_ => ?_⟩
  · obtain ⟨front, same⟩ := ends
    exact ⟨front, by rw [← List.append_assoc, same]⟩
  · cases j with
    | zero => exact Nat.zero_le _
    | succ j =>
      obtain ⟨next, ends_⟩ := (take_succ_ends (by omega)).mp ends_
      have shorter := longest j (by omega) ends_
      exact longest' (j + 1) (by omega)
        ((take_succ_ends (by omega)).mpr ⟨next, ends_of_le ends_ ends shorter⟩)

/-- The table holds the longest proper borders. -/
theorem borders_table (p : List α) {n : Nat} (le : n ≤ p.length) :
    (borders p n).length = n ∧ Table p (borders p n) n := by
  induction n with
  | zero => exact ⟨rfl, fun i lt => absurd lt (Nat.not_lt_zero i)⟩
  | succ n ih =>
    obtain ⟨length, fits⟩ := ih (by omega)
    cases n with
    | zero =>
      refine ⟨rfl, fun i lt => ?_⟩
      obtain rfl : i = 0 := by omega
      exact ⟨Nat.le_refl _, List.nil_suffix, fun j le _ => le⟩
    | succ n =>
      have here : p[n + 1]? = some p[n + 1] := List.getElem?_eq_getElem (by omega)
      have unfold_ : borders p (n + 1 + 1) = borders p (n + 1) ++
          [Borders.advance p (borders p (n + 1)) p[n + 1] ((borders p (n + 1)).getD n 0)] := by
        rw [borders, here, Option.elim_some]
      rw [unfold_]
      refine ⟨by rw [List.length_append, length, List.length_singleton], fun i lt => ?_⟩
      by_cases last : i = n + 1
      · subst last
        have previous := fits n (by omega)
        have le := previous.le
        rw [List.getD_eq_getElem?_getD, List.getElem?_append_right (by omega), length,
          Nat.sub_self, List.getElem?_cons_zero, Option.getD_some,
          List.take_succ_eq_append_getElem (by omega : n + 1 < p.length)]
        exact previous.advance (by omega) (fun i lt => fits i (by omega)) _
      · have old := fits i (by omega)
        rw [List.getD_eq_getElem?_getD] at old ⊢
        rwa [List.getElem?_append_left (by omega)]

end

end Gufo.Borders
