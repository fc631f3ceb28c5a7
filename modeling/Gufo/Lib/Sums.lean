import Mathlib.Algebra.Order.Ring.Int
import Mathlib.Data.List.Basic

/-!
# Counters kept in step with a list of cells

A program keeps machine-word counters: each cell of a list has a size and
belongs to at most one bucket, and every bucket's counter is debited and credited
as cells move. `Tracks` says that the counters are the bucket totals; the lemmas
say that a move keeps them so, and that its debit never goes below zero.
-/

namespace Gufo.Sums

variable {i : Nat}

section
variable {α : Type}

/-- The weight of all cells together. -/
def total (w : α → Nat) (l : List α) : Nat := (l.map w).sum

@[simp] theorem total_nil (w : α → Nat) : total w [] = 0 := rfl

@[simp] theorem total_cons (w : α → Nat) (a : α) (l : List α) :
    total w (a :: l) = w a + total w l := by simp [total]

@[simp] theorem total_append (w : α → Nat) (l k : List α) :
    total w (l ++ k) = total w l + total w k := by simp [total]

variable {l : List α}

theorem total_congr {w v : α → Nat} (h : ∀ a ∈ l, w a = v a) :
    total w l = total v l := by
  unfold total
  rw [List.map_congr_left h]

theorem total_add (w v : α → Nat) (l : List α) :
    total (fun a => w a + v a) l = total w l + total v l := by
  induction l with
  | nil => rfl
  | cons a l ih => simp only [total_cons, ih]; omega

theorem total_le {w v : α → Nat} (h : ∀ a ∈ l, w a ≤ v a) :
    total w l ≤ total v l := by
  induction l with
  | nil => simp
  | cons a l ih =>
    have head := h a (by simp)
    have tail := ih fun b hb => h b (by simp [hb])
    simp only [total_cons]
    omega

theorem total_filter (w : α → Nat) (p : α → Bool) (l : List α) :
    total w (l.filter p) = total (fun a => if p a then w a else 0) l := by
  induction l with
  | nil => rfl
  | cons a l ih => by_cases h : p a <;> simp [h, ih]

theorem total_eq_zero {w : α → Nat} (h : ∀ a ∈ l, w a = 0) :
    total w l = 0 := by
  induction l with
  | nil => rfl
  | cons a l ih => simp [h a (by simp), ih fun b hb => h b (by simp [hb])]

/-- What stands in a list after one cell was changed. -/
theorem of_getElem?_modify {f : α → α} {i j : Nat} {b : α}
    (h : (l.modify i f)[j]? = some b) : ∃ a, l[j]? = some a ∧ b = if i = j then f a else a := by
  rw [List.getElem?_modify] at h
  cases hj : l[j]? with
  | none => simp [hj] at h
  | some a =>
    refine ⟨a, rfl, ?_⟩
    simpa [hj, eq_comm] using h

/-- One changed cell moves the total by the difference of its weights. -/
theorem total_modify (w : α → Nat) (g : α → α) {a : α}
    (h : l[i]? = some a) : total w (l.modify i g) + w a = total w l + w (g a) := by
  induction l generalizing i with
  | nil => simp at h
  | cons b l ih =>
    cases i with
    | zero =>
      simp only [List.getElem?_cons_zero, Option.some.injEq] at h
      subst h
      simp only [List.modify_zero_cons, total_cons]
      omega
    | succ i =>
      have rest := ih (i := i) (by simpa using h)
      simp only [List.modify_succ_cons, total_cons]
      omega

theorem total_set (w : α → Nat) {a : α} (h : l[i]? = some a) (b : α) :
    total w (l.set i b) + w a = total w l + w b := by
  rw [List.set_eq_modify]
  exact total_modify w (fun _ => b) h

theorem le_total (w : α → Nat) {a : α} (h : l[i]? = some a) :
    w a ≤ total w l := by
  induction l generalizing i with
  | nil => simp at h
  | cons b l ih =>
    cases i with
    | zero => simp_all
    | succ i =>
      have rest := ih (i := i) (by simpa using h)
      simp only [total_cons]
      omega

end

/-! ## Machine words -/

theorem toNat_sub {a b : UInt64} (h : b.toNat ≤ a.toNat) : (a - b).toNat = a.toNat - b.toNat :=
  UInt64.toNat_sub_of_le a b (UInt64.le_iff_toNat_le.mpr h)

theorem toNat_add {a b : UInt64} (h : a.toNat + b.toNat < 2 ^ 64) :
    (a + b).toNat = a.toNat + b.toNat := by
  rw [UInt64.toNat_add, Nat.mod_eq_of_lt h]

theorem not_lt_of_toNat {a b : UInt64} (h : b.toNat ≤ a.toNat) : ¬a < b := by
  rw [UInt64.lt_iff_toNat_lt]
  omega

/-- The larger of two words, as `std::max` returns it. -/
def larger (a b : UInt64) : UInt64 := if a < b then b else a

theorem toNat_larger (a b : UInt64) : (larger a b).toNat = max a.toNat b.toNat := by
  unfold larger
  split
  · rename_i h
    have := UInt64.lt_iff_toNat_lt.mp h
    omega
  · rename_i h
    rw [UInt64.lt_iff_toNat_lt] at h
    omega

/-! ## Bucket counters -/

section
variable {α κ : Type} [DecidableEq κ]

/-- What a cell adds to bucket `k`. -/
def weight (key : α → Option κ) (size : α → UInt64) (k : κ) (a : α) : Nat :=
  if key a = some k then (size a).toNat else 0

/-- Every bucket's counter is the total size of the cells in the bucket. -/
def Tracks (key : α → Option κ) (size : α → UInt64) (f : κ → UInt64) (l : List α) : Prop :=
  ∀ k, (f k).toNat = total (weight key size k) l

/-- The size of all cells that are in some bucket. -/
def volume (key : α → Option κ) (size : α → UInt64) (l : List α) : Nat :=
  total (fun a => if (key a).isSome then (size a).toNat else 0) l

def debit (k : Option κ) (n : UInt64) (f : κ → UInt64) : κ → UInt64 :=
  match k with
  | none => f
  | some k => Function.update f k (f k - n)

def credit (k : Option κ) (n : UInt64) (f : κ → UInt64) : κ → UInt64 :=
  match k with
  | none => f
  | some k => Function.update f k (f k + n)

@[simp] theorem debit_none (n : UInt64) (f : κ → UInt64) : debit none n f = f := rfl

@[simp] theorem debit_some (k : κ) (n : UInt64) (f : κ → UInt64) :
    debit (some k) n f = Function.update f k (f k - n) := rfl

@[simp] theorem credit_none (n : UInt64) (f : κ → UInt64) : credit none n f = f := rfl

@[simp] theorem credit_some (k : κ) (n : UInt64) (f : κ → UInt64) :
    credit (some k) n f = Function.update f k (f k + n) := rfl

/-- A single counter is a family over `Unit`. -/
@[simp] theorem update_unit (f : Unit → UInt64) (n : UInt64) :
    Function.update f () n = fun _ => n := by
  funext k
  simp

variable {key : α → Option κ} {size : α → UInt64} {f : κ → UInt64} {l : List α}

theorem bucket_le_volume (key : α → Option κ) (size : α → UInt64) (l : List α) (k : κ) :
    total (weight key size k) l ≤ volume key size l := by
  apply total_le
  intro a _
  unfold weight
  by_cases h : key a = some k <;> simp [h]

omit [DecidableEq κ] in
theorem volume_le {ι : Type} {key' : α → Option ι} (h : ∀ a ∈ l, (key a).isSome → (key' a).isSome) :
    volume key size l ≤ volume key' size l := by
  apply total_le
  intro a ha
  by_cases hk : (key a).isSome
  · simp [hk, h a ha hk]
  · simp [hk]

/-- A counter covers every cell of its bucket, so debiting the cell is exact. -/
theorem Tracks.covers (h : Tracks key size f l) {a : α} (hi : l[i]? = some a) {k : κ}
    (hk : key a = some k) : (size a).toNat ≤ (f k).toNat := by
  rw [h k]
  have := le_total (weight key size k) hi
  simpa [weight, hk] using this

/-- A cell moves: its old bucket pays, its new one receives. -/
theorem Tracks.move (h : Tracks key size f l) {a : α} (hi : l[i]? = some a) {g : α → α}
    (sameSize : size (g a) = size a) (room : volume key size (l.modify i g) < 2 ^ 64) :
    Tracks key size (credit (key (g a)) (size a) (Sums.debit (key a) (size a) f))
      (l.modify i g) := by
  intro k
  have moved := total_modify (weight key size k) g hi
  have exact := h k
  have fits := bucket_le_volume key size (l.modify i g) k
  have debited : (Sums.debit (key a) (size a) f k).toNat + weight key size k a = (f k).toNat := by
    cases hk : key a with
    | none => simp [Sums.debit, weight, hk]
    | some k' =>
      have covered := h.covers hi hk
      by_cases eq : k = k'
      · subst eq
        simp only [Sums.debit, Function.update_self, weight, hk, if_true]
        rw [toNat_sub covered]
        omega
      · have ne : k' ≠ k := fun e => eq e.symm
        simp [Sums.debit, Function.update_of_ne eq, weight, hk, ne]
  cases hg : key (g a) with
  | none =>
    have lost : weight key size k (g a) = 0 := by simp [weight, hg]
    simp only [credit]
    omega
  | some k' =>
    by_cases eq : k = k'
    · subst eq
      have gained : weight key size k (g a) = (size a).toNat := by simp [weight, hg, sameSize]
      simp only [credit, Function.update_self]
      rw [toNat_add (by omega)]
      omega
    · have ne : k' ≠ k := fun e => eq e.symm
      have lost : weight key size k (g a) = 0 := by simp [weight, hg, ne]
      simp only [credit, Function.update_of_ne eq]
      omega

/-- A counter that pays and receives the same word is where it was. -/
@[simp] theorem credit_debit_self (k : Option κ) (n : UInt64) (f : κ → UInt64) :
    credit k n (debit k n f) = f := by
  cases k with
  | none => rfl
  | some k =>
    funext j
    by_cases eq : j = k
    · simp [credit, debit]
    · simp [credit, debit, Function.update_of_ne eq]

/-- A cell that leaves its bucket, or stays in it, raises no counter. -/
theorem Tracks.lower (h : Tracks key size f l) {a : α} (hi : l[i]? = some a)
    {k : Option κ} (stays : k = none ∨ k = key a) (j : κ) :
    credit k (size a) (debit (key a) (size a) f) j ≤ f j := by
  rcases stays with rfl | rfl
  · cases hk : key a with
    | none => simp
    | some b =>
      by_cases eq : j = b
      · subst eq
        simp [UInt64.le_iff_toNat_le, toNat_sub (h.covers hi hk)]
      · simp [Function.update_of_ne eq]
  · simp

omit [DecidableEq κ] in
/-- Changing one cell without taking it out of or into the buckets keeps their volume. -/
theorem volume_modify_le (key : α → Option κ) (size : α → UInt64) {a : α} (hi : l[i]? = some a) {g : α → α}
    (sameSize : size (g a) = size a) (stays : (key (g a)).isSome → (key a).isSome) :
    volume key size (l.modify i g) ≤ volume key size l := by
  unfold volume
  have moved := total_modify (fun a => if (key a).isSome then (size a).toNat else 0) g hi
  by_cases now : (key (g a)).isSome
  · simp only [now, stays now, if_true, sameSize] at moved
    omega
  · simp only [now] at moved
    simp only [Bool.false_eq_true, if_false] at moved
    omega

theorem Tracks.append (h : Tracks key size f l) (a : α)
    (room : volume key size l + (size a).toNat < 2 ^ 64) :
    Tracks key size (credit (key a) (size a) f) (l ++ [a]) := by
  intro k
  have exact := h k
  have fits := bucket_le_volume key size l k
  simp only [total_append, total_cons, total_nil, Nat.add_zero]
  cases hk : key a with
  | none =>
    have none : weight key size k a = 0 := by simp [weight, hk]
    simp only [credit]
    omega
  | some k' =>
    by_cases eq : k = k'
    · subst eq
      have gained : weight key size k a = (size a).toNat := by simp [weight, hk]
      simp only [credit, Function.update_self]
      rw [toNat_add (by omega)]
      omega
    · have ne : k' ≠ k := fun e => eq e.symm
      have none : weight key size k a = 0 := by simp [weight, hk, ne]
      simp only [credit, Function.update_of_ne eq]
      omega

end

end Gufo.Sums
