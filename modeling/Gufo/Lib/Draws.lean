import Mathlib.MeasureTheory.Measure.Lebesgue.Basic

/-!
# Programs that draw uniform numbers

A `Drawing` ends with a value, fails, or draws a number of `[0, 1)` and goes on with
it.

* `expect x f` is the expectation of `f` over the values `x` ends with; a failure
  counts nothing.
* `Always x P` says that `x` never fails and every value it ends with satisfies `P`.
* `lintegral_below` and `lintegral_choose` are the laws of a threshold test and of
  a choice among weighted entries.
-/

namespace Gufo.Draws
open MeasureTheory
open scoped ENNReal

inductive Drawing (α : Type) : Type where
  | done (a : α)
  | fail (message : String)
  | draw (next : ℝ → Drawing α)

namespace Drawing
variable {α β γ : Type}

protected def bind : Drawing α → (α → Drawing β) → Drawing β
  | done a, f => f a
  | fail message, _ => fail message
  | draw next, f => draw fun u => (next u).bind f

protected def tryCatch : Drawing α → (String → Drawing α) → Drawing α
  | done a, _ => done a
  | fail message, handle => handle message
  | draw next, handle => draw fun u => (next u).tryCatch handle

instance : Monad Drawing where
  pure := done
  bind := Drawing.bind

instance : MonadExcept String Drawing where
  throw := fail
  tryCatch := Drawing.tryCatch

theorem bind_done (x : Drawing α) : x.bind done = x := by
  induction x with
  | done a => rfl
  | fail message => rfl
  | draw next ih => exact congrArg draw (funext ih)

theorem bind_bind (x : Drawing α) (f : α → Drawing β) (g : β → Drawing γ) :
    (x.bind f).bind g = x.bind fun a => (f a).bind g := by
  induction x with
  | done a => rfl
  | fail message => rfl
  | draw next ih => exact congrArg draw (funext ih)

instance : LawfulMonad Drawing :=
  LawfulMonad.mk' Drawing bind_done (fun _ _ => rfl) bind_bind

/-- A uniform number. -/
def uniform : Drawing ℝ := draw done

/-! ## Expectations -/

noncomputable def expect : Drawing α → (α → ℝ≥0∞) → ℝ≥0∞
  | done a, f => f a
  | fail _, _ => 0
  | draw next, f => ∫⁻ u in Set.Ico (0 : ℝ) 1, (next u).expect f

@[simp]
theorem expect_pure (a : α) (f : α → ℝ≥0∞) : (pure a : Drawing α).expect f = f a := rfl

theorem expect_bind (x : Drawing α) (g : α → Drawing β) (f : β → ℝ≥0∞) :
    (x >>= g).expect f = x.expect fun a => (g a).expect f := by
  induction x with
  | done a => rfl
  | fail message => rfl
  | draw next ih =>
    exact lintegral_congr fun u => ih u

/-- The program never fails, and what it ends with satisfies `P`. -/
def Always : Drawing α → (α → Prop) → Prop
  | done a, P => P a
  | fail _, _ => False
  | draw next, P => ∀ u, 0 ≤ u → u < 1 → (next u).Always P

theorem Always.imp {x : Drawing α} {P Q : α → Prop} (h : x.Always P) (h' : ∀ a, P a → Q a) :
    x.Always Q := by
  induction x with
  | done a => exact h' a h
  | fail message => exact h.elim
  | draw next ih => exact fun u low high => ih u (h u low high)

theorem expect_congr {x : Drawing α} {f g : α → ℝ≥0∞} (h : x.Always fun a => f a = g a) :
    x.expect f = x.expect g := by
  induction x with
  | done a => exact h
  | fail message => exact h.elim
  | draw next ih =>
    exact setLIntegral_congr_fun measurableSet_Ico fun u inside => ih u (h u inside.1 inside.2)

/-! ## A threshold and a choice -/

theorem lintegral_split {a b c : ℝ} (low : a ≤ b) (high : b ≤ c) (f : ℝ → ℝ≥0∞) :
    ∫⁻ u in Set.Ico a c, f u = (∫⁻ u in Set.Ico a b, f u) + ∫⁻ u in Set.Ico b c, f u := by
  rw [← Set.Ico_union_Ico_eq_Ico low high]
  exact lintegral_union measurableSet_Ico Set.Ico_disjoint_Ico_same

theorem lintegral_const_on {a b : ℝ} {f : ℝ → ℝ≥0∞} {c : ℝ≥0∞} (h : ∀ u, a ≤ u → u < b → f u = c) :
    ∫⁻ u in Set.Ico a b, f u = ENNReal.ofReal (b - a) * c := by
  have same : ∫⁻ u in Set.Ico a b, f u = ∫⁻ _ in Set.Ico a b, c :=
    setLIntegral_congr_fun measurableSet_Ico fun u inside => h u inside.1 inside.2
  rw [same, setLIntegral_const, Real.volume_Ico, mul_comm]

/-- A number below a threshold. -/
theorem lintegral_below {c : ℝ} (low : 0 ≤ c) (high : c ≤ 1) (a b : ℝ≥0∞) :
    (∫⁻ u in Set.Ico (0 : ℝ) 1, if u < c then a else b) =
      ENNReal.ofReal c * a + ENNReal.ofReal (1 - c) * b := by
  rw [lintegral_split low high, lintegral_const_on fun u _ below => if_pos below,
    lintegral_const_on fun u above _ => if_neg (not_lt.mpr above), sub_zero]

/-- The first entry whose cumulative weight exceeds the number; the last one otherwise. -/
noncomputable def choose (default : α) : List (α × ℝ) → ℝ → α
  | [], _ => default
  | [e], _ => e.1
  | e :: rest, u => if u - e.2 < 0 then e.1 else choose default rest (u - e.2)

theorem choose_cons {default : α} {e next : α × ℝ} {rest : List (α × ℝ)} {u : ℝ} :
    choose default (e :: next :: rest) u =
      if u - e.2 < 0 then e.1 else choose default (next :: rest) (u - e.2) := rfl

/-- An entry is chosen by its weight. -/
theorem lintegral_choose {default : α} {entries : List (α × ℝ)} (some_ : entries ≠ [])
    (nonneg : ∀ e ∈ entries, 0 ≤ e.2) (f : α → ℝ≥0∞) :
    ∫⁻ u in Set.Ico 0 (entries.map Prod.snd).sum, f (choose default entries u) =
      (entries.map fun e => ENNReal.ofReal e.2 * f e.1).sum := by
  induction entries with
  | nil => exact absurd rfl some_
  | cons e rest ih =>
    cases rest with
    | nil =>
      have only : ∀ u, 0 ≤ u → u < e.2 → f (choose default [e] u) = f e.1 := fun _ _ _ => rfl
      simpa using lintegral_const_on only
    | cons next rest =>
      have first := nonneg e List.mem_cons_self
      have others : ∀ x ∈ next :: rest, 0 ≤ x.2 := fun x member =>
        nonneg x (List.mem_cons_of_mem _ member)
      have tail := ih (by simp) others
      have total : 0 ≤ ((next :: rest).map Prod.snd).sum :=
        List.sum_nonneg fun x member => by
          obtain ⟨y, inside, rfl⟩ := List.mem_map.mp member
          exact others y inside
      generalize sum_eq : ((next :: rest).map Prod.snd).sum = sum at tail total
      have shifted : ∫⁻ u in Set.Ico e.2 (e.2 + sum), f (choose default (e :: next :: rest) u) =
          ∫⁻ u in Set.Ico 0 sum, f (choose default (next :: rest) u) := by
        have below : ∀ u ∈ Set.Ico e.2 (e.2 + sum),
            f (choose default (e :: next :: rest) u) = f (choose default (next :: rest) (u - e.2)) := by
          intro u inside
          rw [choose_cons, if_neg (by linarith [inside.1])]
        have preimage : Set.preimage (fun u => u - e.2) (Set.Ico 0 sum) = Set.Ico e.2 (e.2 + sum) := by
          rw [Set.preimage_sub_const_Ico, zero_add, add_comm]
        rw [setLIntegral_congr_fun measurableSet_Ico below, ← preimage]
        exact (measurePreserving_sub_right volume e.2).setLIntegral_comp_preimage_emb
          (MeasurableEquiv.subRight e.2).measurableEmbedding
          (fun u => f (choose default (next :: rest) u)) (Set.Ico 0 sum)
      have head : ∫⁻ u in Set.Ico 0 e.2, f (choose default (e :: next :: rest) u) =
          ENNReal.ofReal e.2 * f e.1 := by
        have same : ∀ u, 0 ≤ u → u < e.2 → f (choose default (e :: next :: rest) u) = f e.1 := by
          intro u _ below
          rw [choose_cons, if_pos (by linarith)]
        simpa using lintegral_const_on same
      rw [List.map_cons, List.sum_cons, sum_eq, lintegral_split first (by linarith), head, shifted,
        tail, List.map_cons (l := next :: rest), List.sum_cons]

end Drawing

end Gufo.Draws
