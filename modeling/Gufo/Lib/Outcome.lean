import Mathlib.Data.List.Forall2

/-!
# Computations that return or throw

When a computation in `Except` returns: a bind, a traversal and a check, each read
off its parts. The messages of the failures do not matter here.
-/

namespace Gufo.Outcome

variable {ε α β γ : Type} {f : α → Except ε β}

theorem bind_eq_ok {x : Except ε α} {b : β} :
    x >>= f = .ok b ↔ ∃ a, x = .ok a ∧ f a = .ok b := by
  cases x <;> simp [bind, Except.bind]

theorem map_eq_ok {x : Except ε α} {f : α → β} {b : β} :
    f <$> x = .ok b ↔ ∃ a, x = .ok a ∧ f a = b := by
  cases x <;> simp [Functor.map, Except.map]

theorem ok_bind {a : α} : (Except.ok a >>= f) = f a := rfl

theorem error_bind {e : ε} : (Except.error e >>= f) = .error e := rfl

@[simp]
theorem pure_eq_ok {a b : α} : (pure a : Except ε α) = .ok b ↔ a = b := by
  simp [pure, Except.pure]

@[simp]
theorem throw_ne_ok {e : ε} {a : α} : (throw e : Except ε α) ≠ .ok a := by
  simp [throw, throwThe, MonadExceptOf.throw]

@[simp]
theorem ofExcept_eq (x : Except ε α) : (MonadExcept.ofExcept x : Except ε α) = x := by
  cases x <;> rfl

variable {l : List α} {r : List β}

theorem mapM_eq_ok :
    l.mapM f = .ok r ↔ List.Forall₂ (fun a b => f a = .ok b) l r := by
  induction l generalizing r with
  | nil => cases r <;> simp [pure, Except.pure]
  | cons a l ih =>
    simp only [List.mapM_cons, bind_eq_ok, pure_eq_ok, ih, List.forall₂_cons_left_iff]
    constructor
    · rintro ⟨b, first, rest, tail, rfl⟩
      exact ⟨b, rest, first, tail, rfl⟩
    · rintro ⟨b, rest, first, tail, rfl⟩
      exact ⟨b, first, rest, tail, rfl⟩

theorem option_mapM_eq_some {f : α → Option β} :
    l.mapM f = some r ↔ List.Forall₂ (fun a b => f a = some b) l r := by
  induction l generalizing r with
  | nil => cases r <;> simp
  | cons a l ih =>
    simp only [List.mapM_cons, Option.bind_eq_bind, Option.bind_eq_some_iff, Option.pure_def,
      Option.some.injEq, ih, List.forall₂_cons_left_iff]
    constructor
    · rintro ⟨b, first, rest, tail, rfl⟩
      exact ⟨b, rest, first, tail, rfl⟩
    · rintro ⟨b, rest, first, tail, rfl⟩
      exact ⟨b, first, rest, tail, rfl⟩

theorem forM_eq_ok {f : α → Except ε Unit} :
    forM l f = .ok ⟨⟩ ↔ ∀ a ∈ l, f a = .ok ⟨⟩ := by
  induction l with
  | nil => simp [pure, Except.pure]
  | cons a l ih =>
    simp only [List.forM_cons, bind_eq_ok, ih, List.mem_cons, forall_eq_or_imp]
    constructor
    · rintro ⟨_, first, rest⟩
      exact ⟨first, rest⟩
    · rintro ⟨first, rest⟩
      exact ⟨_, first, rest⟩

variable {R : α → β → Prop}

theorem exists_left_of_mem (h : List.Forall₂ R l r)
    {b : β} (member : b ∈ r) : ∃ a ∈ l, R a b := by
  induction h with
  | nil => cases member
  | cons first _ ih =>
    cases member with
    | head => exact ⟨_, List.mem_cons_self, first⟩
    | tail _ member =>
      obtain ⟨a, inside, related⟩ := ih member
      exact ⟨a, List.mem_cons_of_mem _ inside, related⟩

theorem exists_right_of_mem (h : List.Forall₂ R l r)
    {a : α} (member : a ∈ l) : ∃ b, b ∈ r ∧ R a b := by
  obtain ⟨b, inside, related⟩ := exists_left_of_mem h.flip member
  exact ⟨b, inside, related⟩

/-- Every element of a list has its partner. -/
theorem exists_forall₂ (h : ∀ a ∈ l, ∃ b, R a b) :
    ∃ r, List.Forall₂ R l r := by
  induction l with
  | nil => exact ⟨[], .nil⟩
  | cons a l ih =>
    obtain ⟨b, first⟩ := h a List.mem_cons_self
    obtain ⟨r, rest⟩ := ih fun c inside => h c (List.mem_cons_of_mem _ inside)
    exact ⟨b :: r, .cons first rest⟩

/-- A traversal of two lists side by side, one step after the other. -/
theorem forall₂_comp {S : β → γ → Prop} {r : List γ} :
    (∃ k, List.Forall₂ R l k ∧ List.Forall₂ S k r) ↔
      List.Forall₂ (fun a c => ∃ b, R a b ∧ S b c) l r := by
  induction l generalizing r with
  | nil => simp
  | cons a l ih =>
    simp only [List.forall₂_cons_left_iff, ← ih]
    constructor
    · rintro ⟨_, ⟨b, k, first, tail, rfl⟩, rest⟩
      obtain ⟨c, t, second, more, rfl⟩ := List.forall₂_cons_left_iff.mp rest
      exact ⟨c, t, ⟨b, first, second⟩, ⟨k, tail, more⟩, rfl⟩
    · rintro ⟨c, t, ⟨b, first, second⟩, ⟨k, tail, more⟩, rfl⟩
      exact ⟨b :: k, ⟨b, k, first, tail, rfl⟩, .cons second more⟩

end Gufo.Outcome
