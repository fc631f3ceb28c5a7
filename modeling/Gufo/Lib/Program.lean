/-!
# Programs that change a state and may throw

A program is an `EStateM`: what it changed before a throw stays changed. A
`Triple` states both ways a program can end, so an invariant that survives every
throw is one triple. The rules follow the way a program is built, one for each
construct; a reader who has another program of this kind needs only this file.
-/

namespace Gufo.Program

section
variable {ε σ α β : Type}

/-- Started in `P`, the program returns in `Q` or throws in `E`. -/
def Triple (P : σ → Prop) (m : EStateM ε σ α) (Q : α → σ → Prop) (E : ε → σ → Prop) : Prop :=
  ∀ s, P s → match m s with
    | .ok a t => Q a t
    | .error e t => E e t

/-- `I` holds again however the program ends. -/
abbrev Keeps (I : σ → Prop) (m : EStateM ε σ α) : Prop :=
  Triple I m (fun _ => I) (fun _ => I)

/-- A check that throws before anything after it runs. -/
def reject (c : Prop) [Decidable c] (e : ε) : EStateM ε σ PUnit :=
  if c then throw e else pure ⟨⟩

variable {E : ε → σ → Prop} {P : σ → Prop} {Q : α → σ → Prop}

theorem triple_pure {a : α}
    (h : ∀ s, P s → Q a s) : Triple P (pure a : EStateM ε σ α) Q E := h

theorem triple_throw {e : ε}
    (h : ∀ s, P s → E e s) : Triple P (throw e : EStateM ε σ α) Q E := h

theorem triple_set {Q : PUnit → σ → Prop} {t : σ}
    (h : ∀ s, P s → Q ⟨⟩ t) : Triple P (set t : EStateM ε σ PUnit) Q E := h

theorem triple_modify {Q : PUnit → σ → Prop} {f : σ → σ}
    (h : ∀ s, P s → Q ⟨⟩ (f s)) : Triple P (modify f : EStateM ε σ PUnit) Q E := h

variable {m : EStateM ε σ α}

theorem triple_bind {R : α → σ → Prop} {Q : β → σ → Prop}
    {f : α → EStateM ε σ β}
    (hm : Triple P m R E) (hf : ∀ a, Triple (R a) (f a) Q E) : Triple P (m >>= f) Q E := by
  intro s hs
  have first := hm s hs
  simp only [bind, EStateM.bind]
  cases hr : m s with
  | ok a t =>
    rw [hr] at first
    exact hf a t first
  | error e t =>
    rw [hr] at first
    exact first

/-- Reading the state hands its value, and the fact that it is the state, to the rest. -/
theorem triple_get_bind {Q : β → σ → Prop}
    {f : σ → EStateM ε σ β} (h : ∀ s, P s → Triple (fun t => t = s) (f s) Q E) :
    Triple P (get >>= f) Q E :=
  fun s hs => h s hs s rfl

theorem triple_consequence {P P' : σ → Prop} {Q Q' : α → σ → Prop} {E E' : ε → σ → Prop}
    (h : Triple P' m Q' E') (hp : ∀ s, P s → P' s)
    (hq : ∀ a s, Q' a s → Q a s) (he : ∀ e s, E' e s → E e s) : Triple P m Q E := by
  intro s hs
  have run := h s (hp s hs)
  cases hr : m s with
  | ok a t => rw [hr] at run; exact hq a t run
  | error e t => rw [hr] at run; exact he e t run

/-- Two triples about one program are one. -/
theorem triple_and {P P' : σ → Prop} {Q Q' : α → σ → Prop} {E E' : ε → σ → Prop}
    (h : Triple P m Q E) (k : Triple P' m Q' E') :
    Triple (fun s => P s ∧ P' s) m (fun a s => Q a s ∧ Q' a s) (fun e s => E e s ∧ E' e s) := by
  intro s hs
  have left := h s hs.1
  have right := k s hs.2
  cases hr : m s with
  | ok a t => rw [hr] at left right; exact ⟨left, right⟩
  | error e t => rw [hr] at left right; exact ⟨left, right⟩

/-- A triple may be shown separately for each state it can start in. -/
theorem triple_of_start
    (h : ∀ s, P s → Triple (fun t => t = s) m Q E) : Triple P m Q E :=
  fun s hs => h s hs s rfl

theorem triple_ite {c : Prop} [Decidable c]
    {m n : EStateM ε σ α} (ht : c → Triple P m Q E) (he : ¬c → Triple P n Q E) :
    Triple P (if c then m else n) Q E := by
  by_cases hc : c
  · simpa [hc] using ht hc
  · simpa [hc] using he hc

theorem triple_discard {Q E'}
    (h : Triple P m (fun _ => Q) E') : Triple P (discard m) (fun _ => Q) E' := by
  intro s hs
  have run := h s hs
  simp only [discard, Functor.mapConst, EStateM.map, Function.comp_apply, Function.const]
  cases hr : m s with
  | ok a t => rw [hr] at run; exact run
  | error e t => rw [hr] at run; exact run

/-- A check that fails has changed nothing; past it, its condition is known to be false. -/
theorem triple_reject {Q : β → σ → Prop} {c : Prop} [Decidable c]
    {e : ε} {f : PUnit → EStateM ε σ β} (rejected : c → ∀ s, P s → E e s)
    (passed : ¬c → Triple P (f ⟨⟩) Q E) : Triple P (reject c e >>= f) Q E := by
  unfold reject
  by_cases hc : c
  · rw [if_pos hc]
    exact rejected hc
  · rw [if_neg hc]
    exact passed hc

/-- A loop over a list, with an invariant indexed by what is still to be visited. -/
theorem triple_forM {f : α → EStateM ε σ PUnit} {I : List α → σ → Prop}
    (h : ∀ x rest, Triple (I (x :: rest)) (f x) (fun _ => I rest) E) :
    ∀ l : List α, Triple (I l) (l.forM f) (fun _ => I []) E := by
  intro l
  induction l with
  | nil => exact triple_pure fun _ hs => hs
  | cons x rest ih =>
    exact triple_bind (h x rest) fun _ => ih

variable {s t : σ}

/-- What a run that returned says, read from a triple. -/
theorem Triple.ok
    (h : Triple P m Q E) {a : α} (hs : P s) (run : m s = .ok a t) : Q a t := by
  have := h s hs
  rwa [run] at this

/-- What a run that threw says, read from a triple. -/
theorem Triple.error
    (h : Triple P m Q E) {e : ε} (hs : P s) (run : m s = .error e t) : E e t := by
  have := h s hs
  rwa [run] at this

/-! ## Runs that return

What a program that has returned did is what its parts did; none of them has thrown.
-/

theorem bind_ok {f : α → EStateM ε σ β} {b : β} :
    (m >>= f) s = .ok b t ↔ ∃ a u, m s = .ok a u ∧ f a u = .ok b t := by
  simp only [bind, EStateM.bind]
  cases m s with
  | ok a u =>
    constructor
    · exact fun run => ⟨a, u, rfl, run⟩
    · rintro ⟨_, _, eq, run⟩
      cases eq
      exact run
  | error e u => simp

theorem pure_ok {a b : α} :
    (pure a : EStateM ε σ α) s = .ok b t ↔ a = b ∧ s = t := by
  simp [pure, EStateM.pure]

theorem get_ok {s t u : σ} : (get : EStateM ε σ σ) s = .ok t u ↔ t = s ∧ u = s := by
  show EStateM.Result.ok s s = .ok t u ↔ t = s ∧ u = s
  simp [eq_comm]

theorem modify_ok {f : σ → σ} {u : PUnit} :
    (modify f : EStateM ε σ PUnit) s = .ok u t ↔ t = f s := by
  show EStateM.Result.ok PUnit.unit (f s) = .ok u t ↔ t = f s
  simp [eq_comm]

theorem set_ok {s t t' : σ} {u : PUnit} :
    (set t : EStateM ε σ PUnit) s = .ok u t' ↔ t' = t := by
  show EStateM.Result.ok PUnit.unit t = .ok u t' ↔ t' = t
  simp [eq_comm]

theorem throw_ok {e : ε} {a : α} : (throw e : EStateM ε σ α) s ≠ .ok a t := by
  intro run
  cases run

theorem reject_ok {c : Prop} [Decidable c] {e : ε} {u : PUnit} :
    (reject c e : EStateM ε σ PUnit) s = .ok u t ↔ ¬c ∧ t = s := by
  unfold reject
  by_cases hc : c
  · simp [hc, throw_ok]
  · simp [hc, pure_ok, eq_comm]

/-- The state a run ends in, whether it returned or threw. -/
def final (m : EStateM ε σ α) (s : σ) : σ :=
  match m s with
  | .ok _ t => t
  | .error _ t => t

theorem Keeps.final {I : σ → Prop} (h : Keeps I m) {s : σ} (hs : I s) :
    I (final m s) := by
  have run := h s hs
  unfold Program.final
  cases hr : m s with
  | ok a t => rw [hr] at run; exact run
  | error e t => rw [hr] at run; exact run

end

end Gufo.Program
