import Mathlib.Logic.Function.Iterate

/-!
# Open addressing

A key is looked for along its probe sequence, up to the first place that is empty or holds it.
When every key that is held is found that way, a key put into the place where its own search
ends is found as well, and no other one is lost. Nothing is ever taken out.
-/

namespace Gufo.Probing

variable {K : Type}

/-- A search for the key ends here. -/
def Stops (empty : K) (held : Nat → K) (key : K) (i : Nat) : Prop :=
  held i = empty ∨ held i = key

instance [DecidableEq K] (empty : K) (held : Nat → K) (key : K) (i : Nat) :
    Decidable (Stops empty held key i) :=
  inferInstanceAs (Decidable (_ ∨ _))

/-- The place where the search for a key from `i` on ends, after at most `fuel` steps. -/
def probe [DecidableEq K] (empty : K) (next : Nat → Nat) (held : Nat → K) (key : K) :
    Nat → Nat → Nat
  | 0, i => i
  | fuel + 1, i =>
    if Stops empty held key i then i else probe empty next held key fuel (next i)

/-- The search for a key from `i` on ends at `j`. -/
def Ends (empty : K) (next : Nat → Nat) (held : Nat → K) (key : K) (i j : Nat) : Prop :=
  ∃ n, next^[n] i = j ∧ Stops empty held key j ∧ ∀ m < n, ¬Stops empty held key (next^[m] i)

/-- Every key that is held is found where it is. -/
def Found (empty : K) (next : Nat → Nat) (slot : K → Nat) (held : Nat → K) : Prop :=
  ∀ j, held j ≠ empty → Ends empty next held (held j) (slot (held j)) j

section
variable {empty : K} {next : Nat → Nat} {slot : K → Nat} {held : Nat → K} {key : K} {i j : Nat}

theorem Ends.stops (ends : Ends empty next held key i j) : Stops empty held key j := by
  obtain ⟨_, _, stops, _⟩ := ends
  exact stops

theorem Ends.unique {j' : Nat} (ends : Ends empty next held key i j)
    (ends' : Ends empty next held key i j') : j = j' := by
  obtain ⟨n, rfl, stops, passed⟩ := ends
  obtain ⟨n', rfl, stops', passed'⟩ := ends'
  cases Nat.lt_trichotomy n n' with
  | inl lt => exact absurd stops (passed' n lt)
  | inr ge =>
    cases ge with
    | inl eq => rw [eq]
    | inr gt => exact absurd stops' (passed n' gt)

theorem probe_ends [DecidableEq K] {fuel : Nat}
    (somewhere : ∃ n ≤ fuel, Stops empty held key (next^[n] i)) :
    Ends empty next held key i (probe empty next held key fuel i) := by
  induction fuel generalizing i with
  | zero =>
    obtain ⟨n, none, stops⟩ := somewhere
    cases Nat.le_zero.mp none
    exact ⟨0, rfl, stops, fun m lt => absurd lt (Nat.not_lt_zero m)⟩
  | succ fuel ih =>
    unfold probe
    by_cases here : Stops empty held key i
    · rw [if_pos here]
      exact ⟨0, rfl, here, fun m lt => absurd lt (Nat.not_lt_zero m)⟩
    · rw [if_neg here]
      obtain ⟨n, le, stops⟩ := somewhere
      cases n with
      | zero => exact absurd stops here
      | succ n =>
        obtain ⟨n', ends, stops', passed⟩ := ih ⟨n, Nat.le_of_succ_le_succ le, stops⟩
        refine ⟨n' + 1, ends, stops', fun m lt => ?_⟩
        cases m with
        | zero => exact here
        | succ m => exact passed m (Nat.lt_of_succ_lt_succ lt)

/-- A search that passes no empty place is one for the key as well, when the key is nowhere. -/
theorem Ends.of_absent (ends : Ends empty next held empty i j) (absent : ∀ j, held j ≠ key) :
    Ends empty next held key i j := by
  obtain ⟨n, last, stops, passed⟩ := ends
  refine ⟨n, last, .inl (stops.elim id id), fun m lt => ?_⟩
  rintro (none | here)
  · exact passed m lt (.inl none)
  · exact absent _ here

/-- A key that is held is where its search ends. -/
theorem Found.here (found : Found empty next slot held) (holds : held j = key)
    (proper : key ≠ empty) : Ends empty next held key (slot key) j := by
  subst holds
  exact found j proper

theorem Found.injective (found : Found empty next slot held) {j' : Nat} (same : held j = held j')
    (proper : held j ≠ empty) : j = j' :=
  (found.here rfl proper).unique (found.here same.symm proper)

/-- A search that ends at an empty place: the key is nowhere. -/
theorem Found.absent (found : Found empty next slot held) (proper : key ≠ empty)
    (ends : Ends empty next held key (slot key) j) (free : held j = empty) (j' : Nat) :
    held j' ≠ key := by
  intro holds
  rw [ends.unique (found.here holds proper), holds] at free
  exact proper free

/-- A key put where its search ends. -/
theorem Found.put (found : Found empty next slot held)
    (ends : Ends empty next held key (slot key) j) (free : held j = empty) :
    Found empty next slot (Function.update held j key) := by
  have other : ∀ {k i}, ¬Stops empty held k i → ¬Stops empty (Function.update held j key) k i ∨
      i = j ∧ k = key := by
    intro k i goesOn
    by_cases at_ : i = j
    · subst at_
      exact absurd (.inl free) goesOn
    · left
      unfold Stops
      rwa [Function.update_of_ne at_]
  intro i stays
  by_cases at_ : i = j
  · subst at_
    rw [Function.update_self]
    obtain ⟨n, last, _, passed⟩ := ends
    refine ⟨n, last, .inr (Function.update_self ..), fun m lt => ?_⟩
    cases other (passed m lt) with
    | inl goesOn => exact goesOn
    | inr back => exact absurd (.inl (back.1 ▸ free)) (passed m lt)
  · rw [Function.update_of_ne at_] at stays ⊢
    obtain ⟨n, last, _, passed⟩ := found i stays
    refine ⟨n, last, .inr (Function.update_of_ne at_ ..), fun m lt => ?_⟩
    cases other (passed m lt) with
    | inl goesOn => exact goesOn
    | inr back => exact absurd (.inl (back.1 ▸ free)) (passed m lt)

end

end Gufo.Probing
