import Gufo.Regex.CanFinish

/-!
# How far an automaton looks

An accepting state is never further away than there are states, so a maximum beyond
that is no maximum.
-/

namespace Gufo.Regex
open Gufo.Distance

/-- The state has a number that the automaton knows. -/
def Impl.Knows (r : Impl) (state : Option Nat) : Prop :=
  ∀ s, state = some s → s < r.states.length

theorem distance_lt {rows : List Row} {v d : Nat} (h : distances rows v = some d) :
    d < rows.length := by
  have levels := distances_searching.levels (accepts_of_distance h) h
  have all : Finset.range (d + 1) ⊆
      (Finset.range rows.length).image fun u => (distances rows u).getD 0 := by
    intro k mem
    obtain ⟨u, here⟩ := levels k (Nat.lt_succ_iff.mp (Finset.mem_range.mp mem))
    exact Finset.mem_image.mpr
      ⟨u, Finset.mem_range.mpr (accepts_lt (accepts_of_distance here)), by rw [here]; rfl⟩
  have few := (Finset.card_le_card all).trans Finset.card_image_le
  rw [Finset.card_range, Finset.card_range] at few
  omega

section
variable {E : Type} [DecidableEq E] {x : Expressions E} {longest : Nat} {r : Impl}

theorem knows_advance (valid : x.Valid) (compiled : compile x longest = .ok r)
    (state : Option Nat) (cp : Nat) : r.Knows (r.Advance state cp) := by
  obtain ⟨rows, wf, rfl⟩ := compile_rows compiled
  have part : Letters (alphabet x.classes) :=
    alphabet_letters (fun s mem => (valid s mem).1) fun s mem => (valid s mem).2
  intro w step
  cases state with
  | none => cases step
  | some v =>
    obtain ⟨row, found, _, s, mem, _⟩ := (advance_finish part).mp step
    obtain ⟨i, _, atRow⟩ := mem_zip_iff.mp mem
    rw [finish_length]
    exact wf.inside row (List.mem_of_getElem? found) w (List.mem_of_getElem? atRow)

/-- If anything is accepted, then something shorter than the number of states. -/
theorem spells_shorter (valid : x.Valid) (compiled : compile x longest = .ok r)
    {state : Option Nat} {word : List Nat} (spells : Spells r state word) :
    ∃ word', word'.length < kMaxStates ∧ Spells r state word' := by
  obtain ⟨rows, wf, rfl⟩ := compile_rows compiled
  have part : Letters (alphabet x.classes) :=
    alphabet_letters (fun s mem => (valid s mem).1) fun s mem => (valid s mem).2
  cases state with
  | none => exact absurd spells spells_none
  | some v =>
    obtain ⟨d, found, _⟩ := distance_of_accepts ((accepts_iff part wf).mpr ⟨word, rfl, spells⟩)
    obtain ⟨word', length, spells'⟩ := (accepts_iff part wf).mp (accepts_of_distance found)
    have := distance_lt found
    have := wf.few
    exact ⟨word', by omega, spells'⟩

/-- A maximum that leaves room for all states beyond the minimum is none. -/
theorem canFinish_unbounded (valid : x.Valid) (compiled : compile x longest = .ok r)
    {state : Option Nat} (small : r.Knows state) {minimum maximum : Nat}
    (room : minimum + kMaxStates ≤ maximum) : r.CanFinish state minimum maximum = true ↔
      ∃ word, minimum ≤ word.length ∧ Spells r state word := by
  rw [canFinish_spells valid compiled small]
  constructor
  · rintro ⟨word, low, _, spells⟩
    exact ⟨word, low, spells⟩
  · rintro ⟨word, low, spells⟩
    -- the beginning of length `minimum`, and then the nearest way
    have later : Spells r ((word.take minimum).foldl r.Advance state) (word.drop minimum) := by
      refine ⟨fun cp mem => spells.scalars cp (List.mem_of_mem_drop mem), ?_⟩
      rw [← List.foldl_append, List.take_append_drop]
      exact spells.accepted
    obtain ⟨word', short, spells'⟩ := spells_shorter valid compiled later
    have length : (word.take minimum).length = minimum := by simpa using low
    refine ⟨word.take minimum ++ word', by simp [length], ?_, ?_, ?_⟩
    · rw [List.length_append, length]
      omega
    · exact List.forall_mem_append.mpr
        ⟨fun cp mem => spells.scalars cp (List.mem_of_mem_take mem), spells'.scalars⟩
    · rw [List.foldl_append]
      exact spells'.accepted

theorem knows_start {minimum maximum : Nat}
    (finishes : r.CanFinish (some 0) minimum maximum = true) : r.Knows (some 0) := by
  intro s same
  cases same
  by_contra out
  rw [Impl.CanFinish, Impl.distanceAt, List.getElem?_eq_none (Nat.not_lt.mp out)] at finishes
  split at finishes <;> cases finishes

end

/-! ## Everything -/

/-- The automaton of no pattern. -/
def anything : Impl :=
  finish [[(0, 0xd7ff), (0xe000, 0x10ffff)]] [(true, [some 1]), (true, [some 1])]

theorem compile_unconstrained : compile unconstrained (2 ^ 32 - 1) = .ok anything := rfl

theorem advance_anything {cp v : Nat} (scalar : Scalar cp) (known : v < 2) :
    anything.Advance (some v) cp = some 1 := by
  have part : Letters [[(0, 0xd7ff), (0xe000, 0x10ffff)]] :=
    alphabet_letters (fun s mem => (unconstrained_valid s mem).1)
      fun s mem => (unconstrained_valid s mem).2
  have inside : CharSet.contains [(0, 0xd7ff), (0xe000, 0x10ffff)] cp = true := by
    rw [CharSet.contains_iff]
    rcases scalar with low | ⟨high, top⟩
    · exact ⟨_, List.mem_cons_self, by omega, by omega⟩
    · exact ⟨_, List.mem_cons_of_mem _ List.mem_cons_self, by omega, by omega⟩
  refine (advance_finish part).mpr ⟨(true, [some 1]), ?_, by decide, _, by simp, inside⟩
  have cases : v = 0 ∨ v = 1 := by omega
  rcases cases with rfl | rfl <;> rfl

theorem anything_accepts {word : List Nat} (scalars : ∀ cp ∈ word, Scalar cp) {v : Nat}
    (known : v < 2) : anything.Accepting (word.foldl anything.Advance (some v)) = true := by
  induction word generalizing v with
  | nil =>
    have cases : v = 0 ∨ v = 1 := by omega
    rcases cases with rfl | rfl <;> rfl
  | cons cp word ih =>
    obtain ⟨scalar, scalars⟩ := List.forall_mem_cons.mp scalars
    rw [List.foldl_cons, advance_anything scalar known]
    exact ih scalars (by omega)

end Gufo.Regex
