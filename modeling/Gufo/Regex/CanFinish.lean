import Gufo.Regex.Compiled
import Mathlib.Dynamics.PeriodicPts.Defs

/-!
# Accepting continuations

`follow` iterates one function on lists of states. Where a list comes back after
`period` turns it comes back after every multiple of it, so the turns that are left
out change nothing.
-/

namespace Gufo.Regex
open Gufo.Distance

variable {letters : List CharSet} {rows : List Row}

/-! ## Skipping whole periods -/

theorem reachable_nil (r : Impl) : r.reachable [] = [] := by
  simp [Impl.reachable]

theorem iterate_reachable_nil (r : Impl) (n : Nat) : r.reachable^[n] [] = [] :=
  Function.iterate_fixed (reachable_nil r) n

/-- A list that is back after `period` turns is back after each further period. -/
theorem iterate_skip {α : Type} {f : α → α} {x : α} {steps period : Nat} (le : period ≤ steps)
    (back : f^[steps] x = f^[steps - period] x) (k : Nat) :
    f^[steps + k * period] x = f^[steps] x := by
  have periodic : Function.IsPeriodicPt f period (f^[steps - period] x) := by
    show f^[period] (f^[steps - period] x) = _
    rw [← Function.iterate_add_apply, Nat.add_sub_cancel' le]
    exact back
  have again := (periodic.const_mul k).eq
  rw [← back, ← Function.iterate_add_apply, Nat.add_comm] at again
  exact again

/-- Where `follow` stands: after `steps` turns, with the list of `period` turns ago. -/
structure Following (r : Impl) (minimum : Nat) (x active anchor : List Nat) (steps period : Nat)
    (cycle : Bool) : Prop where
  within : steps ≤ minimum
  after : active = r.reachable^[steps] x
  live : active ≠ []
  near : cycle = false → period ≤ steps
  before : cycle = false → anchor = r.reachable^[steps - period] x

theorem follow_eq (r : Impl) {minimum fuel : Nat} {x active anchor : List Nat}
    {steps block period : Nat} {cycle : Bool}
    (h : Following r minimum x active anchor steps period cycle) (enough : minimum ≤ fuel + steps) :
    r.follow minimum fuel active anchor steps block period cycle =
      if r.reachable^[minimum] x = [] then none else some (r.reachable^[minimum] x) := by
  have finished {a : List Nat} (here : a = r.reachable^[minimum] x) (live : a ≠ []) :
      some a = if r.reachable^[minimum] x = [] then none else some (r.reachable^[minimum] x) := by
    rw [← here, if_neg live]
  induction fuel generalizing active anchor steps block period cycle with
  | zero =>
    have all : steps = minimum := by have := h.within; omega
    exact finished (all ▸ h.after) h.live
  | succ fuel ih =>
    unfold Impl.follow
    by_cases more : steps < minimum
    · rw [if_pos more]
      have step : r.reachable active = r.reachable^[steps + 1] x := by
        rw [Function.iterate_succ_apply', ← h.after]
      by_cases empty : r.reachable active = []
      · have past : r.reachable^[minimum] x = [] := by
          have split : minimum = (minimum - (steps + 1)) + (steps + 1) := by omega
          rw [split, Function.iterate_add_apply, ← step, empty, iterate_reachable_nil]
        simp [empty, past]
      · have live : (r.reachable active).isEmpty = false := by simpa using empty
        simp only [live, Bool.false_eq_true, if_false]
        cases cycle with
        | true =>
          exact ih ⟨by omega, step, empty, nofun, nofun⟩ (by omega)
        | false =>
          have near := h.near rfl
          have old : anchor = r.reachable^[steps + 1 - (period + 1)] x := by
            rw [Nat.add_sub_add_right]
            exact h.before rfl
          simp only [Bool.false_eq_true, if_false]
          split
          · rename_i back
            -- the list is back: any number of whole periods leads to it again
            have skip := @iterate_skip _ r.reachable x (steps + 1) (period + 1) (by omega)
              (by rw [← step, back, old])
            have within := Nat.div_mul_le_self (minimum - (steps + 1)) (period + 1)
            exact ih ⟨by omega, by rw [skip, ← step], empty, nofun, nofun⟩ (by omega)
          · split
            · exact ih ⟨by omega, step, empty, fun _ => Nat.zero_le _, fun _ => step⟩ (by omega)
            · exact ih ⟨by omega, step, empty, fun _ => by omega, fun _ => old⟩ (by omega)
    · rw [if_neg more]
      have all : steps = minimum := by have := h.within; omega
      exact finished (all ▸ h.after) h.live

/-! ## Which states are active -/

/-- `n` transitions lead from one state to another. -/
inductive Leads (rows : List Row) (v : Nat) : Nat → Nat → Prop
  | refl : Leads rows v 0 v
  | step {n u w : Nat} : Leads rows v n u → Edge rows u w → Leads rows v (n + 1) w

theorem Leads.accepts {v w n m : Nat} (h : Leads rows v n w) (rest : Accepts rows m w) :
    Accepts rows (m + n) v := by
  induction h generalizing m with
  | refl => exact rest
  | step _ edge ih =>
    rw [← Nat.add_assoc, Nat.add_right_comm]
    exact ih (.there edge rest)

theorem Leads.cons {u v w n : Nat} (edge : Edge rows u v) (h : Leads rows v n w) :
    Leads rows u (n + 1) w := by
  induction h with
  | refl => exact .step .refl edge
  | step _ last ih => exact .step ih last

theorem accepts_split {n m v : Nat} (h : Accepts rows (n + m) v) :
    ∃ w, Leads rows v n w ∧ Accepts rows m w := by
  induction n generalizing v with
  | zero => exact ⟨v, .refl, by rwa [Nat.zero_add] at h⟩
  | succ n ih =>
    rw [Nat.add_right_comm] at h
    cases h with
    | there edge rest =>
      obtain ⟨w, leads, accepts⟩ := ih rest
      exact ⟨w, leads.cons edge, accepts⟩

theorem mem_reachable {active : List Nat} {w : Nat} :
    w ∈ (finish letters rows).reachable active ↔
      w < rows.length ∧ distances rows w ≠ none ∧ ∃ v ∈ active, Edge rows v w := by
  simp only [Impl.reachable, finish_length, List.mem_filter, List.mem_range, List.any_eq_true,
    Bool.and_eq_true, decide_eq_true_eq, successors_finish, Option.isSome_iff_ne_none]
  constructor
  · rintro ⟨small, v, active, edge, live⟩
    rw [distanceAt_finish small] at live
    exact ⟨small, live, v, active, edge⟩
  · rintro ⟨small, live, v, active, edge⟩
    exact ⟨small, v, active, edge, by rwa [distanceAt_finish small]⟩

theorem leads_of_mem {v w n : Nat} (h : w ∈ (finish letters rows).reachable^[n] [v]) :
    Leads rows v n w := by
  induction n generalizing w with
  | zero =>
    rw [List.mem_singleton.mp h]
    exact .refl
  | succ n ih =>
    rw [Function.iterate_succ_apply'] at h
    obtain ⟨_, _, u, active, edge⟩ := mem_reachable.mp h
    exact .step (ih active) edge

theorem mem_of_leads {v w n m : Nat} (h : Leads rows v n w) (rest : Accepts rows m w) :
    w ∈ (finish letters rows).reachable^[n] [v] := by
  induction h generalizing m with
  | refl => exact List.mem_singleton_self v
  | step _ edge ih =>
    obtain ⟨d, live, _⟩ := distance_of_accepts rest
    rw [Function.iterate_succ_apply']
    exact mem_reachable.mpr ⟨accepts_lt rest, by rw [live]; simp, _, ih (.there edge rest), edge⟩

theorem follow_start (r : Impl) (v minimum : Nat) :
    r.follow minimum minimum [v] [v] 0 1 0 false =
      if r.reachable^[minimum] [v] = [] then none else some (r.reachable^[minimum] [v]) :=
  follow_eq r ⟨Nat.zero_le _, rfl, by simp, fun _ => Nat.le_refl _, fun _ => rfl⟩ (Nat.le_refl _)

theorem distanceAt_some {v d : Nat} (h : (finish letters rows).distanceAt v = some d) :
    distances rows v = some d := by
  unfold Impl.distanceAt at h
  rw [finish_state] at h
  cases found : rows[v]? with
  | none => simp [found] at h
  | some row => simpa [found] using h

/-- What `CanFinish` looks for among the states that are active after `minimum` turns. -/
theorem active_iff {v minimum maximum : Nat} (order : minimum ≤ maximum) :
    (((finish letters rows).reachable^[minimum] [v]).any fun current =>
        ((finish letters rows).distanceAt current).any fun d => decide (d ≤ maximum - minimum))
          = true ↔
      ∃ n, minimum ≤ n ∧ n ≤ maximum ∧ Accepts rows n v := by
  simp only [List.any_eq_true, Option.any_eq_true, decide_eq_true_eq]
  constructor
  · rintro ⟨w, mem, d, live, le⟩
    have accepts := accepts_of_distance (distanceAt_some live)
    exact ⟨d + minimum, by omega, by omega, (leads_of_mem mem).accepts accepts⟩
  · rintro ⟨n, low, high, accepts⟩
    have split : minimum + (n - minimum) = n := by omega
    obtain ⟨w, leads, rest⟩ := accepts_split (split ▸ accepts)
    obtain ⟨d, live, le⟩ := distance_of_accepts rest
    refine ⟨w, mem_of_leads leads rest, d, ?_, by omega⟩
    rw [distanceAt_finish (accepts_lt rest), live]

theorem canFinish_some {v minimum maximum : Nat} (small : v < rows.length) :
    (finish letters rows).CanFinish (some v) minimum maximum = true ↔
      ∃ n, minimum ≤ n ∧ n ≤ maximum ∧ Accepts rows n v := by
  simp only [Impl.CanFinish, distanceAt_finish small]
  by_cases order : maximum < minimum
  · rw [if_pos order]
    simp only [Bool.false_eq_true, false_iff]
    omega
  rw [if_neg order]
  cases found : distances rows v with
  | none =>
    simp only [Bool.false_eq_true, false_iff]
    rintro ⟨n, _, _, accepts⟩
    obtain ⟨d, live, _⟩ := distance_of_accepts accepts
    rw [found] at live
    cases live
  | some d =>
    dsimp only
    split
    · simp only [Bool.false_eq_true, false_iff]
      rintro ⟨n, _, high, accepts⟩
      obtain ⟨e, live, le⟩ := distance_of_accepts accepts
      rw [found] at live
      cases live
      omega
    · split
      · rename_i near enough
        exact iff_of_true rfl ⟨d, enough, by omega, accepts_of_distance found⟩
      · rw [follow_start, ← @active_iff letters rows v _ _ (Nat.not_lt.mp order)]
        by_cases empty : (finish letters rows).reachable^[minimum] [v] = []
        · rw [if_pos empty, empty]
          rfl
        · rw [if_neg empty]

/-! ## Every compiled automaton -/

theorem compile_rows {E : Type} [DecidableEq E] {x : Expressions E} {maximum : Nat} {r : Impl}
    (compiled : compile x maximum = .ok r) :
    ∃ rows, Rows (alphabet x.classes) rows ∧ r = finish (alphabet x.classes) rows := by
  simp only [compile] at compiled
  split at compiled
  · cases compiled
  rename_i t interned
  split at compiled
  · cases compiled
  rename_i rows explored
  cases compiled
  obtain ⟨_, _, few⟩ := intern_ok interned (Nat.zero_le _)
  exact ⟨rows, explore_ok explored few rfl (Nat.zero_le _) (by simp) (by simp), rfl⟩

theorem mem_zip_prune {row : Row} {s : CharSet} {w : Nat} :
    (s, some w) ∈ letters.zip (row.2.map (prune (distances rows))) ↔
      (s, some w) ∈ letters.zip row.2 ∧ distances rows w ≠ none := by
  simp only [mem_zip_iff, List.getElem?_map, Option.map_eq_some_iff, prune_eq_some]
  constructor
  · rintro ⟨i, atLetter, t, atRow, rfl, live⟩
    exact ⟨⟨i, atLetter, atRow⟩, live⟩
  · rintro ⟨⟨i, atLetter, atRow⟩, live⟩
    exact ⟨i, atLetter, _, atRow, rfl, live⟩

theorem canAdvance_finish (part : Letters letters) {v first last : Nat} (small : v < rows.length)
    (point : last < 2 ^ 31) (minimum maximum : Nat) :
    (finish letters rows).CanAdvance (some v) first last minimum maximum = true ↔
      ∃ cp, Scalar cp ∧ first ≤ cp ∧ cp ≤ last ∧
        (finish letters rows).CanFinish ((finish letters rows).Advance (some v) cp) minimum
          maximum = true := by
  have found : rows[v]? = some rows[v] := List.getElem?_eq_getElem small
  simp only [Impl.CanAdvance, finish_state, found, Option.map_some]
  by_cases order : last < first
  · rw [if_pos order]
    simp only [Bool.false_eq_true, false_iff]
    omega
  rw [if_neg order]
  simp only [List.any_eq_true, Bool.and_eq_true, Prod.exists]
  constructor
  · rintro ⟨s, t, mem, ⟨live, overlap⟩, finishes⟩
    obtain ⟨w, rfl⟩ := Option.isSome_iff_exists.mp live
    obtain ⟨atRow, live⟩ := mem_zip_prune.mp mem
    have inLetters := (List.of_mem_zip atRow).1
    obtain ⟨cp, low, high, inS⟩ := (CharSet.containsSome_iff (part.ordered s inLetters)
      (Nat.not_lt.mp order) point).mp overlap
    have step := (advance_finish part).mpr ⟨rows[v], found, live, s, atRow, inS⟩
    exact ⟨cp, part.scalar s inLetters cp inS, low, high, by rw [step]; exact finishes⟩
  · rintro ⟨cp, _, low, high, finishes⟩
    cases step : (finish letters rows).Advance (some v) cp with
    | none => rw [step] at finishes; cases finishes
    | some w =>
      obtain ⟨row, atV, live, s, atRow, inS⟩ := (advance_finish part).mp step
      rw [found] at atV
      cases atV
      have inLetters := (List.of_mem_zip atRow).1
      have overlap := (CharSet.containsSome_iff (part.ordered s inLetters)
        (Nat.not_lt.mp order) point).mpr ⟨cp, low, high, inS⟩
      exact ⟨s, some w, mem_zip_prune.mpr ⟨atRow, live⟩, ⟨rfl, overlap⟩, step ▸ finishes⟩

/-- The classes of the expressions, as ICU keeps them. -/
def Expressions.Valid {E : Type} (x : Expressions E) : Prop :=
  ∀ s ∈ x.classes, s.Valid ∧ ∀ r ∈ s, r.1 ≤ r.2

section
variable {E : Type} [DecidableEq E] {x : Expressions E} {longest : Nat} {r : Impl}

theorem canFinish_spells (valid : x.Valid) (compiled : compile x longest = .ok r)
    {state : Option Nat} (small : ∀ s, state = some s → s < r.states.length)
    {minimum maximum : Nat} : r.CanFinish state minimum maximum = true ↔
      ∃ word, minimum ≤ word.length ∧ word.length ≤ maximum ∧ Spells r state word := by
  obtain ⟨rows, wf, rfl⟩ := compile_rows compiled
  have part : Letters (alphabet x.classes) :=
    alphabet_letters (fun s mem => (valid s mem).1) fun s mem => (valid s mem).2
  cases state with
  | none =>
    simp only [Impl.CanFinish, Bool.false_eq_true, false_iff]
    rintro ⟨word, _, _, spells⟩
    exact spells_none spells
  | some v =>
    rw [canFinish_some (by simpa using small v rfl)]
    constructor
    · rintro ⟨n, low, high, accepts⟩
      obtain ⟨word, rfl, spells⟩ := (accepts_iff part wf).mp accepts
      exact ⟨word, low, high, spells⟩
    · rintro ⟨word, low, high, spells⟩
      exact ⟨word.length, low, high, (accepts_iff part wf).mpr ⟨word, rfl, spells⟩⟩

theorem canAdvance_spells (valid : x.Valid) (compiled : compile x longest = .ok r)
    {state : Option Nat} (small : ∀ s, state = some s → s < r.states.length)
    {minimum maximum first last : Nat} (point : last < 2 ^ 31) :
    r.CanAdvance state first last minimum maximum = true ↔
      ∃ cp, Scalar cp ∧ first ≤ cp ∧ cp ≤ last ∧
        r.CanFinish (r.Advance state cp) minimum maximum = true := by
  obtain ⟨rows, wf, rfl⟩ := compile_rows compiled
  have part : Letters (alphabet x.classes) :=
    alphabet_letters (fun s mem => (valid s mem).1) fun s mem => (valid s mem).2
  cases state with
  | none => simp [Impl.CanAdvance, Impl.Advance, Impl.CanFinish]
  | some v =>
    exact canAdvance_finish part (by simpa using small v rfl) point minimum maximum

end

/-- `CanFinish` and `CanAdvance` of a compiled regex say what its automaton spells. -/
theorem canFinish_spec {E : Type} [DecidableEq E] (x : Expressions E) (valid : x.Valid)
    (longest : Nat) (r : Impl) (compiled : compile x longest = .ok r) (state : Option Nat)
    (small : ∀ s, state = some s → s < r.states.length) (minimum maximum : Nat) :
    (r.CanFinish state minimum maximum = true ↔
      ∃ word, minimum ≤ word.length ∧ word.length ≤ maximum ∧ Spells r state word) ∧
    ∀ first last, last < 2 ^ 31 →
      (r.CanAdvance state first last minimum maximum = true ↔
        ∃ cp, Scalar cp ∧ first ≤ cp ∧ cp ≤ last ∧
          r.CanFinish (r.Advance state cp) minimum maximum = true) :=
  ⟨canFinish_spells valid compiled small,
    fun _ _ point => canAdvance_spells valid compiled small point⟩

/-- The expressions of no pattern at all: the root is `all`, its own derivative. -/
def unconstrained : Expressions Nat where
  root := 4
  empty := 0
  wordBoundaries := false
  classes := [[(0, 0xd7ff), (0xe000, 0x10ffff)]]
  nullable id _ _ := decide (id = 4)
  derive id _ _ _ := .ok (if id = 4 then 4 else 0)

theorem unconstrained_valid : unconstrained.Valid := by
  unfold Expressions.Valid unconstrained CharSet.Valid
  decide

theorem unconstrained_compiled : ∃ r, compile unconstrained (2 ^ 32 - 1) = .ok r ∧
    r.states.length = 2 := ⟨_, rfl, rfl⟩

theorem canFinish_spec_unconstrained : ∃ r, compile unconstrained (2 ^ 32 - 1) = .ok r ∧
    (r.CanFinish (some 0) 3 7 = true ↔
      ∃ word, 3 ≤ word.length ∧ word.length ≤ 7 ∧ Spells r (some 0) word) ∧
    ∀ first last, last < 2 ^ 31 →
      (r.CanAdvance (some 0) first last 3 7 = true ↔
        ∃ cp, Scalar cp ∧ first ≤ cp ∧ cp ≤ last ∧
          r.CanFinish (r.Advance (some 0) cp) 3 7 = true) := by
  obtain ⟨r, compiled, two⟩ := unconstrained_compiled
  refine ⟨r, compiled,
    canFinish_spec unconstrained unconstrained_valid _ r compiled (some 0) ?_ 3 7⟩
  intro s eq
  cases eq
  omega

/-- Two states that follow each other: only even lengths are accepted from the first. -/
example : (finish [[(97, 97)]] [(true, [some 1]), (false, [some 0])]).CanFinish (some 0) 41 41 =
    false := by decide

end Gufo.Regex
