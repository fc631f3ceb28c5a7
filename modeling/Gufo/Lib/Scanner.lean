import Mathlib.Algebra.BigOperators.Group.List.Basic
import Mathlib.Algebra.Order.Ring.Int

/-!
# Scanning an input that arrives in pieces

A scanner takes some elements from the front of what it has, or waits for more. When what it
settles on part of the input is what it settles on all of it, the scan does not depend on how
the input was cut.
-/

namespace Gufo.Scanner

variable {α β : Type}

/-- From whether the input ends here, and the input: how much to take and what it stands for,
or none to wait. -/
abbrev Next (α β : Type) := Bool → List α → Option (Nat × β)

/-- Takes from the front until the scanner waits, at most `fuel` times. -/
def scanFrom (next : Next α β) (final : Bool) : Nat → List α → List (Nat × β) × List α
  | 0, input => ([], input)
  | fuel + 1, input =>
    match next final input with
    | none => ([], input)
    | some (count, item) =>
      let (items, rest) := scanFrom next final fuel (input.drop count)
      ((count, item) :: items, rest)

/-- Every round takes an element, so the length is fuel enough. -/
def scan (next : Next α β) (final : Bool) (input : List α) : List (Nat × β) × List α :=
  scanFrom next final input.length input

/-- The pieces one after another, each behind what was kept of the ones before. -/
def feed (next : Next α β) (kept : List α) : List (List α) → List (Nat × β) × List α
  | [] => ([], kept)
  | piece :: rest =>
    let (items, left) := scan next false (kept ++ piece)
    let (more, last) := feed next left rest
    (items ++ more, last)

/-- What is settled on part of the input stays, and nothing waits at its end. -/
structure Steady (next : Next α β) : Prop where
  takes : ∀ {final input count item}, next final input = some (count, item) →
    0 < count ∧ count ≤ input.length
  settled : ∀ {final input more r}, next false input = some r → next final (input ++ more) = some r
  ends : ∀ {input}, next true input = none → input = []

variable {next : Next α β}

/-- The items and what is left, one round at a time. -/
inductive Scans (next : Next α β) (final : Bool) : List α → List (Nat × β) → List α → Prop
  | wait {input} : next final input = none → Scans next final input [] input
  | take {input count item items rest} : next final input = some (count, item) →
      Scans next final (input.drop count) items rest →
      Scans next final input ((count, item) :: items) rest

theorem Steady.nil (steady : Steady next) (final : Bool) : next final [] = none := by
  cases here : next final [] with
  | none => rfl
  | some r =>
    have := steady.takes here
    simp only [List.length_nil] at this
    omega

theorem scanFrom_scans (steady : Steady next) {final : Bool} {fuel : Nat} {input : List α}
    (enough : input.length ≤ fuel) :
    Scans next final input (scanFrom next final fuel input).1
      (scanFrom next final fuel input).2 := by
  induction fuel generalizing input with
  | zero =>
    obtain rfl := List.length_eq_zero_iff.mp (Nat.le_zero.mp enough)
    exact .wait (steady.nil final)
  | succ fuel ih =>
    unfold scanFrom
    cases here : next final input with
    | none => exact .wait here
    | some r =>
      have := steady.takes here
      exact .take here (ih (by rw [List.length_drop]; omega))

theorem scan_scans (steady : Steady next) (final : Bool) (input : List α) :
    Scans next final input (scan next final input).1 (scan next final input).2 :=
  scanFrom_scans steady (Nat.le_refl _)

section
variable {final : Bool} {input rest : List α} {items : List (Nat × β)}

theorem Scans.unique (h : Scans next final input items rest) {items' : List (Nat × β)}
    {rest' : List α} (h' : Scans next final input items' rest') :
    items' = items ∧ rest' = rest := by
  induction h generalizing items' rest' with
  | wait none =>
    cases h' with
    | wait => exact ⟨rfl, rfl⟩
    | take some => rw [none] at some; cases some
  | take some _ ih =>
    cases h' with
    | wait none => rw [none] at some; cases some
    | take some' tail =>
      rw [some] at some'
      cases some'
      obtain ⟨rfl, rfl⟩ := ih tail
      exact ⟨rfl, rfl⟩

theorem Scans.eq (steady : Steady next) (h : Scans next final input items rest) :
    scan next final input = (items, rest) := by
  obtain ⟨first, second⟩ := h.unique (scan_scans steady final input)
  exact Prod.ext first second

theorem Scans.waits (h : Scans next final input items rest) : next final rest = none := by
  induction h with
  | wait none => exact none
  | take _ _ ih => exact ih

/-- What the items took and what is left make up the input. -/
theorem Scans.counts (steady : Steady next) (h : Scans next final input items rest) :
    (items.map Prod.fst).sum + rest.length = input.length := by
  induction h with
  | wait => simp
  | take some _ ih =>
    have := steady.takes some
    rw [List.length_drop] at ih
    rw [List.map_cons, List.sum_cons]
    omega

/-- A scan of the front goes on with what it left. -/
theorem Scans.append (steady : Steady next) (h : Scans next false input items rest)
    {more left : List α} {items' : List (Nat × β)}
    (tail : Scans next final (rest ++ more) items' left) :
    Scans next final (input ++ more) (items ++ items') left := by
  induction h with
  | wait => exact tail
  | take some _ ih =>
    refine .take (steady.settled some) ?_
    rw [List.drop_append_of_le_length (steady.takes some).2]
    exact ih tail

end

theorem scan_append (steady : Steady next) (final : Bool) (input more : List α) :
    scan next final (input ++ more) =
      ((scan next false input).1 ++ (scan next final ((scan next false input).2 ++ more)).1,
        (scan next final ((scan next false input).2 ++ more)).2) :=
  ((scan_scans steady false input).append steady
    (scan_scans steady final ((scan next false input).2 ++ more))).eq steady

/-- At the end of the input nothing is left. -/
theorem scan_ends (steady : Steady next) (input : List α) : (scan next true input).2 = [] :=
  steady.ends (scan_scans steady true input).waits

/-- Feeding the pieces is scanning them together. -/
theorem feed_eq (steady : Steady next) {kept : List α} (waits : next false kept = none)
    (pieces : List (List α)) :
    feed next kept pieces = scan next false (kept ++ pieces.flatten) := by
  induction pieces generalizing kept with
  | nil =>
    rw [List.flatten_nil, List.append_nil]
    exact ((Scans.wait waits).eq steady).symm
  | cons piece rest ih =>
    have whole := scan_append steady false (kept ++ piece) rest.flatten
    rw [List.flatten_cons, ← List.append_assoc, whole]
    simp [feed, ih (scan_scans steady false (kept ++ piece)).waits]

theorem feed_final (steady : Steady next) (pieces : List (List α)) (last : List α) :
    (feed next [] pieces).1 ++ (scan next true ((feed next [] pieces).2 ++ last)).1 =
      (scan next true (pieces.flatten ++ last)).1 := by
  rw [feed_eq steady (steady.nil false), List.nil_append, scan_append steady true pieces.flatten]

end Gufo.Scanner
