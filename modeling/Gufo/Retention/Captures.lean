import Gufo.Disk.Manifest
import Mathlib.Data.List.Sort

/-!
# Planning captures

Before a prefill the retention policy chooses the boundaries at which it captures
a checkpoint. Three are required. Up to four lie on a grid of 2048 tokens, moved
back to the end of a prefill pass when one is near, and one is learned from what
the prompt has in common with an earlier one.

`Rows` is a 64-bit number in the source. Every value computed here is at most the
prompt's length, so nothing wraps; `gridPosition_lt` says so of the one product.
-/

namespace Gufo.Retention
open Gufo.Disk

structure CaptureCandidate where
  boundary : Nat
  purpose : CheckpointPurpose := .prompt
  required : Bool := false
  splitsPass : Bool := false
  deriving DecidableEq

structure CapturePlanRequest where
  prompt : Nat := 0
  reused : Nat := 0
  stable : Nat := 0
  common : Nat := 0
  grid : Bool := true
  learn : Bool := true
  alreadyRetained : List Nat := []
  gridLimit : Nat := 4

namespace CapturePlanRequest

/-- The check of the adapter's plan: where its last pass ends. -/
def walkPasses (r : CapturePlanRequest) : Nat → List Nat → Except String Nat
  | previous, [] => .ok previous
  | previous, pass :: rest =>
    if pass ≤ previous ∨ r.prompt < pass then .error "invalid adapter prefill plan"
    else r.walkPasses pass rest

/-- A candidate that is planned once more. -/
def again (c : CaptureCandidate) (purpose : CheckpointPurpose) (required : Bool) :
    CaptureCandidate :=
  { c with
    required := c.required || required
    purpose := if purpose = .learned ∧ (c.required || required) = false then purpose
      else c.purpose }

/-- `find` among the candidates, and `push_back` where it finds none. -/
def place (r : CapturePlanRequest) (passes : List Nat) (boundary : Nat)
    (purpose : CheckpointPurpose) (required : Bool) :
    List CaptureCandidate → List CaptureCandidate
  | [] =>
    [{ boundary, purpose, required
       splitsPass := decide (r.reused < boundary) && !passes.contains boundary }]
  | c :: rest =>
    if c.boundary = boundary then again c purpose required :: rest
    else c :: r.place passes boundary purpose required rest

def add (r : CapturePlanRequest) (passes : List Nat) (boundary : Nat)
    (purpose : CheckpointPurpose) (required : Bool) (result : List CaptureCandidate) :
    List CaptureCandidate :=
  if boundary = 0 ∨ boundary < r.reused ∨ boundary ∈ r.alreadyRetained then result
  else r.place passes boundary purpose required result

def gridCount (r : CapturePlanRequest) : Nat := min ((r.prompt - 1) / 2048) 4

def gridPosition (r : CapturePlanRequest) (i : Nat) : Nat :=
  let grid := (r.prompt - 1) / 2048
  let count := r.gridCount
  (grid / count * i + grid % count * i / count) * 2048

/-- `std::prev(upper_bound(passes, position))`, where there is one. -/
def precedingPass (passes : List Nat) (position : Nat) : Option Nat :=
  (passes.takeWhile (· ≤ position)).getLast?

/-- A grid point moves back to a pass end within 128 tokens. -/
def snap (r : CapturePlanRequest) (passes : List Nat) (position : Nat) : Nat :=
  match precedingPass passes position with
  | some pass =>
    if position - pass ≤ 128 ∧ r.reused < pass ∧ 2048 ≤ pass - r.reused then pass else position
  | none => position

/-- The loop over the grid points; `planned` counts those that were eligible. -/
def addGrid (r : CapturePlanRequest) (passes : List Nat) :
    List Nat → Nat → List CaptureCandidate → List CaptureCandidate
  | [], _, result => result
  | i :: rest, planned, result =>
    if planned < r.gridLimit then
      let position := r.snap passes (r.gridPosition i)
      if r.reused < position ∧ 2048 ≤ position - r.reused ∧ 128 < r.prompt - position then
        r.addGrid passes rest (planned + 1) (r.add passes position .grid false result)
      else r.addGrid passes rest planned result
    else result

/-- The learned point moves back to the deepest planned capture within 64 tokens. -/
def coalesce (r : CapturePlanRequest) (result : List CaptureCandidate) (position : Nat) : Nat :=
  let planned := result.foldl (fun planned c =>
    if r.reused < c.boundary ∧ c.boundary ≤ position then max planned c.boundary else planned) 0
  if planned ≠ 0 ∧ position - planned ≤ 64 then planned else position

def addLearned (r : CapturePlanRequest) (passes : List Nat) (result : List CaptureCandidate) :
    List CaptureCandidate :=
  if r.learn ∧ r.reused ≤ r.common ∧ 512 ≤ r.common - r.reused ∧ 64 < r.prompt - r.common then
    r.add passes (r.coalesce result r.common) .learned false result
  else result

def addRequired (r : CapturePlanRequest) (passes : List Nat) : List CaptureCandidate :=
  r.add passes r.prompt .prompt true
    (r.add passes r.stable .prompt true (r.add passes r.reused .prompt true []))

end CapturePlanRequest

open CapturePlanRequest

/-- `PlanCaptures`, given what the adapter's `PlanPrefill` answered. -/
def planCaptures (passes : List Nat) (r : CapturePlanRequest) :
    Except String (List CaptureCandidate) :=
  if r.prompt < r.reused ∨ r.prompt < r.stable ∨ r.prompt < r.common then
    .error "capture boundary outside prompt"
  else
    match r.walkPasses r.reused passes with
    | .error reason => .error reason
    | .ok last =>
      if last ≠ r.prompt then .error "incomplete adapter prefill plan"
      else
        let required := r.addRequired passes
        let gridded := if r.grid ∧ r.prompt ≠ 0 then
            r.addGrid passes (List.range' 1 r.gridCount) 0 required
          else required
        .ok ((r.addLearned passes gridded).insertionSort (fun c d => c.boundary ≤ d.boundary))

/-- A grid is planned around the stable prefix, and keeps clear of the prompt's end. -/
example : (planCaptures [10000] { prompt := 10000, stable := 1500 }).toOption.map
    (·.map fun c => (c.boundary, c.splitsPass)) =
      some [(1500, true), (2048, true), (4096, true), (6144, true), (8192, true),
        (10000, false)] := by decide

/-! ## The plan of the adapter -/

/-- A prefill plan that is strictly increasing from `reused` to `prompt`. -/
structure CapturePlanRequest.Passes (r : CapturePlanRequest) (passes : List Nat) : Prop where
  increasing : passes.Pairwise (· < ·)
  past : ∀ pass ∈ passes, r.reused < pass
  inside : ∀ pass ∈ passes, pass ≤ r.prompt
  complete : passes.getLast?.getD r.reused = r.prompt

namespace CapturePlanRequest
variable {r : CapturePlanRequest} {passes : List Nat} {result : List CaptureCandidate}
  {boundary : Nat} {purpose : CheckpointPurpose} {required : Bool}

theorem walkPasses_ok {previous : Nat} (increasing : passes.Pairwise (· < ·))
    (past : ∀ pass ∈ passes, previous < pass) (inside : ∀ pass ∈ passes, pass ≤ r.prompt) :
    r.walkPasses previous passes = .ok (passes.getLast?.getD previous) := by
  induction passes generalizing previous with
  | nil => rfl
  | cons pass rest ih =>
    have first : ¬(pass ≤ previous ∨ r.prompt < pass) := by
      have := past pass List.mem_cons_self
      have := inside pass List.mem_cons_self
      omega
    rw [walkPasses, if_neg first, ih (List.pairwise_cons.mp increasing).2
      (List.pairwise_cons.mp increasing).1 fun p mem => inside p (List.mem_cons_of_mem _ mem)]
    cases rest with
    | nil => rfl
    | cons next rest => simp [List.getLast?_cons]

/-! ## Grid positions -/

/-- The product is at most the last grid point before the prompt's end. -/
theorem gridPosition_lt {i : Nat} (most : i ≤ r.gridCount) (some : 0 < r.gridCount) :
    r.gridPosition i < r.prompt := by
  unfold gridPosition
  dsimp only
  have bound : (r.prompt - 1) / 2048 / r.gridCount * i
      + (r.prompt - 1) / 2048 % r.gridCount * i / r.gridCount ≤ (r.prompt - 1) / 2048 := calc
    _ ≤ _ := Nat.add_le_add (Nat.mul_le_mul_left _ most)
      (Nat.div_le_div_right (Nat.mul_le_mul_left _ most))
    _ = _ := by rw [Nat.mul_div_cancel _ some, Nat.div_add_mod']
  have room : 0 < (r.prompt - 1) / 2048 := by
    unfold gridCount at some
    omega
  omega

/-! ## What one more candidate changes -/

/-- A planned candidate, whichever step planned it. -/
structure Fits (r : CapturePlanRequest) (passes : List Nat) (c : CaptureCandidate) : Prop where
  nonzero : c.boundary ≠ 0
  reused : r.reused ≤ c.boundary
  prompt : c.boundary ≤ r.prompt
  fresh : c.boundary ∉ r.alreadyRetained
  splits : c.splitsPass = true ↔ r.reused < c.boundary ∧ c.boundary ∉ passes
  purpose : c.purpose = .prompt ∧ c.required = true ∨
    (c.purpose = .grid ∨ c.purpose = .learned) ∧ c.required = false
  grid : c.purpose = .grid → r.reused + 2048 ≤ c.boundary ∧ c.boundary + 128 < r.prompt

/-- The candidates at any moment of the planning. -/
structure Planned (r : CapturePlanRequest) (passes : List Nat) (result : List CaptureCandidate) :
    Prop where
  distinct : (result.map (·.boundary)).Nodup
  fits : ∀ c ∈ result, r.Fits passes c

def tally (purpose : CheckpointPurpose) (result : List CaptureCandidate) : Nat :=
  result.countP (·.purpose = purpose)

/-- A purpose that a step may give to the candidate it adds. -/
def Suits (r : CapturePlanRequest) (boundary : Nat) (purpose : CheckpointPurpose)
    (required : Bool) : Prop :=
  purpose = .prompt ∧ required = true ∨
  purpose = .grid ∧ required = false ∧ r.reused + 2048 ≤ boundary ∧ boundary + 128 < r.prompt ∨
  purpose = .learned ∧ required = false

theorem again_fits {c : CaptureCandidate} (h : r.Fits passes c)
    (suits : r.Suits c.boundary purpose required) (first : required = true → c.required = true) :
    r.Fits passes (again c purpose required) := by
  have kept : (c.required || required) = c.required := by
    cases required with
    | false => exact Bool.or_false _
    | true => rw [first rfl]; rfl
  refine ⟨h.nonzero, h.reused, h.prompt, h.fresh, h.splits, ?_, ?_⟩
  · simp only [again, kept]
    rcases h.purpose with ⟨isPrompt, isRequired⟩ | ⟨which, optional⟩
    · exact .inl ⟨by simp [isRequired, isPrompt], isRequired⟩
    · refine .inr ⟨?_, optional⟩
      by_cases learned : purpose = .learned
      · simp [learned, optional]
      · simpa [learned] using which
  · simp only [again, kept]
    split
    · rename_i relabelled
      intro grid
      rw [relabelled.1] at grid
      exact absurd grid (by decide)
    · exact h.grid

theorem place_boundaries : (r.place passes boundary purpose required result).map (·.boundary) =
    if boundary ∈ result.map (·.boundary) then result.map (·.boundary)
    else result.map (·.boundary) ++ [boundary] := by
  induction result with
  | nil => rfl
  | cons c rest ih =>
    unfold place
    by_cases here : c.boundary = boundary
    · simp [here, again]
    · have other : boundary ≠ c.boundary := Ne.symm here
      simp only [here, if_false, List.map_cons, ih, List.mem_cons, other, false_or]
      split <;> rfl

theorem mem_place {c : CaptureCandidate}
    (mem : c ∈ r.place passes boundary purpose required result) :
    c ∈ result ∨ (∃ d ∈ result, d.boundary = boundary ∧ c = again d purpose required) ∨
      c = { boundary, purpose, required
            splitsPass := decide (r.reused < boundary) && !passes.contains boundary } := by
  induction result with
  | nil => exact .inr (.inr (List.mem_singleton.mp mem))
  | cons d rest ih =>
    unfold place at mem
    split at mem
    · rename_i here
      cases List.mem_cons.mp mem with
      | inl head => exact .inr (.inl ⟨d, List.mem_cons_self, here, head⟩)
      | inr later => exact .inl (List.mem_cons_of_mem _ later)
    · cases List.mem_cons.mp mem with
      | inl head => exact .inl (head ▸ List.mem_cons_self)
      | inr later =>
        rcases ih later with old | ⟨e, inside, same, eq⟩ | new
        · exact .inl (List.mem_cons_of_mem _ old)
        · exact .inr (.inl ⟨e, List.mem_cons_of_mem _ inside, same, eq⟩)
        · exact .inr (.inr new)

theorem add_planned (h : r.Planned passes result) (inside : boundary ≤ r.prompt)
    (suits : r.Suits boundary purpose required)
    (first : required = true → ∀ c ∈ result, c.required = true) :
    r.Planned passes (r.add passes boundary purpose required result) := by
  unfold add
  split
  · exact h
  rename_i passed
  simp only [not_or, Nat.not_lt] at passed
  constructor
  · rw [place_boundaries]
    split
    · exact h.distinct
    · rename_i fresh
      exact List.nodup_append.mpr ⟨h.distinct, List.nodup_singleton _,
        fun a old b new same => fresh (by rw [List.mem_singleton.mp new] at same; exact same ▸ old)⟩
  · intro c mem
    rcases mem_place mem with old | ⟨d, old, same, rfl⟩ | rfl
    · exact h.fits c old
    · exact again_fits (h.fits d old) (same ▸ suits) fun req => first req d old
    · refine ⟨passed.1, passed.2.1, inside, passed.2.2, by simp, ?_, ?_⟩
      · rcases suits with ⟨isPrompt, isRequired⟩ | ⟨isGrid, optional, _⟩ | ⟨isLearned, optional⟩
        · exact .inl ⟨isPrompt, isRequired⟩
        · exact .inr ⟨.inl isGrid, optional⟩
        · exact .inr ⟨.inr isLearned, optional⟩
      · intro grid
        rcases suits with ⟨isPrompt, _⟩ | ⟨_, _, far⟩ | ⟨isLearned, _⟩
        · exact absurd (isPrompt.symm.trans grid) (by decide)
        · exact far
        · exact absurd (isLearned.symm.trans grid) (by decide)

theorem tally_place (p : CheckpointPurpose) :
    tally p (r.place passes boundary purpose required result)
      ≤ tally p result + if purpose = p then 1 else 0 := by
  induction result with
  | nil =>
    by_cases same : purpose = p <;> simp [place, tally, same]
  | cons c rest ih =>
    unfold place
    split
    · simp only [tally, List.countP_cons, again]
      by_cases relabelled : purpose = .learned ∧ (c.required || required) = false
      · simp only [decide_eq_true_eq]
        split <;> omega
      · simp only [relabelled, if_false]
        omega
    · simp only [tally, List.countP_cons] at ih ⊢
      omega

theorem tally_add (p : CheckpointPurpose) :
    tally p (r.add passes boundary purpose required result)
      ≤ tally p result + if purpose = p then 1 else 0 := by
  unfold add
  split
  · exact Nat.le_add_right _ _
  · exact tally_place p

/-- A boundary that is planned as required stays so. -/
def Requires (result : List CaptureCandidate) (b : Nat) : Prop :=
  ∃ c ∈ result, c.boundary = b ∧ c.required = true

theorem requires_place {b : Nat} (h : Requires result b) :
    Requires (r.place passes boundary purpose required result) b := by
  induction result with
  | nil =>
    obtain ⟨c, mem, _⟩ := h
    cases mem
  | cons d rest ih =>
    obtain ⟨c, mem, same, isRequired⟩ := h
    unfold place
    cases List.mem_cons.mp mem with
    | inl head =>
      subst head
      split
      · exact ⟨_, List.mem_cons_self, same, by simp [again, isRequired]⟩
      · exact ⟨c, List.mem_cons_self, same, isRequired⟩
    | inr later =>
      split
      · exact ⟨c, List.mem_cons_of_mem _ later, same, isRequired⟩
      · obtain ⟨e, inside, found⟩ := ih ⟨c, later, same, isRequired⟩
        exact ⟨e, List.mem_cons_of_mem _ inside, found⟩

theorem requires_add {b : Nat} (h : Requires result b) :
    Requires (r.add passes boundary purpose required result) b := by
  unfold add
  split
  · exact h
  · exact requires_place h

theorem place_requires : Requires (r.place passes boundary purpose true result) boundary := by
  induction result with
  | nil => exact ⟨_, List.mem_cons_self, rfl, rfl⟩
  | cons c rest ih =>
    unfold place
    split
    · rename_i here
      exact ⟨_, List.mem_cons_self, here, by simp [again]⟩
    · obtain ⟨e, inside, found⟩ := ih
      exact ⟨e, List.mem_cons_of_mem _ inside, found⟩

/-- The condition under which a required boundary must be in the plan. -/
def Due (r : CapturePlanRequest) (b : Nat) : Prop :=
  b ≠ 0 ∧ r.reused ≤ b ∧ b ∉ r.alreadyRetained

theorem add_requires (due : r.Due boundary) :
    Requires (r.add passes boundary purpose true result) boundary := by
  unfold add
  rw [if_neg (by simpa [not_or, Due] using due)]
  exact place_requires

/-! ## The plan -/

theorem planned_nil : r.Planned passes [] := ⟨List.nodup_nil, by simp⟩

theorem addRequired_planned (reused : r.reused ≤ r.prompt) (stable : r.stable ≤ r.prompt) :
    r.Planned passes (r.addRequired passes) := by
  have prompt : ∀ b, r.Suits b .prompt true := fun b => .inl ⟨rfl, rfl⟩
  have all : ∀ {result : List CaptureCandidate}, (∀ c ∈ result, c.required = true) →
      ∀ b, ∀ c ∈ r.add passes b .prompt true result, c.required = true := by
    intro result before b c mem
    unfold add at mem
    split at mem
    · exact before c mem
    · rcases mem_place mem with old | ⟨d, _, _, rfl⟩ | rfl
      · exact before c old
      · simp [again]
      · rfl
  have none : ∀ c ∈ ([] : List CaptureCandidate), c.required = true := by simp
  exact add_planned
    (add_planned (add_planned planned_nil reused (prompt _) fun _ => none) stable (prompt _)
      fun _ => all none _)
    (Nat.le_refl _) (prompt _) fun _ => all (all none _) _

theorem addRequired_requires {b : Nat} (due : r.Due b)
    (which : b = r.reused ∨ b = r.stable ∨ b = r.prompt) :
    Requires (r.addRequired passes) b := by
  rcases which with rfl | rfl | rfl
  · exact requires_add (requires_add (add_requires due))
  · exact requires_add (add_requires due)
  · exact add_requires due

theorem addRequired_tally {p : CheckpointPurpose} (other : CheckpointPurpose.prompt ≠ p) :
    tally p (r.addRequired passes) = 0 := by
  have step : ∀ (result : List CaptureCandidate) b,
      tally p (r.add passes b .prompt true result) ≤ tally p result := by
    intro result b
    simpa [other] using @tally_add r passes result b .prompt true p
  exact Nat.le_zero.mp ((step _ _).trans ((step _ _).trans (step _ _)))

/-- What the steps after the required ones keep, and what a grid adds at most. -/
structure Extends (r : CapturePlanRequest) (passes : List Nat)
    (before after : List CaptureCandidate) (purpose : CheckpointPurpose) (most : Nat) : Prop where
  planned : r.Planned passes after
  requires : ∀ b, Requires before b → Requires after b
  added : ∀ p, tally p after ≤ tally p before + if purpose = p then most else 0

theorem addGrid_extends {steps : List Nat} (inside : ∀ i ∈ steps, i ≤ r.gridCount)
    (some : steps ≠ [] → 0 < r.gridCount) {planned : Nat} (h : r.Planned passes result) :
    r.Extends passes result (r.addGrid passes steps planned result) .grid
      (min steps.length (r.gridLimit - planned)) := by
  induction steps generalizing planned result with
  | nil => exact ⟨h, fun _ known => known, fun _ => Nat.le_add_right _ _⟩
  | cons i rest ih =>
    have inside' : ∀ j ∈ rest, j ≤ r.gridCount := fun j mem => inside j (List.mem_cons_of_mem _ mem)
    have some' : rest ≠ [] → 0 < r.gridCount := fun _ => some (by simp)
    unfold addGrid
    split
    · dsimp only
      split
      · have suits : r.Suits (r.snap passes (r.gridPosition i)) .grid false :=
          .inr (.inl ⟨rfl, rfl, by omega, by omega⟩)
        have next := @ih _ inside' some' (planned + 1)
          (add_planned h (by omega) suits (by simp))
        refine ⟨next.planned, fun b known => next.requires b (requires_add known), fun p => ?_⟩
        have here := @tally_add r passes result (r.snap passes (r.gridPosition i)) .grid false p
        have later := next.added p
        by_cases grid : CheckpointPurpose.grid = p
        · simp only [grid, if_true, List.length_cons] at here later ⊢
          omega
        · simp only [grid, if_false] at here later ⊢
          omega
      · have next := @ih _ inside' some' planned h
        refine ⟨next.planned, next.requires, fun p => (next.added p).trans ?_⟩
        simp only [List.length_cons]
        split <;> omega
    · exact ⟨h, fun _ known => known, fun _ => Nat.le_add_right _ _⟩

theorem coalesce_le {position : Nat} : r.coalesce result position ≤ position := by
  have bounded : ∀ (l : List CaptureCandidate) start, start ≤ position →
      l.foldl (fun planned c => if r.reused < c.boundary ∧ c.boundary ≤ position then
        max planned c.boundary else planned) start ≤ position := by
    intro l
    induction l with
    | nil => exact fun start h => h
    | cons c rest ih =>
      intro start h
      refine ih _ ?_
      dsimp only
      split
      · rename_i inside
        exact max_le h inside.2
      · exact h
  unfold coalesce
  dsimp only
  split
  · exact bounded result 0 (Nat.zero_le _)
  · exact Nat.le_refl _

theorem addLearned_extends (common : r.common ≤ r.prompt) (h : r.Planned passes result) :
    r.Extends passes result (r.addLearned passes result) .learned 1 := by
  unfold addLearned
  split
  · exact ⟨add_planned h (coalesce_le.trans common) (.inr (.inr ⟨rfl, rfl⟩)) (by simp),
      fun b known => requires_add known, tally_add⟩
  · exact ⟨h, fun _ known => known, fun _ => Nat.le_add_right _ _⟩

end CapturePlanRequest

/-- A well-formed capture plan for a request. -/
structure WellFormed (r : CapturePlanRequest) (passes : List Nat) (plan : List CaptureCandidate) :
    Prop where
  increasing : (plan.map (·.boundary)).Pairwise (· < ·)
  nonzero : ∀ c ∈ plan, c.boundary ≠ 0
  reused : ∀ c ∈ plan, r.reused ≤ c.boundary
  prompt : ∀ c ∈ plan, c.boundary ≤ r.prompt
  fresh : ∀ c ∈ plan, c.boundary ∉ r.alreadyRetained
  required : ∀ b, b = r.stable ∨ b = r.prompt ∨ b = r.reused → b ≠ 0 → r.reused ≤ b →
    b ∉ r.alreadyRetained → ∃ c ∈ plan, c.boundary = b ∧ c.required = true
  optional : ∀ c ∈ plan, c.required = false ↔ c.purpose = .grid ∨ c.purpose = .learned
  gridPoints : plan.countP (·.purpose = .grid) ≤ min 4 r.gridLimit
  gridPlace : ∀ c ∈ plan, c.purpose = .grid →
    r.reused + 2048 ≤ c.boundary ∧ c.boundary + 128 < r.prompt
  learnedPoints : plan.countP (·.purpose = .learned) ≤ 1
  splits : ∀ c ∈ plan, c.splitsPass = true ↔ r.reused < c.boundary ∧ c.boundary ∉ passes

/-- Sorting distinct boundaries leaves them strictly increasing. -/
theorem insertionSort_increasing {plan : List CaptureCandidate}
    (distinct : (plan.map (·.boundary)).Nodup) :
    ((plan.insertionSort fun c d => c.boundary ≤ d.boundary).map (·.boundary)).Pairwise
      (· < ·) := by
  have sorted := List.pairwise_insertionSort
    (fun c d : CaptureCandidate => c.boundary ≤ d.boundary) plan
  have apart : ((plan.insertionSort fun c d => c.boundary ≤ d.boundary).map (·.boundary)).Nodup :=
    ((List.perm_insertionSort _ plan).map _).nodup_iff.mpr distinct
  rw [List.pairwise_map]
  rw [List.Nodup, List.pairwise_map] at apart
  exact (sorted.and apart).imp fun h => Nat.lt_of_le_of_ne h.1 h.2

theorem planCaptures_wellFormed (r : CapturePlanRequest) (passes : List Nat)
    (plan : r.Passes passes) (reused : r.reused ≤ r.prompt) (stable : r.stable ≤ r.prompt)
    (common : r.common ≤ r.prompt) :
    ∃ result, planCaptures passes r = .ok result ∧ WellFormed r passes result := by
  have inside : ¬(r.prompt < r.reused ∨ r.prompt < r.stable ∨ r.prompt < r.common) := by omega
  unfold planCaptures
  rw [if_neg inside, walkPasses_ok plan.increasing plan.past plan.inside]
  simp only [plan.complete, ne_eq, not_true_eq_false, if_false]
  -- the three steps, each with what it adds to the one before
  have planned := @addRequired_planned r passes reused stable
  obtain ⟨gridded, grid⟩ : ∃ gridded, gridded = (if r.grid = true ∧ r.prompt ≠ 0 then
      r.addGrid passes (List.range' 1 r.gridCount) 0 (r.addRequired passes)
    else r.addRequired passes) := ⟨_, rfl⟩
  have grids : r.Extends passes (r.addRequired passes) gridded .grid (min 4 r.gridLimit) := by
    rw [grid]
    split
    · have extends_ := @addGrid_extends r passes _ (List.range' 1 r.gridCount)
        (fun i mem => by have := List.mem_range'_1.mp mem; omega)
        (fun some => Nat.pos_of_ne_zero fun none => some (by rw [none]; rfl)) 0 planned
      refine ⟨extends_.planned, extends_.requires, fun p => (extends_.added p).trans ?_⟩
      have : r.gridCount ≤ 4 := Nat.min_le_right _ _
      simp only [List.length_range']
      split <;> omega
    · exact ⟨planned, fun _ known => known, fun _ => Nat.le_add_right _ _⟩
  have learned := addLearned_extends common grids.planned
  rw [← grid]
  refine ⟨_, rfl, ?_⟩
  have perm := List.perm_insertionSort (fun c d : CaptureCandidate => c.boundary ≤ d.boundary)
    (r.addLearned passes gridded)
  have fits : ∀ c ∈ (r.addLearned passes gridded).insertionSort
      (fun c d => c.boundary ≤ d.boundary), r.Fits passes c :=
    fun c mem => learned.planned.fits c (perm.mem_iff.mp mem)
  have counted : ∀ p, ((r.addLearned passes gridded).insertionSort
      (fun c d => c.boundary ≤ d.boundary)).countP (·.purpose = p) =
        tally p (r.addLearned passes gridded) := fun p => perm.countP_eq _
  constructor
  case increasing => exact insertionSort_increasing learned.planned.distinct
  case nonzero => exact fun c mem => (fits c mem).nonzero
  case reused => exact fun c mem => (fits c mem).reused
  case prompt => exact fun c mem => (fits c mem).prompt
  case fresh => exact fun c mem => (fits c mem).fresh
  case required =>
    intro b which nonzero far fresh
    obtain ⟨c, mem, found⟩ := learned.requires b (grids.requires b
      (addRequired_requires ⟨nonzero, far, fresh⟩ (by tauto)))
    exact ⟨c, perm.mem_iff.mpr mem, found⟩
  case optional =>
    intro c mem
    rcases (fits c mem).purpose with ⟨isPrompt, isRequired⟩ | ⟨which, optional⟩
    · rw [isPrompt, isRequired]
      decide
    · exact ⟨fun _ => which, fun _ => optional⟩
  case gridPoints =>
    rw [counted]
    have before := @addRequired_tally r passes .grid (by decide)
    have middle := grids.added .grid
    have after := learned.added .grid
    rw [if_pos rfl] at middle
    rw [if_neg (by decide)] at after
    omega
  case gridPlace => exact fun c mem => (fits c mem).grid
  case learnedPoints =>
    rw [counted]
    have before := @addRequired_tally r passes .learned (by decide)
    have middle := grids.added .learned
    have after := learned.added .learned
    rw [if_neg (by decide)] at middle
    rw [if_pos rfl] at after
    omega
  case splits => exact fun c mem => (fits c mem).splits

theorem planCaptures_wellFormed_of_one_pass : ∃ result,
    planCaptures [2048, 4096, 5000] { prompt := 5000, stable := 1500 } = .ok result ∧
      WellFormed { prompt := 5000, stable := 1500 } [2048, 4096, 5000] result :=
  planCaptures_wellFormed _ _ ⟨by decide, by decide, by decide, rfl⟩ (by decide) (by decide)
    (by decide)

end Gufo.Retention
