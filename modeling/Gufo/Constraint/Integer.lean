import Gufo.Constraint.Digits
import Mathlib.Data.Rat.Floor

/-!
# Integers between bounds

`Integer` rounds the bounds of a schema inwards, moves an end that is excluded by one,
and has a choice for the integers that are not negative, one for the negative ones,
and one for `-0`. A finite double stands as the rational number that it is.
-/

namespace Gufo.Constraint
open Gufo.Decimal

/-- A finite double. -/
structure Double where
  value : ℚ
  finite : |value| < 2 ^ 1024

/-- What the schema says under the four keys. -/
structure Bounds where
  minimum : Option Double := none
  exclusiveMinimum : Option Double := none
  maximum : Option Double := none
  exclusiveMaximum : Option Double := none

/-- A double under a lower key, rounded up. -/
def raise (bound : Option Int) : Option Double → Option Int
  | none => bound
  | some number =>
    match bound with
    | none => some ⌈number.value⌉
    | some b => if b < ⌈number.value⌉ then some ⌈number.value⌉ else some b

/-- A double under an upper key, rounded down. -/
def reduce (bound : Option Int) : Option Double → Option Int
  | none => bound
  | some number =>
    match bound with
    | none => some ⌊number.value⌋
    | some b => if ⌊number.value⌋ < b then some ⌊number.value⌋ else some b

def Bounds.lowest (s : Bounds) : Option Int := raise (raise none s.minimum) s.exclusiveMinimum

def Bounds.highest (s : Bounds) : Option Int := reduce (reduce none s.maximum) s.exclusiveMaximum

/-- `std::to_chars` into a buffer of 512 characters. -/
def decimalString (n : Nat) : Compile (List Nat) :=
  if (decimal n).length ≤ 512 then pure (decimal n)
  else throw (.invalid "JSON Schema: numeric bound cannot be represented")

structure Bound where
  negative : Bool
  digits : List Nat
  deriving DecidableEq, Repr

/-- The bound moved by one, away from what is excluded. -/
def exclude (lower : Bool) (b : Bound) : Bound :=
  if b.digits = [0] then ⟨!lower, [1]⟩
  else if lower = b.negative then
    ⟨if decrement b.digits = [0] then false else b.negative, decrement b.digits⟩
  else ⟨b.negative, increment b.digits⟩

def bound (value : Option Int) (excluded : Option Double) (lower : Bool) :
    Compile (Option Bound) :=
  match value with
  | none => pure none
  | some v => do
    let result : Bound := ⟨decide (v < 0), ← decimalString v.natAbs⟩
    return some (if excluded.any fun x => x.value = (v : ℚ) then exclude lower result else result)

/-- `compare(a, b) < 0` -/
def less (a b : List Nat) : Bool :=
  if a.length ≠ b.length then decide (a.length < b.length) else !before b a

/-- Whether the low end is above the high one. -/
def crossed (low high : Bound) : Bool :=
  if low.negative ≠ high.negative then !low.negative
  else if low.negative then less low.digits high.digits else less high.digits low.digits

def notNegative (low high : Option Bound) : Compile Sequence :=
  if high.all (!·.negative) then do
    let first := ((low.filter (!·.negative)).map (·.digits)).getD [0]
    return [← unsignedInterval first (high.map (·.digits))]
  else pure []

def negative (low high : Option Bound) : Compile Sequence :=
  if low.all (·.negative) then do
    let first := ((high.filter (·.negative)).map (·.digits)).getD [1]
    return [← seq [byte 45, ← unsignedInterval first (low.map (·.digits))]]
  else pure []

def minusZero (low high : Option Bound) : Compile Sequence :=
  if (low.all fun l => l.negative || l.digits = [0]) ∧ high.all (!·.negative) then do
    return [← literal [45, 48]]
  else pure []

def integer (integer_ : Symbol) (s : Bounds) : Compile Symbol :=
  if s.lowest = none ∧ s.highest = none then pure integer_
  else do
    let low ← bound s.lowest s.exclusiveMinimum true
    let high ← bound s.highest s.exclusiveMaximum false
    if low.any fun l => high.any fun h => crossed l h then
      throw (.empty "JSON Schema: numeric bounds describe an empty interval")
    else do
      let first ← notNegative low high
      let second ← negative low high
      let third ← minusZero low high
      alt (first ++ second ++ third)

/-! ## The integers that a schema allows -/

def Bounds.Allows (s : Bounds) (n : Int) : Prop :=
  (∀ x ∈ s.minimum, x.value ≤ n) ∧ (∀ x ∈ s.exclusiveMinimum, x.value < n) ∧
    (∀ x ∈ s.maximum, (n : ℚ) ≤ x.value) ∧ ∀ x ∈ s.exclusiveMaximum, (n : ℚ) < x.value

/-- The canonical spelling of an integer. -/
def spelling (n : Int) : List Byte :=
  if n < 0 then 45 :: spell (decimal n.natAbs) else spell (decimal n.natAbs)

/-- The spellings of the integers with a property, and `-0` if zero has it. -/
def integers (p : Int → Prop) : Language Byte :=
  those fun w => (∃ n, p n ∧ w = spelling n) ∨ p 0 ∧ w = [45, 48]

/-- The ends of a schema, with what is excluded left out. -/
def Bounds.low (s : Bounds) : Option Int :=
  s.lowest.map fun v : Int =>
    if s.exclusiveMinimum.any fun x => x.value = (v : ℚ) then v + 1 else v

def Bounds.high (s : Bounds) : Option Int :=
  s.highest.map fun v : Int =>
    if s.exclusiveMaximum.any fun x => x.value = (v : ℚ) then v - 1 else v

theorem low_spec (s : Bounds) (n : Int) :
    (∀ l ∈ s.low, l ≤ n) ↔
      (∀ x ∈ s.minimum, x.value ≤ n) ∧ ∀ x ∈ s.exclusiveMinimum, x.value < n := by
  obtain ⟨minimum, exclusive, _, _⟩ := s
  unfold Bounds.low Bounds.lowest
  cases exclusive with
  | none => cases minimum <;> simp [raise, Int.ceil_le]
  | some e =>
    -- The bound is the larger of the two, and the excluded number is below or on it.
    have main : ∀ v : Int, ⌈e.value⌉ ≤ v →
        ((if e.value = v then v + 1 else v) ≤ n ↔ v ≤ n ∧ e.value < n) := by
      intro v le
      have below : e.value ≤ v := (Int.le_ceil _).trans (by exact_mod_cast le)
      split
      · rename_i same
        rw [same, Int.cast_lt]
        omega
      · rename_i differ
        have strict : e.value < v := lt_of_le_of_ne below differ
        refine ⟨fun vn => ⟨vn, strict.trans_le (by exact_mod_cast vn)⟩, And.left⟩
    cases minimum with
    | none =>
      have := main ⌈e.value⌉ le_rfl
      simp only [raise, Option.map_some, Option.mem_def, Option.some.injEq, forall_eq',
        Option.any_some, decide_eq_true_eq, this, reduceCtorEq, false_imp_iff, implies_true,
        true_and]
      exact ⟨And.right, fun lt => ⟨Int.ceil_le.mpr lt.le, lt⟩⟩
    | some m =>
      simp only [raise, Option.mem_def, Option.some.injEq, forall_eq']
      split
      · have := main ⌈e.value⌉ le_rfl
        simp only [Option.map_some, Option.some.injEq, forall_eq', Option.any_some,
          decide_eq_true_eq, this]
        refine and_congr_left fun lt => ?_
        have : ⌈e.value⌉ ≤ n := Int.ceil_le.mpr lt.le
        exact ⟨fun _ => Int.ceil_le.mp (by omega), fun _ => this⟩
      · have := main ⌈m.value⌉ (by omega)
        simp [this, Int.ceil_le]

theorem high_spec (s : Bounds) (n : Int) :
    (∀ h ∈ s.high, n ≤ h) ↔
      (∀ x ∈ s.maximum, (n : ℚ) ≤ x.value) ∧ ∀ x ∈ s.exclusiveMaximum, (n : ℚ) < x.value := by
  obtain ⟨_, _, maximum, exclusive⟩ := s
  unfold Bounds.high Bounds.highest
  cases exclusive with
  | none => cases maximum <;> simp [reduce, Int.le_floor]
  | some e =>
    have main : ∀ v : Int, v ≤ ⌊e.value⌋ →
        (n ≤ (if e.value = v then v - 1 else v) ↔ n ≤ v ∧ (n : ℚ) < e.value) := by
      intro v le
      have above : (v : ℚ) ≤ e.value := le_trans (by exact_mod_cast le) (Int.floor_le _)
      split
      · rename_i same
        rw [same, Int.cast_lt]
        omega
      · rename_i differ
        have strict : (v : ℚ) < e.value := lt_of_le_of_ne above fun same => differ same.symm
        refine ⟨fun nv => ⟨nv, lt_of_le_of_lt (by exact_mod_cast nv) strict⟩, And.left⟩
    cases maximum with
    | none =>
      have := main ⌊e.value⌋ le_rfl
      simp only [reduce, Option.map_some, Option.mem_def, Option.some.injEq, forall_eq',
        Option.any_some, decide_eq_true_eq, this, reduceCtorEq, false_imp_iff, implies_true,
        true_and]
      exact ⟨And.right, fun lt => ⟨Int.le_floor.mpr lt.le, lt⟩⟩
    | some m =>
      simp only [reduce, Option.mem_def, Option.some.injEq, forall_eq']
      split
      · have := main ⌊e.value⌋ le_rfl
        simp only [Option.map_some, Option.some.injEq, forall_eq', Option.any_some,
          decide_eq_true_eq, this]
        refine and_congr_left fun lt => ?_
        have : n ≤ ⌊e.value⌋ := Int.le_floor.mpr lt.le
        exact ⟨fun _ => Int.le_floor.mp (by omega), fun _ => this⟩
      · have := main ⌊m.value⌋ (by omega)
        simp [this, Int.le_floor]

theorem allows_iff (s : Bounds) (n : Int) :
    s.Allows n ↔ (∀ l ∈ s.low, l ≤ n) ∧ ∀ h ∈ s.high, n ≤ h := by
  rw [low_spec, high_spec, Bounds.Allows, and_assoc]

/-! ## The ends as digit strings -/

def Bound.of (v : Int) : Bound := ⟨decide (v < 0), decimal v.natAbs⟩

theorem exclude_low (v : Int) : exclude true (.of v) = .of (v + 1) := by
  unfold exclude Bound.of
  by_cases zero : v = 0
  · subst zero
    rfl
  · have some : decimal v.natAbs ≠ [0] := fun eq => zero (by have := decimal_eq_zero.mp eq; omega)
    rw [if_neg some]
    by_cases neg : v < 0
    · have below : decrement (decimal v.natAbs) = decimal (v + 1).natAbs := by
        rw [decrement_decimal (by omega)]
        congr 1
        omega
      simp only [neg, decide_true, if_true, below, Bound.mk.injEq, and_true]
      split
      · rename_i eq
        have := decimal_eq_zero.mp eq
        simp
        omega
      · rename_i ne
        have : (v + 1).natAbs ≠ 0 := fun eq => ne (by rw [eq]; rfl)
        simp
        omega
    · have above : increment (decimal v.natAbs) = decimal (v + 1).natAbs := by
        rw [increment_decimal]
        congr 1
        omega
      simp only [neg, decide_false, Bool.true_eq_false, if_false, above, Bound.mk.injEq, and_true]
      simp
      omega

theorem exclude_high (v : Int) : exclude false (.of v) = .of (v - 1) := by
  unfold exclude Bound.of
  by_cases zero : v = 0
  · subst zero
    rfl
  · have some : decimal v.natAbs ≠ [0] := fun eq => zero (by have := decimal_eq_zero.mp eq; omega)
    rw [if_neg some]
    by_cases neg : v < 0
    · have above : increment (decimal v.natAbs) = decimal (v - 1).natAbs := by
        rw [increment_decimal]
        congr 1
        omega
      simp only [neg, decide_true, Bool.false_eq_true, if_false, above, Bound.mk.injEq, and_true]
      simp
      omega
    · have below : decrement (decimal v.natAbs) = decimal (v - 1).natAbs := by
        rw [decrement_decimal (by omega)]
        congr 1
        omega
      simp only [neg, decide_false, if_true, below, Bound.mk.injEq, and_true]
      simp
      omega

theorem ceil_small (x : Double) : ⌈x.value⌉.natAbs ≤ 2 ^ 1024 := by
  obtain ⟨low, high⟩ := abs_lt.mp x.finite
  have up : ⌈x.value⌉ ≤ 2 ^ 1024 := 
    Int.ceil_le.mpr (by rw [Int.cast_pow, Int.cast_ofNat]; exact high.le)
  have down : -2 ^ 1024 ≤ ⌈x.value⌉ := by
    refine Int.le_ceil_iff.mpr ?_
    rw [Int.cast_neg, Int.cast_pow, Int.cast_ofNat]
    exact (sub_one_lt _).trans low
  zify
  exact abs_le.mpr ⟨down, up⟩

theorem floor_small (x : Double) : ⌊x.value⌋.natAbs ≤ 2 ^ 1024 := by
  obtain ⟨low, high⟩ := abs_lt.mp x.finite
  have down : -2 ^ 1024 ≤ ⌊x.value⌋ := 
    Int.le_floor.mpr (by rw [Int.cast_neg, Int.cast_pow, Int.cast_ofNat]; exact low.le)
  have up : ⌊x.value⌋ ≤ 2 ^ 1024 := by
    refine Int.le_of_lt_add_one (Int.floor_lt.mpr ?_)
    rw [Int.cast_add, Int.cast_pow, Int.cast_ofNat, Int.cast_one]
    exact high.trans (lt_add_one _)
  zify
  exact abs_le.mpr ⟨down, up⟩

theorem lowest_small (s : Bounds) : ∀ v ∈ s.lowest, v.natAbs ≤ 2 ^ 1024 := by
  unfold Bounds.lowest
  rintro v is
  cases min : s.minimum with
  | none =>
    cases exclusive : s.exclusiveMinimum with
    | none => simp [min, exclusive, raise] at is
    | some e =>
      simp only [min, exclusive, raise, Option.mem_def, Option.some.injEq] at is
      exact is ▸ ceil_small e
  | some m =>
    cases exclusive : s.exclusiveMinimum with
    | none =>
      simp only [min, exclusive, raise, Option.mem_def, Option.some.injEq] at is
      exact is ▸ ceil_small m
    | some e =>
      simp only [min, exclusive, raise, Option.mem_def] at is
      split at is <;> cases is
      · exact ceil_small e
      · exact ceil_small m

theorem highest_small (s : Bounds) : ∀ v ∈ s.highest, v.natAbs ≤ 2 ^ 1024 := by
  unfold Bounds.highest
  rintro v is
  cases max : s.maximum with
  | none =>
    cases exclusive : s.exclusiveMaximum with
    | none => simp [max, exclusive, reduce] at is
    | some e =>
      simp only [max, exclusive, reduce, Option.mem_def, Option.some.injEq] at is
      exact is ▸ floor_small e
  | some m =>
    cases exclusive : s.exclusiveMaximum with
    | none =>
      simp only [max, exclusive, reduce, Option.mem_def, Option.some.injEq] at is
      exact is ▸ floor_small m
    | some e =>
      simp only [max, exclusive, reduce, Option.mem_def] at is
      split at is <;> cases is
      · exact floor_small e
      · exact floor_small m

theorem limit : 2 ^ 1024 + 1 < 10 ^ 309 := by decide +kernel

theorem limit_one : 1 < 10 ^ 309 := lt_of_le_of_lt (Nat.le_add_left 1 _) limit

theorem low_small (s : Bounds) : ∀ v ∈ s.low, v.natAbs < 10 ^ 309 := by
  rintro v is
  obtain ⟨l, lowest, rfl⟩ := Option.map_eq_some_iff.mp is
  have small := lowest_small s l lowest
  split <;> omega

theorem high_small (s : Bounds) : ∀ v ∈ s.high, v.natAbs < 10 ^ 309 := by
  rintro v is
  obtain ⟨h, highest, rfl⟩ := Option.map_eq_some_iff.mp is
  have small := highest_small s h highest
  split <;> omega

theorem decimalString_small {n : Nat} (small : n ≤ 2 ^ 1024) :
    decimalString n = pure (decimal n) := by
  have short : (decimal n).length ≤ 309 :=
    length_decimal (by decide) (by omega)
  exact if_pos (by omega)

theorem bound_low (s : Bounds) :
    bound s.lowest s.exclusiveMinimum true = pure (s.low.map Bound.of) := by
  cases lowest : s.lowest with
  | none => simp [bound, Bounds.low, lowest]
  | some v =>
    rw [bound, decimalString_small (lowest_small s v lowest), pure_bind]
    simp only [Bounds.low, lowest, Option.map_some]
    split
    · rw [← exclude_low]
      rfl
    · rfl

theorem bound_high (s : Bounds) :
    bound s.highest s.exclusiveMaximum false = pure (s.high.map Bound.of) := by
  cases highest : s.highest with
  | none => simp [bound, Bounds.high, highest]
  | some v =>
    rw [bound, decimalString_small (highest_small s v highest), pure_bind]
    simp only [Bounds.high, highest, Option.map_some]
    split
    · rw [← exclude_high]
      rfl
    · rfl

theorem less_iff {a b : Nat} : less (decimal a) (decimal b) = true ↔ a < b := by
  have ca := canonical_decimal a
  have cb := canonical_decimal b
  unfold less
  split
  · have up : a ≤ b → (decimal a).length ≤ (decimal b).length := fun le =>
      ca.length_le cb (by simpa [value_decimal] using le)
    have down : b ≤ a → (decimal b).length ≤ (decimal a).length := fun le =>
      cb.length_le ca (by simpa [value_decimal] using le)
    simp only [decide_eq_true_eq]
    omega
  · rename_i same
    have order := before_iff (not_not.mp same).symm cb.digits ca.digits
    rw [value_decimal, value_decimal] at order
    rw [Bool.not_eq_true', ← Bool.not_eq_true, order]
    omega

theorem crossed_iff {l h : Int} : crossed (.of l) (.of h) = true ↔ h < l := by
  unfold crossed Bound.of
  by_cases nl : l < 0 <;> by_cases nh : h < 0 <;> simp [nl, nh, less_iff] <;> omega

/-! ## The three choices -/

section
variable {g : JsonConstraint}

/-- A choice may be left out; those that are there generate the words with `p`. -/
def Chosen (g : JsonConstraint) (p : List Byte → Prop) (choices : Sequence) : Prop :=
  ∃ Ls, List.Forall₂ (Denotes g) choices Ls ∧ ∀ w, (∃ L ∈ Ls, w ∈ L) ↔ p w

theorem chosen_none {p : List Byte → Prop} (none : ∀ w, ¬p w) : Chosen g p [] :=
  ⟨[], .nil, fun w => by simp [none w]⟩

theorem Chosen.append {p q : List Byte → Prop} {a b : Sequence} (first : Chosen g p a)
    (second : Chosen g q b) : Chosen g (fun w => p w ∨ q w) (a ++ b) := by
  obtain ⟨Ls, all, spec⟩ := first
  obtain ⟨Ms, all', spec'⟩ := second
  refine ⟨_, List.rel_append all all', fun w => ?_⟩
  dsimp only
  rw [← spec w, ← spec' w]
  simp [or_and_right, exists_or]

theorem Chosen.keep {h : JsonConstraint} {p : List Byte → Prop} {a : Sequence} (c : Chosen g p a)
    (closed : g.Closed) (e : Embeds {} g h) : Chosen h p a := by
  obtain ⟨Ls, all, spec⟩ := c
  exact ⟨Ls, keep_all closed e all, spec⟩

variable {low high : Option Int}

/-- `n` is not outside the ends. -/
def Inside (low high : Option Int) (n : Int) : Prop := (∀ l ∈ low, l ≤ n) ∧ ∀ h ∈ high, n ≤ h

/-- Ends that a schema can have, in their order. -/
structure Ends (low high : Option Int) : Prop where
  lowSmall : ∀ l ∈ low, l.natAbs < 10 ^ 309
  highSmall : ∀ h ∈ high, h.natAbs < 10 ^ 309
  order : ∀ l ∈ low, ∀ h ∈ high, l ≤ h

/-- Two ends of digits, as `unsignedInterval` takes them. -/
theorem adds_numerals (ready : Ready g) {first : Nat} {last : Option Nat}
    (small : first < 10 ^ 309) (few : ∀ l ∈ last, l < 10 ^ 309) (order : ∀ l ∈ last, first ≤ l) :
    Adds g (unsignedInterval (decimal first) (last.map decimal)) 8055 fun i symbol =>
      Denotes i symbol (numerals fun n => first ≤ n ∧ ∀ l ∈ last, n ≤ l) := by
  have short : ((last.map decimal).getD (decimal first)).length ≤ 309 := by
    cases last with
    | none => exact length_decimal (by decide) small
    | some l => exact length_decimal (by decide) (few l rfl)
  have canonical : ∀ ds ∈ last.map decimal, Canonical ds := by
    rintro ds is
    obtain ⟨l, -, rfl⟩ := Option.map_eq_some_iff.mp is
    exact canonical_decimal l
  have le : ∀ ds ∈ last.map decimal, value (decimal first) ≤ value ds := by
    rintro ds is
    obtain ⟨l, there, rfl⟩ := Option.map_eq_some_iff.mp is
    rw [value_decimal, value_decimal]
    exact order l there
  refine (adds_unsignedInterval ready (canonical_decimal first) canonical le short).weaken le_rfl
    fun i symbol _ holds => ⟨holds.within, holds.language.trans ?_⟩
  cases last <;> simp [value_decimal]

theorem adds_notNegative (ready : Ready g) (ends : Ends low high) :
    Adds g (notNegative (low.map Bound.of) (high.map Bound.of)) 8055 fun i => Chosen i fun w =>
      ∃ n : Nat, Inside low high n ∧ w = spell (decimal n) := by
  have first : (((low.map Bound.of).filter (!·.negative)).map (·.digits)).getD [0] =
      decimal (low.getD 0).toNat := by
    cases low with
    | none => rfl
    | some l =>
      by_cases neg : l < 0
      · have : l.toNat = 0 := by omega
        simp [Bound.of, neg, Option.filter, this, decimal]
      · have : l.toNat = l.natAbs := by omega
        simp [Bound.of, neg, Option.filter, this]
  have last : (high.map Bound.of).map (·.digits) = (high.map Int.natAbs).map decimal := by
    cases high <;> rfl
  unfold notNegative
  rw [first, last]
  split
  · rename_i some
    have nonneg : ∀ h ∈ high, 0 ≤ h := by
      rintro h rfl
      simpa [Bound.of] using some
    refine .bind (k := 0) (adds_numerals ready ?_ ?_ ?_) fun i symbol _ ready' holds =>
      .pure ready' ⟨_, .cons holds .nil, fun w => ?_⟩
    · cases low with
      | none =>
        exact limit_one.trans' (by decide)
      | some l =>
        exact lt_of_le_of_lt (by change l.toNat ≤ _; omega) (ends.lowSmall l rfl)
    · rintro l is
      obtain ⟨h, there, rfl⟩ := Option.map_eq_some_iff.mp is
      exact ends.highSmall h there
    · rintro l is
      obtain ⟨h, there, rfl⟩ := Option.map_eq_some_iff.mp is
      cases low with
      | none => simp
      | some l =>
        have := ends.order l rfl h there
        change l.toNat ≤ h.natAbs
        omega
    · simp only [List.mem_singleton, exists_eq_left, numerals, mem_those]
      refine exists_congr fun n => and_congr_left fun _ => and_congr ?_ ?_
      · cases low <;> simp
      · cases high with
        | none => simp
        | some h =>
          have := nonneg h rfl
          simp
          omega
  · rename_i none
    refine .pure ready (chosen_none fun w => ?_)
    rintro ⟨n, inside, -⟩
    cases high with
    | none => simp at none
    | some h =>
      have := inside.2 h rfl
      simp [Bound.of] at none
      omega

theorem adds_negative (ready : Ready g) (ends : Ends low high) :
    Adds g (negative (low.map Bound.of) (high.map Bound.of)) 8056 fun i => Chosen i fun w =>
      ∃ n : Nat, 0 < n ∧ Inside low high (-n) ∧ w = 45 :: spell (decimal n) := by
  have first : (((high.map Bound.of).filter (·.negative)).map (·.digits)).getD [1] =
      decimal (max 1 (-(high.getD 0)).toNat) := by
    cases high with
    | none => rfl
    | some h =>
      by_cases neg : h < 0
      · have : max 1 (-h).toNat = h.natAbs := by omega
        simp [Bound.of, neg, Option.filter, this]
      · have : max 1 (-h).toNat = 1 := by omega
        simp [Bound.of, neg, Option.filter, this]
        rfl
  have last : (low.map Bound.of).map (·.digits) = (low.map Int.natAbs).map decimal := by
    cases low <;> rfl
  unfold negative
  rw [first, last]
  split
  · rename_i some
    have below : ∀ l ∈ low, l < 0 := by
      rintro l rfl
      simpa [Bound.of] using some
    refine .bind (n := 8055) (k := 1) (adds_numerals ready ?_ ?_ ?_) fun i symbol _ ready' holds =>
      ?_
    · cases high with
      | none =>
        exact limit_one
      | some h =>
        have most : max 1 (-h).toNat ≤ max 1 h.natAbs := by omega
        exact lt_of_le_of_lt most (max_lt limit_one (ends.highSmall h rfl))
    · rintro n is
      obtain ⟨l, there, rfl⟩ := Option.map_eq_some_iff.mp is
      exact ends.lowSmall l there
    · rintro n is
      obtain ⟨l, there, rfl⟩ := Option.map_eq_some_iff.mp is
      have := below l there
      cases high with
      | none =>
        change 1 ≤ l.natAbs
        omega
      | some h =>
        have := ends.order l there h rfl
        change max 1 (-h).toNat ≤ l.natAbs
        omega
    · have both : List.Forall₂ (Denotes i) [byte 45, symbol] [{[UInt8.ofNat 45]}, _] :=
        .cons (denotes_byte ready' (by decide)) (.cons holds .nil)
      refine .bind (n := 1) (k := 0) (adds_seq ready' both) fun j symbol _ ready' holds =>
        .pure ready' ⟨_, .cons holds .nil, fun w => ?_⟩
      simp only [List.mem_singleton, exists_eq_left, List.prod_cons, List.prod_nil, mul_one,
        Language.mem_mul, numerals, mem_those]
      constructor
      · rintro ⟨_, rfl, _, ⟨n, ⟨le, ge⟩, rfl⟩, rfl⟩
        refine ⟨n, by omega, ⟨fun l is => ?_, fun h is => ?_⟩, rfl⟩
        · have := ge l.natAbs (by rw [is]; rfl)
          have := below l is
          omega
        · rw [is] at le
          simp at le
          omega
      · rintro ⟨n, pos, inside, rfl⟩
        refine ⟨_, rfl, _, ⟨n, ⟨?_, fun m is => ?_⟩, rfl⟩, rfl⟩
        · cases high with
          | none => simp; omega
          | some h =>
            have := inside.2 h rfl
            simp
            omega
        · obtain ⟨l, there, rfl⟩ := Option.map_eq_some_iff.mp is
          have := inside.1 l there
          omega
  · rename_i none
    refine .pure ready (chosen_none fun w => ?_)
    rintro ⟨n, pos, inside, -⟩
    cases low with
    | none => simp at none
    | some l =>
      have := inside.1 l rfl
      simp [Bound.of] at none
      omega

theorem adds_minusZero (ready : Ready g) :
    Adds g (minusZero (low.map Bound.of) (high.map Bound.of)) 3 fun i => Chosen i fun w =>
      Inside low high 0 ∧ w = [45, 48] := by
  have zero : ((low.map Bound.of).all fun l => l.negative || l.digits = [0]) = true ∧
      (high.map Bound.of).all (!·.negative) = true ↔ Inside low high 0 := by
    refine and_congr ?_ ?_
    · cases low with
      | none => simp
      | some l =>
        simp only [Option.map_some, Option.all_some, Bound.of, Bool.or_eq_true, decide_eq_true_eq,
          decimal_eq_zero, Option.mem_def, Option.some.injEq, forall_eq']
        omega
    · cases high <;> simp [Bound.of]
  unfold minusZero
  split
  · rename_i some
    refine .bind (n := 3) (k := 0) (@adds_literal g ready [45, 48] (by decide))
      fun i symbol _ ready' holds => .pure ready' ⟨_, .cons holds .nil, fun w => ?_⟩
    simp only [List.mem_singleton, exists_eq_left, zero.mp some, true_and]
    rfl
  · rename_i none
    exact .pure ready (chosen_none fun w h => none (zero.mpr h.1))

/-! ## The grammar of the integers -/

theorem mem_integers {p : Int → Prop} {w : List Byte} :
    w ∈ integers p ↔ ((∃ n : Nat, p n ∧ w = spell (decimal n)) ∨
      ∃ n : Nat, 0 < n ∧ p (-n) ∧ w = 45 :: spell (decimal n)) ∨ p 0 ∧ w = [45, 48] := by
  refine or_congr_left ?_
  constructor
  · rintro ⟨n, holds, rfl⟩
    unfold spelling
    split
    · rename_i neg
      exact .inr ⟨n.natAbs, by omega, by rwa [Int.ofNat_natAbs_of_nonpos neg.le, neg_neg], rfl⟩
    · exact .inl ⟨n.natAbs, by rwa [Int.natAbs_of_nonneg (by omega)], rfl⟩
  · rintro (⟨n, holds, rfl⟩ | ⟨n, pos, holds, rfl⟩)
    · exact ⟨n, holds, by rfl⟩
    · exact ⟨-n, holds, by rw [spelling, if_pos (by omega), Int.natAbs_neg]; rfl⟩

end

/-- `digits` and `positive` of the constructor, and `integer_`. -/
def integerRule : Compile Symbol := do
  let digits ← digitRange 0 9
  let positive ← alt [digit 0, ← seq [← digitRange 1 9, ← repeat_ digits]]
  seq [← optional (byte 45), positive]

/-- A compiler in the middle of its work. -/
structure Compiler where
  grammar : JsonConstraint
  integer_ : Symbol
  ready : Ready grammar
  integers : Denotes grammar integer_ (integers fun _ => True)

theorem nonempty_digits (first last : Nat) : [] ∉ bytes first last := by
  rintro ⟨_, _, _, no⟩
  cases no

theorem adds_integerRule {g : JsonConstraint} (ready : Ready g) :
    Adds g integerRule 5 fun h symbol => Denotes h symbol (integers fun _ => True) := by
  refine .bind (n := 0) (k := 5) (adds_range ready _ _) fun _ digits _ ready₁ all => ?_
  refine .bind (n := 0) (k := 5) (adds_range ready₁ _ _) fun _ first grow₁ ready₂ lead => ?_
  refine .bind (n := 1) (k := 4) (adds_repeat ready₂ (all.keep ready₁.toClosed grow₁)
    (nonempty_digits _ _)) fun i more grow₂ ready₃ star => ?_
  have pair : List.Forall₂ (Denotes i) [first, more]
      [bytes (48 + 1) (48 + 9), KStar.kstar (bytes (48 + 0) (48 + 9))] :=
    .cons (lead.keep ready₂.toClosed grow₂) (.cons star .nil)
  refine .bind (n := 1) (k := 3) (adds_seq ready₃ pair) fun j some _ ready₄ nonzero => ?_
  have both : List.Forall₂ (Denotes j) [digit 0, some] [{[UInt8.ofNat (48 + 0)]}, _] :=
    .cons (denotes_byte ready₄ (by decide)) (.cons nonzero .nil)
  refine .bind (n := 1) (k := 2) (adds_alt ready₄ both) fun _ positive _ ready₅ numeral => ?_
  refine .bind (n := 1) (k := 1) (adds_optional ready₅ (denotes_byte ready₅ (by decide)))
    fun m sign grow₆ ready₆ minus => ?_
  have parts : List.Forall₂ (Denotes m) [sign, positive] [1 + {[UInt8.ofNat 45]}, _] :=
    .cons minus (.cons (numeral.keep ready₅.toClosed grow₆) .nil)
  refine (adds_seq ready₆ parts).weaken le_rfl fun n symbol _ holds =>
    ⟨holds.within, holds.language.trans ?_⟩
  have numerals : ∀ w, (∃ L ∈ [{[UInt8.ofNat (48 + 0)]}, [bytes (48 + 1) (48 + 9),
      KStar.kstar (bytes (48 + 0) (48 + 9))].prod], w ∈ L) ↔ ∃ n, w = spell (decimal n) := by
    intro w
    rw [List.exists_mem_cons_iff, List.exists_mem_cons_iff, List.prod_cons, List.prod_singleton,
      Language.mem_mul]
    constructor
    · rintro (rfl | ⟨u, front, v, back, rfl⟩ | no)
      · exact ⟨0, rfl⟩
      · obtain ⟨d, pos, le, rfl⟩ := (@mem_digits 1 9 (by decide) u).mp front
        obtain ⟨ds, digits, rfl⟩ := mem_kstar_digits.mp back
        have canonical := canonical_cons pos (by omega) digits
        exact ⟨_, congrArg spell (canonical_iff.mp canonical)⟩
      · simp at no
    · rintro ⟨n, rfl⟩
      have canonical := canonical_decimal n
      cases eq : decimal n with
      | nil => exact absurd eq canonical.nonempty
      | cons d ds =>
        rw [eq] at canonical
        obtain ⟨lt, digits⟩ := digits_cons.mp canonical.digits
        rcases Nat.eq_zero_or_pos d with rfl | pos
        · exact .inl (by rw [canonical.zero]; rfl)
        · exact .inr (.inl ⟨_, (@mem_digits 1 9 (by decide) _).mpr ⟨d, pos, by omega, rfl⟩, _,
            mem_kstar_digits.mpr ⟨ds, digits, rfl⟩, rfl⟩)
  ext w
  rw [List.prod_cons, List.prod_singleton, mem_integers, Language.mem_mul]
  simp only [mem_those, numerals, Language.mem_add, Language.mem_one]
  constructor
  · rintro ⟨_, rfl | rfl, v, ⟨n, rfl⟩, rfl⟩
    · exact .inl (.inl ⟨n, trivial, rfl⟩)
    · rcases Nat.eq_zero_or_pos n with rfl | pos
      · exact .inr ⟨trivial, rfl⟩
      · exact .inl (.inr ⟨n, pos, trivial, rfl⟩)
  · rintro ((⟨n, -, rfl⟩ | ⟨n, pos, -, rfl⟩) | ⟨-, rfl⟩)
    · exact ⟨[], .inl rfl, _, ⟨n, rfl⟩, rfl⟩
    · exact ⟨[45], .inr rfl, _, ⟨n, rfl⟩, rfl⟩
    · exact ⟨[45], .inr rfl, _, ⟨0, rfl⟩, rfl⟩

/-- The literal bytes that a compiler starts with. -/
def literalBytes : JsonConstraint :=
  { classes := (List.range 256).map fun i => fun b : Byte => decide (b.toNat = i) }

theorem ready_literalBytes : Ready literalBytes := by
  refine ⟨⟨nofun, nofun⟩, fun b lt => ⟨_, ?_, fun _ => rfl⟩⟩
  simp [literalBytes, lt]

/-- A compiler whose constructor has come as far as `integer_`. -/
def Compiler.initial : Compiler :=
  have adds := adds_integerRule ready_literalBytes
  match ran : integerRule literalBytes with
  | .ok (integer_, grammar) =>
    ⟨grammar, integer_, by unfold Adds at adds; rw [ran] at adds; exact adds.2.1,
      by unfold Adds at adds; rw [ran] at adds; exact adds.2.2.2⟩
  | .error _ => absurd adds (by
      unfold Adds
      rw [ran]
      exact fun stopped => absurd stopped.2 (by decide))

def Compiler.integer (c : Compiler) (s : Bounds) : Except Failure (Symbol × JsonConstraint) :=
  Constraint.integer c.integer_ s c.grammar

theorem conflict_iff {low high : Option Int} :
    ((low.map Bound.of).any fun l => (high.map Bound.of).any fun h => crossed l h) = true ↔
      ∃ l ∈ low, ∃ h ∈ high, h < l := by
  cases low <;> cases high <;> simp [crossed_iff]

theorem ends_bounds (s : Bounds) (order : ¬∃ l ∈ s.low, ∃ h ∈ s.high, h < l) :
    Ends s.low s.high :=
  ⟨low_small s, high_small s, fun l isLow h isHigh =>
    Int.not_lt.mp fun lt => order ⟨l, isLow, h, isHigh, lt⟩⟩

theorem Ends.some {low high : Option Int} (ends : Ends low high) : ∃ n, Inside low high n := by
  cases low with
  | none =>
    cases high with
    | none => exact ⟨0, nofun, nofun⟩
    | some h => exact ⟨h, nofun, by simp⟩
  | some l => exact ⟨l, by simp, fun h is => ends.order l rfl h is⟩

theorem adds_choices {g : JsonConstraint} (ready : Ready g) {low high : Option Int}
    (ends : Ends low high) :
    Adds g (do
        let first ← notNegative (low.map Bound.of) (high.map Bound.of)
        let second ← negative (low.map Bound.of) (high.map Bound.of)
        let third ← minusZero (low.map Bound.of) (high.map Bound.of)
        alt (first ++ second ++ third)) 16115 fun h symbol =>
      Denotes h symbol (integers (Inside low high)) := by
  refine .bind (n := 8055) (k := 8060) (adds_notNegative ready ends) fun h a _ ready₁ one => ?_
  refine .bind (n := 8056) (k := 4) (adds_negative ready₁ ends) fun i b grow₁ ready₂ two => ?_
  refine .bind (n := 3) (k := 1) (adds_minusZero ready₂) fun j c grow₂ ready₃ three => ?_
  obtain ⟨Ls, all, spec⟩ := ((one.keep ready₁.toClosed (grow₁.trans grow₂)).append
    (two.keep ready₂.toClosed grow₂)).append three
  refine (adds_alt ready₃ all).weaken le_rfl fun k symbol _ holds =>
    ⟨holds.within, holds.language.trans ?_⟩
  ext w
  rw [mem_those, spec w, mem_integers]

/-- The symbol generates the spellings of the integers that the schema allows, and `-0`
where zero is among them. There is such an integer, or the schema is found empty; the
rule limit stops it only near the limit. -/
theorem integer_exact (c : Compiler) (s : Bounds) :
    match c.integer s with
    | .ok (symbol, g) => (∃ n, s.Allows n) ∧ language g [symbol] = integers s.Allows
    | .error (.empty _) => ∀ n, ¬s.Allows n
    | .error (.invalid reason) => reason = "JSON Schema: compiled grammar exceeds the rule limit" ∧
        kMaxRules < c.grammar.rules.length + 16115 := by
  have allows : s.Allows = Inside s.low s.high := funext fun n => propext (allows_iff s n)
  rw [allows]
  unfold Compiler.integer Constraint.integer
  by_cases open_ : s.lowest = none ∧ s.highest = none
  · rw [if_pos open_]
    have everything : Inside s.low s.high = fun _ => True := by
      funext n
      simp [Inside, Bounds.low, Bounds.high, open_.1, open_.2]
    rw [everything]
    exact ⟨⟨0, trivial⟩, c.integers.language⟩
  · rw [if_neg open_, bound_low, bound_high, pure_bind, pure_bind]
    by_cases conflict : ∃ l ∈ s.low, ∃ h ∈ s.high, h < l
    · rw [if_pos (conflict_iff.mpr conflict)]
      rintro n ⟨low, high⟩
      obtain ⟨l, isLow, h, isHigh, lt⟩ := conflict
      have := low l isLow
      have := high h isHigh
      omega
    · rw [if_neg fun is => conflict (conflict_iff.mp is)]
      have ends := ends_bounds s conflict
      have adds := adds_choices c.ready ends
      unfold Adds at adds
      split at adds
      · rename_i symbol g ran
        rw [ran]
        exact ⟨ends.some, adds.2.2.2.language⟩
      · rename_i e ran
        obtain ⟨rfl, full⟩ := adds
        rw [ran]
        exact ⟨rfl, full⟩

end Gufo.Constraint
