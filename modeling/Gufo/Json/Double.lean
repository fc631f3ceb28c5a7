import Gufo.Lib.Decimal
import Mathlib.Data.Fintype.Lattice
import Mathlib.Data.Prod.Lex

/-!
# Doubles and their spellings

The finite doubles, the number tokens of JSON, and what the standard library promises about the
two.
-/

namespace Gufo.Json.Octets

abbrev Byte := UInt8

/-- A finite double. It stands for the significand times two to the exponent, in units of the
smallest double above zero. -/
structure Double where
  negative : Bool
  significand : Nat
  exponent : Nat
  small : significand < 2 ^ 53
  normal : exponent = 0 ∨ 2 ^ 52 ≤ significand
  bounded : exponent ≤ 2045

namespace Double

/-- One, in units. -/
def one : Nat := 2 ^ 1074

def mag (x : Double) : Nat := x.significand * 2 ^ x.exponent

theorem mag_lt (x : Double) : x.mag < 2 ^ 53 * 2 ^ x.exponent :=
  Nat.mul_lt_mul_of_pos_right x.small (Nat.two_pow_pos _)

theorem exponent_le {x y : Double} (same : x.mag = y.mag) : x.exponent ≤ y.exponent := by
  by_contra more
  have high := y.mag_lt
  have normal := x.normal.resolve_left (by omega)
  have low : 2 ^ 52 * 2 ^ x.exponent ≤ x.mag := Nat.mul_le_mul_right _ normal
  have step : 2 ^ y.exponent * 2 ≤ 2 ^ x.exponent := by
    rw [← pow_succ]
    exact Nat.pow_le_pow_right (by decide) (by omega)
  omega

/-- A double is its sign and its magnitude. -/
theorem ext_mag {x y : Double} (sign : x.negative = y.negative) (same : x.mag = y.mag) :
    x = y := by
  have exponent := Nat.le_antisymm (exponent_le same) (exponent_le same.symm)
  have significand : x.significand = y.significand := by
    unfold mag at same
    rw [exponent] at same
    exact Nat.eq_of_mul_eq_mul_right (Nat.two_pow_pos _) same
  cases x
  subst sign exponent significand
  rfl

instance : Finite Double := by
  refine @Finite.of_injective Double (Bool × Fin (2 ^ 53) × Fin 2046) _
    (fun x => (x.negative, ⟨x.significand, x.small⟩, ⟨x.exponent, Nat.lt_succ_of_le x.bounded⟩))
    fun x y same => ?_
  simp only [Prod.mk.injEq, Fin.mk.injEq] at same
  obtain ⟨sign, significand, exponent⟩ := same
  exact ext_mag sign (by unfold mag; rw [significand, exponent])

end Double

/-! ## Tokens -/

def isDigit (c : Byte) : Bool := decide (48 ≤ c.toNat) && decide (c.toNat ≤ 57)

/-- `.` -/
def point : Byte := 46
/-- `-` -/
def minus : Byte := 45

/-- The exponent of a token: `e` or `E`, a sign or none, and digits. -/
structure Power where
  mark : Byte
  sign : List Byte
  digits : List Byte
deriving DecidableEq

/-- The parts of a number token. A fraction without digits has no point either. -/
structure Token where
  negative : Bool
  whole : List Byte
  fraction : List Byte
  power : Option Power
deriving DecidableEq

def Digits (ds : List Byte) : Prop := ∀ d ∈ ds, isDigit d = true

structure Power.WellFormed (p : Power) : Prop where
  mark : p.mark = 101 ∨ p.mark = 69
  sign : p.sign = [] ∨ p.sign = [43] ∨ p.sign = [45]
  nonempty : p.digits ≠ []
  digits : Digits p.digits

/-- `number = [ minus ] int [ frac ] [ exp ]` -/
structure Token.WellFormed (t : Token) : Prop where
  nonempty : t.whole ≠ []
  whole : Digits t.whole
  leading : t.whole.head? = some 48 → t.whole = [48]
  fraction : Digits t.fraction
  power : ∀ p ∈ t.power, p.WellFormed

def Power.spelling (p : Power) : List Byte := p.mark :: (p.sign ++ p.digits)

namespace Token

def spelling (t : Token) : List Byte :=
  (if t.negative then [minus] else []) ++ t.whole ++
    (if t.fraction = [] then [] else point :: t.fraction) ++ (t.power.elim [] Power.spelling)

/-- The digits as numbers. -/
def values (ds : List Byte) : List Nat := ds.map fun d => d.toNat - 48

def powerOf (t : Token) : Int :=
  t.power.elim 0 fun p =>
    if p.sign = [minus] then -(Decimal.value (values p.digits) : Int)
    else Decimal.value (values p.digits)

/-- The number without its sign, in units of the smallest double. -/
def magnitude (t : Token) : ℚ :=
  (Decimal.value (values (t.whole ++ t.fraction)) : ℚ) *
    (10 : ℚ) ^ (t.powerOf - t.fraction.length) * (Double.one : ℚ)

end Token

/-! ## Rounding -/

/-- How far the double is from a number. -/
def distance (q : ℚ) (x : Double) : ℚ := |(x.mag : ℚ) - q|

/-- No double is nearer, and of two that are as near the one with an even significand counts. -/
def Nearest (q : ℚ) (x : Double) : Prop := ∀ y : Double,
  distance q x < distance q y ∨
    distance q x = distance q y ∧ x.significand % 2 ≤ y.significand % 2

/-- Below half a step above the greatest double: the nearest double is finite. -/
def InRange (q : ℚ) : Prop := q < ((2 ^ 54 - 1) * 2 ^ 2044 : ℕ)

theorem exists_nearest (q : ℚ) (negative : Bool) :
    ∃ x : Double, x.negative = negative ∧ Nearest q x := by
  have : Nonempty Double := ⟨⟨false, 0, 0, by decide, .inl rfl, by decide⟩⟩
  obtain ⟨x, least⟩ := Finite.exists_min fun x : Double =>
    toLex (distance q x, x.significand % 2)
  refine ⟨{ x with negative }, rfl, fun y => ?_⟩
  have := least y
  rw [Prod.Lex.toLex_le_toLex] at this
  exact this

/-- A number that a double stands for is nearest to that double only. -/
theorem nearest_exact {x y : Double} (sign : x.negative = y.negative)
    (near : Nearest (y.mag : ℚ) x) : x = y := by
  have none : distance (y.mag : ℚ) y = 0 := by
    unfold distance
    rw [sub_self, abs_zero]
  have zero : distance (y.mag : ℚ) x = 0 := by
    have pos : 0 ≤ distance (y.mag : ℚ) x := abs_nonneg _
    rcases near y with lt | ⟨eq, -⟩
    · rw [none] at lt
      exact absurd lt (not_lt.mpr pos)
    · rw [eq, none]
  unfold distance at zero
  rw [abs_eq_zero, sub_eq_zero, Nat.cast_inj] at zero
  exact Double.ext_mag sign zero

theorem two_pow_le {e k : Nat} (le : e ≤ k + 1) : 2 ^ e ≤ 2 * 2 ^ k := by
  rw [← pow_succ']
  exact Nat.pow_le_pow_right (by decide) le

theorem mag_inRange (x : Double) : InRange (x.mag : ℚ) := by
  unfold InRange
  rw [Nat.cast_lt]
  have small := x.small
  have step : 2 ^ x.exponent ≤ 2 * 2 ^ 2044 := two_pow_le x.bounded
  have top : x.mag ≤ (2 ^ 53 - 1) * (2 * 2 ^ 2044) := Nat.mul_le_mul (by omega) step
  omega

end Gufo.Json.Octets
