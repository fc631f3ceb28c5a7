import Gufo.Json.Value
import Gufo.Lib.Decimal
import Gufo.Lib.Outcome
import Mathlib.Algebra.Order.Field.Power

/-!
# Two `multipleOf` values together

`JsonSchemaLexeme::IntersectMultipleOf` of `src/core/json_schema_lexeme.cpp`, with the
decimals of that file: digits as a string, an integer scale, and long division and
multiplication by hand. The result is exactly the least common multiple.
-/

namespace Gufo.Lexeme.MultipleOf
open Gufo.Decimal hiding decimal
open Gufo.Json (Value Numbers isDigit)

/-! ## Decimals -/

structure Decimal where
  digits : List Nat := [0]
  scale : Int := 0
  negative : Bool := false
  deriving DecidableEq

/-- The loop of `Normalize` that drops zeros at the end; the last digit comes first here. -/
def trim : List Nat → Int → List Nat × Int
  | 0 :: d :: ds, scale => trim (d :: ds) (scale - 1)
  | ds, scale => (ds, scale)

def Decimal.normalize (d : Decimal) : Decimal :=
  match d.digits.dropWhile (· == 0) with
  | [] => {}
  | digits =>
    let trimmed := trim digits.reverse d.scale
    { d with digits := trimmed.1.reverse, scale := trimmed.2 }

def digitOf (c : Char) : Nat := c.toNat - 48

/-- `std::from_chars` into an `int`. -/
def fromChars (text : List Char) : Option Int :=
  let negative := text.head? = some '-'
  let digits := (if negative then text.tail else text).takeWhile isDigit
  let n : Int := value (digits.map digitOf)
  let n := if negative then -n else n
  if digits ≠ [] ∧ -2147483648 ≤ n ∧ n ≤ 2147483647 then some n else none

def isExponentMark (c : Char) : Bool := c == 'e' || c == 'E'

/-- A number text up to its exponent. -/
def mantissa (text : List Char) : List Char := text.takeWhile fun c => !isExponentMark c

def Decimal.parse (text : List Char) : Option Decimal :=
  let negative := text.head? == some '-'
  let text := if negative then text.tail else text
  let fraction := (mantissa text).dropWhile (· != '.')
  let digits := ((mantissa text).filter (· != '.')).map digitOf
  let scale : Int := (fraction.filter (· != '.')).length
  match text.drop (mantissa text).length with
  | [] => some (Decimal.normalize { digits, scale, negative })
  | _ :: rest =>
    (fromChars (if rest.head? = some '+' then rest.tail else rest)).map fun exponent =>
      Decimal.normalize { digits, scale := scale - exponent, negative }

/-! ## Comparing -/

/-- The first digits that differ decide. -/
def compareDigits : List Nat → List Nat → Int
  | x :: xs, y :: ys => if x ≠ y then if x < y then -1 else 1 else compareDigits xs ys
  | _, _ => 0

/-- Zeros behind a string, up to a length. -/
def padded (ds : List Nat) (size : Nat) : List Nat := ds ++ List.replicate (size - ds.length) 0

def magnitude (a b : Decimal) : Int :=
  if a.digits = [0] ∨ b.digits = [0] then
    (if a.digits ≠ [0] then 1 else 0) - (if b.digits ≠ [0] then 1 else 0)
  else
    let ae := a.digits.length - a.scale
    let be := b.digits.length - b.scale
    if ae ≠ be then if ae < be then -1 else 1
    else
      let size := max a.digits.length b.digits.length
      compareDigits (padded a.digits size) (padded b.digits size)

def compare (a b : Decimal) : Int :=
  if a.negative ≠ b.negative then if a.negative then -1 else 1
  else (if a.negative then -1 else 1) * magnitude a b

def naturalCompare (a b : List Nat) : Int :=
  if a.length ≠ b.length then if a.length < b.length then -1 else 1 else compareDigits a b

/-! ## Subtraction, division, multiplication -/

/-- The loop of `Subtract`; the last digits come first here. -/
def subtractLoop : List Nat → List Nat → Int → List Nat
  | [], _, _ => []
  | a :: as, bs, borrow =>
    let digit := (a : Int) - borrow - (bs.headD 0 : Nat)
    let borrow := if digit < 0 then 1 else 0
    (digit + 10 * borrow).toNat :: subtractLoop as bs.tail borrow

def subtract (a b : List Nat) : List Nat :=
  match (subtractLoop a.reverse b.reverse 0).reverse.dropWhile (· == 0) with
  | [] => [0]
  | digits => digits

/-- The inner loop of `Divide`. Ten rounds are enough, since the remainder is below ten
denominators. -/
def takeAway (denominator : List Nat) : Nat → List Nat → Nat → Nat × List Nat
  | 0, remainder, count => (count, remainder)
  | fuel + 1, remainder, count =>
    if naturalCompare remainder denominator ≥ 0 then
      takeAway denominator fuel (subtract remainder denominator) (count + 1)
    else (count, remainder)

/-- One digit of the numerator, with the quotient and the remainder so far. -/
def divideDigit (denominator : List Nat) (s : List Nat × List Nat) (digit : Nat) :
    List Nat × List Nat :=
  let remainder := (if s.2 = [0] then [] else s.2) ++ [digit]
  let (count, remainder) := takeAway denominator 10 remainder 0
  (if count ≠ 0 ∨ s.1 ≠ [] then s.1 ++ [count] else s.1, remainder)

/-- The digits at a larger scale. -/
def scaled (d : Decimal) (scale : Int) : List Nat :=
  d.digits ++ List.replicate (scale - d.scale).toNat 0

def divide (v divisor : Decimal) : List Nat × List Nat :=
  let scale := max v.scale divisor.scale
  let (quotient, remainder) :=
    (scaled v scale).foldl (divideDigit (scaled divisor scale)) ([], [0])
  (if quotient = [] then [0] else quotient, remainder)

/-- The inner loop of `Product`, from `j` on: `digits[i + j + 1] += x * y`. -/
def addRow (x : Nat) : List Nat → Nat → List Nat → List Nat
  | [], _, digits => digits
  | y :: ys, at', digits => addRow x ys (at' + 1) (digits.modify at' (· + x * y))

def addRows (factor : List Nat) : List Nat → Nat → List Nat → List Nat
  | [], _, digits => digits
  | x :: xs, i, digits => addRows factor xs (i + 1) (addRow x factor (i + 1) digits)

/-- The carries of `Product`; the last digit comes first here, and the first one keeps what
is carried into it. -/
def carryLoop : Nat → List Nat → List Nat
  | _, [] => []
  | carry, [d] => [d + carry]
  | carry, d :: ds => (d + carry) % 10 :: carryLoop ((d + carry) / 10) ds

def product (v : Decimal) (factor : List Nat) : Decimal :=
  let digits := addRows factor v.digits 0 (List.replicate (v.digits.length + factor.length) 0)
  Decimal.normalize { digits := (carryLoop 0 digits.reverse).reverse, scale := v.scale }

/-! ## The intersection -/

/-- The loop of `IntersectMultipleOf`: `x` is what is left when the remainder is zero. -/
def gcdLoop : Nat → Decimal → Decimal → Option Decimal
  | 0, _, _ => none
  | fuel + 1, x, y =>
    if y.digits ≠ [0] then gcdLoop fuel y { digits := (divide x y).2 } else some x

def invalid {α : Type} (reason : String) : Except String α := .error ("JSON Schema: " ++ reason)

section intersect
variable {ν : Type} (n : Numbers ν) (positive : ν → Bool)

def checked : Value ν → Except String Unit
  | .number x =>
    if positive x then .ok () else invalid "multipleOf must be a positive finite number"
  | _ => invalid "multipleOf must be a positive finite number"

def parsed (v : Value ν) : Except String Decimal :=
  match Decimal.parse (v.dump n).toList with
  | some d => .ok d
  | none => invalid "numeric exponent is outside the supported range"

/-- The decimal with its digits as a whole number, on the grid of a scale. -/
def Decimal.onGrid (d : Decimal) (scale : Int) : Decimal :=
  { d with digits := scaled d scale, scale := 0 }

/-- The least common multiple of two decimals. `none` would be a loop that goes on. -/
def commonMultiple (left right : Decimal) : Option Decimal := do
  let scale := max left.scale right.scale
  let left := left.onGrid scale
  let right := right.onGrid scale
  let x ← gcdLoop (value right.digits + 1) left right
  let common := product { digits := (divide left x).1 } right.digits
  return { common with scale := common.scale + scale }.normalize

def intersectMultipleOf (a b : Value ν) : Except String (Value ν) := do
  checked positive a
  checked positive b
  let left ← parsed n a
  let right ← parsed n b
  match commonMultiple left right with
  | none => .error "endless"
  | some common =>
    let digits := common.digits.map fun d => Char.ofNat (48 + d)
    let result ← Json.parse n (String.ofList digits ++ "e" ++ toString (-common.scale))
    match result with
    | .number _ =>
      let again ← parsed n result
      if compare again common ≠ 0 then
        invalid "combined multipleOf exceeds the exact schema-number range"
      else .ok result
    | _ => invalid "combined multipleOf exceeds the exact schema-number range"

end intersect

/-! ## Normal forms -/

/-- The number of a decimal. -/
def Decimal.amount (d : Decimal) : ℚ :=
  (if d.negative then -1 else 1) * (value d.digits * 10 ^ (-d.scale))

/-- Digits without a zero in front, unless they are the zero. -/
def Natural (ds : List Nat) : Prop := Digits ds ∧ (ds = [0] ∨ ∃ d rest, ds = d :: rest ∧ d ≠ 0)

theorem value_append (as bs : List Nat) :
    value (as ++ bs) = value as * 10 ^ bs.length + value bs := by
  simp only [value, List.reverse_append, Nat.ofDigits_append, List.length_reverse]
  ring

theorem value_padding (ds : List Nat) (k : Nat) :
    value (ds ++ List.replicate k 0) = value ds * 10 ^ k := by
  rw [value_append, value_zeros, List.length_replicate, Nat.add_zero]

variable {as bs : List Nat}

theorem digits_join : Digits (as ++ bs) ↔ Digits as ∧ Digits bs :=
  List.forall_mem_append

variable {ds : List Nat}

theorem digits_padding (digits : Digits ds) (k : Nat) :
    Digits (ds ++ List.replicate k 0) :=
  digits_join.mpr ⟨digits, digits_replicate (by decide) k⟩

theorem Natural.canonical (natural : Natural ds) : Canonical ds := by
  obtain ⟨digits, rfl | ⟨d, rest, rfl, nonzero⟩⟩ := natural
  · exact ⟨by simp, digits, by simp⟩
  · refine ⟨by simp, digits, fun _ => ?_⟩
    rw [value_cons, List.length_cons, Nat.add_sub_cancel]
    have := Nat.mul_le_mul_right (10 ^ rest.length) (Nat.one_le_iff_ne_zero.mpr nonzero)
    omega

theorem Natural.zero_iff (natural : Natural ds) : ds = [0] ↔ value ds = 0 := by
  refine ⟨fun zero => by rw [zero]; rfl, fun zero => ?_⟩
  exact natural.canonical.eq ⟨by simp, by simp [Digits], by simp⟩ zero

theorem Natural.pos (natural : Natural ds) (nonzero : ds ≠ [0]) :
    0 < value ds := Nat.pos_of_ne_zero fun zero => nonzero (natural.zero_iff.mpr zero)

theorem Natural.padding (natural : Natural ds) (nonzero : ds ≠ [0]) (k : Nat) :
    Natural (ds ++ List.replicate k 0) := by
  obtain ⟨digits, rfl | ⟨d, rest, rfl, head⟩⟩ := natural
  · exact absurd rfl nonzero
  · exact ⟨digits_padding digits k, .inr ⟨d, _, rfl, head⟩⟩

theorem value_dropWhile (ds : List Nat) : value (ds.dropWhile (· == 0)) = value ds := by
  induction ds with
  | nil => rfl
  | cons d ds ih =>
    by_cases zero : d = 0
    · simp [zero, ih]
    · simp [zero]

/-- What is left without the zeros in front. -/
theorem dropWhile_cases (digits : Digits ds) :
    (ds.dropWhile (· == 0) = [] ∧ value ds = 0) ∨
      ∃ d rest, ds.dropWhile (· == 0) = d :: rest ∧ d ≠ 0 ∧ Digits (d :: rest) ∧
        value (d :: rest) = value ds := by
  have same := value_dropWhile ds
  cases left : ds.dropWhile (· == 0) with
  | nil => exact .inl ⟨rfl, by rw [← same, left]; rfl⟩
  | cons d rest =>
    refine .inr ⟨d, rest, rfl, ?_, ?_, by rw [← same, left]⟩
    · have head := List.head_dropWhile_not (p := fun d => d == 0) (l := ds) (by simp [left])
      simpa [left] using head
    · exact fun x mem => digits x ((List.dropWhile_sublist _).subset (left ▸ mem))

theorem trim_spec (l : List Nat) (scale : Int) :
    ∃ k, l = List.replicate k 0 ++ (trim l scale).1 ∧ (trim l scale).2 = scale - k ∧
      (l ≠ [] → (trim l scale).1 ≠ []) := by
  fun_induction trim l scale with
  | case1 d ds scale ih =>
    obtain ⟨k, split, after, some⟩ := ih
    refine ⟨k + 1, ?_, by omega, fun _ => some (by simp)⟩
    rw [List.replicate_succ, List.cons_append, ← split]
  | case2 l scale _ => exact ⟨0, by simp, by simp, id⟩

theorem normalize_spec (d : Decimal) (digits : Digits d.digits) :
    Natural d.normalize.digits ∧ d.normalize.amount = d.amount ∧
      (d.normalize.negative = true → d.negative = true) := by
  rcases dropWhile_cases digits with ⟨none, zero⟩ | ⟨e, rest, left, head, digits', same⟩
  · have normal : d.normalize = {} := by rw [Decimal.normalize, none]
    rw [normal]
    refine ⟨⟨by simp [Digits], .inl rfl⟩, ?_, by simp⟩
    simp [Decimal.amount, zero]
  · obtain ⟨k, split, after, some⟩ := trim_spec (e :: rest).reverse d.scale
    have normal : d.normalize = { d with
        digits := (trim (e :: rest).reverse d.scale).1.reverse
        scale := (trim (e :: rest).reverse d.scale).2 } := by rw [Decimal.normalize, left]
    have whole : e :: rest =
        (trim (e :: rest).reverse d.scale).1.reverse ++ List.replicate k 0 := by
      have reversed := congrArg List.reverse split
      simpa using reversed
    rw [normal]
    generalize trim (e :: rest).reverse d.scale = trimmed at *
    refine ⟨⟨?_, .inr ?_⟩, ?_, id⟩
    · rw [whole] at digits'
      exact (digits_join.mp digits').1
    · cases start : trimmed.1.reverse with
      | nil => exact absurd (List.reverse_eq_nil_iff.mp start) (some (by simp))
      | cons x xs =>
        rw [start, List.cons_append] at whole
        exact ⟨x, xs, rfl, (List.cons.inj whole).1 ▸ head⟩
    · rw [whole, value_padding] at same
      simp only [Decimal.amount, after, ← same]
      rw [show -(d.scale - (k : Int)) = (k : Int) + -d.scale by ring,
        zpow_add₀ (by norm_num : (10 : ℚ) ≠ 0)]
      push_cast
      rw [zpow_natCast]
      ring

/-! ## Comparing -/

theorem compareDigits_eq_zero (same : as.length = bs.length) :
    compareDigits as bs = 0 ↔ as = bs := by
  induction as generalizing bs with
  | nil =>
    cases bs with
    | nil => simp [compareDigits]
    | cons => cases same
  | cons a as ih =>
    cases bs with
    | nil => cases same
    | cons b bs =>
      rw [compareDigits]
      split_ifs with differ lt
      · simp [differ]
      · simp [differ]
      · rw [ih (Nat.succ.inj same), not_not.mp differ]
        simp

theorem compareDigits_nonneg (same : as.length = bs.length) (ha : Digits as)
    (hb : Digits bs) : 0 ≤ compareDigits as bs ↔ value bs ≤ value as := by
  induction as generalizing bs with
  | nil =>
    cases bs with
    | nil => simp [compareDigits]
    | cons => cases same
  | cons a as ih =>
    cases bs with
    | nil => cases same
    | cons b bs =>
      have same' : as.length = bs.length := Nat.succ.inj same
      obtain ⟨_, ha'⟩ := digits_cons.mp ha
      obtain ⟨_, hb'⟩ := digits_cons.mp hb
      rw [value_cons_le same'.symm hb' ha', compareDigits]
      split_ifs with differ lt
      · omega
      · omega
      · rw [ih same' ha' hb']
        omega

theorem naturalCompare_nonneg (ha : Natural as) (hb : Natural bs) :
    0 ≤ naturalCompare as bs ↔ value bs ≤ value as := by
  unfold naturalCompare
  split_ifs with differ lt
  · simp only [Int.reduceNeg, Left.nonneg_neg_iff, Int.reduceLE, false_iff]
    exact fun le => absurd (hb.canonical.length_le ha.canonical le) (by omega)
  · by_contra gt
    exact absurd (ha.canonical.length_le hb.canonical (by omega)) (by omega)
  · exact compareDigits_nonneg (not_not.mp differ) ha.1 hb.1

theorem value_padded (ds : List Nat) {size : Nat} (le : ds.length ≤ size) :
    (value (padded ds size) : ℚ) = value ds * 10 ^ ((size : Int) - ds.length) := by
  rw [padded, value_padding]
  push_cast
  rw [← zpow_natCast, Nat.cast_sub le]

theorem magnitude_eq_zero {a b : Decimal} (equal : magnitude a b = 0) :
    (value a.digits : ℚ) * 10 ^ (-a.scale) = value b.digits * 10 ^ (-b.scale) := by
  unfold magnitude at equal
  by_cases zero : a.digits = [0] ∨ b.digits = [0]
  · have both : a.digits = [0] ∧ b.digits = [0] := by
      split_ifs at equal <;> simp_all
    simp [both]
  · rw [if_neg zero] at equal
    by_cases exponents : (a.digits.length : Int) - a.scale = b.digits.length - b.scale
    · -- both strings are padded to one size, which has one exponent
      rw [if_neg (not_not.mpr exponents)] at equal
      generalize size_eq : max a.digits.length b.digits.length = size at equal
      have le_a : a.digits.length ≤ size := size_eq ▸ le_max_left _ _
      have le_b : b.digits.length ≤ size := size_eq ▸ le_max_right _ _
      have same := (compareDigits_eq_zero (by simp [padded]; omega)).mp equal
      have values : (value (padded a.digits size) : ℚ) = value (padded b.digits size) := by
        rw [same]
      rw [value_padded _ le_a, value_padded _ le_b] at values
      have shift : ∀ d : Decimal, (value d.digits : ℚ) * 10 ^ (-d.scale) =
          value d.digits * 10 ^ ((size : Int) - d.digits.length) *
            10 ^ ((d.digits.length : Int) - d.scale - size) := by
        intro d
        rw [mul_assoc, ← zpow_add₀ (by norm_num : (10 : ℚ) ≠ 0)]
        ring_nf
      rw [shift a, shift b, values, exponents]
    · rw [if_pos exponents] at equal
      split_ifs at equal
      exact absurd equal one_ne_zero

/-- Decimals that compare as equal are the same number. -/
theorem amount_eq_of_compare {a b : Decimal} (same : compare a b = 0) : a.amount = b.amount := by
  unfold compare at same
  by_cases sign : a.negative = b.negative
  · have equal : magnitude a b = 0 := by split_ifs at same <;> omega
    rw [Decimal.amount, Decimal.amount, sign, magnitude_eq_zero equal]
  · rw [if_pos sign] at same
    split_ifs at same
    exact absurd same one_ne_zero

/-! ## Subtraction and division -/

theorem subtractLoop_spec {c : Int} (digits : Digits as) (digits' : Digits bs)
    (borrow : c = 0 ∨ c = 1) (shorter : bs.length ≤ as.length)
    (le : ↑(Nat.ofDigits 10 bs : ℕ) + c ≤ ↑(Nat.ofDigits 10 as : ℕ)) :
    (↑(Nat.ofDigits 10 (subtractLoop as bs c) : ℕ) : Int) =
      ↑(Nat.ofDigits 10 as : ℕ) - ↑(Nat.ofDigits 10 bs : ℕ) - c ∧
        Digits (subtractLoop as bs c) := by
  induction as generalizing bs c with
  | nil =>
    cases List.length_eq_zero_iff.mp (Nat.le_zero.mp shorter)
    refine ⟨?_, digits_nil⟩
    rw [subtractLoop, Nat.ofDigits_nil]
    omega
  | cons a as ih =>
    obtain ⟨a_lt, digits_as⟩ := digits_cons.mp digits
    have head : bs.headD 0 < 10 := by
      cases bs with
      | nil => simp
      | cons b _ => exact digits' b (by simp)
    have tail : Digits bs.tail := fun d mem => digits' d (List.mem_of_mem_tail mem)
    have split : Nat.ofDigits 10 bs = bs.headD 0 + 10 * Nat.ofDigits 10 bs.tail := by
      cases bs with
      | nil => simp
      | cons b bs => simp [Nat.ofDigits_cons]
    have short : bs.tail.length ≤ as.length := by
      rw [List.length_tail]
      simp only [List.length_cons] at shorter
      omega
    rw [split, Nat.ofDigits_cons] at le ⊢
    rw [subtractLoop]
    split_ifs with below
    · obtain ⟨rest, digits''⟩ := ih (c := 1) digits_as tail (.inr rfl) short (by omega)
      refine ⟨?_, digits_cons.mpr ⟨by omega, digits''⟩⟩
      rw [Nat.ofDigits_cons]
      omega
    · obtain ⟨rest, digits''⟩ := ih (c := 0) digits_as tail (.inl rfl) short (by omega)
      refine ⟨?_, digits_cons.mpr ⟨by omega, digits''⟩⟩
      rw [Nat.ofDigits_cons]
      omega

theorem subtract_spec {a b : List Nat} (na : Natural a) (nb : Natural b)
    (le : value b ≤ value a) :
    Natural (subtract a b) ∧ value (subtract a b) = value a - value b := by
  have short : b.reverse.length ≤ a.reverse.length := by
    simpa using nb.canonical.length_le na.canonical le
  obtain ⟨loop, digits⟩ := subtractLoop_spec (c := 0) (digits_reverse.mpr na.1)
    (digits_reverse.mpr nb.1) (.inl rfl) short
    (by simp only [value] at le; omega)
  have total : value (subtractLoop a.reverse b.reverse 0).reverse = value a - value b := by
    simp only [value, List.reverse_reverse] at le ⊢
    omega
  unfold subtract
  rcases dropWhile_cases (digits_reverse.mpr digits) with
    ⟨none, zero⟩ | ⟨e, rest, left, head, digits', same⟩
  · rw [none]
    exact ⟨⟨by simp [Digits], .inl rfl⟩, by rw [← total, zero]; rfl⟩
  · rw [left]
    exact ⟨⟨digits', .inr ⟨e, rest, rfl, head⟩⟩, by rw [same, total]⟩

theorem takeAway_spec {den r : List Nat} (nd : Natural den) (nr : Natural r) {fuel : Nat}
    (count : Nat) (lt : value r < fuel * value den) :
    Natural (takeAway den fuel r count).2 ∧ value (takeAway den fuel r count).2 < value den ∧
      value r + count * value den = (takeAway den fuel r count).1 * value den +
        value (takeAway den fuel r count).2 := by
  induction fuel generalizing r count with
  | zero => simp at lt
  | succ fuel ih =>
    rw [takeAway]
    split_ifs with enough
    · have le := (naturalCompare_nonneg nr nd).mp enough
      obtain ⟨natural, less⟩ := subtract_spec nr nd le
      have fewer : value (subtract r den) < fuel * value den := by
        rw [Nat.succ_mul] at lt
        omega
      obtain ⟨natural', small, sum⟩ := ih natural (count + 1) fewer
      refine ⟨natural', small, ?_⟩
      rw [← sum, less, Nat.succ_mul]
      omega
    · have below : value r < value den :=
        Nat.lt_of_not_le ((naturalCompare_nonneg nr nd).not.mp enough)
      exact ⟨nr, below, Nat.add_comm _ _⟩

/-- The digits read so far are the quotient's denominators and the remainder. -/
structure Divided (den : List Nat) (n : Nat) (s : List Nat × List Nat) : Prop where
  quotient : Digits s.1
  remainder : Natural s.2
  small : value s.2 < value den
  sum : n = value s.1 * value den + value s.2

theorem value_append_digit (ds : List Nat) (d : Nat) : value (ds ++ [d]) = value ds * 10 + d := by
  rw [value_append]
  simp

theorem natural_append_digit {d : Nat} (natural : Natural ds) (lt : d < 10) :
    Natural ((if ds = [0] then [] else ds) ++ [d]) ∧
      value ((if ds = [0] then [] else ds) ++ [d]) = value ds * 10 + d := by
  obtain ⟨digits, start⟩ := natural
  split_ifs with zero
  · subst zero
    refine ⟨⟨by simpa using lt, ?_⟩, by simp⟩
    by_cases none : d = 0
    · exact .inl (by simp [none])
    · exact .inr ⟨d, [], rfl, none⟩
  · obtain ⟨x, rest, rfl, head⟩ := start.resolve_left zero
    exact ⟨⟨digits_join.mpr ⟨digits, by simpa using lt⟩, .inr ⟨x, rest ++ [d], rfl, head⟩⟩,
      value_append_digit _ _⟩

theorem divideDigit_spec {den : List Nat} {n d : Nat} {s : List Nat × List Nat}
    (nd : Natural den) (divided : Divided den n s) (lt : d < 10) :
    Divided den (n * 10 + d) (divideDigit den s d) := by
  obtain ⟨digits, natural, small, sum⟩ := divided
  obtain ⟨natural', grown⟩ := natural_append_digit natural lt
  unfold divideDigit
  dsimp only
  generalize (if s.2 = [0] then [] else s.2) ++ [d] = r at *
  obtain ⟨rest, below, count_eq⟩ := takeAway_spec nd natural' 0
    (show value r < 10 * value den by omega)
  generalize takeAway den 10 r 0 = taken at *
  have count_lt : taken.1 < 10 := by
    by_contra ge
    have := Nat.mul_le_mul_right (value den) (Nat.le_of_not_lt ge)
    omega
  refine ⟨?_, rest, below, ?_⟩
  · split_ifs
    · exact digits_join.mpr ⟨digits, by simpa using count_lt⟩
    · exact digits
  · have split : n * 10 + d = (value s.1 * 10 + taken.1) * value den + value taken.2 := by
      linarith
    rw [split]
    split_ifs with some
    · rw [value_append_digit]
    · simp only [ne_eq, not_or, not_not] at some
      rw [some.1, some.2]
      rfl

theorem foldl_divideDigit {den ds : List Nat} {n : Nat} {s : List Nat × List Nat}
    (nd : Natural den) (digits : Digits ds) (divided : Divided den n s) :
    Divided den (n * 10 ^ ds.length + value ds) (ds.foldl (divideDigit den) s) := by
  induction ds generalizing n s with
  | nil => simpa using divided
  | cons d ds ih =>
    obtain ⟨lt, digits'⟩ := digits_cons.mp digits
    have rest := ih digits' (divideDigit_spec nd divided lt)
    rw [List.foldl_cons, value_cons, List.length_cons, pow_succ]
    rwa [show n * (10 ^ ds.length * 10) + (d * 10 ^ ds.length + value ds) =
      (n * 10 + d) * 10 ^ ds.length + value ds by ring]

/-- Long division of the two strings at their common scale. -/
theorem divide_spec {v divisor : Decimal} (digits : Digits v.digits)
    (natural : Natural divisor.digits) (nonzero : divisor.digits ≠ [0]) :
    let scale := max v.scale divisor.scale
    Digits (divide v divisor).1 ∧ Natural (divide v divisor).2 ∧
      value (divide v divisor).1 = value (scaled v scale) / value (scaled divisor scale) ∧
      value (divide v divisor).2 = value (scaled v scale) % value (scaled divisor scale) := by
  intro scale
  have nd : Natural (scaled divisor scale) := natural.padding nonzero _
  have pos : 0 < value (scaled divisor scale) := by
    rw [scaled, value_padding]
    exact Nat.mul_pos (natural.pos nonzero) (by positivity)
  have start : Divided (scaled divisor scale) 0 ([], [0]) :=
    ⟨by simp, ⟨by simp [Digits], .inl rfl⟩, by simpa using pos, by simp⟩
  have ran : Divided (scaled divisor scale) (value (scaled v scale))
      ((scaled v scale).foldl (divideDigit (scaled divisor scale)) ([], [0])) := by
    have all := foldl_divideDigit nd (digits_padding digits (scale - v.scale).toNat) start
    rwa [Nat.zero_mul, Nat.zero_add] at all
  have unfolded : ∀ s, (scaled v scale).foldl (divideDigit (scaled divisor scale)) ([], [0]) = s →
      divide v divisor = (if s.1 = [] then [0] else s.1, s.2) := by
    rintro s rfl
    rfl
  generalize folded :
    (scaled v scale).foldl (divideDigit (scaled divisor scale)) ([], [0]) = s at ran
  rw [unfolded s folded]
  obtain ⟨quotient, remainder, small, sum⟩ := ran
  have first : value (if s.1 = [] then [0] else s.1) = value s.1 ∧
      Digits (if s.1 = [] then [0] else s.1) := by
    split_ifs with none
    · simp [none, Digits]
    · exact ⟨rfl, quotient⟩
  refine ⟨first.2, remainder, ?_, ?_⟩
  · rw [first.1, sum, Nat.mul_comm, Nat.mul_add_div pos, Nat.div_eq_of_lt small, Nat.add_zero]
  · rw [sum, Nat.mul_comm, Nat.mul_add_mod, Nat.mod_eq_of_lt small]

theorem divide_whole {v divisor : Decimal} (digits : Digits v.digits)
    (natural : Natural divisor.digits) (nonzero : divisor.digits ≠ [0]) (sv : v.scale = 0)
    (sd : divisor.scale = 0) :
    Digits (divide v divisor).1 ∧ Natural (divide v divisor).2 ∧
      value (divide v divisor).1 = value v.digits / value divisor.digits ∧
      value (divide v divisor).2 = value v.digits % value divisor.digits := by
  simpa [scaled, sv, sd] using divide_spec digits natural nonzero

/-- Euclid's loop ends, with the greatest common divisor. -/
theorem gcdLoop_spec {fuel : Nat} {x y : Decimal} (nx : Natural x.digits) (ny : Natural y.digits)
    (sx : x.scale = 0) (sy : y.scale = 0) (lt : value y.digits < fuel) :
    ∃ g, gcdLoop fuel x y = some g ∧ Natural g.digits ∧ g.scale = 0 ∧
      value g.digits = Nat.gcd (value x.digits) (value y.digits) := by
  induction fuel generalizing x y with
  | zero => exact absurd lt (Nat.not_lt_zero _)
  | succ fuel ih =>
    rw [gcdLoop]
    split_ifs with more
    · obtain ⟨-, natural, -, rest⟩ := divide_whole nx.1 ny more sx sy
      have pos := ny.pos more
      have less := Nat.mod_lt (value x.digits) pos
      obtain ⟨g, ends, ng, sg, gcd⟩ := ih (y := { digits := (divide x y).2 }) ny natural sy rfl
        (by rw [rest]; omega)
      refine ⟨g, ends, ng, sg, gcd.trans ?_⟩
      rw [rest, Nat.gcd_comm, ← Nat.gcd_rec, Nat.gcd_comm]
    · refine ⟨x, rfl, nx, sx, ?_⟩
      rw [ny.zero_iff.mp (not_not.mp more), Nat.gcd_zero_right]

/-! ## Multiplication -/

theorem value_modify {k : Nat} (c : Nat) (lt : k < ds.length) :
    value (ds.modify k (· + c)) = value ds + c * 10 ^ (ds.length - 1 - k) := by
  induction ds generalizing k with
  | nil => cases lt
  | cons d ds ih =>
    cases k with
    | zero =>
      simp only [List.modify_zero_cons, value_cons, List.length_cons]
      rw [Nat.add_sub_cancel, Nat.sub_zero]
      ring
    | succ k =>
      rw [List.modify_succ_cons, value_cons, value_cons,
        List.length_modify, ih (Nat.lt_of_succ_lt_succ lt), List.length_cons, Nat.add_sub_cancel,
        Nat.sub_add_eq, Nat.sub_right_comm, Nat.add_assoc]

theorem addRow_spec (x : Nat) (ys : List Nat) {k : Nat}
    (fits : k + ys.length ≤ ds.length) :
    (addRow x ys k ds).length = ds.length ∧ value (addRow x ys k ds) =
      value ds + x * value ys * 10 ^ (ds.length - k - ys.length) := by
  induction ys generalizing k ds with
  | nil => simp [addRow]
  | cons y ys ih =>
    rw [List.length_cons] at fits
    have fits' : k + 1 + ys.length ≤ (ds.modify k (· + x * y)).length := by
      rw [List.length_modify]
      omega
    obtain ⟨length, rest⟩ := ih fits'
    rw [List.length_modify] at length rest
    refine ⟨length, ?_⟩
    rw [addRow, rest, value_modify _ (by omega), value_cons, List.length_cons]
    have here : ds.length - 1 - k = ys.length + (ds.length - k - (ys.length + 1)) := by omega
    have after : ds.length - (k + 1) - ys.length = ds.length - k - (ys.length + 1) := by omega
    rw [here, after, pow_add]
    ring

theorem addRows_spec (factor xs : List Nat) {i : Nat}
    (fits : i + xs.length + factor.length ≤ ds.length) :
    (addRows factor xs i ds).length = ds.length ∧ value (addRows factor xs i ds) =
      value ds + value xs * value factor * 10 ^ (ds.length - i - xs.length - factor.length) := by
  induction xs generalizing i ds with
  | nil => simp [addRows]
  | cons x xs ih =>
    rw [List.length_cons] at fits
    have fits_row : i + 1 + factor.length ≤ ds.length := by omega
    obtain ⟨length, row⟩ := addRow_spec x factor fits_row
    have fits_rest : i + 1 + xs.length + factor.length ≤ (addRow x factor (i + 1) ds).length := by
      omega
    obtain ⟨length', rest⟩ := ih fits_rest
    refine ⟨length'.trans length, ?_⟩
    rw [addRows, rest, row, length, value_cons, List.length_cons]
    have here : ds.length - (i + 1) - factor.length =
        xs.length + (ds.length - i - (xs.length + 1) - factor.length) := by omega
    have after : ds.length - (i + 1) - xs.length - factor.length =
        ds.length - i - (xs.length + 1) - factor.length := by omega
    rw [here, after, pow_add]
    ring

/-- The carries keep the number and leave digits, where the number has that many. -/
theorem carryLoop_spec {c : Nat} (some : ds ≠ [])
    (lt : (Nat.ofDigits 10 ds : ℕ) + c < 10 ^ ds.length) :
    (Nat.ofDigits 10 (carryLoop c ds) : ℕ) = Nat.ofDigits 10 ds + c ∧
      Digits (carryLoop c ds) := by
  fun_induction carryLoop c ds with
  | case1 => exact absurd rfl some
  | case2 c d => simpa [Digits] using lt
  | case3 c d ds more ih =>
    rw [Nat.ofDigits_cons, List.length_cons, pow_succ] at lt
    obtain ⟨same, digits⟩ := ih (fun none => more none) (by omega)
    rw [Nat.ofDigits_cons, Nat.ofDigits_cons, same]
    exact ⟨by omega, digits_cons.mpr ⟨Nat.mod_lt _ (by decide), digits⟩⟩

theorem product_spec {v : Decimal} {factor : List Nat} (digits : Digits v.digits)
    (digits' : Digits factor) (some : factor ≠ []) :
    Natural (product v factor).digits ∧ (product v factor).negative = false ∧
      (product v factor).amount = value v.digits * value factor * 10 ^ (-v.scale) := by
  have pos := List.length_pos_iff.mpr some
  have fits : 0 + v.digits.length + factor.length ≤
      (List.replicate (v.digits.length + factor.length) 0).length := by simp
  obtain ⟨length, sum⟩ := addRows_spec factor v.digits fits
  simp only [List.length_replicate, value_zeros, Nat.zero_add, Nat.sub_zero,
    Nat.add_sub_cancel_left, Nat.sub_self, pow_zero, Nat.mul_one] at length sum
  rw [show product v factor = Decimal.normalize
    { digits := (carryLoop 0 (addRows factor v.digits 0
        (List.replicate (v.digits.length + factor.length) 0)).reverse).reverse
      scale := v.scale } from rfl]
  generalize addRows factor v.digits 0
    (List.replicate (v.digits.length + factor.length) 0) = sums at *
  have lt : value sums < 10 ^ sums.reverse.length := by
    rw [sum, List.length_reverse, length, pow_add]
    exact Nat.mul_lt_mul'' (value_lt digits) (value_lt digits')
  have nonempty : sums.reverse ≠ [] := by
    rw [← List.length_pos_iff, List.length_reverse, length]
    omega
  obtain ⟨same, carried⟩ := carryLoop_spec (c := 0) nonempty (by simpa [value] using lt)
  obtain ⟨natural, amount, sign⟩ := normalize_spec
    { digits := (carryLoop 0 sums.reverse).reverse, scale := v.scale }
    (digits_reverse.mpr carried)
  refine ⟨natural, by simpa using sign, amount.trans ?_⟩
  have total : value (carryLoop 0 sums.reverse).reverse = value v.digits * value factor := by
    rw [value, List.reverse_reverse, same, ← sum, value, Nat.add_zero]
  simp [Decimal.amount, total]

/-! ## The least common multiple -/

/-- A positive decimal in normal form. -/
structure Step (d : Decimal) : Prop where
  natural : Natural d.digits
  nonzero : d.digits ≠ [0]
  unsigned : d.negative = false

variable {d : Decimal}

theorem amount_scaled (step : Step d) {scale : Int} (le : d.scale ≤ scale) :
    d.amount = value (scaled d scale) * 10 ^ (-scale) := by
  have shift : (10 : ℚ) ^ (-d.scale) = 10 ^ (scale - d.scale).toNat * 10 ^ (-scale) := by
    rw [← zpow_natCast, Int.toNat_of_nonneg (by omega), ← zpow_add₀ (by norm_num)]
    ring_nf
  rw [scaled, value_padding, Decimal.amount, step.unsigned, shift]
  push_cast
  ring

/-- On the common grid the digits are whole numbers, and the result is exactly their least
common multiple there: no round of the arithmetic loses a digit. -/
theorem commonMultiple_spec {left right : Decimal} (l : Step left) (r : Step right) :
    ∃ c, commonMultiple left right = some c ∧
      c.amount = Nat.lcm (value (scaled left (max left.scale right.scale)))
        (value (scaled right (max left.scale right.scale))) *
          10 ^ (-max left.scale right.scale) := by
  generalize scale_eq : max left.scale right.scale = scale
  have nl : Natural (scaled left scale) := l.natural.padding l.nonzero _
  have nr : Natural (scaled right scale) := r.natural.padding r.nonzero _
  have pos_l : 0 < value (scaled left scale) := by
    rw [scaled, value_padding]
    exact Nat.mul_pos (l.natural.pos l.nonzero) (by positivity)
  obtain ⟨g, ends, ng, sg, gcd⟩ := gcdLoop_spec (x := left.onGrid scale)
    (y := right.onGrid scale) nl nr rfl rfl (Nat.lt_succ_self _)
  have pos_g : g.digits ≠ [0] := by
    rw [ne_eq, ng.zero_iff, gcd]
    exact Nat.gcd_ne_zero_left pos_l.ne'
  obtain ⟨digits, -, quotient, -⟩ := divide_whole (v := left.onGrid scale) nl.1 ng pos_g rfl sg
  rw [gcd] at quotient
  obtain ⟨np, -, amount⟩ := product_spec (v := { digits := (divide (left.onGrid scale) g).1 })
    digits nr.1 nr.canonical.nonempty
  have found : commonMultiple left right =
      some (let p := product { digits := (divide (left.onGrid scale) g).1 } (scaled right scale)
        Decimal.normalize { p with scale := p.scale + scale }) := by
    simp only [commonMultiple, scale_eq]
    rw [ends]
    rfl
  refine ⟨_, found, ?_⟩
  generalize product { digits := (divide (left.onGrid scale) g).1 } (scaled right scale) = p at *
  obtain ⟨-, same, -⟩ := normalize_spec { p with scale := p.scale + scale } np.1
  rw [same]
  have lcm : value (scaled left scale) / Nat.gcd (value (scaled left scale))
      (value (scaled right scale)) * value (scaled right scale) =
        Nat.lcm (value (scaled left scale)) (value (scaled right scale)) := by
    exact Nat.div_mul_right_comm (Nat.gcd_dvd_left _ _) _
  have split : ({ p with scale := p.scale + scale } : Decimal).amount =
      p.amount * 10 ^ (-scale) := by
    simp only [Decimal.amount]
    rw [neg_add, zpow_add₀ (by norm_num : (10 : ℚ) ≠ 0)]
    ring
  rw [split, amount, quotient, ← lcm]
  simp [Decimal.onGrid]


/-! ## Multiples -/

/-- A rational number is a whole multiple of another. -/
def Multiple (q r : ℚ) : Prop := ∃ k : ℤ, q = k * r

theorem multiple_lcm {a b : Nat} {u q : ℚ} (unit : u ≠ 0) :
    Multiple q (Nat.lcm a b * u) ↔ Multiple q (a * u) ∧ Multiple q (b * u) := by
  constructor
  · rintro ⟨k, rfl⟩
    obtain ⟨x, left⟩ := Nat.dvd_lcm_left a b
    obtain ⟨y, right⟩ := Nat.dvd_lcm_right a b
    refine ⟨⟨k * x, ?_⟩, ⟨k * y, ?_⟩⟩
    · rw [left]
      push_cast
      ring
    · rw [right]
      push_cast
      ring
  · rintro ⟨⟨k, rfl⟩, ⟨m, same⟩⟩
    have whole : k * a = m * b := by
      have scaled : ((k * a : ℤ) : ℚ) * u = (m * b : ℤ) * u := by
        push_cast
        linarith
      exact_mod_cast mul_right_cancel₀ unit scaled
    have divides : Nat.lcm a b ∣ (k * a).natAbs := by
      refine Nat.lcm_dvd ?_ ?_
      · exact Int.natCast_dvd.mp (Dvd.intro_left k rfl)
      · exact Int.natCast_dvd.mp (whole ▸ Dvd.intro_left m rfl)
    obtain ⟨c, split⟩ := Int.natCast_dvd.mpr divides
    refine ⟨c, ?_⟩
    have cast : ((k * a : ℤ) : ℚ) = (Nat.lcm a b * c : ℤ) := by rw [split]
    push_cast at cast
    rw [← mul_assoc, cast]
    ring

/-- The least of the positive multiples is the number itself. -/
theorem le_of_multiple {q r : ℚ} (pos : 0 < r) (positive : 0 < q) (multiple : Multiple q r) :
    r ≤ q := by
  obtain ⟨k, rfl⟩ := multiple
  have one : (1 : ℚ) ≤ k := by
    have above : (0 : ℚ) < k := (mul_pos_iff_of_pos_right pos).mp positive
    exact_mod_cast above
  nlinarith

/-! ## Number texts -/

/-- What the standard library promises of a positive finite double's spelling: up to its
exponent it has digits and a point, no sign, and a digit that is not zero. -/
structure Spells {ν : Type} (n : Numbers ν) (positive : ν → Bool) : Prop where
  digits : ∀ x, positive x = true → ∀ c ∈ mantissa (n.toChars x), isDigit c = true ∨ c = '.'
  unsigned : ∀ x, positive x = true → (n.toChars x).head? ≠ some '-'
  nonzero : ∀ x, positive x = true → ∃ c ∈ mantissa (n.toChars x), c ≠ '0' ∧ c ≠ '.'

theorem digitOf_lt {c : Char} (digit : isDigit c = true) :
    digitOf c < 10 ∧ (digitOf c = 0 → c = '0') := by
  simp only [isDigit, Bool.decide_and, Bool.and_eq_true, decide_eq_true_eq] at digit
  have low : 48 ≤ c.toNat := digit.1
  have high : c.toNat ≤ 57 := digit.2
  unfold digitOf
  exact ⟨by omega, fun zero => Char.toNat_inj.mp (show c.toNat = 48 by omega)⟩

/-- The digits of a text that has one beside zeros are not the number zero. -/
theorem value_ne_zero {d : Nat} (mem : d ∈ ds) (nonzero : d ≠ 0) :
    value ds ≠ 0 := by
  induction ds with
  | nil => cases mem
  | cons x ds ih =>
    rw [value_cons]
    rcases List.mem_cons.mp mem with rfl | mem
    · have := Nat.mul_pos (Nat.pos_of_ne_zero nonzero) (pow_pos (by decide : 0 < 10) ds.length)
      omega
    · have := ih mem
      omega

theorem step_normalize (digits : Digits d.digits) (nonzero : value d.digits ≠ 0)
    (unsigned : d.negative = false) : Step d.normalize := by
  obtain ⟨natural, amount, sign⟩ := normalize_spec d digits
  refine ⟨natural, fun zero => nonzero ?_, ?_⟩
  · rw [Decimal.amount, zero, Decimal.amount, unsigned] at amount
    simpa [zpow_ne_zero] using amount
  · cases negative : d.normalize.negative with
    | false => rfl
    | true => exact absurd (sign negative) (by simp [unsigned])

variable {ν : Type} {n : Numbers ν} {positive : ν → Bool}

/-- A positive double is read as a positive decimal. -/
theorem step_parse (spells : Spells n positive) {x : ν} (pos : positive x = true)
    (read : Decimal.parse (n.toChars x) = some d) : Step d := by
  have unsigned : ((n.toChars x).head? == some '-') = false := by
    simpa using spells.unsigned x pos
  obtain ⟨c, mem, not_zero, not_point⟩ := spells.nonzero x pos
  have shape := spells.digits x pos
  have digits : Digits (((mantissa (n.toChars x)).filter (· != '.')).map digitOf) := by
    intro d mem
    obtain ⟨c, found, rfl⟩ := List.mem_map.mp mem
    obtain ⟨inside, other⟩ := List.mem_filter.mp found
    exact (digitOf_lt ((shape c inside).resolve_right (by simpa using other))).1
  have nonzero : value (((mantissa (n.toChars x)).filter (· != '.')).map digitOf) ≠ 0 :=
    value_ne_zero (List.mem_map_of_mem (List.mem_filter.mpr ⟨mem, by simpa using not_point⟩))
      fun zero => not_zero ((digitOf_lt ((shape c mem).resolve_right not_point)).2 zero)
  unfold Decimal.parse at read
  simp only [unsigned, Bool.false_eq_true, if_false] at read
  split at read
  · cases read
    exact step_normalize digits nonzero rfl
  · obtain ⟨exponent, -, rfl⟩ := Option.map_eq_some_iff.mp read
    exact step_normalize digits nonzero rfl

theorem checked_ok {v : Value ν} (ok : checked positive v = .ok ()) :
    ∃ x, v = .number x ∧ positive x = true := by
  cases v with
  | number x =>
    refine ⟨x, rfl, ?_⟩
    by_contra negative
    simp [checked, negative, invalid] at ok
  | _ => cases ok

theorem parsed_ok {x : ν} (ok : parsed n (.number x) = .ok d) :
    Decimal.parse (n.toChars x) = some d := by
  have text : ((Value.number x).dump n).toList = n.toChars x := String.toList_ofList
  unfold parsed at ok
  rw [text] at ok
  split at ok
  · rename_i found
    cases ok
    exact found
  · cases ok

/-- The number that a double's spelling denotes. -/
def denoted (n : Numbers ν) (x : ν) : Option ℚ := (Decimal.parse (n.toChars x)).map Decimal.amount

/-- Of two positive finite values that are accepted, the result is the least common multiple:
its multiples are the numbers that are multiples of both, and it is the least positive one.
The arithmetic is exact: all three are whole numbers on one decimal grid, and the result is
there the least common multiple of the other two. -/
theorem intersectMultipleOf_lcm (spells : Spells n positive) {a b r : Value ν}
    (accepted : intersectMultipleOf n positive a b = .ok r) :
    ∃ x y z p q m, a = .number x ∧ b = .number y ∧ r = .number z ∧
      denoted n x = some p ∧ denoted n y = some q ∧ denoted n z = some m ∧
      0 < m ∧ Multiple m p ∧ Multiple m q ∧
      (∀ t, Multiple t m ↔ Multiple t p ∧ Multiple t q) ∧
      (∀ t, 0 < t → Multiple t p → Multiple t q → m ≤ t) ∧
      ∃ (i j : Nat) (scale : Int), p = i * 10 ^ (-scale) ∧ q = j * 10 ^ (-scale) ∧
        m = Nat.lcm i j * 10 ^ (-scale) := by
  simp only [intersectMultipleOf, Outcome.bind_eq_ok] at accepted
  obtain ⟨⟨⟩, ok_a, ⟨⟩, ok_b, left, read_a, right, read_b, rest⟩ := accepted
  obtain ⟨x, rfl, pos_x⟩ := checked_ok ok_a
  obtain ⟨y, rfl, pos_y⟩ := checked_ok ok_b
  have step_l := step_parse spells pos_x (parsed_ok read_a)
  have step_r := step_parse spells pos_y (parsed_ok read_b)
  obtain ⟨c, combined, amount⟩ := commonMultiple_spec step_l step_r
  rw [combined] at rest
  obtain ⟨result, -, rest⟩ := Outcome.bind_eq_ok.mp rest
  split at rest
  · rename_i z
    obtain ⟨again, read_z, rest⟩ := Outcome.bind_eq_ok.mp rest
    split_ifs at rest with differ
    · cases rest
    · cases rest
      have same := (amount_eq_of_compare (not_not.mp differ)).trans amount
      have grid_l := amount_scaled step_l (le_max_left left.scale right.scale)
      have grid_r := amount_scaled step_r (le_max_right left.scale right.scale)
      generalize max left.scale right.scale = scale at *
      have pos_l : 0 < value (scaled left scale) := by
        rw [scaled, value_padding]
        exact Nat.mul_pos (step_l.natural.pos step_l.nonzero) (by positivity)
      have pos_r : 0 < value (scaled right scale) := by
        rw [scaled, value_padding]
        exact Nat.mul_pos (step_r.natural.pos step_r.nonzero) (by positivity)
      have unit : (0 : ℚ) < 10 ^ (-scale) := by positivity
      have above : 0 < again.amount := by
        rw [same]
        exact mul_pos (by exact_mod_cast Nat.lcm_pos pos_l pos_r) unit
      have multiples : ∀ t, Multiple t again.amount ↔
          Multiple t left.amount ∧ Multiple t right.amount := fun t => by
        rw [same, grid_l, grid_r]
        exact multiple_lcm unit.ne'
      have itself := (multiples again.amount).mp ⟨1, by simp⟩
      refine ⟨x, y, z, left.amount, right.amount, again.amount, rfl, rfl, rfl, ?_, ?_, ?_, above,
        itself.1, itself.2, multiples, fun t pos l r => ?_, ?_⟩
      · rw [denoted, parsed_ok read_a, Option.map_some]
      · rw [denoted, parsed_ok read_b, Option.map_some]
      · rw [denoted, parsed_ok read_z, Option.map_some]
      · exact le_of_multiple above pos ((multiples t).mpr ⟨l, r⟩)
      · exact ⟨_, _, scale, grid_l, grid_r, same⟩
  · cases rest

/-- Three doubles, as they are spelled. -/
inductive Tenths where
  | two
  | three
  | six

def tenths : Numbers Tenths where
  toChars
    | .two => ['0', '.', '2']
    | .three => ['0', '.', '3']
    | .six => ['0', '.', '6']
  fromChars text :=
    if text = ['0', '.', '2'] then some .two
    else if text = ['0', '.', '3'] then some .three
    else if text = ['0', '.', '6'] ∨ text = ['6', 'e', '-', '1'] then some .six
    else none

theorem intersectMultipleOf_lcm_tenths :
    ∃ x y z p q m, Value.number Tenths.two = .number x ∧ Value.number Tenths.three = .number y ∧
      Value.number Tenths.six = .number z ∧
      denoted tenths x = some p ∧ denoted tenths y = some q ∧ denoted tenths z = some m ∧
      0 < m ∧ Multiple m p ∧ Multiple m q ∧
      (∀ t, Multiple t m ↔ Multiple t p ∧ Multiple t q) ∧
      (∀ t, 0 < t → Multiple t p → Multiple t q → m ≤ t) ∧
      ∃ (i j : Nat) (scale : Int), p = i * 10 ^ (-scale) ∧ q = j * 10 ^ (-scale) ∧
        m = Nat.lcm i j * 10 ^ (-scale) :=
  have spells : Spells tenths fun _ => true :=
    ⟨fun x _ => by cases x <;> simp [tenths, mantissa, isExponentMark, isDigit],
      fun x _ => by cases x <;> decide,
      fun
        | .two, _ => ⟨'2', by decide⟩
        | .three, _ => ⟨'3', by decide⟩
        | .six, _ => ⟨'6', by decide⟩⟩
  intersectMultipleOf_lcm spells rfl

end Gufo.Lexeme.MultipleOf
