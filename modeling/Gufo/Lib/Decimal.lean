import Mathlib.Data.Nat.Digits.Lemmas
import Mathlib.Tactic.Ring
import Mathlib.Tactic.Linarith

/-!
# Decimal digit strings

Digits from the most significant on. A string is canonical when it has a digit and
no leading zero; canonical strings are the numbers, and of equal length they are
compared as strings.
-/

namespace Gufo.Decimal

def value (ds : List Nat) : Nat := Nat.ofDigits 10 ds.reverse

def Digits (ds : List Nat) : Prop := ∀ d ∈ ds, d < 10

/-- At least one digit, and no leading zero where there are more. -/
structure Canonical (ds : List Nat) : Prop where
  nonempty : ds ≠ []
  digits : Digits ds
  leading : 1 < ds.length → 10 ^ (ds.length - 1) ≤ value ds

def decimal (n : Nat) : List Nat := if n = 0 then [0] else (Nat.digits 10 n).reverse

@[simp]
theorem value_nil : value [] = 0 := rfl

@[simp]
theorem value_cons (d : Nat) (ds : List Nat) : value (d :: ds) = d * 10 ^ ds.length + value ds := by
  rw [value, List.reverse_cons, Nat.ofDigits_append, List.length_reverse, Nat.ofDigits_singleton,
    value]
  ring

@[simp]
theorem digits_nil : Digits [] := nofun

variable {ds : List Nat}

@[simp]
theorem digits_cons {d : Nat} : Digits (d :: ds) ↔ d < 10 ∧ Digits ds :=
  List.forall_mem_cons

theorem value_lt (h : Digits ds) : value ds < 10 ^ ds.length := by
  induction ds with
  | nil => simp
  | cons d ds ih =>
    obtain ⟨d_lt, rest⟩ := digits_cons.mp h
    have := ih rest
    have step : (d + 1) * 10 ^ ds.length ≤ 10 * 10 ^ ds.length := Nat.mul_le_mul_right _ d_lt
    rw [value_cons, List.length_cons, pow_succ]
    linarith

theorem value_zeros (n : Nat) : value (List.replicate n 0) = 0 := by
  induction n with
  | zero => rfl
  | succ n ih => simp [List.replicate_succ, ih]

theorem value_nines (n : Nat) : value (List.replicate n 9) + 1 = 10 ^ n := by
  induction n with
  | zero => rfl
  | succ n ih =>
    rw [List.replicate_succ, value_cons, List.length_replicate, pow_succ]
    linarith

theorem digits_replicate {d : Nat} (lt : d < 10) (n : Nat) : Digits (List.replicate n d) :=
  fun _ mem => (List.mem_replicate.mp mem).2 ▸ lt

variable {as bs : List Nat}

/-- The leading digits decide, and then the rest. -/
theorem value_cons_le {a b : Nat} (same : as.length = bs.length)
    (ha : Digits as) (hb : Digits bs) :
    value (a :: as) ≤ value (b :: bs) ↔ a < b ∨ a = b ∧ value as ≤ value bs := by
  have la := value_lt ha
  have lb := value_lt hb
  rw [value_cons, value_cons, same]
  rw [same] at la
  constructor
  · intro le
    rcases Nat.lt_trichotomy a b with lt | rfl | gt
    · exact .inl lt
    · exact .inr ⟨rfl, by omega⟩
    · have : (b + 1) * 10 ^ bs.length ≤ a * 10 ^ bs.length := Nat.mul_le_mul_right _ gt
      linarith
  · rintro (lt | ⟨rfl, le⟩)
    · have : (a + 1) * 10 ^ bs.length ≤ b * 10 ^ bs.length := Nat.mul_le_mul_right _ lt
      linarith
    · omega

theorem value_inj (same : as.length = bs.length) (ha : Digits as)
    (hb : Digits bs) (eq : value as = value bs) : as = bs := by
  induction as generalizing bs with
  | nil => exact (List.length_eq_zero_iff.mp same.symm).symm
  | cons a as ih =>
    cases bs with
    | nil => cases same
    | cons b bs =>
      have same' : as.length = bs.length := Nat.succ.inj same
      obtain ⟨_, ha'⟩ := digits_cons.mp ha
      obtain ⟨_, hb'⟩ := digits_cons.mp hb
      rcases (value_cons_le same' ha' hb').mp eq.le with lt | ⟨rfl, le⟩
      · rcases (value_cons_le same'.symm hb' ha').mp eq.ge with gt | ⟨rfl, _⟩
        · exact absurd lt (Nat.lt_asymm gt)
        · exact absurd lt (Nat.lt_irrefl _)
      · rw [ih same' ha' hb' (by simp only [value_cons, same'] at eq; omega)]

/-! ## Canonical strings -/

theorem Canonical.lt (c : Canonical ds) : value ds < 10 ^ ds.length :=
  value_lt c.digits

theorem Canonical.length_pos (c : Canonical ds) : 0 < ds.length :=
  List.length_pos_iff.mpr c.nonempty

theorem Canonical.zero (c : Canonical (0 :: ds)) : ds = [] := by
  by_contra some
  have pos := List.length_pos_iff.mpr some
  have lead := c.leading (by simp only [List.length_cons]; omega)
  have below := value_lt (digits_cons.mp c.digits).2
  rw [value_cons, List.length_cons, Nat.add_sub_cancel] at lead
  omega

/-- A number has one canonical length. -/
theorem Canonical.length_le (ha : Canonical as) (hb : Canonical bs)
    (le : value as ≤ value bs) : as.length ≤ bs.length := by
  by_contra gt
  have pos := hb.length_pos
  have low := ha.leading (by omega)
  have high := hb.lt
  have grow : 10 ^ bs.length ≤ 10 ^ (as.length - 1) := Nat.pow_le_pow_right (by decide) (by omega)
  omega

theorem Canonical.eq (ha : Canonical as) (hb : Canonical bs)
    (eq : value as = value bs) : as = bs :=
  value_inj (Nat.le_antisymm (ha.length_le hb eq.le) (hb.length_le ha eq.ge)) ha.digits hb.digits eq

theorem value_decimal (n : Nat) : value (decimal n) = n := by
  unfold decimal
  split
  · simp_all
  · rw [value, List.reverse_reverse, Nat.ofDigits_digits]

theorem canonical_decimal (n : Nat) : Canonical (decimal n) := by
  by_cases zero : n = 0
  · subst zero
    exact ⟨by decide, by simp [decimal], by simp [decimal]⟩
  · have is : decimal n = (Nat.digits 10 n).reverse := if_neg zero
    refine ⟨?_, fun d mem => ?_, fun _ => ?_⟩
    · rw [is]
      simpa using Nat.digits_ne_nil_iff_ne_zero.mpr zero
    · rw [is, List.mem_reverse] at mem
      exact Nat.digits_lt_base (by decide) mem
    · rw [value_decimal, is, List.length_reverse]
      have := (Nat.length_digits 10 n (by decide) zero).symm
      rw [← this, Nat.add_sub_cancel]
      exact Nat.pow_log_le_self 10 zero

theorem length_decimal {n k : Nat} (pos : 0 < k) (lt : n < 10 ^ k) : (decimal n).length ≤ k := by
  by_contra long
  have lead := (canonical_decimal n).leading (by omega)
  have grow : 10 ^ k ≤ 10 ^ ((decimal n).length - 1) :=
    Nat.pow_le_pow_right (by decide) (by omega)
  rw [value_decimal] at lead
  omega

theorem canonical_iff : Canonical ds ↔ ds = decimal (value ds) := by
  constructor
  · intro c
    exact c.eq (canonical_decimal _) (value_decimal _).symm
  · intro eq
    exact eq ▸ canonical_decimal _

theorem decimal_eq_zero {n : Nat} : decimal n = [0] ↔ n = 0 := by
  constructor
  · intro eq
    have := congrArg value eq
    rwa [value_decimal] at this
  · rintro rfl
    rfl

/-! ## One more and one less -/

/-- With the last digit first, until one carries no more. -/
def carry : List Nat → List Nat
  | [] => [1]
  | d :: ds => if d ≠ 9 then (d + 1) :: ds else 0 :: carry ds

def borrow : List Nat → List Nat
  | [] => []
  | d :: ds => if d ≠ 0 then (d - 1) :: ds else 9 :: borrow ds

def increment (ds : List Nat) : List Nat := (carry ds.reverse).reverse

def decrement (ds : List Nat) : List Nat :=
  let less := (borrow ds.reverse).reverse
  if 1 < less.length ∧ less.head? = some 0 then less.tail else less

theorem ofDigits_carry (ds : List Nat) : Nat.ofDigits 10 (carry ds) = Nat.ofDigits 10 ds + 1 := by
  induction ds with
  | nil => rfl
  | cons d ds ih =>
    rw [carry]
    split
    · simp only [Nat.ofDigits_cons]
      omega
    · simp only [Nat.ofDigits_cons, ih]
      omega

theorem ofDigits_borrow (pos : 0 < Nat.ofDigits 10 ds) :
    Nat.ofDigits 10 (borrow ds) + 1 = Nat.ofDigits 10 ds := by
  induction ds with
  | nil => exact absurd pos (by simp)
  | cons d ds ih =>
    rw [borrow]
    rw [Nat.ofDigits_cons] at pos
    split
    · simp only [Nat.ofDigits_cons]
      omega
    · simp only [Nat.ofDigits_cons]
      omega

theorem digits_carry (h : Digits ds) : Digits (carry ds) := by
  induction ds with
  | nil => simp [carry]
  | cons d ds ih =>
    obtain ⟨lt, rest⟩ := digits_cons.mp h
    rw [carry]
    split
    · exact digits_cons.mpr ⟨by omega, rest⟩
    · exact digits_cons.mpr ⟨by decide, ih rest⟩

theorem digits_borrow (h : Digits ds) : Digits (borrow ds) := by
  induction ds with
  | nil => exact h
  | cons d ds ih =>
    obtain ⟨lt, rest⟩ := digits_cons.mp h
    rw [borrow]
    split
    · exact digits_cons.mpr ⟨by omega, rest⟩
    · exact digits_cons.mpr ⟨by decide, ih rest⟩

@[simp]
theorem length_borrow (ds : List Nat) : (borrow ds).length = ds.length := by
  induction ds with
  | nil => rfl
  | cons d ds ih =>
    rw [borrow]
    split <;> simp [ih]

/-- A carry out of the string leaves a power of ten. -/
theorem length_carry (ds : List Nat) :
    (carry ds).length = ds.length ∨
      (carry ds).length = ds.length + 1 ∧ Nat.ofDigits 10 (carry ds) = 10 ^ ds.length := by
  induction ds with
  | nil => exact .inr ⟨rfl, rfl⟩
  | cons d ds ih =>
    rw [carry]
    split
    · exact .inl rfl
    · rcases ih with same | ⟨more, power⟩
      · exact .inl (by simp [same])
      · exact .inr ⟨by simp [more], by
          rw [Nat.ofDigits_cons, power, List.length_cons, pow_succ]; omega⟩

theorem digits_reverse : Digits ds.reverse ↔ Digits ds := by simp [Digits]

theorem value_increment (ds : List Nat) : value (increment ds) = value ds + 1 := by
  rw [value, increment, List.reverse_reverse, ofDigits_carry, value]

theorem canonical_increment (c : Canonical ds) : Canonical (increment ds) := by
  have grown := value_increment ds
  rcases length_carry ds.reverse with same | ⟨more, power⟩
  · have len : (increment ds).length = ds.length := by simpa [increment] using same
    refine ⟨?_, digits_reverse.mpr (digits_carry (digits_reverse.mpr c.digits)), fun many => ?_⟩
    · exact List.ne_nil_of_length_pos (len ▸ c.length_pos)
    · rw [len] at many ⊢
      have := c.leading many
      omega
  · have len : (increment ds).length = ds.length + 1 := by simpa [increment] using more
    refine ⟨?_, digits_reverse.mpr (digits_carry (digits_reverse.mpr c.digits)), fun _ => ?_⟩
    · exact List.ne_nil_of_length_pos (by omega)
    · rw [len, Nat.add_sub_cancel, value, increment, List.reverse_reverse, power,
        List.length_reverse]

theorem increment_decimal (n : Nat) : increment (decimal n) = decimal (n + 1) := by
  have := canonical_iff.mp (canonical_increment (canonical_decimal n))
  rwa [value_increment, value_decimal] at this

theorem value_tail (zero : ds.head? = some 0) : value ds.tail = value ds := by
  cases ds with
  | nil => cases zero
  | cons d ds =>
    cases zero
    simp

theorem decrement_decimal {n : Nat} (pos : 0 < n) : decrement (decimal n) = decimal (n - 1) := by
  have c := canonical_decimal n
  have is : Nat.ofDigits 10 (decimal n).reverse = n := value_decimal n
  have below := ofDigits_borrow (is.symm ▸ pos)
  unfold decrement
  generalize eq : (borrow (decimal n).reverse).reverse = less
  have valueLess : value less = n - 1 := by
    rw [← eq, value, List.reverse_reverse]
    omega
  have len : less.length = (decimal n).length := by simp [← eq]
  have digits : Digits less :=
    eq ▸ digits_reverse.mpr (digits_borrow (digits_reverse.mpr c.digits))
  dsimp only
  split
  · rename_i drop
    -- The string has lost its first digit, so it consists of nines.
    have short : less.tail.length = (decimal n).length - 1 := by simp [len]
    have low := c.leading (by omega)
    rw [value_decimal] at low
    have tail : Canonical less.tail := by
      refine ⟨?_, fun d mem => digits d (List.mem_of_mem_tail mem), fun many => ?_⟩
      · exact List.ne_nil_of_length_pos (by omega)
      · rw [value_tail drop.2, valueLess, short]
        have up : 10 ^ ((decimal n).length - 1) = 10 * 10 ^ ((decimal n).length - 1 - 1) := by
          rw [← pow_succ']
          congr 1
          omega
        omega
    rw [canonical_iff.mp tail, value_tail drop.2, valueLess]
  · rename_i keep
    have whole : Canonical less := by
      refine ⟨List.ne_nil_of_length_pos (len ▸ c.length_pos), digits, fun many => ?_⟩
      cases less with
      | nil => simp at many
      | cons d ds =>
        have nonzero : d ≠ 0 := fun zero => keep ⟨many, by simp [zero]⟩
        rw [value_cons, List.length_cons, Nat.add_sub_cancel]
        have : 1 * 10 ^ ds.length ≤ d * 10 ^ ds.length :=
          Nat.mul_le_mul_right _ (Nat.pos_of_ne_zero nonzero)
        omega
    rw [canonical_iff.mp whole, valueLess]

/-! ## Comparing strings -/

/-- The order of two strings of one length, as `std::string::compare` gives it. -/
def before : List Nat → List Nat → Bool
  | a :: as, b :: bs => decide (a < b) || decide (a = b) && before as bs
  | [], _ => true
  | _ :: _, [] => false

theorem before_iff (same : as.length = bs.length) (ha : Digits as)
    (hb : Digits bs) : before as bs = true ↔ value as ≤ value bs := by
  induction as generalizing bs with
  | nil =>
    cases bs with
    | nil => simp [before]
    | cons => cases same
  | cons a as ih =>
    cases bs with
    | nil => cases same
    | cons b bs =>
      have same' : as.length = bs.length := Nat.succ.inj same
      obtain ⟨_, ha'⟩ := digits_cons.mp ha
      obtain ⟨_, hb'⟩ := digits_cons.mp hb
      rw [value_cons_le same' ha' hb', before, ← ih same' ha' hb']
      simp

end Gufo.Decimal
