import Mathlib.Logic.Function.Iterate

/-!
# Arithmetic without carries, modulo a polynomial

A vector of `w` bits is a polynomial over the field of two elements, reduced modulo
`x ^ w + p`; its sum is `^^^`. Multiplication by `x` is one shift. Everything else is a sum
of its powers: the value of a longer vector, and the product with another polynomial.
-/

namespace Gufo.Carryless

variable {w : Nat} (p : BitVec w)

/-- Multiplication by `x`. -/
def mulX (a : BitVec w) : BitVec w := (a <<< 1) ^^^ (if a.msb then p else 0#w)

/-- One message bit joins the remainder, the most significant bit first. -/
def feed (a : BitVec w) (bit : Bool) : BitVec w :=
  (a <<< 1) ^^^ (if a.msb ^^ bit then p else 0#w)

variable {p} {f g : Nat → Bool} {a b : BitVec w} {k n m : Nat}

theorem xor_xor_xor_comm (a b c d : BitVec w) : a ^^^ b ^^^ (c ^^^ d) = a ^^^ c ^^^ (b ^^^ d) := by
  ac_rfl

theorem ite_xor (c d : Bool) (a : BitVec w) :
    (if c ^^ d then a else 0#w) = (if c then a else 0#w) ^^^ (if d then a else 0#w) := by
  cases c <;> cases d <;> simp

theorem mulX_xor (a b : BitVec w) : mulX p (a ^^^ b) = mulX p a ^^^ mulX p b := by
  unfold mulX
  rw [BitVec.msb_xor, BitVec.shiftLeft_xor_distrib, ite_xor, xor_xor_xor_comm]

theorem feed_eq (a : BitVec w) (bit : Bool) :
    feed p a bit = mulX p a ^^^ (if bit then p else 0#w) := by
  rw [feed, mulX, ite_xor, BitVec.xor_assoc]

/-- Multiplication loses nothing where the polynomial has a constant term. -/
theorem mulX_injective (odd : p.getLsbD 0 = true) : Function.Injective (mulX p) := by
  intro a b same
  have zero : mulX p (a ^^^ b) = 0#w := by rw [mulX_xor, same, BitVec.xor_self]
  -- the constant term of the product is the bit pushed out
  have out : (a ^^^ b).msb = false := by
    have bit := congrArg (fun v => v.getLsbD 0) zero
    cases pushed : (a ^^^ b).msb with
    | false => rfl
    | true => simp [mulX, pushed, odd] at bit
  simp only [mulX, out, Bool.false_eq_true, if_false, BitVec.xor_zero] at zero
  refine BitVec.xor_eq_zero_iff.mp (BitVec.eq_of_getLsbD_eq fun i below => ?_)
  by_cases last : i = w - 1
  · rw [BitVec.msb_eq_getLsbD_last, ← last] at out
    simpa using out
  · have bit := congrArg (fun v => v.getLsbD (i + 1)) zero
    simpa [below, show i + 1 < w by omega] using bit

@[simp] theorem mulX_zero : mulX p 0#w = 0#w := by simp [mulX]

theorem iterate_xor (k : Nat) (a b : BitVec w) :
    (mulX p)^[k] (a ^^^ b) = (mulX p)^[k] a ^^^ (mulX p)^[k] b := by
  induction k with
  | zero => rfl
  | succ k ih => simp [Function.iterate_succ_apply', ih, mulX_xor]

@[simp] theorem iterate_zero_vec (k : Nat) : (mulX p)^[k] 0#w = 0#w :=
  Function.iterate_fixed mulX_zero k

theorem iterate_iterate (k n : Nat) (a : BitVec w) :
    (mulX p)^[k] ((mulX p)^[n] a) = (mulX p)^[k + n] a :=
  (Function.iterate_add_apply (mulX p) k n a).symm

theorem iterate_ite (k : Nat) (c : Bool) (a : BitVec w) :
    (mulX p)^[k] (if c then a else 0#w) = if c then (mulX p)^[k] a else 0#w := by
  cases c <;> simp

/-- No bit leaves the vector, so nothing is reduced. -/
theorem iterate_eq_shiftLeft (high : ∀ i, w - k ≤ i → a.getLsbD i = false) (le : k ≤ w) :
    (mulX p)^[k] a = a <<< k := by
  induction k with
  | zero => simp
  | succ k ih =>
    have top : (a <<< k).msb = false := by
      rw [BitVec.msb_eq_getLsbD_last, BitVec.getLsbD_shiftLeft, high _ (by omega)]
      simp
    rw [Function.iterate_succ_apply', ih (fun i above => high i (by omega)) (by omega), mulX, top]
    simp [BitVec.shiftLeft_add]

theorem iterate_one (below : k < w) : (mulX p)^[k] 1#w = 1#w <<< k := by
  refine iterate_eq_shiftLeft (fun i above => ?_) (by omega)
  simp only [BitVec.getLsbD_one, Bool.and_eq_false_imp, decide_eq_true_eq, decide_eq_false_iff_not]
  omega

/-- The reduction itself. -/
theorem iterate_width (positive : 0 < w) : (mulX p)^[w] 1#w = p := by
  have last : (mulX p)^[w] 1#w = mulX p ((mulX p)^[w - 1] 1#w) := by
    rw [← Function.iterate_succ_apply' (mulX p), Nat.succ_eq_add_one, Nat.sub_add_cancel positive]
  have top : (1#w <<< (w - 1)).msb = true := by
    have last_bit : w - 1 < w := by omega
    simp [positive]
  rw [last, iterate_one (by omega), mulX, top, ← BitVec.shiftLeft_add, Nat.sub_add_cancel positive]
  simp

/-! ## Sums of powers -/

variable (p) in
/-- The sum of `x ^ i * a` over the first `n` bits that are set. -/
def combine (f : Nat → Bool) (a : BitVec w) : Nat → BitVec w
  | 0 => 0#w
  | n + 1 => combine f a n ^^^ if f n then (mulX p)^[n] a else 0#w

attribute [local simp] combine in
theorem combine_congr (same : ∀ i < n, f i = g i) : combine p f a n = combine p g a n := by
  induction n with
  | zero => rfl
  | succ n ih =>
    simp only [combine, ih fun i below => same i (by omega), same n (by omega)]

theorem combine_false (none_set : ∀ i < n, f i = false) : combine p f a n = 0#w := by
  induction n with
  | zero => rfl
  | succ n ih => simp [combine, ih fun i below => none_set i (by omega), none_set n (by omega)]

theorem combine_bne :
    combine p (fun i => f i ^^ g i) a n = combine p f a n ^^^ combine p g a n := by
  induction n with
  | zero => simp [combine]
  | succ n ih => rw [combine, ih, combine, combine, ite_xor, xor_xor_xor_comm]

theorem combine_xor : combine p f (a ^^^ b) n = combine p f a n ^^^ combine p f b n := by
  induction n with
  | zero => simp [combine]
  | succ n ih =>
    rw [combine, ih, combine, combine, xor_xor_xor_comm]
    cases f n <;> simp [iterate_xor]

@[simp] theorem combine_zero : combine p f 0#w n = 0#w := by
  induction n with
  | zero => rfl
  | succ n ih => simp [combine, ih]

theorem combine_iterate : combine p f ((mulX p)^[k] a) n = (mulX p)^[k] (combine p f a n) := by
  induction n with
  | zero => simp [combine]
  | succ n ih =>
    rw [combine, ih, combine, iterate_xor, iterate_ite, ← Function.iterate_add_apply,
      ← Function.iterate_add_apply, Nat.add_comm]

/-- Multiplication commutes. -/
theorem combine_comm :
    combine p f (combine p g a m) n = combine p g (combine p f a n) m := by
  induction m with
  | zero => simp [combine]
  | succ m ih =>
    rw [combine, combine_xor, ih, combine]
    cases g m
    · simp
    · simp [combine_iterate]

theorem combine_add :
    combine p f a (n + m) =
      combine p f a n ^^^ (mulX p)^[n] (combine p (fun i => f (n + i)) a m) := by
  induction m with
  | zero => simp [combine]
  | succ m ih =>
    rw [← Nat.add_assoc, combine, ih, combine, iterate_xor, iterate_ite,
      ← Function.iterate_add_apply, BitVec.xor_assoc]

/-! ## The value of a vector -/

variable (p) in
/-- The polynomial of a vector, reduced. -/
def value (v : BitVec n) : BitVec w := combine p v.getLsbD 1#w n

theorem value_xor (u v : BitVec n) : value p (u ^^^ v) = value p u ^^^ value p v := by
  rw [value, combine_congr (fun i _ => BitVec.getLsbD_xor), combine_bne]
  rfl

/-- The bits behind the end of a vector add nothing. -/
theorem combine_getLsbD (v : BitVec n) (le : n ≤ m) :
    combine p v.getLsbD a m = combine p v.getLsbD a n := by
  obtain ⟨more, rfl⟩ := Nat.exists_eq_add_of_le le
  rw [combine_add, combine_false (n := more) fun i _ => BitVec.getLsbD_of_ge v _ (by omega)]
  simp

theorem value_extractLsb' (v : BitVec m) (start : Nat) :
    value p (v.extractLsb' start n) = combine p (fun i => v.getLsbD (start + i)) 1#w n :=
  combine_congr fun i below => by simp [below]

/-- Multiplication by a power of `x` is a shift where there is room for it. -/
theorem value_setWidth_shiftLeft (v : BitVec n) (room : n + k ≤ m) :
    value p (v.setWidth m <<< k) = (mulX p)^[k] (value p v) := by
  obtain ⟨rest, rfl⟩ := Nat.exists_eq_add_of_le (show k ≤ m by omega)
  rw [value, combine_add, combine_false (n := k) fun i below => by simp [below], BitVec.zero_xor,
    combine_congr (g := v.getLsbD) fun i below => by simp [below], combine_getLsbD v (by omega)]
  rfl

theorem getLsbD_combine (le : n ≤ w) (i : Nat) :
    (combine p f 1#w n).getLsbD i = (decide (i < n) && f i) := by
  induction n with
  | zero => simp [combine]
  | succ n ih =>
    have bit : (1#w <<< n).getLsbD i = decide (i = n) := by
      by_cases same : i = n
      · simp [same]; omega
      · simp [same]; omega
    rw [combine, iterate_one (by omega), BitVec.getLsbD_xor, ih (by omega)]
    by_cases same : i = n
    · subst same
      cases f i <;> simp [bit]
    · have below : (i < n + 1) ↔ i < n := by omega
      cases f n <;> simp [bit, same, below]

/-- A vector that needs no reduction is its own value. -/
theorem value_self (v : BitVec w) : value p v = v := by
  refine BitVec.eq_of_getLsbD_eq fun i below => ?_
  rw [value, getLsbD_combine (Nat.le_refl w)]
  simp [below]

/-- What a shift pushes out comes back reduced. -/
theorem iterate_eq (v : BitVec w) (le : k ≤ w) :
    (mulX p)^[k] v = v <<< k ^^^ (mulX p)^[w] (value p (v.extractLsb' (w - k) k)) := by
  have parts := combine_add (p := p) (f := v.getLsbD) (a := 1#w) (n := w - k) (m := k)
  rw [Nat.sub_add_cancel le, ← value_extractLsb'] at parts
  have low : (mulX p)^[k] (combine p v.getLsbD 1#w (w - k)) = v <<< k := by
    have shifted := combine_add (p := p) (f := (v <<< k).getLsbD) (a := 1#w) (n := k) (m := w - k)
    rw [Nat.add_sub_cancel' le, combine_false (n := k) fun i below => by simp [below],
      BitVec.zero_xor] at shifted
    rw [combine_congr (g := fun i => (v <<< k).getLsbD (k + i)) fun i below => ?_]
    · exact shifted.symm.trans (value_self _)
    · simp only [BitVec.getLsbD_shiftLeft, Nat.add_sub_cancel_left]
      have inside : k + i < w := by omega
      simp [inside]
  have whole : (mulX p)^[k] v = (mulX p)^[k] (combine p v.getLsbD 1#w w) :=
    congrArg _ (value_self v).symm
  rw [whole, parts, iterate_xor, low, ← Function.iterate_add_apply, Nat.add_sub_cancel' le]

/-- A message of bits: what they push out of the remainder, and their own value behind it. -/
theorem foldl_feed (positive : 0 < w) (f : Nat → Bool) (n : Nat) (a : BitVec w) :
    ((List.range n).map fun i => f (n - 1 - i)).foldl (feed p) a =
      (mulX p)^[n] a ^^^ (mulX p)^[w] (combine p f 1#w n) := by
  induction n generalizing a with
  | zero => simp [combine]
  | succ n ih =>
    rw [List.range_succ_eq_map, List.map_cons, List.map_map, List.foldl_cons]
    have rest : ((fun i => f (n + 1 - 1 - i)) ∘ Nat.succ) = fun i => f (n - 1 - i) := by
      funext i
      simp only [Function.comp_apply, Nat.succ_eq_add_one, Nat.add_sub_cancel]
      congr 1
      omega
    rw [rest, ih, feed_eq, iterate_xor, ← Function.iterate_succ_apply, combine, iterate_xor,
      iterate_ite, iterate_ite, ← Function.iterate_add_apply, Nat.add_comm w n,
      Function.iterate_add_apply (mulX p) n w, iterate_width positive]
    simp only [Nat.add_sub_cancel, Nat.sub_zero, BitVec.xor_assoc]
    rw [BitVec.xor_comm (if f n then _ else _)]

end Gufo.Carryless
