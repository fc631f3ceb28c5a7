import Gufo.Regex.Automaton
import Mathlib.Tactic.Ring

/-!
# How a character of a JSON string is spelled

A character of a string literal stands for itself in UTF-8, or for an escape of two
bytes, four hexadecimal digits or a surrogate pair. `Spelling` lists the ways. No
spelling begins another, and what has been read of one leaves the characters of a range.
-/

namespace Gufo.Lexeme
open Gufo.Regex

/-! ## Digits -/

/-- The value of the digits, read on from a value. -/
def digits (digit : Nat → Option Nat) (base : Nat) : List Nat → Nat → Option Nat
  | [], value => some value
  | b :: rest, value => (digit b).bind fun d => digits digit base rest (value * base + d)

/-- Each digit has a byte, and no byte has more. -/
structure Numeral (digit : Nat → Option Nat) (base : Nat) : Prop where
  small : ∀ b d, digit b = some d → d < base
  byte : ∀ b d, digit b = some d → b < 256
  every : ∀ d < base, ∃ b, digit b = some d

section
variable {digit : Nat → Option Nat} {base : Nat}

theorem digits_append {as bs : List Nat} {v : Nat} :
    digits digit base (as ++ bs) v = (digits digit base as v).bind (digits digit base bs) := by
  induction as generalizing v with
  | nil => rfl
  | cons b as ih =>
    rw [List.cons_append, digits, digits]
    cases digit b with
    | none => rfl
    | some d => exact ih

theorem digits_bound (numeral : Numeral digit base) {bs : List Nat} {v t : Nat}
    (read : digits digit base bs v = some t) :
    v * base ^ bs.length ≤ t ∧ t < (v + 1) * base ^ bs.length := by
  induction bs generalizing v with
  | nil =>
    cases read
    simp
  | cons b bs ih =>
    obtain ⟨d, here, rest⟩ := Option.bind_eq_some_iff.mp read
    have small := numeral.small b d here
    obtain ⟨low, high⟩ := ih rest
    rw [List.length_cons, pow_succ']
    have first : v * (base * base ^ bs.length) ≤ (v * base + d) * base ^ bs.length := by
      rw [← mul_assoc]
      exact Nat.mul_le_mul_right _ (Nat.le_add_right ..)
    have last : (v * base + d + 1) * base ^ bs.length ≤ (v + 1) * (base * base ^ bs.length) := by
      rw [← mul_assoc]
      refine Nat.mul_le_mul_right _ ?_
      rw [Nat.add_mul, Nat.one_mul]
      omega
    exact ⟨first.trans low, high.trans_le last⟩

/-- With `n` more digits a value becomes any of its range. -/
theorem digits_iff (numeral : Numeral digit base) {n v t : Nat} :
    (∃ bs, bs.length = n ∧ digits digit base bs v = some t) ↔
      v * base ^ n ≤ t ∧ t < (v + 1) * base ^ n := by
  constructor
  · rintro ⟨bs, rfl, read⟩
    exact digits_bound numeral read
  · rintro ⟨low, high⟩
    induction n generalizing v with
    | zero => exact ⟨[], rfl, by simp at low high; simp [digits]; omega⟩
    | succ n ih =>
      have pos : 0 < base ^ n := by
        by_contra none
        rw [pow_succ', Nat.eq_zero_of_not_pos none] at high
        simp at high
      -- the next digit is that of the quotient
      have split := Nat.div_add_mod t (base ^ n)
      have lower : v * base ≤ t / base ^ n := by
        rw [Nat.le_div_iff_mul_le pos, mul_assoc, ← pow_succ']
        exact low
      have upper : t / base ^ n < (v + 1) * base := by
        rw [Nat.div_lt_iff_lt_mul pos, mul_assoc, ← pow_succ']
        exact high
      rw [Nat.add_mul, Nat.one_mul] at upper
      obtain ⟨b, here⟩ := numeral.every (t / base ^ n - v * base) (by omega)
      have value : v * base + (t / base ^ n - v * base) = t / base ^ n := by omega
      obtain ⟨bs, len, read⟩ := @ih (t / base ^ n) (Nat.div_mul_le_self ..) (by
        rw [Nat.add_mul, Nat.one_mul, mul_comm]
        have := Nat.mod_lt t pos
        omega)
      exact ⟨b :: bs, by simp [len], by rw [digits, here, Option.bind_some, value, read]⟩

end

/-- The value of a hexadecimal digit. -/
def hexDigit (b : Nat) : Option Nat :=
  if 48 ≤ b ∧ b ≤ 57 then some (b - 48)
  else if 97 ≤ b ∧ b ≤ 102 then some (b - 97 + 10)
  else if 65 ≤ b ∧ b ≤ 70 then some (b - 65 + 10)
  else none

/-- The six bits of a continuation byte. -/
def continuation (b : Nat) : Option Nat :=
  if 0x80 ≤ b ∧ b ≤ 0xbf then some (b % 64) else none

theorem hexDigit_numeral : Numeral hexDigit 16 where
  small b d here := by
    unfold hexDigit at here
    split at here
    · cases here; omega
    split at here
    · cases here; omega
    split at here
    · cases here; omega
    · cases here
  byte b d here := by
    unfold hexDigit at here
    split at here
    · omega
    split at here
    · omega
    split at here
    · omega
    · cases here
  every d lt := by
    have all : ∀ d < 16, hexDigit (if d < 10 then 48 + d else 87 + d) = some d := by decide
    exact ⟨_, all d lt⟩

theorem continuation_numeral : Numeral continuation 64 where
  small b d here := by
    unfold continuation at here
    split at here
    · cases here; omega
    · cases here
  byte b d here := by
    unfold continuation at here
    split at here
    · omega
    · cases here
  every d lt := ⟨0x80 + d, by unfold continuation; rw [if_pos (by omega)]; congr 1; omega⟩

/-! ## Spellings -/

def utf8 (cp : Nat) : List Nat :=
  if cp < 0x80 then [cp]
  else if cp < 0x800 then [0xc0 + cp / 64, 0x80 + cp % 64]
  else if cp < 0x10000 then [0xe0 + cp / 4096, 0x80 + cp / 64 % 64, 0x80 + cp % 64]
  else [0xf0 + cp / 262144, 0x80 + cp / 4096 % 64, 0x80 + cp / 64 % 64, 0x80 + cp % 64]

/-- The letters after a backslash, and the characters they stand for. -/
def shortEscapes : List (Nat × Nat) :=
  [(34, 34), (92, 92), (47, 47), (98, 8), (102, 12), (110, 10), (114, 13), (116, 9)]

/-- Four hexadecimal digits. -/
structure Quad (ds : List Nat) (value : Nat) : Prop where
  length : ds.length = 4
  read : digits hexDigit 16 ds 0 = some value

inductive Spelling : Nat → List Nat → Prop
  | raw {cp} (scalar : Scalar cp) (printable : 0x20 ≤ cp) (quote : cp ≠ 34) (slash : cp ≠ 92) :
      Spelling cp (utf8 cp)
  | short {letter cp} (mem : (letter, cp) ∈ shortEscapes) : Spelling cp [92, letter]
  | unicode {cp ds} (scalar : Scalar cp) (quad : Quad ds cp) : Spelling cp (92 :: 117 :: ds)
  | pair {high low ds es} (first : Quad ds high) (second : Quad es low)
      (isHigh : 0xd800 ≤ high ∧ high ≤ 0xdbff) (isLow : 0xdc00 ≤ low ∧ low ≤ 0xdfff) :
      Spelling (0x10000 + (high - 0xd800) * 1024 + (low - 0xdc00))
        (92 :: 117 :: ds ++ 92 :: 117 :: es)

/-- A string literal and the characters it stands for. -/
structure Literal (cs : List Nat) (w : List Nat) : Prop where
  spelled : ∃ spellings, List.Forall₂ Spelling cs spellings ∧ w = 34 :: spellings.flatten ++ [34]

theorem Quad.small {ds : List Nat} {value : Nat} (quad : Quad ds value) : value < 0x10000 := by
  have := (digits_bound hexDigit_numeral quad.read).2
  rw [quad.length] at this
  omega

theorem exists_quad {value : Nat} (small : value < 0x10000) : ∃ ds, Quad ds value := by
  obtain ⟨ds, length, read⟩ := (digits_iff hexDigit_numeral (n := 4) (v := 0) (t := value)).mpr
    ⟨by omega, by omega⟩
  exact ⟨ds, length, read⟩

theorem Spelling.scalar {cp : Nat} {bytes : List Nat} (s : Spelling cp bytes) : Scalar cp := by
  cases s with
  | raw scalar => exact scalar
  | short mem =>
    have : ∀ p ∈ shortEscapes, Scalar p.2 := by decide
    exact this _ mem
  | unicode scalar => exact scalar
  | pair _ _ isHigh isLow =>
    refine .inr ⟨?_, ?_⟩ <;> omega

/-! ## What begins a spelling -/

/-- The bytes of a character that begins with `b`, if it has more than one. -/
def utf8Width (b : Nat) : Nat :=
  if 0xc2 ≤ b ∧ b ≤ 0xdf then 2
  else if 0xe0 ≤ b ∧ b ≤ 0xef then 3
  else if 0xf0 ≤ b ∧ b ≤ 0xf4 then 4
  else 0

/-- The least character of that many bytes. -/
def utf8Minimum (width : Nat) : Nat :=
  if width = 2 then 0x80 else if width = 3 then 0x800 else 0x10000

theorem utf8_head (cp : Nat) : cp < 0x80 ∧ utf8 cp = [cp] ∨
    ∃ b cs, 0xc0 ≤ b ∧ utf8 cp = b :: cs := by
  unfold utf8
  split
  · rename_i small
    exact .inl ⟨small, rfl⟩
  · split
    · exact .inr ⟨_, _, Nat.le_add_right .., rfl⟩
    · split
      · exact .inr ⟨_, _, by omega, rfl⟩
      · exact .inr ⟨_, _, by omega, rfl⟩

theorem spelling_ascii {b cp : Nat} {rest : List Nat} (small : b < 0x80) (slash : b ≠ 92) :
    Spelling cp (b :: rest) ↔ rest = [] ∧ cp = b ∧ 0x20 ≤ b ∧ b ≠ 34 := by
  constructor
  · intro s
    generalize whole : b :: rest = bytes at s
    cases s with
    | raw scalar printable quote =>
      rcases utf8_head cp with ⟨_, one⟩ | ⟨c, cs, high, more⟩
      · cases whole.trans one
        exact ⟨rfl, rfl, printable, quote⟩
      · cases whole.trans more
        omega
    | short | unicode | pair => cases whole; exact absurd rfl slash
  · rintro ⟨rfl, rfl, printable, quote⟩
    have := @Spelling.raw cp (.inl (by omega)) printable quote slash
    rwa [utf8, if_pos small] at this

theorem continuation_some {b d : Nat} :
    continuation b = some d ↔ 0x80 ≤ b ∧ b ≤ 0xbf ∧ b % 64 = d := by
  unfold continuation
  split
  · rename_i tail
    simp [tail]
  · rename_i out
    constructor
    · exact nofun
    · rintro ⟨low, high, -⟩
      exact absurd ⟨low, high⟩ out

theorem digits_cons {digit : Nat → Option Nat} {base b v t : Nat} {bs : List Nat} :
    digits digit base (b :: bs) v = some t ↔
      ∃ d, digit b = some d ∧ digits digit base bs (v * base + d) = some t :=
  Option.bind_eq_some_iff

theorem digits_nil {digit : Nat → Option Nat} {base v t : Nat} :
    digits digit base [] v = some t ↔ v = t := by simp [digits]

theorem utf8_iff {b cp : Nat} {cs : List Nat} (high : 0x80 ≤ b) (top : cp < 0x110000) :
    utf8 cp = b :: cs ↔ cs.length + 1 = utf8Width b ∧
      digits continuation 64 cs (b % 2 ^ (7 - utf8Width b)) = some cp ∧
      utf8Minimum (utf8Width b) ≤ cp := by
  constructor
  · intro whole
    unfold utf8 at whole
    split at whole
    · cases whole; omega
    split at whole
    · cases whole
      rw [show utf8Width (0xc0 + cp / 64) = 2 by unfold utf8Width; rw [if_pos (by omega)]]
      refine ⟨rfl, ?_, by simp [utf8Minimum]; omega⟩
      simp only [digits_cons, continuation_some, digits_nil]
      exact ⟨_, ⟨by omega, by omega, rfl⟩, by omega⟩
    split at whole
    · cases whole
      rw [show utf8Width (0xe0 + cp / 4096) = 3 by
        unfold utf8Width; rw [if_neg (by omega), if_pos (by omega)]]
      refine ⟨rfl, ?_, by simp [utf8Minimum]; omega⟩
      simp only [digits_cons, continuation_some, digits_nil]
      exact ⟨_, ⟨by omega, by omega, rfl⟩, _, ⟨by omega, by omega, rfl⟩, by omega⟩
    · cases whole
      rw [show utf8Width (0xf0 + cp / 262144) = 4 by
        unfold utf8Width; rw [if_neg (by omega), if_neg (by omega), if_pos (by omega)]]
      refine ⟨rfl, ?_, by simp [utf8Minimum]; omega⟩
      simp only [digits_cons, continuation_some, digits_nil]
      exact ⟨_, ⟨by omega, by omega, rfl⟩, _, ⟨by omega, by omega, rfl⟩,
        _, ⟨by omega, by omega, rfl⟩, by omega⟩
  · rintro ⟨length, read, least⟩
    unfold utf8Width at length read least
    split at length
    case isTrue width =>
      rw [if_pos width] at read least
      obtain ⟨c, rfl⟩ := List.length_eq_one_iff.mp (Nat.succ.inj length)
      simp only [digits_cons, continuation_some, digits_nil] at read
      rw [utf8, if_neg (by omega), if_pos (by omega)]
      congr 2 <;> omega
    case isFalse width =>
      rw [if_neg width] at read least
      split at length
      case isTrue width =>
        rw [if_pos width] at read least
        obtain ⟨c, d, rfl⟩ := List.length_eq_two.mp (Nat.succ.inj length)
        simp only [digits_cons, continuation_some, digits_nil] at read
        simp only [utf8Minimum, if_false, if_true, Nat.reduceEqDiff] at least
        rw [utf8, if_neg (by omega), if_neg (by omega), if_pos (by omega)]
        congr 2
        · omega
        · omega
        · congr 1
          omega
      case isFalse width =>
        rw [if_neg width] at read least
        split at length
        case isTrue width =>
          rw [if_pos width] at read least
          obtain ⟨c, d, e, rfl⟩ := List.length_eq_three.mp (Nat.succ.inj length)
          simp only [digits_cons, continuation_some, digits_nil] at read
          simp only [utf8Minimum, if_false, Nat.reduceEqDiff] at least
          rw [utf8, if_neg (by omega), if_neg (by omega), if_neg (by omega)]
          congr 2
          · omega
          · omega
          · congr 1
            · omega
            · congr 1
              omega
        case isFalse => cases length

theorem spelling_multi {b cp : Nat} {cs : List Nat} (high : 0x80 ≤ b) :
    Spelling cp (b :: cs) ↔ Scalar cp ∧ cs.length + 1 = utf8Width b ∧
      digits continuation 64 cs (b % 2 ^ (7 - utf8Width b)) = some cp ∧
      utf8Minimum (utf8Width b) ≤ cp := by
  constructor
  · intro s
    have scalar := s.scalar
    generalize whole : b :: cs = bytes at s
    cases s with
    | raw =>
      exact ⟨scalar, (utf8_iff high (by rcases scalar with low | ⟨_, top⟩ <;> omega)).mp whole.symm⟩
    | short | unicode | pair => cases whole; omega
  · rintro ⟨scalar, spec⟩
    have whole := (utf8_iff high (by rcases scalar with low | ⟨_, top⟩ <;> omega)).mpr spec
    have large : 0x80 ≤ cp := by
      have := spec.2.2
      unfold utf8Minimum at this
      split at this
      · exact this
      · split at this <;> omega
    rw [← whole]
    exact .raw scalar (by omega) (by omega) (by omega)

end Gufo.Lexeme
