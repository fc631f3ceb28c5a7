import Gufo.Lexeme.Decoding

/-!
# The shorter state

Without a pattern it only counts that a character is going to be valid. `Marked` says
which bytes a shorter state stands for. What it keeps of them is whether they are on the
way to a surrogate, or the bounds of the next byte.
-/

namespace Gufo.Lexeme
open Gufo.Regex

/-- What is kept of `n` hexadecimal digits of value `v`: 1 after `d`, 2 for a high surrogate. -/
def HexMark (n v mark : Nat) : Prop :=
  match n with
  | 0 => True
  | 1 => mark = if v = 13 then 1 else 0
  | n + 2 => ¬(0xdc ≤ v / 16 ^ n ∧ v / 16 ^ n ≤ 0xdf) ∧
    mark = if 0xd8 ≤ v / 16 ^ n ∧ v / 16 ^ n ≤ 0xdb then 2 else 0

/-- `n` digits of a low surrogate. -/
def LowMark (n v : Nat) : Prop :=
  match n with
  | 0 => True
  | 1 => v = 13
  | n + 2 => 0xdc ≤ v / 16 ^ n ∧ v / 16 ^ n ≤ 0xdf

/-- The least and the greatest byte after the first. -/
def leadLow (b : Nat) : Nat := if b = 0xe0 then 0xa0 else if b = 0xf0 then 0x90 else 0x80

def leadHigh (b : Nat) : Nat := if b = 0xed then 0x9f else if b = 0xf4 then 0x8f else 0xbf

inductive Marked : State → List Nat → Prop
  | body {s} (mode : s.mode = .body) : Marked s []
  | escape {s} (mode : s.mode = .escape) : Marked s [92]
  | hex {s ds v} (mode : s.mode = .hex) (short : ds.length < 4) (left : s.extra = 4 - ds.length)
      (read : digits hexDigit 16 ds 0 = some v) (mark : HexMark ds.length v s.value) :
      Marked s (92 :: 117 :: ds)
  | lowSlash {s ds high} (mode : s.mode = .lowSlash) (first : Quad ds high)
      (isHigh : 0xd800 ≤ high ∧ high ≤ 0xdbff) : Marked s (92 :: 117 :: ds)
  | lowU {s ds high} (mode : s.mode = .lowU) (first : Quad ds high)
      (isHigh : 0xd800 ≤ high ∧ high ≤ 0xdbff) : Marked s (92 :: 117 :: ds ++ [92])
  | lowHex {s ds es high v} (mode : s.mode = .lowHex) (first : Quad ds high)
      (isHigh : 0xd800 ≤ high ∧ high ≤ 0xdbff) (short : es.length < 4)
      (left : s.extra % 256 = 4 - es.length) (read : digits hexDigit 16 es 0 = some v)
      (mark : LowMark es.length v) : Marked s (92 :: 117 :: ds ++ 92 :: 117 :: es)
  | lead {s b} (mode : s.mode = .utf8) (lead : 0x80 ≤ b) (width : utf8Width b ≠ 0)
      (left : s.extra = utf8Width b - 1) (bounds : s.value = leadLow b * 256 + leadHigh b) :
      Marked s [b]
  | utf8 {s b cs v} (mode : s.mode = .utf8) (lead : 0x80 ≤ b) (short : cs.length + 1 < utf8Width b)
      (left : s.extra = utf8Width b - 1 - cs.length) (bounds : s.value = 0x80 * 256 + 0xbf)
      (read : digits continuation 64 cs (b % 2 ^ (7 - utf8Width b)) = some v)
      (valid : ∀ t, Within 64 v (utf8Width b - 1 - cs.length) t →
        utf8Minimum (utf8Width b) ≤ t ∧ Scalar t) : Marked s (b :: cs)

/-- What a byte did to a shorter state. -/
def Decoded.Marks (x : StringLexeme) (s : State) (begun : List Nat) (b : Nat) : Decoded → Prop
  | .close complete => begun = [] ∧ b = 34 ∧
      complete = (decide (x.minimum ≤ s.count) && x.regex.Accepting s.dfa)
  | .reject => (begun = [] → b ≠ 34) ∧ ∀ cp, ¬Opens (begun ++ [b]) cp
  | .character cp => (begun = [] → b ≠ 34) ∧ Scalar cp ∧ ∃ own, Spelling own (begun ++ [b])
  | .become next => (begun = [] → b ≠ 34) ∧ next.mode ≠ .body ∧ next.dfa = s.dfa ∧
      next.count = s.count ∧ Marked next (begun ++ [b]) ∧
      (∀ cp, ¬Spelling cp (begun ++ [b])) ∧ ∃ cp, Opens (begun ++ [b]) cp

/-! ## Something opens -/

theorem within_least {base v n : Nat} (pos : 0 < base) : Within base v n (v * base ^ n) := by
  have := Nat.pow_pos (n := n) pos
  exact ⟨Nat.le_refl _, by rw [Nat.add_mul, Nat.one_mul]; omega⟩

/-- The least character left is valid, or its place is that of a high surrogate. -/
theorem HexMark.least {n v mark : Nat} (h : HexMark n v mark) (short : n < 4) (small : v < 16 ^ n) :
    0xd800 ≤ v * 16 ^ (4 - n) ∧ v * 16 ^ (4 - n) ≤ 0xdbff ∨ Scalar (v * 16 ^ (4 - n)) := by
  have cases : n = 0 ∨ n = 1 ∨ n = 2 ∨ n = 3 := by omega
  unfold Scalar
  rcases cases with rfl | rfl | rfl | rfl
  · omega
  · omega
  · obtain ⟨notLow, -⟩ := h
    rw [pow_zero, Nat.div_one] at notLow
    omega
  · obtain ⟨notLow, -⟩ := h
    rw [pow_one] at notLow
    omega

theorem opens_mark {ds : List Nat} {v mark : Nat} (short : ds.length < 4)
    (read : digits hexDigit 16 ds 0 = some v) (mark : HexMark ds.length v mark) :
    ∃ cp, Opens (92 :: 117 :: ds) cp := by
  have small := (digits_bound hexDigit_numeral read).2
  have length : ds.length + (4 - ds.length) = 4 := by omega
  have least := @within_least 16 v (4 - ds.length) (by omega)
  rcases mark.least short (by omega) with surrogate | scalar
  · refine ⟨0x10000 + (v * 16 ^ (4 - ds.length) - 0xd800) * 1024, (opens_hex length).mpr
      ⟨v, read, .inr ⟨by omega, ?_⟩⟩⟩
    rwa [show 0xd800 + (0x10000 + (v * 16 ^ (4 - ds.length) - 0xd800) * 1024 - 0x10000) / 1024 =
      v * 16 ^ (4 - ds.length) by omega]
  · exact ⟨v * 16 ^ (4 - ds.length), (opens_hex length).mpr ⟨v, read, .inl ⟨scalar, least⟩⟩⟩

theorem LowMark.some {n v : Nat} (h : LowMark n v) (short : n < 4) (small : v < 16 ^ n) :
    ∃ low, Within 16 v (4 - n) low ∧ 0xdc00 ≤ low ∧ low ≤ 0xdfff := by
  have cases : n = 0 ∨ n = 1 ∨ n = 2 ∨ n = 3 := by omega
  unfold Within
  rcases cases with rfl | rfl | rfl | rfl
  · exact ⟨0xdc00, by omega⟩
  · cases h
    exact ⟨0xdc00, by omega⟩
  · obtain ⟨low, high⟩ := h
    rw [pow_zero, Nat.div_one] at low high
    exact ⟨v * 256, by omega⟩
  · obtain ⟨low, high⟩ := h
    rw [pow_one] at low high
    exact ⟨v * 16, by omega⟩

theorem opens_lowMark {ds es : List Nat} {high v : Nat} (first : Quad ds high)
    (isHigh : 0xd800 ≤ high ∧ high ≤ 0xdbff) (short : es.length < 4)
    (read : digits hexDigit 16 es 0 = some v) (mark : LowMark es.length v) :
    ∃ cp, Opens (92 :: 117 :: ds ++ 92 :: 117 :: es) cp := by
  have small := (digits_bound hexDigit_numeral read).2
  obtain ⟨low, within, isLow⟩ := mark.some short (by omega)
  exact ⟨_, (opens_low first isHigh (show es.length + (4 - es.length) = 4 by omega)).mpr
    ⟨v, read, low, within, isLow, rfl⟩⟩

/-- The least character of a leading byte. -/
theorem opens_lead {b : Nat} (lead : 0x80 ≤ b) (width : utf8Width b ≠ 0) :
    ∃ cp, Opens [b] cp := by
  refine ⟨max (utf8Minimum (utf8Width b))
    (b % 2 ^ (7 - utf8Width b) * 64 ^ (utf8Width b - 1)), (@opens_multi b _ [] lead).mpr
    ⟨utf8Width b - 1, _, by simp; omega, rfl, ?_⟩⟩
  unfold Within Scalar
  rcases utf8Width_eq width with ⟨same, _⟩ | ⟨same, _⟩ | ⟨same, _⟩
  all_goals
    rw [same]
    simp [utf8Minimum]
    omega

/-! ## One byte -/

section
variable {x : StringLexeme} {s : State} {begun : List Nat}

/-- A digit more keeps the mark right, unless it begins a low surrogate. -/
theorem HexMark.next {n v mark d : Nat} (h : HexMark n v mark) (short : n < 4) (small : d < 16)
    (fits : v < 16 ^ n) (good : ¬(n = 1 ∧ mark = 1 ∧ 12 ≤ d)) :
    HexMark (n + 1) (v * 16 + d)
      (if 4 - n = 4 then if d = 13 then 1 else 0
       else if 4 - n = 3 ∧ mark = 1 then if 8 ≤ d then 2 else 0 else mark) := by
  have cases : n = 0 ∨ n = 1 ∨ n = 2 ∨ n = 3 := by omega
  rcases cases with rfl | rfl | rfl | rfl
  · have zero : v = 0 := by omega
    simp [HexMark, zero]
  · simp only [HexMark, pow_zero, Nat.div_one] at h ⊢
    rw [if_neg (by omega)]
    by_cases thirteen : v = 13
    · rw [if_pos thirteen] at h
      rw [if_pos ⟨trivial, h⟩]
      refine ⟨by omega, ?_⟩
      by_cases high : 8 ≤ d
      · rw [if_pos high, if_pos (by omega)]
      · rw [if_neg high, if_neg (by omega)]
    · rw [if_neg thirteen] at h
      rw [if_neg (by omega), if_neg (by omega)]
      exact ⟨by omega, h⟩
  · simp only [HexMark, pow_zero, Nat.div_one] at h
    simp only [HexMark, pow_one, show (v * 16 + d) / 16 = v by omega]
    exact h
  · simp only [HexMark, show (v * 16 + d) / 16 ^ 2 = v / 16 by omega]
    exact h

theorem scalarHex_marks {ds : List Nat} {v d b : Nat} (mode : s.mode = .hex)
    (short : ds.length < 4) (left : s.extra = 4 - ds.length)
    (read : digits hexDigit 16 ds 0 = some v) (mark : HexMark ds.length v s.value)
    (digit : hexDigit b = some d) :
    (StringLexeme.scalarHex s d).Marks x s (92 :: 117 :: ds) b := by
  have next := digits_single (b := b) read
  rw [digit, Option.map_some] at next
  have small := hexDigit_numeral.small b d digit
  unfold StringLexeme.scalarHex
  simp only [mode, reduceCtorEq, false_and, if_false, ne_eq, not_false_eq_true, true_and, left,
    show (4 - ds.length) % 256 = 4 - ds.length by omega]
  have fits := (digits_bound hexDigit_numeral read).2
  rw [Nat.zero_add, Nat.one_mul] at fits
  by_cases low : 4 - ds.length = 3 ∧ s.value = 1 ∧ 12 ≤ d
  · rw [if_pos low]
    refine ⟨nofun, fun cp opens => ?_⟩
    -- after `d` a digit from `c` on makes a low surrogate
    have one : ds.length = 1 := by omega
    have length : (ds ++ [b]).length + 2 = 4 := by simp [one]
    obtain ⟨w, same, range⟩ := (opens_hex length).mp opens
    cases next.symm.trans same
    rw [one] at mark
    have thirteen : v = 13 := by
      by_contra other
      rw [HexMark, if_neg other] at mark
      omega
    unfold Within Scalar at range
    omega
  · rw [if_neg low]
    have long : (ds ++ [b]).length = ds.length + 1 := by simp
    have kept := mark.next short small fits (by omega)
    rw [← long] at kept
    by_cases more : (4 - ds.length - 1) % 256 = 0
    · have last : ds.length = 3 := by omega
      have quad : Quad (ds ++ [b]) (v * 16 + d) := ⟨by omega, next⟩
      rw [long, last] at kept
      rw [last]
      obtain ⟨notLow, mark⟩ := kept
      simp only [Nat.reduceSub, Nat.reduceEqDiff, Nat.reducePow, if_false, false_and]
        at mark notLow ⊢
      rw [mark]
      by_cases isHigh : 0xd8 ≤ (v * 16 + d) / 256 ∧ (v * 16 + d) / 256 ≤ 0xdb
      · rw [if_pos isHigh, if_pos rfl]
        have isHigh : 0xd800 ≤ v * 16 + d ∧ v * 16 + d ≤ 0xdbff := by omega
        exact ⟨nofun, nofun, rfl, rfl, .lowSlash rfl quad isHigh,
          fun _ => unfinished_high quad isHigh, _, (opens_slash quad isHigh).mpr
            ⟨Nat.le_refl _, Nat.le_add_right ..⟩⟩
      · rw [if_neg isHigh, if_neg nofun]
        have whole := quad.small
        have scalar : Scalar (v * 16 + d) := by
          unfold Scalar
          omega
        exact ⟨nofun, .inl (by omega), _, .unicode scalar quad⟩
    · rw [if_pos more]
      have short' : (ds ++ [b]).length < 4 := by omega
      have left' : 4 - ds.length - 1 = 4 - (ds ++ [b]).length := by omega
      exact ⟨nofun, nofun, rfl, rfl, .hex rfl short' left' next kept,
        fun _ => unfinished_hex short', opens_mark short' next kept⟩

theorem LowMark.next {n v d : Nat} (h : LowMark n v) (short : n < 4) (fits : v < 16 ^ n)
    (small : d < 16) (good : ¬(4 - n = 4 ∧ d ≠ 13 ∨ 4 - n = 3 ∧ d < 12)) :
    LowMark (n + 1) (v * 16 + d) := by
  have cases : n = 0 ∨ n = 1 ∨ n = 2 ∨ n = 3 := by omega
  rcases cases with rfl | rfl | rfl | rfl
  · change v * 16 + d = 13
    omega
  · cases h
    simp only [LowMark, pow_zero, Nat.div_one]
    omega
  · simp only [LowMark, pow_zero, Nat.div_one] at h
    simp only [LowMark, pow_one]
    omega
  · simp only [LowMark, pow_one] at h
    simp only [LowMark, Nat.reducePow]
    omega

theorem scalarLowHex_marks {ds es : List Nat} {high v d b : Nat} (mode : s.mode = .lowHex)
    (first : Quad ds high) (isHigh : 0xd800 ≤ high ∧ high ≤ 0xdbff) (short : es.length < 4)
    (left : s.extra % 256 = 4 - es.length) (read : digits hexDigit 16 es 0 = some v)
    (mark : LowMark es.length v) (digit : hexDigit b = some d) :
    (StringLexeme.scalarHex s d).Marks x s (92 :: 117 :: ds ++ 92 :: 117 :: es) b := by
  have next := digits_single (b := b) read
  rw [digit, Option.map_some] at next
  have small := hexDigit_numeral.small b d digit
  have fits := (digits_bound hexDigit_numeral read).2
  rw [Nat.zero_add, Nat.one_mul] at fits
  have longer : 92 :: 117 :: ds ++ 92 :: 117 :: es ++ [b] =
      92 :: 117 :: ds ++ 92 :: 117 :: (es ++ [b]) := by simp
  have long : (es ++ [b]).length = es.length + 1 := by simp
  have length : (es ++ [b]).length + (3 - es.length) = 4 := by omega
  unfold StringLexeme.scalarHex
  simp only [mode, left, true_and, ne_eq, not_true, false_and, if_false, if_true, reduceCtorEq]
  by_cases bad : 4 - es.length = 4 ∧ ¬d = 13 ∨ 4 - es.length = 3 ∧ d < 12
  · rw [if_pos bad]
    refine ⟨nofun, fun cp opens => ?_⟩
    rw [longer] at opens
    obtain ⟨w, same, low, within, isLow, _⟩ := (opens_low first isHigh length).mp opens
    cases next.symm.trans same
    unfold Within at within
    rcases bad with ⟨four, other⟩ | ⟨three, less⟩
    · have none : es.length = 0 := by omega
      rw [none] at fits within
      omega
    · have one : es.length = 1 := by omega
      rw [one] at mark within
      omega
  · rw [if_neg bad]
    have kept := mark.next short fits small bad
    rw [← long] at kept
    by_cases more : (s.extra - 1) % 256 = 0
    · rw [if_neg (not_not_intro more)]
      have last : es.length = 3 := by omega
      have quad : Quad (es ++ [b]) (v * 16 + d) := ⟨by omega, next⟩
      rw [long, last] at kept
      simp only [LowMark, Nat.reducePow] at kept
      have spelled := Spelling.pair first quad isHigh (by omega)
      rw [← longer] at spelled
      exact ⟨nofun, .inl (by omega), _, spelled⟩
    · rw [if_pos more]
      have short' : (es ++ [b]).length < 4 := by omega
      have left' : (s.extra - 1) % 256 = 4 - (es ++ [b]).length := by omega
      unfold Decoded.Marks
      rw [longer]
      exact ⟨nofun, nofun, rfl, rfl, .lowHex rfl first isHigh short' left' next kept,
        fun _ => unfinished_low first isHigh short',
        opens_lowMark first isHigh short' next kept⟩

/-- The second byte is within its bounds exactly when all that it leaves is valid. -/
theorem lead_next {b c d : Nat} (width : utf8Width b ≠ 0)
    (tail : continuation c = some d) :
    let v := b % 2 ^ (7 - utf8Width b) * 64 + d
    (leadLow b ≤ c ∧ c ≤ leadHigh b → ∀ t, Within 64 v (utf8Width b - 2) t →
      utf8Minimum (utf8Width b) ≤ t ∧ Scalar t) ∧
    ∀ t, Within 64 v (utf8Width b - 2) t → utf8Minimum (utf8Width b) ≤ t → Scalar t →
      leadLow b ≤ c ∧ c ≤ leadHigh b := by
  obtain ⟨low, high, rfl⟩ := continuation_some.mp tail
  unfold Within Scalar leadLow leadHigh
  rcases utf8Width_eq width with ⟨same, range⟩ | ⟨same, range⟩ | ⟨same, range⟩
  · rw [same, if_neg (by omega), if_neg (by omega), if_neg (by omega), if_neg (by omega)]
    simp only [utf8Minimum, Nat.reduceSub, Nat.reducePow, if_true]
    exact ⟨fun _ t range => by omega, fun t _ _ _ => by omega⟩
  · rw [same]
    simp only [utf8Minimum, Nat.reduceSub, Nat.reducePow, Nat.reduceEqDiff, if_true, if_false]
    constructor
    · intro bounds t range
      split_ifs at bounds <;> omega
    · split_ifs <;> omega
  · rw [same]
    simp only [utf8Minimum, Nat.reduceSub, Nat.reducePow, Nat.reduceEqDiff, if_false]
    constructor
    · intro bounds t range
      split_ifs at bounds <;> omega
    · split_ifs <;> omega

/-- One more byte after which all that is left is valid. -/
theorem continued {c b v : Nat} {cs : List Nat} (scalarOnly : x.scalarOnly = true)
    (mode : s.mode = .utf8) (lead : 0x80 ≤ c) (short : cs.length + 1 < utf8Width c)
    (left : s.extra = utf8Width c - 1 - cs.length)
    (inside : ¬(b < s.value / 256 ∨ s.value % 256 < b))
    (read : digits continuation 64 (cs ++ [b]) (c % 2 ^ (7 - utf8Width c)) = some v)
    (valid : ∀ t, Within 64 v (utf8Width c - 1 - (cs ++ [b]).length) t →
      utf8Minimum (utf8Width c) ≤ t ∧ Scalar t) :
    (x.utf8 s b).Marks x s (c :: cs) b := by
  have long : (cs ++ [b]).length = cs.length + 1 := by simp
  have least := @within_least 64 v (utf8Width c - 1 - (cs ++ [b]).length) (by omega)
  unfold StringLexeme.utf8
  rw [scalarOnly, if_pos rfl, if_neg inside]
  by_cases more : s.extra - 1 = 0
  · rw [if_pos more]
    have none : utf8Width c - 1 - (cs ++ [b]).length = 0 := by omega
    rw [none, pow_zero, mul_one] at least
    obtain ⟨enough, scalar⟩ := valid v (none ▸ least)
    have whole : (cs ++ [b]).length + 1 = utf8Width c := by omega
    exact ⟨nofun, .inl (by omega), v, (spelling_multi lead).mpr ⟨scalar, whole, read, enough⟩⟩
  · rw [if_neg more]
    have short' : (cs ++ [b]).length + 1 < utf8Width c := by omega
    have left' : s.extra - 1 = utf8Width c - 1 - (cs ++ [b]).length := by omega
    obtain ⟨enough, scalar⟩ := valid _ least
    refine ⟨nofun, by rw [mode]; nofun, rfl, rfl, .utf8 mode lead short' left' rfl read valid,
      fun _ => unfinished_multi lead short', _, (opens_multi lead).mpr
        ⟨utf8Width c - 1 - (cs ++ [b]).length, v, ?_, read, least, enough, scalar⟩⟩
    change (cs ++ [b]).length + 1 + _ = _
    omega

theorem lead_marks {c : Nat} (scalarOnly : x.scalarOnly = true) (mode : s.mode = .utf8)
    (lead : 0x80 ≤ c) (width : utf8Width c ≠ 0) (left : s.extra = utf8Width c - 1)
    (bounds : s.value = leadLow c * 256 + leadHigh c) (b : Nat) :
    (x.utf8 s b).Marks x s [c] b := by
  have sizes := utf8Width_cases width
  have low : s.value / 256 = leadLow c := by
    unfold leadLow leadHigh at *
    split_ifs at bounds ⊢ <;> omega
  by_cases out : b < s.value / 256 ∨ s.value % 256 < b
  · have rejected : x.utf8 s b = .reject := by
      unfold StringLexeme.utf8
      rw [scalarOnly, if_pos rfl, if_pos out]
    rw [rejected]
    refine ⟨nofun, fun cp opens => ?_⟩
    cases tail : continuation b with
    | none => exact closed_multi lead tail cp opens
    | some d =>
      obtain ⟨n, v, length, read, within, least, scalar⟩ := (opens_multi lead).mp opens
      have read : digits continuation 64 ([] ++ [b]) _ = some v := read
      rw [digits_single rfl, tail] at read
      cases read
      have two : n = utf8Width c - 2 := by
        simp at length
        omega
      subst two
      have := (lead_next width tail).2 cp within least scalar
      omega
  · have tail : ∃ d, continuation b = some d := by
      refine ⟨b % 64, continuation_some.mpr ⟨?_, ?_, rfl⟩⟩
      · have : 0x80 ≤ leadLow c := by
          unfold leadLow
          split_ifs <;> omega
        omega
      · have : leadHigh c ≤ 0xbf := by
          unfold leadHigh
          split_ifs <;> omega
        omega
    obtain ⟨d, tail⟩ := tail
    have short : ([] : List Nat).length + 1 < utf8Width c := by simp; omega
    have next : digits continuation 64 ([] ++ [b]) (c % 2 ^ (7 - utf8Width c)) =
        some (c % 2 ^ (7 - utf8Width c) * 64 + d) := by
      rw [digits_single rfl, tail]
      rfl
    exact continued scalarOnly mode lead short left out next ((lead_next width tail).1 (by omega))

theorem utf8_marks {c v : Nat} {cs : List Nat} (scalarOnly : x.scalarOnly = true)
    (mode : s.mode = .utf8) (lead : 0x80 ≤ c) (short : cs.length + 1 < utf8Width c)
    (left : s.extra = utf8Width c - 1 - cs.length) (bounds : s.value = 0x80 * 256 + 0xbf)
    (read : digits continuation 64 cs (c % 2 ^ (7 - utf8Width c)) = some v)
    (valid : ∀ t, Within 64 v (utf8Width c - 1 - cs.length) t →
      utf8Minimum (utf8Width c) ≤ t ∧ Scalar t) (b : Nat) :
    (x.utf8 s b).Marks x s (c :: cs) b := by
  cases tail : continuation b with
  | none =>
    have out : b < s.value / 256 ∨ s.value % 256 < b := by
      by_contra inside
      have : continuation b = some (b % 64) := continuation_some.mpr ⟨by omega, by omega, rfl⟩
      rw [tail] at this
      cases this
    have rejected : x.utf8 s b = .reject := by
      unfold StringLexeme.utf8
      rw [scalarOnly, if_pos rfl, if_pos out]
    rw [rejected]
    exact ⟨nofun, closed_multi lead tail⟩
  | some d =>
    obtain ⟨low, high, _⟩ := continuation_some.mp tail
    have next : digits continuation 64 (cs ++ [b]) (c % 2 ^ (7 - utf8Width c)) =
        some (v * 64 + d) := by
      rw [digits_single read, tail]
      rfl
    refine continued scalarOnly mode lead short left (by omega) next fun t within => valid t ?_
    -- the range of the longer beginning lies in that of the shorter one
    have step : utf8Width c - 1 - cs.length = utf8Width c - 1 - (cs ++ [b]).length + 1 := by
      simp
      omega
    unfold Within at within ⊢
    rw [step, pow_succ', ← mul_assoc, ← mul_assoc]
    exact ⟨le_trans (Nat.mul_le_mul_right _ (by omega)) within.1,
      lt_of_lt_of_le within.2 (Nat.mul_le_mul_right _ (by omega))⟩

theorem body_marks (scalarOnly : x.scalarOnly = true) (b : Nat) : (x.body s b).Marks x s [] b := by
  unfold StringLexeme.body
  by_cases quote : b = 34
  · rw [if_pos quote]
    exact ⟨rfl, quote, rfl⟩
  rw [if_neg quote]
  by_cases slash : b = 92
  · subst slash
    exact ⟨fun _ => quote, nofun, rfl, rfl, .escape rfl, fun _ => unfinished_escape,
      0, opens_escape.mpr (.inl (by omega))⟩
  rw [if_neg slash]
  by_cases control : b < 0x20
  · rw [if_pos control]
    exact ⟨fun _ => quote, closed_control control⟩
  rw [if_neg control]
  by_cases ascii : b < 0x80
  · rw [if_pos ascii]
    exact ⟨fun _ => quote, .inl (by omega), b,
      (spelling_ascii ascii slash).mpr ⟨rfl, rfl, by omega, quote⟩⟩
  rw [if_neg ascii]
  have high : 0x80 ≤ b := by omega
  by_cases width : utf8Width b = 0
  · rw [if_pos width]
    exact ⟨fun _ => quote, closed_lead high width⟩
  · rw [if_neg width, scalarOnly, if_pos rfl]
    have sizes := utf8Width_cases width
    have short : ([] : List Nat).length + 1 < utf8Width b := by simp; omega
    exact ⟨fun _ => quote, nofun, rfl, rfl, .lead rfl high width rfl rfl,
      fun _ => unfinished_multi high short, opens_lead high width⟩

theorem escape_marks (b : Nat) : (StringLexeme.escape s b).Marks x s [92] b := by
  unfold StringLexeme.escape
  by_cases u : b = 117
  · subst u
    have short : ([] : List Nat).length < 4 := by simp
    exact ⟨nofun, nofun, rfl, rfl, .hex rfl short rfl rfl trivial, fun _ => unfinished_hex short,
      @opens_mark [] 0 0 short rfl trivial⟩
  · rw [if_neg u]
    cases found : shortEscapes.lookup b with
    | none => exact ⟨nofun, closed_escape u found⟩
    | some cp =>
      have spelled := Spelling.short (lookup_short.mp found)
      exact ⟨nofun, spelled.scalar, cp, spelled⟩

theorem lowSlash_marks {ds : List Nat} {high : Nat} (first : Quad ds high)
    (isHigh : 0xd800 ≤ high ∧ high ≤ 0xdbff) (b : Nat) :
    (StringLexeme.lowSlash s b).Marks x s (92 :: 117 :: ds) b := by
  unfold StringLexeme.lowSlash
  by_cases slash : b = 92
  · subst slash
    exact ⟨nofun, nofun, rfl, rfl, .lowU rfl first isHigh, fun _ => unfinished_slash first isHigh,
      _, (opens_letter first isHigh).mpr ⟨Nat.le_refl _, Nat.le_add_right ..⟩⟩
  · rw [if_pos slash]
    exact ⟨nofun, closed_slash first isHigh slash⟩

theorem lowU_marks {ds : List Nat} {high : Nat} (first : Quad ds high)
    (isHigh : 0xd800 ≤ high ∧ high ≤ 0xdbff) (b : Nat) :
    (StringLexeme.lowU s b).Marks x s (92 :: 117 :: ds ++ [92]) b := by
  unfold StringLexeme.lowU
  by_cases u : b = 117
  · subst u
    have longer : 92 :: 117 :: ds ++ [92] ++ [117] = 92 :: 117 :: ds ++ 92 :: 117 :: [] := by simp
    have short : ([] : List Nat).length < 4 := by simp
    unfold Decoded.Marks
    rw [longer]
    exact ⟨nofun, nofun, rfl, rfl, .lowHex rfl first isHigh short (by simp) rfl trivial,
      fun _ => unfinished_low first isHigh short, opens_lowMark first isHigh short rfl trivial⟩
  · rw [if_pos u]
    exact ⟨nofun, closed_letter first isHigh u⟩

/-- In every phase the shorter state follows what is read. -/
theorem decode_marks (scalarOnly : x.scalarOnly = true) (h : Marked s begun) (b : Nat) :
    (x.decode s b).Marks x s begun b := by
  unfold StringLexeme.decode
  cases h with
  | body mode => rw [mode]; exact body_marks scalarOnly b
  | escape mode => rw [mode]; exact escape_marks b
  | lowSlash mode first isHigh => simp only [mode]; exact lowSlash_marks first isHigh b
  | lowU mode first isHigh => simp only [mode]; exact lowU_marks first isHigh b
  | lead mode lead width left bounds =>
    simp only [mode]
    exact lead_marks scalarOnly mode lead width left bounds b
  | utf8 mode lead short left bounds read valid =>
    simp only [mode]
    exact utf8_marks scalarOnly mode lead short left bounds read valid b
  | @hex ds v mode short left read mark =>
    simp only [mode]
    unfold StringLexeme.hex
    cases digit : hexDigit b with
    | none => exact ⟨nofun, closed_hex short digit⟩
    | some d =>
      simp only [scalarOnly, if_true]
      exact scalarHex_marks mode short left read mark digit
  | @lowHex ds es high v mode first isHigh short left read mark =>
    simp only [mode]
    unfold StringLexeme.hex
    cases digit : hexDigit b with
    | none => exact ⟨nofun, closed_low first isHigh short digit⟩
    | some d =>
      simp only [scalarOnly, if_true]
      exact scalarLowHex_marks mode first isHigh short left read mark digit

end

end Gufo.Lexeme
