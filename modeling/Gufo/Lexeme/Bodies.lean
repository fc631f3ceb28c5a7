import Gufo.Lexeme.Decoding
import Gufo.Regex.Bounds

/-!
# What may still follow

`Body` is what may follow an opening quote: spellings of characters that the automaton
accepts and whose number fits, and the closing quote. The same is said in the middle of
a string of the characters that have been read. Where nothing may follow any more the
matcher stops.
-/

namespace Gufo.Lexeme
open Gufo.Regex Gufo.Constraint

/-- So many more characters make a string of the right length. -/
def StringLexeme.Fits (x : StringLexeme) (count more : Nat) : Prop :=
  x.minimum ≤ count + more ∧ (x.maximum = UINT32_MAX ∨ count + more ≤ x.maximum)

/-- Characters that `accepts` takes, and the closing quote. -/
def StringLexeme.Body (x : StringLexeme) (accepts : List Nat → Prop) (count : Nat)
    (bytes : List Nat) : Prop :=
  ∃ cs spellings, List.Forall₂ Spelling cs spellings ∧ bytes = spellings.flatten ++ [34] ∧
    accepts cs ∧ x.Fits count cs.length

theorem spelling_quote {cp b : Nat} {rest : List Nat} (s : Spelling cp (b :: rest)) : b ≠ 34 := by
  rintro rfl
  exact ((spelling_ascii (by omega) (by omega)).mp s).2.2.2 rfl

section
variable {x : StringLexeme} {accepts : List Nat → Prop} {count : Nat}

theorem fits_succ {n : Nat} : x.Fits count (n + 1) ↔ x.Fits (count + 1) n := by
  rw [StringLexeme.Fits, StringLexeme.Fits, Nat.add_right_comm, Nat.add_assoc]

theorem body_nil : ¬x.Body accepts count [] := by
  rintro ⟨_, _, _, same, _⟩
  simp at same

theorem body_quote {rest : List Nat} :
    x.Body accepts count (34 :: rest) ↔ rest = [] ∧ accepts [] ∧ x.Fits count 0 := by
  constructor
  · rintro ⟨cs, spellings, spelled, same, accepted, fits⟩
    cases spelled with
    | nil =>
      cases same
      exact ⟨rfl, accepted, fits⟩
    | @cons cp bytes _ _ one =>
      cases bytes with
      | nil => exact absurd one spelling_nil
      | cons b bytes =>
        cases same
        exact absurd rfl (spelling_quote one)
  · rintro ⟨rfl, accepted, fits⟩
    exact ⟨[], [], .nil, rfl, accepted, fits⟩

/-- A spelling at the front is the next character. -/
theorem body_cons {cp : Nat} {bytes rest : List Nat} (s : Spelling cp bytes) :
    x.Body accepts count (bytes ++ rest) ↔
      x.Body (fun cs => accepts (cp :: cs)) (count + 1) rest := by
  constructor
  · rintro ⟨cs, spellings, spelled, same, accepted, fits⟩
    cases spelled with
    | nil =>
      cases bytes with
      | nil => exact absurd s spelling_nil
      | cons b bytes =>
        cases (List.cons.inj same).1
        exact absurd rfl (spelling_quote s)
    | @cons cp' bytes' cs spellings one more =>
      rw [List.flatten_cons, List.append_assoc] at same
      rw [List.length_cons, fits_succ] at fits
      obtain ⟨m, rfl, eq⟩ | ⟨m, rfl, eq⟩ := List.append_eq_append_iff.mp same
      · obtain ⟨rfl, rfl⟩ := s.alone one
        exact ⟨cs, spellings, more, eq, accepted, fits⟩
      · obtain ⟨rfl, rfl⟩ := one.alone s
        exact ⟨cs, spellings, more, eq.symm, accepted, fits⟩
  · rintro ⟨cs, spellings, spelled, rfl, accepted, fits⟩
    refine ⟨cp :: cs, bytes :: spellings, .cons s spelled, by simp, accepted, ?_⟩
    rw [List.length_cons, fits_succ]
    exact fits

/-- What has been read is nothing, or the beginning of a spelling but not all of it. -/
structure Proper (begun : List Nat) : Prop where
  part : ∀ cp, ¬Spelling cp begun
  opens : begun = [] ∨ ∃ cp, Opens begun cp

theorem body_proper {begun : List Nat} (proper : Proper begun) : ¬x.Body accepts count begun := by
  rcases proper.opens with rfl | ⟨cp, more, s⟩
  · exact body_nil
  · rintro ⟨cs, spellings, spelled, same, _⟩
    cases spelled with
    | nil =>
      rw [same] at s
      exact spelling_quote s rfl
    | @cons cp' bytes' cs spellings one _ =>
      rw [same, List.flatten_cons, List.append_assoc, List.append_assoc] at s
      have := (one.alone s).2
      simp at this

/-- One more byte, unless it closes the string, belongs to the next character. -/
theorem body_step {begun rest : List Nat} (proper : Proper begun) {b : Nat}
    (open_ : begun = [] → b ≠ 34) :
    x.Body accepts count (begun ++ b :: rest) ↔ ∃ cp more later, Spelling cp (begun ++ b :: more) ∧
      rest = more ++ later ∧ x.Body (fun cs => accepts (cp :: cs)) (count + 1) later := by
  constructor
  · intro body
    obtain ⟨cs, spellings, spelled, same, accepted, fits⟩ := body
    cases spelled with
    | nil =>
      cases begun with
      | nil =>
        cases same
        exact absurd rfl (open_ rfl)
      | cons c begun => cases (List.append_eq_nil_iff.mp (List.cons.inj same).2).2
    | @cons cp bytes cs spellings one more =>
      rw [List.flatten_cons, List.append_assoc] at same
      obtain ⟨m, rfl, eq⟩ | ⟨m, rfl, eq⟩ := List.append_eq_append_iff.mp same
      · cases m with
        | nil =>
          rw [List.append_nil] at one
          exact absurd one (proper.part cp)
        | cons c m =>
          cases eq
          refine ⟨cp, m, _, one, rfl, ?_⟩
          rw [List.length_cons, fits_succ] at fits
          exact ⟨cs, spellings, more, rfl, accepted, fits⟩
      · rcases proper.opens with none | ⟨other, more, s⟩
        · rw [(List.append_eq_nil_iff.mp none).1] at one
          exact absurd one spelling_nil
        · rw [List.append_assoc] at s
          have none := (List.append_eq_nil_iff.mp (one.alone s).2).1
          subst none
          rw [List.append_nil] at proper
          exact absurd one (proper.part cp)
  · rintro ⟨cp, more, later, s, rfl, body⟩
    have := (@body_cons x accepts count _ _ _ s).mpr body
    simpa using this

end

/-! ## Bytes -/

theorem digits_bytes {digit : Nat → Option Nat} {base : Nat} (numeral : Numeral digit base)
    {bs : List Nat} {v t : Nat} (read : digits digit base bs v = some t) : ∀ b ∈ bs, b < 256 := by
  induction bs generalizing v with
  | nil => exact nofun
  | cons b bs ih =>
    obtain ⟨d, here, rest⟩ := digits_cons.mp read
    exact List.forall_mem_cons.mpr ⟨numeral.byte b d here, ih rest⟩

theorem Spelling.bytes {cp : Nat} {bytes : List Nat} (s : Spelling cp bytes) :
    ∀ b ∈ bytes, b < 256 := by
  cases s with
  | raw scalar =>
    have top : cp < 0x110000 := by
      rcases scalar with low | ⟨_, high⟩ <;> omega
    unfold utf8
    split
    · simp; omega
    · split
      · simp; omega
      · split <;> simp <;> omega
  | short mem =>
    have : ∀ p ∈ shortEscapes, p.1 < 256 := by decide
    simpa using this _ mem
  | unicode _ quad => simpa using digits_bytes hexDigit_numeral quad.read
  | pair first second =>
    refine List.forall_mem_append.mpr ⟨?_, ?_⟩
    · simpa using digits_bytes hexDigit_numeral first.read
    · simpa using digits_bytes hexDigit_numeral second.read

section
variable {x : StringLexeme} {accepts : List Nat → Prop} {count : Nat}

/-- What may follow contains nothing but bytes. -/
theorem body_bytes {bytes : List Nat} (body : x.Body accepts count bytes) :
    ∀ b ∈ bytes, b < 256 := by
  obtain ⟨cs, spellings, spelled, rfl, _⟩ := body
  refine List.forall_mem_append.mpr ⟨?_, by simp⟩
  clear! accepts count x
  induction spelled with
  | nil => exact nofun
  | cons one _ ih =>
    exact List.forall_mem_append.mpr ⟨one.bytes, ih⟩

theorem scalars_of_spelled {cs : List Nat} {spellings : List (List Nat)}
    (spelled : List.Forall₂ Spelling cs spellings) : ∀ cp ∈ cs, Scalar cp := by
  induction spelled with
  | nil => exact nofun
  | cons one _ ih => exact List.forall_mem_cons.mpr ⟨one.scalar, ih⟩

theorem exists_body {cs : List Nat} (scalars : ∀ cp ∈ cs, Scalar cp) (accepted : accepts cs)
    (fits : x.Fits count cs.length) : ∃ bytes, x.Body accepts count bytes := by
  have spelled : ∃ spellings, List.Forall₂ Spelling cs spellings := by
    clear accepted fits
    induction cs with
    | nil => exact ⟨[], .nil⟩
    | cons cp cs ih =>
      obtain ⟨scalar, scalars⟩ := List.forall_mem_cons.mp scalars
      obtain ⟨rest, one⟩ := exists_escape scalar
      obtain ⟨spellings, more⟩ := ih scalars
      exact ⟨_, .cons one more⟩
  obtain ⟨spellings, spelled⟩ := spelled
  exact ⟨_, cs, spellings, spelled, rfl, accepted, fits⟩

/-! ## What the automaton says -/

/-- The characters that the automaton accepts from a state. -/
def StringLexeme.Accepted (x : StringLexeme) (dfa : Option Nat) (cs : List Nat) : Prop :=
  x.regex.Accepting (cs.foldl x.regex.Advance dfa) = true

/-- What a lexeme is that has been constructed. -/
structure StringLexeme.Sound (x : StringLexeme) : Prop where
  compiled : ∃ (E : Type) (_ : DecidableEq E) (e : Expressions E) (longest : Nat),
    e.Valid ∧ compile e longest = .ok x.regex
  small : x.minimum ≤ 1048576
  finishes : x.regex.CanFinish (some 0) x.minimum x.maximum = true
  all : x.scalarOnly = true → ∀ cs, (∀ cp ∈ cs, Scalar cp) → x.Accepted (some 0) cs

/-- The number of characters that is kept. -/
structure StringLexeme.Counted (x : StringLexeme) (count : Nat) : Prop where
  le : count ≤ x.maximum
  capped : x.maximum = UINT32_MAX → count ≤ x.minimum + 1

theorem fits_iff (counted : x.Counted count) {n : Nat} : x.Fits count n ↔
    x.RemainingMinimum count ≤ n ∧ (x.maximum = UINT32_MAX ∨ n ≤ x.maximum - count) := by
  have := counted.le
  unfold StringLexeme.Fits StringLexeme.RemainingMinimum
  split <;> omega

/-- Something may follow exactly when the automaton can finish. -/
theorem alive_iff (sound : x.Sound) (counted : x.Counted count) {dfa : Option Nat}
    (knows : x.regex.Knows dfa) :
    x.regex.CanFinish dfa (x.RemainingMinimum count) (x.maximum - count) = true ↔
      ∃ bytes, x.Body (x.Accepted dfa) count bytes := by
  obtain ⟨E, _, e, longest, valid, compiled⟩ := sound.compiled
  have words : (∃ bytes, x.Body (x.Accepted dfa) count bytes) ↔
      ∃ cs, x.Fits count cs.length ∧ Spells x.regex dfa cs := by
    constructor
    · rintro ⟨_, cs, _, spelled, _, accepted, fits⟩
      exact ⟨cs, fits, scalars_of_spelled spelled, accepted⟩
    · rintro ⟨cs, fits, scalars, accepted⟩
      exact exists_body scalars accepted fits
  rw [words]
  simp only [fits_iff counted]
  by_cases unbounded : x.maximum = UINT32_MAX
  · have room : x.RemainingMinimum count + kMaxStates ≤ x.maximum - count := by
      have := sound.small
      have := counted.capped unbounded
      rw [unbounded, UINT32_MAX, kMaxStates]
      unfold StringLexeme.RemainingMinimum
      split <;> omega
    rw [canFinish_unbounded valid compiled knows room]
    simp [unbounded]
  · rw [canFinish_spells valid compiled knows]
    simp [unbounded, and_assoc]

theorem range_iff (sound : x.Sound) {s : State} (knows : x.regex.Knows s.dfa) {first last : Nat}
    (point : last < 2 ^ 31) : x.Range s first last = true ↔ s.count ≠ x.maximum ∧
      ∃ cp, Scalar cp ∧ (first ≤ cp ∧ cp ≤ last) ∧ x.regex.CanFinish (x.regex.Advance s.dfa cp)
        (x.RemainingMinimum (s.count + 1)) (x.maximum - (s.count + 1)) = true := by
  obtain ⟨E, _, e, longest, valid, compiled⟩ := sound.compiled
  unfold StringLexeme.Range
  split
  case isTrue out =>
    refine iff_of_false Bool.false_ne_true ?_
    rintro ⟨room, cp, _, within, _⟩
    rcases out with empty | full
    · omega
    · exact room full
  case isFalse inside =>
    rw [canAdvance_spells valid compiled knows point]
    have room : s.count ≠ x.maximum := fun full => inside (.inr full)
    simp [room, and_assoc]

end

/-! ## Pending characters -/

section
variable {x : StringLexeme} {s : State} {begun : List Nat}

/-- After the character the automaton can still finish. -/
def StringLexeme.CanTake (x : StringLexeme) (s : State) (cp : Nat) : Prop :=
  x.regex.CanFinish (x.regex.Advance s.dfa cp) (x.RemainingMinimum (s.count + 1))
    (x.maximum - (s.count + 1)) = true

theorem pow_hex (n : Nat) : 2 ^ (4 * n) = 16 ^ n := by simp [pow_mul]

theorem pow_continuation (n : Nat) : 2 ^ (6 * n) = 64 ^ n := by simp [pow_mul]

/-- The bounds that `n` more digits leave, and that the values of four stay in. -/
theorem quad_bounds {ds : List Nat} {v n : Nat} (read : digits hexDigit 16 ds 0 = some v)
    (length : ds.length + n = 4) :
    v * 16 ^ n ≤ (v + 1) * 16 ^ n - 1 ∧ (v + 1) * 16 ^ n - 1 < 0x10000 ∧
      ∀ t, Within 16 v n t ↔ v * 16 ^ n ≤ t ∧ t ≤ (v + 1) * 16 ^ n - 1 := by
  have pos : 0 < 16 ^ n := Nat.pow_pos (by omega)
  have small := (digits_bound hexDigit_numeral read).2
  have whole : 16 ^ ds.length * 16 ^ n = 65536 := by
    rw [← pow_add, length]
    rfl
  have top : (v + 1) * 16 ^ n ≤ 16 ^ ds.length * 16 ^ n :=
    Nat.mul_le_mul_right _ (by omega)
  have step : (v + 1) * 16 ^ n = v * 16 ^ n + 16 ^ n := by rw [Nat.add_mul, Nat.one_mul]
  refine ⟨by omega, by omega, fun t => ?_⟩
  unfold Within
  omega

theorem pending_hex (sound : x.Sound) (general : x.scalarOnly = false)
    (knows : x.regex.Knows s.dfa) {ds : List Nat} (mode : s.mode = .hex) (short : ds.length < 4)
    (left : s.extra = 4 - ds.length) (read : digits hexDigit 16 ds 0 = some s.value) :
    x.Pending s = true ↔
      s.count ≠ x.maximum ∧ ∃ cp, Opens (92 :: 117 :: ds) cp ∧ x.CanTake s cp := by
  have length : ds.length + (4 - ds.length) = 4 := by omega
  obtain ⟨order, top, within⟩ := quad_bounds read length
  have opens : ∀ cp, Opens (92 :: 117 :: ds) cp ↔
      Scalar cp ∧ Within 16 s.value (4 - ds.length) cp ∨ (0x10000 ≤ cp ∧ cp ≤ 0x10ffff) ∧
        Within 16 s.value (4 - ds.length) (0xd800 + (cp - 0x10000) / 1024) := by
    intro cp
    rw [opens_hex length, read]
    simp
  unfold StringLexeme.Pending
  rw [general, if_neg Bool.false_ne_true, mode]
  simp only [opens, within, pow_hex, left, show (4 - ds.length) % 256 = 4 - ds.length by omega,
    reduceCtorEq, if_false]
  generalize (s.value + 1) * 16 ^ (4 - ds.length) - 1 = last at order top ⊢
  simp only [Bool.if_true_left, Bool.if_false_right, Bool.or_eq_true, Bool.and_eq_true,
    decide_eq_true_eq, range_iff sound knows (show min last 0xd7ff < 2 ^ 31 by omega),
    range_iff sound knows (show last < 2 ^ 31 by omega), range_iff sound knows
      (show 0x10000 + (min last 0xdbff - 0xd800 + 1) * 1024 - 1 < 2 ^ 31 by omega)]
  constructor
  · rintro (⟨_, room, cp, scalar, range, take⟩ | ⟨_, room, cp, scalar, range, take⟩ |
      ⟨_, room, cp, scalar, range, take⟩)
    · exact ⟨room, cp, .inl ⟨scalar, by omega⟩, take⟩
    · exact ⟨room, cp, .inl ⟨scalar, by omega⟩, take⟩
    · exact ⟨room, cp, .inr (by omega), take⟩
  · rintro ⟨room, cp, ⟨scalar, range⟩ | ⟨large, range⟩, take⟩
    · have scalar' := scalar
      rcases scalar' with low | ⟨high, _⟩
      · exact .inl ⟨by omega, room, cp, scalar, by omega, take⟩
      · exact .inr (.inl ⟨by omega, room, cp, scalar, by omega, take⟩)
    · exact .inr (.inr ⟨by omega, room, cp, .inr (by omega), by omega, take⟩)

theorem pending_lowHex (sound : x.Sound) (general : x.scalarOnly = false)
    (knows : x.regex.Knows s.dfa) {ds es : List Nat} {high : Nat} (mode : s.mode = .lowHex)
    (first : Quad ds high) (isHigh : 0xd800 ≤ high ∧ high ≤ 0xdbff) (short : es.length < 4)
    (left : s.extra = high * 256 + (4 - es.length))
    (read : digits hexDigit 16 es 0 = some s.value) :
    x.Pending s = true ↔ s.count ≠ x.maximum ∧
      ∃ cp, Opens (92 :: 117 :: ds ++ 92 :: 117 :: es) cp ∧ x.CanTake s cp := by
  have length : es.length + (4 - es.length) = 4 := by omega
  obtain ⟨order, top, within⟩ := quad_bounds read length
  have opens : ∀ cp, Opens (92 :: 117 :: ds ++ 92 :: 117 :: es) cp ↔
      ∃ low, Within 16 s.value (4 - es.length) low ∧ (0xdc00 ≤ low ∧ low ≤ 0xdfff) ∧
        cp = 0x10000 + (high - 0xd800) * 1024 + (low - 0xdc00) := by
    intro cp
    rw [opens_low first isHigh length, read]
    simp
  unfold StringLexeme.Pending
  rw [general, if_neg Bool.false_ne_true, mode]
  simp only [opens, within, pow_hex, show s.extra % 256 = 4 - es.length by omega,
    show s.extra / 256 = high by omega, if_true]
  split
  case isTrue empty =>
    refine iff_of_false Bool.false_ne_true ?_
    omega
  case isFalse some =>
    rw [range_iff sound knows (by omega)]
    refine and_congr_right fun _ => exists_congr fun cp => ?_
    rw [← and_assoc]
    refine and_congr_left fun _ => ?_
    constructor
    · rintro ⟨_, range⟩
      exact ⟨0xdc00 + (cp - (0x10000 + (high - 0xd800) * 1024)), by omega, by omega, by omega⟩
    · rintro ⟨low, range, isLow, same⟩
      exact ⟨.inr (by omega), by omega⟩

theorem pending_utf8 (sound : x.Sound) (general : x.scalarOnly = false)
    (knows : x.regex.Knows s.dfa) {b : Nat} {cs : List Nat} (mode : s.mode = .utf8)
    (lead : 0x80 ≤ b) (short : cs.length + 1 < utf8Width b)
    (left : s.extra = utf8Width b * 256 + (utf8Width b - 1 - cs.length))
    (read : digits continuation 64 cs (b % 2 ^ (7 - utf8Width b)) = some s.value) :
    x.Pending s = true ↔ s.count ≠ x.maximum ∧ ∃ cp, Opens (b :: cs) cp ∧ x.CanTake s cp := by
  have sizes := utf8Width_cases (b := b) (by omega)
  have opens : ∀ cp, Opens (b :: cs) cp ↔ Within 64 s.value (utf8Width b - 1 - cs.length) cp ∧
      utf8Minimum (utf8Width b) ≤ cp ∧ Scalar cp := by
    intro cp
    rw [opens_multi lead]
    constructor
    · rintro ⟨n, v, length, same, rest⟩
      cases read.symm.trans same
      rwa [show utf8Width b - 1 - cs.length = n by omega]
    · intro rest
      exact ⟨_, _, by omega, read, rest⟩
  have pos : 0 < 64 ^ (utf8Width b - 1 - cs.length) := Nat.pow_pos (by omega)
  unfold StringLexeme.Pending
  rw [general, if_neg Bool.false_ne_true, mode]
  simp only [opens, Within, pow_continuation,
    show s.extra % 256 = utf8Width b - 1 - cs.length by omega,
    show s.extra / 256 = utf8Width b by omega, Nat.add_mul, Nat.one_mul]
  rw [range_iff sound knows (by omega)]
  refine and_congr_right fun _ => exists_congr fun cp => ?_
  rw [← and_assoc]
  refine and_congr_left fun _ => ?_
  constructor
  · rintro ⟨scalar, range⟩
    exact ⟨by omega, by omega, scalar⟩
  · rintro ⟨range, least, scalar⟩
    have top : cp ≤ 0x10ffff := by
      rcases scalar with low | ⟨_, high⟩ <;> omega
    exact ⟨scalar, by omega⟩

theorem pending_low (sound : x.Sound) (general : x.scalarOnly = false)
    (knows : x.regex.Knows s.dfa) (mode : s.mode = .lowSlash ∨ s.mode = .lowU)
    (isHigh : 0xd800 ≤ s.value ∧ s.value ≤ 0xdbff)
    (opens : ∀ cp, Opens begun cp ↔ 0x10000 + (s.value - 0xd800) * 1024 ≤ cp ∧
      cp ≤ 0x10000 + (s.value - 0xd800) * 1024 + 1023) :
    x.Pending s = true ↔ s.count ≠ x.maximum ∧ ∃ cp, Opens begun cp ∧ x.CanTake s cp := by
  have range := @range_iff x sound s knows (0x10000 + (s.value - 0xd800) * 1024)
    (0x10000 + (s.value - 0xd800) * 1024 + 1023) (by omega)
  have same : x.Pending s = x.Range s (0x10000 + (s.value - 0xd800) * 1024)
      (0x10000 + (s.value - 0xd800) * 1024 + 1023) := by
    unfold StringLexeme.Pending
    rw [general, if_neg Bool.false_ne_true]
    rcases mode with mode | mode <;> rw [mode]
  rw [same, range]
  refine and_congr_right fun _ => exists_congr fun cp => ?_
  rw [opens, ← and_assoc]
  exact and_congr_left fun _ => and_iff_right_of_imp fun _ => .inr (by omega)

/-- The character is one of those that its bytes so far leave. -/
theorem pending_iff (sound : x.Sound) (general : x.scalarOnly = false)
    (knows : x.regex.Knows s.dfa) (h : Begun s begun) (open_ : s.mode ≠ .body) :
    x.Pending s = true ↔ s.count ≠ x.maximum ∧ ∃ cp, Opens begun cp ∧ x.CanTake s cp := by
  cases h with
  | body mode => exact absurd mode open_
  | escape mode =>
    unfold StringLexeme.Pending
    rw [general, if_neg Bool.false_ne_true, mode]
    rw [range_iff sound knows (by omega)]
    refine and_congr_right fun _ => exists_congr fun cp => ?_
    rw [opens_escape, ← and_assoc]
    refine and_congr_left fun _ => and_iff_left_of_imp fun scalar => ?_
    rcases scalar with low | ⟨_, high⟩ <;> omega
  | lowSlash mode first isHigh =>
    exact pending_low sound general knows (.inl mode) isHigh fun _ => opens_slash first isHigh
  | lowU mode first isHigh =>
    exact pending_low sound general knows (.inr mode) isHigh fun _ => opens_letter first isHigh
  | hex mode short left read => exact pending_hex sound general knows mode short left read
  | lowHex mode first isHigh short left read =>
    exact pending_lowHex sound general knows mode first isHigh short left read
  | utf8 mode lead short left read =>
    exact pending_utf8 sound general knows mode lead short left read

end

end Gufo.Lexeme
