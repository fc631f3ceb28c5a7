import Gufo.Lexeme.Spelling

/-!
# Beginnings of spellings

`Opens begun cp` says that what has been read can still become the character. For
each way of spelling these are the characters of a range, which is what the matcher
asks its automaton about.
-/

namespace Gufo.Lexeme
open Gufo.Regex

/-! ## Escapes -/

variable {cp : Nat}

theorem spelling_escape {rest : List Nat} :
    Spelling cp (92 :: rest) ↔
      (∃ letter, (letter, cp) ∈ shortEscapes ∧ rest = [letter]) ∨
      (∃ ds, Scalar cp ∧ Quad ds cp ∧ rest = 117 :: ds) ∨
      ∃ ds es high low, Quad ds high ∧ Quad es low ∧ (0xd800 ≤ high ∧ high ≤ 0xdbff) ∧
        (0xdc00 ≤ low ∧ low ≤ 0xdfff) ∧ cp = 0x10000 + (high - 0xd800) * 1024 + (low - 0xdc00) ∧
        rest = 117 :: ds ++ 92 :: 117 :: es := by
  constructor
  · intro s
    generalize whole : 92 :: rest = bytes at s
    cases s with
    | raw scalar printable quote slash =>
      rcases utf8_head cp with ⟨_, one⟩ | ⟨c, cs, high, more⟩
      · cases whole.trans one
        exact absurd rfl slash
      · cases whole.trans more
        omega
    | short mem => cases whole; exact .inl ⟨_, mem, rfl⟩
    | unicode scalar quad => cases whole; exact .inr (.inl ⟨_, scalar, quad, rfl⟩)
    | @pair high low ds es first second isHigh isLow =>
      cases whole
      exact .inr (.inr ⟨ds, es, high, low, first, second, isHigh, isLow, rfl, rfl⟩)
  · rintro (⟨letter, mem, rfl⟩ | ⟨ds, scalar, quad, rfl⟩ |
      ⟨ds, es, high, low, first, second, isHigh, isLow, value, rfl⟩)
    · exact .short mem
    · exact .unicode scalar quad
    · rw [value]
      exact .pair first second isHigh isLow

theorem short_letter {letter cp : Nat} (mem : (letter, cp) ∈ shortEscapes) : letter ≠ 117 := by
  have : ∀ p ∈ shortEscapes, p.1 ≠ 117 := by decide
  exact this _ mem

theorem short_unique {letter cp cp' : Nat} (mem : (letter, cp) ∈ shortEscapes)
    (mem' : (letter, cp') ∈ shortEscapes) : cp = cp' := by
  have : ∀ p ∈ shortEscapes, ∀ q ∈ shortEscapes, p.1 = q.1 → p.2 = q.2 := by decide
  exact this _ mem _ mem' rfl

theorem Quad.unique {ds : List Nat} {a b : Nat} (first : Quad ds a) (second : Quad ds b) : a = b :=
  Option.some.inj (first.read.symm.trans second.read)

theorem not_scalar_high (scalar : Scalar cp) (high : 0xd800 ≤ cp ∧ cp ≤ 0xdbff) :
    False := by
  rcases scalar with low | ⟨above, _⟩ <;> omega

theorem spelling_u {rest : List Nat} :
    Spelling cp (92 :: 117 :: rest) ↔
      (Scalar cp ∧ Quad rest cp) ∨
      ∃ ds es high low, Quad ds high ∧ Quad es low ∧ (0xd800 ≤ high ∧ high ≤ 0xdbff) ∧
        (0xdc00 ≤ low ∧ low ≤ 0xdfff) ∧ cp = 0x10000 + (high - 0xd800) * 1024 + (low - 0xdc00) ∧
        rest = ds ++ 92 :: 117 :: es := by
  rw [spelling_escape]
  constructor
  · rintro (⟨letter, mem, same⟩ | ⟨ds, scalar, quad, same⟩ |
      ⟨ds, es, high, low, first, second, isHigh, isLow, value, same⟩)
    · cases same
      exact absurd rfl (short_letter mem)
    · cases same
      exact .inl ⟨scalar, quad⟩
    · cases same
      exact .inr ⟨ds, es, high, low, first, second, isHigh, isLow, value, rfl⟩
  · rintro (⟨scalar, quad⟩ | ⟨ds, es, high, low, first, second, isHigh, isLow, value, rfl⟩)
    · exact .inr (.inl ⟨_, scalar, quad, rfl⟩)
    · exact .inr (.inr ⟨ds, es, high, low, first, second, isHigh, isLow, value, rfl⟩)

/-- After a high surrogate only a low one goes on. -/
theorem spelling_high {cp high : Nat} {ds rest : List Nat} (first : Quad ds high)
    (isHigh : 0xd800 ≤ high ∧ high ≤ 0xdbff) :
    Spelling cp (92 :: 117 :: ds ++ rest) ↔
      ∃ es low, Quad es low ∧ (0xdc00 ≤ low ∧ low ≤ 0xdfff) ∧
        cp = 0x10000 + (high - 0xd800) * 1024 + (low - 0xdc00) ∧ rest = 92 :: 117 :: es := by
  rw [List.cons_append, List.cons_append, spelling_u]
  constructor
  · rintro (⟨scalar, quad⟩ | ⟨ds', es, high', low, first', second, isHigh', isLow, value, same⟩)
    · have none : rest = [] := by
        have := quad.length
        rw [List.length_append, first.length] at this
        exact List.length_eq_zero_iff.mp (by omega)
      subst none
      rw [List.append_nil] at quad
      exact (not_scalar_high scalar (quad.unique first ▸ isHigh)).elim
    · obtain ⟨rfl, rfl⟩ := List.append_inj same (first.length.trans first'.length.symm)
      cases first.unique first'
      exact ⟨es, low, second, isLow, value, rfl⟩
  · rintro ⟨es, low, second, isLow, value, rfl⟩
    exact .inr ⟨ds, es, high, low, first, second, isHigh, isLow, value, rfl⟩

/-! ## No spelling begins another -/

theorem spelling_nil : ¬Spelling cp [] := by
  intro s
  generalize whole : ([] : List Nat) = bytes at s
  cases s with
  | @raw cp =>
    rcases utf8_head cp with ⟨_, one⟩ | ⟨_, _, _, more⟩
    · cases whole.trans one
    · cases whole.trans more
  | short | unicode | pair => cases whole

theorem Spelling.alone {cp cp' : Nat} {bytes rest : List Nat} (s : Spelling cp bytes)
    (longer : Spelling cp' (bytes ++ rest)) : cp' = cp ∧ rest = [] := by
  cases bytes with
  | nil => exact absurd s spelling_nil
  | cons b bs =>
    by_cases slash : b = 92
    · subst slash
      rcases spelling_escape.mp s with ⟨letter, mem, rfl⟩ | ⟨ds, scalar, quad, rfl⟩ |
        ⟨ds, es, high, low, first, second, isHigh, isLow, value, rfl⟩
      · rcases spelling_escape.mp longer with ⟨letter', mem', same⟩ | ⟨ds, _, _, same⟩ |
          ⟨ds, es, _, _, _, _, _, _, _, same⟩
        · cases same
          exact ⟨short_unique mem' mem, rfl⟩
        · cases same
          exact absurd rfl (short_letter mem)
        · cases same
          exact absurd rfl (short_letter mem)
      · have longer : Spelling cp' (92 :: 117 :: (ds ++ rest)) := longer
        rcases spelling_u.mp longer with ⟨_, quad'⟩ |
          ⟨ds', es, high, low, first, _, isHigh, _, _, same⟩
        · have none : rest = [] := by
            have := quad'.length
            rw [List.length_append, quad.length] at this
            exact List.length_eq_zero_iff.mp (by omega)
          subst none
          rw [List.append_nil] at quad'
          exact ⟨quad'.unique quad, rfl⟩
        · obtain ⟨rfl, rfl⟩ := List.append_inj same (quad.length.trans first.length.symm)
          exact (not_scalar_high scalar (first.unique quad ▸ isHigh)).elim
      · have longer : Spelling cp' (92 :: 117 :: ds ++ (92 :: 117 :: es ++ rest)) := by
          simpa using longer
        obtain ⟨es', low', second', _, value', same⟩ := (spelling_high first isHigh).mp longer
        have same : es ++ rest = es' := by simpa using same
        have none : rest = [] := by
          have := second'.length
          rw [← same, List.length_append, second.length] at this
          exact List.length_eq_zero_iff.mp (by omega)
        subst none
        rw [List.append_nil] at same
        subst same
        rw [value, value', second'.unique second]
        exact ⟨rfl, rfl⟩
    · by_cases small : b < 0x80
      · obtain ⟨rfl, rfl, -⟩ := (spelling_ascii small slash).mp s
        obtain ⟨same, rfl, -⟩ := (spelling_ascii small slash).mp longer
        exact ⟨rfl, same⟩
      · have high : 0x80 ≤ b := Nat.not_lt.mp small
        obtain ⟨_, length, read, _⟩ := (spelling_multi high).mp s
        obtain ⟨_, length', read', _⟩ := (spelling_multi high).mp longer
        have none : rest = [] := by
          have : (bs ++ rest).length + 1 = utf8Width b := length'
          rw [List.length_append] at this
          exact List.length_eq_zero_iff.mp (by omega)
        subst none
        have read' : digits continuation 64 (bs ++ []) _ = some cp' := read'
        rw [List.append_nil] at read'
        exact ⟨Option.some.inj (read'.symm.trans read), rfl⟩

/-! ## What can still come -/

def Opens (begun : List Nat) (cp : Nat) : Prop := ∃ rest, Spelling cp (begun ++ rest)

/-- With `n` more digits the value becomes `t`. -/
def Within (base v n t : Nat) : Prop := v * base ^ n ≤ t ∧ t < (v + 1) * base ^ n

theorem exists_escape (scalar : Scalar cp) : ∃ rest, Spelling cp (92 :: rest) := by
  by_cases small : cp < 0x10000
  · obtain ⟨ds, quad⟩ := exists_quad small
    exact ⟨_, .unicode scalar quad⟩
  · have top : cp < 0x110000 := by
      rcases scalar with low | ⟨_, high⟩ <;> omega
    obtain ⟨ds, first⟩ := @exists_quad (0xd800 + (cp - 0x10000) / 1024) (by omega)
    obtain ⟨es, second⟩ := @exists_quad (0xdc00 + (cp - 0x10000) % 1024) (by omega)
    have spelled := Spelling.pair first second (by omega) (by omega)
    rw [show 0x10000 + (0xd800 + (cp - 0x10000) / 1024 - 0xd800) * 1024 +
      (0xdc00 + (cp - 0x10000) % 1024 - 0xdc00) = cp by omega] at spelled
    exact ⟨_, spelled⟩

theorem opens_escape : Opens [92] cp ↔ Scalar cp := by
  constructor
  · rintro ⟨_, s⟩
    exact s.scalar
  · intro scalar
    obtain ⟨rest, s⟩ := exists_escape scalar
    exact ⟨rest, s⟩

theorem opens_append {begun more : List Nat} (opens : Opens (begun ++ more) cp) :
    Opens begun cp := by
  obtain ⟨rest, s⟩ := opens
  exact ⟨more ++ rest, by rwa [← List.append_assoc]⟩

theorem quad_append {ds : List Nat} {n t : Nat} (length : ds.length + n = 4) :
    (∃ rest, Quad (ds ++ rest) t) ↔
      ∃ v, digits hexDigit 16 ds 0 = some v ∧ Within 16 v n t := by
  constructor
  · rintro ⟨rest, quad⟩
    have read := quad.read
    rw [digits_append] at read
    obtain ⟨v, first, second⟩ := Option.bind_eq_some_iff.mp read
    have len := quad.length
    rw [List.length_append] at len
    exact ⟨v, first, (digits_iff hexDigit_numeral).mp ⟨rest, by omega, second⟩⟩
  · rintro ⟨v, first, within⟩
    obtain ⟨rest, len, second⟩ := (digits_iff hexDigit_numeral).mpr within
    exact ⟨rest, by rw [List.length_append]; omega,
      by rw [digits_append, first, Option.bind_some, second]⟩

/-- Up to four digits leave a character of their range, or a pair with a high surrogate of it. -/
theorem opens_hex {ds : List Nat} {n cp : Nat} (length : ds.length + n = 4) :
    Opens (92 :: 117 :: ds) cp ↔ ∃ v, digits hexDigit 16 ds 0 = some v ∧
      (Scalar cp ∧ Within 16 v n cp ∨
        (0x10000 ≤ cp ∧ cp ≤ 0x10ffff) ∧ Within 16 v n (0xd800 + (cp - 0x10000) / 1024)) := by
  constructor
  · rintro ⟨rest, s⟩
    rcases spelling_u.mp s with ⟨scalar, quad⟩ |
      ⟨ds', es, high, low, first, second, isHigh, isLow, value, same⟩
    · obtain ⟨v, read, within⟩ := (quad_append length).mp ⟨rest, quad⟩
      exact ⟨v, read, .inl ⟨scalar, within⟩⟩
    · obtain ⟨more, rfl, -⟩ | ⟨more, rfl, -⟩ := List.append_eq_append_iff.mp same
      · obtain ⟨v, read, within⟩ := (quad_append length).mp ⟨more, first⟩
        refine ⟨v, read, .inr ⟨by omega, ?_⟩⟩
        rwa [show 0xd800 + (cp - 0x10000) / 1024 = high by omega]
      · have := first.length
        rw [List.length_append] at length
        have none : more = [] := List.length_eq_zero_iff.mp (by omega)
        subst none
        rw [List.append_nil]
        obtain ⟨v, read, within⟩ := (quad_append (n := n) (by omega)).mp
          ⟨[], by rwa [List.append_nil]⟩
        refine ⟨v, read, .inr ⟨by omega, ?_⟩⟩
        rwa [show 0xd800 + (cp - 0x10000) / 1024 = high by omega]
  · rintro ⟨v, read, ⟨scalar, within⟩ | ⟨large, within⟩⟩
    · obtain ⟨rest, quad⟩ := (quad_append length).mpr ⟨v, read, within⟩
      exact ⟨rest, spelling_u.mpr (.inl ⟨scalar, quad⟩)⟩
    · obtain ⟨rest, quad⟩ := (quad_append length).mpr ⟨v, read, within⟩
      obtain ⟨es, second⟩ := @exists_quad (0xdc00 + (cp - 0x10000) % 1024) (by omega)
      refine ⟨rest ++ 92 :: 117 :: es, spelling_u.mpr (.inr ⟨ds ++ rest, es, _, _, quad, second,
        by omega, by omega, by omega, by simp⟩)⟩

section
variable {ds : List Nat} {high : Nat} (first : Quad ds high)
  (isHigh : 0xd800 ≤ high ∧ high ≤ 0xdbff)

include first isHigh

/-- After a high surrogate, any low one. -/
theorem opens_slash : Opens (92 :: 117 :: ds) cp ↔
    0x10000 + (high - 0xd800) * 1024 ≤ cp ∧ cp ≤ 0x10000 + (high - 0xd800) * 1024 + 1023 := by
  unfold Opens
  simp only [spelling_high first isHigh]
  constructor
  · omega
  · intro range
    obtain ⟨es, second⟩ := @exists_quad (0xdc00 + (cp - 0x10000) % 1024) (by omega)
    exact ⟨_, es, _, second, by omega, by omega, rfl⟩

theorem opens_low {es : List Nat} {n cp : Nat} (length : es.length + n = 4) :
    Opens (92 :: 117 :: ds ++ 92 :: 117 :: es) cp ↔ ∃ v, digits hexDigit 16 es 0 = some v ∧
      ∃ low, Within 16 v n low ∧ (0xdc00 ≤ low ∧ low ≤ 0xdfff) ∧
        cp = 0x10000 + (high - 0xd800) * 1024 + (low - 0xdc00) := by
  unfold Opens
  simp only [List.append_assoc, spelling_high first isHigh]
  constructor
  · rintro ⟨rest, es', low, second, isLow, value, same⟩
    have same : es ++ rest = es' := by simpa using same
    obtain ⟨v, read, within⟩ := (quad_append length).mp ⟨rest, same ▸ second⟩
    exact ⟨v, read, low, within, isLow, value⟩
  · rintro ⟨v, read, low, within, isLow, value⟩
    obtain ⟨rest, second⟩ := (quad_append length).mpr ⟨v, read, within⟩
    exact ⟨rest, es ++ rest, low, second, isLow, value, by simp⟩

theorem opens_letter : Opens (92 :: 117 :: ds ++ [92]) cp ↔
    0x10000 + (high - 0xd800) * 1024 ≤ cp ∧ cp ≤ 0x10000 + (high - 0xd800) * 1024 + 1023 := by
  rw [← opens_slash first isHigh]
  refine ⟨opens_append, ?_⟩
  rintro ⟨_, s⟩
  obtain ⟨es, low, _, _, _, rfl⟩ := (spelling_high first isHigh).mp s
  exact ⟨117 :: es, by simpa using s⟩

end

/-- A character of several bytes leaves those of its range that need as many. -/
theorem opens_multi {b cp : Nat} {cs : List Nat} (high : 0x80 ≤ b) :
    Opens (b :: cs) cp ↔ ∃ n v, cs.length + 1 + n = utf8Width b ∧
      digits continuation 64 cs (b % 2 ^ (7 - utf8Width b)) = some v ∧ Within 64 v n cp ∧
      utf8Minimum (utf8Width b) ≤ cp ∧ Scalar cp := by
  unfold Opens Within
  simp only [List.cons_append, spelling_multi high, digits_append, List.length_append,
    Option.bind_eq_some_iff]
  constructor
  · rintro ⟨rest, scalar, length, ⟨v, first, second⟩, least⟩
    exact ⟨rest.length, v, by omega, first,
      (digits_iff continuation_numeral).mp ⟨rest, rfl, second⟩, least, scalar⟩
  · rintro ⟨n, v, length, first, within, least, scalar⟩
    obtain ⟨rest, rfl, second⟩ := (digits_iff continuation_numeral).mpr within
    exact ⟨rest, scalar, by omega, ⟨v, first, second⟩, least⟩

end Gufo.Lexeme
