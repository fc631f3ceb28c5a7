import Gufo.Json.Octets
import Gufo.Lib.Outcome
import Mathlib.Data.List.TakeWhile
import Mathlib.Tactic.SplitIfs

/-!
# The grammar of JSON texts

RFC 8259 as relations between bytes and what they mean, and that the readers of strings and
numbers read it.
-/

namespace Gufo.Json.Octets
open Gufo.Serve (scalarLength Fits)

/-! ## The grammar -/

/-- `ws` -/
def Blank (w : List Byte) : Prop := ∀ b ∈ w, isBlank b = true

/-- The digit's value, of either case. -/
def HexDigit (h : Byte) (d : Nat) : Prop :=
  48 ≤ h.toNat ∧ h.toNat ≤ 57 ∧ d + 48 = h.toNat ∨ 97 ≤ h.toNat ∧ h.toNat ≤ 102 ∧ d + 87 = h.toNat ∨
    65 ≤ h.toNat ∧ h.toNat ≤ 70 ∧ d + 55 = h.toNat

/-- `4HEXDIG` -/
def HexQuad (text : List Byte) (code : Nat) : Prop :=
  ∃ a b c d a' b' c' d', text = [a, b, c, d] ∧ HexDigit a a' ∧ HexDigit b b' ∧ HexDigit c c' ∧
    HexDigit d d' ∧ code = a' * 4096 + b' * 256 + c' * 16 + d'

def Surrogate (code : Nat) : Prop := 0xD800 ≤ code ∧ code ≤ 0xDFFF

/-- The letters behind a backslash, and the bytes that they stand for. -/
def escapes : List (Byte × Byte) :=
  [(34, 34), (92, 92), (47, 47), (98, 8), (102, 12), (110, 10), (114, 13), (116, 9)]

/-- `*char`: the text of a string between its quotes, and the bytes that it means. -/
inductive Chars : List Byte → List Byte → Prop
  | nil : Chars [] []
  | unescaped {c : Char} {text bytes : List Byte} : 0x20 ≤ c.toNat → c ≠ '"' → c ≠ '\\' →
      Chars text bytes → Chars (String.utf8EncodeChar c ++ text) (String.utf8EncodeChar c ++ bytes)
  | letter {e x : Byte} {text bytes : List Byte} : (e, x) ∈ escapes → Chars text bytes →
      Chars (backslash :: e :: text) (x :: bytes)
  | unicode {quad text bytes : List Byte} {code : Nat} : HexQuad quad code → ¬Surrogate code →
      Chars text bytes →
      Chars (backslash :: 117 :: (quad ++ text)) (String.utf8EncodeChar (Char.ofNat code) ++ bytes)
  | pair {quad quad' text bytes : List Byte} {high low : Nat} : HexQuad quad high →
      HexQuad quad' low → 0xD800 ≤ high ∧ high ≤ 0xDBFF → 0xDC00 ≤ low ∧ low ≤ 0xDFFF →
      Chars text bytes →
      Chars (backslash :: 117 :: (quad ++ backslash :: 117 :: (quad' ++ text)))
        (String.utf8EncodeChar
          (Char.ofNat (0x10000 + (high - 0xD800) * 1024 + (low - 0xDC00))) ++ bytes)

/-- `string` -/
def StringText (text bytes : List Byte) : Prop :=
  ∃ body, text = quote :: (body ++ [quote]) ∧ Chars body bytes

/-- A number token whose nearest double is finite and that is not reported as an underflow, with
the double that is read from it. -/
def NumberText (n : Numbers) (text : List Byte) (x : Double) : Prop :=
  ∃ t : Token, t.WellFormed ∧ text = t.spelling ∧ InRange t.magnitude ∧ ¬n.underflows text ∧
    n.fromChars text = some x

mutual

/-- The text of a value. -/
def Value.Text (n : Numbers) : Value → List Byte → Prop
  | .null, text => text = [110, 117, 108, 108]
  | .bool b, text => text = if b then [116, 114, 117, 101] else [102, 97, 108, 115, 101]
  | .number x, text => NumberText n text x
  | .string s, text => StringText text s
  | .array items, text => ∃ body, text = openBracket :: (body ++ [closeBracket]) ∧
      (items = [] ∧ Blank body ∨ ItemsText n items body)
  | .object members, text => ∃ body, text = openBrace :: (body ++ [closeBrace]) ∧
      (members = [] ∧ Blank body ∨ MembersText n members body)

/-- `value *( value-separator value )`, with the blanks around each. -/
def ItemsText (n : Numbers) : List Value → List Byte → Prop
  | [], _ => False
  | v :: rest, body => ∃ before text after, Blank before ∧ v.Text n text ∧ Blank after ∧
      (rest = [] ∧ body = before ++ text ++ after ∨
        ∃ more, body = before ++ text ++ after ++ comma :: more ∧ ItemsText n rest more)

/-- `member *( value-separator member )`, with the blanks around each part. -/
def MembersText (n : Numbers) : List (List Byte × Value) → List Byte → Prop
  | [], _ => False
  | (key, v) :: rest, body => ∃ w name w' before text after, Blank w ∧ StringText name key ∧
      Blank w' ∧ Blank before ∧ v.Text n text ∧ Blank after ∧
      (rest = [] ∧ body = w ++ name ++ w' ++ colon :: (before ++ text ++ after) ∨
        ∃ more, body = w ++ name ++ w' ++ colon :: (before ++ text ++ after ++ comma :: more) ∧
          MembersText n rest more)

end

/-- `JSON-text = ws value ws` -/
def Document (n : Numbers) (text : List Byte) (v : Value) : Prop :=
  ∃ before body after, text = before ++ body ++ after ∧ Blank before ∧ v.Text n body ∧ Blank after

mutual

/-- How many arrays and objects are open at the deepest point. -/
def Value.depth : Value → Nat
  | .array items => depthItems items + 1
  | .object members => depthMembers members + 1
  | _ => 0

def depthItems : List Value → Nat
  | [] => 0
  | v :: rest => max v.depth (depthItems rest)

def depthMembers : List (List Byte × Value) → Nat
  | [] => 0
  | (_, v) :: rest => max v.depth (depthMembers rest)

end

mutual

/-- No object has a key twice. -/
def Value.Distinct : Value → Prop
  | .array items => DistinctItems items
  | .object members => (members.map Prod.fst).Nodup ∧ DistinctMembers members
  | _ => True

def DistinctItems : List Value → Prop
  | [] => True
  | v :: rest => v.Distinct ∧ DistinctItems rest

def DistinctMembers : List (List Byte × Value) → Prop
  | [] => True
  | (_, v) :: rest => v.Distinct ∧ DistinctMembers rest

end

/-! ## Blanks -/

theorem skipWs_blank {w s : List Byte} (blank : Blank w) : skipWs (w ++ s) = skipWs s := by
  exact List.dropWhile_append_of_pos blank

theorem skipWs_cons {c : Byte} {s : List Byte} (h : isBlank c = false) :
    skipWs (c :: s) = c :: s := List.dropWhile_cons_of_neg (by rw [h]; exact Bool.false_ne_true)

/-- Only blanks are skipped. -/
theorem skipWs_spec (s : List Byte) : ∃ w, Blank w ∧ s = w ++ skipWs s :=
  ⟨s.takeWhile isBlank, fun _ mem => List.mem_takeWhile_imp mem,
    (List.takeWhile_append_dropWhile ..).symm⟩

theorem skipWs_nil {s : List Byte} : skipWs s = [] ↔ Blank s := List.dropWhile_eq_nil_iff

theorem behind_spec {word s rest : List Byte} : behind word s = some rest ↔ s = word ++ rest := by
  unfold behind
  constructor
  · intro h
    split_ifs at h with begins
    cases h
    obtain ⟨rest, rfl⟩ := List.isPrefixOf_iff_prefix.mp begins
    rw [List.drop_left]
  · rintro rfl
    rw [if_pos (List.isPrefixOf_iff_prefix.mpr (List.prefix_append ..)), List.drop_left]

/-! ## Strings -/

theorem hexValue_iff {h : Byte} {d : Nat} : hexValue h = some d ↔ HexDigit h d := by
  unfold hexValue HexDigit
  split_ifs <;> simp only [Option.some.injEq, false_iff] <;> omega

theorem hexQuad_iff {a b c d : Byte} {code : Nat} :
    hexQuad a b c d = some code ↔ HexQuad [a, b, c, d] code := by
  simp only [hexQuad, Option.bind_eq_bind, Option.bind_eq_some_iff, Option.pure_def,
    Option.some.injEq, hexValue_iff]
  constructor
  · rintro ⟨a', ha, b', hb, c', hc, d', hd, rfl⟩
    exact ⟨a, b, c, d, a', b', c', d', rfl, ha, hb, hc, hd, by omega⟩
  · rintro ⟨_, _, _, _, a', b', c', d', same, ha, hb, hc, hd, rfl⟩
    cases same
    exact ⟨a', ha, b', hb, c', hc, d', hd, by omega⟩

theorem parseHexQuad_iff {s rest : List Byte} {code : Nat} :
    parseHexQuad s = .ok (code, rest) ↔ ∃ quad, s = quad ++ rest ∧ HexQuad quad code := by
  constructor
  · intro h
    unfold parseHexQuad at h
    split at h
    · rename_i a b c d rest'
      split at h
      · rename_i code' quad
        cases h
        exact ⟨[a, b, c, d], rfl, hexQuad_iff.mp quad⟩
      · cases h
    · cases h
  · rintro ⟨quad, rfl, read⟩
    obtain ⟨a, b, c, d, _, _, _, _, rfl, -⟩ := id read
    simp [parseHexQuad, hexQuad_iff.mpr read]

theorem simpleEscape_iff {e x : Byte} : simpleEscape e = some x ↔ (e, x) ∈ escapes := by
  constructor
  · intro h
    unfold simpleEscape at h
    split_ifs at h <;> cases h <;> subst e <;> decide
  · intro mem
    simp only [escapes, List.mem_cons, Prod.mk.injEq, List.not_mem_nil, or_false] at mem
    rcases mem with ⟨rfl, rfl⟩ | ⟨rfl, rfl⟩ | ⟨rfl, rfl⟩ | ⟨rfl, rfl⟩ | ⟨rfl, rfl⟩ | ⟨rfl, rfl⟩ |
      ⟨rfl, rfl⟩ | ⟨rfl, rfl⟩ <;> rfl

theorem letter_ne {e x : Byte} (mem : (e, x) ∈ escapes) : e ≠ 117 := by
  rintro rfl
  rw [← simpleEscape_iff] at mem
  cases mem

/-- The bytes that are appended are those of the scalar. -/
theorem encode_eq {code : Nat} (valid : code.isValidChar) :
    encode code = String.utf8EncodeChar (Char.ofNat code) := by
  have last : 0x80 + code % 64 = code % 0x40 + 0x80 := Nat.add_comm ..
  have middle : 0x80 + code / 64 % 64 = code / 64 % 0x40 + 0x80 := Nat.add_comm ..
  unfold encode
  simp only [String.utf8EncodeChar, Serve.val_ofNat valid]
  by_cases one : code < 0x80
  · rw [if_pos one, if_pos (by omega)]
  rw [if_neg one, if_neg (by omega : ¬code ≤ 0x7f), last, middle]
  by_cases two : code < 0x800
  · have lead : 0xC0 + code / 64 = code / 64 % 0x20 + 0xc0 := by omega
    rw [if_pos two, if_pos (by omega), lead]
  rw [if_neg two, if_neg (by omega : ¬code ≤ 0x7ff)]
  by_cases three : code < 0x10000
  · have lead : 0xE0 + code / 4096 = code / 4096 % 0x10 + 0xe0 := by omega
    rw [if_pos three, if_pos (by omega), lead]
  · have lead : 0xF0 + code / 262144 = code / 262144 % 0x08 + 0xf0 := by omega
    have second : 0x80 + code / 4096 % 64 = code / 4096 % 0x40 + 0x80 := Nat.add_comm ..
    rw [if_neg three, if_neg (by omega), lead, second]

theorem valid_plain {code : Nat} (small : code < 0x10000) (plain : ¬Surrogate code) :
    code.isValidChar := by
  unfold Surrogate at plain
  omega

theorem hexQuad_small {quad : List Byte} {code : Nat} (read : HexQuad quad code) :
    code < 0x10000 := by
  have small {h : Byte} {d : Nat} (digit : HexDigit h d) : d < 16 := by
    unfold HexDigit at digit
    omega
  obtain ⟨a, b, c, d, a', b', c', d', -, ha, hb, hc, hd, rfl⟩ := read
  have := small ha
  have := small hb
  have := small hc
  have := small hd
  omega

/-- The text of a scalar's escape from behind its `u`. -/
inductive Unicode : List Byte → Nat → Prop
  | plain {quad : List Byte} {code : Nat} : HexQuad quad code → ¬Surrogate code → Unicode quad code
  | pair {quad quad' : List Byte} {high low : Nat} : HexQuad quad high → HexQuad quad' low →
      0xD800 ≤ high ∧ high ≤ 0xDBFF → 0xDC00 ≤ low ∧ low ≤ 0xDFFF →
      Unicode (quad ++ backslash :: 117 :: quad')
        (0x10000 + (high - 0xD800) * 1024 + (low - 0xDC00))

theorem parseUnicode_iff {s rest : List Byte} {code : Nat} :
    parseUnicode s = .ok (code, rest) ↔ ∃ text, s = text ++ rest ∧ Unicode text code := by
  constructor
  · intro h
    obtain ⟨⟨high, behind⟩, first, next⟩ := Outcome.bind_eq_ok.mp h
    obtain ⟨quad, rfl, read⟩ := parseHexQuad_iff.mp first
    simp only at next
    split_ifs at next with lead follows trail
    · obtain ⟨⟨low, behind'⟩, second, last⟩ := Outcome.bind_eq_ok.mp next
      obtain ⟨quad', same, read'⟩ := parseHexQuad_iff.mp second
      split_ifs at last with outside
      · cases last
      · obtain ⟨rfl, rfl⟩ := Prod.mk.inj (Except.ok.inj last)
        refine ⟨quad ++ backslash :: 117 :: quad', ?_, .pair read read' lead (by omega)⟩
        rw [List.append_assoc, ← List.take_append_drop 2 behind, follows, same]
        rfl
    · cases next
    · cases next
    · cases next
      refine ⟨quad, rfl, .plain read ?_⟩
      unfold Surrogate
      omega
  · rintro ⟨text, rfl, reads⟩
    unfold parseUnicode
    cases reads with
    | plain read plain =>
      unfold Surrogate at plain
      rw [parseHexQuad_iff.mpr ⟨_, rfl, read⟩, Outcome.ok_bind]
      simp only
      rw [if_neg (by omega), if_neg (by omega)]
    | @pair quad quad' high low read read' lead trail =>
      rw [parseHexQuad_iff.mpr ⟨quad, List.append_assoc .., read⟩, Outcome.ok_bind]
      simp only
      have follows : (backslash :: 117 :: quad' ++ rest).take 2 = [backslash, 117] := rfl
      have left : (backslash :: 117 :: quad' ++ rest).drop 2 = quad' ++ rest := rfl
      rw [if_pos lead, if_pos follows, left, parseHexQuad_iff.mpr ⟨quad', rfl, read'⟩,
        Outcome.ok_bind]
      rw [if_neg (by omega)]

theorem Unicode.valid {text : List Byte} {code : Nat} (h : Unicode text code) :
    code.isValidChar := by
  cases h with
  | plain read plain => exact valid_plain (hexQuad_small read) plain
  | pair _ _ lead trail =>
    omega

theorem Unicode.chars {text body bytes : List Byte} {code : Nat} (h : Unicode text code)
    (rest : Chars body bytes) :
    Chars (backslash :: 117 :: (text ++ body)) (encode code ++ bytes) := by
  rw [encode_eq h.valid]
  cases h with
  | plain read plain => exact .unicode read plain rest
  | pair read read' lead trail =>
    rw [List.append_assoc]
    exact .pair read read' lead trail rest

theorem prepend_iff {front : List Byte} {r : Except String (List Byte × List Byte)}
    {bytes rest : List Byte} : prepend front r = .ok (bytes, rest) ↔
      ∃ more, r = .ok (more, rest) ∧ bytes = front ++ more := by
  constructor
  · intro h
    obtain ⟨⟨more, left⟩, same, eq⟩ := Outcome.map_eq_ok.mp h
    cases eq
    exact ⟨more, same, rfl⟩
  · rintro ⟨more, rfl, rfl⟩
    rfl

theorem utf8_low {c : Char} (low : c.toNat < 0x80) :
    String.utf8EncodeChar c = [UInt8.ofNat c.toNat] := by
  exact if_pos (Nat.le_of_lt_succ low)

theorem ascii_scalar {b : Byte} (low : b.toNat < 0x80) :
    (Char.ofNat b.toNat).toNat = b.toNat ∧ String.utf8EncodeChar (Char.ofNat b.toNat) = [b] := by
  have val : (Char.ofNat b.toNat).toNat = b.toNat := Serve.val_ofNat (.inl (by omega))
  refine ⟨val, ?_⟩
  rw [utf8_low (by omega), val, UInt8.ofNat_toNat]

/-- A scalar of several bytes is no control character, quote or backslash. -/
theorem scalar_plain {c : Char} {b : Byte} {more : List Byte} (high : 0x80 ≤ b.toNat)
    (same : String.utf8EncodeChar c = b :: more) :
    0x20 ≤ c.toNat ∧ c ≠ '"' ∧ c ≠ '\\' := by
  have large : 0x80 ≤ c.toNat := by
    by_contra low
    rw [utf8_low (by omega), List.cons.injEq] at same
    rw [← same.1, UInt8.toNat_ofNat', Nat.mod_eq_of_lt (by omega)] at high
    omega
  refine ⟨by omega, ?_, ?_⟩
  · rintro rfl
    exact absurd large (by decide)
  · rintro rfl
    exact absurd large (by decide)

/-- What is read as a string is one. -/
theorem stringFrom_sound {fuel : Nat} {s bytes rest : List Byte}
    (h : stringFrom fuel s = .ok (bytes, rest)) :
    ∃ body, s = body ++ quote :: rest ∧ Chars body bytes := by
  induction fuel generalizing s bytes with
  | zero => cases h
  | succ fuel ih =>
    cases s with
    | nil => cases h
    | cons c s =>
      unfold stringFrom at h
      split_ifs at h with ends escape control ascii
      · cases h
        exact ⟨[], by rw [ends]; rfl, .nil⟩
      · cases s with
        | nil => cases h
        | cons e s =>
          simp only at h
          split_ifs at h with unicode
          · obtain ⟨⟨code, behind⟩, first, next⟩ := Outcome.bind_eq_ok.mp h
            obtain ⟨text, rfl, reads⟩ := parseUnicode_iff.mp first
            obtain ⟨more, read, rfl⟩ := prepend_iff.mp next
            obtain ⟨body, rfl, chars⟩ := ih read
            refine ⟨backslash :: 117 :: (text ++ body), ?_, reads.chars chars⟩
            rw [escape, unicode, List.cons_append, List.cons_append, List.append_assoc]
          · cases letter : simpleEscape e with
            | none =>
              rw [letter] at h
              cases h
            | some x =>
              rw [letter] at h
              obtain ⟨more, read, rfl⟩ := prepend_iff.mp h
              obtain ⟨body, rfl, chars⟩ := ih read
              exact ⟨backslash :: e :: body, by rw [escape]; rfl,
                .letter (simpleEscape_iff.mp letter) chars⟩
      · cases h
      · obtain ⟨more, read, rfl⟩ := prepend_iff.mp h
        obtain ⟨body, rfl, chars⟩ := ih read
        obtain ⟨val, scalar⟩ := ascii_scalar ascii
        have unescaped : Chars (String.utf8EncodeChar (Char.ofNat c.toNat) ++ body)
            (String.utf8EncodeChar (Char.ofNat c.toNat) ++ more) := by
          refine .unescaped (by omega) (fun same => ends ?_) (fun same => escape ?_) chars
          · rw [same] at scalar
            exact (List.cons.inj scalar).1.symm
          · rw [same] at scalar
            exact (List.cons.inj scalar).1.symm
        rw [scalar] at unescaped
        exact ⟨c :: body, rfl, unescaped⟩
      · simp only at h
        split_ifs at h with short fits
        · cases h
        · obtain ⟨more, read, rfl⟩ := prepend_iff.mp h
          obtain ⟨body, left, chars⟩ := ih read
          have length : (s.take (scalarLength c.toNat - 1)).length = scalarLength c.toNat - 1 := by
            rw [List.length_take]
            omega
          obtain ⟨x, scalar⟩ := @Serve.exists_scalar c (s.take (scalarLength c.toNat - 1))
            (by omega) fits
          obtain ⟨visible, quote_, slash⟩ := scalar_plain (by omega) scalar
          have unescaped := Chars.unescaped visible quote_ slash chars
          rw [scalar] at unescaped
          refine ⟨_, ?_, unescaped⟩
          rw [List.append_assoc, ← left, List.cons_append, List.take_append_drop]
        · cases h

theorem utf8_single {c : Char} {b : Byte} (same : String.utf8EncodeChar c = [b]) :
    c.toNat < 0x80 := by
  by_contra high
  have more : ¬c.val.toNat ≤ 0x7f := fun low => high (Nat.lt_succ_of_le low)
  unfold String.utf8EncodeChar at same
  simp only [if_neg more] at same
  split_ifs at same <;> cases same

theorem toNat_eq {c d : Char} (same : c.toNat = d.toNat) : c = d := by
  rw [← Char.ofNat_toNat c, same, Char.ofNat_toNat]

theorem stringFrom_scalar {fuel : Nat} {c : Char} (visible : 0x20 ≤ c.toNat) (quote_ : c ≠ '"')
    (slash : c ≠ '\\') (s : List Byte) :
    stringFrom (fuel + 1) (String.utf8EncodeChar c ++ s) =
      prepend (String.utf8EncodeChar c) (stringFrom fuel s) := by
  obtain ⟨b, low, same⟩ | ⟨b, more, high, length, fits, same⟩ := Serve.scalar_shape c
  · have small := utf8_single same
    have value : b.toNat = c.toNat := by
      rw [utf8_low small, List.cons.injEq] at same
      rw [← same.1, UInt8.toNat_ofNat', Nat.mod_eq_of_lt (by omega)]
    have no_quote : b ≠ quote := by
      rintro rfl
      exact quote_ (toNat_eq value.symm)
    have no_slash : b ≠ backslash := by
      rintro rfl
      exact slash (toNat_eq value.symm)
    rw [same, List.singleton_append, stringFrom.eq_def]
    simp only
    rw [if_neg no_quote, if_neg no_slash, if_neg (by omega), if_pos low]
  · have no_quote : b ≠ quote := by
      rintro rfl
      exact absurd high (by decide)
    have no_slash : b ≠ backslash := by
      rintro rfl
      exact absurd high (by decide)
    have cut : scalarLength b.toNat - 1 = more.length := by omega
    rw [same, List.cons_append, stringFrom.eq_def]
    simp only
    rw [if_neg no_quote, if_neg no_slash, if_neg (by omega), if_neg (by omega)]
    simp only [cut, List.take_left, List.drop_left]
    rw [if_neg (by rw [List.length_append]; omega), if_pos fits]

theorem stringFrom_unicode {fuel code : Nat} {text : List Byte} (h : Unicode text code)
    (s : List Byte) : stringFrom (fuel + 1) (backslash :: 117 :: (text ++ s)) =
      prepend (encode code) (stringFrom fuel s) := by
  have no_quote : backslash ≠ quote := by decide
  rw [stringFrom, if_neg no_quote, if_pos rfl]
  simp only
  rw [if_pos trivial, parseUnicode_iff.mpr ⟨text, rfl, h⟩, Outcome.ok_bind]

/-- Every string is read. -/
theorem stringFrom_complete {fuel : Nat} {body bytes : List Byte} (chars : Chars body bytes)
    (enough : body.length < fuel) (rest : List Byte) :
    stringFrom fuel (body ++ quote :: rest) = .ok (bytes, rest) := by
  induction chars generalizing fuel with
  | nil =>
    obtain ⟨fuel, rfl⟩ := Nat.exists_eq_succ_of_ne_zero (Nat.ne_of_gt enough)
    exact if_pos rfl
  | @unescaped c text bytes visible quote_ slash chars ih =>
    have some : 0 < (String.utf8EncodeChar c).length := by
      obtain ⟨b, -, same⟩ | ⟨b, more, -, -, -, same⟩ := Serve.scalar_shape c
      · rw [same]
        exact Nat.one_pos
      · rw [same]
        exact Nat.succ_pos _
    rw [List.length_append] at enough
    obtain ⟨fuel, rfl⟩ : ∃ k, fuel = k + 1 := ⟨fuel - 1, by omega⟩
    rw [List.append_assoc, stringFrom_scalar visible quote_ slash, ih (by omega)]
    rfl
  | @letter e x text bytes mem chars ih =>
    simp only [List.length_cons] at enough
    obtain ⟨fuel, rfl⟩ : ∃ k, fuel = k + 1 := ⟨fuel - 1, by omega⟩
    have no_quote : backslash ≠ quote := by decide
    rw [List.cons_append, List.cons_append, stringFrom, if_neg no_quote, if_pos rfl]
    rw [if_neg (letter_ne mem), simpleEscape_iff.mpr mem, ih (by omega)]
    rfl
  | @unicode quad text bytes code read plain chars ih =>
    simp only [List.length_cons, List.length_append] at enough
    obtain ⟨fuel, rfl⟩ : ∃ k, fuel = k + 1 := ⟨fuel - 1, by omega⟩
    have scalar : Unicode quad code := .plain read plain
    rw [List.cons_append, List.cons_append, List.append_assoc, stringFrom_unicode scalar,
      ih (by omega), encode_eq scalar.valid]
    rfl
  | @pair quad quad' text bytes high low read read' lead trail chars ih =>
    simp only [List.length_cons, List.length_append] at enough
    obtain ⟨fuel, rfl⟩ : ∃ k, fuel = k + 1 := ⟨fuel - 1, by omega⟩
    have scalar := Unicode.pair read read' lead trail
    have whole : backslash :: 117 :: (quad ++ backslash :: 117 :: (quad' ++ text)) ++
        quote :: rest = backslash :: 117 ::
          ((quad ++ backslash :: 117 :: quad') ++ (text ++ quote :: rest)) := by
      simp
    rw [whole, stringFrom_unicode scalar, ih (by omega), encode_eq scalar.valid]
    rfl

/-- A string is read exactly when it is one. -/
theorem parseString_iff {s bytes rest : List Byte} : parseString s = .ok (bytes, rest) ↔
    ∃ body, s = body ++ quote :: rest ∧ Chars body bytes := by
  constructor
  · exact stringFrom_sound
  · rintro ⟨body, rfl, chars⟩
    refine stringFrom_complete chars ?_ rest
    rw [List.length_append]
    omega

end Gufo.Json.Octets
