import Gufo.Json.Accepts

/-!
# What is dumped is parsed again

Either spelling of a value is a text of it, so that the parser gives the value back.
-/

namespace Gufo.Json.Octets

/-! ## Strings -/

/-- Valid UTF-8. -/
def Utf8 (s : List Byte) : Prop := ∃ cs : List Char, s = cs.flatMap String.utf8EncodeChar

theorem fits_high {lead count : Nat} {bytes : List Byte} (fits : Serve.Fits lead count bytes) :
    ∀ b ∈ bytes, 0x80 ≤ b.toNat := by
  induction bytes generalizing count with
  | nil => exact fun b mem => absurd mem List.not_mem_nil
  | cons c bytes ih =>
    intro b mem
    cases mem with
    | head =>
      have := fits.1
      unfold Serve.Refused at this
      omega
    | tail _ mem => exact ih fits.2 b mem

theorem escapeByte_high {b : Byte} (high : 0x80 ≤ b.toNat) : escapeByte b = [b] := by
  have other : ∀ k : Byte, k.toNat < 0x80 → b ≠ k := by
    rintro k low rfl
    omega
  unfold escapeByte
  rw [if_neg (other _ (by decide)), if_neg (other _ (by decide)), if_neg (other _ (by decide)),
    if_neg (other _ (by decide)), if_neg (other _ (by decide)), if_neg (other _ (by decide)),
    if_neg (other _ (by decide)), if_neg (by omega)]

theorem escape_high {bytes : List Byte} (high : ∀ b ∈ bytes, 0x80 ≤ b.toNat) :
    escape bytes = bytes := by
  unfold escape
  induction bytes with
  | nil => rfl
  | cons b bytes ih =>
    rw [List.flatMap_cons, escapeByte_high (high b (List.mem_cons_self ..)),
      ih fun c mem => high c (List.mem_cons_of_mem _ mem)]
    rfl

theorem hexDigit_spec {d : Nat} (small : d < 16) : HexDigit (hexDigit d) d := by
  unfold hexDigit HexDigit
  split_ifs with decimal
  · rw [UInt8.toNat_ofNat', Nat.mod_eq_of_lt (by omega)]
    omega
  · rw [UInt8.toNat_ofNat', Nat.mod_eq_of_lt (by omega)]
    omega

/-- A byte of ASCII is read back from its escape. -/
theorem chars_escapeByte {b : Byte} (low : b.toNat < 0x80) {text bytes : List Byte}
    (rest : Chars text bytes) : Chars (escapeByte b ++ text) (b :: bytes) := by
  obtain ⟨val, scalar⟩ := ascii_scalar low
  unfold escapeByte
  split_ifs with quote_ slash h1 h2 h3 h4 h5 control
  · subst quote_
    exact .letter (by decide) rest
  · subst slash
    exact .letter (by decide) rest
  · subst h1
    exact .letter (by decide) rest
  · subst h2
    exact .letter (by decide) rest
  · subst h3
    exact .letter (by decide) rest
  · subst h4
    exact .letter (by decide) rest
  · subst h5
    exact .letter (by decide) rest
  · have quad : HexQuad [48, 48, hexDigit (b.toNat / 16), hexDigit (b.toNat % 16)] b.toNat :=
      ⟨48, 48, _, _, 0, 0, b.toNat / 16, b.toNat % 16, rfl, by unfold HexDigit; decide,
        by unfold HexDigit; decide, hexDigit_spec (by omega), hexDigit_spec (by omega), by omega⟩
    have plain : ¬Surrogate b.toNat := by
      unfold Surrogate
      omega
    have read := Chars.unicode quad plain rest
    rw [scalar] at read
    exact read
  · have read : Chars (String.utf8EncodeChar (Char.ofNat b.toNat) ++ text)
        (String.utf8EncodeChar (Char.ofNat b.toNat) ++ bytes) := by
      refine .unescaped (by omega) (fun same => quote_ ?_) (fun same => slash ?_) rest
      · rw [same] at scalar
        exact (List.cons.inj scalar).1.symm
      · rw [same] at scalar
        exact (List.cons.inj scalar).1.symm
    rw [scalar] at read
    exact read

theorem chars_escape (cs : List Char) : Chars (escape (cs.flatMap String.utf8EncodeChar))
    (cs.flatMap String.utf8EncodeChar) := by
  induction cs with
  | nil => exact .nil
  | cons c cs ih =>
    have cut : ∀ a b, escape (a ++ b) = escape a ++ escape b := fun a b => List.flatMap_append
    rw [List.flatMap_cons, cut]
    obtain ⟨b, low, same⟩ | ⟨b, more, high, -, fits, same⟩ := Serve.scalar_shape c
    · have single : escape [b] = escapeByte b := List.append_nil _
      rw [same, single, List.singleton_append]
      exact chars_escapeByte low ih
    · have all : ∀ d ∈ b :: more, 0x80 ≤ d.toNat := by
        intro d mem
        cases mem with
        | head => exact high
        | tail _ mem => exact fits_high fits d mem
      obtain ⟨visible, quote_, slash⟩ := scalar_plain high same
      rw [same, escape_high all, ← same]
      exact .unescaped visible quote_ slash ih

theorem quoted_text {s : List Byte} (valid : Utf8 s) : StringText (quoted s) s := by
  obtain ⟨cs, rfl⟩ := valid
  exact ⟨_, rfl, chars_escape cs⟩

/-! ## Numbers -/

theorem digit_toNat {d : Nat} (lt : d < 10) : (UInt8.ofNat (48 + d)).toNat = 48 + d := by
  rw [UInt8.toNat_ofNat', Nat.mod_eq_of_lt (by omega)]

theorem values_spellNat (k : Nat) : Token.values (spellNat k) = Decimal.decimal k := by
  unfold Token.values spellNat
  rw [List.map_map]
  refine (List.map_congr_left fun d mem => ?_).trans (List.map_id _)
  have lt := (Decimal.canonical_decimal k).digits d mem
  simp only [Function.comp_apply, digit_toNat lt, id]
  omega

/-- A natural number with an exponent, as a token. -/
def natToken (negative : Bool) (k : Nat) (power : Option Power) : Token :=
  ⟨negative, spellNat k, [], power⟩

theorem natToken_wf (negative : Bool) (k : Nat) {power : Option Power}
    (wf : ∀ p ∈ power, p.WellFormed) : (natToken negative k power).WellFormed := by
  have canonical := Decimal.canonical_decimal k
  refine ⟨?_, ?_, ?_, fun d mem => absurd mem List.not_mem_nil, wf⟩
  · exact fun none => canonical.nonempty (List.map_eq_nil_iff.mp none)
  · intro c mem
    obtain ⟨d, mem', rfl⟩ := List.mem_map.mp mem
    have lt := canonical.digits d mem'
    unfold isDigit
    rw [digit_toNat lt, decide_eq_true (by omega), decide_eq_true (by omega)]
    rfl
  · intro lead
    simp only [natToken, spellNat] at lead ⊢
    cases ds : Decimal.decimal k with
    | nil => exact absurd ds canonical.nonempty
    | cons d ds' =>
      rw [ds] at lead canonical
      have lt := canonical.digits d (List.mem_cons_self ..)
      rw [List.map_cons, List.head?_cons, Option.some.injEq] at lead
      have zero : d = 0 := by
        have := congrArg UInt8.toNat lead
        rw [digit_toNat lt] at this
        have same : (48 : Byte).toNat = 48 := rfl
        omega
      subst zero
      rw [canonical.zero]
      rfl

theorem natToken_magnitude (negative : Bool) (k : Nat) (power : Option Power) :
    (natToken negative k power).magnitude =
      (k : ℚ) * (10 : ℚ) ^ (natToken negative k power).powerOf * (Double.one : ℚ) := by
  unfold Token.magnitude
  simp only [natToken, List.append_nil, values_spellNat, Decimal.value_decimal, List.length_nil,
    Nat.cast_zero, sub_zero]

section
variable {n : Numbers} {spaced : Bool}

/-- The number that a double stands for is read as the double. -/
theorem read_exact (correct : n.Correct) {t : Token} (wf : t.WellFormed) {x : Double}
    (sign : x.negative = t.negative) (mag : t.magnitude = x.mag)
    (silent : ¬n.underflows t.spelling) : NumberText n t.spelling x := by
  have range : InRange t.magnitude := mag ▸ mag_inRange x
  obtain ⟨y, read⟩ := Option.isSome_iff_exists.mp ((correct.reads t wf).mpr ⟨range, silent⟩)
  obtain ⟨sign', near⟩ := correct.nearest t wf y read
  rw [mag] at near
  have same := nearest_exact (sign'.trans sign.symm) near
  exact ⟨t, wf, rfl, range, silent, same ▸ read⟩

theorem one_large : 2 ^ 52 ≤ Double.one := by
  have grows : ∀ {a b : Nat}, a ≤ b → 2 ^ a ≤ 2 ^ b := Nat.pow_le_pow_right (by decide)
  exact grows (by decide : 52 ≤ 1074)

/-- Whole numbers keep their decimal spelling; the others have the shortest one. -/
theorem writeNumber_text (correct : n.Correct) (x : Double) :
    NumberText n (writeNumber n x) x := by
  unfold writeNumber
  by_cases whole : integral x = true
  · rw [if_pos whole]
    unfold integral at whole
    simp only [Bool.and_eq_true, decide_eq_true_eq] at whole
    have exact_ : x.mag / Double.one * Double.one = x.mag :=
      Nat.div_mul_cancel (Nat.dvd_of_mod_eq_zero whole.1.1)
    have wf := @natToken_wf x.negative (x.mag / Double.one) none nofun
    have mag : (natToken x.negative (x.mag / Double.one) none).magnitude = x.mag := by
      rw [natToken_magnitude, show (natToken x.negative (x.mag / Double.one) none).powerOf = 0
        from rfl, zpow_zero, mul_one, ← Nat.cast_mul, exact_]
    have text : (natToken x.negative (x.mag / Double.one) none).spelling =
        (if x.negative then [minus] else []) ++ spellNat (x.mag / Double.one) := by
      simp only [Token.spelling, natToken, if_true, Option.elim_none, List.append_nil]
      rfl
    rw [← text]
    refine read_exact correct wf rfl mag fun reported => ?_
    obtain ⟨pos, lt⟩ := correct.underflow _ wf reported
    rw [mag, Nat.cast_lt] at lt
    rw [mag, Nat.cast_pos, ← exact_] at pos
    have one_le : Double.one ≤ x.mag := by
      rw [← exact_]
      exact Nat.le_mul_of_pos_left _ (Nat.pos_of_mul_pos_right pos)
    exact absurd (Nat.le_trans one_large one_le) (Nat.not_le.mpr lt)
  · rw [if_neg whole]
    obtain ⟨t, wf, text⟩ := correct.token x
    have read := correct.round x
    rw [text] at read ⊢
    obtain ⟨range, silent⟩ := (correct.reads t wf).mp (by rw [read]; rfl)
    exact ⟨t, wf, rfl, range, silent, read⟩

/-! ## Values -/

mutual

/-- Every string and key is valid UTF-8. -/
def Value.Utf8 : Value → Prop
  | .string s => Octets.Utf8 s
  | .array items => Utf8Items items
  | .object members => Utf8Members members
  | _ => True

def Utf8Items : List Value → Prop
  | [] => True
  | v :: rest => v.Utf8 ∧ Utf8Items rest

def Utf8Members : List (List Byte × Value) → Prop
  | [] => True
  | (key, v) :: rest => Octets.Utf8 key ∧ v.Utf8 ∧ Utf8Members rest

end

/-- The blank of the spaced spelling. -/
def gap (spaced : Bool) : List Byte := if spaced then [space] else []

theorem gap_blank (spaced : Bool) : Blank (gap spaced) := by
  cases spaced with
  | true =>
    intro b mem
    rw [List.mem_singleton.mp mem]
    rfl
  | false => exact fun b mem => absurd mem List.not_mem_nil

theorem separator_eq (spaced : Bool) : separator spaced = comma :: gap spaced := by
  cases spaced <;> rfl

theorem behindKey_eq (spaced : Bool) : behindKey spaced = colon :: gap spaced := by
  cases spaced <;> rfl

theorem blank_nil : Blank [] := fun _ mem => absurd mem List.not_mem_nil

mutual

theorem text_write (correct : n.Correct) :
    (v : Value) → v.Utf8 → v.Text n (v.write n spaced)
  | .null, _ => by simp only [Value.Text, Value.write]
  | .bool true, _ => by simp only [Value.Text, Value.write, if_true]
  | .bool false, _ => by simp only [Value.Text, Value.write, Bool.false_eq_true, if_false]
  | .number x, _ => by
    rw [Value.write]
    exact writeNumber_text correct x
  | .string s, valid => by
    rw [Value.write]
    exact quoted_text valid
  | .array [], _ => by
    rw [Value.write, writeItems]
    exact ⟨[], rfl, .inl ⟨rfl, blank_nil⟩⟩
  | .array (v :: rest), valid => by
    rw [Value.write]
    exact ⟨_, rfl, .inr (items_write correct (v :: rest) valid nofun blank_nil)⟩
  | .object [], _ => by
    rw [Value.write, writeMembers]
    exact ⟨[], rfl, .inl ⟨rfl, blank_nil⟩⟩
  | .object (m :: rest), valid => by
    rw [Value.write]
    exact ⟨_, rfl, .inr (members_write correct (m :: rest) valid nofun blank_nil)⟩

theorem items_write (correct : n.Correct) :
    (items : List Value) → Utf8Items items → items ≠ [] → {w : List Byte} → Blank w →
      ItemsText n items (w ++ writeItems n spaced items)
  | [], _, nonempty, _, _ => absurd rfl nonempty
  | [v], valid, _, w, blank => by
    refine ⟨w, v.write n spaced, [], blank, text_write correct v valid.1, blank_nil,
      .inl ⟨rfl, ?_⟩⟩
    simp only [writeItems, List.isEmpty_nil, if_true, List.append_nil]
  | v :: u :: rest, valid, _, w, blank => by
    refine ⟨w, v.write n spaced, [], blank, text_write correct v valid.1, blank_nil,
      .inr ⟨_, ?_, items_write correct (u :: rest) valid.2 nofun (gap_blank spaced)⟩⟩
    rw [writeItems]
    simp only [List.isEmpty_cons, Bool.false_eq_true, if_false, separator_eq, List.append_assoc,
      List.cons_append, List.nil_append]

theorem members_write (correct : n.Correct) :
    (members : List (List Byte × Value)) → Utf8Members members → members ≠ [] →
      {w : List Byte} → Blank w → MembersText n members (w ++ writeMembers n spaced members)
  | [], _, nonempty, _, _ => absurd rfl nonempty
  | [(key, v)], valid, _, w, blank => by
    refine ⟨w, quoted key, [], gap spaced, v.write n spaced, [], blank, quoted_text valid.1,
      blank_nil, gap_blank spaced, text_write correct v valid.2.1, blank_nil, .inl ⟨rfl, ?_⟩⟩
    simp only [writeMembers, List.isEmpty_nil, if_true, List.append_nil, behindKey_eq,
      List.append_assoc, List.cons_append]
  | (key, v) :: m :: rest, valid, _, w, blank => by
    refine ⟨w, quoted key, [], gap spaced, v.write n spaced, [], blank, quoted_text valid.1,
      blank_nil, gap_blank spaced, text_write correct v valid.2.1, blank_nil,
      .inr ⟨_, ?_, members_write correct (m :: rest) valid.2.2 nofun (gap_blank spaced)⟩⟩
    rw [writeMembers]
    simp only [List.isEmpty_cons, Bool.false_eq_true, if_false, separator_eq, behindKey_eq,
      List.append_assoc, List.cons_append, List.append_nil]

end

theorem parse_write (correct : n.Correct) {v : Value} (valid : v.Utf8) (distinct : v.Distinct)
    (deep : v.depth ≤ 128) : parse n (v.write n spaced) = .ok v :=
  (parse_iff correct).mpr ⟨⟨[], v.write n spaced, [], by rw [List.nil_append, List.append_nil],
    blank_nil, text_write correct v valid, blank_nil⟩, distinct, deep⟩

end

/-- A value whose strings are valid UTF-8, whose objects have no key twice and that is nested at
most 128 deep is read back from either spelling; and the parser accepts exactly the JSON texts of
valid UTF-8, with paired surrogates, no key twice, at most 128 levels and numbers whose nearest
double is finite and that are not reported as underflows. -/
theorem parse_exact {n : Numbers} (correct : n.Correct) :
    (∀ v : Value, v.Utf8 → v.Distinct → v.depth ≤ 128 →
      parse n (v.dump n) = .ok v ∧ parse n (v.tojson n) = .ok v) ∧
    ∀ text, (∀ v, parse n text = .ok v ↔ Document n text v ∧ v.Distinct ∧ v.depth ≤ 128) ∧
      ((∃ v, parse n text = .ok v) ↔ ∃ v : Value, Document n text v ∧ v.Distinct ∧ v.depth ≤ 128) :=
  ⟨fun _ valid distinct deep =>
    ⟨parse_write correct valid distinct deep, parse_write correct valid distinct deep⟩,
    fun _ => ⟨fun _ => parse_iff correct, exists_congr fun _ => parse_iff correct⟩⟩

/-! ## A standard library that keeps its promises -/

/-- All digits of a double, in units of ten to the minus 1074. -/
def exactToken (x : Double) : Token :=
  natToken x.negative (x.mag * 5 ^ 1074) (some ⟨101, [minus], [49, 48, 55, 52]⟩)

theorem exactToken_wf (x : Double) : (exactToken x).WellFormed := by
  refine natToken_wf _ _ fun p mem => ?_
  cases mem
  refine ⟨.inl rfl, .inr (.inr rfl), List.cons_ne_nil _ _, fun d mem => ?_⟩
  simp only [List.mem_cons, List.not_mem_nil, or_false] at mem
  rcases mem with rfl | rfl | rfl | rfl <;> rfl

theorem ten_pow (k : Nat) : (5 : ℚ) ^ k * ((10 : ℚ) ^ (-(k : ℤ)) * (2 : ℚ) ^ k) = 1 := by
  have split : (10 : ℚ) ^ k = 5 ^ k * 2 ^ k := by
    rw [← mul_pow]
    norm_num
  have pos : (5 : ℚ) ^ k * 2 ^ k ≠ 0 := by positivity
  rw [zpow_neg, zpow_natCast, split, mul_left_comm, inv_mul_cancel₀ pos]

theorem exactToken_magnitude (x : Double) : (exactToken x).magnitude = x.mag := by
  have power : (exactToken x).powerOf = -((1074 : ℕ) : ℤ) := rfl
  have one : (Double.one : ℚ) = (2 : ℚ) ^ 1074 := by
    rw [Double.one, Nat.cast_pow, Nat.cast_ofNat]
  have five : ((x.mag * 5 ^ 1074 : ℕ) : ℚ) = (x.mag : ℚ) * (5 : ℚ) ^ 1074 := by
    rw [Nat.cast_mul, Nat.cast_pow, Nat.cast_ofNat]
  unfold exactToken at power ⊢
  rw [natToken_magnitude, power, one, five, mul_assoc, mul_assoc, ten_pow, mul_one]

/-- Reads every number in range as the nearest double, and reports no underflow. -/
noncomputable def nearestNumbers : Numbers where
  toChars x := (exactToken x).spelling
  fromChars text :=
    haveI := Classical.dec (∃ t : Token, t.WellFormed ∧ text = t.spelling ∧ InRange t.magnitude)
    if h : ∃ t : Token, t.WellFormed ∧ text = t.spelling ∧ InRange t.magnitude then
      some (exists_nearest h.choose.magnitude h.choose.negative).choose
    else none
  underflows _ := False

theorem nearestNumbers_reads {t : Token} (wf : t.WellFormed) (range : InRange t.magnitude) :
    ∃ x, nearestNumbers.fromChars t.spelling = some x ∧ x.negative = t.negative ∧
      Nearest t.magnitude x := by
  have h : ∃ u : Token, u.WellFormed ∧ t.spelling = u.spelling ∧ InRange u.magnitude :=
    ⟨t, wf, rfl, range⟩
  have same : h.choose = t := (spelling_inj wf h.choose_spec.1 h.choose_spec.2.1).symm
  have spec : ∀ u : Token, u = t →
      (exists_nearest u.magnitude u.negative).choose.negative = t.negative ∧
        Nearest t.magnitude (exists_nearest u.magnitude u.negative).choose := by
    rintro u rfl
    exact (exists_nearest u.magnitude u.negative).choose_spec
  exact ⟨_, dif_pos h, spec _ same⟩

theorem nearestNumbers_out {t : Token} (wf : t.WellFormed) (out : ¬InRange t.magnitude) :
    nearestNumbers.fromChars t.spelling = none := by
  refine dif_neg ?_
  rintro ⟨u, wf', same, range⟩
  exact out (spelling_inj wf wf' same ▸ range)

theorem nearestNumbers_correct : nearestNumbers.Correct where
  token x := ⟨exactToken x, exactToken_wf x, rfl⟩
  round x := by
    have range : InRange (exactToken x).magnitude := by
      rw [exactToken_magnitude]
      exact mag_inRange x
    obtain ⟨y, read, sign, near⟩ := nearestNumbers_reads (exactToken_wf x) range
    rw [exactToken_magnitude] at near
    have same : y = x := nearest_exact sign near
    exact same ▸ read
  nearest t wf x read := by
    by_cases range : InRange t.magnitude
    · obtain ⟨y, read', sign, near⟩ := nearestNumbers_reads wf range
      cases read'.symm.trans read
      exact ⟨sign, near⟩
    · rw [nearestNumbers_out wf range] at read
      cases read
  reads t wf := by
    constructor
    · intro some
      by_contra out
      rw [nearestNumbers_out wf fun range => out ⟨range, id⟩] at some
      cases some
    · rintro ⟨range, -⟩
      obtain ⟨y, read, -⟩ := nearestNumbers_reads wf range
      rw [read]
      rfl
  underflow _ _ reported := absurd reported id

/-- The number three. -/
def three : Double := ⟨false, 6755399441055744, 1023, by decide, .inr (by decide), by decide⟩

/-- A key of two bytes, and a list of a number and a text that is escaped. -/
theorem parse_exact_object :
    parse nearestNumbers
      ((Value.object [([195, 164], .array [.number three, .string [34, 10]])]).dump
        nearestNumbers) =
      .ok (.object [([195, 164], .array [.number three, .string [34, 10]])]) :=
  ((parse_exact nearestNumbers_correct).1
    (.object [([195, 164], .array [.number three, .string [34, 10]])])
    ⟨⟨[Char.ofNat 228], by decide⟩, ⟨trivial, ⟨[Char.ofNat 34, Char.ofNat 10], by decide⟩,
      trivial⟩, trivial⟩
    ⟨by decide, ⟨trivial, trivial, trivial⟩, trivial⟩ (by decide)).1

end Gufo.Json.Octets
