import Gufo.Lexeme.Answers

/-!
# String literals, exactly

`Check` is complete on the literals that the schema allows, and it keeps a prefix open
exactly as long as one of them begins so. The shorter state of a string without
patterns gives the same answers.
-/

namespace Gufo.Lexeme
open Gufo.Regex Gufo.Constraint

/-! ## The loop -/

section
variable {x : StringLexeme} {s : State} {accepts : List Nat → Prop} {begun : List Nat}
  {count : Nat}

theorem exists_bytes {body : List Nat} (small : ∀ b ∈ body, b < 256) :
    ∃ bytes : List Byte, bytes.map UInt8.toNat = body := by
  refine ⟨body.map UInt8.ofNat, ?_⟩
  rw [List.map_map]
  exact (List.map_congr_left fun b mem => UInt8.toNat_ofNat_of_lt' (small b mem)).trans
    (List.map_id body)

/-- What the answers mean for what may follow. -/
structure Told (may : List Nat → Prop) (bytes : List Byte) (answer : Match) : Prop where
  complete : answer.complete = true ↔ may (bytes.map UInt8.toNat)
  isPrefix : answer.isPrefix = true ↔ answer.complete = false ∧
    ∃ more : List Byte, may ((bytes ++ more).map UInt8.toNat)

/-- Once the matcher has stopped, everything but the end is refused. -/
theorem checkLoop_done {may : List Nat → Prop} {complete : Bool} {encoded : Option State}
    (ends : ∀ rest, may rest ↔ complete = true ∧ rest = []) (bytes : List Byte) :
    Told may bytes (x.checkLoop bytes ⟨false, complete⟩ encoded) := by
  cases bytes with
  | nil =>
    refine ⟨by simp [StringLexeme.checkLoop, ends], ?_⟩
    refine iff_of_false Bool.false_ne_true ?_
    rintro ⟨no, more, valid⟩
    exact Bool.false_ne_true (no.symm.trans ((ends _).mp valid).1)
  | cons b bytes =>
    constructor
    · refine iff_of_false Bool.false_ne_true fun valid => ?_
      cases ((ends _).mp valid).2
    · refine iff_of_false Bool.false_ne_true ?_
      rintro ⟨_, more, valid⟩
      cases ((ends _).mp valid).2

theorem checkLoop_spec (sound : x.Sound) (bytes : List Byte) :
    ∀ {s accepts begun}, Inv x s accepts begun →
      Told (fun rest => x.Body accepts s.count (begun ++ rest)) bytes
        (x.checkLoop bytes ⟨true, false⟩ (some s)) := by
  induction bytes with
  | nil =>
    intro s accepts begun inv
    constructor
    · refine iff_of_false Bool.false_ne_true ?_
      rw [List.map_nil, List.append_nil]
      exact body_proper inv.proper
    · refine iff_of_true rfl ⟨rfl, ?_⟩
      obtain ⟨rest, body⟩ := inv.alive
      obtain ⟨more, rfl⟩ := exists_bytes fun b mem =>
        body_bytes body b (List.mem_append_right begun mem)
      exact ⟨more, body⟩
  | cons b bytes ih =>
    intro s accepts begun inv
    have shift : ∀ {answer},
        Told (fun rest => x.Body accepts s.count (begun ++ [b.toNat] ++ rest)) bytes answer →
        Told (fun rest => x.Body accepts s.count (begun ++ rest)) (b :: bytes) answer := by
      intro answer told
      refine ⟨told.complete.trans ?_, told.isPrefix.trans ?_⟩
      · rw [List.append_assoc]
        rfl
      · refine and_congr_right fun _ => exists_congr fun more => ?_
        rw [List.append_assoc]
        rfl
    have answers := advance_spec sound inv b
    refine shift ?_
    unfold StringLexeme.checkLoop
    generalize x.Advance (some s) b = answer at answers
    cases answers with
    | further inv' same =>
      simp only [same]
      exact ih inv'
    | done ends => exact checkLoop_done ends bytes

/-- The literals, from the opening quote on. -/
def StringLexeme.Value (x : StringLexeme) (bytes : List Nat) : Prop :=
  ∃ rest, bytes = 34 :: rest ∧ x.Body (x.Accepted (some 0)) 0 rest

theorem value_iff {bytes : List Nat} : x.Value bytes ↔
    ∃ cs, Literal cs bytes ∧ x.Accepted (some 0) cs ∧ x.Fits 0 cs.length := by
  constructor
  · rintro ⟨_, rfl, cs, spellings, spelled, rfl, accepted, fits⟩
    exact ⟨cs, ⟨spellings, spelled, rfl⟩, accepted, fits⟩
  · rintro ⟨cs, ⟨spellings, spelled, rfl⟩, accepted, fits⟩
    exact ⟨_, rfl, cs, spellings, spelled, rfl, accepted, fits⟩

/-- The state after the opening quote. -/
theorem inv_start (sound : x.Sound) :
    Inv x { dfa := some 0 } (x.Accepted (some 0)) [] := by
  have knows : x.regex.Knows (some 0) := knows_start sound.finishes
  have counted : x.Counted 0 := ⟨Nat.zero_le _, fun _ => Nat.zero_le _⟩
  have finishes : x.regex.CanFinish (some 0) (x.RemainingMinimum 0) (x.maximum - 0) = true := by
    have remaining : x.RemainingMinimum 0 = x.minimum := by
      unfold StringLexeme.RemainingMinimum
      split <;> omega
    rw [remaining]
    exact sound.finishes
  refine ⟨?_, Nat.zero_le _, fun _ => Nat.zero_le _, (alive_iff sound counted knows).mp finishes,
    fun _ => spelling_nil, .inl rfl⟩
  cases scalarOnly : x.scalarOnly with
  | false => exact .general scalarOnly (.body rfl rfl) knows
  | true => exact .scalar scalarOnly (.body rfl) rfl (sound.all scalarOnly)

theorem check_spec (sound : x.Sound) (bytes : List Byte) :
    Told x.Value bytes (x.Check bytes) := by
  have start := inv_start sound
  cases bytes with
  | nil =>
    constructor
    · refine iff_of_false Bool.false_ne_true ?_
      rintro ⟨rest, no, _⟩
      cases no
    · refine iff_of_true rfl ⟨rfl, ?_⟩
      obtain ⟨rest, body⟩ := start.alive
      obtain ⟨more, rfl⟩ := exists_bytes (body_bytes body)
      exact ⟨34 :: more, _, rfl, body⟩
  | cons b bytes =>
    unfold StringLexeme.Check StringLexeme.checkLoop
    by_cases quote : b = 34
    · subst quote
      have told := checkLoop_spec sound bytes start
      have opened : ∀ rest, x.Value (34 :: rest) ↔ x.Body (x.Accepted (some 0)) 0 rest := by
        intro rest
        constructor
        · rintro ⟨_, same, body⟩
          cases same
          exact body
        · exact fun body => ⟨rest, rfl, body⟩
      exact ⟨told.complete.trans (opened _).symm, told.isPrefix.trans
        (and_congr_right fun _ => exists_congr fun _ => (opened _).symm)⟩
    · have stops : x.Advance none b = (⟨false, false⟩, none) := if_pos quote
      have no : ∀ rest, ¬x.Value (b.toNat :: rest) := by
        rintro rest ⟨_, same, _⟩
        exact quote (UInt8.toNat_inj.mp (List.cons.inj same).1)
      rw [stops]
      have told := @checkLoop_done x (fun rest => x.Value (b.toNat :: rest)) false none
        (fun rest => iff_of_false (no rest) fun no => Bool.false_ne_true no.1) bytes
      exact ⟨told.complete, told.isPrefix⟩

end

/-! ## The constructor -/

section
variable {E : Type} [DecidableEq E] {p : Patterns E} {schema : StringSchema} {x : StringLexeme}

theorem readLength_ok {value : Option Double} {absent n : Nat}
    (read : readLength value absent = .ok n) :
    value = none ∧ n = absent ∨ ∃ d, value = some d ∧ (n : ℚ) = d.value ∧ n ≤ 1048576 := by
  unfold readLength at read
  cases value with
  | none => exact .inl ⟨rfl, (Except.ok.inj read).symm⟩
  | some d =>
    dsimp only at read
    split at read
    · cases read
    · rename_i good
      obtain ⟨low, high, whole⟩ : 0 ≤ d.value ∧ d.value ≤ 1048576 ∧ (⌊d.value⌋ : ℚ) = d.value := by
        simpa [not_or] using good
      cases read
      have nonneg : 0 ≤ ⌊d.value⌋ := Int.floor_nonneg.mpr low
      have same : ((⌊d.value⌋.toNat : ℕ) : ℤ) = ⌊d.value⌋ := Int.toNat_of_nonneg nonneg
      have value : ((⌊d.value⌋.toNat : ℕ) : ℚ) = d.value := by
        rw [← whole]
        exact_mod_cast congrArg (Int.cast : ℤ → ℚ) same
      refine .inr ⟨d, rfl, value, ?_⟩
      rw [← value] at high
      exact_mod_cast high

theorem bind_ok {α β : Type} {a : Except Failure α} {f : α → Except Failure β} {b : β}
    (h : a >>= f = .ok b) : ∃ value, a = .ok value ∧ f value = .ok b := by
  cases a with
  | error reason => cases h
  | ok value => exact ⟨value, rfl, h⟩

theorem compile_ok {patterns : List String} {maximum : Nat} {r : Impl}
    (h : p.compile patterns maximum = .ok r) :
    ∃ e, p.parse patterns maximum = .ok e ∧ Regex.compile e maximum = .ok r := by
  obtain ⟨e, parsed, h⟩ := bind_ok h
  refine ⟨e, parsed, ?_⟩
  cases compiled : Regex.compile e maximum with
  | error reason =>
    rw [compiled] at h
    cases h
  | ok r' =>
    rw [compiled] at h
    exact congrArg Except.ok (Except.ok.inj h)

theorem readRegex_ok {patterns : List String} {maximum : Nat} {scalarOnly : Bool} {r : Impl}
    (h : readRegex p patterns maximum = .ok (scalarOnly, r)) :
    patterns = [] ∧ scalarOnly = true ∧ r = anything ∨
      patterns ≠ [] ∧ scalarOnly = false ∧ ∃ e : Expressions E, e.Valid ∧
        Regex.compile e maximum = .ok r := by
  cases patterns with
  | nil =>
    obtain ⟨rfl, rfl⟩ := Prod.mk.inj (Except.ok.inj h)
    exact .inl ⟨rfl, rfl, rfl⟩
  | cons pattern patterns =>
    obtain ⟨r', compiled, h⟩ := bind_ok h
    obtain ⟨rfl, rfl⟩ := Prod.mk.inj (Except.ok.inj h)
    obtain ⟨e, parsed, ok⟩ := compile_ok compiled
    exact .inr ⟨List.cons_ne_nil _ _, rfl, e, p.valid _ _ _ parsed, ok⟩

omit [DecidableEq E] in
theorem readPatterns_ok {maximum top : Nat} {patterns : List String}
    (h : readPatterns p schema maximum = .ok (patterns, top)) :
    (patterns = [] ↔ schema.pattern = none ∧ schema.format = none) ∧
      top = if schema.format = some "hostname" then min maximum 253 else maximum := by
  unfold readPatterns at h
  cases format : schema.format with
  | none =>
    rw [format] at h
    cases h
    refine ⟨?_, by simp⟩
    cases schema.pattern <;> simp
  | some name =>
    rw [format] at h
    dsimp only at h
    cases found : p.formatPattern name with
    | error reason =>
      rw [found] at h
      cases h
    | ok expression =>
      rw [found] at h
      cases h
      simp

/-- What a lexeme is made of. -/
structure Made (p : Patterns E) (schema : StringSchema) (x : StringLexeme) (longest : Nat)
    (patterns : List String) : Prop where
  minimum : readLength schema.minLength 0 = .ok x.minimum
  maximum : readLength schema.maxLength UINT32_MAX = .ok longest
  listed : readPatterns p schema longest = .ok (patterns, x.maximum)
  regex : readRegex p patterns x.maximum = .ok (x.scalarOnly, x.regex)
  finishes : x.regex.CanFinish (some 0) x.minimum x.maximum = true

theorem new_ok (h : StringLexeme.new p schema = .ok x) :
    ∃ longest patterns, Made p schema x longest patterns := by
  obtain ⟨minimum, readMinimum, h⟩ := bind_ok h
  obtain ⟨longest, readMaximum, h⟩ := bind_ok h
  dsimp only at h
  split at h
  · cases h
  obtain ⟨⟨patterns, maximum⟩, readPatterns, h⟩ := bind_ok h
  obtain ⟨⟨scalarOnly, regex⟩, readRegex, h⟩ := bind_ok h
  split at h
  · cases h
  rename_i finishes
  obtain rfl := Except.ok.inj h
  exact ⟨longest, patterns, readMinimum, readMaximum, readPatterns, readRegex,
    by simpa using finishes⟩

section
variable {longest : Nat} {patterns : List String}

theorem Made.sound (made : Made p schema x longest patterns) : x.Sound := by
  have small : x.minimum ≤ 1048576 := by
    rcases readLength_ok made.minimum with ⟨_, zero⟩ | ⟨_, _, _, small⟩
    · omega
    · exact small
  rcases readRegex_ok made.regex with ⟨_, scalarOnly, regex⟩ | ⟨_, general, e, valid, compiled⟩
  · refine ⟨⟨Nat, inferInstance, unconstrained, UINT32_MAX, unconstrained_valid, ?_⟩, small,
      made.finishes, fun _ cs scalars => ?_⟩
    · rw [regex]
      exact compile_unconstrained
    · unfold StringLexeme.Accepted
      rw [regex]
      exact anything_accepts scalars (by omega)
  · exact ⟨⟨E, _, e, x.maximum, valid, compiled⟩, small, made.finishes,
      fun scalarOnly => absurd (scalarOnly.symm.trans general) Bool.true_eq_false.mp⟩

/-- The lengths that the schema allows. A hostname has at most 253 characters. -/
structure StringSchema.Allows (schema : StringSchema) (length : Nat) : Prop where
  low : ∀ d, schema.minLength = some d → d.value ≤ length
  high : ∀ d, schema.maxLength = some d → length ≤ d.value
  hostname : schema.format = some "hostname" → length ≤ 253

theorem Made.fits_iff (made : Made p schema x longest patterns) {n : Nat} :
    x.Fits 0 n ↔ schema.Allows n := by
  have least : x.minimum ≤ n ↔ ∀ d, schema.minLength = some d → d.value ≤ n := by
    rcases readLength_ok made.minimum with ⟨none, zero⟩ | ⟨d, given, value, _⟩
    · simp [none, zero]
    · simp [given, ← value]
  have most : (longest = UINT32_MAX ∨ n ≤ longest) ↔
      ∀ d, schema.maxLength = some d → n ≤ d.value := by
    rcases readLength_ok made.maximum with ⟨none, top⟩ | ⟨d, given, value, small⟩
    · simp [none, top]
    · have bounded : longest ≠ UINT32_MAX := by
        rw [UINT32_MAX]
        omega
      simp [given, ← value, bounded]
  have small : longest ≤ UINT32_MAX := by
    rcases readLength_ok made.maximum with ⟨_, top⟩ | ⟨_, _, _, small⟩
    · exact top.le
    · exact small.trans (by decide)
  have name := (readPatterns_ok made.listed).2
  have fits : x.Fits 0 n ↔ x.minimum ≤ n ∧ (longest = UINT32_MAX ∨ n ≤ longest) ∧
      (schema.format = some "hostname" → n ≤ 253) := by
    unfold StringLexeme.Fits
    rw [Nat.zero_add]
    refine and_congr_right fun _ => ?_
    rw [UINT32_MAX] at small ⊢
    by_cases hostname : schema.format = some "hostname"
    · rw [if_pos hostname] at name
      simp only [hostname, true_imp_iff]
      omega
    · simp [hostname, name]
  rw [fits, least, most]
  constructor
  · rintro ⟨low, high, hostname⟩
    exact ⟨low, high, hostname⟩
  · intro allows
    exact ⟨allows.low, allows.high, allows.hostname⟩

end

/-- A string literal whose characters are of the right number and accepted by the automaton. -/
def StringLexeme.Accepts (x : StringLexeme) (schema : StringSchema) (bytes : List Byte) : Prop :=
  ∃ cs, Literal cs (bytes.map UInt8.toNat) ∧ schema.Allows cs.length ∧ x.Accepted (some 0) cs

theorem check_exact (p : Patterns E) (schema : StringSchema) (x : StringLexeme)
    (new : StringLexeme.new p schema = .ok x) :
    (∀ bytes, (x.Check bytes).complete = true ↔ x.Accepts schema bytes) ∧
    (∀ bytes, (x.Check bytes).isPrefix = true ↔
      (x.Check bytes).complete = false ∧ ∃ more, x.Accepts schema (bytes ++ more)) ∧
    (schema.pattern = none → schema.format = none → x.scalarOnly = true ∧
      (∀ cs, (∀ cp ∈ cs, Scalar cp) → x.Accepted (some 0) cs) ∧
      ∀ bytes, { x with scalarOnly := false }.Check bytes = x.Check bytes) := by
  obtain ⟨longest, patterns, made⟩ := new_ok new
  have sound := made.sound
  have accepts : ∀ bytes : List Byte, x.Value (bytes.map UInt8.toNat) ↔ x.Accepts schema bytes := by
    simp [value_iff, made.fits_iff, StringLexeme.Accepts, and_comm (b := schema.Allows _)]
  refine ⟨fun bytes => (check_spec sound bytes).complete.trans (accepts bytes),
    fun bytes => ?_, fun pattern format => ?_⟩
  · simp only [← accepts]
    exact (check_spec sound bytes).isPrefix
  · have empty := (readPatterns_ok made.listed).1.mpr ⟨pattern, format⟩
    rcases readRegex_ok made.regex with ⟨_, scalarOnly, _⟩ | ⟨some, _⟩
    · refine ⟨scalarOnly, sound.all scalarOnly, fun bytes => ?_⟩
      -- both ways are exact for the same literals
      have general : ({ x with scalarOnly := false } : StringLexeme).Sound :=
        ⟨sound.compiled, sound.small, sound.finishes, nofun⟩
      have slow := check_spec general bytes
      have fast := check_spec sound bytes
      have complete := slow.complete.trans fast.complete.symm
      have open_ := slow.isPrefix.trans ((and_congr_left fun _ => by
        rw [← Bool.not_eq_true, complete, Bool.not_eq_true]).trans fast.isPrefix.symm)
      rw [← Bool.eq_iff_iff] at complete open_
      generalize x.Check bytes = a at complete open_ ⊢
      cases a
      cases complete
      cases open_
      rfl
    · exact absurd empty some

end

/-- Without a pattern nothing is parsed. -/
def noPatterns : Patterns Nat where
  parse _ _ := .error (.invalid "JSON Schema: unsupported string pattern")
  valid _ _ _ no := nomatch no
  formatPattern _ := .error (.invalid "JSON Schema: unsupported string format")

/-- The lexeme of the empty schema. -/
def anyString : StringLexeme :=
  { minimum := 0, maximum := UINT32_MAX, scalarOnly := true, regex := anything }

theorem check_exact_any : StringLexeme.new noPatterns {} = .ok anyString ∧
    (anyString.Check [34, 92, 117, 100]).isPrefix = true ∧
    ∃ more, anyString.Accepts {} ([34, 92, 117, 100] ++ more) := by
  have new : StringLexeme.new noPatterns {} = .ok anyString := rfl
  have begun : (anyString.Check [34, 92, 117, 100]).isPrefix = true := rfl
  have exact_ := check_exact noPatterns {} anyString new
  exact ⟨new, begun, ((exact_.2.1 _).mp begun).2⟩

end Gufo.Lexeme
