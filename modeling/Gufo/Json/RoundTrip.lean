import Gufo.Json.Value
import Gufo.Lib.Outcome

/-!
# What is serialized is parsed again

A value whose objects have no key twice, nested at most 128 deep, is read back from
either spelling, and every value that was read is one of these.
-/

namespace Gufo.Json
open Value Gufo.Outcome

/-! ## Strings -/

theorem hexValue_hexDigit : ∀ d, d < 16 → hexValue (hexDigit d) = some d := by decide

theorem parseString_plain {c : Char} (quote : c ≠ '"') (backslash : c ≠ '\\')
    (printable : 0x20 ≤ c.toNat) (rest : List Char) :
    parseString (c :: rest) = prepend c (parseString rest) := by
  have := Nat.not_lt.mpr printable
  rw [parseString.eq_def]
  simp [quote, backslash, this]

theorem parseString_simple {e x : Char} (h : simpleEscape e = some x) (rest : List Char) :
    parseString ('\\' :: e :: rest) = prepend x (parseString rest) := by
  have letter : e ≠ 'u' := by
    rintro rfl
    simp [simpleEscape] at h
  rw [parseString.eq_def]
  simp [letter, h]

theorem parseString_unicode {a b c d : Char} {code : Nat} (h : hexQuad a b c d = some code)
    (low : code < 0xD800) (rest : List Char) :
    parseString ('\\' :: 'u' :: a :: b :: c :: d :: rest) =
      prepend (Char.ofNat code) (parseString rest) := by
  have high : ¬(0xD800 ≤ code ∧ code ≤ 0xDBFF) := by omega
  have tail : ¬(0xDC00 ≤ code ∧ code ≤ 0xDFFF) := by omega
  rw [parseString.eq_def]
  simp [Char.reduceEq, h, if_neg high, if_neg tail]

theorem parseString_escapeChar (c : Char) (rest : List Char) :
    parseString (escapeChar c ++ rest) = prepend c (parseString rest) := by
  unfold escapeChar
  -- the seven characters with an escape of their own
  iterate 7
    split
    · subst c
      exact parseString_simple rfl rest
  split
  · have high := hexValue_hexDigit (c.toNat / 16) (by omega)
    have low := hexValue_hexDigit (c.toNat % 16) (by omega)
    have quad : hexQuad '0' '0' (hexDigit (c.toNat / 16)) (hexDigit (c.toNat % 16)) =
        some c.toNat := by
      have zero : hexValue '0' = some 0 := by decide
      simp only [hexQuad, zero, high, low, Option.bind_eq_bind, Option.bind_some, Option.pure_def,
        Option.some.injEq]
      omega
    have read := parseString_unicode quad (by omega) rest
    rw [Char.ofNat_toNat] at read
    exact read
  · rename_i quote backslash _ _ _ _ _ control
    exact parseString_plain quote backslash (Nat.not_lt.mp control) rest

theorem parseString_escape (s : List Char) (rest : List Char) :
    parseString (s.flatMap escapeChar ++ '"' :: rest) = .ok (s, rest) := by
  induction s with
  | nil =>
    rw [parseString.eq_def]
    simp
  | cons c s ih =>
    rw [List.flatMap_cons, List.append_assoc, parseString_escapeChar, ih]
    rfl

/-! ## Numbers -/

/-- The characters that can follow a value in a serialized one. -/
def Ends (rest : List Char) : Prop :=
  rest = [] ∨ ∃ c t, rest = c :: t ∧ (c = ',' ∨ c = ']' ∨ c = '}')

/-- What the standard library promises: a finite double is spelled as one JSON number,
and its spelling reads back as the same double. -/
structure Numbers.Lawful {ν : Type} (n : Numbers ν) : Prop where
  token : ∀ x, scanNumber (n.toChars x) = some (n.toChars x, [])
  round : ∀ x, n.fromChars (n.toChars x) = some x

/-- What follows a value starts no digits, fraction or exponent. -/
theorem Ends.head {rest : List Char} (h : Ends rest) {c : Char} {t : List Char}
    (eq : rest = c :: t) : isDigit c = false ∧ c ≠ '.' ∧ c ≠ 'e' ∧ c ≠ 'E' := by
  rcases h with rfl | ⟨c', t', rfl, mark⟩
  · cases eq
  · cases eq
    rcases mark with rfl | rfl | rfl <;> decide

theorem digits_ends {rest : List Char} (h : Ends rest) : rest.takeWhile isDigit = [] ∧
    rest.dropWhile isDigit = rest := by
  cases rest with
  | nil => exact ⟨rfl, rfl⟩
  | cons c t => simp [(h.head rfl).1]

theorem digits_append {s d r rest : List Char} (h : digits s = some (d, r)) (ends : Ends rest) :
    digits (s ++ rest) = some (d, r ++ rest) := by
  obtain ⟨taken, left⟩ := digits_ends ends
  unfold digits at h ⊢
  split at h
  · cases h
  · rename_i nonempty
    cases h
    have take : (s ++ rest).takeWhile isDigit = s.takeWhile isDigit := by
      rw [List.takeWhile_append]
      split
      · rename_i whole
        rw [taken, List.append_nil]
        exact ((List.takeWhile_prefix isDigit).eq_of_length whole).symm
      · rfl
    have drop : (s ++ rest).dropWhile isDigit = s.dropWhile isDigit ++ rest := by
      rw [List.dropWhile_append]
      split
      · rename_i whole
        rw [left, List.isEmpty_iff.mp whole, List.nil_append]
      · rfl
    rw [take, drop]
    split
    · rename_i empty
      exact absurd empty nonempty
    · rfl

theorem signPart_append {s rest : List Char} (nonempty : s ≠ []) :
    signPart (s ++ rest) = ((signPart s).1, (signPart s).2 ++ rest) := by
  cases s with
  | nil => exact absurd rfl nonempty
  | cons c s =>
    by_cases minus : c = '-'
    · subst minus
      rfl
    · simp [signPart, minus]

theorem integerPart_append {s i r rest : List Char} (h : integerPart s = some (i, r))
    (ends : Ends rest) : integerPart (s ++ rest) = some (i, r ++ rest) := by
  cases s with
  | nil => simp [integerPart, digits] at h
  | cons c s =>
    by_cases zero : c = '0'
    · subst zero
      simp only [integerPart, List.cons_append] at h ⊢
      split at h
      · cases h
      · rename_i clear
        cases h
        have clear' : ((r ++ rest).head?.map isDigit).getD false = false := by
          cases r with
          | nil =>
            cases rest with
            | nil => rfl
            | cons c t => simpa using (ends.head rfl).1
          | cons d r => simpa using clear
        rw [if_neg (by simpa using clear')]
    · have plain : ∀ t, integerPart (c :: t) = digits (c :: t) := by simp [integerPart, zero]
      rw [plain] at h
      rw [List.cons_append, plain]
      exact digits_append h ends

theorem fractionPart_append {s f r rest : List Char} (h : fractionPart s = some (f, r))
    (ends : Ends rest) : fractionPart (s ++ rest) = some (f, r ++ rest) := by
  cases s with
  | nil =>
    cases h
    cases rest with
    | nil => rfl
    | cons c t => simp [fractionPart, (ends.head rfl).2.1]
  | cons c s =>
    by_cases point : c = '.'
    · subst point
      simp only [fractionPart, List.cons_append, Option.map_eq_some_iff, Prod.exists] at h ⊢
      obtain ⟨d, _, read, eq⟩ := h
      cases eq
      exact ⟨d, _, digits_append read ends, rfl⟩
    · have plain : ∀ t, fractionPart (c :: t) = some ([], c :: t) := by
        simp [fractionPart, point]
      rw [plain] at h
      cases h
      exact plain _

theorem exponentPart_append {s e r rest : List Char} (h : exponentPart s = some (e, r))
    (ends : Ends rest) : exponentPart (s ++ rest) = some (e, r ++ rest) := by
  cases s with
  | nil =>
    cases h
    cases rest with
    | nil => rfl
    | cons c t => simp [exponentPart, (ends.head rfl).2.2.1, (ends.head rfl).2.2.2]
  | cons c s =>
    by_cases mark : c = 'e' ∨ c = 'E'
    · simp only [exponentPart, List.cons_append, if_pos mark, Option.map_eq_some_iff,
        Prod.exists] at h ⊢
      obtain ⟨d, _, read, eq⟩ := h
      cases eq
      have sign : exponentSign (s ++ rest) =
          ((exponentSign s).1, (exponentSign s).2 ++ rest) := by
        cases s with
        | nil => simp [exponentSign, digits] at read
        | cons c s =>
          by_cases minus : c = '-'
          · subst minus
            rfl
          · by_cases plus : c = '+'
            · subst plus
              rfl
            · simp [exponentSign, minus, plus]
      rw [sign]
      exact ⟨d, _, digits_append read ends, rfl⟩
    · simp only [exponentPart, List.cons_append, if_neg mark] at h ⊢
      cases h
      rfl

theorem scanNumber_append {t rest : List Char} (h : scanNumber t = some (t, []))
    (ends : Ends rest) : scanNumber (t ++ rest) = some (t, rest) := by
  have nonempty : t ≠ [] := by
    rintro rfl
    simp [scanNumber, signPart, integerPart, digits] at h
  simp only [scanNumber, Option.bind_eq_bind, Option.bind_eq_some_iff, Option.pure_def,
    Prod.exists] at h ⊢
  obtain ⟨i, r₁, integer, f, r₂, fraction, e, r₃, exponent, whole⟩ := h
  simp only [Option.some.injEq, Prod.mk.injEq] at whole
  rw [signPart_append nonempty]
  refine ⟨i, _, integerPart_append integer ends, f, _, fractionPart_append fraction ends, e, _,
    exponentPart_append exponent ends, ?_⟩
  simp only [whole.1, whole.2, List.nil_append]

/-- The first character of a number tells it from every other value. -/
theorem scanNumber_head {t : List Char} (h : scanNumber t = some (t, [])) :
    ∃ c s, t = c :: s ∧ (c = '-' ∨ isDigit c = true) := by
  cases t with
  | nil => simp [scanNumber, signPart, integerPart, digits] at h
  | cons c s =>
    refine ⟨c, s, rfl, ?_⟩
    by_cases minus : c = '-'
    · exact .inl minus
    · refine .inr ?_
      have sign : signPart (c :: s) = ([], c :: s) := by simp [signPart, minus]
      simp only [scanNumber, sign, Option.bind_eq_bind, Option.bind_eq_some_iff, Prod.exists] at h
      obtain ⟨i, r, integer, _⟩ := h
      by_cases zero : c = '0'
      · subst zero
        rfl
      · have plain : integerPart (c :: s) = digits (c :: s) := by simp [integerPart, zero]
        rw [plain] at integer
        by_contra other
        simp [digits, other] at integer

/-! ## Values -/

mutual

/-- How many arrays and objects are open at the deepest point. -/
def Value.depth {ν : Type} : Value ν → Nat
  | .array items => depthItems items + 1
  | .object members => depthMembers members + 1
  | _ => 0

def Value.depthItems {ν : Type} : List (Value ν) → Nat
  | [] => 0
  | v :: rest => max v.depth (depthItems rest)

def Value.depthMembers {ν : Type} : List (String × Value ν) → Nat
  | [] => 0
  | (_, v) :: rest => max v.depth (depthMembers rest)

end

mutual

/-- No object has a key twice. -/
def Value.Distinct {ν : Type} : Value ν → Prop
  | .array items => DistinctItems items
  | .object members => (members.map Prod.fst).Nodup ∧ DistinctMembers members
  | _ => True

def Value.DistinctItems {ν : Type} : List (Value ν) → Prop
  | [] => True
  | v :: rest => v.Distinct ∧ DistinctItems rest

def Value.DistinctMembers {ν : Type} : List (String × Value ν) → Prop
  | [] => True
  | (_, v) :: rest => v.Distinct ∧ DistinctMembers rest

end

section
variable {ν : Type} {n : Numbers ν} {spaced : Bool}

/-- The blank that the spaced spelling puts behind commas and colons. -/
def gap (spaced : Bool) : List Char := if spaced then [' '] else []

theorem comma_eq : comma spaced = ',' :: gap spaced := by cases spaced <;> rfl

theorem colon_eq : colon spaced = ':' :: gap spaced := by cases spaced <;> rfl

theorem skipWs_gap (s : List Char) : skipWs (gap spaced ++ s) = skipWs s := by
  cases spaced <;> rfl

theorem skipWs_cons {c : Char} (h : isBlank c = false) (s : List Char) :
    skipWs (c :: s) = c :: s := by
  simp [skipWs, h]

theorem parseValue_gap (fuel depth : Nat) (s : List Char) :
    parseValue n fuel depth (gap spaced ++ s) = parseValue n fuel depth s := by
  cases fuel with
  | zero => simp [parseValue]
  | succ fuel => simp [parseValue, skipWs_gap]

theorem parseItems_gap (fuel depth : Nat) (s : List Char) :
    parseItems n fuel depth (gap spaced ++ s) = parseItems n fuel depth s := by
  cases fuel with
  | zero => simp [parseItems]
  | succ fuel => simp [parseItems, parseValue_gap]

theorem parseMembers_gap (fuel depth : Nat) (keys : List String) (s : List Char) :
    parseMembers n fuel depth keys (gap spaced ++ s) = parseMembers n fuel depth keys s := by
  cases fuel with
  | zero => simp [parseMembers]
  | succ fuel => simp [parseMembers, parseKey, skipWs_gap]

theorem parseKey_quoted (key : String) (rest : List Char) :
    parseKey (quoted key ++ colon spaced ++ rest) = .ok (key, gap spaced ++ rest) := by
  have text : quoted key ++ colon spaced ++ rest =
      '"' :: (key.toList.flatMap escapeChar ++ '"' :: ':' :: (gap spaced ++ rest)) := by
    simp [quoted, escape, colon_eq]
  rw [text, parseKey, skipWs_cons (by decide)]
  simp [parseString_escape, ok_bind, skipWs_cons (show isBlank ':' = false by decide)]

/-- The text of a nonempty list of items, from behind its bracket. -/
def itemsText (n : Numbers ν) (spaced : Bool) (v : Value ν) (rest : List (Value ν)) : List Char :=
  v.write n spaced ++ writeItems n spaced rest

def membersText (n : Numbers ν) (spaced : Bool) (key : String) (v : Value ν)
    (rest : List (String × Value ν)) : List Char :=
  quoted key ++ colon spaced ++ v.write n spaced ++ writeMembers n spaced rest

theorem writeItems_cons (v : Value ν) (rest : List (Value ν)) :
    writeItems n spaced (v :: rest) = ',' :: (gap spaced ++ itemsText n spaced v rest) := by
  simp [writeItems, comma_eq, itemsText]

theorem writeMembers_cons (key : String) (v : Value ν) (rest : List (String × Value ν)) :
    writeMembers n spaced ((key, v) :: rest) =
      ',' :: (gap spaced ++ membersText n spaced key v rest) := by
  simp [writeMembers, comma_eq, membersText]

theorem write_items (v : Value ν) (rest : List (Value ν)) :
    (Value.array (v :: rest)).write n spaced = '[' :: itemsText n spaced v rest := by
  simp [write, itemsText]

theorem write_members (key : String) (v : Value ν) (rest : List (String × Value ν)) :
    (Value.object ((key, v) :: rest)).write n spaced = '{' :: membersText n spaced key v rest := by
  simp [write, membersText]

theorem writeItems_ends (items : List (Value ν)) (rest : List Char) :
    Ends (writeItems n spaced items ++ rest) := by
  cases items with
  | nil => exact .inr ⟨']', rest, rfl, by simp⟩
  | cons v items =>
    rw [writeItems_cons]
    exact .inr ⟨',', _, rfl, by simp⟩

theorem writeMembers_ends (members : List (String × Value ν)) (rest : List Char) :
    Ends (writeMembers n spaced members ++ rest) := by
  cases members with
  | nil => exact .inr ⟨'}', rest, rfl, by simp⟩
  | cons m members =>
    rw [writeMembers_cons]
    exact .inr ⟨',', _, rfl, by simp⟩

theorem Ends.not_blank {rest : List Char} (h : Ends rest) : skipWs rest = rest := by
  rcases h with rfl | ⟨c, t, rfl, mark⟩
  · rfl
  · rcases mark with rfl | rfl | rfl <;> rfl

/-- The first character of a value is neither a blank nor a closing bracket. -/
theorem write_head (lawful : n.Lawful) (v : Value ν) :
    ∃ c t, v.write n spaced = c :: t ∧ isBlank c = false ∧ c ≠ ']' := by
  cases v with
  | null => exact ⟨'n', _, by rw [write], rfl, by decide⟩
  | bool b =>
    cases b with
    | true => exact ⟨'t', _, by rw [write], rfl, by decide⟩
    | false => exact ⟨'f', _, by rw [write], rfl, by decide⟩
  | number x =>
    obtain ⟨c, t, text, sort⟩ := scanNumber_head (lawful.token x)
    refine ⟨c, t, by rw [write, text], ?_⟩
    rcases sort with rfl | digit
    · decide
    · constructor
      · cases blank : isBlank c with
        | false => rfl
        | true =>
          simp only [isBlank, Bool.decide_or, Bool.or_eq_true, decide_eq_true_eq] at blank
          rcases blank with rfl | rfl | rfl | rfl <;> exact absurd digit (by decide)
      · rintro rfl
        exact absurd digit (by decide)
  | string s => exact ⟨'"', _, by rw [write, quoted, List.cons_append], rfl, by decide⟩
  | array items =>
    cases items with
    | nil => exact ⟨'[', _, by rw [write], rfl, by decide⟩
    | cons v items => exact ⟨'[', _, write_items v items, rfl, by decide⟩
  | object members =>
    cases members with
    | nil => exact ⟨'{', _, by rw [write], rfl, by decide⟩
    | cons m members => exact ⟨'{', _, write_members m.1 m.2 members, rfl, by decide⟩

theorem parseValue_items {fuel depth : Nat} (shallow : depth < 128) {c : Char} {t : List Char}
    (blank : isBlank c = false) (bracket : c ≠ ']') :
    parseValue n (fuel + 1) depth ('[' :: c :: t) =
      (parseItems n fuel (depth + 1) (c :: t)).map fun p => (.array p.1, p.2) := by
  have : ¬128 ≤ depth := by omega
  simp [parseValue, skipWs_cons (show isBlank '[' = false by decide), skipWs_cons blank, this,
    bracket]

theorem parseValue_members {fuel depth : Nat} (shallow : depth < 128) {t : List Char} :
    parseValue n (fuel + 1) depth ('{' :: '"' :: t) =
      (parseMembers n fuel (depth + 1) [] ('"' :: t)).map fun p => (.object p.1, p.2) := by
  have : ¬128 ≤ depth := by omega
  simp [parseValue, skipWs_cons (show isBlank '{' = false by decide),
    skipWs_cons (show isBlank '"' = false by decide), this]

theorem parseValue_number (lawful : n.Lawful) {fuel depth : Nat} (x : ν) {rest : List Char}
    (ends : Ends rest) :
    parseValue n (fuel + 1) depth (n.toChars x ++ rest) = .ok (.number x, rest) := by
  obtain ⟨c, t, text, sort⟩ := scanNumber_head (lawful.token x)
  have number : parseNumber n (n.toChars x ++ rest) = .ok (.number x, rest) := by
    simp [parseNumber, scanNumber_append (lawful.token x) ends, lawful.round x]
  rw [text, List.cons_append] at number ⊢
  have other : ∀ k, isDigit k = false → k ≠ '-' → c ≠ k := by
    rintro k letter minus rfl
    rcases sort with rfl | digit
    · exact minus rfl
    · exact absurd digit (by simp [letter])
  have blank : isBlank c = false := by
    simp only [isBlank, Bool.decide_or, Bool.or_eq_false_iff, decide_eq_false_iff_not]
    exact ⟨other _ (by decide) (by decide), other _ (by decide) (by decide),
      other _ (by decide) (by decide), other _ (by decide) (by decide)⟩
  simp [parseValue, skipWs_cons blank, other '{' (by decide) (by decide),
    other '[' (by decide) (by decide), other '"' (by decide) (by decide),
      other 't' (by decide) (by decide), other 'f' (by decide) (by decide),
        other 'n' (by decide) (by decide), number]

/-- What the three readers do with a text that was written, under one fuel. -/
structure Reads (n : Numbers ν) (spaced : Bool) (fuel : Nat) : Prop where
  value : ∀ (v : Value ν) depth rest, v.Distinct → depth + v.depth ≤ 128 →
    (v.write n spaced).length < fuel → Ends rest →
    parseValue n fuel depth (v.write n spaced ++ rest) = .ok (v, rest)
  items : ∀ (v : Value ν) items depth rest, DistinctItems (v :: items) →
    depth + depthItems (v :: items) ≤ 128 → (itemsText n spaced v items).length < fuel →
    parseItems n fuel depth (itemsText n spaced v items ++ rest) = .ok (v :: items, rest)
  members : ∀ key (v : Value ν) members depth keys rest,
    (key :: members.map Prod.fst).Nodup → (∀ k ∈ key :: members.map Prod.fst, k ∉ keys) →
    DistinctMembers ((key, v) :: members) → depth + depthMembers ((key, v) :: members) ≤ 128 →
    (membersText n spaced key v members).length < fuel →
    parseMembers n fuel depth keys (membersText n spaced key v members ++ rest) =
      .ok ((key, v) :: members, rest)

theorem reads_value (lawful : n.Lawful) {fuel : Nat} (reads : Reads n spaced fuel) (v : Value ν)
    (depth : Nat) (rest : List Char) (distinct : v.Distinct) (deep : depth + v.depth ≤ 128)
    (long : (v.write n spaced).length < fuel + 1) (ends : Ends rest) :
    parseValue n (fuel + 1) depth (v.write n spaced ++ rest) = .ok (v, rest) := by
  cases v with
  | null => simp [write, parseValue, skipWs, isBlank, parseLiteral]
  | bool b => cases b <;> simp [write, parseValue, skipWs, isBlank, parseLiteral]
  | number x =>
    exact parseValue_number lawful x ends
  | string s =>
    have text : (Value.string s).write n spaced ++ rest =
        '"' :: (s.toList.flatMap escapeChar ++ '"' :: rest) := by
      simp [write, quoted, escape]
    rw [text]
    simp [parseValue, skipWs_cons (show isBlank '"' = false by decide), parseString_escape,
      Except.map]
  | array items =>
    simp only [Value.depth] at deep
    cases items with
    | nil =>
      have : ¬128 ≤ depth := by omega
      simp [write, parseValue, skipWs, isBlank, this]
    | cons v items =>
      rw [write_items] at long ⊢
      have inner := reads.items v items (depth + 1) rest distinct (by omega)
        (by simpa using long)
      obtain ⟨c, t, text, blank, bracket⟩ :
          ∃ c t, v.write n spaced = c :: t ∧ isBlank c = false ∧ c ≠ ']' := write_head lawful v
      simp only [itemsText, text, List.cons_append] at inner ⊢
      rw [parseValue_items (by omega) blank bracket, inner]
      rfl
  | object members =>
    simp only [Value.depth] at deep
    cases members with
    | nil =>
      have : ¬128 ≤ depth := by omega
      simp [write, parseValue, skipWs, isBlank, this]
    | cons m members =>
      obtain ⟨key, v⟩ := m
      rw [write_members] at long ⊢
      have inner := reads.members key v members (depth + 1) [] rest distinct.1 (by simp)
        distinct.2 (by omega) (by simpa using long)
      simp only [membersText, quoted, List.cons_append] at inner ⊢
      rw [parseValue_members (by omega), inner]
      rfl

theorem reads_items {fuel : Nat} (reads : Reads n spaced fuel) (v : Value ν)
    (items : List (Value ν)) (depth : Nat) (rest : List Char)
    (distinct : DistinctItems (v :: items))
    (deep : depth + depthItems (v :: items) ≤ 128)
    (long : (itemsText n spaced v items).length < fuel + 1) :
    parseItems n (fuel + 1) depth (itemsText n spaced v items ++ rest) =
      .ok (v :: items, rest) := by
  simp only [depthItems] at deep
  simp only [itemsText, List.length_append] at long
  have last : 0 < (writeItems n spaced items).length := by
    cases items with
    | nil => simp [writeItems]
    | cons w items => simp [writeItems_cons]
  have first := reads.value v depth (writeItems n spaced items ++ rest) distinct.1 (by omega)
    (by omega) (writeItems_ends items rest)
  simp only [parseItems, itemsText, List.append_assoc, first, ok_bind,
    (writeItems_ends items rest).not_blank]
  cases items with
  | nil => simp [writeItems]
  | cons w items =>
    simp only [writeItems_cons, List.length_cons, List.length_append] at long
    have inner := reads.items w items depth rest distinct.2
      (by omega)
      (by omega)
    simp only [writeItems_cons, List.cons_append, List.append_assoc, parseItems_gap, inner]
    rfl

theorem reads_members {fuel : Nat} (reads : Reads n spaced fuel) (key : String) (v : Value ν)
    (members : List (String × Value ν)) (depth : Nat) (keys : List String) (rest : List Char)
    (nodup : (key :: members.map Prod.fst).Nodup)
    (fresh : ∀ k ∈ key :: members.map Prod.fst, k ∉ keys)
    (distinct : DistinctMembers ((key, v) :: members))
    (deep : depth + depthMembers ((key, v) :: members) ≤ 128)
    (long : (membersText n spaced key v members).length < fuel + 1) :
    parseMembers n (fuel + 1) depth keys (membersText n spaced key v members ++ rest) =
      .ok ((key, v) :: members, rest) := by
  simp only [depthMembers] at deep
  simp only [membersText, List.length_append] at long
  have quotes : 0 < (quoted key).length := by simp [quoted]
  have first := reads.value v depth (writeMembers n spaced members ++ rest) distinct.1 (by omega)
    (by omega) (writeMembers_ends members rest)
  have new : key ∉ keys := fresh key (by simp)
  have text : membersText n spaced key v members ++ rest =
      quoted key ++ colon spaced ++
        (v.write n spaced ++ (writeMembers n spaced members ++ rest)) := by
    simp [membersText]
  rw [text]
  simp only [parseMembers, parseKey_quoted, ok_bind, if_neg new, parseValue_gap, first,
    (writeMembers_ends members rest).not_blank]
  cases members with
  | nil => simp [writeMembers]
  | cons m members =>
    obtain ⟨key', w⟩ := m
    simp only [writeMembers_cons, List.length_cons, List.length_append] at long
    have inner := reads.members key' w members depth (key :: keys) rest
      (List.nodup_cons.mp nodup).2
      (by
        intro k hk seen
        rcases List.mem_cons.mp seen with rfl | old
        · exact (List.nodup_cons.mp nodup).1 hk
        · exact fresh k (List.mem_cons_of_mem _ hk) old)
      distinct.2 (by omega) (by omega)
    simp only [writeMembers_cons, List.cons_append, List.append_assoc, parseMembers_gap, inner]
    rfl

theorem reads (lawful : n.Lawful) (fuel : Nat) : Reads n spaced fuel := by
  induction fuel with
  | zero =>
    exact ⟨fun _ _ _ _ _ long => by omega, fun _ _ _ _ _ _ long => by omega,
      fun _ _ _ _ _ _ _ _ _ _ long => by omega⟩
  | succ fuel ih => exact ⟨reads_value lawful ih, reads_items ih, reads_members ih⟩

/-- Either spelling of a value is parsed as that value. -/
theorem parse_write (lawful : n.Lawful) {v : Value ν} (distinct : v.Distinct)
    (deep : v.depth ≤ 128) : parse n (String.ofList (v.write n spaced)) = .ok v := by
  have each : Reads n spaced ((v.write n spaced).length + 1) := reads lawful _
  have read := each.value v 0 []
    distinct (by omega) (by omega) (.inl rfl)
  rw [List.append_nil] at read
  simp only [parse, String.length_ofList, String.toList_ofList, read, ok_bind]
  rfl

theorem parse_dump (lawful : n.Lawful) {v : Value ν} (distinct : v.Distinct)
    (deep : v.depth ≤ 128) : parse n (v.dump n) = .ok v := parse_write lawful distinct deep

theorem parse_tojson (lawful : n.Lawful) {v : Value ν} (distinct : v.Distinct)
    (deep : v.depth ≤ 128) : parse n (v.tojson n) = .ok v := parse_write lawful distinct deep

/-! ## What a parsed value is -/

/-- What the three readers return under one fuel. -/
structure Yields (n : Numbers ν) (fuel : Nat) : Prop where
  value : ∀ depth s (v : Value ν) rest, depth ≤ 128 →
    parseValue n fuel depth s = .ok (v, rest) → v.Distinct ∧ depth + v.depth ≤ 128
  items : ∀ depth s (items : List (Value ν)) rest, depth ≤ 128 →
    parseItems n fuel depth s = .ok (items, rest) →
    DistinctItems items ∧ depth + depthItems items ≤ 128
  members : ∀ depth keys s (members : List (String × Value ν)) rest, depth ≤ 128 →
    parseMembers n fuel depth keys s = .ok (members, rest) →
    ((members.map Prod.fst).Nodup ∧ ∀ k ∈ members.map Prod.fst, k ∉ keys) ∧
      DistinctMembers members ∧ depth + depthMembers members ≤ 128

theorem parseLiteral_ok {s rest : List Char} {v : Value ν} (h : parseLiteral s = .ok (v, rest)) :
    v = .bool true ∨ v = .bool false ∨ v = .null := by
  unfold parseLiteral at h
  split at h
  all_goals cases h
  all_goals simp

theorem yields_value {fuel : Nat} (yields : Yields n fuel) (depth : Nat) (s : List Char)
    (v : Value ν) (rest : List Char) (deep : depth ≤ 128)
    (h : parseValue n (fuel + 1) depth s = .ok (v, rest)) :
    v.Distinct ∧ depth + v.depth ≤ 128 := by
  simp only [parseValue] at h
  split at h
  · cases h
  split at h
  · cases h
  rename_i c _ _ shallow
  split at h
  · rename_i brace
    have : depth < 128 := by
      by_contra far
      exact shallow ⟨.inl brace, by omega⟩
    split at h
    · cases h
      exact ⟨by simp [Value.Distinct, Value.DistinctMembers], by
        simp only [Value.depth, depthMembers]; omega⟩
    · obtain ⟨⟨members, tail⟩, read, eq⟩ := map_eq_ok.mp h
      cases eq
      obtain ⟨⟨nodup, _⟩, distinct, bound⟩ := yields.members _ _ _ _ _ (by omega) read
      exact ⟨⟨nodup, distinct⟩, by simp only [Value.depth]; omega⟩
  split at h
  · rename_i bracket
    have : depth < 128 := by
      by_contra far
      exact shallow ⟨.inr bracket, by omega⟩
    split at h
    · cases h
      exact ⟨by simp [Value.Distinct, Value.DistinctItems], by
        simp only [Value.depth, depthItems]; omega⟩
    · obtain ⟨⟨items, tail⟩, read, eq⟩ := map_eq_ok.mp h
      cases eq
      obtain ⟨distinct, bound⟩ := yields.items _ _ _ _ (by omega) read
      exact ⟨distinct, by simp only [Value.depth]; omega⟩
  split at h
  · obtain ⟨⟨text, tail⟩, _, eq⟩ := map_eq_ok.mp h
    cases eq
    exact ⟨trivial, deep⟩
  split at h
  · rcases parseLiteral_ok h with rfl | rfl | rfl <;> exact ⟨trivial, deep⟩
  · unfold parseNumber at h
    split at h
    · cases h
    split at h
    · cases h
    · cases h
      exact ⟨trivial, deep⟩

theorem yields_items {fuel : Nat} (yields : Yields n fuel) (depth : Nat) (s : List Char)
    (items : List (Value ν)) (rest : List Char) (deep : depth ≤ 128)
    (h : parseItems n (fuel + 1) depth s = .ok (items, rest)) :
    DistinctItems items ∧ depth + depthItems items ≤ 128 := by
  simp only [parseItems] at h
  obtain ⟨⟨v, behind⟩, first, h⟩ := bind_eq_ok.mp h
  have head := yields.value _ _ _ _ deep first
  split at h
  · cases h
  · obtain ⟨⟨items, tail⟩, read, eq⟩ := map_eq_ok.mp h
    cases eq
    have others := yields.items _ _ _ _ deep read
    exact ⟨⟨head.1, others.1⟩, by simp only [depthItems]; omega⟩
  · cases h
    exact ⟨⟨head.1, trivial⟩, by simp only [depthItems]; omega⟩
  · cases h

theorem yields_members {fuel : Nat} (yields : Yields n fuel) (depth : Nat) (keys : List String)
    (s : List Char) (members : List (String × Value ν)) (rest : List Char) (deep : depth ≤ 128)
    (h : parseMembers n (fuel + 1) depth keys s = .ok (members, rest)) :
    ((members.map Prod.fst).Nodup ∧ ∀ k ∈ members.map Prod.fst, k ∉ keys) ∧
      DistinctMembers members ∧ depth + depthMembers members ≤ 128 := by
  simp only [parseMembers] at h
  obtain ⟨⟨key, behind⟩, _, h⟩ := bind_eq_ok.mp h
  split at h
  · cases h
  rename_i new
  obtain ⟨⟨v, behind⟩, first, h⟩ := bind_eq_ok.mp h
  have head := yields.value _ _ _ _ deep first
  split at h
  · cases h
  · obtain ⟨⟨members, tail⟩, read, eq⟩ := map_eq_ok.mp h
    cases eq
    obtain ⟨⟨nodup, fresh⟩, distinct, bound⟩ := yields.members _ _ _ _ _ deep read
    refine ⟨⟨?_, ?_⟩, ⟨head.1, distinct⟩, by simp only [depthMembers]; omega⟩
    · exact List.nodup_cons.mpr ⟨fun again => fresh key again (by simp), nodup⟩
    · intro k hk seen
      rcases List.mem_cons.mp hk with rfl | other
      · exact new seen
      · exact fresh k other (List.mem_cons_of_mem _ seen)
  · cases h
    exact ⟨⟨by simp, by simpa using new⟩, ⟨head.1, trivial⟩, by simp only [depthMembers]; omega⟩
  · cases h

theorem yields (fuel : Nat) : Yields n fuel := by
  induction fuel with
  | zero =>
    refine ⟨fun depth s v rest _ h => ?_, fun depth s items rest _ h => ?_,
      fun depth keys s members rest _ h => ?_⟩
    all_goals simp [parseValue, parseItems, parseMembers, fail] at h
  | succ fuel ih => exact ⟨yields_value ih, yields_items ih, yields_members ih⟩

/-- A parsed value is one that a serialization gives back. -/
theorem parse_ok {text : String} {v : Value ν} (h : parse n text = .ok v) :
    v.Distinct ∧ v.depth ≤ 128 := by
  simp only [parse] at h
  obtain ⟨⟨v', rest⟩, read, h⟩ := bind_eq_ok.mp h
  split at h
  · cases h
    simpa using (yields (text.length + 1)).value _ _ _ _ (by omega) read
  · cases h

end

end Gufo.Json
