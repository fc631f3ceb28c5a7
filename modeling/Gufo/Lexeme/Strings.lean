import Gufo.Lexeme.Openings
import Gufo.Constraint.Integer
import Gufo.Regex.CanFinish

/-!
# The string lexeme

`StringLexeme` reads a string literal byte by byte. Its state is the automaton's, the
number of characters, and what has been read of the next one. A string without pattern
and format has a shorter state, which only says that the character is going to be valid.
`none` is the empty encoded state. What is added up below stays below 2³².

The expressions that the patterns are parsed to are a parameter, as is the text of the
pattern that a format stands for.
-/

namespace Gufo.Lexeme
open Gufo.Regex Gufo.Constraint

def UINT32_MAX : Nat := 2 ^ 32 - 1

structure StringLexeme where
  minimum : Nat
  maximum : Nat
  scalarOnly : Bool
  regex : Impl

inductive Phase where
  | body
  | escape
  | hex
  | lowSlash
  | lowU
  | lowHex
  | utf8
  deriving DecidableEq, Repr

structure State where
  dfa : Option Nat
  count : Nat := 0
  value : Nat := 0
  extra : Nat := 0
  mode : Phase := .body
  deriving DecidableEq, Repr

/-- What a byte makes of a state, before `Character` and `Pending` are asked. -/
inductive Decoded where
  | reject
  | close (complete : Bool)
  | character (cp : Nat)
  | become (s : State)

namespace StringLexeme

def RemainingMinimum (x : StringLexeme) (count : Nat) : Nat :=
  if x.minimum ≤ count then 0 else x.minimum - count

def Character (x : StringLexeme) (s : State) (cp : Nat) : Option State :=
  if s.count = x.maximum ∨ 0x10ffff < cp ∨ 0xd800 ≤ cp ∧ cp ≤ 0xdfff then none
  else
    let count := s.count + 1
    let next := if x.scalarOnly then s.dfa else x.regex.Advance s.dfa cp
    if !x.scalarOnly &&
        !x.regex.CanFinish next (x.RemainingMinimum count) (x.maximum - count) then none
    else some {
      dfa := next
      count := if x.maximum = UINT32_MAX then min count x.minimum else count }

def Range (x : StringLexeme) (s : State) (first last : Nat) : Bool :=
  if last < first ∨ s.count = x.maximum then false
  else x.regex.CanAdvance s.dfa first last (x.RemainingMinimum (s.count + 1))
    (x.maximum - (s.count + 1))

/-- The character that the surrogates make. -/
def combine (high low : Nat) : Nat := 0x10000 + (high - 0xd800) * 1024 + (low - 0xdc00)

def Pending (x : StringLexeme) (s : State) : Bool :=
  if x.scalarOnly then decide (s.count < x.maximum)
  else
    match s.mode with
    | .escape => x.Range s 0 0x10ffff
    | .utf8 =>
      let shift := 6 * (s.extra % 256)
      let minimum := utf8Minimum (s.extra / 256)
      x.Range s (max minimum (s.value * 2 ^ shift)) (min 0x10ffff ((s.value + 1) * 2 ^ shift - 1))
    | .lowSlash | .lowU =>
      let first := 0x10000 + (s.value - 0xd800) * 1024
      x.Range s first (first + 1023)
    | mode =>
      let shift := 4 * (s.extra % 256)
      let first := s.value * 2 ^ shift
      let last := (s.value + 1) * 2 ^ shift - 1
      if mode = .lowHex then
        let low := max first 0xdc00
        let high := min last 0xdfff
        if high < low then false
        else
          let base := 0x10000 + (s.extra / 256 - 0xd800) * 1024
          x.Range s (base + low - 0xdc00) (base + high - 0xdc00)
      else if first ≤ 0xd7ff ∧ x.Range s first (min last 0xd7ff) = true then true
      else if 0xe000 ≤ last ∧ x.Range s (max first 0xe000) last = true then true
      else if first ≤ 0xdbff ∧ 0xd800 ≤ last then
        x.Range s (0x10000 + (max first 0xd800 - 0xd800) * 1024)
          (0x10000 + (min last 0xdbff - 0xd800 + 1) * 1024 - 1)
      else false

/-! ## One byte -/

def body (x : StringLexeme) (s : State) (b : Nat) : Decoded :=
  if b = 34 then
    .close (decide (x.minimum ≤ s.count) && x.regex.Accepting s.dfa)
  else if b = 92 then .become { s with mode := .escape }
  else if b < 0x20 then .reject
  else if b < 0x80 then .character b
  else
    let width := utf8Width b
    if width = 0 then .reject
    else if x.scalarOnly then
      let low := if b = 0xe0 then 0xa0 else if b = 0xf0 then 0x90 else 0x80
      let high := if b = 0xed then 0x9f else if b = 0xf4 then 0x8f else 0xbf
      .become { s with mode := .utf8, value := low * 256 + high, extra := width - 1 }
    else
      .become { s with
        mode := .utf8
        value := b % 2 ^ (7 - width)
        extra := width * 256 + (width - 1) }

def escape (s : State) (b : Nat) : Decoded :=
  if b = 117 then .become { s with mode := .hex, extra := 4 }
  else
    match shortEscapes.lookup b with
    | none => .reject
    | some cp => .character cp

def lowSlash (s : State) (b : Nat) : Decoded :=
  if b ≠ 92 then .reject else .become { s with mode := .lowU }

def lowU (s : State) (b : Nat) : Decoded :=
  if b ≠ 117 then .reject
  else .become { s with mode := .lowHex, extra := s.value * 256 + 4, value := 0 }

/-- A digit where nothing but the validity of the character counts. -/
def scalarHex (s : State) (digit : Nat) : Decoded :=
  let remaining := s.extra % 256
  if s.mode = .lowHex ∧ (remaining = 4 ∧ digit ≠ 13 ∨ remaining = 3 ∧ digit < 12) then .reject
  else if s.mode ≠ .lowHex ∧ remaining = 3 ∧ s.value = 1 ∧ 12 ≤ digit then .reject
  else
    let value :=
      if s.mode = .lowHex then s.value
      else if remaining = 4 then if digit = 13 then 1 else 0
      else if remaining = 3 ∧ s.value = 1 then if 8 ≤ digit then 2 else 0
      else s.value
    let extra := s.extra - 1
    if extra % 256 ≠ 0 then .become { s with value, extra }
    else if s.mode = .hex ∧ value = 2 then
      .become { s with value := 0xd800, extra, mode := .lowSlash }
    else .character 0

def hex (x : StringLexeme) (s : State) (b : Nat) : Decoded :=
  match hexDigit b with
  | none => .reject
  | some digit =>
    if x.scalarOnly then scalarHex s digit
    else
      let value := s.value * 16 + digit
      let extra := s.extra - 1
      if extra % 256 ≠ 0 then .become { s with value, extra }
      else if s.mode = .lowHex then
        if value < 0xdc00 ∨ 0xdfff < value then .reject
        else .character (combine (extra / 256) value)
      else if 0xd800 ≤ value ∧ value ≤ 0xdbff then
        .become { s with value, extra := 0, mode := .lowSlash }
      else .character value

def utf8 (x : StringLexeme) (s : State) (b : Nat) : Decoded :=
  if x.scalarOnly then
    if b < s.value / 256 ∨ s.value % 256 < b then .reject
    else
      let extra := s.extra - 1
      if extra = 0 then .character 0
      else .become { s with value := 0x80 * 256 + 0xbf, extra }
  else
    match continuation b with
    | none => .reject
    | some low =>
      let value := s.value * 64 + low
      let extra := s.extra - 1
      if extra % 256 ≠ 0 then .become { s with value, extra }
      else if value < utf8Minimum (extra / 256) then .reject
      else .character value

def decode (x : StringLexeme) (s : State) (b : Nat) : Decoded :=
  match s.mode with
  | .body => x.body s b
  | .escape => escape s b
  | .lowSlash => lowSlash s b
  | .lowU => lowU s b
  | .hex | .lowHex => x.hex s b
  | .utf8 => x.utf8 s b

/-- `Advance`, and the state that is encoded afterwards. -/
def Advance (x : StringLexeme) (encoded : Option State) (byte : Byte) : Match × Option State :=
  match encoded with
  | none => if byte ≠ 34 then (⟨false, false⟩, none) else (⟨true, false⟩, some { dfa := some 0 })
  | some s =>
    match x.decode s byte.toNat with
    | .reject => (⟨false, false⟩, encoded)
    | .close complete => (⟨false, complete⟩, encoded)
    | .character cp =>
      match x.Character s cp with
      | none => (⟨false, false⟩, encoded)
      | some next => (⟨true, false⟩, some next)
    | .become next =>
      if next.mode ≠ .body ∧ x.Pending next = false then (⟨false, false⟩, encoded)
      else (⟨true, false⟩, some next)

/-- The loop of `Check`. -/
def checkLoop (x : StringLexeme) : List Byte → Match → Option State → Match
  | [], result, _ => result
  | byte :: bytes, result, encoded =>
    if result.isPrefix then
      let (result, encoded) := x.Advance encoded byte
      checkLoop x bytes result encoded
    else ⟨false, false⟩

def Check (x : StringLexeme) (bytes : List Byte) : Match := x.checkLoop bytes ⟨true, false⟩ none

end StringLexeme

/-! ## The constructor -/

/-- What the schema of a string says. -/
structure StringSchema where
  minLength : Option Double := none
  maxLength : Option Double := none
  pattern : Option String := none
  format : Option String := none

/-- The parser of the patterns, and the pattern of a format. -/
structure Patterns (E : Type) where
  parse : List String → Nat → Except Failure (Expressions E)
  valid : ∀ patterns maximum x, parse patterns maximum = .ok x → x.Valid
  formatPattern : String → Except Failure String

def readLength (value : Option Double) (absent : Nat) : Except Failure Nat :=
  match value with
  | none => .ok absent
  | some number =>
    if number.value < 0 ∨ 1048576 < number.value ∨ (⌊number.value⌋ : ℚ) ≠ number.value then
      .error (.invalid "JSON Schema: string lengths must be nonnegative integers up to 1048576")
    else .ok ⌊number.value⌋.toNat

/-- `JsonSchemaRegex::Compile` of some patterns. -/
def Patterns.compile {E : Type} [DecidableEq E] (p : Patterns E) (patterns : List String)
    (maximum : Nat) : Except Failure Impl := do
  match Regex.compile (← p.parse patterns maximum) maximum with
  | .ok r => return r
  | .error reason => throw (.invalid ("JSON Schema: " ++ reason))

/-- The patterns of the schema, and the length that a hostname may have. -/
def readPatterns {E : Type} (p : Patterns E) (schema : StringSchema) (maximum : Nat) :
    Except Failure (List String × Nat) := do
  match schema.format with
  | none => return (schema.pattern.toList, maximum)
  | some format =>
    let expression ← p.formatPattern format
    return (schema.pattern.toList ++ [expression],
      if format = "hostname" then min maximum 253 else maximum)

def readRegex {E : Type} [DecidableEq E] (p : Patterns E) (patterns : List String)
    (maximum : Nat) : Except Failure (Bool × Impl) :=
  if patterns.isEmpty then
    match Regex.compile unconstrained UINT32_MAX with
    | .ok r => .ok (true, r)
    | .error reason => .error (.invalid ("JSON Schema: " ++ reason))
  else do return (false, ← p.compile patterns maximum)

def StringLexeme.new {E : Type} [DecidableEq E] (p : Patterns E) (schema : StringSchema) :
    Except Failure StringLexeme := do
  let minimum ← readLength schema.minLength 0
  let maximum ← readLength schema.maxLength UINT32_MAX
  if maximum < minimum then throw (.empty "JSON Schema: minLength exceeds maxLength")
  let (patterns, maximum) ← readPatterns p schema maximum
  let (scalarOnly, regex) ← readRegex p patterns maximum
  if regex.CanFinish (some 0) minimum maximum = false then
    throw (.empty "JSON Schema: string predicates and lengths have no matching value")
  return { minimum, maximum, scalarOnly, regex }

end Gufo.Lexeme
