import Gufo.Json.Double
import Gufo.Serve.Utf8

/-!
# JSON as bytes

The serializer and the parser over the bytes that the program reads and writes, with its spelling
of numbers.
-/

namespace Gufo.Json.Octets
open Gufo.Serve (scalarLength Fits)

inductive Value where
  | null
  | bool (b : Bool)
  | number (x : Double)
  | string (s : List Byte)
  | array (items : List Value)
  | object (members : List (List Byte × Value))

/-- The standard library: its spelling of a double, the double it reads from a whole token without
an error, and the tokens that it reports as underflows. -/
structure Numbers where
  toChars : Double → List Byte
  fromChars : List Byte → Option Double
  underflows : List Byte → Prop

/-! ## Serializer -/

def quote : Byte := 34
def backslash : Byte := 92
def comma : Byte := 44
def colon : Byte := 58
def openBracket : Byte := 91
def closeBracket : Byte := 93
def openBrace : Byte := 123
def closeBrace : Byte := 125
def space : Byte := 32

def hexDigit (n : Nat) : Byte := UInt8.ofNat (if n < 10 then 48 + n else 87 + n)

def escapeByte (c : Byte) : List Byte :=
  if c = quote then [backslash, quote]
  else if c = backslash then [backslash, backslash]
  else if c = 8 then [backslash, 98]
  else if c = 12 then [backslash, 102]
  else if c = 10 then [backslash, 110]
  else if c = 13 then [backslash, 114]
  else if c = 9 then [backslash, 116]
  else if c.toNat < 0x20 then
    [backslash, 117, 48, 48, hexDigit (c.toNat / 16), hexDigit (c.toNat % 16)]
  else [c]

def escape (s : List Byte) : List Byte := s.flatMap escapeByte

def quoted (s : List Byte) : List Byte := quote :: (escape s ++ [quote])

/-- A whole number that a double holds exactly; not the negative zero. -/
def integral (x : Double) : Bool :=
  decide (x.mag % Double.one = 0) && decide (x.mag ≤ 2 ^ 53 * Double.one) &&
    !(decide (x.mag = 0) && x.negative)

def spellNat (k : Nat) : List Byte := (Decimal.decimal k).map fun d => UInt8.ofNat (48 + d)

def writeNumber (n : Numbers) (x : Double) : List Byte :=
  if integral x = true then
    (if x.negative then [minus] else []) ++ spellNat (x.mag / Double.one)
  else n.toChars x

def separator (spaced : Bool) : List Byte := if spaced then [comma, space] else [comma]

def behindKey (spaced : Bool) : List Byte := if spaced then [colon, space] else [colon]

mutual

/-- `dump_to`. -/
def Value.write (n : Numbers) (spaced : Bool) : Value → List Byte
  | .null => [110, 117, 108, 108]
  | .bool true => [116, 114, 117, 101]
  | .bool false => [102, 97, 108, 115, 101]
  | .number x => writeNumber n x
  | .string s => quoted s
  | .array items => openBracket :: (writeItems n spaced items ++ [closeBracket])
  | .object members => openBrace :: (writeMembers n spaced members ++ [closeBrace])

def writeItems (n : Numbers) (spaced : Bool) : List Value → List Byte
  | [] => []
  | v :: rest =>
    v.write n spaced ++ (if rest.isEmpty then [] else separator spaced ++ writeItems n spaced rest)

def writeMembers (n : Numbers) (spaced : Bool) : List (List Byte × Value) → List Byte
  | [] => []
  | (key, v) :: rest =>
    quoted key ++ behindKey spaced ++ v.write n spaced ++
      (if rest.isEmpty then [] else separator spaced ++ writeMembers n spaced rest)

end

def Value.dump (n : Numbers) (v : Value) : List Byte := v.write n false

def Value.tojson (n : Numbers) (v : Value) : List Byte := v.write n true

/-! ## Parser

Each reader returns what it read and what is left of the text. -/

def fail {α : Type} (message : String) : Except String α := .error ("JSON parse error: " ++ message)

def isBlank (c : Byte) : Bool := c == 32 || c == 9 || c == 10 || c == 13

def skipWs (s : List Byte) : List Byte := s.dropWhile isBlank

def hexValue (h : Byte) : Option Nat :=
  if 48 ≤ h.toNat ∧ h.toNat ≤ 57 then some (h.toNat - 48)
  else if 97 ≤ h.toNat ∧ h.toNat ≤ 102 then some (h.toNat - 97 + 10)
  else if 65 ≤ h.toNat ∧ h.toNat ≤ 70 then some (h.toNat - 65 + 10)
  else none

def hexQuad (a b c d : Byte) : Option Nat := do
  let a ← hexValue a
  let b ← hexValue b
  let c ← hexValue c
  let d ← hexValue d
  return ((a * 16 + b) * 16 + c) * 16 + d

/-- `parse_hex_quad`. -/
def parseHexQuad : List Byte → Except String (Nat × List Byte)
  | a :: b :: c :: d :: rest =>
    match hexQuad a b c d with
    | some code => .ok (code, rest)
    | none => fail "bad hex"
  | _ => fail "bad \\u"

/-- The scalar of an escape, from behind its `u`. -/
def parseUnicode (s : List Byte) : Except String (Nat × List Byte) := do
  let (code, rest) ← parseHexQuad s
  if 0xD800 ≤ code ∧ code ≤ 0xDBFF then
    if rest.take 2 = [backslash, 117] then
      let (low, rest) ← parseHexQuad (rest.drop 2)
      if low < 0xDC00 ∨ 0xDFFF < low then fail "invalid low surrogate"
      else .ok (0x10000 + (code - 0xD800) * 1024 + (low - 0xDC00), rest)
    else fail "unpaired high surrogate"
  else if 0xDC00 ≤ code ∧ code ≤ 0xDFFF then fail "unpaired low surrogate"
  else .ok (code, rest)

/-- The bytes that are appended for a scalar. -/
def encode (code : Nat) : List Byte :=
  if code < 0x80 then [UInt8.ofNat code]
  else if code < 0x800 then [UInt8.ofNat (0xC0 + code / 64), UInt8.ofNat (0x80 + code % 64)]
  else if code < 0x10000 then
    [UInt8.ofNat (0xE0 + code / 4096), UInt8.ofNat (0x80 + code / 64 % 64),
      UInt8.ofNat (0x80 + code % 64)]
  else
    [UInt8.ofNat (0xF0 + code / 262144), UInt8.ofNat (0x80 + code / 4096 % 64),
      UInt8.ofNat (0x80 + code / 64 % 64), UInt8.ofNat (0x80 + code % 64)]

/-- The escapes of one letter. -/
def simpleEscape (e : Byte) : Option Byte :=
  if e = quote then some quote
  else if e = backslash then some backslash
  else if e = 47 then some 47
  else if e = 98 then some 8
  else if e = 102 then some 12
  else if e = 110 then some 10
  else if e = 114 then some 13
  else if e = 116 then some 9
  else none

def decideFits (lead : Nat) :
    (count : Nat) → (bytes : List Byte) → Decidable (Fits lead count bytes)
  | _, [] => isTrue trivial
  | count, byte :: rest =>
    have := decideFits lead (count + 1) rest
    inferInstanceAs (Decidable (¬Serve.Refused lead count byte.toNat ∧ Fits lead (count + 1) rest))

instance (lead count : Nat) (bytes : List Byte) : Decidable (Fits lead count bytes) :=
  decideFits lead count bytes

/-- Bytes in front of those that are read behind them. -/
def prepend (bytes : List Byte) (r : Except String (List Byte × List Byte)) :
    Except String (List Byte × List Byte) := r.map fun p => (bytes ++ p.1, p.2)

/-- A string from behind its opening quote. Each round reads a byte, so a fuel above the length
of the text never runs out. -/
def stringFrom : Nat → List Byte → Except String (List Byte × List Byte)
  | 0, _ => fail "unterminated string"
  | _ + 1, [] => fail "unterminated string"
  | fuel + 1, c :: rest =>
    if c = quote then .ok ([], rest)
    else if c = backslash then
      match rest with
      | [] => fail "bad escape"
      | e :: rest =>
        if e = 117 then do
          let (code, rest) ← parseUnicode rest
          prepend (encode code) (stringFrom fuel rest)
        else
          match simpleEscape e with
          | some x => prepend [x] (stringFrom fuel rest)
          | none => fail "bad escape"
    else if c.toNat < 0x20 then fail "unescaped control character"
    else if c.toNat < 0x80 then prepend [c] (stringFrom fuel rest)
    else
      let length := scalarLength c.toNat
      if length = 0 ∨ rest.length < length - 1 then fail "invalid UTF-8"
      else if Fits c.toNat 1 (rest.take (length - 1)) then
        prepend (c :: rest.take (length - 1)) (stringFrom fuel (rest.drop (length - 1)))
      else fail "invalid UTF-8"

/-- `parse_string`. -/
def parseString (s : List Byte) : Except String (List Byte × List Byte) :=
  stringFrom (s.length + 1) s

/-- Digits, at least one. -/
def scanDigits (s : List Byte) : Option (List Byte × List Byte) :=
  match s.takeWhile isDigit with
  | [] => none
  | ds => some (ds, s.dropWhile isDigit)

/-- A first byte, when it is one of these. -/
def scanByte (choices s : List Byte) : List Byte × List Byte :=
  match s with
  | c :: rest => if c ∈ choices then ([c], rest) else ([], s)
  | [] => ([], [])

def scanWhole (s : List Byte) : Option (List Byte × List Byte) :=
  match s with
  | c :: rest =>
    if c = 48 then
      if (rest.head?.map isDigit).getD false then none else some ([48], rest)
    else scanDigits s
  | [] => none

def scanFraction (s : List Byte) : Option (List Byte × List Byte) :=
  match s with
  | c :: rest => if c = point then scanDigits rest else some ([], s)
  | [] => some ([], [])

def scanPower (s : List Byte) : Option (Option Power × List Byte) :=
  match s with
  | c :: rest =>
    if c = 101 ∨ c = 69 then do
      let sign := scanByte [45, 43] rest
      let (digits, rest) ← scanDigits sign.2
      return (some ⟨c, sign.1, digits⟩, rest)
    else some (none, s)
  | [] => some (none, [])

/-- The longest number at the front of a text. -/
def scanNumber (s : List Byte) : Option (Token × List Byte) := do
  let sign := scanByte [minus] s
  let (whole, rest) ← scanWhole sign.2
  let (fraction, rest) ← scanFraction rest
  let (power, rest) ← scanPower rest
  return (⟨sign.1 == [minus], whole, fraction, power⟩, rest)

def parseNumber (n : Numbers) (s : List Byte) : Except String (Value × List Byte) :=
  match scanNumber s with
  | none => fail "bad number"
  | some (token, rest) =>
    match n.fromChars token.spelling with
    | none => fail "bad number"
    | some x => .ok (.number x, rest)

/-- What stands behind a word that the text begins with. -/
def behind (word s : List Byte) : Option (List Byte) :=
  if word.isPrefixOf s then some (s.drop word.length) else none

def parseBool (s : List Byte) : Except String (Value × List Byte) :=
  match behind [116, 114, 117, 101] s with
  | some rest => .ok (.bool true, rest)
  | none =>
    match behind [102, 97, 108, 115, 101] s with
    | some rest => .ok (.bool false, rest)
    | none => fail "bad literal"

def parseNull (s : List Byte) : Except String (Value × List Byte) :=
  match behind [110, 117, 108, 108] s with
  | some rest => .ok (.null, rest)
  | none => fail "bad literal"

/-- A key and the colon behind it. -/
def parseKey (s : List Byte) : Except String (List Byte × List Byte) :=
  match skipWs s with
  | [] => fail "expected object key string"
  | c :: rest =>
    if c = quote then do
      let (key, rest) ← parseString rest
      match skipWs rest with
      | [] => fail "expected ':' after key"
      | c :: rest => if c = colon then .ok (key, rest) else fail "expected ':' after key"
    else fail "expected object key string"

mutual

/-- Each call reads a byte before the next, so a fuel above the length of the text never runs
out. -/
def parseValue (n : Numbers) : Nat → Nat → List Byte → Except String (Value × List Byte)
  | 0, _, _ => fail "unexpected end of input"
  | fuel + 1, depth, s =>
    match skipWs s with
    | [] => fail "unexpected end of input"
    | c :: rest =>
      if (c = openBrace ∨ c = openBracket) ∧ 128 ≤ depth then
        fail "maximum nesting depth exceeded"
      else if c = openBrace then
        match behind [closeBrace] (skipWs rest) with
        | some rest => .ok (.object [], rest)
        | none => (parseMembers n fuel (depth + 1) [] rest).map fun p => (.object p.1, p.2)
      else if c = openBracket then
        match behind [closeBracket] (skipWs rest) with
        | some rest => .ok (.array [], rest)
        | none => (parseItems n fuel (depth + 1) rest).map fun p => (.array p.1, p.2)
      else if c = quote then (parseString rest).map fun p => (.string p.1, p.2)
      else if c = 116 ∨ c = 102 then parseBool (c :: rest)
      else if c = 110 then parseNull (c :: rest)
      else parseNumber n (c :: rest)

def parseMembers (n : Numbers) : Nat → Nat → List (List Byte) → List Byte →
    Except String (List (List Byte × Value) × List Byte)
  | 0, _, _, _ => fail "unexpected end of input"
  | fuel + 1, depth, keys, s => do
    let (key, rest) ← parseKey s
    if key ∈ keys then fail "duplicate object key"
    else
      let (v, rest) ← parseValue n fuel depth rest
      match skipWs rest with
      | [] => fail "unterminated object"
      | c :: rest =>
        if c = comma then
          (parseMembers n fuel depth (key :: keys) rest).map fun p => ((key, v) :: p.1, p.2)
        else if c = closeBrace then .ok ([(key, v)], rest)
        else fail "expected ',' or '\x7d' in object"

def parseItems (n : Numbers) : Nat → Nat → List Byte →
    Except String (List Value × List Byte)
  | 0, _, _ => fail "unexpected end of input"
  | fuel + 1, depth, s => do
    let (v, rest) ← parseValue n fuel depth s
    match skipWs rest with
    | [] => fail "unterminated array"
    | c :: rest =>
      if c = comma then (parseItems n fuel depth rest).map fun p => (v :: p.1, p.2)
      else if c = closeBracket then .ok ([v], rest)
      else fail "expected ',' or ']' in array"

end

/-- `json::parse`. -/
def parse (n : Numbers) (text : List Byte) : Except String Value := do
  let (v, rest) ← parseValue n (text.length + 1) 0 text
  if skipWs rest = [] then .ok v else fail "trailing input"

end Gufo.Json.Octets
