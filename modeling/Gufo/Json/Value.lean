/-!
# JSON values

The ordered JSON value, its serializer and its recursive-descent parser. A text is
a string of Unicode characters: outside of ASCII, a character here is one sequence
that the program's parser checks to be well-formed UTF-8 and copies.
-/

namespace Gufo.Json

/-- `ν` holds the finite doubles. -/
inductive Value (ν : Type) where
  | null
  | bool (b : Bool)
  | number (x : ν)
  | string (s : String)
  | array (items : List (Value ν))
  | object (members : List (String × Value ν))

/-- How the standard library spells a finite double, and reads a spelling. -/
structure Numbers (ν : Type) where
  toChars : ν → List Char
  fromChars : List Char → Option ν

namespace Value
variable {ν : Type}

/-! ## Access -/

def isNull : Value ν → Bool
  | .null => true
  | _ => false

def isString : Value ν → Bool
  | .string _ => true
  | _ => false

def isObject : Value ν → Bool
  | .object _ => true
  | _ => false

def isArray : Value ν → Bool
  | .array _ => true
  | _ => false

/-- The string payload, empty where there is none. -/
def str : Value ν → String
  | .string s => s
  | _ => ""

def items : Value ν → List (Value ν)
  | .array items => items
  | _ => []

def members : Value ν → List (String × Value ν)
  | .object members => members
  | _ => []

def findMember (key : String) : List (String × Value ν) → Option (Value ν)
  | [] => none
  | (k, v) :: rest => if k = key then some v else findMember key rest

def find (v : Value ν) (key : String) : Option (Value ν) := findMember key v.members

/-- The string member `key`, or the default. -/
def memberStr (v : Value ν) (key : String) (default : String := "") : String :=
  match v.find key with
  | some (.string s) => s
  | _ => default

def setMember (key : String) (x : Value ν) : List (String × Value ν) → List (String × Value ν)
  | [] => [(key, x)]
  | (k, v) :: rest => if k = key then (k, x) :: rest else (k, v) :: setMember key x rest

/-- Assignment through `operator[]`. -/
def set (v : Value ν) (key : String) (x : Value ν) : Value ν :=
  .object (setMember key x v.members)

def pushBack (v x : Value ν) : Value ν := .array (v.items ++ [x])

@[simp] theorem isObject_object (l : List (String × Value ν)) : (object l).isObject = true := rfl

@[simp] theorem isObject_set (v : Value ν) (key : String) (x : Value ν) :
    (v.set key x).isObject = true := rfl

@[simp] theorem find_nil (key : String) : (object ([] : List (String × Value ν))).find key = none :=
  rfl

@[simp] theorem find_cons (key k : String) (v : Value ν) (l : List (String × Value ν)) :
    (object ((k, v) :: l)).find key = if k = key then some v else (object l).find key := rfl

theorem findMember_setMember (key k : String) (x : Value ν) (l : List (String × Value ν)) :
    findMember key (setMember k x l) = if k = key then some x else findMember key l := by
  induction l with
  | nil => rfl
  | cons m l ih =>
    by_cases same : m.1 = k
    · by_cases hit : k = key
      all_goals simp [setMember, findMember, same, hit]
    · by_cases hit : m.1 = key
      · have other : key ≠ k := fun h => same (hit.trans h)
        simp [setMember, findMember, hit, other, other.symm]
      · simp [setMember, findMember, same, hit, ih]

@[simp] theorem find_set (v : Value ν) (key k : String) (x : Value ν) :
    (v.set k x).find key = if k = key then some x else v.find key :=
  findMember_setMember key k x v.members

/-! ## Serializer -/

def hexDigit (n : Nat) : Char := if n < 10 then Char.ofNat (48 + n) else Char.ofNat (87 + n)

def escapeChar (c : Char) : List Char :=
  if c = '"' then ['\\', '"']
  else if c = '\\' then ['\\', '\\']
  else if c = '\x08' then ['\\', 'b']
  else if c = '\x0c' then ['\\', 'f']
  else if c = '\n' then ['\\', 'n']
  else if c = '\r' then ['\\', 'r']
  else if c = '\t' then ['\\', 't']
  else if c.toNat < 0x20 then
    ['\\', 'u', '0', '0', hexDigit (c.toNat / 16), hexDigit (c.toNat % 16)]
  else [c]

def escape (s : String) : List Char := s.toList.flatMap escapeChar

/-- A string between its quotes. -/
def quoted (s : String) : List Char := '"' :: escape s ++ ['"']

def comma (spaced : Bool) : List Char := if spaced then [',', ' '] else [',']

def colon (spaced : Bool) : List Char := if spaced then [':', ' '] else [':']

mutual

/-- `dump_to`: compact, or with Jinja's blanks after commas and colons. -/
def write (n : Numbers ν) (spaced : Bool) : Value ν → List Char
  | .null => ['n', 'u', 'l', 'l']
  | .bool true => ['t', 'r', 'u', 'e']
  | .bool false => ['f', 'a', 'l', 's', 'e']
  | .number x => n.toChars x
  | .string s => quoted s
  | .array [] => ['[', ']']
  | .array (v :: rest) => '[' :: write n spaced v ++ writeItems n spaced rest
  | .object [] => ['{', '}']
  | .object ((k, v) :: rest) =>
    '{' :: quoted k ++ colon spaced ++ write n spaced v ++ writeMembers n spaced rest

def writeItems (n : Numbers ν) (spaced : Bool) : List (Value ν) → List Char
  | [] => [']']
  | v :: rest => comma spaced ++ write n spaced v ++ writeItems n spaced rest

def writeMembers (n : Numbers ν) (spaced : Bool) : List (String × Value ν) → List Char
  | [] => ['}']
  | (k, v) :: rest =>
    comma spaced ++ quoted k ++ colon spaced ++ write n spaced v ++ writeMembers n spaced rest

end

def dump (n : Numbers ν) (v : Value ν) : String := String.ofList (v.write n false)

def tojson (n : Numbers ν) (v : Value ν) : String := String.ofList (v.write n true)

end Value

/-! ## Parser

Each reader returns what it read and what is left of the text. -/

section
variable {ν : Type}

def fail {α : Type} (message : String) : Except String α := .error ("JSON parse error: " ++ message)

def isBlank (c : Char) : Bool := c = ' ' ∨ c = '\t' ∨ c = '\n' ∨ c = '\r'

def skipWs (s : List Char) : List Char := s.dropWhile isBlank

def hexValue (h : Char) : Option Nat :=
  if '0' ≤ h ∧ h ≤ '9' then some (h.toNat - '0'.toNat)
  else if 'a' ≤ h ∧ h ≤ 'f' then some (h.toNat - 'a'.toNat + 10)
  else if 'A' ≤ h ∧ h ≤ 'F' then some (h.toNat - 'A'.toNat + 10)
  else none

/-- The value of four hexadecimal digits. -/
def hexQuad (a b c d : Char) : Option Nat := do
  let a ← hexValue a
  let b ← hexValue b
  let c ← hexValue c
  let d ← hexValue d
  return ((a * 16 + b) * 16 + c) * 16 + d

def simpleEscape (e : Char) : Option Char :=
  if e = '"' then some '"'
  else if e = '\\' then some '\\'
  else if e = '/' then some '/'
  else if e = 'b' then some '\x08'
  else if e = 'f' then some '\x0c'
  else if e = 'n' then some '\n'
  else if e = 'r' then some '\r'
  else if e = 't' then some '\t'
  else none

/-- One more character in front of what was read. -/
def prepend (c : Char) (r : Except String (List Char × List Char)) :
    Except String (List Char × List Char) :=
  r.map fun p => (c :: p.1, p.2)

/-- A string from behind its opening quote. -/
def parseString : List Char → Except String (List Char × List Char)
  | [] => fail "unterminated string"
  | c :: rest =>
    if c = '"' then .ok ([], rest)
    else if c = '\\' then
      match rest with
      | [] => fail "bad escape"
      | e :: rest =>
        if e = 'u' then
          match rest with
          | h₁ :: h₂ :: h₃ :: h₄ :: rest =>
            match hexQuad h₁ h₂ h₃ h₄ with
            | none => fail "bad hex"
            | some code =>
              if 0xD800 ≤ code ∧ code ≤ 0xDBFF then
                match rest with
                | '\\' :: 'u' :: l₁ :: l₂ :: l₃ :: l₄ :: rest =>
                  match hexQuad l₁ l₂ l₃ l₄ with
                  | none => fail "bad hex"
                  | some low =>
                    if low < 0xDC00 ∨ 0xDFFF < low then fail "invalid low surrogate"
                    else
                      prepend (Char.ofNat (0x10000 + (code - 0xD800) * 1024 + (low - 0xDC00)))
                        (parseString rest)
                | '\\' :: 'u' :: _ => fail "bad \\u"
                | _ => fail "unpaired high surrogate"
              else if 0xDC00 ≤ code ∧ code ≤ 0xDFFF then fail "unpaired low surrogate"
              else prepend (Char.ofNat code) (parseString rest)
          | _ => fail "bad \\u"
        else
          match simpleEscape e with
          | some x => prepend x (parseString rest)
          | none => fail "bad escape"
    else if c.toNat < 0x20 then fail "unescaped control character"
    else prepend c (parseString rest)

def isDigit (c : Char) : Bool := '0' ≤ c ∧ c ≤ '9'

/-- Digits, at least one. -/
def digits (s : List Char) : Option (List Char × List Char) :=
  match s.takeWhile isDigit with
  | [] => none
  | ds => some (ds, s.dropWhile isDigit)

def signPart : List Char → List Char × List Char
  | '-' :: rest => (['-'], rest)
  | s => ([], s)

def integerPart : List Char → Option (List Char × List Char)
  | '0' :: rest => if (rest.head?.map isDigit).getD false then none else some (['0'], rest)
  | s => digits s

def fractionPart : List Char → Option (List Char × List Char)
  | '.' :: rest => (digits rest).map fun p => ('.' :: p.1, p.2)
  | s => some ([], s)

def exponentSign : List Char → List Char × List Char
  | '-' :: rest => (['-'], rest)
  | '+' :: rest => (['+'], rest)
  | s => ([], s)

def exponentPart : List Char → Option (List Char × List Char)
  | c :: rest =>
    if c = 'e' ∨ c = 'E' then
      let sign := exponentSign rest
      (digits sign.2).map fun p => (c :: sign.1 ++ p.1, p.2)
    else some ([], c :: rest)
  | [] => some ([], [])

/-- The longest number at the front of a text. -/
def scanNumber (s : List Char) : Option (List Char × List Char) := do
  let sign := signPart s
  let (integer, rest) ← integerPart sign.2
  let (fraction, rest) ← fractionPart rest
  let (exponent, rest) ← exponentPart rest
  return (sign.1 ++ integer ++ fraction ++ exponent, rest)

def parseNumber (n : Numbers ν) (s : List Char) : Except String (Value ν × List Char) :=
  match scanNumber s with
  | none => fail "bad number"
  | some (token, rest) =>
    match n.fromChars token with
    | none => fail "bad number"
    | some x => .ok (.number x, rest)

def parseLiteral (s : List Char) : Except String (Value ν × List Char) :=
  match s with
  | 't' :: 'r' :: 'u' :: 'e' :: rest => .ok (.bool true, rest)
  | 'f' :: 'a' :: 'l' :: 's' :: 'e' :: rest => .ok (.bool false, rest)
  | 'n' :: 'u' :: 'l' :: 'l' :: rest => .ok (.null, rest)
  | _ => fail "bad literal"

/-- A key and the colon behind it. -/
def parseKey (s : List Char) : Except String (String × List Char) :=
  match skipWs s with
  | '"' :: rest => do
    let (key, rest) ← parseString rest
    match skipWs rest with
    | ':' :: rest => .ok (String.ofList key, rest)
    | _ => fail "expected ':' after key"
  | _ => fail "expected object key string"

mutual

/-- Each call reads a character before the next, so a fuel above the length of the text
never runs out. -/
def parseValue (n : Numbers ν) : Nat → Nat → List Char → Except String (Value ν × List Char)
  | 0, _, _ => fail "unexpected end of input"
  | fuel + 1, depth, s =>
    match skipWs s with
    | [] => fail "unexpected end of input"
    | c :: rest =>
      if (c = '{' ∨ c = '[') ∧ 128 ≤ depth then fail "maximum nesting depth exceeded"
      else if c = '{' then
        match skipWs rest with
        | '}' :: rest => .ok (.object [], rest)
        | rest => (parseMembers n fuel (depth + 1) [] rest).map fun p => (.object p.1, p.2)
      else if c = '[' then
        match skipWs rest with
        | ']' :: rest => .ok (.array [], rest)
        | rest => (parseItems n fuel (depth + 1) rest).map fun p => (.array p.1, p.2)
      else if c = '"' then
        (parseString rest).map fun p => (.string (String.ofList p.1), p.2)
      else if c = 't' ∨ c = 'f' ∨ c = 'n' then parseLiteral (c :: rest)
      else parseNumber n (c :: rest)

def parseMembers (n : Numbers ν) :
    Nat → Nat → List String → List Char → Except String (List (String × Value ν) × List Char)
  | 0, _, _, _ => fail "unexpected end of input"
  | fuel + 1, depth, keys, s => do
    let (key, rest) ← parseKey s
    if key ∈ keys then fail "duplicate object key"
    else
      let (v, rest) ← parseValue n fuel depth rest
      match skipWs rest with
      | [] => fail "unterminated object"
      | ',' :: rest =>
        (parseMembers n fuel depth (key :: keys) rest).map fun p => ((key, v) :: p.1, p.2)
      | '}' :: rest => .ok ([(key, v)], rest)
      | _ => fail "expected ',' or '\x7d' in object"

def parseItems (n : Numbers ν) : Nat → Nat → List Char → Except String (List (Value ν) × List Char)
  | 0, _, _ => fail "unexpected end of input"
  | fuel + 1, depth, s => do
    let (v, rest) ← parseValue n fuel depth s
    match skipWs rest with
    | [] => fail "unterminated array"
    | ',' :: rest => (parseItems n fuel depth rest).map fun p => (v :: p.1, p.2)
    | ']' :: rest => .ok ([v], rest)
    | _ => fail "expected ',' or ']' in array"

end

/-- `json::parse`: one value and nothing behind it. -/
def parse (n : Numbers ν) (text : String) : Except String (Value ν) := do
  let (v, rest) ← parseValue n (text.length + 1) 0 text.toList
  if skipWs rest = [] then .ok v else fail "trailing input"

end

end Gufo.Json
