import Gufo.Lib.Text

/-!
# The native Qwen tool call

`ScanQwenToolCall`: one scan step over a response that starts with `<tool_call>`. A
parameter is written as `<parameter=name>`, a newline, the value, a newline and
`</parameter>`; a value that ran to the end of the text is reported unfinished.
-/

namespace Gufo.ToolCall
open Gufo.Text

abbrev Bytes := List UInt8

/-- The bytes of a literal. -/
def bytes (literal : String) : Bytes := literal.toUTF8.data.toList

/-- `std::isspace` in the C locale. -/
def isSpace (b : UInt8) : Bool := b = 32 ∨ 9 ≤ b ∧ b ≤ 13

def trimAscii (t : Bytes) : Bytes := trim isSpace t

def closeTag : Bytes := bytes ">"

/-- A part of the scanned text: where it begins there, and its bytes. -/
structure View where
  position : Nat
  data : Bytes
  deriving DecidableEq

namespace View

def trim (v : View) : View :=
  ⟨v.position + (v.data.takeWhile isSpace).length, trimAscii v.data⟩

def removePrefix (v : View) (n : Nat) : View := ⟨v.position + n, v.data.drop n⟩

/-- Trims the view, and takes the tag off it if it starts with it. -/
def consume (v : View) (tag : Bytes) : Bool × View :=
  if tag <+: v.trim.data then (true, v.trim.removePrefix tag.length) else (false, v.trim)

end View

namespace Qwen

def callOpen : Bytes := bytes "<tool_call>"
def callClose : Bytes := bytes "</tool_call>"
def functionOpen : Bytes := bytes "<function="
def functionClose : Bytes := bytes "</function>"
def parameterOpen : Bytes := bytes "<parameter="
def parameterClose : Bytes := bytes "</parameter>"
def nativeCallOpen : Bytes := bytes "<tool_call>\n<function="

def newline : Bytes := bytes "\n"
def carriageNewline : Bytes := bytes "\r\n"
def delimiter : Bytes := bytes "\n</parameter>"
def fullDelimiter : Bytes := bytes "\n</parameter>\n"
def carriageDelimiter : Bytes := bytes "\n</parameter>\r\n"

structure ToolParameter where
  name : Bytes
  value : Bytes
  framed : Bool := false
  progress : Nat := 0
  deriving DecidableEq

structure CallSyntax where
  name : Bytes := []
  parameters : List ToolParameter := []
  unfinished : Option ToolParameter := none
  native : Bool := true
  jsonPayload : Bytes := []
  canonicalHeader : Bool := false
  complete : Bool := false
  deriving DecidableEq

structure Scan where
  matched : Bool := false
  call : Option CallSyntax := none
  progress : Nat := 0
  endOffset : Nat := 0
  deriving DecidableEq

/-- The newline that frames a value: the kind its opening line ends with. -/
def frameOf (body : Bytes) : Bytes := if carriageNewline <+: body then carriageNewline else newline

def isFramed (body : Bytes) : Bool := newline <+: body ∨ carriageNewline <+: body

def stripFramingNewlines (value : Bytes) : Bytes :=
  let frame := frameOf value
  if frame <+: value then
    let rest := value.drop frame.length
    if frame <:+ rest then rest.take (rest.length - frame.length) else rest
  else value

/-- Whether a delimiter closes the value, by what follows it: the rest of its line, or for
compact legacy calls the next tag. -/
def closes (canonical : Bool) (tail : Bytes) : Bool :=
  newline <+: tail ∨ carriageNewline <+: tail ∨
    canonical = false ∧ (functionClose <+: trimAscii tail ∨ parameterOpen <+: trimAscii tail)

/-- The first delimiter that closes a framed value. -/
def framedClose (canonical : Bool) (body : Bytes) : Option Nat :=
  firstWhere
    (fun rest => decide (delimiter <+: rest) && closes canonical (rest.drop delimiter.length)) body

/-- Holds back the start of either spelling of the closing delimiter. -/
def heldBack (value : Bytes) : Bytes :=
  holdBack (holdBack value fullDelimiter) carriageDelimiter

def dropReturn (value : Bytes) : Bytes :=
  if bytes "\r" <:+ value then value.take (value.length - 1) else value

/-- What is given out of an unfinished value. -/
def unfinishedValue (body : Bytes) : Bytes :=
  let frame := frameOf body
  let value := heldBack (body.drop frame.length)
  if frame = carriageNewline then dropReturn value else value

/-- An unframed, unterminated legacy call is recovered at the next complete opener. -/
def nestedCall (body : Bytes) (close : Nat) : Bool :=
  match find callOpen body with
  | some nested =>
    nested < close ∧ functionOpen <+: trimAscii (body.drop (nested + callOpen.length))
  | none => false

inductive ParameterScan where
  | closed (parameter : ToolParameter) (canonical : Bool) (rest : View)
  | broken (unfinished : Option ToolParameter) (progress : Nat)

/-- One parameter, after its opening tag up to the name. -/
def scanParameter (textSize : Nat) (canonical : Bool) (progress : Nat) (body : View) :
    ParameterScan :=
  match find closeTag body.data with
  | none => .broken none progress
  | some nameEnd =>
    let spelled := body.data.take nameEnd
    let body := body.removePrefix (nameEnd + 1)
    let framed := isFramed body.data
    let canonical := canonical && framed
    let close :=
      if framed then (framedClose canonical body.data).map (· + 1)
      else find parameterClose body.data
    let progress :=
      if framed then
        match close with
        | none => textSize
        | some close => body.position + close + parameterClose.length
      else progress
    match close with
    | none =>
      .broken
        (if framed ∧ spelled ≠ [] then some ⟨spelled, unfinishedValue body.data, true, progress⟩
          else none)
        progress
    | some close =>
      if spelled = [] then .broken none progress
      else if framed = false ∧ nestedCall body.data close then .broken none progress
      else
        .closed ⟨spelled, stripFramingNewlines (body.data.take close), framed, progress⟩ canonical
          (body.removePrefix (close + parameterClose.length))

structure Parameters where
  parameters : List ToolParameter := []
  unfinished : Option ToolParameter := none
  valid : Bool := true
  canonical : Bool
  progress : Nat
  body : View

/-- The parameters one after the other. Each takes its tags off the text, so a fuel of more than
the text's length never runs out. -/
def scanParameters (textSize : Nat) : Nat → Parameters → Parameters
  | 0, s => s
  | fuel + 1, s =>
    let opened := s.body.consume parameterOpen
    if opened.1 then
      match scanParameter textSize s.canonical s.progress opened.2 with
      | .closed parameter canonical rest =>
        scanParameters textSize fuel
          { s with
            parameters := s.parameters ++ [parameter]
            canonical := canonical
            progress := parameter.progress
            body := rest }
      | .broken unfinished progress =>
        { s with
          unfinished := unfinished
          valid := false
          progress := progress
          body := opened.2 }
    else { s with body := opened.2 }

/-- A native call, after `<function=`. -/
def scanNative (text : Bytes) (body : View) : Scan :=
  let start := callOpen.length
  let headless : Scan :=
    { matched := true
      progress := start
      endOffset := start }
  match find closeTag body.data with
  | none => headless
  | some nameEnd =>
    let name := trimAscii (body.data.take nameEnd)
    if name = [] then headless
    else
      let canonicalHeader := decide (nativeCallOpen <+: text)
      let s := scanParameters text.length (text.length + 1)
        { canonical := canonicalHeader
          progress := start
          body := body.removePrefix (nameEnd + 1) }
      let functionClosed := s.body.consume functionClose
      let callClosed := functionClosed.2.consume callClose
      let complete := s.valid && functionClosed.1 && callClosed.1
      { matched := true
        progress := s.progress
        endOffset := if complete then callClosed.2.position else s.progress
        call := some {
          name := name
          parameters := s.parameters
          unfinished := s.unfinished
          canonicalHeader := canonicalHeader
          complete := complete } }

/-- Where a JSON payload ends: at the next envelope tag outside its strings. -/
def jsonEnd (inString escaped : Bool) : Bytes → Nat
  | [] => 0
  | byte :: rest =>
    if inString then
      if escaped then jsonEnd true false rest + 1
      else if byte = 92 then jsonEnd true true rest + 1
      else jsonEnd (byte ≠ 34) false rest + 1
    else if byte = 34 then jsonEnd true escaped rest + 1
    else if callClose <+: byte :: rest ∨ callOpen <+: byte :: rest then 0
    else jsonEnd false escaped rest + 1

/-- The compatibility form: a JSON payload between the call tags. -/
def scanJson (text : Bytes) (body : View) : Scan :=
  let close := jsonEnd false false body.data
  let closed := decide (callClose <+: body.data.drop close)
  let progress := body.position + close + if closed then callClose.length else 0
  { matched := true
    progress := progress
    endOffset := progress
    call := some {
      native := !closed
      jsonPayload := if closed then trimAscii (body.data.take close) else []
      canonicalHeader := nativeCallOpen <+: text
      complete := closed } }

def scan (text : Bytes) : Scan :=
  if callOpen <+: text then
    let body := (⟨callOpen.length, text.drop callOpen.length⟩ : View).trim
    let opened := body.consume functionOpen
    if opened.1 then scanNative text opened.2 else scanJson text opened.2
  else {}

end Qwen

end Gufo.ToolCall
