import Gufo.ToolCall.Qwen

/-!
# DeepSeek tool calls

`ScanDeepSeekToolCalls`: every invocation of a text, with its attributes and arguments,
and the blocks that enclose them. Four spellings of the tags compete; the JSON value of a
`string="false"` parameter may hold closing tags of its own.
-/

namespace Gufo.ToolCall.DeepSeek
open Gufo.Text

/-- The four spellings of the markup. -/
inductive Spelling where
  | barDsml
  | dsml
  | barDs
  | ds
  deriving DecidableEq

namespace Spelling

def all : List Spelling := [barDsml, dsml, barDs, ds]

def name : Spelling → String
  | barDsml => "｜DSML｜"
  | dsml => "DSML｜"
  | barDs => "｜DS｜"
  | ds => "DS｜"

def invokeOpen (s : Spelling) : Bytes := bytes "<" ++ bytes s.name ++ bytes "invoke"
def invokeClose (s : Spelling) : Bytes := bytes "</" ++ bytes s.name ++ bytes "invoke>"
def parameterOpen (s : Spelling) : Bytes := bytes "<" ++ bytes s.name ++ bytes "parameter"
def parameterClose (s : Spelling) : Bytes := bytes "</" ++ bytes s.name ++ bytes "parameter>"

end Spelling

structure ToolArgument where
  name : Bytes
  value : Bytes
  isString : Bool
  deriving DecidableEq

structure ScannedToolCall where
  name : Bytes
  arguments : List ToolArgument := []
  unfinished : Option ToolArgument := none
  valid : Bool := false
  complete : Bool := false
  deriving DecidableEq

/-- The value between the quotes after `name=` in a tag. -/
def attributeOf (tag : Bytes) (name : String) : Option Bytes :=
  match findFrom (bytes name ++ bytes "=\"") tag 0 with
  | none => none
  | some start =>
    let valueStart := start + (bytes name ++ bytes "=\"").length
    match findFrom (bytes "\"") tag valueStart with
    | none => none
    | some stop => some (slice tag valueStart stop)

/-- The first invocation from `cursor` on, in whichever spelling. -/
def firstInvoke (text : Bytes) (cursor : Nat) : Option (Nat × Spelling) :=
  earliest (fun s => findFrom s.invokeOpen text cursor) Spelling.all

/-- Whether a position lies before the next invocation, if there is one. -/
def precedes (position : Nat) : Option (Nat × Spelling) → Bool
  | none => true
  | some (start, _) => position < start

/-- The first of the markers from `cursor` on. -/
def firstMarker (markers : List Bytes) (text : Bytes) (cursor : Nat) : Option (Nat × Bytes) :=
  earliest (fun marker => findFrom marker text cursor) markers

/-- The closing tag of a block: its opener from the bracket on, with a slash. -/
def envelopeEnd (opening : Bytes) : Bytes :=
  bytes "</" ++
    match find (bytes "<") opening with
    | some bracket => opening.drop (bracket + 1)
    | none => opening

structure Parameters where
  arguments : List ToolArgument := []
  unfinished : Option ToolArgument := none
  valid : Bool
  cursor : Nat
  protectedEnd : Nat
  deriving DecidableEq

section
variable (parses : Bytes → Bool)

/-- The closing tag behind a whole JSON value; tags inside its strings are passed over. -/
def jsonClose (text : Bytes) (s : Spelling) (valueStart : Nat) : Nat → Nat → Option Nat
  | 0, _ => none
  | fuel + 1, close =>
    if parses (trimAscii (slice text valueStart close)) then some close
    else
      match findFrom s.parameterClose text (close + s.parameterClose.length) with
      | none => none
      | some next => jsonClose text s valueStart fuel next

/-- An identical repeat of an argument is dropped, a conflicting one rejects the call. -/
def addArgument (s : Parameters) (argument : ToolArgument) : Parameters :=
  match s.arguments.find? fun a => a.name = argument.name with
  | none => { s with arguments := s.arguments ++ [argument] }
  | some previous =>
    if previous.value ≠ argument.value ∨ previous.isString ≠ argument.isString then
      { s with valid := false }
    else s

/-- A string argument whose closing tag has not come yet. -/
def partialArgument (text : Bytes) (s : Spelling) (start tagEnd : Nat) : Option ToolArgument :=
  let tag := slice text start (tagEnd + 1)
  match attributeOf tag "name" with
  | none => none
  | some name =>
    if name ≠ [] ∧ (attributeOf tag "string").getD (bytes "true") = bytes "true" then
      some ⟨name, holdBack (text.drop (tagEnd + 1)) s.parameterClose, true⟩
    else none

/-- A parameter whose closing tag was found at `close`: the next state, or `none` where its JSON
value has no end. -/
def closeParameter (text : Bytes) (spelling : Spelling) (s : Parameters) (tag : Bytes)
    (valueStart close : Nat) : Option Parameters :=
  let advance (s : Parameters) (close : Nat) : Parameters :=
    { s with
      cursor := close + spelling.parameterClose.length
      protectedEnd := close + spelling.parameterClose.length }
  let string := attributeOf tag "string"
  match attributeOf tag "name" with
  | some name =>
    if name ≠ [] ∧
        (string = none ∨ string = some (bytes "true") ∨ string = some (bytes "false")) then
      let isString := decide (string.getD (bytes "true") = bytes "true")
      let close :=
        if isString then some close
        else jsonClose parses text spelling valueStart (text.length + 1) close
      close.map fun close =>
        let raw := slice text valueStart close
        advance (addArgument s ⟨name, if isString then raw else trimAscii raw, isString⟩) close
    else some (advance { s with valid := false } close)
  | none => some (advance { s with valid := false } close)

inductive ParameterStep where
  | next (s : Parameters)
  | stop (s : Parameters)

/-- One round of the parameter loop. -/
def parameterStep (isPartial : Bool) (text : Bytes) (spelling : Spelling) (s : Parameters) :
    ParameterStep :=
  if text.length ≤ s.cursor then .stop s
  else
    let remainder := trimAscii (text.drop s.cursor)
    let s := { s with cursor := s.cursor + ((text.drop s.cursor).takeWhile isSpace).length }
    if ¬spelling.parameterOpen <+: remainder then .stop s
    else
      match findFrom closeTag text s.cursor with
      | none =>
        .stop { s with
          protectedEnd := text.length
          valid := false }
      | some tagEnd =>
        match findFrom spelling.parameterClose text tagEnd with
        | none =>
          .stop { s with
            unfinished :=
              if isPartial then partialArgument text spelling s.cursor tagEnd else s.unfinished
            protectedEnd := text.length
            valid := false }
        | some close =>
          match closeParameter parses text spelling s (slice text s.cursor (tagEnd + 1))
            (tagEnd + 1) close with
          | some s => .next s
          | none =>
            .stop { s with
              protectedEnd := text.length
              valid := false }

def scanParameters (isPartial : Bool) (text : Bytes) (spelling : Spelling) :
    Nat → Parameters → Parameters
  | 0, s => s
  | fuel + 1, s =>
    match parameterStep parses isPartial text spelling s with
    | .stop s => s
    | .next s => scanParameters isPartial text spelling fuel s

/-- An invocation from its opener to wherever its scan ends: the call, and where to go on. -/
def scanInvocation (isPartial : Bool) (text : Bytes) (start : Nat) (spelling : Spelling)
    (tagEnd : Nat) :
    ScannedToolCall × Nat :=
  let name := (attributeOf (slice text start (tagEnd + 1)) "name").getD []
  let s := scanParameters parses isPartial text spelling (text.length + 1)
    { valid := name ≠ []
      cursor := tagEnd + 1
      protectedEnd := tagEnd + 1 }
  let complete := decide (spelling.invokeClose <+: text.drop s.cursor)
  (⟨name, s.arguments, s.unfinished, s.valid, complete⟩,
    if complete then s.cursor + spelling.invokeClose.length else s.protectedEnd)

structure Blocks where
  cursor : Nat
  /-- the block that is open: where it begins, and its closing tag -/
  envelope : Option (Nat × Bytes) := none
  calls : List ScannedToolCall := []
  spans : List (Nat × Nat) := []

inductive BlockStep where
  | next (b : Blocks)
  | stop (b : Blocks)

/-- The invocation part of a round. -/
def invocationStep (isPartial : Bool) (text : Bytes) (b : Blocks) : BlockStep :=
  match firstInvoke text b.cursor with
  | none => .stop b
  | some (start, spelling) =>
    match findFrom closeTag text start with
    | none => .stop b
    | some tagEnd =>
      let scanned := scanInvocation parses isPartial text start spelling tagEnd
      let call := scanned.1
      if (call.valid ∧ call.complete) ∨ (isPartial ∧ call.name ≠ []) then
        if call.valid ∧ call.complete then
          .next { b with
            calls := b.calls ++ [call]
            cursor := scanned.2 }
        else .stop { b with calls := b.calls ++ [call] }
      else .next { b with cursor := scanned.2 }

/-- One round of the scan. With spans, invocations count only inside a block. -/
def blockStep (markers : Option (List Bytes)) (isPartial : Bool) (text : Bytes) (b : Blocks) :
    BlockStep :=
  if text.length ≤ b.cursor then .stop b
  else
    match markers with
    | none => invocationStep parses isPartial text b
    | some markers =>
      match b.envelope with
      | none =>
        match firstMarker markers text b.cursor with
        | none => .stop b
        | some (start, opening) =>
          .next { b with
            envelope := some (start, envelopeEnd opening)
            cursor := start + opening.length }
      | some (start, closing) =>
        match findFrom closing text b.cursor with
        | some stop =>
          if precedes stop (firstInvoke text b.cursor) then
            .next { b with
              envelope := none
              cursor := stop + closing.length
              spans := b.spans ++ [(start, stop + closing.length)] }
          else invocationStep parses isPartial text b
        | none => invocationStep parses isPartial text b

def scanBlocks (markers : Option (List Bytes)) (isPartial : Bool) (text : Bytes) :
    Nat → Blocks → Blocks
  | 0, b => b
  | fuel + 1, b =>
    match blockStep parses markers isPartial text b with
    | .stop b => b
    | .next b => scanBlocks markers isPartial text fuel b

/-- The calls and block spans of a text; `markers` is given where spans are wanted. Every round
moves the cursor on, so a fuel of more than the text's length never runs out. -/
def scan (markers : Option (List Bytes)) (isPartial : Bool) (text : Bytes) :
    List ScannedToolCall × List (Nat × Nat) :=
  let b := scanBlocks parses markers isPartial text (text.length + 1) { cursor := 0 }
  (b.calls, b.spans)

end

/-- The openers of the native dialect. -/
def nativeMarkers : List Bytes :=
  [bytes "\n\n<｜DSML｜tool_calls>", bytes "<｜DSML｜tool_calls>"]

/-- The openers that the JSON fallback recognises beside Qwen's. -/
def fallbackMarkers : List Bytes :=
  [bytes "<｜DSML｜tool_calls｜>", bytes "<｜DSML｜tool_calls>", bytes "<DSML｜tool_calls｜>",
    bytes "<DSML｜tool_calls>", bytes "<tool_calls｜>", bytes "<tool_calls>"]

end Gufo.ToolCall.DeepSeek
