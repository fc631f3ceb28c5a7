import Gufo.History.Messages

/-!
# Writing a turn

The assistant message of Chat, the output items of Responses and the content blocks
of Messages, for a generation that runs to its end: without a writer, or with one that
stays connected, `Emit` changes nothing here and succeeds. Random ids are arguments.
-/

namespace Gufo.History
open Gufo.Json

variable {ν : Type}

/-! ## Chat -/

/-- What a declared tool may be called: it reaches the prompt unescaped. -/
def renderableToolName (name : String) : Bool :=
  name ≠ "" ∧ name.utf8ByteSize ≤ 64 ∧ name.toList.all fun c =>
    0x20 < c.toNat ∧ c.toNat < 0x7F ∧ c ≠ '<' ∧ c ≠ '>' ∧ c ≠ '"' ∧ c ≠ '\\'

/-- A call as the parsers return it: under a random id, and only of a declared tool. -/
structure ParsedToolCall where
  id : String
  name : String
  arguments : List ToolArgument := []
  identified : id ≠ ""
  renderable : renderableToolName name = true

structure ParsedGeneration where
  text : String := ""
  reasoningContent : String := ""
  toolCalls : List ParsedToolCall := []

def toolCallsJson (n : Numbers ν) (calls : List ParsedToolCall) : Value ν :=
  .array (calls.map fun call => .object [("id", .string call.id), ("type", .string "function"),
    ("function", .object [("name", .string call.name),
      ("arguments", .string (argumentsJson n call.arguments))])])

/-- The assistant message of `NonStreamingResponse`. -/
def chatMessage (n : Numbers ν) (g : ParsedGeneration) : Value ν :=
  let message := Value.object [("role", .string "assistant")]
  let message :=
    if g.reasoningContent = "" then message
    else message.set "reasoning_content" (.string g.reasoningContent)
  let message :=
    if g.text = "" ∧ g.toolCalls ≠ [] then message.set "content" .null
    else message.set "content" (.string g.text)
  if g.toolCalls = [] then message
  else message.set "tool_calls" (toolCallsJson n g.toolCalls)

/-- What `StreamingToolCalls` hands on: the id and name come with the first part of a call. -/
structure ToolDelta where
  id : String := ""
  name : String := ""
  arguments : String
  complete : Bool

/-! ## Responses -/

structure ResponsesOutput (ν : Type) where
  namespaces : List (String × String) := []
  output : List (Value ν) := []
  item : Value ν := .null
  tool : Value ν := .null
  toolArguments : String := ""
  text : String := ""
  logprobs : Value ν := .array []
  active : Bool := false
  reasoning : Bool := false
  unfinishedTool : Bool := false

namespace ResponsesOutput

/-- The member of an item that holds its parts. -/
def partsKey (reasoning : Bool) : String := if reasoning then "summary" else "content"

def part (o : ResponsesOutput ν) : Value ν :=
  .object ([("type", .string (if o.reasoning then "summary_text" else "output_text")),
    ("text", .string o.text)] ++
    if o.reasoning then [] else [("annotations", .array []), ("logprobs", o.logprobs)])

def newItem (id : String) (reasoning : Bool) : Value ν :=
  .object ([("id", .string id), ("type", .string (if reasoning then "reasoning" else "message")),
    ("status", .string "in_progress"), (partsKey reasoning, .array [])] ++
    if reasoning then [] else [("role", .string "assistant")])

def closeTool (status : String) (o : ResponsesOutput ν) : ResponsesOutput ν :=
  if o.tool.isNull then o
  else
    let tool := (o.tool.set "arguments" (.string o.toolArguments)).set "status" (.string status)
    { o with
      unfinishedTool := o.unfinishedTool || status = "incomplete"
      output := o.output ++ [tool]
      tool := .null }

def closeItem (status : String) (o : ResponsesOutput ν) : ResponsesOutput ν :=
  if o.active = false then o
  else
    let key := partsKey o.reasoning
    let parts := ((o.item.find key).getD .null).pushBack o.part
    let item := (o.item.set key parts).set "status" (.string status)
    { o with item, output := o.output ++ [item], active := false }

def append (id text : String) (reasoning : Bool) (logprobs : Value ν) (o : ResponsesOutput ν) :
    ResponsesOutput ν :=
  if text = "" then o
  else
    let o := o.closeTool "incomplete"
    let o :=
      if o.active = false ∨ o.reasoning ≠ reasoning then
        { o.closeItem "completed" with
          reasoning
          active := true
          item := newItem id reasoning
          text := ""
          logprobs := .array [] }
      else o
    { o with
      text := o.text ++ text
      logprobs := if reasoning then o.logprobs else .array (o.logprobs.items ++ logprobs.items) }

def newTool (id : String) (call : ToolDelta) (o : ResponsesOutput ν) : Value ν :=
  .object ([("id", .string id), ("type", .string "function_call"), ("call_id", .string call.id),
    ("name", .string call.name)] ++
    (match o.namespaces.lookup call.name with
      | some space => [("namespace", .string space)]
      | none => []) ++
    [("arguments", .string ""), ("status", .string "in_progress")])

def addTool (id : String) (call : ToolDelta) (o : ResponsesOutput ν) : ResponsesOutput ν :=
  let o :=
    if call.id = "" then o
    else
      let o := o.closeItem "completed"
      { o with tool := o.newTool id call, toolArguments := "" }
  let o := { o with toolArguments := o.toolArguments ++ call.arguments }
  if call.complete then o.closeTool "completed" else o

/-- The items of the final response; `limited` says that the length ended the turn. -/
def complete (limited : Bool) (o : ResponsesOutput ν) : List (Value ν) :=
  ((o.closeTool "incomplete").closeItem (if limited then "incomplete" else "completed")).output

end ResponsesOutput

/-! ## Messages -/

def isSpace (c : Char) : Bool :=
  c = ' ' ∨ c = '\t' ∨ c = '\n' ∨ c = '\x0b' ∨ c = '\x0c' ∨ c = '\r'

def trimTrailing (s : String) : String :=
  String.ofList (s.toList.rdropWhile isSpace)

/-- The whitespace that `trimTrailing` takes off. -/
def trailing (s : String) : String :=
  String.ofList (s.toList.rtakeWhile isSpace)

def trimLeading (s : String) : String := String.ofList (s.toList.dropWhile isSpace)

structure AnthropicOutput (ν : Type) where
  content : List (Value ν) := []
  tool : Value ν := .null
  toolArguments : String := ""
  text : String := ""
  /-- trailing reasoning whitespace, written only if more reasoning follows -/
  held : String := ""
  active : Bool := false
  reasoning : Bool := false
  toolUse : Bool := false

namespace AnthropicOutput

def block (o : AnthropicOutput ν) : Value ν :=
  if o.reasoning then
    .object [("type", .string "thinking"), ("thinking", .string o.text), ("signature", .string "")]
  else .object [("type", .string "text"), ("text", .string o.text)]

def closeTool (n : Numbers ν) (complete : Bool) (o : AnthropicOutput ν) :
    Except String (AnthropicOutput ν) :=
  if o.tool.isNull then .ok o
  else if complete then do
    let input ← parse n o.toolArguments
    return { o with
      content := o.content ++ [o.tool.set "input" input]
      tool := .null
      toolUse := true }
  else .ok { o with content := o.content ++ [o.tool], tool := .null }

def closeBlock (o : AnthropicOutput ν) : AnthropicOutput ν :=
  let o := { o with held := "" }
  if o.active = false then o
  else { o with content := o.content ++ [o.block], active := false }

/-- A piece of a block, which opens the block where none of its kind is open. -/
def addText (text : String) (reasoning : Bool) (o : AnthropicOutput ν) : AnthropicOutput ν :=
  if text = "" then o
  else
    let o :=
      if o.active = false ∨ o.reasoning ≠ reasoning then
        { o with reasoning, active := true, text := "" }
      else o
    { o with text := o.text ++ text }

/-- Reasoning loses the whitespace around it. -/
def addThinking (text : String) (o : AnthropicOutput ν) : AnthropicOutput ν :=
  let text := if o.active = false ∨ o.reasoning = false then trimLeading text else text
  if trimTrailing text = "" then { o with held := o.held ++ text }
  else { o with held := trailing text }.addText (o.held ++ trimTrailing text) true

def addPiece (text : String) (reasoning : Bool) (o : AnthropicOutput ν) : AnthropicOutput ν :=
  let o := if o.active = false ∨ o.reasoning ≠ reasoning then o.closeBlock else o
  if reasoning then o.addThinking text else o.addText text false

def append (n : Numbers ν) (text : String) (reasoning : Bool) (o : AnthropicOutput ν) :
    Except String (AnthropicOutput ν) :=
  (if text = "" then .ok o else o.closeTool n false).map (addPiece text reasoning)

def addTool (n : Numbers ν) (call : ToolDelta) (o : AnthropicOutput ν) :
    Except String (AnthropicOutput ν) :=
  let o :=
    if call.id = "" then o
    else
      { o.closeBlock with
        tool := .object [("type", .string "tool_use"), ("id", .string call.id),
          ("name", .string call.name), ("input", .object [])]
        toolArguments := "" }
  let o := { o with toolArguments := o.toolArguments ++ call.arguments }
  if call.complete then o.closeTool n true else .ok o

/-- The content of the final message; an empty turn is one empty text block. -/
def complete (n : Numbers ν) (o : AnthropicOutput ν) : Except String (List (Value ν)) := do
  let o ← o.closeTool n false
  let o := o.closeBlock
  if o.content = [] then
    return ({ o with text := "", reasoning := false, active := true }.closeBlock).content
  else return o.content

end AnthropicOutput

end Gufo.History
