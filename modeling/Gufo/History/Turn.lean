import Gufo.History.Replay

/-!
# A turn on its way out

What an output builder is handed during one generation: pieces of reasoning and text,
and the calls in the parts that `StreamingToolCalls` cuts them into.
-/

namespace Gufo.History
open Gufo.Json Gufo.Json.Value

/-- A call as it is handed on. A complete one has the text of its arguments behind it; a
call cut off by the end of the turn has some text. -/
structure StreamedCall {ν : Type} (n : Numbers ν) extends ParsedToolCall where
  first : String
  rest : List String := []
  complete : Bool
  whole : complete = true → first ++ String.join rest = argumentsJson n arguments

inductive Segment {ν : Type} (n : Numbers ν) where
  | text (id piece : String) (reasoning : Bool) (logprobs : Value ν)
  | call (id : String) (call : StreamedCall n)

variable {ν : Type} {n : Numbers ν}

namespace StreamedCall

/-- All of the argument text that was handed on. -/
def text (call : StreamedCall n) : String := call.first ++ String.join call.rest

/-- The parts behind the first; the last one completes the call. -/
def following (complete : Bool) : List String → List ToolDelta
  | [] => []
  | piece :: rest =>
    { arguments := piece, complete := complete && rest.isEmpty } :: following complete rest

def deltas (call : StreamedCall n) : List ToolDelta :=
  { id := call.id, name := call.name, arguments := call.first,
    complete := call.complete && call.rest.isEmpty } :: following call.complete call.rest

end StreamedCall

def ResponsesOutput.segment (o : ResponsesOutput ν) : Segment n → ResponsesOutput ν
  | .text id piece reasoning logprobs => o.append id piece reasoning logprobs
  | .call id call => call.deltas.foldl (fun o delta => o.addTool id delta) o

/-- The output items of a turn. -/
def responsesItems (namespaces : List (String × String)) (limited : Bool)
    (segments : List (Segment n)) : List (Value ν) :=
  (segments.foldl ResponsesOutput.segment { namespaces }).complete limited

def AnthropicOutput.segment (o : AnthropicOutput ν) :
    Segment n → Except String (AnthropicOutput ν)
  | .text _ piece reasoning _ => o.append n piece reasoning
  | .call _ call => call.deltas.foldlM (fun o delta => o.addTool n delta) o

/-- The content blocks of a turn. -/
def anthropicContent (segments : List (Segment n)) : Except String (List (Value ν)) := do
  let o ← segments.foldlM AnthropicOutput.segment ({} : AnthropicOutput ν)
  o.complete n

/-- What a client sends back for the turn: the role and the content of the message. -/
def anthropicMessage (content : List (Value ν)) : Value ν :=
  .object [("role", .string "assistant"), ("content", .array content)]

/-! ## A turn that finished normally -/

structure Piece (ν : Type) where
  id : String
  text : String
  logprobs : Value ν

def Piece.segment (reasoning : Bool) (p : Piece ν) : Segment n :=
  .text p.id p.text reasoning p.logprobs

def joined (pieces : List (Piece ν)) : String := String.join (pieces.map Piece.text)

/-- Optional reasoning, then optional text, then calls. -/
structure Turn {ν : Type} (n : Numbers ν) where
  thoughts : List (Piece ν)
  texts : List (Piece ν)
  calls : List (String × StreamedCall n)
  finished : ∀ c ∈ calls, c.2.complete = true

namespace Turn

def segments (t : Turn n) : List (Segment n) :=
  t.thoughts.map (Piece.segment true) ++ t.texts.map (Piece.segment false) ++
    t.calls.map fun c => .call c.1 c.2

def reasoning (t : Turn n) : String := joined t.thoughts

def content (t : Turn n) : String := joined t.texts

/-- The calls as history has them. -/
def toolCalls (t : Turn n) : List ToolCall :=
  t.calls.map fun c => replayedCall n c.2.toParsedToolCall

end Turn

end Gufo.History
