import Gufo.ToolCall.Qwen
import Mathlib.Algebra.Order.Ring.Int

/-!
# The chat template

`QwenChatTemplate::Render`: the prompt of a list of messages. The output is kept as the
fragments that are appended to it, each with its writer; the rendered string is their
text, and a content span is the range of a content fragment.
-/

namespace Gufo.Chat
open Gufo.Text Gufo.ToolCall Gufo.ToolCall.Qwen

inductive ChatRole where
  | system
  | developer
  | user
  | assistant
  | tool
  deriving DecidableEq

namespace ChatRole

def toString : ChatRole → Bytes
  | system | developer => bytes "system"
  | user => bytes "user"
  | assistant => bytes "assistant"
  | tool => bytes "tool"

end ChatRole

/-- An image before a byte of the content; `none` for a null pointer. -/
structure ImagePart where
  offset : Nat
  bytes : Option Bytes
  deriving DecidableEq

structure ToolArgument where
  name : Bytes
  value : Bytes
  deriving DecidableEq

structure ToolCall where
  name : Bytes
  arguments : List ToolArgument := []
  deriving DecidableEq

structure ChatMessage where
  role : ChatRole := .user
  content : Bytes := []
  /-- server-authored instructions behind system content -/
  framingSuffix : Bytes := []
  thought : Bytes := []
  images : List ImagePart := []
  toolCalls : List ToolCall := []
  deriving DecidableEq

structure ChatTool where
  name : Bytes
  description : Bytes
  parametersJson : Bytes := bytes "\x7b\x7d"
  definitionJson : Bytes := []

inductive ReasoningEffort where
  | low
  | medium
  | xHigh
  deriving DecidableEq

structure ChatTemplateOptions where
  addGenerationPrompt : Bool := true
  enableThinking : Bool := true
  reasoningEffort : ReasoningEffort := .xHigh
  preserveThinking : Bool := true
  addVisionId : Bool := false
  maxOutputBytes : Nat := 1024 * 1024

def imStart : Bytes := bytes "<|im_start|>"
def imEnd : Bytes := bytes "<|im_end|>"
def visionStart : Bytes := bytes "<|vision_start|>"
def visionEnd : Bytes := bytes "<|vision_end|>"
def imagePad : Bytes := bytes "<|image_pad|>"

def toolResponseOpen : Bytes := bytes "<tool_response>"
def toolResponseClose : Bytes := bytes "</tool_response>"

def lowReasoningInstruction : Bytes :=
  bytes "Reasoning effort is set to low. Keep your thinking brief and focused, " ++
    bytes "moving directly to the conclusion without unnecessary elaboration."

def xHighReasoningInstruction : Bytes :=
  bytes "Reasoning effort is set to xhigh. Please think carefully through the " ++
    bytes "task, validate key assumptions, consider plausible alternatives, and " ++
    bytes "prioritize correctness, consistency, and clarity in the final answer."

/-! ## Trimming -/

/-- The ICU primitives that `Trim` rests on: the position behind a code point and its value, the
position before one and its value, and the white space property. -/
structure Icu where
  next : Bytes → Nat → Nat × Int
  prev : Bytes → Nat → Nat → Nat × Int
  isUWhiteSpace : Int → Bool

namespace Icu
variable (icu : Icu)

/-- Python's `str.strip` also includes the four ASCII information separators. -/
def whitespace (cp : Int) : Bool := icu.isUWhiteSpace cp || decide (0x1c ≤ cp ∧ cp ≤ 0x1f)

def trimFirst (value : Bytes) : Nat → Nat → Nat
  | 0, first => first
  | fuel + 1, first =>
    if first < value.length ∧ icu.whitespace (icu.next value first).2 then
      trimFirst value fuel (icu.next value first).1
    else first

def trimLast (value : Bytes) (first : Nat) : Nat → Nat → Nat
  | 0, last => last
  | fuel + 1, last =>
    if first < last ∧ icu.whitespace (icu.prev value first last).2 then
      trimLast value first fuel (icu.prev value first last).1
    else last

/-- Where the trimmed text begins and ends. A code point takes a byte at least, so a fuel of the
length is enough. -/
def trimBounds (value : Bytes) : Nat × Nat :=
  let first := icu.trimFirst value value.length 0
  (first, icu.trimLast value first value.length value.length)

def trim (value : Bytes) : Bytes :=
  slice value (icu.trimBounds value).1 (icu.trimBounds value).2

end Icu

/-! ## Fragments -/

/-- Who wrote a part of the prompt: the template itself, or a message. Of a message's text a
content span is recorded; a name stands without one. -/
inductive Writer where
  | framing
  | content
  | name
  deriving DecidableEq

structure Fragment where
  text : Bytes
  writer : Writer
  deriving DecidableEq

def framing (text : Bytes) : Fragment := ⟨text, .framing⟩

/-- `AppendContent`: text with its span. -/
def appendContent (text : Bytes) : Fragment := ⟨text, .content⟩

namespace Fragment

/-- The string of the fragments. -/
def rendered (output : List Fragment) : Bytes := output.flatMap text

/-- `output.size()`. -/
def size (output : List Fragment) : Nat := (output.map fun f => f.text.length).sum

/-- The content spans from an offset on: no span is recorded for empty text. -/
def spans (offset : Nat) : List Fragment → List (Nat × Nat)
  | [] => []
  | f :: rest =>
    (if f.writer = .content ∧ f.text ≠ [] then [(offset, f.text.length)] else []) ++
      spans (offset + f.text.length) rest

/-- The part of the fragments within `[low, high)`. -/
def clip (low high offset : Nat) : List Fragment → List Fragment
  | [] => []
  | f :: rest =>
    ⟨slice f.text (low - offset) (high - offset), f.writer⟩ ::
      clip low high (offset + f.text.length) rest

end Fragment

/-! ## Messages -/

/-- A message's text with its image markers, trimmed as a whole. -/
structure Body where
  fragments : List Fragment
  imageOffsets : List Nat := []
  imageCount : Nat
  hasContent : Bool

/-- The text before one image, and its markers. -/
def imageMarker (options : ChatTemplateOptions) (imageCount : Nat) : Bytes :=
  (if options.addVisionId then
    bytes "Picture " ++ bytes (Nat.repr imageCount) ++ bytes ": "
  else []) ++ visionStart

/-- The untrimmed text around a message's images: its fragments, and where each pad begins. -/
def appendImages (options : ChatTemplateOptions) (content : Bytes) :
    List ImagePart → Nat → Nat → List Fragment → List Nat → List Fragment × List Nat × Nat
  | [], cursor, imageCount, output, offsets =>
    (output ++ [appendContent (content.drop cursor)], offsets, imageCount)
  | image :: images, cursor, imageCount, output, offsets =>
    let opened := output ++ [appendContent (slice content cursor image.offset),
      framing (imageMarker options (imageCount + 1))]
    appendImages options content images image.offset (imageCount + 1)
      (opened ++ [framing (imagePad ++ visionEnd)]) (offsets ++ [Fragment.size opened])

/-- `AppendMessageContent`, for an output of `start` bytes. -/
def appendMessageContent (icu : Icu) (options : ChatTemplateOptions) (message : ChatMessage)
    (imageCount start : Nat) : Body :=
  if message.images = [] then
    { fragments := [appendContent (icu.trim message.content)]
      imageCount := imageCount
      hasContent := icu.trim message.content ≠ [] }
  else
    let (output, offsets, imageCount) :=
      appendImages options message.content message.images 0 imageCount [] []
    let (removed, last) := icu.trimBounds (Fragment.rendered output)
    { fragments := Fragment.clip removed last 0 output
      imageOffsets := offsets.map fun offset => start + offset - removed
      imageCount := imageCount
      hasContent := icu.trim (Fragment.rendered output) ≠ [] }

def appendArguments : List ToolArgument → List Fragment
  | [] => []
  | argument :: arguments =>
    [framing parameterOpen, ⟨argument.name, .name⟩, framing (bytes ">\n"),
      appendContent argument.value, framing (newline ++ parameterClose ++ newline)] ++
      appendArguments arguments

def appendToolCall (call : ToolCall) : List Fragment :=
  [framing (callOpen ++ newline ++ functionOpen), ⟨call.name, .name⟩, framing (bytes ">\n")] ++
    appendArguments call.arguments ++ [framing (functionClose ++ newline ++ callClose)]

def appendToolCalls : List ToolCall → List Fragment
  | [] => []
  | [call] => appendToolCall call
  | call :: calls => appendToolCall call ++ [framing newline] ++ appendToolCalls calls

/-! ## The system turn -/

def appendReasoningInstruction (options : ChatTemplateOptions) : Bytes :=
  if options.enableThinking then
    match options.reasoningEffort with
    | .low => lowReasoningInstruction
    | .medium => []
    | .xHigh => xHighReasoningInstruction
  else []

/-- A space behind every colon and comma outside a string. -/
def pythonJsonSpacing (inString escaped : Bool) : Bytes → Bytes
  | [] => []
  | character :: rest =>
    if inString then
      if escaped then character :: pythonJsonSpacing true false rest
      else if character = 92 then character :: pythonJsonSpacing true true rest
      else character :: pythonJsonSpacing (character ≠ 34) false rest
    else if character = 34 then character :: pythonJsonSpacing true false rest
    else if character = 58 ∨ character = 44 then
      character :: 32 :: pythonJsonSpacing false false rest
    else character :: pythonJsonSpacing false false rest

def jsonEscape (character : UInt8) : Bytes :=
  if character = 34 then bytes "\\\""
  else if character = 92 then bytes "\\\\"
  else if character = 8 then bytes "\\b"
  else if character = 12 then bytes "\\f"
  else if character = 10 then bytes "\\n"
  else if character = 13 then bytes "\\r"
  else if character = 9 then bytes "\\t"
  else [character]

def appendJsonString (value : Bytes) : Bytes :=
  bytes "\"" ++ value.flatMap jsonEscape ++ bytes "\""

def toolDeclaration (tool : ChatTool) : Bytes :=
  if tool.definitionJson ≠ [] then newline ++ pythonJsonSpacing false false tool.definitionJson
  else
    bytes "\n\x7b\"type\": \"function\", \"function\": \x7b\"name\": " ++
      appendJsonString tool.name ++
      bytes ", \"description\": " ++ appendJsonString tool.description ++
      bytes ", \"parameters\": " ++
      (if tool.parametersJson = [] then bytes "\x7b\x7d"
        else pythonJsonSpacing false false tool.parametersJson) ++
      bytes "\x7d\x7d"

/-- `AppendToolsPrompt`, behind a prompt of `output`. -/
def appendToolsPrompt (output : Bytes) (tools : List ChatTool) : Bytes :=
  if tools = [] then output
  else
    output ++ (if output ≠ [] then bytes "\n\n" else []) ++
      bytes "# Tools\n\nYou have access to the following functions:\n\n<tools>" ++
      tools.flatMap toolDeclaration ++
      bytes "\n</tools>\n\nIf you choose to call a function ONLY reply in the " ++
      bytes "following format with NO suffix:\n\n" ++
      callOpen ++ newline ++ functionOpen ++ bytes "example_function_name>\n" ++
      parameterOpen ++ bytes "example_parameter_1>\nvalue_1\n" ++ parameterClose ++ newline ++
      parameterOpen ++
      bytes "example_parameter_2>\nThis is the value for the second " ++
      bytes "parameter\nthat can span\nmultiple lines\n" ++
      parameterClose ++ newline ++ functionClose ++ newline ++ callClose ++
      bytes "\n\n<IMPORTANT>\n" ++
      bytes "Reminder:\n- Function calls MUST follow the specified format: an inner " ++
      bytes "<function=...></function> block must be nested within " ++
      bytes "<tool_call></tool_call> XML tags\n- Required parameters MUST be " ++
      bytes "specified\n- You may provide optional reasoning for your function call " ++
      bytes "in natural language BEFORE the function call, but NOT after\n- If " ++
      bytes "there is no function call available, answer the question like normal " ++
      bytes "with your current knowledge and do not tell the user about function " ++
      bytes "calls\n</IMPORTANT>"

def isSystem (message : ChatMessage) : Bool := message.role = .system ∨ message.role = .developer

/-- System and developer messages move to the front, in order, where one stands later. -/
def hoist (messages : List ChatMessage) : List ChatMessage :=
  if (messages.dropWhile isSystem).any isSystem then
    messages.filter isSystem ++ messages.filter fun m => !isSystem m
  else messages

/-- The content of the system turn so far, with one more message. Only the client's part of the
trimmed text is content. -/
def appendSystemContent (icu : Icu) (output : List Fragment) (message : ChatMessage) :
    List Fragment :=
  let untrimmed := message.content ++ message.framingSuffix
  let content := icu.trim untrimmed
  if content = [] then output
  else
    let start := (icu.trimBounds untrimmed).1
    let clientSize := min message.content.length (start + content.length) - start
    output ++ (if Fragment.rendered output ≠ [] then [framing newline] else []) ++
      [appendContent (content.take clientSize), framing (content.drop clientSize)]

def systemContent (icu : Icu) (messages : List ChatMessage) : List Fragment :=
  messages.foldl (appendSystemContent icu) []

def systemTurn (icu : Icu) (tools : List ChatTool) (options : ChatTemplateOptions)
    (messages : List ChatMessage) : List Fragment :=
  let content := systemContent icu messages
  let instructions := appendToolsPrompt (appendReasoningInstruction options) tools
  let gap :=
    if instructions ≠ [] ∧ Fragment.rendered content ≠ [] then bytes "\n\n" else []
  if instructions ++ gap ++ Fragment.rendered content = [] then []
  else
    [framing (imStart ++ bytes "system\n"), framing (instructions ++ gap)] ++ content ++
      [framing (imEnd ++ newline)]

/-! ## The conversation -/

/-- A user message that is no wrapped tool result. -/
def isQuery (icu : Icu) (message : ChatMessage) : Bool :=
  message.role = .user ∧
    ¬(message.images = [] ∧ toolResponseOpen <+: icu.trim message.content ∧
      toolResponseClose <:+ icu.trim message.content)

def lastUserIndex (icu : Icu) : List ChatMessage → Option Nat
  | [] => none
  | message :: rest =>
    match lastUserIndex icu rest with
    | some index => some (index + 1)
    | none => if isQuery icu message then some 0 else none

/-- What the loop over the messages reads. -/
structure Conversation where
  icu : Icu
  options : ChatTemplateOptions
  lastUserIndex : Nat
  finalUserTurn : Bool

structure Rendering where
  output : List Fragment := []
  imageOffsets : List Nat := []
  imageCount : Nat := 0
  mutableReasoning : Option Nat := none
  seenAssistant : Bool := false
  finalUserStart : Option Nat := none

namespace Rendering

/-- A tool result; the results of one group share a user turn. -/
def toolResult (c : Conversation) (firstOfGroup lastOfGroup : Bool) (message : ChatMessage)
    (s : Rendering) : Rendering :=
  let opened :=
    s.output ++ (if firstOfGroup then [framing (imStart ++ bytes "user\n")] else []) ++
      [framing (toolResponseOpen ++ newline)]
  let body := appendMessageContent c.icu c.options message s.imageCount (Fragment.size opened)
  { s with
    output := opened ++ body.fragments ++ [framing (newline ++ toolResponseClose)] ++
      [framing (if lastOfGroup then imEnd ++ newline else newline)]
    imageOffsets := s.imageOffsets ++ body.imageOffsets
    imageCount := body.imageCount }

/-- Where a later turn may change what was rendered before. -/
def marks (c : Conversation) (index : Nat) (message : ChatMessage) (s : Rendering) : Rendering :=
  let s :=
    if c.options.preserveThinking = false ∧ message.role = .assistant ∧ c.lastUserIndex < index ∧
        s.mutableReasoning = none then
      { s with mutableReasoning := some (Fragment.size s.output) }
    else s
  if message.role = .assistant then { s with seenAssistant := true }
  else if c.finalUserTurn ∧ s.seenAssistant ∧ index = c.lastUserIndex then
    { s with finalUserStart := some (Fragment.size s.output) }
  else s

def thinks (c : Conversation) (index : Nat) (message : ChatMessage) : Bool :=
  message.role = .assistant ∧ (c.options.preserveThinking ∨ c.lastUserIndex < index)

/-- The turn's opening line and its reasoning. -/
def turnOpening (c : Conversation) (index : Nat) (message : ChatMessage) : List Fragment :=
  framing (imStart ++ message.role.toString ++ newline) ::
    if thinks c index message then
      [framing (bytes "<think>\n"), appendContent (c.icu.trim message.thought),
        framing (bytes "\n</think>\n\n")]
    else []

def calls (message : ChatMessage) : List ToolCall :=
  if message.role = .assistant then message.toolCalls else []

/-- A turn that is no tool result. -/
def turn (c : Conversation) (index : Nat) (message : ChatMessage) (s : Rendering) :
    Except String Rendering :=
  let s := marks c index message s
  let opened := s.output ++ turnOpening c index message
  let body := appendMessageContent c.icu c.options message s.imageCount (Fragment.size opened)
  let toolCalls :=
    if calls message ≠ [] then
      (if body.hasContent then [framing (newline ++ newline)] else []) ++
        appendToolCalls (calls message)
    else []
  let output := opened ++ body.fragments ++ toolCalls ++ [framing (imEnd ++ newline)]
  if c.options.maxOutputBytes < Fragment.size output then
    .error "Prompt exceeded max output bytes during message rendering"
  else
    .ok { s with
      output := output
      imageOffsets := s.imageOffsets ++ body.imageOffsets
      imageCount := body.imageCount }

end Rendering

def isTool (message : ChatMessage) : Bool := message.role = .tool

/-- The loop over the messages from an index on; `inGroup` after a tool result. -/
def renderMessages (c : Conversation) :
    Nat → Bool → List ChatMessage → Rendering → Except String Rendering
  | _, _, [], s => .ok s
  | index, inGroup, message :: rest, s =>
    if isTool message then
      renderMessages c (index + 1) true rest
        (s.toolResult c (!inGroup) (!(rest.head?.any isTool)) message)
    else
      match s.turn c index message with
      | .error e => .error e
      | .ok s => renderMessages c (index + 1) false rest s

def generationPrompt (enableThinking : Bool) : Bytes :=
  imStart ++
    if enableThinking then bytes "assistant\n<think>\n"
    else bytes "assistant\n<think>\n\n</think>\n\n"

/-! ## The bound on the prompt -/

/-- Whether an image is out of place: in a turn that takes none, without data, or out of order. -/
def imagesInvalid (message : ChatMessage) (previous : Nat) : List ImagePart → Bool
  | [] => false
  | image :: images =>
    decide (message.role ≠ .user ∧ message.role ≠ .tool) || decide (image.bytes = none) ||
      decide (image.offset < previous) || decide (message.content.length < image.offset) ||
      imagesInvalid message image.offset images

def messageEstimate (message : ChatMessage) : Nat :=
  message.content.length + message.framingSuffix.length + message.thought.length + 32 +
    message.images.length * 64 +
    (message.toolCalls.map fun call => call.name.length + 64 +
      (call.arguments.map fun a => a.name.length + a.value.length + 40).sum).sum

def toolEstimate (tool : ChatTool) : Nat :=
  tool.name.length + tool.description.length + tool.parametersJson.length +
    2 * tool.definitionJson.length + 96

def estimatedLength (messages : List ChatMessage) (tools : List ChatTool)
    (options : ChatTemplateOptions) : Nat :=
  (messages.map messageEstimate).sum + (tools.map toolEstimate).sum +
    (if options.addGenerationPrompt then 64 else 0) + xHighReasoningInstruction.length + 64

/-- The last message is a text-only query behind a tool result or another user message. -/
def finalUserTurn (messages : List ChatMessage) (lastUser : Nat) : Bool :=
  lastUser + 1 = messages.length ∧ (messages.getLast?.all fun m => m.images = []) ∧
    2 ≤ messages.length ∧
    (messages[messages.length - 2]?.any fun m => m.role = .tool ∨ m.role = .user)

structure Rendered where
  output : List Fragment
  imageOffsets : List Nat
  stablePrefixBytes : Nat

/-- The rendered prompt: fragments, image offsets and the stable prefix. -/
def render (icu : Icu) (messages : List ChatMessage) (tools : List ChatTool)
    (options : ChatTemplateOptions) : Except String Rendered :=
  if messages = [] then .error "No messages provided"
  else
    let messages := hoist messages
    let estimated := estimatedLength messages tools options
    if messages.any fun m => imagesInvalid m 0 m.images then
      .error "invalid user or tool image content"
    else if options.maxOutputBytes < estimated ∨ 2 ^ 31 - 1 < estimated then
      .error ("Rendered prompt estimated length (" ++ Nat.repr estimated ++
        " bytes) exceeds maximum bound (" ++ Nat.repr options.maxOutputBytes ++ " bytes)")
    else
      let system := messages.takeWhile isSystem
      match lastUserIndex icu messages with
      | none => .error "No user query found in messages."
      | some lastUser =>
        match renderMessages ⟨icu, options, lastUser, finalUserTurn messages lastUser⟩
            system.length false (messages.dropWhile isSystem)
            { output := systemTurn icu tools options system } with
        | .error e => .error e
        | .ok s =>
          let size := Fragment.size s.output
          let output :=
            s.output ++
              if options.addGenerationPrompt then
                [framing (generationPrompt options.enableThinking)]
              else []
          if options.maxOutputBytes < Fragment.size output then
            .error "Prompt exceeded max output bytes after generation prompt"
          else
            .ok {
              output := output
              imageOffsets := s.imageOffsets
              stablePrefixBytes :=
                min (s.mutableReasoning.getD size) (s.finalUserStart.getD size) }

end Gufo.Chat
