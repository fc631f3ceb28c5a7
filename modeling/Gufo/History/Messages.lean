import Gufo.Chat.Template
import Gufo.Json.Value

/-!
# Reading a conversation

The three message parsers: Chat's messages, the items of Responses and the content
blocks of Messages. Each builds the same `ChatMessage`s. An error is its message;
the empty one stands for a refusal without any.
-/

namespace Gufo.History
open Gufo.Chat (ChatRole)
open Gufo.Json

structure ToolArgument where
  name : String
  value : String
  isString : Bool
  deriving DecidableEq, Repr

structure ToolCall where
  id : String
  name : String
  arguments : List ToolArgument := []
  deriving DecidableEq, Repr

inductive ImageDetail where
  | auto
  | low
  deriving DecidableEq

/-- An image before a byte of the content. -/
structure ImagePart (ι : Type) where
  offset : Nat
  image : ι
  detail : ImageDetail := .auto

structure ChatMessage (ι : Type) where
  role : ChatRole
  content : String := ""
  thought : String := ""
  name : String := ""
  toolCallId : String := ""
  images : List (ImagePart ι) := []
  toolCalls : List ToolCall := []

/-- `core::ReadImageUrl`: an image of type `ι`, taken from what the request's budget `β`
still allows, or the message of the exception. -/
abbrev ReadImageUrl (ι β : Type) := String → β → Except String (ι × β)

variable {ν ι β : Type}

/-! ## Tool calls -/

/-- One turn of the loop in `ArgumentsJson`: a value that is no JSON stays a string. -/
def addArgument (n : Numbers ν) (object : Value ν) (a : ToolArgument) : Value ν :=
  if a.isString then object.set a.name (.string a.value)
  else match parse n a.value with
    | .ok v => object.set a.name v
    | .error _ => object.set a.name (.string a.value)

/-- The arguments of a call as one object. -/
def argumentsObject (n : Numbers ν) (arguments : List ToolArgument) : Value ν :=
  arguments.foldl (addArgument n) (.object [])

def argumentsJson (n : Numbers ν) (arguments : List ToolArgument) : String :=
  (argumentsObject n arguments).dump n

/-- A member of an arguments object, spelled as the chat templates do. -/
def toolArgument (n : Numbers ν) (m : String × Value ν) : ToolArgument where
  name := m.1
  value := match m.2 with
    | .string s => s
    | v => v.tojson n
  isString := m.2.isString

def parseArguments (n : Numbers ν) (arguments : String) : Except String (List ToolArgument) :=
  match parse n arguments with
  | .error what => .error ("tool arguments are not valid JSON: " ++ what)
  | .ok parsed =>
    if parsed.isObject then .ok (parsed.members.map (toolArgument n))
    else .error "tool arguments must encode a JSON object"

def parseHistoricalFunction (n : Numbers ν) (id : String) (function : Value ν) :
    Except String ToolCall :=
  match function.find "name", function.find "arguments" with
  | some (.string name), some (.string arguments) =>
    if name = "" then
      .error "historical function calls require a non-empty name and string arguments"
    else if Char.ofNat 0 ∈ name.toList then
      .error "historical function names cannot contain NUL"
    else (parseArguments n arguments).map fun arguments => { id, name, arguments }
  | _, _ => .error "historical function calls require a non-empty name and string arguments"

/-! ## Chat -/

def isKnownRole (role : String) : Bool :=
  role = "system" ∨ role = "developer" ∨ role = "user" ∨ role = "assistant" ∨ role = "tool"

def parseRole (role : String) : ChatRole :=
  if role = "system" then .system
  else if role = "developer" then .developer
  else if role = "assistant" then .assistant
  else if role = "tool" then .tool
  else .user

def imageDetail (image : Value ν) : Except String ImageDetail :=
  match image.find "detail" with
  | none => .ok .auto
  | some (.string detail) =>
    if detail = "low" then .ok .low
    else if detail = "auto" ∨ detail = "high" ∨ detail = "original" then .ok .auto
    else .error "image_url.detail must be 'auto', 'low', 'high' or 'original'"
  | some _ => .error "image_url.detail must be 'auto', 'low', 'high' or 'original'"

def addImage (readImageUrl : ReadImageUrl ι β) (url : String) (detail : ImageDetail)
    (m : ChatMessage ι) (budget : β) : Except String (ChatMessage ι × β) :=
  (readImageUrl url budget).map fun (image, budget) =>
    ({ m with images := m.images ++ [⟨m.content.utf8ByteSize, image, detail⟩] }, budget)

def parseImageUrl (readImageUrl : ReadImageUrl ι β) (part : Value ν) (m : ChatMessage ι)
    (budget : β) : Except String (ChatMessage ι × β) :=
  match part.find "image_url" with
  | some (.object image) =>
    match (Value.object image).find "url" with
    | some (.string url) =>
      if m.role = .user ∨ m.role = .tool then do
        let detail ← imageDetail (Value.object image)
        addImage readImageUrl url detail m budget
      else .error "image_url requires a user or tool message and a string URL"
    | _ => .error "image_url requires a user or tool message and a string URL"
  | _ => .error "image_url requires a user or tool message and a string URL"

def parsePart (readImageUrl : ReadImageUrl ι β) (part : Value ν) (m : ChatMessage ι)
    (budget : β) : Except String (ChatMessage ι × β) :=
  if part.isObject = false then .error "message content parts must be objects"
  else
    let type := part.memberStr "type" "text"
    if type = "image_url" then parseImageUrl readImageUrl part m budget
    else if type ≠ "text" ∧ type ≠ "input_text" then
      .error "message content parts must use text or image_url"
    else match part.find "text" with
      | some (.string text) => .ok ({ m with content := m.content ++ text }, budget)
      | _ => .error "text message content parts require a string 'text'"

def parseContent (readImageUrl : ReadImageUrl ι β) (content : Option (Value ν))
    (m : ChatMessage ι) (budget : β) : Except String (ChatMessage ι × β) :=
  match content with
  | none | some .null => .ok (m, budget)
  | some (.string text) => .ok ({ m with content := text }, budget)
  | some (.array parts) =>
    parts.foldlM (fun (m, budget) part => parsePart readImageUrl part m budget) (m, budget)
  | some _ => .error "message content must be a string, null, or content-part array"

def parseToolCall (n : Numbers ν) (item : Value ν) : Except String ToolCall :=
  if item.isObject = false ∨ item.memberStr "type" "function" ≠ "function" then
    .error "only function tool calls are supported"
  else match item.find "function" with
    | some (.object function) =>
      parseHistoricalFunction n (item.memberStr "id") (.object function)
    | _ => .error "assistant tool calls require a function object"

def parseReasoning (value : Value ν) (m : ChatMessage ι) : Except String (ChatMessage ι) :=
  match value.find "reasoning_content" with
  | none | some .null => .ok m
  | some (.string reasoning) =>
    if m.role = .assistant then .ok { m with thought := reasoning }
    else .error "'reasoning_content' is only valid as a string on assistant messages"
  | some _ => .error "'reasoning_content' is only valid as a string on assistant messages"

def parseMessage (n : Numbers ν) (readImageUrl : ReadImageUrl ι β) (value : Value ν)
    (budget : β) : Except String (ChatMessage ι × β) :=
  if value.isObject = false then .error "each message must be an object"
  else
    let role := value.memberStr "role"
    if isKnownRole role = false then
      .error "message role must be system, developer, user, assistant, or tool"
    else do
      let m : ChatMessage ι :=
        { role := parseRole role
          name := value.memberStr "name"
          toolCallId := value.memberStr "tool_call_id" }
      let (m, budget) ← parseContent readImageUrl (value.find "content") m budget
      let m ← parseReasoning value m
      match value.find "tool_calls" with
      | none => .ok (m, budget)
      | some (.array items) =>
        if m.role = .assistant then do
          let calls ← items.mapM (parseToolCall n)
          return ({ m with toolCalls := calls }, budget)
        else .error "'tool_calls' is only valid as an array on assistant messages"
      | some _ => .error "'tool_calls' is only valid as an array on assistant messages"

/-! ## Responses -/

/-- A content part of Responses as one of Chat. -/
def convertPart (part : Value ν) : Except String (Value ν) :=
  let type := part.memberStr "type"
  if type = "input_image" then
    match part.find "image_url" with
    | some (.string url) =>
      if (part.find "file_id").isSome then .error "input_image requires an image_url"
      else
        let image := Value.object [("url", .string url)]
        let image := match part.find "detail" with
          | some detail => image.set "detail" detail
          | none => image
        .ok (.object [("type", .string "image_url"), ("image_url", image)])
    | _ => .error "input_image requires an image_url"
  else if type = "input_text" ∨ type = "output_text" then .ok (part.set "type" (.string "text"))
  else if type = "text" then .ok part
  else .error "unsupported Responses input content type"

def convertContent (item : Value ν) : Except String (Value ν) :=
  match item.find "content" with
  | some (.array parts) => do
    let content ← parts.mapM convertPart
    return item.set "content" (.array content)
  | _ => .ok item

/-- A custom call carries one free-form input, kept as its only argument. -/
def customFunction (n : Numbers ν) (item : Value ν) : Except String (Value ν) :=
  match item.find "input" with
  | some (.string input) =>
    .ok (item.set "arguments" (.string ((Value.object [("input", .string input)]).dump n)))
  | _ => .error "historical custom tool calls require string input"

def isCallItem (kind : String) : Bool := kind = "function_call" ∨ kind = "custom_tool_call"

def isOutputItem (kind : String) : Bool :=
  kind = "function_call_output" ∨ kind = "custom_tool_call_output"

def parseOpenAiResponseMessage (n : Numbers ν) (readImageUrl : ReadImageUrl ι β) (item : Value ν)
    (budget : β) : Except String (ChatMessage ι × β) :=
  let kind := item.memberStr "type"
  if isCallItem kind ∨ isOutputItem kind then
    match item.find "call_id" with
    | some (.string id) =>
      if id = "" then .error "function items require a nonempty call_id"
      else if isCallItem kind then do
        let function ← if kind = "custom_tool_call" then customFunction n item else .ok item
        let call ← parseHistoricalFunction n id function
        return ({ role := .assistant, toolCalls := [call] }, budget)
      else
        match item.find "output" with
        | some (.string output) =>
          parseMessage n readImageUrl (.object [("role", .string "tool"),
            ("tool_call_id", .string id), ("content", .string output)]) budget
        | some (.array output) => do
          let converted ← convertContent (.object [("role", .string "tool"),
            ("tool_call_id", .string id), ("content", .array output)])
          parseMessage n readImageUrl converted budget
        | _ => .error "function output requires a string or content array"
    | _ => .error "function items require a nonempty call_id"
  else do
    let converted ← convertContent item
    parseMessage n readImageUrl converted budget

/-! ## Messages -/

def parseAnthropicImage (readImageUrl : ReadImageUrl ι β) (block : Value ν) (m : ChatMessage ι)
    (budget : β) : Except String (ChatMessage ι × β) :=
  let source := match block.find "source" with
    | some (.object source) => Value.object source
    | _ => Value.object []
  if source.memberStr "type" = "base64" then
    match source.find "media_type", source.find "data" with
    | some (.string media), some (.string data) =>
      addImage readImageUrl ("data:" ++ media ++ ";base64," ++ data) .auto m budget
    | _, _ => .error "base64 image sources require string media_type and data"
  else if source.memberStr "type" = "url" then
    match source.find "url" with
    | some (.string url) => addImage readImageUrl url .auto m budget
    | _ => .error "url image sources require a string url"
  else .error "image blocks require a base64 or url source"

/-- One part of `ReadTextContent`; only an assistant's text carries thinking, and only a
user's carries images. -/
def readTextPart (readImageUrl : ReadImageUrl ι β) (part : Value ν) (m : ChatMessage ι)
    (budget : β) : Except String (ChatMessage ι × β) :=
  let type := part.memberStr "type"
  if m.role = .assistant ∧ part.isObject ∧ type = "thinking" then
    match part.find "thinking" with
    | some (.string thinking) => .ok ({ m with thought := m.thought ++ thinking }, budget)
    | _ => .error ""
  else if m.role = .user ∧ part.isObject ∧ type = "image" then
    parseAnthropicImage readImageUrl part m budget
  else match part.find "text" with
    | some (.string text) =>
      if type ≠ "text" ∧ type ≠ "input_text" ∧ type ≠ "output_text" then .error ""
      else .ok ({ m with content := m.content ++ text }, budget)
    | _ => .error ""

def readTextContent (readImageUrl : ReadImageUrl ι β) (content : Option (Value ν))
    (m : ChatMessage ι) (budget : β) : Except String (ChatMessage ι × β) :=
  match content with
  | some (.string text) => .ok ({ m with content := text }, budget)
  | some (.array parts) =>
    parts.foldlM (fun (m, budget) part => readTextPart readImageUrl part m budget) (m, budget)
  | _ => .error ""

def readText (part : Value ν) (m : ChatMessage ι) : Except String (ChatMessage ι) :=
  if part.memberStr "type" ≠ "text" then .error "unsupported Messages content block"
  else match part.find "text" with
    | some (.string text) => .ok { m with content := m.content ++ text }
    | _ => .error "unsupported Messages content block"

def readToolUse (n : Numbers ν) (part : Value ν) : Except String ToolCall :=
  match part.find "id", part.find "input" with
  | some (.string id), some (.object input) =>
    if id = "" then .error "tool_use blocks require a non-empty id and an object input"
    else
      let arguments : Value ν := .string ((Value.object input).dump n)
      parseHistoricalFunction n id (match part.find "name" with
        | some name => .object [("name", name), ("arguments", arguments)]
        | none => .object [("arguments", arguments)])
  | _, _ => .error "tool_use blocks require a non-empty id and an object input"

/-- One block of an assistant's turn. -/
def readAssistantBlock (n : Numbers ν) (part : Value ν) (m : ChatMessage ι) :
    Except String (ChatMessage ι) :=
  let type := part.memberStr "type"
  if type = "thinking" then
    match part.find "thinking" with
    | some (.string thinking) => .ok { m with thought := m.thought ++ thinking }
    | _ => .error "thinking blocks require thinking text"
  else if type = "tool_use" then
    (readToolUse n part).map fun call => { m with toolCalls := m.toolCalls ++ [call] }
  else readText part m

/-- User text and tool results may also carry images. -/
def readUserPart (readImageUrl : ReadImageUrl ι β) (part : Value ν) (m : ChatMessage ι)
    (budget : β) : Except String (ChatMessage ι × β) :=
  if part.isObject ∧ part.memberStr "type" = "image" then
    parseAnthropicImage readImageUrl part m budget
  else (readText part m).map fun m => (m, budget)

/-- What a user turn has been read into: its results, and the text that follows them. -/
structure UserTurn (ι β : Type) where
  messages : List (ChatMessage ι)
  text : Option (ChatMessage ι)
  budget : β

def readUserBlock (readImageUrl : ReadImageUrl ι β) (part : Value ν) (t : UserTurn ι β) :
    Except String (UserTurn ι β) :=
  if part.isObject = false ∨ part.memberStr "type" ≠ "tool_result" then do
    let (text, budget) ←
      readUserPart readImageUrl part (t.text.getD { role := .user }) t.budget
    return { t with text, budget }
  else
    let messages := t.messages ++ t.text.toList
    let flagged := match part.find "is_error" with
      | none | some (.bool _) => true
      | some _ => false
    match part.find "tool_use_id" with
    | some (.string id) =>
      if id = "" ∨ flagged = false then .error "tool_result blocks require a non-empty tool_use_id"
      else
        let result : ChatMessage ι := { role := .tool, toolCallId := id }
        match part.find "content" with
        | none => .ok { t with messages := messages ++ [result], text := none }
        | some (.string output) =>
          .ok { t with messages := messages ++ [{ result with content := output }], text := none }
        | some (.array blocks) => do
          let (result, budget) ← blocks.foldlM (fun (m, budget) block =>
            readUserPart readImageUrl block m budget) (result, t.budget)
          return { messages := messages ++ [result], text := none, budget }
        | some _ => .error "tool_result content must be a string, text or image blocks"
    | _ => .error "tool_result blocks require a non-empty tool_use_id"

def parseAnthropicToolMessage (n : Numbers ν) (readImageUrl : ReadImageUrl ι β) (item : Value ν)
    (budget : β) : Except String (List (ChatMessage ι) × β) :=
  let role := item.memberStr "role"
  match item.find "content" with
  | some (.array content) =>
    if role = "assistant" then do
      let m ← content.foldlM (fun m part => readAssistantBlock n part m)
        ({ role := .assistant } : ChatMessage ι)
      return ([m], budget)
    else if role = "user" then do
      let t ← content.foldlM (fun t part => readUserBlock readImageUrl part t)
        ({ messages := [], text := none, budget } : UserTurn ι β)
      return (t.messages ++ t.text.toList, t.budget)
    else .error "tool blocks require a user or assistant content array"
  | _ => .error "tool blocks require a user or assistant content array"

/-! ## Responses and Messages -/

/-- The messages read so far, and the system items that wait for the next message. -/
structure Conversation (ι β : Type) where
  messages : List (ChatMessage ι) := []
  deferred : List (ChatMessage ι) := []
  budget : β

namespace Conversation

def push (c : Conversation ι β) (m : ChatMessage ι) : Conversation ι β :=
  { c with messages := c.messages ++ c.deferred ++ [m], deferred := [] }

/-- Replaces the last message. -/
def amend (c : Conversation ι β) (f : ChatMessage ι → ChatMessage ι) : Conversation ι β :=
  { c with messages := c.messages.modifyLast f }

end Conversation

def hasToolBlock (item : Value ν) : Bool :=
  item.isObject && match item.find "content" with
    | some (.array parts) => parts.any fun part => part.isObject &&
        (part.memberStr "type" = "tool_use" || part.memberStr "type" = "tool_result")
    | _ => false

/-- Null-valued content and encrypted content are as good as none. -/
def absent (v : Option (Value ν)) : Bool :=
  match v with
  | none | some .null => true
  | some _ => false

def readSummaryPart (thought : String) (part : Value ν) : Except String String :=
  match part.find "text" with
  | some (.string text) =>
    if part.memberStr "type" = "summary_text" then .ok (thought ++ text) else .error ""
  | _ => .error ""

def readReasoningItem (item : Value ν) : Except String (ChatMessage ι) :=
  match item.find "summary" with
  | some (.array parts) =>
    if absent (item.find "encrypted_content") ∧ absent (item.find "content") then
      (parts.foldlM readSummaryPart "").map fun thought => { role := .assistant, thought }
    else .error ""
  | _ => .error ""

def isMessageItem (item : Value ν) : Bool :=
  let role := item.memberStr "role"
  item.isObject && (role = "user" || role = "assistant" || role = "system" || role = "developer") &&
    item.memberStr "type" "message" = "message" && (item.find "tool_calls").isNone

/-- One item of `ReadTextMessages`. -/
def readItem (n : Numbers ν) (readImageUrl : ReadImageUrl ι β) (responses : Bool)
    (c : Conversation ι β) (item : Value ν) : Except String (Conversation ι β) :=
  let kind := item.memberStr "type"
  if responses = false ∧ hasToolBlock item then do
    let (messages, budget) ← parseAnthropicToolMessage n readImageUrl item c.budget
    return { c with messages := c.messages ++ messages, budget }
  else if responses ∧ (isCallItem kind ∨ isOutputItem kind) then do
    let (m, budget) ← parseOpenAiResponseMessage n readImageUrl item c.budget
    let c := { c with budget }
    match m.role, c.messages.getLast? with
    | .assistant, some last =>
      if last.role = .assistant then
        return c.amend fun last => { last with toolCalls := last.toolCalls ++ m.toolCalls }
      else return c.push m
    | _, _ => return c.push m
  else if responses ∧ kind = "reasoning" then
    (readReasoningItem item).map c.push
  else if isMessageItem item = false then .error ""
  else do
    let role := parseRole (item.memberStr "role")
    let (m, budget) ←
      if responses then parseOpenAiResponseMessage n readImageUrl item c.budget
      else readTextContent readImageUrl (item.find "content") ({ role } : ChatMessage ι) c.budget
    let c := { c with budget }
    match c.messages.getLast? with
    | some last =>
      if responses ∧ (m.role = .system ∨ m.role = .developer) ∧ last.role = .assistant then
        return { c with deferred := c.deferred ++ [m] }
      else if responses ∧ m.role = .assistant ∧ last.role = .assistant ∧ last.content = "" ∧
          last.thought ≠ "" then
        return c.amend fun last => { last with content := m.content }
      else return c.push m
    | none => return c.push m

def readTextMessages (n : Numbers ν) (readImageUrl : ReadImageUrl ι β) (responses : Bool)
    (input : Option (Value ν)) (budget : β) : Except String (List (ChatMessage ι)) :=
  match input with
  | some (.array (item :: items)) => do
    let c ← (item :: items).foldlM (readItem n readImageUrl responses)
      ({ budget } : Conversation ι β)
    return c.messages ++ c.deferred
  | _ => .error ""

end Gufo.History
