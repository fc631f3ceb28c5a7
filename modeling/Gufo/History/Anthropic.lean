import Gufo.History.Responses

/-!
# The content blocks of Messages

What the blocks of a turn show, and what the two parsers of an assistant's content
make of them.
-/

namespace Gufo.History
open Gufo.Chat (ChatRole)
open Gufo.Json Gufo.Json.Value Gufo.Outcome

variable {ν ι β : Type} {n : Numbers ν}

inductive Block (ν : Type) where
  | text (reasoning : Bool) (text : String)
  | use (call : ParsedToolCall) (input : List (String × Value ν))

namespace Block

def json : Block ν → Value ν
  | .text true t =>
    .object [("type", .string "thinking"), ("thinking", .string t), ("signature", .string "")]
  | .text false t => .object [("type", .string "text"), ("text", .string t)]
  | .use call input => .object [("type", .string "tool_use"), ("id", .string call.id),
      ("name", .string call.name), ("input", .object input)]

/-- An input is read back as it stands. -/
def Fits : Block ν → Prop
  | .text _ _ => True
  | .use _ input => Plain 127 input

/-- What a message becomes behind the block. -/
def take (n : Numbers ν) (m : ChatMessage ι) : Block ν → ChatMessage ι
  | .text true t => { m with thought := m.thought ++ t }
  | .text false t => { m with content := m.content ++ t }
  | .use call input => { m with toolCalls := m.toolCalls ++
      [{ id := call.id, name := call.name, arguments := input.map (toolArgument n) }] }

def isUse : Block ν → Bool
  | .use _ _ => true
  | .text _ _ => false

theorem take_role (m : ChatMessage ι) (b : Block ν) : (b.take n m).role = m.role := by
  cases b with
  | text reasoning t => cases reasoning <;> rfl
  | use call input => rfl

end Block

/-! ## Reading -/

section
variable (lawful : n.Lawful)
include lawful

theorem readAssistantBlock_json {b : Block ν} (fits : b.Fits) (m : ChatMessage ι) :
    readAssistantBlock n b.json m = .ok (b.take n m) := by
  cases b with
  | text reasoning t =>
    cases reasoning <;> simp [readAssistantBlock, Block.json, memberStr, readText, Block.take]
  | use call input =>
    have named := parseHistoricalFunction_named (n := n) call.id ((Value.object input).dump n)
      (.object [("name", .string call.name), ("arguments", .string ((Value.object input).dump n))])
      rfl rfl call.renderable
    rw [parseArguments_object lawful fits] at named
    simp [readAssistantBlock, Block.json, memberStr, readToolUse, call.identified, named,
      Block.take, Except.map]

theorem readBlocks_json {blocks : List (Block ν)} (fits : ∀ b ∈ blocks, b.Fits)
    (m : ChatMessage ι) :
    (blocks.map Block.json).foldlM (fun m part => readAssistantBlock n part m) m =
      .ok (blocks.foldl (Block.take n) m) := by
  induction blocks generalizing m with
  | nil => rfl
  | cons b blocks ih =>
    rw [List.map_cons, List.foldlM_cons, readAssistantBlock_json lawful (fits b (by simp)), ok_bind,
      ih fun b mem => fits b (by simp [mem]), List.foldl_cons]

end

theorem readTextParts_json {blocks : List (Block ν)} (texts : ∀ b ∈ blocks, b.isUse = false)
    (readImageUrl : ReadImageUrl ι β) {m : ChatMessage ι} (role : m.role = .assistant)
    (budget : β) :
    (blocks.map Block.json).foldlM
        (fun (m, budget) part => readTextPart readImageUrl part m budget) (m, budget) =
      .ok (blocks.foldl (Block.take n) m, budget) := by
  induction blocks generalizing m with
  | nil => rfl
  | cons b blocks ih =>
    have read : readTextPart readImageUrl b.json m budget = .ok (b.take n m, budget) := by
      cases b with
      | text reasoning t =>
        cases reasoning <;> simp [readTextPart, Block.json, memberStr, role, Block.take]
      | use call input => simp [Block.isUse] at texts
    rw [List.map_cons, List.foldlM_cons]
    simp only [read, ok_bind]
    rw [ih (fun b mem => texts b (by simp [mem])) ((Block.take_role m b).trans role),
      List.foldl_cons]

theorem hasToolBlock_message (blocks : List (Block ν)) :
    hasToolBlock (anthropicMessage (blocks.map Block.json)) = blocks.any Block.isUse := by
  have part : ∀ b : Block ν, (b.json.isObject && (b.json.memberStr "type" = "tool_use" ||
      b.json.memberStr "type" = "tool_result")) = b.isUse := by
    intro b
    cases b with
    | text reasoning t => cases reasoning <;> simp [Block.json, memberStr, Block.isUse]
    | use call input => simp [Block.json, memberStr, Block.isUse]
  simp only [hasToolBlock, anthropicMessage, isObject_object, find_cons, find_nil]
  simp [List.any_map]
  exact congrArg blocks.any (funext part)

/-- A turn sent back is one message. -/
theorem readItem_blocks (lawful : n.Lawful) (readImageUrl : ReadImageUrl ι β)
    {blocks : List (Block ν)} (fits : ∀ b ∈ blocks, b.Fits) {c : Conversation ι β}
    (quiet : c.deferred = []) :
    readItem n readImageUrl false c (anthropicMessage (blocks.map Block.json)) =
      .ok (c.push (blocks.foldl (Block.take n) { role := .assistant })) := by
  have role : (anthropicMessage (blocks.map Block.json)).memberStr "role" = "assistant" := by
    simp [anthropicMessage, memberStr]
  have content : (anthropicMessage (blocks.map Block.json)).find "content" =
      some (.array (blocks.map Block.json)) := by
    simp [anthropicMessage]
  have tools := hasToolBlock_message blocks
  cases any : blocks.any Block.isUse with
  | true =>
    rw [any] at tools
    simp only [readItem, tools, and_self, if_true, parseAnthropicToolMessage, content, role,
      readBlocks_json lawful fits]
    simp [Conversation.push, quiet]
  | false =>
    rw [any] at tools
    have texts : ∀ b ∈ blocks, b.isUse = false := by simpa using any
    have isMessage : isMessageItem (anthropicMessage (blocks.map Block.json)) = true := by
      simp [isMessageItem, anthropicMessage, memberStr]
    have assistant : parseRole "assistant" = .assistant := by decide
    have read := readTextParts_json (n := n) texts readImageUrl
      (m := ({ role := .assistant } : ChatMessage ι)) rfl c.budget
    simp only [readItem, tools, isMessage, content, role, assistant, readTextContent, read, ok_bind]
    cases c.messages.getLast? <;> simp

/-! ## Writing -/

variable {o : AnthropicOutput ν}

namespace AnthropicOutput

/-- The blocks so far, with the text block still open. -/
def shown (o : AnthropicOutput ν) : List (Value ν) :=
  o.content ++ if o.active then [o.block] else []

theorem shown_idle (idle : o.active = false) : o.shown = o.content := by
  simp [shown, idle]

theorem block_json (o : AnthropicOutput ν) : o.block = (Block.text o.reasoning o.text).json := by
  cases h : o.reasoning <;> simp [block, h, Block.json]

theorem closeBlock_shown (o : AnthropicOutput ν) :
    o.closeBlock.shown = o.shown ∧ o.closeBlock.active = false ∧ o.closeBlock.content = o.shown ∧
      o.closeBlock.held = "" ∧ o.closeBlock.tool = o.tool := by
  cases active : o.active
  all_goals simp [closeBlock, shown, active, block]

theorem closeTool_null {complete : Bool} (null : o.tool = .null) :
    o.closeTool n complete = .ok o := by
  simp [closeTool, null, isNull]

theorem closeTool_cut {call : ParsedToolCall}
    (tool : o.tool = (Block.use call []).json) :
    o.closeTool n false =
      .ok { o with content := o.content ++ [(Block.use call []).json], tool := .null } := by
  simp [closeTool, tool, Block.json, isNull]

theorem closeTool_complete {call : ParsedToolCall} {input : List (String × Value ν)}
    (tool : o.tool = (Block.use call []).json)
    (read : parse n o.toolArguments = .ok (.object input)) :
    o.closeTool n true =
      .ok { o with content := o.content ++ [(Block.use call input).json], tool := .null,
                   toolUse := true } := by
  simp [closeTool, tool, Block.json, isNull, read, Value.set, setMember, members]

/-- What the end of a call does. -/
def finish (n : Numbers ν) (complete : Bool) (o : AnthropicOutput ν) :
    Except String (AnthropicOutput ν) :=
  if complete then o.closeTool n true else .ok o

theorem addTool_following (complete : Bool) (rest : List String) (o : AnthropicOutput ν)
    (nonempty : rest ≠ []) :
    (StreamedCall.following complete rest).foldlM (fun o delta => o.addTool n delta) o =
      finish n complete { o with toolArguments := o.toolArguments ++ String.join rest } := by
  induction rest generalizing o with
  | nil => exact absurd rfl nonempty
  | cons piece rest ih =>
    rw [StreamedCall.following, List.foldlM_cons, String.join_cons, ← String.append_assoc]
    cases rest with
    | nil =>
      simp [addTool, StreamedCall.following, finish]
    | cons next rest =>
      simp only [addTool, List.isEmpty_cons, Bool.and_false, Bool.false_eq_true, if_false, ok_bind]
      exact ih _ (by simp)

theorem addTool_deltas (c : StreamedCall n) (o : AnthropicOutput ν) :
    c.deltas.foldlM (fun o delta => o.addTool n delta) o =
      finish n c.complete { o.closeBlock with
        tool := (Block.use c.toParsedToolCall []).json
        toolArguments := c.text } := by
  have named : c.id ≠ "" := c.identified
  rw [StreamedCall.deltas, List.foldlM_cons, StreamedCall.text]
  cases rest : c.rest with
  | nil =>
    simp [addTool, named, StreamedCall.following, finish, Block.json]
  | cons piece pieces =>
    have first :
        o.addTool n
          { id := c.id, name := c.name, arguments := c.first,
            complete := c.complete && (piece :: pieces).isEmpty } =
        .ok { o.closeBlock with
          tool := (Block.use c.toParsedToolCall []).json
          toolArguments := c.first } := by
      simp [addTool, named, Block.json]
    rw [first, ok_bind, addTool_following _ _ _ (by simp)]

end AnthropicOutput

/-! ## Any turn -/

theorem parse_complete (lawful : n.Lawful) {c : StreamedCall n} (complete : c.complete = true)
    (shallow : Shallow n c.arguments) :
    ∃ input, Plain 127 input ∧ argumentsObject n c.arguments = .object input ∧
      parse n c.text = .ok (.object input) := by
  obtain ⟨input, object, plain⟩ := argumentsObject_plain shallow
  refine ⟨input, plain, object, ?_⟩
  rw [StreamedCall.text, c.whole complete, argumentsJson, object]
  exact parse_dump lawful ⟨plain.nodup, plain.distinct⟩ (Nat.succ_le_succ plain.deep)

/-- What any turn's blocks have in common. -/
structure Sound (o : AnthropicOutput ν) : Prop where
  content : ∃ blocks : List (Block ν), (∀ b ∈ blocks, b.Fits) ∧ o.content = blocks.map Block.json
  tool : o.tool = .null ∨ ∃ call, o.tool = (Block.use call []).json

namespace Sound

theorem of_eq {o o' : AnthropicOutput ν} (h : Sound o) (content : o'.content = o.content)
    (tool : o'.tool = o.tool) : Sound o' :=
  ⟨by rw [content]; exact h.content, by rw [tool]; exact h.tool⟩

theorem add {o o' : AnthropicOutput ν} (h : Sound o) {b : Block ν} (fits : b.Fits)
    (content : o'.content = o.content ++ [b.json])
    (tool : o'.tool = .null ∨ ∃ call, o'.tool = (Block.use call []).json) : Sound o' := by
  obtain ⟨blocks, all, eq⟩ := h.content
  refine ⟨⟨blocks ++ [b], ?_, by simp [content, eq]⟩, tool⟩
  intro x mem
  rcases List.mem_append.mp mem with mem | mem
  · exact all x mem
  · rw [List.mem_singleton.mp mem]
    exact fits

theorem closeBlock (h : Sound o) : Sound o.closeBlock := by
  obtain ⟨-, -, content, -, tool⟩ := o.closeBlock_shown
  cases active : o.active with
  | false =>
    refine h.of_eq ?_ tool
    rw [content, AnthropicOutput.shown, active]
    simp
  | true =>
    refine h.add (b := .text o.reasoning o.text) trivial ?_ (by rw [tool]; exact h.tool)
    rw [content, AnthropicOutput.shown, active, ← AnthropicOutput.block_json]
    rfl

theorem closeTool (h : Sound o) :
    ∃ o', o.closeTool n false = .ok o' ∧ Sound o' := by
  rcases h.tool with null | ⟨call, tool⟩
  · exact ⟨o, AnthropicOutput.closeTool_null null, h⟩
  · exact ⟨_, AnthropicOutput.closeTool_cut tool,
      h.add (b := .use call []) ⟨by simp, trivial, Nat.zero_le _⟩ rfl (.inl rfl)⟩

theorem addText (h : Sound o) (text : String) (reasoning : Bool) :
    Sound (o.addText text reasoning) := by
  refine h.of_eq ?_ ?_
  all_goals
    unfold AnthropicOutput.addText
    split
    · rfl
    · split <;> rfl

theorem addThinking (h : Sound o) (text : String) :
    Sound (o.addThinking text) := by
  unfold AnthropicOutput.addThinking
  dsimp only
  generalize (if o.active = false ∨ o.reasoning = false then trimLeading text else text) = text
  split
  · exact h.of_eq rfl rfl
  · have held : Sound { o with held := trailing text } := h.of_eq rfl rfl
    exact held.addText _ _

theorem addPiece (h : Sound o) (text : String) (reasoning : Bool) :
    Sound (o.addPiece text reasoning) := by
  have closed : Sound (if o.active = false ∨ o.reasoning ≠ reasoning then o.closeBlock else o) := by
    split
    · exact h.closeBlock
    · exact h
  unfold AnthropicOutput.addPiece
  dsimp only
  split
  · exact closed.addThinking text
  · exact closed.addText text false

theorem append (h : Sound o) (text : String) (reasoning : Bool) :
    ∃ o', o.append n text reasoning = .ok o' ∧ Sound o' := by
  unfold AnthropicOutput.append
  split
  · exact ⟨_, rfl, h.addPiece text reasoning⟩
  · obtain ⟨o', closed, h'⟩ := h.closeTool (n := n)
    exact ⟨_, by rw [closed]; rfl, h'.addPiece text reasoning⟩

theorem call (lawful : n.Lawful) (h : Sound o) (c : StreamedCall n)
    (shallow : c.complete = true → Shallow n c.arguments) :
    ∃ o', c.deltas.foldlM (fun o delta => o.addTool n delta) o = .ok o' ∧ Sound o' := by
  rw [AnthropicOutput.addTool_deltas]
  have opened : Sound { o.closeBlock with
      tool := (Block.use c.toParsedToolCall []).json
      toolArguments := c.text } := ⟨h.closeBlock.content, .inr ⟨_, rfl⟩⟩
  cases complete : c.complete with
  | false => exact ⟨_, rfl, opened⟩
  | true =>
    obtain ⟨input, plain, -, read⟩ := parse_complete lawful complete (shallow complete)
    have closed := AnthropicOutput.closeTool_complete (n := n) 
      (o := { o.closeBlock with
        tool := (Block.use c.toParsedToolCall []).json
        toolArguments := c.text }) rfl read
    exact ⟨_, closed, opened.add (b := .use c.toParsedToolCall input) plain rfl (.inl rfl)⟩

theorem segment (lawful : n.Lawful) (h : Sound o) (s : Segment n)
    (shallow : ∀ id c, s = Segment.call id c → c.complete = true → Shallow n c.arguments) :
    ∃ o', o.segment s = .ok o' ∧ Sound o' := by
  cases s with
  | text id piece reasoning logprobs => exact h.append piece reasoning
  | call id c => exact h.call lawful c (shallow id c rfl)

theorem run (lawful : n.Lawful) (h : Sound o) {segments : List (Segment n)}
    (shallow : ∀ id c, Segment.call id c ∈ segments → c.complete = true → Shallow n c.arguments) :
    ∃ o', segments.foldlM AnthropicOutput.segment o = .ok o' ∧ Sound o' := by
  induction segments generalizing o with
  | nil => exact ⟨o, rfl, h⟩
  | cons s segments ih =>
    obtain ⟨o₁, step, h₁⟩ := h.segment lawful s fun id c same =>
      shallow id c (same ▸ List.mem_cons_self)
    obtain ⟨o₂, rest, h₂⟩ := ih h₁ fun id c mem => shallow id c (List.mem_cons_of_mem s mem)
    exact ⟨o₂, by rw [List.foldlM_cons, step, ok_bind, rest], h₂⟩

theorem complete (h : Sound o) :
    ∃ blocks : List (Block ν), (∀ b ∈ blocks, b.Fits) ∧
      o.complete n = .ok (blocks.map Block.json) := by
  obtain ⟨o₁, closed, h₁⟩ := h.closeTool (n := n)
  obtain ⟨blocks, fits, eq⟩ := h₁.closeBlock.content
  simp only [AnthropicOutput.complete, closed, ok_bind]
  generalize o₁.closeBlock = o₂ at eq ⊢
  split
  · rename_i empty
    refine ⟨[.text false ""], by simp [Block.Fits], ?_⟩
    simp [AnthropicOutput.closeBlock, AnthropicOutput.block, Block.json, empty]
  · exact ⟨blocks, fits, by rw [← eq]; rfl⟩

end Sound

/-- The content of any turn is made of blocks that are read back. -/
theorem anthropicContent_blocks (lawful : n.Lawful) {segments : List (Segment n)}
    (shallow : ∀ id c, Segment.call id c ∈ segments → c.complete = true → Shallow n c.arguments) :
    ∃ blocks : List (Block ν), (∀ b ∈ blocks, b.Fits) ∧
      anthropicContent segments = .ok (blocks.map Block.json) := by
  have start : Sound ({} : AnthropicOutput ν) := ⟨⟨[], by simp, rfl⟩, .inl rfl⟩
  obtain ⟨o, ran, h⟩ := start.run lawful shallow
  obtain ⟨blocks, fits, done⟩ := h.complete (n := n)
  exact ⟨blocks, fits, by rw [anthropicContent, ran, ok_bind, done]⟩

/-! ## Whitespace -/

theorem trimTrailing_trailing (s : String) : trimTrailing s ++ trailing s = s := by
  rw [trimTrailing, trailing, ← String.ofList_append, List.rdropWhile_append_rtakeWhile,
    String.ofList_toList]

theorem trimLeading_append (a b : String) :
    trimLeading (a ++ b) = if trimLeading a = "" then trimLeading b else trimLeading a ++ b := by
  simp only [trimLeading, String.toList_append, List.dropWhile_append, String.ofList_eq_empty_iff,
    List.isEmpty_iff]
  split
  · rfl
  · rw [String.ofList_append, String.ofList_toList]

theorem trimTrailing_append (a b : String) :
    trimTrailing (a ++ b) =
      if trimTrailing b = "" then trimTrailing a else a ++ trimTrailing b := by
  simp only [trimTrailing, String.toList_append, List.rdropWhile, List.reverse_append,
    List.dropWhile_append, String.ofList_eq_empty_iff, List.isEmpty_iff, List.reverse_eq_nil_iff]
  split
  · rfl
  · rw [List.reverse_append, List.reverse_reverse, String.ofList_append, String.ofList_toList]

/-- What is left of a text without its leading whitespace does not begin with any. -/
theorem trimLeading_blank {s : String} (h : trimTrailing (trimLeading s) = "") :
    trimLeading s = "" := by
  simp only [trimTrailing, trimLeading, String.toList_ofList, String.ofList_eq_empty_iff,
    List.rdropWhile_eq_nil_iff] at h ⊢
  by_contra nonempty
  have space := h _ (List.head_mem nonempty)
  exact Bool.false_ne_true ((List.head_dropWhile_not isSpace nonempty).symm.trans space)

/-- A text without the whitespace around it. -/
def trimmed (s : String) : String := trimTrailing (trimLeading s)

/-! ## A turn that finished normally -/

/-- The builder behind reasoning alone. -/
structure Thinking (o : AnthropicOutput ν) (spoken : String) : Prop where
  content : o.content = []
  tool : o.tool = .null
  open_ : (o.active = false ∧ o.held = "" ∧ trimLeading spoken = "") ∨
    (o.active = true ∧ o.reasoning = true ∧ trimLeading spoken ≠ "" ∧
      o.text ++ o.held = trimLeading spoken ∧ o.text = trimmed spoken)

theorem append_null (null : o.tool = .null) (text : String)
    (reasoning : Bool) : o.append n text reasoning = .ok (o.addPiece text reasoning) := by
  simp [AnthropicOutput.append, AnthropicOutput.closeTool_null null, Except.map]

theorem Thinking.step {spoken : String} (h : Thinking o spoken)
    (piece : String) : Thinking (o.addPiece piece true) (spoken ++ piece) := by
  rcases h.open_ with ⟨idle, held, blank⟩ | ⟨active, reasoning, started, all, text⟩
  · have closed : o.closeBlock = o := by
      obtain ⟨content, tool, arguments, text, held', active, reasoning, use⟩ := o
      subst idle held
      rfl
    have fresh : trimLeading (spoken ++ piece) = trimLeading piece := by
      rw [trimLeading_append, if_pos blank]
    simp only [AnthropicOutput.addPiece, idle, true_or, if_true, closed,
      AnthropicOutput.addThinking, held, String.empty_append]
    by_cases silent : trimTrailing (trimLeading piece) = ""
    · have nothing := trimLeading_blank silent
      rw [if_pos silent, nothing]
      exact ⟨h.content, h.tool, .inl ⟨rfl, rfl, fresh.trans nothing⟩⟩
    · have some_ : trimLeading piece ≠ "" := by
        intro nothing
        rw [nothing] at silent
        exact silent rfl
      simp only [AnthropicOutput.addText, if_neg silent, true_or, if_true, String.empty_append]
      refine ⟨h.content, h.tool, .inr ⟨rfl, rfl, by rw [fresh]; exact some_, ?_, ?_⟩⟩
      · rw [fresh]
        exact trimTrailing_trailing _
      · rw [trimmed, fresh]
  · have longer : trimLeading (spoken ++ piece) = trimLeading spoken ++ piece := by
      rw [trimLeading_append, if_neg started]
    have stays : ¬(o.active = false ∨ o.reasoning = false) := by simp [active, reasoning]
    have same : ¬(o.active = false ∨ o.reasoning ≠ true) := by simp [active, reasoning]
    simp only [AnthropicOutput.addPiece, if_neg same, if_true, AnthropicOutput.addThinking,
      if_neg stays]
    have nonempty : trimLeading (spoken ++ piece) ≠ "" := by
      rw [longer]
      exact fun nothing => started (String.append_eq_empty_iff.mp nothing).1
    by_cases silent : trimTrailing piece = ""
    · rw [if_pos silent]
      refine ⟨h.content, h.tool, .inr ⟨active, reasoning, nonempty, ?_, ?_⟩⟩
      · rw [longer, ← all, String.append_assoc]
      · rw [trimmed, longer, trimTrailing_append, if_pos silent]
        exact text
    · rw [if_neg silent]
      have written : o.held ++ trimTrailing piece ≠ "" :=
        fun nothing => silent (String.append_eq_empty_iff.mp nothing).2
      simp only [AnthropicOutput.addText, if_neg written, if_neg same]
      refine ⟨h.content, h.tool, .inr ⟨active, reasoning, nonempty, ?_, ?_⟩⟩
      · rw [longer, ← all, String.append_assoc, String.append_assoc, String.append_assoc,
          trimTrailing_trailing]
      · rw [trimmed, longer, trimTrailing_append, if_neg silent, ← all, String.append_assoc]

theorem Thinking.pieces {spoken : String} (h : Thinking o spoken)
    (ps : List (Piece ν)) :
    ∃ o', (ps.map (Piece.segment (n := n) true)).foldlM AnthropicOutput.segment o = .ok o' ∧
      Thinking o' (spoken ++ joined ps) := by
  induction ps generalizing o spoken with
  | nil => exact ⟨o, rfl, by simpa [joined] using h⟩
  | cons p ps ih =>
    obtain ⟨o', rest, h'⟩ := ih (h.step p.text)
    refine ⟨o', ?_, by rwa [joined, List.map_cons, String.join_cons, ← String.append_assoc]⟩
    rw [List.map_cons, List.foldlM_cons, Piece.segment, AnthropicOutput.segment, append_null h.tool,
      ok_bind, rest]

/-- The builder behind reasoning that shows as `before`, and some text. -/
structure Telling (before : List (Value ν)) (o : AnthropicOutput ν) (told : String) : Prop where
  tool : o.tool = .null
  open_ : (told = "" ∧ o.shown = before ∧ (o.active = true → o.reasoning = true)) ∨
    (told ≠ "" ∧ o.active = true ∧ o.reasoning = false ∧ o.content = before ∧ o.text = told)

/-- The block that shows the reasoning. -/
def thoughtBlocks (spoken : String) : List (Block ν) :=
  if trimmed spoken = "" then [] else [.text true (trimmed spoken)]

def textBlocks (told : String) : List (Block ν) := if told = "" then [] else [.text false told]

theorem Thinking.telling {spoken : String} (h : Thinking o spoken) :
    Telling ((thoughtBlocks spoken).map Block.json) o "" := by
  refine ⟨h.tool, .inl ⟨rfl, ?_, ?_⟩⟩
  · rcases h.open_ with ⟨idle, -, blank⟩ | ⟨active, reasoning, started, -, text⟩
    · have nothing : trimmed spoken = "" := by
        rw [trimmed, blank]
        rfl
      simp [AnthropicOutput.shown, idle, h.content, thoughtBlocks, nothing]
    · have something : trimmed spoken ≠ "" := fun nothing => started (trimLeading_blank nothing)
      simp [AnthropicOutput.shown, active, h.content, thoughtBlocks, something, text, reasoning,
        AnthropicOutput.block_json]
  · rcases h.open_ with ⟨idle, -, -⟩ | ⟨-, reasoning, -⟩
    · intro active
      rw [idle] at active
      exact absurd active Bool.false_ne_true
    · exact fun _ => reasoning

theorem Telling.step {before : List (Value ν)} {told : String}
    (h : Telling before o told) (piece : String) :
    Telling before (o.addPiece piece false) (told ++ piece) := by
  obtain ⟨shown, closed, content, -, tool⟩ := o.closeBlock_shown
  rcases h.open_ with ⟨rfl, before_, only⟩ | ⟨started, active, reasoning, content_, text⟩
  · have switched : o.active = false ∨ o.reasoning ≠ false := by
      cases active : o.active with
      | false => exact .inl rfl
      | true => exact .inr (by simp [only active])
    simp only [AnthropicOutput.addPiece, if_pos switched, Bool.false_eq_true, if_false,
      String.empty_append]
    by_cases silent : piece = ""
    · simp only [AnthropicOutput.addText, if_pos silent]
      refine ⟨tool.trans h.tool, .inl ⟨silent, shown.trans before_, ?_⟩⟩
      intro active
      rw [closed] at active
      exact absurd active Bool.false_ne_true
    · simp only [AnthropicOutput.addText, if_neg silent, closed, true_or, if_true,
        String.empty_append]
      exact ⟨tool.trans h.tool, .inr ⟨silent, rfl, rfl, content.trans before_, rfl⟩⟩
  · have stays : ¬(o.active = false ∨ o.reasoning ≠ false) := by simp [active, reasoning]
    simp only [AnthropicOutput.addPiece, if_neg stays, Bool.false_eq_true, if_false]
    have more : told ++ piece ≠ "" :=
      fun nothing => started (String.append_eq_empty_iff.mp nothing).1
    by_cases silent : piece = ""
    · simp only [AnthropicOutput.addText, if_pos silent]
      exact ⟨h.tool, .inr ⟨more, active, reasoning, content_, by simp [text, silent]⟩⟩
    · simp only [AnthropicOutput.addText, if_neg silent, if_neg stays]
      exact ⟨h.tool, .inr ⟨more, active, reasoning, content_, by rw [text]⟩⟩

theorem Telling.pieces {before : List (Value ν)} {told : String}
    (h : Telling before o told) (ps : List (Piece ν)) :
    ∃ o', (ps.map (Piece.segment (n := n) false)).foldlM AnthropicOutput.segment o = .ok o' ∧
      Telling before o' (told ++ joined ps) := by
  induction ps generalizing o told with
  | nil => exact ⟨o, rfl, by simpa [joined] using h⟩
  | cons p ps ih =>
    obtain ⟨o', rest, h'⟩ := ih (h.step p.text)
    refine ⟨o', ?_, by rwa [joined, List.map_cons, String.join_cons, ← String.append_assoc]⟩
    rw [List.map_cons, List.foldlM_cons, Piece.segment, AnthropicOutput.segment, append_null h.tool,
      ok_bind, rest]

theorem Telling.shown {blocks : List (Block ν)} {told : String}
    (h : Telling (blocks.map Block.json) o told) :
    o.shown = (blocks ++ textBlocks told).map Block.json := by
  rcases h.open_ with ⟨rfl, shown, -⟩ | ⟨started, active, reasoning, content, text⟩
  · simp [shown, textBlocks]
  · simp [AnthropicOutput.shown, active, content, textBlocks, started, AnthropicOutput.block_json,
      reasoning, text]

/-- The block of a complete call. -/
def callBlock (c : StreamedCall n) : Block ν :=
  .use c.toParsedToolCall (argumentsObject n c.arguments).members

theorem shown_calls (lawful : n.Lawful) {calls : List (String × StreamedCall n)}
    (finished : ∀ c ∈ calls, c.2.complete = true) (shallow : ∀ c ∈ calls, Shallow n c.2.arguments)
    {blocks : List (Block ν)} (null : o.tool = .null)
    (shown : o.shown = blocks.map Block.json) :
    ∃ o', (calls.map fun c => Segment.call c.1 c.2).foldlM AnthropicOutput.segment o = .ok o' ∧
      o'.tool = .null ∧
      o'.shown = (blocks ++ calls.map fun c => callBlock c.2).map Block.json := by
  induction calls generalizing o blocks with
  | nil => exact ⟨o, rfl, null, by simpa using shown⟩
  | cons c calls ih =>
    obtain ⟨input, -, object, read⟩ := parse_complete lawful (finished c (by simp))
      (shallow c (by simp))
    obtain ⟨-, idle, content, -, -⟩ := o.closeBlock_shown
    have closed := AnthropicOutput.closeTool_complete (n := n)
      (o := { o.closeBlock with
        tool := (Block.use c.2.toParsedToolCall []).json
        toolArguments := c.2.text }) rfl read
    have block : callBlock c.2 = Block.use c.2.toParsedToolCall input := by
      rw [callBlock, object, members]
    have listed : o.closeBlock.content ++ [(Block.use c.2.toParsedToolCall input).json] =
        (blocks ++ [callBlock c.2]).map Block.json := by
      rw [content, shown, block]
      simp
    have next : AnthropicOutput.shown { o.closeBlock with
        content := o.closeBlock.content ++ [(Block.use c.2.toParsedToolCall input).json]
        tool := .null
        toolArguments := c.2.text
        toolUse := true } = (blocks ++ [callBlock c.2]).map Block.json := by
      rw [AnthropicOutput.shown_idle]
      · exact listed
      · exact idle
    obtain ⟨o', rest, null', shown'⟩ := ih (fun c mem => finished c (by simp [mem]))
      (fun c mem => shallow c (by simp [mem])) (by rfl) next
    refine ⟨o', ?_, null', by simpa using shown'⟩
    rw [List.map_cons, List.foldlM_cons, AnthropicOutput.segment, AnthropicOutput.addTool_deltas,
      AnthropicOutput.finish, if_pos (finished c (by simp)), closed, ok_bind, rest]

/-- The blocks of what a turn has said. -/
def Turn.said (t : Turn n) : List (Block ν) :=
  thoughtBlocks t.reasoning ++ textBlocks t.content ++ t.calls.map fun c => callBlock c.2

/-- The blocks of a turn that finished normally; an empty one is one empty text. -/
def Turn.blocks (t : Turn n) : List (Block ν) :=
  match t.said with
  | [] => [.text false ""]
  | blocks => blocks

theorem anthropicContent_turn (lawful : n.Lawful) (t : Turn n)
    (shallow : ∀ c ∈ t.calls, Shallow n c.2.arguments) :
    anthropicContent t.segments = .ok (t.blocks.map Block.json) := by
  have start : Thinking ({} : AnthropicOutput ν) "" :=
    ⟨rfl, rfl, .inl ⟨rfl, rfl, by rfl⟩⟩
  obtain ⟨o₁, thought, h₁⟩ := start.pieces (n := n) t.thoughts
  obtain ⟨o₂, told, h₂⟩ := h₁.telling.pieces (n := n) t.texts
  obtain ⟨o₃, called, null, shown⟩ := shown_calls lawful t.finished shallow h₂.tool h₂.shown
  obtain ⟨-, -, content, -, -⟩ := o₃.closeBlock_shown
  have ran : t.segments.foldlM AnthropicOutput.segment ({} : AnthropicOutput ν) = .ok o₃ := by
    rw [Turn.segments, List.foldlM_append, List.foldlM_append, thought, ok_bind, told, ok_bind,
      called]
  rw [anthropicContent, ran, ok_bind, AnthropicOutput.complete, AnthropicOutput.closeTool_null null,
    ok_bind]
  have listed := content.trans shown
  generalize o₃.closeBlock = o₄ at listed ⊢
  change o₄.content = t.said.map Block.json at listed
  rw [Turn.blocks]
  generalize t.said = blocks at listed ⊢
  cases blocks with
  | nil =>
    simp [listed, AnthropicOutput.closeBlock, AnthropicOutput.block, Block.json]
  | cons b blocks =>
    simp [listed]

theorem foldl_takeCalls (calls : List (String × StreamedCall n)) (m : ChatMessage ι) :
    (calls.map fun c => callBlock c.2).foldl (Block.take n) m =
      { m with toolCalls := m.toolCalls ++
          calls.map (fun c => replayedCall n c.2.toParsedToolCall) } := by
  induction calls generalizing m with
  | nil => simp
  | cons c calls ih =>
    rw [List.map_cons, List.foldl_cons, ih]
    simp [callBlock, Block.take, replayedCall, replayed]

/-- What the blocks of a finished turn are read as. -/
theorem Turn.foldl_blocks (t : Turn n) :
    t.blocks.foldl (Block.take n) ({ role := .assistant } : ChatMessage ι) =
      { role := .assistant, content := t.content, thought := trimmed t.reasoning,
        toolCalls := t.toolCalls } := by
  have parts : t.said.foldl (Block.take n) ({ role := .assistant } : ChatMessage ι) =
      { role := .assistant, content := t.content, thought := trimmed t.reasoning,
        toolCalls := t.toolCalls } := by
    rw [Turn.said, List.foldl_append, List.foldl_append, foldl_takeCalls]
    by_cases thought : trimmed t.reasoning = ""
    all_goals by_cases text : t.content = ""
    all_goals simp [thoughtBlocks, textBlocks, thought, text, Block.take, Turn.toolCalls]
  rw [Turn.blocks]
  split
  · rename_i empty
    rw [empty] at parts
    exact parts
  · exact parts

theorem Turn.blocks_fit (t : Turn n) (shallow : ∀ c ∈ t.calls, Shallow n c.2.arguments) :
    ∀ b ∈ t.blocks, b.Fits := by
  have parts : ∀ b ∈ t.said, b.Fits := by
    intro b mem
    simp only [Turn.said, List.mem_append, List.mem_map] at mem
    rcases mem with (mem | mem) | ⟨c, mem, rfl⟩
    · simp only [thoughtBlocks] at mem
      split at mem <;> simp at mem
      rw [mem]
      trivial
    · simp only [textBlocks] at mem
      split at mem <;> simp at mem
      rw [mem]
      trivial
    · obtain ⟨input, object, plain⟩ := argumentsObject_plain (shallow c mem)
      change Plain 127 (argumentsObject n c.2.arguments).members
      rw [object]
      exact plain
  rw [Turn.blocks]
  split
  · simp [Block.Fits]
  · exact parts

/-- The content of a finished turn is read as its one message. -/
theorem anthropic_replayed (lawful : n.Lawful) (readImageUrl : ReadImageUrl ι β) (t : Turn n)
    (shallow : ∀ c ∈ t.calls, Shallow n c.2.arguments) {c : Conversation ι β}
    (quiet : c.deferred = []) :
    ∃ content, anthropicContent t.segments = .ok content ∧
      readItem n readImageUrl false c (anthropicMessage content) =
        .ok (c.push { role := .assistant, content := t.content, thought := trimmed t.reasoning,
                      toolCalls := t.toolCalls }) := by
  refine ⟨_, anthropicContent_turn lawful t shallow, ?_⟩
  rw [readItem_blocks lawful readImageUrl (t.blocks_fit shallow) quiet, t.foldl_blocks]

end Gufo.History
