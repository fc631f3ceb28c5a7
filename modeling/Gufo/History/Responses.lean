import Mathlib.Data.List.ModifyLast
import Gufo.History.Turn

/-!
# The output items of Responses

What the items of a turn show, and what `readItem` makes of each.
-/

namespace Gufo.History
open Gufo.Chat (ChatRole)
open Gufo.Json Gufo.Json.Value Gufo.Outcome

variable {ν ι β : Type} {n : Numbers ν}

/-- What an output item shows. -/
inductive Item {ν : Type} (n : Numbers ν) where
  | text (reasoning : Bool) (text : String)
  | call (call : StreamedCall n)

/-- The items of a turn and the one still open. -/
structure Outline {ν : Type} (n : Numbers ν) where
  done : List (Item n) := []
  pending : Option (Item n) := none

namespace Outline

def items (l : Outline n) : List (Item n) := l.done ++ l.pending.toList

def text (reasoning : Bool) (piece : String) (l : Outline n) : Outline n :=
  if piece = "" then l
  else match l.pending with
    | some (.text r t) =>
      if r = reasoning then { l with pending := some (.text r (t ++ piece)) }
      else { done := l.items, pending := some (.text reasoning piece) }
    | _ => { done := l.items, pending := some (.text reasoning piece) }

/-- A call that is still open when the next one begins is left out. -/
def call (c : StreamedCall n) (l : Outline n) : Outline n :=
  let done := match l.pending with
    | some (.call _) => l.done
    | _ => l.items
  if c.complete then { done := done ++ [.call c] } else { done, pending := some (.call c) }

def segment (l : Outline n) : Segment n → Outline n
  | .text _ piece reasoning _ => l.text reasoning piece
  | .call _ c => l.call c

end Outline

/-! ## Writing -/

def textPart (reasoning : Bool) (text : String) (logprobs : Value ν) : Value ν :=
  .object ([("type", .string (if reasoning then "summary_text" else "output_text")),
    ("text", .string text)] ++
    if reasoning then [] else [("annotations", .array []), ("logprobs", logprobs)])

def textItem (id status : String) (reasoning : Bool) (part : Value ν) : Value ν :=
  .object ([("id", .string id), ("type", .string (if reasoning then "reasoning" else "message")),
    ("status", .string status), (ResponsesOutput.partsKey reasoning, .array [part])] ++
    if reasoning then [] else [("role", .string "assistant")])

def callItem (id : String) (space : Option String) (status arguments : String)
    (call : ParsedToolCall) : Value ν :=
  .object ([("id", .string id), ("type", .string "function_call"), ("call_id", .string call.id),
    ("name", .string call.name)] ++
    (match space with
      | some space => [("namespace", .string space)]
      | none => []) ++
    [("arguments", .string arguments), ("status", .string status)])

def Shown (v : Value ν) : Item n → Prop
  | .text reasoning text => ∃ id status logprobs,
      v = textItem id status reasoning (textPart reasoning text logprobs)
  | .call c => ∃ id space status, v = callItem id space status c.text c.toParsedToolCall

/-- What the builder holds for the item still open. -/
def Open (o : ResponsesOutput ν) : Option (Item n) → Prop
  | none => o.active = false ∧ o.tool = .null
  | some (.text reasoning text) => o.active = true ∧ o.tool = .null ∧ o.reasoning = reasoning ∧
      o.text = text ∧ ∃ id, o.item = ResponsesOutput.newItem id reasoning
  | some (.call c) => o.active = false ∧ o.toolArguments = c.text ∧
      ∃ id space, o.tool = callItem id space "in_progress" "" c.toParsedToolCall

structure Sketches (l : Outline n) (o : ResponsesOutput ν) : Prop where
  output : List.Forall₂ (fun item v => Shown v item) l.done o.output
  pending : Open o l.pending

variable {o : ResponsesOutput ν}

namespace ResponsesOutput

theorem closeItem_text {reasoning : Bool} {text id : String}
    (status : String) (active : o.active = true) (kind : o.reasoning = reasoning)
    (held : o.text = text) (item : o.item = newItem id reasoning) :
    ∃ logprobs, (o.closeItem status).output =
        o.output ++ [textItem id status reasoning (textPart reasoning text logprobs)] ∧
      (o.closeItem status).active = false ∧ (o.closeItem status).tool = o.tool := by
  refine ⟨o.logprobs, ?_, by simp [closeItem, active], by simp [closeItem, active]⟩
  subst kind held
  cases h : o.reasoning
  all_goals
    simp [closeItem, active, item, h, newItem, partsKey, part, textItem, textPart, pushBack, items,
      Value.set, setMember, members]

theorem closeItem_idle {status : String} (idle : o.active = false) :
    o.closeItem status = o := if_pos idle

theorem closeTool_null (status : String) (null : o.tool = .null) :
    o.closeTool status = o := by simp [closeTool, null, isNull]

theorem closeTool_call {id : String} {space : Option String} {call : ParsedToolCall}
    (status : String)
    (tool : o.tool = callItem id space "in_progress" "" call) :
    (o.closeTool status).output = o.output ++ [callItem id space status o.toolArguments call] ∧
      (o.closeTool status).active = o.active ∧ (o.closeTool status).tool = .null := by
  cases space
  all_goals simp [closeTool, tool, callItem, isNull, Value.set, setMember, members]

end ResponsesOutput

variable {l : Outline n}

/-- Closing whatever is open adds it to the items. -/
theorem Sketches.close (h : Sketches l o)
    (first second : String) :
    Sketches { done := l.items } ((o.closeTool first).closeItem second) := by
  obtain ⟨done, pending⟩ := l
  have output := h.output
  cases pending with
  | none =>
    obtain ⟨idle, null⟩ := h.pending
    rw [ResponsesOutput.closeTool_null _ null, ResponsesOutput.closeItem_idle idle]
    exact ⟨by simpa [Outline.items] using output, idle, null⟩
  | some item =>
    cases item with
    | text reasoning text =>
      obtain ⟨active, null, kind, held, id, item⟩ := h.pending
      rw [ResponsesOutput.closeTool_null _ null]
      obtain ⟨logprobs, out, idle, tool⟩ :=
        ResponsesOutput.closeItem_text second active kind held item
      refine ⟨?_, idle, tool.trans null⟩
      rw [out]
      exact List.rel_append output (.cons ⟨id, second, logprobs, rfl⟩ .nil)
    | call c =>
      obtain ⟨idle, arguments, id, space, tool⟩ := h.pending
      obtain ⟨out, same, null⟩ := ResponsesOutput.closeTool_call first tool
      rw [ResponsesOutput.closeItem_idle (same.trans idle)]
      refine ⟨?_, same.trans idle, null⟩
      rw [out, arguments]
      exact List.rel_append output (.cons ⟨id, space, first, rfl⟩ .nil)

theorem Sketches.append (h : Sketches l o)
    (id piece : String) (reasoning : Bool) (logprobs : Value ν) :
    Sketches (l.text reasoning piece) (o.append id piece reasoning logprobs) := by
  by_cases empty : piece = ""
  · simpa [Outline.text, ResponsesOutput.append, if_pos empty] using h
  have closed := h.close "incomplete" "completed"
  have fresh : (o.closeTool "incomplete").active = false ∨
      (o.closeTool "incomplete").reasoning ≠ reasoning →
      Sketches { done := l.items, pending := some (.text reasoning piece) }
        (o.append id piece reasoning logprobs) := by
    intro switched
    refine ⟨?_, ?_⟩
    · simpa [ResponsesOutput.append, if_neg empty, if_pos switched] using closed.output
    · simp only [ResponsesOutput.append, if_neg empty, if_pos switched]
      exact ⟨rfl, closed.pending.2, rfl, String.empty_append, id, rfl⟩
  obtain ⟨done, pending⟩ := l
  cases pending with
  | none =>
    have null := ResponsesOutput.closeTool_null "incomplete" h.pending.2
    simp only [Outline.text, if_neg empty]
    exact fresh (.inl (by rw [null]; exact h.pending.1))
  | some item =>
    cases item with
    | text r t =>
      obtain ⟨active, null, kind, held, sameId, item⟩ := h.pending
      have same := ResponsesOutput.closeTool_null "incomplete" null
      by_cases stays : r = reasoning
      · have stay : ¬(o.active = false ∨ o.reasoning ≠ reasoning) := by simp [active, kind, stays]
        simp only [Outline.text, if_neg empty, if_pos stays, ResponsesOutput.append, same,
          if_neg stay]
        exact ⟨h.output, active, null, kind, by rw [held], sameId, item⟩
      · simp only [Outline.text, if_neg empty, if_neg stays]
        exact fresh (.inr (by rw [same, kind]; exact stays))
    | call c =>
      obtain ⟨idle, _, toolId, space, tool⟩ := h.pending
      obtain ⟨_, same, _⟩ := ResponsesOutput.closeTool_call "incomplete" tool
      simp only [Outline.text, if_neg empty]
      exact fresh (.inl (same.trans idle))

/-! ## Calls -/

namespace ResponsesOutput

/-- What the end of a call does. -/
def finish (complete : Bool) (o : ResponsesOutput ν) : ResponsesOutput ν :=
  if complete then o.closeTool "completed" else o

theorem addTool_following (id : String) (complete : Bool) (rest : List String)
    (o : ResponsesOutput ν) (nonempty : rest ≠ []) :
    (StreamedCall.following complete rest).foldl (fun o delta => o.addTool id delta) o =
      finish complete { o with toolArguments := o.toolArguments ++ String.join rest } := by
  induction rest generalizing o with
  | nil => exact absurd rfl nonempty
  | cons piece rest ih =>
    rw [StreamedCall.following, List.foldl_cons, String.join_cons, ← String.append_assoc]
    cases rest with
    | nil =>
      simp [addTool, StreamedCall.following, finish]
    | cons next rest =>
      rw [ih _ (by simp)]
      simp [addTool]

theorem newTool_eq (id : String) (delta : ToolDelta) (call : ParsedToolCall)
    (sameId : delta.id = call.id) (name : delta.name = call.name) (o : ResponsesOutput ν) :
    o.newTool id delta =
      callItem id (o.namespaces.lookup call.name) "in_progress" "" call := by
  simp only [newTool, sameId, name]
  cases o.namespaces.lookup call.name <;> rfl

theorem addTool_deltas (id : String) (c : StreamedCall n) (o : ResponsesOutput ν) :
    c.deltas.foldl (fun o delta => o.addTool id delta) o =
      finish c.complete { o.closeItem "completed" with
        tool := callItem id (o.namespaces.lookup c.name) "in_progress" "" c.toParsedToolCall
        toolArguments := c.text } := by
  have named : c.id ≠ "" := c.identified
  have spaces : (o.closeItem "completed").namespaces = o.namespaces := by
    unfold closeItem
    split <;> rfl
  have opened := newTool_eq id
    { id := c.id, name := c.name, arguments := c.first, complete := false }
    c.toParsedToolCall rfl rfl (o.closeItem "completed")
  rw [spaces] at opened
  rw [StreamedCall.deltas, List.foldl_cons, StreamedCall.text, ← opened]
  cases rest : c.rest with
  | nil =>
    simp [addTool, newTool, named, StreamedCall.following, finish]
  | cons piece pieces =>
    rw [addTool_following _ _ _ _ (by simp)]
    simp [addTool, newTool, named]

end ResponsesOutput

/-- A call closes the text before it, and only the text. -/
theorem Sketches.closeItem (h : Sketches l o)
    (status : String) :
    List.Forall₂ (fun item v => Shown v item)
        (match l.pending with
          | some (.call _) => l.done
          | _ => l.items)
        (o.closeItem status).output ∧ (o.closeItem status).active = false := by
  obtain ⟨done, pending⟩ := l
  have output := h.output
  cases pending with
  | none =>
    rw [ResponsesOutput.closeItem_idle h.pending.1]
    exact ⟨by simpa [Outline.items] using output, h.pending.1⟩
  | some item =>
    cases item with
    | text reasoning text =>
      obtain ⟨active, null, kind, held, id, item⟩ := h.pending
      obtain ⟨logprobs, out, idle, -⟩ := ResponsesOutput.closeItem_text status active kind held item
      rw [out]
      exact ⟨List.rel_append output (.cons ⟨id, status, logprobs, rfl⟩ .nil), idle⟩
    | call c =>
      rw [ResponsesOutput.closeItem_idle h.pending.1]
      exact ⟨output, h.pending.1⟩

theorem Sketches.call (h : Sketches l o) (id : String)
    (c : StreamedCall n) :
    Sketches (l.call c) (c.deltas.foldl (fun o delta => o.addTool id delta) o) := by
  rw [ResponsesOutput.addTool_deltas]
  obtain ⟨output, idle⟩ := h.closeItem "completed"
  by_cases complete : c.complete = true
  · simp only [ResponsesOutput.finish, if_pos complete, Outline.call]
    obtain ⟨out, same, null⟩ := ResponsesOutput.closeTool_call "completed"
      (o := { o.closeItem "completed" with
        tool := callItem id (o.namespaces.lookup c.name) "in_progress" "" c.toParsedToolCall
        toolArguments := c.text }) rfl
    refine ⟨?_, same.trans idle, null⟩
    rw [out]
    exact List.rel_append output (.cons ⟨id, _, "completed", rfl⟩ .nil)
  · simp only [ResponsesOutput.finish, if_neg complete, Outline.call]
    exact ⟨output, idle, rfl, id, _, rfl⟩

theorem Sketches.segment (h : Sketches l o)
    (s : Segment n) : Sketches (l.segment s) (o.segment s) := by
  cases s with
  | text id piece reasoning logprobs => exact h.append id piece reasoning logprobs
  | call id c => exact h.call id c

theorem Sketches.run (h : Sketches l o)
    (segments : List (Segment n)) :
    Sketches (segments.foldl Outline.segment l) (segments.foldl ResponsesOutput.segment o) := by
  induction segments generalizing l o with
  | nil => exact h
  | cons s segments ih => exact ih (h.segment s)

/-- The output items show what the outline of the turn lists. -/
theorem responsesItems_shown (namespaces : List (String × String)) (limited : Bool)
    (segments : List (Segment n)) :
    List.Forall₂ (fun item v => Shown v item) (segments.foldl Outline.segment {}).items
      (responsesItems namespaces limited segments) := by
  have start : Sketches ({} : Outline n) ({ namespaces } : ResponsesOutput ν) := ⟨.nil, rfl, rfl⟩
  exact ((start.run segments).close "incomplete" _).output

/-! ## Reading -/

namespace Conversation

/-- A call joins an assistant's message before it. -/
def takeCall (c : Conversation ι β) (call : ToolCall) : Conversation ι β :=
  match c.messages.getLast? with
  | some last =>
    if last.role = .assistant then
      c.amend fun last => { last with toolCalls := last.toolCalls ++ [call] }
    else c.push { role := .assistant, toolCalls := [call] }
  | none => c.push { role := .assistant, toolCalls := [call] }

/-- Text joins the reasoning before it. -/
def takeText (c : Conversation ι β) (text : String) : Conversation ι β :=
  match c.messages.getLast? with
  | some last =>
    if last.role = .assistant ∧ last.content = "" ∧ last.thought ≠ "" then
      c.amend fun last => { last with content := text }
    else c.push { role := .assistant, content := text }
  | none => c.push { role := .assistant, content := text }

end Conversation

section
variable (readImageUrl : ReadImageUrl ι β) (c : Conversation ι β) {v : Value ν}

theorem readItem_reasoning {text : String}
    (shown : Shown v (.text true text : Item n)) :
    readItem n readImageUrl true c v = .ok (c.push { role := .assistant, thought := text }) := by
  obtain ⟨id, status, logprobs, rfl⟩ := shown
  simp [readItem, textItem, textPart, memberStr, ResponsesOutput.partsKey, isCallItem, isOutputItem,
    readReasoningItem, absent, readSummaryPart, Except.map]

theorem readItem_text {text : String}
    (shown : Shown v (.text false text : Item n)) :
    readItem n readImageUrl true c v = .ok (c.takeText text) := by
  obtain ⟨id, status, logprobs, shown⟩ := shown
  have kind : v.memberStr "type" = "message" := by simp [shown, textItem, memberStr]
  have read : parseOpenAiResponseMessage n readImageUrl v c.budget =
      .ok ({ role := .assistant, content := text }, c.budget) := by
    simp [shown, parseOpenAiResponseMessage, textItem, textPart, memberStr, isCallItem,
      isOutputItem, convertContent, convertPart, ResponsesOutput.partsKey]
    rw [ok_bind]
    refine parseMessage_assistant ?_ ?_ ?_ ?_ ?_ ?_ (.inl ⟨?_, rfl⟩)
    all_goals simp [parseContent, parsePart, parseReasoning, memberStr]
  have isMessage : isMessageItem v = true := by
    simp [shown, isMessageItem, textItem, memberStr, ResponsesOutput.partsKey]
  have calls : isCallItem "message" = false ∧ isOutputItem "message" = false := by decide
  simp only [readItem, kind, calls, isMessage, read, ok_bind, Conversation.takeText]
  cases c.messages.getLast? with
  | none => simp
  | some last =>
    by_cases joins : last.role = .assistant ∧ last.content = "" ∧ last.thought ≠ ""
    all_goals simp [joins]

/-- A call is read if its argument text is. -/
theorem readItem_call {call : StreamedCall n} (shown : Shown v (.call call)) :
    readItem n readImageUrl true c v = (parseArguments n call.text).map fun arguments =>
      c.takeCall { id := call.id, name := call.name, arguments } := by
  obtain ⟨id, space, status, shown⟩ := shown
  have kind : v.memberStr "type" = "function_call" := by simp [shown, callItem, memberStr]
  have callId : v.find "call_id" = some (.string call.id) := by simp [shown, callItem]
  have named := parseHistoricalFunction_named (n := n) call.id call.text v
    (by cases space <;> simp [shown, callItem]) (by cases space <;> simp [shown, callItem])
    call.renderable
  have calls : isCallItem "function_call" = true ∧ isOutputItem "function_call" = false := by decide
  have message : parseOpenAiResponseMessage n readImageUrl v c.budget =
      (parseArguments n call.text).map fun arguments =>
        (({ role := .assistant, toolCalls := [{ id := call.id, name := call.name, arguments }] } :
          ChatMessage ι), c.budget) := by
    simp [parseOpenAiResponseMessage, kind, calls, callId, call.identified]
    rw [ok_bind, named]
    cases parseArguments n call.text <;> rfl
  simp only [readItem, kind, calls, message, Conversation.takeCall]
  cases parseArguments n call.text with
  | error e => rfl
  | ok arguments =>
    simp only [Except.map, ok_bind]
    cases c.messages.getLast? with
    | none => simp
    | some last =>
      by_cases joins : last.role = .assistant
      all_goals simp [joins]

/-- The argument text of a call can be read: a complete call's can if its values are shallow, a
call's that was cut off only where the text is an object already. -/
def Readable (n : Numbers ν) (call : StreamedCall n) : Prop :=
  ∃ arguments, parseArguments n call.text = .ok arguments

def Item.Readable : Item n → Prop
  | .text _ _ => True
  | .call c => History.Readable n c

theorem readItem_shown {item : Item n} (shown : Shown v item)
    (readable : item.Readable) : ∃ c', readItem n readImageUrl true c v = .ok c' := by
  cases item with
  | text reasoning text =>
    cases reasoning with
    | true => exact ⟨_, readItem_reasoning readImageUrl c shown⟩
    | false => exact ⟨_, readItem_text readImageUrl c shown⟩
  | call call =>
    obtain ⟨arguments, read⟩ := readable
    exact ⟨_, by rw [readItem_call readImageUrl c shown, read]; rfl⟩

theorem readItems_shown {items : List (Item n)} {output : List (Value ν)}
    (shown : List.Forall₂ (fun item v => Shown v item) items output)
    (readable : ∀ item ∈ items, item.Readable) (c : Conversation ι β) :
    ∃ c', output.foldlM (readItem n readImageUrl true) c = .ok c' := by
  induction shown generalizing c with
  | nil => exact ⟨c, rfl⟩
  | cons first rest ih =>
    obtain ⟨c', read⟩ := readItem_shown readImageUrl c first (readable _ (by simp))
    obtain ⟨c'', later⟩ := ih (fun item mem => readable item (by simp [mem])) c'
    exact ⟨c'', by rw [List.foldlM_cons, read, ok_bind, later]⟩

end

/-! ## What a turn lists -/

namespace Outline

/-- A property of text and of the turn's calls is one of every item. -/
theorem all_segment {P : Item n → Prop} (texts : ∀ reasoning t, P (.text reasoning t))
    {s : Segment n} (calls : ∀ id c, s = .call id c → P (.call c))
    (h : ∀ item ∈ l.items, P item) : ∀ item ∈ (l.segment s).items, P item := by
  obtain ⟨done, pending⟩ := l
  have all : ∀ item ∈ done, P item := fun item mem => h item (by simp [items, mem])
  have last : ∀ item, pending = some item → P item := fun item mem => h item (by simp [items, mem])
  cases s with
  | text id piece reasoning logprobs =>
    simp only [segment, text]
    split
    · exact h
    · split
      · split
        all_goals simp only [items, Option.toList_some, List.mem_append, List.mem_singleton]
        · rintro item (mem | rfl)
          · exact all item mem
          · exact texts _ _
        · rintro item ((mem | rfl) | rfl)
          · exact all item mem
          · exact texts _ _
          · exact texts _ _
      · simp only [items, Option.toList_some, List.mem_append, List.mem_singleton]
        rintro item ((mem | mem) | rfl)
        · exact all item mem
        · exact last item (by simpa using mem)
        · exact texts _ _
  | call id c =>
    have before : ∀ item ∈ (match pending with
        | some (.call _) => done
        | _ => ({ done, pending } : Outline n).items), P item := by
      split
      · exact all
      · exact h
    simp only [segment, call]
    split
    all_goals
      simp only [items, Option.toList_none, Option.toList_some, List.append_nil, List.mem_append,
        List.mem_singleton]
      rintro item (mem | rfl)
      · exact before item mem
      · exact calls id c rfl

theorem all_segments {P : Item n → Prop} (texts : ∀ reasoning t, P (.text reasoning t))
    {segments : List (Segment n)} (calls : ∀ id c, Segment.call id c ∈ segments → P (.call c))
    (h : ∀ item ∈ l.items, P item) :
    ∀ item ∈ (segments.foldl segment l).items, P item := by
  induction segments generalizing l with
  | nil => exact h
  | cons s segments ih =>
    exact ih (fun id c mem => calls id c (by simp [mem]))
      (all_segment texts (fun id c same => calls id c (by simp [same])) h)

end Outline

/-- The items of any turn are accepted where its calls can be read. -/
theorem responses_accepted (readImageUrl : ReadImageUrl ι β) (namespaces : List (String × String))
    (limited : Bool) {segments : List (Segment n)}
    (readable : ∀ id c, Segment.call id c ∈ segments → Readable n c) (c : Conversation ι β) :
    ∃ c', (responsesItems namespaces limited segments).foldlM (readItem n readImageUrl true) c =
      .ok c' :=
  readItems_shown readImageUrl (responsesItems_shown namespaces limited segments)
    (Outline.all_segments (P := Item.Readable) (fun _ _ => trivial) readable
      (by simp [Outline.items])) c

/-! ## A turn that finished normally -/

namespace Outline

theorem text_text (reasoning : Bool) (p q : String) (l : Outline n) :
    (l.text reasoning p).text reasoning q = l.text reasoning (p ++ q) := by
  by_cases noneFirst : p = ""
  · simp [text, noneFirst]
  by_cases noneNext : q = ""
  · simp [text, noneNext]
  obtain ⟨done, pending⟩ := l
  have both : p ++ q ≠ "" := by simp [noneFirst]
  simp only [text, if_neg noneFirst, if_neg noneNext, if_neg both]
  cases pending with
  | none => simp
  | some item =>
    cases item with
    | call c => simp
    | text r t =>
      by_cases same : r = reasoning
      · simp [same, String.append_assoc]
      · simp [same]

/-- Pieces of one kind are one text. -/
theorem pieces (reasoning : Bool) (ps : List (Piece ν)) (l : Outline n) :
    (ps.map (Piece.segment reasoning)).foldl segment l = l.text reasoning (joined ps) := by
  induction ps generalizing l with
  | nil => simp [joined, text]
  | cons p ps ih =>
    rw [List.map_cons, List.foldl_cons, ih, Piece.segment, segment, text_text, joined, joined,
      List.map_cons, String.join_cons]

theorem calls_items {calls : List (String × StreamedCall n)}
    (finished : ∀ c ∈ calls, c.2.complete = true)
    (closed : ∀ c, l.pending ≠ some (.call c)) :
    ((calls.map fun c => Segment.call c.1 c.2).foldl segment l).items =
      l.items ++ calls.map fun c => .call c.2 := by
  induction calls generalizing l with
  | nil => simp
  | cons c calls ih =>
    have next : l.segment (.call c.1 c.2) = { done := l.items ++ [.call c.2] } := by
      simp [segment, call, if_pos (finished c (by simp))]
    rw [List.map_cons, List.foldl_cons, next,
      ih (fun c mem => finished c (by simp [mem])) (by simp)]
    simp [items]

end Outline

/-- The items of a turn that finished normally. -/
def Turn.items (t : Turn n) : List (Item n) :=
  (if t.reasoning = "" then [] else [.text true t.reasoning]) ++
    (if t.content = "" then [] else [.text false t.content]) ++ t.calls.map fun c => .call c.2

theorem outline_turn (t : Turn n) : (t.segments.foldl Outline.segment {}).items = t.items := by
  rw [Turn.segments, List.foldl_append, List.foldl_append, Outline.pieces, Outline.pieces,
    Outline.calls_items t.finished]
  · rw [Turn.items]
    by_cases thought : joined t.thoughts = ""
    all_goals by_cases text : joined t.texts = ""
    all_goals simp [Outline.text, Outline.items, Turn.reasoning, Turn.content, thought, text]
  · by_cases thought : joined t.thoughts = ""
    all_goals by_cases text : joined t.texts = ""
    all_goals simp [Outline.text, thought, text]

variable {c : Conversation ι β}

namespace Conversation

theorem push_amend (c : Conversation ι β) (m : ChatMessage ι) (f : ChatMessage ι → ChatMessage ι) :
    (c.push m).amend f = c.push (f m) := by
  simp [push, amend, List.modifyLast_concat, -List.append_assoc]

variable {m : ChatMessage ι}

theorem push_takeText (c : Conversation ι β) (role : m.role = .assistant)
    (content : m.content = "") (thought : m.thought ≠ "") (text : String) :
    (c.push m).takeText text = c.push { m with content := text } := by
  have last : (c.push m).messages.getLast? = some m := by simp [push]
  simp [takeText, last, if_pos (And.intro role (And.intro content thought)), push_amend]

theorem push_takeCall (c : Conversation ι β) (role : m.role = .assistant)
    (call : ToolCall) :
    (c.push m).takeCall call = c.push { m with toolCalls := m.toolCalls ++ [call] } := by
  have last : (c.push m).messages.getLast? = some m := by simp [push]
  simp [takeCall, last, if_pos role, push_amend]

theorem push_takeCalls (c : Conversation ι β) (role : m.role = .assistant)
    (calls : List ToolCall) :
    calls.foldl takeCall (c.push m) = c.push { m with toolCalls := m.toolCalls ++ calls } := by
  induction calls generalizing m with
  | nil => simp
  | cons call calls ih =>
    rw [List.foldl_cons, push_takeCall c role]
    simpa using ih (m := { m with toolCalls := m.toolCalls ++ [call] }) role

/-- The last message is not the assistant's. -/
def Ready (c : Conversation ι β) : Prop :=
  ∀ last ∈ c.messages.getLast?, last.role ≠ .assistant

theorem Ready.takeText (ready : c.Ready) (text : String) :
    c.takeText text = c.push { role := .assistant, content := text } := by
  unfold Conversation.takeText
  split
  · rename_i last found
    simp [ready last found]
  · rfl

theorem Ready.takeCall (ready : c.Ready) (call : ToolCall) :
    c.takeCall call = c.push { role := .assistant, toolCalls := [call] } := by
  unfold Conversation.takeCall
  split
  · rename_i last found
    simp [ready last found]
  · rfl

def takeItem (c : Conversation ι β) : Item n → Conversation ι β
  | .text true text => c.push { role := .assistant, thought := text }
  | .text false text => c.takeText text
  | .call call => c.takeCall (replayedCall n call.toParsedToolCall)

/-- The items of a finished turn are one message, or none where the turn is empty. -/
theorem Ready.takeItems (ready : c.Ready) (t : Turn n) :
    t.items.foldl takeItem c =
      if t.items = [] then c
      else c.push { role := .assistant, content := t.content, thought := t.reasoning,
                    toolCalls := t.toolCalls } := by
  have calls : ∀ (l : List (String × StreamedCall n)) (m : ChatMessage ι), m.role = .assistant →
      (l.map fun c => Item.call c.2).foldl takeItem (c.push m) =
        c.push { m with toolCalls :=
          m.toolCalls ++ l.map (fun c => replayedCall n c.2.toParsedToolCall) } := by
    intro l m role
    rw [← push_takeCalls c role, List.foldl_map, List.foldl_map]
    rfl
  rw [Turn.items, List.foldl_append, List.foldl_append]
  by_cases thought : t.reasoning = ""
  · by_cases text : t.content = ""
    · simp only [thought, text, if_true, List.foldl_nil]
      cases listed : t.calls with
      | nil => simp
      | cons first rest =>
        have opened := ready.takeCall (replayedCall n first.2.toParsedToolCall)
        simp [takeItem, opened, calls, Turn.toolCalls, listed]
    · have opened := ready.takeText t.content
      simp [thought, text, takeItem, opened, calls, Turn.toolCalls]
  · by_cases text : t.content = ""
    · simp [thought, text, takeItem, calls, Turn.toolCalls]
    · have joins := c.push_takeText (m := { role := .assistant, thought := t.reasoning }) rfl rfl
        thought t.content
      simp [thought, text, takeItem, calls, joins, Turn.toolCalls]

end Conversation

section
variable (lawful : n.Lawful) (readImageUrl : ReadImageUrl ι β)
include lawful

theorem parseArguments_complete {c : StreamedCall n} (complete : c.complete = true)
    (shallow : Shallow n c.arguments) :
    parseArguments n c.text = .ok (replayed n c.arguments) := by
  rw [StreamedCall.text, c.whole complete]
  exact parseArguments_argumentsJson lawful shallow

theorem readItems_taken {items : List (Item n)} {output : List (Value ν)}
    (shown : List.Forall₂ (fun item v => Shown v item) items output)
    (calls : ∀ c, Item.call c ∈ items → c.complete = true ∧ Shallow n c.arguments)
    (c : Conversation ι β) :
    output.foldlM (readItem n readImageUrl true) c =
      .ok (items.foldl Conversation.takeItem c) := by
  induction shown generalizing c with
  | nil => rfl
  | @cons item v items output first rest ih =>
    have read : readItem n readImageUrl true c v = .ok (c.takeItem item) := by
      cases item with
      | text reasoning text =>
        cases reasoning with
        | true => exact readItem_reasoning readImageUrl c first
        | false => exact readItem_text readImageUrl c first
      | call call =>
        obtain ⟨complete, shallow⟩ := calls call (by simp)
        rw [readItem_call readImageUrl c first, parseArguments_complete lawful complete shallow]
        rfl
    rw [List.foldlM_cons, read, ok_bind, ih fun call mem => calls call (by simp [mem]),
      List.foldl_cons]

/-- The items of a finished turn are read as its one message. -/
theorem responses_replayed (namespaces : List (String × String)) (limited : Bool) (t : Turn n)
    (shallow : ∀ c ∈ t.calls, Shallow n c.2.arguments) (ready : c.Ready) :
    (responsesItems namespaces limited t.segments).foldlM (readItem n readImageUrl true) c =
      .ok (if t.items = [] then c
        else c.push { role := .assistant, content := t.content, thought := t.reasoning,
                      toolCalls := t.toolCalls }) := by
  have shown := responsesItems_shown (n := n) namespaces limited t.segments
  rw [outline_turn] at shown
  rw [readItems_taken lawful readImageUrl shown, ready.takeItems]
  intro call mem
  have listed : ∃ c ∈ t.calls, c.2 = call := by
    simp only [Turn.items, List.mem_append, List.mem_map] at mem
    rcases mem with (mem | mem) | ⟨c, mem, same⟩
    · split at mem <;> simp at mem
    · split at mem <;> simp at mem
    · exact ⟨c, mem, by simpa using same⟩
  obtain ⟨c, listed, rfl⟩ := listed
  exact ⟨t.finished c listed, shallow c listed⟩

end

end Gufo.History
