import Gufo.History.Output
import Gufo.Json.RoundTrip

/-!
# A turn read back

What a call's arguments, and the assistant message of Chat, are read as when they
come back in the next request.
-/

namespace Gufo.History
open Gufo.Chat (ChatRole)
open Gufo.Json Gufo.Json.Value Gufo.Outcome

section
variable {ν ι β : Type} {n : Numbers ν}

/-! ## Arguments -/

variable {l : List (String × Value ν)}

theorem mem_setMember_keys {key k : String} {x : Value ν}
    (h : k ∈ (setMember key x l).map Prod.fst) : k = key ∨ k ∈ l.map Prod.fst := by
  induction l with
  | nil => exact .inl (by simpa [setMember] using h)
  | cons m l ih =>
    by_cases same : m.1 = key
    · simp only [setMember, if_pos same, List.map_cons, List.mem_cons] at h ⊢
      rcases h with rfl | later
      · exact .inr (.inl rfl)
      · exact .inr (.inr later)
    · simp only [setMember, if_neg same, List.map_cons, List.mem_cons] at h ⊢
      rcases h with rfl | later
      · exact .inr (.inl rfl)
      · rcases ih later with eq | old
        · exact .inl eq
        · exact .inr (.inr old)

/-- What keeps an object serializable: its keys, its values, and how deep they nest. -/
structure Plain (bound : Nat) (l : List (String × Value ν)) : Prop where
  nodup : (l.map Prod.fst).Nodup
  distinct : DistinctMembers l
  deep : depthMembers l ≤ bound

theorem Plain.set {bound : Nat} (h : Plain bound l) {key : String}
    {x : Value ν} (distinct : x.Distinct) (deep : x.depth ≤ bound) :
    Plain bound (setMember key x l) := by
  induction l with
  | nil => exact ⟨by simp [setMember], ⟨distinct, trivial⟩, by simpa [setMember, depthMembers]⟩
  | cons m l ih =>
    have bound' := h.deep
    simp only [depthMembers] at bound'
    have nodup := h.nodup
    rw [List.map_cons, List.nodup_cons] at nodup
    by_cases same : m.1 = key
    · simp only [setMember, if_pos same]
      exact ⟨h.nodup, ⟨distinct, h.distinct.2⟩, by simp only [depthMembers]; omega⟩
    · simp only [setMember, if_neg same]
      have rest := ih ⟨nodup.2, h.distinct.2, by omega⟩
      have later := rest.deep
      refine ⟨?_, ⟨h.distinct.1, rest.distinct⟩, by simp only [depthMembers]; omega⟩
      rw [List.map_cons, List.nodup_cons]
      refine ⟨fun again => ?_, rest.nodup⟩
      rcases mem_setMember_keys again with eq | old
      · exact same eq
      · exact nodup.1 old

/-- No value of the arguments nests so deep that the object around it cannot be read. -/
def Shallow (n : Numbers ν) (arguments : List ToolArgument) : Prop :=
  ∀ a ∈ arguments, a.isString = false → ∀ v, parse n a.value = .ok v → v.depth ≤ 127

variable {arguments : List ToolArgument}

theorem argumentsObject_from (shallow : Shallow n arguments)
    (plain : Plain 127 l) :
    ∃ l', arguments.foldl (addArgument n) (.object l) = .object l' ∧ Plain 127 l' := by
  induction arguments generalizing l with
  | nil => exact ⟨l, rfl, plain⟩
  | cons a arguments ih =>
    have tail : Shallow n arguments := fun b hb => shallow b (List.mem_cons_of_mem a hb)
    have text : Plain 127 (setMember a.name (.string a.value) l) :=
      plain.set trivial (Nat.zero_le _)
    simp only [List.foldl_cons, addArgument]
    split
    · exact ih tail text
    · rename_i typed
      split
      · rename_i v read
        exact ih tail (plain.set (parse_ok read).1
          (shallow a (by simp) (by simpa using typed) v read))
      · exact ih tail text

/-- The arguments of a call are an object that is read back as it stands. -/
theorem argumentsObject_plain (shallow : Shallow n arguments) :
    ∃ l, argumentsObject n arguments = .object l ∧ Plain 127 l :=
  argumentsObject_from shallow ⟨by simp, trivial, Nat.zero_le _⟩

/-- The arguments that a call has after it was sent back. -/
def replayed (n : Numbers ν) (arguments : List ToolArgument) : List ToolArgument :=
  (argumentsObject n arguments).members.map (toolArgument n)

theorem parseArguments_object (lawful : n.Lawful)
    (plain : Plain 127 l) :
    parseArguments n ((Value.object l).dump n) = .ok (l.map (toolArgument n)) := by
  have read := parse_dump lawful (v := .object l) ⟨plain.nodup, plain.distinct⟩
    (Nat.succ_le_succ plain.deep)
  simp [parseArguments, read, isObject, members]

theorem parseArguments_argumentsJson (lawful : n.Lawful)
    (shallow : Shallow n arguments) :
    parseArguments n (argumentsJson n arguments) = .ok (replayed n arguments) := by
  obtain ⟨l, object, plain⟩ := argumentsObject_plain shallow
  simp only [argumentsJson, replayed, object, members]
  exact parseArguments_object lawful plain

theorem setMember_new {key : String} {x : Value ν}
    (new : key ∉ l.map Prod.fst) : setMember key x l = l ++ [(key, x)] := by
  induction l with
  | nil => rfl
  | cons m l ih =>
    simp only [List.map_cons, List.mem_cons, not_or] at new
    simp [setMember, if_neg (Ne.symm new.1), ih new.2]

theorem foldl_toolArgument (lawful : n.Lawful)
    (acc : List (String × Value ν))
    (nodup : ((acc ++ l).map Prod.fst).Nodup) (distinct : DistinctMembers l)
    (deep : depthMembers l ≤ 127) :
    (l.map (toolArgument n)).foldl (addArgument n) (.object acc) = .object (acc ++ l) := by
  induction l generalizing acc with
  | nil => simp
  | cons m l ih =>
    obtain ⟨key, x⟩ := m
    simp only [depthMembers] at deep
    have new : key ∉ acc.map Prod.fst := by
      rw [List.map_append, List.nodup_append] at nodup
      intro old
      exact nodup.2.2 key old key (by simp) rfl
    have step : ∀ y : Value ν, (Value.object acc).set key y = .object (acc ++ [(key, y)]) :=
      fun y => by rw [Value.set, members, setMember_new new]
    have rest := ih (acc ++ [(key, x)]) (by simpa using nodup) distinct.2 (by omega)
    rw [List.map_cons, List.foldl_cons]
    cases x with
    | string s =>
      simp only [addArgument, toolArgument, isString, if_true, step]
      simpa using rest
    | _ =>
      have read := parse_tojson lawful distinct.1 (by omega)
      simp only [addArgument, toolArgument, isString, Bool.false_eq_true, if_false, read, step]
      simpa using rest

/-- The replayed arguments have the names and values of the original ones. -/
theorem argumentsObject_replayed (lawful : n.Lawful)
    (shallow : Shallow n arguments) :
    argumentsObject n (replayed n arguments) = argumentsObject n arguments := by
  obtain ⟨l, object, plain⟩ := argumentsObject_plain shallow
  rw [replayed, object, members, argumentsObject,
    foldl_toolArgument lawful [] plain.nodup plain.distinct plain.deep, List.nil_append]

/-! ## Calls -/

theorem renderable_name {name : String} (h : renderableToolName name = true) :
    name ≠ "" ∧ Char.ofNat 0 ∉ name.toList := by
  simp only [renderableToolName, decide_eq_true_eq] at h
  obtain ⟨nonempty, _, all⟩ := h
  refine ⟨nonempty, fun zero => ?_⟩
  have := List.all_eq_true.mp all _ zero
  simp at this

theorem parseHistoricalFunction_named (id : String) {name : String} (arguments : String)
    (function : Value ν)
    (named : function.find "name" = some (.string name))
    (given : function.find "arguments" = some (.string arguments))
    (renderable : renderableToolName name = true) :
    parseHistoricalFunction n id function =
      (parseArguments n arguments).map fun arguments => { id, name, arguments } := by
  obtain ⟨nonempty, clear⟩ := renderable_name renderable
  simp [parseHistoricalFunction, named, given, if_neg nonempty, if_neg clear]

/-- A call as history has it. -/
def replayedCall (n : Numbers ν) (call : ParsedToolCall) : ToolCall where
  id := call.id
  name := call.name
  arguments := replayed n call.arguments

/-! ## Chat -/

theorem mapM_map_ok {ε α γ δ : Type} {f : γ → Except ε δ} {g : α → γ} {k : α → δ} {l : List α}
    (h : ∀ a ∈ l, f (g a) = .ok (k a)) : (l.map g).mapM f = .ok (l.map k) := by
  rw [mapM_eq_ok, List.forall₂_map_left_iff, List.forall₂_map_right_iff]
  exact List.forall₂_same.mpr h

theorem parseToolCalls (lawful : n.Lawful) {calls : List ParsedToolCall}
    (shallow : ∀ c ∈ calls, Shallow n c.arguments) :
    (toolCallsJson n calls).items.mapM (parseToolCall n) =
      .ok (calls.map (replayedCall n)) := by
  refine mapM_map_ok fun c hc => ?_
  have read := parseHistoricalFunction_named (n := n) c.id (argumentsJson n c.arguments)
    (.object [("name", .string c.name), ("arguments", .string (argumentsJson n c.arguments))])
    rfl rfl c.renderable
  rw [parseArguments_argumentsJson lawful (shallow c hc)] at read
  exact read

theorem parseMessage_assistant {value : Value ν} {text thought : String} {calls : List ToolCall}
    {readImageUrl : ReadImageUrl ι β} {budget : β} (object : value.isObject = true)
    (role : value.memberStr "role" = "assistant") (name : value.memberStr "name" = "")
    (tool : value.memberStr "tool_call_id" = "")
    (content : parseContent readImageUrl (value.find "content") { role := .assistant } budget =
      .ok ({ role := .assistant, content := text }, budget))
    (reasoning : parseReasoning value ({ role := .assistant, content := text } : ChatMessage ι) =
      .ok { role := .assistant, content := text, thought })
    (tools : (value.find "tool_calls" = none ∧ calls = []) ∨
      ∃ items, value.find "tool_calls" = some (.array items) ∧
        items.mapM (parseToolCall n) = .ok calls) :
    parseMessage n readImageUrl value budget =
      .ok ({ role := .assistant, content := text, thought, toolCalls := calls }, budget) := by
  have known : isKnownRole "assistant" = true := by decide
  have assistant : parseRole "assistant" = .assistant := by decide
  simp only [parseMessage, object, role, name, tool, known, assistant, Bool.true_eq_false, if_false,
    content, ok_bind, reasoning]
  rcases tools with ⟨none_, rfl⟩ | ⟨items, found, read⟩
  · rw [none_]
  · rw [found]
    simp only [if_true, read, ok_bind]
    rfl

/-- The assistant message of Chat is read as the turn it was written from. -/
theorem chat_replayed (lawful : n.Lawful) (g : ParsedGeneration)
    (shallow : ∀ c ∈ g.toolCalls, Shallow n c.arguments) (readImageUrl : ReadImageUrl ι β)
    (budget : β) :
    parseMessage n readImageUrl (chatMessage n g) budget =
      .ok ({ role := .assistant, content := g.text, thought := g.reasoningContent,
             toolCalls := g.toolCalls.map (replayedCall n) }, budget) := by
  have calls := parseToolCalls lawful shallow
  have array : toolCallsJson n g.toolCalls = .array (toolCallsJson n g.toolCalls).items := rfl
  obtain ⟨text, reasoning, toolCalls⟩ := g
  by_cases thought : reasoning = ""
  all_goals by_cases silent : text = ""
  all_goals cases toolCalls with
    | nil =>
      refine parseMessage_assistant ?_ ?_ ?_ ?_ ?_ ?_ (.inl ⟨?_, rfl⟩)
      all_goals simp [chatMessage, parseContent, parseReasoning, memberStr, *]
    | cons call rest =>
      refine parseMessage_assistant ?_ ?_ ?_ ?_ ?_ ?_ (.inr ⟨_, ?_, calls⟩)
      all_goals
        simp [chatMessage, parseContent, parseReasoning, memberStr, thought, silent, ← array]

end

end Gufo.History
