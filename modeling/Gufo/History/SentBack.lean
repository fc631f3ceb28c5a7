import Gufo.History.Anthropic

/-!
# The program's own output as history

What each message parser makes of the output that its API gave for a turn.
-/

namespace Gufo.History
open Gufo.Chat (ChatRole)
open Gufo.Json Gufo.Json.Value Gufo.Outcome

variable {ν ι β : Type} {n : Numbers ν}

/-! ## Requests -/

variable {items : List (Value ν)}

theorem readTextMessages_eq (readImageUrl : ReadImageUrl ι β) (responses : Bool)
    (nonempty : items ≠ []) (budget : β) :
    readTextMessages n readImageUrl responses (some (.array items)) budget =
      (items.foldlM (readItem n readImageUrl responses) ({ budget } : Conversation ι β)).map
        fun c => c.messages ++ c.deferred := by
  cases items with
  | nil => exact absurd rfl nonempty
  | cons item items =>
    simp only [readTextMessages]
    cases (item :: items).foldlM (readItem n readImageUrl responses) { budget } <;> rfl

variable {readImageUrl : ReadImageUrl ι β} {c c' : Conversation ι β}

/-- Messages never defers an item. -/
theorem readItem_quiet {v : Value ν}
    (quiet : c.deferred = []) (read : readItem n readImageUrl false c v = .ok c') :
    c'.deferred = [] := by
  simp only [readItem, Bool.false_eq_true, false_and, if_false, true_and] at read
  split at read
  · obtain ⟨⟨messages, budget⟩, -, eq⟩ := bind_eq_ok.mp read
    cases eq
    exact quiet
  · split at read
    · cases read
    · obtain ⟨⟨m, budget⟩, -, eq⟩ := bind_eq_ok.mp read
      simp only at eq
      split at eq
      all_goals
        cases eq
        rfl

theorem readItems_quiet
    (quiet : c.deferred = [])
    (read : items.foldlM (readItem n readImageUrl false) c = .ok c') : c'.deferred = [] := by
  induction items generalizing c with
  | nil =>
    cases read
    exact quiet
  | cons v items ih =>
    rw [List.foldlM_cons] at read
    obtain ⟨c₁, step, rest⟩ := bind_eq_ok.mp read
    exact ih (readItem_quiet quiet step) rest

/-- Items that were read, the first of a request. -/
structure Earlier (n : Numbers ν) (readImageUrl : ReadImageUrl ι β) (responses : Bool) (budget : β)
    (items : List (Value ν)) (c : Conversation ι β) : Prop where
  nonempty : items ≠ []
  read : items.foldlM (readItem n readImageUrl responses) ({ budget } : Conversation ι β) = .ok c

theorem Earlier.followed {responses : Bool} {budget : β}
    {items more : List (Value ν)}
    (earlier : Earlier n readImageUrl responses budget items c)
    (read : more.foldlM (readItem n readImageUrl responses) c = .ok c') :
    readTextMessages n readImageUrl responses (some (.array (items ++ more))) budget =
      .ok (c'.messages ++ c'.deferred) := by
  rw [readTextMessages_eq _ _ (by simp [earlier.nonempty]), List.foldlM_append, earlier.read,
    ok_bind, read]
  rfl

/-- The calls of a message: equal ids, names, and argument names and values. -/
def SameCalls (n : Numbers ν) : List ParsedToolCall → List ToolCall → Prop :=
  List.Forall₂ fun call read => read.id = call.id ∧ read.name = call.name ∧
    argumentsObject n read.arguments = argumentsObject n call.arguments

/-- A message that tells the turn, but for whitespace around the reasoning. -/
structure SameTurn (n : Numbers ν) (reasoning text : String) (calls : List ParsedToolCall)
    (m : ChatMessage ι) : Prop where
  role : m.role = .assistant
  thought : m.thought = reasoning ∨ m.thought = trimmed reasoning
  content : m.content = text
  calls : SameCalls n calls m.toolCalls

theorem sameCalls_replayed (lawful : n.Lawful) (calls : List ParsedToolCall)
    (shallow : ∀ c ∈ calls, Shallow n c.arguments) :
    SameCalls n calls (calls.map (replayedCall n)) := by
  rw [SameCalls, List.forall₂_map_right_iff, List.forall₂_same]
  exact fun c mem => ⟨rfl, rfl, argumentsObject_replayed lawful (shallow c mem)⟩

def Turn.message (t : Turn n) (thought : String) : ChatMessage ι :=
  { role := .assistant, content := t.content, thought, toolCalls := t.toolCalls }

section
variable (lawful : n.Lawful) (readImageUrl : ReadImageUrl ι β)
include lawful

theorem chat_sent_back (g : ParsedGeneration) (shallow : ∀ c ∈ g.toolCalls, Shallow n c.arguments)
    (budget : β) :
    ∃ m, parseMessage n readImageUrl (chatMessage n g) budget = .ok (m, budget) ∧
      SameTurn n g.reasoningContent g.text g.toolCalls m :=
  ⟨_, chat_replayed lawful g shallow readImageUrl budget, rfl, .inl rfl, rfl,
    sameCalls_replayed lawful g.toolCalls shallow⟩

theorem Turn.sameCalls (t : Turn n) (shallow : ∀ c ∈ t.calls, Shallow n c.2.arguments) :
    SameCalls n (t.calls.map fun c => c.2.toParsedToolCall) t.toolCalls := by
  have same := sameCalls_replayed lawful (t.calls.map fun c => c.2.toParsedToolCall)
    (by
      intro c mem
      obtain ⟨listed, at_, rfl⟩ := List.mem_map.mp mem
      exact shallow listed at_)
  rwa [List.map_map] at same

theorem responses_sent_back (namespaces : List (String × String)) (limited : Bool) (t : Turn n)
    (shallow : ∀ c ∈ t.calls, Shallow n c.2.arguments) (spoken : t.items ≠ []) {budget : β}
    {c : Conversation ι β}
    (earlier : Earlier n readImageUrl true budget items c) (ready : c.Ready) :
    ∃ m, readTextMessages n readImageUrl true
        (some (.array (items ++ responsesItems namespaces limited t.segments))) budget =
          .ok (c.messages ++ c.deferred ++ [m]) ∧
      SameTurn n t.reasoning t.content (t.calls.map fun c => c.2.toParsedToolCall) m := by
  have replay := responses_replayed lawful readImageUrl namespaces limited t shallow ready
  rw [if_neg spoken] at replay
  refine ⟨t.message t.reasoning, ?_, rfl, .inl rfl, rfl, t.sameCalls lawful shallow⟩
  rw [earlier.followed replay]
  simp [Conversation.push, Turn.message]

theorem anthropic_sent_back (t : Turn n) (shallow : ∀ c ∈ t.calls, Shallow n c.2.arguments)
    {budget : β} {c : Conversation ι β}
    (earlier : Earlier n readImageUrl false budget items c) :
    ∃ content m, anthropicContent t.segments = .ok content ∧
      readTextMessages n readImageUrl false
        (some (.array (items ++ [anthropicMessage content]))) budget = .ok (c.messages ++ [m]) ∧
      SameTurn n t.reasoning t.content (t.calls.map fun c => c.2.toParsedToolCall) m := by
  have quiet := readItems_quiet (c := { budget }) rfl earlier.read
  obtain ⟨content, written, replay⟩ := anthropic_replayed lawful readImageUrl t shallow quiet
  refine ⟨content, t.message (trimmed t.reasoning), written, ?_, rfl, .inr rfl, rfl,
    t.sameCalls lawful shallow⟩
  rw [earlier.followed (by rw [List.foldlM_cons, replay, ok_bind, List.foldlM_nil]; rfl)]
  simp [Conversation.push, quiet, Turn.message]

end

/-- No argument of a call nests too deep, and a call that was cut off left text that is an object.
Messages does not send such text. -/
def Replayable (n : Numbers ν) (responses : Bool) (segments : List (Segment n)) : Prop :=
  ∀ id c, Segment.call id c ∈ segments →
    (c.complete = true → Shallow n c.arguments) ∧
    (c.complete = false → responses = true → Readable n c)

/-- Any turn's output is accepted behind what it was an answer to, and one that finished normally
is read as the one message that tells it. -/
theorem own_output_read_back (lawful : n.Lawful) (readImageUrl : ReadImageUrl ι β) (budget : β) :
    (∀ g : ParsedGeneration, (∀ c ∈ g.toolCalls, Shallow n c.arguments) →
      ∃ m, parseMessage n readImageUrl (chatMessage n g) budget = .ok (m, budget) ∧
        SameTurn n g.reasoningContent g.text g.toolCalls m) ∧
    (∀ items c, Earlier n readImageUrl true budget items c → ∀ namespaces limited,
      (∀ segments, Replayable n true segments → ∃ messages, readTextMessages n readImageUrl true
        (some (.array (items ++ responsesItems namespaces limited segments))) budget =
          .ok messages) ∧
      ∀ t : Turn n, (∀ c ∈ t.calls, Shallow n c.2.arguments) → t.items ≠ [] → c.Ready →
        ∃ m, readTextMessages n readImageUrl true
            (some (.array (items ++ responsesItems namespaces limited t.segments))) budget =
              .ok (c.messages ++ c.deferred ++ [m]) ∧
          SameTurn n t.reasoning t.content (t.calls.map fun c => c.2.toParsedToolCall) m) ∧
    (∀ items c, Earlier n readImageUrl false budget items c →
      (∀ segments : List (Segment n), Replayable n false segments → ∃ content messages,
        anthropicContent segments = .ok content ∧
          readTextMessages n readImageUrl false
            (some (.array (items ++ [anthropicMessage content]))) budget = .ok messages) ∧
      ∀ t : Turn n, (∀ c ∈ t.calls, Shallow n c.2.arguments) →
        ∃ content m, anthropicContent t.segments = .ok content ∧
          readTextMessages n readImageUrl false
            (some (.array (items ++ [anthropicMessage content]))) budget =
              .ok (c.messages ++ [m]) ∧
          SameTurn n t.reasoning t.content (t.calls.map fun c => c.2.toParsedToolCall) m) := by
  refine ⟨fun g shallow => chat_sent_back lawful readImageUrl g shallow budget, ?_, ?_⟩
  · intro items c earlier namespaces limited
    refine ⟨fun segments replayable => ?_, fun t shallow spoken ready =>
      responses_sent_back lawful readImageUrl namespaces limited t shallow spoken earlier ready⟩
    have readable : ∀ id c, Segment.call id c ∈ segments → Readable n c := by
      intro id c mem
      cases complete : c.complete with
      | true =>
        exact ⟨_, parseArguments_complete lawful complete ((replayable id c mem).1 complete)⟩
      | false => exact (replayable id c mem).2 complete rfl
    obtain ⟨c', read⟩ := responses_accepted readImageUrl namespaces limited readable c
    exact ⟨_, earlier.followed read⟩
  · intro items c earlier
    refine ⟨fun segments replayable => ?_, fun t shallow =>
      anthropic_sent_back lawful readImageUrl t shallow earlier⟩
    obtain ⟨blocks, fits, written⟩ :=
      anthropicContent_blocks lawful fun id c mem => (replayable id c mem).1
    have quiet := readItems_quiet (c := { budget }) rfl earlier.read
    have read := readItem_blocks lawful readImageUrl fits quiet
    exact ⟨_, _, written,
      earlier.followed (by rw [List.foldlM_cons, read, ok_bind, List.foldlM_nil]; rfl)⟩

/-! ## One turn -/

/-- Texts without a number. -/
def noNumbers : Numbers Empty := ⟨Empty.elim, fun _ => none⟩

theorem noNumbers_lawful : noNumbers.Lawful := ⟨fun x => x.elim, fun x => x.elim⟩

def noImages : ReadImageUrl Unit Unit := fun _ _ => .error "image URLs are not supported"

def question : ChatMessage Unit := { role := .user, content := "Find the crates." }

def asked : Value Empty :=
  .object [("role", .string "user"), ("content", .string "Find the crates.")]

theorem asked_earlier (responses : Bool) :
    Earlier noNumbers noImages responses () [asked] { messages := [question], budget := () } := by
  refine ⟨by simp, ?_⟩
  cases responses <;> rfl

/-- A call in two parts. -/
def searchCall : StreamedCall noNumbers where
  id := "call_1"
  name := "search"
  arguments := [{ name := "query", value := "crates", isString := true }]
  first := "\x7b\"query\":"
  rest := ["\"crates\"\x7d"]
  complete := true
  identified := by decide
  renderable := by decide
  whole := fun _ => by decide +kernel

theorem searchCall_shallow : Shallow noNumbers searchCall.arguments := by
  simp [Shallow, searchCall]

def searchTurn : Turn noNumbers where
  thoughts := [{ id := "rs_1", text := "A search will do. ", logprobs := .array [] }]
  texts := [{ id := "msg_1", text := "Searching.", logprobs := .array [] }]
  calls := [("fc_1", searchCall)]
  finished := by simp [searchCall]

/-- A call that the length limit cut off inside its first argument. -/
def cutCall : StreamedCall noNumbers where
  id := "call_1"
  name := "search"
  first := "\x7b\"query\":\"cra"
  complete := false
  identified := by decide
  renderable := by decide
  whole := by simp

theorem own_output_read_back_search :
    (∃ m, parseMessage noNumbers noImages (chatMessage noNumbers
        { text := "Searching.", toolCalls := [searchCall.toParsedToolCall] }) () = .ok (m, ()) ∧
      SameTurn noNumbers "" "Searching." [searchCall.toParsedToolCall] m) ∧
    (∃ m, readTextMessages noNumbers noImages true
        (some (.array ([asked] ++ responsesItems [] false searchTurn.segments))) () =
          .ok ([question] ++ [] ++ [m]) ∧
      SameTurn noNumbers searchTurn.reasoning searchTurn.content [searchCall.toParsedToolCall] m) ∧
    (∃ messages, readTextMessages noNumbers noImages true
        (some (.array ([asked] ++ responsesItems [] true searchTurn.segments))) () =
          .ok messages) ∧
    (∃ content m, anthropicContent searchTurn.segments = .ok content ∧
      readTextMessages noNumbers noImages false
        (some (.array ([asked] ++ [anthropicMessage content]))) () = .ok ([question] ++ [m]) ∧
      SameTurn noNumbers searchTurn.reasoning searchTurn.content [searchCall.toParsedToolCall] m) ∧
    ∃ content messages, anthropicContent [.call "" cutCall] = .ok content ∧
      readTextMessages noNumbers noImages false
        (some (.array ([asked] ++ [anthropicMessage content]))) () = .ok messages := by
  obtain ⟨chat, responses, anthropic⟩ := own_output_read_back noNumbers_lawful noImages ()
  have listed : ∀ c ∈ searchTurn.calls, Shallow noNumbers c.2.arguments := by
    simpa [searchTurn] using searchCall_shallow
  have ready : Conversation.Ready
      ({ messages := [question], budget := () } : Conversation Unit Unit) := by
    simp [Conversation.Ready, question]
  have whole : ∀ responses, Replayable noNumbers responses searchTurn.segments := by
    intro responses id c mem
    have same : c = searchCall := by
      simp [searchTurn, Turn.segments, Piece.segment] at mem
      exact mem.2
    subst same
    exact ⟨fun _ => searchCall_shallow, by simp [searchCall]⟩
  have cut : Replayable noNumbers false [Segment.call "" cutCall] := by
    intro id c mem
    have same : c = cutCall := by
      simp at mem
      exact mem.2
    subst same
    exact ⟨by simp [cutCall], by simp⟩
  refine ⟨chat _ (by simpa using searchCall_shallow), ?_, ?_, ?_, ?_⟩
  · exact (responses _ _ (asked_earlier true) [] false).2 searchTurn listed (by decide) ready
  · exact (responses _ _ (asked_earlier true) [] true).1 _ (whole true)
  · exact (anthropic _ _ (asked_earlier false)).2 searchTurn listed
  · exact (anthropic _ _ (asked_earlier false)).1 _ cut

def refusal (r : Except String (Value Empty)) : Option String :=
  match r with
  | .error what => some what
  | .ok _ => none

theorem parse_cutCall :
    parse noNumbers cutCall.text = .error "JSON parse error: unterminated string" := by
  have evaluated : refusal (parse noNumbers cutCall.text) =
      some "JSON parse error: unterminated string" := by
    decide +kernel
  cases read : parse noNumbers cutCall.text with
  | error what =>
    rw [read] at evaluated
    rw [Option.some.inj evaluated]
  | ok v =>
    rw [read] at evaluated
    cases evaluated

theorem cutCall_refused :
    readTextMessages noNumbers noImages true
        (some (.array ([asked] ++ responsesItems [] true [.call "fc_1" cutCall]))) () =
      .error "tool arguments are not valid JSON: JSON parse error: unterminated string" := by
  have shown : Shown (callItem "fc_1" none "incomplete" cutCall.text cutCall.toParsedToolCall)
      (Item.call cutCall) := ⟨"fc_1", none, "incomplete", rfl⟩
  have written : responsesItems [] true [Segment.call "fc_1" cutCall] =
      [callItem "fc_1" none "incomplete" cutCall.text cutCall.toParsedToolCall] := by
    rfl
  rw [written, readTextMessages_eq _ _ (by simp), List.foldlM_append, (asked_earlier true).read,
    ok_bind, List.foldlM_cons, readItem_call _ _ shown, parseArguments, parse_cutCall]
  rfl

end Gufo.History
