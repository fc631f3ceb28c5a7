import Gufo.Chat.Lines

/-!
# The turns of a prompt

Render, line by line: what each turn asks of the vocabulary. Reasoning, argument values and
the results of tools ask nothing. The names of a historical call stand in the line of their
tag without a span, and the end of a turn's text in the line of `<|im_end|>`.
-/

namespace Gufo.Chat
open Gufo.Text Gufo.ToolCall Gufo.ToolCall.Qwen Gufo.Marked

section
variable (tokenizer : QwenTokenizer)

/-- The line of a tag with a name. -/
def NameKept (tag name : Bytes) : Prop :=
  Kept tokenizer [framing tag, ⟨name, .name⟩, framing (bytes ">")]

def CallKept (call : ToolCall) : Prop :=
  NameKept tokenizer functionOpen call.name ∧
    ∀ argument ∈ call.arguments, NameKept tokenizer parameterOpen argument.name

/-- The fragments of a message's text, behind so many images. -/
def bodyOf (icu : Icu) (options : ChatTemplateOptions) (imageCount : Nat) (message : ChatMessage) :
    List Fragment :=
  (appendMessageContent icu options message imageCount 0).fragments

/-- A text followed by framing on its last line: it spells a special token itself, and is cut out,
or no special spelling begins in the text and ends in the framing. -/
def TextKept (text tail : Bytes) : Prop :=
  tokenizer.spellsSpecial text = true ∨
    ∀ u v, u ≠ [] → v ≠ [] → u ++ v ∈ tokenizer.spellings → u <:+ text → ¬v <+: tail

/-- What one message asks. The text of a turn shares its last line with `<|im_end|>`; a tool result,
and the text before calls, end with a line of their own. Images put their markers beside text. -/
def MessageKept (icu : Icu) (options : ChatTemplateOptions) (imageCount : Nat)
    (message : ChatMessage) : Prop :=
  let body := bodyOf icu options imageCount message
  if isTool message then message.images = [] ∨ Kept tokenizer body
  else if Rendering.calls message = [] then
    if message.images = [] then TextKept tokenizer (icu.trim message.content) imEnd
    else Kept tokenizer (body ++ [framing imEnd])
  else
    (message.images = [] ∨ Kept tokenizer body) ∧
      ∀ call ∈ Rendering.calls message, CallKept tokenizer call

def ConversationKept (icu : Icu) (options : ChatTemplateOptions) :
    Nat → List ChatMessage → Prop
  | _, [] => True
  | imageCount, message :: rest =>
    MessageKept tokenizer icu options imageCount message ∧
      ConversationKept icu options (imageCount + message.images.length) rest

variable {tokenizer}

theorem kept_drop_empty (fs : List Fragment) :
    Kept tokenizer (fs ++ [framing []]) ↔ Kept tokenizer fs :=
  kept_congr (by simp [framing])

/-- Text between line ends asks nothing. -/
theorem kept_isolated (free : LineFree tokenizer) (text after : Bytes) (gs : List Fragment) :
    Kept tokenizer (appendContent text :: framing (newline ++ after ++ newline) :: gs) ↔
      Kept tokenizer gs := by
  have before := kept_line free [appendContent text] gs [] (after ++ newline)
  rw [List.nil_append, ← List.append_assoc, kept_opening free] at before
  refine before.trans ⟨And.right, fun rest => ⟨?_, rest⟩⟩
  exact (kept_drop_empty [appendContent text]).mpr (kept_text text)

theorem kept_arguments (free : LineFree tokenizer) (arguments : List ToolArgument)
    (gs : List Fragment) :
    Kept tokenizer (appendArguments arguments ++ gs) ↔
      (∀ argument ∈ arguments, NameKept tokenizer parameterOpen argument.name) ∧
        Kept tokenizer gs := by
  induction arguments with
  | nil => simp [appendArguments]
  | cons argument arguments ih =>
    have line := kept_line free [framing parameterOpen, ⟨argument.name, .name⟩]
      (appendContent argument.value :: framing (newline ++ parameterClose ++ newline) ::
        (appendArguments arguments ++ gs)) (bytes ">") []
    rw [kept_empty, kept_isolated free, ih] at line
    rw [List.forall_mem_cons, and_assoc]
    exact line

theorem kept_toolCall (free : LineFree tokenizer) (call : ToolCall) (gs : List Fragment) :
    Kept tokenizer (appendToolCall call ++ gs) ↔
      CallKept tokenizer call ∧ Kept tokenizer (framing callClose :: gs) := by
  have opened := kept_line free [] (⟨call.name, .name⟩ :: framing (bytes ">\n") ::
    (appendArguments call.arguments ++ framing (functionClose ++ newline ++ callClose) :: gs))
    callOpen functionOpen
  have name := kept_line free [framing functionOpen, ⟨call.name, .name⟩]
    (appendArguments call.arguments ++ framing (functionClose ++ newline ++ callClose) :: gs)
    (bytes ">") []
  have closed := kept_line free [] gs functionClose callClose
  rw [kept_empty, kept_arguments free] at name
  have functionLine : Kept tokenizer ([] ++ [framing functionClose]) := kept_of_framing _
  have callLine : Kept tokenizer ([] ++ [framing callOpen]) := kept_of_framing _
  have shape : appendToolCall call ++ gs =
      [] ++ framing (callOpen ++ newline ++ functionOpen) :: ⟨call.name, .name⟩ ::
        framing (bytes ">\n") :: (appendArguments call.arguments ++
          framing (functionClose ++ newline ++ callClose) :: gs) := by
    simp [appendToolCall]
  rw [shape, opened]
  unfold CallKept
  rw [and_assoc]
  constructor
  · rintro ⟨-, rest⟩
    obtain ⟨named, arguments, ending⟩ := name.mp rest
    exact ⟨named, arguments, (closed.mp ending).2⟩
  · rintro ⟨named, arguments, ending⟩
    exact ⟨callLine, name.mpr ⟨named, arguments, closed.mpr ⟨functionLine, ending⟩⟩⟩

theorem kept_toolCalls (free : LineFree tokenizer) {calls : List ToolCall} (some : calls ≠ []) :
    Kept tokenizer (appendToolCalls calls ++ [framing (imEnd ++ newline)]) ↔
      ∀ call ∈ calls, CallKept tokenizer call := by
  induction calls with
  | nil => exact absurd rfl some
  | cons call calls ih =>
    cases calls with
    | nil =>
      have rest : Kept tokenizer [framing callClose, framing (imEnd ++ newline)] :=
        kept_framings (by simp [framing])
      simp only [appendToolCalls]
      rw [kept_toolCall free]
      simp [rest]
    | cons next calls =>
      have gap := kept_line free [framing callClose]
        (appendToolCalls (next :: calls) ++ [framing (imEnd ++ newline)]) [] []
      rw [kept_empty, ih (List.cons_ne_nil next calls)] at gap
      have line : Kept tokenizer ([framing callClose] ++ [framing []]) :=
        kept_framings (by simp [framing])
      have shape : appendToolCalls (call :: next :: calls) ++ [framing (imEnd ++ newline)] =
          appendToolCall call ++ framing newline ::
            (appendToolCalls (next :: calls) ++ [framing (imEnd ++ newline)]) := by
        simp [appendToolCalls]
      rw [shape, kept_toolCall free, List.forall_mem_cons]
      refine and_congr_right fun _ => ?_
      exact gap.trans ⟨And.right, fun rest => ⟨line, rest⟩⟩

/-! ## The text of a message -/

theorem rendered_clip (fs : List Fragment) (low high offset : Nat) :
    Fragment.rendered (Fragment.clip low high offset fs) =
      slice (Fragment.rendered fs) (low - offset) (high - offset) := by
  induction fs generalizing offset with
  | nil => simp [Fragment.rendered, Fragment.clip, slice]
  | cons f fs ih =>
    have whole : Fragment.rendered (f :: fs) = f.text ++ Fragment.rendered fs := rfl
    have parts : Fragment.rendered (Fragment.clip low high offset (f :: fs)) =
        slice f.text (low - offset) (high - offset) ++
          Fragment.rendered (Fragment.clip low high (offset + f.text.length) fs) := rfl
    rw [whole, parts, ih, slice_append, Nat.sub_sub, Nat.sub_sub]

theorem text_eq_nil {fs : List Fragment} (empty : Fragment.rendered fs = []) :
    ∀ f ∈ fs, f.text = [] := List.flatMap_eq_nil_iff.mp empty

section
variable (icu : Icu) (options : ChatTemplateOptions) (message : ChatMessage)
  (imageCount start : Nat)

theorem fragments_eq : (appendMessageContent icu options message imageCount start).fragments =
    bodyOf icu options imageCount message := by
  unfold bodyOf appendMessageContent
  split <;> rfl

theorem appendImages_count (content : Bytes) (images : List ImagePart) (cursor : Nat)
    (output : List Fragment) (offsets : List Nat) :
    (appendImages options content images cursor imageCount output offsets).2.2 =
      imageCount + images.length := by
  induction images generalizing cursor imageCount output offsets with
  | nil => rfl
  | cons image images ih =>
    simp only [appendImages, ih, List.length_cons]
    omega

theorem imageCount_eq : (appendMessageContent icu options message imageCount start).imageCount =
    imageCount + message.images.length := by
  unfold appendMessageContent
  split
  · rename_i none
    simp [none]
  · exact appendImages_count options imageCount message.content message.images 0 [] []

variable {icu options message imageCount start}

/-- A message without content has no text in its fragments. -/
theorem hasContent_false
    (none : (appendMessageContent icu options message imageCount start).hasContent = false) :
    ∀ f ∈ bodyOf icu options imageCount message, f.text = [] := by
  unfold appendMessageContent at none
  unfold bodyOf appendMessageContent
  split at none
  · rename_i plain
    have empty : icu.trim message.content = [] := by simpa using none
    rw [if_pos plain, empty]
    simp [appendContent]
  · rename_i images
    have empty := not_not.mp (of_decide_eq_false none)
    rw [if_neg images]
    refine text_eq_nil ?_
    rw [rendered_clip]
    exact empty

end

/-! ## Text before framing -/

theorem textKept_iff (text tail : Bytes) :
    Kept tokenizer [appendContent text, framing tail] ↔ TextKept tokenizer text tail := by
  by_cases spells : tokenizer.spellsSpecial text = true
  · refine iff_of_true ?_ (.inl spells)
    have cut : symbols tokenizer (appendContent text) = List.replicate text.length none :=
      if_pos (decide_eq_true ⟨rfl, spells⟩)
    unfold Kept
    simp only [List.flatMap_cons, List.flatMap_nil, List.append_nil, cut]
    rw [marks_separators free_none, copiedOf_cons, copiedOf_cons, copied_framing, copied]
    exact (apart_append (by simp [appendContent])).mpr
      ⟨apart_of_control _, by simpa [copiedOf] using apart_of_copied _⟩
  · have plain : symbols tokenizer (appendContent text) = text.map some :=
      if_neg fun cut => spells (of_decide_eq_true cut).2
    have all : [appendContent text, framing tail].flatMap (symbols tokenizer) =
        (text ++ tail).map some := by simp [plain]
    have labels : copiedOf [appendContent text, framing tail] =
        List.replicate text.length true ++ List.replicate tail.length false := by
      simp [copiedOf, copied, appendContent, framing]
    -- a spelling that begins in the text ends in the framing
    have straddles : ∀ w ∈ tokenizer.spellings, ∀ j < text.length, w <+: (text ++ tail).drop j →
        ∃ v, v ≠ [] ∧ w = text.drop j ++ v ∧ v <+: tail := by
      intro w hw j inside here
      obtain ⟨token, htoken, rfl⟩ := List.mem_map.mp hw
      rw [List.drop_append_of_le_length inside.le] at here
      have notInside : ¬token.text <+: text.drop j := by
        intro within
        obtain ⟨i, -, found⟩ := find_le inside.le within
        exact spells (List.any_eq_true.mpr ⟨token, htoken, by rw [found]; rfl⟩)
      have begins : text.drop j <+: token.text :=
        (List.prefix_or_prefix_of_prefix here (List.prefix_append _ _)).resolve_left notInside
      obtain ⟨v, eq⟩ := begins
      refine ⟨v, ?_, eq.symm, ?_⟩
      · rintro rfl
        rw [List.append_nil] at eq
        exact notInside (eq ▸ List.prefix_rfl)
      · rw [← eq] at here
        exact (List.prefix_append_right_inj _).mp here
    unfold Kept
    rw [all, marks_some, labels]
    constructor
    · intro apart
      right
      intro u v hu hv mem suffix_ begins
      obtain ⟨front, rfl⟩ := suffix_
      have here : u ++ v <+: (front ++ u ++ tail).drop front.length := by
        rw [List.append_assoc, List.drop_left]
        exact (List.prefix_append_right_inj u).mpr begins
      have marked_ := marked_start mem (by simp [hu]) here 0
      have inside : front.length < (front ++ u).length := by
        have := List.length_pos_of_ne_nil hu
        simp only [List.length_append]
        omega
      have copied_ : (List.replicate (front ++ u).length true ++
          List.replicate tail.length false)[front.length]? = some true := by
        rw [List.getElem?_append_left (by simpa using inside), List.getElem?_replicate,
          if_pos inside]
      exact apart _ (List.mem_of_getElem? (List.getElem?_zip_eq_some.mpr ⟨marked_, copied_⟩)) rfl
    · rintro (cut | none)
      · exact absurd cut spells
      · have nowhere : ∀ j < text.length, ∀ w ∈ tokenizer.spellings,
            w <+: (text ++ tail).drop j → w = [] := by
          intro j inside w hw here
          obtain ⟨v, hv, rfl, begins⟩ := straddles w hw j inside here
          exact absurd begins (none (text.drop j) v
            (by rw [ne_eq, List.drop_eq_nil_iff]; omega) hv hw (List.drop_suffix j text))
        rw [marks_none (by simp) nowhere]
        exact (apart_append (by simp)).mpr ⟨apart_of_control _, apart_of_copied _⟩

theorem bodyOf_text {icu : Icu} {options : ChatTemplateOptions} {imageCount : Nat}
    {message : ChatMessage} (noImages : message.images = []) :
    bodyOf icu options imageCount message = [appendContent (icu.trim message.content)] := by
  unfold bodyOf appendMessageContent
  rw [if_pos noImages]

/-- What a message asks, in its lines. -/
theorem messageKept_iff (icu : Icu) (options : ChatTemplateOptions) (imageCount : Nat)
    (message : ChatMessage) :
    MessageKept tokenizer icu options imageCount message ↔
      if isTool message then Kept tokenizer (bodyOf icu options imageCount message)
      else if Rendering.calls message = [] then
        Kept tokenizer (bodyOf icu options imageCount message ++ [framing imEnd])
      else
        Kept tokenizer (bodyOf icu options imageCount message) ∧
          ∀ call ∈ Rendering.calls message, CallKept tokenizer call := by
  unfold MessageKept
  by_cases noImages : message.images = []
  · have own : Kept tokenizer (bodyOf icu options imageCount message) := by
      rw [bodyOf_text noImages]
      exact kept_text _
    have shared : Kept tokenizer (bodyOf icu options imageCount message ++ [framing imEnd]) ↔
        TextKept tokenizer (icu.trim message.content) imEnd := by
      rw [bodyOf_text noImages]
      exact textKept_iff _ _
    simp [noImages, own, shared]
  · simp [noImages]

/-! ## One round of the loop -/

/-- The fragments that a tool result adds. -/
theorem kept_toolResult (free : LineFree tokenizer) (opening body : List Fragment) (ending : Bytes)
    (line : opening = [] ∨ ∃ a, opening = [framing (a ++ newline)]) :
    Kept tokenizer (opening ++ [framing (toolResponseOpen ++ newline)] ++ body ++
      [framing (newline ++ toolResponseClose)] ++ [framing (ending ++ newline)]) ↔
      Kept tokenizer body := by
  have closed := kept_line free body [framing (ending ++ newline)] [] toolResponseClose
  have rest : Kept tokenizer [framing toolResponseClose, framing (ending ++ newline)] :=
    kept_framings (by simp [framing])
  rw [List.nil_append, kept_drop_empty] at closed
  have inner : Kept tokenizer (framing (toolResponseOpen ++ newline) ::
      (body ++ framing (newline ++ toolResponseClose) :: [framing (ending ++ newline)])) ↔
      Kept tokenizer body := by
    rw [kept_opening free, closed]
    exact ⟨And.left, fun kept => ⟨kept, rest⟩⟩
  rcases line with rfl | ⟨a, rfl⟩
  · simpa using inner
  · have shape : [framing (a ++ newline)] ++ [framing (toolResponseOpen ++ newline)] ++ body ++
        [framing (newline ++ toolResponseClose)] ++ [framing (ending ++ newline)] =
        framing (a ++ newline) :: framing (toolResponseOpen ++ newline) ::
          (body ++ framing (newline ++ toolResponseClose) :: [framing (ending ++ newline)]) := by
      simp
    rw [shape, kept_opening free]
    exact inner

/-- The opening line of a turn and its reasoning ask nothing. -/
theorem kept_turnOpening (free : LineFree tokenizer) (c : Conversation) (index : Nat)
    (message : ChatMessage) (gs : List Fragment) :
    Kept tokenizer (Rendering.turnOpening c index message ++ gs) ↔ Kept tokenizer gs := by
  unfold Rendering.turnOpening
  split
  · have think : bytes "<think>\n" = bytes "<think>" ++ newline := by decide
    have unthink : bytes "\n</think>\n\n" =
        newline ++ (bytes "</think>" ++ newline) ++ newline := by decide
    simp only [List.cons_append, List.nil_append]
    rw [kept_opening free, think, kept_opening free, unthink, kept_isolated free]
  · exact kept_opening free _ gs

/-- The fragments that a turn adds behind its opening. -/
theorem kept_turn (free : LineFree tokenizer) {icu : Icu} {options : ChatTemplateOptions}
    {message : ChatMessage} (noTool : isTool message = false) (imageCount start : Nat) :
    Kept tokenizer (bodyOf icu options imageCount message ++
      (if Rendering.calls message ≠ [] then
        (if (appendMessageContent icu options message imageCount start).hasContent then
          [framing (newline ++ newline)] else []) ++ appendToolCalls (Rendering.calls message)
      else []) ++ [framing (imEnd ++ newline)]) ↔
      MessageKept tokenizer icu options imageCount message := by
  rw [messageKept_iff]
  simp only [noTool, Bool.false_eq_true, if_false]
  by_cases calls : Rendering.calls message = []
  · rw [if_neg (not_not.mpr calls), if_pos calls, List.append_nil]
    exact kept_end free _ imEnd
  · rw [if_pos calls, if_neg calls]
    have called := @kept_toolCalls tokenizer free _ calls
    cases content : (appendMessageContent icu options message imageCount start).hasContent with
    | true =>
      have gap := kept_line free (bodyOf icu options imageCount message)
        (appendToolCalls (Rendering.calls message) ++ [framing (imEnd ++ newline)]) [] newline
      have second := kept_opening free []
        (appendToolCalls (Rendering.calls message) ++ [framing (imEnd ++ newline)])
      rw [List.nil_append] at gap second
      rw [kept_drop_empty, second, called] at gap
      simpa using gap
    | false =>
      have empty := hasContent_false content
      have nothing :
          (bodyOf icu options imageCount message).filter (fun f => f.text ≠ []) = [] := by
        rw [List.filter_eq_nil_iff]
        intro f hf
        simp [empty f hf]
      have body : Kept tokenizer (bodyOf icu options imageCount message) :=
        kept_framings fun f hf nonempty => absurd (empty f hf) nonempty
      have dropped : Kept tokenizer (bodyOf icu options imageCount message ++
          (appendToolCalls (Rendering.calls message) ++ [framing (imEnd ++ newline)])) ↔
          Kept tokenizer (appendToolCalls (Rendering.calls message) ++
            [framing (imEnd ++ newline)]) :=
        kept_congr (by rw [List.filter_append, nothing, List.nil_append])
      simp only [Bool.false_eq_true, if_false, List.nil_append, List.append_assoc]
      rw [dropped, called]
      exact ⟨fun names => ⟨body, names⟩, And.right⟩

/-! ## The conversation -/

variable {c : Conversation}

theorem toolResult_kept (free : LineFree tokenizer) {s : Rendering}
    (lined : Lined tokenizer s.output) (firstOfGroup lastOfGroup : Bool) {message : ChatMessage}
    (tool : isTool message = true) :
    let s' := s.toolResult c firstOfGroup lastOfGroup message
    Lined tokenizer s'.output ∧ s'.imageCount = s.imageCount + message.images.length ∧
      (Kept tokenizer s'.output ↔ Kept tokenizer s.output ∧
        MessageKept tokenizer c.icu c.options s.imageCount message) := by
  have ending : (if lastOfGroup then imEnd ++ newline else newline) =
      (if lastOfGroup then imEnd else []) ++ newline := by
    cases lastOfGroup <;> rfl
  simp only [Rendering.toolResult, imageCount_eq, fragments_eq, ending]
  refine ⟨lined_end free _ _, trivial, ?_⟩
  have added := @kept_toolResult tokenizer free
    (if firstOfGroup then [framing (imStart ++ bytes "user\n")] else [])
    (bodyOf c.icu c.options s.imageCount message) (if lastOfGroup then imEnd else []) (by
      cases firstOfGroup with
      | false => exact .inl rfl
      | true => exact .inr ⟨imStart ++ bytes "user", by rfl⟩)
  rw [show MessageKept tokenizer c.icu c.options s.imageCount message ↔
    Kept tokenizer (bodyOf c.icu c.options s.imageCount message) by simp [messageKept_iff, tool],
    ← added, ← lined]
  simp

theorem marks_output (c : Conversation) (index : Nat) (message : ChatMessage) (s : Rendering) :
    (s.marks c index message).output = s.output ∧
      (s.marks c index message).imageCount = s.imageCount := by
  unfold Rendering.marks
  simp only
  split
  · split <;> exact ⟨rfl, rfl⟩
  · split <;> split <;> exact ⟨rfl, rfl⟩

theorem guard_ok {ε α : Type} {p : Prop} [Decidable p] {e : ε} {x : Except ε α} {b : α}
    (done : (if p then Except.error e else x) = .ok b) : ¬p ∧ x = .ok b := by
  split at done
  · cases done
  · rename_i holds
    exact ⟨holds, done⟩

theorem ok_of_guard {ε α : Type} {p : Prop} [Decidable p] {e : ε} {a b : α}
    (done : (if p then Except.error e else .ok a) = .ok b) : ¬p ∧ a = b := by
  obtain ⟨holds, same⟩ := guard_ok done
  exact ⟨holds, Except.ok.inj same⟩

theorem turn_kept (free : LineFree tokenizer) {s s' : Rendering} (lined : Lined tokenizer s.output)
    {index : Nat} {message : ChatMessage} (noTool : isTool message = false)
    (done : s.turn c index message = .ok s') :
    Lined tokenizer s'.output ∧ s'.imageCount = s.imageCount + message.images.length ∧
      (Kept tokenizer s'.output ↔ Kept tokenizer s.output ∧
        MessageKept tokenizer c.icu c.options s.imageCount message) := by
  obtain ⟨output, count⟩ := marks_output c index message s
  obtain ⟨-, eq⟩ := ok_of_guard done
  rw [← eq]
  simp only [output, count, fragments_eq, imageCount_eq]
  refine ⟨lined_end free _ _, trivial, ?_⟩
  have added := @kept_turn tokenizer free c.icu c.options message noTool
    s.imageCount (Fragment.size (s.output ++ Rendering.turnOpening c index message))
  refine Iff.trans ?_ (and_congr_right fun _ =>
    (kept_turnOpening free c index message _).trans added)
  rw [← lined]
  simp

/-- The loop asks of the vocabulary what its turns ask. -/
theorem renderMessages_kept (free : LineFree tokenizer) {messages : List ChatMessage} {index : Nat}
    {inGroup : Bool} {s s' : Rendering} (lined : Lined tokenizer s.output)
    (done : renderMessages c index inGroup messages s = .ok s') :
    Lined tokenizer s'.output ∧ (Kept tokenizer s'.output ↔ Kept tokenizer s.output ∧
      ConversationKept tokenizer c.icu c.options s.imageCount messages) := by
  induction messages generalizing index inGroup s with
  | nil =>
    obtain rfl := Except.ok.inj done
    exact ⟨lined, by simp [ConversationKept]⟩
  | cons message rest ih =>
    unfold renderMessages at done
    split at done
    · rename_i tool
      obtain ⟨lined', count, kept⟩ := toolResult_kept (c := c) free lined (!inGroup)
        (!(rest.head?.any isTool)) tool
      obtain ⟨last, all⟩ := ih lined' done
      rw [kept, count, and_assoc] at all
      exact ⟨last, all⟩
    · rename_i noTool
      cases turned : s.turn c index message with
      | error e =>
        rw [turned] at done
        cases done
      | ok next =>
        rw [turned] at done
        obtain ⟨lined', count, kept⟩ := turn_kept free lined (Bool.not_eq_true _ ▸ noTool) turned
        obtain ⟨last, all⟩ := ih lined' done
        rw [kept, count, and_assoc] at all
        exact ⟨last, all⟩

/-! ## The whole prompt -/

theorem systemLine : bytes "system\n" = bytes "system" ++ newline := by decide

/-- The system turn: its content stands between line ends, but for `<|im_end|>` behind it. -/
theorem systemTurn_kept (free : LineFree tokenizer) (icu : Icu) (tools : List ChatTool)
    (options : ChatTemplateOptions) (messages : List ChatMessage) :
    Lined tokenizer (systemTurn icu tools options messages) ∧
      (Kept tokenizer (systemTurn icu tools options messages) ↔
        Kept tokenizer (systemContent icu messages ++ [framing imEnd])) := by
  unfold systemTurn
  simp only
  generalize appendToolsPrompt (appendReasoningInstruction options) tools = instructions
  generalize systemContent icu messages = content
  by_cases silent : Fragment.rendered content = []
  · -- no text was copied
    have empty := text_eq_nil silent
    have right : Kept tokenizer (content ++ [framing imEnd]) := by
      refine kept_framings fun f hf nonempty => ?_
      rcases List.mem_append.mp hf with mem | mem
      · exact absurd (empty f mem) nonempty
      · obtain rfl := List.mem_singleton.mp mem
        rfl
    have noGap : (if instructions ≠ [] ∧ Fragment.rendered content ≠ [] then bytes "\n\n"
        else []) = [] := if_neg fun both => both.2 silent
    rw [noGap]
    split
    · exact ⟨lined_nil, iff_of_true (kept_framings (by simp)) right⟩
    · refine ⟨lined_end free _ _, iff_of_true (kept_framings fun f hf nonempty => ?_) right⟩
      simp only [List.cons_append, List.nil_append, List.mem_cons, List.mem_append] at hf
      rcases hf with rfl | rfl | mem | mem
      · rfl
      · rfl
      · exact absurd (empty f mem) nonempty
      · simp only [List.not_mem_nil, or_false] at mem
        rw [mem]
        rfl
  · rw [if_neg (by simp [silent])]
    refine ⟨lined_end free _ _, ?_⟩
    rw [systemLine, ← List.append_assoc imStart]
    simp only [List.cons_append, List.nil_append]
    rw [kept_opening free]
    by_cases plain : instructions = []
    · simp only [plain, ne_eq, not_true, false_and, if_false, List.append_nil]
      exact kept_end free content imEnd
    · have gap : bytes "\n\n" = newline ++ newline := by decide
      simp only [ne_eq, plain, not_false_eq_true, silent, and_self, if_true, gap,
        ← List.append_assoc]
      rw [List.append_assoc instructions newline newline, ← List.append_assoc instructions,
        kept_opening free]
      exact kept_end free content imEnd

/-- What Render returns, where it returns a prompt. -/
theorem render_ok {icu : Icu} {messages : List ChatMessage} {tools : List ChatTool}
    {options : ChatTemplateOptions} {r : Rendered}
    (done : render icu messages tools options = .ok r) :
    ∃ lastUser s, lastUserIndex icu (hoist messages) = some lastUser ∧
      renderMessages ⟨icu, options, lastUser, finalUserTurn (hoist messages) lastUser⟩
        ((hoist messages).takeWhile isSystem).length false ((hoist messages).dropWhile isSystem)
        { output := systemTurn icu tools options ((hoist messages).takeWhile isSystem) } = .ok s ∧
      r.output = s.output ++ (if options.addGenerationPrompt then
        [framing (generationPrompt options.enableThinking)] else []) ∧
      r.stablePrefixBytes = min (s.mutableReasoning.getD (Fragment.size s.output))
        (s.finalUserStart.getD (Fragment.size s.output)) := by
  obtain ⟨-, done⟩ := guard_ok done
  obtain ⟨-, done⟩ := guard_ok done
  obtain ⟨-, done⟩ := guard_ok done
  cases query : lastUserIndex icu (hoist messages) with
  | none => simp [query, reduceCtorEq] at done
  | some lastUser =>
    simp only [query] at done
    cases loop : renderMessages ⟨icu, options, lastUser, finalUserTurn (hoist messages) lastUser⟩
        ((hoist messages).takeWhile isSystem).length false ((hoist messages).dropWhile isSystem)
        { output := systemTurn icu tools options ((hoist messages).takeWhile isSystem) } with
    | error e => simp [loop, reduceCtorEq] at done
    | ok s =>
      simp only [loop] at done
      obtain ⟨-, eq⟩ := ok_of_guard done
      exact ⟨lastUser, s, rfl, loop, by rw [← eq], by rw [← eq]⟩

/-- No special token of the encoded prompt spans a byte that was copied from a message. -/
def ControlApart (tokenizer : QwenTokenizer) (options : TokenizerOptions) (r : Rendered) : Prop :=
  Apart (controlOf (encodeRendered tokenizer (Fragment.rendered r.output) 0
    (Fragment.rendered r.output).length (Fragment.spans 0 r.output) options)) (copiedOf r.output)

instance (tokenizer : QwenTokenizer) (options : TokenizerOptions) (r : Rendered) :
    Decidable (ControlApart tokenizer options r) :=
  inferInstanceAs (Decidable (Apart _ _))

/-- The lines that ask something of the vocabulary: each turn's text with the markers it shares a
line with, and each name of a historical call in its tag. -/
def MessagesKept (tokenizer : QwenTokenizer) (icu : Icu) (options : ChatTemplateOptions)
    (messages : List ChatMessage) : Prop :=
  Kept tokenizer (systemContent icu ((hoist messages).takeWhile isSystem) ++ [framing imEnd]) ∧
    ConversationKept tokenizer icu options 0 ((hoist messages).dropWhile isSystem)

/-- Message text becomes no control token exactly where no line around a name or at the end of a
text lets it. -/
theorem controlApart_iff (free : LineFree tokenizer) (addBos addEos : Bool) {icu : Icu}
    {messages : List ChatMessage} {tools : List ChatTool} {options : ChatTemplateOptions}
    {r : Rendered} (done : render icu messages tools options = .ok r) :
    ControlApart tokenizer { addBos := addBos, addEos := addEos } r ↔
      MessagesKept tokenizer icu options messages := by
  obtain ⟨lastUser, s, -, loop, output, -⟩ := render_ok done
  obtain ⟨linedSystem, system⟩ := systemTurn_kept free icu tools options
    ((hoist messages).takeWhile isSystem)
  obtain ⟨lined, kept⟩ := renderMessages_kept free linedSystem loop
  have ending : Kept tokenizer (if options.addGenerationPrompt then
      [framing (generationPrompt options.enableThinking)] else []) := by
    split
    · exact kept_of_framing _
    · exact kept_framings (by simp)
  unfold ControlApart MessagesKept
  rw [show ({ addBos := addBos, addEos := addEos } : TokenizerOptions) =
      { ({ addBos := addBos, addEos := addEos } : TokenizerOptions) with
        parseSpecialTokens := true } from rfl,
    controlOf_encodeRendered]
  change Kept tokenizer r.output ↔ _
  rw [output, lined, kept, system]
  exact and_iff_left ending

end

/-! ## A conversation with a historical call -/

/-- ICU on text of single bytes. -/
def asciiIcu : Icu where
  next value i := (i + 1, (value.getD i 0).toNat)
  prev value _ i := (i - 1, (value.getD (i - 1) 0).toNat)
  isUWhiteSpace cp := decide (9 ≤ cp ∧ cp ≤ 13 ∨ cp = 32)

/-- A vocabulary of bytes and the two turn markers. -/
def turnTokens : QwenTokenizer where
  specialTokens := [⟨imStart, 256, by decide⟩, ⟨imEnd, 257, by decide⟩]
  bpeEncodeText text := text.map fun b => b.toUInt32

/-- A question, a call from the history, its result. -/
def afterCall (name : String) : List ChatMessage :=
  [{ content := bytes "hi" },
    { role := .assistant
      toolCalls := [{ name := bytes name }] },
    { role := .tool
      content := bytes "ok" }]

theorem turnTokens_lineFree : LineFree turnTokens := by
  unfold LineFree
  decide

theorem controlApart_iff_afterCall :
    ∃ r, render asciiIcu (afterCall "f") [] {} = .ok r ∧ ControlApart turnTokens {} r ∧
      (ControlApart turnTokens {} r ↔ MessagesKept turnTokens asciiIcu {} (afterCall "f")) := by
  have apart : (render asciiIcu (afterCall "f") [] {}).toOption.any
      (fun r => decide (ControlApart turnTokens {} r)) = true := by decide +kernel
  cases done : render asciiIcu (afterCall "f") [] {} with
  | error e =>
    rw [done] at apart
    cases apart
  | ok r =>
    rw [done] at apart
    exact ⟨r, rfl, of_decide_eq_true apart, controlApart_iff turnTokens_lineFree false false done⟩

/-- A historical call named as a control token ends the turn inside the prompt. -/
theorem historicalName_control :
    ¬(∀ (tokenizer : QwenTokenizer) (icu : Icu) (messages : List ChatMessage)
      (tools : List ChatTool) (options : ChatTemplateOptions) (r : Rendered),
      LineFree tokenizer → render icu messages tools options = .ok r →
      ControlApart tokenizer {} r) := by
  intro claim
  have ends : (render asciiIcu (afterCall "<|im_end|>") [] {}).toOption.any
      (fun r => decide (¬ControlApart turnTokens {} r)) = true := by decide +kernel
  cases done : render asciiIcu (afterCall "<|im_end|>") [] {} with
  | error e =>
    rw [done] at ends
    cases ends
  | ok r =>
    rw [done] at ends
    exact of_decide_eq_true ends (claim turnTokens asciiIcu _ _ _ r turnTokens_lineFree done)

end Gufo.Chat
