import Gufo.Lib.Outcome
import Gufo.Tp.Codec

/-!
# The control codec is exact

Every part of a payload has a reading lemma (the reader takes exactly the bytes the
writer puts, whatever follows) and its converse (what a reader accepts is what the
writer puts for the value read). The messages follow by composition.
-/

namespace Gufo.Tp
open Gufo.Wire Gufo.Outcome

/-! ## Words, strings and flags -/

theorem toNat_length {n : Nat} (h : n < 2 ^ 32) : n.toUInt32.toNat = n := by
  simp [Nat.toUInt32]
  omega

theorem reads_readU32 (n : UInt32) : Reads readU32 (appendU32 n) n := by
  have word := reads_return
    (@reads_takeWord 4 n.toUInt64 (by decide) (by simpa using n.toNat_lt))
    UInt64.toUInt32
  rwa [UInt32.toUInt32_toUInt64] at word

theorem reads_readU64 (n : UInt64) : Reads readU64 (appendU64 n) n :=
  reads_takeWord (by decide) n.toNat_lt

theorem reads_readInt32 (n : Int32) : Reads readInt32 (appendU32 n.toUInt32) n :=
  reads_return (reads_readU32 _) UInt32.toInt32

theorem reads_readString {b : Bytes} (h : b.length < 2 ^ 32) :
    Reads readString (appendString b) b := by
  apply reads_bind (reads_readU32 _)
  rw [toNat_length h]
  exact reads_takeBytes b

theorem of_readU32 {bytes rest : Bytes} {n : UInt32} (h : readU32 bytes = some (n, rest)) :
    bytes = appendU32 n ++ rest := by
  obtain ⟨word, mid, read, done⟩ := of_bind h
  obtain ⟨rfl, rfl⟩ := of_pure done
  obtain ⟨rfl, fits⟩ := of_takeWord (by decide) read
  have same : word.toUInt32.toUInt64 = word := by
    apply UInt64.toNat_inj.mp
    simpa using Nat.mod_eq_of_lt fits
  rw [appendU32, same]

theorem of_readU64 {bytes rest : Bytes} {n : UInt64} (h : readU64 bytes = some (n, rest)) :
    bytes = appendU64 n ++ rest :=
  (of_takeWord (by decide) h).1

theorem of_readInt32 {bytes rest : Bytes} {n : Int32} (h : readInt32 bytes = some (n, rest)) :
    bytes = appendU32 n.toUInt32 ++ rest := by
  obtain ⟨bits, mid, read, done⟩ := of_bind h
  obtain ⟨rfl, rfl⟩ := of_pure done
  exact of_readU32 read

theorem of_readString {bytes b rest : Bytes} (h : readString bytes = some (b, rest)) :
    bytes = appendString b ++ rest := by
  obtain ⟨size, mid, head, body⟩ := of_bind h
  obtain ⟨length, rfl⟩ := of_takeBytes body
  have same : b.length.toUInt32 = size := by
    rw [length]
    simp [Nat.toUInt32]
  rw [of_readU32 head, appendString, same, List.append_assoc]

theorem hasBit_requestFlags : ∀ a b c d : Bool,
    hasBit (flag a 1 ||| flag b 2 ||| flag c 4 ||| flag d 8) 1 = a ∧
    hasBit (flag a 1 ||| flag b 2 ||| flag c 4 ||| flag d 8) 2 = b ∧
    hasBit (flag a 1 ||| flag b 2 ||| flag c 4 ||| flag d 8) 4 = c ∧
    hasBit (flag a 1 ||| flag b 2 ||| flag c 4 ||| flag d 8) 8 = d ∧
    ¬15 < (flag a 1 ||| flag b 2 ||| flag c 4 ||| flag d 8) := by
  decide

theorem hasBit_sourceFlags : ∀ a b c : Bool,
    hasBit (flag a 1 ||| flag b 2 ||| flag c 4) 1 = a ∧
    hasBit (flag a 1 ||| flag b 2 ||| flag c 4) 2 = b ∧
    hasBit (flag a 1 ||| flag b 2 ||| flag c 4) 4 = c ∧
    ¬7 < (flag a 1 ||| flag b 2 ||| flag c 4) := by
  decide

theorem of_small {P : UInt32 → Prop} {bound : Nat} (each : ∀ n : Fin bound, P n.val.toUInt32)
    {flags : UInt32} (small : flags.toNat < bound) : P flags := by
  have here := each ⟨flags.toNat, small⟩
  rwa [show flags.toNat.toUInt32 = flags by simp [Nat.toUInt32]] at here

theorem flags_of_bits {flags : UInt32} (small : ¬15 < flags) :
    flag (hasBit flags 1) 1 ||| flag (hasBit flags 2) 2 ||| flag (hasBit flags 4) 4 |||
      flag (hasBit flags 8) 8 = flags := by
  have below : flags.toNat < 16 := by
    have := UInt32.not_lt.mp small
    simpa using Nat.lt_succ_of_le this
  exact of_small (P := fun flags => flag (hasBit flags 1) 1 ||| flag (hasBit flags 2) 2 |||
    flag (hasBit flags 4) 4 ||| flag (hasBit flags 8) 8 = flags) (by decide) below

theorem sourceFlags_of_bits {flags : UInt32} (small : ¬7 < flags) :
    flag (hasBit flags 1) 1 ||| flag (hasBit flags 2) 2 ||| flag (hasBit flags 4) 4 = flags := by
  have below : flags.toNat < 8 := by
    have := UInt32.not_lt.mp small
    simpa using Nat.lt_succ_of_le this
  exact of_small (P := fun flags => flag (hasBit flags 1) 1 ||| flag (hasBit flags 2) 2 |||
    flag (hasBit flags 4) 4 = flags) (by decide) below

@[simp] theorem ofCode_code (op : TpInstructionOp) : TpInstructionOp.ofCode op.code = some op := by
  cases op <;> rfl

theorem code_of_ofCode {code : UInt32} {op : TpInstructionOp}
    (h : TpInstructionOp.ofCode code = some op) : op.code = code := by
  have inside : code.toNat < 16 := (List.getElem?_eq_some_iff.mp h).1
  revert h
  exact of_small (P := fun code => TpInstructionOp.ofCode code = some op → op.code = code)
    (by cases op <;> decide) inside

/-! ## Requests -/

theorem length_appendU32 (n : UInt32) : (appendU32 n).length = 4 := length_leBytes 4 _

theorem length_appendTokens (tokens : List Int32) :
    (tokens.flatMap appendToken).length = tokens.length * 4 := by
  induction tokens with
  | nil => rfl
  | cons token rest ih =>
    simp only [List.flatMap_cons, List.length_append, List.length_cons, ih, appendToken,
      length_appendU32]
    omega

theorem reads_tokens (tokens : List Int32) :
    Reads (many readInt32 tokens.length) (tokens.flatMap appendToken) tokens :=
  reads_many fun token _ => reads_readInt32 token

theorem of_tokens {n : Nat} {tokens : List Int32} {bytes rest : Bytes}
    (h : many readInt32 n bytes = some (tokens, rest)) :
    tokens.length = n ∧ bytes = tokens.flatMap appendToken ++ rest :=
  @of_many _ appendToken _ of_readInt32 _ _ _ _ h

/-- The fields `readRequest` reads. -/
def TpControlCommand.requestPart (c : TpControlCommand) : TpControlCommand :=
  { sequence := c.sequence, maxTokens := c.maxTokens, cachePrompt := c.cachePrompt,
    cachePrefixTokens := c.cachePrefixTokens, promptTokens := c.promptTokens,
    clientId := c.clientId, promptContext := c.promptContext, kind := .kSingle }

/-- The sizes the reader accepts. -/
structure RequestFits (c : TpControlCommand) : Prop where
  nonempty : c.promptTokens ≠ []
  tokens : c.promptTokens.length ≤ kMaxPromptTokens
  client : c.clientId.length ≤ kMaxClientIdBytes
  context : c.promptContext.length ≤ kMaxPromptContextBytes

theorem flag_of_small : ∀ b : Bool, ¬1 < flag b 1 ∧ decide (flag b 1 ≠ 0) = b := by decide

theorem small_of_flag {n : UInt32} (h : ¬1 < n) : flag (decide (n ≠ 0)) 1 = n := by
  have below : n.toNat < 2 := by
    have := UInt32.le_iff_toNat_le.mp (UInt32.not_lt.mp h)
    simpa using Nat.lt_succ_of_le this
  exact of_small (P := fun n => flag (decide (n ≠ 0)) 1 = n) (by decide) below

variable {c : TpControlCommand}

theorem reads_request (fits : RequestFits c) :
    Reads (readRequest c.sequence) (appendRequest c) c.requestPart := by
  obtain ⟨nonempty, tokens, client, context⟩ := fits
  unfold kMaxPromptTokens at tokens
  unfold kMaxClientIdBytes at client
  unfold kMaxPromptContextBytes kMaxPayloadBytes at context
  have count := toNat_length (n := c.promptTokens.length) (by omega)
  have clientSize := toNat_length (n := c.clientId.length) (by omega)
  have contextSize := toNat_length (n := c.promptContext.length) (by omega)
  simp only [appendRequest, List.append_assoc]
  refine reads_bind (reads_readU32 _) <| reads_bind (reads_readU32 _) <|
    reads_bind (reads_readU32 _) <| reads_bind (reads_readU32 _) <|
    reads_bind (reads_readU32 _) <| reads_bind (reads_readU32 _) <| reads_reject ?_ <|
    reads_atLeast ?_ ?_
  · rw [← UInt32.toNat_inj, count, clientSize, contextSize]
    simp only [not_or, Nat.not_lt]
    refine ⟨(flag_of_small _).1, by simp; omega, ?_, client, ?_⟩
    · unfold kMaxPromptTokens
      omega
    · unfold kMaxPromptContextBytes kMaxPayloadBytes
      omega
  · simp only [count, clientSize, contextSize, List.length_append, length_appendTokens]
    omega
  · rw [count, clientSize, contextSize]
    refine reads_bind (reads_tokens _) <| reads_bind (reads_takeBytes _) ?_
    simp only [(flag_of_small c.cachePrompt).2]
    exact reads_return (reads_takeBytes c.promptContext) fun promptContext =>
      ({ c.requestPart with promptContext } : TpControlCommand)

variable {sequence : UInt64}

theorem of_request {bytes rest : Bytes}
    (h : readRequest sequence bytes = some (c, rest)) :
    c = { c with sequence }.requestPart ∧ bytes = appendRequest c ++ rest := by
  obtain ⟨maxTokens, _, r1, h⟩ := of_bind h
  obtain ⟨cachePrompt, _, r2, h⟩ := of_bind h
  obtain ⟨cachePrefixTokens, _, r3, h⟩ := of_bind h
  obtain ⟨promptCount, _, r4, h⟩ := of_bind h
  obtain ⟨clientSize, _, r5, h⟩ := of_bind h
  obtain ⟨contextSize, _, r6, h⟩ := of_bind h
  obtain ⟨bounds, h⟩ := of_reject h
  have h := of_atLeast h
  obtain ⟨promptTokens, _, r7, h⟩ := of_bind h
  obtain ⟨clientId, _, r8, h⟩ := of_bind h
  obtain ⟨promptContext, _, r9, h⟩ := of_bind h
  obtain ⟨rfl, rfl⟩ := of_pure h
  simp only [not_or] at bounds
  obtain ⟨count, rfl⟩ := of_tokens r7
  obtain ⟨client, rfl⟩ := of_takeBytes r8
  obtain ⟨context, rfl⟩ := of_takeBytes r9
  refine ⟨rfl, ?_⟩
  rw [of_readU32 r1, of_readU32 r2, of_readU32 r3, of_readU32 r4, of_readU32 r5, of_readU32 r6]
  simp only [appendRequest, count, client, context, small_of_flag bounds.1, List.append_assoc]
  simp [Nat.toUInt32]

/-! ## Sampling, constraint and budget -/

theorem reads_sampling (config : SamplingConfig) (flags : UInt32) :
    Reads readSampling (appendSampling config ++ appendU32 flags)
      ({ config with logprobs := none, constraint := none, reasoningBudget := none },
        logprobsWord config.logprobs, flags) := by
  simp only [appendSampling, List.append_assoc]
  refine reads_bind (reads_readU32 _) <| reads_bind (reads_readU32 _) <|
    reads_bind (reads_readU32 _) <| reads_bind (reads_readU32 _) <|
    reads_bind (reads_readU64 _) <| reads_bind (reads_readU64 _) <|
    reads_bind (reads_readU32 _) <| reads_bind (reads_readU64 _) <|
    reads_bind (reads_readU32 _) <| reads_bind (reads_readU32 _) <|
    reads_bind (reads_readU32 _) ?_
  exact reads_return (reads_readU32 flags) fun flags =>
    (({ config with logprobs := none, constraint := none, reasoningBudget := none } :
      SamplingConfig), logprobsWord config.logprobs, flags)

variable {config : SamplingConfig}

theorem of_sampling {bytes rest : Bytes} {logprobs flags : UInt32}
    (h : readSampling bytes = some ((config, logprobs, flags), rest)) :
    config.constraint = none ∧ ∀ configured : Option UInt32, logprobsWord configured = logprobs →
      bytes = (appendSampling { config with logprobs := configured } ++ appendU32 flags) ++
        rest := by
  obtain ⟨temperature, _, r1, h⟩ := of_bind h
  obtain ⟨topK, _, r2, h⟩ := of_bind h
  obtain ⟨topP, _, r3, h⟩ := of_bind h
  obtain ⟨minP, _, r4, h⟩ := of_bind h
  obtain ⟨minKeep, _, r5, h⟩ := of_bind h
  obtain ⟨seed, _, r6, h⟩ := of_bind h
  obtain ⟨repeatPenalty, _, r7, h⟩ := of_bind h
  obtain ⟨repeatLastN, _, r8, h⟩ := of_bind h
  obtain ⟨frequencyPenalty, _, r9, h⟩ := of_bind h
  obtain ⟨presencePenalty, _, r10, h⟩ := of_bind h
  obtain ⟨word, _, r11, h⟩ := of_bind h
  obtain ⟨bits, _, r12, h⟩ := of_bind h
  obtain ⟨made, rfl⟩ := of_pure h
  obtain ⟨rfl, rfl, rfl⟩ := made
  refine ⟨rfl, ?_⟩
  rintro configured rfl
  rw [of_readU32 r1, of_readU32 r2, of_readU32 r3, of_readU32 r4, of_readU64 r5, of_readU64 r6,
    of_readU32 r7, of_readU64 r8, of_readU32 r9, of_readU32 r10, of_readU32 r11, of_readU32 r12]
  simp [appendSampling]

/-- The strings of a tool are within a frame. -/
structure ToolFits (tool : Tool) : Prop where
  name : tool.name.length < 2 ^ 32
  description : tool.description.length < 2 ^ 32
  parameters : tool.parametersJson.length < 2 ^ 32
  definition : tool.definitionJson.length < 2 ^ 32

theorem length_appendString (b : Bytes) : (appendString b).length = 4 + b.length := by
  simp [appendString, length_appendU32]

theorem length_appendTool (tool : Tool) : (appendTool tool).length = 16 + tool.name.length +
    tool.description.length + tool.parametersJson.length + tool.definitionJson.length := by
  simp only [appendTool, List.length_append, length_appendString]
  omega

theorem length_appendTools (tools : List Tool) :
    16 * tools.length ≤ (tools.flatMap appendTool).length := by
  induction tools with
  | nil => simp
  | cons tool rest ih =>
    simp only [List.flatMap_cons, List.length_append, List.length_cons, length_appendTool]
    omega

theorem toolFits_of_length {tools : List Tool} (small : (tools.flatMap appendTool).length < 2 ^ 32)
    {tool : Tool} (among : tool ∈ tools) : ToolFits tool := by
  have inside : (appendTool tool).length ≤ (tools.flatMap appendTool).length :=
    (List.sublist_flatten_of_mem (List.mem_map_of_mem among)).length_le
  rw [length_appendTool] at inside
  constructor <;> omega

theorem reads_tool {tool : Tool} (fits : ToolFits tool) : Reads readTool (appendTool tool) tool := by
  simp only [appendTool, List.append_assoc]
  exact reads_bind (reads_readString fits.name) <| reads_bind (reads_readString fits.description) <|
    reads_bind (reads_readString fits.parameters) <|
    reads_return (reads_readString fits.definition) fun definitionJson =>
      ({ tool with definitionJson } : Tool)

theorem of_tool {bytes rest : Bytes} {tool : Tool} (h : readTool bytes = some (tool, rest)) :
    bytes = appendTool tool ++ rest := by
  obtain ⟨name, _, r1, h⟩ := of_bind h
  obtain ⟨description, _, r2, h⟩ := of_bind h
  obtain ⟨parameters, _, r3, h⟩ := of_bind h
  obtain ⟨definition, _, r4, h⟩ := of_bind h
  obtain ⟨rfl, rfl⟩ := of_pure h
  rw [of_readString r1, of_readString r2, of_readString r3, of_readString r4]
  simp [appendTool]

variable {message : String}

theorem accepts_refuseWith {β : Type} {c : Nat → Prop} [DecidablePred c]
    {f : Unit → Checked β} {l : Bytes} {b : β} (passed : ∀ n, l.length ≤ n → ¬c n)
    (body : Accepts (f ()) l b) : Accepts (refuseWith c message >>= f) l b := by
  intro rest
  have run := body rest
  have good : ¬c (l.length + rest.length) := passed _ (by omega)
  simpa [bind, StateT.bind, refuseWith, Except.bind, good] using run

theorem of_refuseWith {β : Type} {c : Nat → Prop} [DecidablePred c]
    {f : Unit → Checked β} {bytes rest : Bytes} {b : β}
    (h : (refuseWith c message >>= f) bytes = .ok (b, rest)) :
    ¬c bytes.length ∧ f () bytes = .ok (b, rest) := by
  obtain ⟨_, mid, guard, done⟩ := of_accepts_bind h
  unfold refuseWith at guard
  split at guard
  · simp at guard
  · rename_i good
    obtain ⟨-, rfl⟩ := guard
    exact ⟨good, done⟩

variable {source : TpConstraintSource}

theorem reads_sourceHead
    (small : source.responseFormatJson.length < 2 ^ 32) :
    Reads readSourceHead (appendString source.responseFormatJson ++
        appendU32 (sourceFlags source) ++ appendU32 source.toolChoice.toUInt32 ++
        appendU32 source.tools.length.toUInt32)
      (source.responseFormatJson, sourceFlags source, source.toolChoice.toUInt32,
        source.tools.length.toUInt32) := by
  simp only [List.append_assoc]
  exact reads_bind (reads_readString small) <| reads_bind (reads_readU32 _) <|
    reads_bind (reads_readU32 _) <| reads_return (reads_readU32 _) fun toolCount =>
      (source.responseFormatJson, sourceFlags source, source.toolChoice.toUInt32, toolCount)

theorem accepts_source
    (small : (appendSource source).length < 2 ^ 32) :
    Accepts readSource (appendSource source) source := by
  have format : source.responseFormatJson.length < 2 ^ 32 := by
    simp only [appendSource, List.length_append, length_appendString] at small
    omega
  have tools : (source.tools.flatMap appendTool).length < 2 ^ 32 := by
    simp only [appendSource, List.length_append] at small
    omega
  have room := length_appendTools source.tools
  have count := toNat_length (n := source.tools.length) (by omega)
  obtain ⟨responses, parallel, reasoning, bound⟩ := hasBit_sourceFlags
    source.responseFormatResponses source.parallelToolCalls source.reasoning
  refine accepts_bind (accepts_orReject _ (reads_sourceHead format)) (accepts_refuseWith ?_ ?_)
  · intro left enough
    simp only [sourceInvalid, count, not_or]
    refine ⟨bound, ?_, ?_⟩
    · have := source.toolChoice.toNat_lt
      rw [UInt32.lt_iff_toNat_lt]
      simp
      omega
    · omega
  · rw [count]
    have each := @reads_many _ appendTool readTool source.tools fun tool among =>
      reads_tool (toolFits_of_length tools among)
    have whole := accepts_bind (f := fun tools => pure ({ source with tools } : TpConstraintSource))
      (accepts_orReject "TP control request constraint is truncated" each)
      (accepts_pure _)
    simpa [sourceFlags, responses, parallel, reasoning] using whole

theorem of_source {bytes rest : Bytes}
    (h : readSource bytes = .ok (source, rest)) : bytes = appendSource source ++ rest := by
  obtain ⟨⟨format, flags, choice, count⟩, _, head, h⟩ := of_accepts_bind h
  obtain ⟨valid, h⟩ := of_refuseWith h
  obtain ⟨tools, _, body, h⟩ := of_accepts_bind h
  obtain ⟨rfl, rfl⟩ := of_accepts_pure h
  obtain ⟨format, _, r1, h⟩ := of_bind (of_orReject head)
  obtain ⟨flags, _, r2, h⟩ := of_bind h
  obtain ⟨choice, _, r3, h⟩ := of_bind h
  obtain ⟨count, _, r4, h⟩ := of_bind h
  obtain ⟨made, rfl⟩ := of_pure h
  obtain ⟨rfl, rfl, rfl, rfl⟩ := made
  simp only [sourceInvalid, not_or] at valid
  obtain ⟨length, rfl⟩ := @of_many _ appendTool _ of_tool _ _ _ _ (of_orReject body)
  have choiceWord : choice.toUInt8.toUInt32 = choice := by
    apply UInt32.toNat_inj.mp
    have := UInt32.le_iff_toNat_le.mp (UInt32.not_lt.mp valid.2.1)
    simp at this ⊢
    omega
  rw [of_readString r1, of_readU32 r2, of_readU32 r3, of_readU32 r4]
  simp only [appendSource, sourceFlags, sourceFlags_of_bits valid.1, choiceWord, length,
    List.append_assoc]
  simp [Nat.toUInt32]

theorem accepts_readIf {α : Type} {r : Checked α} {append : α → Bytes} {value : Option α}
    (each : ∀ a, value = some a → Accepts r (append a) a) :
    Accepts (readIf value.isSome r) (appendOption append value) value := by
  cases value with
  | none => exact accepts_pure none
  | some a =>
    have whole := accepts_bind (f := fun a => pure (some a)) (each a rfl) (accepts_pure _)
    rwa [List.append_nil] at whole

theorem of_readIf {α : Type} {r : Checked α} {append : α → Bytes} {present : Bool}
    {value : Option α} {bytes rest : Bytes}
    (each : ∀ {bytes a rest}, r bytes = .ok (a, rest) → bytes = append a ++ rest)
    (h : readIf present r bytes = .ok (value, rest)) :
    value.isSome = present ∧ bytes = appendOption append value ++ rest := by
  cases present with
  | false =>
    obtain ⟨rfl, rfl⟩ := of_accepts_pure h
    exact ⟨rfl, rfl⟩
  | true =>
    obtain ⟨a, mid, read, h⟩ := of_accepts_bind h
    obtain ⟨rfl, rfl⟩ := of_accepts_pure h
    exact ⟨rfl, each read⟩

theorem refuse_ok {c : Prop} [Decidable c] (h : ¬c) :
    refuse c message = .ok () := if_neg h

theorem of_refuse {c : Prop} [Decidable c] {u : Unit}
    (h : refuse c message = .ok u) : ¬c := by
  intro hc
  simp [refuse, hc] at h

theorem refuse_eq_ok {c : Prop} [Decidable c] {u : Unit} :
    refuse c message = .ok u ↔ ¬c := ⟨of_refuse, refuse_ok⟩

/-- A first check of several. -/
theorem refuse_bind_eq_ok {α : Type} {c : Prop} [Decidable c]
    {f : Unit → Except String α} {a : α} :
    refuse c message >>= f = .ok a ↔ ¬c ∧ f () = .ok a := by
  simp only [bind_eq_ok, refuse_eq_ok, exists_and_left]
  exact and_congr_right fun _ => ⟨fun ⟨_, h⟩ => h, fun h => ⟨(), h⟩⟩

/-- The encoded log probabilities, back as the option. -/
theorem logprobs_of_word {logprobs : Option UInt32} (h : ∀ n, logprobs = some n → ¬20 < n) :
    ¬21 < logprobsWord logprobs ∧
      (if logprobsWord logprobs = 0 then none else some (logprobsWord logprobs - 1)) =
        logprobs := by
  cases logprobs with
  | none => exact ⟨by decide, rfl⟩
  | some n =>
    have small : n.toNat < 21 := by
      have := UInt32.le_iff_toNat_le.mp (UInt32.not_lt.mp (h n rfl))
      simpa using Nat.lt_succ_of_le this
    exact of_small (P := fun n => ¬21 < logprobsWord (some n) ∧
      (if logprobsWord (some n) = 0 then none else some (logprobsWord (some n) - 1)) = some n)
      (by decide) small

theorem word_of_logprobs (word : UInt32) :
    logprobsWord (if word = 0 then none else some (word - 1)) = word := by
  by_cases zero : word = 0
  · simp [zero, logprobsWord]
  · simp [zero, logprobsWord]

/-- What a request is on the other side: a constraint or a source also sets `constrained`,
and the constraint and budget objects stay behind. -/
def TpControlCommand.transmittedRequest (c : TpControlCommand) : TpControlCommand :=
  { c.requestPart with
    sampling := { c.sampling with constraint := none, reasoningBudget := none }
    constrained := c.constrained || c.sampling.constraint.isSome || c.constraintSource.isSome
    constraintSource := c.constraintSource
    reasoningBudget := c.reasoningBudget
    stopAtEos := c.stopAtEos }

theorem accepts_single (fits : RequestFits c)
    (logprobs : ∀ n, c.sampling.logprobs = some n → ¬20 < n)
    (small : (appendSingle c).length < 2 ^ 32) :
    Accepts (readSingle c.sequence) (appendSingle c) c.transmittedRequest := by
  obtain ⟨constrained, eos, source, budget, bound⟩ := hasBit_requestFlags
    (c.constrained || c.sampling.constraint.isSome || c.constraintSource.isSome)
    (!c.stopAtEos) c.constraintSource.isSome c.reasoningBudget.isSome
  obtain ⟨wordSmall, wordBack⟩ := logprobs_of_word logprobs
  have flagsGood : ¬(15 < requestFlags c ∨
      (hasBit (requestFlags c) 4 = true ∧ ¬hasBit (requestFlags c) 1 = true)) := by
    unfold requestFlags
    rw [source, constrained]
    rintro (large | ⟨there, free⟩)
    · exact bound large
    · exact free (by simp [there])
  have sourceSmall : ∀ s, c.constraintSource = some s → (appendSource s).length < 2 ^ 32 := by
    intro s hs
    simp only [appendSingle, List.length_append, hs, appendOption, Option.map_some,
      Option.getD_some] at small
    omega
  have layout : appendSingle c = appendRequest c ++
      ((appendSampling c.sampling ++ appendU32 (requestFlags c)) ++
        (appendOption appendSource c.constraintSource ++
          appendOption appendU64 c.reasoningBudget)) := by
    simp [appendSingle]
  rw [layout]
  refine accepts_bind (accepts_orReject _ (reads_request fits)) <|
    accepts_bind (accepts_orReject _ (reads_sampling _ _)) <|
    accepts_lift (refuse_ok wordSmall) <| accepts_lift (refuse_ok flagsGood) ?_
  have sourceBit : hasBit (requestFlags c) 4 = c.constraintSource.isSome := source
  have budgetBit : hasBit (requestFlags c) 8 = c.reasoningBudget.isSome := budget
  have constrainedBit : hasBit (requestFlags c) 1 =
    (c.constrained || c.sampling.constraint.isSome || c.constraintSource.isSome) := constrained
  have eosBit : hasBit (requestFlags c) 2 = !c.stopAtEos := eos
  rw [sourceBit, budgetBit, constrainedBit, eosBit, wordBack, Bool.not_not]
  refine accepts_bind (accepts_readIf fun s hs => accepts_source (sourceSmall s hs)) ?_
  have last := accepts_bind
    (f := fun reasoningBudget => pure ({ c.transmittedRequest with reasoningBudget } :
      TpControlCommand))
    (@accepts_readIf _ _ appendU64 c.reasoningBudget fun n _ =>
      accepts_orReject "TP control request reasoning budget is truncated" (reads_readU64 n))
    (accepts_pure _)
  rw [List.append_nil] at last
  exact last

theorem of_single {bytes rest : Bytes}
    (h : readSingle sequence bytes = .ok (c, rest)) :
    c.sequence = sequence ∧ c.kind = .kSingle ∧ bytes = appendSingle c ++ rest := by
  obtain ⟨parsed, _, request, h⟩ := of_accepts_bind h
  obtain ⟨⟨config, logprobs, flags⟩, _, sampling, h⟩ := of_accepts_bind h
  obtain ⟨_, probs, h⟩ := of_accepts_lift h
  obtain ⟨_, valid, h⟩ := of_accepts_lift h
  obtain ⟨constraintSource, _, source, h⟩ := of_accepts_bind h
  obtain ⟨reasoningBudget, _, budget, h⟩ := of_accepts_bind h
  obtain ⟨rfl, rfl⟩ := of_accepts_pure h
  obtain ⟨small, grounded⟩ := not_or.mp (of_refuse valid)
  obtain ⟨announced, rfl⟩ := of_readIf of_source source
  obtain ⟨budgeted, rfl⟩ := @of_readIf _ _ appendU64 _ _ _ _
    (fun h => of_readU64 (of_orReject h)) budget
  obtain ⟨made, rfl⟩ := of_request (of_orReject request)
  obtain ⟨unconstrained, wire⟩ := of_sampling (of_orReject sampling)
  have sameSequence : parsed.sequence = sequence := congrArg TpControlCommand.sequence made
  have sameKind : parsed.kind = .kSingle := congrArg TpControlCommand.kind made
  have constrained : (hasBit flags 1 || false || hasBit flags 4) = hasBit flags 1 := by
    cases whole : hasBit flags 4 with
    | false => simp
    | true =>
      simp only [whole, true_and, not_not] at grounded
      rw [grounded]
      rfl
  refine ⟨sameSequence, sameKind, ?_⟩
  rw [wire _ (word_of_logprobs logprobs)]
  simp only [appendSingle, requestFlags, unconstrained, Option.isSome_none, announced, budgeted,
    constrained, Bool.not_not, flags_of_bits small, List.append_assoc]
  rfl

/-! ## Instructions -/

theorem reads_member (member : TpBatchMember) : Reads readMember (appendMember member) member := by
  simp only [appendMember, List.append_assoc]
  exact reads_bind (reads_readU64 _) <| reads_bind (reads_readU32 _) <|
    reads_bind (reads_readInt32 _) <| reads_bind (reads_readU32 _) <|
    reads_bind (reads_readU64 _) <| reads_bind (reads_readInt32 _) <|
    reads_return (reads_readU32 _) fun drafts => ({ member with drafts } : TpBatchMember)

theorem of_member {bytes rest : Bytes} {member : TpBatchMember}
    (h : readMember bytes = some (member, rest)) : bytes = appendMember member ++ rest := by
  obtain ⟨sequence, _, r1, h⟩ := of_bind h
  obtain ⟨state, _, r2, h⟩ := of_bind h
  obtain ⟨token, _, r3, h⟩ := of_bind h
  obtain ⟨count, _, r4, h⟩ := of_bind h
  obtain ⟨rng, _, r5, h⟩ := of_bind h
  obtain ⟨pending, _, r6, h⟩ := of_bind h
  obtain ⟨drafts, _, r7, h⟩ := of_bind h
  obtain ⟨rfl, rfl⟩ := of_pure h
  rw [of_readU64 r1, of_readU32 r2, of_readInt32 r3, of_readU32 r4, of_readU64 r5,
    of_readInt32 r6, of_readU32 r7]
  simp [appendMember]

variable {i : TpInstruction}

theorem reads_instructionHead (small : i.batch.length ≤ kMaxBatchMembers) :
    Reads readInstructionHead (appendInstructionHead i)
      ({ i with batch := [] }, i.batch.length.toUInt32) := by
  unfold kMaxBatchMembers at small
  have count := toNat_length (n := i.batch.length) (by omega)
  have within : ¬kMaxBatchMembers < i.batch.length.toUInt32.toNat := by
    unfold kMaxBatchMembers
    omega
  simp only [appendInstructionHead, List.append_assoc]
  refine reads_bind (reads_readU32 _) <| reads_bind (reads_readU64 _) <|
    reads_bind (reads_readU32 _) <| reads_bind (reads_readInt32 _) <|
    reads_bind (reads_readU32 _) <| reads_bind (reads_readU32 _) <|
    reads_bind (reads_readU32 _) <| reads_bind (reads_readU64 _) <|
    reads_bind (reads_readU64 _) <| reads_bind (reads_readU64 _) <|
    reads_bind (reads_readInt32 _) <| reads_bind (reads_readU64 _) <|
    reads_bind (reads_readU32 _) <| reads_bind (reads_readU32 _) <|
    reads_bind (reads_readU32 _) <| reads_bind (reads_readU32 _) <| reads_reject within ?_
  rw [ofCode_code]
  exact reads_pure _

theorem of_instructionHead {bytes rest : Bytes} {head : TpInstruction} {size : UInt32}
    (h : readInstructionHead bytes = some ((head, size), rest)) (batch : List TpBatchMember)
    (length : batch.length.toUInt32 = size) :
    bytes = appendInstructionHead { head with batch } ++ rest := by
  obtain ⟨code, _, r1, h⟩ := of_bind h
  obtain ⟨index, _, r2, h⟩ := of_bind h
  obtain ⟨state, _, r3, h⟩ := of_bind h
  obtain ⟨token, _, r4, h⟩ := of_bind h
  obtain ⟨offset, _, r5, h⟩ := of_bind h
  obtain ⟨count, _, r6, h⟩ := of_bind h
  obtain ⟨promptSize, _, r7, h⟩ := of_bind h
  obtain ⟨snapshotId, _, r8, h⟩ := of_bind h
  obtain ⟨digest, _, r9, h⟩ := of_bind h
  obtain ⟨rng, _, r10, h⟩ := of_bind h
  obtain ⟨pending, _, r11, h⟩ := of_bind h
  obtain ⟨fileKey, _, r12, h⟩ := of_bind h
  obtain ⟨batchDrafts, _, r13, h⟩ := of_bind h
  obtain ⟨lookahead, _, r14, h⟩ := of_bind h
  obtain ⟨drafts, _, r15, h⟩ := of_bind h
  obtain ⟨batchSize, _, r16, h⟩ := of_bind h
  obtain ⟨-, h⟩ := of_reject h
  cases known : TpInstructionOp.ofCode code with
  | none =>
    rw [known] at h
    exact absurd h of_failure
  | some op =>
    rw [known] at h
    obtain ⟨made, rfl⟩ := of_pure h
    obtain ⟨rfl, rfl⟩ := made
    rw [of_readU32 r1, of_readU64 r2, of_readU32 r3, of_readInt32 r4, of_readU32 r5,
      of_readU32 r6, of_readU32 r7, of_readU64 r8, of_readU64 r9, of_readU64 r10,
      of_readInt32 r11, of_readU64 r12, of_readU32 r13, of_readU32 r14, of_readU32 r15,
      of_readU32 r16]
    simp [appendInstructionHead, code_of_ofCode known, length]

theorem accepts_instruction (small : i.batch.length ≤ kMaxBatchMembers) :
    Accepts readInstruction (appendInstruction i) i := by
  have count : i.batch.length.toUInt32.toNat = i.batch.length := by
    unfold kMaxBatchMembers at small
    exact toNat_length (by omega)
  apply accepts_bind (accepts_orReject _ (reads_instructionHead small))
  simp only [count]
  have each := @reads_many _ appendMember readMember i.batch fun member _ =>
    reads_member member
  have whole := accepts_bind (f := fun batch => pure ({ i with batch } : TpInstruction))
    (accepts_orReject "TP control instruction batch is truncated" each)
    (accepts_pure _)
  rwa [List.append_nil] at whole

theorem of_instruction {bytes rest : Bytes}
    (h : readInstruction bytes = .ok (i, rest)) : bytes = appendInstruction i ++ rest := by
  obtain ⟨⟨head, size⟩, _, fixed, h⟩ := of_accepts_bind h
  obtain ⟨batch, _, members, h⟩ := of_accepts_bind h
  obtain ⟨rfl, rfl⟩ := of_accepts_pure h
  obtain ⟨length, rfl⟩ := @of_many _ appendMember _ of_member _ _ _ _ (of_orReject members)
  have counted : batch.length.toUInt32 = size := by
    rw [length]
    simp [Nat.toUInt32]
  rw [of_instructionHead (of_orReject fixed) batch counted, appendInstruction, List.append_assoc]

/-! ## Commands -/

theorem reads_header (sequence : UInt64) (kind : UInt32) :
    Reads (readHeader sequence) (appendU64 sequence ++ appendU32 kind) kind := by
  exact reads_bind (reads_readU64 _) <| reads_bind (reads_readU32 _) <|
    reads_reject (fun different => different rfl) (reads_pure kind)

theorem of_header {bytes rest : Bytes} {kind : UInt32}
    (h : readHeader sequence bytes = some (kind, rest)) :
    bytes = (appendU64 sequence ++ appendU32 kind) ++ rest := by
  obtain ⟨embedded, _, r1, h⟩ := of_bind h
  obtain ⟨word, _, r2, h⟩ := of_bind h
  obtain ⟨same, h⟩ := of_reject h
  obtain ⟨rfl, rfl⟩ := of_pure h
  rw [not_not] at same
  rw [of_readU64 r1, of_readU32 r2, same, List.append_assoc]

/-- What a command is on the other side: an instruction carries no request fields. -/
def TpControlCommand.transmitted (c : TpControlCommand) : TpControlCommand :=
  match c.kind with
  | .kSingle => c.transmittedRequest
  | .kInstruction =>
    { sequence := c.sequence, kind := .kInstruction, instruction := c.instruction }

/-- The bounds on a command that its check leaves. -/
structure CommandFits (c : TpControlCommand) : Prop where
  request : c.kind = .kSingle → RequestFits c
  logprobs : c.kind = .kSingle → ∀ n, c.sampling.logprobs = some n → ¬20 < n
  batch : c.kind = .kInstruction → c.instruction.batch.length ≤ kMaxBatchMembers

theorem accepts_command (fits : CommandFits c)
    (small : (encodeCommand c).length < 2 ^ 32) :
    Accepts (readCommand c.sequence) (encodeCommand c) c.transmitted := by
  obtain ⟨request, logprobs, batch⟩ := fits
  have header := accepts_orReject "TP control command header is invalid"
    (reads_header c.sequence c.kind.code)
  simp only [encodeCommand, List.length_append] at small ⊢
  apply accepts_bind header
  cases kind : c.kind with
  | kSingle =>
    rw [kind] at small
    simp only [TpControlCommand.transmitted, kind]
    exact accepts_single (request kind) (logprobs kind) (by simp only at small; omega)
  | kInstruction =>
    rw [if_neg (by decide), if_pos rfl]
    have whole := accepts_bind (f := fun instruction => pure
      ({ sequence := c.sequence, kind := .kInstruction, instruction } : TpControlCommand))
      (accepts_instruction (batch kind)) (accepts_pure _)
    simpa [TpControlCommand.transmitted, kind] using whole

theorem of_command {bytes rest : Bytes}
    (h : readCommand sequence bytes = .ok (c, rest)) :
    c.sequence = sequence ∧ bytes = encodeCommand c ++ rest := by
  obtain ⟨kind, _, header, h⟩ := of_accepts_bind h
  rw [of_header (of_orReject header)]
  split at h
  · rename_i single
    obtain ⟨sameSequence, sameKind, rfl⟩ := of_single h
    refine ⟨sameSequence, ?_⟩
    simp [encodeCommand, sameSequence, sameKind, single]
  · split at h
    · rename_i other
      obtain ⟨instruction, _, body, h⟩ := of_accepts_bind h
      obtain ⟨rfl, rfl⟩ := of_accepts_pure h
      rw [of_instruction body]
      simp [encodeCommand, other]
    · simp [StateT.lift, bind, Except.bind] at h

/-! ## What the checks promise -/

theorem logprobs_of_validate (h : config.validate = .ok ()) :
    ∀ n, config.logprobs = some n → ¬20 < n := by
  intro n hn
  have bound := (refuse_bind_eq_ok.mp h).1
  simpa [hn] using bound

/-- Only the checks of the objects that stay behind can fail on one side alone. -/
theorem validate_stripped (h : config.validate = .ok ()) :
    ({ config with constraint := none, reasoningBudget := none } : SamplingConfig).validate =
      .ok () := by
  simp only [SamplingConfig.validate, refuse_bind_eq_ok] at h ⊢
  obtain ⟨logprobs, -, -, rest⟩ := h
  exact ⟨logprobs, by simp, by simp, rest⟩

theorem validate_single (kind : c.kind = .kSingle) :
    validateTpControlCommand c = .ok () ↔
      c.instruction = {} ∧ requestInvalid c = false ∧ c.sampling.validate = .ok () := by
  simp only [validateTpControlCommand, refuse_bind_eq_ok, kind]
  cases c.sampling.validate <;> simp

theorem validate_instruction (kind : c.kind = .kInstruction) :
    validateTpControlCommand c = .ok () ↔
      hasRequestFields c = false ∧ validateInstruction c.sequence c.instruction = .ok () := by
  simp [validateTpControlCommand, refuse_bind_eq_ok, kind]

theorem requestFits_of_valid (h : requestInvalid c = false) :
    RequestFits c := by
  simp only [requestInvalid, Bool.or_eq_false_iff, decide_eq_false_iff_not, Nat.not_lt,
    List.isEmpty_eq_false_iff] at h
  obtain ⟨⟨⟨⟨⟨⟨-, nonempty⟩, tokens⟩, -⟩, client⟩, context⟩, -⟩ := h
  exact ⟨nonempty, tokens, client, context⟩

theorem batch_of_validate
    (h : validateInstruction sequence i = .ok ()) : i.batch.length ≤ kMaxBatchMembers := by
  simp only [validateInstruction, refuse_bind_eq_ok] at h
  obtain ⟨-, -, -, -, batch, -, arguments, -⟩ := h
  by_cases batched : i.op ∈ [.kAdvanceBatch, .kDecodeBatch]
  · simp only [List.mem_cons, List.not_mem_nil, or_false] at batched
    rcases batched with op | op <;>
      simp only [TpInstruction.argumentsValid, op, Bool.and_eq_true, decide_eq_true_eq,
        Bool.not_eq_true', Bool.not_eq_false] at arguments <;>
      exact arguments.1.1.2
  · simp only [batched, decide_false, not_or, ne_eq, not_not] at batch
    have empty : i.batch = [] := by simpa using batch.1
    simp [empty]

theorem commandFits_of_validate (h : validateTpControlCommand c = .ok ()) :
    CommandFits c where
  request kind := requestFits_of_valid ((validate_single kind).mp h).2.1
  logprobs kind := logprobs_of_validate ((validate_single kind).mp h).2.2
  batch kind := batch_of_validate ((validate_instruction kind).mp h).2

theorem validate_transmitted (h : validateTpControlCommand c = .ok ()) :
    validateTpControlCommand c.transmitted = .ok () := by
  cases kind : c.kind with
  | kSingle =>
    obtain ⟨-, request, sampling⟩ := (validate_single kind).mp h
    have same : c.transmitted = c.transmittedRequest := by
      simp [TpControlCommand.transmitted, kind]
    rw [same]
    exact (validate_single rfl).mpr ⟨rfl, request, validate_stripped sampling⟩
  | kInstruction =>
    obtain ⟨-, instruction⟩ := (validate_instruction kind).mp h
    have same : c.transmitted =
        { sequence := c.sequence, kind := .kInstruction, instruction := c.instruction } := by
      simp [TpControlCommand.transmitted, kind]
    rw [same]
    exact (validate_instruction rfl).mpr ⟨rfl, instruction⟩

/-! ## Payloads of commands -/

variable {payload : Bytes} {maxContext : UInt32}

theorem decodeCommand_eq_ok
    :
    decodeCommand maxContext sequence payload = .ok c ↔
      readCommand sequence payload = .ok (c, []) ∧ maxContext ≠ 0 ∧
        c.promptTokens.length ≤ maxContext.toNat ∧ validateTpControlCommand c = .ok () := by
  simp only [decodeCommand, bind_eq_ok (x := readCommand sequence payload), refuse_bind_eq_ok,
    bind_eq_ok (x := validateTpControlCommand _), pure_eq_ok, not_or, Nat.not_lt, not_not]
  constructor
  · rintro ⟨⟨parsed, rest⟩, read, rfl, ⟨context, fits⟩, ⟨⟩, valid, rfl⟩
    exact ⟨read, context, fits, valid⟩
  · rintro ⟨read, context, fits, valid⟩
    exact ⟨(c, []), read, rfl, ⟨context, fits⟩, (), valid, rfl⟩

theorem promptTokens_transmitted :
    c.transmitted.promptTokens.length ≤ c.promptTokens.length := by
  cases kind : c.kind with
  | kSingle => simp [TpControlCommand.transmitted, kind, TpControlCommand.transmittedRequest,
      TpControlCommand.requestPart]
  | kInstruction => simp [TpControlCommand.transmitted, kind]

theorem decodeCommand_encode
    (valid : validateTpControlCommand c = .ok ()) (context : maxContext ≠ 0)
    (fits : c.promptTokens.length ≤ maxContext.toNat)
    (small : (encodeCommand c).length ≤ kMaxPayloadBytes) :
    decodeCommand maxContext c.sequence (encodeCommand c) = .ok c.transmitted := by
  have read := accepts_command (commandFits_of_validate valid)
    (by unfold kMaxPayloadBytes at small; omega) []
  rw [List.append_nil] at read
  exact decodeCommand_eq_ok.mpr ⟨read, context, promptTokens_transmitted.trans fits,
    validate_transmitted valid⟩

/-- A payload that is accepted is the encoding of the command made of it. -/
theorem encode_of_decodeCommand
    (h : decodeCommand maxContext sequence payload = .ok c) :
    c.sequence = sequence ∧ encodeCommand c = payload := by
  obtain ⟨read, -⟩ := decodeCommand_eq_ok.mp h
  obtain ⟨same, eq⟩ := of_command read
  exact ⟨same, by rw [eq, List.append_nil]⟩

/-! ## Responses -/

variable {r : TpControlResponse}

/-- The fields a response carries by its kind, without its error. -/
theorem reads_result (small : r.tokens.length ≤ kMaxPromptTokens) :
    Reads (readResult r.sequence) (appendResult r)
      { r with instructionIndex := 0, error := [], kind := .kSingle } := by
  have count : r.tokens.length.toUInt32.toNat = r.tokens.length := by
    unfold kMaxPromptTokens at small
    exact toNat_length (by omega)
  simp only [appendResult, List.append_assoc]
  refine reads_bind (reads_readU32 _) <| reads_bind (reads_readU64 _) <|
    reads_bind (reads_readU64 _) <| reads_bind (reads_readU32 _) <|
    reads_bind (reads_readU64 _) <| reads_reject ?_ <| reads_atLeast ?_ ?_
  · omega
  · rw [count, length_appendTokens]
  · rw [count]
    exact reads_return (reads_tokens r.tokens) fun tokens =>
      ({ r with tokens, instructionIndex := 0, error := [], kind := .kSingle } :
        TpControlResponse)

theorem of_result {bytes rest : Bytes}
    (h : readResult sequence bytes = some (r, rest)) :
    r.sequence = sequence ∧ r.kind = .kSingle ∧ bytes = appendResult r ++ rest := by
  obtain ⟨tokenCount, _, r1, h⟩ := of_bind h
  obtain ⟨draftTokens, _, r2, h⟩ := of_bind h
  obtain ⟨draftAcceptedTokens, _, r3, h⟩ := of_bind h
  obtain ⟨cachedPromptTokens, _, r4, h⟩ := of_bind h
  obtain ⟨cacheSnapshotBytes, _, r5, h⟩ := of_bind h
  obtain ⟨-, h⟩ := of_reject h
  have h := of_atLeast h
  obtain ⟨tokens, _, r6, h⟩ := of_bind h
  obtain ⟨rfl, rfl⟩ := of_pure h
  obtain ⟨count, rfl⟩ := of_tokens r6
  refine ⟨rfl, rfl, ?_⟩
  rw [of_readU32 r1, of_readU64 r2, of_readU64 r3, of_readU32 r4, of_readU64 r5]
  simp only [appendResult, count, List.append_assoc]
  simp [Nat.toUInt32]

theorem readError_append {error : Bytes} (small : error.length ≤ kMaxErrorBytes) :
    readError (appendU32 error.length.toUInt32 ++ error) = some (error, []) := by
  have count : error.length.toUInt32.toNat = error.length := by
    unfold kMaxErrorBytes at small
    exact toNat_length (by omega)
  have size := reads_readU32 error.length.toUInt32 error
  have body := reads_takeBytes error []
  rw [List.append_nil] at body
  have within : ¬kMaxErrorBytes < error.length := by omega
  simp [readError, bind, StateT.bind, size, reject, count, within, body]

theorem of_readError {bytes error rest : Bytes} (h : readError bytes = some (error, rest)) :
    rest = [] ∧ bytes = appendU32 error.length.toUInt32 ++ error := by
  obtain ⟨size, _, r1, h⟩ := of_bind h
  obtain ⟨-, h⟩ := of_reject h
  obtain ⟨body, left, r2, last⟩ := of_bind h
  obtain ⟨length, rfl⟩ := of_takeBytes r2
  split at last
  · rename_i done
    obtain ⟨rfl, rfl⟩ := last
    refine ⟨done, ?_⟩
    rw [of_readU32 r1, length, done, List.append_nil]
    simp [Nat.toUInt32]
  · simp at last

theorem validate_acknowledgement (kind : r.kind = .kInstruction)
    (h : validateTpControlResponse r = .ok ()) :
    r = { sequence := r.sequence, instructionIndex := r.instructionIndex, error := r.error,
          kind := .kInstruction } := by
  simp only [validateTpControlResponse, refuse_bind_eq_ok, kind, refuse_eq_ok, not_or] at h
  have fields := h.2.2
  simp only [hasResultFields, Bool.not_eq_true, Bool.or_eq_false_iff, Bool.not_eq_false',
    decide_eq_false_iff_not, not_not, List.isEmpty_iff] at fields
  obtain ⟨⟨⟨⟨tokens, drafts⟩, accepted⟩, cached⟩, bytes⟩ := fields
  obtain ⟨instructionIndex, sequence, _, _, _, _, _, error, _⟩ := r
  subst tokens drafts accepted cached bytes kind
  rfl

theorem validate_result (kind : r.kind = .kSingle)
    (h : validateTpControlResponse r = .ok ()) :
    r.instructionIndex = 0 ∧ r.tokens.length ≤ kMaxPromptTokens := by
  simp only [validateTpControlResponse, refuse_bind_eq_ok, kind, refuse_eq_ok, not_or,
    Nat.not_lt, not_not] at h
  exact ⟨h.2.1, h.2.2.1⟩

theorem validate_error (h : validateTpControlResponse r = .ok ()) :
    r.error.length ≤ kMaxErrorBytes :=
  Nat.not_lt.mp (refuse_bind_eq_ok.mp h).1

theorem accepts_body (valid : validateTpControlResponse r = .ok ()) :
    Accepts (readBody r.sequence r.kind.code) (appendBody r) { r with error := [] } := by
  cases kind : r.kind with
  | kInstruction =>
    have alone := validate_acknowledgement kind valid
    have index := accepts_orReject "TP cache acknowledgement is malformed"
      (reads_return (reads_readU64 r.instructionIndex) fun instructionIndex =>
        ({ sequence := r.sequence, instructionIndex, kind := .kInstruction } : TpControlResponse))
    rw [alone]
    exact index
  | kSingle =>
    obtain ⟨unused, small⟩ := validate_result kind valid
    have result := accepts_orReject "TP control response is invalid"
      (reads_result small)
    obtain ⟨instructionIndex, sequence, tokens, drafts, accepted, cached, bytes, error, _⟩ := r
    subst unused kind
    exact result

theorem readResponse_encode (valid : validateTpControlResponse r = .ok ()) :
    readResponse r.sequence (encodeResponse r) = .ok (r, []) := by
  have header := accepts_orReject "TP control response header is invalid"
    (reads_header r.sequence r.kind.code)
    (appendBody r ++ (appendU32 r.error.length.toUInt32 ++ r.error))
  have body := accepts_body valid (appendU32 r.error.length.toUInt32 ++ r.error)
  have error : orReject "TP control response error payload is invalid" readError
      (appendU32 r.error.length.toUInt32 ++ r.error) = .ok (r.error, []) := by
    simp [orReject, readError_append (validate_error valid)]
  simp only [readResponse, encodeResponse, bind, StateT.bind, Except.bind, header, body, error]
  rfl

theorem of_body {kind : UInt32} {bytes rest : Bytes}
    (h : readBody sequence kind bytes = .ok (r, rest)) :
    r.sequence = sequence ∧ r.kind.code = kind ∧ bytes = appendBody r ++ rest := by
  unfold readBody at h
  split at h
  · rename_i acknowledgement
    obtain ⟨index, _, r1, h⟩ := of_bind (of_orReject h)
    obtain ⟨rfl, rfl⟩ := of_pure h
    exact ⟨rfl, acknowledgement.symm, of_readU64 r1⟩
  · split at h
    · rename_i single
      obtain ⟨same, kind, rfl⟩ := of_result (of_orReject h)
      refine ⟨same, by rw [kind, single], ?_⟩
      simp [appendBody, kind]
    · simp [StateT.lift, bind, Except.bind] at h

theorem of_response {payload rest : Bytes}
    (h : readResponse sequence payload = .ok (r, rest)) :
    r.sequence = sequence ∧ payload = encodeResponse r := by
  obtain ⟨kind, _, header, h⟩ := of_accepts_bind h
  obtain ⟨parsed, _, body, h⟩ := of_accepts_bind h
  obtain ⟨error, _, last, h⟩ := of_accepts_bind h
  obtain ⟨rfl, rfl⟩ := of_accepts_pure h
  obtain ⟨rfl, rfl⟩ := of_readError (of_orReject last)
  obtain ⟨rfl, rfl, rfl⟩ := of_body body
  exact ⟨rfl, of_header (of_orReject header)⟩

theorem decodeResponse_eq_ok :
    decodeResponse sequence payload = .ok r ↔
      (∃ rest, readResponse sequence payload = .ok (r, rest)) ∧
        validateTpControlResponse r = .ok () := by
  simp only [decodeResponse, bind_eq_ok (x := readResponse sequence payload),
    bind_eq_ok (x := validateTpControlResponse _), pure_eq_ok]
  constructor
  · rintro ⟨⟨parsed, rest⟩, read, ⟨⟩, valid, rfl⟩
    exact ⟨⟨rest, read⟩, valid⟩
  · rintro ⟨⟨rest, read⟩, valid⟩
    exact ⟨(r, rest), read, (), valid, rfl⟩

theorem decodeResponse_encode
    (valid : validateTpControlResponse r = .ok ()) :
    decodeResponse r.sequence (encodeResponse r) = .ok r :=
  decodeResponse_eq_ok.mpr ⟨⟨[], readResponse_encode valid⟩, valid⟩

theorem encode_of_decodeResponse
    (h : decodeResponse sequence payload = .ok r) :
    r.sequence = sequence ∧ encodeResponse r = payload := by
  obtain ⟨⟨rest, read⟩, -⟩ := decodeResponse_eq_ok.mp h
  obtain ⟨same, eq⟩ := of_response read
  exact ⟨same, eq.symm⟩

/-! ## Frames -/

/-- Two ends of a channel after their handshake, which made them agree on the context. -/
structure Paired (zero one : TpControlChannel) : Prop where
  rank0 : zero.rank = 0
  rank1 : one.rank = 1
  handshaken0 : zero.handshaken = true
  handshaken1 : one.handshaken = true
  open0 : zero.connected = true ∧ zero.interrupted = false
  open1 : one.connected = true ∧ one.interrupted = false
  context : zero.maxContext = one.maxContext ∧ one.maxContext ≠ 0

variable {channel : TpControlChannel} {type : UInt16}

theorem sendFrame_eq_ok
    {payload frame : Bytes} (ready : channel.connected = true ∧ channel.interrupted = false) :
    sendFrame channel type sequence payload = .ok frame ↔
      payload.length ≤ kMaxPayloadBytes ∧ frame = frameHeader type sequence payload ++ payload := by
  simp only [sendFrame, refuse_bind_eq_ok, ready.1, ready.2, pure_eq_ok, kMaxPayloadBytes]
  simp only [Bool.false_eq_true, not_false_eq_true, not_true_eq_false, false_or, true_and,
    not_or, Nat.not_lt, Nat.not_le, eq_comm (a := frame)]
  constructor
  · rintro ⟨⟨small, -⟩, rfl⟩
    exact ⟨small, rfl⟩
  · rintro ⟨small, rfl⟩
    exact ⟨⟨small, by omega⟩, rfl⟩

theorem reads_frameStart (type : UInt16) :
    Reads (readFrameStart type)
      (appendU32 kMagic ++ (leBytes 2 kVersion.toUInt64 ++ leBytes 2 type.toUInt64)) () := by
  have version := reads_takeBytes (leBytes 2 kVersion.toUInt64)
  have frameType := reads_takeBytes (leBytes 2 type.toUInt64)
  refine reads_bind (reads_readU32 _) <| reads_bind version <| reads_bind frameType ?_
  intro rest
  simp [reject]

theorem of_frameStart {bytes rest : Bytes} {u : Unit}
    (h : readFrameStart type bytes = some (u, rest)) :
    bytes = (appendU32 kMagic ++ (leBytes 2 kVersion.toUInt64 ++ leBytes 2 type.toUInt64)) ++
      rest := by
  obtain ⟨magic, _, r1, h⟩ := of_bind h
  obtain ⟨version, _, r2, h⟩ := of_bind h
  obtain ⟨frameType, _, r3, last⟩ := of_bind h
  obtain ⟨-, rfl⟩ := of_takeBytes r2
  obtain ⟨-, rfl⟩ := of_takeBytes r3
  unfold reject at last
  split at last
  · simp at last
  · rename_i same
    simp only [not_or, not_not] at same
    obtain ⟨-, rfl⟩ := last
    rw [of_readU32 r1, same.1, same.2.1, same.2.2, List.append_assoc, List.append_assoc]

theorem reads_frameLength {size : UInt32} (sequence : UInt64)
    (small : size.toNat ≤ kMaxPayloadBytes) :
    Reads (readFrameLength true) (appendU32 size ++ appendU64 sequence) (size, sequence) :=
  reads_bind (reads_readU32 _) <| reads_reject (by simpa using small) <|
    reads_return (reads_readU64 _) fun sequence => (size, sequence)

theorem of_frameLength {bytes rest : Bytes} {size : UInt32}
    (h : readFrameLength true bytes = some ((size, sequence), rest)) :
    size.toNat ≤ kMaxPayloadBytes ∧ bytes = (appendU32 size ++ appendU64 sequence) ++ rest := by
  obtain ⟨word, _, r1, h⟩ := of_bind h
  obtain ⟨bound, h⟩ := of_reject h
  obtain ⟨number, _, r2, h⟩ := of_bind h
  obtain ⟨made, rfl⟩ := of_pure h
  obtain ⟨rfl, rfl⟩ := made
  rw [of_readU32 r1, of_readU64 r2, List.append_assoc]
  exact ⟨by simpa using bound, rfl⟩

theorem accepts_frame
    (sequence : UInt64) (ready : channel.connected = true ∧ channel.interrupted = false)
    (handshaken : channel.handshaken = true) (small : payload.length ≤ kMaxPayloadBytes) :
    Accepts (receiveFrame channel type) (frameHeader type sequence payload ++ payload)
      (sequence, payload) := by
  have count : payload.length.toUInt32.toNat = payload.length := by
    unfold kMaxPayloadBytes at small
    exact toNat_length (by omega)
  have header := reads_takeBytes (frameHeader type sequence payload)
  have start := reads_frameStart type
    (appendU32 payload.length.toUInt32 ++ appendU64 sequence)
  have length := @reads_frameLength payload.length.toUInt32 sequence
    (by rw [count]; exact small) []
  rw [List.append_nil] at length
  have grouped : frameHeader type sequence payload =
      (appendU32 kMagic ++ (leBytes 2 kVersion.toUInt64 ++ leBytes 2 type.toUInt64)) ++
        (appendU32 payload.length.toUInt32 ++ appendU64 sequence) := by
    simp [frameHeader]
  refine accepts_lift (refuse_ok (by simp [ready.2])) <|
    accepts_lift (refuse_ok (by simp [ready.1])) <|
    accepts_bind (accepts_orReject _ header) <|
    accepts_lift (by rw [grouped]; simp only [orReject, start]; rfl) <|
    accepts_lift (by simp only [orReject, handshaken, length]; rfl) ?_
  have body := reads_takeBytes payload
  have last := accepts_bind (f := fun payload => pure (sequence, payload))
    (accepts_orReject "TP control peer closed the channel" body) (accepts_pure _)
  simpa [count, recvAll] using last

theorem of_frame {bytes payload rest : Bytes}
    (handshaken : channel.handshaken = true)
    (h : receiveFrame channel type bytes = .ok ((sequence, payload), rest)) :
    payload.length ≤ kMaxPayloadBytes ∧
      bytes = (frameHeader type sequence payload ++ payload) ++ rest := by
  obtain ⟨_, -, h⟩ := of_accepts_lift h
  obtain ⟨_, -, h⟩ := of_accepts_lift h
  obtain ⟨header, _, whole, h⟩ := of_accepts_bind h
  obtain ⟨⟨_, left⟩, start, h⟩ := of_accepts_lift h
  obtain ⟨⟨⟨size, number⟩, unread⟩, length, h⟩ := of_accepts_lift h
  obtain ⟨body, _, r1, h⟩ := of_accepts_bind h
  obtain ⟨made, rfl⟩ := of_accepts_pure h
  obtain ⟨rfl, rfl⟩ := made
  obtain ⟨twenty, rfl⟩ := of_takeBytes (of_orReject whole)
  obtain ⟨count, rfl⟩ := of_takeBytes (of_orReject r1)
  rw [handshaken] at length
  obtain ⟨small, rfl⟩ := of_frameLength (of_orReject length)
  have framed := of_frameStart (of_orReject start)
  have nothing : unread = [] := by
    rw [framed] at twenty
    simp only [List.length_append, length_appendU32, length_leBytes, appendU64] at twenty
    exact List.length_eq_zero_iff.mp (by omega)
  refine ⟨by omega, ?_⟩
  rw [framed, nothing]
  simp [frameHeader, count, Nat.toUInt32]

/-! ## The codec -/

variable {zero one : TpControlChannel}

theorem sendCommand_eq_ok (paired : Paired zero one)
    {frame : Bytes} :
    sendCommand zero c = .ok frame ↔ validateTpControlCommand c = .ok () ∧
      c.promptTokens.length ≤ zero.maxContext.toNat ∧
      (encodeCommand c).length ≤ kMaxPayloadBytes ∧
      frame = frameHeader kCommand c.sequence (encodeCommand c) ++ encodeCommand c := by
  have context : zero.maxContext ≠ 0 := by
    rw [paired.context.1]
    exact paired.context.2
  simp only [sendCommand, refuse_bind_eq_ok, paired.handshaken0, paired.rank0,
    bind_eq_ok (x := validateTpControlCommand _), sendFrame_eq_ok paired.open0, not_or, not_not,
    Nat.not_lt, context, not_false_eq_true, true_and]
  constructor
  · rintro ⟨⟨⟩, valid, fits, small, eq⟩
    exact ⟨valid, fits, small, eq⟩
  · rintro ⟨valid, fits, small, eq⟩
    exact ⟨(), valid, fits, small, eq⟩

theorem sendResponse_eq_ok (paired : Paired zero one)
    {frame : Bytes} :
    sendResponse one r = .ok frame ↔ validateTpControlResponse r = .ok () ∧
      (encodeResponse r).length ≤ kMaxPayloadBytes ∧
      frame = frameHeader kResponse r.sequence (encodeResponse r) ++ encodeResponse r := by
  simp only [sendResponse, refuse_bind_eq_ok, paired.handshaken1, paired.rank1,
    bind_eq_ok (x := validateTpControlResponse _), sendFrame_eq_ok paired.open1]
  constructor
  · rintro ⟨-, ⟨⟩, valid, small, eq⟩
    exact ⟨valid, small, eq⟩
  · rintro ⟨valid, small, eq⟩
    exact ⟨by simp, (), valid, small, eq⟩

/-- The response that is sent always fits a frame. -/
theorem length_encodeResponse
    (valid : validateTpControlResponse r = .ok ()) :
    (encodeResponse r).length ≤ kMaxPayloadBytes := by
  have error := validate_error valid
  unfold kMaxErrorBytes at error
  have body : (appendBody r).length ≤ 32 + 4 * 2 ^ 20 := by
    cases kind : r.kind with
    | kInstruction => simp [appendBody, kind, appendU64]
    | kSingle =>
      have tokens := (validate_result kind valid).2
      unfold kMaxPromptTokens at tokens
      simp only [appendBody, kind, appendResult, List.length_append, length_appendU32, appendU64,
        length_leBytes, length_appendTokens]
      omega
  unfold kMaxPayloadBytes
  simp only [encodeResponse, List.length_append, length_appendU32, appendU64, length_leBytes]
  omega

/-- A message is received when its frame is and its payload decodes. -/
theorem receive_eq_ok {α : Type} {c : Prop}
    [Decidable c] {decode : UInt64 → Bytes → Except String α}
    {receive : Checked α} {bytes rest : Bytes} {a : α} (role : ¬c)
    (is : receive = (do
      StateT.lift (refuse c message)
      let (sequence, payload) ← receiveFrame channel type
      StateT.lift (decode sequence payload))) :
    receive bytes = .ok (a, rest) ↔ ∃ sequence payload,
      receiveFrame channel type bytes = .ok ((sequence, payload), rest) ∧
        decode sequence payload = .ok a := by
  subst is
  constructor
  · intro h
    obtain ⟨_, -, h⟩ := of_accepts_lift h
    obtain ⟨⟨sequence, payload⟩, mid, frame, h⟩ := of_accepts_bind h
    cases decoded : decode sequence payload with
    | error message => simp [decoded, StateT.lift, bind, Except.bind] at h
    | ok parsed =>
      simp only [decoded, StateT.lift, bind, Except.bind, pure, Except.pure, Except.ok.injEq,
        Prod.mk.injEq] at h
      obtain ⟨rfl, rfl⟩ := h
      exact ⟨sequence, payload, frame, decoded⟩
  · rintro ⟨sequence, payload, frame, decoded⟩
    simp [bind, StateT.bind, StateT.lift, Except.bind, refuse_ok role, frame, decoded, pure,
      Except.pure]

theorem receiveCommand_eq_ok (paired : Paired zero one)
    {bytes rest : Bytes} :
    receiveCommand one bytes = .ok (c, rest) ↔ ∃ sequence payload,
      receiveFrame one kCommand bytes = .ok ((sequence, payload), rest) ∧
        decodeCommand one.maxContext sequence payload = .ok c :=
  receive_eq_ok (by simp [paired.handshaken1, paired.rank1]) rfl

theorem receiveResponse_eq_ok (paired : Paired zero one)
    {bytes rest : Bytes} :
    receiveResponse zero bytes = .ok (r, rest) ↔ ∃ sequence payload,
      receiveFrame zero kResponse bytes = .ok ((sequence, payload), rest) ∧
        decodeResponse sequence payload = .ok r :=
  receive_eq_ok (by simp [paired.handshaken0, paired.rank0]) rfl

theorem command_arrives (paired : Paired zero one)
    (valid : validateTpControlCommand c = .ok ())
    (fits : c.promptTokens.length ≤ zero.maxContext.toNat)
    (small : (encodeCommand c).length ≤ kMaxPayloadBytes) :
    ∃ frame, sendCommand zero c = .ok frame ∧
      ∀ rest, receiveCommand one (frame ++ rest) = .ok (c.transmitted, rest) := by
  refine ⟨_, (sendCommand_eq_ok paired).mpr ⟨valid, fits, small, rfl⟩, fun rest => ?_⟩
  rw [paired.context.1] at fits
  exact (receiveCommand_eq_ok paired).mpr ⟨c.sequence, encodeCommand c,
    accepts_frame c.sequence paired.open1 paired.handshaken1 small rest,
    decodeCommand_encode valid paired.context.2 fits small⟩

theorem response_arrives (paired : Paired zero one)
    (valid : validateTpControlResponse r = .ok ()) :
    ∃ frame, sendResponse one r = .ok frame ∧
      ∀ rest, receiveResponse zero (frame ++ rest) = .ok (r, rest) := by
  have small := length_encodeResponse valid
  refine ⟨_, (sendResponse_eq_ok paired).mpr ⟨valid, small, rfl⟩, fun rest => ?_⟩
  exact (receiveResponse_eq_ok paired).mpr ⟨r.sequence, encodeResponse r,
    accepts_frame r.sequence paired.open0 paired.handshaken0 small rest,
    decodeResponse_encode valid⟩

theorem command_reencodes (paired : Paired zero one)
    {bytes rest : Bytes}
    (h : receiveCommand one bytes = .ok (c, rest)) :
    ∃ frame, sendCommand zero c = .ok frame ∧ bytes = frame ++ rest := by
  obtain ⟨sequence, payload, frame, decoded⟩ := (receiveCommand_eq_ok paired).mp h
  obtain ⟨small, rfl⟩ := of_frame paired.handshaken1 frame
  obtain ⟨-, -, fits, valid⟩ := decodeCommand_eq_ok.mp decoded
  obtain ⟨rfl, rfl⟩ := encode_of_decodeCommand decoded
  rw [← paired.context.1] at fits
  exact ⟨_, (sendCommand_eq_ok paired).mpr ⟨valid, fits, small, rfl⟩, rfl⟩

theorem response_reencodes (paired : Paired zero one)
    {bytes rest : Bytes}
    (h : receiveResponse zero bytes = .ok (r, rest)) :
    ∃ frame, sendResponse one r = .ok frame ∧ bytes = frame ++ rest := by
  obtain ⟨sequence, payload, frame, decoded⟩ := (receiveResponse_eq_ok paired).mp h
  obtain ⟨small, rfl⟩ := of_frame paired.handshaken0 frame
  obtain ⟨-, valid⟩ := decodeResponse_eq_ok.mp decoded
  obtain ⟨rfl, rfl⟩ := encode_of_decodeResponse decoded
  exact ⟨_, (sendResponse_eq_ok paired).mpr ⟨valid, small, rfl⟩, rfl⟩

/-- Between two paired ends, what one sends is what the other receives, and whatever bytes
a receive accepts are those a send of the received value would write: every byte of them
counts, and a message has one payload. -/
theorem control_codec_exact {zero one : TpControlChannel} (paired : Paired zero one) :
    (∀ c : TpControlCommand, validateTpControlCommand c = .ok () →
      c.promptTokens.length ≤ zero.maxContext.toNat →
      (encodeCommand c).length ≤ kMaxPayloadBytes →
      ∃ frame, sendCommand zero c = .ok frame ∧
        ∀ rest, receiveCommand one (frame ++ rest) = .ok (c.transmitted, rest)) ∧
    (∀ r : TpControlResponse, validateTpControlResponse r = .ok () →
      ∃ frame, sendResponse one r = .ok frame ∧
        ∀ rest, receiveResponse zero (frame ++ rest) = .ok (r, rest)) ∧
    (∀ (c : TpControlCommand) (bytes rest : Bytes), receiveCommand one bytes = .ok (c, rest) →
      ∃ frame, sendCommand zero c = .ok frame ∧ bytes = frame ++ rest) ∧
    (∀ (r : TpControlResponse) (bytes rest : Bytes), receiveResponse zero bytes = .ok (r, rest) →
      ∃ frame, sendResponse one r = .ok frame ∧ bytes = frame ++ rest) ∧
    (∀ (c : TpControlCommand) (sequence : UInt64) (payload : Bytes),
      decodeCommand one.maxContext sequence payload = .ok c → encodeCommand c = payload) ∧
    (∀ (r : TpControlResponse) (sequence : UInt64) (payload : Bytes),
      decodeResponse sequence payload = .ok r → encodeResponse r = payload) :=
  ⟨fun _ => command_arrives paired, fun _ => response_arrives paired,
    fun _ _ _ => command_reencodes paired, fun _ _ _ => response_reencodes paired,
    fun _ _ _ h => (encode_of_decodeCommand h).2, fun _ _ _ h => (encode_of_decodeResponse h).2⟩

/-- The ends of a channel with a context of 4096 tokens. -/
def sampleZero : TpControlChannel := ⟨0, 4096, true, false, true⟩
def sampleOne : TpControlChannel := ⟨1, 4096, true, false, true⟩

/-- A constrained request, with the constraint's source and without its object. -/
def sampleCommand : TpControlCommand :=
  { sequence := 3, maxTokens := 16, promptTokens := [5, 7], clientId := [97]
    sampling := { logprobs := some 0, temperature := 0x3f000000,
                  constraint := some ⟨true, some 9⟩ }
    constraintSource := some { tools := [{ name := [102] }], toolChoice := 1 }
    reasoningBudget := some 64 }

set_option maxRecDepth 4096 in
theorem control_codec_sample : ∃ frame, sendCommand sampleZero sampleCommand = .ok frame ∧
    ∀ rest, receiveCommand sampleOne (frame ++ rest) = .ok (sampleCommand.transmitted, rest) :=
  (@control_codec_exact sampleZero sampleOne
    ⟨rfl, rfl, rfl, rfl, ⟨rfl, rfl⟩, ⟨rfl, rfl⟩, ⟨rfl, by decide⟩⟩).1
    sampleCommand (by decide) (by decide) (by decide)

end Gufo.Tp
