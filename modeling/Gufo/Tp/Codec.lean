import Gufo.Lib.Wire
import Gufo.Tp.Control

/-!
# The TP2 control codec

`SendCommand`, `ReceiveCommand`, `SendResponse` and `ReceiveResponse` of
`src/cli/serve/tp_control.cpp`, with the frames around their payloads. A stream is
the bytes the peer has sent so far; a receive takes its frame from the front.
-/

namespace Gufo.Tp
open Gufo.Wire

def kMagic : UInt32 := 0x54504331
def kVersion : UInt16 := 22
def kCommand : UInt16 := 2
def kResponse : UInt16 := 3

/-- `AppendU32` -/
def appendU32 (value : UInt32) : Bytes := leBytes 4 value.toUInt64

/-- `AppendU64` -/
def appendU64 (value : UInt64) : Bytes := leBytes 8 value

/-- `AppendString` -/
def appendString (value : Bytes) : Bytes := appendU32 value.length.toUInt32 ++ value

/-- One bit of a flag word. -/
def flag (set : Bool) (bit : UInt32) : UInt32 := if set then bit else 0

/-! ## Payloads -/

def appendTool (tool : Tool) : Bytes :=
  appendString tool.name ++ appendString tool.description ++
    appendString tool.parametersJson ++ appendString tool.definitionJson

def sourceFlags (source : TpConstraintSource) : UInt32 :=
  flag source.responseFormatResponses 1 ||| flag source.parallelToolCalls 2 |||
    flag source.reasoning 4

def appendSource (source : TpConstraintSource) : Bytes :=
  appendString source.responseFormatJson ++ appendU32 (sourceFlags source) ++
    appendU32 source.toolChoice.toUInt32 ++ appendU32 source.tools.length.toUInt32 ++
    source.tools.flatMap appendTool

/-- The request flags: constrained decoding, decoding past EOS, the constraint's source
follows, the reasoning budget follows it. -/
def requestFlags (command : TpControlCommand) : UInt32 :=
  flag (command.constrained || command.sampling.constraint.isSome ||
      command.constraintSource.isSome) 1 ||| flag (!command.stopAtEos) 2 |||
    flag command.constraintSource.isSome 4 ||| flag command.reasoningBudget.isSome 8

/-- Zero means absent; one represents an explicitly requested zero. -/
def logprobsWord (logprobs : Option UInt32) : UInt32 :=
  match logprobs with
  | none => 0
  | some n => n + 1

def appendSampling (config : SamplingConfig) : Bytes :=
  appendU32 config.temperature ++ appendU32 config.topK.toUInt32 ++ appendU32 config.topP ++
    appendU32 config.minP ++ appendU64 config.minKeep ++ appendU64 config.seed.toUInt64 ++
    appendU32 config.repeatPenalty ++ appendU64 config.repeatLastN ++
    appendU32 config.frequencyPenalty ++ appendU32 config.presencePenalty ++
    appendU32 (logprobsWord config.logprobs)

def appendToken (token : Int32) : Bytes := appendU32 token.toUInt32

def appendOption {α : Type} (append : α → Bytes) (value : Option α) : Bytes :=
  (value.map append).getD []

/-- The fields of a request before its sampling configuration. -/
def appendRequest (command : TpControlCommand) : Bytes :=
  appendU32 command.maxTokens ++ appendU32 (flag command.cachePrompt 1) ++
    appendU32 command.cachePrefixTokens ++ appendU32 command.promptTokens.length.toUInt32 ++
    appendU32 command.clientId.length.toUInt32 ++
    appendU32 command.promptContext.length.toUInt32 ++
    command.promptTokens.flatMap appendToken ++ command.clientId ++ command.promptContext

/-- What follows the kind of a `kSingle` command. -/
def appendSingle (command : TpControlCommand) : Bytes :=
  appendRequest command ++
    (appendSampling command.sampling ++ appendU32 (requestFlags command)) ++
    appendOption appendSource command.constraintSource ++
    appendOption appendU64 command.reasoningBudget

def appendMember (member : TpBatchMember) : Bytes :=
  appendU64 member.sequence ++ appendU32 member.state ++ appendU32 member.token.toUInt32 ++
    appendU32 member.count ++ appendU64 member.rng ++ appendU32 member.pending.toUInt32 ++
    appendU32 member.drafts

/-- The fields of an instruction before its batch, and the size of the batch. -/
def appendInstructionHead (i : TpInstruction) : Bytes :=
  appendU32 i.op.code ++ appendU64 i.index ++ appendU32 i.state ++
    appendU32 i.token.toUInt32 ++ appendU32 i.offset ++ appendU32 i.count ++
    appendU32 i.promptSize ++ appendU64 i.snapshotId ++ appendU64 i.digest ++
    appendU64 i.rng ++ appendU32 i.pending.toUInt32 ++ appendU64 i.fileKey ++
    appendU32 i.batchDrafts ++ appendU32 i.lookahead ++ appendU32 i.drafts ++
    appendU32 i.batch.length.toUInt32

/-- What follows the kind of a `kInstruction` command. -/
def appendInstruction (i : TpInstruction) : Bytes :=
  appendInstructionHead i ++ i.batch.flatMap appendMember

/-- The payload `SendCommand` builds. Its layout after the kind is a function of the kind. -/
def encodeCommand (command : TpControlCommand) : Bytes :=
  (appendU64 command.sequence ++ appendU32 command.kind.code) ++
    match command.kind with
    | .kSingle => appendSingle command
    | .kInstruction => appendInstruction command.instruction

def appendResult (response : TpControlResponse) : Bytes :=
  appendU32 response.tokens.length.toUInt32 ++ appendU64 response.draftTokens ++
    appendU64 response.draftAcceptedTokens ++ appendU32 response.cachedPromptTokens ++
    appendU64 response.cacheSnapshotBytes ++ response.tokens.flatMap appendToken

/-- The part of a response that its kind selects. -/
def appendBody (response : TpControlResponse) : Bytes :=
  match response.kind with
  | .kInstruction => appendU64 response.instructionIndex
  | .kSingle => appendResult response

/-- The payload `SendResponse` builds. -/
def encodeResponse (response : TpControlResponse) : Bytes :=
  (appendU64 response.sequence ++ appendU32 response.kind.code) ++ (appendBody response ++
    (appendU32 response.error.length.toUInt32 ++ response.error))

/-! ## Reading payloads -/

/-- `ReadU32` -/
def readU32 : Stream UInt32 := do
  let n ← takeWord 4
  return n.toUInt32

/-- `ReadU64` -/
def readU64 : Stream UInt64 := takeWord 8

/-- `ReadString` -/
def readString : Stream Bytes := do
  let size ← readU32
  takeBytes size.toNat

def readInt32 : Stream Int32 := do
  let bits ← readU32
  return bits.toInt32

/-- The sequence and the kind, as both messages start. -/
def readHeader (sequence : UInt64) : Stream UInt32 := do
  let embedded ← readU64
  let kind ← readU32
  reject (embedded ≠ sequence)
  return kind

/-- The fixed fields of a request, and what its sizes announce. The size check makes the
reads after it succeed. -/
def readRequest (sequence : UInt64) : Stream TpControlCommand := do
  let maxTokens ← readU32
  let cachePrompt ← readU32
  let cachePrefixTokens ← readU32
  let promptCount ← readU32
  let clientSize ← readU32
  let contextSize ← readU32
  reject (1 < cachePrompt ∨ promptCount = 0 ∨ kMaxPromptTokens < promptCount.toNat ∨
    kMaxClientIdBytes < clientSize.toNat ∨ kMaxPromptContextBytes < contextSize.toNat)
  atLeast (promptCount.toNat * 4 + clientSize.toNat + contextSize.toNat)
  let promptTokens ← many readInt32 promptCount.toNat
  let clientId ← takeBytes clientSize.toNat
  let promptContext ← takeBytes contextSize.toNat
  return { sequence, maxTokens, cachePrompt := decide (cachePrompt ≠ 0), cachePrefixTokens,
           promptTokens, clientId, promptContext, kind := .kSingle }

/-- The sampling configuration without its log probabilities, then their word and the flags. -/
def readSampling : Stream (SamplingConfig × UInt32 × UInt32) := do
  let temperature ← readU32
  let topK ← readU32
  let topP ← readU32
  let minP ← readU32
  let minKeep ← readU64
  let seed ← readU64
  let repeatPenalty ← readU32
  let repeatLastN ← readU64
  let frequencyPenalty ← readU32
  let presencePenalty ← readU32
  let logprobs ← readU32
  let flags ← readU32
  return ({ temperature, topK := topK.toInt32, topP, minP, minKeep, seed := seed.toInt64,
            repeatPenalty, repeatLastN, frequencyPenalty, presencePenalty }, logprobs, flags)

/-- The constraint's source before its tools, with its flags and tool count. -/
def readSourceHead : Stream (Bytes × UInt32 × UInt32 × UInt32) := do
  let responseFormatJson ← readString
  let sourceFlags ← readU32
  let toolChoice ← readU32
  let toolCount ← readU32
  return (responseFormatJson, sourceFlags, toolChoice, toolCount)

def readTool : Stream Tool := do
  let name ← readString
  let description ← readString
  let parametersJson ← readString
  let definitionJson ← readString
  return { name, description, parametersJson, definitionJson }

/-- Each tool takes at least its four string sizes. -/
def sourceInvalid (sourceFlags toolChoice toolCount : UInt32) (left : Nat) : Prop :=
  7 < sourceFlags ∨ 0xff < toolChoice ∨ left / 16 < toolCount.toNat

instance (sourceFlags toolChoice toolCount : UInt32) (left : Nat) :
    Decidable (sourceInvalid sourceFlags toolChoice toolCount left) :=
  inferInstanceAs (Decidable (_ ∨ _ ∨ _))

/-- A bit of a flag word is set. -/
def hasBit (flags bit : UInt32) : Bool := decide (flags &&& bit ≠ 0)

/-- Refuses by what was read and how many bytes are left. -/
def refuseWith (c : Nat → Prop) [DecidablePred c] (message : String) : Checked Unit :=
  fun bytes => if c bytes.length then .error message else .ok ((), bytes)

def readSource : Checked TpConstraintSource := do
  let (responseFormatJson, sourceFlags, toolChoice, toolCount) ←
    orReject "TP control request constraint is truncated" readSourceHead
  refuseWith (sourceInvalid sourceFlags toolChoice toolCount)
    "TP control request constraint is invalid"
  let tools ← orReject "TP control request constraint is truncated"
    (many readTool toolCount.toNat)
  return { responseFormatJson, responseFormatResponses := hasBit sourceFlags 1, tools,
           toolChoice := toolChoice.toUInt8, parallelToolCalls := hasBit sourceFlags 2,
           reasoning := hasBit sourceFlags 4 }

/-- Reads an optional part that a flag announces. -/
def readIf {α : Type} (present : Bool) (r : Checked α) : Checked (Option α) :=
  if present then do
    let a ← r
    return some a
  else return none

/-- The part of a payload after its kind, for `kSingle`. -/
def readSingle (sequence : UInt64) : Checked TpControlCommand := do
  let parsed ← orReject "TP control request is invalid" (readRequest sequence)
  let (config, logprobs, flags) ←
    orReject "TP control request sampling is truncated" readSampling
  StateT.lift (refuse (21 < logprobs) "TP control request logprobs is invalid")
  StateT.lift (refuse (15 < flags ∨ (hasBit flags 4 ∧ ¬hasBit flags 1))
    "TP control request flags are invalid")
  let constraintSource ← readIf (hasBit flags 4) readSource
  let reasoningBudget ← readIf (hasBit flags 8)
    (orReject "TP control request reasoning budget is truncated" readU64)
  let sampling := { config with logprobs := if logprobs = 0 then none else some (logprobs - 1) }
  return { parsed with
    sampling, constrained := hasBit flags 1, stopAtEos := !hasBit flags 2, constraintSource,
    reasoningBudget }

def readMember : Stream TpBatchMember := do
  let sequence ← readU64
  let state ← readU32
  let token ← readInt32
  let count ← readU32
  let rng ← readU64
  let pending ← readInt32
  let drafts ← readU32
  return { sequence, state, token, count, rng, pending, drafts }

/-- The fixed fields of an instruction and its batch size. -/
def readInstructionHead : Stream (TpInstruction × UInt32) := do
  let code ← readU32
  let index ← readU64
  let state ← readU32
  let token ← readInt32
  let offset ← readU32
  let count ← readU32
  let promptSize ← readU32
  let snapshotId ← readU64
  let digest ← readU64
  let rng ← readU64
  let pending ← readInt32
  let fileKey ← readU64
  let batchDrafts ← readU32
  let lookahead ← readU32
  let drafts ← readU32
  let batchSize ← readU32
  reject (kMaxBatchMembers < batchSize.toNat)
  match TpInstructionOp.ofCode code with
  | none => failure
  | some op =>
    return ({ op, index, state, token, offset, count, promptSize, digest, rng, pending,
              snapshotId, fileKey, batchDrafts, drafts, lookahead }, batchSize)

/-- The part of a payload after its kind, for `kInstruction`. -/
def readInstruction : Checked TpInstruction := do
  let (head, batchSize) ← orReject "TP control instruction is invalid" readInstructionHead
  let batch ← orReject "TP control instruction batch is truncated"
    (many readMember batchSize.toNat)
  return { head with batch }

/-- A payload of a command, without the checks at its end. -/
def readCommand (sequence : UInt64) : Checked TpControlCommand := do
  let kind ← orReject "TP control command header is invalid" (readHeader sequence)
  if kind = TpControlCommandKind.kSingle.code then readSingle sequence
  else if kind = TpControlCommandKind.kInstruction.code then do
    let instruction ← readInstruction
    return { sequence, kind := .kInstruction, instruction }
  else StateT.lift (.error "TP control command kind is invalid")

/-- What `ReceiveCommand` makes of a payload. -/
def decodeCommand (maxContext : UInt32) (sequence : UInt64) (payload : Bytes) :
    Except String TpControlCommand := do
  let (parsed, rest) ← readCommand sequence payload
  refuse (rest ≠ []) "TP control command payload has trailing bytes"
  refuse (maxContext = 0 ∨ maxContext.toNat < parsed.promptTokens.length)
    "TP control command exceeds the negotiated context"
  validateTpControlCommand parsed
  return parsed

/-- The result fields of a response. -/
def readResult (sequence : UInt64) : Stream TpControlResponse := do
  let tokenCount ← readU32
  let draftTokens ← readU64
  let draftAcceptedTokens ← readU64
  let cachedPromptTokens ← readU32
  let cacheSnapshotBytes ← readU64
  reject (kMaxPromptTokens < tokenCount.toNat)
  atLeast (tokenCount.toNat * 4)
  let tokens ← many readInt32 tokenCount.toNat
  return { sequence, tokens, draftTokens, draftAcceptedTokens, cachedPromptTokens,
           cacheSnapshotBytes, kind := .kSingle }

def readAcknowledgement (sequence : UInt64) : Stream TpControlResponse := do
  let instructionIndex ← readU64
  return { sequence, instructionIndex, kind := .kInstruction }

/-- The error, which takes exactly the bytes that are left. -/
def readError : Stream Bytes := do
  let errorSize ← readU32
  reject (kMaxErrorBytes < errorSize.toNat)
  let error ← takeBytes errorSize.toNat
  fun rest => if rest = [] then some (error, rest) else none

/-- The part of a response that its kind selects. -/
def readBody (sequence : UInt64) (kind : UInt32) : Checked TpControlResponse :=
  if kind = TpControlResponseKind.kInstruction.code then
    orReject "TP cache acknowledgement is malformed" (readAcknowledgement sequence)
  else if kind = TpControlResponseKind.kSingle.code then
    orReject "TP control response is invalid" (readResult sequence)
  else StateT.lift (.error "TP control response kind is invalid")

/-- A payload of a response, without the check at its end. -/
def readResponse (sequence : UInt64) : Checked TpControlResponse := do
  let kind ← orReject "TP control response header is invalid" (readHeader sequence)
  let parsed ← readBody sequence kind
  let error ← orReject "TP control response error payload is invalid" readError
  return { parsed with error }

/-- What `ReceiveResponse` makes of a payload. -/
def decodeResponse (sequence : UInt64) (payload : Bytes) : Except String TpControlResponse := do
  let (parsed, _) ← readResponse sequence payload
  validateTpControlResponse parsed
  return parsed

/-! ## Frames -/

/-- What sending and receiving read of a channel. -/
structure TpControlChannel where
  rank : UInt32
  maxContext : UInt32
  handshaken : Bool
  interrupted : Bool
  /-- `fd_` is open. -/
  connected : Bool
  deriving DecidableEq

/-- The header `SendFrame` writes: version and type are two bytes each. -/
def frameHeader (type : UInt16) (sequence : UInt64) (payload : Bytes) : Bytes :=
  appendU32 kMagic ++ leBytes 2 kVersion.toUInt64 ++ leBytes 2 type.toUInt64 ++
    appendU32 payload.length.toUInt32 ++ appendU64 sequence

/-- `SendFrame`, when the peer takes all bytes. -/
def sendFrame (channel : TpControlChannel) (type : UInt16) (sequence : UInt64)
    (payload : Bytes) : Except String Bytes := do
  refuse channel.interrupted "TP control channel is interrupted"
  refuse (¬channel.connected ∨ kMaxPayloadBytes < payload.length ∨ 2 ^ 32 ≤ payload.length)
    "TP control frame is invalid or too large"
  return frameHeader type sequence payload ++ payload

/-- `RecvAll` on a stream that ends with what was sent. -/
def recvAll (n : Nat) : Checked Bytes := orReject "TP control peer closed the channel" (takeBytes n)

/-- The magic, the version and the type of a header. -/
def readFrameStart (type : UInt16) : Stream Unit := do
  let magic ← readU32
  let version ← takeBytes 2
  let frameType ← takeBytes 2
  reject (magic ≠ kMagic ∨ version ≠ leBytes 2 kVersion.toUInt64 ∨
    frameType ≠ leBytes 2 type.toUInt64)

/-- The payload size and the sequence of a header. -/
def readFrameLength (handshaken : Bool) : Stream (UInt32 × UInt64) := do
  let bytes ← readU32
  reject ((if handshaken then kMaxPayloadBytes else 64 * 2 ^ 10) < bytes.toNat)
  let sequence ← readU64
  return (bytes, sequence)

/-- `ReceiveFrame`: the sequence and the payload. -/
def receiveFrame (channel : TpControlChannel) (type : UInt16) : Checked (UInt64 × Bytes) := do
  StateT.lift (refuse channel.interrupted "TP control channel is interrupted")
  StateT.lift (refuse (¬channel.connected) "TP control receive state is invalid")
  let header ← recvAll 20
  let (_, header) ← StateT.lift
    (orReject "TP control frame header is invalid" (readFrameStart type) header)
  let ((bytes, sequence), _) ← StateT.lift
    (orReject "TP control frame length is invalid" (readFrameLength channel.handshaken) header)
  let payload ← recvAll bytes.toNat
  return (sequence, payload)

/-- `SendCommand` -/
def sendCommand (channel : TpControlChannel) (command : TpControlCommand) :
    Except String Bytes := do
  refuse (¬channel.handshaken ∨ channel.rank ≠ 0) "TP control command is invalid"
  validateTpControlCommand command
  refuse (channel.maxContext = 0 ∨ channel.maxContext.toNat < command.promptTokens.length)
    "TP control command exceeds the negotiated context"
  sendFrame channel kCommand command.sequence (encodeCommand command)

/-- `ReceiveCommand` -/
def receiveCommand (channel : TpControlChannel) : Checked TpControlCommand := do
  StateT.lift (refuse (¬channel.handshaken ∨ channel.rank ≠ 1)
    "TP control command role is invalid")
  let (sequence, payload) ← receiveFrame channel kCommand
  StateT.lift (decodeCommand channel.maxContext sequence payload)

/-- `SendResponse` -/
def sendResponse (channel : TpControlChannel) (response : TpControlResponse) :
    Except String Bytes := do
  refuse (¬channel.handshaken ∨ channel.rank ≠ 1) "TP control response is invalid"
  validateTpControlResponse response
  sendFrame channel kResponse response.sequence (encodeResponse response)

/-- `ReceiveResponse` -/
def receiveResponse (channel : TpControlChannel) : Checked TpControlResponse := do
  StateT.lift (refuse (¬channel.handshaken ∨ channel.rank ≠ 0)
    "TP control response role is invalid")
  let (sequence, payload) ← receiveFrame channel kResponse
  StateT.lift (decodeResponse sequence payload)

end Gufo.Tp
