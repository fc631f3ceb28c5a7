import Mathlib.Algebra.Order.Ring.Int

/-!
# The TP2 control messages

The commands and responses of `src/cli/serve/tp_control.hpp` and the checks
`tp_control.cpp` makes on them before sending and after receiving.

* Strings and byte vectors are lists of bytes, a `float` is its bit pattern.
* A `shared_ptr` is an option; of the constraint and the budget only what the
  check reads is kept.
-/

namespace Gufo.Tp

abbrev Bytes := List UInt8

def kMaxPayloadBytes : Nat := 2 ^ 30
def kMaxPromptContextBytes : Nat := kMaxPayloadBytes - 64 * 2 ^ 20
def kMaxPromptTokens : Nat := 2 ^ 20
def kMaxBatchMembers : Nat := 8
def kMaxClientIdBytes : Nat := 4096
def kMaxErrorBytes : Nat := 2 ^ 20

/-- A check that fails with a message. -/
def refuse (c : Prop) [Decidable c] (message : String) : Except String Unit :=
  if c then .error message else .ok ()

/-! ## Floats -/

/-- A `float` by its bit pattern, as `FloatBits` and `BitsFloat` copy it. -/
abbrev FloatBits := UInt32

namespace FloatBits

def zero : FloatBits := 0
def one : FloatBits := 0x3f800000

def magnitude (x : FloatBits) : Nat := x.toNat % 2 ^ 31

/-- `std::isfinite` -/
def isFinite (x : FloatBits) : Bool := decide (x.magnitude < 0x7f800000)

def isNan (x : FloatBits) : Bool := decide (0x7f800000 < x.magnitude)

/-- Sign and magnitude as one number: it orders all values that are not NaN, and the
two zeros are equal. -/
def place (x : FloatBits) : Int := if x.toNat < 2 ^ 31 then x.magnitude else -x.magnitude

/-- `a < b` -/
def less (a b : FloatBits) : Bool := !a.isNan && !b.isNan && decide (a.place < b.place)

/-- `a <= b` -/
def atMost (a b : FloatBits) : Bool := !a.isNan && !b.isNan && decide (a.place ≤ b.place)

/-- `a == b` -/
def same (a b : FloatBits) : Bool := !a.isNan && !b.isNan && decide (a.place = b.place)

end FloatBits

/-! ## Sampling -/

/-- What `SamplingConfig::Validate` reads of a `TokenConstraint`. -/
structure TokenConstraint where
  grammar : Bool
  /-- The size of the vocabulary, if there is one. -/
  vocabulary : Option Nat
  deriving DecidableEq

/-- What `SamplingConfig::Validate` reads of a `ReasoningBudget`. -/
structure ReasoningBudget where
  forced : List UInt32
  deriving DecidableEq

structure SamplingConfig where
  logprobs : Option UInt32 := none
  temperature : FloatBits := FloatBits.zero
  topK : Int32 := 0
  topP : FloatBits := FloatBits.one
  minP : FloatBits := FloatBits.zero
  minKeep : UInt64 := 0
  seed : Int64 := -1
  repeatPenalty : FloatBits := FloatBits.one
  repeatLastN : UInt64 := 64
  frequencyPenalty : FloatBits := FloatBits.zero
  presencePenalty : FloatBits := FloatBits.zero
  constraint : Option TokenConstraint := none
  reasoningBudget : Option ReasoningBudget := none
  deriving DecidableEq

/-- The constraint lacks its grammar or a vocabulary with tokens. -/
def TokenConstraint.incomplete (constraint : TokenConstraint) : Bool :=
  !constraint.grammar || constraint.vocabulary.isNone || constraint.vocabulary == some 0

/-- `SamplingConfig::Validate` -/
def SamplingConfig.validate (config : SamplingConfig) : Except String Unit := do
  refuse (config.logprobs.any (20 < ·)) "logprobs must be between 0 and 20"
  refuse (config.constraint.any TokenConstraint.incomplete) "sampling constraint is incomplete"
  refuse (config.reasoningBudget.any (·.forced.isEmpty)) "reasoning budget has no forced end"
  refuse (!config.temperature.isFinite || config.temperature.less FloatBits.zero)
    "sampling temperature must be finite and nonnegative"
  refuse (config.topK < 0) "sampling top-k must be nonnegative"
  refuse (!config.topP.isFinite || config.topP.less FloatBits.zero ||
    FloatBits.one.less config.topP) "sampling top-p must be in [0, 1]"
  refuse (!config.minP.isFinite || config.minP.less FloatBits.zero ||
    FloatBits.one.less config.minP) "sampling min-p must be in [0, 1]"
  refuse (config.seed < -1) "sampling seed must be -1 or nonnegative"
  refuse (!config.repeatPenalty.isFinite || config.repeatPenalty.atMost FloatBits.zero)
    "sampling repeat penalty must be finite and positive"
  refuse (!config.frequencyPenalty.isFinite) "sampling frequency penalty must be finite"
  refuse (!config.presencePenalty.isFinite) "sampling presence penalty must be finite"

/-- `IsDefaultSampling` -/
def isDefaultSampling (config : SamplingConfig) : Bool :=
  let defaults : SamplingConfig := {}
  decide (config.logprobs = defaults.logprobs) &&
    config.temperature.same defaults.temperature &&
    decide (config.topK = defaults.topK) && config.topP.same defaults.topP &&
    config.minP.same defaults.minP && decide (config.minKeep = defaults.minKeep) &&
    decide (config.seed = defaults.seed) && config.repeatPenalty.same defaults.repeatPenalty &&
    decide (config.repeatLastN = defaults.repeatLastN) &&
    config.frequencyPenalty.same defaults.frequencyPenalty &&
    config.presencePenalty.same defaults.presencePenalty

/-! ## Commands -/

inductive TpControlCommandKind
  | kSingle
  | kInstruction
  deriving DecidableEq

def TpControlCommandKind.code : TpControlCommandKind → UInt32
  | .kSingle => 1
  | .kInstruction => 2

inductive TpInstructionOp
  | kNone
  | kInvalidate
  | kPrefill
  | kAdvance
  | kDecode
  | kEnd
  | kSnapshot
  | kDrop
  | kRestore
  | kReuse
  | kCancelPrepare
  | kAdvanceBatch
  | kPromptContext
  | kPersist
  | kRestoreDisk
  | kDecodeBatch
  deriving DecidableEq

/-- The operations in the order of their codes. -/
def TpInstructionOp.all : List TpInstructionOp :=
  [.kNone, .kInvalidate, .kPrefill, .kAdvance, .kDecode, .kEnd, .kSnapshot, .kDrop, .kRestore,
    .kReuse, .kCancelPrepare, .kAdvanceBatch, .kPromptContext, .kPersist, .kRestoreDisk,
    .kDecodeBatch]

def TpInstructionOp.code (op : TpInstructionOp) : UInt32 := (TpInstructionOp.all.idxOf op).toUInt32

/-- The operation a code up to `kDecodeBatch` stands for. -/
def TpInstructionOp.ofCode (code : UInt32) : Option TpInstructionOp :=
  TpInstructionOp.all[code.toNat]?

structure TpBatchMember where
  sequence : UInt64 := 0
  state : UInt32 := 0
  token : Int32 := 0
  count : UInt32 := 0
  rng : UInt64 := 0
  pending : Int32 := -1
  drafts : UInt32 := 0
  deriving DecidableEq

structure TpInstruction where
  op : TpInstructionOp := .kNone
  index : UInt64 := 0
  state : UInt32 := 0
  token : Int32 := 0
  offset : UInt32 := 0
  count : UInt32 := 0
  promptSize : UInt32 := 0
  digest : UInt64 := 0
  rng : UInt64 := 0
  pending : Int32 := -1
  snapshotId : UInt64 := 0
  batch : List TpBatchMember := []
  fileKey : UInt64 := 0
  batchDrafts : UInt32 := 0
  drafts : UInt32 := 0
  lookahead : UInt32 := 0
  deriving DecidableEq

/-- `TpConstraintSource::Tool` -/
structure Tool where
  name : Bytes := []
  description : Bytes := []
  parametersJson : Bytes := []
  definitionJson : Bytes := []
  deriving DecidableEq

structure TpConstraintSource where
  responseFormatJson : Bytes := []
  responseFormatResponses : Bool := false
  tools : List Tool := []
  toolChoice : UInt8 := 0
  parallelToolCalls : Bool := true
  reasoning : Bool := false
  deriving DecidableEq

structure TpControlCommand where
  sequence : UInt64 := 0
  maxTokens : UInt32 := 0
  cachePrompt : Bool := false
  cachePrefixTokens : UInt32 := 0
  promptTokens : List Int32 := []
  clientId : Bytes := []
  promptContext : Bytes := []
  kind : TpControlCommandKind := .kSingle
  sampling : SamplingConfig := {}
  constrained : Bool := false
  constraintSource : Option TpConstraintSource := none
  reasoningBudget : Option UInt64 := none
  stopAtEos : Bool := true
  instruction : TpInstruction := {}
  deriving DecidableEq

/-- `HasRequestFields` -/
def hasRequestFields (command : TpControlCommand) : Bool :=
  decide (command.maxTokens ≠ 0) || command.cachePrompt ||
    decide (command.cachePrefixTokens ≠ 0) || !command.promptTokens.isEmpty ||
    !command.clientId.isEmpty || !command.promptContext.isEmpty ||
    !isDefaultSampling command.sampling || command.constrained ||
    command.sampling.constraint.isSome || !command.stopAtEos ||
    command.constraintSource.isSome || command.reasoningBudget.isSome

/-- The closure `only` of `ValidateInstruction`: an argument not named is zero. -/
def TpInstruction.only (i : TpInstruction) (token offset count promptSize digest : Bool) : Bool :=
  (token || decide (i.token = 0)) && (offset || decide (i.offset = 0)) &&
    (count || decide (i.count = 0)) && (promptSize || decide (i.promptSize = 0)) &&
    (digest || decide (i.digest = 0))

/-- What the batch loop asks of one member. -/
def memberValid (decode : Bool) (batchDrafts : UInt32) (member : TpBatchMember) : Bool :=
  decide (member.sequence ≠ 0) &&
    (decide (member.drafts = 0) || (decode && decide (batchDrafts = 0))) &&
    (if decode then decide (member.token = 0) && decide (member.count ≠ 0) &&
        decide (-1 ≤ member.pending)
      else decide (0 ≤ member.token) && decide (member.count = 0) && decide (member.rng = 0) &&
        decide (member.pending = -1))

/-- The batch loop of `ValidateInstruction`, with the members before. -/
def membersValid (decode : Bool) (batchDrafts : UInt32) :
    List TpBatchMember → List TpBatchMember → Bool
  | _, [] => true
  | previous, member :: rest =>
    memberValid decode batchDrafts member &&
      previous.all (fun p => decide (p.state ≠ member.state) &&
        (!decode || decide (p.sequence ≠ member.sequence))) &&
      membersValid decode batchDrafts (previous ++ [member]) rest

/-- The switch of `ValidateInstruction`. -/
def TpInstruction.argumentsValid (i : TpInstruction) (sequence : UInt64) : Bool :=
  match i.op with
  | .kAdvanceBatch | .kDecodeBatch =>
    decide (i.state = 0) && i.only false false false false false &&
      decide (2 ≤ i.batch.length) && decide (i.batch.length ≤ kMaxBatchMembers) &&
      decide (sequence = 0) &&
      membersValid (decide (i.op = .kDecodeBatch)) i.batchDrafts [] i.batch
  | .kDrop | .kPersist => decide (i.state = 0) && i.only false false false false false
  | .kReuse => i.only false false false true false &&
      decide (i.promptSize.toNat ≤ kMaxPromptTokens)
  | .kSnapshot => i.only false true true false true && decide (i.offset ≤ 1)
  | .kRestore | .kCancelPrepare | .kInvalidate | .kPromptContext | .kRestoreDisk =>
    i.only false false false false false
  | .kPrefill => i.only false true true true false && decide (i.count ≠ 0) &&
      decide (i.offset < i.promptSize) && decide (i.promptSize.toNat ≤ kMaxPromptTokens) &&
      decide (i.lookahead.toNat ≤ kMaxPromptTokens - i.promptSize.toNat)
  | .kAdvance => i.only true false false false false && decide (0 ≤ i.token)
  | .kDecode => i.only false false true false false && decide (1 < i.count) &&
      decide (-1 ≤ i.pending)
  | .kEnd => i.only false false true false true
  | .kNone => false

/-- `ValidateInstruction` -/
def validateInstruction (sequence : UInt64) (i : TpInstruction) : Except String Unit := do
  -- Only a decode carries a draw state and a draft count.
  refuse (i.op ≠ .kDecode ∧ (i.rng ≠ 0 ∨ i.pending ≠ -1))
    "TP instruction carries a draw state it does not use"
  refuse (i.op ≠ .kDecode ∧ i.drafts ≠ 0) "TP instruction carries a draft count it does not use"
  refuse (decide (i.op ∈ [.kSnapshot, .kRestore, .kDrop, .kPersist]) ≠
    decide (i.snapshotId ≠ 0)) "TP instruction snapshot ID is invalid"
  refuse (decide (i.op ∈ [.kPersist, .kRestoreDisk]) ≠ decide (i.fileKey ≠ 0))
    "TP instruction file key is invalid"
  refuse (decide (i.op ∈ [.kAdvanceBatch, .kDecodeBatch]) ≠ !i.batch.isEmpty ∨
    (i.op ≠ .kDecodeBatch ∧ i.batchDrafts ≠ 0))
    "TP instruction batch does not match its operation"
  refuse (i.op ≠ .kPrefill ∧ i.lookahead ≠ 0)
    "TP instruction carries a lookahead it does not use"
  refuse (!i.argumentsValid sequence) "TP instruction has invalid arguments for its operation"
  refuse (sequence = 0 ∧
    i.op ∉ [.kInvalidate, .kDrop, .kPersist, .kPromptContext, .kAdvanceBatch, .kDecodeBatch])
    ("TP instruction outside a request must be a reset, a snapshot " ++
      "drop or persist, or a prompt-context release")

/-- The request check of `ValidateTpControlCommand`. -/
def requestInvalid (command : TpControlCommand) : Bool :=
  decide (command.maxTokens = 0) || command.promptTokens.isEmpty ||
    decide (kMaxPromptTokens < command.promptTokens.length) ||
    decide (command.promptTokens.length < command.cachePrefixTokens.toNat) ||
    decide (kMaxClientIdBytes < command.clientId.length) ||
    decide (kMaxPromptContextBytes < command.promptContext.length) ||
    command.promptTokens.any (fun token => decide (token < 0))

/-- `ValidateTpControlCommand`. The kind has no third value, so the last refusal of the
source is not reached. -/
def validateTpControlCommand (command : TpControlCommand) : Except String Unit := do
  refuse (command.kind ≠ .kInstruction ∧ command.instruction ≠ {})
    "TP request command carries an instruction"
  match command.kind with
  | .kSingle =>
    refuse (requestInvalid command) "TP control request is invalid"
    match command.sampling.validate with
    | .error what => .error ("TP control request sampling is invalid: " ++ what)
    | .ok () => .ok ()
  | .kInstruction =>
    refuse (hasRequestFields command) "TP instruction carries request fields"
    validateInstruction command.sequence command.instruction

/-! ## Responses -/

inductive TpControlResponseKind
  | kSingle
  | kInstruction
  deriving DecidableEq

def TpControlResponseKind.code : TpControlResponseKind → UInt32
  | .kSingle => 1
  | .kInstruction => 2

structure TpControlResponse where
  instructionIndex : UInt64 := 0
  sequence : UInt64 := 0
  tokens : List Int32 := []
  draftTokens : UInt64 := 0
  draftAcceptedTokens : UInt64 := 0
  cachedPromptTokens : UInt32 := 0
  cacheSnapshotBytes : UInt64 := 0
  error : Bytes := []
  kind : TpControlResponseKind := .kSingle
  deriving DecidableEq

/-- `HasResultFields` -/
def hasResultFields (response : TpControlResponse) : Bool :=
  !response.tokens.isEmpty || decide (response.draftTokens ≠ 0) ||
    decide (response.draftAcceptedTokens ≠ 0) || decide (response.cachedPromptTokens ≠ 0) ||
    decide (response.cacheSnapshotBytes ≠ 0)

/-- `ValidateTpControlResponse` -/
def validateTpControlResponse (response : TpControlResponse) : Except String Unit := do
  refuse (kMaxErrorBytes < response.error.length) "TP control response error is too large"
  match response.kind with
  | .kInstruction =>
    refuse (response.sequence = 0 ∨ hasResultFields response)
      "TP cache acknowledgement is invalid"
  | .kSingle =>
    refuse (response.instructionIndex ≠ 0) "TP final response carries an instruction index"
    refuse (kMaxPromptTokens < response.tokens.length ∨
      kMaxPromptTokens < response.cachedPromptTokens.toNat) "TP control response is too large"

end Gufo.Tp
