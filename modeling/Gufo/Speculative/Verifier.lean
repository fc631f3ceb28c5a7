import Gufo.Speculative.Sampling

/-!
# The speculative verifier

`SpeculativeVerifier::VerifyStep` and what it calls
(`src/core/speculative/speculative_verifier.cpp`), over the default behaviour of
the target and draft interfaces.

* A target is a function of the tokens committed to it; the executor's state is
  those tokens, the saved tokens and the rows of the last verification chunk.
* A draft backend is any state with any operations.
* A hidden state is one value, and a chunk's hidden states and logits are lists of
  rows.
-/

namespace Gufo.Speculative

/-! ## The target executor -/

structure Target (F Hidden : Type) where
  predict : List TokenId → TokenId
  logits : List TokenId → Row F
  hidden : List TokenId → Hidden
  stop : TokenId → Bool
  vocabularySize : Nat
  deviceResident : Bool
  /-- `CopyVerificationLogits` is implemented. -/
  retainsRows : Bool
  device_retains : deviceResident = true → retainsRows = true

/-- A target off the device need retain nothing. -/
theorem off_device {retains : Bool} : false = true → retains = true := nofun

structure Executor where
  tokens : List TokenId
  saved : List TokenId := []
  /-- The committed tokens at each row of the last verification chunk. -/
  rows : List (List TokenId) := []

structure VerificationChunk (F Hidden : Type) where
  predictions : List TokenId := []
  hiddenStates : List Hidden := []
  logits : List (Row F) := []

section
variable {m : Type → Type} [Monad m] [MonadExcept String m] {F Hidden : Type}

/-- `ForwardToken`; a position other than the frontier is refused. -/
def Executor.forwardToken (e : Executor) (token : TokenId) (position : Nat) : m Executor :=
  if position = e.tokens.length then pure { e with tokens := e.tokens ++ [token] }
  else throw "position is not the frontier"

def Executor.saveState (e : Executor) : Executor := { e with saved := e.tokens }

def Executor.restoreState (e : Executor) : Executor := { e with tokens := e.saved }

/-- `ForwardVerificationChunk` -/
def Executor.forwardVerificationChunk (t : Target F Hidden) (captureHidden captureLogits : Bool) :
    List TokenId → Nat → Executor → m (VerificationChunk F Hidden × Executor)
  | [], _, e => pure ({}, { e with rows := [] })
  | token :: rest, position, e => do
    let next ← e.forwardToken token position
    let (chunk, last) ←
      forwardVerificationChunk t captureHidden captureLogits rest (position + 1) next
    return (
      { predictions := t.predict next.tokens :: chunk.predictions
        hiddenStates :=
          if captureHidden then t.hidden next.tokens :: chunk.hiddenStates else chunk.hiddenStates
        logits := if captureLogits then t.logits next.tokens :: chunk.logits else chunk.logits },
      { last with rows := next.tokens :: last.rows })

/-- `CommitVerificationChunk` -/
def Executor.commitVerificationChunk : List TokenId → Nat → Executor → m Executor
  | [], _, e => pure e
  | token :: rest, position, e => do
    commitVerificationChunk rest (position + 1) (← e.forwardToken token position)

/-- `CopyVerificationLogits`; `none` is an empty span. -/
def Executor.copyVerificationLogits (t : Target F Hidden) (e : Executor) (row : Nat) :
    Option (Row F) :=
  if t.retainsRows then e.rows[row]?.map t.logits else none

/-- The row a caller needs. -/
def required {α : Type} (a : Option α) (e : String) : m α :=
  match a with
  | some a => pure a
  | none => throw e

end

/-! ## The draft backend -/

structure DraftProposal (F : Type) where
  tokens : List TokenId
  candidateIds : List TokenId := []
  candidateProbabilities : List F := []
  candidatesPerToken : Nat := 0
  startPos : Nat
  fromLookup : Bool := false

/-- A row of a sampled proposal. -/
def DraftProposal.row {F : Type} (p : DraftProposal F) (row : Nat) : Entries F :=
  ((p.candidateIds.drop (row * p.candidatesPerToken)).take p.candidatesPerToken).zip
    ((p.candidateProbabilities.drop (row * p.candidatesPerToken)).take p.candidatesPerToken)

structure DraftTargetContext (Hidden : Type) where
  promptTokens : List TokenId
  promptHiddenStates : List Hidden
  firstToken : TokenId

structure DraftProposalRequest (Γ F G : Type) where
  tokens : List TokenId
  position : Nat
  maxTokens : Nat
  temperature : F
  sampler : SamplerState Γ F G

/-- The backend's operations; `proposeSampled` is `ProposeForRequest` with a generator. -/
structure Drafter (m : Type → Type) (D Γ F G Hidden : Type) where
  supportsSampledProposals : Bool
  requiresTargetHiddenStates : Bool
  propose : D → List TokenId → Nat → Nat → m (DraftProposal F × D)
  proposeForRequest : D → DraftProposalRequest Γ F G → m (DraftProposal F × D)
  proposeSampled : D → DraftProposalRequest Γ F G → G → m (DraftProposal F × D × G)
  appendTargetContext : D → DraftTargetContext Hidden → Nat → Bool × D
  updateTargetHidden : D → Hidden → D
  acceptFeedback : D → List TokenId → TokenId → D

/-! ## The verifier -/

structure SpeculativeOptions (F : Type) where
  maxDraftTokens : Nat
  minDraftTokens : Nat
  rollingWindow : Nat
  targetAcceptanceRate : F
  enableAdaptiveDraftLength : Bool
  useBatchedVerification : Bool
  retainFrontierLogits : Bool

structure SpeculativeStats where
  totalDraftTokens : Nat := 0
  totalAcceptedTokens : Nat := 0
  totalVerificationSteps : Nat := 0
  totalEmittedTokens : Nat := 0
  deriving DecidableEq

structure Verifier (m : Type → Type) (D Γ F G Hidden : Type) where
  target : Target F Hidden
  drafter : Option (Drafter m D Γ F G Hidden)
  options : SpeculativeOptions F
  executor : Executor
  draft : D
  stats : SpeculativeStats := {}
  currentDraftLength : Nat
  rollingAcceptance : List F := []

structure StepResult (F : Type) where
  emittedTokens : List TokenId
  acceptedCount : Nat := 0
  draftCount : Nat := 0
  nextToken : TokenId
  /-- `none` is an empty row. -/
  nextTokenLogits : Option (Row F) := none
  hitEos : Bool
  physicalWidth : Nat := 1
  lookupTokens : Nat := 0
  lookupAcceptedTokens : Nat := 0
  logprobs : List (TokenLogprobs F) := []

structure StepRequest (m : Type → Type) (D Γ F G Hidden : Type) where
  verifier : Verifier m D Γ F G Hidden
  sequence : List TokenId
  position : Nat
  currentToken : TokenId
  eos : TokenId
  maxEmittedTokens : Nat
  sampler : SamplerState Γ F G

/-- A step's result with the verifier and the request's sampler after it. -/
structure Finished (m : Type → Type) (D Γ F G Hidden : Type) where
  result : StepResult F
  verifier : Verifier m D Γ F G Hidden
  sampler : SamplerState Γ F G

structure PreparedStep (Γ F G : Type) where
  proposal : DraftProposal F
  inputs : List TokenId := []
  tokenProbabilities : List F := []
  workingSampler : Option (SamplerState Γ F G)
  logprobs : List (TokenLogprobs F) := []
  position : Nat
  eos : TokenId
  sampled : Bool
  randomSampling : Bool
  captureHidden : Bool := false
  captureLogits : Bool := false
  targetOnly : Bool := false
  maxDraftTokens : Nat
  /-- `none` is the largest `size_t`. -/
  chunkLimit : Option Nat := none
  verifiedRows : Nat := 0
  acceptedCount : Nat := 0
  physicalWidth : Nat := 1

section
variable {m : Type → Type} [Monad m] [MonadExcept String m]
variable {D Γ F G Hidden : Type} [LinearOrder F] [Zero F] [One F] [Add F] [Sub F] [Mul F] [Div F]
  [NatCast F] [Floating F]

namespace Verifier

/-- `IsStopToken` -/
def isStopToken (v : Verifier m D Γ F G Hidden) (token eos : TokenId) : Bool :=
  token == eos || v.target.stop token

/-- `CopyLastLogits` -/
def lastLogits (v : Verifier m D Γ F G Hidden) : Row F := v.target.logits v.executor.tokens

def requiresHidden (v : Verifier m D Γ F G Hidden) : Bool :=
  v.drafter.any (·.requiresTargetHiddenStates)

/-- The draft length and the rolling acceptance after a proposal. -/
def adaptDraftLength (o : SpeculativeOptions F) (length : Nat) (rolling : List F)
    (accepted drafted : Nat) : Nat × List F :=
  if !o.enableAdaptiveDraftLength || drafted == 0 then (length, rolling)
  else
    let pushed := rolling ++ [(accepted : F) / (drafted : F)]
    let rolling := if o.rollingWindow < pushed.length then pushed.drop 1 else pushed
    let average := rolling.foldl (· + ·) 0 / (rolling.length : F)
    if o.targetAcceptanceRate < average ∧ length < o.maxDraftTokens then (length + 1, rolling)
    else if average < o.targetAcceptanceRate / ((2 : Nat) : F) ∧ o.minDraftTokens < length then
      (length - 1, rolling)
    else (length, rolling)

/-- `UpdateAdaptiveDraftLength` -/
def updateAdaptiveDraftLength (v : Verifier m D Γ F G Hidden) (accepted drafted : Nat) :
    Verifier m D Γ F G Hidden :=
  let next :=
    adaptDraftLength v.options v.currentDraftLength v.rollingAcceptance accepted drafted
  { v with currentDraftLength := next.1, rollingAcceptance := next.2 }

/-- `AcceptFeedback` and `UpdateTargetHidden` reach the backend if there is one. -/
def feedback (v : Verifier m D Γ F G Hidden) (accepted : List TokenId) (correction : TokenId) :
    Verifier m D Γ F G Hidden :=
  { v with draft :=
    match v.drafter with
    | some b => b.acceptFeedback v.draft accepted correction
    | none => v.draft }

def updateTargetHidden (v : Verifier m D Γ F G Hidden) (rows : List Hidden) :
    Verifier m D Γ F G Hidden :=
  { v with draft :=
    match v.drafter with
    | some b => rows.foldl b.updateTargetHidden v.draft
    | none => v.draft }

def appendTargetContext (v : Verifier m D Γ F G Hidden) (context : DraftTargetContext Hidden)
    (position : Nat) : m (Verifier m D Γ F G Hidden) :=
  match v.drafter with
  | some b =>
    let (appended, draft) := b.appendTargetContext v.draft context position
    if appended then pure { v with draft }
    else throw "draft failed to append committed target token"
  | none => pure v

/-- `AdvanceCommittedToken` -/
def advanceCommittedToken (v : Verifier m D Γ F G Hidden) (token : TokenId) (position : Nat) :
    m (TokenId × Verifier m D Γ F G Hidden) := do
  let executor ← v.executor.forwardToken token position
  let next := v.target.predict executor.tokens
  let v := { v with executor }
  if v.requiresHidden then
    let v ← v.appendTargetContext ⟨[token], [v.target.hidden executor.tokens], next⟩ position
    return (next, v)
  else return (next, v)

/-- The statistics of one step. -/
def count (v : Verifier m D Γ F G Hidden) (drafted accepted emitted : Nat) :
    Verifier m D Γ F G Hidden :=
  { v with stats :=
    { totalDraftTokens := v.stats.totalDraftTokens + drafted
      totalAcceptedTokens := v.stats.totalAcceptedTokens + accepted
      totalVerificationSteps := v.stats.totalVerificationSteps + 1
      totalEmittedTokens := v.stats.totalEmittedTokens + emitted } }

end Verifier

/-- One entry of the step's log probabilities if they are asked for. -/
def logprobsOf (count : Option Nat) (row : Option (Row F)) (token : TokenId) :
    m (List (TokenLogprobs F)) :=
  match count with
  | none => pure []
  | some n => do return [← MonadExcept.ofExcept (collectLogprobs (row.getD []) token n)]

section
variable [Uniform m G F]

/-! ## Preparing a step -/

/-- `PrepareTargetOnlyStep` -/
def prepareTargetOnlyStep (p : PreparedStep Γ F G) (r : StepRequest m D Γ F G Hidden)
    (v : Verifier m D Γ F G Hidden) (deferTargetOnly : Bool) :
    m (PreparedStep Γ F G ⊕ Finished m D Γ F G Hidden) := do
  let working := p.workingSampler.getD r.sampler
  if deferTargetOnly then
    return .inl { p with
      targetOnly := true
      inputs := [r.currentToken]
      captureHidden := v.requiresHidden
      captureLogits := (p.sampled || v.options.retainFrontierLogits ||
        r.sampler.config.logprobs.isSome) && !v.target.deviceResident }
  let (prediction, v) ← v.advanceCommittedToken r.currentToken r.position
  let (next, working) ←
    if p.sampled then do
      if ← MonadExcept.ofExcept (working.canSelectArgmax prediction) then
        pure (prediction, working)
      else working.sample v.lastLogits
    else pure (prediction, working)
  let logprobs ← logprobsOf r.sampler.config.logprobs (some v.lastLogits) next
  return .inr {
    result :=
      { emittedTokens := [next]
        nextToken := next
        nextTokenLogits := if v.options.retainFrontierLogits then some v.lastLogits else none
        hitEos := v.isStopToken next r.eos
        logprobs }
    verifier := v.count 0 0 1
    sampler := r.sampler.setRngState working.rng }

/-- `draft_token_probability`: the probability a sampled row gives its token. -/
def draftTokenProbability (vocabularySize : Nat) (tolerance : F) (token : TokenId)
    (row : Entries F) : Except String F := do
  reject (row.zipIdx.any fun (e, index) =>
      !Floating.finite e.2 || decide (e.2 < 0) || decide (1 < e.2) ||
        (vocabularySize != 0 && decide (vocabularySize ≤ e.1)) ||
        (row.take index).any (·.1 == e.1))
    "draft backend returned an invalid sampled candidate"
  let sum := sumValues row
  let probability := sparseProbability row token
  reject (decide (tolerance < max (sum - 1) (1 - sum)) || !decide (0 < probability))
    "draft backend returned an unnormalized sampled proposal"
  return probability

/-- `1e-5` -/
def probabilityTolerance : F := 1 / ((100000 : Nat) : F)

def draftTokenProbabilities (vocabularySize : Nat) (p : DraftProposal F) :
    Except String (List F) :=
  p.tokens.zipIdx.mapM fun (token, row) =>
    draftTokenProbability vocabularySize probabilityTolerance token (p.row row)

/-- `PrepareProposalVerification` -/
def prepareProposalVerification (p : PreparedStep Γ F G) (r : StepRequest m D Γ F G Hidden)
    (v : Verifier m D Γ F G Hidden) (deferTargetOnly : Bool) :
    m (PreparedStep Γ F G × Verifier m D Γ F G Hidden ⊕ Finished m D Γ F G Hidden) := do
  let proposal := p.proposal
  if proposal.tokens.isEmpty then
    match ← prepareTargetOnlyStep p r v deferTargetOnly with
    | .inl p => return .inl (p, v)
    | .inr finished => return .inr finished
  let drafted := proposal.tokens.length
  if p.maxDraftTokens < drafted ∨ proposal.startPos ≠ r.position then
    throw "draft backend returned a malformed proposal"
  if p.randomSampling ∧ (proposal.candidatesPerToken = 0 ∨
      proposal.candidateIds.length / drafted < proposal.candidatesPerToken ∨
      proposal.candidateIds.length ≠ drafted * proposal.candidatesPerToken ∨
      proposal.candidateProbabilities.length ≠ proposal.candidateIds.length) then
    throw "draft backend returned a malformed sampled proposal"
  let tokenProbabilities ←
    if p.randomSampling then
      MonadExcept.ofExcept (draftTokenProbabilities v.target.vocabularySize proposal)
    else pure (List.replicate drafted 0)
  return .inl ({ p with
      tokenProbabilities
      inputs := r.currentToken :: proposal.tokens
      captureHidden := v.requiresHidden
      captureLogits := (p.sampled || r.sampler.config.logprobs.isSome) && !v.target.deviceResident },
    { v with executor := v.executor.saveState })

/-- The part of `PrepareStep` before anything is proposed. -/
def startStep (r : StepRequest m D Γ F G Hidden) : m (PreparedStep Γ F G) := do
  MonadExcept.ofExcept r.sampler.config.validate
  if r.maxEmittedTokens = 0 then
    throw "speculative verification must emit at least one token"
  let random := r.sampler.config.usesRandomSampling
  let sampled := random || r.sampler.config.penaltiesEnabled ||
    r.sampler.config.constraint.isSome || r.sampler.config.reasoningBudget.isSome
  return {
    proposal := { tokens := [], startPos := 0 }
    workingSampler := if sampled then some r.sampler else none
    position := r.position
    eos := r.eos
    sampled
    randomSampling := random
    maxDraftTokens :=
      if 1 < r.maxEmittedTokens ∧
          r.verifier.drafter.any (fun b => !sampled || b.supportsSampledProposals) then
        min r.verifier.currentDraftLength (r.maxEmittedTokens - 1)
      else 0 }

/-- The request `PrepareStep` and `VerifyBatch` hand to the backend. -/
def draftRequest (p : PreparedStep Γ F G) (r : StepRequest m D Γ F G Hidden) :
    DraftProposalRequest Γ F G :=
  { tokens := r.sequence
    position := r.position
    maxTokens := p.maxDraftTokens
    temperature := if p.randomSampling then r.sampler.config.temperature else 0
    sampler := p.workingSampler.getD r.sampler }

/-- `ProposeForRequest`, whose draws move the working sampler's generator. -/
def proposeForRequest (b : Drafter m D Γ F G Hidden) (p : PreparedStep Γ F G)
    (r : StepRequest m D Γ F G Hidden) (v : Verifier m D Γ F G Hidden) :
    m (PreparedStep Γ F G × Verifier m D Γ F G Hidden) := do
  let request := draftRequest p r
  if p.randomSampling then
    let (proposal, draft, rng) ← b.proposeSampled v.draft request request.sampler.rng
    return ({ p with proposal, workingSampler := some { request.sampler with rng } },
      { v with draft })
  else
    let (proposal, draft) ← b.proposeForRequest v.draft request
    return ({ p with proposal }, { v with draft })

/-- `PrepareStep` without deferral. -/
def prepareStep (r : StepRequest m D Γ F G Hidden) :
    m (PreparedStep Γ F G × Verifier m D Γ F G Hidden ⊕ Finished m D Γ F G Hidden) := do
  let p ← startStep r
  match r.verifier.drafter, p.maxDraftTokens with
  | some b, _ + 1 => do
    let (p, v) ← proposeForRequest b p r r.verifier
    prepareProposalVerification p r v false
  | _, _ => do
    match ← prepareTargetOnlyStep p r r.verifier false with
    | .inl p => return .inl (p, r.verifier)
    | .inr finished => return .inr finished

/-! ## Verifying a chunk -/

/-- `select_row` -/
def selectRow (v : Verifier m D Γ F G Hidden) (chunk : VerificationChunk F Hidden) (row : Nat)
    (working : SamplerState Γ F G) : m (TokenId × SamplerState Γ F G) := do
  let selected ← match chunk.predictions[row]? with
    | some prediction => do
      if ← MonadExcept.ofExcept (working.canSelectArgmax prediction) then pure (some prediction)
      else pure none
    | none => pure none
  match selected with
  | some prediction => return (prediction, working)
  | none =>
    if v.target.deviceResident then
      working.sample (← required (v.executor.copyVerificationLogits v.target row)
        "target executor did not retain verification logits")
    else working.sample (← required chunk.logits[row]? "verification row is missing")

/-- `VerifySampledToken`: the token emitted and whether it is the draft's. -/
def verifySampledToken (logits : Row F) (draft : TokenId) (candidates : Entries F)
    (draftProbability : F) (s : SamplerState Γ F G) :
    m ((TokenId × Bool) × SamplerState Γ F G) := do
  let target ← MonadExcept.ofExcept (s.distribution logits)
  let (uniform, s) ← s.draw
  if uniform * draftProbability < probability target draft then
    return ((draft, true), ← MonadExcept.ofExcept (s.accept draft))
  else
    let (token, rng) ← sampleResidual target candidates s.rng
    return ((token, false), { s with rng })

/-- The logits of a row, from the chunk or from the device. -/
def rowLogits (v : Verifier m D Γ F G Hidden) (p : PreparedStep Γ F G)
    (chunk : VerificationChunk F Hidden) (row : Nat) : Option (Row F) :=
  if p.captureLogits then chunk.logits[row]? else v.executor.copyVerificationLogits v.target row

/-- The loop over the drafts of a chunk: how many are accepted in all, the correction, and the
working sampler. -/
def acceptDrafts (v : Verifier m D Γ F G Hidden) (p : PreparedStep Γ F G)
    (chunk : VerificationChunk F Hidden) :
    List TokenId → Nat → SamplerState Γ F G → m (Nat × TokenId × SamplerState Γ F G)
  | [], accepted, working => pure (accepted, 0, working)
  | draft :: rest, accepted, working => do
    let localRow := accepted - p.verifiedRows
    if !p.sampled then
      let prediction ← required chunk.predictions[localRow]? "verification row is missing"
      if prediction ≠ draft ∨ v.isStopToken prediction p.eos then
        return (accepted, prediction, working)
      else acceptDrafts v p chunk rest (accepted + 1) working
    else if !p.randomSampling then
      -- The history a draft is checked against grows with every draft accepted before it.
      let (selected, working) ← selectRow v chunk localRow working
      if selected ≠ draft ∨ v.isStopToken selected p.eos then return (accepted, selected, working)
      else do
        let working ← MonadExcept.ofExcept (working.accept selected)
        acceptDrafts v p chunk rest (accepted + 1) working
    else
      let draftProbability ←
        required p.tokenProbabilities[accepted]? "verification row is missing"
      let logits ←
        if v.target.deviceResident then
          required (v.executor.copyVerificationLogits v.target localRow)
            "target executor did not retain verification logits"
        else required chunk.logits[localRow]? "verification row is missing"
      let ((token, kept), working) ←
        verifySampledToken logits draft (p.proposal.row accepted) draftProbability working
      if kept ∧ ¬v.isStopToken draft p.eos then
        acceptDrafts v p chunk rest (accepted + 1) working
      else return (accepted, token, working)

/-- The log probabilities of rows accepted in this chunk. -/
def acceptedLogprobs (v : Verifier m D Γ F G Hidden) (p : PreparedStep Γ F G)
    (chunk : VerificationChunk F Hidden) (logprobs : Option Nat) :
    List TokenId → Nat → m (List (TokenLogprobs F))
  | [], _ => pure []
  | token :: rest, row => do
    let first ← logprobsOf logprobs (rowLogits v p chunk row) token
    return first ++ (← acceptedLogprobs v p chunk logprobs rest (row + 1))

/-- The target-only part of `ProcessVerificationChunk`. -/
def processTargetOnly (p : PreparedStep Γ F G) (chunk : VerificationChunk F Hidden)
    (v : Verifier m D Γ F G Hidden) (sampler : SamplerState Γ F G) :
    m (Finished m D Γ F G Hidden) := do
  let working := p.workingSampler.getD sampler
  let prediction ← required chunk.predictions[0]? "verification row is missing"
  let v ←
    if p.captureHidden then
      v.appendTargetContext ⟨p.inputs, chunk.hiddenStates, prediction⟩ p.position
    else pure v
  let (next, working) ←
    if p.sampled then selectRow v chunk 0 working else pure (prediction, working)
  let logprobs ← logprobsOf sampler.config.logprobs (rowLogits v p chunk 0) next
  return {
    result :=
      { emittedTokens := [next]
        nextToken := next
        nextTokenLogits := if v.options.retainFrontierLogits then rowLogits v p chunk 0 else none
        hitEos := v.isStopToken next p.eos
        logprobs }
    verifier := v.count 0 0 1
    sampler := sampler.setRngState working.rng }

/-- The correction, or the token after a proposal that was accepted whole. -/
def finalToken (p : PreparedStep Γ F G) (chunk : VerificationChunk F Hidden) (accepted : Nat)
    (correction : TokenId) (working : SamplerState Γ F G) (v : Verifier m D Γ F G Hidden) :
    m (TokenId × SamplerState Γ F G) :=
  if accepted = p.proposal.tokens.length then
    if p.sampled then selectRow v chunk (accepted - p.verifiedRows) working
    else do
      let prediction ←
        required chunk.predictions[accepted - p.verifiedRows]? "verification row is missing"
      return (prediction, working)
  else pure (correction, working)

/-- The target is rolled back if the chunk ran past the committed rows. -/
def commitAccepted (p : PreparedStep Γ F G) (accepted chunkEnd : Nat) (e : Executor) : m Executor :=
  if accepted + 1 < chunkEnd then
    e.restoreState.commitVerificationChunk (p.inputs.take (accepted + 1)) p.position
  else pure e

/-- The result, the statistics and the feedback of a proposal. -/
def closeProposal (p : PreparedStep Γ F G) (accepted : Nat) (correction : TokenId)
    (working : SamplerState Γ F G) (frontier : Option (Row F)) (logprobs : List (TokenLogprobs F))
    (v : Verifier m D Γ F G Hidden) (sampler : SamplerState Γ F G) : Finished m D Γ F G Hidden :=
  let drafted := p.proposal.tokens.length
  let emitted := p.proposal.tokens.take accepted ++ [correction]
  { result :=
      { emittedTokens := emitted
        acceptedCount := accepted
        draftCount := drafted
        nextToken := correction
        nextTokenLogits := if v.options.retainFrontierLogits then frontier else none
        hitEos := emitted.any (v.isStopToken · p.eos)
        lookupTokens := if p.proposal.fromLookup then drafted else 0
        lookupAcceptedTokens := if p.proposal.fromLookup then accepted else 0
        logprobs }
    verifier := ((v.count drafted accepted emitted.length).updateAdaptiveDraftLength
      accepted drafted).feedback (p.proposal.tokens.take accepted) correction
    sampler := if p.sampled then sampler.setRngState working.rng else sampler }

/-- The end of `ProcessVerificationChunk`, once a row has stopped the proposal. -/
def finishProposal (p : PreparedStep Γ F G) (chunk : VerificationChunk F Hidden)
    (accepted : Nat) (correction : TokenId) (working : SamplerState Γ F G) (chunkEnd : Nat)
    (v : Verifier m D Γ F G Hidden) (sampler : SamplerState Γ F G) :
    m (Finished m D Γ F G Hidden) := do
  let (correction, working) ← finalToken p chunk accepted correction working v
  let frontier := rowLogits v p chunk (accepted - p.verifiedRows)
  let last ← logprobsOf sampler.config.logprobs frontier correction
  let executor ← commitAccepted p accepted chunkEnd v.executor
  return closeProposal p accepted correction working frontier (p.logprobs ++ last)
    { v with executor } sampler

/-- How many rows the next chunk has. -/
def PreparedStep.chunkRows (p : PreparedStep Γ F G) : Nat :=
  (p.chunkLimit.elim id min) (p.inputs.length - p.verifiedRows)

/-- `ProcessVerificationChunk` -/
def processVerificationChunk (p : PreparedStep Γ F G) (chunk : VerificationChunk F Hidden)
    (v : Verifier m D Γ F G Hidden) (sampler : SamplerState Γ F G) :
    m ((PreparedStep Γ F G × Verifier m D Γ F G Hidden) ⊕ Finished m D Γ F G Hidden) := do
  let chunkRows := p.chunkRows
  let chunkEnd := p.verifiedRows + chunkRows
  if (!p.sampled || p.targetOnly) && chunk.predictions.length != chunkRows then
    throw "target executor returned an incomplete verification chunk"
  if p.captureLogits && chunk.logits.length != chunkRows then
    throw "target executor returned incomplete verification logits"
  if p.captureHidden && chunk.hiddenStates.length != chunkRows then
    throw "target executor returned incomplete verification hidden states"
  if p.targetOnly then
    return .inr (← processTargetOnly p chunk v sampler)
  let drafts := (p.proposal.tokens.take chunkEnd).drop p.acceptedCount
  let (accepted, correction, working) ←
    acceptDrafts v p chunk drafts p.acceptedCount (p.workingSampler.getD sampler)
  let complete := accepted < chunkEnd
  let committed := if complete then accepted + 1 else chunkEnd
  let v :=
    if p.captureHidden then v.updateTargetHidden (chunk.hiddenStates.take (committed - p.verifiedRows))
    else v
  let logprobs ← acceptedLogprobs v p chunk sampler.config.logprobs
    ((p.proposal.tokens.take accepted).drop p.verifiedRows) 0
  let p := { p with logprobs := p.logprobs ++ logprobs, acceptedCount := accepted }
  if complete then
    return .inr (← finishProposal p chunk accepted correction working chunkEnd v sampler)
  else
    return .inl ({ p with
      verifiedRows := chunkEnd
      workingSampler := p.workingSampler.map fun _ => working }, v)

/-! ## Sequential verification -/

/-- The first loop of `VerifySequentialStep`: the predictions, the hidden states and the log
probabilities of the rows up to the first that stops it. -/
def forwardDrafts (v : Verifier m D Γ F G Hidden) (eos : TokenId) (logprobs : Option Nat) :
    TokenId → List TokenId → Nat → Executor →
      m (List TokenId × List Hidden × List (TokenLogprobs F) × Executor)
  | _, [], _, e => pure ([], [], [], e)
  | input, draft :: rest, position, e => do
    let e ← e.forwardToken input position
    let prediction := v.target.predict e.tokens
    let hidden := v.target.hidden e.tokens
    let entry ← logprobsOf logprobs (some (v.target.logits e.tokens)) prediction
    if prediction ≠ draft ∨ v.isStopToken prediction eos then
      return ([prediction], [hidden], entry, e)
    else
      let (predictions, states, entries, e) ←
        forwardDrafts v eos logprobs draft rest (position + 1) e
      return (prediction :: predictions, hidden :: states, entry ++ entries, e)

/-- How many drafts the predictions accept. -/
def countAccepted (v : Verifier m D Γ F G Hidden) (eos : TokenId) :
    List TokenId → List TokenId → Nat
  | draft :: drafts, prediction :: predictions =>
    if !v.isStopToken draft eos && prediction == draft then countAccepted v eos drafts predictions + 1
    else 0
  | _, _ => 0

/-- The replay of the accepted inputs. -/
def replayInputs (v : Verifier m D Γ F G Hidden) :
    List TokenId → Nat → Executor → m (List Hidden × Executor)
  | [], _, e => pure ([], e)
  | token :: rest, position, e => do
    let e ← e.forwardToken token position
    let (states, last) ← replayInputs v rest (position + 1) e
    return (v.target.hidden e.tokens :: states, last)

/-- The part of `VerifySequentialStep` without drafts. -/
def sequentialTargetOnly (r : StepRequest m D Γ F G Hidden) (v : Verifier m D Γ F G Hidden) :
    m (Finished m D Γ F G Hidden) := do
  let (next, v) ← v.advanceCommittedToken r.currentToken r.position
  let logprobs ← logprobsOf r.sampler.config.logprobs (some v.lastLogits) next
  return {
    result :=
      { emittedTokens := [next]
        nextToken := next
        nextTokenLogits := if v.options.retainFrontierLogits then some v.lastLogits else none
        hitEos := v.isStopToken next r.eos
        logprobs }
    verifier := v.count 0 0 1
    sampler := r.sampler }

/-- `VerifySequentialStep` -/
def verifySequentialStep (r : StepRequest m D Γ F G Hidden) : m (Finished m D Γ F G Hidden) := do
  if r.maxEmittedTokens = 0 then
    throw "speculative verification must emit at least one token"
  let v := r.verifier
  let maxDraft := if 1 < r.maxEmittedTokens then min v.currentDraftLength (r.maxEmittedTokens - 1) else 0
  match v.drafter, maxDraft with
  | some b, _ + 1 => do
    let (proposal, draft) ← b.propose v.draft r.sequence r.position maxDraft
    let v := { v with draft }
    if proposal.tokens.isEmpty then sequentialTargetOnly r v
    else do
      let drafted := proposal.tokens.length
      let saved := v.executor.saveState
      let (predictions, tentative, entries, executor) ← forwardDrafts v r.eos
        r.sampler.config.logprobs r.currentToken proposal.tokens r.position saved
      let accepted := countAccepted v r.eos proposal.tokens predictions
      let inputs := (r.currentToken :: proposal.tokens).take (accepted + 1)
      let (committed, executor) ←
        if accepted = drafted then do
          let executor ← executor.forwardToken (inputs.getLastD r.currentToken)
            (r.position + drafted)
          pure (tentative ++ [v.target.hidden executor.tokens], executor)
        else replayInputs v inputs r.position executor.restoreState
      let correction := v.target.predict executor.tokens
      let v := { v with executor }
      let v := if v.requiresHidden then v.updateTargetHidden committed else v
      let last ← logprobsOf r.sampler.config.logprobs (some v.lastLogits) correction
      let emitted := proposal.tokens.take accepted ++ [correction]
      return {
        result :=
          { emittedTokens := emitted
            acceptedCount := accepted
            draftCount := drafted
            nextToken := correction
            nextTokenLogits := if v.options.retainFrontierLogits then some v.lastLogits else none
            hitEos := emitted.any (v.isStopToken · r.eos)
            lookupTokens := if proposal.fromLookup then drafted else 0
            lookupAcceptedTokens := if proposal.fromLookup then accepted else 0
            logprobs := entries.take accepted ++ last }
        verifier := ((v.count drafted accepted emitted.length).updateAdaptiveDraftLength
          accepted drafted).feedback (proposal.tokens.take accepted) correction
        sampler := r.sampler }
  | _, _ => sequentialTargetOnly r v

/-! ## One step -/

/-- `VerifyStep` -/
def verifyStep (r : StepRequest m D Γ F G Hidden) : m (Finished m D Γ F G Hidden) := do
  MonadExcept.ofExcept r.sampler.config.validate
  if !r.verifier.options.useBatchedVerification && r.sampler.config.canUseUnmodifiedArgmax then
    verifySequentialStep r
  else
    match ← prepareStep r with
    | .inr finished => return finished
    | .inl (p, v) =>
      let (chunk, executor) ← v.executor.forwardVerificationChunk v.target p.captureHidden
        p.captureLogits p.inputs p.position
      match ← processVerificationChunk p chunk { v with executor } r.sampler with
      | .inr finished => return finished
      | .inl _ => throw "complete verification still requires target rows"

end
end

end Gufo.Speculative
