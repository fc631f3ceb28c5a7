import Gufo.Speculative.Verifier

/-!
# Verification of several requests

`SpeculativeVerifier::VerifyBatch` with the default `ProposeBatch` and
`ForwardVerificationBatch`. Every request has a verifier and a sampler of its own;
what it becomes is a `Slot`.
-/

namespace Gufo.Speculative

section
variable {m : Type → Type} [Monad m] [MonadExcept String m]
variable {D Γ F G Hidden : Type} [LinearOrder F] [Zero F] [One F] [Add F] [Sub F] [Mul F] [Div F]
  [NatCast F] [Floating F] [Uniform m G F]

/-- A request after the first loop: done, ready for its rows, or waiting for its proposal. -/
inductive Opened (m : Type → Type) (D Γ F G Hidden : Type) where
  | finished (f : Finished m D Γ F G Hidden)
  | ready (p : PreparedStep Γ F G)
  | drafting (b : Drafter m D Γ F G Hidden) (p : PreparedStep Γ F G)
  | proposed (p : PreparedStep Γ F G) (v : Verifier m D Γ F G Hidden)

inductive Slot (m : Type → Type) (D Γ F G Hidden : Type) where
  | finished (f : Finished m D Γ F G Hidden)
  | running (p : PreparedStep Γ F G) (v : Verifier m D Γ F G Hidden) (sampler : SamplerState Γ F G)

/-- A slot whose rows came back from the target. -/
inductive Answered (m : Type → Type) (D Γ F G Hidden : Type) where
  | finished (f : Finished m D Γ F G Hidden)
  | rows (p : PreparedStep Γ F G) (chunk : VerificationChunk F Hidden)
      (v : Verifier m D Γ F G Hidden) (sampler : SamplerState Γ F G)

/-- The first loop: a sequential step, or `PrepareStep` with both deferrals. -/
def openRequest (r : StepRequest m D Γ F G Hidden) : m (Opened m D Γ F G Hidden) := do
  if !r.verifier.options.useBatchedVerification && r.sampler.config.canUseUnmodifiedArgmax then
    return .finished (← verifySequentialStep r)
  else
    let p ← startStep r
    match r.verifier.drafter, p.maxDraftTokens with
    | some b, _ + 1 => return .drafting b p
    | _, _ =>
      match ← prepareTargetOnlyStep p r r.verifier true with
      | .inl p => return .ready p
      | .inr f => return .finished f

/-- `ProposeBatch` for one request. -/
def proposeOpened (r : StepRequest m D Γ F G Hidden) :
    Opened m D Γ F G Hidden → m (Opened m D Γ F G Hidden)
  | .drafting b p => do
    let (p, v) ← proposeForRequest b p r r.verifier
    return .proposed p v
  | opened => pure opened

/-- The check of a proposal, and the slot a request starts with. -/
def prepareOpened (r : StepRequest m D Γ F G Hidden) :
    Opened m D Γ F G Hidden → m (Slot m D Γ F G Hidden)
  | .finished f => pure (.finished f)
  | .ready p | .drafting _ p => pure (.running p r.verifier r.sampler)
  | .proposed p v => do
    match ← prepareProposalVerification p r v true with
    | .inl (p, v) => return .running p v r.sampler
    | .inr f => return .finished f

/-- `AcceptanceRate() < 0.5F` -/
def lowAcceptance (s : SpeculativeStats) : Bool :=
  decide (0 < s.totalDraftTokens) &&
    decide ((s.totalAcceptedTokens : F) / (s.totalDraftTokens : F) < 1 / ((2 : Nat) : F))

/-- Requests whose drafts are seldom accepted verify two rows at a time. -/
def limitChunk : Slot m D Γ F G Hidden → Slot m D Γ F G Hidden
  | .finished f => .finished f
  | .running p v s =>
    .running { p with
      chunkLimit := if lowAcceptance (F := F) v.stats then some 2 else p.chunkLimit } v s

def Slot.isRunning : Slot m D Γ F G Hidden → Bool
  | .finished _ => false
  | .running .. => true

/-- The rows of one slot; a small group takes everything that is left. -/
def forwardSlot (few : Bool) : Slot m D Γ F G Hidden → m (Answered m D Γ F G Hidden)
  | .finished f => pure (.finished f)
  | .running p v s => do
    let p := { p with chunkLimit := if few then none else p.chunkLimit }
    let (chunk, executor) ← v.executor.forwardVerificationChunk v.target p.captureHidden
      p.captureLogits ((p.inputs.drop p.verifiedRows).take p.chunkRows) (p.position + p.verifiedRows)
    return .rows p chunk { v with executor } s

def processSlot : Answered m D Γ F G Hidden → m (Slot m D Γ F G Hidden)
  | .finished f => pure (.finished f)
  | .rows p chunk v s => do
    let p := { p with physicalWidth := max p.physicalWidth 1 }
    match ← processVerificationChunk p chunk v s with
    | .inl (p, v) => return .running p v s
    | .inr f => return .finished { f with result.physicalWidth := p.physicalWidth }

def finishedSlots : List (Slot m D Γ F G Hidden) → Option (List (Finished m D Γ F G Hidden))
  | [] => some []
  | .finished f :: rest => (finishedSlots rest).map (f :: ·)
  | .running .. :: _ => none

def rowsLeft : Slot m D Γ F G Hidden → Nat
  | .finished _ => 0
  | .running p _ _ => p.inputs.length - p.verifiedRows

/-- The loop over the target passes. Every pass verifies a row of each running slot, so the rows
left bound their number. -/
def verifySlots : Nat → List (Slot m D Γ F G Hidden) → m (List (Finished m D Γ F G Hidden))
  | fuel, slots =>
    match finishedSlots slots, fuel with
    | some finished, _ => pure finished
    | none, 0 => throw "verification still requires target rows"
    | none, fuel + 1 => do
      let few := decide (slots.countP Slot.isRunning < 4)
      let answered ← slots.mapM (forwardSlot few)
      let slots ← answered.mapM processSlot
      verifySlots fuel slots

/-- `VerifyBatch` -/
def verifyBatch (requests : List (StepRequest m D Γ F G Hidden)) :
    m (List (Finished m D Γ F G Hidden)) :=
  match requests with
  | [r] => do return [← verifyStep r]
  | _ => do
    requests.forM fun r => MonadExcept.ofExcept r.sampler.config.validate
    let opened ← requests.mapM fun r => do return (r, ← openRequest r)
    let proposed ← opened.mapM fun (r, o) => do return (r, ← proposeOpened r o)
    let slots ← proposed.mapM fun (r, o) => prepareOpened r o
    verifySlots (slots.map rowsLeft).sum (slots.map limitChunk)

end

end Gufo.Speculative
