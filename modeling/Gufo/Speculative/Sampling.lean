import Mathlib

/-!
# Token sampling

`SamplerState` and `SamplingDistribution` (`src/core/sampling.cpp`).

* `F` is the number type. Its order is that of the finite values; a logit says by its
  constructor whether it is one.
* `Γ` is a grammar state, `G` the generator's state.
* A function that only fails is an `Except`; one that draws is in any monad that
  can draw.
-/

namespace Gufo.Speculative

abbrev TokenId := Nat

/-- What `<cmath>` adds to the operators. -/
class Floating (F : Type) where
  finite : F → Bool
  exp : F → F
  log : F → F

/-- `gufo::sampling::Uniform`: a number in `[0, 1)` and the next generator state. -/
class Uniform (m : Type → Type) (G F : Type) where
  uniform : G → m (F × G)

/-- A grammar with its vocabulary, and the mask `TokenConstraint::Allowed` reads off them. -/
structure TokenConstraint (Γ : Type) where
  start : Γ
  size : Nat
  allows : Γ → TokenId → Bool
  accept : Γ → TokenId → Except String Γ
  stopOnlyWhenComplete : Bool

def TokenConstraint.allowed {Γ : Type} (c : TokenConstraint Γ) (g : Γ) : List Bool :=
  (List.range c.size).map (c.allows g)

structure ReasoningBudget where
  tokens : Nat
  forced : List TokenId
  ends : List TokenId
  prompt : List TokenId
  partialUtf8 : Option (List Bool)

structure SamplingConfig (Γ F : Type) where
  logprobs : Option Nat
  temperature : F
  topK : Int
  topP : F
  minP : F
  minKeep : Nat
  seed : Int
  repeatPenalty : F
  repeatLastN : Nat
  frequencyPenalty : F
  presencePenalty : F
  constraint : Option (TokenConstraint Γ)
  reasoningBudget : Option ReasoningBudget

structure TokenPenalty where
  token : TokenId
  generatedCount : Nat := 0
  repeated : Bool := false

inductive ReasoningPhase where
  | off
  | counting
  | waitingUtf8
  | forcing
  deriving DecidableEq

structure SamplerState (Γ F G : Type) where
  config : SamplingConfig Γ F
  constraintState : Γ
  history : List TokenId
  penaltyCounts : List TokenPenalty
  rng : G
  pending : Option TokenId := none
  phase : ReasoningPhase := .off
  remaining : Nat := 0
  forced : Nat := 0

/-- A logit; the other values are NaN and positive infinity. -/
inductive Logit (F : Type) where
  | finite (value : F)
  | negativeInfinity
  | other

def Logit.value? {F : Type} : Logit F → Option F
  | .finite value => some value
  | _ => none

abbrev Row (F : Type) := List (Logit F)
abbrev Entries (F : Type) := List (TokenId × F)

def maxTokenId : Nat := 2 ^ 32 - 1

section
variable {Γ F G : Type} [LinearOrder F] [Zero F] [One F] [Add F] [Sub F] [Mul F] [Div F]
  [NatCast F] [Floating F]

def SamplingConfig.penaltiesEnabled (c : SamplingConfig Γ F) : Bool :=
  c.repeatPenalty != 1 || c.frequencyPenalty != 0 || c.presencePenalty != 0

def SamplingConfig.usesRandomSampling (c : SamplingConfig Γ F) : Bool :=
  decide (0 < c.temperature) && (c.topK != 1 || decide (1 < c.minKeep))

def SamplingConfig.canUseUnmodifiedArgmax (c : SamplingConfig Γ F) : Bool :=
  c.constraint.isNone && c.reasoningBudget.isNone && c.temperature == 0 && !c.penaltiesEnabled

def reject (refused : Bool) (e : String) : Except String Unit :=
  if refused then throw e else pure ()

/-- `SamplingConfig::Validate` -/
def SamplingConfig.validate (c : SamplingConfig Γ F) : Except String Unit := do
  reject (c.logprobs.any fun n => decide (20 < n)) "logprobs must be between 0 and 20"
  reject (c.constraint.any fun k => k.size == 0) "sampling constraint is incomplete"
  reject (c.reasoningBudget.any fun b => b.forced.isEmpty) "reasoning budget has no forced end"
  reject (!Floating.finite c.temperature || decide (c.temperature < 0))
    "sampling temperature must be finite and nonnegative"
  reject (decide (c.topK < 0)) "sampling top-k must be nonnegative"
  reject (!Floating.finite c.topP || decide (c.topP < 0) || decide (1 < c.topP))
    "sampling top-p must be in [0, 1]"
  reject (!Floating.finite c.minP || decide (c.minP < 0) || decide (1 < c.minP))
    "sampling min-p must be in [0, 1]"
  reject (decide (c.seed < -1)) "sampling seed must be -1 or nonnegative"
  reject (!Floating.finite c.repeatPenalty || decide (c.repeatPenalty ≤ 0))
    "sampling repeat penalty must be finite and positive"
  reject (!Floating.finite c.frequencyPenalty) "sampling frequency penalty must be finite"
  reject (!Floating.finite c.presencePenalty) "sampling presence penalty must be finite"

/-! ## Reading a row -/

/-- `Penalize` -/
def penalize (c : SamplingConfig Γ F) (p : TokenPenalty) (logit : F) : F :=
  let scaled :=
    if p.repeated && c.repeatPenalty != 1 then
      if logit ≤ 0 then logit * c.repeatPenalty else logit / c.repeatPenalty
    else logit
  let counted := scaled - c.frequencyPenalty * (p.generatedCount : F)
  if p.generatedCount ≠ 0 then counted - c.presencePenalty else counted

/-- A finite logit after its token's penalty. -/
def adjustedLogit (c : SamplingConfig Γ F) (penalties : List TokenPenalty) (token : TokenId)
    (logit : F) : Except String F :=
  match penalties.find? (·.token == token) with
  | none => pure logit
  | some p =>
    if Floating.finite (penalize c p logit) then pure (penalize c p logit)
    else throw "sampling penalties produced a non-finite logit"

/-- The finite logits of a row under their penalties, by token. -/
def adjustedRow (c : SamplingConfig Γ F) (penalties : List TokenPenalty) :
    Nat → Row F → Except String (Entries F)
  | _, [] => pure []
  | token, logit :: row =>
    match logit.value? with
    | none => adjustedRow c penalties (token + 1) row
    | some logit => do
      let value ← adjustedLogit c penalties token logit
      return (token, value) :: (← adjustedRow c penalties (token + 1) row)

/-- An equal later value does not replace an earlier token. -/
def larger (best : Option (TokenId × F)) (candidate : TokenId × F) : Option (TokenId × F) :=
  match best with
  | none => some candidate
  | some b => if b.2 < candidate.2 then some candidate else some b

/-- The first largest adjusted logit of an allowed token. -/
def greedy (c : SamplingConfig Γ F) (penalties : List TokenPenalty) (allowed : TokenId → Bool) :
    Nat → Row F → Option (TokenId × F) → Except String (Option (TokenId × F))
  | _, [], best => pure best
  | token, logit :: row, best =>
    match allowed token, logit.value? with
    | true, some logit => do
      let value ← adjustedLogit c penalties token logit
      greedy c penalties allowed (token + 1) row (larger best (token, value))
    | _, _ => greedy c penalties allowed (token + 1) row best

def found (best : Option (TokenId × F)) : Except String TokenId :=
  match best with
  | some b => pure b.1
  | none => throw "logit distribution contains no finite values"

/-! ## Log probabilities -/

structure TokenLogprobs (F : Type) where
  selected : TokenId × Option F
  top : List (TokenId × Option F)

/-- The order of the top entries: the larger logit first, then the smaller token. -/
def logitBefore (row : Row F) (a b : TokenId) : Bool :=
  match row[a]?.bind Logit.value?, row[b]?.bind Logit.value? with
  | some x, some y => if x = y then decide (a < b) else decide (y < x)
  | some _, none => true
  | none, some _ => false
  | none, none => decide (a < b)

/-- `CollectLogprobs`; `none` is negative infinity. -/
def collectLogprobs (row : Row F) (selected : TokenId) (count : Nat) :
    Except String (TokenLogprobs F) := do
  reject (decide (20 < count) || decide (row.length ≤ selected)) "invalid logprob selection"
  reject (row.any fun | .other => true | _ => false) "non-finite target logits"
  match row.filterMap Logit.value? with
  | [] => throw "target logits contain no finite values"
  | first :: rest =>
    let maximum := rest.foldl max first
    let sum := row.foldl (fun sum logit =>
      sum + (logit.value?.map fun v => Floating.exp (v - maximum)).getD 0) 0
    let entry (token : TokenId) : TokenId × Option F :=
      (token, (row[token]?.bind Logit.value?).map fun v => v - maximum - Floating.log sum)
    return {
      selected := entry selected
      top := (((List.range row.length).mergeSort (logitBefore row)).take count).map entry }

/-! ## Distributions -/

/-- `IsBetterProbability` -/
def better (a b : TokenId × F) : Bool :=
  if a.2 = b.2 then decide (a.1 < b.1) else decide (b.2 < a.2)

def sumValues (entries : Entries F) : F := (entries.map (·.2)).foldl (· + ·) 0

/-- `SamplingDistribution(entries, total)` -/
def normalize (entries : Entries F) (total : F) : Except String (Entries F) :=
  if 0 < total ∧ Floating.finite total then
    pure ((entries.map fun e => (e.1, e.2 / total)).filter (·.2 != 0))
  else throw "logit softmax normalization failed"

/-- `SamplingDistribution::probability` -/
def probability (entries : Entries F) (token : TokenId) : F :=
  ((entries.find? (·.1 == token)).map (·.2)).getD 0

/-- `SamplingDistribution::best_token` -/
def bestToken : Entries F → Except String TokenId
  | [] => throw "sampling distribution is empty"
  | e :: rest => pure (rest.foldl (fun best e => if better e best then e else best) e).1

def largest (entries : Entries F) : Except String F :=
  match entries with
  | [] => throw "logit distribution contains no finite values"
  | e :: rest => pure (rest.foldl (fun best e => max best e.2) e.2)

/-- `std::exp((value - maximum) / temperature)` -/
def weight (c : SamplingConfig Γ F) (maximum value : F) : F :=
  Floating.exp ((value - maximum) / c.temperature)

/-- `LinearDistribution` -/
def linearDistribution (c : SamplingConfig Γ F) (penalties : List TokenPenalty) (row : Row F) :
    Except String (Entries F) := do
  let candidates ← adjustedRow c penalties 0 row
  let maximum ← largest candidates
  let kept (value : F) : Bool :=
    if 0 < c.minP then decide (maximum + c.temperature * Floating.log c.minP ≤ value) else true
  let weighed := candidates.map fun e => (e.1, if kept e.2 then weight c maximum e.2 else 0)
  normalize weighed (sumValues weighed)

/-- `MinimumKept` -/
def minimumKept (c : SamplingConfig Γ F) (size : Nat) : Nat := min size (max c.minKeep 1)

/-- The loop of top-p: how many of the candidates reach the target mass. -/
def topPKeep (target : F) (minimum : Nat) : List F → Nat → F → Nat
  | [], kept, _ => kept
  | w :: rest, kept, cumulative =>
    if minimum ≤ kept + 1 ∧ target ≤ cumulative + w then kept + 1
    else topPKeep target minimum rest (kept + 1) (cumulative + w)

/-- `FilterSelected`; the candidates stand best first. -/
def filterSelected (c : SamplingConfig Γ F) (fullSoftmaxSum : Option F) :
    Entries F → Entries F
  | [] => []
  | best :: rest =>
    let candidates := best :: rest
    let minimum := minimumKept c candidates.length
    let weights := candidates.map fun e => weight c best.2 e.2
    let topP :=
      if c.topP < 1 ∧ 1 < candidates.length then
        topPKeep (c.topP * fullSoftmaxSum.getD (weights.foldl (· + ·) 0)) minimum weights 0 0
      else candidates.length
    let keep :=
      if 0 < c.minP ∧ 1 < topP then
        let threshold := best.2 + c.temperature * Floating.log c.minP
        min topP (max ((candidates.take topP).takeWhile fun e => decide (threshold ≤ e.2)).length
          minimum)
      else topP
    candidates.take keep

/-- `PrepareSelected` -/
def prepareSelected (c : SamplingConfig Γ F) (penalties : List TokenPenalty) (row : Row F) :
    Except String (Entries F) := do
  let candidates ← adjustedRow c penalties 0 row
  let maximum ← largest candidates
  let sorted := candidates.mergeSort fun a b => !better b a
  if 0 < c.topK then
    return filterSelected c none
      (sorted.take (min row.length (max c.topK.toNat (max c.minKeep 1))))
  else if c.topP < 1 ∧ 1024 < row.length then
    let full : F := (candidates.map fun e => weight c maximum e.2).foldl (· + ·) 0
    reject (!(decide (0 < full) && Floating.finite full)) "logit softmax normalization failed"
    let first := sorted.take (min row.length (max 256 (max c.minKeep 1)))
    let mass : F := (first.map fun e => weight c maximum e.2).foldl (· + ·) 0
    return filterSelected c (some full) (if mass < c.topP * full then sorted else first)
  else return filterSelected c none sorted

/-- `SelectedDistribution`; the candidates stand best first. -/
def selectedDistribution (c : SamplingConfig Γ F) : Entries F → Except String (Entries F)
  | [] => throw "logit softmax normalization failed"
  | best :: rest =>
    let weighed := (best :: rest).map fun e => (e.1, weight c best.2 e.2)
    normalize weighed (sumValues weighed)

/-! ## Drawing from a distribution -/

section
variable {m : Type → Type} [Monad m] [MonadExcept String m] [Uniform m G F]

/-- The loop of `SamplingDistribution::Sample`. -/
def pick : Entries F → F → TokenId
  | [], _ => 0
  | [e], _ => e.1
  | e :: rest, sample => if sample - e.2 < 0 then e.1 else pick rest (sample - e.2)

/-- `SamplingDistribution::Sample` -/
def sampleEntries : Entries F → G → m (TokenId × G)
  | [], _ => throw "sampling distribution is empty"
  | [e], rng => pure (e.1, rng)
  | entries, rng => do
    let (sample, rng) ← Uniform.uniform rng
    return (pick entries sample, rng)

/-- The probability a sparse row gives a token. -/
def sparseProbability (sparse : Entries F) (token : TokenId) : F :=
  sumValues (sparse.filter (·.1 == token))

/-- What the distribution has above the sparse row. -/
def residual (entries sparse : Entries F) : Entries F :=
  (entries.map fun e => (e.1, max (e.2 - sparseProbability sparse e.1) 0)).filter
    fun e => decide (0 < e.2)

/-- `SamplingDistribution::SampleResidual` -/
def sampleResidual (entries sparse : Entries F) (rng : G) : m (TokenId × G) := do
  if sparse.any fun e => !Floating.finite e.2 || decide (e.2 < 0) then
    throw "sparse probability row contains an invalid value"
  let sum := sumValues (residual entries sparse)
  if 0 < sum ∧ Floating.finite sum then
    let rest ← MonadExcept.ofExcept (normalize (residual entries sparse) sum)
    sampleEntries rest rng
  else sampleEntries entries rng

end

/-! ## The sampler's state -/

namespace SamplerState

/-- `ForcedToken` -/
def forcedToken (s : SamplerState Γ F G) : Option TokenId :=
  if s.phase = .forcing then s.config.reasoningBudget.bind fun b => b.forced[s.forced]? else none

/-- `AdvanceReasoning` -/
def advanceReasoning (b : ReasoningBudget) (s : SamplerState Γ F G) (token : TokenId) :
    SamplerState Γ F G :=
  match s.phase with
  | .off => s
  | .forcing =>
    { s with forced := s.forced + 1
             phase := if b.forced.length ≤ s.forced + 1 then .off else .forcing }
  | .counting | .waitingUtf8 =>
    if token ∈ b.ends then { s with phase := .off }
    else
      let remaining := if s.phase = .counting then s.remaining - 1 else s.remaining
      if s.phase = .counting ∧ remaining ≠ 0 then { s with remaining }
      else if (b.partialUtf8.bind (·[token]?)).getD false then
        { s with remaining, phase := .waitingUtf8 }
      else { s with remaining, phase := .forcing, forced := 0 }

/-- `StartReasoning` -/
def startReasoning (s : SamplerState Γ F G) : SamplerState Γ F G :=
  match s.config.reasoningBudget with
  | none => { s with phase := .off }
  | some b =>
    b.prompt.foldl (advanceReasoning b)
      { s with remaining := b.tokens, forced := 0
               phase := if b.tokens = 0 then .forcing else .counting }

/-- `TrimHistory` -/
def trimHistory (s : SamplerState Γ F G) : SamplerState Γ F G :=
  { s with history := s.history.drop (s.history.length - s.config.repeatLastN) }

/-- A change to one token's entry in the counts, which are sorted by token. -/
def updatePenalty (f : TokenPenalty → TokenPenalty) (token : TokenId) :
    List TokenPenalty → List TokenPenalty
  | [] => [f { token }]
  | p :: rest =>
    if p.token < token then p :: updatePenalty f token rest
    else if p.token = token then f p :: rest
    else f { token } :: p :: rest

/-- `RebuildPenaltyCounts` -/
def rebuildPenaltyCounts (s : SamplerState Γ F G) : SamplerState Γ F G :=
  if s.config.penaltiesEnabled then
    let cleared := s.penaltyCounts.map ({ · with repeated := false })
    let counted :=
      if s.config.repeatPenalty ≠ 1 then
        s.history.foldl (fun counts token => updatePenalty ({ · with repeated := true }) token counts)
          cleared
      else cleared
    { s with penaltyCounts := counted.filter fun p => p.generatedCount != 0 || p.repeated }
  else s

/-- The constructor. -/
def create [Inhabited Γ] (config : SamplingConfig Γ F) (initialHistory : List TokenId) (rng : G) :
    Except String (SamplerState Γ F G) := do
  config.validate
  let s : SamplerState Γ F G :=
    { config, constraintState := (config.constraint.map (·.start)).getD default
      history := initialHistory, penaltyCounts := [], rng }
  return s.startReasoning.trimHistory.rebuildPenaltyCounts

/-- `SetRngState` -/
def setRngState (s : SamplerState Γ F G) (rng : G) : SamplerState Γ F G :=
  { s with rng, pending := none }

/-- `CanSelectArgmax` for an argmax without penalties. -/
def canSelectArgmax (s : SamplerState Γ F G) (token : TokenId) : Except String Bool :=
  match s.forcedToken with
  | some forced => pure (s.pending.isNone && token == forced)
  | none =>
    if s.pending.isSome || s.config.temperature != 0 || s.config.penaltiesEnabled then pure false
    else
      match s.config.constraint with
      | none => pure true
      | some c =>
        if c.size ≤ token then throw "target argmax exceeds the constraint vocabulary"
        else pure (!c.stopOnlyWhenComplete && c.allows s.constraintState token)

/-- The generated count of a token, one higher. -/
def countGenerated (counts : List TokenPenalty) (token : TokenId) :
    Except String (List TokenPenalty) :=
  if counts.any fun p => p.token == token && p.generatedCount == 2 ^ 32 - 1 then
    throw "generated token count overflow"
  else pure (updatePenalty (fun p => { p with generatedCount := p.generatedCount + 1 }) token counts)

/-- `Accept` -/
def accept (s : SamplerState Γ F G) (token : TokenId) : Except String (SamplerState Γ F G) := do
  let reasoned := match s.config.reasoningBudget with
    | some b => advanceReasoning b s token
    | none => s
  let constraintState ← match s.config.constraint with
    | some c => c.accept s.constraintState token
    | none => pure s.constraintState
  let penaltyCounts ←
    if s.config.frequencyPenalty ≠ 0 ∨ s.config.presencePenalty ≠ 0 then
      countGenerated s.penaltyCounts token
    else pure s.penaltyCounts
  let history := if s.config.repeatLastN ≠ 0 then s.history ++ [token] else s.history
  return ({ reasoned with constraintState, penaltyCounts, history }).trimHistory.rebuildPenaltyCounts

/-- `SampleGreedy` -/
def sampleGreedy (s : SamplerState Γ F G) (row : Row F) : Except String TokenId := do
  found (← greedy s.config s.penaltyCounts (fun _ => true) 0 row none)

/-- `SampleConstrainedGreedy` -/
def sampleConstrainedGreedy (s : SamplerState Γ F G) (c : TokenConstraint Γ) (row : Row F) :
    Except String TokenId := do
  let mask := c.allowed s.constraintState
  reject (row.length != mask.length) "JSON constraint vocabulary differs from logits"
  found (← greedy s.config s.penaltyCounts (fun t => mask[t]?.getD false) 0 row none)

/-- `ConstrainedLogits` -/
def constrainedLogits (s : SamplerState Γ F G) (c : TokenConstraint Γ) (row : Row F) :
    Except String (Row F) := do
  let mask := c.allowed s.constraintState
  reject (row.length != mask.length) "JSON constraint vocabulary differs from logits"
  return row.zipWith (fun logit allowed => if allowed then logit else .negativeInfinity) mask

/-- `Distribution` where no grammar restricts the row. -/
def unconstrained (s : SamplerState Γ F G) (row : Row F) : Except String (Entries F) := do
  s.config.validate
  reject (row.isEmpty || decide (maxTokenId < row.length)) "invalid sampling vocabulary size"
  if s.config.temperature = 0 then return [(← s.sampleGreedy row, 1)]
  else if s.config.topK = 0 ∧ s.config.topP = 1 ∧ ¬(0 < s.config.minP ∧ 1 < s.config.minKeep) then
    linearDistribution s.config s.penaltyCounts row
  else selectedDistribution s.config (← prepareSelected s.config s.penaltyCounts row)

/-- `Distribution` -/
def distribution (s : SamplerState Γ F G) (row : Row F) : Except String (Entries F) :=
  match s.forcedToken with
  | some forced =>
    if row.length ≤ forced then throw "forced token exceeds vocabulary" else pure [(forced, 1)]
  | none =>
    match s.config.constraint with
    | none => s.unconstrained row
    | some c =>
      if (c.allowed s.constraintState).all (· == true) then s.unconstrained row
      else if s.config.temperature = 0 then do
        s.config.validate
        return [(← s.sampleConstrainedGreedy c row, 1)]
      else do s.unconstrained (← s.constrainedLogits c row)

section
variable {m : Type → Type} [Monad m] [MonadExcept String m] [Uniform m G F]

def sampleDistribution (s : SamplerState Γ F G) (row : Row F) : m (TokenId × SamplerState Γ F G) :=
  do
  let entries ← MonadExcept.ofExcept (s.distribution row)
  let (token, rng) ← sampleEntries entries s.rng
  return (token, { s with rng })

/-- `Sample` -/
def sample (s : SamplerState Γ F G) (row : Row F) : m (TokenId × SamplerState Γ F G) := do
  MonadExcept.ofExcept s.config.validate
  MonadExcept.ofExcept (reject row.isEmpty "cannot sample an empty logit distribution")
  MonadExcept.ofExcept
    (reject (decide (maxTokenId < row.length)) "logit distribution exceeds token ID range")
  match s.forcedToken, s.pending with
  | some forced, _ =>
    MonadExcept.ofExcept (reject (decide (row.length ≤ forced)) "forced token exceeds vocabulary")
    return (forced, { s with pending := none })
  | none, some token =>
    MonadExcept.ofExcept (reject (decide (row.length ≤ token)) "pending sample exceeds vocabulary")
    MonadExcept.ofExcept (reject
      (s.config.constraint.any fun c => !(c.allowed s.constraintState)[token]?.getD false)
      "pending sample violates JSON constraint")
    return (token, { s with pending := none })
  | none, none =>
    if s.config.temperature ≠ 0 then s.sampleDistribution row
    else if s.config.constraint.isSome then
      let entries ← MonadExcept.ofExcept (s.distribution row)
      return (← MonadExcept.ofExcept (bestToken entries), s)
    else return (← MonadExcept.ofExcept (s.sampleGreedy row), s)

/-- `Uniform` -/
def draw (s : SamplerState Γ F G) : m (F × SamplerState Γ F G) := do
  let (sample, rng) ← Uniform.uniform s.rng
  return (sample, { s with rng })

end

end SamplerState

/-- `Accept` on several tokens. -/
def acceptAll (s : SamplerState Γ F G) (tokens : List TokenId) : Except String (SamplerState Γ F G) :=
  tokens.foldlM (fun s token => s.accept token) s

end

end Gufo.Speculative
