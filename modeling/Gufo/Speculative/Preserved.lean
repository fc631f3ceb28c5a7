import Gufo.Lib.Emission
import Gufo.Speculative.Greedy
import Gufo.Speculative.Ideal

/-!
# Sampled speculation

A step in random-sampling mode, over the reals with ideal draws. `conditional r` is
the target's distribution given the tokens emitted so far.

* `verifyStep_law`: each draft is kept with probability `min 1 (p / q)`, a rejected
  one is replaced by the leftover, and a proposal kept whole is followed by a sample
  of the next row.
* `verifyStep_preserved`: whatever is emitted first, the next token emitted has the
  target's distribution.
-/

namespace Gufo.Speculative
open Gufo.Draws Gufo.Weighted Outcome
open scoped ENNReal

set_option linter.unusedSectionVars false

section
variable {D Γ Hidden : Type}

/-- The tokens committed where the next token is decided. -/
def StepRequest.rowAt (r : StepRequest Drawing D Γ ℝ Unit Hidden) (emitted : List TokenId) :
    List TokenId :=
  r.verifier.executor.tokens ++ r.currentToken :: emitted

def StepRequest.stops (r : StepRequest Drawing D Γ ℝ Unit Hidden) : TokenId → Bool :=
  r.verifier.target.stops r.eos

/-- The sampler's distribution given the accepted history. -/
noncomputable def conditional (r : StepRequest Drawing D Γ ℝ Unit Hidden) (emitted : List TokenId) :
    Entries ℝ :=
  match acceptAll r.sampler emitted with
  | .ok s =>
    match s.distribution (r.verifier.target.logits (r.rowAt emitted)) with
    | .ok entries => entries
    | .error _ => []
  | .error _ => []

/-- A request in random-sampling mode at its target's frontier. The target gives a distribution
for every history it can emit, and what it gives weight can be accepted and recorded. -/
structure Ready (r : StepRequest Drawing D Γ ℝ Unit Hidden) : Prop where
  valid : r.sampler.config.validate = .ok ⟨⟩
  random : r.sampler.config.usesRandomSampling = true
  settled : r.sampler.Settled
  some_ : r.maxEmittedTokens ≠ 0
  placed : r.position = r.verifier.executor.tokens.length
  size : ∀ tokens, (r.verifier.target.logits tokens).length ≤ maxTokenId
  returns : ∀ emitted s, Reached (conditional r) r.stops emitted →
    acceptAll r.sampler emitted = .ok s →
    ∃ p, s.distribution (r.verifier.target.logits (r.rowAt emitted)) = .ok p ∧
      ∀ token, 0 < weightOf p token → (∃ s', s.accept token = .ok s') ∧
        ∀ n, r.sampler.config.logprobs = some n →
          ∃ l, collectLogprobs (r.verifier.target.logits (r.rowAt emitted)) token n = .ok l

variable {r : StepRequest Drawing D Γ ℝ Unit Hidden} {emitted : List TokenId}
  {s s' : SamplerState Γ ℝ Unit}

/-! ## Histories -/

theorem acceptAll_append {token : TokenId} (h : acceptAll r.sampler emitted = .ok s)
    (accepted : s.accept token = .ok s') : acceptAll r.sampler (emitted ++ [token]) = .ok s' := by
  unfold acceptAll at h ⊢
  rw [List.foldlM_append, h]
  simpa [Outcome.ok_bind] using accepted

theorem acceptAll_kept {s : SamplerState Γ ℝ Unit} (h : acceptAll s emitted = .ok s') :
    s.Kept s' := by
  induction emitted generalizing s with
  | nil =>
    cases h
    exact .refl _
  | cons token rest ih =>
    simp only [acceptAll, List.foldlM_cons, bind_eq_ok] at h
    obtain ⟨next, accepted, tail⟩ := h
    exact (accept_kept accepted).trans (ih tail)

/-- The sampler of a history, and its distribution. -/
structure Standing (r : StepRequest Drawing D Γ ℝ Unit Hidden) (emitted : List TokenId)
    (s : SamplerState Γ ℝ Unit) : Prop where
  accepted : acceptAll r.sampler emitted = .ok s
  config : s.config = r.sampler.config
  settled : s.Settled
  law : s.distribution (r.verifier.target.logits (r.rowAt emitted)) = .ok (conditional r emitted)

theorem Ready.standing_of (ready : Ready r) (reached : Reached (conditional r) r.stops emitted)
    (accepted : acceptAll r.sampler emitted = .ok s) : Standing r emitted s := by
  obtain ⟨p, law, -⟩ := ready.returns emitted s reached accepted
  have same : conditional r emitted = p := by simp [conditional, accepted, law]
  have kept := acceptAll_kept accepted
  exact ⟨accepted, kept.config, kept.settled ready.settled, same ▸ law⟩

theorem Ready.standing (ready : Ready r) (reached : Reached (conditional r) r.stops emitted) :
    ∃ s, Standing r emitted s := by
  induction reached with
  | start => exact ⟨_, ready.standing_of .start rfl⟩
  | @next done token reached weighs open_ ih =>
    obtain ⟨s, standing⟩ := ih
    obtain ⟨p, law, each⟩ := ready.returns done s reached standing.accepted
    cases standing.law.symm.trans law
    obtain ⟨⟨s', accepted⟩, -⟩ := each token weighs
    exact ⟨s', ready.standing_of (reached.next weighs open_)
      (acceptAll_append standing.accepted accepted)⟩

theorem Ready.law (ready : Ready r) (reached : Reached (conditional r) r.stops emitted) :
    IsLaw (conditional r emitted) := by
  obtain ⟨s, standing⟩ := ready.standing reached
  exact distribution_isLaw standing.law

/-- The log probabilities of a token that has weight. -/
theorem Ready.logprobs (ready : Ready r) (reached : Reached (conditional r) r.stops emitted)
    {token : TokenId} (weighs : 0 < weightOf (conditional r emitted) token) :
    ∃ l, (logprobsOf r.sampler.config.logprobs
      (some (r.verifier.target.logits (r.rowAt emitted))) token : Drawing _) = pure l := by
  obtain ⟨s, standing⟩ := ready.standing reached
  obtain ⟨p, law, each⟩ := ready.returns emitted s reached standing.accepted
  cases standing.law.symm.trans law
  cases asked : r.sampler.config.logprobs with
  | none => exact ⟨[], rfl⟩
  | some n =>
    obtain ⟨l, collected⟩ := (each token weighs).2 n asked
    exact ⟨[l], by simp [logprobsOf, collected, ofExcept_ok]⟩

/-! ## A proposal -/

/-- A proposal that reports the rows its tokens are drawn from. -/
structure Reports (q : List TokenId → Entries ℝ) (limit position : Nat) (p : DraftProposal ℝ) :
    Prop where
  length : p.tokens.length ≤ limit
  start : p.startPos = position
  width : p.tokens ≠ [] → 0 < p.candidatesPerToken
  ids : p.candidateIds.length = p.tokens.length * p.candidatesPerToken
  probabilities : p.candidateProbabilities.length = p.candidateIds.length
  rows : ∀ i, i < p.tokens.length → p.row i = q (p.tokens.take i)
  drawn : ∀ done token rest, p.tokens = done ++ token :: rest → 0 < weightOf (q done) token

/-- A step whose proposal is about to be verified. -/
structure Verifying (r : StepRequest Drawing D Γ ℝ Unit Hidden) (q : List TokenId → Entries ℝ)
    (p : PreparedStep Γ ℝ Unit) : Prop where
  sampled : p.sampled = true
  random : p.randomSampling = true
  eos : p.eos = r.eos
  inputs : p.inputs = r.currentToken :: p.proposal.tokens
  rows : ∀ i, i < p.proposal.tokens.length → p.proposal.row i = q (p.proposal.tokens.take i)
  drawn : ∀ done token rest, p.proposal.tokens = done ++ token :: rest → 0 < weightOf (q done) token
  probabilities : ∀ done token rest, p.proposal.tokens = done ++ token :: rest →
    p.tokenProbabilities[done.length]? = some (weightOf (q done) token)
  shown : (p.captureLogits || r.verifier.target.retainsRows) = true
  verified : p.verifiedRows = 0

variable {q : List TokenId → Entries ℝ} {p : PreparedStep Γ ℝ Unit} {β : Type}
  {done rest : List TokenId}

theorem Verifying.frontier_eq (h : Verifying r q p)
    (parts : p.proposal.tokens = done ++ rest) :
    frontier r.verifier.executor.tokens p done.length = r.rowAt done := by
  rw [frontier, h.inputs, parts, List.take_succ_cons, List.take_left]
  rfl

theorem Verifying.shownLogits_eq (h : Verifying r q p) (tokens : List TokenId) :
    shownLogits r.verifier.target p tokens = some (r.verifier.target.logits tokens) :=
  if_pos h.shown

/-- The decision of one row. -/
theorem judge_eq (h : Verifying r q p) {draft : TokenId}
    (parts : p.proposal.tokens = done ++ draft :: rest) :
    (judge r.verifier.target p (r.rowAt done) done.length draft s : Drawing _) =
      verifySampledToken (r.verifier.target.logits (r.rowAt done)) draft (q done)
          (weightOf (q done) draft) s >>= fun o =>
        pure (o.1.1, o.1.2 && !r.stops draft, o.2) := by
  have inside : done.length < p.proposal.tokens.length := by simp [parts]
  have row : p.proposal.row done.length = q done := by
    rw [h.rows _ inside, parts, List.take_left]
  simp [judge, h.sampled, h.random, h.probabilities done draft rest parts, required, row, h.eos,
    StepRequest.stops]

/-- The drafts that are left: where each can end, `f` is what the rest of the step counts. -/
theorem expect_verifyDrafts (ready : Ready r) (laws : ∀ done, IsLaw (q done))
    (h : Verifying r q p) {done drafts : List TokenId} (parts : p.proposal.tokens = done ++ drafts)
    (reached : Reached (conditional r) r.stops done) (standing : Standing r done s)
    {k : Nat × TokenId × SamplerState Γ ℝ Unit → Drawing β} {g : β → ℝ≥0∞}
    {f : List TokenId → ℝ≥0∞}
    (stopped : ∀ done draft rest token s, p.proposal.tokens = done ++ draft :: rest →
      Reached (conditional r) r.stops done → 0 < weightOf (conditional r done) token →
      (k (done.length, token, s)).expect g = f (done ++ [token]))
    (whole : ∀ s, Reached (conditional r) r.stops p.proposal.tokens →
      Standing r p.proposal.tokens s →
      (k (p.proposal.tokens.length, 0, s)).expect g =
        mean (conditional r p.proposal.tokens) fun token => f (p.proposal.tokens ++ [token])) :
    (verifyDrafts r.verifier.target p r.verifier.executor.tokens drafts done.length s >>= k).expect
        g = emissionLaw (conditional r) q r.stops done drafts f := by
  induction drafts generalizing done s with
  | nil =>
    rw [List.append_nil] at parts
    subst parts
    rw [verifyDrafts, pure_bind, whole s reached standing, emissionLaw]
  | cons draft rest ih =>
    have next_parts : p.proposal.tokens = (done ++ [draft]) ++ rest := by simp [parts]
    have law := ready.law reached
    obtain ⟨p', given, each⟩ := ready.returns done s reached standing.accepted
    cases standing.law.symm.trans given
    rw [verifyDrafts, h.frontier_eq parts, judge_eq h parts, emissionLaw]
    simp only [bind_assoc, pure_bind, Drawing.expect_bind (verifySampledToken _ _ _ _ _)]
    obtain ⟨s', accepts⟩ : ∃ s', 0 < weightOf (conditional r done) draft → s.accept draft = .ok s' := by
      by_cases weighs : 0 < weightOf (conditional r done) draft
      · obtain ⟨⟨s', accepted⟩, -⟩ := each draft weighs
        exact ⟨s', fun _ => accepted⟩
      · exact ⟨s, fun weighs' => absurd weighs' weighs⟩
    rw [expect_verifySampledToken standing.law (laws done).toWeights (h.drawn done draft rest parts)
      accepts]
    congr 1
    · by_cases weighs : 0 < weightOf (conditional r done) draft
      · congr 1
        cases stops : r.stops draft with
        | true =>
          exact stopped done draft rest draft s' parts reached weighs
        | false =>
          have next := reached.next weighs stops
          have tail := ih next_parts next (ready.standing_of next
            (acceptAll_append standing.accepted (accepts weighs)))
          simpa using tail
      · have never : acceptance (conditional r done) (q done) draft = 0 := by
          rw [acceptance, le_antisymm (not_lt.mp weighs) (law.toWeights.weightOf_nonneg draft),
            zero_div, min_eq_right zero_le_one]
        rw [never, ENNReal.ofReal_zero, zero_mul, zero_mul]
    · congr 1
      refine law.toWeights.leftover_congr (laws done).toWeights fun token weighs => ?_
      exact stopped done draft rest token s parts reached weighs

/-! ## The rest of the step -/

theorem recordAccepted_eq (ready : Ready r) (h : Verifying r q p) {done rest more : List TokenId}
    (parts : p.proposal.tokens = done ++ rest ++ more)
    (reached : Reached (conditional r) r.stops (done ++ rest)) :
    ∃ l, (recordAccepted r.verifier.target p r.verifier.executor.tokens
      r.sampler.config.logprobs rest done.length : Drawing _) = pure l := by
  induction rest generalizing done with
  | nil => exact ⟨[], rfl⟩
  | cons token rest ih =>
    obtain ⟨before, weighs, -⟩ := reached.split rfl
    obtain ⟨first, recorded⟩ := ready.logprobs before weighs
    have later : p.proposal.tokens = done ++ [token] ++ rest ++ more := by simp [parts]
    obtain ⟨others, tail⟩ := ih later (by simpa using reached)
    rw [List.length_append, List.length_singleton] at tail
    refine ⟨first ++ others, ?_⟩
    rw [recordAccepted, h.frontier_eq (by rw [parts, List.append_assoc]), h.shownLogits_eq, recorded,
      pure_bind, tail, pure_bind]

variable {v : Verifier Drawing D Γ ℝ Unit Hidden} {base : List TokenId}

/-- The end of a step, whose log probabilities can all be read. -/
theorem conclude_eq (h : Verifying r q p)
    (target : v.target = r.verifier.target)
    (parts : p.proposal.tokens = done ++ rest) {rows : List (List TokenId)} {correction : TokenId}
    {logprobs : List (TokenLogprobs ℝ)}
    (at_base : base = r.verifier.executor.tokens) :
    (conclude p v base r.sampler rows done.length correction s logprobs : Drawing _) =
      bonus r.verifier.target p base done.length correction s >>= fun o => do
        let last ← logprobsOf r.sampler.config.logprobs
          (some (r.verifier.target.logits (r.rowAt done))) o.1
        return concluded p v base r.sampler rows done.length o.1 o.2 (logprobs ++ last) := by
  subst at_base
  rw [conclude, target, h.frontier_eq parts, h.shownLogits_eq]

theorem concluded_emitted
    (parts : p.proposal.tokens = done ++ rest) {rows : List (List TokenId)} {correction : TokenId}
    {logprobs : List (TokenLogprobs ℝ)} :
    (concluded p v base r.sampler rows done.length correction s logprobs).result.emittedTokens =
      done ++ [correction] := by
  show p.proposal.tokens.take done.length ++ [correction] = _
  rw [parts, List.take_left]

/-- A verified proposal emits what the emission law says. -/
theorem expect_settle (ready : Ready r) (laws : ∀ done, IsLaw (q done)) (h : Verifying r q p)
    (working : p.workingSampler = some r.sampler)
    (target : v.target = r.verifier.target) (f : List TokenId → ℝ≥0∞) :
    (settle p v r.verifier.executor.tokens r.sampler : Drawing _).expect
        (fun o => f o.result.emittedTokens) =
      emissionLaw (conditional r) q r.stops [] p.proposal.tokens f := by
  unfold settle
  rw [h.verified, List.drop_zero, working, target]
  refine expect_verifyDrafts ready laws h
    (show p.proposal.tokens = [] ++ p.proposal.tokens from rfl) .start
    (ready.standing_of .start rfl) ?_ ?_
  · intro done draft rest token s parts reached weighs
    have kept : p.proposal.tokens.take done.length = done := by rw [parts, List.take_left]
    obtain ⟨l, recorded⟩ := recordAccepted_eq ready h
      (show p.proposal.tokens = [] ++ done ++ draft :: rest from parts) reached
    obtain ⟨last, shown⟩ := ready.logprobs reached weighs
    have short : done.length ≠ p.proposal.tokens.length := by simp [parts]
    simp only [kept, List.drop_zero]
    rw [show (0 : Nat) = ([] : List TokenId).length from rfl, recorded, pure_bind,
      conclude_eq h target parts rfl, bonus, if_neg short, pure_bind, shown, pure_bind,
      Drawing.expect_pure, concluded_emitted parts]
  · intro s reached standing
    obtain ⟨l, recorded⟩ := recordAccepted_eq ready h
      (show p.proposal.tokens = [] ++ p.proposal.tokens ++ [] from (List.append_nil _).symm) reached
    simp only [List.take_length, List.drop_zero]
    have sample := expect_selectAt (standing.config ▸ ready.valid) (standing.config ▸ ready.random)
      standing.settled.pending (ready.size _) standing.law
    rw [show (0 : Nat) = ([] : List TokenId).length from rfl, recorded, pure_bind,
      conclude_eq h target (List.append_nil _).symm rfl, bonus, if_pos rfl, h.sampled, if_pos rfl,
      h.frontier_eq (List.append_nil _).symm, Drawing.expect_bind]
    simp only [Drawing.expect_bind, Drawing.expect_pure, concluded_emitted (List.append_nil _).symm]
    rw [sample fun token => (logprobsOf r.sampler.config.logprobs
      (some (r.verifier.target.logits (r.rowAt p.proposal.tokens))) token : Drawing _).expect
        fun _ => f (p.proposal.tokens ++ [token])]
    refine (ready.law reached).toWeights.mean_congr fun token weighs => ?_
    obtain ⟨last, shown⟩ := ready.logprobs reached weighs
    rw [shown, Drawing.expect_pure]

/-! ## The draft backend -/

/-- How many tokens a step asks its backend for. -/
def draftLimit (r : StepRequest Drawing D Γ ℝ Unit Hidden) : Nat :=
  if 1 < r.maxEmittedTokens ∧ r.verifier.drafter.any (·.supportsSampledProposals) then
    min r.verifier.currentDraftLength (r.maxEmittedTokens - 1)
  else 0

def sampledRequest (r : StepRequest Drawing D Γ ℝ Unit Hidden) : DraftProposalRequest Γ ℝ Unit where
  tokens := r.sequence
  position := r.position
  maxTokens := draftLimit r
  temperature := r.sampler.config.temperature
  sampler := r.sampler

/-- The backend takes in the committed token of a step without drafts. -/
def Hears (r : StepRequest Drawing D Γ ℝ Unit Hidden) (b : Drafter Drawing D Γ ℝ Unit Hidden)
    (draft : D) : Prop :=
  b.requiresTargetHiddenStates = true →
    ∀ context, (b.appendTargetContext draft context r.position).1 = true

/-- The backend draws its proposals from the rows it reports; `more` says after which of its tokens
it goes on, up to the limit. -/
structure Drafting (r : StepRequest Drawing D Γ ℝ Unit Hidden) (b : Drafter Drawing D Γ ℝ Unit Hidden)
    (q : List TokenId → Entries ℝ) (more : List TokenId → Bool) : Prop where
  tokens : ∀ done, ∀ e ∈ q done,
    r.verifier.target.vocabularySize = 0 ∨ e.1 < r.verifier.target.vocabularySize
  reports : (b.proposeSampled r.verifier.draft (sampledRequest r) ()).Always fun o =>
    Reports q (draftLimit r) r.position o.1 ∧ (o.1.tokens = [] → Hears r b o.2.1)
  draws : ∀ f, (b.proposeSampled r.verifier.draft (sampledRequest r) ()).expect
    (fun o => f o.1.tokens) = proposalLaw q more (draftLimit r) [] f

/-- The backend of a request, whether or not the step asks it for a proposal. -/
def Drafts (r : StepRequest Drawing D Γ ℝ Unit Hidden) (q : List TokenId → Entries ℝ)
    (more : List TokenId → Bool) : Prop :=
  ∀ b, r.verifier.drafter = some b →
    if draftLimit r = 0 then Hears r b r.verifier.draft else Drafting r b q more

/-! ## A step without drafts -/

/-- What `VerifyStep` does with a prepared step. -/
noncomputable def finishStep (r : StepRequest Drawing D Γ ℝ Unit Hidden) :
    (PreparedStep Γ ℝ Unit × Verifier Drawing D Γ ℝ Unit Hidden) ⊕ Finished Drawing D Γ ℝ Unit Hidden →
      Drawing (Finished Drawing D Γ ℝ Unit Hidden)
  | .inr finished => pure finished
  | .inl (p, v) => do
    let (chunk, executor) ← v.executor.forwardVerificationChunk v.target p.captureHidden
      p.captureLogits p.inputs p.position
    match ← processVerificationChunk p chunk { v with executor } r.sampler with
    | .inr finished => return finished
    | .inl _ => throw "complete verification still requires target rows"

theorem verifyStep_random (ready : Ready r) : verifyStep r = prepareStep r >>= finishStep r := by
  have random := ready.random
  simp only [SamplingConfig.usesRandomSampling, Bool.and_eq_true, decide_eq_true_eq] at random
  have warm : (r.sampler.config.temperature == 0) = false := by simpa using random.1.ne'
  simp only [verifyStep, ready.valid, ofExcept_ok, pure_bind, SamplingConfig.canUseUnmodifiedArgmax,
    warm, Bool.and_false, Bool.false_and, Bool.false_eq_true, if_false]
  refine bind_congr fun prepared => ?_
  cases prepared with
  | inr finished => rfl
  | inl running =>
    refine bind_congr fun chunk => bind_congr fun processed => ?_
    cases processed <;> rfl

/-- The step before anything is proposed. -/
def startedStep (r : StepRequest Drawing D Γ ℝ Unit Hidden) : PreparedStep Γ ℝ Unit where
  proposal := { tokens := [], startPos := 0 }
  workingSampler := some r.sampler
  position := r.position
  eos := r.eos
  sampled := true
  randomSampling := true
  maxDraftTokens := draftLimit r

theorem startStep_eq (ready : Ready r) : (startStep r : Drawing _) = pure (startedStep r) := by
  simp [startStep, ready.valid, ready.some_, ready.random, ofExcept_ok, startedStep, draftLimit]

theorem advanceCommittedToken_pure (ready : Ready r) {d : D}
    (hears : ∀ b, r.verifier.drafter = some b → Hears r b d) :
    ∃ draft, (Verifier.advanceCommittedToken { r.verifier with draft := d } r.currentToken
        r.position : Drawing _) =
      pure (r.verifier.target.predict (r.rowAt []), { r.verifier with
        executor := { r.verifier.executor with tokens := r.rowAt [] }, draft }) := by
  simp only [Verifier.advanceCommittedToken, Executor.forwardToken, if_pos ready.placed, pure_bind,
    Verifier.requiresHidden, Verifier.appendTargetContext]
  cases drafter : r.verifier.drafter with
  | none => exact ⟨d, rfl⟩
  | some b =>
    cases requires : b.requiresTargetHiddenStates with
    | false => exact ⟨d, by simp [requires, StepRequest.rowAt]⟩
    | true =>
      have heard := hears b drafter requires
      simp only [Option.any_some, requires, if_true, heard, pure_bind]
      exact ⟨_, rfl⟩

/-- The end of a step without drafts. -/
def singleFinished (r : StepRequest Drawing D Γ ℝ Unit Hidden)
    (v : Verifier Drawing D Γ ℝ Unit Hidden) (next : TokenId) (working : SamplerState Γ ℝ Unit)
    (logprobs : List (TokenLogprobs ℝ)) : Finished Drawing D Γ ℝ Unit Hidden where
  result :=
    { emittedTokens := [next]
      nextToken := next
      nextTokenLogits := if v.options.retainFrontierLogits then some v.lastLogits else none
      hitEos := v.isStopToken next r.eos
      logprobs }
  verifier := v.count 0 0 1
  sampler := r.sampler.setRngState working.rng

variable {p : PreparedStep Γ ℝ Unit}

theorem prepareTargetOnlyStep_eq (ready : Ready r) {d : D}
    (hears : ∀ b, r.verifier.drafter = some b → Hears r b d) (sampled : p.sampled = true)
    (working : p.workingSampler = some r.sampler) :
    ∃ v, (prepareTargetOnlyStep p r { r.verifier with draft := d } false : Drawing _) =
      selectAt r.verifier.target (r.rowAt []) r.sampler >>= fun o =>
        logprobsOf r.sampler.config.logprobs (some (r.verifier.target.logits (r.rowAt []))) o.1 >>=
          fun logprobs => pure (.inr (singleFinished r v o.1 o.2 logprobs)) := by
  obtain ⟨draft, advanced⟩ := advanceCommittedToken_pure ready hears
  refine ⟨{ r.verifier with
    executor := { r.verifier.executor with tokens := r.rowAt [] }, draft }, ?_⟩
  simp only [prepareTargetOnlyStep, Bool.false_eq_true, if_false, advanced, pure_bind, sampled,
    if_true, working, Option.getD_some, selectAt, bind_assoc]
  refine bind_congr fun selectable => ?_
  cases selectable with
  | true =>
    rfl
  | false => rfl

/-- A step without drafts emits a sample of its row. -/
theorem expect_targetOnly (ready : Ready r) {d : D}
    (hears : ∀ b, r.verifier.drafter = some b → Hears r b d) (sampled : p.sampled = true)
    (working : p.workingSampler = some r.sampler)
    {k : PreparedStep Γ ℝ Unit ⊕ Finished Drawing D Γ ℝ Unit Hidden →
      Drawing (Finished Drawing D Γ ℝ Unit Hidden)} (final : ∀ f, k (.inr f) = pure f)
    (f : List TokenId → ℝ≥0∞) :
    (prepareTargetOnlyStep p r { r.verifier with draft := d } false >>= k).expect
        (fun o => f o.result.emittedTokens) = emissionLaw (conditional r) q r.stops [] [] f := by
  obtain ⟨v, prepared⟩ := prepareTargetOnlyStep_eq ready hears sampled working
  have standing := ready.standing_of .start rfl
  have sample := expect_selectAt ready.valid ready.random ready.settled.pending (ready.size _)
    standing.law
  simp only [prepared, bind_assoc, pure_bind, final, Drawing.expect_bind, Drawing.expect_pure]
  refine (sample fun token => (logprobsOf r.sampler.config.logprobs
    (some (r.verifier.target.logits (r.rowAt []))) token : Drawing _).expect
      fun _ => f [token]).trans ?_
  refine (ready.law .start).toWeights.mean_congr fun token weighs => ?_
  obtain ⟨l, shown⟩ := ready.logprobs .start weighs
  rw [shown, Drawing.expect_pure]
  rfl

/-! ## A step with drafts -/

theorem draftTokenProbability_eq {entries : Entries ℝ} {vocabularySize : Nat} {tolerance : ℝ}
    {token : TokenId} (law : IsLaw entries) (some_ : 0 ≤ tolerance)
    (tokens : ∀ e ∈ entries, vocabularySize = 0 ∨ e.1 < vocabularySize)
    (weighs : 0 < weightOf entries token) :
    draftTokenProbability vocabularySize tolerance token entries = .ok (weightOf entries token) := by
  have valid : (entries.zipIdx.any fun (e, index) =>
      !Floating.finite e.2 || decide (e.2 < 0) || decide (1 < e.2) ||
        (vocabularySize != 0 && decide (vocabularySize ≤ e.1)) ||
        (entries.take index).any (·.1 == e.1)) = false := by
    rw [List.any_eq_false]
    rintro ⟨e, index⟩ place
    have at_index : entries[index]? = some e := List.mem_zipIdx_iff_getElem?.mp place
    obtain ⟨inside, rfl⟩ := List.getElem?_eq_some_iff.mp at_index
    have member := List.getElem_mem inside
    have new : (entries.take index).any (·.1 == entries[index].1) = false := by
      rw [List.any_eq_false]
      intro a before
      obtain ⟨i, low, rfl⟩ := List.mem_take_iff_getElem.mp before
      have distinct := List.nodup_iff_injective_getElem.mp law.distinct
      intro same
      have := @distinct ⟨i, by simp [keys]; omega⟩ ⟨index, by simpa [keys] using inside⟩
        (by simpa [keys] using same)
      simp at this
      omega
    have size : (vocabularySize != 0 && decide (vocabularySize ≤ entries[index].1)) = false := by
      obtain rfl | small := tokens _ member
      · rfl
      · simp [Nat.not_le.mpr small]
    simp [Floating.finite, law.nonneg _ member, law.le_one member, new, size]
  have whole : sumValues entries = 1 := (sumValues_eq entries).trans law.whole
  have exact_ : decide (tolerance < max ((1 : ℝ) - 1) (1 - 1)) = false := by
    simpa using some_
  simp only [draftTokenProbability, valid, whole, sparseProbability_eq law.distinct, exact_, weighs,
    decide_true, Bool.not_true, Bool.or_self]
  rfl

theorem draftTokenProbabilities_eq {limit position vocabularySize : Nat} {proposal : DraftProposal ℝ}
    (laws : ∀ done, IsLaw (q done)) (reports : Reports q limit position proposal)
    (tokens : ∀ done, ∀ e ∈ q done, vocabularySize = 0 ∨ e.1 < vocabularySize) :
    ∃ l, draftTokenProbabilities vocabularySize proposal = .ok l ∧
      ∀ done token rest, proposal.tokens = done ++ token :: rest →
        l[done.length]? = some (weightOf (q done) token) := by
  refine ⟨proposal.tokens.zipIdx.map fun e => weightOf (q (proposal.tokens.take e.2)) e.1,
    ?_, ?_⟩
  · refine mapM_eq_ok.mpr (List.forall₂_map_right_iff.mpr (List.forall₂_same.mpr ?_))
    rintro ⟨token, i⟩ place
    have at_index : proposal.tokens[i]? = some token := List.mem_zipIdx_iff_getElem?.mp place
    obtain ⟨inside, rfl⟩ := List.getElem?_eq_some_iff.mp at_index
    have parts : proposal.tokens = proposal.tokens.take i ++
        proposal.tokens[i] :: proposal.tokens.drop (i + 1) := by simp
    dsimp only
    rw [reports.rows i inside]
    exact draftTokenProbability_eq (laws _) (by unfold probabilityTolerance; positivity)
      (tokens _) (reports.drawn _ _ _ parts)
  · intro done token rest parts
    simp [parts]

/-- All the rows of a proposal are verified at once. -/
theorem finishStep_eq
    (h : Underway p v base) (verified : p.verifiedRows = 0)
    (limit : p.chunkLimit = none) (position : p.position = base.length) :
    finishStep r (.inl (p, v)) = settle p v base r.sampler := by
  have tokens : v.executor.tokens = base := by simpa [verified] using h.tokens
  have rows : prefixes base p.inputs = frontiers base p p.verifiedRows p.inputs.length := by
    have all : prefixes (base ++ p.inputs.take 0) ((p.inputs.drop 0).take p.inputs.length) =
        frontiers base p 0 (0 + p.inputs.length) := prefixes_eq (by omega)
    simpa [verified] using all
  have some_ : p.verifiedRows < p.inputs.length := by
    rw [verified, h.length_inputs]
    omega
  have last : p.inputs.length = p.verifiedRows + p.chunkRows := by
    simp [PreparedStep.chunkRows, limit, verified]
  have step : processVerificationChunk p (chunkOf v.target p.captureHidden p.captureLogits
        (frontiers base p p.verifiedRows p.inputs.length))
      (v.holding (base ++ p.inputs.take p.inputs.length)
        (frontiers base p p.verifiedRows p.inputs.length)) r.sampler =
      settleChunk p v base r.sampler p.inputs.length := processChunk_eq h last some_ position
  rw [List.take_length] at step
  rw [finishStep, forwardVerificationChunk_eq (by rw [tokens, position]), pure_bind, tokens, rows]
  refine (congrArg (· >>= _) step).trans ?_
  rw [settleChunk_whole h, bind_assoc]
  exact bind_pure _

/-- A step with a checked proposal. -/
def verifyingStep (r : StepRequest Drawing D Γ ℝ Unit Hidden) (proposal : DraftProposal ℝ)
    (tokenProbabilities : List ℝ) : PreparedStep Γ ℝ Unit :=
  { startedStep r with
    proposal
    tokenProbabilities
    inputs := r.currentToken :: proposal.tokens
    captureHidden := r.verifier.requiresHidden
    captureLogits := (true || r.sampler.config.logprobs.isSome) && !r.verifier.target.deviceResident }

/-- A proposal emits what the emission law says of its tokens. -/
theorem expect_proposal (ready : Ready r) (laws : ∀ done, IsLaw (q done))
    (tokens : ∀ done, ∀ e ∈ q done,
      r.verifier.target.vocabularySize = 0 ∨ e.1 < r.verifier.target.vocabularySize)
    {proposal : DraftProposal ℝ} {d : D} (reports : Reports q (draftLimit r) r.position proposal)
    (hears : proposal.tokens = [] → ∀ b, r.verifier.drafter = some b → Hears r b d)
    (f : List TokenId → ℝ≥0∞) :
    (prepareProposalVerification { startedStep r with proposal } r { r.verifier with draft := d }
        false >>= finishStep r).expect (fun o => f o.result.emittedTokens) =
      emissionLaw (conditional r) q r.stops [] proposal.tokens f := by
  by_cases empty : proposal.tokens = []
  · have single := expect_targetOnly (q := q) ready (p := { startedStep r with proposal })
      (hears empty) rfl rfl
      (k := fun prepared => (match prepared with
        | .inl p => pure (.inl (p, { r.verifier with draft := d }))
        | .inr finished => pure (.inr finished)) >>= finishStep r) (fun _ => rfl) f
    rw [empty, ← single]
    simp only [prepareProposalVerification, empty, List.isEmpty_nil, if_true, bind_assoc]
    refine congrArg (Drawing.expect · _) (bind_congr fun prepared => ?_)
    cases prepared <;> rfl
  · obtain ⟨l, probabilities, each⟩ := draftTokenProbabilities_eq laws reports tokens
    have some_ : proposal.tokens.isEmpty = false := by simpa using empty
    have formed : ¬(draftLimit r < proposal.tokens.length ∨ proposal.startPos ≠ r.position) := by
      rw [not_or, not_lt, not_not]
      exact ⟨reports.length, reports.start⟩
    have positive : 0 < proposal.tokens.length := List.length_pos_iff.mpr empty
    have rows : ¬(proposal.candidatesPerToken = 0 ∨
        proposal.candidateIds.length / proposal.tokens.length < proposal.candidatesPerToken ∨
        proposal.candidateIds.length ≠ proposal.tokens.length * proposal.candidatesPerToken ∨
        proposal.candidateProbabilities.length ≠ proposal.candidateIds.length) := by
      have width := reports.width empty
      rw [reports.ids, Nat.mul_div_cancel_left _ positive, reports.probabilities, reports.ids]
      omega
    simp only [prepareProposalVerification, startedStep, some_, Bool.false_eq_true, if_false, formed,
      rows, and_false, if_true, probabilities, ofExcept_ok, pure_bind]
    have verifying : Verifying r q (verifyingStep r proposal l) := {
      sampled := rfl
      random := rfl
      eos := rfl
      inputs := rfl
      rows := reports.rows
      drawn := reports.drawn
      probabilities := each
      shown := by
        cases device : r.verifier.target.deviceResident with
        | true => simp [r.verifier.target.device_retains device]
        | false => simp [verifyingStep, device]
      verified := rfl }
    have underway : Underway (verifyingStep r proposal l)
        { r.verifier with executor := r.verifier.executor.saveState, draft := d }
        r.verifier.executor.tokens := {
      proposal := rfl
      inputs := ⟨r.currentToken, rfl⟩
      within := Nat.zero_le _
      accepted := rfl
      tokens := by simp [Executor.saveState, verifyingStep, startedStep]
      saved := rfl
      sampled := fun device _ => by
        have host : r.verifier.target.deviceResident = false := device
        simp [verifyingStep, host]
      working := rfl }
    have settled := expect_settle ready laws verifying rfl
      (v := { r.verifier with executor := r.verifier.executor.saveState, draft := d }) rfl f
    rw [← finishStep_eq underway rfl rfl ready.placed] at settled
    exact settled

/-! ## One step -/

theorem prepareStep_single (ready : Ready r) (none_ : draftLimit r = 0) :
    (prepareStep r : Drawing _) = prepareTargetOnlyStep (startedStep r) r r.verifier false >>=
      fun prepared => match prepared with
        | .inl p => pure (.inl (p, r.verifier))
        | .inr finished => pure (.inr finished) := by
  have limited : (startedStep r).maxDraftTokens = 0 := none_
  rw [prepareStep, startStep_eq ready, pure_bind, limited]
  cases r.verifier.drafter <;>
    exact bind_congr fun prepared => by cases prepared <;> rfl

theorem prepareStep_proposal (ready : Ready r) {b : Drafter Drawing D Γ ℝ Unit Hidden}
    (drafter : r.verifier.drafter = some b) (some_ : draftLimit r ≠ 0) :
    (prepareStep r : Drawing _) =
      b.proposeSampled r.verifier.draft (sampledRequest r) () >>= fun o =>
        prepareProposalVerification { startedStep r with proposal := o.1 } r
          { r.verifier with draft := o.2.1 } false := by
  obtain ⟨n, limit⟩ := Nat.exists_eq_succ_of_ne_zero some_
  have limited : (startedStep r).maxDraftTokens = n + 1 := limit
  have proposed : (proposeForRequest b (startedStep r) r r.verifier : Drawing _) =
      b.proposeSampled r.verifier.draft (sampledRequest r) () >>= fun o =>
        pure ({ startedStep r with proposal := o.1 }, { r.verifier with draft := o.2.1 }) := rfl
  rw [prepareStep, startStep_eq ready, pure_bind, limited, drafter]
  dsimp only
  rw [proposed, bind_assoc]
  rfl

/-- What a step emits: its drafts come from the rows `q`, each is kept with its acceptance
probability, a rejected one is replaced by the leftover, and the token after a proposal kept whole
is a sample of its row. -/
theorem verifyStep_law (ready : Ready r) (laws : ∀ done, IsLaw (q done)) {more : List TokenId → Bool}
    (drafts : Drafts r q more) (f : List TokenId → ℝ≥0∞) :
    (verifyStep r).expect (fun o => f o.result.emittedTokens) =
      proposalLaw q more (draftLimit r) [] fun proposal =>
        emissionLaw (conditional r) q r.stops [] proposal f := by
  by_cases none_ : draftLimit r = 0
  · have hears : ∀ b, r.verifier.drafter = some b → Hears r b r.verifier.draft := by
      intro b drafter
      have backend := drafts b drafter
      rwa [if_pos none_] at backend
    rw [verifyStep_random ready, prepareStep_single ready none_, none_, proposalLaw, bind_assoc]
    exact expect_targetOnly ready hears rfl rfl (fun _ => rfl) f
  · obtain ⟨b, drafter⟩ : ∃ b, r.verifier.drafter = some b := by
      refine Option.ne_none_iff_exists'.mp fun absent => none_ ?_
      simp [draftLimit, absent]
    have backend := drafts b drafter
    rw [if_neg none_] at backend
    rw [verifyStep_random ready, prepareStep_proposal ready drafter none_, bind_assoc,
      Drawing.expect_bind, ← backend.draws]
    refine Drawing.expect_congr (backend.reports.imp fun o reported => ?_)
    refine expect_proposal ready laws backend.tokens reported.1 (fun empty b' drafter' => ?_) f
    cases drafter.symm.trans drafter'
    exact reported.2 empty

/-- The probability that what a step emits satisfies `P`. -/
noncomputable def emits (r : StepRequest Drawing D Γ ℝ Unit Hidden) (P : List TokenId → Prop)
    [DecidablePred P] : ℝ≥0∞ :=
  (verifyStep r).expect fun o => if P o.result.emittedTokens then 1 else 0

/-- A step in random-sampling mode emits a prefix of autoregressive sampling: given that it emits
some tokens and goes on, the next one has the target's distribution. It does so by keeping each
draft with probability `min 1 (p / q)`, replacing a rejected one by the leftover of `p` over `q`,
and sampling the row after a proposal kept whole. -/
theorem verifyStep_preserved (ready : Ready r) (laws : ∀ done, IsLaw (q done))
    {more : List TokenId → Bool} (drafts : Drafts r q more) :
    (∀ f : List TokenId → ℝ≥0∞, (verifyStep r).expect (fun o => f o.result.emittedTokens) =
      proposalLaw q more (draftLimit r) [] fun proposal =>
        emissionLaw (conditional r) q r.stops [] proposal f) ∧
    (emits r fun _ => True) = 1 ∧
    ∀ (emitted : List TokenId) (token : TokenId),
      (emits r fun l => emitted ++ [token] <+: l) =
        (emits r fun l => emitted <+: l ∧ emitted ≠ l) *
          ENNReal.ofReal (weightOf (conditional r emitted) token) := by
  have law := verifyStep_law ready laws drafts
  have step (f : List TokenId → ℝ≥0∞) :
      (verifyStep r).expect (fun o => f o.result.emittedTokens) =
        stepLaw (conditional r) q more r.stops (draftLimit r) [] f := by
    rw [law, ← proposalLaw_emissionLaw laws]
    rfl
  refine ⟨law, ?_, fun emitted token => ?_⟩
  · refine (step fun l => if True then 1 else 0).trans ?_
    rw [stepLaw_first (fun _ => ready.law) laws .start (g := fun _ => 1) fun _ _ => if_pos trivial]
    exact (ready.law .start).mean_const 1
  · refine (step fun l => if emitted ++ [token] <+: l then 1 else 0).trans ?_
    refine (step_preserved (fun _ => ready.law) laws .start emitted token).trans ?_
    rw [← step fun l => if [] ++ emitted <+: l ∧ [] ++ emitted ≠ l then 1 else 0]
    rfl

end

/-! ## An instance -/

def coinRow : Row ℝ := [.finite 0, .finite 0]

def coinTarget : Target ℝ Unit where
  predict _ := 0
  logits _ := coinRow
  hidden _ := ()
  stop _ := false
  vocabularySize := 2
  deviceResident := false
  retainsRows := false
  device_retains := off_device

noncomputable def coinConfig : SamplingConfig Unit ℝ where
  logprobs := none
  temperature := 1
  topK := 0
  topP := 1
  minP := 0
  minKeep := 0
  seed := 0
  repeatPenalty := 1
  repeatLastN := 0
  frequencyPenalty := 0
  presencePenalty := 0
  constraint := none
  reasoningBudget := none

noncomputable def coinSampler : SamplerState Unit ℝ Unit where
  config := coinConfig
  constraintState := ()
  history := []
  penaltyCounts := []
  rng := ()

/-- Token 0 for every fourth draft. -/
noncomputable def biasedEntries : Entries ℝ := [(0, 1 / 4), (1, 3 / 4)]

/-- A backend that proposes one token of a biased coin. -/
noncomputable def biasedDrafter : Drafter Drawing Unit Unit ℝ Unit Unit where
  supportsSampledProposals := true
  requiresTargetHiddenStates := false
  propose _ _ _ _ := throw "unused"
  proposeForRequest _ _ := throw "unused"
  proposeSampled _ request _ := do
    let u ← Drawing.uniform
    return ({
      tokens := [if u < 1 / 4 then 0 else 1]
      candidateIds := [0, 1]
      candidateProbabilities := [1 / 4, 3 / 4]
      candidatesPerToken := 2
      startPos := request.position }, (), ())
  appendTargetContext _ _ _ := (true, ())
  updateTargetHidden _ _ := ()
  acceptFeedback _ _ _ := ()

noncomputable def coinRequest : StepRequest Drawing Unit Unit ℝ Unit Unit where
  verifier :=
    { target := coinTarget
      drafter := some biasedDrafter
      options := ⟨1, 1, 8, 0, false, true, false⟩
      executor := { tokens := [] }
      draft := ()
      currentDraftLength := 1 }
  sequence := [0]
  position := 0
  currentToken := 0
  eos := 2
  maxEmittedTokens := 2
  sampler := coinSampler

theorem coinConfig_valid : coinConfig.validate = .ok ⟨⟩ := by
  have order : ¬(1 : ℝ) < 0 ∧ ¬(1 : ℝ) ≤ 0 := by norm_num
  simp [SamplingConfig.validate, coinConfig, reject, Floating.finite, bind, Except.bind, pure,
    Except.pure, order]

theorem coinConfig_plain : coinConfig.penaltiesEnabled = false := by
  simp [SamplingConfig.penaltiesEnabled, coinConfig]

theorem coin_distribution {s : SamplerState Unit ℝ Unit} (config : s.config = coinConfig)
    (settled : s.Settled) : s.distribution coinRow = .ok [(0, 1 / 2), (1, 1 / 2)] := by
  have forced : s.forcedToken = none := by simp [SamplerState.forcedToken, config, coinConfig]
  have counts : s.penaltyCounts = [] := settled.counts (by rw [config, coinConfig_plain])
  have size : (coinRow.isEmpty || decide (maxTokenId < coinRow.length)) = false := by decide
  have weighed : linearDistribution coinConfig [] coinRow = .ok [(0, 1 / 2), (1, 1 / 2)] := by
    have each : weight coinConfig 0 0 = 1 := by simp [weight, coinConfig, Floating.exp]
    have unfiltered : ¬(0 : ℝ) < coinConfig.minP := by simp [coinConfig]
    simp only [linearDistribution, adjustedRow, coinRow, Logit.value?, adjustedLogit,
      List.find?_nil, largest, List.foldl, max_self, unfiltered, if_false, if_true, List.map_cons,
      List.map_nil, each, sumValues, bind, Except.bind, pure, Except.pure]
    have positive : (0 : ℝ) < 0 + 1 + 1 ∧ Floating.finite (0 + 1 + 1 : ℝ) = true :=
      ⟨by norm_num, rfl⟩
    simp only [normalize, if_pos positive]
    norm_num [pure, Except.pure]
  have warm : coinConfig.temperature ≠ 0 := one_ne_zero
  have linear : coinConfig.topK = 0 ∧ coinConfig.topP = 1 ∧
      ¬(0 < coinConfig.minP ∧ 1 < coinConfig.minKeep) := by simp [coinConfig]
  have unrestricted : coinConfig.constraint = none := rfl
  simp only [SamplerState.distribution, forced, SamplerState.unconstrained, config, unrestricted,
    coinConfig_valid, counts, size, reject, warm, if_neg, Bool.false_eq_true, not_false_eq_true,
    if_pos linear, weighed]
  rfl

theorem coin_ready : Ready coinRequest where
  valid := coinConfig_valid
  random := by simp [coinRequest, coinSampler, coinConfig, SamplingConfig.usesRandomSampling]
  settled := ⟨rfl, fun _ => rfl⟩
  some_ := by decide
  placed := rfl
  size _ := show coinRow.length ≤ maxTokenId by decide
  returns emitted s _ accepted := by
    have kept := acceptAll_kept accepted
    refine ⟨_, coin_distribution kept.config (kept.settled ⟨rfl, fun _ => rfl⟩), fun token _ => ?_⟩
    exact ⟨accept_unmodified token (by rw [kept.config]; rfl)
      (by rw [kept.config]; exact coinConfig_plain), fun _ no => by cases no⟩

theorem biased_law : IsLaw biasedEntries where
  distinct := by simp [keys, biasedEntries]
  nonneg e member := by
    simp only [biasedEntries, List.mem_cons, List.not_mem_nil, or_false] at member
    rcases member with rfl | rfl <;> norm_num
  whole := by
    simp only [Weighted.total, biasedEntries, List.map_cons, List.map_nil, List.sum_cons,
      List.sum_nil]
    norm_num

theorem biased_drafts : Drafts coinRequest (fun _ => biasedEntries) fun _ => true := by
  intro b drafter
  cases drafter
  have limit : draftLimit coinRequest = 1 := rfl
  refine ⟨fun _ e member => ?_, fun u low high => ⟨?_, fun empty => by cases empty⟩, fun f => ?_⟩
  · simp only [biasedEntries, List.mem_cons, List.not_mem_nil, or_false] at member
    rcases member with rfl | rfl <;> exact .inr (by decide)
  · have parts {done rest : List TokenId} {token x : TokenId}
        (h : [x] = done ++ token :: rest) : done = [] ∧ token = x := by
      cases done with
      | nil =>
        cases h
        exact ⟨rfl, rfl⟩
      | cons _ done => simp at h
    refine ⟨Nat.le_refl 1, rfl, fun _ => Nat.two_pos, rfl, rfl, fun i inside => ?_,
      fun done token rest h => ?_⟩
    · obtain rfl : i = 0 := Nat.lt_one_iff.mp inside
      rfl
    · obtain ⟨-, rfl⟩ := parts h
      split <;> norm_num [weightOf, biasedEntries]
  · rw [limit]
    refine (Drawing.lintegral_below (c := 1 / 4) (by norm_num) (by norm_num) (f [0]) (f [1])
      |> Eq.trans ?_).trans ?_
    · refine MeasureTheory.setLIntegral_congr_fun measurableSet_Ico fun u _ => ?_
      show f [if u < 1 / 4 then 0 else 1] = _
      split <;> rfl
    · norm_num [proposalLaw, mean, biasedEntries]

/-- A fair coin drafted with a biased one stays fair. -/
theorem coin_preserved : (emits coinRequest fun _ => True) = 1 ∧
    (emits coinRequest fun l => [] ++ [0] <+: l) =
      (emits coinRequest fun l => [] <+: l ∧ [] ≠ l) * ENNReal.ofReal (1 / 2) := by
  have step := verifyStep_preserved coin_ready (fun _ => biased_law) biased_drafts
  have law : conditional coinRequest [] = [(0, 1 / 2), (1, 1 / 2)] := by
    have given : coinSampler.distribution coinRow = .ok [(0, 1 / 2), (1, 1 / 2)] :=
      coin_distribution rfl ⟨rfl, fun _ => rfl⟩
    show (match coinSampler.distribution coinRow with
      | .ok entries => entries
      | .error _ => []) = _
    rw [given]
  refine ⟨step.2.1, ?_⟩
  have next := step.2.2 [] 0
  rwa [law] at next

end Gufo.Speculative
