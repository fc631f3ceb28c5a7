import Gufo.Speculative.Verification
import Gufo.Lib.Outcome

/-!
# Requests of a batch do not see each other

`VerifyBatch` gives every request what `VerifyStep` gives it alone.

* A proposal verified in chunks settles as it does in one (`settle_split`).
* A pass over a slot keeps what it will settle to (`settled_pass`).
* A request alone settles to what its slot of a batch does (`startSlot_settled`).
-/

namespace Gufo.Speculative
open Outcome

set_option linter.unusedSectionVars false

section
variable {D Γ F G Hidden : Type} [LinearOrder F] [Zero F] [One F] [Add F] [Sub F] [Mul F] [Div F]
  [NatCast F] [Floating F] [Uniform (Except String) G F]

/-- An outcome without the width of the target's pass and the rows it left behind. -/
def Finished.observed {m : Type → Type} {D Γ F G Hidden : Type} (f : Finished m D Γ F G Hidden) :
    Finished m D Γ F G Hidden :=
  { f with
    result := { f.result with physicalWidth := 1 }
    verifier := { f.verifier with executor := { f.verifier.executor with rows := [] } } }

/-- What is observed of a computation that finishes a step. -/
def observation (x : Except String (Finished (Except String) D Γ F G Hidden)) :
    Option (Finished (Except String) D Γ F G Hidden) :=
  match x with
  | .ok f => some f.observed
  | .error _ => none

variable {t : Target F Hidden} {p p' : PreparedStep Γ F G}
  {v : Verifier (Except String) D Γ F G Hidden} {base : List TokenId}
  {sampler working : SamplerState Γ F G}

/-! ## The loop over the drafts, in two parts -/

/-- Two prepared steps of one proposal. -/
structure SameProposal (p p' : PreparedStep Γ F G) : Prop where
  proposal : p'.proposal = p.proposal
  inputs : p'.inputs = p.inputs
  probabilities : p'.tokenProbabilities = p.tokenProbabilities
  eos : p'.eos = p.eos
  sampled : p'.sampled = p.sampled
  random : p'.randomSampling = p.randomSampling
  hidden : p'.captureHidden = p.captureHidden
  logits : p'.captureLogits = p.captureLogits

theorem SameProposal.frontier (h : SameProposal p p') : frontier base p' = frontier base p := by
  funext i
  simp [Speculative.frontier, h.inputs]

variable {accepted : Nat}

theorem SameProposal.verifyDrafts (h : SameProposal p p') {drafts : List TokenId} :
    (verifyDrafts t p' base drafts accepted working :
      Except String (Nat × TokenId × SamplerState Γ F G)) =
      verifyDrafts t p base drafts accepted working := by
  induction drafts generalizing accepted working with
  | nil => rfl
  | cons draft rest ih =>
    simp [Speculative.verifyDrafts, judge, h.frontier, h.sampled, h.random, h.eos, h.probabilities,
      h.proposal, ih]

variable {tokens : List TokenId}

theorem SameProposal.recordAccepted (h : SameProposal p p') {logprobs : Option Nat}
    {row : Nat} :
    (recordAccepted t p' base logprobs tokens row : Except String (List (TokenLogprobs F))) =
      recordAccepted t p base logprobs tokens row := by
  induction tokens generalizing row with
  | nil => rfl
  | cons token rest ih =>
    simp [Speculative.recordAccepted, shownLogits, h.frontier, h.logits, ih]

theorem SameProposal.bonus (h : SameProposal p p') {correction : TokenId} :
    (bonus t p' base accepted correction working : Except String (TokenId × SamplerState Γ F G)) =
      bonus t p base accepted correction working := by
  simp [Speculative.bonus, h.frontier, h.sampled, h.proposal]

theorem verifyDrafts_append {xs ys : List TokenId} :
    (verifyDrafts t p base (xs ++ ys) accepted working :
      Except String (Nat × TokenId × SamplerState Γ F G)) =
      verifyDrafts t p base xs accepted working >>= fun r =>
        if r.1 = accepted + xs.length then verifyDrafts t p base ys r.1 r.2.2 else pure r := by
  induction xs generalizing accepted working with
  | nil => simp [verifyDrafts]
  | cons draft rest ih =>
    simp only [List.cons_append, verifyDrafts, bind_assoc]
    refine bind_congr fun decision => ?_
    cases decision.2.1 with
    | true => simp [ih, Nat.add_right_comm _ 1, Nat.add_assoc]
    | false => simp

/-- How far the loop gets, and that it draws only for a sampled request. -/
theorem verifyDrafts_ok {drafts : List TokenId}
    {r : Nat × TokenId × SamplerState Γ F G}
    (h : verifyDrafts t p base drafts accepted working = (Except.ok r : Except String _)) :
    accepted ≤ r.1 ∧ r.1 ≤ accepted + drafts.length ∧ (p.sampled = false → r.2.2 = working) := by
  induction drafts generalizing accepted working with
  | nil =>
    simp only [verifyDrafts, pure_eq_ok] at h
    subst h
    exact ⟨Nat.le_refl _, Nat.le_refl _, fun _ => rfl⟩
  | cons draft rest ih =>
    rw [verifyDrafts, bind_eq_ok] at h
    obtain ⟨⟨token, kept, after⟩, judged, h⟩ := h
    have same : p.sampled = false → after = working := by
      intro unsampled
      simp only [judge, unsampled, Bool.not_false, if_true, pure_eq_ok] at judged
      cases judged
      rfl
    rw [List.length_cons]
    cases kept with
    | true =>
      obtain ⟨low, high, tail⟩ := ih h
      exact ⟨by omega, by omega, fun unsampled => (tail unsampled).trans (same unsampled)⟩
    | false =>
      simp only [Bool.false_eq_true, if_false, pure_eq_ok] at h
      subst h
      exact ⟨Nat.le_refl _, Nat.le_add_right _ _, same⟩

theorem recordAccepted_append {logprobs : Option Nat} {xs ys : List TokenId} {row : Nat} :
    (recordAccepted t p base logprobs (xs ++ ys) row : Except String (List (TokenLogprobs F))) =
      recordAccepted t p base logprobs xs row >>= fun first =>
        recordAccepted t p base logprobs ys (row + xs.length) >>= fun rest =>
          pure (first ++ rest) := by
  induction xs generalizing row with
  | nil => simp [recordAccepted]
  | cons token rest ih =>
    simp only [List.cons_append, recordAccepted, ih, bind_assoc, pure_bind, List.append_assoc,
      List.length_cons, Nat.add_right_comm _ 1, Nat.add_assoc]

/-! ## A chunk and the rest of its proposal -/

variable {v' : Verifier (Except String) D Γ F G Hidden} {logprobs : List (TokenLogprobs F)}

/-- What is concluded at a row depends on the proposal and on what the backend heard up to it. -/
theorem observation_conclude
    {correction : TokenId} {rows rows' tokens : List (List TokenId)} {committed : List TokenId}
    (h : SameProposal p p')
    (heard : v'.hear p'.captureHidden (frontiers base p' p'.verifiedRows (accepted + 1)) =
      (v.hear p.captureHidden (frontiers base p p.verifiedRows (accepted + 1))).holding committed
        tokens) :
    observation (conclude p' v' base sampler rows' accepted correction working logprobs) =
      observation (conclude p v base sampler rows accepted correction working logprobs) := by
  have target : v'.target = v.target := congrArg (fun v => v.target) heard
  simp only [conclude, target, h.bonus, h.frontier, shownLogits, h.logits]
  cases (bonus v.target p base accepted correction working :
      Except String (TokenId × SamplerState Γ F G)) with
  | error e => rfl
  | ok r =>
    obtain ⟨token, after⟩ := r
    simp only [bind, Except.bind]
    cases (logprobsOf sampler.config.logprobs (if (p.captureLogits || v.target.retainsRows) = true
        then some (v.target.logits (frontier base p accepted)) else none) token :
        Except String (List (TokenLogprobs F))) with
    | error e => rfl
    | ok last =>
      simp only [pure, Except.pure, observation, concluded, heard, target, closeProposal, h.proposal,
        h.eos, h.sampled, shownLogits, h.logits, h.frontier]
      rfl

theorem hear_append {capture : Bool} {rows rows' tokens : List (List TokenId)}
    {committed : List TokenId} :
    ((v.hear capture rows).holding committed tokens).hear capture rows' =
      (v.hear capture (rows ++ rows')).holding committed tokens := by
  cases capture with
  | false => rfl
  | true =>
    simp only [Verifier.hear, Verifier.updateTargetHidden, Verifier.holding, if_true,
      List.map_append, List.foldl_append]
    cases v.drafter <;> rfl

theorem frontiers_append {first middle last : Nat} (low : first ≤ middle) (high : middle ≤ last) :
    frontiers base p first middle ++ frontiers base p middle last = frontiers base p first last := by
  simp only [frontiers, ← List.map_append]
  have start : middle = first + (middle - first) := by omega
  have sum : last - first = (middle - first) + (last - middle) := by omega
  rw [sum, ← List.range'_append_1, ← start]

theorem resumed_same {last accepted : Nat} :
    SameProposal p (p.resumed last accepted working logprobs) :=
  ⟨rfl, rfl, rfl, rfl, rfl, rfl, rfl, rfl⟩

theorem resumed_heard {last accepted : Nat}
    (low : p.verifiedRows ≤ last) (high : last ≤ accepted + 1) :
    (v.resumed p base last).hear (p.resumed last last working logprobs).captureHidden
        (frontiers base (p.resumed last last working logprobs)
          (p.resumed last last working logprobs).verifiedRows (accepted + 1)) =
      (v.hear p.captureHidden (frontiers base p p.verifiedRows (accepted + 1))).holding
        (base ++ p.inputs.take last) (frontiers base p p.verifiedRows last) := by
  refine hear_append.trans ?_
  have same : frontiers base (p.resumed last last working logprobs) last (accepted + 1) =
      frontiers base p last (accepted + 1) := rfl
  simp only [PreparedStep.resumed] at same ⊢
  rw [same, frontiers_append low high]

theorem recordAccepted_parts {logprobs : Option Nat} {first middle last : Nat}
    (low : first ≤ middle) (high : middle ≤ last) (within : middle ≤ tokens.length) :
    (recordAccepted t p base logprobs ((tokens.take last).drop first) first :
      Except String (List (TokenLogprobs F))) =
      recordAccepted t p base logprobs ((tokens.take middle).drop first) first >>= fun begun =>
        recordAccepted t p base logprobs ((tokens.take last).drop middle) middle >>= fun rest =>
          pure (begun ++ rest) := by
  have parts : (tokens.take last).drop first =
      (tokens.take middle).drop first ++ (tokens.take last).drop middle := by
    have halves := List.take_append_drop middle (tokens.take last)
    rw [List.take_take, Nat.min_eq_left high] at halves
    rw [← List.drop_append_of_le_length (by simp; omega), halves]
  have many : first + ((tokens.take middle).drop first).length = middle := by
    rw [List.length_drop, List.length_take]
    omega
  rw [parts, recordAccepted_append, many]

/-- A proposal taken up again at row `last` settles as it does without the break. -/
theorem settle_resumed {last : Nat} {after : SamplerState Γ F G}
    (h : Underway p v base) (low : p.verifiedRows ≤ last)
    (high : last ≤ p.proposal.tokens.length)
    (unsampled : p.sampled = false → after = p.workingSampler.getD sampler)
    (recorded : recordAccepted v.target p base sampler.config.logprobs
      ((p.proposal.tokens.take last).drop p.verifiedRows) p.verifiedRows =
        (Except.ok logprobs : Except String _)) :
    observation (verifyDrafts v.target p base (p.proposal.tokens.drop last) last after >>= fun r =>
        recordAccepted v.target p base sampler.config.logprobs
          ((p.proposal.tokens.take r.1).drop p.verifiedRows) p.verifiedRows >>= fun all =>
        conclude p v base sampler (frontiers base p p.verifiedRows p.inputs.length) r.1 r.2.1 r.2.2
          (p.logprobs ++ all)) =
      observation (settle (p.resumed last last after (p.logprobs ++ logprobs))
        (v.resumed p base last) base sampler) := by
  have same : SameProposal p (p.resumed last last after (p.logprobs ++ logprobs)) := resumed_same
  have working : (p.resumed last last after (p.logprobs ++ logprobs)).workingSampler.getD sampler =
      after := by
    have kept := h.working
    cases given : p.workingSampler with
    | none =>
      rw [given] at kept
      simp [PreparedStep.resumed, given, unsampled kept.symm]
    | some w => simp [PreparedStep.resumed, given]
  have target : (v.resumed p base last).target = v.target := rfl
  have row : (p.resumed last last after (p.logprobs ++ logprobs)).verifiedRows = last := rfl
  simp only [settle, working, same.verifyDrafts, same.recordAccepted, same.proposal, target, row]
  cases second : (verifyDrafts v.target p base (p.proposal.tokens.drop last) last after :
      Except String (Nat × TokenId × SamplerState Γ F G)) with
  | error e => rfl
  | ok r =>
    have least := (verifyDrafts_ok second).1
    simp only [Outcome.ok_bind, recordAccepted_parts low least high, recorded, bind_assoc]
    cases (recordAccepted v.target p base sampler.config.logprobs
        ((p.proposal.tokens.take r.1).drop last) last : Except String (List (TokenLogprobs F))) with
    | error e => rfl
    | ok rest =>
      simp only [Outcome.ok_bind, pure_bind, ← List.append_assoc]
      have heard : (v.resumed p base last).hear
            (p.resumed last last after (p.logprobs ++ logprobs)).captureHidden _ = _ :=
        resumed_heard low (show last ≤ r.1 + 1 by omega)
      exact (observation_conclude same heard).symm

/-- A proposal verified up to a row and then further settles as it does in one chunk. -/
theorem settle_split (sampler : SamplerState Γ F G) (last : Nat) (h : Underway p v base) (low : p.verifiedRows < last)
    (high : last ≤ p.inputs.length) :
    observation (settle p v base sampler) =
      match (settleChunk p v base sampler last : Except String _) with
      | .ok (.inr f) => some f.observed
      | .ok (.inl (p', v')) => observation (settle p' v' base sampler)
      | .error _ => none := by
  have length := h.length_inputs
  by_cases whole : last = p.inputs.length
  · rw [whole, settleChunk_whole h]
    cases (settle p v base sampler : Except String (Finished (Except String) D Γ F G Hidden)) <;> rfl
  have parts : p.proposal.tokens.drop p.verifiedRows =
      (p.proposal.tokens.take last).drop p.verifiedRows ++ p.proposal.tokens.drop last := by
    rw [← List.drop_append_of_le_length (by simp; omega), List.take_append_drop]
  have many : ((p.proposal.tokens.take last).drop p.verifiedRows).length = last - p.verifiedRows := by
    rw [List.length_drop, List.length_take]
    omega
  simp only [settle, settleChunk, parts, verifyDrafts_append, bind_assoc]
  cases first : (verifyDrafts v.target p base ((p.proposal.tokens.take last).drop p.verifiedRows)
      p.verifiedRows (p.workingSampler.getD sampler) :
      Except String (Nat × TokenId × SamplerState Γ F G)) with
  | error e => rfl
  | ok r =>
    obtain ⟨accepted, correction, after⟩ := r
    obtain ⟨least, most, unsampled⟩ := verifyDrafts_ok first
    simp only [many, Outcome.ok_bind]
    by_cases stopped : accepted < last
    · -- The proposal ends in this chunk, with or without the rows after it.
      rw [if_neg (by omega), pure_bind]
      cases (recordAccepted v.target p base sampler.config.logprobs
          ((p.proposal.tokens.take accepted).drop p.verifiedRows) p.verifiedRows :
          Except String (List (TokenLogprobs F))) with
      | error e => rfl
      | ok logprobs =>
        simp only [Outcome.ok_bind, if_pos stopped]
        have rows : observation (conclude p v base sampler
              (frontiers base p p.verifiedRows p.inputs.length) accepted correction after
              (p.logprobs ++ logprobs)) =
            observation (conclude p v base sampler (frontiers base p p.verifiedRows last) accepted
              correction after (p.logprobs ++ logprobs)) :=
          observation_conclude ⟨rfl, rfl, rfl, rfl, rfl, rfl, rfl, rfl⟩ rfl
        rw [rows]
        cases (conclude p v base sampler (frontiers base p p.verifiedRows last) accepted correction
          after (p.logprobs ++ logprobs) :
            Except String (Finished (Except String) D Γ F G Hidden)) <;> rfl
    · have exact_ : accepted = last := by omega
      subst exact_
      rw [if_pos (by omega)]
      cases recorded : (recordAccepted v.target p base sampler.config.logprobs
          ((p.proposal.tokens.take accepted).drop p.verifiedRows) p.verifiedRows :
          Except String (List (TokenLogprobs F))) with
      | error e =>
        cases second : (verifyDrafts v.target p base (p.proposal.tokens.drop accepted) accepted after :
            Except String (Nat × TokenId × SamplerState Γ F G)) with
        | error e => rfl
        | ok r =>
          have least := (verifyDrafts_ok second).1
          simp only [Outcome.ok_bind, Outcome.error_bind,
            recordAccepted_parts low.le least (show accepted ≤ p.proposal.tokens.length by omega),
            recorded]
          rfl
      | ok logprobs =>
        simp only [Outcome.ok_bind, if_neg stopped]
        exact settle_resumed h low.le (by omega) unsampled recorded

/-! ## One slot -/

/-- The rest of a step on its own: everything that is left in one chunk. -/
def finishRows (p : PreparedStep Γ F G) (v : Verifier (Except String) D Γ F G Hidden)
    (sampler : SamplerState Γ F G) : Except String (Finished (Except String) D Γ F G Hidden) := do
  let (chunk, executor) ← v.executor.forwardVerificationChunk v.target p.captureHidden
    p.captureLogits (p.inputs.drop p.verifiedRows) (p.position + p.verifiedRows)
  match ← processVerificationChunk { p with chunkLimit := none } chunk { v with executor } sampler with
  | .inr finished => return finished
  | .inl _ => throw "complete verification still requires target rows"

/-- What will be observed of the request. -/
def Slot.settled : Slot (Except String) D Γ F G Hidden →
    Option (Finished (Except String) D Γ F G Hidden)
  | .finished f => some f.observed
  | .running p v s => observation (finishRows p v s)

/-- A running slot waits for one target row or for the rows of a proposal. -/
inductive Slot.Valid : Slot (Except String) D Γ F G Hidden → Prop where
  | finished (f : Finished (Except String) D Γ F G Hidden) : Valid (.finished f)
  | single {p : PreparedStep Γ F G} {v : Verifier (Except String) D Γ F G Hidden}
      {s : SamplerState Γ F G} (limit : ∀ n, p.chunkLimit = some n → 0 < n)
      (only : p.targetOnly = true) (rows : p.verifiedRows = 0)
      (input : ∃ current, p.inputs = [current]) : Valid (.running p v s)
  | proposal {p : PreparedStep Γ F G} {v : Verifier (Except String) D Γ F G Hidden}
      {s : SamplerState Γ F G} (limit : ∀ n, p.chunkLimit = some n → 0 < n)
      (underway : ∃ base, Underway p v base) : Valid (.running p v s)

variable {position : Nat}

theorem forwardVerificationChunk_misplaced (t : Target F Hidden) (captureHidden captureLogits : Bool)
    {e : Executor} (some_ : tokens ≠ [])
    (misplaced : position ≠ e.tokens.length) :
    ∃ message, (e.forwardVerificationChunk t captureHidden captureLogits tokens position :
      Except String (VerificationChunk F Hidden × Executor)) = .error message := by
  cases tokens with
  | nil => exact absurd rfl some_
  | cons token rest =>
    refine ⟨"position is not the frontier", ?_⟩
    rw [Executor.forwardVerificationChunk, Executor.forwardToken, if_neg misplaced]
    rfl

theorem chunkRows_pos (limit : ∀ n, p.chunkLimit = some n → 0 < n)
    (left : p.verifiedRows < p.inputs.length) : 0 < p.chunkRows := by
  unfold PreparedStep.chunkRows
  cases given : p.chunkLimit with
  | none =>
    show 0 < p.inputs.length - p.verifiedRows
    omega
  | some n =>
    have positive := limit n given
    show 0 < min n (p.inputs.length - p.verifiedRows)
    omega

theorem chunkRows_le : p.chunkRows ≤ p.inputs.length - p.verifiedRows := by
  unfold PreparedStep.chunkRows
  cases p.chunkLimit with
  | none => exact Nat.le_refl _
  | some n => exact Nat.min_le_right _ _

/-- The prepared step with another chunk limit and width. -/
def PreparedStep.paced (p : PreparedStep Γ F G) (limit : Option Nat) (width : Nat) :
    PreparedStep Γ F G :=
  { p with chunkLimit := limit, physicalWidth := width }

theorem settle_limit (p : PreparedStep Γ F G) (limit : Option Nat) (width : Nat) :
    settle (m := Except String) (p.paced limit width) v base sampler =
      settle p v base sampler := by
  have same : SameProposal p (p.paced limit width) :=
    ⟨rfl, rfl, rfl, rfl, rfl, rfl, rfl, rfl⟩
  simp only [settle, same.verifyDrafts, same.recordAccepted]
  rfl

theorem Underway.limit (h : Underway p v base) (limit : Option Nat) (width : Nat) :
    Underway (p.paced limit width) v base :=
  ⟨h.proposal, h.inputs, h.within, h.accepted, h.tokens, h.saved, h.sampled, h.working⟩

theorem Underway.length_tokens (h : Underway p v base) :
    v.executor.tokens.length = base.length + p.verifiedRows := by
  have length := h.length_inputs
  have within := h.within
  rw [h.tokens, List.length_append, List.length_take]
  omega

/-- The target's answer to the rows of a proposal. -/
theorem forward_underway (rows : Nat) (h : Underway p v base) (position : p.position = base.length)
    (fits : p.verifiedRows + rows ≤ p.inputs.length) :
    (v.executor.forwardVerificationChunk v.target p.captureHidden p.captureLogits
        ((p.inputs.drop p.verifiedRows).take rows) (p.position + p.verifiedRows) :
        Except String (VerificationChunk F Hidden × Executor)) =
      .ok (chunkOf v.target p.captureHidden p.captureLogits
          (frontiers base p p.verifiedRows (p.verifiedRows + rows)),
        { v.executor with
          tokens := base ++ p.inputs.take (p.verifiedRows + rows)
          rows := frontiers base p p.verifiedRows (p.verifiedRows + rows) }) := by
  rw [forwardVerificationChunk_eq (by rw [h.length_tokens, position]), h.tokens, prefixes_eq fits,
    List.append_assoc, ← List.take_add]
  rfl

/-- A proposal on its own settles. -/
theorem finishRows_eq (sampler : SamplerState Γ F G) (h : Underway p v base) (position : p.position = base.length) :
    finishRows p v sampler = settle p v base sampler := by
  have length := h.length_inputs
  have within := h.within
  have last : p.verifiedRows + (p.inputs.length - p.verifiedRows) = p.inputs.length := by omega
  have forwarded := forward_underway (p.inputs.length - p.verifiedRows) h position (by omega)
  rw [List.take_of_length_le (by simp), last] at forwarded
  have processed : (processVerificationChunk (p.paced none p.physicalWidth)
      (chunkOf v.target p.captureHidden p.captureLogits
        (frontiers base p p.verifiedRows p.inputs.length))
      (v.holding (base ++ p.inputs.take p.inputs.length)
        (frontiers base p p.verifiedRows p.inputs.length)) sampler : Except String _) =
      settleChunk (p.paced none p.physicalWidth) v base sampler p.inputs.length :=
    processChunk_eq (h.limit none p.physicalWidth) last.symm
      (show p.verifiedRows < p.inputs.length by omega) position
  have whole : (settleChunk (p.paced none p.physicalWidth) v base sampler p.inputs.length :
      Except String _) = settle p v base sampler >>= fun f => pure (.inr f) := by
    have all : (settleChunk (p.paced none p.physicalWidth) v base sampler p.inputs.length :
        Except String _) = settle (p.paced none p.physicalWidth) v base sampler >>= fun f =>
          pure (.inr f) := settleChunk_whole (h.limit none p.physicalWidth)
    rw [settle_limit] at all
    exact all
  simp only [finishRows, forwarded, Outcome.ok_bind]
  refine (congrArg (· >>= _) (processed.trans whole)).trans ?_
  simp

theorem finishRows_misplaced (sampler : SamplerState Γ F G) (h : Underway p v base) (misplaced : p.position ≠ base.length) :
    observation (finishRows p v sampler) = none := by
  have length := h.length_inputs
  have within := h.within
  have left : p.inputs.drop p.verifiedRows ≠ [] := by simp; omega
  have away : p.position + p.verifiedRows ≠ v.executor.tokens.length := by
    rw [h.length_tokens]
    omega
  obtain ⟨message, thrown⟩ :=
    forwardVerificationChunk_misplaced v.target p.captureHidden p.captureLogits left away
  rw [finishRows, thrown]
  rfl

/-- One pass over a slot. -/
def passSlot (few : Bool) (slot : Slot (Except String) D Γ F G Hidden) :
    Except String (Slot (Except String) D Γ F G Hidden) :=
  forwardSlot few slot >>= processSlot

/-- The limit a pass uses. -/
def passLimit (few : Bool) (p : PreparedStep Γ F G) : Option Nat := if few then none else p.chunkLimit

theorem passSlot_eq (few : Bool) (p : PreparedStep Γ F G)
    (v : Verifier (Except String) D Γ F G Hidden) (sampler : SamplerState Γ F G) :
    passSlot few (.running p v sampler) =
      v.executor.forwardVerificationChunk v.target p.captureHidden p.captureLogits
          ((p.inputs.drop p.verifiedRows).take
            (p.paced (passLimit few p) (max p.physicalWidth 1)).chunkRows) (p.position + p.verifiedRows) >>=
        fun r => processVerificationChunk
            (p.paced (passLimit few p) (max p.physicalWidth 1))
            r.1 { v with executor := r.2 } sampler >>= fun
          | .inl (next, v) => pure (.running next v sampler)
          | .inr f => pure (.finished
              { f with result := { f.result with physicalWidth := max p.physicalWidth 1 } }) := by
  simp only [passSlot, forwardSlot, processSlot, bind_assoc, pure_bind]
  refine bind_congr fun r => bind_congr fun done => ?_
  cases done <;> rfl

/-- A chunk that leaves rows to verify has accepted all of its own. -/
theorem settleChunk_inl {last : Nat}
    (_ : Underway p v base) (low : p.verifiedRows < last)
    (more : settleChunk p v base sampler last = (.ok (.inl (p', v')) : Except String _)) :
    last ≤ p.proposal.tokens.length ∧ v' = v.resumed p base last ∧
      ∃ working logprobs, p' = p.resumed last last working logprobs := by
  simp only [settleChunk, bind_eq_ok] at more
  obtain ⟨⟨accepted, correction, after⟩, loop, logprobs, -, more⟩ := more
  have most := (verifyDrafts_ok loop).2.1
  simp only [List.length_drop, List.length_take] at most
  by_cases stopped : accepted < last
  · rw [if_pos stopped, bind_eq_ok] at more
    obtain ⟨f, -, same⟩ := more
    cases pure_eq_ok.mp same
  · have exact_ : accepted = last := by omega
    subst exact_
    simp only [if_neg stopped, pure_eq_ok, Sum.inl.injEq, Prod.mk.injEq] at more
    exact ⟨by omega, more.2.symm, after, _, more.1.symm⟩

/-- A pass over a proposal keeps what it settles to and verifies a row. -/
theorem pass_proposal (few : Bool) (limit : ∀ n, p.chunkLimit = some n → 0 < n)
    (h : Underway p v base) :
    (Slot.running p v sampler).settled =
        (match passSlot few (.running p v sampler) with
          | .ok next => next.settled
          | .error _ => none) ∧
      ∀ next, passSlot few (.running p v sampler) = .ok next →
        next.Valid ∧ rowsLeft next < rowsLeft (.running p v sampler) := by
  have length := h.length_inputs
  have within := h.within
  have paced := h.limit (passLimit few p) (max p.physicalWidth 1)
  have pace : ∀ n, passLimit few p = some n → 0 < n := by
    intro n given
    cases few with
    | true => cases given
    | false => exact limit n given
  have positive : 0 < (p.paced (passLimit few p) (max p.physicalWidth 1)).chunkRows :=
    chunkRows_pos pace (by simp only [PreparedStep.paced]; omega)
  have fits : (p.paced (passLimit few p) (max p.physicalWidth 1)).chunkRows ≤
      p.inputs.length - p.verifiedRows := chunkRows_le
  by_cases placed : p.position = base.length
  · generalize rows : (p.paced (passLimit few p) (max p.physicalWidth 1)).chunkRows = n
      at positive fits
    have forwarded := forward_underway n h placed (by omega)
    have processed : (processVerificationChunk (p.paced (passLimit few p) (max p.physicalWidth 1))
        (chunkOf v.target p.captureHidden p.captureLogits
          (frontiers base p p.verifiedRows (p.verifiedRows + n)))
        (v.holding (base ++ p.inputs.take (p.verifiedRows + n))
          (frontiers base p p.verifiedRows (p.verifiedRows + n))) sampler : Except String _) =
        settleChunk (p.paced (passLimit few p) (max p.physicalWidth 1))
          v base sampler (p.verifiedRows + n) :=
      processChunk_eq paced (by rw [← rows]; rfl)
        (show p.verifiedRows < p.verifiedRows + n by omega) placed
    have split := settle_split sampler (p.verifiedRows + n) paced
      (show p.verifiedRows < p.verifiedRows + n by omega)
      (show p.verifiedRows + n ≤ p.inputs.length by omega)
    rw [settle_limit] at split
    have passed := passSlot_eq few p v sampler
    rw [rows, forwarded, Outcome.ok_bind] at passed
    replace passed := passed.trans (congrArg (· >>= _) processed)
    rw [Slot.settled, finishRows_eq sampler h placed, split, passed]
    cases settled : (settleChunk (p.paced (passLimit few p) (max p.physicalWidth 1)) v base sampler
        (p.verifiedRows + n) : Except String _) with
    | error e => exact ⟨rfl, fun next done => by cases done⟩
    | ok x =>
      cases x with
      | inr f =>
        refine ⟨rfl, fun next done => ?_⟩
        cases done
        exact ⟨.finished _, show 0 < p.inputs.length - p.verifiedRows by omega⟩
      | inl r =>
        obtain ⟨p', v'⟩ := r
        obtain ⟨high, rfl, after, logprobs, rfl⟩ := settleChunk_inl paced
          (show p.verifiedRows < p.verifiedRows + n by omega) settled
        have resumed : Underway ((p.paced (passLimit few p) (max p.physicalWidth 1)).resumed
            (p.verifiedRows + n) (p.verifiedRows + n) after logprobs)
            (v.resumed (p.paced (passLimit few p) (max p.physicalWidth 1)) base
              (p.verifiedRows + n)) base := paced.resumed high
        refine ⟨?_, fun next done => ?_⟩
        · simp only [Outcome.ok_bind, pure, Except.pure, Slot.settled]
          rw [finishRows_eq sampler resumed placed]
        · cases done
          refine ⟨.proposal pace ⟨base, resumed⟩, ?_⟩
          show p.inputs.length - (p.verifiedRows + n) < p.inputs.length - p.verifiedRows
          omega
  · have left : (p.inputs.drop p.verifiedRows).take
        (p.paced (passLimit few p) (max p.physicalWidth 1)).chunkRows ≠ [] := by
      simp
      omega
    have away : p.position + p.verifiedRows ≠ v.executor.tokens.length := by
      rw [h.length_tokens]
      omega
    obtain ⟨message, thrown⟩ :=
      forwardVerificationChunk_misplaced v.target p.captureHidden p.captureLogits left away
    rw [passSlot_eq, thrown, Slot.settled, finishRows_misplaced sampler h placed]
    exact ⟨rfl, fun next done => by cases done⟩

theorem process_single (only : p.targetOnly = true)
    (rows : p.chunkRows = 1) :
    (processVerificationChunk p (chunkOf t p.captureHidden p.captureLogits [tokens]) v sampler :
        Except String _) =
      processTargetOnly p (chunkOf t p.captureHidden p.captureLogits [tokens]) v sampler >>=
        fun f => pure (.inr f) := by
  cases hidden : p.captureHidden <;> cases logits : p.captureLogits <;>
    simp [processVerificationChunk, chunkOf, only, rows, hidden, logits]

theorem forward_single {current : TokenId} {e : Executor} {capture capture' : Bool}
    (placed : position = e.tokens.length) :
    (e.forwardVerificationChunk t capture capture' [current] position :
        Except String (VerificationChunk F Hidden × Executor)) =
      .ok (chunkOf t capture capture' [e.tokens ++ [current]],
        { e with tokens := e.tokens ++ [current], rows := [e.tokens ++ [current]] }) :=
  forwardVerificationChunk_eq placed

/-- A pass over a single row finishes its step. -/
theorem pass_single (few : Bool) (limit : ∀ n, p.chunkLimit = some n → 0 < n)
    (only : p.targetOnly = true) (rows : p.verifiedRows = 0)
    (input : ∃ current, p.inputs = [current]) :
    (Slot.running p v sampler).settled =
        (match passSlot few (.running p v sampler) with
          | .ok next => next.settled
          | .error _ => none) ∧
      ∀ next, passSlot few (.running p v sampler) = .ok next →
        next.Valid ∧ rowsLeft next < rowsLeft (.running p v sampler) := by
  obtain ⟨current, inputs⟩ := input
  have pace : ∀ n, passLimit few p = some n → 0 < n := by
    intro n given
    cases few with
    | true => cases given
    | false => exact limit n given
  have single {q : PreparedStep Γ F G} (limit : ∀ n, q.chunkLimit = some n → 0 < n)
      (same : q.inputs = p.inputs) (row : q.verifiedRows = p.verifiedRows) : q.chunkRows = 1 := by
    have least := chunkRows_pos limit (by simp [same, row, rows, inputs])
    have most : q.chunkRows ≤ q.inputs.length - q.verifiedRows := chunkRows_le
    rw [same, row, rows, inputs] at most
    exact Nat.le_antisymm most least
  have one : (p.paced (passLimit few p) (max p.physicalWidth 1)).chunkRows = 1 := single pace rfl rfl
  have alone : (p.paced none p.physicalWidth).chunkRows = 1 := single (fun _ none_ => by cases none_) rfl rfl
  have passed := passSlot_eq few p v sampler
  rw [one, inputs, rows, List.drop_zero, List.take_of_length_le (Nat.le_refl 1), Nat.add_zero]
    at passed
  have left : rowsLeft (.running p v sampler) = 1 := by simp [rowsLeft, inputs, rows]
  by_cases placed : p.position = v.executor.tokens.length
  · rw [forward_single placed, Outcome.ok_bind] at passed
    have processed (limit : Option Nat) (width : Nat) (one : (p.paced limit width).chunkRows = 1) :
        (processVerificationChunk (p.paced limit width) (chunkOf v.target p.captureHidden
            p.captureLogits [v.executor.tokens ++ [current]])
          (v.holding (v.executor.tokens ++ [current]) [v.executor.tokens ++ [current]]) sampler :
          Except String _) =
        processTargetOnly p (chunkOf v.target p.captureHidden p.captureLogits
          [v.executor.tokens ++ [current]])
          (v.holding (v.executor.tokens ++ [current]) [v.executor.tokens ++ [current]]) sampler >>=
          fun f => pure (.inr f) := process_single only one
    replace passed := passed.trans (congrArg (· >>= _) (processed _ _ one))
    have whole : finishRows p v sampler =
        processTargetOnly p (chunkOf v.target p.captureHidden p.captureLogits
          [v.executor.tokens ++ [current]])
          (v.holding (v.executor.tokens ++ [current]) [v.executor.tokens ++ [current]]) sampler := by
      have forwarded : v.executor.forwardVerificationChunk v.target p.captureHidden p.captureLogits
          (p.inputs.drop p.verifiedRows) (p.position + p.verifiedRows) =
          (.ok (chunkOf v.target p.captureHidden p.captureLogits [v.executor.tokens ++ [current]],
            { v.executor with
              tokens := v.executor.tokens ++ [current]
              rows := [v.executor.tokens ++ [current]] }) : Except String _) := by
        rw [inputs, rows, List.drop_zero, Nat.add_zero]
        exact forward_single placed
      simp only [finishRows, forwarded, Outcome.ok_bind]
      refine (congrArg (· >>= _) (processed none p.physicalWidth alone)).trans ?_
      simp
    rw [passed, Slot.settled, whole, left]
    cases (processTargetOnly p (chunkOf v.target p.captureHidden p.captureLogits
        [v.executor.tokens ++ [current]])
        (v.holding (v.executor.tokens ++ [current]) [v.executor.tokens ++ [current]]) sampler :
        Except String (Finished (Except String) D Γ F G Hidden)) with
    | error e => exact ⟨rfl, fun next done => by cases done⟩
    | ok f =>
      refine ⟨rfl, fun next done => ?_⟩
      cases done
      exact ⟨.finished _, Nat.one_pos⟩
  · obtain ⟨message, thrown⟩ := forwardVerificationChunk_misplaced v.target p.captureHidden
      p.captureLogits (List.cons_ne_nil current []) placed
    rw [passed, Slot.settled, finishRows, inputs, rows, List.drop_zero, Nat.add_zero, thrown]
    exact ⟨rfl, fun next done => by cases done⟩

/-- A pass keeps what a slot settles to, and verifies a row of it if it still runs. -/
theorem settled_pass (few : Bool) {slot : Slot (Except String) D Γ F G Hidden} (h : slot.Valid) :
    slot.settled =
        (match passSlot few slot with
          | .ok next => next.settled
          | .error _ => none) ∧
      ∀ next, passSlot few slot = .ok next → next.Valid ∧ rowsLeft next ≤ rowsLeft slot - 1 := by
  cases h with
  | finished f =>
    refine ⟨rfl, fun next done => ?_⟩
    cases done
    exact ⟨.finished f, Nat.zero_le _⟩
  | single limit only rows input =>
    obtain ⟨same, fewer⟩ := pass_single few limit only rows input
    exact ⟨same, fun next done => ⟨(fewer next done).1, Nat.le_sub_one_of_lt (fewer next done).2⟩⟩
  | proposal limit underway =>
    obtain ⟨base, underway⟩ := underway
    obtain ⟨same, fewer⟩ := pass_proposal few limit underway
    exact ⟨same, fun next done => ⟨(fewer next done).1, Nat.le_sub_one_of_lt (fewer next done).2⟩⟩

/-! ## All slots -/

variable {slots : List (Slot (Except String) D Γ F G Hidden)}
  {fs : List (Finished (Except String) D Γ F G Hidden)}

theorem finishedSlots_eq_some
    (h : finishedSlots slots = some fs) :
    List.Forall₂ (fun slot f => slot.settled = some f.observed) slots fs := by
  induction slots generalizing fs with
  | nil =>
    cases h
    exact .nil
  | cons slot rest ih =>
    cases slot with
    | running p v s => cases h
    | finished f =>
      simp only [finishedSlots, Option.map_eq_some_iff] at h
      obtain ⟨gs, tail, rfl⟩ := h
      exact .cons rfl (ih tail)

theorem finishedSlots_of_rows
    (valid : ∀ slot ∈ slots, slot.Valid) (none_ : ∀ slot ∈ slots, rowsLeft slot = 0) :
    finishedSlots slots ≠ none := by
  induction slots with
  | nil => simp [finishedSlots]
  | cons slot rest ih =>
    have tail := ih (fun s hs => valid s (by simp [hs])) (fun s hs => none_ s (by simp [hs]))
    have empty := none_ slot (by simp)
    cases valid slot (by simp) with
    | finished f => simpa [finishedSlots] using tail
    | single limit only rows input =>
      obtain ⟨current, inputs⟩ := input
      simp [rowsLeft, rows, inputs] at empty
    | proposal limit underway =>
      obtain ⟨base, underway⟩ := underway
      have length := underway.length_inputs
      have within := underway.within
      simp only [rowsLeft] at empty
      omega

theorem verifySlots_step (fuel : Nat)
    (more : finishedSlots slots = none) :
    ∃ few, ∀ fs : List (Finished (Except String) D Γ F G Hidden),
      verifySlots (fuel + 1) slots = (.ok fs : Except String _) ↔
        ∃ next, List.Forall₂ (fun slot slot' => passSlot few slot = .ok slot') slots next ∧
          verifySlots fuel next = (.ok fs : Except String _) := by
  refine ⟨decide (slots.countP Slot.isRunning < 4), fun fs => ?_⟩
  simp only [verifySlots, more, bind_eq_ok, mapM_eq_ok, passSlot, ← forall₂_comp]
  constructor
  · rintro ⟨answered, forwarded, next, processed, rest⟩
    exact ⟨next, ⟨answered, forwarded, processed⟩, rest⟩
  · rintro ⟨next, ⟨answered, forwarded, processed⟩, rest⟩
    exact ⟨answered, forwarded, next, processed, rest⟩

theorem verifySlots_done {fuel : Nat}
    (done : finishedSlots slots = some fs) :
    verifySlots fuel slots = (.ok fs : Except String _) := by
  cases fuel <;> simp [verifySlots, done, pure, Except.pure]

/-- What the slots settle to is what the loop returns. -/
theorem verifySlots_settled {fuel : Nat}
    (valid : ∀ slot ∈ slots, slot.Valid)
    (h : verifySlots fuel slots = (.ok fs : Except String _)) :
    List.Forall₂ (fun slot f => slot.settled = some f.observed) slots fs := by
  induction fuel generalizing slots with
  | zero =>
    cases done : finishedSlots slots with
    | some gs =>
      rw [verifySlots_done done] at h
      cases h
      exact finishedSlots_eq_some done
    | none => simp [verifySlots, done] at h
  | succ fuel ih =>
    cases done : finishedSlots slots with
    | some gs =>
      rw [verifySlots_done done] at h
      cases h
      exact finishedSlots_eq_some done
    | none =>
      obtain ⟨few, step⟩ := verifySlots_step fuel done
      obtain ⟨next, passed, rest⟩ := (step fs).mp h
      have valid' : ∀ slot ∈ next, slot.Valid := by
        intro slot' inside
        obtain ⟨slot, member, pass⟩ := exists_left_of_mem passed inside
        exact ((settled_pass few (valid slot member)).2 slot' pass).1
      have both := forall₂_comp.mp ⟨next, (List.forall₂_and_left _ _).mpr ⟨valid, passed⟩,
        ih valid' rest⟩
      refine both.imp ?_
      rintro slot f ⟨next, ⟨valid, pass⟩, same⟩
      rw [(settled_pass few valid).1, pass]
      exact same

/-- The loop returns if every slot settles. -/
theorem verifySlots_returns {fuel : Nat}
    (valid : ∀ slot ∈ slots, slot.Valid) (enough : ∀ slot ∈ slots, rowsLeft slot ≤ fuel)
    (settled : ∀ slot ∈ slots, slot.settled ≠ none) :
    ∃ fs, verifySlots fuel slots = (.ok fs : Except String _) := by
  induction fuel generalizing slots with
  | zero =>
    have all := finishedSlots_of_rows valid fun slot hs => Nat.le_zero.mp (enough slot hs)
    obtain ⟨fs, done⟩ := Option.ne_none_iff_exists'.mp all
    exact ⟨fs, verifySlots_done done⟩
  | succ fuel ih =>
    cases done : finishedSlots slots with
    | some gs => exact ⟨gs, verifySlots_done done⟩
    | none =>
      obtain ⟨few, step⟩ := verifySlots_step fuel done
      have passes : ∀ slot ∈ slots, ∃ next, passSlot few slot = .ok next := by
        intro slot member
        cases pass : passSlot few slot with
        | ok next => exact ⟨next, rfl⟩
        | error e =>
          have same := (settled_pass few (valid slot member)).1
          rw [pass] at same
          exact absurd same (settled slot member)
      obtain ⟨next, passed⟩ := exists_forall₂ passes
      have kept : ∀ slot' ∈ next, slot'.Valid ∧ rowsLeft slot' ≤ fuel ∧ slot'.settled ≠ none := by
        intro slot' inside
        obtain ⟨slot, member, pass⟩ := exists_left_of_mem passed inside
        obtain ⟨same, fewer⟩ := settled_pass few (valid slot member)
        have rows := enough slot member
        have some_ := settled slot member
        rw [same, pass] at some_
        exact ⟨(fewer slot' pass).1, (fewer slot' pass).2.trans (by omega), some_⟩
      obtain ⟨fs, rest⟩ := ih (fun s inside => (kept s inside).1) (fun s inside => (kept s inside).2.1)
        fun s inside => (kept s inside).2.2
      exact ⟨fs, (step fs).mpr ⟨next, passed, rest⟩⟩

/-! ## The slot of a request -/

/-- What `startStep` fixes for the whole step. -/
structure Started (p : PreparedStep Γ F G) (r : StepRequest (Except String) D Γ F G Hidden) :
    Prop where
  position : p.position = r.position
  eos : p.eos = r.eos
  targetOnly : p.targetOnly = false
  chunkLimit : p.chunkLimit = none
  verifiedRows : p.verifiedRows = 0
  acceptedCount : p.acceptedCount = 0
  working : p.workingSampler.isSome = p.sampled
  random : p.randomSampling = true → p.sampled = true

variable {r : StepRequest (Except String) D Γ F G Hidden}

theorem startStep_started (h : startStep r = (.ok p : Except String _)) : Started p r := by
  simp only [startStep, bind_eq_ok] at h
  obtain ⟨-, -, h⟩ := h
  split at h
  · cases h
  · simp only [pure_eq_ok] at h
    subst h
    refine ⟨rfl, rfl, rfl, rfl, rfl, rfl, ?_, fun random => ?_⟩
    · split <;> simp_all
    · simp only at random
      simp [random]

theorem Started.proposed {b : Drafter (Except String) D Γ F G Hidden}
    (h : Started p r)
    (proposed : proposeForRequest b p r v = (.ok (p', v') : Except String _)) : Started p' r := by
  unfold proposeForRequest at proposed
  split at proposed
  · next random =>
    simp only [bind_eq_ok, pure_eq_ok, Prod.mk.injEq] at proposed
    obtain ⟨_, -, rfl, -⟩ := proposed
    exact ⟨h.position, h.eos, h.targetOnly, h.chunkLimit, h.verifiedRows, h.acceptedCount,
      (h.random random).symm, h.random⟩
  · simp only [bind_eq_ok, pure_eq_ok, Prod.mk.injEq] at proposed
    obtain ⟨_, -, rfl, -⟩ := proposed
    exact ⟨h.position, h.eos, h.targetOnly, h.chunkLimit, h.verifiedRows, h.acceptedCount,
      h.working, h.random⟩

/-! ## A single target row -/

/-- The prepared step of a single target row. -/
def deferred (p : PreparedStep Γ F G) (r : StepRequest (Except String) D Γ F G Hidden)
    (v : Verifier (Except String) D Γ F G Hidden) : PreparedStep Γ F G :=
  { p with
    targetOnly := true
    inputs := [r.currentToken]
    captureHidden := v.requiresHidden
    captureLogits := (p.sampled || v.options.retainFrontierLogits ||
      r.sampler.config.logprobs.isSome) && !v.target.deviceResident }

theorem prepareTargetOnlyStep_deferred :
    prepareTargetOnlyStep p r v true = (.ok (.inl (deferred p r v)) : Except String _) := rfl

/-- The backend after a target row was appended to its context. -/
def Verifier.contextDraft (v : Verifier (Except String) D Γ F G Hidden)
    (context : DraftTargetContext Hidden) (position : Nat) : Except String D :=
  match v.drafter with
  | some b =>
    if (b.appendTargetContext v.draft context position).1 then
      pure (b.appendTargetContext v.draft context position).2
    else throw "draft failed to append committed target token"
  | none => pure v.draft

theorem appendTargetContext_eq {context : DraftTargetContext Hidden} :
    v.appendTargetContext context position =
      v.contextDraft context position >>= fun draft => pure { v with draft } := by
  obtain ⟨target, drafter, options, executor, draft, stats, length, rolling⟩ := v
  cases drafter with
  | none => rfl
  | some b =>
    simp only [Verifier.appendTargetContext, Verifier.contextDraft]
    cases (b.appendTargetContext draft context position).1 <;> rfl

/-- The backend after the row of the current token. -/
def rowDraft (v : Verifier (Except String) D Γ F G Hidden) (current : TokenId) (position : Nat) :
    Except String D :=
  let tokens := v.executor.tokens ++ [current]
  if v.requiresHidden then
    v.contextDraft ⟨[current], [v.target.hidden tokens], v.target.predict tokens⟩ position
  else pure v.draft

/-- The token a single row gives. -/
def rowToken (t : Target F Hidden) (p : PreparedStep Γ F G) (tokens : List TokenId)
    (working : SamplerState Γ F G) : Except String (TokenId × SamplerState Γ F G) :=
  if p.sampled then selectAt t tokens working else pure (t.predict tokens, working)

/-- The end of a step without drafts. -/
def rowFinished (r : StepRequest (Except String) D Γ F G Hidden)
    (v : Verifier (Except String) D Γ F G Hidden) (logits : Option (Row F)) (next : TokenId)
    (working : SamplerState Γ F G) : Except String (Finished (Except String) D Γ F G Hidden) := do
  let logprobs ← logprobsOf r.sampler.config.logprobs logits next
  return {
    result :=
      { emittedTokens := [next]
        nextToken := next
        nextTokenLogits := if v.options.retainFrontierLogits then logits else none
        hitEos := v.isStopToken next r.eos
        logprobs }
    verifier := v.count 0 0 1
    sampler := r.sampler.setRngState working.rng }

/-- A step without drafts, with the rows the executor holds after it. -/
def targetRow (p : PreparedStep Γ F G) (r : StepRequest (Except String) D Γ F G Hidden)
    (v : Verifier (Except String) D Γ F G Hidden) (rows : List (List TokenId)) :
    Except String (Finished (Except String) D Γ F G Hidden) := do
  let tokens := v.executor.tokens ++ [r.currentToken]
  let draft ← rowDraft v r.currentToken r.position
  let (next, working) ← rowToken v.target p tokens (p.workingSampler.getD r.sampler)
  rowFinished r { v.holding tokens rows with draft } (some (v.target.logits tokens)) next working

theorem advanceCommittedToken_eq {current : TokenId}
    (placed : position = v.executor.tokens.length) :
    v.advanceCommittedToken current position =
      rowDraft v current position >>= fun draft =>
        (pure (v.target.predict (v.executor.tokens ++ [current]),
          { v.holding (v.executor.tokens ++ [current]) v.executor.rows with draft }) :
          Except String _) := by
  unfold Verifier.advanceCommittedToken Executor.forwardToken rowDraft
  simp only [placed, if_true, pure_bind, appendTargetContext_eq, bind_assoc]
  cases requires : v.requiresHidden with
  | true =>
    simp only [Verifier.requiresHidden] at requires
    simp only [Verifier.requiresHidden, requires, if_true]
    rfl
  | false =>
    simp only [Verifier.requiresHidden] at requires
    simp only [Verifier.requiresHidden, requires, Bool.false_eq_true, if_false]
    rfl

theorem prepareTargetOnlyStep_immediate (placed : r.position = v.executor.tokens.length) :
    prepareTargetOnlyStep p r v false =
      targetRow p r v v.executor.rows >>= fun f => (pure (.inr f) : Except String _) := by
  simp only [prepareTargetOnlyStep, targetRow, advanceCommittedToken_eq placed, bind_assoc,
    pure_bind, Bool.false_eq_true, if_false]
  refine bind_congr fun draft => ?_
  cases sampled : p.sampled with
  | false =>
    simp only [rowToken, sampled, Bool.false_eq_true, if_false, pure_bind, rowFinished, bind_assoc]
    rfl
  | true =>
    simp only [rowToken, selectAt, sampled, if_true, bind_assoc, rowFinished]
    refine bind_congr fun selectable => ?_
    cases selectable with
    | true =>
      rfl
    | false =>
      rfl

/-- The logits of a single row are shown to whoever needs them. -/
theorem shownLogits_deferred
    (needed : (p.sampled || v.options.retainFrontierLogits || r.sampler.config.logprobs.isSome) =
      true) :
    shownLogits v.target (deferred p r v) tokens = some (v.target.logits tokens) := by
  cases device : v.target.deviceResident with
  | true => simp [shownLogits, v.target.device_retains device]
  | false => simp [shownLogits, deferred, needed, device]

theorem rowFinished_shown {next : TokenId}
    {w : Verifier (Except String) D Γ F G Hidden} (options : w.options = v.options) :
    rowFinished r w (shownLogits v.target (deferred p r v) tokens) next working =
      rowFinished r w (some (v.target.logits tokens)) next working := by
  cases needed : (p.sampled || v.options.retainFrontierLogits || r.sampler.config.logprobs.isSome) with
  | true => rw [shownLogits_deferred needed]
  | false =>
    simp only [Bool.or_eq_false_iff, Option.isSome_eq_false_iff, Option.isNone_iff_eq_none] at needed
    simp [rowFinished, options, needed, logprobsOf]

theorem processTargetOnly_deferred (position : p.position = r.position) (eos : p.eos = r.eos) :
    processTargetOnly (deferred p r v) (chunkOf v.target (deferred p r v).captureHidden
        (deferred p r v).captureLogits [v.executor.tokens ++ [r.currentToken]])
      (v.holding (v.executor.tokens ++ [r.currentToken]) [v.executor.tokens ++ [r.currentToken]])
      r.sampler =
      (targetRow p r v [v.executor.tokens ++ [r.currentToken]] : Except String _) := by
  generalize tokens_eq : v.executor.tokens ++ [r.currentToken] = tokens
  have selected (draft : D) (sampled : p.sampled = true) :
      selectRow { v.holding tokens [tokens] with draft } (chunkOf v.target
          (deferred p r v).captureHidden (deferred p r v).captureLogits [tokens]) 0
          (p.workingSampler.getD r.sampler) =
        (selectAt v.target tokens (p.workingSampler.getD r.sampler) : Except String _) := by
    refine selectRow_eq (v := { v.holding tokens [tokens] with draft }) rfl rfl fun device => ?_
    have host : v.target.deviceResident = false := device
    simp [deferred, sampled, host]
  have finished (draft : D) (next : TokenId) (after : SamplerState Γ F G) :
      rowFinished r { v.holding tokens [tokens] with draft } (rowLogits
          { v.holding tokens [tokens] with draft } (deferred p r v) (chunkOf v.target
            (deferred p r v).captureHidden (deferred p r v).captureLogits [tokens]) 0) next after =
        rowFinished r { v.holding tokens [tokens] with draft } (some (v.target.logits tokens)) next
          after := by
    have shown : rowLogits { v.holding tokens [tokens] with draft } (deferred p r v) (chunkOf v.target
        (deferred p r v).captureHidden (deferred p r v).captureLogits [tokens]) 0 =
        shownLogits v.target (deferred p r v) tokens :=
      rowLogits_eq (v := { v.holding tokens [tokens] with draft }) rfl rfl
    refine (congrArg (rowFinished r { v.holding tokens [tokens] with draft } · next after)
      shown).trans (rowFinished_shown rfl)
  have capture : (deferred p r v).captureHidden = v.requiresHidden := rfl
  have next (draft : D) : (if p.sampled then
        selectRow { v.holding tokens [tokens] with draft } (chunkOf v.target
          (deferred p r v).captureHidden (deferred p r v).captureLogits [tokens]) 0
          (p.workingSampler.getD r.sampler) >>= fun x =>
          rowFinished r { v.holding tokens [tokens] with draft } (rowLogits
            { v.holding tokens [tokens] with draft } (deferred p r v) (chunkOf v.target
              (deferred p r v).captureHidden (deferred p r v).captureLogits [tokens]) 0) x.1 x.2
      else rowFinished r { v.holding tokens [tokens] with draft } (rowLogits
            { v.holding tokens [tokens] with draft } (deferred p r v) (chunkOf v.target
              (deferred p r v).captureHidden (deferred p r v).captureLogits [tokens]) 0)
            (v.target.predict tokens) (p.workingSampler.getD r.sampler)) =
      rowToken v.target p tokens (p.workingSampler.getD r.sampler) >>= fun x =>
        rowFinished r { v.holding tokens [tokens] with draft } (some (v.target.logits tokens)) x.1
          x.2 := by
    unfold rowToken
    cases sampled : p.sampled with
    | true =>
      rw [if_pos rfl, if_pos rfl, selected draft sampled]
      exact bind_congr fun x => finished draft x.1 x.2
    | false =>
      exact finished draft _ _
  have place : (deferred p r v).position = r.position := position
  have stops : (deferred p r v).eos = r.eos := eos
  unfold targetRow rowDraft
  simp only [tokens_eq]
  cases requires : v.requiresHidden with
  | true =>
    rw [requires] at capture
    simp only [processTargetOnly, capture, if_true, appendTargetContext_eq, bind_assoc, pure_bind,
      place, stops]
    exact bind_congr fun draft => next draft
  | false =>
    rw [requires] at capture
    simp only [processTargetOnly, capture, Bool.false_eq_true, if_false, pure_bind, stops]
    exact next v.draft

/-- What is observed of a single row does not depend on the rows the executor holds. -/
theorem observation_targetRow {rows rows' : List (List TokenId)} :
    observation (targetRow p r v rows) = observation (targetRow p r v rows') := by
  simp only [targetRow, rowFinished]
  cases (rowDraft v r.currentToken r.position : Except String D) with
  | error e => rfl
  | ok draft =>
    cases (rowToken v.target p (v.executor.tokens ++ [r.currentToken])
        (p.workingSampler.getD r.sampler) : Except String (TokenId × SamplerState Γ F G)) with
    | error e => rfl
    | ok x =>
      simp only [Outcome.ok_bind]
      cases (logprobsOf r.sampler.config.logprobs (some (v.target.logits
          (v.executor.tokens ++ [r.currentToken]))) x.1 :
          Except String (List (TokenLogprobs F))) <;> rfl

/-- The rest of `VerifyStep` after `PrepareStep`. -/
def finishPrepared (r : StepRequest (Except String) D Γ F G Hidden)
    (prepared : PreparedStep Γ F G × Verifier (Except String) D Γ F G Hidden ⊕
      Finished (Except String) D Γ F G Hidden) :
    Except String (Finished (Except String) D Γ F G Hidden) :=
  match prepared with
  | .inr finished => pure finished
  | .inl (p, v) => finishRows p v r.sampler

theorem single_valid (h : Started p r) : (Slot.running (deferred p r v) v r.sampler).Valid :=
  .single (fun n given => absurd (h.chunkLimit.symm.trans given) (by simp)) rfl h.verifiedRows
    ⟨r.currentToken, rfl⟩

/-- A single row settles now as it does when it is deferred. -/
theorem single_settled (h : Started p r) :
    observation (prepareTargetOnlyStep p r v false >>= fun
        | .inl p => finishPrepared r (.inl (p, v))
        | .inr f => finishPrepared r (.inr f)) =
      (Slot.running (deferred p r v) v r.sampler).settled := by
  have row : (deferred p r v).verifiedRows = 0 := h.verifiedRows
  have place : (deferred p r v).position = r.position := h.position
  have input : (deferred p r v).inputs = [r.currentToken] := rfl
  by_cases placed : r.position = v.executor.tokens.length
  · have rows : ({ deferred p r v with chunkLimit := none } : PreparedStep Γ F G).chunkRows = 1 := by
      simp [PreparedStep.chunkRows, row, input]
    have processed : (processVerificationChunk { deferred p r v with chunkLimit := none }
        (chunkOf v.target (deferred p r v).captureHidden (deferred p r v).captureLogits
          [v.executor.tokens ++ [r.currentToken]])
        (v.holding (v.executor.tokens ++ [r.currentToken]) [v.executor.tokens ++ [r.currentToken]])
        r.sampler : Except String _) =
        targetRow p r v [v.executor.tokens ++ [r.currentToken]] >>= fun f => pure (.inr f) :=
      (process_single (p := { deferred p r v with chunkLimit := none }) rfl rows).trans
        (congrArg (· >>= _) (processTargetOnly_deferred h.position h.eos))
    have whole : finishRows (deferred p r v) v r.sampler =
        targetRow p r v [v.executor.tokens ++ [r.currentToken]] := by
      have forwarded : v.executor.forwardVerificationChunk v.target (deferred p r v).captureHidden
          (deferred p r v).captureLogits ((deferred p r v).inputs.drop (deferred p r v).verifiedRows)
          ((deferred p r v).position + (deferred p r v).verifiedRows) =
          (.ok (chunkOf v.target (deferred p r v).captureHidden (deferred p r v).captureLogits
            [v.executor.tokens ++ [r.currentToken]],
            { v.executor with
              tokens := v.executor.tokens ++ [r.currentToken]
              rows := [v.executor.tokens ++ [r.currentToken]] }) : Except String _) := by
        rw [input, row, place, List.drop_zero, Nat.add_zero]
        exact forward_single placed
      simp only [finishRows, forwarded, Outcome.ok_bind]
      refine (congrArg (· >>= _) processed).trans ?_
      simp
    rw [prepareTargetOnlyStep_immediate placed, bind_assoc, Slot.settled, whole]
    simp only [pure_bind, finishPrepared, bind_pure]
    exact observation_targetRow
  · have away : (deferred p r v).position ≠ v.executor.tokens.length := by rwa [place]
    obtain ⟨message, thrown⟩ := forwardVerificationChunk_misplaced v.target
      (deferred p r v).captureHidden (deferred p r v).captureLogits
      (List.cons_ne_nil r.currentToken []) away
    have refused : prepareTargetOnlyStep p r v false =
        (.error "position is not the frontier" : Except String _) := by
      simp only [prepareTargetOnlyStep, Verifier.advanceCommittedToken, Executor.forwardToken,
        if_neg placed, Bool.false_eq_true, if_false]
      rfl
    rw [refused, Slot.settled, finishRows, input, row, List.drop_zero, Nat.add_zero, thrown]
    rfl

/-- The slot a prepared request starts with. -/
def toSlot (r : StepRequest (Except String) D Γ F G Hidden)
    (prepared : PreparedStep Γ F G × Verifier (Except String) D Γ F G Hidden ⊕
      Finished (Except String) D Γ F G Hidden) : Slot (Except String) D Γ F G Hidden :=
  match prepared with
  | .inl (p, v) => .running p v r.sampler
  | .inr f => .finished f

/-- What a computation that starts a slot settles to. -/
def settlement (x : Except String (Slot (Except String) D Γ F G Hidden)) :
    Option (Finished (Except String) D Γ F G Hidden) :=
  match x with
  | .ok slot => slot.settled
  | .error _ => none

theorem prepareProposalVerification_empty (empty : p.proposal.tokens.isEmpty = true) (defer : Bool) :
    prepareProposalVerification p r v defer =
      prepareTargetOnlyStep p r v defer >>= fun
        | .inl p => pure (.inl (p, v))
        | .inr f => (pure (.inr f) : Except String _) := by
  simp only [prepareProposalVerification, empty, if_true]
  refine bind_congr fun prepared => ?_
  cases prepared <;> rfl

theorem prepareProposalVerification_some {prepared : PreparedStep Γ F G ×
      Verifier (Except String) D Γ F G Hidden ⊕ Finished (Except String) D Γ F G Hidden}
    (some_ : p.proposal.tokens.isEmpty = false) {defer : Bool}
    (done : prepareProposalVerification p r v defer = (.ok prepared : Except String _)) :
    ∃ probabilities, prepared = .inl ({ p with
      tokenProbabilities := probabilities
      inputs := r.currentToken :: p.proposal.tokens
      captureHidden := v.requiresHidden
      captureLogits := (p.sampled || r.sampler.config.logprobs.isSome) && !v.target.deviceResident },
      { v with executor := v.executor.saveState }) := by
  simp only [prepareProposalVerification, some_, Bool.false_eq_true, if_false] at done
  split at done
  · cases done
  split at done
  · cases done
  split at done
  · simp only [bind_eq_ok, pure_eq_ok] at done
    obtain ⟨probabilities, -, rfl⟩ := done
    exact ⟨probabilities, rfl⟩
  · simp only [pure_bind, pure_eq_ok] at done
    exact ⟨_, done.symm⟩

theorem prepareProposalVerification_defer (some_ : p.proposal.tokens.isEmpty = false) :
    prepareProposalVerification p r v false = (prepareProposalVerification p r v true :
      Except String _) := by
  simp [prepareProposalVerification, some_]

/-- A checked proposal waits for its rows. -/
theorem Started.underway (h : Started p r) (inputs : p.inputs = r.currentToken :: p.proposal.tokens)
    (captured : p.captureLogits =
      ((p.sampled || r.sampler.config.logprobs.isSome) && !v.target.deviceResident)) :
    Underway p { v with executor := v.executor.saveState } v.executor.tokens where
  proposal := h.targetOnly
  inputs := ⟨r.currentToken, inputs⟩
  within := by simp [h.verifiedRows]
  accepted := by rw [h.acceptedCount, h.verifiedRows]
  tokens := by simp [h.verifiedRows, Executor.saveState]
  saved := rfl
  sampled := fun device sampled => by
    have host : v.target.deviceResident = false := device
    simp [captured, sampled, host]
  working := h.working

/-- A proposal's slot settles to what `VerifyStep` does with the proposal. -/
theorem proposal_settled (h : Started p r) :
    observation (prepareProposalVerification p r v false >>= finishPrepared r) =
        settlement (prepareProposalVerification p r v true >>= fun prepared =>
          pure (toSlot r prepared)) ∧
      ∀ prepared, prepareProposalVerification p r v true = (.ok prepared : Except String _) →
        (toSlot r prepared).Valid := by
  cases empty : p.proposal.tokens.isEmpty with
  | true =>
    rw [prepareProposalVerification_empty empty, prepareProposalVerification_empty empty,
      prepareTargetOnlyStep_deferred]
    refine ⟨?_, fun prepared done => ?_⟩
    · refine Eq.trans (congrArg observation ?_) (single_settled h)
      rw [bind_assoc]
      refine bind_congr fun prepared => ?_
      cases prepared <;> rfl
    · cases done
      exact single_valid h
  | false =>
    rw [prepareProposalVerification_defer empty]
    cases done : (prepareProposalVerification p r v true : Except String _) with
    | error e => exact ⟨rfl, fun prepared other => by cases other⟩
    | ok prepared =>
      obtain ⟨probabilities, rfl⟩ := prepareProposalVerification_some empty done
      refine ⟨rfl, fun prepared same => ?_⟩
      cases same
      refine .proposal (fun n given => absurd (h.chunkLimit.symm.trans given) (by simp))
        ⟨v.executor.tokens, ?_⟩
      exact Started.underway ⟨h.position, h.eos, h.targetOnly, h.chunkLimit, h.verifiedRows,
        h.acceptedCount, h.working, h.random⟩ rfl rfl

/-- The slot a request of a batch starts with. -/
def startSlot (r : StepRequest (Except String) D Γ F G Hidden) :
    Except String (Slot (Except String) D Γ F G Hidden) := do
  r.sampler.config.validate
  prepareOpened r (← proposeOpened r (← openRequest r))

theorem prepareTargetOnlyStep_false {next : PreparedStep Γ F G} :
    prepareTargetOnlyStep p r v false ≠ (.ok (.inl next) : Except String _) := by
  intro done
  by_cases placed : r.position = v.executor.tokens.length
  · simp only [prepareTargetOnlyStep_immediate placed, bind_eq_ok, pure_eq_ok] at done
    obtain ⟨f, -, other⟩ := done
    cases other
  · simp only [prepareTargetOnlyStep, Verifier.advanceCommittedToken, Executor.forwardToken,
      if_neg placed, Bool.false_eq_true, if_false] at done
    cases done

theorem prepareProposalVerification_fresh {next : PreparedStep Γ F G}
    (h : Started p r)
    (done : prepareProposalVerification p r v false = (.ok (.inl (next, v')) : Except String _)) :
    next.verifiedRows = 0 ∧ next.chunkLimit = none := by
  cases empty : p.proposal.tokens.isEmpty with
  | true =>
    rw [prepareProposalVerification_empty empty, bind_eq_ok] at done
    obtain ⟨prepared, single, done⟩ := done
    cases prepared with
    | inl single' => exact absurd single prepareTargetOnlyStep_false
    | inr f => cases done
  | false =>
    obtain ⟨probabilities, same⟩ := prepareProposalVerification_some empty done
    cases same
    exact ⟨h.verifiedRows, h.chunkLimit⟩

/-- A prepared step has verified nothing and has no limit. -/
theorem prepareStep_fresh (done : prepareStep r = (.ok (.inl (p, v)) : Except String _)) :
    p.verifiedRows = 0 ∧ p.chunkLimit = none := by
  rw [prepareStep, bind_eq_ok] at done
  obtain ⟨start, started, done⟩ := done
  split at done
  · rw [bind_eq_ok] at done
    obtain ⟨⟨proposal, after⟩, proposed, done⟩ := done
    exact prepareProposalVerification_fresh ((startStep_started started).proposed proposed) done
  · rw [bind_eq_ok] at done
    obtain ⟨prepared, single, done⟩ := done
    cases prepared with
    | inl single' => exact absurd single prepareTargetOnlyStep_false
    | inr f => cases done

/-- What is not sequential is the preparation and the rest. -/
theorem verifyStep_eq (validated : r.sampler.config.validate = .ok ⟨⟩)
    (batched : (!r.verifier.options.useBatchedVerification &&
      r.sampler.config.canUseUnmodifiedArgmax) = false) :
    verifyStep r = prepareStep r >>= finishPrepared r := by
  simp only [verifyStep, ofExcept_eq, validated, Outcome.ok_bind, batched, Bool.false_eq_true,
    if_false]
  cases prepared : (prepareStep r : Except String _) with
  | error e => rfl
  | ok prepared_ =>
    cases prepared_ with
    | inr f => rfl
    | inl x =>
      obtain ⟨p, v⟩ := x
      obtain ⟨rows, limit⟩ := prepareStep_fresh prepared
      have same : ({ p with chunkLimit := none } : PreparedStep Γ F G) = p := by
        rw [← limit]
      simp only [Outcome.ok_bind, finishPrepared, finishRows, same]
      simp only [rows, List.drop_zero, Nat.add_zero]
      refine bind_congr fun answer => bind_congr fun done => ?_
      cases done <;> rfl

theorem startSlot_eq (validated : r.sampler.config.validate = .ok ⟨⟩)
    (batched : (!r.verifier.options.useBatchedVerification &&
      r.sampler.config.canUseUnmodifiedArgmax) = false) :
    startSlot r = startStep r >>= fun p =>
      match r.verifier.drafter, p.maxDraftTokens with
      | some b, _ + 1 => proposeForRequest b p r r.verifier >>= fun proposed =>
          prepareProposalVerification proposed.1 r proposed.2 true >>= fun prepared =>
            pure (toSlot r prepared)
      | _, _ => pure (toSlot r (.inl (deferred p r r.verifier, r.verifier))) := by
  simp only [startSlot, validated, openRequest, batched, Bool.false_eq_true, if_false,
    Outcome.ok_bind, bind_assoc]
  refine bind_congr fun p => ?_
  cases r.verifier.drafter with
  | none => rfl
  | some b =>
    cases p.maxDraftTokens with
    | zero => rfl
    | succ n =>
      simp only [pure_bind, proposeOpened, prepareOpened, bind_assoc]
      refine bind_congr fun proposed => bind_congr fun prepared => ?_
      cases prepared <;> rfl

theorem prepareStep_eq :
    prepareStep r >>= finishPrepared r = startStep r >>= fun p =>
      match r.verifier.drafter, p.maxDraftTokens with
      | some b, _ + 1 => proposeForRequest b p r r.verifier >>= fun proposed =>
          prepareProposalVerification proposed.1 r proposed.2 false >>= finishPrepared r
      | _, _ => prepareTargetOnlyStep p r r.verifier false >>= fun
          | .inl p => finishPrepared r (.inl (p, r.verifier))
          | .inr f => finishPrepared r (.inr f) := by
  simp only [prepareStep, bind_assoc]
  refine bind_congr fun p => ?_
  cases r.verifier.drafter with
  | none =>
    simp only [bind_assoc]
    refine bind_congr fun prepared => ?_
    cases prepared <;> rfl
  | some b =>
    cases p.maxDraftTokens with
    | zero =>
      simp only [bind_assoc]
      refine bind_congr fun prepared => ?_
      cases prepared <;> rfl
    | succ n => simp

/-- A request alone settles to what its slot does. -/
theorem startSlot_settled :
    observation (verifyStep r) = settlement (startSlot r) ∧
      ∀ slot, startSlot r = .ok slot → slot.Valid := by
  cases validated : r.sampler.config.validate with
  | error e =>
    simp only [startSlot, verifyStep, validated, ofExcept_eq, error_bind]
    exact ⟨rfl, fun slot done => by cases done⟩
  | ok _ =>
  cases sequential : !r.verifier.options.useBatchedVerification &&
      r.sampler.config.canUseUnmodifiedArgmax with
  | true =>
    simp only [startSlot, verifyStep, validated, ofExcept_eq, openRequest, sequential, if_true,
      Outcome.ok_bind]
    cases (verifySequentialStep r : Except String _) with
    | error e => exact ⟨rfl, fun slot done => by cases done⟩
    | ok f =>
      refine ⟨rfl, fun slot done => ?_⟩
      cases done
      exact .finished f
  | false =>
    rw [verifyStep_eq validated sequential, startSlot_eq validated sequential, prepareStep_eq]
    cases started : (startStep r : Except String _) with
    | error e => exact ⟨rfl, fun slot done => by cases done⟩
    | ok p =>
      have start := startStep_started started
      have single : settlement (pure (toSlot r (.inl (deferred p r r.verifier, r.verifier)))) =
            (Slot.running (deferred p r r.verifier) r.verifier r.sampler).settled ∧
          ∀ slot, (pure (toSlot r (.inl (deferred p r r.verifier, r.verifier))) : Except String _) =
            .ok slot → slot.Valid := by
        refine ⟨rfl, fun slot done => ?_⟩
        cases done
        exact single_valid start
      simp only [Outcome.ok_bind]
      cases r.verifier.drafter with
      | none => exact ⟨single_settled start, single.2⟩
      | some b =>
        cases p.maxDraftTokens with
        | zero => exact ⟨single_settled start, single.2⟩
        | succ n =>
          dsimp only
          cases proposed : (proposeForRequest b p r r.verifier : Except String _) with
          | error e => exact ⟨rfl, fun slot done => by cases done⟩
          | ok next =>
            have settled := proposal_settled (v := next.2) (start.proposed proposed)
            refine ⟨settled.1, fun slot done => ?_⟩
            simp only [Outcome.ok_bind, bind_eq_ok, pure_eq_ok] at done
            obtain ⟨prepared, checked, rfl⟩ := done
            exact settled.2 prepared checked

/-! ## The batch -/

theorem settled_limitChunk (slot : Slot (Except String) D Γ F G Hidden) :
    (limitChunk slot).settled = slot.settled := by
  cases slot <;> rfl

theorem rowsLeft_limitChunk (slot : Slot (Except String) D Γ F G Hidden) :
    rowsLeft (limitChunk slot) = rowsLeft slot := by
  cases slot <;> rfl

theorem Slot.Valid.limited {slot : Slot (Except String) D Γ F G Hidden} (h : slot.Valid) :
    (limitChunk slot).Valid := by
  have positive {p : PreparedStep Γ F G} {low : Bool} (limit : ∀ n, p.chunkLimit = some n → 0 < n)
      (n : Nat) (given : (if low then some 2 else p.chunkLimit) = some n) : 0 < n := by
    cases low with
    | true =>
      cases given
      exact Nat.two_pos
    | false => exact limit n given
  cases h with
  | finished f => exact .finished f
  | single limit only rows input => exact .single (positive limit) only rows input
  | proposal limit underway =>
    obtain ⟨base, underway⟩ := underway
    exact .proposal (positive limit) ⟨base, underway.limit _ _⟩

variable {requests : List (StepRequest (Except String) D Γ F G Hidden)}

/-- Every request starts its slot; the slots are verified together. -/
theorem verifyBatch_eq_ok
    (many : requests.length ≠ 1) :
    verifyBatch requests = .ok fs ↔
      ∃ slots, List.Forall₂ (fun r slot => startSlot r = .ok slot) requests slots ∧
        verifySlots (slots.map rowsLeft).sum (slots.map limitChunk) = (.ok fs : Except String _) := by
  have batch : verifyBatch requests = (do
      requests.forM fun r => MonadExcept.ofExcept r.sampler.config.validate
      let opened ← requests.mapM fun r => do return (r, ← openRequest r)
      let proposed ← opened.mapM fun (r, o) => do return (r, ← proposeOpened r o)
      let slots ← proposed.mapM fun (r, o) => prepareOpened r o
      verifySlots (slots.map rowsLeft).sum (slots.map limitChunk) : Except String _) := by
    match requests, many with
    | [], _ => rfl
    | _ :: _ :: _, _ => rfl
  have start (r : StepRequest (Except String) D Γ F G Hidden)
      (slot : Slot (Except String) D Γ F G Hidden) :
      startSlot r = .ok slot ↔ r.sampler.config.validate = .ok ⟨⟩ ∧
        ∃ opened : StepRequest (Except String) D Γ F G Hidden × Opened (Except String) D Γ F G Hidden,
          (openRequest r >>= fun o => pure (r, o)) = .ok opened ∧
          ∃ proposed : StepRequest (Except String) D Γ F G Hidden ×
              Opened (Except String) D Γ F G Hidden,
            (proposeOpened opened.1 opened.2 >>= fun o => pure (opened.1, o)) = .ok proposed ∧
              prepareOpened proposed.1 proposed.2 = .ok slot := by
    simp only [startSlot, bind_eq_ok, pure_eq_ok]
    constructor
    · rintro ⟨⟨⟩, validated, o, opened, o', proposed, prepared⟩
      exact ⟨validated, (r, o), ⟨o, opened, rfl⟩, (r, o'), ⟨o', proposed, rfl⟩, prepared⟩
    · rintro ⟨validated, _, ⟨o, opened, rfl⟩, _, ⟨o', proposed, rfl⟩, prepared⟩
      exact ⟨⟨⟩, validated, o, opened, o', proposed, prepared⟩
  have checks : requests.forM (fun r => (MonadExcept.ofExcept r.sampler.config.validate :
      Except String Unit)) = .ok ⟨⟩ ↔ ∀ r ∈ requests, r.sampler.config.validate = .ok ⟨⟩ := by
    simp only [ofExcept_eq]
    exact forM_eq_ok
  simp only [batch, start, bind_eq_ok, mapM_eq_ok, List.forall₂_and_left, ← forall₂_comp]
  constructor
  · rintro ⟨_, validated, opened, first, proposed, second, slots, third, verified⟩
    exact ⟨slots, ⟨checks.mp validated, opened, first, proposed, second, third⟩, verified⟩
  · rintro ⟨slots, ⟨validated, opened, first, proposed, second, third⟩, verified⟩
    exact ⟨⟨⟩, checks.mpr validated, opened, first, proposed, second, slots, third, verified⟩

/-- What is observed of a batch. -/
def observations (x : Except String (List (Finished (Except String) D Γ F G Hidden))) :
    Option (List (Finished (Except String) D Γ F G Hidden)) :=
  match x with
  | .ok fs => some (fs.map Finished.observed)
  | .error _ => none

/-- The slots of a batch are valid and settle to what the requests do alone. -/
theorem slots_alone
    (started : List.Forall₂ (fun r slot => startSlot r = .ok slot) requests slots) :
    List.Forall₂ (fun r slot => slot.Valid ∧ slot.settled = observation (verifyStep r)) requests
      slots := by
  refine started.imp fun r slot start => ⟨startSlot_settled.2 slot start, ?_⟩
  rw [startSlot_settled.1, start]
  rfl

/-- A batch that returns gives every request what it gets alone. -/
theorem verifyBatch_alone
    (many : requests.length ≠ 1)
    (done : verifyBatch requests = .ok fs) :
    List.Forall₂ (fun r f => observation (verifyStep r) = some f.observed) requests fs := by
  obtain ⟨slots, started, verified⟩ := (verifyBatch_eq_ok many).mp done
  have alone := slots_alone started
  have valid : ∀ slot ∈ slots.map limitChunk, slot.Valid := by
    intro limited member
    obtain ⟨slot, inside, rfl⟩ := List.mem_map.mp member
    obtain ⟨r, -, valid, -⟩ := exists_left_of_mem alone inside
    exact valid.limited
  have settled := List.forall₂_map_left_iff.mp (verifySlots_settled valid verified)
  refine (forall₂_comp.mp ⟨slots, alone, settled⟩).imp ?_
  rintro r f ⟨slot, ⟨-, same⟩, limited⟩
  rw [← same, ← settled_limitChunk, limited]

/-- A batch returns if every request's step alone does. -/
theorem verifyBatch_returns
    (many : requests.length ≠ 1) (alone : ∀ r ∈ requests, observation (verifyStep r) ≠ none) :
    ∃ fs, verifyBatch requests = .ok fs := by
  have starts : ∀ r ∈ requests, ∃ slot, startSlot r = .ok slot := by
    intro r member
    have returns := alone r member
    rw [startSlot_settled.1] at returns
    cases start : startSlot r with
    | ok slot => exact ⟨slot, rfl⟩
    | error e =>
      rw [start] at returns
      exact absurd rfl returns
  obtain ⟨slots, started⟩ := exists_forall₂ starts
  have kept : ∀ limited ∈ slots.map limitChunk,
      limited.Valid ∧ rowsLeft limited ≤ (slots.map rowsLeft).sum ∧ limited.settled ≠ none := by
    intro limited member
    obtain ⟨slot, inside, rfl⟩ := List.mem_map.mp member
    obtain ⟨r, requested, start⟩ := exists_left_of_mem started inside
    refine ⟨(startSlot_settled.2 slot start).limited, ?_, ?_⟩
    · rw [rowsLeft_limitChunk]
      exact List.single_le_sum (fun _ _ => Nat.zero_le _) _ (List.mem_map_of_mem inside)
    · have returns := alone r requested
      rw [startSlot_settled.1, start] at returns
      rw [settled_limitChunk]
      exact returns
  obtain ⟨fs, verified⟩ := verifySlots_returns (fun s inside => (kept s inside).1)
    (fun s inside => (kept s inside).2.1) fun s inside => (kept s inside).2.2
  exact ⟨fs, (verifyBatch_eq_ok many).mpr ⟨slots, started, verified⟩⟩

/-- `VerifyBatch` gives each request what `VerifyStep` gives it alone, and fails only if one of
these does. -/
theorem verifyBatch_isolated (requests : List (StepRequest (Except String) D Γ F G Hidden)) :
    observations (verifyBatch requests) = requests.mapM fun r => observation (verifyStep r) := by
  by_cases many : requests.length = 1
  · obtain ⟨r, rfl⟩ := List.length_eq_one_iff.mp many
    simp only [verifyBatch, List.mapM_cons, List.mapM_nil]
    cases (verifyStep r : Except String _) <;> rfl
  refine Option.ext fun gs => ?_
  have returned {fs : List (Finished (Except String) D Γ F G Hidden)}
      (done : verifyBatch requests = .ok fs) :
      (requests.mapM fun r => observation (verifyStep r)) = some (fs.map Finished.observed) :=
    option_mapM_eq_some.mpr (List.forall₂_map_right_iff.mpr (verifyBatch_alone many done))
  constructor
  · intro batch
    cases done : verifyBatch requests with
    | error e =>
      rw [done] at batch
      cases batch
    | ok fs =>
      rw [done] at batch
      cases batch
      exact returned done
  · intro alone
    have each := option_mapM_eq_some.mp alone
    obtain ⟨fs, done⟩ := verifyBatch_returns many fun r member => by
      obtain ⟨g, -, single⟩ := exists_right_of_mem each member
      rw [single]
      exact Option.some_ne_none g
    rw [done, ← alone, returned done]
    rfl

end

end Gufo.Speculative
