import Gufo.Speculative.Greedy
import Gufo.Speculative.Isolation

/-!
# Speculation without random sampling is lossless

Steps of any kind emit what the sampler gives one token at a time.

* `decode` is that decoding; `Follows` says which tokens it accepts.
* A step's drafts, correction, target and backend are related to it by `Emits`
  (`verifyStep_emits`).
* `run_lossless` is about whole runs.
-/

namespace Gufo.Speculative
open Outcome

set_option linter.unusedSectionVars false

section
variable {D Γ F G Hidden : Type} [LinearOrder F] [Zero F] [One F] [Add F] [Sub F] [Mul F] [Div F]
  [NatCast F] [Floating F] [Uniform (Except String) G F]
variable {t : Target F Hidden} {eos : TokenId} {p : PreparedStep Γ F G} {base : List TokenId}
  {tokens accepted : List TokenId} {s s' s'' last working : SamplerState Γ F G} {token : TokenId}

/-! ## One token at a time -/

/-- Decoding one token at a time, up to the first stop token: `Sample`, then `Accept`. -/
def decode (t : Target F Hidden) (eos : TokenId) :
    Nat → List TokenId → SamplerState Γ F G → Except String (List TokenId)
  | 0, _, _ => pure []
  | n + 1, tokens, s => do
    let (token, s) ← s.sample (t.logits tokens)
    if n = 0 || t.stops eos token then return [token]
    else return token :: (← decode t eos n (tokens ++ [token]) (← s.accept token))

/-- The decoding from `tokens` gives these tokens, none of them a stop token. -/
inductive Follows (t : Target F Hidden) (eos : TokenId) :
    List TokenId → SamplerState Γ F G → List TokenId → SamplerState Γ F G → Prop where
  | nil {tokens : List TokenId} {s : SamplerState Γ F G} : Follows t eos tokens s [] s
  | cons {tokens rest : List TokenId} {token : TokenId} {s s' s'' last : SamplerState Γ F G}
      (sampled : s.sample (t.logits tokens) = (.ok (token, s') : Except String _))
      (goes_on : t.stops eos token = false) (accepts : s'.accept token = .ok s'')
      (follows : Follows t eos (tokens ++ [token]) s'' rest last) :
      Follows t eos tokens s (token :: rest) last

theorem Follows.append {more : List TokenId} {after : SamplerState Γ F G}
    (h : Follows t eos tokens s accepted last)
    (h' : Follows t eos (tokens ++ accepted) last more after) :
    Follows t eos tokens s (accepted ++ more) after := by
  induction h with
  | nil => simpa using h'
  | cons sampled goes_on accepts _ ih =>
    exact .cons sampled goes_on accepts (ih (by simpa using h'))

variable {n : Nat}

/-- The decoding goes on after what it has accepted. -/
theorem Follows.decode {more : List TokenId} (h : Follows t eos tokens s accepted last)
    (some_ : n ≠ 0) (h' : decode t eos n (tokens ++ accepted) last = .ok more) :
    decode t eos (accepted.length + n) tokens s = .ok (accepted ++ more) := by
  induction h with
  | nil => simpa using h'
  | @cons tokens rest token s s' s'' last sampled goes_on accepts _ ih =>
    have tail := ih (by simpa using h')
    have next : (token :: rest).length + n = rest.length + n + 1 := by
      rw [List.length_cons]
      omega
    rw [next, Speculative.decode, sampled, Outcome.ok_bind]
    have left : ¬((decide (rest.length + n = 0) || t.stops eos token) = true) := by
      simp [goes_on, some_]
    simp only [if_neg left, accepts, Outcome.ok_bind, tail]
    rfl

theorem decode_one (sampled : s.sample (t.logits tokens) = (.ok (token, s') : Except String _)) :
    decode t eos 1 tokens s = .ok [token] := by
  simp [decode, sampled, Outcome.ok_bind, pure, Except.pure]

theorem Follows.kept (h : s.config.Deterministic) (settled : s.Settled)
    (follows : Follows t eos tokens s accepted last) : s.Kept last := by
  induction follows with
  | nil => exact .refl _
  | cons sampled _ accepts _ ih =>
    cases sample_same h settled sampled
    have kept := accept_kept accepts
    exact kept.trans (ih (kept.config ▸ h) (kept.settled settled))

/-! ## The loop over the drafts -/

/-- The target's rows fit the sampler. -/
def FitsAll (c : SamplingConfig Γ F) (t : Target F Hidden) : Prop :=
  ∀ tokens, Fits c (t.logits tokens) (t.predict tokens)

/-- Nothing modifies a row unless the step is a sampled one. -/
structure Plain (c : SamplingConfig Γ F) : Prop where
  constraint : c.constraint = none
  budget : c.reasoningBudget = none
  penalties : c.penaltiesEnabled = false

/-- The deciding token of a row is the decoding's. -/
theorem sample_row [LawfulFloating F] (tokens : List TokenId) (h : s.config.Deterministic) (settled : s.Settled)
    (fits : FitsAll s.config t) (plain : Plain s.config) :
    s.sample (t.logits tokens) = (.ok (t.predict tokens, s) : Except String _) :=
  sample_unmodified h settled (fits tokens) plain.constraint plain.budget plain.penalties

/-- A row's decision: the decoding's token, kept if it is the draft and no stop token. -/
theorem judge_row [LawfulFloating F] {index : Nat} {draft : TokenId} {kept : Bool}
    (deterministic : s.config.Deterministic) (settled : s.Settled) (fits : FitsAll s.config t)
    (plain : p.sampled = false → Plain s.config) (random : p.randomSampling = false)
    (same : p.sampled = true → working = s)
    (done : judge t p tokens index draft working = (.ok (token, kept, s') : Except String _)) :
    s.sample (t.logits tokens) = (.ok (token, s) : Except String _) ∧
      kept = (token == draft && !t.stops p.eos token) ∧
      (kept = true → ∃ s'', s.accept token = .ok s'' ∧ (p.sampled = true → s' = s'')) ∧
      (kept = false → p.sampled = true → s' = s) := by
  unfold judge at done
  cases sampled : p.sampled with
  | false =>
    simp only [sampled, Bool.not_false, if_true, pure_eq_ok, Prod.mk.injEq] at done
    obtain ⟨rfl, rfl, rfl⟩ := done
    have unmodified := plain sampled
    obtain ⟨s'', accepts⟩ := accept_unmodified (t.predict tokens) unmodified.constraint
      unmodified.penalties
    exact ⟨sample_row _ deterministic settled fits unmodified, rfl,
      fun _ => ⟨s'', accepts, (absurd · Bool.false_ne_true)⟩, fun _ => (absurd · Bool.false_ne_true)⟩
  | true =>
    have working_eq := same sampled
    subst working_eq
    simp only [sampled, random, Bool.not_true, Bool.not_false, Bool.false_eq_true, if_false, if_true,
      selectAt_eq deterministic settled (fits tokens), bind_eq_ok] at done
    obtain ⟨⟨selected, after⟩, chosen, done⟩ := done
    cases sample_same deterministic settled chosen
    cases agrees : selected == draft && !t.stops p.eos selected with
    | true =>
      simp only [agrees, if_true, ofExcept_eq, bind_eq_ok, pure_eq_ok, Prod.mk.injEq] at done
      obtain ⟨s'', accepts, rfl, rfl, rfl⟩ := done
      exact ⟨chosen, agrees.symm, fun _ => ⟨_, accepts, fun _ => rfl⟩, by simp⟩
    | false =>
      simp only [agrees, Bool.false_eq_true, if_false, pure_eq_ok, Prod.mk.injEq] at done
      obtain ⟨rfl, rfl, rfl⟩ := done
      exact ⟨chosen, agrees.symm, (absurd · Bool.false_ne_true), fun _ _ => rfl⟩

/-- The drafts a row's decision accepts are the decoding's tokens. `s` is its sampler, and the
working sampler if the step is a sampled one. -/
theorem verifyDrafts_follows [LawfulFloating F] {drafts : List TokenId} {first : Nat}
    {r : Nat × TokenId × SamplerState Γ F G} (deterministic : s.config.Deterministic)
    (settled : s.Settled) (fits : FitsAll s.config t) (plain : p.sampled = false → Plain s.config)
    (random : p.randomSampling = false) (same : p.sampled = true → working = s)
    (rows : ∀ i draft, drafts[i]? = some draft →
      frontier base p (first + i + 1) = frontier base p (first + i) ++ [draft])
    (done : verifyDrafts t p base drafts first working = (.ok r : Except String _)) :
    ∃ last, Follows t p.eos (frontier base p first) s (drafts.take (r.1 - first)) last ∧
      (p.sampled = true → r.2.2 = last) ∧
      (r.1 < first + drafts.length →
        last.sample (t.logits (frontier base p r.1)) = (.ok (r.2.1, last) : Except String _)) := by
  induction drafts generalizing first working s with
  | nil =>
    simp only [verifyDrafts, pure_eq_ok] at done
    subst done
    exact ⟨s, by simpa using Follows.nil, same, fun more => absurd more (by simp)⟩
  | cons draft rest ih =>
    rw [verifyDrafts, bind_eq_ok] at done
    obtain ⟨⟨token, kept, after⟩, judged, done⟩ := done
    obtain ⟨sampled, agrees, accepts, stays⟩ :=
      judge_row deterministic settled fits plain random same judged
    cases kept with
    | false =>
      simp only [Bool.false_eq_true, if_false, pure_eq_ok] at done
      subst done
      exact ⟨s, by simpa using Follows.nil, fun draws => stays rfl draws, fun _ => sampled⟩
    | true =>
      obtain ⟨next, accepted, working_eq⟩ := accepts rfl
      have agreed : token = draft ∧ t.stops p.eos token = false := by simpa using agrees.symm
      obtain ⟨rfl, goes_on⟩ := agreed
      have kept := accept_kept accepted
      have least := (verifyDrafts_ok done).1
      have here : frontier base p (first + 1) = frontier base p first ++ [token] := rows 0 token rfl
      obtain ⟨last, follows, finally_, stopped⟩ := ih (kept.config ▸ deterministic)
        (kept.settled settled) (kept.config ▸ fits) (fun unsampled => kept.config ▸ plain unsampled)
        working_eq (fun i draft at_i => by
          have row := rows (i + 1) draft at_i
          rwa [show first + (i + 1) = first + 1 + i by omega] at row) done
      refine ⟨last, ?_, finally_, fun more => stopped ?_⟩
      · rw [here] at follows
        rw [show r.1 - first = r.1 - (first + 1) + 1 by omega, List.take_succ_cons]
        exact .cons sampled goes_on accepted follows
      · rw [List.length_cons] at more
        omega

/-! ## A step -/

/-- Proposals are no longer than asked for. -/
structure Drafter.WellFormed (b : Drafter (Except String) D Γ F G Hidden) : Prop where
  length : ∀ {d d' : D} {tokens : List TokenId} {position n : Nat} {proposal : DraftProposal F},
    b.propose d tokens position n = .ok (proposal, d') → proposal.tokens.length ≤ n

/-- A request whose sampler draws nothing, over a target whose rows fit it. -/
structure Suited (r : StepRequest (Except String) D Γ F G Hidden) : Prop where
  random : r.sampler.config.usesRandomSampling = false
  settled : r.sampler.Settled
  fits : FitsAll r.sampler.config r.verifier.target
  drafter : ∀ b, r.verifier.drafter = some b → b.WellFormed

/-- The backend of a request after it was asked for a proposal, if it was. -/
inductive Proposed (r : StepRequest (Except String) D Γ F G Hidden)
    (b : Drafter (Except String) D Γ F G Hidden) : D → Prop where
  | unasked : Proposed r b r.verifier.draft
  | propose {d : D} {n : Nat} {proposal : DraftProposal F}
      (asked : b.propose r.verifier.draft r.sequence r.position n = .ok (proposal, d)) :
      Proposed r b d
  | proposeForRequest {d : D} {request : DraftProposalRequest Γ F G} {proposal : DraftProposal F}
      (asked : b.proposeForRequest r.verifier.draft request = .ok (proposal, d)) : Proposed r b d

/-- The hidden states of the current token's row and of the accepted tokens'. -/
def committedStates (r : StepRequest (Except String) D Γ F G Hidden) (accepted : List TokenId) :
    List Hidden :=
  (prefixes r.verifier.executor.tokens (r.currentToken :: accepted)).map r.verifier.target.hidden

/-- What a backend receives of a step: the hidden states of the committed rows if it asks for
them, and after a proposal the feedback on it. -/
inductive Heard (r : StepRequest (Except String) D Γ F G Hidden)
    (b : Drafter (Except String) D Γ F G Hidden) (accepted : List TokenId) (next : TokenId) :
    D → Prop where
  | verified {d : D} (proposed : Proposed r b d) :
      Heard r b accepted next (b.acceptFeedback
        (if b.requiresTargetHiddenStates then
          (committedStates r accepted).foldl b.updateTargetHidden d
        else d) accepted next)
  | appended {d : D} (proposed : Proposed r b d) (single : accepted = [])
      (requires : b.requiresTargetHiddenStates = true)
      (appends : (b.appendTargetContext d ⟨[r.currentToken], committedStates r accepted,
        r.verifier.target.predict (r.verifier.executor.tokens ++ [r.currentToken])⟩
          r.position).1 = true) :
      Heard r b accepted next (b.appendTargetContext d ⟨[r.currentToken],
        committedStates r accepted, r.verifier.target.predict
          (r.verifier.executor.tokens ++ [r.currentToken])⟩ r.position).2
  | unneeded {d : D} (proposed : Proposed r b d) (single : accepted = [])
      (requires : b.requiresTargetHiddenStates = false) : Heard r b accepted next d

/-- What a step emits and leaves behind; `last` is the decoding's sampler at the last token. -/
structure Emits (r : StepRequest (Except String) D Γ F G Hidden) (accepted : List TokenId)
    (last : SamplerState Γ F G) (f : Finished (Except String) D Γ F G Hidden) : Prop where
  follows : Follows r.verifier.target r.eos (r.verifier.executor.tokens ++ [r.currentToken])
    r.sampler accepted last
  next : last.sample (r.verifier.target.logits
    (r.verifier.executor.tokens ++ [r.currentToken] ++ accepted)) =
      (.ok (f.result.nextToken, last) : Except String _)
  emitted : f.result.emittedTokens = accepted ++ [f.result.nextToken]
  within : accepted.length < r.maxEmittedTokens
  committed : f.verifier.executor.tokens =
    r.verifier.executor.tokens ++ [r.currentToken] ++ accepted
  target : f.verifier.target = r.verifier.target
  drafter : f.verifier.drafter = r.verifier.drafter
  heard : ∀ b, r.verifier.drafter = some b → Heard r b accepted f.result.nextToken f.verifier.draft
  sampler : f.sampler = r.sampler

variable {r : StepRequest (Except String) D Γ F G Hidden}
  {v : Verifier (Except String) D Γ F G Hidden} {f : Finished (Except String) D Γ F G Hidden}

/-- The request's verifier with a backend that may have been asked for a proposal. -/
structure Asked (r : StepRequest (Except String) D Γ F G Hidden)
    (v : Verifier (Except String) D Γ F G Hidden) : Prop where
  target : v.target = r.verifier.target
  drafter : v.drafter = r.verifier.drafter
  tokens : v.executor.tokens = r.verifier.executor.tokens
  proposed : ∀ b, r.verifier.drafter = some b → Proposed r b v.draft

theorem SamplerState.Settled.setRngState (h : s.Settled) : s.setRngState s.rng = s := by
  rw [SamplerState.setRngState, ← h.pending]

/-- The backend after a single row. -/
theorem rowDraft_heard {draft : D} {next : TokenId} (asked : Asked r v)
    (done : rowDraft v r.currentToken r.position = (.ok draft : Except String _))
    (b : Drafter (Except String) D Γ F G Hidden) (drafter : r.verifier.drafter = some b) :
    Heard r b [] next draft := by
  have drafter_ : v.drafter = some b := asked.drafter.trans drafter
  have proposed := asked.proposed b drafter
  simp only [rowDraft, Verifier.requiresHidden, Verifier.contextDraft, drafter_, Option.any_some,
    asked.target, asked.tokens] at done
  cases requires : b.requiresTargetHiddenStates with
  | false =>
    simp only [requires, Bool.false_eq_true, if_false, pure_eq_ok] at done
    subst done
    exact .unneeded proposed rfl requires
  | true =>
    simp only [requires, if_true] at done
    split at done
    · next appends =>
      cases done
      exact .appended proposed rfl requires appends
    · cases done

theorem targetRow_emits [LawfulFloating F] {rows : List (List TokenId)} (suited : Suited r)
    (deterministic : r.sampler.config.Deterministic) (some_ : r.maxEmittedTokens ≠ 0)
    (asked : Asked r v) (working : p.workingSampler.getD r.sampler = r.sampler)
    (plain : p.sampled = false → Plain r.sampler.config)
    (done : targetRow p r v rows = .ok f) : Emits r [] r.sampler f := by
  simp only [targetRow, rowFinished, bind_eq_ok, pure_eq_ok, working] at done
  obtain ⟨draft, drafted, ⟨next, after⟩, chosen, logprobs, -, rfl⟩ := done
  have sampled : r.sampler.sample (r.verifier.target.logits
      (r.verifier.executor.tokens ++ [r.currentToken])) =
      (.ok (next, r.sampler) : Except String _) ∧ after = r.sampler := by
    rw [asked.target, asked.tokens] at chosen
    unfold rowToken at chosen
    cases sampled : p.sampled with
    | false =>
      simp only [sampled, Bool.false_eq_true, if_false, pure_eq_ok, Prod.mk.injEq] at chosen
      obtain ⟨rfl, rfl⟩ := chosen
      exact ⟨sample_row _ deterministic suited.settled suited.fits (plain sampled), rfl⟩
    | true =>
      rw [if_pos sampled, selectAt_eq deterministic suited.settled (suited.fits _)] at chosen
      cases sample_same deterministic suited.settled chosen
      exact ⟨chosen, rfl⟩
  obtain ⟨sampled, rfl⟩ := sampled
  exact {
    follows := .nil
    next := by rwa [List.append_nil]
    emitted := rfl
    within := Nat.pos_of_ne_zero some_
    committed := by
      rw [List.append_nil, ← asked.tokens]
      rfl
    target := asked.target
    drafter := asked.drafter
    heard := rowDraft_heard asked drafted
    sampler := suited.settled.setRngState }

/-- A prepared proposal none of whose rows is verified. -/
structure Fresh (p : PreparedStep Γ F G) (r : StepRequest (Except String) D Γ F G Hidden)
    (v : Verifier (Except String) D Γ F G Hidden) : Prop where
  inputs : p.inputs = r.currentToken :: p.proposal.tokens
  within : p.proposal.tokens.length < r.maxEmittedTokens
  rows : p.verifiedRows = 0
  random : p.randomSampling = false
  plain : p.sampled = false → Plain r.sampler.config
  working : p.workingSampler.getD r.sampler = r.sampler
  eos : p.eos = r.eos
  hidden : p.captureHidden = v.requiresHidden

theorem frontier_fresh (h : Fresh p r v) (i : Nat) :
    frontier base p i = base ++ [r.currentToken] ++ p.proposal.tokens.take i := by
  simp [frontier, h.inputs]

/-- The token that ends a proposal is the decoding's next. -/
theorem bonus_next [LawfulFloating F] {correction : TokenId}
    {x : TokenId × SamplerState Γ F G} (deterministic : last.config.Deterministic)
    (settled : last.Settled) (fits : FitsAll last.config t)
    (plain : p.sampled = false → Plain last.config) (same : p.sampled = true → working = last)
    (within : n ≤ p.proposal.tokens.length)
    (stopped : n < p.proposal.tokens.length →
      last.sample (t.logits (frontier base p n)) = (.ok (correction, last) : Except String _))
    (done : bonus t p base n correction working = (.ok x : Except String _)) :
    last.sample (t.logits (frontier base p n)) = (.ok (x.1, last) : Except String _) ∧
      (p.sampled = true → x.2 = last) := by
  unfold bonus at done
  by_cases whole : n = p.proposal.tokens.length
  · rw [if_pos whole] at done
    cases sampled : p.sampled with
    | true =>
      rw [if_pos sampled, same sampled, selectAt_eq deterministic settled (fits _)] at done
      cases sample_same deterministic settled done
      exact ⟨done, fun _ => rfl⟩
    | false =>
      simp only [sampled, Bool.false_eq_true, if_false, pure_eq_ok] at done
      subst done
      exact ⟨sample_row _ deterministic settled fits (plain sampled), (absurd · Bool.false_ne_true)⟩
  · rw [if_neg whole, pure_eq_ok] at done
    subst done
    exact ⟨stopped (by omega), same⟩

/-- The rows a proposal hands to the backend are the committed ones. -/
theorem frontiers_committed (asked : Asked r v) (fresh : Fresh p r v)
    (within : n ≤ p.proposal.tokens.length) :
    (frontiers r.verifier.executor.tokens p 0 (n + 1)).map v.target.hidden =
      committedStates r (p.proposal.tokens.take n) := by
  have fits : 0 + (n + 1) ≤ p.inputs.length := by
    rw [fresh.inputs, List.length_cons]
    omega
  have rows : prefixes (r.verifier.executor.tokens ++ p.inputs.take 0) ((p.inputs.drop 0).take (n + 1))
      = frontiers r.verifier.executor.tokens p 0 (0 + (n + 1)) := prefixes_eq fits
  rw [List.take_zero, List.append_nil, List.drop_zero, Nat.zero_add, fresh.inputs,
    List.take_succ_cons] at rows
  rw [← rows, committedStates, asked.target]

theorem concluded_heard {correction : TokenId} {logprobs : List (TokenLogprobs F)}
    {rows : List (List TokenId)} (asked : Asked r v) (fresh : Fresh p r v)
    (within : n ≤ p.proposal.tokens.length) (b : Drafter (Except String) D Γ F G Hidden)
    (drafter : r.verifier.drafter = some b) :
    Heard r b (p.proposal.tokens.take n) correction
      (concluded p v r.verifier.executor.tokens s rows n correction working logprobs).verifier.draft
      := by
  have drafter_ : v.drafter = some b := asked.drafter.trans drafter
  have heard : Heard r b (p.proposal.tokens.take n) correction (b.acceptFeedback
      (if b.requiresTargetHiddenStates then
        (committedStates r (p.proposal.tokens.take n)).foldl b.updateTargetHidden v.draft
      else v.draft) (p.proposal.tokens.take n) correction) := .verified (asked.proposed b drafter)
  rw [← frontiers_committed asked fresh within] at heard
  have capture : p.captureHidden = b.requiresTargetHiddenStates := by
    rw [fresh.hidden, Verifier.requiresHidden, drafter_, Option.any_some]
  have draft : (concluded p v r.verifier.executor.tokens s rows n correction working
      logprobs).verifier.draft = b.acceptFeedback (if b.requiresTargetHiddenStates then
        ((frontiers r.verifier.executor.tokens p 0 (n + 1)).map v.target.hidden).foldl
          b.updateTargetHidden v.draft
      else v.draft) (p.proposal.tokens.take n) correction := by
    simp [concluded, closeProposal, Verifier.feedback, Verifier.count,
      Verifier.updateAdaptiveDraftLength, Verifier.holding, Verifier.hear, capture,
        Verifier.updateTargetHidden, fresh.rows, drafter_]
  rw [draft]
  exact heard

theorem settle_emits [LawfulFloating F] (suited : Suited r)
    (deterministic : r.sampler.config.Deterministic) (asked : Asked r v) (fresh : Fresh p r v)
    (done : settle p v r.verifier.executor.tokens r.sampler = (.ok f : Except String _)) :
    ∃ accepted last, Emits r accepted last f := by
  simp only [settle, conclude, fresh.rows, fresh.working, bind_eq_ok, pure_eq_ok, List.drop_zero,
    asked.target] at done
  obtain ⟨⟨n, correction, after⟩, loop, logprobs, -, ⟨next, final⟩, ended, entry, -, rfl⟩ := done
  obtain ⟨last, follows, same, stopped⟩ := verifyDrafts_follows deterministic suited.settled
    suited.fits fresh.plain fresh.random (fun _ => rfl) (fun i draft at_i => by
      have row := List.getElem?_eq_some_iff.mp at_i
      obtain ⟨inside, rfl⟩ := row
      simp only [frontier_fresh fresh, Nat.zero_add]
      rw [List.take_succ_eq_append_getElem inside, ← List.append_assoc]) loop
  have most := (verifyDrafts_ok loop).2.1
  simp only [Nat.zero_add] at most stopped
  have kept := follows.kept deterministic suited.settled
  have next_sampled := bonus_next (kept.config ▸ deterministic) (kept.settled suited.settled)
    (kept.config ▸ suited.fits) (fun unsampled => kept.config ▸ fresh.plain unsampled) same most
    stopped ended
  rw [frontier_fresh fresh, List.take_zero, List.append_nil, fresh.eos] at follows
  rw [frontier_fresh fresh] at next_sampled
  refine ⟨p.proposal.tokens.take n, last, ?_⟩
  exact {
    follows := follows
    next := next_sampled.1
    emitted := rfl
    within := by
      rw [List.length_take]
      have short := fresh.within
      omega
    committed := frontier_fresh fresh n
    target := asked.target
    drafter := asked.drafter
    heard := concluded_heard asked fresh most
    sampler := by
      show (if p.sampled then r.sampler.setRngState final.rng else r.sampler) = r.sampler
      cases sampled : p.sampled with
      | false => rfl
      | true =>
        have final_eq : final = last := next_sampled.2 sampled
        rw [if_pos rfl, final_eq, kept.rng]
        exact suited.settled.setRngState }

/-! ## A sequential step -/

/-- How many drafts the predictions agree with, up to a stop token. -/
def agreed (t : Target F Hidden) (eos : TokenId) : List TokenId → List TokenId → Nat
  | _, [] => 0
  | tokens, draft :: rest =>
    if t.predict tokens = draft ∧ t.stops eos draft = false then
      agreed t eos (tokens ++ [draft]) rest + 1
    else 0

theorem agreed_follows [LawfulFloating F] (eos : TokenId) (tokens drafts : List TokenId)
    (deterministic : s.config.Deterministic) (settled : s.Settled) (fits : FitsAll s.config t)
    (plain : Plain s.config) :
    ∃ last, Follows t eos tokens s (drafts.take (agreed t eos tokens drafts)) last := by
  induction drafts generalizing tokens s with
  | nil => exact ⟨s, .nil⟩
  | cons draft rest ih =>
    rw [agreed]
    split
    · next agrees =>
      obtain ⟨rfl, goes_on⟩ := agrees
      obtain ⟨next, accepts⟩ := accept_unmodified (t.predict tokens) plain.constraint
        plain.penalties
      have kept := accept_kept accepts
      obtain ⟨last, follows⟩ := @ih next (tokens ++ [t.predict tokens]) (kept.config ▸ deterministic)
        (kept.settled settled) (kept.config ▸ fits) (kept.config ▸ plain)
      exact ⟨last, .cons (sample_row _ deterministic settled fits plain) goes_on accepts follows⟩
    · exact ⟨s, .nil⟩

variable {position : Nat}

theorem forwardToken_ok {e e' : Executor}
    (done : e.forwardToken token position = (.ok e' : Except String _)) :
    position = e.tokens.length ∧ e' = { e with tokens := e.tokens ++ [token] } := by
  unfold Executor.forwardToken at done
  split at done
  · next placed => exact ⟨placed, (pure_eq_ok.mp done).symm⟩
  · cases done

theorem forwardDrafts_ok {logprobs : Option Nat} {input : TokenId} {drafts : List TokenId}
    {e e' : Executor} {predictions : List TokenId} {states : List Hidden}
    {entries : List (TokenLogprobs F)}
    (done : forwardDrafts v eos logprobs input drafts position e =
      (.ok (predictions, states, entries, e') : Except String _)) :
    e'.saved = e.saved ∧
      countAccepted v eos drafts predictions = agreed v.target eos (e.tokens ++ [input]) drafts ∧
      (agreed v.target eos (e.tokens ++ [input]) drafts = drafts.length →
        e'.tokens = e.tokens ++ (input :: drafts).take drafts.length ∧
        states = (prefixes e.tokens ((input :: drafts).take drafts.length)).map v.target.hidden) := by
  induction drafts generalizing input position e predictions states entries with
  | nil =>
    cases done
    exact ⟨rfl, rfl, fun _ => ⟨by simp, rfl⟩⟩
  | cons draft rest ih =>
    simp only [forwardDrafts, bind_eq_ok] at done
    obtain ⟨e₁, forwarded, entry, -, done⟩ := done
    obtain ⟨-, rfl⟩ := forwardToken_ok forwarded
    split at done
    · next stops =>
      rw [isStopToken_eq] at stops
      cases done
      have none_ : ¬(v.target.predict (e.tokens ++ [input]) = draft ∧
          v.target.stops eos draft = false) := by
        rintro ⟨rfl, goes_on⟩
        simp [goes_on] at stops
      rw [agreed, if_neg none_, countAccepted]
      refine ⟨rfl, if_neg ?_, nofun⟩
      simp only [isStopToken_eq, Bool.and_eq_true, Bool.not_eq_true', beq_iff_eq]
      exact fun agrees => none_ agrees.symm
    · next stops =>
      rw [isStopToken_eq] at stops
      rw [bind_eq_ok] at done
      obtain ⟨⟨predictions', states', entries', last⟩, tail, done⟩ := done
      cases done
      simp only [ne_eq, not_or, not_not, Bool.not_eq_true] at stops
      obtain ⟨rfl, goes_on⟩ := stops
      obtain ⟨saved, counted, whole⟩ := ih tail
      rw [agreed, if_pos ⟨rfl, goes_on⟩, countAccepted]
      refine ⟨saved, ?_, fun all => ?_⟩
      · rw [counted, if_pos (by simp [isStopToken_eq, goes_on])]
      · obtain ⟨tokens, rows⟩ := whole (by simpa using all)
        constructor
        · rw [tokens, List.length_cons, List.take_succ_cons, List.append_assoc]
          rfl
        · rw [rows, List.length_cons, List.take_succ_cons, prefixes, List.map_cons]

theorem replayInputs_ok {inputs : List TokenId} {e e' : Executor}
    {states : List Hidden}
    (done : replayInputs v inputs position e = (.ok (states, e') : Except String _)) :
    e'.tokens = e.tokens ++ inputs ∧ states = (prefixes e.tokens inputs).map v.target.hidden := by
  induction inputs generalizing position e states with
  | nil =>
    cases done
    exact ⟨by simp, rfl⟩
  | cons token rest ih =>
    simp only [replayInputs, bind_eq_ok] at done
    obtain ⟨e₁, forwarded, ⟨states', last⟩, tail, done⟩ := done
    cases done
    obtain ⟨-, rfl⟩ := forwardToken_ok forwarded
    obtain ⟨tokens, rows⟩ := ih tail
    exact ⟨by rw [tokens, List.append_assoc]; rfl, by rw [rows, prefixes, List.map_cons]⟩

theorem canUseUnmodifiedArgmax_plain {c : SamplingConfig Γ F}
    (h : c.canUseUnmodifiedArgmax = true) : Plain c := by
  simp only [SamplingConfig.canUseUnmodifiedArgmax, Bool.and_eq_true, Option.isNone_iff_eq_none,
    Bool.not_eq_true'] at h
  exact ⟨h.1.1.1, h.1.1.2, h.2⟩

theorem advanceCommittedToken_placed {current : TokenId}
    {x : TokenId × Verifier (Except String) D Γ F G Hidden}
    (done : v.advanceCommittedToken current position = (.ok x : Except String _)) :
    position = v.executor.tokens.length := by
  rw [Verifier.advanceCommittedToken, bind_eq_ok] at done
  obtain ⟨e, forwarded, -⟩ := done
  exact (forwardToken_ok forwarded).1

theorem sequentialTargetOnly_emits [LawfulFloating F] (suited : Suited r)
    (deterministic : r.sampler.config.Deterministic) (plain : Plain r.sampler.config)
    (some_ : r.maxEmittedTokens ≠ 0) (asked : Asked r v)
    (done : sequentialTargetOnly r v = (.ok f : Except String _)) : Emits r [] r.sampler f := by
  rw [sequentialTargetOnly, bind_eq_ok] at done
  obtain ⟨x, advanced, done⟩ := done
  have placed := advanceCommittedToken_placed advanced
  rw [advanceCommittedToken_eq placed, bind_eq_ok] at advanced
  obtain ⟨draft, drafted, advanced⟩ := advanced
  cases advanced
  rw [bind_eq_ok] at done
  obtain ⟨logprobs, -, done⟩ := done
  cases done
  have row := sample_row (r.verifier.executor.tokens ++ [r.currentToken]) deterministic
    suited.settled suited.fits plain
  exact {
    follows := .nil
    next := by
      rw [List.append_nil, row, ← asked.target, ← asked.tokens]
    emitted := rfl
    within := Nat.pos_of_ne_zero some_
    committed := by
      rw [List.append_nil, ← asked.tokens]
      rfl
    target := asked.target
    drafter := asked.drafter
    heard := rowDraft_heard asked drafted
    sampler := rfl }

/-- The end of a sequential step, once the executor holds the accepted rows. -/
def sequentialClose (r : StepRequest (Except String) D Γ F G Hidden)
    (v : Verifier (Except String) D Γ F G Hidden) (proposal : DraftProposal F) (accepted : Nat)
    (entries : List (TokenLogprobs F)) (committed : List Hidden) (executor : Executor) :
    Except String (Finished (Except String) D Γ F G Hidden) := do
  let correction := v.target.predict executor.tokens
  let v := { v with executor }
  let v := if v.requiresHidden then v.updateTargetHidden committed else v
  let last ← logprobsOf r.sampler.config.logprobs (some v.lastLogits) correction
  let emitted := proposal.tokens.take accepted ++ [correction]
  return {
    result :=
      { emittedTokens := emitted
        acceptedCount := accepted
        draftCount := proposal.tokens.length
        nextToken := correction
        nextTokenLogits := if v.options.retainFrontierLogits then some v.lastLogits else none
        hitEos := emitted.any (v.isStopToken · r.eos)
        lookupTokens := if proposal.fromLookup then proposal.tokens.length else 0
        lookupAcceptedTokens := if proposal.fromLookup then accepted else 0
        logprobs := entries.take accepted ++ last }
    verifier := ((v.count proposal.tokens.length accepted emitted.length).updateAdaptiveDraftLength
      accepted proposal.tokens.length).feedback (proposal.tokens.take accepted) correction
    sampler := r.sampler }

theorem sequentialClose_emits [LawfulFloating F] {proposal : DraftProposal F}
    {entries : List (TokenLogprobs F)} {committed : List Hidden} {e : Executor} (suited : Suited r)
    (deterministic : r.sampler.config.Deterministic) (plain : Plain r.sampler.config)
    (asked : Asked r v) (within : proposal.tokens.length < r.maxEmittedTokens)
    (counted : n = agreed r.verifier.target r.eos
      (r.verifier.executor.tokens ++ [r.currentToken]) proposal.tokens)
    (tokens : e.tokens =
      r.verifier.executor.tokens ++ [r.currentToken] ++ proposal.tokens.take n)
    (states : committed = committedStates r (proposal.tokens.take n))
    (done : sequentialClose r v proposal n entries committed e = .ok f) :
    ∃ accepted last, Emits r accepted last f := by
  obtain ⟨last, follows⟩ := agreed_follows r.eos
    (r.verifier.executor.tokens ++ [r.currentToken]) proposal.tokens deterministic
    suited.settled suited.fits plain
  rw [← counted] at follows
  have kept := follows.kept deterministic suited.settled
  have next := sample_row e.tokens (kept.config ▸ deterministic)
    (kept.settled suited.settled) (kept.config ▸ suited.fits) (kept.config ▸ plain)
  have heard : (if ({ v with executor := e } : Verifier (Except String) D Γ F G Hidden).requiresHidden
        then ({ v with executor := e } : Verifier (Except String) D Γ F G Hidden).updateTargetHidden
          committed
        else { v with executor := e }) =
      { v with
        executor := e
        draft := if v.requiresHidden then (v.updateTargetHidden committed).draft else v.draft } := by
    by_cases requires : v.requiresHidden = true
    · rw [if_pos requires]
      exact if_pos requires
    · rw [if_neg requires]
      exact if_neg requires
  rw [sequentialClose, bind_eq_ok] at done
  simp only [heard] at done
  obtain ⟨logprobs, -, done⟩ := done
  cases done
  refine ⟨proposal.tokens.take n, last, ?_⟩
  exact {
    follows := follows
    next := by
      rw [← tokens, next, asked.target]
    emitted := rfl
    within := Nat.lt_of_le_of_lt (List.length_take_le' _ _) within
    committed := tokens
    target := asked.target
    drafter := asked.drafter
    heard := fun b drafter => by
      have drafter_ : v.drafter = some b := asked.drafter.trans drafter
      have verified : Heard r b (proposal.tokens.take n) (v.target.predict e.tokens)
          (b.acceptFeedback (if b.requiresTargetHiddenStates then
            (committedStates r (proposal.tokens.take n)).foldl b.updateTargetHidden v.draft
          else v.draft) (proposal.tokens.take n) (v.target.predict e.tokens)) :=
        .verified (asked.proposed b drafter)
      rw [← states] at verified
      simpa [Verifier.feedback, Verifier.count, Verifier.updateAdaptiveDraftLength,
        Verifier.updateTargetHidden, Verifier.requiresHidden, drafter_] using verified
    sampler := rfl }

theorem take_append_getLastD (first default_ : TokenId) (rest : List TokenId) :
    (first :: rest).take rest.length ++ [(first :: rest).getLastD default_] = first :: rest := by
  induction rest generalizing first default_ with
  | nil => rfl
  | cons next rest ih =>
    exact congrArg _ (ih next first)

theorem prefixes_append (base xs ys : List TokenId) :
    prefixes base (xs ++ ys) = prefixes base xs ++ prefixes (base ++ xs) ys := by
  induction xs generalizing base with
  | nil => simp [prefixes]
  | cons x xs ih => simp [prefixes, ih]

theorem verifySequentialStep_emits [LawfulFloating F] (suited : Suited r)
    (deterministic : r.sampler.config.Deterministic) (plain : Plain r.sampler.config)
    (done : verifySequentialStep r = (.ok f : Except String _)) :
    ∃ accepted last, Emits r accepted last f := by
  simp only [verifySequentialStep] at done
  by_cases some_ : r.maxEmittedTokens = 0
  · rw [if_pos some_] at done
    cases done
  rw [if_neg some_] at done
  have unasked : Asked r r.verifier := ⟨rfl, rfl, rfl, fun _ _ => .unasked⟩
  generalize most : (if 1 < r.maxEmittedTokens then
    min r.verifier.currentDraftLength (r.maxEmittedTokens - 1) else 0) = maxDraft at done
  split at done
  · next b n drafter =>
    rw [bind_eq_ok] at done
    obtain ⟨⟨proposal, draft⟩, proposed, done⟩ := done
    have asked : Asked r { r.verifier with draft } :=
      ⟨rfl, rfl, rfl, fun b' drafter' => by
        cases drafter.symm.trans drafter'
        exact .propose proposed⟩
    split at done
    · exact ⟨[], r.sampler,
        sequentialTargetOnly_emits suited deterministic plain some_ asked done⟩
    · rw [bind_eq_ok] at done
      obtain ⟨⟨predictions, tentative, entries, e⟩, forwarded, done⟩ := done
      obtain ⟨saved, counted, whole⟩ := forwardDrafts_ok forwarded
      have within : proposal.tokens.length < r.maxEmittedTokens := by
        have short := (suited.drafter b drafter).length proposed
        split at most <;> omega
      dsimp only at done
      split at done
      · next all =>
        rw [bind_eq_ok] at done
        obtain ⟨e', last, done⟩ := done
        obtain ⟨-, rfl⟩ := forwardToken_ok last
        obtain ⟨tokens, states⟩ := whole (counted.symm.trans all)
        have inputs := take_append_getLastD r.currentToken r.currentToken proposal.tokens
        have rows := prefixes_append r.verifier.executor.tokens
          ((r.currentToken :: proposal.tokens).take proposal.tokens.length)
          [(r.currentToken :: proposal.tokens).getLastD r.currentToken]
        rw [inputs] at rows
        have taken : (r.currentToken :: proposal.tokens).take (proposal.tokens.length + 1) =
            r.currentToken :: proposal.tokens := List.take_of_length_le (Nat.le_refl _)
        rw [all] at done counted
        refine sequentialClose_emits suited deterministic plain asked within counted ?_ ?_ done
        · simp only [tokens, taken, Executor.saveState, List.take_length]
          rw [List.append_assoc, inputs, List.append_assoc]
          rfl
        · simp only [tokens, states, taken, Executor.saveState, List.take_length,
            committedStates]
          rw [rows, List.map_append]
          rfl
      · rw [bind_eq_ok] at done
        obtain ⟨⟨committed, e'⟩, replayed, done⟩ := done
        obtain ⟨tokens, states⟩ := replayInputs_ok replayed
        refine sequentialClose_emits suited deterministic plain asked within counted ?_ ?_ done
        · rw [tokens, Executor.restoreState, saved, List.take_succ_cons, List.append_assoc]
          rfl
        · rw [states, Executor.restoreState, saved, List.take_succ_cons]
          rfl
  · exact ⟨[], r.sampler,
      sequentialTargetOnly_emits suited deterministic plain some_ unasked done⟩

/-! ## `VerifyStep` -/

/-- What `startStep` knows of a request whose sampler draws nothing. -/
theorem startStep_suited (suited : Suited r) (start : startStep r = (.ok p : Except String _)) :
    p.randomSampling = false ∧ p.workingSampler.getD r.sampler = r.sampler ∧
      (p.sampled = false → Plain r.sampler.config) ∧ r.maxEmittedTokens ≠ 0 ∧
      p.maxDraftTokens < r.maxEmittedTokens := by
  simp only [startStep, bind_eq_ok] at start
  obtain ⟨-, -, start⟩ := start
  by_cases some_ : r.maxEmittedTokens = 0
  · rw [if_pos some_] at start
    cases start
  rw [if_neg some_, pure_eq_ok] at start
  subst start
  refine ⟨suited.random, ?_, fun unsampled => ?_, some_, ?_⟩
  · split <;> rfl
  · simp only [Bool.or_eq_false_iff, Option.isSome_eq_false_iff, Option.isNone_iff_eq_none]
      at unsampled
    exact ⟨unsampled.1.2, unsampled.2, unsampled.1.1.2⟩
  · dsimp only
    split <;> omega

/-- A step without drafts that is not deferred. -/
theorem single_emits [LawfulFloating F] (suited : Suited r)
    (deterministic : r.sampler.config.Deterministic) (some_ : r.maxEmittedTokens ≠ 0)
    (asked : Asked r v) (working : p.workingSampler.getD r.sampler = r.sampler)
    (plain : p.sampled = false → Plain r.sampler.config)
    (done : prepareTargetOnlyStep p r v false = (.ok (.inr f) : Except String _)) :
    ∃ accepted last, Emits r accepted last f := by
  by_cases placed : r.position = v.executor.tokens.length
  · rw [prepareTargetOnlyStep_immediate placed, bind_eq_ok] at done
    obtain ⟨g, row, done⟩ := done
    cases done
    exact ⟨[], r.sampler, targetRow_emits suited deterministic some_ asked working plain row⟩
  · simp only [prepareTargetOnlyStep, Verifier.advanceCommittedToken, Executor.forwardToken,
      if_neg placed, Bool.false_eq_true, if_false] at done
    cases done

theorem proposeForRequest_asked {b : Drafter (Except String) D Γ F G Hidden} {p' : PreparedStep Γ F G}
    (random : p.randomSampling = false) (drafter : r.verifier.drafter = some b)
    (done : proposeForRequest b p r r.verifier = (.ok (p', v) : Except String _)) :
    Asked r v ∧ p' = { p with proposal := p'.proposal } := by
  have draws : ¬p.randomSampling = true := by simp [random]
  simp only [proposeForRequest, if_neg draws, bind_eq_ok, pure_eq_ok, Prod.mk.injEq] at done
  obtain ⟨⟨proposal, d⟩, asked, rfl, rfl⟩ := done
  refine ⟨⟨rfl, rfl, rfl, fun b' drafter' => ?_⟩, rfl⟩
  cases drafter.symm.trans drafter'
  exact .proposeForRequest asked

theorem prepareProposalVerification_few {prepared : PreparedStep Γ F G ×
      Verifier (Except String) D Γ F G Hidden ⊕ Finished (Except String) D Γ F G Hidden}
    (some_ : p.proposal.tokens.isEmpty = false) {defer : Bool}
    (done : prepareProposalVerification p r v defer = (.ok prepared : Except String _)) :
    p.proposal.tokens.length ≤ p.maxDraftTokens := by
  simp only [prepareProposalVerification, some_, Bool.false_eq_true, if_false] at done
  split at done
  · cases done
  · next formed => exact not_lt.mp fun many => formed (.inl many)

/-- The rest of a step whose proposal was made. -/
theorem proposal_emits [LawfulFloating F] (suited : Suited r)
    (deterministic : r.sampler.config.Deterministic) (started : Started p r) (asked : Asked r v)
    (random : p.randomSampling = false) (working : p.workingSampler.getD r.sampler = r.sampler)
    (plain : p.sampled = false → Plain r.sampler.config) (some_ : r.maxEmittedTokens ≠ 0)
    (few : p.maxDraftTokens < r.maxEmittedTokens)
    (done : prepareProposalVerification p r v false >>= finishPrepared r = .ok f) :
    ∃ accepted last, Emits r accepted last f := by
  rw [bind_eq_ok] at done
  obtain ⟨prepared, checked, done⟩ := done
  cases empty : p.proposal.tokens.isEmpty with
  | true =>
    rw [prepareProposalVerification_empty empty, bind_eq_ok] at checked
    obtain ⟨single, row, checked⟩ := checked
    cases single with
    | inl next => exact absurd row prepareTargetOnlyStep_false
    | inr g =>
      cases checked
      cases done
      exact single_emits suited deterministic some_ asked working plain row
  | false =>
    have short := prepareProposalVerification_few empty checked
    obtain ⟨probabilities, rfl⟩ := prepareProposalVerification_some empty checked
    have underway := Started.underway (p := { p with
      tokenProbabilities := probabilities
      inputs := r.currentToken :: p.proposal.tokens
      captureHidden := v.requiresHidden
      captureLogits := (p.sampled || r.sampler.config.logprobs.isSome) && !v.target.deviceResident })
      (v := v) ⟨started.position, started.eos, started.targetOnly, started.chunkLimit,
        started.verifiedRows, started.acceptedCount, started.working, started.random⟩ rfl rfl
    have fresh : Fresh { p with
        tokenProbabilities := probabilities
        inputs := r.currentToken :: p.proposal.tokens
        captureHidden := v.requiresHidden
        captureLogits := (p.sampled || r.sampler.config.logprobs.isSome) && !v.target.deviceResident }
        r { v with executor := v.executor.saveState } :=
      ⟨rfl, Nat.lt_of_le_of_lt short few, started.verifiedRows, random, plain, working,
        started.eos, rfl⟩
    have saved : Asked r { v with executor := v.executor.saveState } :=
      ⟨asked.target, asked.drafter, asked.tokens, asked.proposed⟩
    simp only [finishPrepared] at done
    by_cases placed : p.position = v.executor.tokens.length
    · have settled := finishRows_eq r.sampler underway placed
      rw [settled, asked.tokens] at done
      exact settle_emits suited deterministic saved fresh done
    · have refused := finishRows_misplaced r.sampler underway placed
      rw [done] at refused
      cases refused

theorem verifyStep_emits [LawfulFloating F] (suited : Suited r)
    (done : verifyStep r = (.ok f : Except String _)) : ∃ accepted last, Emits r accepted last f := by
  cases validated : r.sampler.config.validate with
  | error e =>
    simp only [verifyStep, ofExcept_eq, validated] at done
    cases done
  | ok _ =>
  have deterministic : r.sampler.config.Deterministic := ⟨validated, suited.random⟩
  have unasked : Asked r r.verifier := ⟨rfl, rfl, rfl, fun _ _ => .unasked⟩
  cases sequential : !r.verifier.options.useBatchedVerification &&
      r.sampler.config.canUseUnmodifiedArgmax with
  | true =>
    simp only [verifyStep, ofExcept_eq, validated, sequential, if_true, Outcome.ok_bind] at done
    have unmodified := canUseUnmodifiedArgmax_plain (Bool.and_eq_true_iff.mp sequential).2
    exact verifySequentialStep_emits suited deterministic unmodified done
  | false =>
    rw [verifyStep_eq validated sequential, prepareStep_eq, bind_eq_ok] at done
    obtain ⟨p, start, done⟩ := done
    obtain ⟨random, working, plain, some_, few⟩ := startStep_suited suited start
    have started := startStep_started start
    have single {g} (done : prepareTargetOnlyStep p r r.verifier false >>= g =
        (.ok f : Except String _)) (finishes : ∀ h, g (.inr h) = finishPrepared r (.inr h)) :
        ∃ accepted last, Emits r accepted last f := by
      rw [bind_eq_ok] at done
      obtain ⟨prepared, row, done⟩ := done
      cases prepared with
      | inl next => exact absurd row prepareTargetOnlyStep_false
      | inr g =>
        rw [finishes] at done
        cases done
        exact single_emits suited deterministic some_ unasked working plain row
    cases drafter : r.verifier.drafter with
    | none =>
      rw [drafter] at done
      exact single done fun _ => rfl
    | some b =>
      rw [drafter] at done
      cases most : p.maxDraftTokens with
      | zero =>
        rw [most] at done
        exact single done fun _ => rfl
      | succ n =>
        rw [most] at done
        rw [bind_eq_ok] at done
        obtain ⟨⟨p', v⟩, proposed, done⟩ := done
        obtain ⟨asked, same⟩ := proposeForRequest_asked random drafter proposed
        have started' := started.proposed proposed
        rw [same] at started' done
        exact proposal_emits suited deterministic started' asked random working plain some_ few done

/-! ## Runs -/

/-- A step of a request, alone or in a batch. -/
inductive Step (r : StepRequest (Except String) D Γ F G Hidden)
    (f : Finished (Except String) D Γ F G Hidden) : Prop where
  | alone (done : verifyStep r = (.ok f : Except String _))
  | batch {before after : List (StepRequest (Except String) D Γ F G Hidden)}
      {fs : List (Finished (Except String) D Γ F G Hidden)}
      (done : verifyBatch (before ++ r :: after) = .ok fs) (place : fs[before.length]? = some f)

theorem Emits.observed {g : Finished (Except String) D Γ F G Hidden} (h : Emits r accepted last g)
    (same : g.observed = f.observed) : Emits r accepted last f := by
  have seen : Emits r accepted last g.observed :=
    ⟨h.follows, h.next, h.emitted, h.within, h.committed, h.target, h.drafter, h.heard, h.sampler⟩
  rw [same] at seen
  exact ⟨seen.follows, seen.next, seen.emitted, seen.within, seen.committed, seen.target,
    seen.drafter, seen.heard, seen.sampler⟩

/-- A step is observed as it is alone. -/
theorem Step.verifyStep (step : Step r f) :
    ∃ g, verifyStep r = (.ok g : Except String _) ∧ g.observed = f.observed := by
  cases step with
  | alone done => exact ⟨f, done, rfl⟩
  | @batch before after fs done place =>
    have isolated := verifyBatch_isolated (before ++ r :: after)
    rw [done] at isolated
    have each := List.forall₂_iff_get.mp (option_mapM_eq_some.mp isolated.symm)
    have inside : before.length < (before ++ r :: after).length := by simp
    have same := each.2 before.length inside (by rw [← each.1]; exact inside)
    rw [List.getElem?_eq_some_iff] at place
    obtain ⟨_, place⟩ := place
    simp only [List.get_eq_getElem, List.getElem_append_right (Nat.le_refl _), Nat.sub_self,
      List.getElem_cons_zero, List.getElem_map, place] at same
    cases alone : (Speculative.verifyStep r : Except String _) with
    | error e =>
      rw [alone] at same
      cases same
    | ok g =>
      rw [alone] at same
      exact ⟨g, rfl, Option.some.inj same⟩

theorem Step.emits [LawfulFloating F] (suited : Suited r) (step : Step r f) :
    ∃ accepted last, Emits r accepted last f := by
  obtain ⟨g, alone, same⟩ := step.verifyStep
  obtain ⟨accepted, last, emits⟩ := verifyStep_emits suited alone
  exact ⟨accepted, last, emits.observed same⟩

theorem Step.valid (step : Step r f) : r.sampler.config.validate = .ok ⟨⟩ := by
  obtain ⟨g, alone, -⟩ := step.verifyStep
  simp only [Speculative.verifyStep, ofExcept_eq, bind_eq_ok] at alone
  obtain ⟨⟨⟩, validated, -⟩ := alone
  exact validated

/-- The request after a step whose tokens the caller has accepted. -/
def StepRequest.after (r : StepRequest (Except String) D Γ F G Hidden)
    (f : Finished (Except String) D Γ F G Hidden) (sampler : SamplerState Γ F G)
    (maxEmittedTokens : Nat) : StepRequest (Except String) D Γ F G Hidden :=
  { verifier := f.verifier
    sequence := r.sequence ++ f.result.emittedTokens
    position := r.position + f.result.emittedTokens.length
    currentToken := f.result.nextToken
    eos := r.eos
    maxEmittedTokens
    sampler }

/-- Steps after one another, until the caller stops; none follows a stop token. -/
inductive Run : StepRequest (Except String) D Γ F G Hidden →
    List (StepRequest (Except String) D Γ F G Hidden ×
      Finished (Except String) D Γ F G Hidden) → Prop where
  | last {r : StepRequest (Except String) D Γ F G Hidden}
      {f : Finished (Except String) D Γ F G Hidden} (step : Step r f) : Run r [(r, f)]
  | next {r : StepRequest (Except String) D Γ F G Hidden}
      {f : Finished (Except String) D Γ F G Hidden} {s : SamplerState Γ F G} {n : Nat}
      {steps : List (StepRequest (Except String) D Γ F G Hidden ×
        Finished (Except String) D Γ F G Hidden)} (step : Step r f)
      (goes_on : r.verifier.target.stops r.eos f.result.nextToken = false)
      (accepts : acceptAll f.sampler f.result.emittedTokens = .ok s) (run : Run (r.after f s n) steps) :
      Run r ((r, f) :: steps)

def emittedTokens (steps : List (StepRequest (Except String) D Γ F G Hidden ×
    Finished (Except String) D Γ F G Hidden)) : List TokenId :=
  steps.flatMap fun step => step.2.result.emittedTokens

theorem Follows.acceptAll (deterministic : s.config.Deterministic) (settled : s.Settled)
    (follows : Follows t eos tokens s accepted last) : acceptAll s accepted = .ok last := by
  induction follows with
  | nil => rfl
  | cons sampled _ accepts _ ih =>
    cases sample_same deterministic settled sampled
    have kept := accept_kept accepts
    have tail := ih (kept.config ▸ deterministic) (kept.settled settled)
    rw [Speculative.acceptAll] at tail ⊢
    rw [List.foldlM_cons, accepts, Outcome.ok_bind, tail]

theorem Follows.goes_on (follows : Follows t eos tokens s accepted last) :
    ∀ token ∈ accepted, t.stops eos token = false := by
  induction follows with
  | nil => nofun
  | cons _ goes_on _ _ ih => exact List.forall_mem_cons.mpr ⟨goes_on, ih⟩

/-- What a step emits is accepted by the decoding up to its last token. -/
theorem Emits.accepts (emits : Emits r accepted last f) (deterministic : r.sampler.config.Deterministic)
    (settled : r.sampler.Settled) (goes_on : r.verifier.target.stops r.eos f.result.nextToken = false)
    (done : acceptAll f.sampler f.result.emittedTokens = .ok s) :
    Follows r.verifier.target r.eos (r.verifier.executor.tokens ++ [r.currentToken]) r.sampler
      f.result.emittedTokens s := by
  have accepted_ := emits.follows.acceptAll deterministic settled
  rw [emits.sampler, emits.emitted, acceptAll, List.foldlM_append] at done
  rw [acceptAll] at accepted_
  rw [accepted_, Outcome.ok_bind, List.foldlM_cons, bind_eq_ok] at done
  obtain ⟨next, accepts, done⟩ := done
  cases done
  rw [emits.emitted]
  exact emits.follows.append (.cons emits.next goes_on accepts .nil)

theorem Suited.after (suited : Suited r) (emits : Emits r accepted last f)
    (kept : r.sampler.Kept s) : Suited (r.after f s n) := by
  have config : (r.after f s n).sampler.config = r.sampler.config := kept.config
  have target : (r.after f s n).verifier.target = r.verifier.target := emits.target
  have drafter : (r.after f s n).verifier.drafter = r.verifier.drafter := emits.drafter
  exact {
    random := config ▸ suited.random
    settled := kept.settled suited.settled
    fits := config ▸ target ▸ suited.fits
    drafter := fun b given => suited.drafter b (drafter.symm.trans given) }

variable {steps : List (StepRequest (Except String) D Γ F G Hidden × Finished (Except String) D Γ F G Hidden)}

theorem emittedTokens_ne_nil [LawfulFloating F] (suited : Suited r)
    (run : Run r steps) : (emittedTokens steps).length ≠ 0 := by
  cases run with
  | last step =>
    obtain ⟨accepted, last, emits⟩ := step.emits suited
    simp [emittedTokens, emits.emitted]
  | next step goes_on accepts run =>
    obtain ⟨accepted, last, emits⟩ := step.emits suited
    simp [emittedTokens, emits.emitted]

/-- The tokens of a run are the decoding's. -/
theorem run_decodes [LawfulFloating F] (suited : Suited r) (run : Run r steps) :
    decode r.verifier.target r.eos (emittedTokens steps).length
      (r.verifier.executor.tokens ++ [r.currentToken]) r.sampler = .ok (emittedTokens steps) := by
  induction run with
  | @last r f step =>
    obtain ⟨accepted, last, emits⟩ := step.emits suited
    have all : emittedTokens [(r, f)] = accepted ++ [f.result.nextToken] := by
      simp [emittedTokens, emits.emitted]
    rw [all, List.length_append]
    exact emits.follows.decode Nat.one_ne_zero (decode_one emits.next)
  | @next r f s n steps step goes_on accepts run ih =>
    obtain ⟨accepted, last, emits⟩ := step.emits suited
    have deterministic : r.sampler.config.Deterministic := ⟨step.valid, suited.random⟩
    have follows := emits.accepts deterministic suited.settled goes_on accepts
    have suited' : Suited (r.after f s n) :=
      suited.after emits (follows.kept deterministic suited.settled)
    have rest := ih suited'
    have tokens : (r.after f s n).verifier.executor.tokens ++ [(r.after f s n).currentToken] =
        r.verifier.executor.tokens ++ [r.currentToken] ++ f.result.emittedTokens := by
      show f.verifier.executor.tokens ++ [f.result.nextToken] = _
      rw [emits.committed, emits.emitted, List.append_assoc]
    have target : (r.after f s n).verifier.target = r.verifier.target := emits.target
    rw [tokens, target] at rest
    have all : emittedTokens ((r, f) :: steps) = f.result.emittedTokens ++ emittedTokens steps := by
      simp [emittedTokens]
    rw [all, List.length_append]
    exact follows.decode (emittedTokens_ne_nil suited' run) rest

/-- Every step of a run is one of a suited request. -/
theorem run_emits [LawfulFloating F] (suited : Suited r) (run : Run r steps) :
    ∀ step ∈ steps, ∃ accepted last, Emits step.1 accepted last step.2 := by
  induction run with
  | @last r f step =>
    simp only [List.mem_singleton, forall_eq]
    exact step.emits suited
  | @next r f s n steps step goes_on accepts run ih =>
    have emits := step.emits suited
    refine List.forall_mem_cons.mpr ⟨emits, ih ?_⟩
    obtain ⟨accepted, last, emits⟩ := emits
    have deterministic : r.sampler.config.Deterministic := ⟨step.valid, suited.random⟩
    have follows := emits.accepts deterministic suited.settled goes_on accepts
    exact suited.after emits (follows.kept deterministic suited.settled)

/-- A run of steps emits what decoding one token at a time does. A step emits one token at least,
no more than it may and none after a stop token; it commits the current token and the accepted
drafts, hands their hidden states to the backend and leaves the sampler as it was. -/
theorem run_lossless [LawfulFloating F] [Inhabited Γ]
    {steps : List (StepRequest (Except String) D Γ F G Hidden ×
      Finished (Except String) D Γ F G Hidden)}
    (random : r.sampler.config.usesRandomSampling = false) (reachable : r.sampler.Reachable)
    (fits : FitsAll r.sampler.config r.verifier.target)
    (formed : ∀ b, r.verifier.drafter = some b → b.WellFormed) (run : Run r steps) :
    decode r.verifier.target r.eos (emittedTokens steps).length
        (r.verifier.executor.tokens ++ [r.currentToken]) r.sampler = .ok (emittedTokens steps) ∧
      ∀ step ∈ steps, 1 ≤ step.2.result.emittedTokens.length ∧
        step.2.result.emittedTokens.length ≤ step.1.maxEmittedTokens ∧
        (∀ token ∈ step.2.result.emittedTokens.dropLast,
          step.1.verifier.target.stops step.1.eos token = false) ∧
        ∃ accepted last, Emits step.1 accepted last step.2 := by
  have suited : Suited r := ⟨random, reachable.settled, fits, formed⟩
  refine ⟨run_decodes suited run, fun step member => ?_⟩
  obtain ⟨accepted, last, emits⟩ := run_emits suited run step member
  have within := emits.within
  rw [emits.emitted, List.length_append, List.length_singleton, List.dropLast_concat]
  exact ⟨by omega, by omega, emits.follows.goes_on, accepted, last, emits⟩

end

/-! ## A run -/

section

instance wholeFloating : Floating Int := ⟨fun _ => true, fun x => 1 + x, id⟩

instance : LawfulFloating Int where
  exp_self v t _ := by simp [Floating.exp]
  zero_add_one := rfl
  zero_lt_one := Int.zero_lt_one
  finite_one := rfl
  one_div_one := rfl

instance wholeUniform : Uniform (Except String) Unit Int := ⟨fun rng => pure (0, rng)⟩

/-- A target that predicts 1 up to the third token and then the stop token 2. -/
def scriptedTarget : Target Int Unit where
  predict tokens := if tokens.length < 3 then 1 else 2
  logits tokens :=
    if tokens.length < 3 then [.finite 0, .finite 1, .finite 0]
    else [.negativeInfinity, .finite 0, .finite 1]
  hidden _ := ()
  stop token := token == 2
  vocabularySize := 3
  deviceResident := false
  retainsRows := false
  device_retains := off_device

/-- A backend that always proposes 1s. -/
def repeatingDrafter : Drafter (Except String) Unit Unit Int Unit Unit where
  supportsSampledProposals := true
  requiresTargetHiddenStates := true
  propose d _ position n := .ok ({ tokens := List.replicate n 1, startPos := position }, d)
  proposeForRequest d request :=
    .ok ({ tokens := List.replicate request.maxTokens 1, startPos := request.position }, d)
  proposeSampled d request rng :=
    .ok ({ tokens := [], startPos := request.position }, d, rng)
  appendTargetContext d _ _ := (true, d)
  updateTargetHidden d _ := d
  acceptFeedback d _ _ := d

def greedyConfig : SamplingConfig Unit Int where
  logprobs := none
  temperature := 0
  topK := 0
  topP := 1
  minP := 0
  minKeep := 0
  seed := -1
  repeatPenalty := 1
  repeatLastN := 4
  frequencyPenalty := 0
  presencePenalty := 0
  constraint := none
  reasoningBudget := none

def greedySampler : SamplerState Unit Int Unit :=
  { config := greedyConfig, constraintState := (), history := [0, 1], penaltyCounts := [], rng := () }

def scriptedRequest : StepRequest (Except String) Unit Unit Int Unit Unit where
  verifier :=
    { target := scriptedTarget
      drafter := some repeatingDrafter
      options := ⟨4, 1, 8, 0, false, true, false⟩
      executor := { tokens := [0] }
      draft := ()
      currentDraftLength := 4 }
  sequence := [0, 1]
  position := 1
  currentToken := 1
  eos := 2
  maxEmittedTokens := 3
  sampler := greedySampler

theorem scriptedTarget_fits : FitsAll greedyConfig scriptedTarget := by
  intro tokens
  by_cases short : tokens.length < 3
  · simp only [scriptedTarget, short, if_true]
    refine ⟨⟨1, rfl, fun i w at_i => ?_⟩, by decide, nofun⟩
    match i with
    | 0 => cases at_i; decide
    | 1 => cases at_i; decide
    | 2 => cases at_i; decide
    | i + 3 => cases at_i
  · simp only [scriptedTarget, short, if_false]
    refine ⟨⟨1, rfl, fun i w at_i => ?_⟩, by decide, nofun⟩
    match i with
    | 0 => cases at_i
    | 1 => cases at_i; decide
    | 2 => cases at_i; decide
    | i + 3 => cases at_i

theorem repeatingDrafter_wellFormed : repeatingDrafter.WellFormed where
  length asked := by
    cases asked
    simp

theorem greedySampler_reachable : greedySampler.Reachable :=
  have done : SamplerState.create greedyConfig [0, 1] () = .ok greedySampler := rfl
  .create done

/-- Of two drafts the first is accepted; the token after it stops the run. -/
theorem scripted_lossless : ∃ f, verifyStep scriptedRequest = (.ok f : Except String _) ∧
    f.result.emittedTokens = [1, 2] ∧
      decode scriptedTarget 2 2 [0, 1] greedySampler = .ok [1, 2] := by
  refine ⟨_, rfl, rfl, ?_⟩
  exact (run_lossless (r := scriptedRequest) rfl greedySampler_reachable scriptedTarget_fits
    (fun b given => by cases given; exact repeatingDrafter_wellFormed) (.last (.alone rfl))).1

end

end Gufo.Speculative
