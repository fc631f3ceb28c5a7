import Gufo.Speculative.Batch

/-!
# A verified proposal, row by row

What one chunk of rows decides, said without the chunk: `frontier base p i` are the
tokens committed at row `i` of the proposal, and `verifyDrafts` reads the target at
them. `processChunk_eq` is the code's chunk in these terms.
-/

namespace Gufo.Speculative

set_option linter.unusedSectionVars false

section
variable {m : Type → Type} [Monad m] [MonadExcept String m]
variable {D Γ F G Hidden : Type}

/-! ## Rows -/

/-- The committed tokens after each token of a list. -/
def prefixes (base : List TokenId) : List TokenId → List (List TokenId)
  | [] => []
  | t :: ts => (base ++ [t]) :: prefixes (base ++ [t]) ts

/-- What the target returns for a chunk whose rows stand at these tokens. -/
def chunkOf (t : Target F Hidden) (captureHidden captureLogits : Bool)
    (rows : List (List TokenId)) : VerificationChunk F Hidden :=
  { predictions := rows.map t.predict
    hiddenStates := if captureHidden then rows.map t.hidden else []
    logits := if captureLogits then rows.map t.logits else [] }

theorem forwardVerificationChunk_eq [LawfulMonad m] {t : Target F Hidden}
    {captureHidden captureLogits : Bool} {ts : List TokenId} {position : Nat} {e : Executor}
    (h : position = e.tokens.length) :
    (e.forwardVerificationChunk t captureHidden captureLogits ts position :
        m (VerificationChunk F Hidden × Executor)) =
      pure (chunkOf t captureHidden captureLogits (prefixes e.tokens ts),
        { e with tokens := e.tokens ++ ts, rows := prefixes e.tokens ts }) := by
  induction ts generalizing position e with
  | nil => cases captureHidden <;> cases captureLogits <;>
      simp [Executor.forwardVerificationChunk, chunkOf, prefixes]
  | cons token ts ih =>
    have tail := @ih (position + 1) { e with tokens := e.tokens ++ [token] } (by simp [h])
    simp only [Executor.forwardVerificationChunk, Executor.forwardToken, if_pos h, pure_bind, tail]
    cases captureHidden <;> cases captureLogits <;> simp [chunkOf, prefixes]

theorem commitVerificationChunk_eq [LawfulMonad m] {ts : List TokenId} {position : Nat}
    {e : Executor} (h : position = e.tokens.length) :
    (e.commitVerificationChunk ts position : m Executor) =
      pure { e with tokens := e.tokens ++ ts } := by
  induction ts generalizing position e with
  | nil => simp [Executor.commitVerificationChunk]
  | cons token ts ih =>
    have tail := @ih (position + 1) { e with tokens := e.tokens ++ [token] } (by simp [h])
    simp [Executor.commitVerificationChunk, Executor.forwardToken, if_pos h, tail]

/-- The tokens committed at row `i` of a proposal. -/
def frontier (base : List TokenId) (p : PreparedStep Γ F G) (i : Nat) : List TokenId :=
  base ++ p.inputs.take (i + 1)

/-- The frontiers of the rows from `first` to `last`. -/
def frontiers (base : List TokenId) (p : PreparedStep Γ F G) (first last : Nat) :
    List (List TokenId) :=
  (List.range' first (last - first)).map (frontier base p)

theorem getElem?_frontiers (base : List TokenId) (p : PreparedStep Γ F G) {first last i : Nat}
    (low : first ≤ i) (high : i < last) :
    (frontiers base p first last)[i - first]? = some (frontier base p i) := by
  have inside : i - first < last - first := by omega
  simp [frontiers, inside, Nat.add_sub_cancel' low]

variable {p : PreparedStep Γ F G} {base : List TokenId}

theorem length_frontiers {first last : Nat} :
    (frontiers base p first last).length = last - first := by
  simp [frontiers]

theorem take_frontiers {first middle last : Nat}
    (h : middle ≤ last) :
    (frontiers base p first last).take (middle - first) = frontiers base p first middle := by
  simp only [frontiers, ← List.map_take]
  rw [List.take_range'_of_length_ge (by omega)]

theorem prefixes_eq {first n : Nat}
    (h : first + n ≤ p.inputs.length) :
    prefixes (base ++ p.inputs.take first) ((p.inputs.drop first).take n) =
      frontiers base p first (first + n) := by
  induction n generalizing first with
  | zero => simp [prefixes, frontiers]
  | succ n ih =>
    have inside : first < p.inputs.length := by omega
    have tail := @ih (first + 1) (by omega)
    rw [List.take_succ_eq_append_getElem inside, ← List.append_assoc] at tail
    rw [List.drop_eq_getElem_cons inside, List.take_succ_cons, prefixes, tail]
    simp [frontiers, frontier, List.range'_succ]

/-- The verifier once its target holds these tokens and rows. -/
def Verifier.holding (v : Verifier m D Γ F G Hidden) (tokens : List TokenId)
    (rows : List (List TokenId)) : Verifier m D Γ F G Hidden :=
  { v with executor := { v.executor with tokens, rows } }

/-- What the backend receives of these rows. -/
def Verifier.hear (v : Verifier m D Γ F G Hidden) (captureHidden : Bool)
    (rows : List (List TokenId)) : Verifier m D Γ F G Hidden :=
  { v with draft :=
    if captureHidden then (v.updateTargetHidden (rows.map v.target.hidden)).draft else v.draft }

/-- A proposal some of whose rows are verified, all of them accepted. -/
structure Underway (p : PreparedStep Γ F G) (v : Verifier m D Γ F G Hidden)
    (base : List TokenId) : Prop where
  proposal : p.targetOnly = false
  inputs : ∃ current, p.inputs = current :: p.proposal.tokens
  within : p.verifiedRows ≤ p.proposal.tokens.length
  accepted : p.acceptedCount = p.verifiedRows
  tokens : v.executor.tokens = base ++ p.inputs.take p.verifiedRows
  saved : v.executor.saved = base
  sampled : v.target.deviceResident = false → p.sampled = true → p.captureLogits = true
  working : p.workingSampler.isSome = p.sampled

variable {tokens : List TokenId} {rows : List (List TokenId)}

section
variable {p : PreparedStep Γ F G} {v : Verifier m D Γ F G Hidden} {base : List TokenId}

omit [Monad m] [MonadExcept String m] in
theorem Underway.length_inputs (h : Underway p v base) :
    p.inputs.length = p.proposal.tokens.length + 1 := by
  obtain ⟨current, eq⟩ := h.inputs
  simp [eq]

/-- The logits of a row the verifier can read: captured, or kept by the executor. -/
def shownLogits (t : Target F Hidden) (p : PreparedStep Γ F G) (tokens : List TokenId) :
    Option (Row F) :=
  if p.captureLogits || t.retainsRows then some (t.logits tokens) else none

omit [Monad m] [MonadExcept String m] in
theorem rowLogits_eq {row : Nat}
    (held : v.executor.rows = rows) (at_row : rows[row]? = some tokens) :
    rowLogits v p (chunkOf v.target p.captureHidden p.captureLogits rows) row =
      shownLogits v.target p tokens := by
  cases captured : p.captureLogits with
  | true => simp [rowLogits, shownLogits, captured, chunkOf, at_row]
  | false =>
    simp [rowLogits, shownLogits, captured, Executor.copyVerificationLogits, held, at_row]

end

section
variable [LinearOrder F] [Zero F] [One F] [Add F] [Sub F] [Mul F] [Div F] [NatCast F] [Floating F]

/-! ## The rows' decisions -/

def Target.stops (t : Target F Hidden) (eos token : TokenId) : Bool :=
  token == eos || t.stop token

omit [Monad m] [MonadExcept String m] [LinearOrder F] [Zero F] [One F] [Add F] [Sub F] [Mul F]
  [Div F] [NatCast F] [Floating F] in
theorem isStopToken_eq (v : Verifier m D Γ F G Hidden) (token eos : TokenId) :
    v.isStopToken token eos = v.target.stops eos token := rfl

/-- The log probabilities of accepted drafts, by row. -/
def recordAccepted (t : Target F Hidden) (p : PreparedStep Γ F G) (base : List TokenId)
    (logprobs : Option Nat) : List TokenId → Nat → m (List (TokenLogprobs F))
  | [], _ => pure []
  | token :: rest, row => do
    let first ← logprobsOf logprobs (shownLogits t p (frontier base p row)) token
    return first ++ (← recordAccepted t p base logprobs rest (row + 1))

omit [One F] [Mul F] [Div F] [NatCast F] in
theorem acceptedLogprobs_eq {logprobs : Option Nat} {last row : Nat}
    {v : Verifier m D Γ F G Hidden}
    (held : v.executor.rows = frontiers base p p.verifiedRows last)
    (inside : p.verifiedRows + row + tokens.length ≤ last) :
    acceptedLogprobs v p (chunkOf v.target p.captureHidden p.captureLogits
        (frontiers base p p.verifiedRows last)) logprobs tokens row =
      recordAccepted (m := m) v.target p base logprobs tokens (p.verifiedRows + row) := by
  induction tokens generalizing row with
  | nil => rfl
  | cons token rest ih =>
    rw [List.length_cons] at inside
    have at_row := getElem?_frontiers base p (Nat.le_add_right p.verifiedRows row)
      (show p.verifiedRows + row < last by omega)
    rw [Nat.add_sub_cancel_left] at at_row
    have tail := @ih (row + 1) (by omega)
    simp only [acceptedLogprobs, recordAccepted, rowLogits_eq held at_row, tail, Nat.add_assoc]

/-- The step's outcome once row `accepted` has stopped the proposal; `rows` are the rows the
executor still holds. -/
def concluded (p : PreparedStep Γ F G) (v : Verifier m D Γ F G Hidden) (base : List TokenId)
    (sampler : SamplerState Γ F G) (rows : List (List TokenId)) (accepted : Nat)
    (correction : TokenId) (working : SamplerState Γ F G) (logprobs : List (TokenLogprobs F)) :
    Finished m D Γ F G Hidden :=
  closeProposal p accepted correction working (shownLogits v.target p (frontier base p accepted))
    logprobs ((v.hear p.captureHidden (frontiers base p p.verifiedRows (accepted + 1))).holding
      (frontier base p accepted) rows) sampler

section
variable [Uniform m G F]

/-- `select_row` where row and prediction are the target's at these tokens. -/
def selectAt (t : Target F Hidden) (tokens : List TokenId) (working : SamplerState Γ F G) :
    m (TokenId × SamplerState Γ F G) := do
  if ← MonadExcept.ofExcept (working.canSelectArgmax (t.predict tokens)) then
    return (t.predict tokens, working)
  else working.sample (t.logits tokens)

/-- The token at a row, whether the proposal goes on, and the working sampler. -/
def judge (t : Target F Hidden) (p : PreparedStep Γ F G) (tokens : List TokenId) (index : Nat)
    (draft : TokenId) (working : SamplerState Γ F G) :
    m (TokenId × Bool × SamplerState Γ F G) :=
  if !p.sampled then
    let prediction := t.predict tokens
    pure (prediction, prediction == draft && !t.stops p.eos prediction, working)
  else if !p.randomSampling then do
    let (selected, working) ← selectAt t tokens working
    if selected == draft && !t.stops p.eos selected then
      return (selected, true, ← MonadExcept.ofExcept (working.accept selected))
    else return (selected, false, working)
  else do
    let draftProbability ← required p.tokenProbabilities[index]? "verification row is missing"
    let ((token, kept), working) ←
      verifySampledToken (t.logits tokens) draft (p.proposal.row index) draftProbability working
    return (token, kept && !t.stops p.eos draft, working)

/-- The loop over the drafts. -/
def verifyDrafts (t : Target F Hidden) (p : PreparedStep Γ F G) (base : List TokenId) :
    List TokenId → Nat → SamplerState Γ F G → m (Nat × TokenId × SamplerState Γ F G)
  | [], accepted, working => pure (accepted, 0, working)
  | draft :: rest, accepted, working => do
    let (token, kept, working) ← judge t p (frontier base p accepted) accepted draft working
    if kept then verifyDrafts t p base rest (accepted + 1) working
    else return (accepted, token, working)

/-- The token after a proposal that was accepted whole. -/
def bonus (t : Target F Hidden) (p : PreparedStep Γ F G) (base : List TokenId) (accepted : Nat)
    (correction : TokenId) (working : SamplerState Γ F G) : m (TokenId × SamplerState Γ F G) :=
  if accepted = p.proposal.tokens.length then
    if p.sampled then selectAt t (frontier base p accepted) working
    else pure (t.predict (frontier base p accepted), working)
  else pure (correction, working)

def conclude (p : PreparedStep Γ F G) (v : Verifier m D Γ F G Hidden) (base : List TokenId)
    (sampler : SamplerState Γ F G) (rows : List (List TokenId)) (accepted : Nat)
    (correction : TokenId) (working : SamplerState Γ F G) (logprobs : List (TokenLogprobs F)) :
    m (Finished m D Γ F G Hidden) := do
  let (correction, working) ← bonus v.target p base accepted correction working
  let last ← logprobsOf sampler.config.logprobs
    (shownLogits v.target p (frontier base p accepted)) correction
  return concluded p v base sampler rows accepted correction working (logprobs ++ last)

/-- The prepared step once every row up to `last` is accepted. -/
def PreparedStep.resumed (p : PreparedStep Γ F G) (last accepted : Nat)
    (working : SamplerState Γ F G) (logprobs : List (TokenLogprobs F)) : PreparedStep Γ F G :=
  { p with
    logprobs
    acceptedCount := accepted
    verifiedRows := last
    workingSampler := p.workingSampler.map fun _ => working }

/-- The verifier once its backend has heard every row up to `last`. -/
def Verifier.resumed (v : Verifier m D Γ F G Hidden) (p : PreparedStep Γ F G)
    (base : List TokenId) (last : Nat) : Verifier m D Γ F G Hidden :=
  (v.hear p.captureHidden (frontiers base p p.verifiedRows last)).holding
    (base ++ p.inputs.take last) (frontiers base p p.verifiedRows last)

/-- One chunk, up to row `last`. -/
def settleChunk (p : PreparedStep Γ F G) (v : Verifier m D Γ F G Hidden) (base : List TokenId)
    (sampler : SamplerState Γ F G) (last : Nat) :
    m ((PreparedStep Γ F G × Verifier m D Γ F G Hidden) ⊕ Finished m D Γ F G Hidden) := do
  let rows := frontiers base p p.verifiedRows last
  let (accepted, correction, working) ← verifyDrafts v.target p base
    ((p.proposal.tokens.take last).drop p.verifiedRows) p.verifiedRows
    (p.workingSampler.getD sampler)
  let logprobs ← recordAccepted v.target p base sampler.config.logprobs
    ((p.proposal.tokens.take accepted).drop p.verifiedRows) p.verifiedRows
  if accepted < last then
    return .inr (← conclude p v base sampler rows accepted correction working
      (p.logprobs ++ logprobs))
  else
    return .inl (p.resumed last accepted working (p.logprobs ++ logprobs), v.resumed p base last)

/-- All the rows that are left, to the end of the step. -/
def settle (p : PreparedStep Γ F G) (v : Verifier m D Γ F G Hidden) (base : List TokenId)
    (sampler : SamplerState Γ F G) : m (Finished m D Γ F G Hidden) := do
  let (accepted, correction, working) ← verifyDrafts v.target p base
    (p.proposal.tokens.drop p.verifiedRows) p.verifiedRows (p.workingSampler.getD sampler)
  let logprobs ← recordAccepted v.target p base sampler.config.logprobs
    ((p.proposal.tokens.take accepted).drop p.verifiedRows) p.verifiedRows
  conclude p v base sampler (frontiers base p p.verifiedRows p.inputs.length) accepted correction
    working (p.logprobs ++ logprobs)

/-! ## The code's chunk -/

variable {p : PreparedStep Γ F G} {v : Verifier m D Γ F G Hidden} {base : List TokenId}
  {sampler working : SamplerState Γ F G}

variable [LawfulMonad m]

theorem selectRow_eq {row : Nat}
    (held : v.executor.rows = rows) (at_row : rows[row]? = some tokens)
    (captured : v.target.deviceResident = false → p.captureLogits = true) :
    selectRow v (chunkOf v.target p.captureHidden p.captureLogits rows) row working =
      selectAt v.target tokens working := by
  have predicted : (chunkOf v.target p.captureHidden p.captureLogits rows).predictions[row]? =
      some (v.target.predict tokens) := by simp [chunkOf, at_row]
  simp only [selectRow, predicted, selectAt]
  refine bind_congr fun selectable => ?_
  cases selectable with
  | true => simp
  | false =>
    cases device : v.target.deviceResident with
    | true =>
      simp [Executor.copyVerificationLogits, v.target.device_retains device, held, at_row, required]
    | false => simp [chunkOf, captured device, at_row, required]

variable {last accepted : Nat}

theorem acceptDrafts_eq {drafts : List TokenId}
    (held : v.executor.rows = frontiers base p p.verifiedRows last)
    (captured : v.target.deviceResident = false → p.sampled = true → p.captureLogits = true)
    (low : p.verifiedRows ≤ accepted) (high : accepted + drafts.length ≤ last) :
    acceptDrafts v p (chunkOf v.target p.captureHidden p.captureLogits
        (frontiers base p p.verifiedRows last)) drafts accepted working =
      verifyDrafts v.target p base drafts accepted working := by
  induction drafts generalizing accepted working with
  | nil => rfl
  | cons draft rest ih =>
    rw [List.length_cons] at high
    have at_row := getElem?_frontiers base p low (show accepted < last by omega)
    have tail := fun w => @ih w (accepted + 1) (by omega) (by omega)
    cases sampled : p.sampled with
    | false =>
      have predicted : (chunkOf v.target p.captureHidden p.captureLogits
          (frontiers base p p.verifiedRows last)).predictions[accepted - p.verifiedRows]? =
          some (v.target.predict (frontier base p accepted)) := by
        simp [chunkOf, at_row]
      simp only [acceptDrafts, verifyDrafts, judge, sampled, Bool.not_false, if_true, predicted,
        required, pure_bind, tail, isStopToken_eq]
      by_cases same : v.target.predict (frontier base p accepted) = draft <;>
        cases stops : v.target.stops p.eos (v.target.predict (frontier base p accepted)) <;>
        simp [same]
    | true =>
      have captured := fun device => captured device sampled
      cases random : p.randomSampling with
      | false =>
        simp only [acceptDrafts, verifyDrafts, judge, sampled, random, Bool.not_true,
          Bool.not_false, Bool.false_eq_true, if_false, if_true, tail,
          selectRow_eq held at_row captured, bind_assoc, isStopToken_eq]
        refine bind_congr fun selected => ?_
        by_cases same : selected.1 = draft <;>
          cases stops : v.target.stops p.eos selected.1 <;> simp [same]
      | true =>
        have device_row (device : v.target.deviceResident = true) :
            v.executor.copyVerificationLogits v.target (accepted - p.verifiedRows) =
              some (v.target.logits (frontier base p accepted)) := by
          simp [Executor.copyVerificationLogits, v.target.device_retains device, held, at_row]
        have chunk_row (host : v.target.deviceResident = false) :
            (chunkOf v.target p.captureHidden p.captureLogits
              (frontiers base p p.verifiedRows last)).logits[accepted - p.verifiedRows]? =
              some (v.target.logits (frontier base p accepted)) := by
          simp [chunkOf, captured host, at_row]
        simp only [acceptDrafts, verifyDrafts, judge, sampled, random, Bool.not_true,
          Bool.false_eq_true, if_false, tail, bind_assoc, pure_bind, isStopToken_eq]
        refine bind_congr fun draftProbability => ?_
        cases device : v.target.deviceResident with
        | true =>
          simp only [if_true, device_row device, required, pure_bind]
          refine bind_congr fun decision => ?_
          obtain ⟨⟨token, kept⟩, after⟩ := decision
          cases kept <;> cases v.target.stops p.eos draft <;> simp
        | false =>
          simp only [Bool.false_eq_true, if_false, chunk_row device, required, pure_bind]
          refine bind_congr fun decision => ?_
          obtain ⟨⟨token, kept⟩, after⟩ := decision
          cases kept <;> cases v.target.stops p.eos draft <;> simp

/-- What the accept loop returns lies within its drafts. -/
theorem verifyDrafts_congr {β : Type} {t : Target F Hidden} {drafts : List TokenId}
    {accepted : Nat} {k k' : Nat × TokenId × SamplerState Γ F G → m β}
    (h : ∀ r : Nat × TokenId × SamplerState Γ F G, accepted ≤ r.1 →
      r.1 ≤ accepted + drafts.length → k r = k' r) :
    verifyDrafts t p base drafts accepted working >>= k =
      verifyDrafts t p base drafts accepted working >>= k' := by
  induction drafts generalizing accepted working with
  | nil =>
    simp only [verifyDrafts, pure_bind]
    exact h _ (Nat.le_refl _) (Nat.le_refl _)
  | cons draft rest ih =>
    simp only [verifyDrafts, bind_assoc]
    refine bind_congr fun decision => ?_
    cases decision.2.1 with
    | true =>
      refine ih fun r low high => h r (by omega) ?_
      rw [List.length_cons]
      omega
    | false =>
      simp only [Bool.false_eq_true, if_false, pure_bind]
      exact h _ (Nat.le_refl _) (Nat.le_add_right _ _)

omit [Monad m] [MonadExcept String m] [LawfulMonad m] [LinearOrder F] [Zero F] [One F] [Add F]
  [Sub F] [Mul F] [Div F] [NatCast F] [Floating F] [Uniform m G F] in
/-- The rows a chunk hands to the backend. -/
theorem updateTargetHidden_take {committed last : Nat} (h : committed ≤ last) :
    (if p.captureHidden then
        v.updateTargetHidden ((chunkOf v.target p.captureHidden p.captureLogits
          (frontiers base p p.verifiedRows last)).hiddenStates.take (committed - p.verifiedRows))
      else v) = v.hear p.captureHidden (frontiers base p p.verifiedRows committed) := by
  cases capture : p.captureHidden with
  | false => simp [Verifier.hear]
  | true =>
    simp only [if_true, Verifier.hear, chunkOf, ← List.map_take, take_frontiers h]
    rfl

theorem finalToken_eq {accepted : Nat} {correction : TokenId}
    (held : v.executor.rows = rows)
    (at_row : rows[accepted - p.verifiedRows]? = some (frontier base p accepted))
    (captured : v.target.deviceResident = false → p.sampled = true → p.captureLogits = true) :
    finalToken p (chunkOf v.target p.captureHidden p.captureLogits rows) accepted correction working
        v = bonus v.target p base accepted correction working := by
  unfold finalToken bonus
  by_cases whole : accepted = p.proposal.tokens.length
  · rw [if_pos whole, if_pos whole]
    cases sampled : p.sampled with
    | true =>
      exact selectRow_eq held at_row fun device => captured device sampled
    | false => simp [chunkOf, at_row, required]
  · rw [if_neg whole, if_neg whole]

omit [LinearOrder F] [Zero F] [One F] [Add F] [Sub F] [Mul F] [Div F] [NatCast F] [Floating F]
  [Uniform m G F] in
theorem commitAccepted_eq {e : Executor} (saved : e.saved = base)
    (tokens : e.tokens = base ++ p.inputs.take last) (position : p.position = base.length)
    (high : accepted < last) :
    (commitAccepted p accepted last e : m Executor) =
      pure { e with tokens := frontier base p accepted } := by
  unfold commitAccepted
  by_cases past : accepted + 1 < last
  · rw [if_pos past, commitVerificationChunk_eq (by simp [Executor.restoreState, saved, position])]
    simp [Executor.restoreState, saved, frontier]
  · have exact_ : last = accepted + 1 := by omega
    rw [if_neg past]
    subst exact_
    simp [frontier, ← tokens]

/-- The end of a proposal, once a row of the chunk has stopped it. -/
theorem finishProposal_eq {correction : TokenId}
    {logprobs : List (TokenLogprobs F)} (h : Underway p v base) (position : p.position = base.length)
    (low : p.verifiedRows ≤ accepted) (high : accepted < last) :
    finishProposal { p with logprobs, acceptedCount := accepted, targetOnly := false }
        (chunkOf v.target p.captureHidden p.captureLogits (frontiers base p p.verifiedRows last))
        accepted correction working last
        ((v.hear p.captureHidden (frontiers base p p.verifiedRows (accepted + 1))).holding
          (base ++ p.inputs.take last) (frontiers base p p.verifiedRows last)) sampler =
      conclude p v base sampler (frontiers base p p.verifiedRows last) accepted correction working
        logprobs := by
  have at_row := getElem?_frontiers base p low high
  have token : finalToken p (chunkOf v.target p.captureHidden p.captureLogits
      (frontiers base p p.verifiedRows last)) accepted correction working
      ((v.hear p.captureHidden (frontiers base p p.verifiedRows (accepted + 1))).holding
        (base ++ p.inputs.take last) (frontiers base p p.verifiedRows last)) =
      bonus v.target p base accepted correction working := finalToken_eq rfl at_row h.sampled
  have shown : rowLogits ((v.hear p.captureHidden
        (frontiers base p p.verifiedRows (accepted + 1))).holding (base ++ p.inputs.take last)
          (frontiers base p p.verifiedRows last)) p (chunkOf v.target p.captureHidden
        p.captureLogits (frontiers base p p.verifiedRows last)) (accepted - p.verifiedRows) =
      shownLogits v.target p (frontier base p accepted) := rowLogits_eq rfl at_row
  have committed : (commitAccepted p accepted last ((v.hear p.captureHidden
        (frontiers base p p.verifiedRows (accepted + 1))).holding (base ++ p.inputs.take last)
          (frontiers base p p.verifiedRows last)).executor : m Executor) =
      pure { v.executor with
        tokens := frontier base p accepted, rows := frontiers base p p.verifiedRows last } :=
    commitAccepted_eq h.saved rfl position high
  calc
    _ = finalToken p (chunkOf v.target p.captureHidden p.captureLogits
          (frontiers base p p.verifiedRows last)) accepted correction working
          ((v.hear p.captureHidden (frontiers base p p.verifiedRows (accepted + 1))).holding
            (base ++ p.inputs.take last) (frontiers base p p.verifiedRows last)) >>= fun r => do
        let last_ ← logprobsOf sampler.config.logprobs (rowLogits ((v.hear p.captureHidden
          (frontiers base p p.verifiedRows (accepted + 1))).holding (base ++ p.inputs.take last)
            (frontiers base p p.verifiedRows last)) p (chunkOf v.target p.captureHidden
          p.captureLogits (frontiers base p p.verifiedRows last)) (accepted - p.verifiedRows)) r.1
        let executor ← commitAccepted p accepted last ((v.hear p.captureHidden
          (frontiers base p p.verifiedRows (accepted + 1))).holding (base ++ p.inputs.take last)
            (frontiers base p p.verifiedRows last)).executor
        return closeProposal p accepted r.1 r.2 (rowLogits ((v.hear p.captureHidden
          (frontiers base p p.verifiedRows (accepted + 1))).holding (base ++ p.inputs.take last)
            (frontiers base p p.verifiedRows last)) p (chunkOf v.target p.captureHidden
          p.captureLogits (frontiers base p p.verifiedRows last)) (accepted - p.verifiedRows))
          (logprobs ++ last_) { v.hear p.captureHidden
            (frontiers base p p.verifiedRows (accepted + 1)) with executor } sampler := rfl
    _ = _ := by
      rw [token, shown, committed]
      simp only [pure_bind]
      rfl

/-- The code's chunk is the decisions of its rows. -/
theorem processChunk_eq {last : Nat} (h : Underway p v base)
    (rows : last = p.verifiedRows + p.chunkRows) (nonempty : p.verifiedRows < last)
    (position : p.position = base.length) :
    processVerificationChunk p (chunkOf v.target p.captureHidden p.captureLogits
        (frontiers base p p.verifiedRows last))
      (v.holding (base ++ p.inputs.take last) (frontiers base p p.verifiedRows last))
      sampler = settleChunk p v base sampler last := by
  have many : (frontiers base p p.verifiedRows last).length = p.chunkRows := by
    rw [length_frontiers]
    omega
  have predictions : (chunkOf v.target p.captureHidden p.captureLogits
      (frontiers base p p.verifiedRows last)).predictions.length = p.chunkRows := by
    simp [chunkOf, many]
  have logits : (p.captureLogits && (chunkOf v.target p.captureHidden p.captureLogits
      (frontiers base p p.verifiedRows last)).logits.length != p.chunkRows) = false := by
    cases p.captureLogits <;> simp [chunkOf, many]
  have hidden : (p.captureHidden && (chunkOf v.target p.captureHidden p.captureLogits
      (frontiers base p p.verifiedRows last)).hiddenStates.length != p.chunkRows) = false := by
    cases p.captureHidden <;> simp [chunkOf, many]
  have drafts : ((p.proposal.tokens.take last).drop p.verifiedRows).length ≤
      last - p.verifiedRows := by
    rw [List.length_drop, List.length_take]
    omega
  have loop : acceptDrafts (v.holding (base ++ p.inputs.take last)
        (frontiers base p p.verifiedRows last)) p (chunkOf v.target p.captureHidden
        p.captureLogits (frontiers base p p.verifiedRows last))
        ((p.proposal.tokens.take last).drop p.verifiedRows) p.verifiedRows
        (p.workingSampler.getD sampler) =
      verifyDrafts v.target p base ((p.proposal.tokens.take last).drop p.verifiedRows)
        p.verifiedRows (p.workingSampler.getD sampler) :=
    acceptDrafts_eq rfl h.sampled (Nat.le_refl p.verifiedRows) (by omega)
  unfold processVerificationChunk settleChunk
  simp only [predictions, logits, hidden, h.proposal, ← rows, bne_self_eq_false, Bool.and_false,
    Bool.false_eq_true, if_false, h.accepted]
  refine (congrArg (· >>= _) loop).trans (verifyDrafts_congr fun r low high => ?_)
  obtain ⟨accepted, correction, after⟩ := r
  have heard : (if p.captureHidden then
        (v.holding (base ++ p.inputs.take last) (frontiers base p p.verifiedRows last)).updateTargetHidden
          ((chunkOf v.target p.captureHidden p.captureLogits
            (frontiers base p p.verifiedRows last)).hiddenStates.take
              ((if accepted < last then accepted + 1 else last) - p.verifiedRows))
      else v.holding (base ++ p.inputs.take last) (frontiers base p p.verifiedRows last)) =
      (v.hear p.captureHidden (frontiers base p p.verifiedRows
        (if accepted < last then accepted + 1 else last))).holding
          (base ++ p.inputs.take last) (frontiers base p p.verifiedRows last) := by
    refine updateTargetHidden_take (v := v.holding (base ++ p.inputs.take last)
      (frontiers base p p.verifiedRows last)) ?_
    split <;> omega
  rw [heard]
  have recorded : acceptedLogprobs ((v.hear p.captureHidden (frontiers base p p.verifiedRows
        (if accepted < last then accepted + 1 else last))).holding (base ++ p.inputs.take last)
          (frontiers base p p.verifiedRows last)) p (chunkOf v.target p.captureHidden
        p.captureLogits (frontiers base p p.verifiedRows last)) sampler.config.logprobs
        ((p.proposal.tokens.take accepted).drop p.verifiedRows) 0 =
      recordAccepted (m := m) v.target p base sampler.config.logprobs
        ((p.proposal.tokens.take accepted).drop p.verifiedRows) (p.verifiedRows + 0) := by
    refine acceptedLogprobs_eq rfl ?_
    rw [List.length_drop, List.length_take]
    omega
  rw [recorded, Nat.add_zero]
  refine bind_congr fun logprobs => ?_
  by_cases complete : accepted < last
  · simp only [if_pos complete]
    rw [finishProposal_eq h position low complete]
  · simp [if_neg complete, PreparedStep.resumed, Verifier.resumed, h.proposal]

/-- With all its rows a proposal is finished. -/
theorem settleChunk_whole (h : Underway p v base) :
    settleChunk p v base sampler p.inputs.length =
      settle p v base sampler >>= fun f => pure (.inr f) := by
  have length := h.length_inputs
  have within := h.within
  have all : p.proposal.tokens.take p.inputs.length = p.proposal.tokens :=
    List.take_of_length_le (by omega)
  simp only [settleChunk, settle, all, bind_assoc]
  refine verifyDrafts_congr fun r _ high => bind_congr fun logprobs => ?_
  rw [List.length_drop] at high
  rw [if_pos (show r.1 < p.inputs.length by omega)]

theorem Underway.resumed {last : Nat} {logprobs : List (TokenLogprobs F)} (h : Underway p v base)
    (within : last ≤ p.proposal.tokens.length) :
    Underway (p.resumed last last working logprobs) (v.resumed p base last) base where
  proposal := h.proposal
  inputs := h.inputs
  within := within
  accepted := rfl
  tokens := rfl
  saved := h.saved
  sampled := h.sampled
  working := by simpa [PreparedStep.resumed] using h.working

end
end
end

end Gufo.Speculative
