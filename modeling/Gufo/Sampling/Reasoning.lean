import Mathlib.Algebra.Order.Ring.Int

/-!
# The reasoning budget

The sampler counts the tokens of a reasoning phase, waits for the last one to complete its
character, and then forces the end of the phase token by token. Tokens of the prompt count
like accepted ones, in every phase: a prompt that goes on behind the spent budget stands for
the first forced tokens.
-/

namespace Gufo.Sampling

abbrev TokenId := UInt32

structure ReasoningBudget where
  tokens : Nat
  forced : List TokenId
  ends : List TokenId
  prompt : List TokenId
  partialUtf8 : Option (List Bool)

inductive ReasoningPhase where
  | off | counting | waitingUtf8 | forcing
deriving DecidableEq

/-- `reasoning_phase_`, `reasoning_remaining_` and `reasoning_forced_`. -/
structure Reasoning where
  phase : ReasoningPhase
  remaining : Nat
  forced : Nat
deriving DecidableEq

/-- The sampler: its reasoning, and its other fields. -/
structure SamplerState (ρ : Type) where
  budget : Option ReasoningBudget
  reasoning : Reasoning
  rest : ρ

/-- What the other fields do: the size of a logit row, a draw from it, `pending_sample_.reset()`,
and the constraint, the penalties and the history of accepted tokens. -/
structure Others (Row ρ : Type) where
  size : Row → Nat
  draw : ρ → Row → Except String (TokenId × ρ)
  resetPending : ρ → ρ
  record : ρ → List TokenId → Except String ρ

namespace ReasoningBudget

def complete (b : ReasoningBudget) (token : TokenId) : Bool :=
  match b.partialUtf8 with
  | none => true
  | some table => !(table.getD token.toNat false)

/-- `AdvanceReasoning`. While it counts, `remaining` is not zero. -/
def advance (b : ReasoningBudget) (r : Reasoning) (token : TokenId) : Reasoning :=
  match r.phase with
  | .off => r
  | .forcing =>
    if b.forced.length ≤ r.forced + 1 then { r with forced := r.forced + 1, phase := .off }
    else { r with forced := r.forced + 1 }
  | .counting =>
    if token ∈ b.ends then { r with phase := .off }
    else if r.remaining - 1 ≠ 0 then { r with remaining := r.remaining - 1 }
    else if b.complete token then ⟨.forcing, r.remaining - 1, 0⟩
    else ⟨.waitingUtf8, r.remaining - 1, r.forced⟩
  | .waitingUtf8 =>
    if token ∈ b.ends then { r with phase := .off }
    else if b.complete token then { r with phase := .forcing, forced := 0 }
    else r

end ReasoningBudget

namespace SamplerState
variable {Row ρ : Type}

/-- `StartReasoning`. -/
def startReasoning (budget : Option ReasoningBudget) : Reasoning :=
  match budget with
  | none => ⟨.off, 0, 0⟩
  | some b =>
    b.prompt.foldl b.advance ⟨if b.tokens = 0 then .forcing else .counting, b.tokens, 0⟩

/-- The constructor, with the check of `Validate` that concerns the budget. -/
def create (budget : Option ReasoningBudget) (rest : ρ) : Except String (SamplerState ρ) :=
  if budget.any fun b => b.forced.isEmpty then .error "reasoning budget has no forced end"
  else .ok ⟨budget, startReasoning budget, rest⟩

def forcedToken (s : SamplerState ρ) : Option TokenId :=
  match s.budget with
  | none => none
  | some b => if s.reasoning.phase = .forcing then b.forced[s.reasoning.forced]? else none

def accept (o : Others Row ρ) (s : SamplerState ρ) (tokens : List TokenId) :
    Except String (SamplerState ρ) :=
  let reasoning :=
    match s.budget with
    | none => s.reasoning
    | some b =>
      if s.reasoning.phase = .off then s.reasoning else tokens.foldl b.advance s.reasoning
  match o.record s.rest tokens with
  | .error message => .error message
  | .ok rest => .ok { s with reasoning, rest }

def sample (o : Others Row ρ) (s : SamplerState ρ) (row : Row) :
    Except String (TokenId × SamplerState ρ) :=
  if o.size row = 0 then .error "cannot sample an empty logit distribution"
  else if 2 ^ 32 - 1 < o.size row then .error "logit distribution exceeds token ID range"
  else
    match s.forcedToken with
    | some forced =>
      if o.size row ≤ forced.toNat then .error "forced token exceeds vocabulary"
      else .ok (forced, { s with rest := o.resetPending s.rest })
    | none =>
      match o.draw s.rest row with
      | .error message => .error message
      | .ok (token, rest) => .ok (token, { s with rest })

inductive Op (Row : Type) where
  | sample (row : Row)
  | accept (tokens : List TokenId)

def run (o : Others Row ρ) (s : SamplerState ρ) : List (Op Row) → Except String (SamplerState ρ)
  | [] => .ok s
  | .sample row :: rest =>
    match s.sample o row with
    | .error message => .error message
    | .ok (_, s') => s'.run o rest
  | .accept tokens :: rest =>
    match s.accept o tokens with
    | .error message => .error message
    | .ok s' => s'.run o rest

def accepted : List (Op Row) → List TokenId
  | [] => []
  | .sample _ :: rest => accepted rest
  | .accept tokens :: rest => tokens ++ accepted rest

end SamplerState

/-! ## When the budget is spent -/

/-- The token in front of position `p` completes its character. -/
def Completes (b : ReasoningBudget) (seen : List TokenId) (p : Nat) : Prop :=
  ∀ token, seen[p - 1]? = some token → b.complete token = true

/-- Behind `p` tokens the budget is spent: `p` is the first place with so many tokens and a
complete character, and no end comes before it. A budget of nothing is spent at once. -/
structure Spent (b : ReasoningBudget) (seen : List TokenId) (p : Nat) : Prop where
  inside : p ≤ seen.length
  enough : b.tokens ≤ p
  complete : b.tokens ≠ 0 → Completes b seen p
  first : ∀ q, b.tokens ≤ q → q < p → b.tokens ≠ 0 ∧ ¬Completes b seen q
  going : ∀ token ∈ seen.take p, token ∉ b.ends

/-- An end token comes before the budget is spent. -/
def EndsFirst (b : ReasoningBudget) (seen : List TokenId) : Prop :=
  ∃ i token, seen[i]? = some token ∧ token ∈ b.ends ∧ ∀ p ≤ i, ¬Spent b seen p

variable {token : TokenId}

section
variable {b : ReasoningBudget} {seen more : List TokenId} {p q : Nat}

theorem completes_append (pos : 0 < p) (inside : p ≤ seen.length) :
    Completes b (seen ++ more) p ↔ Completes b seen p := by
  unfold Completes
  rw [List.getElem?_append_left (by omega)]

theorem spent_append (inside : p ≤ seen.length) :
    Spent b (seen ++ more) p ↔ Spent b seen p := by
  have front : (seen ++ more).take p = seen.take p := List.take_append_of_le_length inside
  constructor
  · intro h
    refine ⟨inside, h.enough, fun some => ?_, fun q low high => ?_, front ▸ h.going⟩
    · have := h.enough
      exact (completes_append (by omega) inside).mp (h.complete some)
    · obtain ⟨some, not⟩ := h.first q low high
      exact ⟨some, fun now => not ((completes_append (by omega) (by omega)).mpr now)⟩
  · intro h
    refine ⟨by rw [List.length_append]; omega, h.enough, fun some => ?_, fun q low high => ?_,
      front ▸ h.going⟩
    · have := h.enough
      exact (completes_append (by omega) inside).mpr (h.complete some)
    · obtain ⟨some, not⟩ := h.first q low high
      exact ⟨some, fun now => not ((completes_append (by omega) (by omega)).mp now)⟩

theorem Spent.le (hp : Spent b seen p) (hq : Spent b seen q) : p ≤ q := by
  by_contra later
  obtain ⟨some, not⟩ := hp.first q hq.enough (by omega)
  exact not (hq.complete some)

theorem Spent.unique (hp : Spent b seen p) (hq : Spent b seen q) : p = q :=
  Nat.le_antisymm (hp.le hq) (hq.le hp)

theorem EndsFirst.append (h : EndsFirst b seen) (more : List TokenId) :
    EndsFirst b (seen ++ more) := by
  obtain ⟨i, token, stored, ends, none⟩ := h
  have inside := (List.getElem?_eq_some_iff.mp stored).1
  refine ⟨i, token, by rw [List.getElem?_append_left inside, stored], ends, fun p le spent => ?_⟩
  exact none p le ((spent_append (by omega)).mp spent)

theorem EndsFirst.not_spent (h : EndsFirst b seen) : ¬Spent b seen p := by
  obtain ⟨i, token, stored, ends, none⟩ := h
  intro spent
  by_cases le : p ≤ i
  · exact none p le spent
  · refine spent.going token (List.mem_of_getElem? (i := i) ?_) ends
    rw [List.getElem?_take_of_lt (by omega), stored]

/-! ## The phases -/

/-- No end came, and the budget is not spent. -/
def Open (b : ReasoningBudget) (seen : List TokenId) : Prop :=
  (∀ token ∈ seen, token ∉ b.ends) ∧ ∀ p, ¬Spent b seen p

/-- What each phase says of the tokens that were counted. -/
def Tracks (b : ReasoningBudget) (seen : List TokenId) (r : Reasoning) : Prop :=
  match r.phase with
  | .counting => Open b seen ∧ seen.length < b.tokens ∧ r.remaining + seen.length = b.tokens
  | .waitingUtf8 => Open b seen ∧ b.tokens ≠ 0 ∧ b.tokens ≤ seen.length
  | .forcing => ∃ p, Spent b seen p ∧ r.forced + p = seen.length ∧ r.forced < b.forced.length
  | .off => EndsFirst b seen ∨ ∃ p, Spent b seen p ∧ b.forced.length + p ≤ seen.length

theorem Open.ended (h : Open b seen) (ends : token ∈ b.ends) :
    EndsFirst b (seen ++ [token]) :=
  ⟨seen.length, token, List.getElem?_concat_length, ends,
    fun p le spent => h.2 p ((spent_append le).mp spent)⟩

theorem completes_last :
    Completes b (seen ++ [token]) (seen.length + 1) ↔ b.complete token = true := by
  simp [Completes]

theorem Open.going (h : Open b seen) (goes : token ∉ b.ends) :
    ∀ t ∈ seen ++ [token], t ∉ b.ends := by
  intro t ht
  cases List.mem_append.mp ht with
  | inl old => exact h.1 t old
  | inr new => exact List.mem_singleton.mp new ▸ goes

/-- A token that does not spend the budget leaves it open. -/
theorem Open.stays (h : Open b seen) (goes : token ∉ b.ends)
    (unspent : seen.length + 1 < b.tokens ∨ b.tokens ≠ 0 ∧ b.complete token = false) :
    Open b (seen ++ [token]) := by
  refine ⟨h.going goes, fun p spent => ?_⟩
  by_cases old : p ≤ seen.length
  · exact h.2 p ((spent_append old).mp spent)
  · have inside := spent.inside
    have enough := spent.enough
    rw [List.length_append, List.length_singleton] at inside
    obtain rfl : p = seen.length + 1 := by omega
    cases unspent with
    | inl few => omega
    | inr partly =>
      have := completes_last.mp (spent.complete partly.1)
      rw [partly.2] at this
      cases this

/-- A token that completes its character behind enough of them spends it. -/
theorem Open.spends (h : Open b seen) (goes : token ∉ b.ends)
    (some : b.tokens ≠ 0) (enough : b.tokens ≤ seen.length + 1)
    (complete : b.complete token = true) :
    Spent b (seen ++ [token]) (seen.length + 1) := by
  have length : (seen ++ [token]).length = seen.length + 1 := by
    rw [List.length_append, List.length_singleton]
  refine ⟨by omega, enough, fun _ => completes_last.mpr complete, ?_, fun t ht => ?_⟩
  · -- the first such place in what was seen before would have spent it
    intro q
    induction q using Nat.strongRecOn with
    | ind q ih =>
      intro low high
      refine ⟨some, fun now => h.2 q ?_⟩
      refine ⟨by omega, low, fun _ => (completes_append (by omega) (by omega)).mp now,
        fun q' low' high' => ?_, fun t ht => h.1 t (List.mem_of_mem_take ht)⟩
      obtain ⟨-, not⟩ := ih q' high' low' (by omega)
      exact ⟨some, fun now' => not ((completes_append (by omega) (by omega)).mpr now')⟩
  · exact h.going goes t (List.mem_of_mem_take ht)

/-- Behind a token the reasoning tracks one token more. -/
theorem advance_tracks {r : Reasoning} (nonempty : b.forced ≠ []) (h : Tracks b seen r)
    (token : TokenId) : Tracks b (seen ++ [token]) (b.advance r token) := by
  have one := List.length_pos_iff.mpr nonempty
  have length : (seen ++ [token]).length = seen.length + 1 := by
    rw [List.length_append, List.length_singleton]
  obtain ⟨phase, remaining, forced⟩ := r
  cases phase with
  | off =>
    cases h with
    | inl ended => exact .inl (ended.append [token])
    | inr spent =>
      obtain ⟨p, spent, all⟩ := spent
      exact .inr ⟨p, (spent_append spent.inside).mpr spent, by omega⟩
  | forcing =>
    obtain ⟨p, spent, index, inside⟩ := h
    simp only at index inside
    have grown : Spent b (seen ++ [token]) p := (spent_append spent.inside).mpr spent
    simp only [ReasoningBudget.advance]
    split
    · exact .inr ⟨p, grown, by omega⟩
    · exact ⟨p, grown, by simp only; omega, by simp only; omega⟩
  | counting =>
    obtain ⟨going, few, counted⟩ := h
    simp only at counted
    simp only [ReasoningBudget.advance]
    split
    · rename_i ends
      exact .inl (going.ended ends)
    · rename_i goes
      split
      · exact ⟨going.stays goes (.inl (by omega)), by omega, by simp only; omega⟩
      · split
        · rename_i complete
          refine ⟨seen.length + 1, going.spends goes (by omega) (by omega) complete, ?_, one⟩
          simp only
          omega
        · rename_i partly
          exact ⟨going.stays goes (.inr ⟨by omega, by simpa using partly⟩), by omega, by omega⟩
  | waitingUtf8 =>
    obtain ⟨going, nonzero, enough⟩ := h
    simp only [ReasoningBudget.advance]
    split
    · rename_i ends
      exact .inl (going.ended ends)
    · rename_i goes
      split
      · rename_i complete
        refine ⟨seen.length + 1, going.spends goes nonzero (by omega) complete, ?_, one⟩
        simp only
        omega
      · rename_i partly
        exact ⟨going.stays goes (.inr ⟨nonzero, by simpa using partly⟩), nonzero, by omega⟩

theorem advanceAll_tracks {r : Reasoning} (nonempty : b.forced ≠ []) (h : Tracks b seen r)
    (tokens : List TokenId) : Tracks b (seen ++ tokens) (tokens.foldl b.advance r) := by
  induction tokens generalizing seen r with
  | nil => rwa [List.append_nil]
  | cons token rest ih =>
    have next := ih (advance_tracks nonempty h token)
    rwa [List.append_assoc, List.singleton_append] at next

theorem tracks_start (nonempty : b.forced ≠ []) :
    Tracks b b.prompt (SamplerState.startReasoning (some b)) := by
  refine @advanceAll_tracks b [] _ nonempty ?_ b.prompt
  by_cases zero : b.tokens = 0
  · rw [if_pos zero]
    refine ⟨0, ⟨Nat.le_refl _, by omega, fun some => absurd zero some, fun q _ high => ?_, by simp⟩,
      rfl, List.length_pos_iff.mpr nonempty⟩
    omega
  · rw [if_neg zero]
    refine ⟨⟨by simp, fun p spent => ?_⟩, by simp only [List.length_nil]; omega, rfl⟩
    have := spent.inside
    have := spent.enough
    simp only [List.length_nil] at *
    omega

theorem Tracks.off {r : Reasoning} (h : Tracks b seen r) (off : r.phase = .off)
    (more : List TokenId) : Tracks b (seen ++ more) r := by
  obtain ⟨phase, remaining, forced⟩ := r
  obtain rfl : phase = .off := off
  cases h with
  | inl ended => exact .inl (ended.append more)
  | inr spent =>
    obtain ⟨p, spent, all⟩ := spent
    exact .inr ⟨p, (spent_append spent.inside).mpr spent, by rw [List.length_append]; omega⟩

end

namespace SamplerState
variable {Row ρ : Type} {o : Others Row ρ} {b : ReasoningBudget} {seen : List TokenId}
  {s s' : SamplerState ρ}

theorem sample_reasoning {row : Row}
    (drawn : s.sample o row = .ok (token, s')) :
    s'.budget = s.budget ∧ s'.reasoning = s.reasoning := by
  unfold sample at drawn
  split at drawn
  · cases drawn
  split at drawn
  · cases drawn
  split at drawn
  · split at drawn
    · cases drawn
    · cases drawn
      exact ⟨rfl, rfl⟩
  · split at drawn
    · cases drawn
    · cases drawn
      exact ⟨rfl, rfl⟩

/-- The sampler has this budget, and its reasoning tracks what it has seen. -/
structure Follows (b : ReasoningBudget) (seen : List TokenId) (s : SamplerState ρ) : Prop where
  budget : s.budget = some b
  tracks : Tracks b seen s.reasoning

theorem accept_follows (nonempty : b.forced ≠ []) (h : Follows b seen s)
    {tokens : List TokenId} (done : s.accept o tokens = .ok s') :
    Follows b (seen ++ tokens) s' := by
  simp only [accept, h.budget] at done
  split at done
  · cases done
  · cases done
    refine ⟨rfl, ?_⟩
    split
    · rename_i off
      exact h.tracks.off off tokens
    · exact advanceAll_tracks nonempty h.tracks tokens

theorem run_follows (nonempty : b.forced ≠ []) (h : Follows b seen s)
    {ops : List (Op Row)} (done : s.run o ops = .ok s') :
    Follows b (seen ++ accepted ops) s' := by
  induction ops generalizing seen s with
  | nil =>
    cases done
    rwa [accepted, List.append_nil]
  | cons op rest ih =>
    cases op with
    | sample row =>
      simp only [run] at done
      split at done
      · cases done
      · rename_i token next drawn
        obtain ⟨budget, reasoning⟩ := sample_reasoning drawn
        exact ih ⟨budget.trans h.budget, reasoning ▸ h.tracks⟩ done
    | accept tokens =>
      simp only [run] at done
      split at done
      · cases done
      · rename_i next accepts
        have whole := ih (accept_follows nonempty h accepts) done
        rwa [List.append_assoc] at whole

theorem Follows.forced {s : SamplerState ρ} (h : Follows b seen s) :
    (∀ p, Spent b seen p → s.forcedToken = b.forced[seen.length - p]?) ∧
      ((∀ p, ¬Spent b seen p) → s.forcedToken = none) := by
  have tracks := h.tracks
  simp only [forcedToken, h.budget]
  generalize s.reasoning = r at tracks
  obtain ⟨phase, remaining, forced⟩ := r
  cases phase with
  | counting => exact ⟨fun p spent => absurd spent (tracks.1.2 p), fun _ => rfl⟩
  | waitingUtf8 => exact ⟨fun p spent => absurd spent (tracks.1.2 p), fun _ => rfl⟩
  | forcing =>
    obtain ⟨p, spent, index, -⟩ := tracks
    refine ⟨fun q other => ?_, fun none => absurd spent (none p)⟩
    obtain rfl := spent.unique other
    simp [← index]
  | off =>
    cases tracks with
    | inl ended => exact ⟨fun p spent => absurd spent ended.not_spent, fun _ => rfl⟩
    | inr spent =>
      obtain ⟨p, spent, all⟩ := spent
      refine ⟨fun q other => ?_, fun none => absurd spent (none p)⟩
      obtain rfl := spent.unique other
      exact (List.getElem?_eq_none (by omega)).symm

/-- Behind the place where the budget is spent, the tokens that were seen since, of the prompt or
accepted, stand for the forced ones: what is forced is the next one of them, as long as there is
one. Before that place, and behind an end that comes first, nothing is forced. -/
theorem forcedToken_run {rest : ρ} {s s' : SamplerState ρ} {ops : List (Op Row)}
    (created : create (some b) rest = .ok s) (done : s.run o ops = .ok s') :
    (∀ p, Spent b (b.prompt ++ accepted ops) p →
      s'.forcedToken = b.forced[b.prompt.length + (accepted ops).length - p]?) ∧
    ((∀ p, ¬Spent b (b.prompt ++ accepted ops) p) → s'.forcedToken = none) ∧
    (EndsFirst b (b.prompt ++ accepted ops) → s'.forcedToken = none) := by
  unfold create at created
  split at created
  · cases created
  · rename_i valid
    have nonempty : b.forced ≠ [] := by simpa using valid
    cases created
    obtain ⟨spends, unspent⟩ := (run_follows nonempty ⟨rfl, tracks_start nonempty⟩ done).forced
    rw [List.length_append] at spends
    exact ⟨spends, unspent, fun ended => unspent fun p => ended.not_spent⟩

/-- What a draw leaves is no token and no reasoning. -/
def plain : Others Nat Unit := ⟨id, fun _ _ => .ok (0, ()), id, fun _ _ => .ok ()⟩

/-- The prompt's newline counts, one more token spends the budget, and both tokens of the end
follow. -/
theorem forcedToken_run_newline :
    (SamplerState.mk (some ⟨2, [4, 3], [3], [4], none⟩) ⟨.forcing, 0, 0⟩ ()).forcedToken =
      ([4, 3] : List TokenId)[1 + 1 - 2]? :=
  (@forcedToken_run Nat Unit plain ⟨2, [4, 3], [3], [4], none⟩ ()
    ⟨some ⟨2, [4, 3], [3], [4], none⟩, ⟨.counting, 1, 0⟩, ()⟩
    ⟨some ⟨2, [4, 3], [3], [4], none⟩, ⟨.forcing, 0, 0⟩, ()⟩
    [.sample 8, .accept [0]] rfl rfl).1 2
    ⟨by decide, by decide, fun _ _ _ => rfl, fun q low high => by simp only at low; omega,
      List.forall_mem_cons.mpr ⟨by decide, List.forall_mem_singleton.mpr (by decide)⟩⟩

/-! ## The prompt stands for forced tokens -/

/-- The first number of accepted tokens behind which enough tokens were counted and the last one
completes its character. -/
structure FirstAccepted (b : ReasoningBudget) (tokens : List TokenId) (a : Nat) : Prop where
  inside : a ≤ tokens.length
  here : b.tokens ≤ b.prompt.length + a ∧
    ∀ last ∈ (b.prompt ++ tokens.take a).getLast?, b.complete last = true
  first : ∀ a' < a, ¬(b.tokens ≤ b.prompt.length + a' ∧
    ∀ last ∈ (b.prompt ++ tokens.take a').getLast?, b.complete last = true)

/-- The forced sequence does not start at the first accepted place: with a budget of nothing the
prompt's newline has already stood for the newline of the end. -/
theorem forcedToken_skips :
    ¬∀ (b : ReasoningBudget) (s s' : SamplerState Unit) (ops : List (Op Nat)) (a : Nat),
      create (some b) () = .ok s → s.run plain ops = .ok s' → FirstAccepted b (accepted ops) a →
      (∀ token ∈ b.prompt ++ (accepted ops).take a, token ∉ b.ends) →
      s'.forcedToken = b.forced[(accepted ops).length - a]? := by
  intro claim
  have first := claim ⟨0, [4, 3], [3], [4], none⟩
    ⟨some ⟨0, [4, 3], [3], [4], none⟩, ⟨.forcing, 0, 1⟩, ()⟩
    ⟨some ⟨0, [4, 3], [3], [4], none⟩, ⟨.forcing, 0, 1⟩, ()⟩ [] 0 rfl rfl
    ⟨by decide, ⟨by decide, fun _ _ => rfl⟩, fun a' low => by omega⟩
    (List.forall_mem_singleton.mpr (by decide))
  exact absurd first (by decide)

end SamplerState
end Gufo.Sampling
