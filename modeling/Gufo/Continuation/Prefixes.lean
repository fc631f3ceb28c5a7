import Gufo.Continuation.Sources
import Mathlib.Order.Bounds.Basic

/-!
# What `Acquire` restores

The longest checkpoint or live frontier that the prompt extends, and the slot it goes to.
-/

namespace Gufo.Continuation
variable {σ : Type}

namespace Cache

/-- `CachedPrefixTokens` -/
def cachedPrefixTokens (c : Cache σ) (m : Model σ) (prompt : List Token)
    (inputIdentity : Identity) (inputPrefixes : List InputPrefix) : Nat :=
  let matches_ (tokens : List Token) (identity : Identity) : Bool :=
    tokens <+: prompt ∧ identity = prefixInputIdentity inputIdentity inputPrefixes tokens.length
  (List.range c.entries.length).foldl
    (fun longest i =>
      let e := c.entry i
      let longest :=
        if e.valid ∧ (c.snapshotMode ∨ e.available) ∧ longest < e.tokens.length ∧
            matches_ e.tokens e.inputIdentity ∧
            (if c.snapshotMode then reusableSnapshot m e else m.stateReusable i) then
          e.tokens.length
        else longest
      if c.snapshotMode ∧ e.available ∧ longest < e.liveTokens.length ∧
          matches_ e.liveTokens e.liveIdentity ∧ m.stateReusable i then
        e.liveTokens.length
      else longest)
    0

/-! ## Candidates -/

variable {c : Cache σ} {m : Model σ} {q : Request}

/-- The tokens begin the prompt, under the identity that belongs to their number. -/
def Begins (q : Request) (tokens : List Token) (identity : Identity) : Prop :=
  tokens <+: q.prompt ∧
    identity = prefixInputIdentity q.inputIdentity q.inputPrefixes tokens.length

/-- A record whose snapshot can be restored for the prompt. -/
structure Restorable (c : Cache σ) (m : Model σ) (q : Request) (i : Nat) : Prop where
  inside : i < c.entries.length
  valid : (c.entry i).valid = true
  usable : reusableSnapshot m (c.entry i) = true
  begins : Begins q (c.entry i).tokens (c.entry i).inputIdentity

/-- A free slot whose own state the prompt continues. -/
structure Continuable (c : Cache σ) (m : Model σ) (q : Request) (i : Nat) : Prop where
  inside : i < c.entries.length
  available : (c.entry i).available = true
  live : (c.entry i).liveTokens ≠ []
  usable : m.stateReusable i = true
  begins : Begins q (c.entry i).liveTokens (c.entry i).liveIdentity

/-- A restorable record at or before the stable prefix, or one that was marked with such a
fallback, unless the stable prefix is empty. -/
def Fallback (c : Cache σ) (m : Model σ) (q : Request) : Prop :=
  q.stablePrefixTokens = 0 ∨ ∃ i, c.Restorable m q i ∧
    ((c.entry i).tokens.length ≤ q.stablePrefixTokens ∨
      (c.entry i).stablePrefixTokens ≠ 0 ∧ (c.entry i).stablePrefixTokens ≤ q.stablePrefixTokens)

def Allowed (c : Cache σ) (m : Model σ) (q : Request) (count : Nat) : Prop :=
  c.Fallback m q ∨ count ≤ q.stablePrefixTokens

def Restores (c : Cache σ) (m : Model σ) (q : Request) (i : Nat) : Prop :=
  q.reusePrompt = true ∧ c.Restorable m q i ∧ c.Allowed m q (c.entry i).tokens.length

def Continues (c : Cache σ) (m : Model σ) (q : Request) (i : Nat) : Prop :=
  q.reusePrompt = true ∧ c.Continuable m q i ∧ c.Allowed m q (c.entry i).liveTokens.length

/-- The lengths that can be reused. -/
def Offers (c : Cache σ) (m : Model σ) (q : Request) : Set Nat :=
  { n | (∃ i, c.Restores m q i ∧ (c.entry i).tokens.length = n) ∨
    ∃ i, c.Continues m q i ∧ (c.entry i).liveTokens.length = n }

end Cache

/-! ## A frontier that is lost -/

end Gufo.Continuation
