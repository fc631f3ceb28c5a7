import Mathlib.Algebra.Order.Ring.Int

/-!
# The continuation cache

Execution slots and immutable checkpoint records in one vector: the first
`stateCount` entries are slots, the rest records. A record that holds a snapshot
is `valid`; its bytes count against the cache's capacity.
-/

namespace Gufo.Continuation

abbrev Token := UInt32
abbrev Identity := List UInt8

inductive SnapshotPurpose where
  | continuation
  | history
  | retry
  | branchPoint
  deriving DecidableEq, Repr

namespace SnapshotPurpose

/-- Both are boundaries of a conversation; the other two are optional copies. -/
def isContinuation (p : SnapshotPurpose) : Bool := p = continuation ∨ p = branchPoint

/-- The highest removal priority that a copy of this purpose may displace. -/
def maxRemovalPriority : SnapshotPurpose → Nat
  | retry => 0
  | history => 1
  | continuation | branchPoint => 3

end SnapshotPurpose

/-- An input identity that covers the first `tokenCount` tokens of a prompt. -/
structure InputPrefix where
  tokenCount : Nat
  identity : Identity
  deriving DecidableEq, Repr

def prefixInputIdentity (complete : Identity) (prefixes : List InputPrefix) (count : Nat) :
    Identity :=
  match prefixes.find? fun p => count ≤ p.tokenCount with
  | some p => p.identity
  | none => complete

/-- How far two token lists agree. -/
def commonLength : List Token → List Token → Nat
  | a :: s, b :: t => if a = b then commonLength s t + 1 else 0
  | _, _ => 0

structure Entry (σ : Type) where
  snapshot : Option σ := none
  tokens : List Token := []
  inputIdentity : Identity := []
  liveTokens : List Token := []
  liveIdentity : Identity := []
  snapshotBytes : UInt64 := 0
  stablePrefixTokens : Nat := 0
  purpose : SnapshotPurpose := .continuation
  stateLastUsed : UInt64 := 0
  snapshotLastUsed : UInt64 := 0
  available : Bool := true
  valid : Bool := false
  dirty : Bool := false

structure Cache (σ : Type) where
  entries : List (Entry σ)
  stateCount : Nat
  snapshotMode : Bool
  optionalCopiesDisplaceIdle : Bool := false
  clock : UInt64 := 0
  snapshotCapacityBytes : UInt64 := 0
  retainedSnapshotBytes : UInt64 := 0
  reservedSnapshotBytes : UInt64 := 0

namespace Cache
variable {σ : Type}

def entry (c : Cache σ) (i : Nat) : Entry σ := c.entries.getD i {}

def update (c : Cache σ) (i : Nat) (f : Entry σ → Entry σ) : Cache σ :=
  { c with entries := c.entries.modify i f }

def tick (c : Cache σ) : Cache σ := { c with clock := c.clock + 1 }

/-- The indices of the checkpoint records. -/
def records (c : Cache σ) : List Nat :=
  List.range' c.stateCount (c.entries.length - c.stateCount)

@[simp] theorem mem_records {c : Cache σ} {i : Nat} :
    i ∈ c.records ↔ c.stateCount ≤ i ∧ i < c.entries.length := by
  simp only [records, List.mem_range'_1]
  omega

/-! ## Which copy is worth the least -/

/-- The peers of a continuation that extend it. Two that part after it make it a
branch point at once; a deeper branch point supersedes a learned one. -/
def branchScan (c : Cache σ) (candidate : Nat) (learned : Bool) (next : Option Token) :
    List Nat → Bool
  | [] => learned
  | other :: rest =>
    let own := c.entry candidate
    let peer := c.entry other
    if other = candidate ∨ peer.valid = false ∨ peer.purpose.isContinuation = false ∨
        peer.inputIdentity ≠ own.inputIdentity ∨ peer.tokens.length ≤ own.tokens.length ∨
        ¬own.tokens <+: peer.tokens then
      branchScan c candidate learned next rest
    else
      let token := peer.tokens[own.tokens.length]?
      if next.isSome ∧ next ≠ token then true
      else branchScan c candidate (learned && peer.purpose ≠ .branchPoint) token rest

def isBranchPoint (c : Cache σ) (candidate : Nat) : Bool :=
  let own := c.entry candidate
  own.purpose.isContinuation &&
    branchScan c candidate (own.purpose = .branchPoint) none c.records

/-- A prompt that restores `source` and then leaves a deeper checkpoint or live frontier
of the same family branches at `source`. -/
def restoreDiverges (c : Cache σ) (source : Nat) (prompt : List Token) : Bool :=
  let own := c.entry source
  let diverges (tokens : List Token) (identity : Identity) : Bool :=
    identity = own.inputIdentity ∧ own.tokens.length < tokens.length ∧ own.tokens <+: tokens ∧
      commonLength tokens prompt < min tokens.length prompt.length
  (own.purpose = .history ∨ own.purpose = .continuation) &&
    c.entries.any fun peer =>
      (peer.valid && peer.snapshot.isSome && diverges peer.tokens peer.inputIdentity) ||
        diverges peer.liveTokens peer.liveIdentity

/-- The first peer that keeps the candidate's family reusable decides its rank. -/
def priorityScan (c : Cache σ) (candidate : Nat) : List Nat → Nat
  | [] => 3
  | other :: rest =>
    let own := c.entry candidate
    let peer := c.entry other
    if other = candidate ∨ peer.valid = false ∨ peer.purpose.isContinuation = false ∨
        peer.inputIdentity ≠ own.inputIdentity then
      priorityScan c candidate rest
    else if own.purpose = .retry ∧ peer.tokens.length ≤ own.stablePrefixTokens ∧
        peer.tokens <+: own.tokens then 0
    else if own.purpose = .history ∧ (own.tokens <+: peer.tokens ∨ peer.tokens <+: own.tokens) then
      1
    else if own.purpose.isContinuation ∧ own.tokens.length < peer.tokens.length ∧
        own.tokens <+: peer.tokens then 2
    else priorityScan c candidate rest

/-- Extra copies rank before the last useful checkpoint of a prefix family. -/
def removalPriority (c : Cache σ) (candidate : Nat) (incoming : List Token)
    (incomingIdentity : Identity) : Nat :=
  let own := c.entry candidate
  if c.isBranchPoint candidate then 3
  else if own.tokens.length < incoming.length ∧ own.inputIdentity = incomingIdentity ∧
      own.tokens <+: incoming then
    match own.purpose with
    | .retry => 0
    | .history => 1
    | _ => 2
  else c.priorityScan candidate c.records

end Cache

/-! ## Picking a victim -/

def maxClock : UInt64 := 18446744073709551615

/-- The least recently used of the eligible candidates, in their order. -/
def leastRecent (eligible : Nat → Bool) (used : Nat → UInt64) (candidates : List Nat) :
    Option Nat :=
  (candidates.foldl
    (fun best i => if eligible i ∧ used i < best.2 then (some i, used i) else best)
    ((none, maxClock) : Option Nat × UInt64)).1

/-- The best victim so far: its index, its rank and when it was last used. -/
structure Ranked where
  selected : Option Nat := none
  priority : Nat := 4
  oldest : UInt64 := maxClock

/-- The candidate of the lowest rank up to `limit`, the least recently used among equals. -/
def leastValuable (limit : Nat) (eligible : Nat → Bool) (rank : Nat → Nat) (used : Nat → UInt64)
    (candidates : List Nat) : Ranked :=
  candidates.foldl
    (fun best i =>
      if eligible i ∧ rank i ≤ limit ∧
          (rank i < best.priority ∨ rank i = best.priority ∧ used i < best.oldest) then
        ⟨some i, rank i, used i⟩
      else best)
    {}

theorem leastRecent_spec {eligible : Nat → Bool} {used : Nat → UInt64} {candidates : List Nat}
    {i : Nat} (h : leastRecent eligible used candidates = some i) :
    i ∈ candidates ∧ eligible i = true := by
  have keep : ∀ j, leastRecent eligible used candidates = some j →
      j ∈ candidates ∧ eligible j = true := by
    refine List.foldlRecOn candidates _
      (motive := fun (best : Option Nat × UInt64) =>
        ∀ j, best.1 = some j → j ∈ candidates ∧ eligible j = true)
      (fun j hj => by simp at hj) ?_
    intro best good a ha j hj
    split at hj
    · rename_i take
      obtain rfl : a = j := by simpa using hj
      exact ⟨ha, take.1⟩
    · exact good j hj
  exact keep i h

theorem leastValuable_spec {limit : Nat} {eligible : Nat → Bool} {rank : Nat → Nat}
    {used : Nat → UInt64} {candidates : List Nat} {i : Nat}
    (h : (leastValuable limit eligible rank used candidates).selected = some i) :
    i ∈ candidates ∧ eligible i = true ∧ rank i ≤ limit := by
  have keep : ∀ j, (leastValuable limit eligible rank used candidates).selected = some j →
      j ∈ candidates ∧ eligible j = true ∧ rank j ≤ limit := by
    refine List.foldlRecOn candidates _
      (motive := fun (best : Ranked) => ∀ j, best.selected = some j →
        j ∈ candidates ∧ eligible j = true ∧ rank j ≤ limit)
      (fun j hj => by simp at hj) ?_
    intro best good a ha j hj
    split at hj
    · rename_i take
      obtain rfl : a = j := by simpa using hj
      exact ⟨ha, take.1, take.2.1⟩
    · exact good j hj
  exact keep i h

end Gufo.Continuation
