import Gufo.Continuation.Operations

/-!
# Leases

`Acquire` and the lease objects that its callers hold. An `Acquire` in flight owns
its slot between its two critical sections; the session is prepared and restored
outside the mutex, and may throw there.
-/

namespace Gufo.Continuation
variable {σ : Type}

/-- What a request asks of `Acquire`. -/
structure Request where
  prompt : List Token
  inputIdentity : Identity := []
  reusePrompt : Bool := true
  stablePrefixTokens : Nat := 0
  inputPrefixes : List InputPrefix := []

/-- The model's answers under the cache's lock. -/
structure Model (σ : Type) where
  stateReusable : Nat → Bool
  snapshotReusable : σ → Bool
  prefersState : σ → Nat → Bool

namespace Request

/-- Boundaries must not decrease nor pass the end of the prompt. -/
def boundariesValid (length : Nat) : Nat → List InputPrefix → Bool
  | _, [] => true
  | previous, p :: rest =>
    decide (previous ≤ p.tokenCount ∧ p.tokenCount ≤ length) && boundariesValid length p.tokenCount rest

def validate (q : Request) : Except String Unit :=
  if q.prompt.length < q.stablePrefixTokens then
    .error "stable cache prefix exceeds prompt length"
  else if boundariesValid q.prompt.length 0 q.inputPrefixes then .ok ()
  else .error "input identity boundaries are invalid"

def matchesInput (q : Request) (identity : Identity) (count : Nat) : Bool :=
  identity = prefixInputIdentity q.inputIdentity q.inputPrefixes count

end Request

/-- A slot that `Acquire` has taken, and what it goes on to do with it. -/
structure Captured (σ : Type) where
  request : Request
  index : Nat
  cacheHit : Bool
  liveHit : Bool
  cachedTokens : Nat
  sourceIndex : Nat
  snapshot : Option σ
  needsInvalidation : Bool

namespace Cache

def reusableSnapshot (m : Model σ) (e : Entry σ) : Bool :=
  match e.snapshot with
  | some s => m.snapshotReusable s
  | none => false

/-- A shorter checkpoint, or one that was captured after that boundary was established. -/
def hasFallback (c : Cache σ) (m : Model σ) (q : Request) : Bool :=
  q.stablePrefixTokens = 0 ∨
    c.entries.any fun e =>
      e.valid && reusableSnapshot m e &&
        decide (e.tokens.length ≤ q.stablePrefixTokens ∨
          e.stablePrefixTokens ≠ 0 ∧ e.stablePrefixTokens ≤ q.stablePrefixTokens) &&
        q.matchesInput e.inputIdentity e.tokens.length && decide (e.tokens <+: q.prompt)

def canReuse (c : Cache σ) (m : Model σ) (q : Request) (count : Nat) : Bool :=
  c.hasFallback m q ∨ count ≤ q.stablePrefixTokens

/-- An entry that the prompt extends and that may be reused now. -/
def reusable (c : Cache σ) (m : Model σ) (q : Request) (i : Nat) : Bool :=
  let e := c.entry i
  (c.snapshotMode || e.available) && e.valid && q.matchesInput e.inputIdentity e.tokens.length &&
    c.canReuse m q e.tokens.length && decide (e.tokens <+: q.prompt) &&
    if c.snapshotMode then reusableSnapshot m e else m.stateReusable i

/-- The longest reusable entry, the first among equals, and its tokens. -/
def findSource (c : Cache σ) (m : Model σ) (q : Request) : Option Nat × Nat :=
  if q.reusePrompt then
    (List.range c.entries.length).foldl
      (fun best i =>
        if c.reusable m q i ∧ (best.1 = none ∨ best.2 < (c.entry i).tokens.length) then
          (some i, (c.entry i).tokens.length)
        else best)
      (none, 0)
  else (none, 0)

/-- A live frontier of at least `cachedTokens` tokens: the longest, the last among equals. -/
def findLive (c : Cache σ) (m : Model σ) (q : Request) (cachedTokens : Nat) :
    Option Nat × Nat :=
  if q.reusePrompt ∧ c.snapshotMode then
    (List.range c.entries.length).foldl
      (fun best i =>
        let e := c.entry i
        if e.available ∧ e.liveTokens ≠ [] ∧ best.2 ≤ e.liveTokens.length ∧
            c.canReuse m q e.liveTokens.length ∧ q.matchesInput e.liveIdentity e.liveTokens.length ∧
            e.liveTokens <+: q.prompt ∧ m.stateReusable i then
          (some i, e.liveTokens.length)
        else best)
      (none, cachedTokens)
  else (none, cachedTokens)

/-- Whether the source's snapshot can be restored into this slot without a copy. -/
def prefers (c : Cache σ) (m : Model σ) (source : Option Nat) (i : Nat) : Bool :=
  match source.bind fun s => (c.entry s).snapshot with
  | some s => m.prefersState s i
  | none => false

/-- The slot to execute in: one the source's rows prefer, unless it holds another
conversation's frontier; else the least recently used. -/
def slotScan (c : Cache σ) (m : Model σ) (q : Request) (source selected : Option Nat)
    (oldest : UInt64) : List Nat → Option Nat
  | [] => selected
  | i :: rest =>
    let e := c.entry i
    if e.available ∧ (e.liveTokens = [] ∨ q.prompt <+: e.liveTokens) ∧ c.prefers m source i then
      some i
    else if e.available ∧ e.stateLastUsed < oldest then
      slotScan c m q source (some i) e.stateLastUsed rest
    else slotScan c m q source selected oldest rest

/-- Takes the slot; in snapshot mode the source record is used, and may be learned as a
branch point, otherwise the slot's own entry is consumed. -/
def capture (c : Cache σ) (q : Request) (index : Nat) (source : Option Nat) (liveHit : Bool) :
    Cache σ :=
  let taken := (c.update index fun e =>
    { e with
      available := false
      dirty := true
      stateLastUsed := c.clock + 1
      liveTokens := []
      liveIdentity := [] }).tick
  if c.snapshotMode then
    match source with
    | some s =>
      if liveHit then taken
      else
        let used := (taken.update s fun e => { e with snapshotLastUsed := taken.clock + 1 }).tick
        if used.restoreDiverges s q.prompt then
          used.update s fun e => { e with purpose := .branchPoint }
        else used
    | none => taken
  else taken.update index fun e =>
    { e with
      valid := false
      tokens := [] }

/-- One pass of `Acquire` under the lock; `none` waits for a slot. -/
def acquire (c : Cache σ) (m : Model σ) (q : Request) : Option (Captured σ × Cache σ) :=
  let source := c.findSource m q
  let live := c.findLive m q source.2
  let liveHit := live.1.isSome
  let cacheHit := liveHit || source.1.isSome
  let selected :=
    if c.snapshotMode ∧ liveHit = false ∨ cacheHit = false then
      c.slotScan m q source.1 none maxClock (List.range c.entries.length)
    else if liveHit then live.1 else source.1
  selected.map fun index =>
    ({ request := q
       index := index
       cacheHit := cacheHit
       liveHit := liveHit
       cachedTokens := live.2
       sourceIndex := source.1.getD c.entries.length
       snapshot :=
         if c.snapshotMode ∧ liveHit = false then source.1.bind fun s => (c.entry s).snapshot
         else none
       needsInvalidation := (c.entry index).dirty && !cacheHit },
      c.capture q index source.1 liveHit)

/-- `Acquire` gives the slot back when preparing or restoring has thrown. -/
def abandon (c : Cache σ) (index : Nat) : Cache σ :=
  (c.update index fun e =>
    { e with
      available := true
      dirty := false
      stateLastUsed := c.clock + 1 }).tick

end Cache

/-- A lease with a cache; an empty one is no `Lease` here. -/
structure Lease where
  index : Nat
  cacheHit : Bool
  cachedTokens : Nat
  sourceIndex : Nat
  restoredSnapshotBytes : UInt64
  restoredFromDisk : Bool := false
  reservedSnapshotBytes : UInt64 := 0
  snapshotPurpose : SnapshotPurpose := .continuation
  promptTokens : Nat
  stablePrefixTokens : Nat
  inputIdentity : Identity
  inputPrefixes : List InputPrefix

namespace Lease

def identityAt (l : Lease) (count : Nat) : Identity :=
  prefixInputIdentity l.inputIdentity l.inputPrefixes count

/-- What a reservation asks for, with the lease's own source and identity. -/
def reservation (l : Lease) (bytes : UInt64) (tokenCount : Nat) (preserveSource : Bool)
    (purpose : SnapshotPurpose) (replacementPrefix : List Token) : Reservation where
  sourceIndex := l.sourceIndex
  snapshotBytes := bytes
  tokenCount := tokenCount
  preserveSource := preserveSource
  purpose := purpose
  replacementPrefix := replacementPrefix
  inputIdentity := l.identityAt tokenCount

/-- The publication of a checkpoint that does not end the lease. -/
def publication (l : Lease) (tokens : List Token) (snapshot : Option σ) : Publication σ where
  index := l.index
  sourceIndex := l.sourceIndex
  reservation := l.reservedSnapshotBytes
  tokens := tokens
  snapshot := snapshot
  inputIdentity := l.identityAt tokens.length
  releaseState := false
  purpose := l.snapshotPurpose

/-- The last publication, which returns the slot. -/
def committal (l : Lease) (tokens : List Token) (snapshot : Option σ) (liveTokens : List Token) :
    Publication σ where
  index := l.index
  sourceIndex := l.sourceIndex
  reservation := l.reservedSnapshotBytes
  tokens := tokens
  snapshot := snapshot
  inputIdentity := l.identityAt tokens.length
  liveTokens := liveTokens
  liveIdentity := l.identityAt liveTokens.length
  stablePrefixTokens := if tokens.length = l.promptTokens then l.stablePrefixTokens else 0
  purpose := l.snapshotPurpose

end Lease

namespace Captured

/-- The snapshot to restore, if this capture is one of a checkpoint. -/
def restores (p : Captured σ) (snapshotMode : Bool) : Bool :=
  p.cacheHit && snapshotMode && !p.liveHit

/-- The lease that `Acquire` returns. -/
def lease (p : Captured σ) (payloadBytes : σ → UInt64) (snapshotMode : Bool) : Lease where
  index := p.index
  cacheHit := p.cacheHit
  cachedTokens := p.cachedTokens
  sourceIndex := p.sourceIndex
  restoredSnapshotBytes :=
    if p.restores snapshotMode then (p.snapshot.map payloadBytes).getD 0 else 0
  promptTokens := p.request.prompt.length
  stablePrefixTokens := p.request.stablePrefixTokens
  inputIdentity := p.request.inputIdentity
  inputPrefixes := p.request.inputPrefixes

end Captured

/-- A lease object: empty, being returned by an `Acquire` that has its slot, or leased. -/
inductive Object (σ : Type) where
  | empty
  | acquiring (p : Captured σ)
  | leased (l : Lease)

namespace Object

def slot : Object σ → Option Nat
  | empty => none
  | acquiring p => some p.index
  | leased l => some l.index

def reserved : Object σ → UInt64
  | leased l => l.reservedSnapshotBytes
  | _ => 0

end Object

/-- The cache and all lease objects of the process. -/
structure World (σ : Type) where
  cache : Cache σ
  objects : List (Object σ) := []

inductive Action (σ : Type) where
  /-- a default constructed lease -/
  | construct
  /-- one pass of an `Acquire` whose result goes to the empty object `a` -/
  | acquire (a : Nat) (m : Model σ) (q : Request)
  | acquired (a : Nat)
  | acquireFailed (a : Nat)
  | adoptRestoredPrefix (a : Nat) (cachedTokens : Nat) (restoredBytes : UInt64)
  | tryReserve (a : Nat) (bytes : UInt64) (tokenCount : Nat) (preserveSource : Bool)
      (purpose : SnapshotPurpose) (replacementPrefix : List Token)
  | skip (a : Nat) (reason : SnapshotEventReason) (bytes : UInt64) (tokenCount : Nat)
  | publish (a : Nat) (tokens : List Token) (snapshot : Option σ) (preserveSource : Bool)
  | commit (a : Nat) (tokens : List Token) (snapshot : Option σ) (liveTokens : List Token)
  /-- `Invalidate`, and the destructor -/
  | invalidate (a : Nat)
  | moveConstruct (source target : Nat)
  | moveAssign (source target : Nat)
  | displaceIdle (enabled : Bool)
  | clear

namespace World

def put (w : World σ) (a : Nat) (o : Object σ) : World σ :=
  { w with objects := w.objects.set a o }

/-- Ends a lease: its reservation and its slot go back. -/
def drop (w : World σ) (a : Nat) (l : Lease) : World σ :=
  { cache := w.cache.invalidate l.index l.reservedSnapshotBytes
    objects := w.objects.set a .empty }

/-- `TryReserveSnapshot`; a lease with a reservation throws. -/
def tryReserve (w : World σ) (a : Nat) (l : Lease) (r : Reservation) : Option (World σ) :=
  if l.reservedSnapshotBytes ≠ 0 then some w
  else
    (w.cache.reserveSnapshot r).map fun done =>
      { cache := done.cache
        objects :=
          if done.admitted then
            w.objects.set a (.leased { l with
              reservedSnapshotBytes := r.snapshotBytes
              snapshotPurpose := done.purpose })
          else w.objects }

def publish (payloadBytes : σ → UInt64) (w : World σ) (a : Nat) (l : Lease)
    (p : Publication σ) (preserveSource : Bool) : World σ :=
  let done := w.cache.commit payloadBytes p
  { cache := done.cache
    objects := w.objects.set a (.leased { l with
      reservedSnapshotBytes := 0
      sourceIndex := if preserveSource then l.sourceIndex else done.published.getD l.sourceIndex }) }

/-- The actions that need a lease; on an empty object they throw or do nothing. -/
def leaseStep (payloadBytes : σ → UInt64) (w : World σ) (a : Nat) (l : Lease) :
    Action σ → Option (World σ)
  | .adoptRestoredPrefix _ cachedTokens restoredBytes =>
    if l.cacheHit ∨ cachedTokens = 0 ∨ restoredBytes = 0 then some w
    else
      some (w.put a (.leased { l with
        cacheHit := true
        cachedTokens := cachedTokens
        restoredSnapshotBytes := restoredBytes
        restoredFromDisk := true }))
  | .tryReserve _ bytes tokenCount preserveSource purpose replacementPrefix =>
    w.tryReserve a l (l.reservation bytes tokenCount preserveSource purpose replacementPrefix)
  | .skip _ reason bytes tokenCount =>
    some {
      cache := (w.cache.skipSnapshot l.reservedSnapshotBytes reason bytes tokenCount).1
      objects := w.objects.set a (.leased { l with reservedSnapshotBytes := 0 }) }
  | .publish _ tokens snapshot preserveSource =>
    some (w.publish payloadBytes a l (l.publication tokens snapshot) preserveSource)
  | .commit _ tokens snapshot liveTokens =>
    some {
      cache := (w.cache.commit payloadBytes (l.committal tokens snapshot liveTokens)).cache
      objects := w.objects.set a .empty }
  | .invalidate _ => some (w.drop a l)
  | _ => none

/-- A lease method on object `a`. -/
def onLease (payloadBytes : σ → UInt64) (w : World σ) (a : Nat) (action : Action σ) :
    Option (World σ) :=
  match w.objects[a]? with
  | some (.leased l) => w.leaseStep payloadBytes a l action
  | some .empty => some w
  | _ => none

/-- Hands the lease of `source` to the empty object `target`. -/
def hand (w : World σ) (source target : Nat) : Option (World σ) :=
  match w.objects[source]?, w.objects[target]? with
  | some .empty, some .empty => some w
  | some (.leased l), some .empty =>
    some { w with objects := (w.objects.set source .empty).set target (.leased l) }
  | _, _ => none

/-- What one action does; `none` where it cannot be taken. -/
def step (payloadBytes : σ → UInt64) (w : World σ) : Action σ → Option (World σ)
  | .construct => some { w with objects := w.objects ++ [.empty] }
  | .acquire a m q =>
    match w.objects[a]?, q.validate with
    | some .empty, .ok _ =>
      match w.cache.acquire m q with
      | some (p, cache) => some ({ w with cache := cache }.put a (.acquiring p))
      | none => some w
    | some .empty, .error _ => some w
    | _, _ => none
  | .acquired a =>
    match w.objects[a]? with
    | some (.acquiring p) =>
      if p.restores w.cache.snapshotMode ∧ p.snapshot.isNone then none
      else some (w.put a (.leased (p.lease payloadBytes w.cache.snapshotMode)))
    | _ => none
  | .acquireFailed a =>
    match w.objects[a]? with
    | some (.acquiring p) => some ({ w with cache := w.cache.abandon p.index }.put a .empty)
    | _ => none
  | .moveConstruct source target => w.hand source target
  | .moveAssign source target =>
    if source = target then some w
    else
      match w.objects[target]? with
      | some (.leased l) => (w.drop target l).hand source target
      | _ => w.hand source target
  | .displaceIdle enabled =>
    some { w with cache := { w.cache with optionalCopiesDisplaceIdle := enabled } }
  | .clear =>
    match w.cache.clear with
    | .ok cache => some { w with cache := cache }
    | .error _ => some w
  | .adoptRestoredPrefix a n b => w.onLease payloadBytes a (.adoptRestoredPrefix a n b)
  | .tryReserve a b n s p r => w.onLease payloadBytes a (.tryReserve a b n s p r)
  | .skip a r b n => w.onLease payloadBytes a (.skip a r b n)
  | .publish a t s k => w.onLease payloadBytes a (.publish a t s k)
  | .commit a t s l => w.onLease payloadBytes a (.commit a t s l)
  | .invalidate a => w.onLease payloadBytes a (.invalidate a)

/-- Actions one after the other. -/
def run (payloadBytes : σ → UInt64) (w : World σ) : List (Action σ) → Option (World σ)
  | [] => some w
  | action :: rest => (w.step payloadBytes action).bind fun w' => run payloadBytes w' rest

end World

/-- The states of a cache and its leases, from any construction, in any order of actions. -/
inductive Reachable (payloadBytes : σ → UInt64) : World σ → Prop where
  | start {capacity : Nat} {snapshotMode : Bool} {snapshotCapacity : Nat}
      {capacityBytes : Option UInt64} {c : Cache σ} :
      Cache.create capacity snapshotMode snapshotCapacity capacityBytes = .ok c →
      Reachable payloadBytes { cache := c }
  | next {w w' : World σ} {action : Action σ} :
      Reachable payloadBytes w → w.step payloadBytes action = some w' →
      Reachable payloadBytes w'

theorem Reachable.run {payloadBytes : σ → UInt64} {w w' : World σ} {actions : List (Action σ)}
    (h : Reachable payloadBytes w) (done : w.run payloadBytes actions = some w') :
    Reachable payloadBytes w' := by
  induction actions generalizing w with
  | nil =>
    obtain rfl := Option.some.inj done
    exact h
  | cons action rest ih =>
    obtain ⟨next, step, done⟩ := Option.bind_eq_some_iff.mp done
    exact ih (h.next step) done

end Gufo.Continuation
