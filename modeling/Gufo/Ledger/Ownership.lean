import Gufo.Ledger.Counters

/-!
# Who owns a block

`Owned` relates the tokens to the allocations they keep and the pins to the
tokens they keep. It is what makes the debits of a destructor legitimate:
`reserved` has one writer at a time, and the pins of a block are the live pin
tokens that cover it.
-/

namespace Gufo.Ledger
open Gufo.Sums LedgerState

/-- The blocks of a token, dead or alive: a token never changes them. -/
def blocksOf (tokens : List ChargeToken) (t : Nat) : List Nat :=
  ((tokens[t]?).map (·.blocks)).getD []

/-- Whether a pin token counts for block `i`. -/
def pinsBlock (tokens : List ChargeToken) (i : Nat) (pin : PinToken) : Nat :=
  if pin.alive ∧ i ∈ blocksOf tokens pin.charge then 1 else 0

/-- The token whose handles decide whether the block is still reserved: the
assignment while there is one, the original owner otherwise. -/
def ChargeToken.governs (token : ChargeToken) (a : Allocation) : Prop :=
  token.pooled ∨ ¬a.backing ∨ a.category = .backingFree

structure Owned (allocations : List Allocation) (tokens : List ChargeToken)
    (pins : List PinToken) : Prop where
  nodup : ∀ (t : Nat) (token : ChargeToken), tokens[t]? = some token → token.alive → token.blocks.Nodup
  blocks : ∀ (t : Nat) (token : ChargeToken), tokens[t]? = some token → token.alive →
    ∀ i ∈ token.blocks, ∃ a : Allocation, allocations[i]? = some a ∧ a.alive
  pooled : ∀ (t : Nat) (token : ChargeToken), tokens[t]? = some token → token.alive → token.pooled →
    ∀ i ∈ token.blocks, ∀ a : Allocation, allocations[i]? = some a → a.backing ∧ a.category ≠ .backingFree
  /-- A block has one assignment and one original owner. -/
  exclusive : ∀ (t : Nat) (token : ChargeToken) (u : Nat) (other : ChargeToken) (i : Nat), tokens[t]? = some token → token.alive →
    tokens[u]? = some other → other.alive → token.pooled = other.pooled →
    i ∈ token.blocks → i ∈ other.blocks → t = u
  governed : ∀ (t : Nat) (token : ChargeToken), tokens[t]? = some token → token.alive →
    ∀ i ∈ token.blocks, ∀ a : Allocation, allocations[i]? = some a → token.governs a →
      a.reserved = !token.handles.converted
  /-- Backing was converted before it could be assigned. -/
  assigned : ∀ (t : Nat) (token : ChargeToken), tokens[t]? = some token → token.alive → token.pooled = false →
    ∀ i ∈ token.blocks, ∀ a : Allocation, allocations[i]? = some a → a.backing →
      a.category ≠ .backingFree → token.handles.converted
  notStaging : ∀ (i : Nat) (a : Allocation), allocations[i]? = some a → a.backing → a.category ≠ .transferStaging
  pinned : ∀ (p : Nat) (pin : PinToken), pins[p]? = some pin → pin.alive →
    ∃ token : ChargeToken, tokens[pin.charge]? = some token ∧ token.alive
  pinCount : ∀ (i : Nat) (a : Allocation), allocations[i]? = some a → a.pins = total (pinsBlock tokens i) pins

abbrev LedgerState.Owned (s : LedgerState) : Prop := Ledger.Owned s.allocations s.tokens s.pins

variable {s : LedgerState} {allocations : List Allocation} {tokens : List ChargeToken}
  {pins : List PinToken}

/-- A block that is not reachable from a live token carries no pin. -/
theorem Owned.unpinned (h : Owned allocations tokens pins) {i : Nat} {a : Allocation}
    (hi : allocations[i]? = some a)
    (free : ∀ (t : Nat) (token : ChargeToken), tokens[t]? = some token → token.alive → i ∉ token.blocks) : a.pins = 0 := by
  rw [h.pinCount i a hi]
  apply total_eq_zero
  intro pin hp
  obtain ⟨p, hp⟩ := List.mem_iff_getElem?.mp hp
  unfold pinsBlock
  by_cases alive : pin.alive
  · obtain ⟨token, ht, live⟩ := h.pinned p pin hp alive
    simp [blocksOf, ht, free _ token ht live]
  · simp [alive]

variable {f : ChargeToken → ChargeToken}

theorem blocksOf_modify (same : ∀ token, (f token).blocks =
    token.blocks) (t u : Nat) : blocksOf (tokens.modify t f) u = blocksOf tokens u := by
  unfold blocksOf
  rw [List.getElem?_modify]
  cases tokens[u]? with
  | none => simp
  | some token => by_cases eq : t = u <;> simp [eq, same]

theorem pinsBlock_modify (same : ∀ token, (f token).blocks =
    token.blocks) (t i : Nat) : pinsBlock (tokens.modify t f) i = pinsBlock tokens i := by
  funext pin
  simp [pinsBlock, blocksOf_modify same]

/-- Pins that stand on stored tokens do not see a token stored after them. -/
theorem total_pinsBlock_append (stored : ∀ (p : Nat) (pin : PinToken), pins[p]? = some pin →
      pin.alive → ∃ token : ChargeToken, tokens[pin.charge]? = some token ∧ token.alive)
    (token : ChargeToken) (i : Nat) :
    total (pinsBlock (tokens ++ [token]) i) pins = total (pinsBlock tokens i) pins := by
  apply total_congr
  intro pin hp
  obtain ⟨p, hp⟩ := List.mem_iff_getElem?.mp hp
  unfold pinsBlock
  by_cases alive : pin.alive
  · obtain ⟨_, ht, -⟩ := stored p pin hp alive
    have inside := (List.getElem?_eq_some_iff.mp ht).1
    have same : blocksOf (tokens ++ [token]) pin.charge = blocksOf tokens pin.charge := by
      unfold blocksOf
      rw [List.getElem?_append_left inside]
    simp [same]
  · simp [alive]

/-! ## Changes to one token or one pin -/

variable {token : ChargeToken}

/-- A token may change its handles, and die, as long as it governs as before. -/
theorem Owned.updateToken (h : Owned allocations tokens pins) {t : Nat}
    (ht : tokens[t]? = some token)
    (blocks : ∀ token, (f token).blocks = token.blocks) (pooled : (f token).pooled = token.pooled)
    (dies : (f token).alive → token.alive)
    (converted : (f token).handles.converted = token.handles.converted)
    (pinned : ∀ (p : Nat) (pin : PinToken), pins[p]? = some pin → pin.alive → pin.charge = t → (f token).alive) :
    Owned allocations (tokens.modify t f) pins := by
  have look : ∀ (u : Nat) (other : ChargeToken), (tokens.modify t f)[u]? = some other →
      ∃ old : ChargeToken, tokens[u]? = some old ∧ other.blocks = old.blocks ∧ other.pooled = old.pooled ∧
        (other.alive → old.alive) ∧ other.handles.converted = old.handles.converted := by
    intro u other hu
    obtain ⟨old, hold, eq⟩ := of_getElem?_modify hu
    refine ⟨old, hold, ?_⟩
    by_cases here : t = u
    · have same : old = token := by
        rw [← here, ht] at hold
        simpa using hold.symm
      simp only [here, if_true, same] at eq
      rw [eq, same]
      exact ⟨blocks token, pooled, dies, converted⟩
    · simp only [here, if_false] at eq
      rw [eq]
      exact ⟨rfl, rfl, id, rfl⟩
  constructor
  case nodup =>
    intro u other hu alive
    obtain ⟨old, hold, eqBlocks, -, live, -⟩ := look u other hu
    rw [eqBlocks]
    exact h.nodup u old hold (live alive)
  case blocks =>
    intro u other hu alive
    obtain ⟨old, hold, eqBlocks, -, live, -⟩ := look u other hu
    rw [eqBlocks]
    exact h.blocks u old hold (live alive)
  case pooled =>
    intro u other hu alive isPooled
    obtain ⟨old, hold, eqBlocks, eqPooled, live, -⟩ := look u other hu
    rw [eqBlocks]
    exact h.pooled u old hold (live alive) (eqPooled ▸ isPooled)
  case exclusive =>
    intro u other v another i hu alive hv alive' same hi hi'
    obtain ⟨old, hold, eqBlocks, eqPooled, live, -⟩ := look u other hu
    obtain ⟨old', hold', eqBlocks', eqPooled', live', -⟩ := look v another hv
    exact h.exclusive u old v old' i hold (live alive) hold' (live' alive')
      (by rw [← eqPooled, ← eqPooled', same]) (eqBlocks ▸ hi) (eqBlocks' ▸ hi')
  case governed =>
    intro u other hu alive i hi a ha governs
    obtain ⟨old, hold, eqBlocks, eqPooled, live, eqConverted⟩ := look u other hu
    rw [eqConverted]
    refine h.governed u old hold (live alive) i (eqBlocks ▸ hi) a ha ?_
    unfold ChargeToken.governs at governs ⊢
    rwa [← eqPooled]
  case assigned =>
    intro u other hu alive isPooled i hi a ha
    obtain ⟨old, hold, eqBlocks, eqPooled, live, eqConverted⟩ := look u other hu
    rw [eqConverted]
    exact h.assigned u old hold (live alive) (by rw [← eqPooled, isPooled]) i (eqBlocks ▸ hi) a ha
  case notStaging => exact h.notStaging
  case pinned =>
    intro p pin hp alive
    obtain ⟨old, hold, live⟩ := h.pinned p pin hp alive
    by_cases eq : t = pin.charge
    · have same : old = token := by
        rw [← eq, ht] at hold
        simpa using hold.symm
      refine ⟨f old, by simp [eq, hold], ?_⟩
      rw [same]
      exact pinned p pin hp alive eq.symm
    · exact ⟨old, by simp [eq, hold], live⟩
  case pinCount =>
    intro i a ha
    rw [h.pinCount i a ha, pinsBlock_modify blocks]

/-- A pin may change its number of handles. -/
theorem Owned.updatePin (h : Owned allocations tokens pins) {p : Nat} {f : PinToken → PinToken}
    (charge : ∀ pin, (f pin).charge = pin.charge) (alive : ∀ pin, (f pin).alive = pin.alive) :
    Owned allocations tokens (pins.modify p f) := by
  refine { h with pinned := ?_, pinCount := ?_ }
  · intro q pin hq live
    obtain ⟨old, hold, eq⟩ := of_getElem?_modify hq
    by_cases here : p = q
    · simp only [here, if_true] at eq
      rw [eq, charge]
      exact h.pinned q old hold (by rw [← alive, ← eq]; exact live)
    · simp only [here, if_false] at eq
      exact eq ▸ h.pinned q old hold (eq ▸ live)
  · intro i a ha
    rw [h.pinCount i a ha]
    cases hpin : pins[p]? with
    | none => rw [List.modify_eq_self (List.getElem?_eq_none_iff.mp hpin)]
    | some old =>
      have moved := total_modify (pinsBlock tokens i) f hpin
      have same : pinsBlock tokens i (f old) = pinsBlock tokens i old := by
        simp [pinsBlock, charge, alive]
      omega

/-! ## Changes to the blocks of one token -/

/-- `after` is `before` with `change` done to each of the blocks. -/
def Changed (blocks : List Nat) (change : Allocation → Allocation)
    (before after : List Allocation) : Prop :=
  ∀ j, after[j]? = (before[j]?).map fun a => if j ∈ blocks then change a else a

section
variable {blocks : List Nat} {change : Allocation → Allocation} {after : List Allocation}

theorem Changed.of_after (h : Changed blocks change allocations after) {j : Nat} {b : Allocation}
    (hj : after[j]? = some b) :
    ∃ a, allocations[j]? = some a ∧ b = if j ∈ blocks then change a else a := by
  rw [h j] at hj
  cases ha : allocations[j]? with
  | none => simp [ha] at hj
  | some a => exact ⟨a, rfl, by simpa [ha, eq_comm] using hj⟩

theorem changed_each {settle : Allocation → LedgerState → LedgerState} (counting : Counting settle)
    (change : Allocation → Allocation) (nodup : blocks.Nodup) (s : LedgerState) :
    Changed blocks change s.allocations (each (blockStep settle change) blocks s).allocations := by
  intro j
  rw [each_allocations counting nodup]
  by_cases hj : j ∈ blocks <;> simp [hj]

theorem Changed.pinCount (changed : Changed blocks change allocations after)
    (kept : ∀ a, (change a).pins = a.pins) (h : Owned allocations tokens pins) {i : Nat}
    {b : Allocation} (hi : after[i]? = some b) : b.pins = total (pinsBlock tokens i) pins := by
  obtain ⟨a, ha, eq⟩ := changed.of_after hi
  rw [← h.pinCount i a ha, eq]
  split
  · exact kept a
  · rfl

/-- What `Convert` does: the token's blocks lose their reservation with it. -/
theorem Owned.convert (h : Owned allocations tokens pins) {t : Nat}
    (ht : tokens[t]? = some token) (alive : token.alive)
    (unconverted : token.handles.converted = false)
    (changed : Changed token.blocks Allocation.convert allocations after) :
    Owned after (tokens.modify t fun token => { token with handles := .charges 1 }) pins := by
  have kept : ∀ a : Allocation, a.convert.backing = a.backing ∧ a.convert.pins = a.pins ∧
      a.convert.alive = a.alive ∧ a.convert.reserved = false ∧
      (a.convert.category = .backingFree ↔ a.category = .backingFree) ∧
      (a.convert.category = .transferStaging ↔ a.category = .transferStaging) := by
    intro a
    unfold Allocation.convert
    split <;> simp_all
  constructor
  case nodup => grind [h.nodup]
  case blocks => grind [h.blocks, Changed]
  case pooled => grind [h.pooled, changed.of_after]
  case exclusive => grind [h.exclusive]
  case governed =>
    -- A block shared with another token: one of the two is its assignment, and only
    -- the assignment governs it.
    grind [h.governed, h.pooled, h.assigned, h.exclusive, changed.of_after,
      ChargeToken.governs, Handles.converted]
  case assigned => grind [h.assigned, changed.of_after, Handles.converted]
  case notStaging => grind [h.notStaging, changed.of_after]
  case pinned => grind [h.pinned]
  case pinCount =>
    intro i b hb
    rw [pinsBlock_modify (fun _ => by rfl)]
    exact changed.pinCount (fun a => (kept a).2.1) h hb

/-- What `ReserveBacking` does: free blocks of converted owners get one assignment. -/
theorem Owned.assign (h : Owned allocations tokens pins) {category : ResourceCategory}
    (nodup : blocks.Nodup) (free : category ≠ .backingFree) (ram : category ≠ .transferStaging)
    (ready : ∀ i ∈ blocks, ∃ a : Allocation, allocations[i]? = some a ∧ a.alive ∧ a.backing ∧
      a.category = .backingFree)
    (owners : ∀ i ∈ blocks, ∀ (t : Nat) (token : ChargeToken), tokens[t]? = some token →
      token.alive → i ∈ token.blocks → token.handles.converted)
    (changed : Changed blocks (Allocation.assign category) allocations after) :
    Owned after (tokens ++ [⟨blocks, true, .reservation, true⟩]) pins := by
  have unassigned : ∀ (u : Nat) (other : ChargeToken), tokens[u]? = some other → other.alive →
      other.pooled → ∀ i ∈ other.blocks, i ∉ blocks := by
    intro u other hu alive pooled i hi hb
    obtain ⟨a, ha, -, -, isFree⟩ := ready i hb
    exact (h.pooled u other hu alive pooled i hi a ha).2 isFree
  constructor
  case nodup => grind [h.nodup]
  case blocks => grind [h.blocks, Changed, Allocation.assign]
  case pooled => grind [h.pooled, changed.of_after, Allocation.assign]
  case exclusive => grind [h.exclusive]
  case governed =>
    grind [h.governed, h.assigned, changed.of_after, Allocation.assign,
      ChargeToken.governs, Handles.converted]
  case assigned =>
    grind [h.assigned, changed.of_after, Allocation.assign]
  case notStaging => grind [h.notStaging, changed.of_after, Allocation.assign]
  case pinned => grind [h.pinned]
  case pinCount =>
    intro i b hb
    rw [total_pinsBlock_append h.pinned]
    exact changed.pinCount (fun a => rfl) h hb

/-- What `~ChargeToken` does to an assignment: its blocks are free and unreserved again. -/
theorem Owned.free (h : Owned allocations tokens pins) {t : Nat}
    (ht : tokens[t]? = some token) (alive : token.alive) (pooled : token.pooled)
    (unpinned : ∀ (p : Nat) (pin : PinToken), pins[p]? = some pin → pin.alive → pin.charge ≠ t)
    (changed : Changed token.blocks Allocation.free allocations after) :
    Owned after (tokens.modify t fun token => { token with alive := false }) pins := by
  constructor
  case nodup => grind [h.nodup]
  case blocks => grind [h.blocks, Changed, Allocation.free]
  case pooled => grind [h.pooled, h.exclusive, changed.of_after, Allocation.free]
  case exclusive => grind [h.exclusive]
  case governed =>
    grind [h.governed, h.pooled, h.assigned, h.exclusive, changed.of_after, Allocation.free,
      ChargeToken.governs]
  case assigned => grind [h.assigned, changed.of_after, Allocation.free]
  case notStaging => grind [h.notStaging, changed.of_after, Allocation.free]
  case pinned => grind [h.pinned]
  case pinCount =>
    intro i b hb
    rw [pinsBlock_modify (fun _ => by rfl)]
    exact changed.pinCount (fun a => rfl) h hb

/-- What `Pin` does: one more live pin on each block of the token. -/
theorem Owned.pin (h : Owned allocations tokens pins) {t : Nat}
    (ht : tokens[t]? = some token) (alive : token.alive)
    (changed : Changed token.blocks Allocation.pin allocations after) :
    Owned after tokens (pins ++ [⟨t, 1, true⟩]) := by
  constructor
  case nodup => exact h.nodup
  case blocks => grind [h.blocks, Changed, Allocation.pin]
  case pooled => grind [h.pooled, changed.of_after, Allocation.pin]
  case exclusive => exact h.exclusive
  case governed => grind [h.governed, changed.of_after, Allocation.pin, ChargeToken.governs]
  case assigned => grind [h.assigned, changed.of_after, Allocation.pin]
  case notStaging => grind [h.notStaging, changed.of_after, Allocation.pin]
  case pinned => grind [h.pinned]
  case pinCount =>
    intro i b hb
    obtain ⟨a, ha, eq⟩ := changed.of_after hb
    have before := h.pinCount i a ha
    simp only [total_append, total_cons, total_nil, Nat.add_zero, ← before, pinsBlock, blocksOf,
      ht, Option.map_some, Option.getD_some, true_and, eq]
    split <;> simp [Allocation.pin]

/-- What `~PinToken` does: one pin less on each block of its token. -/
theorem Owned.unpin (h : Owned allocations tokens pins) {p : Nat} {pin : PinToken}
    (hp : pins[p]? = some pin) (alive : pin.alive)
    (changed : Changed (blocksOf tokens pin.charge) Allocation.unpin allocations after) :
    Owned after tokens (pins.modify p fun pin => { pin with alive := false }) := by
  constructor
  case nodup => exact h.nodup
  case blocks => grind [h.blocks, Changed, Allocation.unpin]
  case pooled => grind [h.pooled, changed.of_after, Allocation.unpin]
  case exclusive => exact h.exclusive
  case governed => grind [h.governed, changed.of_after, Allocation.unpin, ChargeToken.governs]
  case assigned => grind [h.assigned, changed.of_after, Allocation.unpin]
  case notStaging => grind [h.notStaging, changed.of_after, Allocation.unpin]
  case pinned => grind [h.pinned]
  case pinCount =>
    intro i b hb
    obtain ⟨a, ha, eq⟩ := changed.of_after hb
    have before := h.pinCount i a ha
    have moved := total_modify (pinsBlock tokens i) (fun pin => { pin with alive := false }) hp
    simp only [pinsBlock, alive, true_and, Bool.false_eq_true, false_and, if_false] at moved
    rw [eq]
    split
    · rename_i inside
      simp only [inside, if_true] at moved
      simp only [Allocation.unpin, before]
      omega
    · rename_i outside
      simp only [outside, if_false] at moved
      omega

end

/-- What `Reserve` does: a new block with its first owner. -/
theorem Owned.reserve (h : Owned allocations tokens pins) (category : ResourceCategory)
    (bytes : UInt64) :
    Owned (allocations ++ [⟨category, decide (category = .backingFree), bytes, true, 0, true⟩])
      (tokens ++ [⟨[allocations.length], false, .reservation, true⟩]) pins := by
  have inside : ∀ (u : Nat) (other : ChargeToken), tokens[u]? = some other → other.alive →
      ∀ i ∈ other.blocks, i < allocations.length := by
    intro u other hu alive i hi
    obtain ⟨a, ha, -⟩ := h.blocks u other hu alive i hi
    exact (List.getElem?_eq_some_iff.mp ha).1
  have lookToken : ∀ (u : Nat) (other : ChargeToken),
      (tokens ++ [⟨[allocations.length], false, .reservation, true⟩])[u]? = some other →
      tokens[u]? = some other ∨
        u = tokens.length ∧ other = ⟨[allocations.length], false, .reservation, true⟩ := by
    grind
  constructor
  case nodup => grind [h.nodup]
  case blocks =>
    intro u other hu alive i hi
    cases lookToken u other hu with
    | inl old =>
      obtain ⟨a, ha, live⟩ := h.blocks u other old alive i hi
      exact ⟨a, by rw [List.getElem?_append_left (inside u other old alive i hi)]; exact ha, live⟩
    | inr new =>
      have eq : i = allocations.length := by simpa [new.2] using hi
      exact ⟨_, by rw [eq, List.getElem?_concat_length], rfl⟩
  case pooled => grind [h.pooled]
  case exclusive => grind [h.exclusive]
  case governed => grind [h.governed, Handles.converted]
  case assigned => grind [h.assigned]
  case notStaging => grind [h.notStaging]
  case pinned => grind [h.pinned]
  case pinCount =>
    intro i a ha
    rw [total_pinsBlock_append h.pinned]
    have split : allocations[i]? = some a ∨ i = allocations.length ∧ a.pins = 0 := by grind
    cases split with
    | inl old => exact h.pinCount i a old
    | inr new =>
      rw [new.2, total_eq_zero]
      intro pin hp
      obtain ⟨p, hp⟩ := List.mem_iff_getElem?.mp hp
      unfold pinsBlock
      by_cases alive : pin.alive
      · obtain ⟨token, ht, live⟩ := h.pinned p pin hp alive
        have outside : i ∉ token.blocks := fun hi => by
          have := inside _ token ht live i hi
          omega
        simp [blocksOf, ht, outside]
      · simp [alive]

/-- What `~Allocation` does, once no live token has the block. -/
theorem Owned.destroy (h : Owned allocations tokens pins) {i : Nat}
    (free : ∀ (t : Nat) (token : ChargeToken), tokens[t]? = some token → token.alive →
      i ∉ token.blocks) :
    Owned (allocations.modify i Allocation.destroy) tokens pins := by
  constructor
  case nodup => exact h.nodup
  case blocks => grind [h.blocks, Allocation.destroy]
  case pooled => grind [h.pooled, Allocation.destroy]
  case exclusive => exact h.exclusive
  case governed => grind [h.governed]
  case assigned => grind [h.assigned]
  case notStaging => grind [h.notStaging, Allocation.destroy]
  case pinned => exact h.pinned
  case pinCount => grind [h.pinCount, Allocation.destroy]

end Gufo.Ledger
