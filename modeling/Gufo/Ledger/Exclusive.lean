import Gufo.Ledger.Conservation

/-!
# One assignment a block

A backing block is free exactly while nothing is assigned to it. What an operation does
to the blocks is said once, as its `Effect`; only the destructor of an assignment, due
when no handle and no pin keeps it, returns blocks to the free list.
-/

namespace Gufo.Ledger
open Gufo.Sums Gufo.Program LedgerState

variable {s s' : LedgerState}

/-! ## What an operation does -/

/-- What a token never changes while it lives. -/
def ChargeToken.core (token : ChargeToken) : List Nat × Bool × Bool :=
  (token.blocks, token.pooled, token.alive)

/-- Blocks are free or not as before. -/
def Steady (before after : List Allocation) : Prop :=
  ∀ (i : Nat) (b : Allocation), after[i]? = some b → ∃ a, before[i]? = some a ∧
    b.backing = a.backing ∧ (b.category = .backingFree ↔ a.category = .backingFree)

/-- The blocks of the token are no backing, or the token is their assignment. -/
def Pinnable (allocations : List Allocation) (token : ChargeToken) : Prop :=
  ∀ i ∈ token.blocks, ∀ a : Allocation, allocations[i]? = some a → a.backing → token.pooled

/-- A live pin was live before, or its token may be pinned. -/
def Pinning (s s' : LedgerState) : Prop :=
  ∀ pin ∈ s'.pins, pin.alive → (∃ pin' ∈ s.pins, pin'.alive ∧ pin'.charge = pin.charge) ∨
    ∀ token, s.tokens[pin.charge]? = some token → Pinnable s.allocations token

/-- The blocks of all the handles have become the blocks of one assignment. -/
structure Assigned (s : LedgerState) (charges : List Nat) (category : ResourceCategory)
    (blocks : List Nat) (s' : LedgerState) : Prop where
  kind : category ≠ .backingFree
  all : ∀ charge ∈ charges, ∃ handle, s.poolHandle? charge = some handle ∧
    ∀ i ∈ handle.blocks, i ∈ blocks
  free : ∀ i ∈ blocks, ∀ a, s.allocations[i]? = some a → a.category = .backingFree
  changed : Changed blocks (Allocation.assign category) s.allocations s'.allocations
  tokens : s'.tokens = s.tokens ++ [⟨blocks, true, .reservation, true⟩]
  pins : s'.pins = s.pins

inductive Effect (s s' : LedgerState) : Operation → Prop
  | steady {op : Operation} (blocks : Steady s.allocations s'.allocations)
      (tokens : s'.tokens.map ChargeToken.core = s.tokens.map ChargeToken.core)
      (pins : Pinning s s') : Effect s s' op
  | reserved {category : ResourceCategory} {bytes : UInt64} {block : Allocation}
      {token : ChargeToken} (free : block.backing → block.category = .backingFree)
      (owner : token.pooled = false) (blocks : s'.allocations = s.allocations ++ [block])
      (tokens : s'.tokens = s.tokens ++ [token]) (pins : s'.pins = s.pins) :
      Effect s s' (.reserve category bytes)
  | assigned {charges blocks : List Nat} {category : ResourceCategory}
      (assigned : Assigned s charges category blocks s') :
      Effect s s' (.reserveBacking charges category)
  | freed {t : Nat} {token : ChargeToken} {given : List Nat}
      (stored : s.tokens[t]? = some token) (live : token.alive)
      (dropped : token.handles.count = 0)
      (unpinned : ∀ pin ∈ s.pins, pin.alive → pin.charge ≠ t)
      (given_iff : ∀ i, i ∈ given ↔ token.pooled ∧ i ∈ token.blocks)
      (changed : Changed given Allocation.free s.allocations s'.allocations)
      (tokens : s'.tokens = s.tokens.modify t fun token => { token with alive := false })
      (pins : s'.pins = s.pins) : Effect s s' (.destroyToken t)

theorem Steady.refl (l : List Allocation) : Steady l l := fun _ b hb => ⟨b, hb, rfl, .rfl⟩

theorem Pinning.same (pins : s'.pins = s.pins) : Pinning s s' :=
  fun pin mem alive => .inl ⟨pin, pins ▸ mem, alive, rfl⟩

variable {op : Operation}

/-- An operation that leaves the objects alone. -/
theorem effect_same (blocks : s'.allocations = s.allocations)
    (tokens : s'.tokens = s.tokens) (pins : s'.pins = s.pins) : Effect s s' op :=
  .steady (blocks ▸ .refl _) (by rw [tokens]) (.same pins)

/-- A change of the blocks that leaves them free or not. -/
theorem steady_changed {blocks : List Nat} {change : Allocation → Allocation}
    {before after : List Allocation} (changed : Changed blocks change before after)
    (keeps : ∀ a : Allocation, (change a).backing = a.backing ∧
      ((change a).category = .backingFree ↔ a.category = .backingFree)) :
    Steady before after := by
  intro i b hb
  obtain ⟨a, ha, rfl⟩ := changed.of_after hb
  refine ⟨a, ha, ?_⟩
  split
  · exact keeps a
  · exact ⟨rfl, .rfl⟩

theorem core_modify {f : ChargeToken → ChargeToken} (same : ∀ token, (f token).core = token.core)
    (tokens : List ChargeToken) (t : Nat) :
    (tokens.modify t f).map ChargeToken.core = tokens.map ChargeToken.core := by
  apply List.ext_getElem?
  intro u
  rw [List.getElem?_map, List.getElem?_map, List.getElem?_modify]
  cases tokens[u]? with
  | none => rfl
  | some token =>
    by_cases here : t = u
    · simp [here, same]
    · simp [here]

/-- What a run may end in. -/
abbrev Ends (s : LedgerState) (op : Operation) : Prop :=
  Triple (fun t => t = s) op.run (fun _ t => Effect s t op) (fun _ t => Effect s t op)

theorem ends_modify {f : LedgerState → LedgerState} (run : op.run = modify f)
    (effect : Effect s (f s) op) : Ends s op := by
  rw [Ends, run]
  refine triple_modify ?_
  rintro _ rfl
  exact effect

/-- A change of what holds a token. -/
theorem effect_updateToken {t : Nat} {f : ChargeToken → ChargeToken}
    (same : ∀ token, (f token).core = token.core) : Effect s (s.updateToken t f) op :=
  .steady (.refl _) (core_modify same s.tokens t) (.same rfl)

/-- A change of what holds a pin. -/
theorem live_modify {pins : List PinToken} {p : Nat} {f : PinToken → PinToken}
    (same : ∀ pin, (f pin).charge = pin.charge ∧ ((f pin).alive → pin.alive)) :
    ∀ pin ∈ pins.modify p f, pin.alive → ∃ pin' ∈ pins, pin'.alive ∧ pin'.charge = pin.charge := by
  intro pin mem alive
  obtain ⟨q, found⟩ := List.mem_iff_getElem?.mp mem
  rw [List.getElem?_modify] at found
  obtain ⟨before, stored, eq⟩ := Option.map_eq_some_iff.mp found
  refine ⟨before, List.mem_of_getElem? stored, ?_⟩
  split at eq
  · subst eq
    exact ⟨(same before).2 alive, (same before).1.symm⟩
  · subst eq
    exact ⟨alive, rfl⟩

theorem effect_updatePin {p : Nat} {f : PinToken → PinToken}
    (same : ∀ pin, (f pin).charge = pin.charge ∧ ((f pin).alive → pin.alive)) :
    Effect s (s.updatePin p f) op :=
  .steady (.refl _) rfl fun pin mem alive => .inl (live_modify same pin mem alive)

/-! ## Every operation -/

theorem ends_reserve (valid : Valid s) (category : ResourceCategory) (bytes : UInt64) :
    Ends s (.reserve category bytes) := by
  have same : ∀ t : LedgerState, t = s → Effect s t (.reserve category bytes) := by
    rintro _ rfl
    exact effect_same rfl rfl rfl
  refine triple_discard (triple_reject (fun _ => same) fun _ => ?_)
  refine triple_bind (triple_consequence (fail_spec .reserve s) (fun _ => id) (fun _ _ => id) ?_)
    fun _ => ?_
  · rintro _ _ ⟨f, rfl⟩
    exact effect_same rfl rfl rfl
  refine triple_get_bind fun u h => ?_
  obtain ⟨f, rfl⟩ := h
  have same : ∀ t : LedgerState, t = { s with faults := f } →
      Effect s t (.reserve category bytes) := by
    rintro _ rfl
    exact effect_same rfl rfl rfl
  rw [headroom_eq valid.limited.total]
  refine triple_reject (fun _ => same) fun _ => ?_
  rw [headroom_eq (valid.limited.share category)]
  refine triple_reject (fun _ => same) fun _ => ?_
  refine triple_bind (triple_modify ?_)
    fun _ => triple_pure fun _ => id
  rintro _ rfl
  refine @Effect.reserved s _ category bytes
    ⟨category, decide (category = .backingFree), bytes, true, 0, true⟩
    ⟨[s.allocations.length], false, .reservation, true⟩ (by simp) rfl ?_ ?_ ?_
  all_goals
    unfold appendBlock
    split <;> rfl

theorem ends_convert (valid : Valid s) (t : Nat) : Ends s (.convert t) := by
  refine triple_get_bind fun u h => ?_
  subst h
  cases ht : u.reservation? t with
  | none =>
    refine triple_throw ?_
    rintro _ rfl
    exact effect_same rfl rfl rfl
  | some token =>
    refine triple_bind (triple_consequence (fail_spec .convert u) (fun _ => id) (fun _ _ => id) ?_)
      fun _ => ?_
    · rintro _ _ ⟨f, rfl⟩
      exact effect_same rfl rfl rfl
    rintro _ ⟨f, rfl⟩
    obtain ⟨stored, alive, _⟩ := reservation_eq ht
    have nodup := valid.owned.nodup t token stored alive
    have others := each_others counting_convert Allocation.convert token.blocks
      { u with faults := f }
    have changed := changed_each counting_convert Allocation.convert nodup { u with faults := f }
    refine .steady (steady_changed changed fun a => ⟨rfl, ?_⟩) ?_ (.same others.2.1)
    · unfold Allocation.convert
      split
      · rename_i assigned
        rw [assigned]
        exact iff_of_false nofun nofun
      · rfl
    · exact (@core_modify (fun token => { token with handles := .charges 1 })
        (fun _ => rfl) _ t).trans (congrArg _ others.1)

/-- Either every block is assigned or nothing is changed. -/
theorem reserveBacking_spec (charges : List Nat) (category : ResourceCategory) :
    Triple (fun t => t = s) (reserveBacking charges category)
      (fun t s' => t = s.tokens.length ∧ ∃ blocks, Assigned s charges category blocks s')
      (fun _ s' => s'.allocations = s.allocations ∧ s'.tokens = s.tokens ∧ s'.pins = s.pins) := by
  have same : ∀ t : LedgerState, t = s →
      t.allocations = s.allocations ∧ t.tokens = s.tokens ∧ t.pins = s.pins := by
    rintro _ rfl
    exact ⟨rfl, rfl, rfl⟩
  refine triple_reject (fun _ => same) fun kind => ?_
  refine triple_reject (fun _ => same) fun _ => ?_
  refine triple_get_bind fun u h => ?_
  subst h
  refine triple_reject (fun _ => same) fun handles => ?_
  refine triple_reject (fun _ => same) fun nodup => ?_
  refine triple_reject (fun _ => same) fun unassigned => ?_
  refine triple_bind (triple_consequence (fail_spec .reserve u) (fun _ => id) (fun _ _ => id) ?_)
    fun _ => ?_
  · rintro _ _ ⟨f, rfl⟩
    exact ⟨rfl, rfl, rfl⟩
  rintro _ ⟨f, rfl⟩
  have others := each_others (counting_assign category) (Allocation.assign category)
    ((charges.filterMap u.poolHandle?).flatMap (·.blocks)) { u with faults := f }
  have changed := changed_each (counting_assign category) (Allocation.assign category)
    (not_not.mp nodup) { u with faults := f }
  refine ⟨rfl, _, ?_, ?_, ?_, changed, congrArg (· ++ _) others.1, others.2.1⟩
  · rintro rfl
    exact kind (by decide)
  · intro charge listed
    cases found : u.poolHandle? charge with
    | none => exact absurd (List.any_eq_true.mpr ⟨charge, listed, by simp [found]⟩) handles
    | some handle =>
      exact ⟨handle, rfl, fun i inside => List.mem_flatMap.mpr
        ⟨handle, List.mem_filterMap.mpr ⟨charge, listed, found⟩, inside⟩⟩
  · intro i inside a ha
    by_contra other
    exact unassigned (List.any_eq_true.mpr ⟨i, inside, by simp [ha, other]⟩)

theorem ends_reserveBacking (charges : List Nat) (category : ResourceCategory) :
    Ends s (.reserveBacking charges category) := by
  have run := @reserveBacking_spec s charges category
  refine triple_discard (triple_consequence run (fun _ => id) ?_ ?_)
  · rintro _ _ ⟨-, blocks, assigned⟩
    exact .assigned assigned
  · rintro _ _ ⟨blocks, tokens, pins⟩
    exact effect_same blocks tokens pins

theorem ends_pin (valid : Valid s) (t : Nat) : Ends s (.pin t) := by
  refine triple_discard (triple_get_bind fun u h => ?_)
  subst h
  cases ht : u.held? t with
  | none =>
    refine triple_throw ?_
    rintro _ rfl
    exact effect_same rfl rfl rfl
  | some token =>
    have same : ∀ v : LedgerState, v = u → Effect u v (.pin t) := by
      rintro _ rfl
      exact effect_same rfl rfl rfl
    refine triple_reject (fun _ => same) fun fits => ?_
    refine triple_bind (triple_consequence (fail_spec .pin u) (fun _ => id) (fun _ _ => id) ?_)
      fun _ => ?_
    · rintro _ _ ⟨f, rfl⟩
      exact effect_same rfl rfl rfl
    rw [headroom_eq valid.limited.pinned]
    refine triple_reject ?_ fun _ => ?_
    · rintro _ _ ⟨f, rfl⟩
      exact effect_same rfl rfl rfl
    rintro _ ⟨f, rfl⟩
    obtain ⟨stored, alive⟩ := held_eq ht
    have nodup := valid.owned.nodup t token stored alive
    have others := each_others counting_nothing Allocation.pin token.blocks
      ({ u with faults := f }.addPinned (newlyPinned (token.blocks.filterMap (u.allocations[·]?))))
    have changed := changed_each counting_nothing Allocation.pin nodup
      ({ u with faults := f }.addPinned (newlyPinned (token.blocks.filterMap (u.allocations[·]?))))
    refine .steady (steady_changed changed fun a => ⟨rfl, .rfl⟩) (congrArg _ others.1) ?_
    intro pin mem live
    rcases List.mem_append.mp mem with old | new
    · have old : pin ∈ u.pins := others.2.1 ▸ old
      exact .inl ⟨pin, old, live, rfl⟩
    · refine .inr fun own found i inside a ha backing => ?_
      cases List.mem_singleton.mp new
      obtain rfl := Option.some.inj (stored.symm.trans found)
      -- the group was checked block by block
      have mem : a ∈ token.blocks.filterMap (u.allocations[·]?) :=
        List.mem_filterMap.mpr ⟨i, inside, ha⟩
      have checked : pinnable token a = true := by
        by_contra refused
        exact fits (List.any_eq_true.mpr ⟨a, mem, by simpa using refused⟩)
      have all := of_decide_eq_true checked
      exact all.2.2 backing

theorem run_ends (valid : Valid s) (op : Operation) : Ends s op := by
  cases op with
  | reserve category bytes => exact ends_reserve valid category bytes
  | convert t => exact ends_convert valid t
  | reserveBacking charges category => exact ends_reserveBacking charges category
  | pin t => exact ends_pin valid t
  | constrainLimits limits =>
    have same : ∀ t : LedgerState, t = s → Effect s t (.constrainLimits limits) := by
      rintro _ rfl
      exact effect_same rfl rfl rfl
    refine triple_get_bind fun u h => ?_
    subst h
    refine triple_reject (fun _ => same) fun _ => ?_
    refine triple_reject (fun _ => same) fun _ => triple_modify ?_
    rintro _ rfl
    exact effect_same rfl rfl rfl
  | snapshotAndResetPeaks =>
    refine triple_discard (triple_get_bind fun u h => triple_bind
      (triple_modify (Q := fun _ t => Effect s t .snapshotAndResetPeaks) ?_)
      fun _ => triple_pure fun _ => id)
    subst h
    rintro _ rfl
    exact effect_same rfl rfl rfl
  | failAfter step count =>
    refine triple_reject ?_ fun _ => triple_modify ?_
    · rintro _ _ rfl
      exact effect_same rfl rfl rfl
    · rintro _ rfl
      exact effect_same rfl rfl rfl
  | clearFaults => exact ends_modify rfl (effect_same rfl rfl rfl)
  | copyCharge t =>
    refine ends_modify rfl ?_
    unfold Ledger.copyCharge
    split
    · exact effect_updateToken fun _ => rfl
    · exact effect_same rfl rfl rfl
  | dropCharge t =>
    refine ends_modify rfl ?_
    unfold Ledger.dropCharge
    split
    · exact effect_updateToken fun _ => rfl
    · exact effect_same rfl rfl rfl
  | dropReservation t =>
    refine ends_modify rfl ?_
    unfold Ledger.dropReservation
    split
    · exact effect_updateToken fun _ => rfl
    · exact effect_same rfl rfl rfl
  | copyPin p =>
    refine ends_modify rfl ?_
    unfold Ledger.copyPin
    split
    · exact effect_updatePin fun _ => ⟨rfl, id⟩
    · exact effect_same rfl rfl rfl
  | dropPin p =>
    refine ends_modify rfl ?_
    unfold Ledger.dropPin
    split
    · exact effect_updatePin fun _ => ⟨rfl, id⟩
    · exact effect_same rfl rfl rfl
  | destroyToken t =>
    refine ends_modify rfl ?_
    unfold Ledger.destroyToken
    split
    · exact effect_same rfl rfl rfl
    rename_i token stored
    split
    · rename_i due
      have dropped : token.handles.count = 0 := by
        have := due.2
        simp only [tokenUnreferenced, Bool.and_eq_true, beq_iff_eq] at this
        exact this.1
      have unpinned : ∀ pin ∈ s.pins, pin.alive → pin.charge ≠ t := by
        intro pin mem
        obtain ⟨p, hp⟩ := List.mem_iff_getElem?.mp mem
        exact no_pin_of_unreferenced due.2 p pin hp
      have nodup := valid.owned.nodup t token stored due.1
      have others := each_others counting_free Allocation.free token.blocks s
      by_cases pooled : token.pooled
      · simp only [pooled, if_true]
        have changed := changed_each counting_free Allocation.free nodup s
        refine .freed stored due.1 dropped unpinned (by simp [pooled]) changed ?_ others.2.1
        exact congrArg (List.modify · t _) others.1
      · simp only [pooled]
        refine @Effect.freed s _ t token [] stored due.1 dropped unpinned (by simp [pooled]) ?_
          rfl rfl
        intro j
        simp [updateToken]
    · exact effect_same rfl rfl rfl
  | destroyPin p =>
    refine ends_modify rfl ?_
    unfold Ledger.destroyPin
    split
    · exact effect_same rfl rfl rfl
    rename_i pin hp
    split
    · rename_i due
      obtain ⟨token, ht, alive⟩ := valid.owned.pinned p pin hp due.1
      have nodup := valid.owned.nodup pin.charge token ht alive
      have others := each_others counting_unpin Allocation.unpin token.blocks s
      have changed := changed_each counting_unpin Allocation.unpin nodup s
      simp only [ht, Option.map_some, Option.getD_some]
      refine .steady (steady_changed changed fun a => ⟨rfl, .rfl⟩) (congrArg _ others.1) ?_
      intro pin' mem live
      obtain ⟨before, old, rest⟩ := @live_modify _ p (fun pin => { pin with alive := false })
        (fun _ => ⟨rfl, fun no => absurd no Bool.false_ne_true⟩) pin' mem live
      have old : before ∈ s.pins := others.2.1 ▸ old
      exact .inl ⟨before, old, rest⟩
    · exact effect_same rfl rfl rfl
  | destroyAllocation i =>
    refine ends_modify rfl ?_
    unfold Ledger.destroyAllocation
    split
    · exact effect_same rfl rfl rfl
    split
    · have others := blockStep_others counting_destroy Allocation.destroy i s
      refine .steady ?_ (congrArg _ others.1) (.same others.2.1)
      rw [blockStep_allocations counting_destroy]
      intro j b hb
      rw [List.getElem?_modify] at hb
      obtain ⟨a, ha, rfl⟩ := Option.map_eq_some_iff.mp hb
      refine ⟨a, ha, ?_⟩
      split <;> exact ⟨rfl, .rfl⟩
    · exact effect_same rfl rfl rfl

theorem run_effect (valid : Valid s) (op : Operation) : Effect s (final op.run s) op := by
  have run := run_ends valid op s rfl
  unfold Program.final
  cases ended : op.run s with
  | ok _ t => rwa [ended] at run
  | error _ t => rwa [ended] at run

/-! ## Assigned blocks have an assignment -/

structure Backed (s : LedgerState) : Prop where
  held : ∀ (i : Nat) (a : Allocation), s.allocations[i]? = some a → a.backing →
    a.category ≠ .backingFree → ∃ (t : Nat) (token : ChargeToken), s.tokens[t]? = some token ∧
      token.alive ∧ token.pooled ∧ i ∈ token.blocks
  borrowed : ∀ pin ∈ s.pins, pin.alive → ∀ token, s.tokens[pin.charge]? = some token →
    Pinnable s.allocations token

theorem core_lookup {tokens tokens' : List ChargeToken}
    (same : tokens'.map ChargeToken.core = tokens.map ChargeToken.core) {t : Nat}
    {token : ChargeToken} (stored : tokens[t]? = some token) :
    ∃ token', tokens'[t]? = some token' ∧ token'.core = token.core := by
  have at_ := congrArg (·[t]?) same
  simp only [List.getElem?_map, stored, Option.map_some] at at_
  exact Option.map_eq_some_iff.mp at_

theorem Pinnable.steady {before after : List Allocation} {token token' : ChargeToken}
    (h : Pinnable before token) (blocks : Steady before after)
    (core : token'.core = token.core) : Pinnable after token' := by
  obtain ⟨same, pooled, -⟩ : token'.blocks = token.blocks ∧ token'.pooled = token.pooled ∧
      token'.alive = token.alive := by simpa [ChargeToken.core] using core
  intro i inside b hb backing
  obtain ⟨a, ha, eq, -⟩ := blocks i b hb
  rw [pooled]
  exact h i (same ▸ inside) a ha (eq ▸ backing)

/-- A step in which the blocks stay free or not, and the tokens live on. -/
theorem Backed.steady (h : Backed s) (blocks : Steady s.allocations s'.allocations)
    (tokens : s'.tokens.map ChargeToken.core = s.tokens.map ChargeToken.core)
    (pins : Pinning s s') : Backed s' where
  held i b hb backing assigned := by
    obtain ⟨a, ha, same, free⟩ := blocks i b hb
    obtain ⟨t, token, stored, alive, pooled, inside⟩ :=
      h.held i a ha (same ▸ backing) (mt free.mpr assigned)
    obtain ⟨token', stored', core⟩ := core_lookup tokens stored
    simp only [ChargeToken.core, Prod.mk.injEq] at core
    exact ⟨t, token', stored', core.2.2 ▸ alive, core.2.1 ▸ pooled, core.1 ▸ inside⟩
  borrowed pin mem alive token stored := by
    obtain ⟨token', stored', core⟩ := core_lookup tokens.symm stored
    refine Pinnable.steady ?_ blocks core.symm
    rcases pins pin mem alive with ⟨old, mem, alive, charge⟩ | new
    · exact h.borrowed old mem alive token' (charge ▸ stored')
    · exact new token' stored'

/-- What pins borrow stays borrowed where their tokens and the kinds of blocks stay. -/
theorem Backed.kept (h : Backed s) (owned : s.Owned) (pins : s'.pins = s.pins)
    (tokens : ∀ (t : Nat) (token : ChargeToken), s.tokens[t]? = some token → token.alive →
      (∃ pin ∈ s.pins, pin.alive ∧ pin.charge = t) → s'.tokens[t]? = some token)
    (blocks : ∀ (i : Nat) (a b : Allocation), s.allocations[i]? = some a →
      s'.allocations[i]? = some b → b.backing = a.backing) :
    ∀ pin ∈ s'.pins, pin.alive → ∀ token, s'.tokens[pin.charge]? = some token →
      Pinnable s'.allocations token := by
  rw [pins]
  intro pin mem alive token' stored' i inside b hb backing
  obtain ⟨p, hp⟩ := List.mem_iff_getElem?.mp mem
  obtain ⟨token, stored, live⟩ := owned.pinned p pin hp alive
  obtain rfl : token = token' :=
    Option.some.inj ((tokens _ _ stored live ⟨pin, mem, alive, rfl⟩).symm.trans stored')
  obtain ⟨a, ha, -⟩ := owned.blocks _ token stored live i inside
  exact h.borrowed pin mem alive token stored i inside a ha (blocks i a b ha hb ▸ backing)

theorem Backed.effect (h : Backed s) (owned : s.Owned)
    (effect : Effect s s' op) : Backed s' := by
  cases effect with
  | steady blocks tokens pins => exact h.steady blocks tokens pins
  | reserved free owner blocks tokens pins =>
    refine ⟨fun i b hb backing assigned => ?_, h.kept owned pins ?_ ?_⟩
    · have ha : s.allocations[i]? = some b := by grind
      obtain ⟨t, token, stored, rest⟩ := h.held i b ha backing assigned
      exact ⟨t, token, by grind, rest⟩
    · grind
    · grind
  | @assigned _ given _ done =>
    obtain ⟨-, -, -, changed, tokens, pins⟩ := done
    refine ⟨fun i b hb backing assigned => ?_, h.kept owned pins ?_ ?_⟩
    · obtain ⟨a, ha, eq⟩ := changed.of_after hb
      split at eq
      · rename_i inside
        exact ⟨s.tokens.length, _, by rw [tokens, List.getElem?_concat_length], rfl, rfl, inside⟩
      · subst eq
        obtain ⟨t, token, stored, rest⟩ := h.held i b ha backing assigned
        exact ⟨t, token, by grind, rest⟩
    · grind
    · grind [changed.of_after, Allocation.assign]
  | @freed t token given stored alive dropped unpinned given_iff changed tokens pins =>
    have others : ∀ (u : Nat) (other : ChargeToken), t ≠ u → s.tokens[u]? = some other →
        s'.tokens[u]? = some other := by
      intro u other ne found
      rw [tokens, List.getElem?_modify, found]
      simp [ne]
    refine ⟨fun i b hb backing assigned => ?_, h.kept owned pins ?_ ?_⟩
    · obtain ⟨a, ha, eq⟩ := changed.of_after hb
      by_cases here : i ∈ given
      · rw [if_pos here] at eq
        exact absurd (congrArg Allocation.category eq) assigned
      · rw [if_neg here] at eq
        subst eq
        obtain ⟨u, holder, found, live, pooled, inside⟩ := h.held i b ha backing assigned
        refine ⟨u, holder, others u holder ?_ found, live, pooled, inside⟩
        rintro rfl
        cases stored.symm.trans found
        exact here ((given_iff i).mpr ⟨pooled, inside⟩)
    · rintro u other found live ⟨pin, mem, alive, charge⟩
      exact others u other (fun same => unpinned pin mem alive (charge.trans same.symm)) found
    · intro i a b ha hb
      obtain ⟨a', ha', rfl⟩ := changed.of_after hb
      cases ha.symm.trans ha'
      split <;> rfl

theorem reachable_backed {limits : ResourceLimits} (h : Reachable limits s) : Backed s := by
  induction h with
  | start => constructor <;> simp [initial]
  | next op before ih =>
    have valid := reachable_valid before
    exact ih.effect valid.owned (run_effect valid op)

/-! ## What it means -/

/-- The blocks of a ledger are exclusive. -/
structure Exclusive (s : LedgerState) : Prop where
  /-- Two live assignments share no block, and one lists no block twice. -/
  once : ∀ (t : Nat) (token : ChargeToken) (u : Nat) (other : ChargeToken) (i : Nat),
    s.tokens[t]? = some token → token.alive → token.pooled → s.tokens[u]? = some other →
      other.alive → other.pooled → i ∈ token.blocks → i ∈ other.blocks → t = u
  distinct : ∀ (t : Nat) (token : ChargeToken), s.tokens[t]? = some token → token.alive →
    token.pooled → token.blocks.Nodup
  /-- A block is free exactly while it has no live assignment. -/
  free : ∀ (i : Nat) (a : Allocation), s.allocations[i]? = some a → a.backing →
    (a.category = .backingFree ↔ ∀ (t : Nat) (token : ChargeToken), s.tokens[t]? = some token →
      token.alive → token.pooled → i ∉ token.blocks)
  /-- No free block is pinned. -/
  unpinned : ∀ (i : Nat) (a : Allocation), s.allocations[i]? = some a → a.backing →
    a.category = .backingFree → a.pins = 0 ∧
      ∀ pin ∈ s.pins, pin.alive → i ∉ blocksOf s.tokens pin.charge

/-- The pins of a backing block are pins of its assignment. -/
theorem Backed.pinned (backed : Backed s) (owned : s.Owned) {i : Nat} {a : Allocation}
    (ha : s.allocations[i]? = some a) (backing : a.backing) {pin : PinToken} (mem : pin ∈ s.pins)
    (alive : pin.alive) (inside : i ∈ blocksOf s.tokens pin.charge) :
    ∃ token, s.tokens[pin.charge]? = some token ∧ token.alive ∧ token.pooled ∧
      i ∈ token.blocks := by
  obtain ⟨p, hp⟩ := List.mem_iff_getElem?.mp mem
  obtain ⟨token, stored, live⟩ := owned.pinned p pin hp alive
  have inside : i ∈ token.blocks := by simpa [blocksOf, stored] using inside
  exact ⟨token, stored, live, backed.borrowed pin mem alive token stored i inside a ha backing,
    inside⟩

theorem pins_zero (owned : s.Owned) {i : Nat} {a : Allocation} (ha : s.allocations[i]? = some a)
    (uncovered : ∀ pin ∈ s.pins, pin.alive → i ∉ blocksOf s.tokens pin.charge) : a.pins = 0 := by
  rw [owned.pinCount i a ha]
  refine total_eq_zero fun pin mem => ?_
  unfold pinsBlock
  rw [if_neg]
  rintro ⟨alive, inside⟩
  exact uncovered pin mem alive inside

theorem exclusive_of (owned : s.Owned) (backed : Backed s) : Exclusive s where
  once t token u other i stored alive pooled stored' alive' pooled' inside inside' :=
    owned.exclusive t token u other i stored alive stored' alive' (pooled.trans pooled'.symm)
      inside inside'
  distinct t token stored alive _ := owned.nodup t token stored alive
  free i a ha backing := by
    constructor
    · intro free t token stored alive pooled inside
      exact (owned.pooled t token stored alive pooled i inside a ha).2 free
    · intro none
      by_contra assigned
      obtain ⟨t, token, stored, alive, pooled, inside⟩ := backed.held i a ha backing assigned
      exact none t token stored alive pooled inside
  unpinned i a ha backing free := by
    have uncovered : ∀ pin ∈ s.pins, pin.alive → i ∉ blocksOf s.tokens pin.charge := by
      intro pin mem alive inside
      obtain ⟨token, stored, live, pooled, inside⟩ :=
        backed.pinned owned ha backing mem alive inside
      exact (owned.pooled _ token stored live pooled i inside a ha).2 free
    exact ⟨pins_zero owned ha uncovered, uncovered⟩

/-- A block that becomes free was given back by the destructor of its assignment, when no
handle and no pin was left. -/
theorem freed_by (effect : Effect s s' op) {i : Nat} {a b : Allocation}
    (ha : s.allocations[i]? = some a) (hb : s'.allocations[i]? = some b)
    (assigned : a.category ≠ .backingFree) (free : b.category = .backingFree) :
    ∃ t token, op = .destroyToken t ∧ s.tokens[t]? = some token ∧ token.alive ∧ token.pooled ∧
      i ∈ token.blocks ∧ token.handles.count = 0 ∧
      ∀ pin ∈ s.pins, pin.alive → pin.charge ≠ t := by
  cases effect with
  | steady blocks =>
    obtain ⟨a', ha', -, same⟩ := blocks i b hb
    cases ha.symm.trans ha'
    exact absurd (same.mp free) assigned
  | reserved _ _ blocks =>
    have same : s.allocations[i]? = some b := by grind
    cases ha.symm.trans same
    exact absurd free assigned
  | assigned done =>
    obtain ⟨a', ha', eq⟩ := done.changed.of_after hb
    cases ha.symm.trans ha'
    split at eq
    · exact absurd ((congrArg Allocation.category eq).symm.trans free) done.kind
    · exact absurd (eq ▸ free) assigned
  | @freed t token given stored alive dropped unpinned given_iff changed =>
    obtain ⟨a', ha', eq⟩ := changed.of_after hb
    cases ha.symm.trans ha'
    by_cases here : i ∈ given
    · obtain ⟨pooled, inside⟩ := (given_iff i).mp here
      exact ⟨t, token, rfl, stored, alive, pooled, inside, dropped, unpinned⟩
    · rw [if_neg here] at eq
      exact absurd (eq ▸ free) assigned

/-- Whatever was done with the handles of a ledger, its backing blocks are exclusive; a
reservation takes all its blocks or none; and a block is given back only when its
assignment has no handle and the block no pin. -/
theorem backing_exclusive {limits : ResourceLimits} (h : Reachable limits s) :
    Exclusive s ∧
    (∀ charges category, (∃ e s', reserveBacking charges category s = .error e s' ∧
        s'.allocations = s.allocations ∧ s'.tokens = s.tokens ∧ s'.pins = s.pins) ∨
      ∃ t s' blocks, reserveBacking charges category s = .ok t s' ∧
        s'.tokens[t]? = some ⟨blocks, true, .reservation, true⟩ ∧
        (∀ charge ∈ charges, ∃ handle, s.poolHandle? charge = some handle ∧
          ∀ i ∈ handle.blocks, i ∈ blocks) ∧
        ∀ i ∈ blocks, ∀ a, s.allocations[i]? = some a →
          a.category = .backingFree ∧ s'.allocations[i]? = some (a.assign category)) ∧
    ∀ (op : Operation) (i : Nat) (a b : Allocation), s.allocations[i]? = some a → a.backing →
      a.category ≠ .backingFree → (final op.run s).allocations[i]? = some b →
      b.category = .backingFree → ∃ t token, op = .destroyToken t ∧ s.tokens[t]? = some token ∧
        token.pooled ∧ i ∈ token.blocks ∧ token.handles.count = 0 ∧ a.pins = 0 ∧
        ∀ pin ∈ s.pins, pin.alive → i ∉ blocksOf s.tokens pin.charge := by
  have valid := reachable_valid h
  have backed := reachable_backed h
  refine ⟨exclusive_of valid.owned backed, fun charges category => ?_,
    fun op i a b ha backing assigned hb free => ?_⟩
  · have run := @reserveBacking_spec s charges category s rfl
    cases ended : reserveBacking charges category s with
    | error e s' =>
      rw [ended] at run
      exact .inl ⟨e, s', rfl, run⟩
    | ok t s' =>
      rw [ended] at run
      obtain ⟨rfl, blocks, done⟩ := run
      refine .inr ⟨_, s', blocks, rfl, by rw [done.tokens, List.getElem?_concat_length], done.all,
        fun i inside a ha => ⟨done.free i inside a ha, ?_⟩⟩
      rw [done.changed i, ha, Option.map_some, if_pos inside]
  · obtain ⟨t, token, rfl, stored, alive, pooled, inside, dropped, unpinned⟩ :=
      freed_by (run_effect valid op) ha hb assigned free
    -- a pin on the block is a pin on its one assignment
    have uncovered : ∀ pin ∈ s.pins, pin.alive → i ∉ blocksOf s.tokens pin.charge := by
      intro pin mem live covered
      obtain ⟨other, stored', live', pooled', inside'⟩ :=
        backed.pinned valid.owned ha backing mem live covered
      exact unpinned pin mem live (valid.owned.exclusive _ other t token i stored' live' stored
        alive (pooled'.trans pooled.symm) inside' inside)
    exact ⟨t, token, rfl, stored, pooled, inside, dropped, pins_zero valid.owned ha uncovered,
      uncovered⟩

/-- Two blocks assigned together and pinned while borrowed: the destructor of the
reservation is not due before that of the pin. -/
theorem backing_exclusive_borrowed :
    let s := runAll [.reserve .backingFree 64, .convert 0, .reserve .backingFree 32, .convert 1,
      .reserveBacking [0, 1] .backingAssigned, .pin 2, .dropReservation 2, .destroyToken 2,
      .dropPin 0, .destroyPin 0] (initial ⟨100, 100, 10, 100⟩)
    Exclusive s ∧ ((s.allocations[0]?).any fun a => a.category = .backingAssigned) ∧
      ((final (Operation.destroyToken 2).run s).allocations[0]?).any
        fun a => a.category = .backingFree :=
  ⟨(backing_exclusive (reachable_runAll _ .start)).1, by decide, by decide⟩

end Gufo.Ledger
