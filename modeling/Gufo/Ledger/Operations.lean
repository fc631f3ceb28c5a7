import Gufo.Ledger.Ownership

/-!
# What an operation keeps

`Valid` puts the exact counters, the ownership of the blocks, the limits and the
peaks together. Every operation keeps it, whether it returns or throws.
-/

namespace Gufo.Ledger
open Gufo.Sums Gufo.Program LedgerState

/-- Usage is within the current limits. -/
structure Limited (s : LedgerState) : Prop where
  total : s.snapshot.totalBytes ≤ s.limits.totalBytes
  ram : s.snapshot.ramBytes ≤ s.limits.ramBytes
  staging : s.snapshot.bytes .transferStaging ≤ s.limits.stagingBytes
  pinned : s.snapshot.persistencePinnedBytes ≤ s.limits.persistencePinnedBytes

/-- No peak is below its counter. -/
structure Peaked (p : ResourceSnapshot) : Prop where
  bytes : ∀ c, p.bytes c ≤ p.peakBytes c
  total : p.totalBytes ≤ p.peakTotalBytes
  ram : p.ramBytes ≤ p.peakRamBytes
  pinned : p.persistencePinnedBytes ≤ p.peakPersistencePinnedBytes

structure Valid (s : LedgerState) : Prop where
  exact : Exact s
  owned : s.Owned
  limited : Limited s
  peaked : Peaked s.snapshot

variable {s : LedgerState}

theorem headroom_eq {limit used : UInt64} (h : used ≤ limit) :
    headroom limit used = pure (limit - used) := by
  have no : ¬limit < used := not_lt_of_toNat (UInt64.le_iff_toNat_le.mp h)
  funext s
  show EStateM.Result.ok (limit - used)
    { s with underflow := s.underflow || decide (limit < used) } = .ok (limit - used) s
  simp [no]

theorem fail_spec (step : LedgerStep) (s : LedgerState) :
    Triple (fun t => t = s) (fail step) (fun _ t => ∃ f, t = { s with faults := f })
      (fun _ t => ∃ f, t = { s with faults := f }) := by
  intro t ht
  subst ht
  unfold fail
  have read (f : LedgerState → LedgerM PUnit) : (get >>= f) t = f t t := rfl
  rw [read]
  cases hf : t.faults step with
  | none => exact ⟨t.faults, rfl⟩
  | some n =>
    cases n with
    | zero => exact ⟨_, rfl⟩
    | succ n => exact ⟨_, rfl⟩

/-! ## Faults, limits and peaks -/

theorem Valid.withFaults (h : Valid s) (f : LedgerStep → Option Nat) :
    Valid { s with faults := f } :=
  ⟨{ h.exact with }, h.owned, { h.limited with }, h.peaked⟩

theorem triple_fail (step : LedgerStep) :
    Triple Valid (fail step) (fun _ => Valid) (fun _ => Valid) := by
  apply triple_of_start
  intro s h
  apply triple_consequence (fail_spec step s) (fun _ => id)
  · rintro _ _ ⟨f, rfl⟩
    exact h.withFaults f
  · rintro _ _ ⟨f, rfl⟩
    exact h.withFaults f

theorem le_larger_right (a b : UInt64) : b ≤ larger a b := by
  rw [UInt64.le_iff_toNat_le, toNat_larger]
  omega

theorem peaked_peaks (s : LedgerState) : Peaked s.peaks.snapshot :=
  ⟨fun _ => le_larger_right _ _, le_larger_right _ _, le_larger_right _ _, le_larger_right _ _⟩

variable {i : Nat}

theorem Limited.convert (h : Limited s) : Limited (convertBlock i s) := by
  unfold convertBlock blockStep
  split
  · exact h
  · unfold settleConvert
    split
    · exact ⟨h.total, h.ram, by simpa [updateAllocation, subReserved, subBytes, addBytes] using
        h.staging, h.pinned⟩
    · exact ⟨h.total, h.ram, h.staging, h.pinned⟩

theorem Limited.assign {category : ResourceCategory} (h : Limited s)
    (ram : category ≠ .transferStaging) : Limited (assignBlock category i s) := by
  unfold assignBlock blockStep
  split
  · exact h
  · refine ⟨h.total, h.ram, ?_, h.pinned⟩
    simpa [settleAssign, updateAllocation, subBytes, addBytes, addReserved,
      Function.update_of_ne ram.symm] using h.staging

variable {a : Allocation}

theorem Limited.free (h : Limited s) (hi : s.allocations[i]? = some a)
    (ram : a.category ≠ .transferStaging) : Limited (freeBlock i s) := by
  unfold freeBlock blockStep
  rw [hi]
  unfold settleFree
  dsimp only
  split
  · refine ⟨h.total, h.ram, ?_, h.pinned⟩
    simpa [updateAllocation, subBytes, addBytes, subReserved, Function.update_of_ne ram.symm]
      using h.staging
  · refine ⟨h.total, h.ram, ?_, h.pinned⟩
    simpa [updateAllocation, subBytes, addBytes, Function.update_of_ne ram.symm] using h.staging

theorem add_lt_of_le_sub {a n b : UInt64} (h : a ≤ b) (fits : n ≤ b - a) :
    a.toNat + n.toNat < 2 ^ 64 := by
  rw [UInt64.le_iff_toNat_le] at h fits
  rw [toNat_sub h] at fits
  have := b.toNat_lt
  omega

theorem add_le_of_le_sub {a n b : UInt64} (h : a ≤ b) (fits : n ≤ b - a) : a + n ≤ b := by
  rw [UInt64.le_iff_toNat_le, toNat_add (add_lt_of_le_sub h fits)]
  rw [UInt64.le_iff_toNat_le] at h fits
  rw [toNat_sub h] at fits
  omega

/-- No counter of `q` is above the one of `p`, and the peaks are the same. -/
structure Lower (q p : ResourceSnapshot) : Prop where
  bytes : ∀ c, q.bytes c ≤ p.bytes c
  total : q.totalBytes ≤ p.totalBytes
  ram : q.ramBytes ≤ p.ramBytes
  pinned : q.persistencePinnedBytes ≤ p.persistencePinnedBytes
  peakBytes : q.peakBytes = p.peakBytes
  peakTotal : q.peakTotalBytes = p.peakTotalBytes
  peakRam : q.peakRamBytes = p.peakRamBytes
  peakPinned : q.peakPersistencePinnedBytes = p.peakPersistencePinnedBytes

theorem Lower.limited {t : LedgerState} (lower : Lower t.snapshot s.snapshot)
    (same : t.limits = s.limits) (h : Limited s) : Limited t := by
  constructor <;> rw [same]
  · exact UInt64.le_trans lower.total h.total
  · exact UInt64.le_trans lower.ram h.ram
  · exact UInt64.le_trans (lower.bytes _) h.staging
  · exact UInt64.le_trans lower.pinned h.pinned

theorem Lower.peaked {p q : ResourceSnapshot} (lower : Lower q p) (h : Peaked p) : Peaked q where
  bytes c := by
    rw [lower.peakBytes]
    exact UInt64.le_trans (lower.bytes c) (h.bytes c)
  total := by
    rw [lower.peakTotal]
    exact UInt64.le_trans lower.total h.total
  ram := by
    rw [lower.peakRam]
    exact UInt64.le_trans lower.ram h.ram
  pinned := by
    rw [lower.peakPinned]
    exact UInt64.le_trans lower.pinned h.pinned

theorem lower_destroy (h : Exact s) (hi : s.allocations[i]? = some a)
    (alive : a.alive) (unpinned : a.pins = 0) :
    Lower (settleDestroy a s).snapshot s.snapshot := by
  have moves := settles_destroy h hi alive unpinned
  have gone : a.destroy.alive = false := rfl
  constructor
  case bytes =>
    rw [moves.bytes]
    exact h.bytes.lower hi (.inl (by simp [bytesKey, gone]))
  case total =>
    have le := h.total.lower hi (k := totalKey a.destroy) (.inl (by simp [totalKey, gone])) ()
    rwa [← moves.total] at le
  case ram =>
    have le := h.ram.lower hi (k := ramKey a.destroy) (.inl (by simp [ramKey, gone])) ()
    rwa [← moves.ram] at le
  case pinned =>
    have le := h.pinned.lower hi (k := pinnedKey a.destroy) (.inl (by simp [pinnedKey, gone])) ()
    rwa [← moves.pinned] at le
  all_goals
    unfold settleDestroy
    split <;> split <;> rfl

theorem lower_unpin (h : Exact s) (hi : s.allocations[i]? = some a)
    (alive : a.alive) (pinned : a.pins ≠ 0) : Lower (settleUnpin a s).snapshot s.snapshot := by
  have covered := h.pinned_covers hi alive pinned
  unfold settleUnpin
  split
  · refine ⟨fun _ => UInt64.le_refl _, UInt64.le_refl _, UInt64.le_refl _, ?_, rfl, rfl, rfl, rfl⟩
    rw [UInt64.le_iff_toNat_le]
    simp [subPinned, toNat_sub covered]
  · exact ⟨fun _ => UInt64.le_refl _, UInt64.le_refl _, UInt64.le_refl _, UInt64.le_refl _, rfl,
      rfl, rfl, rfl⟩

theorem blockStep_lower {settle : Allocation → LedgerState → LedgerState}
    (counting : Counting settle) (change : Allocation → Allocation)
    (hi : s.allocations[i]? = some a) (lower : Lower (settle a s).snapshot s.snapshot)
    (limited : Limited s) (peaked : Peaked s.snapshot) :
    Limited (blockStep settle change i s) ∧ Peaked (blockStep settle change i s).snapshot := by
  have others := blockStep_others counting change i s
  have same : (blockStep settle change i s).snapshot = (settle a s).snapshot := by
    simp [blockStep, hi, updateAllocation]
  rw [← same] at lower
  exact ⟨lower.limited others.2.2 limited, lower.peaked peaked⟩

/-! ## Reserve -/

theorem Exact.append (h : Exact s) (category : ResourceCategory) {bytes : UInt64}
    (fits : s.snapshot.totalBytes.toNat + bytes.toNat < 2 ^ 64) :
    Exact (appendBlock category bytes s) := by
  have room {κ : Type} {key : Allocation → Option κ}
      (le : ∀ b, (key b).isSome → (totalKey b).isSome) :
      volume key Allocation.bytes s.allocations + bytes.toNat < 2 ^ 64 := by
    have smaller : volume key Allocation.bytes s.allocations ≤
        volume totalKey Allocation.bytes s.allocations := volume_le fun b _ => le b
    rw [h.volume_total] at smaller
    omega
  let block : Allocation := ⟨category, decide (category = .backingFree), bytes, true, 0, true⟩
  have inBytes := h.bytes.append block (room fun _ => totalKey_of_bytesKey)
  have inReserved := h.reserved.append block (room fun _ => totalKey_of_reservedKey)
  have inTotal := h.total.append block (room fun _ => id)
  have inRam := h.ram.append block (room fun _ => totalKey_of_ramKey)
  have inPinned := h.pinned.append block (room fun _ => totalKey_of_pinnedKey)
  by_cases staging : category = .transferStaging <;>
    simp [block, bytesKey, reservedKey, totalKey, ramKey, pinnedKey, staging]
      at inBytes inReserved inTotal inRam inPinned <;>
    constructor <;>
    simp_all [appendBlock, addBytes, addReserved, addTotal, addRam, peaks, h.noUnderflow]

theorem Limited.share (h : Limited s) (category : ResourceCategory) :
    s.snapshot.share category ≤ s.limits.share category := by
  unfold ResourceLimits.share ResourceSnapshot.share
  split
  · exact h.staging
  · exact h.ram

theorem Limited.append (h : Limited s) (category : ResourceCategory) {bytes : UInt64}
    (total : bytes ≤ s.limits.totalBytes - s.snapshot.totalBytes)
    (share : bytes ≤ s.limits.share category - s.snapshot.share category) :
    Limited (appendBlock category bytes s) := by
  have inTotal := add_le_of_le_sub h.total total
  have inShare := add_le_of_le_sub (h.share category) share
  unfold ResourceLimits.share ResourceSnapshot.share at inShare
  by_cases isStaging : category = .transferStaging
  · subst isStaging
    simp only [if_true] at inShare
    constructor <;>
      simp [appendBlock, addBytes, addReserved, addTotal, peaks, inTotal, inShare, h.ram,
        h.pinned]
  · simp only [isStaging, if_false] at inShare
    have other : ResourceCategory.transferStaging ≠ category := fun e => isStaging e.symm
    constructor <;>
      simp [appendBlock, addBytes, addReserved, addTotal, addRam, peaks, inTotal, inShare,
        isStaging, Function.update_of_ne other, h.staging, h.pinned]

theorem Valid.append (h : Valid s) (category : ResourceCategory) {bytes : UInt64}
    (total : bytes ≤ s.limits.totalBytes - s.snapshot.totalBytes)
    (share : bytes ≤ s.limits.share category - s.snapshot.share category) :
    Valid (appendBlock category bytes s) := by
  have fits := add_lt_of_le_sub h.limited.total total
  refine ⟨h.exact.append category fits, ?_, h.limited.append category total share, ?_⟩
  · have owned := h.owned.reserve category bytes
    unfold appendBlock
    split <;> exact owned
  · exact peaked_peaks _

theorem reserve_keeps (category : ResourceCategory) (bytes : UInt64) :
    Keeps Valid (reserve category bytes) := by
  refine triple_reject (fun _ _ h => h) fun _ => ?_
  refine triple_bind (triple_fail .reserve) fun _ => ?_
  refine triple_get_bind fun s h => ?_
  rw [headroom_eq h.limited.total]
  refine triple_reject (fun _ _ ht => ht ▸ h) fun total => ?_
  rw [headroom_eq (h.limited.share category)]
  refine triple_reject (fun _ _ ht => ht ▸ h) fun share => ?_
  refine triple_bind (triple_modify fun t ht => ?_) fun _ => triple_pure fun _ => id
  subst ht
  exact h.append category (UInt64.not_lt.mp total) (UInt64.not_lt.mp share)

/-! ## Convert -/

variable {token : ChargeToken} {t : Nat}

theorem held_eq (h : s.held? t = some token) :
    s.tokens[t]? = some token ∧ token.alive := by
  unfold LedgerState.held? at h
  simp_all

theorem reservation_eq (h : s.reservation? t = some token) :
    s.tokens[t]? = some token ∧ token.alive ∧ token.handles.converted = false := by
  unfold LedgerState.reservation? at h
  rw [Option.filter_eq_some_iff] at h
  have held := held_eq h.1
  exact ⟨held.1, held.2, by simpa using h.2⟩

theorem charge_eq (h : s.charge? t = some token) :
    s.tokens[t]? = some token ∧ token.alive ∧ token.handles.converted = true := by
  unfold LedgerState.charge? at h
  rw [Option.filter_eq_some_iff] at h
  have held := held_eq h.1
  exact ⟨held.1, held.2, by simpa using h.2⟩

/-- The blocks of an unconverted reservation are all reserved: if it is the original owner of
assigned backing, it was converted before. -/
theorem Owned.reserved (h : s.Owned)
    (ht : s.tokens[t]? = some token) (alive : token.alive)
    (unconverted : token.handles.converted = false) :
    ∀ i ∈ token.blocks, ∃ a, s.allocations[i]? = some a ∧ (a.alive ∧ a.reserved) := by
  intro i hi
  obtain ⟨a, ha, live⟩ := h.blocks t token ht alive i hi
  refine ⟨a, ha, live, ?_⟩
  have governs : token.governs a := by
    by_contra other
    simp only [ChargeToken.governs, not_or, Bool.not_eq_true, Bool.not_eq_false] at other
    have := h.assigned t token ht alive other.1 i hi a ha other.2.1 other.2.2
    simp [unconverted] at this
  rw [h.governed t token ht alive i hi a ha governs, unconverted]
  rfl

theorem Valid.convert (h : Valid s)
    (ht : s.reservation? t = some token) :
    Valid ((each convertBlock token.blocks s).peaks.updateToken t fun token =>
      { token with handles := .charges 1 }) := by
  obtain ⟨stored, alive, unconverted⟩ := reservation_eq ht
  have nodup := h.owned.nodup t token stored alive
  have counted : Exact (each convertBlock token.blocks s) ∧
      Limited (each convertBlock token.blocks s) := by
    apply each_keeps counting_convert (I := fun s => Exact s ∧ Limited s)
      (fun a => a.alive ∧ a.reserved) ?_ nodup ⟨h.exact, h.limited⟩
    · exact h.owned.reserved stored alive unconverted
    · intro s i a ⟨exact, limited⟩ hi ready
      refine ⟨exact.blockStep counting_convert fun b hb => ?_, limited.convert⟩
      rw [hi, Option.some.injEq] at hb
      exact hb ▸ settles_convert exact hi ready.1 ready.2
  have others := each_others counting_convert Allocation.convert token.blocks s
  have owned := h.owned.convert stored alive unconverted (changed_each counting_convert _ nodup s)
  refine ⟨{ counted.1 with }, ?_, { counted.2 with }, peaked_peaks _⟩
  simpa [updateToken, peaks, convertBlock, others] using owned

theorem convert_keeps (t : Nat) : Keeps Valid (convert t) := by
  refine triple_get_bind fun s h => ?_
  cases ht : s.reservation? t with
  | none => exact triple_throw fun _ hs => hs ▸ h
  | some token =>
    refine triple_bind (triple_consequence (fail_spec .convert s) (fun _ => id)
      (fun _ _ => id) ?_) fun _ => ?_
    · rintro _ _ ⟨f, rfl⟩
      exact h.withFaults f
    · rintro _ ⟨f, rfl⟩
      exact (h.withFaults f).convert (t := t) ht

/-! ## ReserveBacking -/

theorem poolHandle_eq (h : s.poolHandle? t = some token) :
    s.tokens[t]? = some token ∧ token.alive ∧ token.handles.converted = true ∧
      token.pooled = false ∧
      ∀ i ∈ token.blocks, ∀ a, s.allocations[i]? = some a → a.backing := by
  unfold LedgerState.poolHandle? at h
  rw [Option.filter_eq_some_iff] at h
  have charge := charge_eq h.1
  simp only [Bool.and_eq_true, Bool.not_eq_true', List.all_eq_true] at h
  refine ⟨charge.1, charge.2.1, charge.2.2, h.2.1, fun i hi a ha => ?_⟩
  simpa [ha] using h.2.2 i hi

variable {blocks : List Nat}

theorem Valid.assign (h : Valid s) {category : ResourceCategory}
    (nodup : blocks.Nodup) (free : category ≠ .backingFree) (ram : category ≠ .transferStaging)
    (handles : ∀ i ∈ blocks, ∃ t token, s.poolHandle? t = some token ∧ i ∈ token.blocks)
    (unassigned : ∀ i ∈ blocks, ∀ a, s.allocations[i]? = some a → a.category = .backingFree) :
    Valid (peaks { each (assignBlock category) blocks s with
      tokens := (each (assignBlock category) blocks s).tokens ++
        [⟨blocks, true, .reservation, true⟩] }) := by
  have ready : ∀ i ∈ blocks, ∃ a, s.allocations[i]? = some a ∧
      (a.alive ∧ a.backing ∧ a.category = .backingFree ∧ a.reserved = false) := by
    intro i hi
    obtain ⟨t, token, handle, inside⟩ := handles i hi
    obtain ⟨ht, alive, converted, unpooled, backing⟩ := poolHandle_eq handle
    obtain ⟨a, ha, live⟩ := h.owned.blocks t token ht alive i inside
    have isFree := unassigned i hi a ha
    refine ⟨a, ha, live, backing i inside a ha, isFree, ?_⟩
    rw [h.owned.governed t token ht alive i inside a ha (.inr (.inr isFree)), converted]
    rfl
  have owners : ∀ i ∈ blocks, ∀ (t : Nat) (token : ChargeToken), s.tokens[t]? = some token →
      token.alive → i ∈ token.blocks → token.handles.converted := by
    intro i hi t token ht alive inside
    obtain ⟨a, ha, -, -, isFree, unreserved⟩ := ready i hi
    have := h.owned.governed t token ht alive i inside a ha (.inr (.inr isFree))
    simpa [unreserved] using this
  have counted : Exact (each (assignBlock category) blocks s) ∧
      Limited (each (assignBlock category) blocks s) := by
    apply each_keeps (counting_assign category) (I := fun s => Exact s ∧ Limited s) _ ?_ nodup
      ⟨h.exact, h.limited⟩ ready
    intro s i a ⟨exact, limited⟩ hi ⟨alive, _, isFree, unreserved⟩
    refine ⟨exact.blockStep (counting_assign category) fun b hb => ?_, limited.assign ram⟩
    rw [hi, Option.some.injEq] at hb
    exact hb ▸ settles_assign exact hi alive isFree unreserved ram
  have others := each_others (counting_assign category) (Allocation.assign category)
    blocks s
  have owned := h.owned.assign nodup free ram
    (fun i hi => (ready i hi).imp fun a ha => ⟨ha.1, ha.2.1, ha.2.2.1, ha.2.2.2.1⟩) owners
    (changed_each (counting_assign category) _ nodup s)
  refine ⟨{ counted.1 with }, ?_, { counted.2 with }, peaked_peaks _⟩
  simpa [peaks, assignBlock, others] using owned

theorem reserveBacking_keeps (charges : List Nat) (category : ResourceCategory) :
    Keeps Valid (reserveBacking charges category) := by
  refine triple_reject (fun _ _ h => h) fun wanted => ?_
  refine triple_reject (fun _ _ h => h) fun _ => ?_
  refine triple_get_bind fun s h => ?_
  refine triple_reject (fun _ _ ht => ht ▸ h) fun _ => ?_
  refine triple_reject (fun _ _ ht => ht ▸ h) fun nodup => ?_
  refine triple_reject (fun _ _ ht => ht ▸ h) fun unassigned => ?_
  have handles : ∀ i ∈ (charges.filterMap s.poolHandle?).flatMap (·.blocks),
      ∃ t token, s.poolHandle? t = some token ∧ i ∈ token.blocks := by
    intro i hi
    obtain ⟨token, listed, inside⟩ := List.mem_flatMap.mp hi
    obtain ⟨t, -, handle⟩ := List.mem_filterMap.mp listed
    exact ⟨t, token, handle, inside⟩
  have free : ∀ i ∈ (charges.filterMap s.poolHandle?).flatMap (·.blocks), ∀ a,
      s.allocations[i]? = some a → a.category = .backingFree := by
    intro i hi a ha
    by_contra other
    apply unassigned
    rw [List.any_eq_true]
    exact ⟨i, hi, by simp [ha, other]⟩
  refine triple_bind (triple_consequence (fail_spec .reserve s) (fun _ => id)
    (fun _ _ => id) ?_) fun _ => ?_
  · rintro _ _ ⟨f, rfl⟩
    exact h.withFaults f
  · rintro _ ⟨f, rfl⟩
    exact (h.withFaults f).assign (not_not.mp nodup) (by grind) (by grind) handles free

/-! ## Pin -/

/-- What one block adds when it is first pinned. -/
def settlePin (a : Allocation) (s : LedgerState) : LedgerState :=
  if a.pins = 0 then s.addPinned a.bytes else s

theorem counting_pin : Counting settlePin := by
  constructor <;> intro a s <;> unfold settlePin <;> split <;> rfl

theorem settles_pin (h : Exact s) (alive : a.alive) :
    Settles settlePin Allocation.pin a s := by
  by_cases first : a.pins = 0
  · constructor <;>
      simp_all [settlePin, Allocation.pin, addPinned, bytesKey, reservedKey, totalKey,
        ramKey, pinnedKey, h.noUnderflow]
  · constructor <;>
      simp_all [settlePin, Allocation.pin, bytesKey, reservedKey, totalKey,
        ramKey, pinnedKey, h.noUnderflow]

/-- Adding the group's bytes at once is adding each block's as it is pinned. -/
theorem each_pinBlock (nodup : blocks.Nodup) (s : LedgerState) (n : UInt64) :
    each pinBlock blocks (s.addPinned ((blocks.filterMap (s.allocations[·]?)).foldl
      (fun n block => if block.pins = 0 then n + block.bytes else n) n)) =
    each (blockStep settlePin Allocation.pin) blocks (s.addPinned n) := by
  induction blocks generalizing s n with
  | nil => rfl
  | cons i rest ih =>
    have once := (List.nodup_cons.mp nodup).1
    cases hi : s.allocations[i]? with
    | none =>
      have step := ih (List.nodup_cons.mp nodup).2 s n
      simpa [each, pinBlock, blockStep, addPinned, hi] using step
    | some a =>
      have others : rest.filterMap ((s.updateAllocation i Allocation.pin).allocations[·]?) =
          rest.filterMap (s.allocations[·]?) := by
        apply List.filterMap_congr
        intro j hj
        have ne : i ≠ j := fun e => once (e ▸ hj)
        simp [updateAllocation, ne]
      have step := ih (List.nodup_cons.mp nodup).2 (s.updateAllocation i Allocation.pin)
        (if a.pins = 0 then n + a.bytes else n)
      rw [others] at step
      by_cases first : a.pins = 0
      · simpa [each, pinBlock, blockStep, settlePin, addPinned, updateAllocation, hi, first,
          UInt64.add_assoc] using step
      · simpa [each, pinBlock, blockStep, settlePin, addPinned, updateAllocation, hi, first]
          using step

theorem counting_nothing : Counting fun _ s => s :=
  ⟨fun _ _ => rfl, fun _ _ => rfl, fun _ _ => rfl, fun _ _ => rfl⟩

theorem Limited.pinBlocks (nodup : blocks.Nodup)
    (stored : ∀ i ∈ blocks, ∃ a, s.allocations[i]? = some a ∧ True) (h : Limited s) :
    Limited (each pinBlock blocks s) := by
  apply each_keeps counting_nothing (fun _ => True) ?_ nodup h stored
  intro s i a limited hi _
  simp only [blockStep, hi]
  exact { limited with }

theorem Valid.pin (h : Valid s) (ht : s.held? t = some token)
    (room : newlyPinned (token.blocks.filterMap (s.allocations[·]?)) ≤
      s.limits.persistencePinnedBytes - s.snapshot.persistencePinnedBytes) :
    Valid (peaks { each pinBlock token.blocks
        (s.addPinned (newlyPinned (token.blocks.filterMap (s.allocations[·]?)))) with
      pins := (each pinBlock token.blocks
        (s.addPinned (newlyPinned (token.blocks.filterMap (s.allocations[·]?))))).pins ++
          [⟨t, 1, true⟩] }) := by
  obtain ⟨stored, alive⟩ := held_eq ht
  have nodup := h.owned.nodup t token stored alive
  have blocks := h.owned.blocks t token stored alive
  have limited : Limited (each pinBlock token.blocks
      (s.addPinned (newlyPinned (token.blocks.filterMap (s.allocations[·]?))))) := by
    apply Limited.pinBlocks nodup
    · intro i hi
      obtain ⟨a, ha, -⟩ := blocks i hi
      exact ⟨a, ha, trivial⟩
    · exact { h.limited with pinned := add_le_of_le_sub h.limited.pinned room }
  have exact : Exact (each (blockStep settlePin Allocation.pin) token.blocks s) := by
    apply each_keeps counting_pin (fun a => a.alive) ?_ nodup h.exact blocks
    intro s i a exact hi live
    apply exact.blockStep counting_pin
    intro b hb
    rw [hi, Option.some.injEq] at hb
    exact hb ▸ settles_pin exact live
  have grouped := each_pinBlock nodup s 0
  have nothing : s.addPinned 0 = s := by simp [addPinned]
  rw [nothing] at grouped
  have others := each_others counting_pin Allocation.pin token.blocks s
  have owned := h.owned.pin stored alive (changed_each counting_pin _ nodup s)
  rw [newlyPinned, grouped] at limited ⊢
  refine ⟨{ exact with }, ?_, { limited with }, peaked_peaks _⟩
  simpa [peaks, others] using owned

theorem pin_keeps (t : Nat) : Keeps Valid (pin t) := by
  refine triple_get_bind fun s h => ?_
  cases ht : s.held? t with
  | none => exact triple_throw fun _ hs => hs ▸ h
  | some token =>
    refine triple_reject (fun _ _ hs => hs ▸ h) fun _ => ?_
    refine triple_bind (triple_consequence (fail_spec .pin s) (fun _ => id)
      (fun _ _ => id) ?_) fun _ => ?_
    · rintro _ _ ⟨f, rfl⟩
      exact h.withFaults f
    · rw [headroom_eq h.limited.pinned]
      refine triple_reject ?_ fun room => ?_
      · rintro _ _ ⟨f, rfl⟩
        exact h.withFaults f
      · rintro _ ⟨f, rfl⟩
        exact (h.withFaults f).pin (t := t) ht (UInt64.not_lt.mp room)

/-! ## Limits, peaks and handles -/

theorem constrainLimits_keeps (limits : ResourceLimits) : Keeps Valid (constrainLimits limits) := by
  refine triple_get_bind fun s h => ?_
  refine triple_reject (fun _ _ hs => hs ▸ h) fun _ => ?_
  refine triple_reject (fun _ _ hs => hs ▸ h) fun within => ?_
  simp only [not_or, UInt64.not_lt] at within
  refine triple_modify fun _ hs => ?_
  subst hs
  exact ⟨{ h.exact with }, h.owned, ⟨within.1, within.2.1, within.2.2.1, within.2.2.2⟩, h.peaked⟩

theorem Valid.resetPeaks (h : Valid s) : Valid (resetPeaks s) :=
  ⟨{ h.exact with }, h.owned, { h.limited with },
    ⟨fun _ => UInt64.le_refl _, UInt64.le_refl _, UInt64.le_refl _, UInt64.le_refl _⟩⟩

/-- A token may change its handles without converting or reserving again. -/
theorem Valid.handles (h : Valid s)
    (ht : s.tokens[t]? = some token) {f : ChargeToken → ChargeToken}
    (blocks : ∀ token, (f token).blocks = token.blocks) (pooled : (f token).pooled = token.pooled)
    (dies : (f token).alive → token.alive)
    (converted : (f token).handles.converted = token.handles.converted)
    (pinned : ∀ (p : Nat) (pin : PinToken), s.pins[p]? = some pin → pin.alive →
      pin.charge = t → (f token).alive) : Valid (s.updateToken t f) :=
  ⟨{ h.exact with }, h.owned.updateToken ht blocks pooled dies converted pinned,
    { h.limited with }, h.peaked⟩

theorem Valid.copyCharge (h : Valid s) (t : Nat) : Valid (copyCharge t s) := by
  unfold Ledger.copyCharge
  split
  · rename_i held
    obtain ⟨token, ht⟩ := Option.isSome_iff_exists.mp held
    obtain ⟨stored, alive, converted⟩ := charge_eq ht
    exact h.handles stored (fun _ => rfl) rfl id converted.symm fun _ _ _ _ _ => alive
  · exact h

theorem Valid.dropCharge (h : Valid s) (t : Nat) : Valid (dropCharge t s) := by
  unfold Ledger.dropCharge
  split
  · rename_i held
    obtain ⟨token, ht⟩ := Option.isSome_iff_exists.mp held
    obtain ⟨stored, alive, converted⟩ := charge_eq ht
    exact h.handles stored (fun _ => rfl) rfl id converted.symm fun _ _ _ _ _ => alive
  · exact h

theorem Valid.dropReservation (h : Valid s) (t : Nat) : Valid (dropReservation t s) := by
  unfold Ledger.dropReservation
  split
  · rename_i held
    obtain ⟨token, ht⟩ := Option.isSome_iff_exists.mp held
    obtain ⟨stored, alive, unconverted⟩ := reservation_eq ht
    exact h.handles stored (fun _ => rfl) rfl id unconverted.symm fun _ _ _ _ _ => alive
  · exact h

theorem Valid.copyPin (h : Valid s) (p : Nat) : Valid (copyPin p s) := by
  unfold Ledger.copyPin
  split
  · exact ⟨{ h.exact with }, h.owned.updatePin (fun _ => rfl) fun _ => rfl, { h.limited with },
      h.peaked⟩
  · exact h

theorem Valid.dropPin (h : Valid s) (p : Nat) : Valid (dropPin p s) := by
  unfold Ledger.dropPin
  split
  · exact ⟨{ h.exact with }, h.owned.updatePin (fun _ => rfl) fun _ => rfl, { h.limited with },
      h.peaked⟩
  · exact h

/-! ## Destructors -/

theorem no_pin_of_unreferenced
    (h : s.tokenUnreferenced t token) :
    ∀ (p : Nat) (pin : PinToken), s.pins[p]? = some pin → pin.alive → pin.charge ≠ t := by
  intro p pin hp alive
  simp only [tokenUnreferenced, Bool.and_eq_true, List.all_eq_true] at h
  have := h.2 pin (List.mem_of_getElem? hp)
  simpa [alive] using this

theorem Valid.destroyToken (h : Valid s) (t : Nat) : Valid (destroyToken t s) := by
  unfold Ledger.destroyToken
  split
  · exact h
  · rename_i token ht
    by_cases due : token.alive ∧ s.tokenUnreferenced t token
    · have unpinned := no_pin_of_unreferenced due.2
      rw [if_pos due]
      by_cases pooled : token.pooled
      · simp only [pooled, if_true]
        have nodup := h.owned.nodup t token ht due.1
        have ready : ∀ i ∈ token.blocks, ∃ a, s.allocations[i]? = some a ∧
            (a.alive ∧ a.category ≠ .transferStaging) := by
          intro i hi
          obtain ⟨a, ha, live⟩ := h.owned.blocks t token ht due.1 i hi
          have backing := (h.owned.pooled t token ht due.1 pooled i hi a ha).1
          exact ⟨a, ha, live, h.owned.notStaging i a ha backing⟩
        have counted : Exact (each freeBlock token.blocks s) ∧
            Limited (each freeBlock token.blocks s) := by
          apply each_keeps counting_free (I := fun s => Exact s ∧ Limited s) _ ?_ nodup
            ⟨h.exact, h.limited⟩ ready
          intro s i a ⟨exact, limited⟩ hi ⟨live, ram⟩
          refine ⟨exact.blockStep counting_free fun b hb => ?_, limited.free hi ram⟩
          rw [hi, Option.some.injEq] at hb
          exact hb ▸ settles_free exact hi live ram
        have others := each_others counting_free Allocation.free token.blocks s
        have owned := h.owned.free ht due.1 pooled unpinned (changed_each counting_free _ nodup s)
        refine ⟨{ counted.1 with }, ?_, { counted.2 with }, peaked_peaks _⟩
        simpa [updateToken, peaks, freeBlock, others] using owned
      · simp only [pooled]
        exact h.handles ht (fun _ => rfl) rfl (by simp) rfl
          fun p pin hp alive charge => absurd charge (unpinned p pin hp alive)
    · rw [if_neg due]
      exact h

theorem Exact.unpinBlock (h : Exact s) (hi : s.allocations[i]? = some a)
    (alive : a.alive) (pinned : a.pins ≠ 0) : Exact (unpinBlock i s) := by
  apply h.blockStep counting_unpin
  intro b hb
  rw [hi, Option.some.injEq] at hb
  exact hb ▸ settles_unpin h hi alive pinned

theorem Valid.destroyPin (h : Valid s) (p : Nat) : Valid (destroyPin p s) := by
  unfold Ledger.destroyPin
  split
  · exact h
  · rename_i pin hp
    split
    · rename_i due
      obtain ⟨token, ht, alive⟩ := h.owned.pinned p pin hp due.1
      have sameBlocks : blocksOf s.tokens pin.charge = token.blocks := by simp [blocksOf, ht]
      have nodup := h.owned.nodup pin.charge token ht alive
      have ready : ∀ i ∈ token.blocks, ∃ a, s.allocations[i]? = some a ∧
          (a.alive ∧ a.pins ≠ 0) := by
        intro i hi
        obtain ⟨a, ha, live⟩ := h.owned.blocks pin.charge token ht alive i hi
        have counted := le_total (pinsBlock s.tokens i) hp
        have one : pinsBlock s.tokens i pin = 1 := by
          simp [pinsBlock, due.1, sameBlocks, hi]
        rw [← h.owned.pinCount i a ha, one] at counted
        exact ⟨a, ha, live, by omega⟩
      have counted : Exact (each unpinBlock token.blocks s) ∧
          Limited (each unpinBlock token.blocks s) ∧
          Peaked (each unpinBlock token.blocks s).snapshot := by
        apply each_keeps counting_unpin
          (I := fun s => Exact s ∧ Limited s ∧ Peaked s.snapshot) _ ?_ nodup
          ⟨h.exact, h.limited, h.peaked⟩ ready
        rintro s i a ⟨exact, limited, peaked⟩ hi ⟨live, pinned⟩
        exact ⟨exact.unpinBlock hi live pinned,
          blockStep_lower counting_unpin Allocation.unpin hi (lower_unpin exact hi live pinned) limited peaked⟩
      have others := each_others counting_unpin Allocation.unpin token.blocks s
      have changed := changed_each counting_unpin Allocation.unpin nodup s
      rw [← sameBlocks] at changed
      have owned := h.owned.unpin hp due.1 changed
      rw [sameBlocks] at owned
      simp only [ht, Option.map_some, Option.getD_some]
      refine ⟨{ counted.1 with }, ?_, { counted.2.1 with }, counted.2.2⟩
      simpa [updatePin, unpinBlock, others] using owned
    · exact h

theorem Valid.destroyAllocation (h : Valid s) (i : Nat) : Valid (destroyAllocation i s) := by
  unfold Ledger.destroyAllocation
  split
  · exact h
  · rename_i a hi
    split
    · rename_i due
      have free : ∀ (t : Nat) (token : ChargeToken), s.tokens[t]? = some token → token.alive →
          i ∉ token.blocks := by
        intro t token ht alive
        have := due.2
        simp only [allocationUnreferenced, List.all_eq_true] at this
        simpa [alive] using this token (List.mem_of_getElem? ht)
      have unpinned := h.owned.unpinned hi free
      have exact : Exact (blockStep settleDestroy Allocation.destroy i s) := by
        apply h.exact.blockStep counting_destroy
        intro b hb
        rw [hi, Option.some.injEq] at hb
        exact hb ▸ settles_destroy h.exact hi due.1 unpinned
      have bounds := blockStep_lower counting_destroy Allocation.destroy hi
        (lower_destroy h.exact hi due.1 unpinned) h.limited h.peaked
      have others := blockStep_others counting_destroy Allocation.destroy i s
      refine ⟨exact, ?_, bounds.1, bounds.2⟩
      rw [LedgerState.Owned, blockStep_allocations counting_destroy, others.1, others.2.1]
      exact h.owned.destroy free
    · exact h

end Gufo.Ledger
