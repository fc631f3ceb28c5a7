import Gufo.Ledger.State

/-!
# The counters count what is there

`Exact` reads each counter of the snapshot as the size of a set of allocations.
Every loop body of the ledger settles its block against that reading: it debits
the bucket the block leaves and credits the one it enters, and the debit is
covered because the block was counted there.
-/

namespace Gufo.Ledger
open Gufo.Sums LedgerState

def bytesKey (a : Allocation) : Option ResourceCategory :=
  if a.alive then some a.category else none

def reservedKey (a : Allocation) : Option ResourceCategory :=
  if a.alive ∧ a.reserved then some a.category else none

def totalKey (a : Allocation) : Option Unit :=
  if a.alive then some () else none

def ramKey (a : Allocation) : Option Unit :=
  if a.alive ∧ a.category ≠ .transferStaging then some () else none

def pinnedKey (a : Allocation) : Option Unit :=
  if a.alive ∧ a.pins ≠ 0 then some () else none

/-- Each counter is the size of the allocations it is about, and none has wrapped. -/
structure Exact (s : LedgerState) : Prop where
  bytes : Tracks bytesKey Allocation.bytes s.snapshot.bytes s.allocations
  reserved : Tracks reservedKey Allocation.bytes s.snapshot.reservedBytes s.allocations
  total : Tracks totalKey Allocation.bytes (fun _ => s.snapshot.totalBytes) s.allocations
  ram : Tracks ramKey Allocation.bytes (fun _ => s.snapshot.ramBytes) s.allocations
  pinned :
    Tracks pinnedKey Allocation.bytes (fun _ => s.snapshot.persistencePinnedBytes) s.allocations
  noUnderflow : s.underflow = false

variable {s : LedgerState} {i : Nat} {a : Allocation}

theorem totalKey_of_bytesKey (h : (bytesKey a).isSome) : (totalKey a).isSome := by
  unfold bytesKey at h
  unfold totalKey
  split at h <;> simp_all

theorem totalKey_of_reservedKey (h : (reservedKey a).isSome) : (totalKey a).isSome := by
  unfold reservedKey at h
  unfold totalKey
  split at h <;> simp_all

theorem totalKey_of_ramKey (h : (ramKey a).isSome) : (totalKey a).isSome := by
  unfold ramKey at h
  unfold totalKey
  split at h <;> simp_all

theorem totalKey_of_pinnedKey (h : (pinnedKey a).isSome) : (totalKey a).isSome := by
  unfold pinnedKey at h
  unfold totalKey
  split at h <;> simp_all

theorem Exact.volume_total (h : Exact s) :
    volume totalKey Allocation.bytes s.allocations = s.snapshot.totalBytes.toNat := by
  have sum : volume totalKey Allocation.bytes s.allocations =
      Sums.total (weight totalKey Allocation.bytes ()) s.allocations := by
    apply total_congr
    intro a _
    unfold weight
    cases totalKey a <;> simp
  rw [sum, ← h.total ()]

/-- Live allocations together fit in a machine word: the ledger has their sum in one. -/
theorem Exact.room (h : Exact s) : volume totalKey Allocation.bytes s.allocations < 2 ^ 64 := by
  rw [h.volume_total]
  exact s.snapshot.totalBytes.toNat_lt

/-! ## Covered debits -/

theorem Exact.bytes_covers (h : Exact s) (hi : s.allocations[i]? = some a) (alive : a.alive) :
    a.bytes.toNat ≤ (s.snapshot.bytes a.category).toNat :=
  h.bytes.covers hi (by simp [bytesKey, alive])

theorem Exact.reserved_covers (h : Exact s) (hi : s.allocations[i]? = some a) (alive : a.alive)
    (reserved : a.reserved) : a.bytes.toNat ≤ (s.snapshot.reservedBytes a.category).toNat :=
  h.reserved.covers hi (by simp [reservedKey, alive, reserved])

theorem Exact.total_covers (h : Exact s) (hi : s.allocations[i]? = some a) (alive : a.alive) :
    a.bytes.toNat ≤ s.snapshot.totalBytes.toNat :=
  h.total.covers (k := ()) hi (by simp [totalKey, alive])

theorem Exact.ram_covers (h : Exact s) (hi : s.allocations[i]? = some a) (alive : a.alive)
    (ram : a.category ≠ .transferStaging) : a.bytes.toNat ≤ s.snapshot.ramBytes.toNat :=
  h.ram.covers (k := ()) hi (by simp [ramKey, alive, ram])

theorem Exact.pinned_covers (h : Exact s) (hi : s.allocations[i]? = some a) (alive : a.alive)
    (pinned : a.pins ≠ 0) : a.bytes.toNat ≤ s.snapshot.persistencePinnedBytes.toNat :=
  h.pinned.covers (k := ()) hi (by simp [pinnedKey, alive, pinned])

/-! ## One block -/

/-- What `settle` has to do to the counters when `change` is done to `a`. -/
structure Settles (settle : Allocation → LedgerState → LedgerState)
    (change : Allocation → Allocation) (a : Allocation) (s : LedgerState) : Prop where
  size : (change a).bytes = a.bytes
  dies : (change a).alive → a.alive
  bytes : (settle a s).snapshot.bytes =
    credit (bytesKey (change a)) a.bytes (debit (bytesKey a) a.bytes s.snapshot.bytes)
  reserved : (settle a s).snapshot.reservedBytes =
    credit (reservedKey (change a)) a.bytes
      (debit (reservedKey a) a.bytes s.snapshot.reservedBytes)
  total : (fun _ : Unit => (settle a s).snapshot.totalBytes) =
    credit (totalKey (change a)) a.bytes
      (debit (totalKey a) a.bytes fun _ => s.snapshot.totalBytes)
  ram : (fun _ : Unit => (settle a s).snapshot.ramBytes) =
    credit (ramKey (change a)) a.bytes
      (debit (ramKey a) a.bytes fun _ => s.snapshot.ramBytes)
  pinned : (fun _ : Unit => (settle a s).snapshot.persistencePinnedBytes) =
    credit (pinnedKey (change a)) a.bytes
      (debit (pinnedKey a) a.bytes fun _ => s.snapshot.persistencePinnedBytes)
  noUnderflow : (settle a s).underflow = false

/-- `settle` touches only the counters. -/
structure Counting (settle : Allocation → LedgerState → LedgerState) : Prop where
  allocations : ∀ a s, (settle a s).allocations = s.allocations
  tokens : ∀ a s, (settle a s).tokens = s.tokens
  pins : ∀ a s, (settle a s).pins = s.pins
  limits : ∀ a s, (settle a s).limits = s.limits

theorem Exact.room_modify {κ : Type} {key : Allocation → Option κ} (h : Exact s)
    (hi : s.allocations[i]? = some a) {change : Allocation → Allocation}
    (size : (change a).bytes = a.bytes) (dies : (change a).alive → a.alive)
    (le : ∀ b, (key b).isSome → (totalKey b).isSome) :
    volume key Allocation.bytes (s.allocations.modify i change) < 2 ^ 64 := by
  have smaller : volume key Allocation.bytes (s.allocations.modify i change) ≤
      volume totalKey Allocation.bytes (s.allocations.modify i change) :=
    volume_le fun b _ => le b
  have shrinks := volume_modify_le totalKey Allocation.bytes hi
    (g := change) size (by simpa [totalKey] using dies)
  have fits := h.room
  omega

theorem Exact.blockStep {settle : Allocation → LedgerState → LedgerState}
    {change : Allocation → Allocation} (counting : Counting settle) (h : Exact s)
    (settles : ∀ a, s.allocations[i]? = some a → Settles settle change a s) :
    Exact (blockStep settle change i s) := by
  unfold LedgerState.blockStep
  cases hi : s.allocations[i]? with
  | none => exact h
  | some a =>
    have moves := settles a hi
    have room {κ : Type} {key : Allocation → Option κ}
        (le : ∀ b, (key b).isSome → (totalKey b).isSome) :=
      h.room_modify hi moves.size moves.dies le
    simp only [updateAllocation]
    constructor <;> simp only [counting.allocations]
    case bytes =>
      rw [moves.bytes]
      exact h.bytes.move hi moves.size (room fun _ => totalKey_of_bytesKey)
    case reserved =>
      rw [moves.reserved]
      exact h.reserved.move hi moves.size (room fun _ => totalKey_of_reservedKey)
    case total =>
      rw [moves.total]
      exact h.total.move hi moves.size (room fun _ => id)
    case ram =>
      rw [moves.ram]
      exact h.ram.move hi moves.size (room fun _ => totalKey_of_ramKey)
    case pinned =>
      rw [moves.pinned]
      exact h.pinned.move hi moves.size (room fun _ => totalKey_of_pinnedKey)
    case noUnderflow => exact moves.noUnderflow

/-! ## Each block -/

section
variable {settle : Allocation → LedgerState → LedgerState} {change : Allocation → Allocation}

theorem blockStep_allocations (counting : Counting settle) :
    (blockStep settle change i s).allocations = s.allocations.modify i change := by
  unfold LedgerState.blockStep
  cases hi : s.allocations[i]? with
  | none =>
    have beyond := List.getElem?_eq_none_iff.mp hi
    simp [List.modify_eq_self beyond]
  | some a => simp [updateAllocation, counting.allocations]

theorem blockStep_others (counting : Counting settle) (change : Allocation → Allocation)
    (i : Nat) (s : LedgerState) :
    (blockStep settle change i s).tokens = s.tokens ∧
      (blockStep settle change i s).pins = s.pins ∧
      (blockStep settle change i s).limits = s.limits := by
  unfold LedgerState.blockStep
  cases s.allocations[i]? with
  | none => simp
  | some a => simp [updateAllocation, counting.tokens, counting.pins, counting.limits]

theorem each_others (counting : Counting settle) (change : Allocation → Allocation)
    (blocks : List Nat) (s : LedgerState) :
    (each (blockStep settle change) blocks s).tokens = s.tokens ∧
      (each (blockStep settle change) blocks s).pins = s.pins ∧
      (each (blockStep settle change) blocks s).limits = s.limits := by
  induction blocks generalizing s with
  | nil => simp [each]
  | cons i blocks ih =>
    have first := blockStep_others counting change i s
    have rest := ih (blockStep settle change i s)
    rw [first.1, first.2.1, first.2.2] at rest
    exact rest

/-- Blocks are distinct, so the loop changes each of them once. -/
theorem each_allocations (counting : Counting settle) {blocks : List Nat} (nodup : blocks.Nodup)
    (s : LedgerState) (j : Nat) :
    (each (blockStep settle change) blocks s).allocations[j]? =
      if j ∈ blocks then (s.allocations[j]?).map change else s.allocations[j]? := by
  induction blocks generalizing s with
  | nil => simp [each]
  | cons i blocks ih =>
    have once := (List.nodup_cons.mp nodup).1
    have rest := ih (List.nodup_cons.mp nodup).2 (blockStep settle change i s)
    simp only [each, List.foldl_cons] at rest ⊢
    rw [rest, blockStep_allocations counting, List.getElem?_modify]
    by_cases eq : i = j
    · subst eq
      simp [once]
    · have ne : ¬j = i := fun e => eq e.symm
      simp [eq, ne]

/-- The loop keeps what every block keeps, each block being as the loop found it. -/
theorem each_keeps (counting : Counting settle) {I : LedgerState → Prop}
    (ready : Allocation → Prop)
    (step : ∀ {s : LedgerState} {i : Nat} {a : Allocation}, I s → s.allocations[i]? = some a →
      ready a → I (blockStep settle change i s))
    {blocks : List Nat} (nodup : blocks.Nodup) (h : I s)
    (start : ∀ i ∈ blocks, ∃ a, s.allocations[i]? = some a ∧ ready a) :
    I (each (blockStep settle change) blocks s) := by
  induction blocks generalizing s with
  | nil => exact h
  | cons i blocks ih =>
    have once := (List.nodup_cons.mp nodup).1
    obtain ⟨a, hi, first⟩ := start i (by simp)
    apply ih (List.nodup_cons.mp nodup).2 (step h hi first)
    intro j hj
    obtain ⟨b, hb, later⟩ := start j (by simp [hj])
    have ne : i ≠ j := fun e => once (e ▸ hj)
    refine ⟨b, ?_, later⟩
    rw [blockStep_allocations counting, List.getElem?_modify]
    simpa [ne] using hb

end

theorem counting_convert : Counting settleConvert := by
  constructor <;> intro a s <;> unfold settleConvert <;> dsimp only <;> split <;> rfl

theorem counting_assign (category : ResourceCategory) : Counting (settleAssign category) := by
  constructor <;> intro a s <;> rfl

theorem counting_free : Counting settleFree := by
  constructor <;> intro a s <;> unfold settleFree <;> dsimp only <;> split <;> rfl

theorem counting_unpin : Counting settleUnpin := by
  constructor <;> intro a s <;> unfold settleUnpin <;> split <;> rfl

theorem counting_destroy : Counting settleDestroy := by
  constructor <;> intro a s <;> unfold settleDestroy <;> dsimp only <;> split <;> split <;> rfl

theorem settles_convert (h : Exact s) (hi : s.allocations[i]? = some a) (alive : a.alive)
    (reserved : a.reserved) : Settles settleConvert Allocation.convert a s := by
  have covered := not_lt_of_toNat (h.bytes_covers hi alive)
  have reservedCovered := not_lt_of_toNat (h.reserved_covers hi alive reserved)
  by_cases assigned : a.category = .backingAssigned
  · constructor <;>
      simp_all [settleConvert, Allocation.convert, subReserved, subBytes, addBytes, bytesKey,
        reservedKey, totalKey, ramKey, pinnedKey, h.noUnderflow]
  · constructor <;>
      simp_all [settleConvert, Allocation.convert, subReserved, bytesKey,
        reservedKey, totalKey, ramKey, pinnedKey, h.noUnderflow]

theorem settles_assign (h : Exact s) (hi : s.allocations[i]? = some a) (alive : a.alive)
    (free : a.category = .backingFree) (unreserved : a.reserved = false)
    {category : ResourceCategory} (ram : category ≠ .transferStaging) :
    Settles (settleAssign category) (Allocation.assign category) a s := by
  have covered := not_lt_of_toNat (h.bytes_covers hi alive)
  constructor <;>
    simp_all [settleAssign, Allocation.assign, subBytes, addBytes, addReserved, bytesKey,
      reservedKey, totalKey, ramKey, pinnedKey, h.noUnderflow]

theorem settles_free (h : Exact s) (hi : s.allocations[i]? = some a) (alive : a.alive)
    (ram : a.category ≠ .transferStaging) : Settles settleFree Allocation.free a s := by
  have covered := not_lt_of_toNat (h.bytes_covers hi alive)
  have reservedCovered := fun r => not_lt_of_toNat (h.reserved_covers hi alive r)
  by_cases reserved : a.reserved
  · constructor <;>
      simp_all [settleFree, Allocation.free, subBytes, subReserved, addBytes, bytesKey,
        reservedKey, totalKey, ramKey, pinnedKey, h.noUnderflow]
  · constructor <;>
      simp_all [settleFree, Allocation.free, subBytes, addBytes, bytesKey,
        reservedKey, totalKey, ramKey, pinnedKey, h.noUnderflow]

theorem settles_unpin (h : Exact s) (hi : s.allocations[i]? = some a) (alive : a.alive)
    (pinned : a.pins ≠ 0) : Settles settleUnpin Allocation.unpin a s := by
  have covered := not_lt_of_toNat (h.pinned_covers hi alive pinned)
  by_cases last : a.pins - 1 = 0
  · constructor <;>
      simp_all [settleUnpin, Allocation.unpin, subPinned, bytesKey, reservedKey, totalKey,
        ramKey, pinnedKey, h.noUnderflow]
  · constructor <;>
      simp_all [settleUnpin, Allocation.unpin, bytesKey, reservedKey, totalKey,
        ramKey, pinnedKey, h.noUnderflow]

theorem settles_destroy (h : Exact s) (hi : s.allocations[i]? = some a) (alive : a.alive)
    (unpinned : a.pins = 0) : Settles settleDestroy Allocation.destroy a s := by
  have covered := not_lt_of_toNat (h.bytes_covers hi alive)
  have reservedCovered := fun r => not_lt_of_toNat (h.reserved_covers hi alive r)
  have totalCovered := not_lt_of_toNat (h.total_covers hi alive)
  have ramCovered := fun r => not_lt_of_toNat (h.ram_covers hi alive r)
  by_cases reserved : a.reserved <;> by_cases ram : a.category = .transferStaging <;>
    constructor <;>
      simp_all [settleDestroy, Allocation.destroy, subBytes, subReserved, subTotal, subRam,
        bytesKey, reservedKey, totalKey, ramKey, pinnedKey, h.noUnderflow]

end Gufo.Ledger
