import Gufo.Ledger.Operations

/-!
# Conservation and limits

What the counters of a ledger mean in any state it can reach.
-/

namespace Gufo.Ledger
open Gufo.Sums Gufo.Program LedgerState

variable {s : LedgerState}

theorem run_keeps (op : Operation) : Keeps Valid op.run := by
  cases op with
  | reserve category bytes => exact triple_discard (reserve_keeps category bytes)
  | convert t => exact convert_keeps t
  | reserveBacking charges category => exact triple_discard (reserveBacking_keeps charges category)
  | pin t => exact triple_discard (pin_keeps t)
  | constrainLimits limits => exact constrainLimits_keeps limits
  | snapshotAndResetPeaks =>
    refine triple_discard (triple_get_bind fun s h => triple_bind (triple_modify ?_) fun _ =>
      triple_pure fun _ => id)
    rintro _ rfl
    exact h.resetPeaks
  | failAfter step count =>
    refine triple_reject (fun _ _ h => h) fun _ => triple_modify fun s h => ?_
    exact h.withFaults _
  | clearFaults => exact triple_modify fun s h => h.withFaults _
  | copyCharge t => exact triple_modify fun s h => h.copyCharge t
  | dropCharge t => exact triple_modify fun s h => h.dropCharge t
  | dropReservation t => exact triple_modify fun s h => h.dropReservation t
  | copyPin p => exact triple_modify fun s h => h.copyPin p
  | dropPin p => exact triple_modify fun s h => h.dropPin p
  | destroyToken t => exact triple_modify fun s h => h.destroyToken t
  | destroyPin p => exact triple_modify fun s h => h.destroyPin p
  | destroyAllocation i => exact triple_modify fun s h => h.destroyAllocation i

theorem valid_initial (limits : ResourceLimits) : Valid (initial limits) where
  exact := by constructor <;> simp [initial, Tracks]
  owned := by constructor <;> simp [initial]
  limited := by constructor <;> exact UInt64.zero_le
  peaked := by constructor <;> simp [initial]

theorem reachable_valid {limits : ResourceLimits} (h : Reachable limits s) : Valid s := by
  induction h with
  | start => exact valid_initial limits
  | next op _ ih => exact (run_keeps op).final ih

/-- The bytes of the live allocations that satisfy `p`. -/
def LedgerState.liveBytes (s : LedgerState) (p : Allocation → Bool) : Nat :=
  total (·.bytes.toNat) (s.allocations.filter fun a => a.alive && p a)

/-- What the counters of a ledger mean. -/
structure Conserved (s : LedgerState) : Prop where
  bytes : ∀ c, (s.snapshot.bytes c).toNat = s.liveBytes (·.category == c)
  reservedBytes : ∀ c,
    (s.snapshot.reservedBytes c).toNat = s.liveBytes fun a => a.category == c && a.reserved
  totalBytes : s.snapshot.totalBytes.toNat =
    total (fun c => (s.snapshot.bytes c).toNat) ResourceCategory.all
  ramBytes : s.snapshot.ramBytes.toNat = total (fun c => (s.snapshot.bytes c).toNat)
    (ResourceCategory.all.filter (· != .transferStaging))
  pinnedBytes : s.snapshot.persistencePinnedBytes.toNat = s.liveBytes (·.pins != 0)
  withinLimits : Limited s
  belowPeaks : Peaked s.snapshot
  noUnderflow : s.underflow = false

/-- The categories partition the live allocations. -/
theorem total_categories (l : List Allocation) (categories : List ResourceCategory)
    (nodup : categories.Nodup) :
    total (fun c => total (weight bytesKey Allocation.bytes c) l) categories =
      total (fun a => if a.alive ∧ a.category ∈ categories then a.bytes.toNat else 0) l := by
  induction categories with
  | nil => simp [total_eq_zero]
  | cons c rest ih =>
    rw [total_cons, ih (List.nodup_cons.mp nodup).2, ← total_add]
    apply total_congr
    intro a _
    by_cases alive : a.alive <;> by_cases here : a.category = c <;>
      simp_all [weight, bytesKey]

/-- **Conservation.** In every state of a ledger, each counter is the size of what it
counts, usage is within the limits, no peak is below its counter, and no subtraction has
gone below zero. -/
theorem reachable_conserved {limits : ResourceLimits} (h : Reachable limits s) : Conserved s := by
  obtain ⟨exact, owned, limited, peaked⟩ := reachable_valid h
  constructor
  case withinLimits => exact limited
  case belowPeaks => exact peaked
  case noUnderflow => exact exact.noUnderflow
  case bytes =>
    intro c
    rw [exact.bytes c, LedgerState.liveBytes, total_filter]
    apply total_congr
    intro a _
    by_cases alive : a.alive <;> simp [weight, bytesKey, alive]
  case reservedBytes =>
    intro c
    rw [exact.reserved c, LedgerState.liveBytes, total_filter]
    apply total_congr
    intro a _
    by_cases alive : a.alive <;> by_cases reserved : a.reserved <;>
      simp [weight, reservedKey, alive, reserved]
  case totalBytes =>
    have counted := exact.total ()
    rw [counted, total_congr fun c _ => exact.bytes c, total_categories _ _ (by decide)]
    apply total_congr
    intro a _
    by_cases alive : a.alive <;> cases hc : a.category <;>
      simp [weight, totalKey, ResourceCategory.all, alive]
  case ramBytes =>
    have counted := exact.ram ()
    rw [counted, total_congr fun c _ => exact.bytes c, total_categories _ _ (by decide)]
    apply total_congr
    intro a _
    by_cases alive : a.alive <;> cases hc : a.category <;>
      simp [weight, ramKey, ResourceCategory.all, alive, hc]
  case pinnedBytes =>
    have counted := exact.pinned ()
    rw [counted, LedgerState.liveBytes, total_filter]
    apply total_congr
    intro a _
    by_cases alive : a.alive <;> simp [weight, pinnedKey, alive]

/-- A sequence of operations, each returning or throwing. -/
def runAll (operations : List Operation) (s : LedgerState) : LedgerState :=
  operations.foldl (fun s op => final op.run s) s

theorem reachable_runAll {limits : ResourceLimits} (operations : List Operation)
    (h : Reachable limits s) : Reachable limits (runAll operations s) := by
  induction operations generalizing s with
  | nil => exact h
  | cons op rest ih => exact ih (.next op h)

/-- A pool block is assigned, pinned while it is still borrowed, and cancelled; the pin
keeps it assigned until its own destructor ran. -/
theorem conserved_borrowed_block :
    let s := runAll [.reserve .backingFree 64, .convert 0, .reserveBacking [0] .backingAssigned,
      .pin 1, .dropReservation 1, .destroyToken 1] (initial ⟨100, 100, 10, 64⟩)
    Conserved s ∧ s.snapshot.bytes .backingAssigned = 64 ∧
      s.snapshot.persistencePinnedBytes = 64 :=
  ⟨reachable_conserved (reachable_runAll _ .start), by decide, by decide⟩

end Gufo.Ledger
