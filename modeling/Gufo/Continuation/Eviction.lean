import Gufo.Continuation.Accounting

/-!
# The eviction loop of a reservation

Each round removes one valid record, so the loop ends; and what it removes is worth no
more than the reservation may displace, but for a copy of the very prefix it is for and
the source that the prefix extends.
-/

namespace Gufo.Continuation
open Gufo.Sums
variable {σ : Type}

namespace Cache
variable {c : Cache σ} {r : Reservation}

/-- A record that holds the very prefix the reservation is for. -/
def IsExactCopy (c : Cache σ) (r : Reservation) (t : Nat) : Prop :=
  r.replacementPrefix.length = r.tokenCount ∧ (c.entry t).tokens = r.replacementPrefix ∧
    (c.entry t).inputIdentity = r.inputIdentity

/-- The reservation's source, whose tokens the new prefix extends. -/
def IsReplacedSource (c : Cache σ) (r : Reservation) (t : Nat) : Prop :=
  t = r.sourceIndex ∧ r.preserveSource = false ∧ (c.entry t).tokens <+: r.replacementPrefix ∧
    (c.entry t).tokens.length < r.replacementPrefix.length ∧
    (c.entry t).inputIdentity = r.inputIdentity

/-- What the loop may remove next. -/
structure Removable (c : Cache σ) (r : Reservation) (t : Nat) : Prop where
  record : t ∈ c.records
  valid : (c.entry t).valid = true
  covered : (c.entry t).snapshotBytes ≤ c.retainedSnapshotBytes
  allowed : c.priorityFor r t ≤ r.maxPriority ∨ c.IsExactCopy r t ∨ c.IsReplacedSource r t

/-- The cache after removing only removable records, one after the other. -/
inductive Evicts (r : Reservation) : Cache σ → Cache σ → Prop where
  | done (c : Cache σ) : Evicts r c c
  | remove {c c' : Cache σ} {t : Nat} : c.Removable r t → Evicts r (c.removeRecord t) c' →
      Evicts r c c'

theorem Sound.covered (h : Sound c) {t : Nat} (record : t ∈ c.records)
    (valid : (c.entry t).valid = true) :
    (c.entry t).snapshotBytes ≤ c.retainedSnapshotBytes :=
  UInt64.le_iff_toNat_le.mpr (h.covers (mem_records.mp record).2 valid)

theorem oldestSnapshot_spec {allowSource : Bool} {t : Nat}
    (found : c.oldestSnapshot r allowSource = some t) :
    t ∈ c.records ∧ (c.entry t).valid = true ∧ c.priorityFor r t ≤ r.maxPriority := by
  obtain ⟨record, eligible, rank⟩ := leastValuable_spec found
  simp only [Bool.decide_and, Bool.and_eq_true, decide_eq_true_eq] at eligible
  exact ⟨record, eligible.1, rank⟩

theorem Sound.evictionTarget (h : Sound c) {purpose : SnapshotPurpose} {t : Nat}
    (found : c.evictionTarget r purpose = some t) : c.Removable r t := by
  have oldest : ∀ allowSource, c.oldestSnapshot r allowSource = some t → c.Removable r t := by
    intro allowSource found
    obtain ⟨record, valid, rank⟩ := oldestSnapshot_spec found
    exact ⟨record, valid, h.covered record valid, .inl rank⟩
  unfold Cache.evictionTarget at found
  simp only at found
  split at found
  · rename_i t' first
    obtain rfl : t' = t := by simpa using found
    split at first
    · rename_i replace
      obtain rfl : r.sourceIndex = t' := by simpa using first
      have source := replace.1
      simp only [canReplaceSource, Bool.and_eq_true, decide_eq_true_eq, Bool.not_eq_true'] at source
      obtain ⟨⟨⟨⟨⟨⟨keep, -⟩, inside⟩, -⟩, valid⟩, snapshot⟩, -, shorter, identity, longer⟩ := source
      have record : r.sourceIndex ∈ c.records := by
        rw [mem_records]
        by_contra slot
        have none := (h.slots r.sourceIndex (by omega)).none
        simp [none] at snapshot
      exact ⟨record, valid, h.covered record valid,
        .inr (.inr ⟨rfl, keep, longer, shorter, identity⟩)⟩
    · exact oldest _ first
  · split at found
    · cases found
    · exact oldest _ found

/-- How many entries are valid: each round of the loop has one fewer. -/
def validCount (c : Cache σ) : Nat := total (fun e => if e.valid then 1 else 0) c.entries

theorem validCount_le (c : Cache σ) : c.validCount ≤ c.entries.length := by
  have le : c.validCount ≤ total (fun _ => 1) c.entries :=
    total_le fun e _ => by split <;> omega
  simpa [total] using le

theorem validCount_removeRecord {t : Nat} (inside : t < c.entries.length)
    (valid : (c.entry t).valid = true) : (c.removeRecord t).validCount + 1 = c.validCount := by
  have moved := total_update (fun e : Entry σ => if e.valid then 1 else 0) Entry.emptied inside
  simp only [valid, if_true, Entry.emptied, Bool.false_eq_true, if_false] at moved
  exact moved

/-- The reclaimed copy, as long as it is still there. -/
def ExactCopies (c : Cache σ) (r : Reservation) (exact : Option Nat) : Prop :=
  ∀ i ∈ exact, i ∈ c.records ∧ ((c.entry i).valid = true → c.IsExactCopy r i)

theorem exactCopies_exactCopy (c : Cache σ) (r : Reservation) :
    c.ExactCopies r (c.exactCopy r) := by
  intro i found
  unfold exactCopy at found
  split at found
  · rename_i length
    have same := List.find?_some found
    simp only [Bool.decide_and, Bool.and_eq_true, decide_eq_true_eq] at same
    exact ⟨List.mem_of_find?_eq_some found, fun _ => ⟨length, same.2.2.2⟩⟩
  · cases found

theorem ExactCopies.removeRecord {exact : Option Nat} (h : c.ExactCopies r exact) {t : Nat}
    (inside : t < c.entries.length) : (c.removeRecord t).ExactCopies r exact := by
  intro i found
  obtain ⟨record, copy⟩ := h i found
  refine ⟨by simpa using record, fun valid => ?_⟩
  have same := (of_valid_removeRecord inside valid).2
  rw [same] at valid
  simpa [IsExactCopy, same] using copy valid

/-- The loop ends by itself, having removed only removable records. -/
theorem evict_ends {exact : Option Nat} {fuel : Nat} {purpose : SnapshotPurpose}
    {events : List SnapshotEvent} (h : Sound c) (copies : c.ExactCopies r exact)
    (enough : c.validCount < fuel) :
    ∃ s, c.evict r exact fuel purpose events = some s ∧ Evicts r c s.1 := by
  induction fuel generalizing c purpose events with
  | zero => omega
  | succ fuel ih =>
    have round : ∀ {t purpose events}, c.Removable r t →
        ∃ s, (c.removeRecord t).evict r exact fuel purpose events = some s ∧ Evicts r c s.1 := by
      intro t purpose events removable
      have inside := (mem_records.mp removable.record).2
      have fewer := validCount_removeRecord inside removable.valid
      obtain ⟨s, ends, rest⟩ : ∃ s, (c.removeRecord t).evict r exact fuel purpose events = some s ∧
          Evicts r (c.removeRecord t) s.1 :=
        ih (h.removeRecord removable.record removable.valid) (copies.removeRecord inside) (by omega)
      exact ⟨s, ends, .remove removable rest⟩
    unfold evict
    split
    · exact ⟨_, rfl, .done c⟩
    split
    · rename_i i found
      rw [Option.filter_eq_some_iff] at found
      obtain ⟨found, valid⟩ := found
      obtain ⟨record, copy⟩ := copies i found
      exact round ⟨record, valid, h.covered record valid, .inr (.inl (copy valid))⟩
    · split
      · exact ⟨_, rfl, .done c⟩
      · rename_i t target
        exact round (h.evictionTarget target)

theorem Sound.evicts {c' : Cache σ} (h : Sound c) (evicts : Evicts r c c') :
    Sound c' ∧ Keeps c c' ∧ c'.reservedSnapshotBytes = c.reservedSnapshotBytes := by
  induction evicts with
  | done c => exact ⟨h, .refl c, rfl⟩
  | remove removable _ ih =>
    obtain ⟨sound, keeps, reserved⟩ := ih (h.removeRecord removable.record removable.valid)
    exact ⟨sound, (Keeps.removeRecord _ _).trans keeps, reserved⟩

/-- A reservation is admitted only where it fits by now. -/
theorem Sound.admission (h : Sound c) (purpose : SnapshotPurpose) (events : List SnapshotEvent) :
    Sound (admission r c purpose events).cache ∧ Keeps c (admission r c purpose events).cache ∧
      (admission r c purpose events).cache.reservedSnapshotBytes.toNat =
        c.reservedSnapshotBytes.toNat +
          if (admission r c purpose events).admitted then r.snapshotBytes.toNat else 0 := by
  unfold Cache.admission
  split
  · rename_i fit
    have used := h.used
    have capacity := c.snapshotCapacityBytes.toNat_lt
    simp only [fits, decide_eq_true_eq, UInt64.le_iff_toNat_le, used] at fit
    obtain ⟨-, fitsUsed, fit⟩ := fit
    rw [toNat_sub (by rw [used]; exact fitsUsed), used] at fit
    have reserved : (c.reservedSnapshotBytes + r.snapshotBytes).toNat =
        c.reservedSnapshotBytes.toNat + r.snapshotBytes.toNat := toNat_add (by omega)
    refine ⟨{ h with within := ?_ }, ⟨rfl, rfl, fun _ => rfl⟩, ?_⟩
    · change c.retainedSnapshotBytes.toNat + (c.reservedSnapshotBytes + r.snapshotBytes).toNat ≤
        c.snapshotCapacityBytes.toNat
      omega
    · simpa using reserved
  · exact ⟨h, .refl c, by simp⟩

/-- A reservation's outcome: the records it removed, then its bytes if they were admitted. -/
theorem Sound.reserve (h : Sound c) (r : Reservation) :
    ∃ done c', c.reserveSnapshot r = some done ∧ Evicts r c c' ∧
      done.cache = { c' with reservedSnapshotBytes := done.cache.reservedSnapshotBytes } ∧
      Sound done.cache ∧ Keeps c done.cache ∧
      done.cache.reservedSnapshotBytes.toNat =
        c.reservedSnapshotBytes.toNat + if done.admitted then r.snapshotBytes.toNat else 0 := by
  have sameCounters : ∀ (c : Cache σ) (purpose events),
      (Cache.admission r c purpose events).cache = { c with
        reservedSnapshotBytes :=
          (Cache.admission r c purpose events).cache.reservedSnapshotBytes } := by
    intro c purpose events
    unfold Cache.admission
    split <;> rfl
  unfold reserveSnapshot
  split
  · exact ⟨_, c, rfl, .done c, rfl, h, .refl c, by simp⟩
  split
  · have room := validCount_le c
    obtain ⟨s, ends, evicts⟩ : ∃ s, c.evict r _ (c.entries.length + 1) r.purpose [] = some s ∧
        Evicts r c s.1 :=
      evict_ends h (exactCopies_exactCopy c r) (by omega)
    obtain ⟨sound, keeps, reserved⟩ := h.evicts evicts
    obtain ⟨sound', keeps', reserved'⟩ := sound.admission (r := r) s.2.1 s.2.2
    rw [reserved] at reserved'
    exact ⟨_, s.1, by rw [ends]; rfl, evicts, sameCounters _ _ _, sound', keeps.trans keeps',
      reserved'⟩
  · obtain ⟨sound, keeps, reserved⟩ := h.admission (r := r) r.purpose []
    exact ⟨_, c, rfl, .done c, sameCounters _ _ _, sound, keeps, reserved⟩

end Cache

end Gufo.Continuation
