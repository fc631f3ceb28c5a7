import Gufo.Continuation.Leases
import Gufo.Lib.Sums

/-!
# What the cache keeps

`Sound` is the cache's own invariant: the counters are the records' bytes, slots carry
no snapshot, no two valid records agree in tokens and identity. Every operation keeps
it, with a release of no more than is reserved.
-/

namespace Gufo.Continuation
open Gufo.Sums
variable {σ : Type}

namespace Entry

/-- What an entry adds to the retained bytes. -/
def bytes (e : Entry σ) : Nat := if e.valid then e.snapshotBytes.toNat else 0

/-- A slot carries no snapshot, and is no entry of its own beside records. -/
structure Slot (snapshotMode : Bool) (e : Entry σ) : Prop where
  none : e.snapshot = none
  bytes : e.snapshotBytes = 0
  invalid : snapshotMode = true → e.valid = false

/-- A record is never executed in, and valid exactly while it holds a snapshot. -/
structure Record (e : Entry σ) : Prop where
  unavailable : e.available = false
  valid : e.valid = e.snapshot.isSome

end Entry

namespace Cache

/-! ## Single entries -/

@[simp] theorem update_length (c : Cache σ) (i : Nat) (f : Entry σ → Entry σ) :
    (c.update i f).entries.length = c.entries.length := by simp [update]

@[simp] theorem update_records (c : Cache σ) (i : Nat) (f : Entry σ → Entry σ) :
    (c.update i f).records = c.records := by simp [records, update]

@[simp] theorem update_stateCount (c : Cache σ) (i : Nat) (f : Entry σ → Entry σ) :
    (c.update i f).stateCount = c.stateCount := rfl

@[simp] theorem update_retained (c : Cache σ) (i : Nat) (f : Entry σ → Entry σ) :
    (c.update i f).retainedSnapshotBytes = c.retainedSnapshotBytes := rfl

@[simp] theorem removeRecord_stateCount (c : Cache σ) (t : Nat) :
    (c.removeRecord t).stateCount = c.stateCount := rfl

@[simp] theorem removeRecord_length (c : Cache σ) (t : Nat) :
    (c.removeRecord t).entries.length = c.entries.length := update_length c t _

@[simp] theorem removeRecord_records (c : Cache σ) (t : Nat) :
    (c.removeRecord t).records = c.records := update_records c t _

theorem entry_update (c : Cache σ) (i j : Nat) (f : Entry σ → Entry σ) :
    (c.update i f).entry j = if i = j ∧ j < c.entries.length then f (c.entry j) else c.entry j := by
  unfold entry update
  by_cases inside : j < c.entries.length
  · by_cases same : i = j <;> simp [List.getD_eq_getElem?_getD, inside, same]
  · simp [List.getD_eq_getElem?_getD, inside]

variable {f : Entry σ → Entry σ} {c : Cache σ}

theorem entry_update_of_ne {i j : Nat} (ne : i ≠ j) :
    (c.update i f).entry j = c.entry j := by simp [entry_update, ne]

variable {i : Nat}

theorem entry_update_self
    (inside : i < c.entries.length) : (c.update i f).entry i = f (c.entry i) := by
  simp [entry_update, inside]

/-- A field that an update of one entry does not touch. -/
theorem field_update {τ : Type} (g : Entry σ → τ)
    (same : ∀ e, g (f e) = g e) (j : Nat) : g ((c.update i f).entry j) = g (c.entry j) := by
  rw [entry_update]
  split
  · exact same _
  · rfl

theorem getElem?_entry (inside : i < c.entries.length) :
    c.entries[i]? = some (c.entry i) := by
  simp [entry, List.getD_eq_getElem?_getD, inside]

theorem total_update (w : Entry σ → Nat) (f : Entry σ → Entry σ)
    (inside : i < c.entries.length) :
    total w (c.update i f).entries + w (c.entry i) = total w c.entries + w (f (c.entry i)) :=
  total_modify w f (getElem?_entry inside)

theorem total_update_same (w : Entry σ → Nat)
    (same : ∀ e, w (f e) = w e) : total w (c.update i f).entries = total w c.entries := by
  by_cases inside : i < c.entries.length
  · have moved := total_update w f inside
    rw [same] at moved
    omega
  · rw [update, List.modify_eq_self (by omega)]

/-! ## The invariant -/

structure Sound (c : Cache σ) : Prop where
  size : c.stateCount ≤ c.entries.length
  counted : c.retainedSnapshotBytes.toNat = total Entry.bytes c.entries
  within : c.retainedSnapshotBytes.toNat + c.reservedSnapshotBytes.toNat ≤
    c.snapshotCapacityBytes.toNat
  slots : ∀ i < c.stateCount, (c.entry i).Slot c.snapshotMode
  records : ∀ i ∈ c.records, (c.entry i).Record
  unique : ∀ i ∈ c.records, ∀ j ∈ c.records, (c.entry i).valid = true → (c.entry j).valid = true →
    (c.entry i).tokens = (c.entry j).tokens →
    (c.entry i).inputIdentity = (c.entry j).inputIdentity → i = j

variable {c : Cache σ}

/-- Retained and reserved bytes never wrap. -/
theorem Sound.used (h : Sound c) : (c.retainedSnapshotBytes + c.reservedSnapshotBytes).toNat =
    c.retainedSnapshotBytes.toNat + c.reservedSnapshotBytes.toNat := by
  have bound := c.snapshotCapacityBytes.toNat_lt
  have within := h.within
  exact toNat_add (by omega)

/-- A valid record's bytes are part of the retained ones. -/
theorem Sound.covers (h : Sound c) (inside : i < c.entries.length)
    (valid : (c.entry i).valid = true) :
    (c.entry i).snapshotBytes.toNat ≤ c.retainedSnapshotBytes.toNat := by
  have le := le_total Entry.bytes (getElem?_entry inside)
  rw [h.counted]
  simpa [Entry.bytes, valid] using le

/-- A slot's snapshot fields are empty whatever else happens to it. -/
theorem Sound.update_slot (h : Sound c) (slot : i < c.stateCount)
    (keeps : ∀ e : Entry σ, e.Slot c.snapshotMode → (f e).Slot c.snapshotMode) :
    Sound (c.update i f) := by
  have inside : i < c.entries.length := by have := h.size; omega
  have other : ∀ j ∈ c.records, (c.update i f).entry j = c.entry j := by
    intro j hj
    rw [mem_records] at hj
    exact entry_update_of_ne (by omega)
  constructor
  · simpa using h.size
  · have moved := total_update Entry.bytes f inside
    have before := h.slots i slot
    have after := keeps _ before
    have counted := h.counted
    simp only [Entry.bytes, before.bytes, after.bytes, UInt64.toNat_zero, ite_self] at moved
    rw [update_retained]
    omega
  · exact h.within
  · intro j hj
    by_cases same : i = j
    · subst same
      rw [entry_update_self inside]
      exact keeps _ (h.slots i hj)
    · rw [entry_update_of_ne same]
      exact h.slots j hj
  · intro j hj
    rw [update_records] at hj
    rw [other j hj]
    exact h.records j hj
  · intro j hj k hk
    rw [update_records] at hj hk
    rw [other j hj, other k hk]
    exact h.unique j hj k hk

/-- Bookkeeping fields of any entry may change. -/
theorem Sound.update_used (h : Sound c)
    (snapshot : ∀ e, (f e).snapshot = e.snapshot)
    (bytes : ∀ e, (f e).snapshotBytes = e.snapshotBytes) (valid : ∀ e, (f e).valid = e.valid)
    (tokens : ∀ e, (f e).tokens = e.tokens)
    (identity : ∀ e, (f e).inputIdentity = e.inputIdentity)
    (available : ∀ e, (f e).available = e.available) : Sound (c.update i f) := by
  constructor
  · simpa using h.size
  · have same : ∀ e, (f e).bytes = e.bytes := by simp [Entry.bytes, bytes, valid]
    rw [total_update_same Entry.bytes same]
    exact h.counted
  · exact h.within
  · intro j hj
    have slot := h.slots j hj
    exact ⟨(field_update (·.snapshot) snapshot j).trans slot.none,
      (field_update (·.snapshotBytes) bytes j).trans slot.bytes,
      fun on => (field_update (·.valid) valid j).trans (slot.invalid on)⟩
  · intro j hj
    have record := h.records j (by simpa using hj)
    refine ⟨(field_update (·.available) available j).trans record.unavailable, ?_⟩
    rw [field_update (·.valid) valid j, field_update (·.snapshot) snapshot j]
    exact record.valid
  · intro j hj k hk
    simp only [field_update (·.valid) valid, field_update (·.tokens) tokens,
      field_update (·.inputIdentity) identity]
    exact h.unique j (by simpa using hj) k (by simpa using hk)

theorem Sound.tick (h : Sound c) : Sound c.tick := { h with }

/-! ## Releasing and removing -/

theorem Sound.release (h : Sound c) {n : UInt64} (covered : n ≤ c.reservedSnapshotBytes) :
    Sound (c.release n) ∧
      (c.release n).reservedSnapshotBytes.toNat + n.toNat = c.reservedSnapshotBytes.toNat := by
  have le := UInt64.le_iff_toNat_le.mp covered
  have within := h.within
  rw [Cache.release, if_pos covered]
  refine ⟨{ h with within := ?_ }, ?_⟩
  · simp only [toNat_sub le]
    omega
  · simp only [toNat_sub le]
    omega

variable {t : Nat}

theorem entry_removeRecord_self (inside : t < c.entries.length) :
    (c.removeRecord t).entry t = (c.entry t).emptied := entry_update_self inside

theorem entry_removeRecord_of_ne {t j : Nat} (ne : t ≠ j) :
    (c.removeRecord t).entry j = c.entry j := entry_update_of_ne ne

/-- The valid records that are left were there, and none of them is the removed one. -/
theorem of_valid_removeRecord {t j : Nat} (inside : t < c.entries.length)
    (valid : ((c.removeRecord t).entry j).valid = true) :
    t ≠ j ∧ (c.removeRecord t).entry j = c.entry j := by
  have ne : t ≠ j := by
    rintro rfl
    rw [entry_removeRecord_self inside] at valid
    cases valid
  exact ⟨ne, entry_removeRecord_of_ne ne⟩

theorem Sound.removeRecord (h : Sound c) (record : t ∈ c.records)
    (valid : (c.entry t).valid = true) : Sound (c.removeRecord t) := by
  have bounds := mem_records.mp record
  have covered := h.covers bounds.2 valid
  have retained : (c.removeRecord t).retainedSnapshotBytes.toNat =
      c.retainedSnapshotBytes.toNat - (c.entry t).snapshotBytes.toNat := toNat_sub covered
  have within := h.within
  constructor
  · simpa using h.size
  · have moved := total_update Entry.bytes Entry.emptied bounds.2
    have gone : (c.entry t).emptied.bytes = 0 := by simp [Entry.bytes, Entry.emptied]
    have held : (c.entry t).bytes = (c.entry t).snapshotBytes.toNat := by simp [Entry.bytes, valid]
    have counted := h.counted
    change _ = total Entry.bytes (c.update t Entry.emptied).entries
    omega
  · change _ + c.reservedSnapshotBytes.toNat ≤ c.snapshotCapacityBytes.toNat
    omega
  · intro j hj
    have hj : j < c.stateCount := hj
    rw [entry_removeRecord_of_ne (by omega)]
    exact h.slots j hj
  · intro j hj
    rw [removeRecord_records] at hj
    by_cases eq : t = j
    · subst eq
      rw [entry_removeRecord_self bounds.2]
      exact ⟨(h.records t hj).unavailable, rfl⟩
    · rw [entry_removeRecord_of_ne eq]
      exact h.records j hj
  · intro j hj k hk validJ validK
    rw [removeRecord_records] at hj hk
    have sameJ := (of_valid_removeRecord bounds.2 validJ).2
    have sameK := (of_valid_removeRecord bounds.2 validK).2
    rw [sameJ] at validJ ⊢
    rw [sameK] at validK ⊢
    exact h.unique j hj k hk validJ validK

/-! ## What an operation leaves alone -/

/-- The same slots, as free as they were. -/
structure Keeps (c c' : Cache σ) : Prop where
  stateCount : c'.stateCount = c.stateCount
  mode : c'.snapshotMode = c.snapshotMode
  available : ∀ i, (c'.entry i).available = (c.entry i).available

theorem Keeps.refl (c : Cache σ) : Keeps c c := ⟨rfl, rfl, fun _ => rfl⟩

theorem Keeps.trans {c d e : Cache σ} (h : Keeps c d) (k : Keeps d e) : Keeps c e :=
  ⟨k.stateCount.trans h.stateCount, k.mode.trans h.mode,
    fun i => (k.available i).trans (h.available i)⟩

theorem Keeps.update
    (same : ∀ e, (f e).available = e.available) : Keeps c (c.update i f) :=
  ⟨rfl, rfl, field_update (·.available) same⟩

theorem Keeps.tick {c c' : Cache σ} (h : Keeps c c') : Keeps c c'.tick := { h with }

theorem Keeps.removeRecord (c : Cache σ) (t : Nat) : Keeps c (c.removeRecord t) :=
  ⟨rfl, rfl, field_update (·.available) fun _ => rfl⟩

theorem Keeps.release (c : Cache σ) (n : UInt64) : Keeps c (c.release n) := by
  unfold Cache.release
  split <;> exact ⟨rfl, rfl, fun _ => rfl⟩

@[simp] theorem entry_release (c : Cache σ) (n : UInt64) (i : Nat) :
    (c.release n).entry i = c.entry i := by
  unfold Cache.release
  split <;> rfl

/-! ## Commit -/

/-- No valid record holds these tokens under this identity. -/
def Unheld (c : Cache σ) (p : Publication σ) : Prop :=
  ∀ i ∈ c.records, (c.entry i).valid = true → (c.entry i).tokens = p.tokens →
    (c.entry i).inputIdentity ≠ p.inputIdentity

variable {p : Publication σ}

/-- A free record takes a publication that no other record holds. -/
theorem Sound.install (h : Sound c) {bytes : UInt64}
    {learned : Bool} {c' : Cache σ} (done : c.install p bytes t learned = some c')
    (record : t ∈ c.records) (free : (c.entry t).valid = false) (unheld : c.Unheld p)
    (present : p.snapshot.isSome = true) (tokens : p.tokens ≠ []) :
    Sound c' ∧ Keeps c c' ∧ c'.reservedSnapshotBytes = c.reservedSnapshotBytes := by
  have bounds := mem_records.mp record
  have used := h.used
  simp only [Cache.install] at done
  split at done
  · cases done
  rename_i fits
  simp only [not_or, UInt64.not_lt, UInt64.le_iff_toNat_le, used] at fits
  obtain ⟨fitsUsed, fits⟩ := fits
  rw [toNat_sub (by rw [used]; exact fitsUsed), used] at fits
  obtain rfl := Option.some.inj done
  have capacity := c.snapshotCapacityBytes.toNat_lt
  have retained : (c.retainedSnapshotBytes + bytes).toNat =
      c.retainedSnapshotBytes.toNat + bytes.toNat := toNat_add (by omega)
  have filled : (p.fill bytes learned (c.clock + 1) (c.entry t)).valid = true := by
    simp [Publication.fill, tokens]
  have at_t : (c.update t (p.fill bytes learned (c.clock + 1))).entry t =
      p.fill bytes learned (c.clock + 1) (c.entry t) := entry_update_self bounds.2
  refine ⟨?_, ⟨rfl, rfl, field_update (·.available) fun _ => rfl⟩, rfl⟩
  constructor
  · simpa using h.size
  · have moved := total_update Entry.bytes (p.fill bytes learned (c.clock + 1)) bounds.2
    have before : (c.entry t).bytes = 0 := by simp [Entry.bytes, free]
    have after : (p.fill bytes learned (c.clock + 1) (c.entry t)).bytes = bytes.toNat := by
      rw [Entry.bytes, if_pos filled]
      rfl
    have counted := h.counted
    change (c.retainedSnapshotBytes + bytes).toNat =
      total Entry.bytes (c.update t (p.fill bytes learned (c.clock + 1))).entries
    omega
  · change (c.retainedSnapshotBytes + bytes).toNat + c.reservedSnapshotBytes.toNat ≤
      c.snapshotCapacityBytes.toNat
    omega
  · intro j hj
    have hj : j < c.stateCount := hj
    change ((c.update t _).entry j).Slot c.snapshotMode
    rw [entry_update_of_ne (by omega)]
    exact h.slots j hj
  · intro j hj
    have hj : j ∈ c.records := (update_records c t _) ▸ hj
    change ((c.update t _).entry j).Record
    by_cases eq : t = j
    · subst eq
      rw [at_t]
      exact ⟨(h.records t hj).unavailable, filled.trans present.symm⟩
    · rw [entry_update_of_ne eq]
      exact h.records j hj
  · intro j hj k hk
    have hj : j ∈ c.records := (update_records c t _) ▸ hj
    have hk : k ∈ c.records := (update_records c t _) ▸ hk
    change ((c.update t _).entry j).valid = true → ((c.update t _).entry k).valid = true →
      ((c.update t _).entry j).tokens = ((c.update t _).entry k).tokens →
      ((c.update t _).entry j).inputIdentity = ((c.update t _).entry k).inputIdentity → j = k
    by_cases eqJ : t = j <;> by_cases eqK : t = k
    · exact fun _ _ _ _ => eqJ.symm.trans eqK
    · subst eqJ
      rw [at_t, entry_update_of_ne eqK]
      intro _ valid tokens identity
      exact absurd identity.symm (unheld k hk valid tokens.symm)
    · subst eqK
      rw [at_t, entry_update_of_ne eqJ]
      intro valid _ tokens identity
      exact absurd identity (unheld j hj valid tokens)
    · rw [entry_update_of_ne eqJ, entry_update_of_ne eqK]
      exact h.unique j hj k hk

/-- A valid source is a record when slots are never valid. -/
theorem Sound.source_record (h : Sound c) (mode : c.snapshotMode = true)
    (inside : i < c.entries.length) (valid : (c.entry i).valid = true) : i ∈ c.records := by
  rw [mem_records]
  by_contra slot
  have invalid := (h.slots i (by omega)).invalid mode
  simp [valid] at invalid

theorem exactRecord_none (none : c.exactRecord p = none) : c.Unheld p := by
  intro i record valid tokens identity
  unfold exactRecord at none
  rw [List.find?_eq_none] at none
  exact none i record (by simp [valid, tokens, identity])

/-- The target is a record; unless it is replaced itself, no record holds the publication. -/
theorem Sound.commitTarget (h : Sound c) (mode : c.snapshotMode = true)
    {exact : Bool} (found : c.commitTarget p = (some t, exact)) :
    t ∈ c.records ∧ ((exact = true ∧ (c.entry t).valid = true ∧ (c.entry t).tokens = p.tokens ∧
      (c.entry t).inputIdentity = p.inputIdentity) ∨ c.Unheld p) := by
  unfold Cache.commitTarget at found
  cases hexact : c.exactRecord p with
  | some i =>
    rw [hexact] at found
    obtain ⟨rfl, rfl⟩ : i = t ∧ true = exact := by simpa using found
    have same := List.find?_some hexact
    simp only [Bool.decide_and, Bool.decide_eq_true, Bool.and_eq_true, decide_eq_true_eq] at same
    exact ⟨List.mem_of_find?_eq_some hexact, .inl ⟨rfl, same⟩⟩
  | none =>
    rw [hexact] at found
    refine ⟨?_, .inr (exactRecord_none hexact)⟩
    cases hfree : c.freeRecord with
    | some i =>
      rw [hfree] at found
      obtain ⟨rfl, -⟩ : i = t ∧ false = exact := by simpa using found
      exact List.mem_of_find?_eq_some hfree
    | none =>
      rw [hfree] at found
      simp only at found
      split at found
      · rename_i i hidle
        obtain ⟨rfl, -⟩ : i = t ∧ false = exact := by simpa using found
        split at hidle
        · exact (leastRecent_spec hidle).1
        · cases hidle
      · split at found
        · rename_i i htail
          obtain ⟨rfl, -⟩ : i = t ∧ false = exact := by simpa using found
          unfold editedTail at htail
          split at htail
          · exact (leastRecent_spec htail).1
          · cases htail
        · split at found
          · rename_i advance
            obtain ⟨rfl, -⟩ : p.sourceIndex = t ∧ false = exact := by simpa using found
            have source := advance.2
            simp only [advancesSource, Bool.and_eq_true, decide_eq_true_eq] at source
            exact h.source_record mode source.1.1.2 source.1.2
          · obtain ⟨selected, -⟩ := Prod.mk.inj found
            exact (leastValuable_spec selected).1

/-- Before a publication goes in, its record is emptied. -/
theorem Sound.vacate (h : Sound c) (record : t ∈ c.records) (exact : Bool) :
    Sound (c.vacate t exact).1 ∧ Keeps c (c.vacate t exact).1 ∧
      (c.vacate t exact).1.reservedSnapshotBytes = c.reservedSnapshotBytes ∧
      (c.vacate t exact).1.records = c.records ∧
      ((c.vacate t exact).1.entry t).valid = false ∧
      ∀ j, ((c.vacate t exact).1.entry j).valid = true →
        t ≠ j ∧ (c.vacate t exact).1.entry j = c.entry j := by
  have bounds := mem_records.mp record
  have held := (h.records t record).valid
  unfold Cache.vacate
  split
  · rename_i some
    rw [some] at held
    refine ⟨h.removeRecord record held, .removeRecord c t, rfl, removeRecord_records c t, ?_,
      fun j => of_valid_removeRecord bounds.2⟩
    simp only [entry_removeRecord_self bounds.2]
    rfl
  · rename_i none
    have invalid : (c.entry t).valid = false := by
      rw [held]
      simpa using none
    refine ⟨h, .refl c, rfl, rfl, invalid, ?_⟩
    intro j valid
    refine ⟨?_, rfl⟩
    rintro rfl
    rw [invalid] at valid
    cases valid

theorem Sound.retain (h : Sound c) (mode : c.snapshotMode = true)
    (present : p.snapshot.isSome = true) (tokens : p.tokens ≠ []) (bytes : UInt64) :
    Sound (c.retain p bytes).cache ∧ Keeps c (c.retain p bytes).cache ∧
      (c.retain p bytes).cache.reservedSnapshotBytes = c.reservedSnapshotBytes := by
  unfold Cache.retain
  split
  · exact ⟨h, .refl c, rfl⟩
  rename_i t exact found
  obtain ⟨record, held⟩ := h.commitTarget mode found
  obtain ⟨sound, keeps, reserved, records, free, left⟩ := h.vacate record exact
  have unheld : (c.vacate t exact).1.Unheld p := by
    intro j hj valid same identity
    rw [records] at hj
    obtain ⟨ne, eq⟩ := left j valid
    rw [eq] at valid same identity
    cases held with
    | inl own =>
      exact ne (h.unique t record j hj own.2.1 valid (own.2.2.1.trans same.symm)
        (own.2.2.2.trans identity.symm))
    | inr unheld => exact unheld j hj valid same identity
  simp only
  split
  · exact ⟨sound, keeps, reserved⟩
  · rename_i c' done
    obtain ⟨sound', keeps', reserved'⟩ :=
      sound.install done (records.symm ▸ record) free unheld present tokens
    exact ⟨sound', keeps.trans keeps', reserved'.trans reserved⟩

/-- Everything of a slot but its snapshot fields may change. -/
theorem Slot.of_state {mode : Bool} {e f : Entry σ} (h : e.Slot mode)
    (snapshot : f.snapshot = e.snapshot) (bytes : f.snapshotBytes = e.snapshotBytes)
    (valid : f.valid = true → mode = true → e.valid = true) : f.Slot mode :=
  ⟨snapshot.trans h.none, bytes.trans h.bytes, fun on => by
    by_contra bad
    have := valid (by simpa using bad) on
    simp [h.invalid on] at this⟩

theorem Keeps.setLive (c : Cache σ) (p : Publication σ) : Keeps c (c.setLive p) := by
  unfold Cache.setLive
  split
  · exact .update fun _ => rfl
  · exact .refl c

theorem Sound.setLive (h : Sound c) (p : Publication σ) :
    Sound (c.setLive p) ∧ (c.setLive p).reservedSnapshotBytes = c.reservedSnapshotBytes := by
  unfold Cache.setLive
  split
  · exact ⟨h.update_used (fun _ => rfl) (fun _ => rfl) (fun _ => rfl) (fun _ => rfl) (fun _ => rfl)
      (fun _ => rfl), rfl⟩
  · exact ⟨h, rfl⟩

/-- The reservation of a publication is taken back, whatever becomes of its snapshot. -/
theorem Sound.publish (h : Sound c) (payloadBytes : σ → UInt64)
    (covered : p.reservation ≤ c.reservedSnapshotBytes) (slot : p.index < c.stateCount) :
    let done := if c.snapshotMode then c.commitSnapshot payloadBytes p else c.commitState p
    Sound done.cache ∧ Keeps c done.cache ∧
      done.cache.reservedSnapshotBytes.toNat + p.reservation.toNat =
        c.reservedSnapshotBytes.toNat := by
  obtain ⟨released, less⟩ := h.release covered
  have kept := Keeps.release c p.reservation
  split
  · rename_i mode
    obtain ⟨live, same⟩ := released.setLive p
    have keptLive := kept.trans (.setLive _ p)
    rw [← same] at less
    unfold commitSnapshot
    simp only
    split
    · rename_i fit
      simp only [Publication.matchesReservation, decide_eq_true_eq] at fit
      obtain ⟨sound, keeps, reserved⟩ :=
        live.retain (keptLive.mode.trans mode) fit.1.1 fit.1.2.1 (p.bytes payloadBytes)
      rw [← reserved] at less
      exact ⟨sound, keptLive.trans keeps, less⟩
    · split <;> exact ⟨live, keptLive, less⟩
  · rename_i mode
    refine ⟨?_, kept.trans (.update fun _ => rfl), less⟩
    refine released.update_slot (kept.stateCount ▸ slot) fun e slot => ?_
    rw [kept.mode] at slot ⊢
    exact Slot.of_state slot rfl rfl fun _ on => absurd on mode

/-- One slot is given back; the others are as they were. -/
structure Frees (c c' : Cache σ) (index : Nat) : Prop where
  stateCount : c'.stateCount = c.stateCount
  mode : c'.snapshotMode = c.snapshotMode
  free : (c'.entry index).available = true
  others : ∀ i, i ≠ index → (c'.entry i).available = (c.entry i).available

variable {index : Nat}

theorem Keeps.frees {c d e : Cache σ} (h : Keeps c d) (k : Frees d e index) :
    Frees c e index :=
  ⟨k.stateCount.trans h.stateCount, k.mode.trans h.mode, k.free,
    fun i ne => (k.others i ne).trans (h.available i)⟩

theorem Frees.update (inside : index < c.entries.length)
    (frees : ∀ e, (f e).available = true) : Frees c (c.update index f) index :=
  ⟨rfl, rfl, by rw [entry_update_self inside]; exact frees _,
    fun i ne => by rw [entry_update_of_ne (Ne.symm ne)]⟩

theorem Frees.tick {c c' : Cache σ} (h : Frees c c' index) :
    Frees c c'.tick index := { h with }

theorem Sound.returnState (h : Sound c) (slot : index < c.stateCount) :
    Sound (c.returnState index) ∧ Frees c (c.returnState index) index := by
  have inside := Nat.lt_of_lt_of_le slot h.size
  refine ⟨.tick (h.update_slot slot ?_), .tick (.update inside fun _ => rfl)⟩
  exact fun e ok => Slot.of_state ok rfl rfl fun v _ => v

/-- A commit that keeps its lease, and one that ends it. -/
theorem Sound.commit (h : Sound c) (payloadBytes : σ → UInt64)
    (covered : p.reservation ≤ c.reservedSnapshotBytes) (slot : p.index < c.stateCount) :
    Sound (c.commit payloadBytes p).cache ∧
      (if p.releaseState then Frees c (c.commit payloadBytes p).cache p.index
        else Keeps c (c.commit payloadBytes p).cache) ∧
      (c.commit payloadBytes p).cache.reservedSnapshotBytes.toNat + p.reservation.toNat =
        c.reservedSnapshotBytes.toNat := by
  obtain ⟨sound, keeps, reserved⟩ := h.publish payloadBytes covered slot
  unfold Cache.commit
  simp only
  split
  · obtain ⟨returned, frees⟩ := sound.returnState (keeps.stateCount ▸ slot)
    exact ⟨returned, keeps.frees frees, reserved⟩
  · exact ⟨sound, keeps, reserved⟩

theorem Sound.invalidate (h : Sound c) {reservation : UInt64}
    (covered : reservation ≤ c.reservedSnapshotBytes) (slot : index < c.stateCount) :
    Sound (c.invalidate index reservation) ∧ Frees c (c.invalidate index reservation) index ∧
      (c.invalidate index reservation).reservedSnapshotBytes.toNat + reservation.toNat =
        c.reservedSnapshotBytes.toNat := by
  obtain ⟨released, less⟩ := h.release covered
  have kept := Keeps.release c reservation
  have slot' : index < (c.release reservation).stateCount := kept.stateCount ▸ slot
  have inside := Nat.lt_of_lt_of_le slot' released.size
  refine ⟨.tick (released.update_slot slot' ?_),
    kept.frees (.tick (.update inside fun _ => rfl)), less⟩
  intro e ok
  refine Slot.of_state ok rfl rfl fun valid on => ?_
  simpa [on] using valid

theorem Sound.abandon (h : Sound c) (slot : index < c.stateCount) :
    Sound (c.abandon index) ∧ Frees c (c.abandon index) index := by
  have inside := Nat.lt_of_lt_of_le slot h.size
  refine ⟨.tick (h.update_slot slot ?_), .tick (.update inside fun _ => rfl)⟩
  exact fun e ok => Slot.of_state ok rfl rfl fun v _ => v

/-! ## Acquire -/

variable {m : Model σ} {q : Request}

theorem slotScan_available {source selected : Option Nat}
    {oldest : UInt64} {l : List Nat}
    (before : ∀ j, selected = some j → (c.entry j).available = true ∧ j < c.entries.length)
    (inside : ∀ j ∈ l, j < c.entries.length)
    (found : c.slotScan m q source selected oldest l = some i) :
    (c.entry i).available = true ∧ i < c.entries.length := by
  induction l generalizing selected oldest with
  | nil => exact before i found
  | cons j l ih =>
    have rest : ∀ k ∈ l, k < c.entries.length := fun k hk => inside k (by simp [hk])
    rw [slotScan] at found
    split at found
    · rename_i prefers
      obtain rfl : j = i := by simpa using found
      exact ⟨prefers.1, inside j (by simp)⟩
    · split at found
      · rename_i older
        refine ih (fun k hk => ?_) rest found
        obtain rfl : j = k := by simpa using hk
        exact ⟨older.1, inside j (by simp)⟩
      · exact ih before rest found

theorem findSource_reusable
    (found : (c.findSource m q).1 = some i) : c.reusable m q i = true ∧ i < c.entries.length := by
  have keep : ∀ j, (c.findSource m q).1 = some j →
      c.reusable m q j = true ∧ j < c.entries.length := by
    unfold findSource
    split
    · refine List.foldlRecOn (List.range c.entries.length) _
        (motive := fun (best : Option Nat × Nat) => ∀ j, best.1 = some j →
          c.reusable m q j = true ∧ j < c.entries.length)
        (fun j hj => by simp at hj) ?_
      intro best good a ha j hj
      split at hj
      · rename_i take
        obtain rfl : a = j := by simpa using hj
        exact ⟨take.1, List.mem_range.mp ha⟩
      · exact good j hj
    · intro j hj
      cases hj
  exact keep i found

theorem findLive_available {n i : Nat}
    (found : (c.findLive m q n).1 = some i) :
    (c.entry i).available = true ∧ i < c.entries.length := by
  have keep : ∀ j, (c.findLive m q n).1 = some j →
      (c.entry j).available = true ∧ j < c.entries.length := by
    unfold findLive
    split
    · refine List.foldlRecOn (List.range c.entries.length) _
        (motive := fun (best : Option Nat × Nat) => ∀ j, best.1 = some j →
          (c.entry j).available = true ∧ j < c.entries.length)
        (fun j hj => by simp at hj) ?_
      intro best good a ha j hj
      simp only at hj
      split at hj
      · rename_i take
        obtain rfl : a = j := by simpa using hj
        exact ⟨take.1, List.mem_range.mp ha⟩
      · exact good j hj
    · intro j hj
      cases hj
  exact keep i found

/-- `Acquire` takes a free slot, never a record. -/
theorem Sound.acquire_free (h : Sound c) {p : Captured σ}
    {c' : Cache σ} (taken : c.acquire m q = some (p, c')) :
    p.index < c.stateCount ∧ (c.entry p.index).available = true := by
  have free : (c.entry p.index).available = true ∧ p.index < c.entries.length := by
    unfold acquire at taken
    simp only [Option.map_eq_some_iff] at taken
    obtain ⟨index, selected, eq⟩ := taken
    obtain rfl : index = p.index := by rw [← (Prod.mk.inj eq).1]
    split at selected
    · exact slotScan_available (by simp) (by simp) selected
    · rename_i hit
      split at selected
      · exact findLive_available selected
      · rename_i noLive
        obtain ⟨reusable, inside⟩ := findSource_reusable selected
        refine ⟨?_, inside⟩
        have mode : c.snapshotMode = false := by
          by_contra on
          exact hit (.inl ⟨by simpa using on, by simpa using noLive⟩)
        simp only [Cache.reusable, mode, Bool.false_or, Bool.and_eq_true] at reusable
        exact reusable.1.1.1.1.1
  refine ⟨?_, free.1⟩
  by_contra record
  have unavailable := (h.records _ (mem_records.mpr ⟨by omega, free.2⟩)).unavailable
  simp [unavailable] at free

/-- One slot is taken; the others are as they were. -/
structure Takes (c c' : Cache σ) (index : Nat) : Prop where
  stateCount : c'.stateCount = c.stateCount
  taken : (c'.entry index).available = false
  others : ∀ i, i ≠ index → (c'.entry i).available = (c.entry i).available

theorem Takes.trans {c d e : Cache σ} (h : Takes c d index) (k : Keeps d e) :
    Takes c e index :=
  ⟨k.stateCount.trans h.stateCount, (k.available index).trans h.taken,
    fun i ne => (k.available i).trans (h.others i ne)⟩

theorem Sound.capture (h : Sound c) (q : Request) (slot : index < c.stateCount)
    (source : Option Nat) (liveHit : Bool) :
    Sound (c.capture q index source liveHit) ∧
      Takes c (c.capture q index source liveHit) index ∧
      (c.capture q index source liveHit).reservedSnapshotBytes = c.reservedSnapshotBytes := by
  have inside := Nat.lt_of_lt_of_le slot h.size
  unfold Cache.capture
  generalize hd : (c.update index fun e =>
    { e with
      available := false
      dirty := true
      stateLastUsed := c.clock + 1
      liveTokens := []
      liveIdentity := [] }).tick = d
  have sound : Sound d := by
    rw [← hd]
    refine .tick (h.update_slot slot ?_)
    exact fun e ok => Slot.of_state ok rfl rfl fun v _ => v
  have takes : Takes c d index := by
    rw [← hd]
    refine ⟨rfl, ?_, fun i ne => ?_⟩
    · change ((c.update index _).entry index).available = false
      rw [entry_update_self inside]
    · change ((c.update index _).entry i).available = _
      rw [entry_update_of_ne (Ne.symm ne)]
  have reserved : d.reservedSnapshotBytes = c.reservedSnapshotBytes := by rw [← hd]; rfl
  simp only
  split
  · split
    · rename_i s
      have used : Sound (d.update s fun e => { e with snapshotLastUsed := d.clock + 1 }).tick :=
        .tick (sound.update_used (fun _ => rfl) (fun _ => rfl) (fun _ => rfl) (fun _ => rfl)
          (fun _ => rfl) (fun _ => rfl))
      have keeps : Keeps d (d.update s fun e => { e with snapshotLastUsed := d.clock + 1 }).tick :=
        .tick (.update fun _ => rfl)
      split
      · exact ⟨sound, takes, reserved⟩
      · split
        · exact ⟨used.update_used (fun _ => rfl) (fun _ => rfl) (fun _ => rfl) (fun _ => rfl)
            (fun _ => rfl) (fun _ => rfl), takes.trans (keeps.trans (.update fun _ => rfl)),
            reserved⟩
        · exact ⟨used, takes.trans keeps, reserved⟩
    · exact ⟨sound, takes, reserved⟩
  · refine ⟨sound.update_slot (takes.stateCount ▸ slot) fun e ok => ?_,
      takes.trans (.update fun _ => rfl), reserved⟩
    exact Slot.of_state ok rfl rfl fun valid _ => by cases valid

/-! ## Clear and construction -/

theorem Sound.clear (h : Sound c) {c' : Cache σ} (done : c.clear = .ok c') :
    Sound c' ∧ Keeps c c' ∧ c'.reservedSnapshotBytes = c.reservedSnapshotBytes := by
  unfold Cache.clear at done
  split at done
  · cases done
  obtain rfl := Except.ok.inj done
  have entry : ∀ i < c.entries.length,
      Cache.entry { c with
        entries := c.entries.map Entry.cleared
        retainedSnapshotBytes := 0 } i = (c.entry i).cleared := by
    intro i inside
    simp [Cache.entry, List.getD_eq_getElem?_getD, inside]
  have records : Cache.records { c with
      entries := c.entries.map Entry.cleared
      retainedSnapshotBytes := 0 } = c.records := by simp [Cache.records]
  have within := h.within
  have size := h.size
  refine ⟨?_, ⟨rfl, rfl, fun i => ?_⟩, rfl⟩
  · constructor
    · simpa using size
    · refine (total_eq_zero fun e he => ?_).symm
      obtain ⟨e', -, rfl⟩ := List.mem_map.mp he
      simp [Entry.bytes, Entry.cleared]
    · change 0 + c.reservedSnapshotBytes.toNat ≤ c.snapshotCapacityBytes.toNat
      omega
    · intro i hi
      have hi : i < c.stateCount := hi
      rw [entry i (by omega)]
      exact ⟨rfl, rfl, fun _ => rfl⟩
    · intro i hi
      rw [records] at hi
      have record := h.records i hi
      rw [entry i (mem_records.mp hi).2]
      exact ⟨record.unavailable, rfl⟩
    · intro i hi j _ valid
      rw [records] at hi
      rw [entry i (mem_records.mp hi).2] at valid
      cases valid
  · by_cases inside : i < c.entries.length
    · rw [entry i inside]
      rfl
    · simp [Cache.entry, List.getD_eq_getElem?_getD, inside]

/-- A new cache retains and reserves nothing, and every slot is free. -/
theorem sound_create {capacity snapshotCapacity : Nat} {snapshotMode : Bool}
    {capacityBytes : Option UInt64}
    (done : create capacity snapshotMode snapshotCapacity capacityBytes = .ok c) :
    Sound c ∧ c.reservedSnapshotBytes = 0 ∧ ∀ i < c.stateCount, (c.entry i).available = true := by
  unfold create at done
  simp only at done
  generalize (if snapshotCapacity = 0 then capacity else snapshotCapacity) = recordCount at done
  split at done
  · cases done
  split at done
  · cases done
  obtain rfl := Except.ok.inj done
  generalize hs : (List.replicate capacity ({} : Entry σ)) = slots
  generalize hr : (if snapshotMode = true then
    List.replicate recordCount ({ available := false } : Entry σ) else []) = records
  have length : slots.length = capacity := by simp [← hs]
  have isSlot : ∀ i < capacity, (slots ++ records).getD i {} = {} := by
    intro i hi
    rw [List.getD_eq_getElem?_getD, List.getElem?_append_left (length.symm ▸ hi), ← hs]
    simp [hi]
  have isRecord : ∀ e ∈ records, e = { available := false } := by
    intro e he
    rw [← hr] at he
    split at he
    · exact (List.mem_replicate.mp he).2
    · cases he
  have record : ∀ i, capacity ≤ i → i < (slots ++ records).length →
      (slots ++ records).getD i {} = { available := false } := by
    intro i low high
    have inside : i - capacity < records.length := by simp at high; omega
    rw [List.getD_eq_getElem?_getD, List.getElem?_append_right (length ▸ low), length,
      List.getElem?_eq_getElem inside]
    exact isRecord _ (List.getElem_mem inside)
  refine ⟨?_, rfl, fun i hi => ?_⟩
  · constructor
    · simp only [List.length_append]
      omega
    · refine (total_eq_zero fun e he => ?_).symm
      have invalid : e.valid = false := by
        cases List.mem_append.mp he with
        | inl he => rw [← hs] at he; rw [(List.mem_replicate.mp he).2]
        | inr he => rw [isRecord e he]
      simp [Entry.bytes, invalid]
    · exact Nat.zero_le _
    · intro i hi
      change ((slots ++ records).getD i {}).Slot _
      rw [isSlot i hi]
      exact ⟨rfl, rfl, fun _ => rfl⟩
    · intro i hi
      have bounds := mem_records.mp hi
      change ((slots ++ records).getD i {}).Record
      rw [record i bounds.1 bounds.2]
      exact ⟨rfl, rfl⟩
    · intro i hi j _ valid
      have bounds := mem_records.mp hi
      change ((slots ++ records).getD i {}).valid = true at valid
      rw [record i bounds.1 bounds.2] at valid
      cases valid
  · change ((slots ++ records).getD i {}).available = true
    rw [isSlot i hi]

end Cache

end Gufo.Continuation
