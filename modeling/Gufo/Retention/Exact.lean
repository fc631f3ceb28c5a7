import Gufo.Retention.Operations
import Gufo.Retention.Bytes

/-!
# Retention bookkeeping is exact

Every operation keeps the number of records, the `below` bits and the cached
payload total what a count over the retained checkpoints gives.

* A removal or an addition is one change of one slot; `emit`, the fork mark and
  access times change nothing that is counted.
* A whole `Admit` is removals, then at most one addition.
-/

namespace Gufo.Retention
open Gufo.Disk Gufo.Shared

variable {object : ChunkRef → Chunk} {limit : Nat}

/-- The second checkpoint shares the first one's identities and has more tokens. -/
structure Extends (c d : Checkpoint object) : Prop where
  compatibility : d.compatibility = c.compatibility
  input : d.input = c.input
  tokens : c.tokens <+: d.tokens
  strictly : c.tokens.length < d.tokens.length

theorem Extends.irrefl (c : Checkpoint object) : ¬Extends c c :=
  fun h => Nat.lt_irrefl _ h.strictly

theorem Extends.asymm {c d : Checkpoint object} (h : Extends c d) : ¬Extends d c :=
  fun back => Nat.lt_asymm h.strictly back.strictly

namespace Policy
variable {s t : Policy object limit} {i : Fin limit} {e : Record object limit}

theorem related_iff {c d : Checkpoint object} : related c d = true ↔ Extends c d := by
  simp only [related, Bool.and_eq_true, beq_iff_eq, decide_eq_true_iff, isPrefix,
    List.isPrefixOf_iff_prefix]
  constructor
  · rintro ⟨⟨⟨compatibility, input⟩, strictly⟩, tokens⟩
    exact ⟨compatibility.symm, input.symm, tokens, strictly⟩
  · rintro ⟨compatibility, input, tokens, strictly⟩
    exact ⟨⟨⟨compatibility.symm, input.symm⟩, strictly⟩, tokens⟩

/-- The occupied slots. -/
def occupied (s : Policy object limit) : Finset (Fin limit) :=
  Finset.univ.filter fun i => (s.records i).isSome

theorem mem_occupied : i ∈ s.occupied ↔ (s.records i).isSome = true := by simp [occupied]

/-- What the three pieces of bookkeeping say. -/
structure Exact (s : Policy object limit) : Prop where
  size : s.size = s.occupied.card
  below : ∀ i e, s.records i = some e → ∀ j,
    e.below j = true ↔ ∃ d, s.checkpointAt j = some d ∧ Extends e.checkpoint d
  retained : ∀ bytes, s.retained = some bytes → bytes = s.payload

theorem checkpointAt_of_records (h : s.records i = some e) :
    s.checkpointAt i = some e.checkpoint := by
  simp [checkpointAt, h]

theorem checkpointAt_eq_none : s.checkpointAt i = none ↔ s.records i = none := by
  simp [checkpointAt]

theorem occupied_congr (h : ∀ i, s.checkpointAt i = t.checkpointAt i) :
    s.occupied = t.occupied := by
  ext i
  have same := congrArg Option.isSome (h i)
  simp only [checkpointAt, Option.isSome_map] at same
  rw [mem_occupied, mem_occupied, same]

/-! ## One slot more or less -/

/-- The payload grows by what only the new record holds. -/
theorem payload_add (agree : ∀ j, j ≠ i → s.checkpointAt j = t.checkpointAt j)
    (empty : s.checkpointAt i = none) : t.payload = s.payload + t.uniquePayloadBytes i := by
  have chunks := sum_held_of_agree (storageBytes object)
    (fun j (hj : j ≠ i) => heldBy_congr (s := s) (t := t) (agree j hj)) (by simp [heldBy, empty])
  have alone : s.privateOf i = 0 := by simp [privateOf, empty]
  have privates : ∑ j, t.privateOf j = ∑ j, s.privateOf j + t.privateOf i := by
    rw [← Finset.add_sum_erase _ t.privateOf (Finset.mem_univ i),
      ← Finset.add_sum_erase _ s.privateOf (Finset.mem_univ i), alone, zero_add, add_comm]
    congr 1
    exact Finset.sum_congr rfl fun j hj =>
      (privateOf_congr (agree j (Finset.ne_of_mem_erase hj))).symm
  rw [uniquePayloadBytes_eq, payload, payload, chunks, privates]
  exact add_add_add_comm _ _ _ _

theorem card_add (agree : ∀ j, j ≠ i → s.checkpointAt j = t.checkpointAt j)
    (empty : s.checkpointAt i = none) (full : (t.checkpointAt i).isSome) :
    t.occupied.card = s.occupied.card + 1 := by
  have out : i ∉ s.occupied := by
    rw [mem_occupied, checkpointAt_eq_none.mp empty]
    simp
  have same : t.occupied = insert i s.occupied := by
    ext j
    by_cases hj : j = i
    · subst hj
      simpa [mem_occupied, checkpointAt] using full
    · have := congrArg Option.isSome (agree j hj)
      simp only [checkpointAt, Option.isSome_map] at this
      simp [mem_occupied, hj, this]
  rw [same, Finset.card_insert_of_notMem out]

/-- A slot filled or emptied elsewhere leaves a record's bits to the other slots right. -/
theorem Exact.size_le (h : s.Exact) : s.size ≤ limit := by
  rw [h.size]
  simpa using Finset.card_le_univ s.occupied

/-! ## Changes that are not counted -/

/-- Same checkpoints and same bits. -/
theorem Exact.congr (h : s.Exact) (checkpoints : ∀ i, t.checkpointAt i = s.checkpointAt i)
    (bits : ∀ i e, t.records i = some e → ∃ e', s.records i = some e' ∧ e.below = e'.below)
    (size : t.size = s.size) (retained : ∀ bytes, t.retained = some bytes → bytes = s.payload) :
    t.Exact where
  size := by rw [size, h.size, occupied_congr checkpoints]
  below i e at_i j := by
    obtain ⟨e', at_i', same⟩ := bits i e at_i
    have checkpoint : e.checkpoint = e'.checkpoint := by
      have := checkpoints i
      rw [checkpointAt_of_records at_i, checkpointAt_of_records at_i'] at this
      exact Option.some.inj this
    rw [same, checkpoints, checkpoint]
    exact h.below i e' at_i' j
  retained bytes hb := by rw [retained bytes hb, payload_congr checkpoints]

theorem retainedPayloadBytes_eq (h : s.Exact) : s.retainedPayloadBytes.1 = s.payload := by
  unfold retainedPayloadBytes
  cases kept : s.retained with
  | none => exact countPayloadBytes_eq s
  | some bytes => exact h.retained bytes kept

@[simp] theorem emit_records (s : Policy object limit) (action : RetentionAction)
    (reason : RetentionReason) (id : CheckpointId) (boundary : Nat) (purpose : RetentionPurpose)
    (rank : Nat) (used : UInt64) :
    (s.emit action reason id boundary purpose rank used).records = s.records := by
  unfold emit retainedPayloadBytes
  cases s.retained <;> rfl

@[simp] theorem emit_size (s : Policy object limit) (action : RetentionAction)
    (reason : RetentionReason) (id : CheckpointId) (boundary : Nat) (purpose : RetentionPurpose)
    (rank : Nat) (used : UInt64) :
    (s.emit action reason id boundary purpose rank used).size = s.size := by
  unfold emit retainedPayloadBytes
  cases s.retained <;> rfl

theorem emit_retained (s : Policy object limit) (action : RetentionAction)
    (reason : RetentionReason) (id : CheckpointId) (boundary : Nat) (purpose : RetentionPurpose)
    (rank : Nat) (used : UInt64) :
    (s.emit action reason id boundary purpose rank used).retained =
      some s.retainedPayloadBytes.1 := by
  unfold emit retainedPayloadBytes
  cases kept : s.retained with
  | none => rfl
  | some bytes => exact kept

/-- An event leaves the bookkeeping exact; it fills the cached total. -/
theorem Exact.emit (h : s.Exact) {action : RetentionAction} {reason : RetentionReason}
    {id : CheckpointId} {boundary : Nat} {purpose : RetentionPurpose} {rank : Nat}
    {used : UInt64} : (s.emit action reason id boundary purpose rank used).Exact := by
  refine h.congr (fun i => by simp [checkpointAt]) (fun i e at_i => ?_) (by simp) ?_
  · rw [emit_records] at at_i
    exact ⟨e, at_i, rfl⟩
  · intro bytes kept
    rw [emit_retained, Option.some.injEq] at kept
    rw [← kept, retainedPayloadBytes_eq h]

theorem Exact.retainedPayloadBytes (h : s.Exact) : s.retainedPayloadBytes.2.Exact := by
  unfold Policy.retainedPayloadBytes
  cases kept : s.retained with
  | some bytes => exact h
  | none =>
    refine h.congr (fun i => rfl) (fun i e at_i => ⟨e, at_i, rfl⟩) rfl ?_
    intro bytes eq
    rw [← Option.some.inj eq, countPayloadBytes_eq]

/-! ## Removal -/

theorem checkpointAt_vacate (s : Policy object limit) (i j : Fin limit) :
    (s.vacate i).checkpointAt j = if j = i then none else s.checkpointAt j := by
  simp only [vacate, checkpointAt]
  split
  · rfl
  · rw [Option.map_map]
    rfl

/-- Emptying a slot, with its bytes taken from the cached total. -/
theorem Exact.vacate (h : s.Exact) (at_i : s.records i = some e) :
    Exact { s.vacate i with
      size := s.size - 1
      retained := s.retained.map (· - s.uniquePayloadBytes i) } := by
  have others_ : ∀ j, j ≠ i → (s.vacate i).checkpointAt j = s.checkpointAt j := by
    intro j hj
    rw [checkpointAt_vacate, if_neg hj]
  have empty : (s.vacate i).checkpointAt i = none := by rw [checkpointAt_vacate, if_pos rfl]
  have full : s.checkpointAt i = some e.checkpoint := checkpointAt_of_records at_i
  refine ⟨?_, ?_, ?_⟩
  · have count := card_add others_ empty (by simp [full])
    change s.size - 1 = (s.vacate i).occupied.card
    rw [h.size, count]
    omega
  · intro j f at_j k
    simp only [Policy.vacate] at at_j
    split at at_j
    · cases at_j
    · obtain ⟨f', at_j', rfl⟩ := Option.map_eq_some_iff.mp at_j
      have bit := h.below j f' at_j' k
      change (f'.below k && k != i) = true ↔
        ∃ d, (s.vacate i).checkpointAt k = some d ∧ Extends f'.checkpoint d
      by_cases hk : k = i
      · simp [hk, empty]
      · rw [others_ k hk, ← bit]
        simp [hk]
  · intro bytes kept
    obtain ⟨old, kept', rfl⟩ := Option.map_eq_some_iff.mp kept
    have grown := payload_add others_ empty
    rw [h.retained old kept', grown]
    exact add_sub_cancel_right _ _

theorem Exact.erase (h : s.Exact) (i : Fin limit) (reason : RetentionReason) (rank : Nat) :
    (s.erase i reason rank).Exact := by
  unfold Policy.erase
  cases at_i : s.records i with
  | none => exact h
  | some e => exact (h.vacate at_i).emit

@[simp] theorem erase_records (s : Policy object limit) (i : Fin limit) (reason : RetentionReason)
    (rank : Nat) (at_i : s.records i = some e) :
    (s.erase i reason rank).records = (s.vacate i).records := by
  simp [Policy.erase, at_i]

/-! ## Addition -/

theorem checkpointAt_setBelow (s : Policy object limit) (added : Fin limit)
    (c : Checkpoint object) (j : Fin limit) :
    (s.setBelow added c).checkpointAt j = s.checkpointAt j := by
  simp only [setBelow, checkpointAt, Option.map_map]
  rfl

theorem checkpointAt_relate (s : Policy object limit) (added : Fin limit)
    (c : Checkpoint object) (j : Fin limit) : (s.relate added c).checkpointAt j = s.checkpointAt j := by
  rw [← checkpointAt_setBelow s added c j]
  unfold relate
  dsimp only
  split
  · rfl
  · split
    · simp only [checkpointAt]
      split
      · rw [Option.map_map]
        rfl
      · rfl
    · rfl

/-- The fork mark leaves the bits as `setBelow` set them. -/
theorem below_relate {added : Fin limit} {c : Checkpoint object} {j : Fin limit}
    (at_j : (s.relate added c).records j = some e) :
    ∃ e', (s.setBelow added c).records j = some e' ∧ e.below = e'.below := by
  unfold relate at at_j
  dsimp only at at_j
  split at at_j
  · exact ⟨e, at_j, rfl⟩
  · split at at_j
    · dsimp only at at_j
      split at at_j
      · obtain ⟨e', at_j', rfl⟩ := Option.map_eq_some_iff.mp at_j
        exact ⟨e', at_j', rfl⟩
      · exact ⟨e, at_j, rfl⟩
    · exact ⟨e, at_j, rfl⟩

theorem relate_size (s : Policy object limit) (added : Fin limit) (c : Checkpoint object) :
    (s.relate added c).size = s.size ∧ (s.relate added c).retained = s.retained := by
  unfold relate
  dsimp only
  split
  · exact ⟨rfl, rfl⟩
  · split <;> exact ⟨rfl, rfl⟩

theorem checkpointAt_fill (s : Policy object limit) (target : Fin limit) (e : Record object limit)
    (j : Fin limit) : (s.fill target e).checkpointAt j =
      if j = target then some e.checkpoint else s.checkpointAt j := by
  simp only [fill, checkpointAt]
  split <;> rfl

variable {target : Fin limit}

/-- `Relate` gives the new record's bits and the bits for it. -/
theorem bitsAfter_iff (h : s.Exact) (empty : s.records target = none)
    (none_below : ∀ k, e.below k = false) {j : Fin limit} {f : Record object limit}
    (at_j : (s.fill target e).records j = some f) (k : Fin limit) :
    (s.fill target e).bitsAfter target e.checkpoint j f k = true ↔
      ∃ d, (s.fill target e).checkpointAt k = some d ∧ Extends f.checkpoint d := by
  unfold bitsAfter
  rw [checkpointAt_fill]
  by_cases hj : j = target
  · -- The new record's own bits.
    have own : e = f := by simpa [fill, hj] using at_j
    subst own
    by_cases hk : k = target
    · simp [hj, hk, none_below, Extends.irrefl]
    · simp [hj, hk, none_below, Option.any_eq_true, related_iff]
  · have at_j' : s.records j = some f := by simpa [fill, hj] using at_j
    have bit := h.below j f at_j' k
    by_cases hk : k = target
    · -- An old record's bit for the new one.
      subst hk
      rw [checkpointAt_eq_none.mpr empty] at bit
      have old : f.below k = false := by simpa using bit
      have back : Extends f.checkpoint e.checkpoint → related e.checkpoint f.checkpoint = false := by
        intro extends_
        rw [← Bool.not_eq_true, related_iff]
        exact extends_.asymm
      simp only [old, if_neg hj, if_true, beq_self_eq_true, Bool.true_and, Bool.false_or,
        Bool.and_eq_true, Bool.not_eq_true', related_iff, Option.some.injEq, exists_eq_left']
      exact ⟨And.right, fun extends_ => ⟨back extends_, extends_⟩⟩
    · simp [hj, hk, bit]

theorem checkpointAt_markReused (s : Policy object limit) (target : Fin limit) (reused : Bool)
    (reusedAt : Option UInt64) (j : Fin limit) :
    (s.markReused target reused reusedAt).checkpointAt j = s.checkpointAt j := by
  unfold markReused
  split
  · simp only [checkpointAt]
    split
    · rw [Option.map_map]
      rfl
    · rfl
  · rfl

theorem below_markReused {reused : Bool} {reusedAt : Option UInt64}
    {j : Fin limit} (at_j : (s.markReused target reused reusedAt).records j = some e) :
    ∃ e', s.records j = some e' ∧ e.below = e'.below := by
  unfold markReused at at_j
  split at at_j
  · dsimp only at at_j
    split at at_j
    · obtain ⟨e', at_j', rfl⟩ := Option.map_eq_some_iff.mp at_j
      exact ⟨e', at_j', rfl⟩
    · exact ⟨e, at_j, rfl⟩
  · exact ⟨e, at_j, rfl⟩

theorem Exact.markReused (h : s.Exact) (target : Fin limit) (reused : Bool)
    (reusedAt : Option UInt64) : (s.markReused target reused reusedAt).Exact := by
  refine h.congr (checkpointAt_markReused s target reused reusedAt)
    (fun i e at_i => below_markReused at_i) ?_ ?_
  · unfold Policy.markReused
    split <;> rfl
  · intro bytes kept
    refine h.retained bytes ?_
    rw [← kept]
    unfold Policy.markReused
    split <;> rfl

/-- A new record, credited and related to the others. -/
theorem Exact.relate (h : s.Exact) (empty : s.records target = none)
    (none_below : ∀ k, e.below k = false) :
    (((s.fill target e).credit target).relate target e.checkpoint).Exact := by
  have free : s.checkpointAt target = none := checkpointAt_eq_none.mpr empty
  have full : (s.fill target e).checkpointAt target = some e.checkpoint := by
    rw [checkpointAt_fill, if_pos rfl]
  have agree : ∀ j, j ≠ target → s.checkpointAt j = (s.fill target e).checkpointAt j := by
    intro j hj
    rw [checkpointAt_fill, if_neg hj]
  have checkpoints := checkpointAt_relate ((s.fill target e).credit target) target e.checkpoint
  have kept_size := relate_size ((s.fill target e).credit target) target e.checkpoint
  refine ⟨?_, ?_, ?_⟩
  · rw [kept_size.1, occupied_congr checkpoints]
    change s.size + 1 = (s.fill target e).occupied.card
    rw [h.size, card_add agree free (by rw [full]; rfl)]
  · intro j f at_j k
    obtain ⟨f', at_j', same⟩ := below_relate at_j
    have checkpoint : f.checkpoint = f'.checkpoint := by
      have eq := (checkpoints j).trans
        (checkpointAt_setBelow ((s.fill target e).credit target) target e.checkpoint j).symm
      rw [checkpointAt_of_records at_j, checkpointAt_of_records at_j'] at eq
      exact Option.some.inj eq
    obtain ⟨f'', at_j'', rfl⟩ := Option.map_eq_some_iff.mp at_j'
    rw [same, checkpoints, checkpoint]
    exact bitsAfter_iff h empty none_below at_j'' k
  · intro bytes kept
    rw [kept_size.2] at kept
    obtain ⟨old, kept', rfl⟩ := Option.map_eq_some_iff.mp kept
    rw [h.retained old kept', payload_congr checkpoints]
    exact (payload_add agree free).symm

theorem Exact.place (h : s.Exact) (empty : s.records target = none)
    (r : RetentionRequest) (purpose : RetentionPurpose) (c : Checkpoint object) (entry : UInt64)
    (reusedAt : Option UInt64) : (s.place target r purpose c entry reusedAt).Exact :=
  ((h.relate (e := ⟨c, entry, purpose, r.stable, s.clock + 1, none, false, fun _ => false⟩)
    empty fun _ => rfl).markReused target r.reused reusedAt).emit

/-! ## Whole calls -/

/-- The bookkeeping is exact in whatever policy a call leaves. -/
def Leaves (o : Outcome object limit) : Prop := ∀ s, o.left = some s → s.Exact

theorem leaves_returned (h : s.Exact) (value : Bool) : Leaves (.returned value s) := by
  intro t left
  exact Option.some.inj left ▸ h

theorem leaves_threw (h : s.Exact) : Leaves (.threw s) := by
  intro t left
  exact Option.some.inj left ▸ h

theorem leaves_refuse (h : s.Exact) (r : RetentionRequest) (purpose : RetentionPurpose)
    (reason : RetentionReason) : Leaves (s.refuse r purpose reason) :=
  leaves_returned h.emit false

theorem freeSlot_empty (h : s.freeSlot = some target) :
    s.records target = none := by
  have := List.find?_some h
  simpa using this

theorem leaves_publish (h : s.Exact) (r : RetentionRequest) (purpose : RetentionPurpose)
    (c : Checkpoint object) (entry : UInt64) (reusedAt : Option UInt64) :
    Leaves (s.publish r purpose c entry reusedAt) := by
  unfold publish
  split
  · intro t left
    cases left
  · rename_i target found
    exact leaves_returned (h.place (freeSlot_empty found) r purpose c entry reusedAt) true

/-- One round either ends the call or erases one record and goes on. -/
theorem leaves_admitLoop (r : RetentionRequest) (ramBytes : UInt64) (exact_ : Option (Fin limit))
    (purpose : RetentionPurpose) (rounds : List (Round object limit)) (h : s.Exact) :
    Leaves (s.admitLoop r ramBytes exact_ purpose rounds) := by
  induction rounds generalizing s with
  | nil =>
    intro t left
    cases left
  | cons round rest ih =>
    unfold admitLoop
    dsimp only
    split
    · exact leaves_refuse h r purpose _
    · split
      · split
        · exact leaves_refuse h r purpose _
        · split
          · exact leaves_threw h
          · exact ih (h.erase _ _ _)
      · exact leaves_refuse h r purpose _
      · exact leaves_refuse h r purpose _
      · split
        · exact leaves_refuse h r purpose _
        · split
          · exact leaves_refuse h r purpose _
          · split
            · split
              · exact leaves_refuse h r purpose _
              · split
                · exact leaves_threw h
                · exact ih (h.erase _ _ _)
            · exact leaves_refuse h r purpose _
            · split
              · intro t left
                cases left
              · exact leaves_publish h r purpose _ _ _
              · split
                · exact leaves_refuse h r purpose _
                · exact leaves_publish (h.erase _ _ _) r purpose _ _ _

theorem leaves_admit (h : s.Exact) (r : RetentionRequest) (limits : LedgerLimits)
    (stopped hasCapture : Bool) (pinned pinnedLater : Fin limit → Bool)
    (rounds : List (Round object limit)) :
    Leaves (s.admit_ r limits stopped hasCapture pinned pinnedLater rounds) := by
  unfold admit_
  dsimp only
  split
  · exact leaves_refuse h r _ _
  · split
    · exact leaves_refuse h r _ _
    · split
      · exact leaves_refuse h r _ _
      · split
        · exact leaves_refuse h r _ _
        · split
          · exact leaves_refuse h r _ _
          · exact leaves_admitLoop r _ _ _ rounds h

theorem leaves_reclaim (h : s.Exact) (r : RetentionRequest) (limits : LedgerLimits)
    (pinned : Fin limit → Bool) (dropFails : Bool) :
    Leaves (s.reclaim r limits pinned dropFails) := by
  unfold reclaim
  split
  · exact leaves_returned h false
  · split
    · exact leaves_returned h false
    · split
      · exact leaves_threw h
      · exact leaves_returned (h.erase _ _ _) true

theorem leaves_touch (h : s.Exact) (id : CheckpointId) : Leaves (s.touch id) := by
  unfold touch
  split
  · exact leaves_threw h
  · rename_i i e found
    have at_i : s.records i = some e := by
      obtain ⟨j, -, eq⟩ := Option.bind_eq_some_iff.mp found
      obtain ⟨f, at_j, eq⟩ := Option.map_eq_some_iff.mp eq
      cases eq
      exact at_j
    refine leaves_returned (Exact.emit ?_) true
    refine h.congr ?_ ?_ rfl h.retained
    · intro j
      simp only [checkpointAt]
      split
      · rename_i same
        simp [same, at_i]
      · rfl
    · intro j f at_j
      dsimp only at at_j
      split at at_j
      · rename_i same
        cases at_j
        exact ⟨e, same ▸ at_i, rfl⟩
      · exact ⟨f, at_j, rfl⟩

theorem leaves_remove (h : s.Exact) (id : CheckpointId) (dropFails : Bool) :
    Leaves (s.remove id dropFails) := by
  unfold remove
  split
  · exact leaves_threw h
  · split
    · exact leaves_threw h
    · exact leaves_returned (h.erase _ _ _) true

theorem leaves_run (h : s.Exact) (c : Call object limit) : Leaves (c.run s) := by
  cases c with
  | admit_ r limits stopped hasCapture pinned pinnedLater rounds =>
    exact leaves_admit h r limits stopped hasCapture pinned pinnedLater rounds
  | reclaim r limits pinned dropFails => exact leaves_reclaim h r limits pinned dropFails
  | touch id => exact leaves_touch h id
  | remove id dropFails => exact leaves_remove h id dropFails
  | retainedPayloadBytes => exact leaves_returned h.retainedPayloadBytes true

theorem exact_empty : ({} : Policy object limit).Exact where
  size := by
    have none_ : ({} : Policy object limit).occupied = ∅ := by
      ext i
      simp [mem_occupied]
    rw [none_]
    rfl
  below i e at_i := by cases at_i
  retained bytes kept := by cases kept

/-! ## The count in numbers -/

/-- Private states and tails of record `i`, as a number. -/
def privateCount (s : Policy object limit) (i : Fin limit) : Nat :=
  ((s.checkpointAt i).map fun c => (c.components.map fun k =>
    ((k.privateState.map (·.toNat)).getD 0 + (k.tail.map (·.toNat)).getD 0)).sum).getD 0

/-- Every private state and tail of every retained checkpoint, and every chunk object that some
retained checkpoint holds once. -/
def payloadCount (s : Policy object limit) : Nat :=
  ∑ i, s.privateCount i + ∑ chunk ∈ held s.heldBy, (object chunk).bytes.toNat

theorem word_privateCount (s : Policy object limit) (i : Fin limit) :
    word (s.privateCount i) = s.privateOf i := by
  unfold privateCount privateOf Checkpoint.privateTotal
  cases s.checkpointAt i with
  | none => rfl
  | some c =>
    simp only [Option.map_some, Option.getD_some, map_list_sum, List.map_map]
    congr 1
    apply List.map_congr_left
    intro k _
    rw [Function.comp_apply, map_add, privateBytes]
    congr 1
    · cases k.privateState <;> simp [word_toNat]
    · cases k.tail <;> simp [word_toNat]

theorem word_payloadCount (s : Policy object limit) : word s.payloadCount = s.payload := by
  unfold payloadCount payload
  rw [map_add, map_sum, Finset.sum_congr rfl fun i _ => word_privateCount s i, ← sum_word]
  rfl

end Policy

open Policy

theorem Reachable.exact {s : Policy object limit} (h : Reachable s) : s.Exact := by
  induction h with
  | start built =>
    unfold construct at built
    split at built
    · cases built
    · exact Option.some.inj built ▸ exact_empty
  | call c _ left ih => exact leaves_run ih c _ left

/-- **Exact bookkeeping.** In every reachable policy the size is the number of occupied records
and within the limit, a bit is set exactly for a retained extension, and the payload total,
cached or counted, is that of the retained checkpoints with every chunk once. -/
theorem reachable_exact {s : Policy object limit} (h : Reachable s) :
    s.size = s.occupied.card ∧ s.size ≤ limit ∧
      (∀ i e, s.records i = some e → ∀ j,
        e.below j = true ↔ ∃ d, s.checkpointAt j = some d ∧ Extends e.checkpoint d) ∧
      (∀ bytes, s.retained = some bytes → bytes = word s.payloadCount) ∧
      s.retainedPayloadBytes.1 = word s.payloadCount := by
  have exact_ := h.exact
  rw [word_payloadCount]
  exact ⟨exact_.size, exact_.size_le, exact_.below, exact_.retained, retainedPayloadBytes_eq exact_⟩

/-! ## Two turns of one conversation -/

/-- Chunk `n` holds rows from `16 * n` on. -/
def sampleObject (n : ChunkRef) : Chunk := ⟨7, 16 * n, 16, 1024⟩

/-- A checkpoint of sixteen rows a chunk, with a private state. -/
def sampleCheckpoint (id : CheckpointId) (chunks : Nat) : Checkpoint sampleObject where
  id
  tokens := List.replicate (16 * chunks) 5
  compatibility := []
  input := []
  components := [⟨⟨7, 1, .appendRows, 64, 16, 0⟩, ⟨7, 0⟩, List.range chunks, none, some 100⟩]
  distinct := by simp
  placed := by
    intro c hc n chunk at_n
    rw [List.mem_singleton] at hc
    subst hc
    simp only [List.getElem?_eq_some_iff, List.getElem_range] at at_n
    obtain ⟨-, rfl⟩ := at_n
    exact ⟨rfl, Nat.succ_pos 15, rfl, Nat.mul_comm _ _⟩

def sampleAdmit (id : CheckpointId) (chunks : Nat) : Call sampleObject 2 :=
  .admit_ { tokens := List.replicate (16 * chunks) 5, compatibility := [], input := [] }
    ⟨4096, 4096⟩ false true (fun _ => false) (fun _ => false)
    [{ checkpoint := some (sampleCheckpoint id chunks), entry := id }]

/-- The second turn's checkpoint extends the first one's and shares its chunk. -/
def twoTurns : Option (Policy sampleObject 2) :=
  (construct sampleObject 2).bind fun s =>
    ((sampleAdmit 1 1).run s).left.bind fun s => ((sampleAdmit 2 2).run s).left

theorem twoTurns_exact : ∃ s, twoTurns = some s ∧ s.size = 2 ∧
    s.retainedPayloadBytes.1 = word s.payloadCount := by
  have ends : twoTurns.isSome = true := by decide
  obtain ⟨s, eq⟩ := Option.isSome_iff_exists.mp ends
  obtain ⟨s₀, built, eq₁⟩ := Option.bind_eq_some_iff.mp eq
  obtain ⟨s₁, first, second⟩ := Option.bind_eq_some_iff.mp eq₁
  have size : twoTurns.map (·.size) = some 2 := by decide
  rw [eq, Option.map_some, Option.some.injEq] at size
  exact ⟨s, eq, size,
    (reachable_exact (.call _ (.call _ (.start built) first) second)).2.2.2.2⟩

end Gufo.Retention
