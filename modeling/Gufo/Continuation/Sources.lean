import Gufo.Continuation.Conservation

/-!
# Preserved sources

A reservation that preserves its lease's source never removes it. The publication that
follows is not told, and the record search of `Commit` can still end at the source.
-/

namespace Gufo.Continuation
variable {σ : Type}

/-! ## What a search finds -/

theorem leastRecent_eq_none {eligible : Nat → Bool} {used : Nat → UInt64} {l : List Nat} :
    leastRecent eligible used l = none ↔ ∀ i ∈ l, eligible i = true → ¬used i < maxClock := by
  have kept : ∀ (l : List Nat) (best : Option Nat × UInt64), best.1 ≠ none →
      (l.foldl (fun best i => if eligible i ∧ used i < best.2 then (some i, used i) else best)
        best).1 ≠ none := by
    intro l best found
    refine List.foldlRecOn l _ (motive := fun best : Option Nat × UInt64 => best.1 ≠ none) found ?_
    intro best found i _
    split
    · exact Option.some_ne_none i
    · exact found
  unfold leastRecent
  induction l with
  | nil => simp
  | cons i l ih =>
    rw [List.foldl_cons, List.forall_mem_cons]
    by_cases takes : eligible i = true ∧ used i < maxClock
    · rw [if_pos takes]
      exact ⟨fun none => absurd none (kept l _ (Option.some_ne_none i)),
        fun all => absurd takes.2 (all.1 takes.1)⟩
    · rw [if_neg takes]
      exact ih.trans (and_iff_right (not_and.mp takes)).symm

section
variable {limit : Nat} {eligible : Nat → Bool} {rank : Nat → Nat} {used : Nat → UInt64}
  {candidates : List Nat}

theorem leastValuable_cases :
    leastValuable limit eligible rank used candidates = {} ∨
      ∃ i ∈ candidates, eligible i = true ∧
        (leastValuable limit eligible rank used candidates).selected = some i ∧
        (leastValuable limit eligible rank used candidates).priority = rank i := by
  refine List.foldlRecOn candidates _ (motive := fun best : Ranked => best = {} ∨
    ∃ i ∈ candidates, eligible i = true ∧ best.selected = some i ∧ best.priority = rank i)
    (.inl rfl) ?_
  intro best before i member
  split
  · rename_i takes
    exact .inr ⟨i, member, takes.1, rfl, rfl⟩
  · exact before

/-- No eligible candidate has a lower rank than the victim. -/
theorem leastValuable_le {i : Nat} (member : i ∈ candidates) (able : eligible i = true)
    (low : rank i ≤ limit) :
    (leastValuable limit eligible rank used candidates).priority ≤ rank i := by
  have falls : ∀ (best : Ranked) (j : Nat),
      (if eligible j ∧ rank j ≤ limit ∧
          (rank j < best.priority ∨ rank j = best.priority ∧ used j < best.oldest) then
        ⟨some j, rank j, used j⟩ else best : Ranked).priority ≤ best.priority := by
    intro best j
    split
    · rename_i takes
      exact takes.2.2.elim le_of_lt fun same => same.1.le
    · exact le_rfl
  unfold leastValuable
  generalize ({} : Ranked) = start
  induction candidates generalizing start with
  | nil => cases member
  | cons j rest ih =>
    rcases List.mem_cons.mp member with rfl | later
    · refine le_trans ?_ (show _ ≤ rank i from ?_) (b := (if eligible i ∧ rank i ≤ limit ∧
          (rank i < start.priority ∨ rank i = start.priority ∧ used i < start.oldest) then
        ⟨some i, rank i, used i⟩ else start : Ranked).priority)
      · refine List.foldlRecOn rest _ (motive := fun best : Ranked => best.priority ≤ _) le_rfl ?_
        exact fun best le k _ => (falls best k).trans le
      · split
        · exact le_rfl
        · rename_i stays
          by_contra above
          exact stays ⟨able, low, .inl (Nat.lt_of_not_le above)⟩
    · exact ih later _

end

/-- The record is neither replaced nor removed. -/
def Committed.Spares (done : Committed σ) (c : Cache σ) (i : Nat) : Prop :=
  done.published ≠ some i ∧ done.cache.entry i = c.entry i

namespace Cache
variable {c : Cache σ}

theorem priorityScan_le (i : Nat) (l : List Nat) : c.priorityScan i l ≤ 3 := by
  induction l with
  | nil => exact le_rfl
  | cons j l ih =>
    unfold priorityScan
    simp only
    split
    · exact ih
    split
    · exact Nat.zero_le _
    split
    · exact (by decide : 1 ≤ 3)
    split
    · exact (by decide : 2 ≤ 3)
    · exact ih

theorem entry_congr {d : Cache σ} (same : c.entries = d.entries) : c.entry = d.entry := by
  funext i
  rw [entry, entry, same]

theorem branchScan_congr {d : Cache σ} (same : c.entries = d.entries) (i : Nat) (l : List Nat) :
    ∀ learned next, c.branchScan i learned next l = d.branchScan i learned next l := by
  have entry := entry_congr same
  induction l with
  | nil => exact fun _ _ => rfl
  | cons j l ih =>
    simp [branchScan, entry, ih]

theorem priorityScan_congr {d : Cache σ} (same : c.entries = d.entries) (i : Nat) (l : List Nat) :
    c.priorityScan i l = d.priorityScan i l := by
  have entry := entry_congr same
  induction l with
  | nil => rfl
  | cons j l ih => simp [priorityScan, entry, ih]

section
variable {d : Cache σ} (same : c.entries = d.entries) (records : c.records = d.records)
include same records

theorem isBranchPoint_congr (i : Nat) : c.isBranchPoint i = d.isBranchPoint i := by
  simp [isBranchPoint, entry_congr same, branchScan_congr same, records]

theorem removalPriority_congr (i : Nat) (incoming : List Token) (identity : Identity) :
    c.removalPriority i incoming identity = d.removalPriority i incoming identity := by
  simp [removalPriority, entry_congr same, isBranchPoint_congr same records,
    priorityScan_congr same, records]

end

theorem removalPriority_le (i : Nat) (incoming : List Token) (identity : Identity) :
    c.removalPriority i incoming identity ≤ 3 := by
  unfold removalPriority
  simp only
  split
  · exact le_rfl
  split
  · split <;> decide
  · exact priorityScan_le i _

/-! ## Reserving -/

section
variable {r : Reservation}

theorem oldestSnapshot_ne {t : Nat} (found : c.oldestSnapshot r false = some t) :
    t ≠ r.sourceIndex := by
  have able := (leastValuable_spec found).2.1
  simp only [Bool.false_eq_true, false_or, decide_eq_true_eq] at able
  exact able.2.2

theorem evictionTarget_ne (preserve : r.preserveSource = true) {purpose : SnapshotPurpose}
    {t : Nat} (found : c.evictionTarget r purpose = some t) : t ≠ r.sourceIndex := by
  have keeps : c.canReplaceSource r purpose = false := by simp [canReplaceSource, preserve]
  simp only [evictionTarget, keeps, Bool.false_eq_true, false_and, if_false, preserve,
    if_true] at found
  split at found
  · rename_i oldest
    exact oldestSnapshot_ne (oldest.trans found)
  · cases found

theorem evict_source (preserve : r.preserveSource = true) {exact : Option Nat}
    (apart : ∀ i ∈ exact, i ≠ r.sourceIndex) {fuel : Nat} {purpose : SnapshotPurpose}
    {events : List SnapshotEvent} {s : Cache σ × SnapshotPurpose × List SnapshotEvent}
    (done : c.evict r exact fuel purpose events = some s) :
    s.1.entry r.sourceIndex = c.entry r.sourceIndex := by
  induction fuel generalizing c purpose events with
  | zero => cases done
  | succ fuel ih =>
    unfold evict at done
    split at done
    · cases done
      rfl
    split at done
    · rename_i i copy
      have ne := apart i (Option.filter_eq_some_iff.mp copy).1
      exact (ih done).trans (entry_removeRecord_of_ne ne)
    split at done
    · cases done
      rfl
    · rename_i t target
      exact (ih done).trans (entry_removeRecord_of_ne (evictionTarget_ne preserve target))

/-- A reservation that preserves the source leaves it as it is. -/
theorem reserveSnapshot_source (preserve : r.preserveSource = true) {d : Reserved σ}
    (done : c.reserveSnapshot r = some d) :
    d.cache.entry r.sourceIndex = c.entry r.sourceIndex := by
  have admits : ∀ (c : Cache σ) (purpose events),
      (admission r c purpose events).cache.entry r.sourceIndex = c.entry r.sourceIndex := by
    intro c purpose events
    unfold admission
    split <;> rfl
  have apart : ∀ i ∈ c.exactCopy r, i ≠ r.sourceIndex := by
    intro i found
    unfold exactCopy at found
    split at found
    · have same := List.find?_some found
      simp only [decide_eq_true_eq] at same
      exact same.1
    · cases found
  unfold reserveSnapshot at done
  split at done
  · cases done
    rfl
  split at done
  · obtain ⟨s, ends, rfl⟩ := Option.map_eq_some_iff.mp done
    exact (admits _ _ _).trans (evict_source preserve apart ends)
  · cases done
    exact admits _ _ _

end

/-! ## Publishing -/

section
variable {p : Publication σ}

/-- A copy of a conversation that the publication does not extend. -/
def Idle (c : Cache σ) (p : Publication σ) (i : Nat) : Prop :=
  (c.entry i).snapshot.isSome ∧
    ¬((c.entry i).inputIdentity = p.inputIdentity ∧
      ((c.entry i).tokens <+: p.tokens ∨ p.tokens <+: (c.entry i).tokens)) ∧
    c.isBranchPoint i = false

/-- A copy of what followed the source before the conversation was edited. -/
def Abandoned (c : Cache σ) (p : Publication σ) (i : Nat) : Prop :=
  (c.entry p.sourceIndex).tokens ≠ [] ∧ (c.entry p.sourceIndex).tokens <+: p.tokens ∧
    (c.entry i).inputIdentity = p.inputIdentity ∧
    (c.entry p.sourceIndex).tokens.length < (c.entry i).tokens.length ∧
    ¬(c.entry i).tokens <+: p.tokens ∧ (c.entry p.sourceIndex).tokens <+: (c.entry i).tokens ∧
    c.priorityAt p i ≤ p.maxPriority

/-- No record is free, holds the published prefix or goes before a last copy. -/
structure Crowded (c : Cache σ) (p : Publication σ) : Prop where
  full : ∀ i ∈ c.records, (c.entry i).valid = true
  fresh : ∀ i ∈ c.records,
    ¬((c.entry i).tokens = p.tokens ∧ (c.entry i).inputIdentity = p.inputIdentity)
  idle : c.optionalCopiesDisplaceIdle = true → ∀ i ∈ c.records, i ≠ p.sourceIndex →
    c.Idle p i → ¬(c.entry i).snapshotLastUsed < maxClock
  abandoned : ∀ i ∈ c.records, i ≠ p.sourceIndex → c.Abandoned p i →
    ¬(c.entry i).snapshotLastUsed < maxClock

/-- The source is the only record, or the publication extends it and each other record is the
last copy of its family. -/
def Cornered (c : Cache σ) (p : Publication σ) : Prop :=
  p.purpose.isContinuation = true ∧ (c.records.length = 1 ∨
    ((c.entry p.sourceIndex).inputIdentity = p.inputIdentity ∧
      (c.entry p.sourceIndex).tokens.length < p.tokens.length ∧
      (c.entry p.sourceIndex).tokens <+: p.tokens ∧ c.priorityAt p p.sourceIndex < 3) ∧
    ∀ i ∈ c.records, i ≠ p.sourceIndex → c.priorityAt p i = 3)

/-- The record search ends at the source. -/
def SourceNext (c : Cache σ) (p : Publication σ) : Prop :=
  (c.entry p.sourceIndex).tokens = p.tokens ∧
      (c.entry p.sourceIndex).inputIdentity = p.inputIdentity ∨
    c.Crowded p ∧ c.Cornered p

theorem maxPriority_of_continuation (continuation : p.purpose.isContinuation = true) :
    p.maxPriority = 3 := by
  unfold Publication.maxPriority
  cases purpose : p.purpose <;> simp_all [SnapshotPurpose.isContinuation,
    SnapshotPurpose.maxRemovalPriority]

theorem priorityAt_le (continuation : p.purpose.isContinuation = true) (i : Nat) :
    c.priorityAt p i ≤ p.maxPriority :=
  (removalPriority_le i _ _).trans (maxPriority_of_continuation continuation).ge

/-- The last search leaves the source out while there is another record. -/
def Ranks (c : Cache σ) (p : Publication σ) (i : Nat) : Prop :=
  ¬(i = p.sourceIndex ∧
    (1 < c.entries.length - c.stateCount ∨ p.purpose.isContinuation = false))

instance (i : Nat) : Decidable (c.Ranks p i) := inferInstanceAs (Decidable ¬(_ ∧ (_ ∨ _)))

theorem rankedRecord_le {i : Nat} (record : i ∈ c.records) (ranks : c.Ranks p i)
    (continuation : p.purpose.isContinuation = true) :
    (c.rankedRecord p).priority ≤ c.priorityAt p i :=
  leastValuable_le record (decide_eq_true ranks) (priorityAt_le continuation i)

theorem rankedRecord_cases : c.rankedRecord p = {} ∨ ∃ i ∈ c.records, c.Ranks p i ∧
    (c.rankedRecord p).selected = some i ∧ (c.rankedRecord p).priority = c.priorityAt p i := by
  rcases leastValuable_cases with none | ⟨i, record, ranks, selected, priority⟩
  · exact .inl none
  · exact .inr ⟨i, record, of_decide_eq_true ranks, selected, priority⟩

theorem rankedRecord_ranks {i : Nat} (selected : (c.rankedRecord p).selected = some i) :
    c.Ranks p i := of_decide_eq_true (leastValuable_spec selected).2.1

theorem advancesSource_iff (record : p.sourceIndex ∈ c.records)
    (valid : (c.entry p.sourceIndex).valid = true) :
    c.advancesSource p = true ↔ p.purpose.isContinuation = true ∧
      (c.entry p.sourceIndex).inputIdentity = p.inputIdentity ∧
      (c.entry p.sourceIndex).tokens.length < p.tokens.length ∧
      (c.entry p.sourceIndex).tokens <+: p.tokens ∧ c.priorityAt p p.sourceIndex < 3 := by
  simp only [advancesSource, valid, (mem_records.mp record).2, decide_true, Bool.and_true,
    Bool.and_eq_true, decide_eq_true_eq]
  grind

/-- How the last search ends at the source. -/
def RankedSource (c : Cache σ) (p : Publication σ) : Prop :=
  (c.rankedRecord p).priority = 3 ∧ c.advancesSource p = true ∨
    (c.rankedRecord p).selected = some p.sourceIndex

/-- Where the source is the only record, a continuation has no other candidate. -/
theorem rankedSource_alone (record : p.sourceIndex ∈ c.records)
    (valid : (c.entry p.sourceIndex).valid = true) (only : c.records.length = 1) :
    c.RankedSource p ↔ p.purpose.isContinuation = true := by
  have count : c.records.length = c.entries.length - c.stateCount := List.length_range'
  have alone : ∀ i ∈ c.records, i = p.sourceIndex := by
    obtain ⟨j, all⟩ := List.length_eq_one_iff.mp only
    rw [all, List.mem_singleton] at record
    exact fun i member => (List.mem_singleton.mp (all ▸ member)).trans record.symm
  constructor
  · rintro (⟨-, extends_⟩ | selected)
    · exact ((advancesSource_iff record valid).mp extends_).1
    · by_contra other
      exact rankedRecord_ranks selected ⟨rfl, .inr (by simpa using other)⟩
  · intro continuation
    have ranks : c.Ranks p p.sourceIndex := fun left =>
      left.2.elim (by omega) (by simp [continuation])
    have low := rankedRecord_le record ranks continuation
    have small : c.priorityAt p p.sourceIndex ≤ 3 := removalPriority_le _ _ _
    rcases rankedRecord_cases (c := c) (p := p) with none | ⟨i, member, -, selected, -⟩
    · rw [none] at low
      exact absurd (low.trans small) (by decide)
    · exact .inr (alone i member ▸ selected)

/-- Where there are others, each must be a last copy. -/
theorem rankedSource_among (record : p.sourceIndex ∈ c.records)
    (valid : (c.entry p.sourceIndex).valid = true) (others : 1 < c.records.length) :
    c.RankedSource p ↔ c.advancesSource p = true ∧
      ∀ i ∈ c.records, i ≠ p.sourceIndex → c.priorityAt p i = 3 := by
  have count : c.records.length = c.entries.length - c.stateCount := List.length_range'
  have small (i : Nat) : c.priorityAt p i ≤ 3 := removalPriority_le _ _ _
  have ranks {i : Nat} (ne : i ≠ p.sourceIndex) : c.Ranks p i := fun left => ne left.1
  constructor
  · rintro (⟨last, extends_⟩ | selected)
    · have continuation := ((advancesSource_iff record valid).mp extends_).1
      refine ⟨extends_, fun i member ne => le_antisymm (small i) ?_⟩
      exact last ▸ rankedRecord_le member (ranks ne) continuation
    · exact absurd ⟨rfl, .inl (by omega)⟩ (rankedRecord_ranks selected)
  · rintro ⟨extends_, last⟩
    refine .inl ⟨?_, extends_⟩
    have continuation := ((advancesSource_iff record valid).mp extends_).1
    obtain ⟨i, member, ne⟩ : ∃ i ∈ c.records, i ≠ p.sourceIndex := by
      by_contra none
      push Not at none
      have all := List.eq_replicate_of_mem none
      have distinct : c.records.Nodup := List.nodup_range'
      rw [all, List.nodup_replicate] at distinct
      omega
    have low := rankedRecord_le member (ranks ne) continuation
    rw [last i member ne] at low
    rcases rankedRecord_cases (c := c) (p := p) with none | ⟨j, member, ranked, -, priority⟩
    · rw [none] at low
      exact absurd low (by decide)
    · rw [priority]
      exact last j member fun same => ranked ⟨same, .inl (by omega)⟩

theorem rankedSource_iff (record : p.sourceIndex ∈ c.records)
    (valid : (c.entry p.sourceIndex).valid = true) : c.RankedSource p ↔ c.Cornered p := by
  unfold Cornered
  by_cases only : c.records.length = 1
  · rw [rankedSource_alone record valid only]
    exact ⟨fun continuation => ⟨continuation, .inl only⟩, And.left⟩
  · have some_ := List.length_pos_of_mem record
    rw [rankedSource_among record valid (by omega), advancesSource_iff record valid]
    simp [only, and_assoc]

theorem idleRecord_eq_none (full : ∀ i ∈ c.records, (c.entry i).valid = true) :
    c.idleRecord p = none ↔ ∀ i ∈ c.records, i ≠ p.sourceIndex → c.Idle p i →
      ¬(c.entry i).snapshotLastUsed < maxClock := by
  unfold idleRecord Idle
  rw [leastRecent_eq_none]
  refine forall₂_congr fun i record => ?_
  simp only [full i record, true_and, decide_eq_true_eq, and_imp]

theorem editedTail_eq_none (full : ∀ i ∈ c.records, (c.entry i).valid = true)
    (record : p.sourceIndex ∈ c.records) :
    c.editedTail p = none ↔ ∀ i ∈ c.records, i ≠ p.sourceIndex → c.Abandoned p i →
      ¬(c.entry i).snapshotLastUsed < maxClock := by
  unfold editedTail Abandoned
  simp only [(mem_records.mp record).2, if_true, full _ record, true_and]
  rw [leastRecent_eq_none]
  refine forall₂_congr fun i member => ?_
  grind

/-- The record search ends at the source exactly where nothing goes before it. -/
theorem commitTarget_source (h : Sound c) (record : p.sourceIndex ∈ c.records)
    (valid : (c.entry p.sourceIndex).valid = true) :
    (c.commitTarget p).1 = some p.sourceIndex ↔ c.SourceNext p := by
  unfold commitTarget SourceNext
  cases exact : c.exactRecord p with
  | some i =>
    have held := List.find?_some exact
    have member := List.mem_of_find?_eq_some exact
    simp only [decide_eq_true_eq] at held
    simp only [Option.some.injEq]
    constructor
    · rintro rfl
      exact .inl held.2
    · rintro (same | ⟨crowded, -⟩)
      · exact h.unique i member _ record held.1 valid (held.2.1.trans same.1.symm)
          (held.2.2.trans same.2.symm)
      · exact absurd held.2 (crowded.fresh i member)
  | none =>
    have unheld := exactRecord_none exact
    rw [or_iff_right fun same => unheld _ record valid same.1 same.2]
    cases free : c.freeRecord with
    | some i =>
      have empty := List.find?_some free
      have member := List.mem_of_find?_eq_some free
      simp only [Option.some.injEq]
      constructor
      · rintro rfl
        rw [valid] at empty
        cases empty
      · rintro ⟨crowded, -⟩
        rw [crowded.full i member] at empty
        cases empty
    | none =>
      have full : ∀ i ∈ c.records, (c.entry i).valid = true := by
        simpa [freeRecord, List.find?_eq_none] using free
      simp only
      split
      · rename_i i idle
        split at idle
        · rename_i displaces
          have others := (leastRecent_spec idle).2
          simp only [decide_eq_true_eq] at others
          refine iff_of_false (fun same => others.1 (Option.some.inj same)) fun next => ?_
          have none := (idleRecord_eq_none full).mpr (next.1.idle displaces)
          rw [none] at idle
          cases idle
        · cases idle
      · rename_i noIdle
        split
        · rename_i i tail
          have spec := tail
          unfold editedTail at spec
          rw [if_pos (mem_records.mp record).2] at spec
          have others := (leastRecent_spec spec).2
          simp only [decide_eq_true_eq] at others
          refine iff_of_false (fun same => ?_) fun next => ?_
          · exact others.2.2.2.2.1 (Option.some.inj same)
          · have none := (editedTail_eq_none full record).mpr next.1.abandoned
            rw [none] at tail
            cases tail
        · rename_i noTail
          have crowded : c.Crowded p := {
            full := full
            fresh := fun i member same => unheld i member (full i member) same.1 same.2
            idle := fun displaces => by
              rw [if_pos displaces] at noIdle
              exact (idleRecord_eq_none full).mp noIdle
            abandoned := (editedTail_eq_none full record).mp noTail }
          rw [and_iff_right crowded, ← rankedSource_iff record valid]
          unfold RankedSource
          split
          · rename_i advances
            simp [advances]
          · rename_i stays
            simp [stays]

theorem retain_spares (h : Sound c) (record : p.sourceIndex ∈ c.records)
    (valid : (c.entry p.sourceIndex).valid = true) (bytes : UInt64) :
    (c.retain p bytes).Spares c p.sourceIndex ↔ ¬c.SourceNext p := by
  rw [← commitTarget_source h record valid]
  have held := (h.records _ record).valid
  rw [valid] at held
  unfold retain Committed.Spares
  split
  · rename_i found
    simp [found]
  · rename_i target exact found
    rw [found]
    by_cases same : target = p.sourceIndex
    · subst same
      refine iff_of_false (fun spared => ?_) (not_not.mpr rfl)
      simp only at spared
      split at spared
      · have emptied := congrArg Entry.snapshot spared.2
        unfold vacate at emptied
        rw [if_pos held.symm] at emptied
        simp only [entry_removeRecord_self (mem_records.mp record).2, Entry.emptied] at emptied
        rw [← emptied] at held
        cases held
      · exact spared.1 rfl
    · refine iff_of_true ?_ fun next => same (Option.some.inj next)
      have kept : (c.vacate target exact).1.entry p.sourceIndex = c.entry p.sourceIndex := by
        unfold vacate
        split
        · exact entry_removeRecord_of_ne same
        · rfl
      simp only
      split
      · exact ⟨fun next => (by cases next), kept⟩
      · rename_i installed
        refine ⟨fun next => same (Option.some.inj next), ?_⟩
        unfold install at installed
        simp only at installed
        split at installed
        · cases installed
        · cases installed
          exact (entry_update_of_ne same).trans kept

/-- The publication goes where the source is. -/
def TakesSource (payloadBytes : σ → UInt64) (c : Cache σ) (p : Publication σ) : Prop :=
  c.snapshotMode = true ∧ p.matchesReservation payloadBytes = true ∧ c.SourceNext p

theorem sourceNext_release {n : UInt64} : (c.release n).SourceNext p ↔ c.SourceNext p := by
  have entries : (c.release n).entries = c.entries := by
    unfold release
    split <;> rfl
  have records : (c.release n).records = c.records := by
    unfold release
    split <;> rfl
  have displaces : (c.release n).optionalCopiesDisplaceIdle = c.optionalCopiesDisplaceIdle := by
    unfold release
    split <;> rfl
  have priority (i : Nat) : (c.release n).priorityAt p i = c.priorityAt p i :=
    removalPriority_congr entries records i _ _
  have branch (i : Nat) : (c.release n).isBranchPoint i = c.isBranchPoint i :=
    isBranchPoint_congr entries records i
  have crowded : (c.release n).Crowded p ↔ c.Crowded p := by
    constructor <;> intro h
    · exact ⟨by simpa [records] using h.full, by simpa [records] using h.fresh,
        by simpa [records, displaces, Idle, branch] using h.idle,
        by simpa [records, Abandoned, priority] using h.abandoned⟩
    · exact ⟨by simpa [records] using h.full, by simpa [records] using h.fresh,
        by simpa [records, displaces, Idle, branch] using h.idle,
        by simpa [records, Abandoned, priority] using h.abandoned⟩
  simp [SourceNext, crowded, Cornered, records, priority]

/-- A publication that keeps its slot spares the source unless the record search ends there. -/
theorem commit_spares (h : Sound c) (payloadBytes : σ → UInt64)
    (covered : p.reservation ≤ c.reservedSnapshotBytes) (slot : p.index < c.stateCount)
    (stays : p.releaseState = false) (record : p.sourceIndex ∈ c.records)
    (valid : (c.entry p.sourceIndex).valid = true) :
    (c.commit payloadBytes p).Spares c p.sourceIndex ↔
      ¬c.TakesSource payloadBytes p := by
  unfold TakesSource
  have released : (c.release p.reservation).setLive p = c.release p.reservation := by
    simp [setLive, stays]
  have ne : p.index ≠ p.sourceIndex := by
    have := (mem_records.mp record).1
    omega
  unfold commit
  simp only [stays, Bool.false_eq_true, if_false]
  split
  · rename_i mode
    have sound := (h.release covered).1
    have same (i : Nat) : (c.release p.reservation).entry i = c.entry i := entry_release c _ i
    have records : (c.release p.reservation).records = c.records := by
      rw [release, if_pos covered]
      rfl
    unfold commitSnapshot
    simp only [released, covered, and_true]
    rw [and_iff_right mode]
    split
    · rename_i matches_
      have spares := retain_spares sound (records ▸ record) (same _ ▸ valid) (p.bytes payloadBytes)
      rw [and_iff_right matches_, ← sourceNext_release, ← spares]
      unfold Committed.Spares
      rw [same]
    · rename_i other
      refine iff_of_true ?_ fun taken => other taken.1
      split <;> exact ⟨fun next => (by cases next), same _⟩
  · rename_i mode
    refine iff_of_true ⟨fun next => (by cases next), ?_⟩ fun taken => mode taken.1
    unfold commitState
    simp only [release, if_pos covered]
    exact entry_update_of_ne ne

end

end Cache

/-! ## Leases -/

/-- In every reachable state a reservation that preserves the source of its lease leaves that
record alone, and a publication does exactly where the record search does not end there. -/
theorem preserved_source_iff (payloadBytes : σ → UInt64) {w : World σ}
    (h : Reachable payloadBytes w) {a : Nat} {l : Lease}
    (leased : w.objects[a]? = some (.leased l)) (record : l.sourceIndex ∈ w.cache.records)
    (valid : (w.cache.entry l.sourceIndex).valid = true) :
    (∀ bytes tokenCount purpose replacementPrefix w',
      w.step payloadBytes (.tryReserve a bytes tokenCount true purpose replacementPrefix) =
        some w' → w'.cache.entry l.sourceIndex = w.cache.entry l.sourceIndex) ∧
    ∀ tokens snapshot w', w.step payloadBytes (.publish a tokens snapshot true) = some w' →
      let done := w.cache.commit payloadBytes (l.publication tokens snapshot)
      w'.cache = done.cache ∧ (done.Spares w.cache l.sourceIndex ↔
        ¬w.cache.TakesSource payloadBytes (l.publication tokens snapshot)) := by
  have balanced := reachable_balanced h
  constructor
  · intro bytes tokenCount purpose replacementPrefix w' done
    simp only [World.step, World.onLease, leased, World.leaseStep, World.tryReserve] at done
    split at done
    · cases done
      rfl
    · obtain ⟨d, reserved, rfl⟩ := Option.map_eq_some_iff.mp done
      exact Cache.reserveSnapshot_source (r := l.reservation bytes tokenCount true purpose
        replacementPrefix) rfl reserved
  · intro tokens snapshot w' done
    simp only [World.step, World.onLease, leased, World.leaseStep, World.publish,
      Option.some.injEq] at done
    subst done
    exact ⟨rfl, Cache.commit_spares (p := l.publication tokens snapshot) balanced.sound
      payloadBytes (balanced.covers leased) (balanced.slot leased rfl) rfl record valid⟩

/-- Two records hold one conversation each, and a third request continues the first of them. -/
def continuedActions : List (Action UInt64) :=
  let m : Model UInt64 := ⟨fun _ => true, fun _ => true, fun _ _ => false⟩
  [.construct, .acquire 0 m { prompt := [1, 2] }, .acquired 0,
    .tryReserve 0 10 2 false .continuation [1, 2], .commit 0 [1, 2] (some 10) [1, 2],
    .acquire 0 m { prompt := [9, 9] }, .acquired 0,
    .tryReserve 0 10 2 false .continuation [9, 9], .commit 0 [9, 9] (some 10) [9, 9],
    .acquire 0 m { prompt := [1, 2, 3, 4] }, .acquired 0]

def twoRecords : Cache UInt64 where
  entries := [{}, { available := false }, { available := false }]
  stateCount := 1
  snapshotMode := true
  snapshotCapacityBytes := 100

def continued : World UInt64 := (World.run id { cache := twoRecords } continuedActions).getD
  { cache := twoRecords }

def continuedLease : Lease where
  index := 0
  cacheHit := true
  cachedTokens := 2
  sourceIndex := 1
  restoredSnapshotBytes := 10
  promptTokens := 4
  stablePrefixTokens := 0
  inputIdentity := []
  inputPrefixes := []

theorem Reachable.ran {payloadBytes : σ → UInt64} {w : World σ} {actions : List (Action σ)}
    (h : Reachable payloadBytes w) (ran : (w.run payloadBytes actions).isSome = true) :
    Reachable payloadBytes ((w.run payloadBytes actions).getD w) := by
  obtain ⟨w', done⟩ := Option.isSome_iff_exists.mp ran
  rw [done]
  exact h.run done

theorem continued_reachable : Reachable id continued := by
  have made : Cache.create 1 true 2 (some 100) = .ok twoRecords := rfl
  exact (Reachable.start made).ran (by decide)

theorem preserved_source_iff_continued :
    (∀ w', continued.step id (.tryReserve 0 10 3 true .continuation [1, 2, 3]) = some w' →
      w'.cache.entry 1 = continued.cache.entry 1) ∧
    (continued.cache.commit id (continuedLease.publication [] none)).Spares continued.cache 1 := by
  obtain ⟨reserve, publish⟩ := preserved_source_iff id continued_reachable (a := 0)
    (l := continuedLease) rfl (by decide) (by decide)
  refine ⟨reserve _ _ _ _, ((publish [] none _ rfl).2.mpr ?_)⟩
  exact fun taken => absurd taken.2.1 (by decide)

/-- Another conversation's last copy is kept, and the preserved source replaced. -/
theorem preserved_source_replaced : ∃ w w₁ w₂ : World UInt64, ∃ l, Reachable id w ∧
    w.objects[0]? = some (.leased l) ∧ l.sourceIndex = 1 ∧ l.cachedTokens = 2 ∧
    (w.cache.entry 1).valid = true ∧ (w.cache.entry 1).tokens = [1, 2] ∧
    w.step id (.tryReserve 0 10 3 true .continuation [1, 2, 3]) = some w₁ ∧
    w₁.step id (.publish 0 [1, 2, 3] (some 10) true) = some w₂ ∧
    (w₁.cache.entry 1).tokens = [1, 2] ∧ (w₂.cache.entry 1).tokens = [1, 2, 3] :=
  ⟨continued, _, _, continuedLease, continued_reachable, rfl, rfl, rfl, by decide, by decide, rfl,
    rfl, by decide, by decide⟩

end Gufo.Continuation
