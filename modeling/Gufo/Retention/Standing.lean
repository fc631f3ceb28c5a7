import Gufo.Retention.Protection

/-!
# The standing of a replaced record

A checkpoint captured again at a retained boundary replaces the old record there.
The new record is the only one at the boundary and stays a branch point. It stays
reused unless the old record was given up in the byte-pressure loop, where its
`reused_at` is not saved.

Checkpoint ids come from one counter, so an id names one checkpoint: `born`.
-/

namespace Gufo.Retention
open Policy

variable {object : ChunkRef → Chunk} {limit : Nat}

/-- What a conversation keeps of a record. -/
structure Standing (object : ChunkRef → Chunk) where
  checkpoint : Checkpoint object
  purpose : RetentionPurpose
  reusedAt : Option UInt64

def Record.standing (e : Record object limit) : Standing object :=
  ⟨e.checkpoint, e.purpose, e.reusedAt⟩

/-- The captures of a call carry the ids they were born with. -/
def Call.Named (born : CheckpointId → Checkpoint object) : Call object limit → Prop
  | .admit_ _ _ _ _ _ _ rounds => ∀ round ∈ rounds, ∀ c, round.checkpoint = some c → born c.id = c
  | _ => True

/-- A policy after calls whose captures allocate their ids from one counter. -/
inductive Reached (born : CheckpointId → Checkpoint object) : Policy object limit → Prop
  | start {s : Policy object limit} : construct object limit = some s → Reached born s
  | call {s t : Policy object limit} (c : Call object limit) :
      Reached born s → c.Named born → (c.run s).left = some t → Reached born t

/-- One boundary: the same compatibility, input and tokens. -/
structure SameBoundary (c d : Checkpoint object) : Prop where
  compatibility : c.compatibility = d.compatibility
  input : c.input = d.input
  tokens : c.tokens = d.tokens

variable {round : Round object limit}

namespace Policy
variable {s t u : Policy object limit} {r : RetentionRequest} {pinned : Fin limit → Bool}
  {ramBytes : UInt64} {i j target : Fin limit} {e : Record object limit}
  {exact_ : Option (Fin limit)} {purpose : RetentionPurpose} {c : Checkpoint object}
  {born : CheckpointId → Checkpoint object}

def standingAt (s : Policy object limit) (i : Fin limit) : Option (Standing object) :=
  (s.records i).map (·.standing)

theorem checkpointAt_eq_standing : s.checkpointAt i = (s.standingAt i).map (·.checkpoint) := by
  simp only [checkpointAt, standingAt, Option.map_map]
  rfl

/-! ## The standing through the operations -/

@[simp] theorem standingAt_emit (action : RetentionAction) (reason : RetentionReason)
    (id : CheckpointId) (boundary : Nat) (purpose : RetentionPurpose) (rank : Nat)
    (used : UInt64) :
    (s.emit action reason id boundary purpose rank used).standingAt i = s.standingAt i := by
  simp [standingAt]

theorem standingAt_vacate :
    (s.vacate i).standingAt j = if j = i then none else s.standingAt j := by
  simp only [standingAt, vacate]
  split
  · rfl
  · rw [Option.map_map]
    rfl

theorem standingAt_erase (reason : RetentionReason) (rank : Nat) :
    (s.erase i reason rank).standingAt j = if j = i then none else s.standingAt j := by
  cases at_i : s.records i with
  | none =>
    simp only [Policy.erase, at_i]
    split
    · rename_i same
      simp [standingAt, same, at_i]
    · rfl
  | some e =>
    rw [← standingAt_vacate, standingAt, erase_records s i reason rank at_i, standingAt]

theorem standingAt_relate (added : Fin limit) (c : Checkpoint object) :
    (s.relate added c).standingAt j = s.standingAt j := by
  have bits : (s.setBelow added c).standingAt j = s.standingAt j := by
    simp only [setBelow, standingAt, Option.map_map]
    rfl
  rw [← bits]
  unfold relate
  dsimp only
  split
  · rfl
  · split
    · simp only [standingAt]
      split
      · rw [Option.map_map]
        rfl
      · rfl
    · rfl

theorem standingAt_markReused (reused : Bool) (reusedAt : Option UInt64)
    (fresh : s.standingAt target = some ⟨c, purpose, none⟩) :
    (s.markReused target reused reusedAt).standingAt j =
      if j = target then some ⟨c, purpose, if reused then some s.admittedBytes else reusedAt⟩
      else s.standingAt j := by
  obtain ⟨f, at_f, eq⟩ := Option.map_eq_some_iff.mp fresh
  simp only [Record.standing, Standing.mk.injEq] at eq
  obtain ⟨rfl, rfl, never⟩ := eq
  by_cases same : j = target
  · subst same
    unfold markReused
    cases reused with
    | true => simp [standingAt, at_f, Record.standing]
    | false => cases reusedAt <;> simp [standingAt, at_f, Record.standing, never]
  · unfold markReused
    split
    · simp [standingAt, same]
    · rfl

@[simp] theorem emit_admittedBytes (action : RetentionAction) (reason : RetentionReason)
    (id : CheckpointId) (boundary : Nat) (purpose : RetentionPurpose) (rank : Nat)
    (used : UInt64) :
    (s.emit action reason id boundary purpose rank used).admittedBytes = s.admittedBytes := by
  unfold emit Policy.retainedPayloadBytes
  dsimp only
  split <;> rfl

theorem markReused_admittedBytes (reused : Bool) (reusedAt : Option UInt64) :
    (s.markReused target reused reusedAt).admittedBytes = s.admittedBytes := by
  unfold markReused
  split <;> rfl

/-- A stored record stands as this turn's, or as the record it replaces. -/
theorem standingAt_place (entry : UInt64) (reusedAt : Option UInt64) :
    (s.place target r purpose c entry reusedAt).standingAt j =
      if j = target then some ⟨c, purpose,
        if r.reused then some (s.place target r purpose c entry reusedAt).admittedBytes
        else reusedAt⟩
      else s.standingAt j := by
  have fresh (k : Fin limit) :
      (((s.fill target ⟨c, entry, purpose, r.stable, s.clock + 1, none, false,
        fun _ => false⟩).credit target).relate target c).standingAt k =
        if k = target then some ⟨c, purpose, none⟩ else s.standingAt k := by
    rw [standingAt_relate]
    simp only [credit, fill, standingAt]
    split <;> rfl
  have marked := standingAt_markReused (j := j) r.reused reusedAt
    ((fresh target).trans (if_pos rfl))
  simp only [place, standingAt_emit, emit_admittedBytes, markReused_admittedBytes]
  rw [marked]
  split
  · rfl
  · rename_i other
    rw [fresh, if_neg other]

/-! ## Storing a record -/

/-- The record stored in `target`, over policy `u` whose old record is in slot `exact_`. -/
structure StoredAs (u : Policy object limit) (r : RetentionRequest) (exact_ : Option (Fin limit))
    (purpose : RetentionPurpose) (c : Checkpoint object) (target : Fin limit)
    (t : Policy object limit) : Prop where
  placed : t.standingAt target = some ⟨c, purpose,
    if r.reused then some t.admittedBytes else (exact_.bind u.standingAt).bind (·.reusedAt)⟩
  others : ∀ j, j ≠ target → t.standingAt j = none ∨
    (t.standingAt j = u.standingAt j ∧ exact_ ≠ some j)

theorem publish_spec {entry : UInt64} {reusedAt : Option UInt64}
    (left : (s.publish r purpose c entry reusedAt).left = some t) :
    s.publish r purpose c entry reusedAt = .returned true t ∧ ∃ target, ∀ j,
      t.standingAt j = if j = target then some ⟨c, purpose,
          if r.reused then some t.admittedBytes else reusedAt⟩
        else s.standingAt j := by
  unfold publish at left ⊢
  cases free : s.freeSlot with
  | none =>
    rw [free] at left
    cases left
  | some target =>
    rw [free] at left
    cases left
    exact ⟨rfl, target, fun j => standingAt_place entry reusedAt⟩

/-- A round that stores its record, or is refused because the index keeps the old one. -/
theorem storedRound_spec
    (left : (s.storedRound r ramBytes exact_ purpose round c).left = some t) :
    (s.storedRound r ramBytes exact_ purpose round c = .returned false t ∧
        ∀ j, t.standingAt j = s.standingAt j) ∨
      ∃ target, StoredAs s r exact_ purpose c target t := by
  unfold storedRound at left ⊢
  cases way : s.makesWay r exact_ round.persisting ramBytes with
  | none =>
    rw [way] at left
    cases left
  | some chosen =>
    rw [way] at left
    -- Either the old record makes way, or its slot is empty.
    unfold makesWay at way
    cases chosen with
    | none =>
      obtain ⟨-, target, placed⟩ := publish_spec left
      have empty : ∀ i, exact_ = some i → s.standingAt i = none := by
        split at way
        · cases way
        · rename_i vacant
          simpa [Option.filter_eq_none_iff, standingAt] using vacant
      refine .inr ⟨target, ?_, fun j other => ?_⟩
      · rw [placed, if_pos rfl]
        cases exact_ with
        | none => rfl
        | some i => rw [Option.bind_some, empty i rfl]; rfl
      · rw [placed, if_neg other]
        cases at_j : s.standingAt j with
        | none => exact .inl rfl
        | some standing => exact .inr ⟨rfl, fun same => by rw [empty j same] at at_j; cases at_j⟩
    | some pair =>
      obtain ⟨victim, reason⟩ := pair
      dsimp only at left ⊢
      by_cases drop : round.dropFails = true
      · rw [if_pos drop] at left ⊢
        cases left
        exact .inl ⟨rfl, fun j => standingAt_emit _ _ _ _ _ _ _⟩
      · rw [if_neg drop] at left ⊢
        obtain ⟨-, target, placed⟩ := publish_spec left
        refine .inr ⟨target, ?_, fun j other => ?_⟩
        · rw [placed, if_pos rfl]
          split at way
          · rename_i i kept
            cases way
            obtain ⟨rfl, -⟩ := Option.filter_eq_some_iff.mp kept
            simp only [if_true, Option.bind_some, standingAt]
            cases s.records victim <;> rfl
          · rename_i vacant
            have unexpected : reason ≠ .exactReplacement := by
              split at way
              · split at way
                · cases way
                · cases way
                  split <;> simp
              · cases way
            rw [if_neg unexpected]
            cases exact_ with
            | none => rfl
            | some i =>
              have empty : s.standingAt i = none := by
                simpa [Option.filter_eq_none_iff, standingAt] using vacant
              rw [Option.bind_some, empty]
              rfl
        · rw [placed, if_neg other, standingAt_erase]
          by_cases erased : j = victim
          · exact .inl (if_pos erased)
          · rw [if_neg erased]
            cases at_j : s.standingAt j with
            | none => exact .inl rfl
            | some standing =>
              refine .inr ⟨rfl, ?_⟩
              rintro rfl
              split at way
              · rename_i i kept
                cases way
                exact erased (Option.some.inj (Option.filter_eq_some_iff.mp kept).1)
              · rename_i vacant
                have empty : s.standingAt j = none := by
                  simpa [Option.filter_eq_none_iff, standingAt] using vacant
                rw [empty] at at_j
                cases at_j

/-- **The rule of the retry loop.** What every eviction keeps holds of the policy that the last
round starts from. -/
theorem loop_rule {P : Policy object limit → Prop}
    (keeps : ∀ u round m, P u → u.evictedRemoval r exact_ ramBytes round = some m → P m.after)
    (rounds : List (Round object limit)) (u : Policy object limit) (hu : P u)
    (left : (admitLoop r ramBytes exact_ purpose rounds u).left = some t) :
    ∃ u', P u' ∧
      ((admitLoop r ramBytes exact_ purpose rounds u ≠ .returned true t ∧
          ∀ j, t.standingAt j = u'.standingAt j) ∨
        ∃ round ∈ rounds, ∃ c target, round.verdict r = .stored c ∧
          StoredAs u' r exact_ purpose c target t) := by
  induction rounds generalizing u with
  | nil => cases left
  | cons round rest ih =>
    rw [admitLoop_cons] at left ⊢
    cases verdict : round.verdict r with
    | refused reason =>
      rw [verdict] at left
      cases left
      exact ⟨u, hu, .inl ⟨by simp [refuse], fun j => standingAt_emit _ _ _ _ _ _ _⟩⟩
    | exhausted =>
      rw [verdict] at left
      cases evicted_ : u.evictedRemoval r exact_ ramBytes round with
      | none =>
        rw [evicted_] at left
        cases left
        exact ⟨u, hu, .inl ⟨by simp [refuse], fun j => standingAt_emit _ _ _ _ _ _ _⟩⟩
      | some m =>
        rw [evicted_] at left
        dsimp only at left ⊢
        by_cases drop : round.dropFailsLater = true
        · rw [if_pos drop] at left ⊢
          cases left
          exact ⟨t, hu, .inl ⟨by simp, fun _ => rfl⟩⟩
        · rw [if_neg drop] at left ⊢
          obtain ⟨u', hu', ends⟩ := ih m.after (keeps u round m hu evicted_) left
          refine ⟨u', hu', ends.imp_right ?_⟩
          rintro ⟨round', later, stored⟩
          exact ⟨round', List.mem_cons_of_mem _ later, stored⟩
    | stored c =>
      rw [verdict] at left
      rcases storedRound_spec left with ⟨refused, same⟩ | ⟨target, stored⟩
      · exact ⟨u, hu, .inl ⟨by simp [refused], same⟩⟩
      · exact ⟨u, hu, .inr ⟨round, List.mem_cons_self, c, target, verdict, stored⟩⟩

theorem verdict_stored (h : round.verdict r = .stored c) :
    round.checkpoint = some c ∧ matchesRequest c r = true := by
  unfold Round.verdict at h
  split at h
  · cases h
  · split at h
    · cases h
    · cases h
    · cases h
    · rename_i d _ captured
      split at h
      · cases h
      · rename_i asked
        split at h
        · cases h
        · split at h
          · cases h
          · cases h
          · cases h
            refine ⟨captured, ?_⟩
            simp only [Bool.or_eq_true, not_or, Bool.not_eq_true', Bool.not_eq_false] at asked
            exact asked.2

/-! ## One record for each boundary -/

theorem matchesRequest_iff : matchesRequest c r = true ↔
    c.compatibility = r.compatibility ∧ c.input = r.input ∧ c.tokens = r.tokens := by
  simp [matchesRequest, and_assoc]

variable {d : Checkpoint object}

theorem matches_of_sameBoundary (h : SameBoundary c d)
    (asked : matchesRequest c r = true) : matchesRequest d r = true := by
  rw [matchesRequest_iff] at asked ⊢
  exact ⟨h.compatibility ▸ asked.1, h.input ▸ asked.2.1, h.tokens ▸ asked.2.2⟩

theorem sameBoundary_of_matches (hc : matchesRequest c r = true)
    (hd : matchesRequest d r = true) : SameBoundary c d := by
  rw [matchesRequest_iff] at hc hd
  exact ⟨hc.1.trans hd.1.symm, hc.2.1.trans hd.2.1.symm, hc.2.2.trans hd.2.2.symm⟩

structure Identified (born : CheckpointId → Checkpoint object) (s : Policy object limit) :
    Prop where
  named : ∀ i c, s.checkpointAt i = some c → born c.id = c
  single : ∀ i j c d, s.checkpointAt i = some c → s.checkpointAt j = some d →
    SameBoundary c d → i = j

theorem Identified.shrinks (h : s.Identified born) (less : t.Shrinks s) : t.Identified born where
  named i c at_i := h.named i c (less i c at_i)
  single i j c d at_i at_j := h.single i j c d (less i c at_i) (less j d at_j)

/-- A checkpoint's id is that of one slot. -/
theorem Identified.slot (h : s.Identified born) {c d : Checkpoint object}
    (at_i : s.checkpointAt i = some c) (at_j : s.checkpointAt j = some d) (id : c.id = d.id) :
    i = j := by
  have same : c = d := by rw [← h.named i c at_i, id, h.named j d at_j]
  exact h.single i j c d at_i at_j (same ▸ ⟨rfl, rfl, rfl⟩)

/-- A record at the requested boundary can only be in slot `exact_`. -/
def OldAt (s : Policy object limit) (r : RetentionRequest) (exact_ : Option (Fin limit)) : Prop :=
  ∀ j d, s.checkpointAt j = some d → matchesRequest d r = true → exact_ = some j

theorem OldAt.shrinks (h : s.OldAt r exact_) (less : t.Shrinks s) : t.OldAt r exact_ :=
  fun j d at_j => h j d (less j d at_j)

theorem exactMatch_spec (h : s.exactMatch r = some i) :
    ∃ c, s.checkpointAt i = some c ∧ matchesRequest c r = true := by
  have met := List.find?_some h
  exact (Option.any_eq_true _ _).mp met

theorem Identified.oldAt (h : s.Identified born) : s.OldAt r (s.exactMatch r) := by
  intro j d at_j asked
  cases found : s.exactMatch r with
  | none =>
    have unmatched := List.find?_eq_none.mp found j (List.mem_finRange j)
    rw [at_j] at unmatched
    exact absurd asked unmatched
  | some i =>
    obtain ⟨c, at_i, asked'⟩ := exactMatch_spec found
    rw [h.single i j c d at_i at_j (sameBoundary_of_matches asked' asked)]

theorem shrinks_of_checkpoints (same : ∀ j, t.checkpointAt j = s.checkpointAt j) :
    t.Shrinks s := fun j _ at_j => same j ▸ at_j

/-- What else is retained after a record was stored. -/
theorem StoredAs.other (h : StoredAs u r exact_ purpose c target t)
    (only : u.OldAt r exact_) (at_j : t.checkpointAt j = some d) (apart : j ≠ target) :
    u.checkpointAt j = some d ∧ matchesRequest d r = false := by
  rw [checkpointAt_eq_standing] at at_j
  rcases h.others j apart with empty | ⟨same, other⟩
  · rw [empty] at at_j
    cases at_j
  · rw [same, ← checkpointAt_eq_standing] at at_j
    refine ⟨at_j, ?_⟩
    rw [← Bool.not_eq_true]
    exact fun asked => other (only j d at_j asked)

theorem StoredAs.new (h : StoredAs u r exact_ purpose c target t) :
    t.checkpointAt target = some c := by
  rw [checkpointAt_eq_standing, h.placed]
  rfl

theorem StoredAs.identified (h : StoredAs u r exact_ purpose c target t) (hu : u.Identified born)
    (only : u.OldAt r exact_) (asked : matchesRequest c r = true) (known : born c.id = c) :
    t.Identified born where
  named j d at_j := by
    by_cases same : j = target
    · rw [same, h.new] at at_j
      cases at_j
      exact known
    · exact hu.named j d (h.other only at_j same).1
  single i j d f at_i at_j boundary := by
    by_cases hi : i = target
    · by_cases hj : j = target
      · rw [hi, hj]
      · rw [hi, h.new] at at_i
        cases at_i
        have := (h.other only at_j hj).2
        rw [matches_of_sameBoundary boundary asked] at this
        cases this
    · by_cases hj : j = target
      · rw [hj, h.new] at at_j
        cases at_j
        have apart := (h.other only at_i hi).2
        have back : SameBoundary c d := ⟨boundary.compatibility.symm, boundary.input.symm,
          boundary.tokens.symm⟩
        rw [matches_of_sameBoundary back asked] at apart
        cases apart
      · exact hu.single i j d f (h.other only at_i hi).1 (h.other only at_j hj).1 boundary

theorem evictedRemoval_shrinks {m : Removal object limit}
    (less : u.Shrinks s) (h : u.evictedRemoval r exact_ ramBytes round = some m) :
    m.after.Shrinks s := by
  have before := (evictedRemoval_occupied h).1
  exact Shrinks.erase (before ▸ less) _ _

theorem Identified.loop (h : s.Identified born) (only : s.OldAt r exact_)
    (rounds : List (Round object limit))
    (named : ∀ round ∈ rounds, ∀ c, round.checkpoint = some c → born c.id = c)
    (left : (admitLoop r ramBytes exact_ purpose rounds s).left = some t) : t.Identified born := by
  obtain ⟨u, less, ends⟩ := loop_rule (P := fun u => u.Shrinks s)
    (fun u round m hu evicted_ => evictedRemoval_shrinks hu evicted_) rounds s (Shrinks.refl s) left
  rcases ends with ⟨-, same⟩ | ⟨round, member, c, target, verdict, stored⟩
  · refine (h.shrinks less).shrinks (shrinks_of_checkpoints fun j => ?_)
    rw [checkpointAt_eq_standing, same, ← checkpointAt_eq_standing]
  · obtain ⟨captured, asked⟩ := verdict_stored verdict
    exact stored.identified (h.shrinks less) (only.shrinks less) asked
      (named round member c captured)

theorem checkpointAt_emit (action : RetentionAction) (reason : RetentionReason)
    (id : CheckpointId) (boundary : Nat) (purpose : RetentionPurpose) (rank : Nat)
    (used : UInt64) :
    (s.emit action reason id boundary purpose rank used).checkpointAt j = s.checkpointAt j := by
  simp [checkpointAt]

theorem Identified.run (h : s.Identified born) (c : Call object limit) (named : c.Named born)
    (left : (c.run s).left = some t) : t.Identified born := by
  cases c with
  | admit_ r limits stopped hasCapture pinned pinnedLater rounds =>
    simp only [Call.run, admit_eq] at left
    split at left
    · cases left
      exact h.shrinks (shrinks_of_checkpoints fun j => checkpointAt_emit _ _ _ _ _ _ _)
    · split at left
      · cases left
        exact h.shrinks (shrinks_of_checkpoints fun j => checkpointAt_emit _ _ _ _ _ _ _)
      · exact h.loop h.oldAt rounds named left
  | reclaim r limits pinned dropFails =>
    simp only [Call.run, reclaim] at left
    split at left
    · cases left
      exact h
    · split at left
      · cases left
        exact h
      · split at left
        · cases left
          exact h
        · cases left
          exact h.shrinks ((Shrinks.refl s).erase _ _)
  | touch id =>
    simp only [Call.run, touch] at left
    split at left
    · cases left
      exact h
    · rename_i i e found
      obtain ⟨k, -, eq⟩ := Option.bind_eq_some_iff.mp found
      obtain ⟨f, at_k, eq⟩ := Option.map_eq_some_iff.mp eq
      cases eq
      cases left
      refine h.shrinks (shrinks_of_checkpoints fun j => ?_)
      rw [checkpointAt_emit]
      simp only [checkpointAt]
      split
      · rename_i same
        rw [same, at_k]
        rfl
      · rfl
  | remove id dropFails =>
    simp only [Call.run, remove] at left
    split at left
    · cases left
      exact h
    · split at left
      · cases left
        exact h
      · cases left
        exact h.shrinks ((Shrinks.refl s).erase _ _)
  | retainedPayloadBytes =>
    cases left
    refine h.shrinks (shrinks_of_checkpoints fun j => ?_)
    unfold Policy.retainedPayloadBytes
    split <;> rfl

end Policy

theorem Reached.identified {born : CheckpointId → Checkpoint object} {s : Policy object limit}
    (h : Reached born s) : s.Identified born := by
  induction h with
  | start built =>
    unfold construct at built
    split at built
    · cases built
    · cases built
      refine ⟨fun i c at_i => ?_, fun i j c d at_i => ?_⟩
      · cases at_i
      · cases at_i
  | call c _ named left ih => exact ih.run c named left

/-! ## What becomes of the old record -/

namespace Policy
variable {s t u : Policy object limit} {r : RetentionRequest} {pinned : Fin limit → Bool}
  {ramBytes : UInt64} {i : Fin limit} {e : Record object limit}
  {exact_ : Option (Fin limit)} {purpose : RetentionPurpose}
  {born : CheckpointId → Checkpoint object}

/-- A preserved source is a victim of byte pressure only for a request that continues it. -/
theorem preserved_source_victim (h : s.victim r false pinned ramBytes = some i)
    (source : s.find r.source = some i) (at_i : s.records i = some e)
    (preserved : r.preserveSource = true) : continuedBy e.checkpoint r = true := by
  have no_candidate : ¬s.Candidate r false pinned i := fun candidate => candidate.2 source
  have not_target : ((List.finRange limit).foldl
      (s.select r false pinned ramBytes) {}).target ≠ some i := by
    intro target
    rcases (fold_target (List.finRange limit) {}).2 i target with empty | candidate
    · cases empty
    · exact no_candidate candidate
  unfold victim at h
  split at h
  · rename_i tail found
    cases h
    exact absurd (editedTail_candidate found) no_candidate
  · dsimp only at h
    split at h
    · rename_i replaced
      have replaces := (Bool.and_eq_true_iff.mp replaced).2
      have at_source : s.sourceRecord r = some (i, e) := by simp [sourceRecord, source, at_i]
      unfold replacesSource at replaces
      rw [at_source, Option.any_some] at replaces
      simp only [Bool.and_eq_true] at replaces
      exact replaces.2.1.2
    · split at h
      · exact absurd h not_target
      · split at h
        · rename_i yields
          simp [advancesSource, onlySource, preserved] at yields
        · exact absurd h not_target

theorem not_continued (asked : matchesRequest e.checkpoint r = true) :
    continuedBy e.checkpoint r = false := by
  have tokens := (matchesRequest_iff.mp asked).2.2
  simp [continuedBy, Checkpoint.boundary, tokens]

theorem givenUp_eq_none (at_i : s.records i = some e) (kept : s.givenUp r (some i) = none) :
    e.checkpoint.id ∈ r.protectedCheckpoints ∨
      (e.checkpoint.id = r.source ∧ r.preserveSource = true) := by
  have unmet := Option.filter_eq_none_iff.mp kept i rfl
  rw [checkpointAt_of_records at_i, Option.any_some] at unmet
  by_cases listed : e.checkpoint.id ∈ r.protectedCheckpoints
  · exact .inl listed
  · simpa [listed] using unmet

theorem records_of_standing {standing : Standing object} (h : u.standingAt i = some standing) :
    ∃ f, u.records i = some f ∧ f.standing = standing :=
  Option.map_eq_some_iff.mp h

/-- An old record that is not given up outlives every round. -/
theorem old_kept (h : u.Identified born) {e : Record object limit}
    (at_i : u.standingAt i = some e.standing) (asked : matchesRequest e.checkpoint r = true)
    (kept : u.givenUp r (some i) = none) {m : Removal object limit}
    (evicted_ : u.evictedRemoval r (some i) ramBytes round = some m) :
    m.after.standingAt i = some e.standing := by
  obtain ⟨f, at_f, same⟩ := records_of_standing at_i
  have checkpoint : f.checkpoint = e.checkpoint := congrArg Standing.checkpoint same
  obtain ⟨target, chosen, rfl⟩ := Option.map_eq_some_iff.mp evicted_
  rw [evicted_eq, kept] at chosen
  have other : i ≠ target := by
    rintro rfl
    rcases givenUp_eq_none at_f kept with listed | ⟨source, preserved⟩
    · exact (victim_spec chosen at_f).2.1 listed
    · have found : u.find r.source = some i := by
        cases search : u.find r.source with
        | none =>
          have unmatched := List.find?_eq_none.mp search i (List.mem_finRange i)
          rw [checkpointAt_of_records at_f, Option.any_some, source] at unmatched
          exact absurd (beq_self_eq_true _) unmatched
        | some k =>
          have met := List.find?_some search
          obtain ⟨c, at_k, id⟩ := (Option.any_eq_true _ _).mp met
          have ids : c.id = f.checkpoint.id := (beq_iff_eq.mp id).trans source.symm
          rw [h.slot at_k (checkpointAt_of_records at_f) ids]
      have continued := preserved_source_victim chosen found at_f preserved
      rw [not_continued (checkpoint ▸ asked)] at continued
      cases continued
  simp only [Removal.after]
  rw [standingAt_erase, if_neg other, at_i]

/-- The first capture failed for want of room. -/
def FirstExhausted (r : RetentionRequest) (rounds : List (Round object limit)) : Prop :=
  ∃ round, rounds.head? = some round ∧ round.verdict r = .exhausted

/-- The policy over which a successful admission stores its record: the old record is gone
exactly when the first capture cost it its place. -/
theorem stored_over (h : s.Identified born) (at_i : s.records i = some e)
    (asked : matchesRequest e.checkpoint r = true) (rounds : List (Round object limit))
    (ok : admitLoop r ramBytes (some i) purpose rounds s = .returned true t) :
    ∃ u c target, u.Shrinks s ∧ matchesRequest c r = true ∧
      StoredAs u r (some i) purpose c target t ∧
      ((FirstExhausted r rounds ∧ s.givenUp r (some i) = some i) ∧ u.standingAt i = none ∨
        ¬(FirstExhausted r rounds ∧ s.givenUp r (some i) = some i) ∧
          u.standingAt i = some e.standing) := by
  have standing : s.standingAt i = some e.standing := by simp [standingAt, at_i]
  -- The loop rule, with the outcome known to be a stored record.
  have stores (P : Policy object limit → Prop)
      (keeps : ∀ u round m, P u → u.evictedRemoval r (some i) ramBytes round = some m → P m.after)
      (rounds : List (Round object limit)) (v : Policy object limit) (hv : P v)
      (ok : admitLoop r ramBytes (some i) purpose rounds v = .returned true t) :
      ∃ u c target, P u ∧ matchesRequest c r = true ∧
        StoredAs u r (some i) purpose c target t := by
    obtain ⟨u, hu, ends⟩ := loop_rule keeps rounds v hv (by rw [ok]; rfl)
    rcases ends with ⟨fails, -⟩ | ⟨round, -, c, target, verdict, stored⟩
    · exact absurd ok fails
    · exact ⟨u, c, target, hu, (verdict_stored verdict).2, stored⟩
  by_cases costs : FirstExhausted r rounds ∧ s.givenUp r (some i) = some i
  · have lost := costs
    obtain ⟨⟨round, head, verdict⟩, given⟩ := costs
    obtain ⟨rest, rfl⟩ := List.head?_eq_some_iff.mp head
    rw [admitLoop_cons, verdict] at ok
    cases evicted_ : s.evictedRemoval r (some i) ramBytes round with
    | none =>
      rw [evicted_] at ok
      simp [refuse] at ok
    | some m =>
      rw [evicted_] at ok
      dsimp only at ok
      split at ok
      · cases ok
      · have gone : m.after.standingAt i = none := by
          obtain ⟨target, chosen, rfl⟩ := Option.map_eq_some_iff.mp evicted_
          rw [evicted_eq, given] at chosen
          cases chosen
          simp only [Removal.after]
          rw [standingAt_erase, if_pos rfl]
        have keeps (u : Policy object limit) (round : Round object limit)
            (n : Removal object limit) (hu : u.Shrinks s ∧ u.standingAt i = none)
            (next : u.evictedRemoval r (some i) ramBytes round = some n) :
            n.after.Shrinks s ∧ n.after.standingAt i = none := by
          refine ⟨evictedRemoval_shrinks hu.1 next, ?_⟩
          have before := (evictedRemoval_occupied next).1
          rw [Removal.after, standingAt_erase, before, hu.2]
          split <;> rfl
        obtain ⟨u, c, target, hu, matched, stored⟩ := stores _ keeps rest m.after
          ⟨evictedRemoval_shrinks (Shrinks.refl s) evicted_, gone⟩ ok
        exact ⟨u, c, target, hu.1, matched, stored, .inl ⟨lost, hu.2⟩⟩
  · by_cases first : FirstExhausted r rounds
    · -- The old record is not given up, in this round or a later one.
      have kept : s.givenUp r (some i) = none := by
        cases given : s.givenUp r (some i) with
        | none => rfl
        | some j =>
          obtain ⟨same, -⟩ := givenUp_spec given
          cases same
          exact absurd ⟨first, given⟩ costs
      have keeps (u : Policy object limit) (round : Round object limit)
          (n : Removal object limit)
          (hu : u.Shrinks s ∧ u.standingAt i = some e.standing)
          (next : u.evictedRemoval r (some i) ramBytes round = some n) :
          n.after.Shrinks s ∧ n.after.standingAt i = some e.standing :=
        ⟨evictedRemoval_shrinks hu.1 next,
          old_kept (h.shrinks hu.1) hu.2 asked (givenUp_shrinks hu.1 kept) next⟩
      obtain ⟨u, c, target, hu, matched, stored⟩ :=
        stores _ keeps rounds s ⟨Shrinks.refl s, standing⟩ ok
      exact ⟨u, c, target, hu.1, matched, stored, .inr ⟨costs, hu.2⟩⟩
    · -- The first capture is the last one.
      cases rounds with
      | nil => cases ok
      | cons round rest =>
        rw [admitLoop_cons] at ok
        cases verdict : round.verdict r with
        | refused reason =>
          rw [verdict] at ok
          simp [refuse] at ok
        | exhausted => exact absurd ⟨round, rfl, verdict⟩ first
        | stored c =>
          rw [verdict] at ok
          dsimp only at ok
          rcases storedRound_spec (by rw [ok]; rfl) with ⟨fails, -⟩ | ⟨target, stored⟩
          · rw [ok] at fails
            cases fails
          · exact ⟨s, c, target, Shrinks.refl s, (verdict_stored verdict).2, stored,
              .inr ⟨costs, standing⟩⟩

/-! ## The new record's standing -/

/-- The conversation keeps the standing that its old record `e` had. -/
structure KeepsStanding (e : Record object limit) (r : RetentionRequest)
    (t : Policy object limit) : Prop where
  single : ∃! j, ∃ f, t.records j = some f ∧ matchesRequest f.checkpoint r = true
  branch : e.purpose = .branchPoint → ∀ j f, t.records j = some f →
    matchesRequest f.checkpoint r = true → f.purpose = .branchPoint
  reused : e.reusedAt.isSome → ∀ j f, t.records j = some f →
    matchesRequest f.checkpoint r = true →
    f.reusedAt = e.reusedAt ∨ f.reusedAt = some t.admittedBytes

/-- A reused record that may be given up, and is in the first round of a request that reused
nothing itself. -/
structure LosesReuse (e : Record object limit) (r : RetentionRequest)
    (rounds : List (Round object limit)) : Prop where
  reused : e.reusedAt.isSome
  cold : r.reused = false
  exhausted : FirstExhausted r rounds
  unprotected : e.checkpoint.id ∉ r.protectedCheckpoints
  yielding : e.checkpoint.id ≠ r.source ∨ r.preserveSource = false

theorem keptPurpose_eq (at_i : s.records i = some e) (found : s.exactMatch r = some i) :
    s.keptPurpose r = if e.purpose = .branchPoint then .branchPoint else r.purpose := by
  simp [keptPurpose, found, at_i]

theorem givenUp_iff (at_i : s.records i = some e) : s.givenUp r (some i) = some i ↔
    e.checkpoint.id ∉ r.protectedCheckpoints ∧
      (e.checkpoint.id ≠ r.source ∨ r.preserveSource = false) := by
  constructor
  · intro given
    obtain ⟨-, f, at_f, spec⟩ := givenUp_spec given
    rw [at_i] at at_f
    cases at_f
    exact spec
  · rintro ⟨unprotected, yielding⟩
    simp only [givenUp, Option.filter_some, checkpointAt_of_records at_i, Option.any_some]
    rw [if_pos]
    simpa [unprotected] using yielding

end Policy

/-- **An exact replacement keeps its conversation's standing**, exactly when it is not a reused
record given up by a request that reused nothing: one record has the boundary, it is a branch
point if the old one was, and it counts as reused if the old one did. -/
theorem exact_standing_iff {born : CheckpointId → Checkpoint object} {s t : Policy object limit}
    (h : Reached born s) {i : Fin limit} {e : Record object limit} (at_i : s.records i = some e)
    {r : RetentionRequest} (asked : matchesRequest e.checkpoint r = true) {limits : LedgerLimits}
    {stopped hasCapture : Bool} {pinned pinnedLater : Fin limit → Bool}
    {rounds : List (Round object limit)}
    (ok : s.admit_ r limits stopped hasCapture pinned pinnedLater rounds = .returned true t) :
    KeepsStanding e r t ↔ ¬LosesReuse e r rounds := by
  have identified := h.identified
  have found : s.exactMatch r = some i := identified.oldAt i _ (checkpointAt_of_records at_i) asked
  rw [admit_eq] at ok
  split at ok
  · simp [refuse] at ok
  · split at ok
    · simp [refuse] at ok
    · rw [found, keptPurpose_eq at_i found] at ok
      obtain ⟨u, c, target, less, matched, stored, old⟩ :=
        stored_over identified at_i asked rounds ok
      have only : u.OldAt r (some i) := found ▸ identified.oldAt.shrinks less
      -- The stored record is the one at the boundary.
      obtain ⟨f, at_target, standing⟩ := records_of_standing stored.placed
      simp only [Record.standing, Standing.mk.injEq, Option.bind_some] at standing
      obtain ⟨checkpoint, purpose, reusedAt⟩ := standing
      have alone : ∀ j g, t.records j = some g → matchesRequest g.checkpoint r = true →
          j = target := by
        intro j g at_j matched'
        by_contra apart
        have := (stored.other only (checkpointAt_of_records at_j) apart).2
        rw [matched'] at this
        cases this
      have same : ∀ j g, t.records j = some g → matchesRequest g.checkpoint r = true → g = f := by
        intro j g at_j matched'
        rw [alone j g at_j matched', at_target] at at_j
        exact (Option.some.inj at_j).symm
      rw [givenUp_iff at_i] at old
      have at_boundary : matchesRequest f.checkpoint r = true := checkpoint ▸ matched
      constructor
      · intro keeps loses
        have gone : u.standingAt i = none := by
          rcases old with ⟨-, gone⟩ | ⟨held, -⟩
          · exact gone
          · exact absurd ⟨loses.exhausted, loses.unprotected, loses.yielding⟩ held
        have kept := keeps.reused loses.reused target f at_target at_boundary
        have never : f.reusedAt = none := by
          rw [reusedAt, loses.cold, gone]
          rfl
        rw [never] at kept
        rcases kept with lost | now
        · have reused := loses.reused
          rw [← lost] at reused
          cases reused
        · cases now
      · intro kept
        refine ⟨⟨target, ⟨f, at_target, at_boundary⟩, ?_⟩, ?_, ?_⟩
        · rintro j ⟨g, at_j, matched'⟩
          exact alone j g at_j matched'
        · intro branch j g at_j matched'
          rw [same j g at_j matched', purpose, if_pos branch]
        · intro reused j g at_j matched'
          rw [same j g at_j matched', reusedAt]
          cases cold : r.reused with
          | true => exact .inr rfl
          | false =>
            rcases old with ⟨⟨exhausted, unprotected, yielding⟩, -⟩ | ⟨-, held⟩
            · exact absurd ⟨reused, cold, exhausted, unprotected, yielding⟩ kept
            · rw [held]
              exact .inl rfl

/-! ## A reused conversation captured again -/

/-- Every id's checkpoint, of sixteen rows. -/
def sampleBorn (id : CheckpointId) : Checkpoint sampleObject := sampleCheckpoint id 1

/-- A turn that restored a cached prefix admits the boundary. -/
def reusedAdmit : Call sampleObject 2 :=
  .admit_ { sampleRequest with reused := true } ⟨4096, 4096⟩ false true (fun _ => false)
    (fun _ => false) [{ checkpoint := some (sampleBorn 1), entry := 1 }]

def reusedTurn : Option (Policy sampleObject 2) :=
  (construct sampleObject 2).bind fun s => (reusedAdmit.run s).left

/-- The rounds of a later admission of the boundary, which finds room at once or not. -/
def laterRounds (exhausted : Bool) : List (Round sampleObject 2) :=
  (if exhausted then [{ captured := .exhausted }] else []) ++
    [{ checkpoint := some (sampleBorn 2), entry := 2 }]

def admitLater (exhausted : Bool) (s : Policy sampleObject 2) : Outcome sampleObject 2 :=
  s.admit_ sampleRequest ⟨4096, 4096⟩ false true (fun _ => false) (fun _ => false)
    (laterRounds exhausted)

/-- The policy of a successful admission. -/
def Outcome.admitted : Outcome object limit → Option (Policy object limit)
  | .returned true t => some t
  | _ => none

theorem Outcome.admitted_eq {o : Outcome object limit} {t : Policy object limit}
    (h : o.admitted = some t) : o = .returned true t := by
  unfold Outcome.admitted at h
  split at h
  · cases h
    rfl
  · cases h

/-- The reused record of the first turn. -/
theorem reusedTurn_spec : ∃ s e, reusedTurn = some s ∧ Reached sampleBorn s ∧
    s.records 0 = some e ∧ matchesRequest e.checkpoint sampleRequest = true ∧
    e.reusedAt.isSome = true := by
  have ends : reusedTurn.isSome = true := by decide
  obtain ⟨s, eq⟩ := Option.isSome_iff_exists.mp ends
  obtain ⟨s₀, built, first⟩ := Option.bind_eq_some_iff.mp eq
  have reused : reusedTurn.any (fun s => (s.records 0).any fun e =>
      matchesRequest e.checkpoint sampleRequest && e.reusedAt.isSome) = true := by decide
  rw [eq, Option.any_some, Option.any_eq_true] at reused
  obtain ⟨e, at_0, met⟩ := reused
  have named : reusedAdmit.Named sampleBorn := by
    intro round member c captured
    rw [List.mem_singleton.mp member] at captured
    cases captured
    rfl
  exact ⟨s, e, eq, .call _ (.start built) named first, at_0, Bool.and_eq_true_iff.mp met⟩

/-- A capture that succeeds at once keeps the reuse. -/
theorem exact_standing_at_once : ∃ s e t, reusedTurn = some s ∧ s.records 0 = some e ∧
    e.reusedAt.isSome = true ∧ admitLater false s = .returned true t ∧
    KeepsStanding e sampleRequest t := by
  obtain ⟨s, e, eq, reached, at_0, asked, reused⟩ := reusedTurn_spec
  have ends : (reusedTurn.bind fun s => (admitLater false s).admitted).isSome = true := by decide
  rw [eq, Option.bind_some] at ends
  obtain ⟨t, later⟩ := Option.isSome_iff_exists.mp ends
  have ok := Outcome.admitted_eq later
  refine ⟨s, e, t, eq, at_0, reused, ok, (exact_standing_iff reached at_0 asked ok).mpr ?_⟩
  rintro ⟨-, -, ⟨round, head, verdict⟩, -, -⟩
  cases head
  cases verdict

/-- A capture that first finds no room loses it: the new record never counts as reused. -/
theorem exact_standing_lost : ∃ (s : Policy sampleObject 2) (e : Record sampleObject 2)
    (t : Policy sampleObject 2), Reached sampleBorn s ∧ s.records 0 = some e ∧
    matchesRequest e.checkpoint sampleRequest = true ∧
    s.admit_ sampleRequest ⟨4096, 4096⟩ false true (fun _ => false) (fun _ => false)
      [{ captured := .exhausted }, { checkpoint := some (sampleBorn 2), entry := 2 }] =
        .returned true t ∧
    ¬KeepsStanding e sampleRequest t := by
  obtain ⟨s, e, eq, reached, at_0, asked, reused⟩ := reusedTurn_spec
  have lost : (reusedTurn.bind fun s => (admitLater true s).admitted).any (fun t =>
      (t.records 0).any fun f =>
        matchesRequest f.checkpoint sampleRequest && f.reusedAt.isNone) = true := by decide
  rw [eq, Option.bind_some, Option.any_eq_true] at lost
  obtain ⟨t, later, met⟩ := lost
  obtain ⟨f, at_f, met⟩ := (Option.any_eq_true _ _).mp met
  obtain ⟨matched, never⟩ := Bool.and_eq_true_iff.mp met
  refine ⟨s, e, t, reached, at_0, asked, Outcome.admitted_eq later, fun keeps => ?_⟩
  rw [Option.isNone_iff_eq_none] at never
  rcases keeps.reused reused 0 f at_f matched with kept | now
  · rw [← kept, never] at reused
    cases reused
  · rw [never] at now
    cases now

end Gufo.Retention
