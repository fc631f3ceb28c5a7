import Gufo.Catalog.Views

/-!
# Eviction in the order of use

The loop of `EvictOne` erases records while it iterates. Every entry it still has
to visit keeps its record, so it retires the least recently used record that the
store neither pins nor misses.
-/

namespace Gufo.Catalog
open Gufo.Disk

variable {c : DiskCatalog} {id : Nat} {retire : Nat → Retire}

/-! ## Use -/

theorem Views.touch (h : Views c) (id : Nat) :
    Views (c.touch id).1 ∧ (c.touch id).2 ≠ .undefined := by
  unfold DiskCatalog.touch
  cases at_id : c.records.find id with
  | none => exact ⟨h, by simp⟩
  | some record =>
    dsimp only
    split
    · exact ⟨h, by simp⟩
    · split
      · exact ⟨h, by simp⟩
      · have node : c.lru.find (toLex (record.used, id)) = some id :=
          (h.lru _ _).mpr ⟨record, at_id, rfl⟩
        rw [node]
        refine ⟨?_, by simp⟩
        -- No other entry can have the new key, whose second part is the id.
        have free : (c.lru.erase (toLex (record.used, id))).find (toLex (c.clock + 1, id)) =
            none := by
          rw [OrderedMap.find_erase]
          split
          · rfl
          · rename_i apart
            cases found : c.lru.find (toLex (c.clock + 1, id)) with
            | none => rfl
            | some id' =>
              obtain ⟨record', at_id', eq⟩ := (h.lru _ _).mp found
              obtain ⟨used, same⟩ := Prod.mk.inj (toLex.injective eq)
              subst same
              rw [at_id, Option.some.injEq] at at_id'
              subst at_id'
              exact absurd (by rw [used]) apart
        refine ⟨fun order id' => ?_, fun key id' => ?_, h.buckets⟩
        · rw [OrderedMap.find_emplace free, OrderedMap.find_erase, OrderedMap.find_mapValues]
          by_cases same : id' = id
          · subst same
            simp only [at_id, Option.map_some, if_true, Option.some.injEq, exists_eq_left']
            split
            · rename_i eq
              exact iff_of_true rfl eq
            · rename_i apart
              refine iff_of_false ?_ apart
              split
              · simp
              · rename_i other
                intro found
                obtain ⟨record', at_id', eq⟩ := (h.lru order id').mp found
                rw [at_id, Option.some.injEq] at at_id'
                exact other (at_id' ▸ eq)
          · have kept : (c.records.find id').map (fun record : Record =>
                if id' = id then { record with used := c.clock + 1 } else record) =
                c.records.find id' := by simp [same]
            rw [kept]
            split
            · rename_i eq
              refine ⟨fun new => absurd (Option.some.inj new).symm same, ?_⟩
              rintro ⟨record', -, eq'⟩
              rw [eq] at eq'
              exact absurd (Prod.mk.inj (toLex.injective eq')).2.symm same
            · split
              · rename_i eq
                refine ⟨fun none_ => (by cases none_), ?_⟩
                rintro ⟨record', -, eq'⟩
                rw [eq] at eq'
                exact absurd (Prod.mk.inj (toLex.injective eq')).2.symm same
              · exact h.lru order id'
        · rw [h.reverse, OrderedMap.find_mapValues]
          cases c.records.find id' with
          | none => simp
          | some record' =>
            by_cases same : id' = id
            · simp [same]
            · simp [same]

/-! ## Eviction -/

/-- The store has no use for retiring the record now. -/
def Spared (retire : Nat → Retire) (id : Nat) : Prop := retire id = .pinned ∨ retire id = .missing

/-- How the loop ends over the entries `entries` of catalog `c`. -/
structure Evicts (retire : Nat → Retire) (entries : List ((Nat ×ₗ Nat) × Nat)) (c : DiskCatalog)
    (c' : DiskCatalog) (ended : Ended Bool) : Prop where
  views : Views c'
  defined : ended ≠ .undefined
  /-- Nothing changes but by erasing records the store retired or misses. -/
  records : ∀ id, c'.records.find id = c.records.find id ∨
    (c'.records.find id = none ∧ (retire id = .missing ∨ retire id = .retired))
  retired : ended = .returned true → ∃ done entry rest, entries = done ++ entry :: rest ∧
    retire entry.2 = .retired ∧ c'.records.find entry.2 = none ∧
    (∀ earlier ∈ done, Spared retire earlier.2) ∧
    ∀ id, id ≠ entry.2 → c'.records.find id = c.records.find id ∨ retire id = .missing
  refused : ended = .returned false →
    (∃ done entry rest, entries = done ++ entry :: rest ∧ retire entry.2 = .busy ∧
      ∀ earlier ∈ done, Spared retire earlier.2) ∨
    ∀ entry ∈ entries, retire entry.2 = .pinned ∨ c'.records.find entry.2 = none
  kept : ended ≠ .returned true →
    ∀ id, c'.records.find id = c.records.find id ∨ retire id = .missing

theorem evictLoop_spec (entries : List ((Nat ×ₗ Nat) × Nat)) (c : DiskCatalog) (h : Views c)
    (there : ∀ entry ∈ entries, (c.records.find entry.2).isSome)
    (distinct : entries.Pairwise fun a b => a.2 ≠ b.2) :
    Evicts retire entries c (DiskCatalog.evictLoop retire entries c).1
      (DiskCatalog.evictLoop retire entries c).2 := by
  induction entries generalizing c with
  | nil =>
    exact ⟨h, by simp [DiskCatalog.evictLoop], fun _ => .inl rfl, by simp [DiskCatalog.evictLoop],
      fun _ => .inr (by simp), fun _ _ => .inl rfl⟩
  | cons entry rest ih =>
    obtain ⟨order, id⟩ := entry
    obtain ⟨first, later⟩ := List.pairwise_cons.mp distinct
    obtain ⟨record, at_id⟩ := Option.isSome_iff_exists.mp (there _ List.mem_cons_self)
    have erased := eraseRecord_records c id
    unfold DiskCatalog.evictLoop
    rw [at_id]
    cases answer : retire id with
    | threw => exact ⟨h, by simp, fun _ => .inl rfl, by simp, by simp, fun _ _ => .inl rfl⟩
    | busy =>
      exact ⟨h, by simp, fun _ => .inl rfl, by simp,
        fun _ => .inl ⟨[], (order, id), rest, rfl, answer, by simp⟩, fun _ _ => .inl rfl⟩
    | pinned =>
      obtain ⟨views, defined, records, retired, refused, kept⟩ := ih c h
        (fun e member => there e (List.mem_cons_of_mem _ member)) later
      have spare : Spared retire id := .inl answer
      refine ⟨views, defined, records, fun done => ?_, fun done => ?_, kept⟩
      · obtain ⟨before, e, after, rfl, gone, none_, earlier, others⟩ := retired done
        exact ⟨(order, id) :: before, e, after, rfl, gone, none_,
          List.forall_mem_cons.mpr ⟨spare, earlier⟩, others⟩
      · rcases refused done with ⟨before, e, after, rfl, busy, earlier⟩ | all
        · exact .inl ⟨(order, id) :: before, e, after, rfl, busy,
            List.forall_mem_cons.mpr ⟨spare, earlier⟩⟩
        · exact .inr (List.forall_mem_cons.mpr ⟨.inl answer, all⟩)
    | missing =>
      have still : ∀ e ∈ rest, ((c.eraseRecord id).records.find e.2).isSome := by
        intro e member
        rw [erased, if_neg (first e member).symm]
        exact there e (List.mem_cons_of_mem _ member)
      obtain ⟨views, defined, records, retired, refused, kept⟩ :=
        ih (c.eraseRecord id) (h.eraseRecord id) still later
      have spare : Spared retire id := .inr answer
      have gone : ∀ c' : DiskCatalog, (∀ id', c'.records.find id' =
          (c.eraseRecord id).records.find id' ∨ (c'.records.find id' = none ∧
            (retire id' = .missing ∨ retire id' = .retired))) → c'.records.find id = none := by
        intro c' only
        rcases only id with same | ⟨none_, -⟩
        · rw [same, erased, if_pos rfl]
        · exact none_
      have lift (c' : DiskCatalog) (id' : Nat)
          (same : c'.records.find id' = (c.eraseRecord id).records.find id') :
          c'.records.find id' = c.records.find id' ∨ retire id' = .missing := by
        by_cases eq : id' = id
        · exact .inr (eq ▸ answer)
        · rw [same, erased, if_neg eq]
          exact .inl rfl
      refine ⟨views, defined, fun id' => ?_, fun done => ?_, fun done => ?_, fun done id' => ?_⟩
      · by_cases eq : id' = id
        · exact .inr ⟨eq ▸ gone _ records, .inl (eq ▸ answer)⟩
        · have := records id'
          rwa [erased, if_neg eq] at this
      · obtain ⟨before, e, after, rfl, retired_, none_, earlier, others⟩ := retired done
        exact ⟨(order, id) :: before, e, after, rfl, retired_, none_,
          List.forall_mem_cons.mpr ⟨spare, earlier⟩, fun id' other =>
            (others id' other).elim (lift _ id') .inr⟩
      · rcases refused done with ⟨before, e, after, rfl, busy, earlier⟩ | all
        · exact .inl ⟨(order, id) :: before, e, after, rfl, busy,
            List.forall_mem_cons.mpr ⟨spare, earlier⟩⟩
        · exact .inr (List.forall_mem_cons.mpr ⟨.inr (gone _ records), all⟩)
      · exact (kept done id').elim (lift _ id') .inr
    | retired =>
      refine ⟨h.eraseRecord id, by simp, fun id' => ?_, fun _ => ?_, by simp, by simp⟩
      · by_cases eq : id' = id
        · exact .inr ⟨by rw [erased, if_pos eq], .inr (eq ▸ answer)⟩
        · exact .inl (by rw [erased, if_neg eq])
      · refine ⟨[], (order, id), rest, rfl, answer, by rw [erased, if_pos rfl], by simp, ?_⟩
        intro id' other
        exact .inl (by rw [erased, if_neg other])

/-! ## Reclaiming -/

theorem reclaimLoop_spec (retire : Nat → Retire) (entries : List (Nat × Record)) (retired : Nat)
    (c : DiskCatalog) (h : Views c) :
    Views (DiskCatalog.reclaimLoop retire entries retired c).1 ∧
      (DiskCatalog.reclaimLoop retire entries retired c).2 ≠ .undefined := by
  induction entries generalizing retired c with
  | nil => exact ⟨h, by simp [DiskCatalog.reclaimLoop]⟩
  | cons entry rest ih =>
    obtain ⟨id, record⟩ := entry
    unfold DiskCatalog.reclaimLoop
    split
    · cases retire id with
      | threw => exact ⟨h, by simp⟩
      | busy => exact ⟨h, by simp⟩
      | pinned => exact ih retired c h
      | missing => exact ih retired _ (h.eraseRecord id)
      | retired => exact ih (retired + 1) _ (h.eraseRecord id)
    · exact ih retired c h

/-! ## Whole runs -/

theorem views_empty : Views {} where
  lru := by simp
  reverse key id := by
    simp only [OrderedMap.find_empty, reduceCtorEq, false_and, exists_false, iff_false]
    rintro ⟨ids, found, -⟩
    cases found
  buckets key ids found := by cases found

theorem construct_views (discovered : List (Nat × Tracking)) (c c' : DiskCatalog) (h : Views c)
    (built : construct discovered c = some c') : Views c' := by
  induction discovered generalizing c with
  | nil => exact Option.some.inj built ▸ h
  | cons entry rest ih =>
    obtain ⟨id, w⟩ := entry
    have tracked := h.track true id w
    unfold construct at built
    split at built
    · rename_i c₁ eq
      rw [eq] at tracked
      exact ih c₁ tracked built
    · cases built

theorem mem_lru (h : Views c) {order : Nat ×ₗ Nat} {id : Nat} :
    (order, id) ∈ c.lru.entries ↔
      ∃ record, c.records.find id = some record ∧ order = toLex (record.used, id) := by
  rw [← OrderedMap.find_eq_some, h.lru]

/-- The entries of the order of use belong to different records. -/
theorem lru_distinct (h : Views c) : c.lru.entries.Pairwise fun a b => a.2 ≠ b.2 := by
  refine c.lru.ordered.imp_of_mem fun {a b} ha hb less same => ?_
  obtain ⟨order, id⟩ := a
  obtain ⟨order', id'⟩ := b
  obtain ⟨record, at_id, rfl⟩ := (mem_lru h).mp ha
  obtain ⟨record', at_id', rfl⟩ := (mem_lru h).mp hb
  subst same
  rw [at_id, Option.some.injEq] at at_id'
  subst at_id'
  exact lt_irrefl _ less

theorem evictOne_evicts (h : Views c) (quarantined : Nat → Bool) (retire : Nat → Retire) :
    Evicts retire c.lru.entries (c.reconcile quarantined) (c.evictOne quarantined retire).1
      (c.evictOne quarantined retire).2 := by
  have views := h.reconcile quarantined
  refine evictLoop_spec c.lru.entries _ views (fun entry member => ?_) (lru_distinct h)
  obtain ⟨record, at_id, -⟩ := (mem_lru views).mp member
  rw [at_id]
  rfl

theorem run_views (h : Views c) (call : Call) : Views (call.run c).1 ∧ (call.run c).2 = false := by
  cases call with
  | track id w =>
    refine ⟨h.track false id w, ?_⟩
    simp only [Call.run, decide_eq_false_iff_not]
    unfold DiskCatalog.track
    split
    · simp
    · split
      · simp
      · dsimp only
        split
        · rename_i never
          cases never
        · split
          · simp
          · split
            · unfold DiskCatalog.insertRecord
              dsimp only
              split <;> simp
            · simp
  | touch id => exact ⟨(h.touch id).1, by simpa [Call.run] using (h.touch id).2⟩
  | evictOne quarantined retire =>
    have spec := evictOne_evicts h quarantined retire
    exact ⟨spec.views, by simpa [Call.run] using spec.defined⟩
  | invalidate key => exact ⟨h.invalidate key, by simp [Call.run, h.invalidate_returns key]⟩
  | reconcile quarantined => exact ⟨h.reconcile quarantined, rfl⟩
  | reclaimInvalid quarantined retire =>
    have spec := reclaimLoop_spec retire (c.reconcile quarantined).records.entries 0
      (c.reconcile quarantined) (h.reconcile quarantined)
    exact ⟨spec.1, decide_eq_false spec.2⟩

theorem Reachable.views (h : Reachable c) : Views c := by
  induction h with
  | start discovered built => exact construct_views discovered {} _ views_empty built
  | call call _ ih => exact (run_views ih call).1

def sampleManifest (checkpoint : UInt64) : DiskManifest where
  checkpoint
  lineage := 1
  compatibility := Vector.replicate 32 0
  input := []
  tokens := List.replicate 16 5
  components := [⟨⟨7, 1, .appendRows, 64, 16, 0⟩, ⟨7, 16⟩, [⟨Vector.replicate 16 1, 1024, 0⟩],
    none, none⟩]
  purpose := .prompt
  rank := 0

end Gufo.Catalog
