import Gufo.Catalog.State

/-!
# The three views agree

The order of use has one entry for each record, and each payload file lists exactly
the records that depend on it. A record that is only partly registered when a
reservation is refused is erased with all its dependencies, so no bucket stays empty.
-/

namespace Gufo.Catalog
open Gufo.Disk

variable {c : DiskCatalog} {id : Nat} {key : Key} {m : Reverse}

/-! ## Buckets -/

/-- The reverse map lists the record under the file. -/
def Refers (m : Reverse) (key : Key) (id : Nat) : Prop :=
  ∃ ids, m.lookup key = some ids ∧ id ∈ ids

/-- Only these buckets may be empty. -/
def EmptyOnly (m : Reverse) (keys : List Key) : Prop :=
  ∀ key ids, m.lookup key = some ids → ids ≠ ∅ ∨ key ∈ keys

theorem refers_insert {ids : Finset Nat} {key' : Key} {id' : Nat} :
    Refers (m.insert key ids) key' id' ↔
      if key' = key then id' ∈ ids else Refers m key' id' := by
  unfold Refers
  by_cases same : key' = key
  · subst same
    simp [AList.lookup_insert]
  · simp [AList.lookup_insert_ne same, same]

theorem refers_erase {key' : Key} {id' : Nat} :
    Refers (m.erase key) key' id' ↔ key' ≠ key ∧ Refers m key' id' := by
  unfold Refers
  by_cases same : key' = key
  · subst same
    simp [AList.lookup_erase]
  · simp [AList.lookup_erase_ne same, same]

theorem refers_removeDependency {key' : Key} {id' : Nat} :
    Refers (removeDependency id m key) key' id' ↔
      Refers m key' id' ∧ ¬(key' = key ∧ id' = id) := by
  unfold removeDependency
  cases at_ : m.lookup key with
  | none =>
    refine ⟨fun refers => ⟨refers, ?_⟩, And.left⟩
    rintro ⟨rfl, rfl⟩
    obtain ⟨ids, found, -⟩ := refers
    rw [at_] at found
    cases found
  | some references =>
    have here : Refers m key id' ↔ id' ∈ references := by simp [Refers, at_]
    dsimp only
    split
    · rename_i left
      rw [refers_erase]
      by_cases same : key' = key
      · subst same
        rw [here]
        refine ⟨fun h => absurd rfl h.1, fun ⟨member, other⟩ => ?_⟩
        have kept : id' ∈ references.erase id := Finset.mem_erase.mpr
          ⟨fun eq => other ⟨rfl, eq⟩, member⟩
        rw [left] at kept
        cases kept
      · simp [same]
    · rw [refers_insert]
      by_cases same : key' = key
      · subst same
        rw [if_pos rfl, here, Finset.mem_erase]
        simp [and_comm]
      · simp [same]

theorem emptyOnly_removeDependency {keys : List Key} (h : EmptyOnly m (key :: keys)) :
    EmptyOnly (removeDependency id m key) keys := by
  intro key' ids found
  unfold removeDependency at found
  have other (apart : key' ≠ key) (old : m.lookup key' = some ids) : ids ≠ ∅ ∨ key' ∈ keys :=
    (h key' ids old).imp_right fun member => (List.mem_cons.mp member).resolve_left apart
  cases at_ : m.lookup key with
  | none =>
    rw [at_] at found
    refine other ?_ found
    rintro rfl
    rw [at_] at found
    cases found
  | some references =>
    rw [at_] at found
    dsimp only at found
    split at found
    · by_cases same : key' = key
      · subst same
        rw [AList.lookup_erase] at found
        cases found
      · rw [AList.lookup_erase_ne same] at found
        exact other same found
    · rename_i left
      by_cases same : key' = key
      · subst same
        rw [AList.lookup_insert] at found
        exact .inl (Option.some.inj found ▸ left)
      · rw [AList.lookup_insert_ne same] at found
        exact other same found

theorem refers_removeAll (keys : List Key) (m : Reverse) {key' : Key} {id' : Nat} :
    Refers (keys.foldl (removeDependency id) m) key' id' ↔
      Refers m key' id' ∧ ¬(key' ∈ keys ∧ id' = id) := by
  induction keys generalizing m with
  | nil => simp
  | cons key keys ih =>
    rw [List.foldl_cons, ih, refers_removeDependency, List.mem_cons]
    tauto

theorem emptyOnly_removeAll (keys : List Key) (m : Reverse) (h : EmptyOnly m keys) :
    EmptyOnly (keys.foldl (removeDependency id) m) [] := by
  induction keys generalizing m with
  | nil => exact h
  | cons key keys ih => exact ih _ (emptyOnly_removeDependency h)

/-! ## New dependencies -/

/-- One dependency more, or the same ones and perhaps an empty bucket. -/
theorem addDependency_spec (key : Key) (id : Nat) (answer : Admission) (full : EmptyOnly m []) :
    (∀ key' id', Refers m key' id' → Refers (addDependency answer key id m).1 key' id') ∧
    (∀ key' id', Refers (addDependency answer key id m).1 key' id' →
      Refers m key' id' ∨ (key' = key ∧ id' = id)) ∧
    ((addDependency answer key id m).2 = true → Refers (addDependency answer key id m).1 key id ∧
      EmptyOnly (addDependency answer key id m).1 []) ∧
    EmptyOnly (addDependency answer key id m).1 [key] := by
  have widen (m' : Reverse) (h : EmptyOnly m' []) : EmptyOnly m' [key] :=
    fun key' ids found => (h key' ids found).imp_right fun none_ => by cases none_
  have inserted (ids : Finset Nat) (nonempty : ids ≠ ∅) : EmptyOnly (m.insert key ids) [] := by
    intro key' ids' found
    by_cases same : key' = key
    · subst same
      rw [AList.lookup_insert] at found
      exact .inl (Option.some.inj found ▸ nonempty)
    · rw [AList.lookup_insert_ne same] at found
      exact full key' ids' found
  unfold addDependency
  cases at_ : m.lookup key with
  | none =>
    have unlisted (id' : Nat) : ¬Refers m key id' := by
      rintro ⟨ids, found, -⟩
      rw [at_] at found
      cases found
    cases answer with
    | bucketRefused =>
      exact ⟨fun _ _ h => h, fun _ _ h => .inl h, fun fails => (by cases fails), widen m full⟩
    | referenceRefused =>
      refine ⟨fun key' id' refers => ?_, fun key' id' refers => ?_, fun fails => (by cases fails),
        ?_⟩
      · rw [refers_insert, if_neg]
        · exact refers
        · rintro rfl
          exact unlisted id' refers
      · rw [refers_insert] at refers
        split at refers
        · cases refers
        · exact .inl refers
      · intro key' ids found
        by_cases same : key' = key
        · exact .inr (same ▸ List.mem_singleton_self _)
        · rw [AList.lookup_insert_ne same] at found
          exact widen m full key' ids found
    | admitted =>
      have fresh := inserted {id} (Finset.singleton_ne_empty id)
      refine ⟨fun key' id' refers => ?_, fun key' id' refers => ?_, fun _ => ⟨?_, fresh⟩,
        widen _ fresh⟩
      · rw [refers_insert, if_neg]
        · exact refers
        · rintro rfl
          exact unlisted id' refers
      · rw [refers_insert] at refers
        split at refers
        · rename_i same
          exact .inr ⟨same, Finset.mem_singleton.mp refers⟩
        · exact .inl refers
      · rw [refers_insert, if_pos rfl]
        exact Finset.mem_singleton_self id
  | some references =>
    have here (id' : Nat) : Refers m key id' ↔ id' ∈ references := by simp [Refers, at_]
    dsimp only
    by_cases listed : id ∈ references
    · rw [if_pos listed]
      exact ⟨fun _ _ h => h, fun _ _ h => .inl h, fun _ => ⟨(here id).mpr listed, full⟩,
        widen m full⟩
    · rw [if_neg listed]
      by_cases admitted : answer = .admitted
      · rw [if_pos admitted]
        have more := inserted (insert id references) (Finset.insert_ne_empty id references)
        refine ⟨fun key' id' refers => ?_, fun key' id' refers => ?_, fun _ => ⟨?_, more⟩,
          widen _ more⟩
        · rw [refers_insert]
          split
          · rename_i same
            subst same
            exact Finset.mem_insert_of_mem ((here id').mp refers)
          · exact refers
        · rw [refers_insert] at refers
          split at refers
          · rename_i same
            subst same
            rcases Finset.mem_insert.mp refers with new | old
            · exact .inr ⟨rfl, new⟩
            · exact .inl ((here id').mpr old)
          · exact .inl refers
        · rw [refers_insert, if_pos rfl]
          exact Finset.mem_insert_self id references
      · rw [if_neg admitted]
        exact ⟨fun _ _ h => h, fun _ _ h => .inl h, fun fails => (by cases fails), widen m full⟩

/-- What registering a record leaves, whether or not every dependency was admitted. -/
structure Registered (id : Nat) (keys : List Key) (m m' : Reverse) (linked : Bool) : Prop where
  keeps : ∀ key' id', Refers m key' id' → Refers m' key' id'
  only : ∀ key' id', Refers m' key' id' → Refers m key' id' ∨ (key' ∈ keys ∧ id' = id)
  full : linked = true → (∀ key' ∈ keys, Refers m' key' id) ∧ EmptyOnly m' []
  buckets : EmptyOnly m' keys

theorem addDependencies_spec (id : Nat) (keys : List Key) (answers : List Admission) (m : Reverse)
    (full : EmptyOnly m []) :
    Registered id keys m (addDependencies id keys answers m).1
      (addDependencies id keys answers m).2 := by
  induction keys generalizing answers m with
  | nil => exact ⟨fun _ _ h => h, fun _ _ h => .inl h, fun _ => ⟨by simp, full⟩, full⟩
  | cons key keys ih =>
    obtain ⟨keeps, only, added, bucket⟩ :=
      addDependency_spec key id (answers.headD .admitted) full
    unfold addDependencies
    split
    · rename_i m₁ eq
      rw [eq] at keeps only added
      obtain ⟨refers, full₁⟩ := added rfl
      have rest := ih answers.tail m₁ full₁
      refine ⟨fun key' id' h => rest.keeps _ _ (keeps _ _ h), fun key' id' h => ?_,
        fun linked => ?_, fun key' ids found => ?_⟩
      · rcases rest.only key' id' h with before | ⟨later, same⟩
        · exact (only key' id' before).imp_right fun ⟨first, same⟩ =>
            ⟨first ▸ List.mem_cons_self, same⟩
        · exact .inr ⟨List.mem_cons_of_mem _ later, same⟩
      · obtain ⟨all, nonempty⟩ := rest.full linked
        refine ⟨fun key' member => ?_, nonempty⟩
        rcases List.mem_cons.mp member with rfl | later
        · exact rest.keeps _ _ refers
        · exact all key' later
      · exact (rest.buckets key' ids found).imp_right (List.mem_cons_of_mem _)
    · rename_i m₁ eq
      rw [eq] at keeps only bucket
      refine ⟨keeps, fun key' id' h => ?_, fun linked => (by cases linked),
        fun key' ids found => ?_⟩
      · exact (only key' id' h).imp_right fun ⟨first, same⟩ => ⟨first ▸ List.mem_cons_self, same⟩
      · refine (bucket key' ids found).imp_right fun member => ?_
        rw [List.mem_singleton.mp member]
        exact List.mem_cons_self

/-! ## The views -/

/-- The order of use and the reverse map say of the records what they are. -/
structure Views (c : DiskCatalog) : Prop where
  lru : ∀ order id, c.lru.find order = some id ↔
    ∃ record, c.records.find id = some record ∧ order = toLex (record.used, id)
  reverse : ∀ key id, Refers c.reverse key id ↔
    ∃ record, c.records.find id = some record ∧
      key ∈ dependencies record.description.manifest
  buckets : EmptyOnly c.reverse []

/-- The views, but for the dependencies of one record that is only partly registered. -/
structure Partial (c : DiskCatalog) (id : Nat) (record : Record) : Prop where
  at_id : c.records.find id = some record
  lru : ∀ order id', c.lru.find order = some id' ↔
    ∃ record, c.records.find id' = some record ∧ order = toLex (record.used, id')
  others : ∀ key id', id' ≠ id → (Refers c.reverse key id' ↔
    ∃ record, c.records.find id' = some record ∧
      key ∈ dependencies record.description.manifest)
  own : ∀ key, Refers c.reverse key id → key ∈ dependencies record.description.manifest
  buckets : EmptyOnly c.reverse (dependencies record.description.manifest)

theorem Views.toPartial (h : Views c) {record : Record} (at_id : c.records.find id = some record) :
    Partial c id record where
  at_id := at_id
  lru := h.lru
  others key id' _ := h.reverse key id'
  own key refers := by
    obtain ⟨record', at_id', member⟩ := (h.reverse key id).mp refers
    rw [at_id, Option.some.injEq] at at_id'
    exact at_id' ▸ member
  buckets key ids found := (h.buckets key ids found).imp_right fun none_ => by cases none_

theorem eraseRecord_records (c : DiskCatalog) (id id' : Nat) :
    (c.eraseRecord id).records.find id' = if id' = id then none else c.records.find id' := by
  unfold DiskCatalog.eraseRecord
  cases at_id : c.records.find id with
  | none =>
    dsimp only
    split
    · rename_i same
      rw [same, at_id]
    · rfl
  | some record => exact OrderedMap.find_erase

/-- Erasing the record takes what was registered of it. -/
theorem Partial.erase {record : Record} (h : Partial c id record) : Views (c.eraseRecord id) := by
  have gone := eraseRecord_records c id
  have lru : (c.eraseRecord id).lru = c.lru.erase (toLex (record.used, id)) := by
    simp [DiskCatalog.eraseRecord, h.at_id]
  have reverse : (c.eraseRecord id).reverse =
      (dependencies record.description.manifest).foldl (removeDependency id) c.reverse := by
    simp [DiskCatalog.eraseRecord, h.at_id]
  refine ⟨fun order id' => ?_, fun key id' => ?_, ?_⟩
  · rw [lru, OrderedMap.find_erase, gone]
    by_cases same : id' = id
    · simp only [same, if_true, reduceCtorEq, false_and, exists_false, iff_false]
      split
      · simp
      · rename_i apart
        intro found
        obtain ⟨record', at_id', eq⟩ := (h.lru order id).mp found
        rw [h.at_id, Option.some.injEq] at at_id'
        exact apart (at_id' ▸ eq)
    · rw [if_neg same, ← h.lru order id']
      split
      · rename_i eq
        refine ⟨fun none_ => (by cases none_), fun found => ?_⟩
        obtain ⟨record', -, eq'⟩ := (h.lru order id').mp found
        rw [eq] at eq'
        exact absurd (Prod.mk.inj (toLex.injective eq')).2.symm same
      · rfl
  · rw [reverse, refers_removeAll, gone]
    by_cases same : id' = id
    · subst same
      simp only [if_true, reduceCtorEq, false_and, exists_false, iff_false, and_true, not_and,
        not_not]
      exact h.own key
    · rw [if_neg same, h.others key id' same]
      simp [same]
  · rw [reverse]
    exact emptyOnly_removeAll _ _ h.buckets

theorem Views.eraseRecord (h : Views c) (id : Nat) : Views (c.eraseRecord id) := by
  cases at_id : c.records.find id with
  | none =>
    have same : c.eraseRecord id = c := by simp [DiskCatalog.eraseRecord, at_id]
    rw [same]
    exact h
  | some record => exact (h.toPartial at_id).erase

/-- Changes of a record that leave its description and its last use. -/
theorem Views.mapRecords (h : Views c) (f : Nat → Record → Record)
    (same : ∀ id record, (f id record).description = record.description ∧
      (f id record).used = record.used) :
    Views { c with records := c.records.mapValues f } := by
  refine ⟨fun order id => ?_, fun key id => ?_, h.buckets⟩
  · rw [h.lru, OrderedMap.find_mapValues]
    cases c.records.find id with
    | none => simp
    | some record => simp [(same id record).2]
  · rw [h.reverse, OrderedMap.find_mapValues]
    cases c.records.find id with
    | none => simp
    | some record => simp [(same id record).1]

theorem Views.reconcile (h : Views c) (quarantined : Nat → Bool) :
    Views (c.reconcile quarantined) := by
  refine h.mapRecords _ fun id record => ?_
  split <;> exact ⟨rfl, rfl⟩

theorem Views.invalidate (h : Views c) (key : Key) : Views (c.invalidate key).1 := by
  unfold DiskCatalog.invalidate
  split
  · exact h
  · refine h.mapRecords _ fun id record => ?_
    split <;> exact ⟨rfl, rfl⟩

/-- A listed record is there, so a quarantine reaches all of them. -/
theorem Views.invalidate_returns (h : Views c) (key : Key) :
    (c.invalidate key).2 = .returned () := by
  unfold DiskCatalog.invalidate
  cases at_ : c.reverse.lookup key with
  | none => rfl
  | some ids =>
    have there : ∀ m ∈ ids, (c.records.find m).isSome = true := by
      intro m member
      obtain ⟨record, at_m, -⟩ := (h.reverse key m).mp ⟨ids, at_, member⟩
      rw [at_m]
      rfl
    dsimp only
    rw [if_pos]
    exact Finset.filter_true_of_mem fun id _ m member _ => there m member

/-- A new record over a catalog that has none of its id. -/
theorem Views.insertRecord (h : Views c) (absent : c.records.find id = none) (used : Nat)
    (description : Description) (w : Tracking) :
    Views (c.insertRecord id used description w).1 := by
  have registered := addDependencies_spec id (dependencies description.manifest) w.answers
    c.reverse h.buckets
  have no_order : c.lru.find (toLex (used, id)) = none := by
    cases found : c.lru.find (toLex (used, id)) with
    | none => rfl
    | some id' =>
      obtain ⟨record, at_id', eq⟩ := (h.lru _ _).mp found
      have same : id = id' := (Prod.mk.inj (toLex.injective eq)).2
      rw [← same, absent] at at_id'
      cases at_id'
  have unlisted (key : Key) : ¬Refers c.reverse key id := by
    intro refers
    obtain ⟨record, at_id, -⟩ := (h.reverse key id).mp refers
    rw [absent] at at_id
    cases at_id
  have records (id' : Nat) : (c.records.emplace id { description, used }).find id' =
      if id' = id then some { description, used } else c.records.find id' :=
    OrderedMap.find_emplace absent
  have part : Partial { c with
      records := c.records.emplace id { description, used }
      lru := c.lru.emplace (toLex (used, id)) id
      reverse := (addDependencies id (dependencies description.manifest) w.answers c.reverse).1 }
      id { description, used } := by
    refine ⟨?_, fun order id' => ?_, fun key id' other => ?_, fun key refers => ?_,
      registered.buckets⟩
    · rw [records, if_pos rfl]
    · rw [OrderedMap.find_emplace no_order, records]
      by_cases same : id' = id
      · subst same
        simp only [if_true, Option.some.injEq, exists_eq_left']
        split
        · rename_i eq
          exact iff_of_true rfl eq
        · rename_i apart
          refine ⟨fun found => ?_, fun eq => absurd eq apart⟩
          obtain ⟨record, at_id, -⟩ := (h.lru order id').mp found
          rw [absent] at at_id
          cases at_id
      · split
        · rename_i eq
          refine ⟨fun new => absurd (Option.some.inj new).symm same, ?_⟩
          rintro ⟨record, -, eq'⟩
          rw [eq] at eq'
          exact absurd (Prod.mk.inj (toLex.injective eq')).2.symm same
        · exact h.lru order id'
    · rw [records, if_neg other, ← h.reverse key id']
      refine ⟨fun refers => ?_, registered.keeps key id'⟩
      rcases registered.only key id' refers with old | ⟨-, same⟩
      · exact old
      · exact absurd same other
    · rcases registered.only key id refers with old | ⟨member, -⟩
      · exact absurd old (unlisted key)
      · exact member
  unfold DiskCatalog.insertRecord
  dsimp only
  split
  · rename_i done
    obtain ⟨all, full⟩ := registered.full (Bool.and_eq_true_iff.mp done).1
    refine ⟨part.lru, fun key id' => ?_, full⟩
    by_cases same : id' = id
    · subst same
      refine ⟨fun refers => ⟨_, part.at_id, part.own key refers⟩, ?_⟩
      rintro ⟨record, at_id, member⟩
      have new := part.at_id
      rw [new, Option.some.injEq] at at_id
      rw [← at_id] at member
      exact all key member
    · exact part.others key id' same
  · exact part.erase

theorem Views.track (h : Views c) (loading : Bool) (id : Nat) (w : Tracking) :
    Views (c.track loading id w).1 := by
  have erased := h.eraseRecord id
  have absent : (c.eraseRecord id).records.find id = none := by
    rw [eraseRecord_records, if_pos rfl]
  have ticked : Views { c.eraseRecord id with clock := (c.eraseRecord id).clock + 1 } :=
    ⟨erased.lru, erased.reverse, erased.buckets⟩
  unfold DiskCatalog.track
  split
  · exact h
  · split
    · exact h
    · dsimp only
      split
      · split
        · exact erased.insertRecord absent _ _ _
        · exact erased
      · split
        · exact erased
        · split
          · exact ticked.insertRecord absent _ _ _
          · exact ticked

end Gufo.Catalog
