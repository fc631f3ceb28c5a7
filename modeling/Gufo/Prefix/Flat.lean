import Gufo.Prefix.Agreement
import Gufo.Prefix.Plans

/-!
# The index as a flat list

For each compatibility identity the index means a list of records: a call appends one, or
changes, keeps or drops each by itself. Whatever shape the compressed tree has, `Lookup`,
`HasCheckpoint` and `CachedPrefixTokens` answer what a scan of that list does.
-/

namespace Gufo.Prefix
open Gufo.Radix
open Gufo.Execution (Token Identity ComponentDescriptor)

/-- What is registered, and what is stored in the order of the insertions. -/
structure Flat where
  inventory : Identity → Option (List ComponentDescriptor) := fun _ => none
  records : Identity → List Record := fun _ => []
  next : Nat := 1

namespace Flat

def descriptors (l : Flat) (identity : Identity) : List ComponentDescriptor :=
  (l.inventory identity).getD []

/-- The first inventory of an identity stays. -/
def register (identity : Identity) (descriptors : List ComponentDescriptor) (l : Flat) : Flat :=
  { l with
    inventory := Function.update l.inventory identity
      ((l.inventory identity).or (some descriptors)) }

def append (identity : Identity) (r : Record) (l : Flat) : Flat :=
  { l with
    records := Function.update l.records identity
      (l.records identity ++ [{ r with id := l.next }])
    next := l.next + 1 }

def change (f : List ComponentDescriptor → Record → Option Record) (l : Flat) : Flat :=
  { l with records := fun i => (l.records i).filterMap (f (l.descriptors i)) }

/-- A change of one entry. -/
def entry (id : Nat) (f : List ComponentDescriptor → Record → Option Record) (l : Flat) : Flat :=
  l.change fun d r => if r.id = id then f d r else some r

end Flat

namespace Record

def attach (durable : DiskDescription) (d : List ComponentDescriptor) (r : Record) : Record :=
  { r with
    availability := some (durableAvailability { descriptors := d } r.availability)
    durable := some durable }

/-- Only a record that is complete on disk outlives its payloads. -/
def drop (services : Services) (d : List ComponentDescriptor) (r : Record) : Option Record :=
  if r.durable.isSome && r.availability.isSome && services.pinned r.id &&
      d.all fun d => (r.available.find? (·.id == d.id)).any (·.durable) then
    some { r with checkpoint := none }
  else none

/-- Without its publication a record lives in RAM only. -/
def retract (description : DiskDescription) (corrupt : Bool) (r : Record) : Option Record :=
  if r.durable.any description.same then
    if corrupt || r.checkpoint.isNone then none else some { r with durable := none }
  else some r

end Record

/-! ## The scans -/

section
variable (services : Services) (query : PrefixQuery)

/-- A record with the input identity of the query at its boundary, and a restore plan. -/
def Flat.usable (d : List ComponentDescriptor) (r : Record) : Option PrefixCandidate :=
  if query.input.at_ r.boundary = some r.input then
    (candidate services { descriptors := d } r).toOption.join
  else none

def Flat.passing (l : Flat) : List Record :=
  (l.records query.compatibility).filter fun r => decide (r.tokens <+: query.tokens)

def Flat.candidates (l : Flat) : List PrefixCandidate :=
  let usable := Flat.usable services query (l.descriptors query.compatibility)
  let fallback := query.stablePrefixTokens == 0 || (l.passing query).any fun r =>
    (usable r).isSome && r.establishes query.stablePrefixTokens
  sortCandidates (((l.passing query).filterMap usable).filter fun c =>
    !(!fallback && decide (c.boundary > query.stablePrefixTokens)))

def Flat.hasCheckpoint (minimum : Nat) (l : Flat) : Bool :=
  (l.passing query).any fun r => r.live.isNone && decide (r.boundary ≥ minimum) &&
    (Flat.usable services query (l.descriptors query.compatibility) r).isSome

/-- The visits of `HasCheckpoint`, record by record. -/
def presence (t : Tree) (minimum : Nat) : List Record → Except Error Bool
  | [] => .ok false
  | r :: rest =>
    if r.live.isNone && decide (r.boundary ≥ minimum) &&
        decide (query.input.at_ r.boundary = some r.input) then
      match candidate services t r with
      | .error e => .error e
      | .ok none => presence t minimum rest
      | .ok (some _) => .ok true
    else presence t minimum rest

/-- `HasCheckpoint` -/
def hasCheckpoint (minimum : Nat) (s : Index) : Except Error Bool :=
  if query.input.tokenCount ≠ query.tokens.length then .error .boundaries
  else if minimum > query.tokens.length then .ok false
  else match s.trees.find query.compatibility with
    | none => .ok false
    | some t => presence services query t minimum (t.path query.tokens)

/-- `CachedPrefixTokens` -/
def cachedPrefixTokens (s : Index) : Except Error Nat := do
  let result ← lookup services { query with stablePrefixTokens := 0, reuse := true } s
  return (result.selected.map (·.boundary)).getD 0

end

/-- A run of successful calls, and what it makes of the list. -/
inductive Replay (published : Published) : Index → Flat → Prop
  | initial : Replay published {} {}
  | register {s s' l services identity descriptors digest} (before : Replay published s l)
      (ok : register services identity descriptors digest s = .ok s') :
      Replay published s' (l.register identity descriptors)
  | insert {s s' l services id stable} {checkpoint : Checkpoint} {availability}
      (before : Replay published s l)
      (ok : insert services checkpoint availability stable s = .ok (id, s')) :
      Replay published s' (l.append checkpoint.compatibility
        { checkpoint := some checkpoint, availability := some availability, stable })
  | insertLive {s s' l services id} {frontier : LiveFrontier} (before : Replay published s l)
      (ok : insertLive services frontier s = .ok (id, s')) :
      Replay published s' (l.append frontier.compatibility { live := some frontier })
  | insertDurable {s s' l services id compatibility stable} {durable : DiskDescription}
      (before : Replay published s l) (described : durable.Of published)
      (ok : insertDurable services compatibility durable stable s = .ok (id, s')) :
      Replay published s' (l.append compatibility
        (({ stable } : Record).attach durable (l.descriptors compatibility)))
  | attachDurable {s s' l services id} {durable : DiskDescription}
      (before : Replay published s l) (described : durable.Of published)
      (ok : attachDurable services id durable s = .ok s') :
      Replay published s' (l.entry id fun d r => some (r.attach durable d))
  | dropResident {s l} (services : Services) (id : Nat) (before : Replay published s l) :
      Replay published (dropResident services id s) (l.entry id (Record.drop services))
  | removeDurable {s l} (services : Services) (description : DiskDescription) (corrupt : Bool)
      (before : Replay published s l) :
      Replay published (removeDurable services description corrupt s)
        (l.change fun _ => Record.retract description (corrupt || services.quarantined 0))
  | setAvailability {s s' l services id availability} (before : Replay published s l)
      (ok : setAvailability services id availability s = .ok s') :
      Replay published s'
        (l.entry id fun _ r => some { r with availability := some availability })
  | setLiveAvailable {s s' l id available} (before : Replay published s l)
      (ok : setLiveAvailable id available s = .ok s') :
      Replay published s' (l.entry id fun _ r =>
        some { r with live := r.live.map fun live => { live with available } })
  | erase {s l} (services : Services) (id : Nat) (before : Replay published s l) :
      Replay published (s.erase services id) (l.entry id fun _ _ => none)

section
variable {published : Published} {s s' : Index} {l : Flat} {t : Tree} {r : Record}
  {identity i : Identity} {id : Nat} {services : Services}

theorem Replay.reachable (replay : Replay published s l) : Reachable published s := by
  induction replay with
  | initial => exact .initial
  | register _ ok ih => exact ih.step (.register ok)
  | insert _ ok ih => exact ih.step (.insert ok)
  | insertLive _ ok ih => exact ih.step (.insertLive ok)
  | insertDurable _ described ok ih => exact ih.step (.insertDurable described ok)
  | attachDurable _ described ok ih => exact ih.step (.attachDurable described ok)
  | dropResident services id _ ih => exact ih.step (.dropResident services id)
  | removeDurable services description corrupt _ ih =>
    exact ih.step (.removeDurable services description corrupt)
  | setAvailability _ ok ih => exact ih.step (.setAvailability ok)
  | setLiveAvailable _ ok ih => exact ih.step (.setLiveAvailable ok)
  | erase services id _ ih => exact ih.step (.erase services id)

/-! ## What the tree holds -/

theorem filter_around {a b c : List Record} (distinct : ((a ++ b ++ c).map (·.id)).Nodup)
    (there : b.any (·.id == id)) :
    (a ++ b ++ c).filter (fun r => !(r.id == id)) =
      a ++ b.filter (fun r => !(r.id == id)) ++ c := by
  obtain ⟨r, mem, same⟩ := List.any_eq_true.mp there
  obtain rfl : r.id = id := by simpa using same
  simp only [List.map_append, List.nodup_append, List.mem_append, List.mem_map] at distinct
  obtain ⟨⟨_, _, before⟩, _, after⟩ := distinct
  have left : a.filter (fun x => !(x.id == r.id)) = a := List.filter_eq_self.mpr fun x there => by
    simpa using before _ ⟨x, there, rfl⟩ _ ⟨r, mem, rfl⟩
  have right : c.filter (fun x => !(x.id == r.id)) = c := List.filter_eq_self.mpr fun x there => by
    simpa using (after _ (.inr ⟨r, mem, rfl⟩) _ ⟨x, there, rfl⟩).symm
  rw [List.filter_append, List.filter_append, left, right]

theorem Tree.records_erase (distinct : (t.records.map (·.id)).Nodup) (merge : Nat → Bool) :
    (t.erase merge id).records = t.records.filter fun r => !(r.id == id) := by
  unfold Tree.erase
  split
  · rename_i here
    exact (@filter_around id [] t.values _ distinct here).symm
  · rename_i absent
    have above : ∀ r ∈ t.values, r.id ≠ id := by simpa using absent
    split
    · rename_i removed
      obtain ⟨before, there, after, eq, lost, eq'⟩ := all_remove removed
      have all : t.records = (t.values ++ before.map (·.2)) ++ there.map (·.2) ++
          after.map (·.2) := by simp [Tree.records, eq]
      rw [all] at distinct ⊢
      rw [filter_around distinct (by simpa using lost)]
      simp [Tree.records, eq', List.filter_map, Function.comp_def]
    · rename_i kept
      refine (List.filter_eq_self.mpr fun r mem => ?_).symm
      rcases mem_records.mp mem with mem | ⟨path, mem⟩
      · simpa using above r mem
      · simpa using remove_eq_none kept _ mem

theorem Tree.records_place (r : Record) (t : Tree) :
    (t.place r).records.Perm (t.records ++ [r]) := by
  unfold Tree.place
  split
  · simp only [Tree.records, List.append_assoc]
    exact List.perm_append_comm.append_left _
  · simp only [Tree.records, List.append_assoc]
    refine List.Perm.append_left _ (((all_place r _ _).map _).trans ?_)
    exact (List.perm_append_singleton _ _).symm

theorem Tree.descriptors_place : (t.place r).descriptors = t.descriptors := by
  unfold Tree.place
  split <;> rfl

theorem Index.mem_records : r ∈ s.records i ↔ s.Holds i r := by
  unfold Index.records Index.Holds
  cases s.trees.find i <;> simp

/-- The index means the list. -/
structure Index.Is (s : Index) (l : Flat) : Prop where
  next : l.next = s.next
  inventory : ∀ i, l.inventory i = (s.trees.find i).map (·.descriptors)
  records : ∀ i, (s.records i).Perm (l.records i)
  distinct : ∀ i, ((s.records i).map (·.id)).Nodup

theorem Index.Is.descriptors (is : s.Is l) (tree : s.trees.find i = some t) :
    l.descriptors i = t.descriptors := by
  rw [Flat.descriptors, is.inventory, tree]
  rfl

/-- An entry keeps its id. -/
def Keeps (f : List ComponentDescriptor → Record → Option Record) : Prop :=
  ∀ d r r', f d r = some r' → r'.id = r.id

/-- A call that leaves the inventories, and changes each record by itself. -/
theorem Index.Is.change (is : s.Is l) {f : List ComponentDescriptor → Record → Option Record}
    (next : s'.next = s.next)
    (inventory : ∀ i, (s'.trees.find i).map (·.descriptors) = (s.trees.find i).map (·.descriptors))
    (records : ∀ i, s'.records i = (s.records i).filterMap (f (l.descriptors i)))
    (ids : Keeps f) : s'.Is (l.change f) := by
  refine ⟨is.next.trans next.symm, fun i => (is.inventory i).trans (inventory i).symm,
    fun i => ?_, fun i => ?_⟩
  · rw [records]
    exact (is.records i).filterMap _
  · rw [records, List.Nodup, List.pairwise_map]
    refine (List.pairwise_map.mp (is.distinct i)).filterMap _ fun r r' differ k eq k' eq' => ?_
    rwa [ids _ _ _ eq, ids _ _ _ eq']

theorem Index.records_update (f : Record → Record) :
    (s.update id f).records i = (s.records i).map fun r => if r.id = id then f r else r := by
  simp only [Index.records, Index.update, OrderedMap.find_mapValues]
  cases s.trees.find i <;> simp [Tree.records, Tree.update, all_map, Function.comp_def]

theorem Index.Is.records_erase (is : s.Is l) :
    (s.erase services id).records i = (s.records i).filter fun r => !(r.id == id) := by
  have distinct := is.distinct i
  simp only [Index.records, Index.erase, OrderedMap.find_mapValues] at distinct ⊢
  cases tree : s.trees.find i with
  | none => rfl
  | some t =>
    rw [tree] at distinct
    exact Tree.records_erase distinct _

section entry
variable {f : List ComponentDescriptor → Record → Option Record}

/-- The entry that is found is the only one of its id. -/
theorem Index.Is.only (is : s.Is l) (good : s.Good published) (found : s.get id = some (t, r))
    {r' : Record} (mem : r' ∈ s.records i) (same : r'.id = id) :
    r' = r ∧ l.descriptors i = t.descriptors := by
  obtain ⟨identity, tree, there, rfl⟩ := get_eq_some found
  obtain ⟨rfl, rfl⟩ := good.unique (mem_records.mp mem) ⟨t, tree, there⟩ same
  exact ⟨rfl, is.descriptors tree⟩

variable {c : Record → Option Record}

/-- A call that changes the entry, or takes it away. -/
theorem Index.Is.entry (is : s.Is l)
    (records : ∀ i, s'.records i =
      (s.records i).filterMap fun r => if r.id = id then c r else some r)
    (next : s'.next = s.next)
    (inventory : ∀ i, (s'.trees.find i).map (·.descriptors) = (s.trees.find i).map (·.descriptors))
    (same : ∀ i, ∀ r ∈ s.records i, r.id = id → f (l.descriptors i) r = c r)
    (ids : Keeps f) : s'.Is (l.entry id f) := by
  refine is.change next inventory (fun i => ?_) fun d r r' eq => ?_
  · rw [records]
    refine List.filterMap_congr fun r mem => ?_
    split
    · exact (same i r mem ‹_›).symm
    · rfl
  · split at eq
    · exact ids _ _ _ eq
    · cases eq
      rfl

theorem Index.Is.absent (is : s.Is l) (absent : s.get id = none)
    (ids : Keeps f) : s.Is (l.entry id f) := by
  refine is.entry (c := some) (fun i => by simp) rfl (fun _ => rfl) (fun i r mem same => ?_) ids
  obtain ⟨t, tree, mem⟩ := mem_records.mp mem
  have := List.findSome?_eq_none_iff.mp absent _ (OrderedMap.find_eq_some.mp tree)
  simp only [Option.map_eq_none_iff, List.find?_eq_none] at this
  exact absurd (by simpa using same) (this r mem)

theorem Index.Is.update (is : s.Is l) (good : s.Good published) (found : s.get id = some (t, r))
    {g : Record → Record} (eq : f t.descriptors r = some (g r))
    (ids : Keeps f := by intro _ _ _ eq; cases eq; rfl) : (s.update id g).Is (l.entry id f) := by
  refine is.entry (c := fun r => some (g r)) (fun i => ?_) rfl (fun i => ?_)
    (fun i r' mem same => ?_) ids
  · rw [records_update, ← List.filterMap_eq_map]
    refine List.filterMap_congr fun r' _ => ?_
    split <;> simp [*]
  · simp [Index.update, Tree.update, Function.comp_def]
  · obtain ⟨rfl, same⟩ := is.only good found mem same
    rw [same, eq]

theorem Tree.descriptors_erase (merge : Nat → Bool) :
    (t.erase merge id).descriptors = t.descriptors := by
  unfold Tree.erase
  split
  · rfl
  · split <;> rfl

theorem Index.Is.erase (is : s.Is l)
    (gone : ∀ i, ∀ r ∈ s.records i, r.id = id → f (l.descriptors i) r = none)
    (ids : Keeps f) :
    (s.erase services id).Is (l.entry id f) := by
  refine is.entry (c := fun _ => none) (fun i => ?_) rfl (fun i => ?_) gone ids
  · rw [is.records_erase, ← List.filterMap_eq_filter]
    refine List.filterMap_congr fun r _ => ?_
    split <;> simp_all [Option.guard]
  · simp [Index.erase, Tree.descriptors_erase, Function.comp_def]

end entry

/-! ## Each call -/

/-- A call that adds no record. -/
theorem Index.Is.same (is : s.Is l) {l' : Flat} (next : s'.next = s.next) (next' : l'.next = l.next)
    (kept : l'.records = l.records) (same : ∀ i, s'.records i = s.records i)
    (inventory : ∀ i, l'.inventory i = (s'.trees.find i).map (·.descriptors)) : s'.Is l' :=
  ⟨next'.trans (is.next.trans next.symm), inventory, fun i => by rw [same, kept]; exact is.records i,
    fun i => by rw [same]; exact is.distinct i⟩

theorem Index.Is.register (is : s.Is l) {descriptors : List ComponentDescriptor}
    {digest : Option CompatibilityDigest}
    (ok : register services identity descriptors digest s = .ok s') :
    s'.Is (l.register identity descriptors) := by
  unfold Prefix.register at ok
  split at ok
  · cases ok
  · split at ok
    · cases ok
    · split at ok
      · rename_i t tree
        split at ok
        · cases ok
        · split at ok
          · cases ok
          · obtain rfl : _ = s' := Except.ok.inj ok
            refine is.same rfl rfl rfl (fun i => ?_) fun i => ?_
            · simp only [Index.records, Index.modify, OrderedMap.find_mapValues]
              cases s.trees.find i with
              | none => rfl
              | some t =>
                split <;> rfl
            · by_cases here : i = identity
              · subst here
                simp [Flat.register, Index.modify, is.inventory, tree]
              · simp [Flat.register, Index.modify, here, is.inventory]
      · rename_i absent
        split at ok
        · cases ok
        · obtain rfl : _ = s' := Except.ok.inj ok
          refine is.same rfl rfl rfl (fun i => ?_) fun i => ?_
          · unfold Index.records
            rw [OrderedMap.find_emplace absent]
            split
            · subst i
              rw [absent]
              rfl
            · rfl
          · by_cases here : i = identity
            · subst here
              simp [Flat.register, OrderedMap.find_emplace absent, is.inventory, absent]
            · simp [Flat.register, OrderedMap.find_emplace absent, here, is.inventory]

theorem Index.Is.publish (is : s.Is l) (good : s.Good published)
    (tree : s.trees.find identity = some t)
    (ok : s.publish services identity r = .ok (id, s')) : s'.Is (l.append identity r) := by
  unfold Index.publish at ok
  split at ok
  · cases ok
  · split at ok
    · cases ok
    · have eq := (Prod.mk.inj (Except.ok.inj ok)).2
      have placed := Tree.records_place { r with id := s.next } t
      have here : (s'.records identity).Perm (s.records identity ++ [{ r with id := s.next }]) := by
        subst eq
        simpa [Index.records, Index.modify, tree] using placed
      have other : ∀ i, i ≠ identity → s'.records i = s.records i := by
        intro i differ
        subst eq
        simp [Index.records, Index.modify, differ]
      refine ⟨?_, fun i => ?_, fun i => ?_, fun i => ?_⟩
      · rw [← eq]
        exact congrArg (· + 1) is.next
      · rw [← eq]
        simp [Flat.append, Index.modify, is.inventory, Function.comp_def,
          apply_ite Tree.descriptors, Tree.descriptors_place]
      · by_cases at_ : i = identity
        · subst at_
          simpa [Flat.append, is.next] using here.trans ((is.records i).append_right _)
        · simpa [Flat.append, at_, other i at_] using is.records i
      · by_cases at_ : i = identity
        · subst at_
          rw [(here.map _).nodup_iff, List.map_append, List.map_singleton, List.nodup_append]
          refine ⟨is.distinct i, List.nodup_singleton _, fun k mem k' last same => ?_⟩
          obtain ⟨r', there, rfl⟩ := List.mem_map.mp mem
          have := good.fresh (Index.mem_records.mp there)
          simp_all
        · rw [other i at_]
          exact is.distinct i

theorem Index.Is.dropResident (is : s.Is l) (good : s.Good published) (services : Services)
    (id : Nat) : (dropResident services id s).Is (l.entry id (Record.drop services)) := by
  have ids : Keeps (Record.drop services) := by
    intro d r r' eq
    unfold Record.drop at eq
    split at eq
    · cases eq
      rfl
    · cases eq
  unfold Prefix.dropResident
  split
  · exact is.absent ‹_› ids
  · rename_i t r found
    obtain ⟨_, _, _, rfl⟩ := get_eq_some found
    split
    · rename_i complete
      exact is.update good found (if_pos complete) ids
    · rename_i incomplete
      refine is.erase (fun i r' mem same => ?_) ids
      obtain ⟨rfl, inventory⟩ := is.only good found mem same
      rw [inventory]
      exact if_neg incomplete

section retract
variable {description : DiskDescription} {corrupt : Bool}

/-- A record that is retracted is not retracted again. -/
theorem Record.retract_spec {r' : Record} (kept : r.retract description corrupt = some r') :
    r'.id = r.id ∧ r'.retract description corrupt = some r' := by
  unfold Record.retract at kept ⊢
  split at kept
  · split at kept
    · cases kept
    · cases kept
      exact ⟨rfl, by simp⟩
  · cases kept
    exact ⟨rfl, if_neg ‹_›⟩

theorem Index.Is.removeFrom (is : s.Is l) (good : s.Good published) (services : Services)
    (description : DiskDescription) (corrupt : Bool) (id : Nat) :
    (removeFrom services description corrupt s id).Is
      (l.entry id fun _ => Record.retract description corrupt) := by
  have ids : Keeps fun _ => Record.retract description corrupt :=
    fun _ _ _ eq => (Record.retract_spec eq).1
  unfold Prefix.removeFrom
  split
  · exact is.absent ‹_› ids
  · rename_i t r found
    split
    · rename_i published
      split
      · rename_i alone
        refine is.erase (fun i r' mem same => ?_) ids
        obtain ⟨rfl, _⟩ := is.only good found mem same
        exact (if_pos published).trans (if_pos alone)
      · rename_i resident
        exact is.update good found ((if_pos published).trans (if_neg resident)) ids
    · rename_i other
      refine is.entry (c := some) (fun i => by simp) rfl (fun _ => rfl) (fun i r' mem same => ?_)
        ids
      obtain ⟨rfl, _⟩ := is.only good found mem same
      exact if_neg other

/-- What is left of the list when these entries have been passed. -/
def Flat.passed (description : DiskDescription) (corrupt : Bool) (ids : List Nat) (l : Flat) :
    Flat :=
  l.change fun _ r => if r.id ∈ ids then r.retract description corrupt else some r

theorem Flat.passed_append (ids : List Nat) (id : Nat) :
    (l.passed description corrupt ids).entry id (fun _ => Record.retract description corrupt) =
      l.passed description corrupt (ids ++ [id]) := by
  unfold Flat.entry Flat.passed Flat.change
  simp only [List.filterMap_filterMap, Flat.mk.injEq, true_and, and_true]
  funext i
  refine List.filterMap_congr fun r _ => ?_
  by_cases before : r.id ∈ ids
  · simp only [before, if_true, List.mem_append, true_or]
    cases eq : r.retract description corrupt with
    | none => rfl
    | some r' =>
      rw [Option.bind_some, (Record.retract_spec eq).2, ite_self]
  · simp [before]

theorem Index.Is.removeLoop {passed : List Nat} (services : Services) (ids : List Nat)
    (is : s.Is (l.passed description corrupt passed)) (good : s.Good published) :
    (ids.foldl (Prefix.removeFrom services description corrupt) s).Is
      (l.passed description corrupt (passed ++ ids)) := by
  induction ids generalizing s passed with
  | nil => simpa using is
  | cons id rest ih =>
    have next := is.removeFrom good services description corrupt id
    rw [Flat.passed_append] at next
    simpa using ih next (good.removeFrom services description corrupt id)

theorem Index.Is.removeDurable (is : s.Is l) (good : s.Good published) (services : Services)
    (description : DiskDescription) (corrupt : Bool) :
    (removeDurable services description corrupt s).Is (l.change fun _ =>
      Record.retract description (corrupt || services.quarantined 0)) := by
  have none_passed : l.passed description (corrupt || services.quarantined 0) [] = l := by
    simp [Flat.passed, Flat.change]
  have all := (none_passed.symm ▸ is).removeLoop services s.directory good
  have eq : l.passed description (corrupt || services.quarantined 0) ([] ++ s.directory) =
      l.change fun _ => Record.retract description (corrupt || services.quarantined 0) := by
    unfold Flat.passed Flat.change
    simp only [Flat.mk.injEq, true_and, and_true]
    funext i
    refine List.filterMap_congr fun r mem => if_pos ?_
    obtain ⟨t, tree, mem⟩ := Index.mem_records.mp ((is.records i).mem_iff.mpr mem)
    simp only [List.nil_append, Index.directory, List.mem_mergeSort, List.mem_flatMap]
    exact ⟨_, OrderedMap.find_eq_some.mp tree, List.mem_map_of_mem mem⟩
  rwa [eq] at all
end retract

theorem Replay.is (replay : Replay published s l) : s.Is l := by
  have good := fun {s l} (before : Replay published s l) => before.reachable.good
  induction replay with
  | initial =>
    refine ⟨rfl, fun _ => rfl, fun _ => .nil, fun _ => .nil⟩
  | register _ ok ih => exact ih.register ok
  | insert before ok ih =>
    unfold Prefix.insert at ok
    split at ok
    · cases ok
    · split at ok
      · cases ok
      · split at ok
        · cases ok
        · exact ih.publish (good before) ‹_› ok
  | insertLive before ok ih =>
    unfold Prefix.insertLive at ok
    split at ok
    · cases ok
    · exact ih.publish (good before) ‹_› ok
  | insertDurable before _ ok ih =>
    unfold Prefix.insertDurable at ok
    split at ok
    · cases ok
    · rename_i t tree
      split at ok
      · cases ok
      · rw [ih.descriptors tree]
        exact ih.publish (good before) tree ok
  | attachDurable before described ok ih =>
    unfold Prefix.attachDurable at ok
    split at ok
    · cases ok
    · rename_i found
      split at ok
      · cases ok
      · dsimp only at ok
        split at ok
        · cases ok
        · split at ok
          · cases ok
          · cases ok
            exact ih.update (good before) found rfl
  | dropResident services id before ih => exact ih.dropResident (good before) services id
  | removeDurable services description corrupt before ih =>
    exact ih.removeDurable (good before) services description corrupt
  | setAvailability before ok ih =>
    unfold Prefix.setAvailability at ok
    split at ok
    · cases ok
    · rename_i found
      split at ok
      · cases ok
      · split at ok
        · cases ok
        · split at ok
          · cases ok
          · cases ok
            exact ih.update (good before) found rfl
  | setLiveAvailable before ok ih =>
    unfold Prefix.setLiveAvailable at ok
    split at ok
    · cases ok
    · rename_i found
      split at ok
      · cases ok
      · cases ok
        exact ih.update (good before) found rfl
  | erase services id before ih => exact ih.erase (fun _ _ _ _ => rfl) fun _ _ _ eq => by cases eq

/-! ## Lookup -/

section
variable {query : PrefixQuery} {records : List Record} {start found : Scan}

theorem Tree.path_eq (shaped : t.Shaped) (tokens : List Token) :
    t.path tokens = t.records.filter fun r => decide (r.tokens <+: tokens) := by
  have root : t.values.filter (fun r => decide (r.tokens <+: tokens)) = t.values :=
    List.filter_eq_self.mpr fun r mem => by simp [shaped.root r mem]
  have below : (t.forest.all.filter fun p => decide (p.1 <+: tokens)) =
      t.forest.all.filter fun p => decide (p.2.tokens <+: tokens) :=
    List.filter_congr fun p mem => by rw [shaped.placed p mem]
  rw [Tree.path, along_eq shaped.proper, below, Tree.records, List.filter_append, root,
    List.filter_map]
  rfl

/-- The world's answers do not depend on the tree. -/
theorem usable_eq (at_ : query.input.at_ r.boundary = some r.input) {o : Option PrefixCandidate}
    (eq : candidate services t r = .ok o) : Flat.usable services query t.descriptors r = o := by
  have same : candidate services { descriptors := t.descriptors } r = candidate services t r := rfl
  simp [Flat.usable, at_, same, eq, Except.toOption]

theorem scan_eq (ok : scan services t query records start = .ok found) :
    found.candidates = start.candidates ++
        records.filterMap (Flat.usable services query t.descriptors) ∧
      found.fallback = (start.fallback || records.any fun r =>
        (Flat.usable services query t.descriptors r).isSome &&
          r.establishes query.stablePrefixTokens) := by
  induction records generalizing start with
  | nil =>
    cases ok
    simp
  | cons r rest ih =>
    unfold scan at ok
    split at ok
    · rename_i other
      have unusable : Flat.usable services query t.descriptors r = none := if_neg other
      simpa [unusable] using ih ok
    · rename_i at_
      have at_ := not_not.mp at_
      split at ok
      · cases ok
      · rename_i eq
        simpa [usable_eq at_ eq] using ih ok
      · rename_i c eq
        simpa [usable_eq at_ eq, Bool.or_assoc] using ih ok

theorem presence_eq {minimum : Nat} {b : Bool}
    (ok : presence services query t minimum records = .ok b) :
    b = records.any fun r => r.live.isNone && decide (r.boundary ≥ minimum) &&
      (Flat.usable services query t.descriptors r).isSome := by
  induction records with
  | nil =>
    cases ok
    rfl
  | cons r rest ih =>
    unfold presence at ok
    split at ok
    · rename_i asked
      simp only [Bool.and_eq_true, decide_eq_true_eq] at asked
      split at ok
      · cases ok
      · rename_i eq
        simpa [usable_eq asked.2 eq] using ih ok
      · rename_i c eq
        cases ok
        simp [usable_eq asked.2 eq, asked.1]
    · rename_i other
      by_cases at_ : query.input.at_ r.boundary = some r.input
      · have out : (r.live.isNone && decide (r.boundary ≥ minimum)) = false := by
          simpa [at_] using other
        simpa [out] using ih ok
      · have unusable : Flat.usable services query t.descriptors r = none := if_neg at_
        simpa [unusable] using ih ok

theorem candidate_entry {c : PrefixCandidate} (eq : candidate services t r = .ok (some c)) :
    c.entry = r.id := by
  unfold candidate at eq
  split at eq
  · split at eq <;> cases eq
    rfl
  · split at eq
    · cases eq
    · split at eq
      · cases eq
      · split at eq
        · cases eq
        · split at eq
          · cases eq
          · split at eq <;> cases eq
            rfl

theorem usable_entry {d : List ComponentDescriptor} {c : PrefixCandidate}
    (eq : Flat.usable services query d r = some c) : c.entry = r.id := by
  unfold Flat.usable at eq
  split at eq
  · cases found : candidate services { descriptors := d } r with
    | error => simp [found, Except.toOption] at eq
    | ok o =>
      obtain rfl : o = some c := by simpa [found, Except.toOption] using eq
      exact candidate_entry found
  · cases eq

/-- Entries tell candidates apart, so the order leaves no choice. -/
theorem sortCandidates_perm {a b : List PrefixCandidate} (perm : a.Perm b)
    (distinct : (a.map (·.entry)).Nodup) : sortCandidates a = sortCandidates b := by
  have sorted : ∀ l, (sortCandidates l).Pairwise fun x y => x.key ≤ y.key := fun l =>
    (List.pairwise_mergeSort (fun x y z => by simpa using le_trans) (fun x y => by
      simpa using le_total x.key y.key) l).imp of_decide_eq_true
  refine List.Perm.eq_of_pairwise (fun x y mem mem' le ge => ?_) (sorted a) (sorted b)
    ((List.mergeSort_perm a _).trans (perm.trans (List.mergeSort_perm b _).symm))
  have entry : x.entry = y.entry := by
    have same := le_antisymm le ge
    simp only [PrefixCandidate.key, List.cons.injEq] at same
    exact same.2.2.2.2.1
  exact List.inj_on_of_nodup_map distinct (List.mem_mergeSort.mp mem)
    (perm.mem_iff.mpr (List.mem_mergeSort.mp mem')) entry

/-- The records that the search passes are those of the list. -/
theorem Index.Is.passing (is : s.Is l) (shaped : t.Shaped)
    (tree : s.trees.find query.compatibility = some t) :
    (t.path query.tokens).Perm (l.passing query) := by
  have same := is.records query.compatibility
  rw [Index.records, tree] at same
  rw [Tree.path_eq shaped]
  exact same.filter _

theorem Index.Is.passing_of_none (is : s.Is l) (absent : s.trees.find query.compatibility = none) :
    l.passing query = [] := by
  have none_stored := is.records query.compatibility
  rw [Index.records, absent] at none_stored
  rw [Flat.passing, List.nil_perm.mp none_stored]
  rfl

/-- Each candidate has an entry of its own. -/
theorem distinct_entries {d : List ComponentDescriptor} (distinct : (records.map (·.id)).Nodup) :
    ((records.filterMap (Flat.usable services query d)).map (·.entry)).Nodup := by
  rw [List.Nodup, List.pairwise_map] at distinct ⊢
  refine distinct.filterMap _ fun r r' differ c eq c' eq' => ?_
  rwa [usable_entry eq, usable_entry eq']

theorem select_eq {l : Flat} (passing : records.Perm (l.passing query))
    (inventory : l.descriptors query.compatibility = t.descriptors)
    (distinct : (records.map (·.id)).Nodup)
    (scanned : scan services t query records { fallback := query.stablePrefixTokens == 0 } =
      .ok found) :
    (select query found).candidates = l.candidates services query ∧
      (select query found).selected = (select query found).candidates.head? := by
  obtain ⟨candidates, fallback⟩ := scan_eq scanned
  constructor
  · rw [select_candidates]
    simp only [candidates, Flat.candidates, inventory, fallback, passing.any_eq, List.nil_append]
    refine sortCandidates_perm ((passing.filterMap _).filter _) ?_
    exact (distinct_entries distinct).sublist (List.filter_sublist.map _)
  · unfold select
    dsimp only
    split <;> simp_all

variable {result : PrefixLookup}

theorem Replay.lookup_eq (replay : Replay published s l) (reuse : query.reuse = true)
    (ok : lookup services query s = .ok result) :
    result.candidates = l.candidates services query ∧
      result.selected = result.candidates.head? := by
  have is := replay.is
  unfold lookup at ok
  split at ok
  · cases ok
  · rw [if_neg (by simp [reuse])] at ok
    split at ok
    · rename_i absent
      cases ok
      simp [Flat.candidates, is.passing_of_none absent, sortCandidates]
    · rename_i t tree
      have shaped := (replay.reachable.good.trees tree).shaped
      have distinct := is.distinct query.compatibility
      rw [Index.records, tree] at distinct
      split at ok
      · cases ok
      · split at ok
        · cases ok
        · rename_i found scanned
          obtain rfl : _ = result := Except.ok.inj ok
          refine select_eq (is.passing shaped tree) (is.descriptors tree) ?_ scanned
          rw [Tree.path_eq shaped]
          exact distinct.sublist (List.filter_sublist.map _)

theorem Replay.hasCheckpoint_eq (replay : Replay published s l) {minimum : Nat} {b : Bool}
    (ok : hasCheckpoint services query minimum s = .ok b) :
    b = l.hasCheckpoint services query minimum := by
  have is := replay.is
  unfold hasCheckpoint at ok
  split at ok
  · cases ok
  · split at ok
    · cases ok
      refine (List.any_eq_false.mpr fun r mem => ?_).symm
      have short := (of_decide_eq_true (List.mem_filter.mp mem).2).length_le
      simp [Record.boundary, show ¬minimum ≤ r.tokens.length by omega]
    · split at ok
      · rename_i absent
        cases ok
        rw [Flat.hasCheckpoint, is.passing_of_none absent]
        rfl
      · rename_i t tree
        rw [presence_eq ok, Flat.hasCheckpoint, is.descriptors tree]
        exact (is.passing (replay.reachable.good.trees tree).shaped tree).any_eq

/-- What the calls answer is what a scan of the list answers. -/
theorem Replay.answers (replay : Replay published s l) (services : Services)
    (query : PrefixQuery) :
    (∀ result, query.reuse = true → lookup services query s = .ok result →
      result.candidates = l.candidates services query ∧
        result.selected = (l.candidates services query).head?) ∧
    (∀ minimum b, hasCheckpoint services query minimum s = .ok b →
      b = l.hasCheckpoint services query minimum) ∧
    ∀ n, cachedPrefixTokens services query s = .ok n →
      n = (((l.candidates services { query with stablePrefixTokens := 0 }).head?).map
        (·.boundary)).getD 0 := by
  refine ⟨fun result reuse ok => ?_, fun minimum b ok => replay.hasCheckpoint_eq ok,
    fun n ok => ?_⟩
  · obtain ⟨candidates, selected⟩ := replay.lookup_eq reuse ok
    exact ⟨candidates, candidates ▸ selected⟩
  · unfold cachedPrefixTokens at ok
    cases looked : lookup services { query with stablePrefixTokens := 0, reuse := true } s with
    | error e => simp [looked, bind, Except.bind] at ok
    | ok result =>
      obtain ⟨candidates, selected⟩ := replay.lookup_eq rfl looked
      simp only [looked, bind, Except.bind, pure, Except.pure, Except.ok.injEq] at ok
      rw [← ok, selected, candidates]
      rfl

/-- Two frontiers that share the beginning of an edge, of which the query passes one. -/
theorem Replay.answers_of_two :
    let query : PrefixQuery := { compatibility := [7], tokens := [1, 2, 3], input := ⟨3, [9], []⟩ }
    ∃ s l result, Replay (fun _ _ _ => none) s l ∧ lookup {} query s = .ok result ∧
      result.selected = (l.candidates {} query).head? ∧ result.candidates ≠ [] := by
  intro query
  have replay := @Replay.insertLive _ _ _ _ {} _ ⟨⟨1, 1⟩, [1, 2, 3], [7], [9], [⟨1, 3⟩], true⟩
    (@Replay.insertLive _ _ _ _ {} _ ⟨⟨0, 1⟩, [1, 2, 5, 6], [7], [9], [], true⟩
      (@Replay.register (fun _ _ _ => none) _ _ _ {} [7] [⟨1, .appendRows, 1, 4, 2, 0⟩] none
        .initial rfl) rfl) rfl
  refine ⟨_, _, _, replay, rfl, ((replay.answers {} query).1 _ rfl rfl).2, ?_⟩
  exact List.ne_nil_of_mem (mem_select.mpr ⟨List.mem_singleton_self _, .inl rfl⟩)

end
end
end Gufo.Prefix
