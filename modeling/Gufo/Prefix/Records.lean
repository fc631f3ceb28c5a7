import Gufo.Prefix.State

/-!
# What the index holds

In every state that is reached, each record lies in the tree at its own token sequence,
has an id of its own, and keeps its sources consistent: a checkpoint in RAM and a
publication on disk of one record are the same checkpoint.
-/

namespace Gufo.Prefix
open Gufo.Radix
open Gufo.Execution (Token Identity ComponentDescriptor)

variable {published : Published} {s s' : Index} {t t' : Tree} {r r' : Record} {identity : Identity}
  {id : Nat} {services : Services}

/-! ## Trees -/

theorem mem_records : r ∈ t.records ↔ r ∈ t.values ∨ ∃ path, (path, r) ∈ t.forest.all := by
  simp [Tree.records]

/-- Every record is found at its token sequence. -/
structure Tree.Shaped (t : Tree) : Prop where
  proper : t.forest.Proper
  root : ∀ r ∈ t.values, r.tokens = []
  placed : ∀ p ∈ t.forest.all, p.2.tokens = p.1

theorem mem_place_records : r' ∈ (t.place r).records ↔ r' = r ∨ r' ∈ t.records := by
  unfold Tree.place
  split
  · simp only [mem_records, List.mem_append, List.mem_singleton]
    tauto
  · simp only [mem_records, mem_place, Prod.mk.injEq]
    constructor
    · rintro (mem | ⟨path, ⟨_, eq⟩ | mem⟩)
      · exact .inr (.inl mem)
      · exact .inl eq
      · exact .inr (.inr ⟨path, mem⟩)
    · rintro (rfl | mem | ⟨path, mem⟩)
      · exact .inr ⟨_, .inl ⟨rfl, rfl⟩⟩
      · exact .inl mem
      · exact .inr ⟨path, .inr mem⟩

theorem Tree.Shaped.place (shaped : t.Shaped) (r : Record) : (t.place r).Shaped := by
  unfold Tree.place
  split
  · rename_i empty
    refine ⟨shaped.proper, fun r' mem => ?_, shaped.placed⟩
    rcases List.mem_append.mp mem with mem | mem
    · exact shaped.root r' mem
    · rwa [List.mem_singleton.mp mem]
  · rename_i ne
    refine ⟨proper_place shaped.proper ne, shaped.root, fun p mem => ?_⟩
    rcases mem_place.mp mem with rfl | mem
    · rfl
    · exact shaped.placed p mem

theorem mem_erase_records {merge : Nat → Bool} (mem : r ∈ (t.erase merge id).records) :
    r ∈ t.records := by
  unfold Tree.erase at mem
  split at mem
  · rw [mem_records] at mem ⊢
    exact mem.imp_left fun mem => (List.mem_filter.mp mem).1
  · split at mem
    · rename_i removed
      rw [mem_records] at mem ⊢
      exact mem.imp_right fun ⟨path, mem⟩ => ⟨path, mem_of_remove removed mem⟩
    · exact mem

theorem Tree.Shaped.erase (shaped : t.Shaped) (merge : Nat → Bool) (id : Nat) :
    (t.erase merge id).Shaped := by
  unfold Tree.erase
  split
  · exact ⟨shaped.proper, fun r mem => shaped.root r (List.mem_filter.mp mem).1, shaped.placed⟩
  · split
    · rename_i removed
      exact ⟨(remove_narrows removed shaped.proper).1, shaped.root,
        fun p mem => shaped.placed p (mem_of_remove removed mem)⟩
    · exact shaped

theorem mem_update_records {f : Record → Record} :
    r' ∈ (t.update id f).records ↔ ∃ r ∈ t.records, (if r.id = id then f r else r) = r' := by
  simp only [Tree.records, Tree.update, all_map, List.map_map, Function.comp_def,
    ← List.mem_map, List.map_append]

theorem Tree.Shaped.update (shaped : t.Shaped) {f : Record → Record}
    (keeps : ∀ r ∈ t.records, r.id = id → (f r).tokens = r.tokens) :
    (t.update id f).Shaped := by
  have same : ∀ r ∈ t.records, (if r.id = id then f r else r).tokens = r.tokens := by
    intro r mem
    split
    · exact keeps r mem ‹_›
    · rfl
  refine ⟨proper_map shaped.proper, fun r mem => ?_, fun p mem => ?_⟩
  · obtain ⟨old, there, rfl⟩ := List.mem_map.mp mem
    exact (same old (mem_records.mpr (.inl there))).trans (shaped.root old there)
  · rw [Tree.update, all_map] at mem
    obtain ⟨old, there, rfl⟩ := List.mem_map.mp mem
    exact (same old.2 (mem_records.mpr (.inr ⟨_, there⟩))).trans (shaped.placed old there)

/-! ## Records -/

/-- The sources of a record are consistent. -/
structure Record.Sound (published : Published) (t : Tree) (r : Record) : Prop where
  exclusive : r.live.isSome → r.checkpoint = none ∧ r.durable = none
  stored : r.live = none → r.availability.isSome ∧ (r.checkpoint.isSome ∨ r.durable.isSome)
  described : ∀ d, r.durable = some d → d.Of published ∧ durableCoherent t d = true
  agrees : ∀ k d, r.checkpoint = some k → r.durable = some d →
    matchesCheckpoint k d.manifest = .ok ()

/-- A tree that has the digest that its records were checked against, and its inventory. -/
def Tree.Extends (t t' : Tree) : Prop :=
  t'.descriptors = t.descriptors ∧ ∀ digest, t.digest = some digest → t'.digest = some digest

theorem Record.Sound.extend (sound : r.Sound published t) (extend : t.Extends t') :
    r.Sound published t' := by
  refine ⟨sound.exclusive, sound.stored, fun d durable => ?_, sound.agrees⟩
  obtain ⟨of, coherent⟩ := sound.described d durable
  refine ⟨of, ?_⟩
  simp only [durableCoherent, Bool.and_eq_true, decide_eq_true_eq] at coherent ⊢
  rw [extend.1]
  exact ⟨⟨extend.2 _ coherent.1.1, coherent.1.2⟩, coherent.2⟩

/-- What `AttachDurable` has checked for a checkpoint in RAM. -/
theorem matchesCheckpoint_ok {k : Checkpoint} {m : DiskManifest}
    (ok : matchesCheckpoint k m = .ok ()) :
    k.tokens = m.tokens ∧ k.components.length = m.components.length ∧
      ∀ c ∈ k.components, ∃ c' ∈ m.components, c'.descriptor = c.descriptor := by
  unfold matchesCheckpoint at ok
  split at ok
  · cases ok
  · rename_i equal
    push Not at equal
    obtain ⟨_, _, _, tokens, length⟩ := equal
    split at ok
    · rename_i all
      refine ⟨tokens, length, fun c mem => ?_⟩
      have found := List.all_eq_true.mp all c mem
      cases eq : m.components.find? (same c.descriptor ·.descriptor) with
      | none => simp [eq] at found
      | some c' =>
        have same : c.descriptor = c'.descriptor := by simpa [same] using List.find?_some eq
        exact ⟨c', List.mem_of_find?_eq_some eq, same.symm⟩
    · cases ok

/-! ## The index -/

/-- A record of the tree of an identity. -/
def Index.Holds (s : Index) (identity : Identity) (r : Record) : Prop :=
  ∃ t, s.trees.find identity = some t ∧ r ∈ t.records

structure Tree.Good (published : Published) (t : Tree) : Prop where
  inventory : t.descriptors ≠ []
  distinct : (t.descriptors.map (·.id)).Nodup
  shaped : t.Shaped
  sound : ∀ r ∈ t.records, r.Sound published t

structure Index.Good (published : Published) (s : Index) : Prop where
  trees : ∀ {identity t}, s.trees.find identity = some t → t.Good published
  fresh : ∀ {identity r}, s.Holds identity r → r.id < s.next
  unique : ∀ {i i' r r'}, s.Holds i r → s.Holds i' r' → r.id = r'.id → i = i' ∧ r = r'

/-! ## What each call preserves -/

theorem get_eq_some (found : s.get id = some (t, r)) :
    ∃ identity, s.trees.find identity = some t ∧ r ∈ t.records ∧ r.id = id := by
  obtain ⟨⟨identity, t'⟩, mem, eq⟩ := List.exists_of_findSome?_eq_some found
  obtain ⟨r', found, eq⟩ := Option.map_eq_some_iff.mp eq
  cases eq
  exact ⟨identity, OrderedMap.find_eq_some.mpr mem, List.mem_of_find?_eq_some found,
    by simpa using List.find?_some found⟩

theorem Index.Good.update (good : s.Good published) (found : s.get id = some (t, r))
    {f : Record → Record} (id_eq : (f r).id = r.id) (tokens : (f r).tokens = r.tokens)
    (sound : (f r).Sound published t) : (s.update id f).Good published := by
  obtain ⟨identity, tree, mem, rfl⟩ := get_eq_some found
  -- The entry is the only record that changes.
  have only : ∀ {i t' r'}, s.trees.find i = some t' → r' ∈ t'.records → r'.id = r.id →
      t' = t ∧ r' = r := by
    intro i t' r' tree' mem' same
    obtain ⟨rfl, rfl⟩ := good.unique ⟨t', tree', mem'⟩ ⟨t, tree, mem⟩ same
    exact ⟨Option.some.inj (tree'.symm.trans tree), rfl⟩
  have origin : ∀ {i r'}, (s.update r.id f).Holds i r' → ∃ r₀, s.Holds i r₀ ∧ r'.id = r₀.id ∧
      (if r₀.id = r.id then f r₀ else r₀) = r' := by
    rintro i r' ⟨t', tree', mem'⟩
    rw [Index.update, OrderedMap.find_mapValues] at tree'
    obtain ⟨t₀, tree₀, rfl⟩ := Option.map_eq_some_iff.mp tree'
    obtain ⟨r₀, mem₀, rfl⟩ := mem_update_records.mp mem'
    refine ⟨r₀, ⟨t₀, tree₀, mem₀⟩, ?_, rfl⟩
    split
    · rw [(only tree₀ mem₀ ‹_›).2, id_eq]
    · rfl
  refine ⟨?_, ?_, ?_⟩
  · intro i t' tree'
    rw [Index.update, OrderedMap.find_mapValues] at tree'
    obtain ⟨t₀, tree₀, rfl⟩ := Option.map_eq_some_iff.mp tree'
    have good₀ := good.trees tree₀
    refine ⟨good₀.inventory, good₀.distinct, good₀.shaped.update fun r' mem' same => ?_,
      fun r' mem' => ?_⟩
    · rw [(only tree₀ mem' same).2, tokens]
    · obtain ⟨r₀, mem₀, rfl⟩ := mem_update_records.mp mem'
      split
      · obtain ⟨rfl, rfl⟩ := only tree₀ mem₀ ‹_›
        exact sound.extend ⟨rfl, fun _ eq => eq⟩
      · exact (good₀.sound r₀ mem₀).extend ⟨rfl, fun _ eq => eq⟩
  · intro i r' holds
    obtain ⟨r₀, holds₀, eq, _⟩ := origin holds
    exact eq ▸ good.fresh holds₀
  · intro i i' r₁ r₂ holds₁ holds₂ same
    obtain ⟨a, holdsA, eqA, rfl⟩ := origin holds₁
    obtain ⟨b, holdsB, eqB, rfl⟩ := origin holds₂
    obtain ⟨rfl, rfl⟩ := good.unique holdsA holdsB (eqA.symm.trans (same.trans eqB))
    exact ⟨rfl, rfl⟩

theorem Index.Good.erase (good : s.Good published) (services : Services) (id : Nat) :
    (s.erase services id).Good published := by
  have origin : ∀ {i r}, (s.erase services id).Holds i r → s.Holds i r := by
    rintro i r ⟨t, tree, mem⟩
    rw [Index.erase, OrderedMap.find_mapValues] at tree
    obtain ⟨t₀, tree₀, rfl⟩ := Option.map_eq_some_iff.mp tree
    exact ⟨t₀, tree₀, mem_erase_records mem⟩
  refine ⟨fun {i t} tree => ?_, fun holds => good.fresh (origin holds),
    fun holds holds' => good.unique (origin holds) (origin holds')⟩
  rw [Index.erase, OrderedMap.find_mapValues] at tree
  obtain ⟨t₀, tree₀, rfl⟩ := Option.map_eq_some_iff.mp tree
  have good₀ := good.trees tree₀
  have same : (t₀.erase (services.merge id) id).descriptors = t₀.descriptors ∧
      (t₀.erase (services.merge id) id).digest = t₀.digest := by
    unfold Tree.erase
    split
    · exact ⟨rfl, rfl⟩
    · split <;> exact ⟨rfl, rfl⟩
  exact ⟨by rw [same.1]; exact good₀.inventory, by rw [same.1]; exact good₀.distinct,
    good₀.shaped.erase _ id, fun r mem => (good₀.sound r (mem_erase_records mem)).extend
      ⟨same.1, fun _ eq => by rw [same.2, eq]⟩⟩

/-- A new entry; `publish` gives it the next id. -/
theorem Index.Good.publish (good : s.Good published) {n : Nat}
    (tree : s.trees.find identity = some t)
    (sound : ∀ id, Record.Sound published t { r with id := id })
    (ok : s.publish services identity r = .ok (n, s')) : s'.Good published := by
  unfold Index.publish at ok
  split at ok
  · cases ok
  · split at ok
    · cases ok
    · obtain rfl : _ = s' := congrArg Prod.snd (Except.ok.inj ok)
      set fresh : Record := { r with id := s.next }
      have origin : ∀ {i r'}, (s.modify identity (Tree.place fresh)).Holds i r' →
          (i = identity ∧ r' = fresh) ∨ s.Holds i r' := by
        rintro i r' ⟨t', tree', mem'⟩
        rw [Index.modify, OrderedMap.find_mapValues] at tree'
        obtain ⟨t₀, tree₀, rfl⟩ := Option.map_eq_some_iff.mp tree'
        split at mem'
        · rcases mem_place_records.mp mem' with rfl | mem'
          · exact .inl ⟨‹_›, rfl⟩
          · exact .inr ⟨t₀, tree₀, mem'⟩
        · exact .inr ⟨t₀, tree₀, mem'⟩
      refine ⟨?_, ?_, ?_⟩
      · intro i t' tree'
        simp only [Index.modify, OrderedMap.find_mapValues] at tree'
        obtain ⟨t₀, tree₀, rfl⟩ := Option.map_eq_some_iff.mp tree'
        have good₀ := good.trees tree₀
        split
        · rename_i same
          subst same
          obtain rfl : t₀ = t := Option.some.inj (tree₀.symm.trans tree)
          have kept : (t₀.place fresh).descriptors = t₀.descriptors ∧
              (t₀.place fresh).digest = t₀.digest := by
            unfold Tree.place
            split <;> exact ⟨rfl, rfl⟩
          have extend : t₀.Extends (t₀.place fresh) := ⟨kept.1, fun _ eq => by rw [kept.2, eq]⟩
          refine ⟨by rw [kept.1]; exact good₀.inventory, by rw [kept.1]; exact good₀.distinct,
            good₀.shaped.place fresh, fun r' mem' => ?_⟩
          rcases mem_place_records.mp mem' with rfl | mem'
          · exact (sound s.next).extend extend
          · exact (good₀.sound r' mem').extend extend
        · exact good₀
      · intro i r' holds
        rcases origin holds with ⟨_, rfl⟩ | holds
        · exact Nat.lt_succ_self _
        · exact Nat.lt_succ_of_lt (good.fresh holds)
      · intro i i' a b holds holds' same
        rcases origin holds with ⟨rfl, rfl⟩ | old <;>
          rcases origin holds' with ⟨rfl, rfl⟩ | old'
        · exact ⟨rfl, rfl⟩
        · exact absurd same.symm (good.fresh old').ne
        · exact absurd same (good.fresh old).ne
        · exact good.unique old old' same

theorem checkInventory_ok {ids : List Nat} {descriptors : List ComponentDescriptor}
    (ok : checkInventory ids descriptors = .ok ()) :
    (descriptors.map (·.id)).Nodup ∧ ∀ d ∈ descriptors, d.id ∉ ids := by
  induction descriptors generalizing ids with
  | nil => simp
  | cons d rest ih =>
    unfold checkInventory at ok
    split at ok
    · cases ok
    · split at ok
      · cases ok
      · rename_i new
        obtain ⟨nodup, apart⟩ := ih ok
        refine ⟨List.nodup_cons.mpr ⟨fun mem => ?_, nodup⟩, fun d' mem => ?_⟩
        · obtain ⟨d', mem, eq⟩ := List.mem_map.mp mem
          exact apart d' mem (eq ▸ List.mem_cons_self)
        · rcases List.mem_cons.mp mem with rfl | mem
          · exact new
          · exact fun there => apart d' mem (List.mem_cons_of_mem _ there)

theorem Index.Good.register (good : s.Good published) {descriptors : List ComponentDescriptor}
    {digest : Option CompatibilityDigest}
    (ok : register services identity descriptors digest s = .ok s') : s'.Good published := by
  unfold Prefix.register at ok
  split at ok
  · cases ok
  · rename_i some_components
    split at ok
    · cases ok
    · rename_i checked
      split at ok
      · rename_i t tree
        split at ok
        · cases ok
        · split at ok
          · cases ok
          · rename_i unchanged
            obtain rfl : _ = s' := Except.ok.inj ok
            have extend : t.Extends { t with digest := digest.or t.digest } := by
              refine ⟨rfl, fun digest' eq => ?_⟩
              cases digest with
              | none => simpa using eq
              | some other => simpa [eq, eq_comm] using unchanged
            have origin : ∀ {i r}, (s.modify identity
                fun t => { t with digest := digest.or t.digest }).Holds i r → s.Holds i r := by
              rintro i r ⟨t', tree', mem⟩
              rw [Index.modify, OrderedMap.find_mapValues] at tree'
              obtain ⟨t₀, tree₀, rfl⟩ := Option.map_eq_some_iff.mp tree'
              split at mem <;> exact ⟨t₀, tree₀, mem⟩
            refine ⟨?_, fun holds => good.fresh (origin holds),
              fun holds holds' => good.unique (origin holds) (origin holds')⟩
            intro i t' tree'
            rw [Index.modify, OrderedMap.find_mapValues] at tree'
            obtain ⟨t₀, tree₀, rfl⟩ := Option.map_eq_some_iff.mp tree'
            have good₀ := good.trees tree₀
            split
            · rename_i same
              subst same
              obtain rfl : t₀ = t := Option.some.inj (tree₀.symm.trans tree)
              exact ⟨good₀.inventory, good₀.distinct,
                ⟨good₀.shaped.proper, good₀.shaped.root, good₀.shaped.placed⟩,
                fun r mem => (good₀.sound r mem).extend extend⟩
            · exact good₀
      · rename_i absent
        split at ok
        · cases ok
        · obtain rfl : _ = s' := Except.ok.inj ok
          have origin : ∀ {i r}, Index.Holds
              { s with trees := s.trees.emplace identity ({ descriptors, digest } : Tree) } i r →
              s.Holds i r := by
            rintro i r ⟨t', tree', mem⟩
            rw [OrderedMap.find_emplace absent] at tree'
            split at tree'
            · cases tree'
              simp [Tree.records, Forest.all] at mem
            · exact ⟨t', tree', mem⟩
          refine ⟨?_, fun holds => good.fresh (origin holds),
            fun holds holds' => good.unique (origin holds) (origin holds')⟩
          intro i t' tree'
          rw [OrderedMap.find_emplace absent] at tree'
          split at tree'
          · cases tree'
            refine ⟨some_components, (checkInventory_ok checked).1, ⟨trivial, ?_, ?_⟩, ?_⟩ <;>
              simp [Tree.records, Forest.all]
          · exact good.trees tree'

theorem Record.Sound.live (frontier : LiveFrontier) (id : Nat) :
    Record.Sound published t { id, live := some frontier } :=
  ⟨by simp, by simp, by simp, by simp⟩

theorem Record.Sound.checkpoint (checkpoint : Checkpoint)
    (availability : List ComponentAvailability) (stable id : Nat) :
    Record.Sound published t
      { id, checkpoint := some checkpoint, availability := some availability, stable } :=
  ⟨by simp, by simp, by simp, by simp⟩

theorem Record.Sound.durable {durable : DiskDescription} (described : durable.Of published)
    (coherent : durableCoherent t durable = true) (availability : List ComponentAvailability)
    (stable id : Nat) :
    Record.Sound published t
      { id, availability := some availability, durable := some durable, stable } := by
  refine ⟨by simp, by simp, fun d eq => ?_, by simp⟩
  cases eq
  exact ⟨described, coherent⟩

theorem Index.Good.insert (good : s.Good published) {checkpoint : Checkpoint}
    {availability : List ComponentAvailability} {stable n : Nat}
    (ok : insert services checkpoint availability stable s = .ok (n, s')) : s'.Good published := by
  unfold Prefix.insert at ok
  split at ok
  · cases ok
  · split at ok
    · cases ok
    · rename_i t tree
      split at ok
      · cases ok
      · exact good.publish tree (Record.Sound.checkpoint checkpoint availability stable) ok

theorem Index.Good.insertLive (good : s.Good published) {frontier : LiveFrontier} {n : Nat}
    (ok : insertLive services frontier s = .ok (n, s')) : s'.Good published := by
  unfold Prefix.insertLive at ok
  split at ok
  · cases ok
  · rename_i t tree
    exact good.publish tree (Record.Sound.live frontier) ok

theorem Index.Good.insertDurable (good : s.Good published) {durable : DiskDescription}
    {stable n : Nat} (described : durable.Of published)
    (ok : insertDurable services identity durable stable s = .ok (n, s')) : s'.Good published := by
  unfold Prefix.insertDurable at ok
  split at ok
  · cases ok
  · rename_i t tree
    split at ok
    · cases ok
    · rename_i allowed
      simp only [not_or, Bool.not_eq_false] at allowed
      exact good.publish tree (Record.Sound.durable described allowed.2.1 _ stable) ok

/-- One publication has one manifest. -/
theorem DiskDescription.Of.manifest_eq {a b : DiskDescription} (left : a.Of published)
    (right : b.Of published) (same : a.same b = true) : a.manifest = b.manifest := by
  obtain ⟨store, epoch, checkpoint⟩ := of_decide_eq_true same
  unfold DiskDescription.Of at left right
  rw [store, epoch, checkpoint, right] at left
  exact (Option.some.inj left).symm

theorem Index.Good.attachDurable (good : s.Good published) {durable : DiskDescription}
    (described : durable.Of published)
    (ok : attachDurable services id durable s = .ok s') : s'.Good published := by
  unfold Prefix.attachDurable at ok
  split at ok
  · cases ok
  · rename_i t r found
    obtain ⟨identity, tree, mem, _⟩ := get_eq_some found
    have sound := (good.trees tree).sound r mem
    split at ok
    · cases ok
    · rename_i allowed
      simp only [not_or, Bool.not_eq_true, Option.isSome_eq_false_iff, Option.isNone_iff_eq_none,
        Bool.not_eq_false] at allowed
      obtain ⟨stored, coherent, _⟩ := allowed
      dsimp only at ok
      split at ok
      · cases ok
      · rename_i admitted
        split at ok
        · cases ok
        · obtain rfl : _ = s' := Except.ok.inj ok
          refine good.update found rfl ?_ ⟨fun live => ?_, fun _ => ⟨rfl, .inr rfl⟩,
            fun d eq => ?_, fun k d checkpoint eq => ?_⟩
          · cases checkpoint : r.checkpoint with
            | some k => simp [Record.tokens, checkpoint]
            | none =>
              simp only [checkpoint] at admitted
              cases old : r.durable with
              | none => simp [old] at admitted
              | some d =>
                have same : durable.same d = true := by
                  by_contra differ
                  simp [old, differ] at admitted
                simp [Record.tokens, checkpoint, stored, old,
                  described.manifest_eq (sound.described d old).1 same]
          · simp [stored] at live
          · cases eq
            exact ⟨described, coherent⟩
          · cases eq
            simpa [show r.checkpoint = some k from checkpoint] using admitted

theorem Index.Good.dropResident (good : s.Good published) (services : Services) (id : Nat) :
    (dropResident services id s).Good published := by
  unfold Prefix.dropResident
  split
  · exact good
  · rename_i t r found
    obtain ⟨identity, tree, mem, _⟩ := get_eq_some found
    have sound := (good.trees tree).sound r mem
    split
    · rename_i complete
      simp only [Bool.and_eq_true] at complete
      obtain ⟨d, durable⟩ := Option.isSome_iff_exists.mp complete.1.1.1
      have stored : r.live = none := by
        by_contra live
        have := (sound.exclusive (Option.isSome_iff_ne_none.mpr live)).2
        simp [durable] at this
      refine good.update found rfl ?_ ⟨fun live => ?_,
        fun _ => ⟨complete.1.1.2, .inr complete.1.1.1⟩, sound.described,
        fun _ _ eq => nomatch eq⟩
      · cases checkpoint : r.checkpoint with
        | none => simp [Record.tokens, checkpoint]
        | some k =>
          simp [Record.tokens, checkpoint, stored, durable,
            (matchesCheckpoint_ok (sound.agrees k d checkpoint durable)).1]
      · simp [stored] at live
    · exact good.erase services id

theorem Index.Good.removeFrom (good : s.Good published) (services : Services)
    (description : DiskDescription) (corrupt : Bool) (id : Nat) :
    (removeFrom services description corrupt s id).Good published := by
  unfold Prefix.removeFrom
  split
  · exact good
  · rename_i t r found
    obtain ⟨identity, tree, mem, _⟩ := get_eq_some found
    have sound := (good.trees tree).sound r mem
    split
    · split
      · exact good.erase services id
      · rename_i kept
        obtain ⟨k, checkpoint⟩ : ∃ k, r.checkpoint = some k := by
          cases eq : r.checkpoint with
          | none => simp [eq] at kept
          | some k => exact ⟨k, rfl⟩
        exact good.update found rfl (by simp [Record.tokens, checkpoint])
          ⟨fun live => ⟨(sound.exclusive live).1, rfl⟩,
            fun none => ⟨(sound.stored none).1, .inl (by simp [checkpoint])⟩,
            by simp, by simp⟩
    · exact good

theorem Index.Good.removeDurable (good : s.Good published) (services : Services)
    (description : DiskDescription) (corrupt : Bool) :
    (removeDurable services description corrupt s).Good published := by
  unfold Prefix.removeDurable
  generalize s.directory = ids
  induction ids generalizing s with
  | nil => exact good
  | cons id rest ih => exact ih (good.removeFrom services description _ id)

theorem Index.Good.setAvailability (good : s.Good published)
    {availability : List ComponentAvailability}
    (ok : setAvailability services id availability s = .ok s') : s'.Good published := by
  unfold Prefix.setAvailability at ok
  split at ok
  · cases ok
  · rename_i t r found
    obtain ⟨identity, tree, mem, _⟩ := get_eq_some found
    have sound := (good.trees tree).sound r mem
    split at ok
    · cases ok
    · split at ok
      · cases ok
      · split at ok
        · cases ok
        · obtain rfl : _ = s' := Except.ok.inj ok
          exact good.update found rfl rfl ⟨sound.exclusive,
            fun none => ⟨rfl, (sound.stored none).2⟩, sound.described, sound.agrees⟩

theorem Index.Good.setLiveAvailable (good : s.Good published) {available : Bool}
    (ok : setLiveAvailable id available s = .ok s') : s'.Good published := by
  unfold Prefix.setLiveAvailable at ok
  split at ok
  · cases ok
  · rename_i t r found
    obtain ⟨identity, tree, mem, _⟩ := get_eq_some found
    have sound := (good.trees tree).sound r mem
    split at ok
    · cases ok
    · rename_i is_live
      obtain rfl : _ = s' := Except.ok.inj ok
      obtain ⟨live, eq⟩ : ∃ live, r.live = some live := by
        cases eq : r.live with
        | none => simp [eq] at is_live
        | some live => exact ⟨live, rfl⟩
      have only := sound.exclusive (by simp [eq])
      exact good.update found rfl (by simp [Record.tokens, eq, only.1])
        ⟨fun _ => only, by simp [eq], sound.described, sound.agrees⟩

theorem Step.good (step : Step published s s') (good : s.Good published) : s'.Good published := by
  cases step with
  | register ok => exact good.register ok
  | insert ok => exact good.insert ok
  | insertLive ok => exact good.insertLive ok
  | insertDurable described ok => exact good.insertDurable described ok
  | attachDurable described ok => exact good.attachDurable described ok
  | dropResident services id => exact good.dropResident services id
  | removeDurable services description corrupt =>
    exact good.removeDurable services description corrupt
  | setAvailability ok => exact good.setAvailability ok
  | setLiveAvailable ok => exact good.setLiveAvailable ok
  | erase services id => exact good.erase services id

theorem Reachable.good (reach : Reachable published s) : s.Good published := by
  induction reach with
  | initial =>
    refine ⟨fun tree => ?_, fun ⟨_, tree, _⟩ => ?_, fun ⟨_, tree, _⟩ => ?_⟩ <;> simp at tree
  | step _ step ih => exact step.good ih

end Gufo.Prefix
