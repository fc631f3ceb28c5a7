import Gufo.Prefix.Records

/-!
# Restore plans

A candidate says for each component of its identity whether it comes from the checkpoint
in RAM or from the publication on disk. Whatever the world answers between the two loops
of `Candidate`, each component has exactly one source, and the source has it.
-/

namespace Gufo.Prefix
open Gufo.Execution (ComponentDescriptor)

variable {published : Published} {s : Index} {t : Tree} {r : Record} {services : Services}
  {c : PrefixCandidate} {d : ComponentDescriptor}

/-! ## The first loop -/

section plan
variable {valid : Nat → Bool} {ram durable : Bool} {available : List ComponentAvailability}
  {descriptors : List ComponentDescriptor} {start plan : Plan}

/-- What the loop has found for one component. -/
def Plan.Covers (valid : Nat → Bool) (ram durable : Bool) (available : List ComponentAvailability)
    (plan : Plan) (d : ComponentDescriptor) : Prop :=
  ∃ a, available.find? (·.id == d.id) = some a ∧
    ((ram = true ∧ a.resident = true ∧ valid d.id = true ∧ plan.useRam = true) ∨
      (durable = true ∧ plan.needDisk = true ∧ (a.resident = true → plan.resolvePlan = true)))

/-- A flag that is set stays set, and each one says what was found. -/
structure Plan.Grows (ram durable : Bool) (start plan : Plan) : Prop where
  needDisk : start.needDisk = true → plan.needDisk = true
  useRam : start.useRam = true → plan.useRam = true
  resolvePlan : start.resolvePlan = true → plan.resolvePlan = true
  ram : plan.useRam = true → start.useRam = true ∨ ram = true
  durable : plan.needDisk = true → start.needDisk = true ∨ durable = true
  resolves : plan.resolvePlan = true → start.resolvePlan = true ∨ plan.needDisk = true

theorem planLoop_grows
    (found : planLoop valid ram durable available descriptors start = some plan) :
    Plan.Grows ram durable start plan := by
  induction descriptors generalizing start with
  | nil =>
    cases found
    exact ⟨id, id, id, .inl, .inl, .inl⟩
  | cons d rest ih =>
    unfold planLoop at found
    split at found
    · cases found
    · rename_i a _
      split at found
      · rename_i resident
        simp only [Bool.and_eq_true] at resident
        have grows := ih found
        exact ⟨grows.needDisk, fun _ => grows.useRam rfl, grows.resolvePlan,
          fun _ => .inr resident.1.1, grows.durable, grows.resolves⟩
      · split at found
        · rename_i stored
          simp only [Bool.and_eq_true] at stored
          have grows := ih found
          exact ⟨fun _ => grows.needDisk rfl, grows.useRam,
            fun set => grows.resolvePlan (by simp [set]), grows.ram, fun _ => .inr stored.1,
            fun _ => .inr (grows.needDisk rfl)⟩
        · cases found

theorem planLoop_covers (found : planLoop valid ram durable available descriptors start = some plan)
    (mem : d ∈ descriptors) : plan.Covers valid ram durable available d := by
  induction descriptors generalizing start with
  | nil => exact absurd mem List.not_mem_nil
  | cons first rest ih =>
    unfold planLoop at found
    split at found
    · cases found
    · rename_i a at_
      split at found
      · rename_i resident
        simp only [Bool.and_eq_true] at resident
        rcases List.mem_cons.mp mem with rfl | mem
        · exact ⟨a, at_, .inl ⟨resident.1.1, resident.1.2, resident.2,
            (planLoop_grows found).useRam rfl⟩⟩
        · exact ih found mem
      · split at found
        · rename_i stored
          simp only [Bool.and_eq_true] at stored
          rcases List.mem_cons.mp mem with rfl | mem
          · exact ⟨a, at_, .inr ⟨stored.1, (planLoop_grows found).needDisk rfl,
              fun resident => (planLoop_grows found).resolvePlan (by simp [resident])⟩⟩
          · exact ih found mem
        · cases found

end plan

/-! ## Candidates -/

/-- A candidate that is not live follows a plan. -/
theorem candidate_eq_some (ok : candidate services t r = .ok (some c)) (stored : c.live = none) :
    r.live = none ∧ ∃ plan bytes,
      planLoop (services.valid r.id 0) (r.checkpoint.any (checkpointCoherent t)) r.durable.isSome
        r.available t.descriptors {} = some plan ∧
      c = { entry := r.id
            boundary := r.boundary
            checkpoint := if plan.useRam then r.checkpoint else none
            transferBytes := bytes
            durable := if plan.needDisk then r.durable else none
            diskPin := plan.needDisk
            availability :=
              if plan.resolvePlan && plan.useRam then
                some (resolvedPlan (services.valid r.id 1) r.available)
              else r.availability } := by
  unfold candidate at ok
  split at ok
  · split at ok
    · cases ok
      cases stored
    · cases ok
  · rename_i none
    refine ⟨none, ?_⟩
    split at ok
    · cases ok
    · split at ok
      · cases ok
      · rename_i plan found
        split at ok
        · cases ok
        · split at ok
          · cases ok
          · split at ok
            · cases ok
            · rename_i bytes _
              exact ⟨plan, bytes, found, (Option.some.inj (Except.ok.inj ok)).symm⟩

theorem checkpointCoherent_component {checkpoint : Checkpoint}
    (coherent : checkpointCoherent t checkpoint = true) (mem : d ∈ t.descriptors) :
    ∃ component ∈ checkpoint.components, component.descriptor = d ∧
      (d.kind = .privateState → component.position.validRows = checkpoint.tokens.length) := by
  simp only [checkpointCoherent, Bool.and_eq_true, List.all_eq_true] at coherent
  have here := coherent.2 d mem
  split at here
  · cases here
  · rename_i component found
    have same : d = component.descriptor := by simpa [same] using List.find?_some found
    refine ⟨component, List.mem_of_find?_eq_some found, same.symm, fun isPrivate => ?_⟩
    simpa [isPrivate] using here

theorem durableCoherent_component {description : DiskDescription}
    (coherent : durableCoherent t description = true) (mem : d ∈ t.descriptors) :
    ∃ component ∈ description.manifest.components, component.descriptor = d ∧
      (d.kind = .privateState →
        component.position.validRows = description.manifest.tokens.length) := by
  simp only [durableCoherent, Bool.and_eq_true, List.all_eq_true, List.any_eq_true] at coherent
  obtain ⟨component, there, here⟩ := coherent.2 d mem
  have same : d = component.descriptor := by simpa [same] using here.1
  refine ⟨component, there, same.symm, fun isPrivate => ?_⟩
  simpa [isPrivate] using here.2

theorem find_resolvedPlan (valid : Nat → Bool) (available : List ComponentAvailability) (id : Nat) :
    (resolvedPlan valid available).find? (·.id == id) =
      (available.find? (·.id == id)).map fun a =>
        { a with resident := a.resident && valid a.id } := by
  rw [resolvedPlan, List.find?_map]
  rfl

/-- A component as a list marks it. -/
def markedResident (available : Option (List ComponentAvailability)) (id : Nat) : Prop :=
  ∃ a, (available.getD []).find? (·.id == id) = some a ∧ a.resident = true

/-- The source of one component of a candidate. -/
structure FromDisk (c : PrefixCandidate) (d : ComponentDescriptor) : Prop where
  pinned : c.diskPin = true
  component : ∃ durable, c.durable = some durable ∧
    ∃ component ∈ durable.manifest.components, component.descriptor = d ∧
      (d.kind = .privateState → component.position.validRows = c.boundary)

structure FromRam (services : Services) (c : PrefixCandidate) (d : ComponentDescriptor) :
    Prop where
  component : ∃ checkpoint, c.checkpoint = some checkpoint ∧
    ∃ component ∈ checkpoint.components, component.descriptor = d ∧
      (d.kind = .privateState → component.position.validRows = c.boundary)
  valid : ∃ loop, services.valid c.entry loop d.id = true
  resident : markedResident c.availability d.id

theorem Record.boundary_of_durable (sound : r.Sound published t) {durable : DiskDescription}
    (none : r.live = none) (eq : r.durable = some durable) :
    r.boundary = durable.manifest.tokens.length := by
  unfold Record.boundary Record.tokens
  cases checkpoint : r.checkpoint with
  | none => simp [none, eq]
  | some k => simp [(matchesCheckpoint_ok (sound.agrees k durable checkpoint eq)).1]

theorem Record.boundary_of_checkpoint {checkpoint : Checkpoint}
    (eq : r.checkpoint = some checkpoint) : r.boundary = checkpoint.tokens.length := by
  simp [Record.boundary, Record.tokens, eq]

/-- Each component of a candidate has its source. -/
theorem candidate_sources (sound : r.Sound published t)
    (ok : candidate services t r = .ok (some c)) (stored : c.live = none)
    (mem : d ∈ t.descriptors) :
    if c.usesDisk d.id then FromDisk c d
    else FromRam services c d ∧ markedResident r.availability d.id := by
  obtain ⟨none, plan, bytes, found, eq⟩ := candidate_eq_some ok stored
  have grows := planLoop_grows found
  obtain ⟨a, at_, covers⟩ := planLoop_covers found mem
  have entry : c.entry = r.id := by rw [eq]
  have boundary : c.boundary = r.boundary := by rw [eq]
  have checkpoint : c.checkpoint = if plan.useRam then r.checkpoint else Option.none := by rw [eq]
  have durable : c.durable = if plan.needDisk then r.durable else Option.none := by rw [eq]
  have availability : c.availability =
      if plan.resolvePlan && plan.useRam then
        some (resolvedPlan (services.valid r.id 1) r.available)
      else r.availability := by rw [eq]
  -- What the record has, where the plan uses it.
  have disk : plan.needDisk = true → FromDisk c d := by
    intro need
    obtain ⟨description, eq'⟩ := Option.isSome_iff_exists.mp
      ((grows.durable need).resolve_left Bool.false_ne_true)
    refine ⟨by rw [eq, need], description, by rw [durable, if_pos need, eq'], ?_⟩
    rw [boundary, r.boundary_of_durable sound none eq']
    exact durableCoherent_component (sound.described description eq').2 mem
  have memory : plan.useRam = true → ∃ k, c.checkpoint = some k ∧ ∃ component ∈ k.components,
      component.descriptor = d ∧
        (d.kind = .privateState → component.position.validRows = c.boundary) := by
    intro use
    have coherent := (grows.ram use).resolve_left Bool.false_ne_true
    cases eq' : r.checkpoint with
    | none => simp [eq'] at coherent
    | some k =>
      rw [checkpoint, if_pos use, boundary, r.boundary_of_checkpoint eq']
      exact ⟨k, eq', checkpointCoherent_component (by simpa [eq'] using coherent) mem⟩
  have marked : a.resident = true → markedResident r.availability d.id :=
    fun resident => ⟨a, at_, resident⟩
  cases need : plan.needDisk with
  | false =>
    have asIs : c.availability = r.availability := by
      have : plan.resolvePlan = false := by
        by_contra set
        simpa [need] using grows.resolves (by simpa using set)
      rw [availability, this]
      rfl
    obtain ⟨_, resident, valid, use⟩ := covers.resolve_right fun ⟨_, set, _⟩ => by
      simp [need] at set
    have ram : c.usesDisk d.id = false := by simp [PrefixCandidate.usesDisk, durable, need]
    rw [if_neg (by simp [ram])]
    exact ⟨⟨memory use, ⟨0, entry ▸ valid⟩, asIs ▸ marked resident⟩, marked resident⟩
  | true =>
    have described : c.durable.isSome = true := by
      obtain ⟨description, eq', _⟩ := (disk need).component
      simp [eq']
    cases use : plan.useRam with
    | false =>
      have source : c.usesDisk d.id = true := by
        simp [PrefixCandidate.usesDisk, described, checkpoint, use]
      rw [if_pos source]
      exact disk need
    | true =>
      obtain ⟨k, eq', component⟩ := memory use
      -- The list that the candidate carries decides.
      have decided : ∀ b, (c.availability.getD []).find? (·.id == d.id) = some b →
          c.usesDisk d.id = !b.resident := by
        intro b here
        simp [PrefixCandidate.usesDisk, described, eq', here]
      cases resolve : plan.resolvePlan with
      | true =>
        have here : (c.availability.getD []).find? (·.id == d.id) =
            some { a with resident := a.resident && services.valid r.id 1 a.id } := by
          rw [availability, resolve, use]
          simp [find_resolvedPlan, at_]
        have same : a.id = d.id := by simpa using List.find?_some at_
        rw [decided _ here]
        split
        · exact disk need
        · rename_i resident
          simp only [Bool.not_eq_true', Bool.not_eq_false, Bool.and_eq_true] at resident
          exact ⟨⟨⟨k, eq', component⟩, ⟨1, by rw [entry, ← same]; exact resident.2⟩,
            ⟨_, here, by simp [resident]⟩⟩, marked resident.1⟩
      | false =>
        have asIs : c.availability = r.availability := by
          rw [availability, resolve]
          rfl
        have here : (c.availability.getD []).find? (·.id == d.id) = some a := by
          rw [asIs]
          exact at_
        rw [decided a here]
        split
        · exact disk need
        · rename_i resident
          simp only [Bool.not_eq_true', Bool.not_eq_false] at resident
          obtain ⟨_, _, valid, _⟩ := covers.resolve_right fun ⟨_, _, set⟩ => by
            simpa [resolve] using set resident
          exact ⟨⟨⟨k, eq', component⟩, ⟨0, entry ▸ valid⟩, asIs ▸ marked resident⟩,
            marked resident⟩

/-! ## Lookup -/

section lookup
variable {query : PrefixQuery} {records : List Record} {start found : Scan} {result : PrefixLookup}

/-- A candidate comes from a record that was visited. -/
theorem scan_candidates (ok : scan services t query records start = .ok found)
    (mem : c ∈ found.candidates) :
    c ∈ start.candidates ∨ ∃ r ∈ records, candidate services t r = .ok (some c) := by
  induction records generalizing start with
  | nil =>
    cases ok
    exact .inl mem
  | cons r rest ih =>
    unfold scan at ok
    split at ok
    · exact (ih ok).imp_right fun ⟨r', mem, eq⟩ => ⟨r', List.mem_cons_of_mem _ mem, eq⟩
    · split at ok
      · cases ok
      · exact (ih ok).imp_right fun ⟨r', mem, eq⟩ => ⟨r', List.mem_cons_of_mem _ mem, eq⟩
      · rename_i c' eq
        rcases ih ok with mem | ⟨r', mem, eq⟩
        · rcases List.mem_append.mp mem with mem | mem
          · exact .inl mem
          · rw [List.mem_singleton.mp mem]
            exact .inr ⟨r, List.mem_cons_self, eq⟩
        · exact .inr ⟨r', List.mem_cons_of_mem _ mem, eq⟩

theorem select_candidates :
    (select query found).candidates = sortCandidates (found.candidates.filter fun c =>
      !(!found.fallback && decide (c.boundary > query.stablePrefixTokens))) := by
  unfold select
  dsimp only
  split
  · exact Eq.symm ‹_›
  · rfl

theorem mem_select :
    c ∈ (select query found).candidates ↔ c ∈ found.candidates ∧
      (found.fallback = true ∨ c.boundary ≤ query.stablePrefixTokens) := by
  rw [select_candidates, sortCandidates, List.mem_mergeSort, List.mem_filter]
  simp

theorem path_subset (shaped : t.Shaped) {tokens : List Execution.Token}
    (mem : r ∈ t.path tokens) : r ∈ t.records := by
  rcases List.mem_append.mp mem with mem | mem
  · exact mem_records.mpr (.inl mem)
  · obtain ⟨path, there, _⟩ := (Radix.mem_along shaped.proper).mp mem
    exact mem_records.mpr (.inr ⟨path, there⟩)

theorem lookup_candidates (ok : lookup services query s = .ok result)
    (mem : c ∈ result.candidates) :
    ∃ t, s.trees.find query.compatibility = some t ∧
      ∃ r ∈ t.path query.tokens, candidate services t r = .ok (some c) := by
  unfold lookup at ok
  split at ok
  · cases ok
  · split at ok
    · cases ok
      exact absurd mem List.not_mem_nil
    · split at ok
      · cases ok
        exact absurd mem List.not_mem_nil
      · rename_i t tree
        split at ok
        · cases ok
        · split at ok
          · cases ok
          · rename_i found scanned
            obtain rfl : _ = result := Except.ok.inj ok
            refine ⟨t, tree, ?_⟩
            exact (scan_candidates scanned (mem_select.mp mem).1).resolve_left List.not_mem_nil

/-- In every plan each component of the inventory has one source that has it: the pinned
publication on disk, or the checkpoint in RAM, where it was marked resident and found valid. -/
theorem lookup_plans_complete (reach : Reachable published s)
    (ok : lookup services query s = .ok result) (mem : c ∈ result.candidates)
    (stored : c.live = none) (tree : s.trees.find query.compatibility = some t)
    (inventory : d ∈ t.descriptors) :
    if c.usesDisk d.id then FromDisk c d
    else FromRam services c d ∧
      ∃ r ∈ t.records, r.id = c.entry ∧ markedResident r.availability d.id := by
  obtain ⟨t', tree', r, visited, eq⟩ := lookup_candidates ok mem
  obtain rfl : t' = t := Option.some.inj (tree'.symm.trans tree)
  have good := reach.good.trees tree
  have there := path_subset good.shaped visited
  have sources := candidate_sources (good.sound r there) eq stored inventory
  obtain ⟨_, _, _, _, same⟩ := candidate_eq_some eq stored
  split
  · rwa [if_pos ‹_›] at sources
  · rw [if_neg ‹_›] at sources
    exact ⟨sources.1, r, there, by rw [same], sources.2⟩

/-- A record that is half in RAM. -/
theorem lookup_plans_complete_of_mixed :
    let rows : ComponentDescriptor := ⟨1, .appendRows, 1, 4, 2, 0⟩
    let state : ComponentDescriptor := ⟨2, .privateState, 1, 0, 0, 8⟩
    let components : List Component := [⟨rows, 1, 2⟩, ⟨state, 2, 2⟩]
    let manifest : DiskManifest := ⟨6, 1, [5], [9], [3, 4], components⟩
    let query : PrefixQuery := { compatibility := [7], tokens := [3, 4, 5], input := ⟨3, [9], []⟩ }
    ∃ s result c, Reachable (fun _ _ _ => some manifest) s ∧
      lookup {} query s = .ok result ∧ c ∈ result.candidates ∧
      markedResident c.availability 1 ∧ FromDisk c state := by
  intro rows state components manifest query
  have reach := ((Reachable.initial.step
    (@Step.register (fun _ _ _ => some manifest) _ {} [7] [rows, state] (some [5]) _ rfl)).step
    (@Step.insert _ _ {} ⟨6, 1, [7], [9], [3, 4], components, by decide⟩ [⟨1, true, false⟩] 0 _ _
      rfl)).step (@Step.attachDurable _ _ {} 1 ⟨0, 1, manifest⟩ _ rfl rfl)
  refine ⟨_, _, _, reach, rfl, mem_select.mpr ⟨List.mem_singleton_self _, .inl rfl⟩, ?_, ?_⟩
  · have plan := lookup_plans_complete (d := rows) reach
      (show lookup {} query _ = .ok _ from rfl)
      (mem_select.mpr ⟨List.mem_singleton_self _, .inl rfl⟩) rfl rfl (.head _)
    exact ((if_neg Bool.false_ne_true).mp plan).1.resident
  · have plan := lookup_plans_complete (d := state) reach
      (show lookup {} query _ = .ok _ from rfl)
      (mem_select.mpr ⟨List.mem_singleton_self _, .inl rfl⟩) rfl rfl (.tail _ (.head _))
    exact (if_pos rfl).mp plan

end lookup

end Gufo.Prefix
