import Gufo.Execution.Coverage

/-!
# Branches over shared chunks

Histories that start cold or from a checkpoint, and the checkpoints they capture, in any
order. Checkpoints of different branches share the chunks of a common ancestor. Which
checkpoints a branch has inherited or captured is kept beside its history; the program
does not store it.
-/

open Gufo.Program

namespace Gufo.Execution

variable {services : Services} {h : ExecutionHistory} {heap : Heap} {request : CheckpointRequest}

structure Branch where
  history : ExecutionHistory
  own : List Checkpoint := []

structure World where
  heap : Heap := {}
  checkpoints : List Checkpoint := []
  branches : List Branch := []

inductive Action where
  | cold (descriptors : List ComponentDescriptor) (compatibility : Identity)
  | restore (checkpoint : Nat) (valid : Bool)
  | capture (branch : Nat) (services : Services) (request : CheckpointRequest)
  | prune (branch : Nat) (alive : ChunkRef → Bool)

namespace World

def cold (w : World) (descriptors : List ComponentDescriptor) (compatibility : Identity) : World :=
  if validDescriptors descriptors then
    { w with branches := w.branches ++
        [{ history := { descriptors := descriptors, compatibility := compatibility } }] }
  else w

def restore (w : World) (i : Nat) (valid : Bool) : World :=
  match w.checkpoints[i]? with
  | none => w
  | some k =>
    match restored valid w.heap k with
    | none => w
    | some history => { w with branches := w.branches ++ [⟨history, [k]⟩] }

def capture (w : World) (i : Nat) (services : Services) (request : CheckpointRequest) : World :=
  match w.branches[i]? with
  | none => w
  | some b =>
    match Execution.capture services request (Call.start b.history w.heap) with
    | .ok k t =>
      { heap := t.heap
        checkpoints := w.checkpoints ++ [k]
        branches := w.branches.set i ⟨t.history, k :: b.own⟩ }
    | .error _ t => { w with heap := t.heap, branches := w.branches.set i ⟨t.history, b.own⟩ }

def prune (w : World) (i : Nat) (alive : ChunkRef → Bool) : World :=
  match w.branches[i]? with
  | none => w
  | some b => { w with branches := w.branches.set i { b with history := b.history.prune alive } }

def step (w : World) : Action → World
  | .cold descriptors compatibility => w.cold descriptors compatibility
  | .restore i valid => w.restore i valid
  | .capture i services request => w.capture i services request
  | .prune i alive => w.prune i alive

/-- From no history and no checkpoint. -/
def run (actions : List Action) : World := actions.foldl step {}

/-! ## The invariant -/

structure Kept (heap : Heap) (k : Checkpoint) : Prop where
  ids : (k.components.map (·.descriptor.id)).Nodup
  covers : ∀ c ∈ k.components, Covers heap c
  known : ∀ c ∈ k.components, ∀ chunk ∈ c.chunks, chunk < heap.next

structure Sound (w : World) : Prop where
  branches : ∀ b ∈ w.branches, Execution.Sound w.heap b.history b.own
  own : ∀ b ∈ w.branches, b.own ⊆ w.checkpoints
  checkpoints : ∀ k ∈ w.checkpoints, Kept w.heap k

variable {w : World}

theorem Kept.mono {old : Heap} {k : Checkpoint} (kept : Kept old k) (grew : Grew old heap) :
    Kept heap k where
  ids := kept.ids
  covers c mem := (kept.covers c mem).grew grew (kept.known c mem)
  known c mem chunk of := (kept.known c mem chunk of).trans_le grew.next

theorem sound_start : Sound {} := ⟨List.forall_mem_nil _, List.forall_mem_nil _,
  List.forall_mem_nil _⟩

/-- One more branch that is right in itself. -/
theorem Sound.add (sound : Sound w) {b : Branch} (right : Execution.Sound w.heap b.history b.own)
    (own : b.own ⊆ w.checkpoints) : Sound { w with branches := w.branches ++ [b] } where
  branches b' mem := by
    rcases List.mem_append.mp mem with mem | mem
    · exact sound.branches b' mem
    · rw [List.mem_singleton.mp mem]
      exact right
  own b' mem := by
    rcases List.mem_append.mp mem with mem | mem
    · exact sound.own b' mem
    · rw [List.mem_singleton.mp mem]
      exact own
  checkpoints := sound.checkpoints

/-- A branch changes on a heap that has grown. -/
theorem Sound.change (sound : Sound w) (i : Nat) {b : Branch} {heap : Heap}
    {checkpoints : List Checkpoint} (grew : Grew w.heap heap) (sub : w.checkpoints ⊆ checkpoints)
    (kept : ∀ k ∈ checkpoints, Kept heap k) (right : Execution.Sound heap b.history b.own)
    (own : b.own ⊆ checkpoints) :
    Sound { heap := heap, checkpoints := checkpoints, branches := w.branches.set i b } where
  branches b' mem := by
    rcases List.mem_or_eq_of_mem_set mem with mem | rfl
    · exact (sound.branches b' mem).mono grew (List.Subset.refl _)
    · exact right
  own b' mem := by
    rcases List.mem_or_eq_of_mem_set mem with mem | rfl
    · exact List.Subset.trans (sound.own b' mem) sub
    · exact own
  checkpoints := kept

theorem Sound.cold (sound : Sound w) (descriptors : List ComponentDescriptor)
    (compatibility : Identity) : Sound (w.cold descriptors compatibility) := by
  unfold World.cold
  split
  · rename_i valid
    refine sound.add ⟨?_, List.forall_mem_nil _, List.forall_mem_nil _, List.forall_mem_nil _⟩
      (List.nil_subset _)
    simp only [validDescriptors, Bool.and_eq_true, decide_eq_true_eq] at valid
    exact valid.1.2
  · exact sound

theorem Sound.restore (sound : Sound w) (i : Nat) (valid : Bool) : Sound (w.restore i valid) := by
  unfold World.restore
  split
  · exact sound
  rename_i k at_i
  split
  · exact sound
  rename_i history inherited
  have member := List.mem_of_getElem? at_i
  have kept := sound.checkpoints k member
  refine sound.add ?_ (by simpa using member)
  unfold restored at inherited
  split at inherited
  · cases inherited
    refine sound_of_chunkEntries List.mem_cons_self kept.covers kept.known ?_ rfl
      (List.mergeSort_perm _ _)
    rw [List.map_map]
    exact kept.ids
  · cases inherited

theorem Sound.capture (sound : Sound w) (i : Nat) (services : Services)
    (request : CheckpointRequest) : Sound (w.capture i services request) := by
  unfold World.capture
  split
  · exact sound
  rename_i b at_i
  have member := List.mem_of_getElem? at_i
  have right := sound.branches b member
  have spec := capture_covered services request right
  split
  · rename_i k t run
    have covered := spec.ok rfl run
    refine sound.change i covered.grew (List.subset_append_left _ _) (fun k' mem => ?_)
      covered.sound ?_
    · rcases List.mem_append.mp mem with mem | mem
      · exact (sound.checkpoints k' mem).mono covered.grew
      · rw [List.mem_singleton.mp mem]
        refine ⟨?_, covered.covers, covered.known⟩
        have ids := right.ids
        rw [← covered.descriptors, List.map_map] at ids
        exact ids
    · refine List.cons_subset.mpr ⟨by simp, ?_⟩
      exact List.Subset.trans (sound.own b member) (List.subset_append_left _ _)
  · rename_i e t run
    obtain ⟨same, grew⟩ := spec.error rfl run
    refine sound.change i grew (List.Subset.refl _)
      (fun k' mem => (sound.checkpoints k' mem).mono grew) ?_ (sound.own b member)
    rw [same]
    exact right.mono grew (List.Subset.refl _)

theorem Sound.prune (sound : Sound w) (i : Nat) (alive : ChunkRef → Bool) :
    Sound (w.prune i alive) := by
  unfold World.prune
  split
  · exact sound
  rename_i b at_i
  have member := List.mem_of_getElem? at_i
  have right := sound.branches b member
  have sub : (b.history.prune alive).entries ⊆ b.history.entries := List.filter_sublist.subset
  exact sound.change i (Grew.refl _) (List.Subset.refl _) sound.checkpoints
    ⟨right.ids, fun e mem => right.known e (sub mem), fun e mem => right.range e (sub mem),
      fun e mem => right.own e (sub mem)⟩ (sound.own b member)

theorem Sound.step (sound : Sound w) (a : Action) : Sound (w.step a) := by
  cases a with
  | cold descriptors compatibility => exact sound.cold descriptors compatibility
  | restore i valid => exact sound.restore i valid
  | capture i services request => exact sound.capture i services request
  | prune i alive => exact sound.prune i alive

theorem run_sound (actions : List Action) : Sound (run actions) := by
  have from_any : ∀ w : World, Sound w → Sound (actions.foldl World.step w) := by
    induction actions with
    | nil => exact fun _ sound => sound
    | cons a rest ih => exact fun w sound => ih _ (sound.step a)
  exact from_any {} sound_start

end World

/-! ## Captures on any branch -/

/-- A capture on a branch of any run: what throws leaves the history alone; what succeeds
covers every component, and shares a chunk made before only through a checkpoint of its own
branch. Whichever checkpoint has the chunk too has it for the same component and rows. -/
theorem capture_atomic_and_exact {actions : List Action} {b : Branch}
    (member : b ∈ (World.run actions).branches) :
    (∀ e t, capture services request (Call.start b.history (World.run actions).heap) =
        .error e t → t.history = b.history) ∧
    (∀ k t, capture services request (Call.start b.history (World.run actions).heap) = .ok k t →
      k.components.map (·.descriptor) = b.history.descriptors ∧
      ∀ c ∈ k.components,
        positionFor request.positions c.descriptor.id = some c.position ∧ Covers t.heap c ∧
        ∀ chunk ∈ c.chunks, ∀ k' ∈ (World.run actions).checkpoints, ∀ c' ∈ k'.components,
          chunk ∈ c'.chunks →
          (∃ mine ∈ b.own, ∃ part ∈ mine.components, chunk ∈ part.chunks ∧
            part.descriptor.id = c.descriptor.id ∧ Covers t.heap part) ∧
          c'.descriptor.id = c.descriptor.id ∧ Covers t.heap c') := by
  have sound := World.run_sound actions
  have spec := capture_covered services request
    (sound.branches b member)
  refine ⟨fun e t run => (spec.error rfl run).1, fun k t run => ?_⟩
  have covered := spec.ok rfl run
  refine ⟨covered.descriptors, fun c part => ⟨covered.positions c part, covered.covers c part,
    fun chunk of k' earlier c' part' of' => ?_⟩⟩
  have kept := sound.checkpoints k' earlier
  have after := kept.mono covered.grew
  have older := kept.known c' part' chunk of'
  obtain ⟨mine, own, piece, piece_mem, id, has⟩ := covered.inherited c part chunk of older
  refine ⟨⟨mine, own, piece, piece_mem, has, id, ?_⟩, ?_, after.covers c' part'⟩
  · have held := (sound.checkpoints mine (sound.own b member own)).mono covered.grew
    exact held.covers piece piece_mem
  · obtain ⟨i, here⟩ := (covered.covers c part).object of
    obtain ⟨j, there⟩ := (after.covers c' part').object of'
    rw [here] at there
    exact (congrArg Chunk.component there).symm

/-- Rows of four bytes in chunks of two. -/
def pairs : List ComponentDescriptor :=
  [{ id := 1, kind := .appendRows, rowBytes := 4, rowsPerChunk := 2 }]

def rowsAt (n : Nat) : CheckpointRequest :=
  ⟨List.replicate n 7, { tokenCount := n }, [⟨1, n⟩]⟩

/-- Two branches go on from one checkpoint. -/
def siblings : List Action :=
  [.cold pairs [], .capture 0 {} (rowsAt 2), .restore 0 true, .capture 1 {} (rowsAt 3)]

/-- A checkpoint has a chunk of one that is not on the branch. -/
def SharesOutside (w : World) (b : Branch) (k : Checkpoint) : Prop :=
  ∃ c ∈ k.components, ∃ chunk ∈ c.chunks, ∃ k' ∈ w.checkpoints, k' ∉ b.own ∧
    ∃ c' ∈ k'.components, chunk ∈ c'.chunks

instance (w : World) (b : Branch) (k : Checkpoint) : Decidable (SharesOutside w b k) :=
  inferInstanceAs (Decidable (∃ c ∈ k.components, ∃ chunk ∈ c.chunks, ∃ k' ∈ w.checkpoints,
    k' ∉ b.own ∧ ∃ c' ∈ k'.components, chunk ∈ c'.chunks))

/-- The first branch shares a chunk with a checkpoint that only the second one has. -/
theorem sibling_shares :
    ∃ b ∈ (World.run siblings).branches, ∃ k t,
      capture {} (rowsAt 4) (Call.start b.history (World.run siblings).heap) = .ok k t ∧
      SharesOutside (World.run siblings) b k := by
  have check : ((World.run siblings).branches.any fun b =>
      match capture {} (rowsAt 4) (Call.start b.history (World.run siblings).heap) with
      | .ok k _ => decide (SharesOutside (World.run siblings) b k)
      | .error _ _ => false) = true := by decide +kernel
  obtain ⟨b, member, shares⟩ := List.any_eq_true.mp check
  refine ⟨b, member, ?_⟩
  cases run : capture {} (rowsAt 4) (Call.start b.history (World.run siblings).heap) with
  | error e t => simp [run] at shares
  | ok k t =>
    rw [run] at shares
    exact ⟨k, t, rfl, of_decide_eq_true shares⟩

/-- The same capture is exact nevertheless. -/
theorem siblings_exact :
    ∃ b ∈ (World.run siblings).branches, ∀ k t,
      capture {} (rowsAt 4) (Call.start b.history (World.run siblings).heap) = .ok k t →
      k.components.map (·.descriptor) = pairs := by
  have first : ∃ b, (World.run siblings).branches[0]? = some b ∧ b.history.descriptors = pairs := by
    decide +kernel
  obtain ⟨b, at_first, descriptors⟩ := first
  have member := List.mem_of_getElem? at_first
  refine ⟨b, member, fun k t run => ?_⟩
  exact ((capture_atomic_and_exact member).2 k t run).1.trans descriptors

end Gufo.Execution
