import Gufo.Execution.State

/-!
# What a capture covers

A capture that throws leaves its history as it was. One that succeeds describes every
component from its first row to the last: complete chunks in order, a tail for the
remainder, one state for a private component. A chunk that it did not make itself is
one of a checkpoint on its own branch.
-/

open Gufo.Program

namespace Gufo.Execution

variable {services : Services} {d : ComponentDescriptor} {p : ComponentPosition}
  {positions : List ComponentPosition} {published cursor : List Entry} {draft : Draft}
  {h : ExecutionHistory} {old heap : Heap} {own : List Checkpoint} {request : CheckpointRequest}
  {r : PayloadRequest} {first component : Nat} {chunk : ChunkRef}
  {c : CheckpointComponent} {I : ExecutionHistory → Heap → Prop}

/-! ## Coverage -/

/-- The first complete ranges of a component. -/
def tiles (d : ComponentDescriptor) (n : Nat) : List Chunk :=
  (List.range n).map fun i => ⟨d.id, i * d.rowsPerChunk, i * d.rowsPerChunk + d.rowsPerChunk⟩

theorem tiles_succ (d : ComponentDescriptor) (n : Nat) :
    tiles d (n + 1) =
      tiles d n ++ [⟨d.id, n * d.rowsPerChunk, n * d.rowsPerChunk + d.rowsPerChunk⟩] := by
  simp [tiles, List.range_succ]

/-- The rows of a component in a checkpoint, all of them and each once. -/
def Covers (heap : Heap) (c : CheckpointComponent) : Prop :=
  match c.descriptor.kind with
  | .appendRows =>
    c.chunks.map heap.object =
      tiles c.descriptor (c.position.validRows / c.descriptor.rowsPerChunk) ∧
    c.tail = (if c.position.validRows % c.descriptor.rowsPerChunk ≠ 0 then
      some (tailRequest c.descriptor c.position.validRows) else none) ∧
    c.privateState = none
  | .privateState =>
    c.chunks = [] ∧ c.tail = none ∧
      c.privateState = some (stateRequest c.descriptor c.position.validRows)

/-- A chunk made before belongs to a checkpoint on the branch, for the same component. -/
def Inherited (old : Heap) (own : List Checkpoint) (component : Nat) (chunk : ChunkRef) : Prop :=
  chunk < old.next → ∃ k ∈ own, ∃ c ∈ k.components, c.descriptor.id = component ∧ chunk ∈ c.chunks

/-! ## The heap only grows -/

structure Grew (old heap : Heap) : Prop where
  next : old.next ≤ heap.next
  object : ∀ ref, ref < old.next → heap.object ref = old.object ref

theorem Grew.refl (heap : Heap) : Grew heap heap := ⟨le_rfl, fun _ _ => rfl⟩

theorem Grew.trans {a b c : Heap} (ab : Grew a b) (bc : Grew b c) : Grew a c :=
  ⟨ab.next.trans bc.next, fun ref known =>
    (bc.object ref (known.trans_le ab.next)).trans (ab.object ref known)⟩

theorem grew_alloc (heap : Heap) (chunk : Chunk) : Grew heap (heap.alloc chunk) := by
  refine ⟨Nat.le_succ _, fun ref known => ?_⟩
  simp only [Heap.alloc]
  rw [if_neg (Nat.ne_of_lt known)]

theorem Grew.map_object (grew : Grew old heap) {chunks : List ChunkRef}
    (known : ∀ chunk ∈ chunks, chunk < old.next) :
    chunks.map heap.object = chunks.map old.object :=
  List.map_congr_left fun chunk mem => grew.object chunk (known chunk mem)

theorem Covers.grew (covers : Covers old c) (grew : Grew old heap)
    (known : ∀ chunk ∈ c.chunks, chunk < old.next) : Covers heap c := by
  unfold Covers at covers ⊢
  rwa [grew.map_object known]

/-! ## Entries -/

/-- The history is right about its chunks, and has them from its own checkpoints. -/
structure Sound (heap : Heap) (h : ExecutionHistory) (own : List Checkpoint) : Prop where
  ids : (h.descriptors.map (·.id)).Nodup
  known : ∀ e ∈ h.entries, e.chunk < heap.next
  range : ∀ e ∈ h.entries, ∀ d ∈ h.descriptors, d.id = e.component →
    heap.object e.chunk = ⟨e.component, e.first, e.first + d.rowsPerChunk⟩
  own : ∀ e ∈ h.entries, ∃ k ∈ own, ∃ c ∈ k.components,
    c.descriptor.id = e.component ∧ e.chunk ∈ c.chunks

theorem Sound.mono (sound : Sound old h own) (grew : Grew old heap) {more : List Checkpoint}
    (sub : own ⊆ more) : Sound heap h more where
  ids := sound.ids
  known e mem := (sound.known e mem).trans_le grew.next
  range e mem d descriptor same := by
    rw [grew.object _ (sound.known e mem)]
    exact sound.range e mem d descriptor same
  own e mem := (sound.own e mem).imp fun _ found => ⟨sub found.1, found.2⟩

theorem chunks_subset : chunks published component ⊆ published :=
  (List.dropWhile_sublist _).subset

theorem find_subset {alive : ChunkRef → Bool} :
    (find alive component first cursor).2 ⊆ cursor := by
  unfold find
  have sub := (List.dropWhile_sublist
    (fun e : Entry => e.component == component && decide (e.first < first))
      (l := cursor)).subset
  split
  · exact List.nil_subset _
  · rename_i e rest rw
    rw [rw] at sub
    split
    · exact fun x mem => sub (List.mem_cons_of_mem _ mem)
    · exact sub

theorem mem_of_find {alive : ChunkRef → Bool}
    (found : (find alive component first cursor).1 = some chunk) :
    ⟨component, first, chunk⟩ ∈ cursor := by
  unfold find at found
  have sub := (List.dropWhile_sublist
    (fun e : Entry => e.component == component && decide (e.first < first))
      (l := cursor)).subset
  split at found
  · cases found
  · rename_i e rest rw
    rw [rw] at sub
    split at found
    · rename_i same
      split at found
      · cases found
        obtain ⟨rfl, rfl⟩ := same
        exact sub List.mem_cons_self
      · cases found
    · cases found

/-! ## What leaves the history and the heap alone -/

/-- The callbacks and questions of a capture do not touch its history and objects. -/
def On (I : ExecutionHistory → Heap → Prop) (s : Call) : Prop := I s.history s.heap

theorem ask_on : Keeps (On I) (ask services) := by
  refine triple_get_bind fun s start => ?_
  refine triple_bind (R := fun _ => On I) (triple_set fun _ _ => start) fun _ => ?_
  exact triple_ite (fun _ => triple_throw fun _ h => h) fun _ => triple_pure fun _ h => h

theorem askWhen_on (condition : Prop) [Decidable condition] :
    Keeps (On I) (askWhen services condition) :=
  triple_ite (fun _ => ask_on) fun _ => triple_pure fun _ h => h

theorem issue_on : Keeps (On I) (issue services r) := by
  refine triple_get_bind fun s start => ?_
  refine triple_bind (R := fun _ => On I) (triple_set fun _ _ => start) fun _ => ?_
  cases services.captured s.asked r with
  | complete => exact triple_pure fun _ h => h
  | rejected => exact triple_throw fun _ h => h
  | threw => exact triple_throw fun _ h => h

theorem save_on : Keeps (On I) (save services r) :=
  triple_ite (fun _ => triple_modify fun _ h => h) fun _ => issue_on

theorem capturePlan_on : Keeps (On I) (capturePlan services) := by
  refine triple_ite (fun _ => ?_) fun _ => triple_pure fun _ h => h
  refine triple_get_bind fun s start => ?_
  refine triple_ite (fun _ => ?_) fun _ => triple_throw fun t same => same ▸ start
  exact triple_consequence (triple_forM (I := fun _ => On I) (fun _ _ => issue_on) s.planned)
    (fun t same => same ▸ start) (fun _ _ h => h) fun _ _ h => h

/-! ## The checkpoint under construction -/

/-- Its chunks so far. -/
def Draft.chunks (draft : Draft) : List ChunkRef := draft.done.flatMap (·.chunks) ++ draft.current

/-- A capture that runs: the history as it was, and the components it is done with. -/
structure Built (h : ExecutionHistory) (old : Heap) (own : List Checkpoint) (draft : Draft)
    (history : ExecutionHistory) (heap : Heap) : Prop where
  history : history = h
  grew : Grew old heap
  covers : ∀ c ∈ draft.done, Covers heap c
  inherited : ∀ c ∈ draft.done, ∀ chunk ∈ c.chunks, Inherited old own c.descriptor.id chunk
  known : ∀ chunk ∈ draft.chunks, chunk < heap.next
  entries : draft.reuse = false → draft.entries = chunkEntries heap draft.chunks

/-- In component `d`, with its first `n` complete ranges. -/
structure Filling (h : ExecutionHistory) (old : Heap) (own : List Checkpoint) (draft : Draft)
    (d : ComponentDescriptor) (n : Nat) (history : ExecutionHistory) (heap : Heap) : Prop
    extends Built h old own draft history heap where
  current : draft.current.map heap.object = tiles d n
  here : ∀ chunk ∈ draft.current, Inherited old own d.id chunk

/-- What a capture that throws leaves behind. -/
def Aborted (h : ExecutionHistory) (old : Heap) (history : ExecutionHistory) (heap : Heap) : Prop :=
  history = h ∧ Grew old heap

variable {history : ExecutionHistory} {n : Nat}

theorem Built.aborted (built : Built h old own draft history heap) : Aborted h old history heap :=
  ⟨built.history, built.grew⟩

theorem Built.alloc (built : Built h old own draft history heap) (made : Chunk) :
    Built h old own draft history (heap.alloc made) where
  history := built.history
  grew := built.grew.trans (grew_alloc heap made)
  covers c mem := (built.covers c mem).grew (grew_alloc heap made) fun chunk of =>
    built.known chunk (List.mem_append_left _ (List.mem_flatMap.mpr ⟨c, mem, of⟩))
  inherited := built.inherited
  known chunk mem := (built.known chunk mem).trans (Nat.lt_succ_self _)
  entries fresh := by
    rw [built.entries fresh]
    refine List.map_congr_left fun chunk mem => ?_
    rw [(grew_alloc heap made).object chunk (built.known chunk mem)]

theorem Filling.alloc (filling : Filling h old own draft d n history heap) (made : Chunk) :
    Filling h old own draft d n history (heap.alloc made) where
  toBuilt := filling.toBuilt.alloc made
  current := by
    rw [(grew_alloc heap made).map_object fun chunk mem =>
      filling.known chunk (List.mem_append_right _ mem)]
    exact filling.current
  here := filling.here

theorem Draft.chunks_push (draft : Draft) (component first : Nat) (chunk : ChunkRef) :
    (draft.push component first chunk).chunks = draft.chunks ++ [chunk] := by
  simp [Draft.chunks, Draft.push]

theorem Filling.push (filling : Filling h old own draft d n history heap)
    (known : chunk < heap.next) (inherited : Inherited old own d.id chunk)
    (object : heap.object chunk =
      ⟨d.id, n * d.rowsPerChunk, n * d.rowsPerChunk + d.rowsPerChunk⟩) :
    Filling h old own (draft.push d.id (n * d.rowsPerChunk) chunk) d (n + 1) history heap where
  history := filling.history
  grew := filling.grew
  covers := filling.covers
  inherited := filling.inherited
  known chunk' mem := by
    rw [Draft.chunks_push, List.mem_append, List.mem_singleton] at mem
    rcases mem with mem | rfl
    · exact filling.known chunk' mem
    · exact known
  entries fresh := by
    have entries := filling.entries fresh
    have reuse : draft.reuse = false := fresh
    rw [Draft.chunks_push]
    simp [Draft.push, reuse, entries, chunkEntries, object]
  current := by simp [Draft.push, filling.current, object, tiles_succ]
  here chunk' mem := by
    rcases List.mem_append.mp mem with mem | mem
    · exact filling.here chunk' mem
    · rw [List.mem_singleton.mp mem]
      exact inherited

theorem replaceEntries_filling :
    Triple (On (Filling h old own draft d n)) (replaceEntries services draft)
      (fun draft' s => On (Filling h old own draft' d n) s ∧ draft'.done = draft.done)
      (fun _ => On (Aborted h old)) := by
  refine triple_ite (fun _ => triple_pure fun s f => ⟨f, rfl⟩) fun _ => ?_
  refine triple_bind (triple_consequence ask_on (fun _ h => h) (fun _ _ h => h)
    fun _ s (f : On (Filling h old own draft d n) s) => f.toBuilt.aborted) fun _ => ?_
  refine triple_get_bind fun s filling => triple_pure fun t same => ?_
  subst same
  exact ⟨⟨⟨filling.history, filling.grew, filling.covers, filling.inherited, filling.known,
    fun _ => rfl⟩, filling.current, filling.here⟩, rfl⟩

theorem newChunk_filling (draft : Draft) (first_eq : first = n * d.rowsPerChunk) :
    Triple (On (Filling h old own draft d n)) (newChunk services d first draft)
      (fun draft' s => On (Filling h old own draft' d (n + 1)) s ∧ draft'.done = draft.done)
      (fun _ => On (Aborted h old)) := by
  subst first_eq
  refine triple_bind replaceEntries_filling fun draft' => ?_
  refine triple_of_start fun s ⟨filling, done⟩ => ?_
  refine triple_bind (R := fun _ => On (Filling h old own draft' d n)) (triple_consequence
    (ask_on (I := Filling h old own draft' d n)) (fun t same => same ▸ filling) (fun _ _ h => h)
    fun _ s f => (Filling.toBuilt f).aborted) fun _ => ?_
  refine triple_get_bind fun s filling => ?_
  let made : ExecutionHistory → Heap → Prop := fun history heap =>
    Filling h old own draft' d n history heap ∧ s.heap.next < heap.next ∧
      heap.object s.heap.next =
        ⟨d.id, n * d.rowsPerChunk, n * d.rowsPerChunk + d.rowsPerChunk⟩
  have left : ∀ s, On made s → On (Aborted h old) s := fun s m => m.1.toBuilt.aborted
  refine triple_bind (R := fun _ => On made) (triple_set fun t same => ?_) fun _ => ?_
  · exact ⟨Filling.alloc filling _, Nat.lt_succ_self _, by simp [Heap.alloc]⟩
  refine triple_bind (triple_consequence save_on (fun _ h => h) (fun _ _ h => h)
    fun _ => left) fun _ => ?_
  refine triple_bind (triple_consequence ask_on (fun _ h => h) (fun _ _ h => h)
    fun _ => left) fun _ => ?_
  refine triple_pure fun t m => ⟨m.1.push m.2.1 (fun older => ?_) m.2.2, done⟩
  exact absurd (Filling.toBuilt filling).grew.next (Nat.not_le.mpr older)

theorem chunkLoop_filling (sound : Sound old h own) (member : d ∈ h.descriptors) :
    ∀ (left n first : Nat) (cursor : List Entry) (draft : Draft), first = n * d.rowsPerChunk →
      cursor ⊆ h.entries →
      Triple (On (Filling h old own draft d n)) (chunkLoop services d left first cursor draft)
        (fun draft' s => On (Filling h old own draft' d (n + left)) s ∧ draft'.done = draft.done)
        (fun _ => On (Aborted h old)) := by
  intro left
  induction left with
  | zero => exact fun n first cursor draft _ _ => triple_pure fun s f => ⟨f, rfl⟩
  | succ left ih =>
    intro n first cursor draft first_eq sub
    have next : first + d.rowsPerChunk = (n + 1) * d.rowsPerChunk := by
      rw [first_eq, Nat.add_mul, Nat.one_mul]
    have total : n + (left + 1) = n + 1 + left := by omega
    rw [total]
    refine triple_get_bind fun s filling => ?_
    have rest : (find (services.alive s.asked) d.id first cursor).2 ⊆ h.entries :=
      fun e mem => sub (find_subset mem)
    have entry : ∀ chunk, (find (services.alive s.asked) d.id first cursor).1 = some chunk →
        ⟨d.id, first, chunk⟩ ∈ h.entries := fun chunk found => sub (mem_of_find found)
    match eq : find (services.alive s.asked) d.id first cursor with
    | (none, cursor) =>
      rw [eq] at rest
      refine triple_bind (triple_consequence (newChunk_filling draft first_eq)
        (fun t same => same ▸ filling) (fun _ _ h => h) fun _ _ h => h) fun draft' => ?_
      refine triple_of_start fun t ⟨filled, done⟩ => ?_
      exact triple_consequence (ih (n + 1) _ cursor draft' next rest)
        (fun u same => same ▸ filled) (fun _ _ after => ⟨after.1, after.2.trans done⟩)
          fun _ _ h => h
    | (some chunk, cursor) =>
      rw [eq] at rest
      have present := entry chunk (by rw [eq])
      refine triple_reject (fun _ t same => same ▸ (Filling.toBuilt filling).aborted) fun _ => ?_
      refine triple_consequence (ih (n + 1) _ cursor (draft.push d.id first chunk) next rest)
        (fun t same => ?_) (fun _ _ h => h) fun _ _ h => h
      subst same first_eq
      have range := sound.range _ present d member rfl
      refine Filling.push filling ?_ (fun _ => sound.own _ present) ?_
      · exact (sound.known _ present).trans_le (Filling.toBuilt filling).grew.next
      · rw [(Filling.toBuilt filling).grew.object _ (sound.known _ present)]
        exact range

/-- A complete component joins the others. -/
theorem Filling.close (filling : Filling h old own draft d n history heap)
    {tail state : Option PayloadRequest} (covers : Covers heap ⟨d, p, draft.current, tail, state⟩) :
    Built h old own (draft.close d p tail state) history heap where
  history := filling.history
  grew := filling.grew
  covers c mem := by
    rcases List.mem_append.mp mem with mem | mem
    · exact filling.covers c mem
    · rw [List.mem_singleton.mp mem]
      exact covers
  inherited c mem := by
    rcases List.mem_append.mp mem with mem | mem
    · exact filling.inherited c mem
    · rw [List.mem_singleton.mp mem]
      exact filling.here
  known chunk mem := filling.known chunk (by simpa [Draft.chunks, Draft.close] using mem)
  entries fresh := by
    have entries := filling.entries fresh
    simpa [Draft.chunks, Draft.close] using entries

theorem Built.filling (built : Built h old own draft history heap) (empty : draft.current = []) :
    Filling h old own draft d 0 history heap where
  toBuilt := built
  current := by rw [empty]; rfl
  here chunk mem := by rw [empty] at mem; cases mem

/-- The components a part of a capture has added to the draft. -/
def Adds (h : ExecutionHistory) (old : Heap) (own : List Checkpoint) (draft : Draft)
    (added : List (ComponentDescriptor × ComponentPosition)) (draft' : Draft) (s : Call) : Prop :=
  On (Built h old own draft') s ∧ draft'.current = [] ∧
    draft'.done.map (fun c => (c.descriptor, c.position)) =
      draft.done.map (fun c => (c.descriptor, c.position)) ++ added

theorem captureComponent_built (sound : Sound old h own) (member : d ∈ h.descriptors)
    (empty : draft.current = []) :
    Triple (On (Built h old own draft)) (captureComponent services h.entries d p draft)
      (Adds h old own draft [(d, p)]) (fun _ => On (Aborted h old)) := by
  have stop : ∀ {draft : Draft} (s : Call), On (Filling h old own draft d
      (p.validRows / d.rowsPerChunk)) s → On (Aborted h old) s := fun s f =>
    (Filling.toBuilt f).aborted
  refine triple_ite (fun state => ?_) fun append => ?_
  · refine triple_bind (triple_consequence save_on (fun _ h => h) (fun _ _ h => h)
      fun _ s (b : On (Built h old own draft) s) => b.aborted) fun _ => ?_
    refine triple_pure fun s built => ⟨(Built.filling built empty).close ?_, rfl, by
      simp [Draft.close]⟩
    simp [Covers, state, empty]
  · have kind : d.kind = .appendRows := by
      cases of : d.kind
      · rfl
      · exact absurd of append
    refine triple_bind (triple_consequence (chunkLoop_filling sound member
      (p.validRows / d.rowsPerChunk) 0 0 _ draft (by simp) chunks_subset)
      (fun s built => Built.filling built empty) (fun _ _ h => h) fun _ _ h => h) fun draft' => ?_
    rw [Nat.zero_add]
    refine triple_of_start fun s ⟨filling, done⟩ => ?_
    have remainder : fullEnd d p.validRows ≠ p.validRows ↔
        p.validRows % d.rowsPerChunk ≠ 0 := by
      have := Nat.mod_le p.validRows d.rowsPerChunk
      unfold fullEnd
      omega
    refine triple_ite (fun part => ?_) fun complete => ?_
    · refine triple_bind (triple_consequence (save_on (I := Filling h old own draft' d
        (p.validRows / d.rowsPerChunk))) (fun t same => same ▸ filling) (fun _ _ h => h)
        fun _ => stop) fun _ => ?_
      refine triple_pure fun t filling => ⟨Filling.close filling ?_, rfl, by
        simp [Draft.close, done]⟩
      simp only [Covers, kind]
      exact ⟨Filling.current filling, by rw [if_pos (remainder.mp part)], trivial⟩
    · refine triple_pure fun t same => ⟨Filling.close (same ▸ filling) ?_, rfl, by
        simp [Draft.close, done]⟩
      subst same
      simp only [Covers, kind]
      exact ⟨Filling.current filling, by rw [if_neg (mt remainder.mpr complete)], trivial⟩

/-- The components with their positions, where each has exactly one. -/
def placed (positions : List ComponentPosition) :
    List ComponentDescriptor → List (ComponentDescriptor × ComponentPosition)
  | [] => []
  | d :: rest =>
    match positionFor positions d.id with
    | none => placed positions rest
    | some p => (d, p) :: placed positions rest

theorem captureLoop_built (sound : Sound old h own) :
    ∀ (ds : List ComponentDescriptor) (draft : Draft), ds ⊆ h.descriptors → draft.current = [] →
      Triple (On (Built h old own draft)) (captureLoop services h.entries positions ds draft)
        (fun draft' s => Adds h old own draft (placed positions ds) draft' s ∧
          (placed positions ds).map Prod.fst = ds)
        (fun _ => On (Aborted h old)) := by
  intro ds
  induction ds with
  | nil =>
    exact fun draft _ empty => triple_pure fun s built => ⟨⟨built, empty, by simp [placed]⟩, rfl⟩
  | cons d rest ih =>
    intro draft sub empty
    unfold captureLoop placed
    cases positionFor positions d.id with
    | none => exact triple_throw fun s built => Built.aborted built
    | some p =>
      refine triple_bind (captureComponent_built sound (sub List.mem_cons_self) empty)
        fun draft' => ?_
      refine triple_of_start fun s ⟨built, empty', done⟩ => ?_
      refine triple_consequence (ih draft' (fun x mem => sub (List.mem_cons_of_mem _ mem)) empty')
        (fun t same => same ▸ built) ?_ fun _ _ h => h
      rintro draft'' t ⟨⟨built, empty, done'⟩, heads⟩
      exact ⟨⟨built, empty, by rw [done', done]; simp⟩, by simp [heads]⟩

theorem positionFor_of_placed {ds : List ComponentDescriptor} (mem : (d, p) ∈ placed positions ds) :
    positionFor positions d.id = some p := by
  induction ds with
  | nil => cases mem
  | cons d' rest ih =>
    unfold placed at mem
    cases found : positionFor positions d'.id with
    | none =>
      rw [found] at mem
      exact ih mem
    | some p' =>
      rw [found] at mem
      rcases List.mem_cons.mp mem with same | mem
      · cases same
        exact found
      · exact ih mem

/-! ## The whole capture -/

theorem Covers.object (covers : Covers heap c) (mem : chunk ∈ c.chunks) :
    ∃ i, heap.object chunk = ⟨c.descriptor.id, i * c.descriptor.rowsPerChunk,
      i * c.descriptor.rowsPerChunk + c.descriptor.rowsPerChunk⟩ := by
  unfold Covers at covers
  split at covers
  · have mem := List.mem_map_of_mem (f := heap.object) mem
    rw [covers.1, tiles, List.mem_map] at mem
    obtain ⟨i, _, same⟩ := mem
    exact ⟨i, same.symm⟩
  · rw [covers.1] at mem
    cases mem

theorem eq_of_ids {ds : List ComponentDescriptor} (ids : (ds.map (·.id)).Nodup)
    {a b : ComponentDescriptor} (ha : a ∈ ds) (hb : b ∈ ds) (same : a.id = b.id) : a = b :=
  List.inj_on_of_nodup_map ids ha hb same

/-- What the chunks of a checkpoint say as entries is right. -/
theorem sound_of_chunkEntries {k : Checkpoint} (member : k ∈ own)
    (covers : ∀ c ∈ k.components, Covers heap c)
    (known : ∀ c ∈ k.components, ∀ chunk ∈ c.chunks, chunk < heap.next)
    (ids : (h.descriptors.map (·.id)).Nodup)
    (descriptors : k.components.map (·.descriptor) = h.descriptors)
    (entries : h.entries.Perm (chunkEntries heap (k.components.flatMap (·.chunks)))) :
    Sound heap h own := by
  have entry : ∀ e ∈ h.entries, ∃ c ∈ k.components, e.chunk ∈ c.chunks ∧
      e.component = c.descriptor.id ∧
      heap.object e.chunk = ⟨e.component, e.first, e.first + c.descriptor.rowsPerChunk⟩ := by
    intro e mem
    obtain ⟨chunk, of, rfl⟩ := List.mem_map.mp (entries.subset mem)
    obtain ⟨c, part, of⟩ := List.mem_flatMap.mp of
    obtain ⟨i, object⟩ := (covers c part).object of
    exact ⟨c, part, of, by simp [object], by simp [object]⟩
  refine ⟨ids, fun e mem => ?_, fun e mem d descriptor of => ?_, fun e mem => ?_⟩
  · obtain ⟨c, part, of, _⟩ := entry e mem
    exact known c part _ of
  · obtain ⟨c, part, _, component, object⟩ := entry e mem
    have : c.descriptor ∈ h.descriptors := descriptors ▸ List.mem_map_of_mem part
    rw [eq_of_ids ids descriptor this (of.trans component)]
    exact object
  · obtain ⟨c, part, of, component, _⟩ := entry e mem
    exact ⟨k, member, c, part, component.symm, of⟩

/-- A capture that succeeded. -/
structure Covered (old : Heap) (h : ExecutionHistory) (own : List Checkpoint)
    (request : CheckpointRequest) (k : Checkpoint) (s : Call) : Prop where
  tokens : k.tokens = request.tokens
  descriptors : k.components.map (·.descriptor) = h.descriptors
  positions : ∀ c ∈ k.components,
    positionFor request.positions c.descriptor.id = some c.position
  covers : ∀ c ∈ k.components, Covers s.heap c
  inherited : ∀ c ∈ k.components, ∀ chunk ∈ c.chunks, Inherited old own c.descriptor.id chunk
  known : ∀ c ∈ k.components, ∀ chunk ∈ c.chunks, chunk < s.heap.next
  grew : Grew old s.heap
  sound : Sound s.heap s.history (k :: own)
  current : s.history.tokens = k.tokens ∧ s.history.positions = k.components.map (·.position)

theorem publishedEntries_perm (fresh : draft.reuse = false) :
    (publishedEntries h draft).Perm draft.entries := by
  unfold publishedEntries
  simp only [fresh, Bool.false_eq_true, if_false]
  split
  · exact List.Perm.refl _
  · exact List.mergeSort_perm _ _

theorem Built.covered (sound : Sound old h own) {history : ExecutionHistory}
    (built : Built h old own draft history heap) (closed : draft.current = [])
    (parts : draft.done.map (fun c => (c.descriptor, c.position)) =
      placed request.positions h.descriptors)
    (heads : (placed request.positions h.descriptors).map Prod.fst = h.descriptors)
    {k : Checkpoint} {input : Identity} {s : Call} (same : s.heap = heap)
    (published : s.history = publish h request input draft)
    (tokens : k.tokens = request.tokens) (components : k.components = draft.done) :
    Covered old h own request k s := by
  have descriptors : draft.done.map (·.descriptor) = h.descriptors := by
    rw [← heads, ← parts, List.map_map]
    rfl
  have known : ∀ c ∈ draft.done, ∀ chunk ∈ c.chunks, chunk < heap.next := fun c mem chunk of =>
    built.known chunk (List.mem_append_left _ (List.mem_flatMap.mpr ⟨c, mem, of⟩))
  have all : draft.chunks = draft.done.flatMap (·.chunks) := by
    simp [Draft.chunks, closed]
  subst same
  refine ⟨tokens, components ▸ descriptors, fun c mem => ?_, components ▸ built.covers,
    components ▸ built.inherited, components ▸ known, built.grew, ?_,
    ⟨by rw [published, tokens]; rfl, by rw [published, components]; rfl⟩⟩
  · rw [components] at mem
    have pair : (c.descriptor, c.position) ∈ placed request.positions h.descriptors :=
      parts ▸ List.mem_map_of_mem mem
    exact positionFor_of_placed pair
  · cases reuse : draft.reuse with
    | true =>
      have entries : s.history.entries = h.entries := by
        rw [published]
        simp [publish, publishedEntries, reuse]
      have kept := sound.mono built.grew (List.subset_cons_self k own)
      exact ⟨by rw [published]; exact kept.ids, entries ▸ kept.known, by
        rw [entries, published]; exact kept.range, entries ▸ kept.own⟩
    | false =>
      refine sound_of_chunkEntries List.mem_cons_self (components ▸ built.covers)
        (components ▸ known) (by rw [published]; exact sound.ids)
        (by rw [published, components]; exact descriptors) ?_
      rw [published, components, ← all, ← built.entries reuse]
      exact publishedEntries_perm reuse

theorem capture_covered (services : Services) (request : CheckpointRequest)
    (sound : Sound old h own) :
    Triple (fun s => s = Call.start h old) (capture services request)
      (Covered old h own request) (fun _ => On (Aborted h old)) := by
  refine triple_get_bind fun s start => ?_
  subst start
  have begun : On (Aborted h old) (Call.start h old) := ⟨rfl, Grew.refl old⟩
  refine triple_bind (R := fun _ => On (Aborted h old)) ?_ fun _ => ?_
  · show Triple _ (liftExcept (admitRequest services h request)) _ _
    cases admitRequest services h request with
    | ok a => exact triple_pure fun s same => same ▸ begun
    | error e => exact triple_throw fun s same => same ▸ begun
  refine triple_bind ask_on fun _ => ?_
  refine triple_bind (askWhen_on _) fun _ => ?_
  refine triple_bind ask_on fun _ => ?_
  refine triple_get_bind fun s aborted => ?_
  refine triple_bind (R := fun _ => On (Aborted h old)) (triple_set fun _ _ =>
    ⟨aborted.1, aborted.2.trans (grew_alloc _ _)⟩) fun _ => ?_
  refine triple_bind (askWhen_on _) fun _ => ?_
  refine triple_bind (triple_consequence (captureLoop_built sound h.descriptors _
    (List.Subset.refl _) rfl) (fun s aborted => ?_) (fun _ _ h => h) fun _ _ h => h) fun draft => ?_
  · exact ⟨aborted.1, aborted.2, List.forall_mem_nil _, List.forall_mem_nil _,
      List.forall_mem_nil _, fun _ => rfl⟩
  refine triple_of_start fun s ⟨⟨built, closed, parts⟩, heads⟩ => ?_
  refine triple_bind (triple_consequence (capturePlan_on (I := Built h old own draft))
    (fun t same => same ▸ built) (fun _ _ h => h) fun _ _ => Built.aborted) fun _ => ?_
  refine triple_bind (triple_consequence (ask_on (I := Built h old own draft))
    (fun _ h => h) (fun _ _ h => h) fun _ _ => Built.aborted) fun _ => ?_
  refine triple_of_start fun s built => ?_
  refine triple_bind (R := fun _ t => t.heap = s.heap ∧ t.history = publish h request _ draft)
    (triple_modify fun t same => by subst same; exact ⟨rfl, rfl⟩) fun _ => ?_
  exact triple_pure fun t ⟨same, published⟩ =>
    Built.covered sound built closed parts heads same published rfl rfl

end Gufo.Execution
