import Gufo.Retention.State
import Gufo.Lib.Shared
import Mathlib.Algebra.BigOperators.Fin

/-!
# Payload bytes, counted and kept

`UniquePayloadBytes` and the loops of `RetainedPayloadBytes` against the plain
count: every private state and tail, and every chunk object once.

A chunk object knows its component and its place in it, so that one object stands
at one index of one component, whatever checkpoint holds it.
-/

namespace Gufo.Retention
open Gufo.Disk Gufo.Shared

variable {object : ChunkRef → Chunk} {limit : Nat} {chunk : ChunkRef}

namespace Checkpoint

/-- Every chunk of a checkpoint. -/
def refs (c : Checkpoint object) : Finset ChunkRef := (c.components.flatMap (·.chunks)).toFinset

/-- Private states and tails of a checkpoint. -/
def privateTotal (c : Checkpoint object) : UInt64 := (c.components.map Policy.privateBytes).sum

variable {c : Checkpoint object}

theorem mem_refs :
    chunk ∈ c.refs ↔ ∃ k ∈ c.components, chunk ∈ k.chunks := by
  simp [refs]

/-- One object stands in one component, at one index of it. -/
theorem sameChunk {c d : Checkpoint object} {k l : CheckpointComponent} {n m : Nat}
    (hk : k ∈ c.components) (hl : l ∈ d.components)
    (hn : k.chunks[n]? = some chunk) (hm : l.chunks[m]? = some chunk) :
    k.descriptor.id = l.descriptor.id ∧ n = m := by
  obtain ⟨component, some_rows, -, first⟩ := c.placed k hk n chunk hn
  obtain ⟨component', -, -, first'⟩ := d.placed l hl m chunk hm
  refine ⟨component.symm.trans component', ?_⟩
  exact Nat.eq_of_mul_eq_mul_right some_rows (first.symm.trans first')

theorem chunks_nodup {k : CheckpointComponent} (hk : k ∈ c.components) :
    k.chunks.Nodup := by
  rw [List.nodup_iff_injective_getElem]
  intro ⟨n, hn⟩ ⟨m, hm⟩ eq
  have eq : k.chunks[n] = k.chunks[m] := eq
  have at_n : k.chunks[n]? = some k.chunks[n] := List.getElem?_eq_getElem hn
  have at_m : k.chunks[m]? = some k.chunks[n] := by rw [List.getElem?_eq_getElem hm, eq]
  have same := (sameChunk hk hk at_n at_m).2
  exact Fin.ext same

/-- Components of one checkpoint share no chunk. -/
theorem components_disjoint (c : Checkpoint object) :
    c.components.Pairwise fun k l => k.descriptor.id ≠ l.descriptor.id :=
  List.pairwise_map.mp c.distinct

/-- A search that only one component's id can meet finds that component. -/
theorem find_component {k : CheckpointComponent} (hk : k ∈ c.components)
    {p : CheckpointComponent → Bool} (met : p k = true)
    (only : ∀ l, p l = true → l.descriptor.id = k.descriptor.id) :
    c.components.find? p = some k := by
  have distinct := c.distinct
  generalize c.components = l at hk distinct
  induction l with
  | nil => cases hk
  | cons a l ih =>
    simp only [List.map_cons, List.nodup_cons, List.mem_map, not_exists, not_and] at distinct
    rw [List.find?_cons]
    cases List.mem_cons.mp hk with
    | inl eq => rw [← eq, met]
    | inr hk =>
      have other : p a = false := by
        by_contra h
        exact distinct.1 k hk (only a (by simpa using h)).symm
      rw [other]
      exact ih hk distinct.2

end Checkpoint

namespace Policy

/-! ## What every record holds -/

/-- The chunks that record `i` holds. -/
def heldBy (s : Policy object limit) (i : Fin limit) : Finset ChunkRef :=
  ((s.checkpointAt i).map (·.refs)).getD ∅

/-- The private states and tails of record `i`. -/
def privateOf (s : Policy object limit) (i : Fin limit) : UInt64 :=
  ((s.checkpointAt i).map (·.privateTotal)).getD 0

/-- The retained payload: private states and tails of all records, and every chunk once. -/
def payload (s : Policy object limit) : UInt64 :=
  ∑ i, s.privateOf i + ∑ chunk ∈ held s.heldBy, storageBytes object chunk

theorem mem_heldBy {s : Policy object limit} {i : Fin limit} :
    chunk ∈ s.heldBy i ↔
      ∃ c, s.checkpointAt i = some c ∧ ∃ k ∈ c.components, chunk ∈ k.chunks := by
  unfold heldBy
  cases s.checkpointAt i with
  | none => simp
  | some c => simp [Checkpoint.mem_refs]

variable {s t : Policy object limit}

theorem heldBy_congr {i : Fin limit}
    (h : s.checkpointAt i = t.checkpointAt i) : s.heldBy i = t.heldBy i := by
  unfold heldBy
  rw [h]

theorem privateOf_congr {i : Fin limit}
    (h : s.checkpointAt i = t.checkpointAt i) : s.privateOf i = t.privateOf i := by
  unfold privateOf
  rw [h]

/-- The payload depends on the retained checkpoints only. -/
theorem payload_congr
    (h : ∀ i, s.checkpointAt i = t.checkpointAt i) : s.payload = t.payload := by
  have same : s.heldBy = t.heldBy := funext fun i => heldBy_congr (h i)
  unfold payload
  rw [same, Finset.sum_congr rfl fun i _ => privateOf_congr (h i)]

/-! ## `UniquePayloadBytes` -/

variable {p : CheckpointComponent}

/-- In a list that stands longest first, the peers that reach past `n` come first. -/
theorem mem_takeWhile_longest {l : List CheckpointComponent} {n : Nat}
    (sorted : l.Pairwise fun a b => b.chunks.length ≤ a.chunks.length) (hp : p ∈ l)
    (reaches : n < p.chunks.length) :
    p ∈ l.takeWhile fun a => decide (n < a.chunks.length) := by
  induction l with
  | nil => cases hp
  | cons a l ih =>
    obtain ⟨longest, rest⟩ := List.pairwise_cons.mp sorted
    have head : n < a.chunks.length := by
      cases List.mem_cons.mp hp with
      | inl eq => exact eq ▸ reaches
      | inr hp => exact Nat.lt_of_lt_of_le reaches (longest p hp)
    rw [List.takeWhile_cons_of_pos (by simpa using head)]
    cases List.mem_cons.mp hp with
    | inl eq => exact eq ▸ List.mem_cons_self
    | inr hp => exact List.mem_cons_of_mem a (ih rest hp)

/-- Sorting the peers changes nothing but the order in which they are tried. -/
theorem any_longest (peers : List CheckpointComponent) (n : Nat) (chunk : ChunkRef) :
    (((peers.mergeSort fun a b => decide (b.chunks.length ≤ a.chunks.length)).takeWhile
      fun p => decide (n < p.chunks.length)).any fun p => p.chunks[n]? == some chunk) = true ↔
      ∃ p ∈ peers, p.chunks[n]? = some chunk := by
  have sorted : (peers.mergeSort fun a b => decide (b.chunks.length ≤ a.chunks.length)).Pairwise
      fun a b => b.chunks.length ≤ a.chunks.length := by
    have := @List.pairwise_mergeSort CheckpointComponent
      (fun a b => decide (b.chunks.length ≤ a.chunks.length))
      (fun a b c => by simp only [decide_eq_true_eq]; omega)
      (fun a b => by simp only [Bool.or_eq_true, decide_eq_true_eq]; omega) peers
    simpa using this
  simp only [List.any_eq_true, beq_iff_eq]
  constructor
  · rintro ⟨p, hp, at_n⟩
    exact ⟨p, List.mem_mergeSort.mp (List.takeWhile_sublist _ |>.subset hp), at_n⟩
  · rintro ⟨p, hp, at_n⟩
    obtain ⟨reaches, -⟩ := List.getElem?_eq_some_iff.mp at_n
    exact ⟨p, mem_takeWhile_longest sorted (List.mem_mergeSort.mpr hp) reaches, at_n⟩

variable {id : UInt32}

section Unique
variable {s : Policy object limit} {i : Fin limit} {mine : Checkpoint object}
  {c : CheckpointComponent}

/-- The peers that `UniquePayloadBytes` compares with. -/
theorem mem_peers :
    (p ∈ (List.finRange limit).filterMap fun j =>
      if j = i then none else (s.checkpointAt j).bind (chunkedPeer · id)) ↔
      ∃ j, j ≠ i ∧ ∃ d, s.checkpointAt j = some d ∧ chunkedPeer d id = some p := by
  simp only [List.mem_filterMap, List.mem_finRange, true_and]
  constructor
  · rintro ⟨j, h⟩
    split at h
    · cases h
    · rename_i other
      obtain ⟨d, at_j, found⟩ := Option.bind_eq_some_iff.mp h
      exact ⟨j, other, d, at_j, found⟩
  · rintro ⟨j, other, d, at_j, found⟩
    exact ⟨j, by rw [if_neg other, at_j]; exact found⟩

/-- The comparison by index finds a chunk exactly when another record holds it. -/
theorem shared_iff (hc : c ∈ mine.components) {n : Nat}
    (at_n : c.chunks[n]? = some chunk) :
    (∃ p ∈ (List.finRange limit).filterMap fun j =>
        if j = i then none else (s.checkpointAt j).bind (chunkedPeer · c.descriptor.id),
      p.chunks[n]? = some chunk) ↔ chunk ∈ others s.heldBy i := by
  simp only [mem_peers, mem_others, mem_heldBy]
  constructor
  · rintro ⟨p, ⟨j, other, d, at_j, found⟩, hp⟩
    exact ⟨j, other, d, at_j, p, List.mem_of_find?_eq_some found, List.mem_of_getElem? hp⟩
  · rintro ⟨j, other, d, at_j, p, hp, held⟩
    obtain ⟨m, at_m⟩ := List.getElem?_of_mem held
    obtain ⟨same, index⟩ := Checkpoint.sameChunk hc hp at_n at_m
    have some_chunks : p.chunks.isEmpty = false := by
      cases eq : p.chunks with
      | nil => simp [eq] at held
      | cons _ _ => rfl
    refine ⟨p, ⟨j, other, d, at_j, ?_⟩, index ▸ at_m⟩
    exact Checkpoint.find_component hp (by simp [same, some_chunks]) fun l met => by
      simp only [Bool.and_eq_true, beq_iff_eq] at met
      exact met.1.trans same

theorem uniqueComponentBytes_eq (hc : c ∈ mine.components) :
    @uniqueComponentBytes object ((List.finRange limit).filterMap fun j =>
      if j = i then none else (s.checkpointAt j).bind (chunkedPeer · c.descriptor.id)) c =
      privateBytes c +
        ∑ chunk ∈ c.chunks.toFinset \ others s.heldBy i, storageBytes object chunk := by
  refine congrArg (privateBytes c + ·) ?_
  calc (c.chunks.zipIdx.map _).sum
      = (c.chunks.zipIdx.map fun p =>
          if p.1 ∈ others s.heldBy i then 0 else storageBytes object p.1).sum := by
        congr 1
        apply List.map_congr_left
        rintro ⟨chunk, n⟩ hp
        have at_n : c.chunks[n]? = some chunk := List.mem_zipIdx_iff_getElem?.mp hp
        have met := (any_longest _ n chunk).trans (shared_iff (s := s) (i := i) hc at_n)
        dsimp only
        by_cases other : chunk ∈ others s.heldBy i
        · rw [if_pos (met.mpr other), if_pos other]
        · rw [if_neg (fun h => other (met.mp h)), if_neg other]
    _ = (c.chunks.map fun chunk =>
          if chunk ∈ others s.heldBy i then 0 else storageBytes object chunk).sum := by
        conv_rhs => rw [← List.zipIdx_map_fst 0 c.chunks, List.map_map]
        rfl
    _ = ∑ chunk ∈ c.chunks.toFinset,
          if chunk ∈ others s.heldBy i then 0 else storageBytes object chunk :=
        sum_nodup _ (Checkpoint.chunks_nodup hc)
    _ = ∑ chunk ∈ c.chunks.toFinset \ others s.heldBy i, storageBytes object chunk := by
        rw [Finset.sdiff_eq_filter, Finset.sum_filter]
        exact Finset.sum_congr rfl fun chunk _ => by split <;> simp_all

/-- Two components of one checkpoint share no chunk, whatever else is left out. -/
theorem chunks_disjoint {k l : CheckpointComponent} (hk : k ∈ mine.components)
    (hl : l ∈ mine.components) (differ : k.descriptor.id ≠ l.descriptor.id)
    (out : Finset ChunkRef) : Disjoint (k.chunks.toFinset \ out) (l.chunks.toFinset \ out) := by
  rw [Finset.disjoint_left]
  intro chunk in_k in_l
  simp only [Finset.mem_sdiff, List.mem_toFinset] at in_k in_l
  obtain ⟨n, at_n⟩ := List.getElem?_of_mem in_k.1
  obtain ⟨m, at_m⟩ := List.getElem?_of_mem in_l.1
  exact differ (Checkpoint.sameChunk hk hl at_n at_m).1

/-- `UniquePayloadBytes` is what no other record holds. -/
theorem uniquePayloadBytes_eq (s : Policy object limit) (i : Fin limit) :
    s.uniquePayloadBytes i = s.privateOf i +
      ∑ chunk ∈ s.heldBy i \ others s.heldBy i, storageBytes object chunk := by
  unfold uniquePayloadBytes privateOf
  cases at_i : s.checkpointAt i with
  | none => simp [heldBy, at_i]
  | some mine =>
    have each : ∀ c ∈ mine.components, (if c.chunks.isEmpty then privateBytes c
        else @uniqueComponentBytes object ((List.finRange limit).filterMap fun j =>
          if j = i then none else (s.checkpointAt j).bind (chunkedPeer · c.descriptor.id)) c) =
        privateBytes c +
          ∑ chunk ∈ c.chunks.toFinset \ others s.heldBy i, storageBytes object chunk := by
      intro c hc
      split
      · rename_i none_
        simp [List.isEmpty_iff.mp none_]
      · exact uniqueComponentBytes_eq hc
    have apart : mine.components.Pairwise fun k l =>
        Disjoint (k.chunks.toFinset \ others s.heldBy i) (l.chunks.toFinset \ others s.heldBy i) :=
      (mine.components_disjoint.imp_of_mem fun hk hl differ => chunks_disjoint hk hl differ _)
    have whole : union (mine.components.map fun c => c.chunks.toFinset \ others s.heldBy i) =
        s.heldBy i \ others s.heldBy i := by
      ext chunk
      simp only [mem_union, List.mem_map, exists_exists_and_eq_and, Finset.mem_sdiff,
        List.mem_toFinset, mem_heldBy, at_i, Option.some.injEq, exists_eq_left']
      constructor
      · rintro ⟨c, hc, held, alone⟩
        exact ⟨⟨c, hc, held⟩, alone⟩
      · rintro ⟨⟨c, hc, held⟩, alone⟩
        exact ⟨c, hc, held, alone⟩
    simp only [List.map_congr_left each, List.sum_map_add, sum_map_union _ _ apart, whole]
    rfl

end Unique

/-! ## The loops of `RetainedPayloadBytes` -/

theorem nodup_distinctAt (peers : List CheckpointComponent) (n : Nat) :
    (distinctAt peers n).Nodup ∧
      ∀ chunk, chunk ∈ distinctAt peers n ↔ ∃ p ∈ peers, p.chunks[n]? = some chunk := by
  obtain ⟨nodup, mem⟩ := collect (f := fun p : CheckpointComponent => p.chunks[n]?)
    (g := addDistinct n) (fun seen p h => by simp [addDistinct, h])
    (fun seen p chunk h old => by simp [addDistinct, h, old])
    (fun seen p chunk h new => by simp [addDistinct, h, new]) peers List.nodup_nil
  exact ⟨nodup, fun chunk => (mem chunk).trans (by simp)⟩

theorem le_rows {peers : List CheckpointComponent} (hp : p ∈ peers)
    (start : Nat) :
    p.chunks.length ≤ peers.foldl (fun rows peer => max rows peer.chunks.length) start := by
  induction peers generalizing start with
  | nil => cases hp
  | cons a l ih =>
    cases List.mem_cons.mp hp with
    | inl eq =>
      subst eq
      have grows : ∀ (l : List CheckpointComponent) (b : Nat),
          b ≤ l.foldl (fun rows peer => max rows peer.chunks.length) b := by
        intro l
        induction l with
        | nil => exact fun b => Nat.le_refl b
        | cons c l ih => exact fun b => Nat.le_trans (Nat.le_max_left _ _) (ih _)
      exact Nat.le_trans (Nat.le_max_right _ _) (grows l _)
    | inr hp => exact ih hp _

/-- Peers whose chunks each stand at one index are counted object by object. -/
theorem chunkBytes_eq {peers : List CheckpointComponent}
    (placed : ∀ p ∈ peers, ∀ q ∈ peers, ∀ (n m : Nat) (chunk : ChunkRef), p.chunks[n]? = some chunk →
      q.chunks[m]? = some chunk → n = m) :
    chunkBytes object peers =
      ∑ chunk ∈ (peers.flatMap (·.chunks)).toFinset, storageBytes object chunk := by
  unfold chunkBytes
  have row : ∀ n, ((distinctAt peers n).map (storageBytes object)).sum =
      ∑ chunk ∈ (distinctAt peers n).toFinset, storageBytes object chunk :=
    fun n => sum_nodup _ (nodup_distinctAt peers n).1
  have apart : (List.range (peers.foldl (fun rows peer => max rows peer.chunks.length) 0)).Pairwise
      fun n m => Disjoint (distinctAt peers n).toFinset (distinctAt peers m).toFinset := by
    refine List.pairwise_lt_range.imp fun {n m} less => ?_
    rw [Finset.disjoint_left]
    intro chunk in_n in_m
    rw [List.mem_toFinset, (nodup_distinctAt peers _).2] at in_n in_m
    obtain ⟨p, hp, at_n⟩ := in_n
    obtain ⟨q, hq, at_m⟩ := in_m
    have := placed p hp q hq n m chunk at_n at_m
    omega
  simp only [row]
  rw [sum_map_union _ _ apart]
  refine Finset.sum_congr ?_ fun _ _ => rfl
  ext chunk
  simp only [mem_union, List.mem_map, exists_exists_and_eq_and, List.mem_toFinset, List.mem_range,
    List.mem_flatMap, (nodup_distinctAt peers _).2]
  constructor
  · rintro ⟨n, -, p, hp, at_n⟩
    exact ⟨p, hp, List.mem_of_getElem? at_n⟩
  · rintro ⟨p, hp, held⟩
    obtain ⟨n, at_n⟩ := List.getElem?_of_mem held
    obtain ⟨reaches, -⟩ := List.getElem?_eq_some_iff.mp at_n
    exact ⟨n, Nat.lt_of_lt_of_le reaches (le_rows hp 0), p, hp, at_n⟩

section Count
variable {s : Policy object limit} {i j : Fin limit} {mine : Checkpoint object}
  {c : CheckpointComponent}

/-- All chunks of one component, in any record. -/
def chunksOf (s : Policy object limit) (id : UInt32) : Finset ChunkRef :=
  (held s.heldBy).filter fun chunk => (object chunk).component = id

theorem mem_chunksOf : chunk ∈ s.chunksOf id ↔
    ∃ j d, s.checkpointAt j = some d ∧ ∃ k ∈ d.components, k.descriptor.id = id ∧
      chunk ∈ k.chunks := by
  simp only [chunksOf, Finset.mem_filter, mem_held, mem_heldBy]
  constructor
  · rintro ⟨⟨j, d, at_j, k, hk, held⟩, component⟩
    obtain ⟨n, at_n⟩ := List.getElem?_of_mem held
    exact ⟨j, d, at_j, k, hk, (d.placed k hk n chunk at_n).1.symm.trans component, held⟩
  · rintro ⟨j, d, at_j, k, hk, same, held⟩
    obtain ⟨n, at_n⟩ := List.getElem?_of_mem held
    exact ⟨⟨j, d, at_j, k, hk, held⟩, (d.placed k hk n chunk at_n).1.trans same⟩

theorem counted_iff : s.counted i id = true ↔
    ∃ j, j < i ∧ ∃ d, s.checkpointAt j = some d ∧ ∃ k ∈ d.components, k.descriptor.id = id ∧
      k.chunks ≠ [] := by
  simp [counted, Option.any_eq_true]

theorem mem_peersFrom : p ∈ s.peersFrom i id ↔
    ∃ j, i ≤ j ∧ ∃ d, s.checkpointAt j = some d ∧
      d.components.find? (fun peer => peer.descriptor.id == id) = some p := by
  simp only [peersFrom, List.mem_filterMap, List.mem_finRange, true_and]
  constructor
  · rintro ⟨j, h⟩
    split at h
    · cases h
    · rename_i later
      obtain ⟨d, at_j, found⟩ := Option.bind_eq_some_iff.mp h
      exact ⟨j, Fin.not_lt.mp later, d, at_j, found⟩
  · rintro ⟨j, later, d, at_j, found⟩
    exact ⟨j, by rw [if_neg (Fin.not_lt.mpr later), at_j]; exact found⟩

/-- From a component's first record on, its peers hold all its chunks. -/
theorem chunkBytes_peersFrom (first : s.counted i id = false) :
    chunkBytes object (s.peersFrom i id) = ∑ chunk ∈ s.chunksOf id, storageBytes object chunk := by
  have member : ∀ {p}, p ∈ s.peersFrom i id → ∃ d : Checkpoint object, p ∈ d.components := by
    intro p hp
    obtain ⟨j, -, d, -, found⟩ := mem_peersFrom.mp hp
    exact ⟨d, List.mem_of_find?_eq_some found⟩
  rw [chunkBytes_eq]
  · refine Finset.sum_congr ?_ fun _ _ => rfl
    ext chunk
    rw [List.mem_toFinset, List.mem_flatMap, mem_chunksOf]
    constructor
    · rintro ⟨p, hp, held⟩
      obtain ⟨j, -, d, at_j, found⟩ := mem_peersFrom.mp hp
      have same := List.find?_some found
      exact ⟨j, d, at_j, p, List.mem_of_find?_eq_some found, by simpa using same, held⟩
    · rintro ⟨j, d, at_j, k, hk, same, held⟩
      refine ⟨k, mem_peersFrom.mpr ⟨j, ?_, d, at_j, ?_⟩, held⟩
      · by_contra earlier
        have : s.counted i id = true := counted_iff.mpr
          ⟨j, Fin.not_le.mp earlier, d, at_j, k, hk, same, List.ne_nil_of_mem held⟩
        rw [first] at this
        cases this
      · exact Checkpoint.find_component hk (by simpa using same) fun l met =>
          (by simpa using met : l.descriptor.id = id).trans same.symm
  · intro p hp q hq n m chunk at_n at_m
    obtain ⟨d, hp⟩ := member hp
    obtain ⟨e, hq⟩ := member hq
    exact (Checkpoint.sameChunk hp hq at_n at_m).2

/-- The chunks that are counted at one component of one record. -/
def countedAt (s : Policy object limit) (i : Fin limit) (c : CheckpointComponent) :
    Finset ChunkRef :=
  if c.chunks.isEmpty || s.counted i c.descriptor.id then ∅ else s.chunksOf c.descriptor.id

/-- The chunks that are counted at one record. -/
def countedIn (s : Policy object limit) (i : Fin limit) : Finset ChunkRef :=
  union (((s.checkpointAt i).map (·.components)).getD [] |>.map (s.countedAt i))

theorem component_of_mem_chunksOf (h : chunk ∈ s.chunksOf id) :
    (object chunk).component = id :=
  (Finset.mem_filter.mp h).2

theorem mem_countedAt (h : chunk ∈ s.countedAt i c) :
    c.chunks ≠ [] ∧ s.counted i c.descriptor.id = false ∧
      (object chunk).component = c.descriptor.id := by
  unfold countedAt at h
  split at h
  · cases h
  · rename_i first
    simp only [Bool.or_eq_true, List.isEmpty_iff, not_or, Bool.not_eq_true] at first
    exact ⟨first.1, first.2, component_of_mem_chunksOf h⟩

theorem mem_countedIn : chunk ∈ s.countedIn i ↔
    ∃ d, s.checkpointAt i = some d ∧ ∃ c ∈ d.components, chunk ∈ s.countedAt i c := by
  unfold countedIn
  cases s.checkpointAt i <;> simp

/-- Different components of a record, and different records, count different chunks. -/
theorem countedAt_disjoint (differ : mine.components.Pairwise fun k l =>
      k.descriptor.id ≠ l.descriptor.id) :
    mine.components.Pairwise fun k l => Disjoint (s.countedAt i k) (s.countedAt i l) := by
  refine differ.imp fun {k l} differ => ?_
  rw [Finset.disjoint_left]
  intro chunk in_k in_l
  exact differ ((mem_countedAt in_k).2.2.symm.trans (mem_countedAt in_l).2.2)

theorem countedIn_disjoint (less : i < j) : Disjoint (s.countedIn i) (s.countedIn j) := by
  rw [Finset.disjoint_left]
  intro chunk in_i in_j
  obtain ⟨d, at_i, k, hk, in_k⟩ := mem_countedIn.mp in_i
  obtain ⟨e, at_j, l, hl, in_l⟩ := mem_countedIn.mp in_j
  obtain ⟨some_chunks, -, component⟩ := mem_countedAt in_k
  obtain ⟨-, first, component'⟩ := mem_countedAt in_l
  have : s.counted j l.descriptor.id = true := counted_iff.mpr
    ⟨i, less, d, at_i, k, hk, component.symm.trans component', some_chunks⟩
  rw [first] at this
  cases this

/-- Every chunk is counted, at the first record that has chunks of its component. -/
theorem union_countedIn (s : Policy object limit) :
    union ((List.finRange limit).map s.countedIn) = held s.heldBy := by
  ext chunk
  simp only [mem_union, List.mem_map, List.mem_finRange, true_and, exists_exists_eq_and]
  constructor
  · rintro ⟨i, in_i⟩
    obtain ⟨d, at_i, k, hk, in_k⟩ := mem_countedIn.mp in_i
    unfold countedAt at in_k
    split at in_k
    · cases in_k
    · exact (Finset.mem_filter.mp in_k).1
  · intro is_held
    obtain ⟨j, in_j⟩ := mem_held.mp is_held
    obtain ⟨d, at_j, k, hk, at_k⟩ := mem_heldBy.mp in_j
    -- The first record with chunks of `k`'s component.
    let has (i : Fin limit) : Prop := ∃ e, s.checkpointAt i = some e ∧ ∃ l ∈ e.components,
      l.descriptor.id = k.descriptor.id ∧ l.chunks ≠ []
    have some_has : has j := ⟨d, at_j, k, hk, rfl, List.ne_nil_of_mem at_k⟩
    obtain ⟨i, ⟨e, at_i, l, hl, same, some_chunks⟩, least⟩ :=
      WellFounded.has_min (wellFounded_lt (α := Fin limit)) {i | has i} ⟨j, some_has⟩
    refine ⟨i, mem_countedIn.mpr ⟨e, at_i, l, hl, ?_⟩⟩
    have first : s.counted i l.descriptor.id = false := by
      by_contra counted
      obtain ⟨i', less, e', at_i', l', hl', same', some_chunks'⟩ :=
        counted_iff.mp (by simpa using counted)
      exact least i' ⟨e', at_i', l', hl', same'.trans same, some_chunks'⟩ less
    have nonempty : l.chunks.isEmpty = false := by simpa using some_chunks
    unfold countedAt
    rw [nonempty, first]
    exact mem_chunksOf.mpr ⟨j, d, at_j, k, hk, same.symm, at_k⟩

/-- The code's count is the payload. -/
theorem countPayloadBytes_eq (s : Policy object limit) : s.countPayloadBytes = s.payload := by
  have records : s.countPayloadBytes = ((List.finRange limit).map fun i =>
      s.privateOf i + ∑ chunk ∈ s.countedIn i, storageBytes object chunk).sum := by
    refine congrArg List.sum (List.map_congr_left fun i _ => ?_)
    unfold privateOf countedIn
    cases at_i : s.checkpointAt i with
    | none => simp [union]
    | some mine =>
      have each : ∀ c ∈ mine.components, (privateBytes c +
          if c.chunks.isEmpty || s.counted i c.descriptor.id then 0
          else chunkBytes object (s.peersFrom i c.descriptor.id)) =
          privateBytes c + ∑ chunk ∈ s.countedAt i c, storageBytes object chunk := by
        intro c _
        unfold countedAt
        split
        · simp
        · rename_i first
          simp only [Bool.or_eq_true, not_or, Bool.not_eq_true] at first
          rw [chunkBytes_peersFrom first.2]
      have apart := countedAt_disjoint (s := s) (i := i) mine.components_disjoint
      simp only [List.map_congr_left each, List.sum_map_add, sum_map_union _ _ apart]
      rfl
  have apart : (List.finRange limit).Pairwise fun i j =>
      Disjoint (s.countedIn i) (s.countedIn j) :=
    (List.pairwise_lt_finRange limit).imp fun less => countedIn_disjoint less
  calc s.countPayloadBytes
      = ((List.finRange limit).map fun i =>
          s.privateOf i + ∑ chunk ∈ s.countedIn i, storageBytes object chunk).sum := records
    _ = ((List.finRange limit).map s.privateOf).sum +
          ∑ chunk ∈ held s.heldBy, storageBytes object chunk := by
        rw [List.sum_map_add, sum_map_union _ _ apart, union_countedIn]
    _ = s.payload := by
        rw [payload, Fin.sum_univ_def]

end Count

end Policy

end Gufo.Retention
