import Gufo.Lib.Keyed
import Gufo.Store.State
import Mathlib.Data.List.Flatten
import Mathlib.Data.List.Nodup

/-!
# Claims without conflict

What the index promises about the files its entries share: one checkpoint has one
entry, a private file has one claim, and all claims on a chunk say the same. The
check of `ValidateReferences` passes exactly then, what startup keeps is of that
kind, and which manifests it keeps does not depend on their order.
-/

namespace Gufo.Store
open Gufo.Disk Gufo.Keyed

/-- Two claims that may stand on one file: a chunk's, with equal geometry. -/
structure Compatible (c d : Claim) : Prop where
  left : c.key.1 = false
  right : d.key.1 = false
  geometry : c.geometry = d.geometry

theorem Compatible.symm {c d : Claim} (h : Compatible c d) : Compatible d c :=
  ⟨h.right, h.left, h.geometry.symm⟩

theorem Compatible.carries {c d e : Claim} (h : Compatible c d) (k : Compatible c e) :
    Compatible d e :=
  ⟨h.right, k.right, h.geometry.symm.trans k.geometry⟩

/-- The manifests of an index without conflict. -/
structure Coherent (ms : List DiskManifest) : Prop where
  checkpoints : (ms.map (·.checkpoint)).Nodup
  claims : Together Claim.key Compatible (ms.flatMap manifestClaims)

/-- Two manifests that an index can hold together. -/
structure Agree (m n : DiskManifest) : Prop where
  checkpoint : m.checkpoint ≠ n.checkpoint
  claims : Across Claim.key Compatible (manifestClaims m) (manifestClaims n)

theorem Agree.symm {m n : DiskManifest} (h : Agree m n) : Agree n m :=
  ⟨h.checkpoint.symm, fun c hc d hd same => (h.claims d hd c hc same.symm).symm⟩

/-- A manifest whose own claims go together. -/
def Consistent (m : DiskManifest) : Prop := Together Claim.key Compatible (manifestClaims m)

variable {ms : List DiskManifest}

theorem coherent_iff_agree :
    Coherent ms ↔ (∀ m ∈ ms, Consistent m) ∧ ms.Pairwise Agree := by
  constructor
  · intro h
    obtain ⟨each, pairs⟩ := together_flatMap.mp h.claims
    refine ⟨each, ?_⟩
    have distinct := List.pairwise_map.mp h.checkpoints
    exact (distinct.and pairs).imp fun both => ⟨both.1, both.2⟩
  · rintro ⟨each, pairs⟩
    refine ⟨List.pairwise_map.mpr (pairs.imp fun agree => agree.checkpoint), ?_⟩
    exact together_flatMap.mpr ⟨each, pairs.imp fun agree => agree.claims⟩

/-! ## The check -/

theorem conflicts_eq_false {cs : List Claim} {k : FileKey} :
    conflicts cs k = false ↔ (cs.filter fun c => c.key = k).Pairwise Compatible := by
  have same : (cs.filter fun c => c.key == k) = cs.filter fun c => c.key = k :=
    List.filter_congr fun c _ => by rw [Bool.eq_iff_iff]; simp
  unfold conflicts
  rw [same]
  cases found : cs.filter fun c => c.key = k with
  | nil => simp
  | cons first rest =>
    have keyed : ∀ c ∈ first :: rest, c.key = k := by
      intro c hc
      have mem : c ∈ cs.filter fun c => c.key = k := found ▸ hc
      simpa using (List.mem_filter.mp mem).2
    rw [pairwise_iff_first (R := Compatible) fun _ _ h k => h.carries k]
    simp only [List.any_eq_false, Bool.or_eq_true, bne_iff_ne, not_or, Bool.not_eq_true, not_not]
    constructor
    · intro h c hc
      obtain ⟨chunk, geometry⟩ := h c hc
      exact ⟨keyed first List.mem_cons_self ▸ chunk,
        keyed c (List.mem_cons_of_mem _ hc) ▸ chunk, geometry.symm⟩
    · intro h c hc
      have pair := h c hc
      exact ⟨keyed first List.mem_cons_self ▸ pair.left, pair.geometry.symm⟩

theorem duplicated_eq_false {m : DiskManifest} :
    duplicated ms m = false ↔ (ms.map (·.checkpoint)).count m.checkpoint ≤ 1 := by
  unfold duplicated
  rw [List.count, List.countP_map, List.countP_eq_length_filter, decide_eq_false_iff_not,
    Nat.not_lt]
  rfl

/-- The check passes exactly on an index without conflict. -/
theorem coherent_iff :
    Coherent ms ↔ ∀ m ∈ ms, rejected ms m = false := by
  unfold rejected
  simp only [Bool.or_eq_false_iff, List.any_eq_false, Bool.not_eq_true, duplicated_eq_false,
    conflicts_eq_false]
  constructor
  · intro h m hm
    exact ⟨List.nodup_iff_count_le_one.mp h.checkpoints _,
      fun c _ => together_iff_filter.mp h.claims c.key⟩
  · intro h
    refine ⟨List.nodup_iff_count_le_one.mpr fun id => ?_, together_iff_filter.mpr fun k => ?_⟩
    · by_cases known : id ∈ ms.map (·.checkpoint)
      · obtain ⟨m, hm, rfl⟩ := List.mem_map.mp known
        exact (h m hm).1
      · rw [List.count_eq_zero_of_not_mem known]
        exact Nat.zero_le 1
    · by_cases claimed : ∃ c ∈ ms.flatMap manifestClaims, c.key = k
      · obtain ⟨c, hc, rfl⟩ := claimed
        obtain ⟨m, hm, hc⟩ := List.mem_flatMap.mp hc
        exact (h m hm).2 c hc
      · have none_ : (ms.flatMap manifestClaims).filter (fun c => c.key = k) = [] :=
          List.filter_eq_nil_iff.mpr fun c hc eq => claimed ⟨c, hc, by simpa using eq⟩
        rw [none_]
        exact List.Pairwise.nil

/-! ## What startup keeps -/

/-- The rows of an index, as far as a conflict concerns them. -/
def rows (entries : List DurableEntry) : List (DiskFileId × DiskManifest) :=
  entries.map fun e => (e.file, e.manifest)

theorem manifestsOf_eq (entries : List DurableEntry) :
    manifestsOf entries = (rows entries).map (·.2) := by simp [manifestsOf, rows]

theorem rows_accepted (entries : List DurableEntry) :
    rows (accepted entries) =
      (rows entries).filter fun r => !rejected ((rows entries).map (·.2)) r.2 := by
  rw [← manifestsOf_eq]
  unfold rows accepted
  rw [List.filter_map]
  rfl

theorem manifestsOf_accepted_sublist (entries : List DurableEntry) :
    (manifestsOf (accepted entries)).Sublist (manifestsOf entries) :=
  List.filter_sublist.map _

variable {ms ns : List DiskManifest}

/-- A smaller index has no conflicts that the larger one has not. -/
theorem rejected_of_sublist (h : ms.Sublist ns) {m : DiskManifest}
    (fine : rejected ns m = false) : rejected ms m = false := by
  unfold rejected at *
  simp only [Bool.or_eq_false_iff, List.any_eq_false, Bool.not_eq_true, duplicated_eq_false,
    conflicts_eq_false] at *
  exact ⟨((h.map _).count_le _).trans fine.1,
    fun c hc => (fine.2 c hc).sublist ((h.flatMap _).filter _)⟩

theorem coherent_accepted (entries : List DurableEntry) :
    Coherent (manifestsOf (accepted entries)) := by
  refine coherent_iff.mpr fun m hm => ?_
  obtain ⟨e, he, rfl⟩ := List.mem_map.mp hm
  have kept := (List.mem_filter.mp he).2
  exact rejected_of_sublist (manifestsOf_accepted_sublist entries) (by simpa using kept)

/-- Whether a manifest is rejected does not depend on the order it is met in. -/
theorem rejected_perm (h : ms.Perm ns) (m : DiskManifest) :
    rejected ms m = rejected ns m := by
  have claims := h.flatMap_right manifestClaims
  rw [Bool.eq_iff_iff, ← not_iff_not, Bool.not_eq_true, Bool.not_eq_true]
  unfold rejected
  simp only [Bool.or_eq_false_iff, List.any_eq_false, Bool.not_eq_true, duplicated_eq_false,
    conflicts_eq_false, (h.map _).count_eq]
  refine and_congr_right fun _ => forall₂_congr fun c _ => ?_
  exact (claims.filter _).pairwise_iff Compatible.symm

/-- A coherent index stays so when entries go. -/
theorem Coherent.sublist (h : Coherent ns) (sub : ms.Sublist ns) :
    Coherent ms :=
  coherent_iff.mpr fun m hm => rejected_of_sublist sub (coherent_iff.mp h m (sub.subset hm))

theorem Coherent.perm (h : Coherent ns) (p : ms.Perm ns) :
    Coherent ms :=
  coherent_iff.mpr fun m hm => (rejected_perm p m).trans (coherent_iff.mp h m (p.subset hm))

end Gufo.Store
