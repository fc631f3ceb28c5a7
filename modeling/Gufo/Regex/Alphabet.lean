import Gufo.Regex.Automaton

/-!
# The alphabet is a partition

The endpoints are sorted, so the stretches between them follow each other. Each
goes into one set of the alphabet. Every set has a character, all of them are
scalar values, and no two sets share one.
-/

namespace Gufo.Regex

/-- The ranges of ICU's sets stay below `0x110000`. -/
def CharSet.Valid (s : CharSet) : Prop := ∀ r ∈ s, r.2 < 0x110000

theorem CharSet.contains_iff {s : CharSet} {cp : Nat} :
    s.contains cp = true ↔ ∃ r ∈ s, r.1 ≤ cp ∧ cp ≤ r.2 := by
  simp [CharSet.contains]

theorem CharSet.containsSome_iff {s : CharSet} (ordered : ∀ r ∈ s, r.1 ≤ r.2) {first last : Nat}
    (le : first ≤ last) (point : last < 2 ^ 31) :
    s.containsSome (asUChar32 first) (asUChar32 last) = true ↔
      ∃ cp, first ≤ cp ∧ cp ≤ last ∧ s.contains cp = true := by
  have low : asUChar32 first = first := if_pos (by omega)
  have high : asUChar32 last = last := if_pos point
  simp only [containsSome, low, high, List.any_eq_true, decide_eq_true_eq, contains_iff]
  constructor
  · rintro ⟨r, mem, left, right⟩
    have := ordered r mem
    exact ⟨max first r.1, by omega, by omega, r, mem, by omega, by omega⟩
  · rintro ⟨cp, above, below, r, mem, left, right⟩
    exact ⟨r, mem, by omega, by omega⟩

/-! ## The stretches between the endpoints -/

/-- One stretch between two endpoints of a list. -/
structure Stretch (l : List Nat) (r : Nat × Nat) : Prop where
  ordered : r.1 ≤ r.2
  between : ∀ e ∈ l, e ≤ r.1 ∨ r.2 < e
  ends : ∃ e ∈ l, r.2 < e
  starts : r.1 ∈ l
  keeps : ¬(0xd800 ≤ r.1 ∧ r.1 ≤ 0xdfff)

theorem mem_intervals {l : List Nat} (sorted : l.Pairwise (· < ·)) {r : Nat × Nat}
    (mem : r ∈ intervals l) : Stretch l r := by
  induction l with
  | nil => simp [intervals] at mem
  | cons first rest ih =>
    cases rest with
    | nil => simp [intervals] at mem
    | cons next rest =>
      have below := (List.pairwise_cons.mp sorted).1
      have tail := (List.pairwise_cons.mp sorted).2
      have later : r ∈ intervals (next :: rest) → Stretch (first :: next :: rest) r := by
        intro inside
        obtain ⟨ordered, between, ⟨e, eMem, past⟩, starts, keeps⟩ := ih tail inside
        refine ⟨ordered, fun d dMem => ?_, ⟨e, List.mem_cons_of_mem _ eMem, past⟩,
          List.mem_cons_of_mem _ starts, keeps⟩
        cases List.mem_cons.mp dMem with
        | inl head =>
          have := below r.1 starts
          omega
        | inr inTail => exact between d inTail
      unfold intervals at mem
      split at mem
      · exact later mem
      · rename_i keeps
        cases List.mem_cons.mp mem with
        | inr inside => exact later inside
        | inl head =>
          subst head
          have step := below next List.mem_cons_self
          refine ⟨by omega, fun d dMem => ?_, ⟨next, by simp, by omega⟩,
            List.mem_cons_self, keeps⟩
          rcases List.mem_cons.mp dMem with rfl | dMem
          · exact .inl (Nat.le_refl _)
          · rcases List.mem_cons.mp dMem with rfl | dMem
            · exact .inr (by omega)
            · have := (List.pairwise_cons.mp tail).1 d dMem
              exact .inr (by omega)

theorem intervals_follow {l : List Nat} (sorted : l.Pairwise (· < ·)) :
    (intervals l).Pairwise fun a b => a.2 < b.1 := by
  induction l with
  | nil => exact List.Pairwise.nil
  | cons first rest ih =>
    cases rest with
    | nil => exact List.Pairwise.nil
    | cons next rest =>
      have below := (List.pairwise_cons.mp sorted).1
      have tail := (List.pairwise_cons.mp sorted).2
      unfold intervals
      split
      · exact ih tail
      · refine List.pairwise_cons.mpr ⟨fun b mem => ?_, ih tail⟩
        have step := below next List.mem_cons_self
        have starts := (mem_intervals tail mem).starts
        rcases List.mem_cons.mp starts with here | inside
        · omega
        · have := (List.pairwise_cons.mp tail).1 b.1 inside; omega

theorem endpoints_sorted (classes : List CharSet) : (endpoints classes).Pairwise (· < ·) := by
  have sorted := List.pairwise_insertionSort (· ≤ ·) ([0, 0xd800, 0xe000, 0x110000] ++
    classes.flatMap fun s : CharSet => s.flatMap fun r : Nat × Nat => [r.1, r.2 + 1])
  have le : (endpoints classes).Pairwise (· ≤ ·) := sorted.sublist (List.dedup_sublist _)
  have ne : (endpoints classes).Pairwise (· ≠ ·) := List.nodup_dedup _
  exact (le.and ne).imp fun h => Nat.lt_of_le_of_ne h.1 h.2

theorem mem_endpoints {classes : List CharSet} {e : Nat} : e ∈ endpoints classes ↔
    e ∈ [0, 0xd800, 0xe000, 0x110000] ∨
      ∃ s ∈ classes, ∃ r ∈ s, e = r.1 ∨ e = r.2 + 1 := by
  simp [endpoints, List.mem_dedup, List.mem_insertionSort, or_assoc]

theorem endpoints_le {classes : List CharSet} (valid : ∀ s ∈ classes, s.Valid)
    (ordered : ∀ s ∈ classes, ∀ r ∈ s, r.1 ≤ r.2) {e : Nat} (mem : e ∈ endpoints classes) :
    e ≤ 0x110000 := by
  rcases mem_endpoints.mp mem with fixed | ⟨s, inClasses, r, inSet, which⟩
  · simp only [List.mem_cons, List.not_mem_nil, or_false] at fixed
    omega
  · have := valid s inClasses r inSet
    have := ordered s inClasses r inSet
    omega

/-! ## The sets -/

theorem addRange_perm (key : List Bool) (range : Nat × Nat) (partitions) :
    ((addRange key range partitions).flatMap Prod.snd).Perm
      (partitions.flatMap Prod.snd ++ [range]) := by
  induction partitions with
  | nil => exact .refl _
  | cons entry rest ih =>
    obtain ⟨k, s⟩ := entry
    unfold addRange
    split
    · simp only [List.flatMap_cons, List.append_assoc]
      exact List.Perm.append_left s List.perm_append_comm
    · simp only [List.flatMap_cons, List.append_assoc]
      exact ih.append_left s

theorem addRange_nonempty {key : List Bool} {range : Nat × Nat} {partitions}
    (h : ∀ entry ∈ partitions, entry.2 ≠ []) : ∀ entry ∈ addRange key range partitions,
      entry.2 ≠ [] := by
  induction partitions with
  | nil => simp [addRange]
  | cons first rest ih =>
    have later := ih fun entry mem => h entry (List.mem_cons_of_mem _ mem)
    unfold addRange
    split
    · intro entry mem
      cases List.mem_cons.mp mem with
      | inl head => rw [head]; simp
      | inr inside => exact h entry (List.mem_cons_of_mem _ inside)
    · intro entry mem
      cases List.mem_cons.mp mem with
      | inl head => exact head ▸ h _ List.mem_cons_self
      | inr inside => exact later entry inside

theorem foldl_addRange (classes : List CharSet) (ranges : CharSet) (partitions)
    (some : ∀ entry ∈ partitions, entry.2 ≠ []) :
    ((ranges.foldl (fun partitions range =>
        addRange (membership classes range.1) range partitions) partitions).flatMap Prod.snd).Perm
      (partitions.flatMap Prod.snd ++ ranges) ∧
    ∀ entry ∈ ranges.foldl (fun partitions range =>
      addRange (membership classes range.1) range partitions) partitions, entry.2 ≠ [] := by
  induction ranges generalizing partitions with
  | nil => exact ⟨by simp, some⟩
  | cons range rest ih =>
    obtain ⟨perm, nonempty⟩ := ih (addRange (membership classes range.1) range partitions)
      (addRange_nonempty some)
    refine ⟨perm.trans ?_, nonempty⟩
    refine ((addRange_perm _ range partitions).append_right rest).trans ?_
    simp

/-- A partition of scalar values into nonempty sets. -/
structure Letters (letters : List CharSet) : Prop where
  ordered : ∀ s ∈ letters, ∀ r ∈ s, r.1 ≤ r.2
  nonempty : ∀ s ∈ letters, s ≠ []
  scalar : ∀ s ∈ letters, ∀ cp, s.contains cp = true → Scalar cp
  disjoint : letters.Pairwise fun s t => ∀ cp, s.contains cp = true → t.contains cp = false

theorem alphabet_letters {classes : List CharSet} (valid : ∀ s ∈ classes, s.Valid)
    (ordered : ∀ s ∈ classes, ∀ r ∈ s, r.1 ≤ r.2) : Letters (alphabet classes) := by
  obtain ⟨perm, nonempty⟩ := foldl_addRange classes (intervals (endpoints classes)) [] (by simp)
  have flat : ((alphabet classes).flatten).Perm (intervals (endpoints classes)) := by
    simpa [alphabet, List.flatMap_def] using perm
  have sorted := endpoints_sorted classes
  have stretch : ∀ s ∈ alphabet classes, ∀ r ∈ s, Stretch (endpoints classes) r :=
    fun s inAlphabet r inSet =>
      mem_intervals sorted (flat.mem_iff.mp (List.mem_flatten_of_mem inAlphabet inSet))
  have apart : ((alphabet classes).flatten).Pairwise fun a b => a.2 < b.1 ∨ b.2 < a.1 :=
    (flat.pairwise_iff fun h => h.symm).mpr ((intervals_follow sorted).imp .inl)
  constructor
  case ordered => exact fun s inAlphabet r inSet => (stretch s inAlphabet r inSet).ordered
  case nonempty =>
    intro s mem
    obtain ⟨entry, inside, rfl⟩ := List.mem_map.mp mem
    exact nonempty entry inside
  case scalar =>
    intro s inAlphabet cp mem
    obtain ⟨r, inSet, low, high⟩ := CharSet.contains_iff.mp mem
    have here := stretch s inAlphabet r inSet
    have surrogates := here.between 0xd800 (mem_endpoints.mpr (.inl (by simp)))
    obtain ⟨e, inEndpoints, past⟩ := here.ends
    have := endpoints_le valid ordered inEndpoints
    have := here.keeps
    unfold Scalar
    omega
  case disjoint =>
    refine (List.pairwise_flatten.mp apart).2.imp fun {s t} h cp inS => ?_
    by_contra inT
    simp only [Bool.not_eq_false] at inT
    obtain ⟨a, aMem, aLow, aHigh⟩ := CharSet.contains_iff.mp inS
    obtain ⟨b, bMem, bLow, bHigh⟩ := CharSet.contains_iff.mp inT
    have := h a aMem b bMem
    omega

end Gufo.Regex
