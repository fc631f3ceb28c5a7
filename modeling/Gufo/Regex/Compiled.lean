import Gufo.Regex.Alphabet
import Mathlib.Data.List.ReduceOption

/-!
# What `Compile` returns

The exploration numbers its states without gaps, so every transition leads to a
state that is there in the end. The backwards search then gives each state the
length of its shortest accepting continuation, and a state without one is cut off.
-/

namespace Gufo.Regex
open Gufo.Distance

/-- The rows of an automaton: as many transitions as letters, all of them to rows. -/
structure Rows (letters : List CharSet) (rows : List Row) : Prop where
  width : ∀ row ∈ rows, row.2.length = letters.length
  inside : ∀ row ∈ rows, ∀ v, some v ∈ row.2 → v < rows.length
  few : rows.length ≤ kMaxStates

section
variable {E : Type} [DecidableEq E] {x : Expressions E}

theorem intern_ok {letters : Nat} {key : Key E} {depth : Nat} {t t' : Table E} {i : Nat}
    (h : intern letters key depth t = .ok (i, t')) (few : t.length ≤ kMaxStates) :
    i < t'.length ∧ t.length ≤ t'.length ∧ t'.length ≤ kMaxStates := by
  unfold intern at h
  split at h
  · rename_i found
    cases h
    exact ⟨(List.findIdx?_eq_some_iff_findIdx_eq.mp found).1, Nat.le_refl _, few⟩
  · split at h
    · cases h
    · rename_i room
      cases h
      simp only [not_or, Nat.not_lt] at room
      simpa using room.1

theorem transitions_ok {letters : Nat} {key : Key E} {depth : Nat} {rest : List CharSet}
    {t t' : Table E} {row : List (Option Nat)}
    (h : transitions x letters key depth rest t = .ok (row, t')) (few : t.length ≤ kMaxStates) :
    row.length = rest.length ∧ t.length ≤ t'.length ∧ t'.length ≤ kMaxStates ∧
      ∀ v, some v ∈ row → v < t'.length := by
  induction rest generalizing t row with
  | nil =>
    cases h
    exact ⟨rfl, Nat.le_refl _, few, by simp⟩
  | cons chars rest ih =>
    unfold transitions at h
    split at h
    · cases h
    split at h
    · split at h
      · cases h
      rename_i row' t'' step
      cases h
      obtain ⟨width, grows, few', inside⟩ := ih step few
      exact ⟨by simp [width], grows, few', by simpa using inside⟩
    · split at h
      · cases h
      rename_i next t₁ interned
      split at h
      · cases h
      rename_i row' t₂ step
      cases h
      obtain ⟨here, grows, few₁⟩ := intern_ok interned few
      obtain ⟨width, more, few₂, inside⟩ := ih step few₁
      refine ⟨by simp [width], grows.trans more, few₂, fun v mem => ?_⟩
      cases List.mem_cons.mp mem with
      | inl head => exact Option.some.inj head ▸ Nat.lt_of_lt_of_le here more
      | inr later => exact inside v later

theorem explore_ok {letters : List CharSet} {maximum fuel : Nat} {t : Table E}
    {rows result : List Row}
    (h : explore x letters maximum fuel t rows = .ok result) (few : t.length ≤ kMaxStates)
    (turns : fuel + rows.length = kMaxStates) (worked : rows.length ≤ t.length)
    (width : ∀ row ∈ rows, row.2.length = letters.length)
    (inside : ∀ row ∈ rows, ∀ v, some v ∈ row.2 → v < t.length) : Rows letters result := by
  induction fuel generalizing t rows with
  | zero =>
    cases h
    have all : t.length = result.length := by omega
    exact ⟨width, all ▸ inside, by omega⟩
  | succ fuel ih =>
    unfold explore at h
    split at h
    · rename_i many
      cases h
      have all : t.length = result.length := by
        have := List.getElem?_eq_none_iff.mp many
        omega
      exact ⟨width, all ▸ inside, by omega⟩
    · rename_i key depth here
      have more : rows.length < t.length := (List.getElem?_eq_some_iff.mp here).1
      split at h
      · refine ih h few (by simp; omega) (by simp; omega) ?_ ?_
        · intro row mem
          cases List.mem_append.mp mem with
          | inl old => exact width row old
          | inr new => rw [List.mem_singleton.mp new]; simp
        · intro row mem v edge
          cases List.mem_append.mp mem with
          | inl old => exact inside row old v edge
          | inr new => rw [List.mem_singleton.mp new] at edge; simp at edge
      · split at h
        · cases h
        rename_i next t' step
        obtain ⟨width', grows, few', inside'⟩ := transitions_ok step few
        refine ih h few' (by simp; omega) (by simp; omega) ?_ ?_
        · intro row mem
          cases List.mem_append.mp mem with
          | inl old => exact width row old
          | inr new => rw [List.mem_singleton.mp new]; exact width'
        · intro row mem v edge
          cases List.mem_append.mp mem with
          | inl old => exact Nat.lt_of_lt_of_le (inside row old v edge) grows
          | inr new => rw [List.mem_singleton.mp new] at edge; exact inside' v edge

end

/-! ## Edges and distances -/

variable {letters : List CharSet} {rows : List Row}

/-- A transition of the automaton, before any is dropped. -/
def Edge (rows : List Row) (v w : Nat) : Prop := ∃ row, rows[v]? = some row ∧ some w ∈ row.2

theorem mem_successors {row : Row} {w : Nat} : w ∈ successors row ↔ some w ∈ row.2 := by
  simp [successors, List.mem_dedup, List.mem_insertionSort, List.reduceOption_mem_iff]

theorem mem_successorsAt {v w : Nat} : w ∈ successorsAt rows v ↔ Edge rows v w := by
  unfold successorsAt Edge
  cases rows[v]? with
  | none => simp
  | some row => simp [mem_successors]

theorem edge_iff (v w : Nat) : Edge rows v w ↔ v ∈ predecessors rows w := by
  simp only [predecessors, List.mem_filter, List.mem_range, decide_eq_true_eq, mem_successorsAt]
  refine ⟨fun edge => ⟨?_, edge⟩, fun h => h.2⟩
  obtain ⟨row, found, _⟩ := edge
  exact (List.getElem?_eq_some_iff.mp found).1

theorem acceptingAt_lt {v : Nat} (h : acceptingAt rows v = true) : v < rows.length := by
  unfold acceptingAt at h
  cases found : rows[v]? with
  | none => simp [found] at h
  | some row => exact (List.getElem?_eq_some_iff.mp found).1

theorem gaps_start (l : List Nat) (p : Nat → Bool) :
    (l.filter p).length + gaps l (fun v => if p v = true then some 0 else none) = l.length := by
  induction l with
  | nil => rfl
  | cons v l ih =>
    cases h : p v with
    | true => simp [gaps, h] at ih ⊢; omega
    | false => simp [gaps, h] at ih ⊢; omega

theorem distances_searching :
    Searching (Edge rows) (fun v => acceptingAt rows v = true) [] (distances rows) := by
  have inside : ∀ v, ∀ p ∈ predecessors rows v, p ∈ List.range rows.length :=
    fun v p mem => (List.mem_filter.mp mem).1
  refine search_searching edge_iff inside (searching_start fun v => ?_) ?_
  · simp only [List.mem_filter, List.mem_range]
    exact ⟨fun h => h.2, fun h => ⟨acceptingAt_lt h, h⟩⟩
  · rw [gaps_start, List.length_range]

/-- `n` transitions lead from a state to an accepting one. -/
abbrev Accepts (rows : List Row) : Nat → Nat → Prop :=
  Walk (Edge rows) fun v => acceptingAt rows v = true

theorem accepts_of_distance {v d : Nat} (h : distances rows v = some d) : Accepts rows d v :=
  distances_searching.walks v d h

theorem distance_of_accepts {n v : Nat} (h : Accepts rows n v) :
    ∃ d, distances rows v = some d ∧ d ≤ n :=
  distances_searching.shortest h

theorem accepts_lt {n v : Nat} (h : Accepts rows n v) : v < rows.length := by
  cases h with
  | here accepting => exact acceptingAt_lt accepting
  | there edge _ =>
    obtain ⟨row, found, _⟩ := edge
    exact (List.getElem?_eq_some_iff.mp found).1

/-! ## The states of the finished automaton -/

theorem finish_state {v : Nat} : (finish letters rows).states[v]? = (rows[v]?).map fun row =>
    { accepting := row.1, next := row.2.map (prune (distances rows))
      successors := successors row, distance := distances rows v } := by
  simp [finish, List.getElem?_mapIdx]

@[simp] theorem finish_length : (finish letters rows).states.length = rows.length := by
  simp [finish]

theorem distanceAt_finish {v : Nat} (h : v < rows.length) :
    (finish letters rows).distanceAt v = distances rows v := by
  simp [Impl.distanceAt, finish_state, List.getElem?_eq_getElem h]

theorem accepting_finish {v : Nat} :
    (finish letters rows).Accepting (some v) = acceptingAt rows v := by
  simp only [Impl.Accepting, Option.any_some, finish_state, Option.map_map, acceptingAt]
  rfl

theorem successors_finish {v w : Nat} :
    w ∈ ((finish letters rows).states[v]?.map State.successors).getD [] ↔ Edge rows v w := by
  rw [finish_state, Option.map_map, ← mem_successorsAt]
  rfl

theorem prune_eq_some {distance : Nat → Option Nat} {next : Option Nat} {v : Nat} :
    prune distance next = some v ↔ next = some v ∧ distance v ≠ none := by
  cases next with
  | none => simp [prune]
  | some w =>
    by_cases cut : distance w = none
    · simp only [prune, Option.bind_some, cut, if_true, Option.some.injEq]
      refine ⟨nofun, ?_⟩
      rintro ⟨rfl, live⟩
      exact absurd cut live
    · simp only [prune, Option.bind_some, cut, if_false, Option.some.injEq]
      refine ⟨?_, fun h => h.1⟩
      rintro rfl
      exact ⟨rfl, cut⟩

/-! ## Advance -/

/-- Of two lists of one length, a pair holds what stands at one place. -/
theorem mem_zip_iff {α β : Type} {l : List α} {m : List β} {a : α} {b : β} :
    (a, b) ∈ l.zip m ↔ ∃ i : Nat, l[i]? = some a ∧ m[i]? = some b := by
  simp [List.mem_iff_getElem?, List.getElem?_zip_eq_some]

theorem zip_find {next : List (Option Nat)} {cp : Nat} (part : Letters letters)
    {s : CharSet} {t : Option Nat} (mem : (s, t) ∈ letters.zip next) (inS : s.contains cp = true) :
    ((letters.zip next).find? fun letter => letter.1.contains cp) = some (s, t) := by
  have disjoint := part.disjoint
  clear part
  induction letters generalizing next with
  | nil => simp at mem
  | cons s' letters ih =>
    cases next with
    | nil => simp at mem
    | cons t' next =>
      simp only [List.zip_cons_cons, List.mem_cons] at mem
      rw [List.zip_cons_cons, List.find?_cons]
      rcases mem with head | later
      · cases head
        simp [inS]
      · have outside : s'.contains cp = false := by
          cases h : s'.contains cp with
          | false => rfl
          | true =>
            have := (List.pairwise_cons.mp disjoint).1 s (List.of_mem_zip later).1 cp h
            rw [inS] at this
            cases this
        simp only [outside]
        exact ih later (List.pairwise_cons.mp disjoint).2

theorem advance_finish (part : Letters letters) {v w cp : Nat} :
    (finish letters rows).Advance (some v) cp = some w ↔
      ∃ row, rows[v]? = some row ∧ distances rows w ≠ none ∧
        ∃ s, (s, some w) ∈ letters.zip row.2 ∧ s.contains cp = true := by
  simp only [Impl.Advance, Option.bind_some, finish_state]
  cases rows[v]? with
  | none => simp
  | some row =>
    simp only [Option.map_some, Option.bind_some, Option.some.injEq, exists_eq_left', finish]
    constructor
    · intro h
      obtain ⟨⟨s, t⟩, found, eq⟩ := Option.bind_eq_some_iff.mp h
      have inS : s.contains cp = true := by simpa using List.find?_some found
      obtain ⟨i, atLetter, atNext⟩ := mem_zip_iff.mp (List.mem_of_find?_eq_some found)
      obtain ⟨t', atRow, pruned⟩ := List.getElem?_map ▸ atNext |> Option.map_eq_some_iff.mp
      subst eq
      obtain ⟨rfl, live⟩ := prune_eq_some.mp pruned
      exact ⟨live, s, mem_zip_iff.mpr ⟨i, atLetter, atRow⟩, inS⟩
    · rintro ⟨live, s, mem, inS⟩
      obtain ⟨i, atLetter, atRow⟩ := mem_zip_iff.mp mem
      have mem' : (s, some w) ∈ letters.zip (row.2.map (prune (distances rows))) := by
        refine mem_zip_iff.mpr ⟨i, atLetter, ?_⟩
        rw [List.getElem?_map, atRow, Option.map_some, prune_eq_some.mpr ⟨rfl, live⟩]
      rw [zip_find part mem' inS]
      rfl

/-- Every transition is taken by some character of its letter. -/
theorem edge_letter (part : Letters letters) (wf : Rows letters rows) {v w : Nat} {row : Row}
    (found : rows[v]? = some row) (mem : some w ∈ row.2) :
    ∃ cp s, Scalar cp ∧ (s, some w) ∈ letters.zip row.2 ∧ s.contains cp = true := by
  obtain ⟨i, atRow⟩ := List.mem_iff_getElem?.mp mem
  have short : i < letters.length := by
    rw [← wf.width row (List.mem_of_getElem? found)]
    exact (List.getElem?_eq_some_iff.mp atRow).1
  have inLetters : letters[i] ∈ letters := List.getElem_mem short
  obtain ⟨r, rest, eq⟩ := List.exists_cons_of_ne_nil (part.nonempty _ inLetters)
  have inSet : letters[i].contains r.1 = true :=
    CharSet.contains_iff.mpr ⟨r, by rw [eq]; exact List.mem_cons_self, Nat.le_refl _,
      part.ordered _ inLetters r (by rw [eq]; exact List.mem_cons_self)⟩
  exact ⟨r.1, letters[i], part.scalar _ inLetters _ inSet,
    mem_zip_iff.mpr ⟨i, List.getElem?_eq_getElem short, atRow⟩, inSet⟩

/-! ## Words -/

/-- A word of scalar values that leads from a state to an accepting one. -/
structure Spells (r : Impl) (state : Option Nat) (word : List Nat) : Prop where
  scalars : ∀ cp ∈ word, Scalar cp
  accepted : r.Accepting (word.foldl r.Advance state) = true

theorem foldl_none (r : Impl) (word : List Nat) : word.foldl r.Advance none = none := by
  induction word with
  | nil => rfl
  | cons cp word ih => exact ih

theorem spells_none {r : Impl} {word : List Nat} : ¬Spells r none word := by
  intro h
  have := h.accepted
  rw [foldl_none] at this
  cases this

theorem accepts_iff (part : Letters letters) (wf : Rows letters rows) {n v : Nat} :
    Accepts rows n v ↔ ∃ word, word.length = n ∧ Spells (finish letters rows) (some v) word := by
  constructor
  · intro h
    induction h with
    | here accepting =>
      exact ⟨[], rfl, by simp, by rw [List.foldl_nil, accepting_finish]; exact accepting⟩
    | @there v w n edge walk ih =>
      obtain ⟨word, len, scalars, accepted⟩ := ih
      obtain ⟨row, found, mem⟩ := edge
      obtain ⟨cp, s, scalar, atLetter, inS⟩ := edge_letter part wf found mem
      obtain ⟨d, live, _⟩ := distance_of_accepts walk
      have step : (finish letters rows).Advance (some v) cp = some w :=
        (advance_finish part).mpr ⟨row, found, by rw [live]; simp, s, atLetter, inS⟩
      refine ⟨cp :: word, by simp [len], ?_, ?_⟩
      · intro c inWord
        cases List.mem_cons.mp inWord with
        | inl head => exact head ▸ scalar
        | inr later => exact scalars c later
      · rw [List.foldl_cons, step]
        exact accepted
  · rintro ⟨word, len, h⟩
    induction word generalizing v n with
    | nil =>
      subst len
      exact .here (by rw [← @accepting_finish letters]; exact h.accepted)
    | cons cp word ih =>
      subst len
      have accepted := h.accepted
      rw [List.foldl_cons] at accepted
      cases step : (finish letters rows).Advance (some v) cp with
      | none =>
        rw [step, foldl_none] at accepted
        cases accepted
      | some w =>
        rw [step] at accepted
        obtain ⟨row, found, _, s, mem, _⟩ := (advance_finish part).mp step
        exact .there ⟨row, found, (List.of_mem_zip mem).2⟩
          (ih rfl ⟨fun c inWord => h.scalars c (List.mem_cons_of_mem _ inWord), accepted⟩)

end Gufo.Regex
