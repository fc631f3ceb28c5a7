import Gufo.Lib.Radix

/-!
# What is stored at words

A store has a value at some words. `under` puts a store below an edge, `route` puts
stores side by side, and `scan` and `Boundary` say what a prompt finds in a store. Each
is described one symbol of the prompt at a time.
-/

namespace Gufo.Words
open Gufo.Radix (common)

variable {α ρ : Type}

abbrev Store (α ρ : Type) := List α → Option ρ

def empty : Store α ρ := fun _ => none

def after (a : α) (s : Store α ρ) : Store α ρ := fun word => s (a :: word)

/-- A value at the empty word, and a store behind each symbol. -/
def route (entry : Option ρ) (below : α → Store α ρ) : Store α ρ
  | [] => entry
  | a :: word => below a word

/-- The store below an edge. -/
def under [DecidableEq α] : List α → Store α ρ → Store α ρ
  | [], s => s
  | a :: edge, s => route none fun b => if a = b then under edge s else empty

/-- Something is stored. -/
def Holds (s : Store α ρ) : Prop := ∃ word, s word ≠ none

/-- Some stored word extends this one. -/
def Extended (s : Store α ρ) (word : List α) : Prop := ∃ w, s w ≠ none ∧ word <+: w

/-- The prompt's first `k` symbols are shared: stored words extend them, they are not
stored, and the stored words part there or the prompt leaves all of them there. -/
structure Boundary (s : Store α ρ) (prompt : List α) (k : Nat) : Prop where
  inside : k < prompt.length
  extended : Extended s (prompt.take k)
  absent : s (prompt.take k) = none
  parts : (∃ v w, (s v ≠ none ∧ prompt.take k <+: v) ∧ (s w ≠ none ∧ prompt.take k <+: w) ∧
      v[k]? ≠ w[k]?) ∨ ¬Extended s (prompt.take (k + 1))

/-- The value at the longest prefix of the prompt that is stored. -/
def scan : Store α ρ → List α → Option ρ
  | s, [] => s []
  | s, a :: prompt => (scan (after a s) prompt).or (s [])

section store
variable {s : Store α ρ} {prompt : List α} {v : ρ} {a : α} {k : Nat} {edge : List α}

@[simp] theorem after_route (entry : Option ρ) (below : α → Store α ρ) :
    after a (route entry below) = below a := rfl

@[simp] theorem route_nil (entry : Option ρ) (below : α → Store α ρ) :
    route entry below [] = entry := rfl

@[simp] theorem route_cons (entry : Option ρ) (below : α → Store α ρ) (word : List α) :
    route entry below (a :: word) = below a word := rfl

@[simp] theorem scan_nil (s : Store α ρ) : scan s [] = s [] := rfl

theorem scan_cons (s : Store α ρ) (a : α) (prompt : List α) :
    scan s (a :: prompt) = (scan (after a s) prompt).or (s []) := rfl

@[simp] theorem scan_empty (prompt : List α) : scan (empty : Store α ρ) prompt = none := by
  induction prompt with
  | nil => rfl
  | cons a prompt ih => exact (congrArg (Option.or · none) ih).trans rfl

theorem not_holds_empty : ¬Holds (empty : Store α ρ) := fun ⟨_, stored⟩ => stored rfl

/-! ## The longest stored prefix -/

theorem scan_eq_none_iff : scan s prompt = none ↔ ∀ w, w <+: prompt → s w = none := by
  induction prompt generalizing s with
  | nil => simp
  | cons a prompt ih =>
    rw [scan_cons, Option.or_eq_none_iff, ih]
    constructor
    · rintro ⟨below, here⟩ w starts
      cases w with
      | nil => exact here
      | cons b w =>
        obtain ⟨rfl, follows⟩ := List.cons_prefix_cons.mp starts
        exact below w follows
    · intro all
      exact ⟨fun w starts => all _ (List.cons_prefix_cons.mpr ⟨rfl, starts⟩), all [] (by simp)⟩

theorem scan_stored (found : scan s prompt = some v) :
    ∃ w, s w = some v ∧ w <+: prompt ∧
      ∀ w', s w' ≠ none → w' <+: prompt → w'.length ≤ w.length := by
  induction prompt generalizing s with
  | nil => exact ⟨[], found, List.prefix_refl _, fun w' _ starts => by simp_all⟩
  | cons a prompt ih =>
    rw [scan_cons, Option.or_eq_some_iff] at found
    rcases found with below | ⟨none_below, here⟩
    · obtain ⟨w, stored, starts, longest⟩ := ih below
      refine ⟨a :: w, stored, List.cons_prefix_cons.mpr ⟨rfl, starts⟩, fun w' stored' starts' => ?_⟩
      cases w' with
      | nil => simp
      | cons b w' =>
        obtain ⟨rfl, follows⟩ := List.cons_prefix_cons.mp starts'
        simpa using longest w' stored' follows
    · refine ⟨[], here, List.nil_prefix, fun w' stored' starts' => ?_⟩
      cases w' with
      | nil => simp
      | cons b w' =>
        obtain ⟨rfl, follows⟩ := List.cons_prefix_cons.mp starts'
        exact absurd (scan_eq_none_iff.mp none_below w' follows) stored'

theorem scan_eq_some_iff :
    scan s prompt = some v ↔ ∃ w, s w = some v ∧ w <+: prompt ∧
      ∀ w', s w' ≠ none → w' <+: prompt → w'.length ≤ w.length := by
  refine ⟨scan_stored, fun ⟨w, stored, starts, longest⟩ => ?_⟩
  cases found : scan s prompt with
  | none => simp [scan_eq_none_iff.mp found w starts] at stored
  | some v' =>
    obtain ⟨w', stored', starts', longest'⟩ := scan_stored found
    have le := longest w' (by simp [stored']) starts'
    have ge := longest' w (by simp [stored]) starts
    have same : w = w' :=
      (List.prefix_of_prefix_length_le starts starts' ge).eq_of_length (by omega)
    rw [← stored, ← stored', same]

/-! ## Boundaries -/

theorem extended_cons {word : List α} : Extended s (a :: word) ↔ Extended (after a s) word := by
  constructor
  · rintro ⟨w, stored, rest, rfl⟩
    exact ⟨word ++ rest, stored, List.prefix_append _ _⟩
  · rintro ⟨w, stored, starts⟩
    exact ⟨a :: w, stored, List.cons_prefix_cons.mpr ⟨rfl, starts⟩⟩

theorem extended_nil : Extended s [] ↔ Holds s := by simp [Extended, Holds]

theorem not_boundary_nil : ¬Boundary s [] k := fun b => by simpa using b.inside

theorem boundary_zero :
    Boundary s (a :: prompt) 0 ↔ s [] = none ∧ Holds s ∧
      ((∃ v w, s v ≠ none ∧ s w ≠ none ∧ v.head? ≠ w.head?) ∨ ¬Holds (after a s)) := by
  have parts : (∃ v w, (s v ≠ none ∧ [] <+: v) ∧ (s w ≠ none ∧ [] <+: w) ∧ v[0]? ≠ w[0]?) ↔
      ∃ v w, s v ≠ none ∧ s w ≠ none ∧ v.head? ≠ w.head? := by
    simp [List.head?_eq_getElem?]
  constructor
  · intro b
    refine ⟨b.absent, extended_nil.mp b.extended, b.parts.imp parts.mp fun none_below => ?_⟩
    rwa [← extended_nil, ← extended_cons]
  · rintro ⟨absent, holds, or⟩
    refine ⟨by simp, extended_nil.mpr holds, absent, or.imp parts.mpr fun none_below => ?_⟩
    rwa [List.take_succ_cons, List.take_zero, extended_cons, extended_nil]

theorem boundary_succ :
    Boundary s (a :: prompt) (k + 1) ↔ Boundary (after a s) prompt k := by
  constructor
  · rintro ⟨inside, extended, absent, parts⟩
    refine ⟨by simpa using inside, extended_cons.mp extended, absent, ?_⟩
    refine parts.imp ?_ fun none_below => ?_
    · rintro ⟨v, w, ⟨stored, rest, rfl⟩, ⟨stored', rest', rfl⟩, differ⟩
      exact ⟨prompt.take k ++ rest, prompt.take k ++ rest', ⟨stored, List.prefix_append _ _⟩,
        ⟨stored', List.prefix_append _ _⟩, by simpa using differ⟩
    · rwa [List.take_succ_cons, extended_cons] at none_below
  · rintro ⟨inside, extended, absent, parts⟩
    refine ⟨by simpa using inside, extended_cons.mpr extended, absent, ?_⟩
    refine parts.imp ?_ fun none_below => ?_
    · rintro ⟨v, w, ⟨stored, starts⟩, ⟨stored', starts'⟩, differ⟩
      exact ⟨a :: v, a :: w, ⟨stored, List.cons_prefix_cons.mpr ⟨rfl, starts⟩⟩,
        ⟨stored', List.cons_prefix_cons.mpr ⟨rfl, starts'⟩⟩, by simpa using differ⟩
    · rwa [List.take_succ_cons, extended_cons]

theorem not_boundary_empty : ¬Boundary (empty : Store α ρ) prompt k :=
  fun b => b.extended.elim fun _ stored => stored.1 rfl

/-! ## Below an edge -/

section under
variable [DecidableEq α]

@[simp] theorem under_nil (s : Store α ρ) : under [] s = s := rfl

theorem under_cons (a : α) (edge : List α) (s : Store α ρ) :
    under (a :: edge) s = route none fun b => if a = b then under edge s else empty := rfl

theorem after_under_cons (b : α) :
    after b (under (a :: edge) s) = if a = b then under edge s else empty := rfl

theorem under_append (start stop : List α) (s : Store α ρ) :
    under (start ++ stop) s = under start (under stop s) := by
  induction start with
  | nil => rfl
  | cons a start ih => rw [List.cons_append, under_cons, under_cons, ih]

omit [DecidableEq α] in
@[simp] theorem route_empty : route none (fun _ => empty) = (empty : Store α ρ) := by
  funext word
  cases word <;> rfl

@[simp] theorem under_empty (edge : List α) : under edge empty = (empty : Store α ρ) := by
  induction edge with
  | nil => rfl
  | cons a edge ih => simp [under_cons, ih]

theorem Holds.under (holds : Holds s) (edge : List α) : Holds (under edge s) := by
  induction edge with
  | nil => exact holds
  | cons a edge ih =>
    obtain ⟨word, stored⟩ := ih
    exact ⟨a :: word, by simpa [under_cons] using stored⟩

theorem under_of_not_prefix {word : List α} (apart : ¬edge <+: word) :
    Words.under edge s word = none := by
  induction edge generalizing word with
  | nil => exact absurd List.nil_prefix apart
  | cons a edge ih =>
    cases word with
    | nil => rfl
    | cons b word =>
      by_cases same : a = b
      · subst same
        rw [under_cons, route_cons, if_pos rfl]
        exact ih fun starts => apart (List.cons_prefix_cons.mpr ⟨rfl, starts⟩)
      · rw [under_cons, route_cons, if_neg same, empty]

/-- Below an edge all words go the same way. -/
theorem head_of_under {word : List α} (stored : Words.under (a :: edge) s word ≠ none) :
    word.head? = some a := by
  cases word with
  | nil => simp [under_cons] at stored
  | cons b word =>
    by_cases same : a = b
    · simp [same]
    · simp [under_cons, same, empty] at stored

theorem boundary_under_zero (holds : Holds s) {b : α} :
    Boundary (under (a :: edge) s) (b :: prompt) 0 ↔ a ≠ b := by
  rw [boundary_zero, after_under_cons]
  constructor
  · rintro ⟨-, -, ⟨v, w, stored, stored', differ⟩ | none_below⟩ same
    · exact differ ((head_of_under stored).trans (head_of_under stored').symm)
    · rw [if_pos same] at none_below
      exact none_below (holds.under edge)
  · intro differ
    rw [if_neg differ]
    exact ⟨rfl, holds.under (a :: edge), .inr not_holds_empty⟩

/-- A prompt that follows the edge to its end finds what is below. -/
theorem boundary_under_append (holds : Holds s) :
    Boundary (under edge s) (edge ++ prompt) k ↔
      edge.length ≤ k ∧ Boundary s prompt (k - edge.length) := by
  induction edge generalizing k with
  | nil => simp
  | cons a edge ih =>
    cases k with
    | zero => simp [boundary_under_zero holds]
    | succ k => simp [boundary_succ, after_under_cons, ih]

/-- A prompt that leaves the edge, or ends within it, is at a boundary there. -/
theorem boundary_under_short (holds : Holds s) (short : common edge prompt < edge.length) :
    Boundary (under edge s) prompt k ↔ k = common edge prompt ∧ k < prompt.length := by
  induction edge generalizing prompt k with
  | nil => simp at short
  | cons a edge ih =>
    cases prompt with
    | nil => simp [not_boundary_nil]
    | cons b prompt =>
      by_cases same : a = b
      · rw [common, if_pos same] at short ⊢
        cases k with
        | zero => simp [boundary_under_zero holds, same]
        | succ k => simp [boundary_succ, after_under_cons, same, ih (by simpa using short)]
      · rw [common, if_neg same]
        cases k with
        | zero => simp [boundary_under_zero holds, same]
        | succ k => simp [boundary_succ, after_under_cons, same, not_boundary_empty]

theorem scan_under_append : scan (under edge s) (edge ++ prompt) = scan s prompt := by
  induction edge with
  | nil => rfl
  | cons a edge ih => simp [scan_cons, ih, under_cons]

theorem scan_under_short (short : common edge prompt < edge.length) :
    scan (under edge s) prompt = none := by
  induction edge generalizing prompt with
  | nil => simp at short
  | cons a edge ih =>
    cases prompt with
    | nil => rfl
    | cons b prompt =>
      by_cases same : a = b
      · rw [common, if_pos same] at short
        simp [scan_cons, same, under_cons, ih (by simpa using short)]
      · simp [scan_cons, same, under_cons]

/-! ## Updates -/

theorem update_route_nil (entry o : Option ρ) (below : α → Store α ρ) :
    Function.update (route entry below) [] o = route o below := by
  funext word
  cases word <;> simp [Function.update]

theorem update_route_cons (entry o : Option ρ) (below : α → Store α ρ) (a : α) (word : List α) :
    Function.update (route entry below) (a :: word) o =
      route entry (Function.update below a (Function.update (below a) word o)) := by
  funext w
  cases w with
  | nil => simp [Function.update]
  | cons b w =>
    by_cases same : b = a
    · subst same
      simp [Function.update]
    · simp [Function.update, same]

theorem under_update (edge word : List α) (s : Store α ρ) (o : Option ρ) :
    under edge (Function.update s word o) = Function.update (under edge s) (edge ++ word) o := by
  induction edge with
  | nil => rfl
  | cons a edge ih =>
    rw [List.cons_append, under_cons, under_cons, update_route_cons, if_pos rfl, ih]
    congr 1
    funext b
    by_cases same : b = a
    · subst same
      simp
    · simp [Function.update, same, Ne.symm same]

end under
end store

end Gufo.Words
