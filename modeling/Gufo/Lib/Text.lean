import Mathlib.Data.List.DropRight
import Mathlib.Data.List.Infix

/-!
# Searching a text that still grows

First occurrences, trimming, and holding back what may be the start of a delimiter,
each compared between a text and a longer one that begins with it. What is found
whole in the shorter text is found in the longer one at the same place.
-/

namespace Gufo.Text

variable {i : Nat}

section
variable {α : Type}

theorem drop_mono {s t : List α} (h : s <+: t) (n : Nat) : s.drop n <+: t.drop n := by
  obtain ⟨more, rfl⟩ := h
  rw [List.drop_append]
  exact List.prefix_append _ _

theorem take_eq {s t : List α} (h : s <+: t) {n : Nat} (inside : n ≤ s.length) :
    t.take n = s.take n := by
  obtain ⟨more, rfl⟩ := h
  exact List.take_append_of_le_length inside

/-- Two beginnings of one text agree as far as both reach. -/
theorem prefix_of_le {s t u : List α} (hs : s <+: u) (ht : t <+: u) (le : s.length ≤ t.length) :
    s <+: t := List.prefix_of_prefix_length_le hs ht le

theorem getElem?_eq {s t : List α} (h : s <+: t) (inside : i < s.length) :
    t[i]? = s[i]? := by
  obtain ⟨more, rfl⟩ := h
  exact List.getElem?_append_left inside

theorem append_begins {s t u : List α} : s ++ t <+: u ↔ s <+: u ∧ t <+: u.drop s.length := by
  constructor
  · rintro ⟨more, rfl⟩
    refine ⟨⟨t ++ more, by simp⟩, ?_⟩
    rw [List.append_assoc, List.drop_left]
    exact List.prefix_append _ _
  · rintro ⟨⟨more, rfl⟩, ⟨rest, same⟩⟩
    rw [List.drop_left] at same
    exact ⟨rest, by rw [← same, List.append_assoc]⟩

/-- Two texts that begin alike begin one another. -/
theorem not_both {s t u : List α} (apart : ¬s <+: t ∧ ¬t <+: s) (h : s <+: u) : ¬t <+: u := by
  intro k
  cases List.prefix_or_prefix_of_prefix h k with
  | inl first => exact apart.1 first
  | inr second => exact apart.2 second

/-! ## The first place where something holds -/

/-- The first position from which `p` holds of the rest of the text. -/
def firstWhere (p : List α → Bool) : List α → Option Nat
  | [] => if p [] then some 0 else none
  | a :: t => if p (a :: t) then some 0 else (firstWhere p t).map (· + 1)

variable {p : List α → Bool}

theorem firstWhere_some {t : List α} :
    firstWhere p t = some i ↔
      i ≤ t.length ∧ p (t.drop i) = true ∧ ∀ j < i, p (t.drop j) = false := by
  induction t generalizing i with
  | nil =>
    by_cases h : p []
    · simp only [firstWhere, h, if_true, Option.some.injEq]
      constructor
      · rintro rfl
        simp [h]
      · rintro ⟨le, -⟩
        exact (Nat.le_zero.mp le).symm
    · simp [firstWhere, h]
  | cons a t ih =>
    by_cases h : p (a :: t)
    · simp only [firstWhere, h, if_true, Option.some.injEq]
      constructor
      · rintro rfl
        simp [h]
      · rintro ⟨-, -, none⟩
        by_contra ne
        have first := none 0 (by omega)
        simp [h] at first
    · simp only [firstWhere, h, Bool.false_eq_true, if_false, Option.map_eq_some_iff]
      constructor
      · rintro ⟨i, found, rfl⟩
        obtain ⟨le, here, none⟩ := ih.mp found
        refine ⟨by simpa using le, by simpa using here, fun j hj => ?_⟩
        cases j with
        | zero => simpa using h
        | succ j => simpa using none j (by omega)
      · rintro ⟨le, here, none⟩
        cases i with
        | zero => simp [h] at here
        | succ i =>
          exact ⟨i, ih.mpr ⟨by simpa using le, by simpa using here,
            fun j hj => by simpa using none (j + 1) (by omega)⟩, rfl⟩

theorem firstWhere_none {t : List α} :
    firstWhere p t = none ↔ ∀ j ≤ t.length, p (t.drop j) = false := by
  induction t with
  | nil => simp [firstWhere]
  | cons a t ih =>
    by_cases h : p (a :: t)
    · simp only [firstWhere, h, if_true, reduceCtorEq, false_iff, not_forall]
      exact ⟨0, Nat.zero_le _, by simp [h]⟩
    · simp only [firstWhere, h, Bool.false_eq_true, if_false, Option.map_eq_none_iff, ih]
      constructor
      · intro never j hj
        cases j with
        | zero => simpa using h
        | succ j => simpa using never j (by simpa using hj)
      · intro never j hj
        simpa using never (j + 1) (by simpa using hj)

/-- `p` looks at no more than `width` elements, and needs all but the last `slack` of them. -/
structure Window (p : List α → Bool) (width slack : Nat) : Prop where
  grows : ∀ {s t}, s <+: t → p s = true → p t = true
  shrinks : ∀ {s t}, s <+: t → width ≤ s.length → p t = true → p s = true
  needs : ∀ {s}, p s = true → width ≤ s.length + slack

/-- What is found in the shorter text is found there in the longer one. -/
theorem Window.stays {width slack : Nat} (w : Window p width slack)
    (one : slack ≤ 1) {s t : List α} (h : s <+: t) (found : firstWhere p s = some i) :
    firstWhere p t = some i := by
  obtain ⟨le, here, none⟩ := firstWhere_some.mp found
  refine firstWhere_some.mpr ⟨le.trans h.length_le, w.grows (drop_mono h i) here, ?_⟩
  intro j hj
  have reach := w.needs here
  simp only [List.length_drop] at reach
  by_contra early
  have earlier := w.shrinks (drop_mono h j) (by simp only [List.length_drop]; omega)
    (by simpa using early)
  rw [none j hj] at earlier
  cases earlier

end

/-! ## Substrings -/

section
variable {α : Type} [DecidableEq α]

/-- The first occurrence of `pat`. -/
def find (pat : List α) : List α → Option Nat := firstWhere fun t => decide (pat <+: t)

theorem window_begins (pat : List α) : Window (fun t => decide (pat <+: t)) pat.length 0 := by
  constructor
  · intro s t h here
    simp only [decide_eq_true_eq] at here ⊢
    exact here.trans h
  · intro s t h le here
    simp only [decide_eq_true_eq] at here ⊢
    exact prefix_of_le here h le
  · intro s here
    simp only [decide_eq_true_eq] at here
    simpa using here.length_le

theorem find_some {pat t : List α} :
    find pat t = some i ↔ i ≤ t.length ∧ pat <+: t.drop i ∧ ∀ j < i, ¬pat <+: t.drop j := by
  simp [find, firstWhere_some]

theorem find_none {pat t : List α} : find pat t = none ↔ ∀ j ≤ t.length, ¬pat <+: t.drop j := by
  simp [find, firstWhere_none]

variable {pat s t : List α}

theorem find_mono (h : s <+: t) (found : find pat s = some i) :
    find pat t = some i := (window_begins pat).stays (by omega) h found

/-- An occurrence is found there or before. -/
theorem find_le {pat t : List α} {j : Nat} (inside : j ≤ t.length) (here : pat <+: t.drop j) :
    ∃ i ≤ j, find pat t = some i := by
  cases found : find pat t with
  | none => exact absurd here (find_none.mp found j inside)
  | some i =>
    refine ⟨i, ?_, rfl⟩
    by_contra later
    exact (find_some.mp found).2.2 j (by omega) here

theorem find_lt {pat t : List α} (found : find pat t = some i) :
    i + pat.length ≤ t.length := by
  obtain ⟨le, here, -⟩ := find_some.mp found
  have := here.length_le
  simp only [List.length_drop] at this
  omega

/-- The first occurrence from a position on. -/
def findFrom (pat text : List α) (start : Nat) : Option Nat :=
  if start ≤ text.length then (find pat (text.drop start)).map (· + start) else none

variable {start i : Nat}

theorem findFrom_some {pat t : List α} :
    findFrom pat t start = some i ↔ start ≤ i ∧ i ≤ t.length ∧ pat <+: t.drop i ∧
      ∀ j, start ≤ j → j < i → ¬pat <+: t.drop j := by
  unfold findFrom
  split
  · simp only [Option.map_eq_some_iff]
    constructor
    · rintro ⟨k, found, rfl⟩
      obtain ⟨le, here, none⟩ := find_some.mp found
      rw [List.drop_drop, Nat.add_comm] at here
      simp only [List.length_drop] at le
      refine ⟨by omega, by omega, here, fun j low high => ?_⟩
      have not := none (j - start) (by omega)
      rwa [List.drop_drop, Nat.add_sub_cancel' low] at not
    · rintro ⟨low, high, here, none⟩
      refine ⟨i - start, find_some.mpr ⟨?_, ?_, fun j hj => ?_⟩, by omega⟩
      · simp only [List.length_drop]
        omega
      · rwa [List.drop_drop, Nat.add_sub_cancel' low]
      · rw [List.drop_drop]
        exact none (start + j) (by omega) (by omega)
  · simp only [reduceCtorEq, false_iff, not_and]
    omega

theorem findFrom_none {pat t : List α} {start : Nat} :
    findFrom pat t start = none ↔ ∀ i, start ≤ i → i ≤ t.length → ¬pat <+: t.drop i := by
  unfold findFrom
  split
  · rw [Option.map_eq_none_iff, find_none]
    constructor
    · intro none i low high
      have not := none (i - start) (by simp only [List.length_drop]; omega)
      rwa [List.drop_drop, Nat.add_sub_cancel' low] at not
    · intro none j hj
      simp only [List.length_drop] at hj
      rw [List.drop_drop]
      exact none (start + j) (by omega) (by omega)
  · simp only [true_iff]
    omega

/-- An occurrence lies inside the text. -/
theorem findFrom_lt {pat t : List α} (found : findFrom pat t start = some i) :
    i + pat.length ≤ t.length := by
  obtain ⟨-, le, here, -⟩ := findFrom_some.mp found
  have := here.length_le
  simp only [List.length_drop] at this
  omega

theorem findFrom_mono (h : s <+: t)
    (found : findFrom pat s start = some i) : findFrom pat t start = some i := by
  have reach := findFrom_lt found
  obtain ⟨low, le, here, none⟩ := findFrom_some.mp found
  refine findFrom_some.mpr ⟨low, le.trans h.length_le, here.trans (drop_mono h i), ?_⟩
  intro j lowJ highJ early
  exact none j lowJ highJ
    (prefix_of_le early (drop_mono h j) (by simp only [List.length_drop]; omega))

/-- What the longer text has first, and the shorter one has not, ends beyond it. -/
theorem findFrom_beyond (h : s <+: t)
    (none : findFrom pat s start = none) (found : findFrom pat t start = some i) :
    s.length < i + pat.length := by
  obtain ⟨low, -, here, -⟩ := findFrom_some.mp found
  by_contra inside
  have whole := prefix_of_le here (drop_mono h i) (by simp only [List.length_drop]; omega)
  exact findFrom_none.mp none i low (by omega) whole

/-- `text[start, stop)`. -/
def slice (text : List α) (start stop : Nat) : List α := (text.drop start).take (stop - start)

omit [DecidableEq α] in
theorem slice_eq {s t : List α} (h : s <+: t) {start stop : Nat} (inside : stop ≤ s.length) :
    slice t start stop = slice s start stop := by
  unfold slice
  exact take_eq (drop_mono h start) (by simp only [List.length_drop]; omega)

omit [DecidableEq α] in
theorem slice_middle (a b c : List α) : slice (a ++ b ++ c) a.length (a.length + b.length) = b := by
  unfold slice
  rw [List.append_assoc, List.drop_left, Nat.add_sub_cancel_left, List.take_left]

omit [DecidableEq α] in
theorem slice_append (a b : List α) (start stop : Nat) :
    slice (a ++ b) start stop =
      slice a start stop ++ slice b (start - a.length) (stop - a.length) := by
  unfold slice
  rw [List.drop_append, List.take_append, List.length_drop]
  congr 2
  omega

omit [DecidableEq α] in
theorem slice_left {a : List α} {start : Nat} (inside : start ≤ a.length) (b : List α) :
    slice (a ++ b) start a.length = a.drop start := by
  unfold slice
  rw [List.drop_append_of_le_length inside, ← List.length_drop, List.take_left]

/-! ## The earliest of several -/

section
variable {τ : Type} (position : τ → Option Nat)

/-- The candidate at the lowest position, the first among equals. -/
def earliest : List τ → Option (Nat × τ)
  | [] => none
  | x :: rest =>
    match position x, earliest rest with
    | none, best => best
    | some i, none => some (i, x)
    | some i, some (j, y) => if j < i then some (j, y) else some (i, x)

variable {position}

theorem earliest_none {l : List τ} :
    earliest position l = none ↔ ∀ x ∈ l, position x = none := by
  induction l with
  | nil => simp [earliest]
  | cons x l ih =>
    unfold earliest
    cases here : position x with
    | none => simp [ih, here]
    | some i =>
      cases rest : earliest position l with
      | none => simp [here]
      | some best =>
        simp only [List.mem_cons, forall_eq_or_imp, here, reduceCtorEq, false_and, iff_false]
        split <;> simp

theorem earliest_some {l : List τ} {x : τ} (found : earliest position l = some (i, x)) :
    x ∈ l ∧ position x = some i ∧ ∀ y ∈ l, ∀ j, position y = some j → i ≤ j := by
  induction l generalizing i x with
  | nil => cases found
  | cons z l ih =>
    unfold earliest at found
    cases here : position z with
    | none =>
      rw [here] at found
      obtain ⟨mem, at_x, least⟩ := ih found
      refine ⟨List.mem_cons_of_mem z mem, at_x, fun y hy j at_y => ?_⟩
      cases List.mem_cons.mp hy with
      | inl eq => rw [eq, here] at at_y; cases at_y
      | inr hy => exact least y hy j at_y
    | some k =>
      rw [here] at found
      cases rest : earliest position l with
      | none =>
        rw [rest] at found
        obtain ⟨rfl, rfl⟩ := Prod.mk.inj (Option.some.inj found)
        refine ⟨List.mem_cons_self, here, fun y hy j at_y => ?_⟩
        cases List.mem_cons.mp hy with
        | inl eq => rw [eq, here] at at_y; exact (Option.some.inj at_y).le
        | inr hy => rw [earliest_none.mp rest y hy] at at_y; cases at_y
      | some best =>
        rw [rest] at found
        obtain ⟨mem, at_w, least⟩ := ih rest
        simp only at found
        split at found
        · obtain ⟨rfl, rfl⟩ := Prod.mk.inj (Option.some.inj found)
          refine ⟨List.mem_cons_of_mem z mem, at_w, fun y hy j' at_y => ?_⟩
          cases List.mem_cons.mp hy with
          | inl eq => rw [eq, here] at at_y; have := Option.some.inj at_y; omega
          | inr hy => exact least y hy j' at_y
        · obtain ⟨rfl, rfl⟩ := Prod.mk.inj (Option.some.inj found)
          refine ⟨List.mem_cons_self, here, fun y hy j' at_y => ?_⟩
          cases List.mem_cons.mp hy with
          | inl eq => rw [eq, here] at at_y; exact (Option.some.inj at_y).le
          | inr hy => have := least y hy j' at_y; omega

/-- Candidates that turn up only later in the text do not change the earliest one. -/
theorem earliest_mono {later : τ → Option Nat} {l : List τ} {x : τ}
    (found : earliest position l = some (i, x))
    (stays : ∀ y ∈ l, ∀ j, position y = some j → later y = some j)
    (beyond : ∀ y ∈ l, ∀ j, position y = none → later y = some j → i < j) :
    earliest later l = some (i, x) := by
  induction l generalizing i x with
  | nil => cases found
  | cons z l ih =>
    have staysL : ∀ y ∈ l, ∀ j, position y = some j → later y = some j :=
      fun y hy => stays y (List.mem_cons_of_mem z hy)
    have whole := found
    unfold earliest at found ⊢
    cases here : position z with
    | none =>
      rw [here] at found
      have tail := ih found staysL fun y hy => beyond y (List.mem_cons_of_mem z hy)
      rw [tail]
      cases there : later z with
      | none => rfl
      | some k =>
        have := beyond z List.mem_cons_self k here there
        simp only
        rw [if_pos this]
    | some k =>
      rw [stays z List.mem_cons_self k here]
      rw [here] at found
      cases rest : earliest position l with
      | none =>
        rw [rest] at found
        obtain ⟨rfl, rfl⟩ := Prod.mk.inj (Option.some.inj found)
        cases restLater : earliest later l with
        | none => rfl
        | some best =>
          obtain ⟨j, w⟩ := best
          obtain ⟨mem, at_w, -⟩ := earliest_some restLater
          have := beyond w (List.mem_cons_of_mem z mem) j (earliest_none.mp rest w mem) at_w
          simp only
          rw [if_neg (by omega)]
      | some best =>
        rw [rest] at found
        simp only at found
        split at found
        · rename_i lower
          obtain ⟨rfl, rfl⟩ := Prod.mk.inj (Option.some.inj found)
          rw [ih rest staysL fun y hy => beyond y (List.mem_cons_of_mem z hy)]
          simp only
          rw [if_pos lower]
        · obtain ⟨rfl, rfl⟩ := Prod.mk.inj (Option.some.inj found)
          obtain ⟨-, -, least⟩ := earliest_some whole
          cases restLater : earliest later l with
          | none => rfl
          | some best =>
            obtain ⟨j', w'⟩ := best
            obtain ⟨mem, at_w, -⟩ := earliest_some restLater
            have bound : k ≤ j' := by
              cases before : position w' with
              | none =>
                exact (beyond w' (List.mem_cons_of_mem z mem) j' before at_w).le
              | some j'' =>
                have same := staysL w' mem j'' before
                rw [at_w] at same
                obtain rfl := Option.some.inj same
                exact least w' (List.mem_cons_of_mem z mem) j' before
            simp only
            rw [if_neg (by omega)]

end

/-! ## Holding back the start of a delimiter -/

/-- Drops the longest end of at most `size` elements that `delimiter` starts with. -/
def holdFrom (delimiter value : List α) : Nat → List α
  | 0 => value
  | size + 1 =>
    if value.drop (value.length - (size + 1)) <+: delimiter then
      value.take (value.length - (size + 1))
    else holdFrom delimiter value size

def holdBack (value delimiter : List α) : List α :=
  holdFrom delimiter value (min value.length delimiter.length)

theorem holdFrom_cut (delimiter value : List α) (size : Nat) (le : size ≤ value.length) :
    ∃ cut ≤ value.length, holdFrom delimiter value size = value.take cut ∧
      value.drop cut <+: delimiter ∧
      ∀ c, value.length - size ≤ c → c < cut → ¬value.drop c <+: delimiter := by
  induction size with
  | zero =>
    refine ⟨value.length, le_refl _, by simp [holdFrom], by simp, fun c low high => ?_⟩
    omega
  | succ size ih =>
    unfold holdFrom
    split
    · rename_i here
      exact ⟨value.length - (size + 1), by omega, rfl, here, fun c low high => by omega⟩
    · rename_i none
      obtain ⟨cut, inside, same, held, first⟩ := ih (by omega)
      refine ⟨cut, inside, same, held, fun c low high => ?_⟩
      by_cases last : c = value.length - (size + 1)
      · rw [last]
        exact none
      · exact first c (by omega) high

/-- The cut is the first one that leaves a start of the delimiter behind it. -/
theorem holdBack_cut (value delimiter : List α) :
    ∃ cut ≤ value.length, holdBack value delimiter = value.take cut ∧
      value.drop cut <+: delimiter ∧ ∀ c < cut, ¬value.drop c <+: delimiter := by
  obtain ⟨cut, inside, same, held, first⟩ :=
    holdFrom_cut delimiter value (min value.length delimiter.length) (by omega)
  refine ⟨cut, inside, same, held, fun c high here => ?_⟩
  have reach := here.length_le
  simp only [List.length_drop] at reach
  exact first c (by omega) high here

theorem holdBack_begins (value delimiter : List α) : holdBack value delimiter <+: value := by
  obtain ⟨cut, -, same, -⟩ := holdBack_cut value delimiter
  rw [same]
  exact List.take_prefix cut value

theorem holdBack_le {value delimiter : List α} {c : Nat} (held : value.drop c <+: delimiter) :
    (holdBack value delimiter).length ≤ c := by
  obtain ⟨cut, -, same, -, first⟩ := holdBack_cut value delimiter
  rw [same]
  have le : cut ≤ c := by
    by_contra later
    exact first c (by omega) held
  simp only [List.length_take]
  omega

/-- A longer value gives out at least as much. -/
theorem holdBack_mono {s t : List α} (h : s <+: t) (delimiter : List α) :
    holdBack s delimiter <+: holdBack t delimiter := by
  obtain ⟨cut, inside, same, held, -⟩ := holdBack_cut t delimiter
  have le : (holdBack s delimiter).length ≤ cut := holdBack_le ((drop_mono h cut).trans held)
  rw [same]
  refine prefix_of_le ((holdBack_begins s delimiter).trans h) (List.take_prefix cut t) ?_
  simp only [List.length_take]
  omega

end

/-! ## Trimming -/

section
variable {α : Type} (space : α → Bool)

def trimEnd (t : List α) : List α := t.rdropWhile space
def trim (t : List α) : List α := trimEnd space (t.dropWhile space)

variable {space}

theorem dropWhile_mono {s t : List α} (h : s <+: t) : s.dropWhile space <+: t.dropWhile space := by
  obtain ⟨more, rfl⟩ := h
  rw [List.dropWhile_append]
  split
  · rename_i empty
    rw [List.isEmpty_iff.mp empty]
    exact List.nil_prefix
  · exact List.prefix_append _ _

theorem trimEnd_mono {s t : List α} (h : s <+: t) : trimEnd space s <+: trimEnd space t := by
  obtain ⟨more, rfl⟩ := h
  unfold trimEnd List.rdropWhile
  rw [List.reverse_append, List.dropWhile_append]
  split
  · exact List.prefix_rfl
  · rw [List.reverse_append, List.reverse_reverse]
    exact (List.rdropWhile_prefix space s).trans (List.prefix_append _ _)

theorem trim_mono {s t : List α} (h : s <+: t) : trim space s <+: trim space t :=
  trimEnd_mono (dropWhile_mono h)

theorem trim_begins (t : List α) : trim space t <+: t.dropWhile space :=
  List.rdropWhile_prefix space _

theorem takeWhile_mono {s t : List α} (h : s <+: t) (solid : s.dropWhile space ≠ []) :
    t.takeWhile space = s.takeWhile space := by
  obtain ⟨more, rfl⟩ := h
  rw [List.takeWhile_append, if_neg]
  intro all
  apply solid
  have split := List.takeWhile_append_dropWhile (p := space) (l := s)
  have length := congrArg List.length split
  rw [List.length_append, all] at length
  exact List.eq_nil_of_length_eq_zero (by omega)

theorem dropWhile_eq_drop (t : List α) :
    t.dropWhile space = t.drop (t.takeWhile space).length := by
  conv => rhs; rhs; rw [← List.takeWhile_append_dropWhile (p := space) (l := t)]
  exact (List.drop_left).symm

theorem dropWhile_trim (t : List α) : (trim space t).dropWhile space = trim space t := by
  rw [List.dropWhile_eq_self_iff]
  intro nonempty
  have ne := List.ne_nil_of_length_pos nonempty
  have head := List.head_dropWhile_not space ((trim_begins t).ne_nil ne)
  rw [List.getElem_zero, (trim_begins t).head ne, head]
  exact Bool.false_ne_true

theorem takeWhile_trim (t : List α) : (trim space t).takeWhile space = [] := by
  have split := List.takeWhile_append_dropWhile (p := space) (l := trim space t)
  rw [dropWhile_trim] at split
  exact List.append_left_eq_self.mp split

theorem trim_trim (t : List α) : trim space (trim space t) = trim space t := by
  unfold trim
  rw [show (trimEnd space (t.dropWhile space)).dropWhile space = trimEnd space (t.dropWhile space)
    from dropWhile_trim t]
  exact List.rdropWhile_idempotent space _

/-- A beginning that does not end in space survives the trim of the end. -/
theorem prefix_trimEnd {s t : List α} (h : s <+: t)
    (solid : ∀ last ∈ s.getLast?, space last = false) :
    s <+: trimEnd space t := by
  have kept : trimEnd space s = s := by
    unfold trimEnd
    rw [List.rdropWhile_eq_self_iff]
    intro ne
    have := solid (s.getLast ne) (List.getLast?_eq_some_getLast ne)
    simp [this]
  exact kept ▸ trimEnd_mono h

/-- A solid beginning of the trimmed text is one of the text behind its leading space. -/
theorem prefix_trim {pat t : List α} (solid : ∀ last ∈ pat.getLast?, space last = false) :
    pat <+: trim space t ↔ pat <+: t.drop (t.takeWhile space).length := by
  rw [← dropWhile_eq_drop]
  exact ⟨fun h => h.trans (trim_begins t), fun h => prefix_trimEnd h solid⟩

end

end Gufo.Text
