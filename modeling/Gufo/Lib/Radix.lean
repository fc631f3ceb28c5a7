import Mathlib.Algebra.Order.Ring.Int
import Mathlib.Data.List.Basic
import Mathlib.Tactic.Tauto

/-!
# Compressed trees of words

A node has a word on the edge above it, values, and children whose edges begin with
different symbols. A tree is kept as the ordered list of its top nodes. A value lies at
the word that the edges down to it spell.

What is stored is said by `all`, the values with their words; the operations are
described by what they do to it, and the search by what it finds in it.
-/

namespace Gufo.Radix

variable {α ρ : Type}

/-- The nodes below one node: the first with its edge, values and children, then the rest. -/
inductive Forest (α ρ : Type) where
  | nil
  | cons (edge : List α) (values : List ρ) (children rest : Forest α ρ)
  deriving DecidableEq

namespace Forest

/-- Every value with its word. -/
def all : Forest α ρ → List (List α × ρ)
  | nil => []
  | cons edge values children rest =>
    values.map (edge, ·) ++ children.all.map (fun p => (edge ++ p.1, p.2)) ++ rest.all

/-- How many nodes there are. -/
def size : Forest α ρ → Nat
  | nil => 0
  | cons _ _ children rest => children.size + rest.size + 1

/-- The first symbols of the edges. -/
def heads : Forest α ρ → List α
  | nil => []
  | cons edge _ _ rest => edge.head?.toList ++ rest.heads

def map (f : ρ → ρ) : Forest α ρ → Forest α ρ
  | nil => nil
  | cons edge values children rest => cons edge (values.map f) (children.map f) (rest.map f)

/-- Edges are words, and siblings are in the order of their first symbols. -/
def Proper [LT α] : Forest α ρ → Prop
  | nil => True
  | cons edge _ children rest =>
    (∃ a l, edge = a :: l ∧ ∀ b ∈ rest.heads, a < b) ∧ children.Proper ∧ rest.Proper

end Forest

open Forest

section all
variable {edge : List α} {values : List ρ} {children rest f : Forest α ρ} {p : List α × ρ}

/-- A value below an edge. -/
def Under (edge : List α) (f : Forest α ρ) (p : List α × ρ) : Prop :=
  ∃ l, (l, p.2) ∈ f.all ∧ p.1 = edge ++ l

theorem not_mem_all_nil : p ∉ (nil : Forest α ρ).all := List.not_mem_nil

theorem mem_all_cons :
    p ∈ (cons edge values children rest).all ↔
      (p.2 ∈ values ∧ p.1 = edge) ∨ Under edge children p ∨ p ∈ rest.all := by
  obtain ⟨word, value⟩ := p
  simp only [all, Under, List.mem_append, List.mem_map, Prod.mk.injEq, Prod.exists, or_assoc]
  constructor
  · rintro (⟨v, mem, rfl, rfl⟩ | ⟨l, v, mem, rfl, rfl⟩ | mem)
    · exact .inl ⟨mem, rfl⟩
    · exact .inr (.inl ⟨l, mem, rfl⟩)
    · exact .inr (.inr mem)
  · rintro (⟨mem, rfl⟩ | ⟨l, mem, rfl⟩ | mem)
    · exact .inl ⟨value, mem, rfl, rfl⟩
    · exact .inr (.inl ⟨l, value, mem, rfl, rfl⟩)
    · exact .inr (.inr mem)

theorem mem_heads_cons {a : α} :
    a ∈ (cons edge values children rest).heads ↔ edge.head? = some a ∨ a ∈ rest.heads := by
  simp [heads]

end all

/-- The length of the longest common prefix. -/
def common [DecidableEq α] : List α → List α → Nat
  | a :: l, b :: m => if a = b then common l m + 1 else 0
  | _, _ => 0

section common
variable [DecidableEq α] {l m : List α}

attribute [local simp] common in
theorem common_le_left (l m : List α) : common l m ≤ l.length := by
  induction l generalizing m with
  | nil => simp [common]
  | cons a l ih =>
    cases m with
    | nil => simp [common]
    | cons b m =>
      unfold common
      split
      · simpa using ih m
      · simp

@[simp] theorem common_nil_left (m : List α) : common [] m = 0 := by simp [common]

@[simp] theorem common_nil_right (l : List α) : common l [] = 0 := by cases l <;> simp [common]

/-- A whole word matches. -/
theorem common_append_of_eq (full : common l m = l.length) (k : List α) :
    common (l ++ k) m = l.length + common k (m.drop l.length) := by
  induction l generalizing m with
  | nil => simp
  | cons a l ih =>
    cases m with
    | nil => simp [common] at full
    | cons b m =>
      unfold common at full
      split at full
      · rename_i same
        rw [List.cons_append, common, if_pos same, ih (by simpa using full)]
        simp only [List.length_cons, List.drop_succ_cons]
        omega
      · simp at full

/-- A word that ends early stays where it is. -/
theorem common_append_of_lt (short : common l m < l.length) (k : List α) :
    common (l ++ k) m = common l m := by
  induction l generalizing m with
  | nil => simp at short
  | cons a l ih =>
    cases m with
    | nil => simp
    | cons b m =>
      rw [List.cons_append, common, common]
      split
      · rename_i same
        rw [common, if_pos same] at short
        rw [ih (by simpa using short)]
      · rfl

theorem common_pos_iff {a : α} : 0 < common (a :: l) m ↔ m.head? = some a := by
  cases m with
  | nil => simp
  | cons b m =>
    rw [common]
    split
    · rename_i same
      simp [same]
    · rename_i differ
      simp [Ne.symm differ]

theorem take_common (l m : List α) : l.take (common l m) = m.take (common l m) := by
  induction l generalizing m with
  | nil => simp
  | cons a l ih =>
    cases m with
    | nil => simp
    | cons b m =>
      rw [common]
      split
      · rename_i same
        subst same
        rw [List.take_succ_cons, List.take_succ_cons, ih m]
      · simp

end common

section map
variable {g : ρ → ρ} {f : Forest α ρ}

theorem all_map (g : ρ → ρ) (f : Forest α ρ) :
    (f.map g).all = f.all.map fun p => (p.1, g p.2) := by
  induction f with
  | nil => rfl
  | cons edge values children rest ihc ihr => simp [Forest.map, all, ihc, ihr, Function.comp_def]

theorem heads_map (g : ρ → ρ) (f : Forest α ρ) : (f.map g).heads = f.heads := by
  induction f with
  | nil => rfl
  | cons edge values children rest ihc ihr => simp [Forest.map, heads, ihr]

theorem proper_map [LT α] (proper : f.Proper) : (f.map g).Proper := by
  induction f with
  | nil => trivial
  | cons edge values children rest ihc ihr =>
    obtain ⟨head, below, beside⟩ := proper
    exact ⟨by rwa [heads_map], ihc below, ihr beside⟩

end map

/-! ## Placing a value -/

section place
variable [LinearOrder α]

/-- Whether the first symbol of a word comes before that of another. -/
def before (l m : List α) : Bool :=
  match l, m with
  | a :: _, b :: _ => decide (a < b)
  | _, _ => false

/-- Two siblings, in order. -/
def siblings (old : List ρ) (edge : List α) (children : Forest α ρ) (value : ρ) (word : List α) :
    Forest α ρ :=
  if before word edge then cons word [value] nil (cons edge old children nil)
  else cons edge old children (cons word [value] nil nil)

/-- The node that a word ends at, or a new one. An edge that the word leaves is split. -/
def place (value : ρ) : Forest α ρ → List α → Forest α ρ
  | nil, word => cons word [value] nil nil
  | cons edge values children rest, word =>
    if common edge word = 0 then
      if before word edge then cons word [value] nil (cons edge values children rest)
      else cons edge values children (place value rest word)
    else if common edge word = edge.length then
      if word.drop edge.length = [] then cons edge (values ++ [value]) children rest
      else cons edge values (place value children (word.drop edge.length)) rest
    else if word.drop (common edge word) = [] then
      cons word [value] (cons (edge.drop word.length) values children nil) rest
    else
      cons (edge.take (common edge word)) []
        (siblings values (edge.drop (common edge word)) children value
          (word.drop (common edge word))) rest

variable {value : ρ} {word edge : List α} {values : List ρ} {children rest f : Forest α ρ}
  {p : List α × ρ}

theorem lt_of_not_before {a b : α} {l m : List α} (apart : common (a :: l) (b :: m) = 0)
    (after : before (b :: m) (a :: l) = false) : a < b := by
  have differ : a ≠ b := fun same => by simp [common, same] at apart
  simp only [before, decide_eq_false_iff_not, not_lt] at after
  exact lt_of_le_of_ne after differ

/-- Behind the common prefix the words differ. -/
theorem common_drop (l m : List α) : common (l.drop (common l m)) (m.drop (common l m)) = 0 := by
  induction l generalizing m with
  | nil => simp
  | cons a l ih =>
    cases m with
    | nil => simp
    | cons b m =>
      rw [common]
      split
      · rw [List.drop_succ_cons, List.drop_succ_cons]
        exact ih m
      · rename_i differ
        simp [common, differ]

theorem heads_place (f : Forest α ρ) :
    ∀ a ∈ (place value f word).heads, a ∈ f.heads ∨ word.head? = some a := by
  intro a mem
  induction f with
  | nil => exact .inr (by simpa [place, heads] using mem)
  | cons edge values children rest _ ih =>
    unfold place at mem
    rw [mem_heads_cons]
    split at mem
    · split at mem
      · rw [mem_heads_cons, mem_heads_cons] at mem
        grind
      · rw [mem_heads_cons] at mem
        grind
    · rename_i shared
      split at mem
      · split at mem <;> rw [mem_heads_cons] at mem <;> grind
      · split at mem
        · rw [mem_heads_cons] at mem
          grind
        · rw [mem_heads_cons, List.head?_take, if_neg shared] at mem
          grind

theorem proper_siblings (ne : word ≠ []) (ne' : edge ≠ []) (apart : common edge word = 0)
    (proper : children.Proper) : (siblings values edge children value word).Proper := by
  obtain ⟨a, l, rfl⟩ := List.exists_cons_of_ne_nil ne'
  obtain ⟨b, m, rfl⟩ := List.exists_cons_of_ne_nil ne
  unfold siblings
  split
  · rename_i first
    simp only [before, decide_eq_true_eq] at first
    exact ⟨⟨b, m, rfl, by simpa [heads] using first⟩, trivial, ⟨a, l, rfl, by simp [heads]⟩,
      proper, trivial⟩
  · rename_i after
    have first := lt_of_not_before apart (by simpa using after)
    exact ⟨⟨a, l, rfl, by simpa [heads] using first⟩, proper, ⟨b, m, rfl, by simp [heads]⟩,
      trivial, trivial⟩

theorem proper_place {f : Forest α ρ} (proper : f.Proper) (ne : word ≠ []) :
    (place value f word).Proper := by
  induction f generalizing word with
  | nil =>
    obtain ⟨b, m, rfl⟩ := List.exists_cons_of_ne_nil ne
    exact ⟨⟨b, m, rfl, by simp [heads]⟩, trivial, trivial⟩
  | cons edge values children rest ihc ihr =>
    obtain ⟨⟨a, l, rfl, order⟩, below, beside⟩ := proper
    obtain ⟨b, m, rfl⟩ := List.exists_cons_of_ne_nil ne
    unfold place
    split
    · rename_i apart
      split
      · rename_i first
        simp only [before, decide_eq_true_eq] at first
        refine ⟨⟨b, m, rfl, fun c mem => ?_⟩, trivial, ⟨a, l, rfl, order⟩, below, beside⟩
        rcases mem_heads_cons.mp mem with same | mem
        · cases same
          exact first
        · exact first.trans (order c mem)
      · rename_i after
        refine ⟨⟨a, l, rfl, fun c mem => ?_⟩, below, ihr beside (by simp)⟩
        rcases heads_place rest c mem with mem | same
        · exact order c mem
        · cases same
          exact lt_of_not_before apart (by simpa using after)
    · rename_i shared
      have same : b = a := by
        have := common_pos_iff.mp (Nat.pos_of_ne_zero shared)
        simpa using this
      subst same
      split
      · split
        · exact ⟨⟨b, l, rfl, order⟩, below, beside⟩
        · rename_i more
          exact ⟨⟨b, l, rfl, order⟩, ihc below more, beside⟩
      · rename_i part
        have short := Nat.lt_of_le_of_ne (common_le_left (b :: l) (b :: m)) part
        have left : (b :: l).drop (common (b :: l) (b :: m)) ≠ [] := by
          rw [ne_eq, List.drop_eq_nil_iff]
          omega
        split
        · rename_i ends
          have length : (b :: m).length ≤ common (b :: l) (b :: m) := List.drop_eq_nil_iff.mp ends
          have inner : (b :: l).drop (b :: m).length ≠ [] := by
            rw [ne_eq, List.drop_eq_nil_iff]
            omega
          obtain ⟨c, k, eq⟩ := List.exists_cons_of_ne_nil inner
          exact ⟨⟨b, m, rfl, order⟩, ⟨⟨c, k, eq, by simp [heads]⟩, below, trivial⟩, beside⟩
        · rename_i more
          refine ⟨⟨b, l.take (common (b :: l) (b :: m) - 1), ?_, order⟩,
            proper_siblings more left (common_drop _ _) below, beside⟩
          obtain ⟨n, eq⟩ := Nat.exists_eq_succ_of_ne_zero shared
          rw [eq]
          rfl

theorem all_siblings :
    (siblings values edge children value word).all.Perm
      ((word, value) :: (cons edge values children nil).all) := by
  unfold siblings
  split
  · simp [all]
  · simp only [all, List.map_cons, List.map_nil, List.append_nil]
    exact List.perm_append_singleton _ _

/-- Nothing moves: the value is added at its word. -/
theorem all_place (value : ρ) (f : Forest α ρ) (word : List α) :
    (place value f word).all.Perm ((word, value) :: f.all) := by
  induction f generalizing word with
  | nil => simp [place, all]
  | cons edge values children rest ihc ihr =>
    have old := List.take_append_drop (common edge word) edge
    have whole := List.take_append_drop (common edge word) word
    rw [← take_common] at whole
    unfold place
    split
    · split
      · simp [all]
      · exact ((ihr word).append_left _).trans List.perm_middle
    · split
      · rename_i full
        rw [full, List.take_length] at whole
        split
        · rename_i ends
          rw [ends, List.append_nil] at whole
          subst whole
          simp only [all, List.map_append, List.append_assoc]
          exact List.perm_middle
        · have below := (ihc (word.drop edge.length)).map fun p => (edge ++ p.1, p.2)
          rw [List.map_cons, whole] at below
          simp only [all, List.append_assoc]
          exact ((below.append_right _).append_left _).trans List.perm_middle
      · split
        · rename_i ends
          rw [ends, List.append_nil] at whole
          have length := congrArg List.length whole
          rw [List.length_take, Nat.min_eq_left (common_le_left _ _)] at length
          rw [whole, length] at old
          simp [all, Function.comp_def, ← List.append_assoc, old]
        · have apart := (@all_siblings _ _ _ value (word.drop (common edge word))
            (edge.drop (common edge word)) values children).map
              fun p => (edge.take (common edge word) ++ p.1, p.2)
          simp only [all, List.map_append, List.map_cons, List.map_map, Function.comp_def,
            ← List.append_assoc, old, whole, List.map_nil, List.append_nil, List.nil_append] at apart ⊢
          exact apart.append_right _

theorem mem_place : p ∈ (place value f word).all ↔ p = (word, value) ∨ p ∈ f.all :=
  (all_place value f word).mem_iff.trans List.mem_cons

end place

/-! ## Removing values -/

/-- A node whose values may be gone. An empty one disappears, or joins its only child where
`merge` allows it. Whether the node above has lost or replaced a child is said as well. -/
def prune (merge : Bool) (edge : List α) (values : List ρ) (children rest : Forest α ρ) :
    Forest α ρ × Bool :=
  if values.isEmpty then
    match children with
    | nil => (rest, true)
    | cons edge' values' children' nil =>
      if merge then (cons (edge ++ edge') values' children' rest, true)
      else (cons edge values children rest, false)
    | _ => (cons edge values children rest, false)
  else (cons edge values children rest, false)

/-- The first node with such a value loses all of them, and the nodes above it are pruned as
long as they are empty; `merge` answers for each depth. -/
def remove (gone : ρ → Bool) (merge : Nat → Bool) : Forest α ρ → Nat → Option (Forest α ρ × Bool)
  | nil, _ => none
  | cons edge values children rest, depth =>
    if values.any gone then
      some (prune (merge depth) edge (values.filter fun v => !gone v) children rest)
    else
      match remove gone merge children (depth + 1) with
      | some (children', true) => some (prune (merge depth) edge values children' rest)
      | some (children', false) => some (cons edge values children' rest, false)
      | none => (remove gone merge rest depth).map fun p => (cons edge values children p.1, p.2)

section remove
variable [LT α] {gone : ρ → Bool} {edge : List α} {values : List ρ}
  {children rest f : Forest α ρ} {p : List α × ρ}

/-- Proper as before, under no new first symbol. -/
def Narrows (f f' : Forest α ρ) : Prop := f.Proper → f'.Proper ∧ f'.heads ⊆ f.heads

theorem Narrows.refl (f : Forest α ρ) : Narrows f f := fun proper => ⟨proper, List.Subset.refl _⟩

theorem prune_narrows (merge : Bool) :
    Narrows (cons edge values children rest) (prune merge edge values children rest).1 := by
  unfold prune
  split
  · cases children with
    | nil => exact fun proper => ⟨proper.2.2, fun a mem => mem_heads_cons.mpr (.inr mem)⟩
    | cons edge' values' children' rest' =>
      cases rest' with
      | nil =>
        cases merge with
        | false => exact Narrows.refl _
        | true =>
          rintro ⟨⟨a, l, rfl, order⟩, ⟨_, below, _⟩, beside⟩
          exact ⟨⟨⟨a, l ++ edge', rfl, order⟩, below, beside⟩, fun _ mem => mem⟩
      | cons _ _ _ _ => exact Narrows.refl _
  · exact Narrows.refl _

omit [LT α] in
theorem all_prune (merge : Bool) :
    (prune merge edge values children rest).1.all = (cons edge values children rest).all := by
  unfold prune
  split
  · rename_i empty
    rw [List.isEmpty_iff] at empty
    subst empty
    cases children with
    | nil => rfl
    | cons edge' values' children' rest' =>
      cases rest' with
      | cons => rfl
      | nil => cases merge <;> simp [all, Function.comp_def]
  · rfl

/-- The children of a node are exchanged for fewer. -/
theorem narrows_below {children' : Forest α ρ} (narrows : Narrows children children') :
    Narrows (cons edge values children rest) (cons edge values children' rest) :=
  fun ⟨head, below, beside⟩ => ⟨⟨head, (narrows below).1, beside⟩, fun _ mem => mem⟩

theorem narrows_beside {rest' : Forest α ρ} (narrows : Narrows rest rest') :
    Narrows (cons edge values children rest) (cons edge values children rest') := by
  rintro ⟨⟨a, l, rfl, order⟩, below, beside⟩
  refine ⟨⟨⟨a, l, rfl, fun b mem => order b ((narrows beside).2 mem)⟩, below,
    (narrows beside).1⟩, fun b mem => ?_⟩
  rw [mem_heads_cons] at mem ⊢
  exact mem.imp_right fun mem => (narrows beside).2 mem

theorem Narrows.trans {f g h : Forest α ρ} (fg : Narrows f g) (gh : Narrows g h) : Narrows f h :=
  fun proper => ⟨(gh (fg proper).1).1, List.Subset.trans (gh (fg proper).1).2 (fg proper).2⟩

theorem remove_narrows {merge : Nat → Bool} {depth : Nat} {f' : Forest α ρ} {up : Bool}
    (removed : remove gone merge f depth = some (f', up)) : Narrows f f' := by
  induction f generalizing depth f' up with
  | nil => cases removed
  | cons edge values children rest ihc ihr =>
    unfold remove at removed
    split at removed
    · obtain rfl : _ = f' := congrArg Prod.fst (Option.some.inj removed)
      have filtered : Narrows (cons edge values children rest)
          (cons edge (values.filter fun v => !gone v) children rest) :=
        fun ⟨head, below, beside⟩ => ⟨⟨head, below, beside⟩, fun _ mem => mem⟩
      exact filtered.trans (prune_narrows _)
    · split at removed
      · rename_i children' inner
        obtain rfl : _ = f' := congrArg Prod.fst (Option.some.inj removed)
        exact (narrows_below (ihc inner)).trans (prune_narrows _)
      · rename_i children' inner
        cases removed
        exact narrows_below (ihc inner)
      · obtain ⟨⟨rest', up'⟩, inner, eq⟩ := Option.map_eq_some_iff.mp removed
        cases eq
        exact narrows_beside (ihr inner)

omit [LT α] in
/-- One node loses the values that are gone, and nothing else changes. -/
theorem all_remove {merge : Nat → Bool} {depth : Nat} {f' : Forest α ρ} {up : Bool}
    (removed : remove gone merge f depth = some (f', up)) :
    ∃ before there after, f.all = before ++ there ++ after ∧ (there.any fun p => gone p.2) ∧
      f'.all = before ++ (there.filter fun p => !gone p.2) ++ after := by
  induction f generalizing depth f' up with
  | nil => cases removed
  | cons edge values children rest ihc ihr =>
    unfold remove at removed
    split at removed
    · rename_i some_
      obtain rfl : _ = f' := congrArg Prod.fst (Option.some.inj removed)
      rw [all_prune]
      refine ⟨[], values.map (edge, ·), _, List.append_assoc _ _ _, ?_, ?_⟩
      · simpa using some_
      · simp [all, List.filter_map, Function.comp_def]
    · have inside : ∀ {children' : Forest α ρ} {up' : Bool},
          remove gone merge children (depth + 1) = some (children', up') →
          ∃ before there after, (cons edge values children rest).all = before ++ there ++ after ∧
            (there.any fun p => gone p.2) ∧ (cons edge values children' rest).all =
              before ++ (there.filter fun p => !gone p.2) ++ after := by
        intro children' up' inner
        obtain ⟨before, there, after, eq, lost, eq'⟩ := ihc inner
        refine ⟨values.map (edge, ·) ++ before.map fun p => (edge ++ p.1, p.2),
          there.map fun p => (edge ++ p.1, p.2),
          (after.map fun p => (edge ++ p.1, p.2)) ++ rest.all, ?_, ?_, ?_⟩
        · simp [all, eq]
        · simpa using lost
        · simp [all, eq', List.filter_map, Function.comp_def]
      split at removed
      · rename_i children' inner
        obtain rfl : _ = f' := congrArg Prod.fst (Option.some.inj removed)
        rw [all_prune]
        exact inside inner
      · rename_i children' inner
        cases removed
        exact inside inner
      · obtain ⟨⟨rest', up'⟩, inner, eq⟩ := Option.map_eq_some_iff.mp removed
        cases eq
        obtain ⟨before, there, after, eq, lost, eq'⟩ := ihr inner
        exact ⟨values.map (edge, ·) ++ (children.all.map fun p => (edge ++ p.1, p.2)) ++ before,
          there, after, by simp [all, eq], lost, by simp [all, eq']⟩

omit [LT α] in
theorem mem_of_remove {merge : Nat → Bool} {depth : Nat} {f' : Forest α ρ} {up : Bool}
    (removed : remove gone merge f depth = some (f', up)) (mem : p ∈ f'.all) : p ∈ f.all := by
  obtain ⟨before, there, after, eq, _, eq'⟩ := all_remove removed
  rw [eq'] at mem
  rw [eq]
  simp only [List.mem_append, List.mem_filter] at mem ⊢
  tauto

omit [LT α] in
theorem remove_eq_none {merge : Nat → Bool} {depth : Nat}
    (kept : remove gone merge f depth = none) : ∀ p ∈ f.all, gone p.2 = false := by
  induction f generalizing depth with
  | nil => simp [all]
  | cons edge values children rest ihc ihr =>
    unfold remove at kept
    split at kept
    · cases kept
    · rename_i own
      split at kept
      · cases kept
      · cases kept
      · rename_i below
        have beside := Option.map_eq_none_iff.mp kept
        rintro p mem
        rcases mem_all_cons.mp mem with ⟨here, _⟩ | ⟨l, under, _⟩ | mem
        · simpa using mt (fun lost => List.any_eq_true.mpr ⟨_, here, lost⟩) own
        · exact ihc below (l, p.2) under
        · exact ihr beside p mem

end remove

/-! ## The values along a word -/

/-- The values of the nodes that a word passes. -/
def Forest.along [DecidableEq α] : Forest α ρ → List α → List ρ
  | nil, _ => []
  | cons edge values children rest, word =>
    if common edge word = 0 then rest.along word
    else if common edge word = edge.length then values ++ children.along (word.drop edge.length)
    else []

section along
variable [LinearOrder α] {word path edge : List α} {values : List ρ}
  {children rest f : Forest α ρ} {v : ρ}

theorem common_of_prefix (starts : edge <+: word) : common edge word = edge.length := by
  obtain ⟨rest, rfl⟩ := starts
  induction edge with
  | nil => cases rest <;> rfl
  | cons a l ih => simp [common, ih]

theorem prefix_of_common (full : common edge word = edge.length) : edge <+: word := by
  have same := take_common edge word
  rw [full, List.take_length] at same
  exact same ▸ List.take_prefix _ _

theorem head_mem_heads (proper : f.Proper) (mem : (path, v) ∈ f.all) :
    ∃ a l, path = a :: l ∧ a ∈ f.heads := by
  induction f generalizing path with
  | nil => exact absurd mem not_mem_all_nil
  | cons edge values children rest ihc ihr =>
    obtain ⟨⟨a, l, rfl, _⟩, _, beside⟩ := proper
    rcases mem_all_cons.mp mem with ⟨_, eq⟩ | ⟨k, _, eq⟩ | mem
    · exact ⟨a, l, eq, mem_heads_cons.mpr (.inl rfl)⟩
    · exact ⟨a, l ++ k, eq, mem_heads_cons.mpr (.inl rfl)⟩
    · obtain ⟨b, m, eq, mem⟩ := ihr beside mem
      exact ⟨b, m, eq, mem_heads_cons.mpr (.inr mem)⟩

/-- Siblings do not begin like a node whose edge agrees with the word. -/
theorem not_prefix_of_mem_rest (proper : (cons edge values children rest).Proper)
    (shared : common edge word ≠ 0) (mem : (path, v) ∈ rest.all) : ¬path <+: word := by
  obtain ⟨⟨a, l, rfl, before⟩, _, beside⟩ := proper
  intro starts
  obtain ⟨b, m, rfl, there⟩ := head_mem_heads beside mem
  obtain ⟨k, rfl⟩ := starts
  have here : (some b : Option α) = some a := common_pos_iff.mp (Nat.pos_of_ne_zero shared)
  exact (before b there).ne' (Option.some.inj here)

/-- Exactly the values whose words are beginnings of the word, in the order of the tree. -/
theorem along_eq (proper : f.Proper) (word : List α) :
    f.along word = (f.all.filter fun p => decide (p.1 <+: word)).map (·.2) := by
  induction f generalizing word with
  | nil => rfl
  | cons edge values children rest ihc ihr =>
    have siblings : common edge word ≠ 0 →
        (rest.all.filter fun p => decide (p.1 <+: word)) = [] := fun shared =>
      List.filter_eq_nil_iff.mpr fun p mem => by
        simpa using not_prefix_of_mem_rest proper shared mem
    obtain ⟨⟨a, l, rfl, before⟩, below, beside⟩ := proper
    rw [along, all, List.filter_append, List.filter_append]
    by_cases starts : a :: l <+: word
    · have full := common_of_prefix starts
      have shared : common (a :: l) word ≠ 0 := by rw [full]; exact Nat.succ_ne_zero _
      obtain ⟨tail, rfl⟩ := starts
      rw [if_neg shared, if_pos full, siblings shared, List.drop_left, ihc below]
      simp [List.filter_map, Function.comp_def, List.prefix_append_right_inj]
    · have own : ((values.map (a :: l, ·)).filter fun p => decide (p.1 <+: word)) = [] := by
        simp [starts]
      have inner : ((children.all.map fun p => (a :: l ++ p.1, p.2)).filter
          fun p => decide (p.1 <+: word)) = [] := by
        refine List.filter_eq_nil_iff.mpr fun p mem => ?_
        obtain ⟨q, _, rfl⟩ := List.mem_map.mp mem
        simpa using mt (List.prefix_append (a :: l) q.1).trans starts
      rw [own, inner, List.nil_append, List.nil_append]
      by_cases shared : common (a :: l) word = 0
      · rw [if_pos shared, ihr beside]
      · rw [if_neg shared, if_neg fun full => starts (prefix_of_common full), siblings shared]
        rfl

theorem mem_along (proper : f.Proper) :
    v ∈ f.along word ↔ ∃ path, (path, v) ∈ f.all ∧ path <+: word := by
  simp [along_eq proper]

end along

/-! ## The longest agreement with a word

A search with a stack: nodes are put on it with how far they agree with the word. A branch
that has left the word agrees no further, and is left out where that is not enough.
-/

/-- A node still to be visited. -/
structure Pending (α ρ : Type) where
  values : List ρ
  children : Forest α ρ
  depth : Nat
  agreed : Nat
  diverged : Bool

section search
variable [LinearOrder α] (accept : ρ → Bool) (query : List α)

/-- A child, seen from its parent. -/
def descend (current : Pending α ρ) (edge : List α) (values : List ρ) (children : Forest α ρ) :
    Pending α ρ :=
  if current.diverged then
    ⟨values, children, current.depth + edge.length, current.agreed, true⟩
  else
    let matched := common edge (query.drop current.depth)
    ⟨values, children, current.depth + edge.length, current.agreed + matched,
      decide (matched ≠ edge.length)⟩

/-- The children worth a visit, in order. -/
def pushed (longest : Nat) (current : Pending α ρ) : Forest α ρ → List (Pending α ρ)
  | nil => []
  | cons edge values children rest =>
    let child := descend query current edge values children
    if child.agreed > longest then child :: pushed longest current rest
    else pushed longest current rest

/-- The loop; the top of the stack is the head of the list, and `fuel` counts the visits. -/
def search : Nat → List (Pending α ρ) → Nat → Nat
  | 0, _, longest => longest
  | _, [], longest => longest
  | fuel + 1, current :: stack, longest =>
    let longest := if current.values.any accept then max longest current.agreed else longest
    search fuel ((pushed query longest current current.children).reverse ++ stack) longest

/-- How far a value below a node agrees with the word. -/
def Pending.agreement (p : Pending α ρ) (path : List α) : Nat :=
  if p.diverged then p.agreed else p.agreed + common path (query.drop p.depth)

/-- What can be found below a node. -/
def Pending.Finds (p : Pending α ρ) (n : Nat) : Prop :=
  (∃ v ∈ p.values, accept v ∧ n = p.agreed) ∨
    ∃ q ∈ p.children.all, accept q.2 ∧ n = p.agreement query q.1

def Pending.nodes (p : Pending α ρ) : Nat := p.children.size + 1

variable {accept query} {p q current : Pending α ρ} {edge : List α} {values : List ρ}
  {children rest f : Forest α ρ} {longest n : Nat}

/-- What lies below a child is what lies below its parent. -/
theorem agreement_descend (path : List α) :
    (descend query current edge values children).agreement query path =
      current.agreement query (edge ++ path) := by
  unfold descend Pending.agreement
  split
  · simp
  · by_cases full : common edge (query.drop current.depth) = edge.length
    · simp [full, common_append_of_eq full, List.drop_drop, Nat.add_assoc]
    · have short := Nat.lt_of_le_of_ne (common_le_left _ _) full
      simp [full, common_append_of_lt short]

theorem values_descend : (descend query current edge values children).values = values := by
  unfold descend
  split <;> rfl

theorem children_descend : (descend query current edge values children).children = children := by
  unfold descend
  split <;> rfl

theorem agreed_descend :
    (descend query current edge values children).agreed = current.agreement query edge := by
  unfold descend Pending.agreement
  split <;> rfl

/-- The nodes at the top. -/
def Forest.tops : Forest α ρ → List (List α × List ρ × Forest α ρ)
  | nil => []
  | cons edge values children rest => (edge, values, children) :: rest.tops

variable (query) in
theorem pushed_eq (longest : Nat) (current : Pending α ρ) (f : Forest α ρ) :
    pushed query longest current f =
      (f.tops.map fun t => descend query current t.1 t.2.1 t.2.2).filter
        fun p => decide (p.agreed > longest) := by
  induction f with
  | nil => rfl
  | cons edge values children rest _ ih =>
    rw [pushed, Forest.tops, List.map_cons, List.filter_cons, ih]
    simp only [decide_eq_true_eq]

omit [LinearOrder α] in
theorem mem_all_tops {q : List α × ρ} :
    q ∈ f.all ↔ ∃ t ∈ f.tops, (q.2 ∈ t.2.1 ∧ q.1 = t.1) ∨ Under t.1 t.2.2 q := by
  induction f with
  | nil => simp [Forest.tops, not_mem_all_nil]
  | cons edge values children rest _ ih =>
    rw [mem_all_cons, Forest.tops, List.exists_mem_cons_iff, ← ih, or_assoc]

omit [LinearOrder α] in
theorem size_eq_tops : f.size = (f.tops.map fun t => t.2.2.size + 1).sum := by
  induction f with
  | nil => rfl
  | cons edge values children rest _ ih =>
    rw [Forest.size, Forest.tops, List.map_cons, List.sum_cons, ← ih]
    dsimp only
    omega

/-- What is below a node is what its children find. -/
theorem finds_children :
    (∃ q ∈ current.children.all, accept q.2 ∧ n = current.agreement query q.1) ↔
      ∃ t ∈ current.children.tops,
        (descend query current t.1 t.2.1 t.2.2).Finds accept query n := by
  constructor
  · rintro ⟨q, mem, accepted, eq⟩
    obtain ⟨t, top, ⟨value, word⟩ | ⟨l, below, word⟩⟩ := mem_all_tops.mp mem
    · refine ⟨t, top, .inl ⟨q.2, by rwa [values_descend], accepted, ?_⟩⟩
      rw [agreed_descend, eq, word]
    · refine ⟨t, top, .inr ⟨(l, q.2), by rwa [children_descend], accepted, ?_⟩⟩
      rw [agreement_descend, eq, word]
  · rintro ⟨t, top, ⟨v, value, accepted, eq⟩ | ⟨q, below, accepted, eq⟩⟩
    · rw [values_descend] at value
      exact ⟨(t.1, v), mem_all_tops.mpr ⟨t, top, .inl ⟨value, rfl⟩⟩, accepted,
        eq.trans agreed_descend⟩
    · rw [children_descend] at below
      exact ⟨(t.1 ++ q.1, q.2), mem_all_tops.mpr ⟨t, top, .inr ⟨q.1, below, rfl⟩⟩, accepted,
        eq.trans (agreement_descend _)⟩

/-! The node that still follows the word agrees furthest, so a branch is only left out when
something as good has been found. -/

/-- The stack of a search. -/
structure Ready (stack : List (Pending α ρ)) (longest : Nat) : Prop where
  proper : ∀ p ∈ stack, p.children.Proper
  along : ∀ p ∈ stack, p.diverged = false →
    longest ≤ p.agreed ∧ ∀ q ∈ stack, q.agreed ≤ p.agreed
  single : stack.Pairwise fun p q => p.diverged ∨ q.diverged

variable {stack : List (Pending α ρ)} {t u : List α × List ρ × Forest α ρ} {longest' : Nat}

/-- A child that is left out has nothing better. -/
theorem finds_le_of_left_out (ne : t.1 ≠ [])
    (along : current.diverged = false → longest ≤ current.agreed)
    (out : (descend query current t.1 t.2.1 t.2.2).agreed ≤ longest)
    (finds : (descend query current t.1 t.2.1 t.2.2).Finds accept query n) : n ≤ longest := by
  rcases finds with ⟨_, _, _, rfl⟩ | ⟨q, _, _, rfl⟩
  · exact out
  · unfold Pending.agreement
    split
    · exact out
    · rename_i follows
      unfold descend at follows out
      split at follows
      · exact absurd rfl follows
      · rename_i parent
        rw [if_neg parent] at out
        have full : common t.1 (query.drop current.depth) = t.1.length := by
          simpa using follows
        have positive := List.length_pos_of_ne_nil ne
        have := along (by simpa using parent)
        simp only [full] at out
        omega

omit [LinearOrder α] in
theorem exists_of_mem_tops [LT α] (proper : f.Proper) (top : t ∈ f.tops) :
    (∃ a l, t.1 = a :: l) ∧ t.2.2.Proper ∧ ∀ a, t.1.head? = some a → a ∈ f.heads := by
  induction f with
  | nil => cases top
  | cons edge values children rest _ ih =>
    obtain ⟨⟨a, l, rfl, _⟩, below, beside⟩ := proper
    rcases List.mem_cons.mp top with rfl | top
    · exact ⟨⟨a, l, rfl⟩, below, fun b same => mem_heads_cons.mpr (.inl same)⟩
    · obtain ⟨edge, proper, head⟩ := ih beside top
      exact ⟨edge, proper, fun b same => mem_heads_cons.mpr (.inr (head b same))⟩

/-- Siblings begin differently. -/
theorem tops_apart (proper : f.Proper) : f.tops.Pairwise fun t u => t.1.head? ≠ u.1.head? := by
  induction f with
  | nil => exact List.Pairwise.nil
  | cons edge values children rest _ ih =>
    obtain ⟨⟨a, l, rfl, order⟩, _, beside⟩ := proper
    refine List.Pairwise.cons (fun u top same => ?_) (ih beside)
    obtain ⟨_, _, heads⟩ := exists_of_mem_tops beside top
    exact lt_irrefl a (order a (heads a same.symm))

theorem diverged_descend_of_diverged (gone : current.diverged = true) :
    (descend query current edge values children).diverged = true ∧
      (descend query current edge values children).agreed = current.agreed := by
  unfold descend
  rw [if_pos gone]
  exact ⟨rfl, rfl⟩

/-- Where one child follows the word, another one leaves it at once. -/
theorem leaves_of_follows (parent : current.diverged = false)
    (follows : (descend query current t.1 t.2.1 t.2.2).diverged = false) (ne : t.1 ≠ [])
    (ne' : u.1 ≠ []) (apart : t.1.head? ≠ u.1.head?) :
    (descend query current u.1 u.2.1 u.2.2).diverged = true ∧
      (descend query current u.1 u.2.1 u.2.2).agreed = current.agreed := by
  obtain ⟨a, l, eq⟩ := List.exists_cons_of_ne_nil ne
  obtain ⟨b, m, eq'⟩ := List.exists_cons_of_ne_nil ne'
  rw [eq, eq'] at apart
  unfold descend at follows ⊢
  simp only [parent, Bool.false_eq_true, if_false, decide_eq_false_iff_not, not_not, eq, eq']
    at follows ⊢
  have here : (query.drop current.depth).head? = some a :=
    common_pos_iff.mp (by rw [follows]; simp)
  have none_matched : common (b :: m) (query.drop current.depth) = 0 := by
    refine Nat.eq_zero_of_not_pos fun matched => apart ?_
    rw [common_pos_iff, here] at matched
    simpa using matched
  simp [none_matched]

theorem agreed_le_of_follows (parent : current.diverged = false)
    (follows : (descend query current t.1 t.2.1 t.2.2).diverged = false) (ne : t.1 ≠ [])
    (ne' : u.1 ≠ []) (apart : t.1.head? ≠ u.1.head? ∨ t = u) :
    (descend query current u.1 u.2.1 u.2.2).agreed ≤
      (descend query current t.1 t.2.1 t.2.2).agreed := by
  rcases apart with apart | rfl
  · rw [(leaves_of_follows parent follows ne ne' apart).2]
    unfold descend
    simp [parent]
  · exact Nat.le_refl _

theorem Ready.next (ready : Ready (current :: stack) longest)
    (most : longest' ≤ max longest current.agreed) :
    Ready ((pushed query longest' current current.children).reverse ++ stack) longest' := by
  have proper := ready.proper current List.mem_cons_self
  have behind : ∀ q ∈ stack, q ∈ current :: stack := fun q mem => List.mem_cons_of_mem _ mem
  have child : ∀ c ∈ (pushed query longest' current current.children).reverse,
      ∃ t ∈ current.children.tops, c = descend query current t.1 t.2.1 t.2.2 ∧
        longest' < c.agreed := by
    intro c mem
    rw [List.mem_reverse, pushed_eq, List.mem_filter, List.mem_map] at mem
    obtain ⟨⟨t, top, rfl⟩, better⟩ := mem
    exact ⟨t, top, rfl, by simpa using better⟩
  have word : ∀ t ∈ current.children.tops, t.1 ≠ [] := fun t top empty => by
    obtain ⟨⟨a, l, eq⟩, _⟩ := exists_of_mem_tops proper top
    rw [empty] at eq
    cases eq
  have apart : ∀ t ∈ current.children.tops, ∀ u ∈ current.children.tops,
      t.1.head? ≠ u.1.head? ∨ t = u := fun t top u other =>
    List.Pairwise.forall_of_forall_of_flip (R := fun t u => t.1.head? ≠ u.1.head? ∨ t = u)
      (fun _ _ => .inr rfl) ((tops_apart proper).imp fun h => .inl h)
      ((tops_apart proper).imp fun h => .inl h.symm) top other
  refine ⟨fun p mem => ?_, fun p mem follows => ?_, ?_⟩
  · rcases List.mem_append.mp mem with mem | mem
    · obtain ⟨t, top, rfl, _⟩ := child p mem
      rw [children_descend]
      exact (exists_of_mem_tops proper top).2.1
    · exact ready.proper p (behind p mem)
  · rcases List.mem_append.mp mem with mem | mem
    · obtain ⟨t, top, rfl, better⟩ := child p mem
      have parent : current.diverged = false := by
        cases gone : current.diverged with
        | false => rfl
        | true => rw [(diverged_descend_of_diverged gone).1] at follows; cases follows
      refine ⟨Nat.le_of_lt better, fun q mem => ?_⟩
      rcases List.mem_append.mp mem with mem | mem
      · obtain ⟨u, other, rfl, _⟩ := child q mem
        exact agreed_le_of_follows parent follows (word t top) (word u other) (apart t top u other)
      · have grown : current.agreed ≤ (descend query current t.1 t.2.1 t.2.2).agreed := by
          unfold descend
          simp [parent]
        exact ((ready.along current List.mem_cons_self parent).2 q (behind q mem)).trans grown
    · have gone : current.diverged = true := by
        have single := (List.pairwise_cons.mp ready.single).1 p mem
        simpa [follows] using single
      obtain ⟨low, furthest⟩ := ready.along p (behind p mem) follows
      refine ⟨most.trans (max_le low (furthest current List.mem_cons_self)), fun q mem => ?_⟩
      rcases List.mem_append.mp mem with mem | mem
      · obtain ⟨u, _, rfl, _⟩ := child q mem
        rw [(diverged_descend_of_diverged gone).2]
        exact furthest current List.mem_cons_self
      · exact furthest q (behind q mem)
  · obtain ⟨first, others⟩ := List.pairwise_cons.mp ready.single
    refine List.pairwise_append.mpr ⟨?_, others, fun c mem q behind => ?_⟩
    · rw [List.pairwise_reverse, pushed_eq]
      refine List.Pairwise.filter _ ((List.pairwise_map).mpr ?_)
      refine List.Pairwise.imp_of_mem (fun {t u} top other differ => ?_) (tops_apart proper)
      cases gone : current.diverged with
      | true => exact .inl (diverged_descend_of_diverged gone).1
      | false =>
        cases follows : (descend query current t.1 t.2.1 t.2.2).diverged with
        | true => exact .inr rfl
        | false => exact .inl (leaves_of_follows gone follows (word t top) (word u other) differ).1
    · obtain ⟨t, _, rfl, _⟩ := child c mem
      rcases first q behind with gone | gone
      · exact .inl (diverged_descend_of_diverged gone).1
      · exact .inr gone

/-- The search finds the best of what its stack can find. -/
theorem search_spec (fuel : Nat) (stack : List (Pending α ρ)) (longest : Nat)
    (ready : Ready stack longest) (enough : (stack.map Pending.nodes).sum ≤ fuel) :
    longest ≤ search accept query fuel stack longest ∧
      (∀ p ∈ stack, ∀ n, p.Finds accept query n → n ≤ search accept query fuel stack longest) ∧
      (search accept query fuel stack longest = longest ∨
        ∃ p ∈ stack, p.Finds accept query (search accept query fuel stack longest)) := by
  induction fuel generalizing stack longest with
  | zero =>
    cases stack with
    | nil => simp [search]
    | cons p stack => simp [Pending.nodes] at enough
  | succ fuel ih =>
    cases stack with
    | nil => simp [search]
    | cons current stack =>
      rw [search]
      let here := if current.values.any accept then max longest current.agreed else longest
      have more : longest ≤ here := by
        simp only [here]
        split <;> omega
      have most : here ≤ max longest current.agreed := by
        simp only [here]
        split <;> omega
      have shrinks : ∀ l : List (List α × List ρ × Forest α ρ),
          (((l.map fun t => descend query current t.1 t.2.1 t.2.2).filter
            fun p => decide (p.agreed > here)).map Pending.nodes).sum ≤
            (l.map fun t => t.2.2.size + 1).sum := by
        intro l
        induction l with
        | nil => simp
        | cons t l ih =>
          rw [List.map_cons, List.filter_cons, List.map_cons, List.sum_cons]
          split
          · rw [List.map_cons, List.sum_cons, Pending.nodes, children_descend]
            omega
          · omega
      have nodes : ((((pushed query here current current.children).reverse ++ stack)).map
          Pending.nodes).sum ≤ fuel := by
        have children := shrinks current.children.tops
        rw [← pushed_eq, ← size_eq_tops] at children
        rw [List.map_cons, List.sum_cons, Pending.nodes] at enough
        rw [List.map_append, List.sum_append, List.map_reverse, List.sum_reverse]
        omega
      obtain ⟨low, all, reached⟩ := ih _ here (ready.next most) nodes
      refine ⟨le_trans more low, fun p mem n finds => ?_, ?_⟩
      · rcases List.mem_cons.mp mem with rfl | mem
        · rcases finds with ⟨v, value, accepted, rfl⟩ | below
          · have any : p.values.any accept = true := List.any_eq_true.mpr ⟨v, value, accepted⟩
            have reached : p.agreed ≤ here := by
              simp only [here, any, if_true]
              omega
            exact le_trans reached low
          · obtain ⟨t, top, finds⟩ := finds_children.mp below
            by_cases better : (descend query p t.1 t.2.1 t.2.2).agreed > here
            · refine all _ (List.mem_append_left _ ?_) n finds
              rw [List.mem_reverse, pushed_eq, List.mem_filter]
              exact ⟨List.mem_map_of_mem top, decide_eq_true better⟩
            · have worse := not_lt.mp better
              refine le_trans (finds_le_of_left_out ?_ (fun parent => ?_) worse finds) low
              · obtain ⟨⟨a, l, eq⟩, _⟩ :=
                  exists_of_mem_tops (ready.proper p List.mem_cons_self) top
                rw [eq]
                simp
              · have := (ready.along p List.mem_cons_self parent).1
                omega
        · exact all p (List.mem_append_right _ mem) n finds
      · rcases reached with same | ⟨p, mem, finds⟩
        · by_cases any : current.values.any accept = true
          · obtain ⟨v, value, accepted⟩ := List.any_eq_true.mp any
            have either : here = longest ∨ here = current.agreed := by
              simp only [here, any, if_true]
              omega
            rcases either with eq | eq
            · exact .inl (same.trans eq)
            · refine .inr ⟨current, List.mem_cons_self, .inl ⟨v, value, accepted, ?_⟩⟩
              exact same.trans eq
          · have eq : here = longest := by simp [here, any]
            exact .inl (same.trans eq)
        · refine .inr ?_
          rcases List.mem_append.mp mem with mem | mem
          · rw [List.mem_reverse, pushed_eq, List.mem_filter, List.mem_map] at mem
            obtain ⟨⟨t, top, rfl⟩, _⟩ := mem
            exact ⟨current, List.mem_cons_self, .inr (finds_children.mpr ⟨t, top, finds⟩)⟩
          · exact ⟨p, List.mem_cons_of_mem _ mem, finds⟩

variable (accept query) in
/-- How far the word is followed, at best, by a value that is accepted. -/
def longestAgreement (values : List ρ) (f : Forest α ρ) : Nat :=
  search accept query (f.size + 1) [⟨values, f, 0, 0, false⟩] 0

theorem longestAgreement_spec (values : List ρ) (proper : f.Proper) :
    (∀ q ∈ f.all, accept q.2 → common q.1 query ≤ longestAgreement accept query values f) ∧
      (longestAgreement accept query values f = 0 ∨ ∃ q ∈ f.all, accept q.2 ∧
        common q.1 query = longestAgreement accept query values f) := by
  have ready : Ready [(⟨values, f, 0, 0, false⟩ : Pending α ρ)] 0 := by
    refine ⟨fun p mem => ?_, fun p mem _ => ⟨Nat.zero_le _, fun q mem' => ?_⟩,
      List.pairwise_singleton _ _⟩
    · rw [List.mem_singleton.mp mem]
      exact proper
    · rw [List.mem_singleton.mp mem']
      exact Nat.zero_le _
  obtain ⟨_, all, reached⟩ := @search_spec _ _ _ accept query (f.size + 1) _ 0 ready
    (by simp [Pending.nodes])
  refine ⟨fun q mem accepted => ?_, ?_⟩
  · refine all _ (List.mem_singleton_self _) _ (.inr ⟨q, mem, accepted, ?_⟩)
    simp [Pending.agreement]
  · rcases reached with zero | ⟨p, mem, finds⟩
    · exact .inl zero
    · rw [List.mem_singleton.mp mem] at finds
      rcases finds with ⟨v, _, _, eq⟩ | ⟨q, below, accepted, eq⟩
      · exact .inl eq
      · refine .inr ⟨q, below, accepted, ?_⟩
        rw [longestAgreement, eq]
        simp [Pending.agreement]

end search

end Gufo.Radix
