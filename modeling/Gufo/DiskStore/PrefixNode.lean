import Gufo.Execution.State
import Gufo.Lib.Words

/-!
# The prefix tree of the disk store

`ContinuationDiskStore::Impl::PrefixNode` of `src/cli/serve/continuation_disk_store.cpp`.
`Insert` splits edges and `Erase` removes nodes without merging what is left, so the tree
depends on its history. What it finds does not: `Find` answers as a scan of the stored
token lists would.
-/

namespace Gufo.DiskStore
open Gufo.Execution (Token)
open Gufo.Radix (common)
open Gufo.Words

variable {ρ : Type}

/-- The map `children` of a node. A child is the key it is found by, the rest of its edge
(an edge starts with its key), its entry and its own children. -/
inductive Children (ρ : Type) where
  | nil
  | cons (key : Token) (edge : List Token) (entry : Option ρ) (children rest : Children ρ)
  deriving DecidableEq

structure PrefixNode (ρ : Type) where
  entry : Option ρ := none
  children : Children ρ := .nil
  deriving DecidableEq

def Children.keys : Children ρ → List Token
  | nil => []
  | cons key _ _ _ rest => key :: rest.keys

/-! ## Insertion and removal -/

/-- `Insert` of the tokens `front :: tail` at the node that has these children. -/
def Children.insert (value : ρ) : Children ρ → Token → List Token → Children ρ
  | nil, front, tail => cons front tail (some value) nil nil
  | cons key edge entry children rest, front, tail =>
    if key = front then
      let shared := common edge tail
      match edge.drop shared, tail.drop shared with
      | [], [] => cons key edge (some value) children rest
      | [], t :: ts => cons key edge entry (children.insert value t ts) rest
      -- the edge is split, and the value lies at the branch or at a new child of it
      | e :: es, [] =>
        cons key (edge.take shared) (some value) (cons e es entry children nil) rest
      | e :: es, t :: ts =>
        cons key (edge.take shared) none
          (cons e es entry children (cons t ts (some value) nil nil)) rest
    else cons key edge entry children (rest.insert value front tail)

/-- A child that was erased from goes when it has neither an entry nor children. -/
def Children.prune (key : Token) (edge : List Token) : Option ρ → Children ρ → Children ρ →
    Children ρ
  | none, nil, rest => rest
  | entry, children, rest => cons key edge entry children rest

/-- `Erase` of the tokens `front :: tail` at the node that has these children. -/
def Children.erase : Children ρ → Token → List Token → Children ρ
  | nil, _, _ => nil
  | cons key edge entry children rest, front, tail =>
    if key = front then
      if edge.isPrefixOf tail then
        match tail.drop edge.length with
        | [] => prune key edge none children rest
        | t :: ts => prune key edge entry (children.erase t ts) rest
      else cons key edge entry children rest
    else cons key edge entry children (rest.erase front tail)

def PrefixNode.insert (node : PrefixNode ρ) (value : ρ) : List Token → PrefixNode ρ
  | [] => { node with entry := some value }
  | t :: ts => { node with children := node.children.insert value t ts }

def PrefixNode.erase (node : PrefixNode ρ) : List Token → PrefixNode ρ
  | [] => { node with entry := none }
  | t :: ts => { node with children := node.children.erase t ts }

/-! ## The search -/

structure Match (ρ : Type) where
  longest : Option ρ := none
  shared_boundaries : List Nat := []
  deriving DecidableEq

def Match.push (result : Match ρ) (offset : Nat) : Match ρ :=
  { result with shared_boundaries := result.shared_boundaries ++ [offset] }

/-- A round of the loop, at a node and with this much of the prompt left. `go` goes on to
the child found by the next token. -/
def Match.round (boundaries : Bool) (entry : Option ρ) (children : Children ρ)
    (go : Token → List Token → Nat → Match ρ → Match ρ) (offset : Nat) (result : Match ρ)
    (prompt : List Token) : Match ρ :=
  let result := { result with longest := entry.or result.longest }
  match prompt with
  | [] => result
  | next :: rest =>
    if boundaries ∧ entry.isNone ∧ offset ≠ 0 ∧
        (children.keys.length > 1 ∨ (children.keys ≠ [] ∧ next ∉ children.keys)) then
      go next rest offset (result.push offset)
    else go next rest offset result

/-- The end of a round: the child that `next` finds among these, if there is one. -/
def Children.descend (boundaries : Bool) :
    Children ρ → Token → List Token → Nat → Match ρ → Match ρ
  | nil, _, _, _, result => result
  | cons key edge entry children rest, next, prompt, offset, result =>
    if key = next then
      let shared := common edge prompt
      let offset := offset + (shared + 1)
      if shared ≠ edge.length then
        if boundaries ∧ offset ≠ 0 ∧ prompt.drop shared ≠ [] then result.push offset else result
      else
        result.round boundaries entry children
          (fun t ts offset result => children.descend boundaries t ts offset result)
          offset (prompt.drop shared)
    else rest.descend boundaries next prompt offset result

def PrefixNode.find (node : PrefixNode ρ) (boundaries : Bool) (prompt : List Token) : Match ρ :=
  Match.round boundaries node.entry node.children (node.children.descend boundaries) 0 {} prompt

/-! ## What a tree stores -/

/-- What is stored below the children that start with a token. -/
def Children.get : Children ρ → Token → Store Token ρ
  | nil, _ => empty
  | cons key edge entry children rest, t =>
    if key = t then under edge (route entry fun u => children.get u) else rest.get t

def PrefixNode.get (node : PrefixNode ρ) : Store Token ρ := route node.entry node.children.get

/-- Keys are distinct, and no child is without an entry and without children. -/
def Children.Proper : Children ρ → Prop
  | nil => True
  | cons key _ entry children rest =>
    key ∉ rest.keys ∧ (entry ≠ none ∨ children ≠ nil) ∧ children.Proper ∧ rest.Proper

section children
variable {f : Children ρ} {front t : Token} {tail prompt : List Token} {value : ρ}

theorem get_of_not_mem (absent : t ∉ f.keys) : f.get t = empty := by
  induction f with
  | nil => rfl
  | cons key edge entry children rest _ ih =>
    rw [Children.keys, List.mem_cons, not_or] at absent
    exact (if_neg (Ne.symm absent.1)).trans (ih absent.2)

theorem get_cons_self (key : Token) (edge : List Token) (entry : Option ρ)
    (children rest : Children ρ) :
    (Children.cons key edge entry children rest).get key =
      under edge (route entry children.get) := if_pos rfl

variable {key : Token}

theorem get_cons_of_ne (edge : List Token) (entry : Option ρ)
    (children rest : Children ρ) (other : key ≠ t) :
    (Children.cons key edge entry children rest).get t = rest.get t := if_neg other

/-- A change to the first child is a change behind its key. -/
theorem get_cons_update (key : Token) (edge edge' : List Token) (entry entry' : Option ρ)
    (children children' rest : Children ρ) (s : Store Token ρ)
    (new : under edge' (route entry' children'.get) = s) :
    (Children.cons key edge' entry' children' rest).get =
      Function.update (Children.cons key edge entry children rest).get key s := by
  funext t
  by_cases same : t = key
  · rw [same, get_cons_self, Function.update_self, new]
  · rw [Function.update_of_ne same, get_cons_of_ne _ _ _ _ (Ne.symm same),
      get_cons_of_ne _ _ _ _ (Ne.symm same)]

/-- A change to the rest is a change behind another key. -/
theorem get_cons_rest (edge : List Token) (entry : Option ρ)
    (children : Children ρ) {rest rest' : Children ρ} {s : Store Token ρ} (other : key ≠ front)
    (new : rest'.get = Function.update rest.get front s) :
    (Children.cons key edge entry children rest').get =
      Function.update (Children.cons key edge entry children rest).get front s := by
  funext t
  by_cases same : t = front
  · rw [same, Function.update_self, get_cons_of_ne _ _ _ _ other, new, Function.update_self]
  · rw [Function.update_of_ne same, Children.get, Children.get, new, Function.update_of_ne same]

/-- An edge with one child at its end is one edge. -/
theorem route_single (e : Token) (es : List Token) (entry : Option ρ) (children : Children ρ) :
    route none (Children.cons e es entry children .nil).get =
      under (e :: es) (route entry children.get) := rfl

theorem common_split (edge tail : List Token) :
    edge = edge.take (common edge tail) ++ edge.drop (common edge tail) ∧
      tail = edge.take (common edge tail) ++ tail.drop (common edge tail) := by
  refine ⟨(List.take_append_drop _ _).symm, ?_⟩
  rw [Radix.take_common, List.take_append_drop]

variable {edge : List Token}

/-- Where an edge and tokens part, they go on differently. -/
theorem parts_differ {e t : Token} {es ts : List Token}
    (left : edge.drop (common edge tail) = e :: es)
    (right : tail.drop (common edge tail) = t :: ts) : e ≠ t := by
  intro same
  have apart := Radix.common_drop edge tail
  rw [left, right, common, if_pos same] at apart
  exact absurd apart (Nat.succ_ne_zero _)

theorem get_leaf (front : Token) (tail : List Token) (value : ρ) :
    (Children.cons front tail (some value) .nil .nil).get =
      Function.update (Children.nil : Children ρ).get front
        (Function.update empty tail (some value)) := by
  have leaf : under tail (route (some value) (Children.nil : Children ρ).get) =
      Function.update empty tail (some value) := by
    have below := under_update tail [] (empty : Store Token ρ) (some value)
    rw [under_empty, List.append_nil] at below
    rw [← below, ← route_empty, update_route_nil]
    rfl
  funext t
  by_cases same : t = front
  · rw [same, Function.update_self, get_cons_self, leaf]
  · rw [Function.update_of_ne same, get_cons_of_ne _ _ _ _ (Ne.symm same)]

theorem get_insert (f : Children ρ) (front : Token) (tail : List Token) :
    (f.insert value front tail).get =
      Function.update f.get front (Function.update (f.get front) tail (some value)) := by
  induction f generalizing front tail with
  | nil => exact get_leaf front tail value
  | cons key edge entry children rest ih ih_rest =>
    rw [Children.insert]
    split_ifs with same
    · subst same
      obtain ⟨edge_eq, tail_eq⟩ := common_split edge tail
      -- both go on below the part they share
      have below : ∀ x y, edge.drop (common edge tail) = x → tail.drop (common edge tail) = y →
          Function.update (under edge (route entry children.get)) tail (some value) =
            under (edge.take (common edge tail))
              (Function.update (under x (route entry children.get)) y (some value)) := by
        rintro x y rfl rfl
        rw [under_update, ← under_append, ← edge_eq, ← tail_eq]
      have whole : edge.drop (common edge tail) = [] → edge.take (common edge tail) = edge :=
        fun drop => by rw [drop, List.append_nil] at edge_eq; exact edge_eq.symm
      rw [get_cons_self]
      dsimp only
      split <;> rename_i left right <;> rw [below _ _ left right] <;>
        refine get_cons_update _ _ _ _ _ _ _ _ _ ?_
      · rw [whole left, under_nil, update_route_nil]
      · rw [whole left, under_nil, update_route_cons, ih]
      · rw [← route_single, update_route_nil]
      · have differ := parts_differ left right
        rw [← route_single, update_route_cons]
        congr 2
        refine get_cons_rest _ _ _ differ ?_
        rw [get_leaf, get_cons_of_ne _ _ _ _ differ]
        rfl
    · rw [get_cons_of_ne _ _ _ _ same]
      exact get_cons_rest _ _ _ same (ih_rest front tail)

theorem mem_keys_insert (f : Children ρ) (front : Token) (tail : List Token) :
    t ∈ (f.insert value front tail).keys ↔ t = front ∨ t ∈ f.keys := by
  induction f generalizing front tail with
  | nil => simp [Children.insert, Children.keys]
  | cons key edge entry children rest _ ih =>
    rw [Children.insert]
    split_ifs with same
    · dsimp only
      split <;> simp [Children.keys, same]
    · simp [Children.keys, ih, or_left_comm]

theorem insert_ne_nil (f : Children ρ) (front : Token) (tail : List Token) :
    f.insert value front tail ≠ .nil := by
  intro none
  have mem : front ∈ (f.insert value front tail).keys :=
    (mem_keys_insert f front tail).mpr (.inl rfl)
  rw [none] at mem
  exact absurd mem List.not_mem_nil

variable {f : Children ρ}

theorem proper_insert (proper : f.Proper) (front : Token) (tail : List Token) :
    (f.insert value front tail).Proper := by
  induction f generalizing front tail with
  | nil => simp [Children.insert, Children.Proper, Children.keys]
  | cons key edge entry children rest ih ih_rest =>
    obtain ⟨absent, occupied, proper_children, proper_rest⟩ := proper
    rw [Children.insert]
    split_ifs with same
    · dsimp only
      split <;> rename_i left right
      · exact ⟨absent, by simp, proper_children, proper_rest⟩
      · exact ⟨absent, .inr (insert_ne_nil _ _ _), ih proper_children _ _, proper_rest⟩
      · exact ⟨absent, by simp, ⟨List.not_mem_nil, occupied, proper_children, trivial⟩,
          proper_rest⟩
      · refine ⟨absent, by simp, ⟨?_, occupied, proper_children, ?_⟩, proper_rest⟩
        · simpa [Children.keys] using parts_differ left right
        · exact ⟨List.not_mem_nil, by simp, trivial, trivial⟩
    · refine ⟨?_, occupied, proper_children, ih_rest proper_rest _ _⟩
      rw [mem_keys_insert, not_or]
      exact ⟨same, absent⟩

/-! ## Removal -/

theorem prune_cases (key : Token) (edge : List Token) (entry : Option ρ)
    (children rest : Children ρ) :
    (entry = none ∧ children = .nil ∧ Children.prune key edge entry children rest = rest) ∨
      ((entry ≠ none ∨ children ≠ .nil) ∧
        Children.prune key edge entry children rest = .cons key edge entry children rest) := by
  cases entry <;> cases children <;> simp [Children.prune]

variable {entry : Option ρ} {children rest : Children ρ}

theorem get_prune
    (absent : key ∉ rest.keys) :
    (Children.prune key edge entry children rest).get =
      (Children.cons key edge entry children rest).get := by
  rcases prune_cases key edge entry children rest with ⟨rfl, rfl, pruned⟩ | ⟨-, kept⟩
  · rw [pruned]
    funext t
    by_cases same : key = t
    · subst same
      rw [get_of_not_mem absent, get_cons_self]
      exact ((congrArg (under edge) route_empty).trans (under_empty edge)).symm
    · rw [get_cons_of_ne _ _ _ _ same]
  · rw [kept]

theorem get_erase (proper : f.Proper) (front : Token) (tail : List Token) :
    (f.erase front tail).get =
      Function.update f.get front (Function.update (f.get front) tail none) := by
  induction f generalizing front tail with
  | nil =>
    have unchanged : Function.update (empty : Store Token ρ) tail none = empty :=
      Function.update_eq_self tail empty
    funext t
    by_cases same : t = front <;> simp [same, Children.erase, Children.get, unchanged]
  | cons key edge entry children rest ih ih_rest =>
    obtain ⟨absent, occupied, proper_children, proper_rest⟩ := proper
    rw [Children.erase]
    split_ifs with same starts
    · subst same
      obtain ⟨below, rfl⟩ := List.isPrefixOf_iff_prefix.mp starts
      rw [List.drop_left, get_cons_self, ← under_update]
      split
      · rw [get_prune absent]
        exact get_cons_update _ _ _ _ _ _ _ _ _ (by rw [update_route_nil])
      · rw [get_prune absent]
        exact get_cons_update _ _ _ _ _ _ _ _ _ (by rw [update_route_cons, ih proper_children])
    · subst same
      have apart : under edge (route entry children.get) tail = none :=
        under_of_not_prefix fun starts' => starts (List.isPrefixOf_iff_prefix.mpr starts')
      rw [get_cons_self, ← apart, Function.update_eq_self, ← get_cons_self,
        Function.update_eq_self]
    · rw [get_cons_of_ne _ _ _ _ same]
      exact get_cons_rest _ _ _ same (ih_rest proper_rest front tail)

theorem keys_prune
    :
    (Children.prune key edge entry children rest).keys ⊆ key :: rest.keys := by
  rcases prune_cases key edge entry children rest with ⟨-, -, pruned⟩ | ⟨-, kept⟩
  · rw [pruned]
    exact List.subset_cons_self _ _
  · rw [kept]
    exact List.Subset.refl _

theorem proper_prune
    (absent : key ∉ rest.keys) (proper : children.Proper)
    (proper_rest : rest.Proper) : (Children.prune key edge entry children rest).Proper := by
  rcases prune_cases key edge entry children rest with ⟨-, -, pruned⟩ | ⟨occupied, kept⟩
  · rwa [pruned]
  · rw [kept]
    exact ⟨absent, occupied, proper, proper_rest⟩

theorem keys_erase (f : Children ρ) (front : Token) (tail : List Token) :
    (f.erase front tail).keys ⊆ f.keys := by
  induction f generalizing front tail with
  | nil => exact List.Subset.refl _
  | cons key edge entry children rest _ ih =>
    rw [Children.erase]
    split_ifs
    · split
      · exact keys_prune
      · exact keys_prune
    · exact List.Subset.refl _
    · exact List.cons_subset_cons key (ih front tail)

theorem proper_erase (proper : f.Proper) (front : Token) (tail : List Token) :
    (f.erase front tail).Proper := by
  induction f generalizing front tail with
  | nil => exact trivial
  | cons key edge entry children rest ih ih_rest =>
    obtain ⟨absent, occupied, proper_children, proper_rest⟩ := proper
    rw [Children.erase]
    split_ifs
    · split
      · exact proper_prune absent proper_children proper_rest
      · exact proper_prune absent (ih proper_children _ _) proper_rest
    · exact ⟨absent, occupied, proper_children, proper_rest⟩
    · exact ⟨fun mem => absent (keys_erase rest front tail mem), occupied, proper_children,
        ih_rest proper_rest front tail⟩

/-! ## What the search finds -/

theorem holds_route (occupied : entry ≠ none ∨ f ≠ .nil)
    (reach : ∀ u ∈ f.keys, Holds (f.get u)) : Holds (route entry f.get) := by
  rcases occupied with stored | some_child
  · exact ⟨[], stored⟩
  · obtain ⟨u, mem⟩ := List.exists_mem_of_ne_nil f.keys
      (by cases f <;> simp_all [Children.keys])
    obtain ⟨word, stored⟩ := reach u mem
    exact ⟨u :: word, stored⟩

theorem holds_get (proper : f.Proper) : Holds (f.get t) ↔ t ∈ f.keys := by
  induction f generalizing t with
  | nil => simpa [Children.get, Children.keys] using not_holds_empty
  | cons key edge entry children rest ih ih_rest =>
    obtain ⟨-, occupied, proper_children, proper_rest⟩ := proper
    by_cases same : key = t
    · subst same
      refine iff_of_true ?_ List.mem_cons_self
      rw [get_cons_self]
      exact (holds_route occupied fun _ => (ih proper_children).mpr).under edge
    · rw [get_cons_of_ne _ _ _ _ same, ih_rest proper_rest, Children.keys, List.mem_cons]
      simp [Ne.symm same]

theorem nodup_keys (proper : f.Proper) : f.keys.Nodup := by
  induction f with
  | nil => exact List.nodup_nil
  | cons key edge entry children rest _ ih =>
    exact List.nodup_cons.mpr ⟨proper.1, ih proper.2.2.2⟩

/-- A node without an entry is a boundary when it branches, or when the prompt goes where
it has no child. -/
theorem boundary_node (proper : f.Proper) (entry : Option ρ) (next : Token) :
    Boundary (route entry f.get) (next :: prompt) 0 ↔
      entry.isNone ∧ (f.keys.length > 1 ∨ (f.keys ≠ [] ∧ next ∉ f.keys)) := by
  rw [boundary_zero, route_nil, Option.isNone_iff_eq_none, after_route, holds_get proper]
  refine and_congr_right fun no_entry => ?_
  subst no_entry
  -- a stored word starts with a key, and each key starts one
  have start : ∀ word, route none f.get word ≠ none → ∃ u, word.head? = some u ∧ u ∈ f.keys := by
    intro word stored
    cases word with
    | nil => exact absurd rfl stored
    | cons u word => exact ⟨u, rfl, (holds_get proper).mp ⟨word, stored⟩⟩
  have reach : ∀ u ∈ f.keys, ∃ word, route none f.get (u :: word) ≠ none :=
    fun u mem => (holds_get proper).mpr mem
  constructor
  · rintro ⟨⟨word, stored⟩, ⟨v, w, stored_v, stored_w, differ⟩ | absent⟩
    · obtain ⟨a, head_a, mem_a⟩ := start v stored_v
      refine .inl (Nat.lt_of_not_le fun le => differ ?_)
      match keys : f.keys with
      | [] => simp [keys] at mem_a
      | [u] => simp_all
      | _ :: _ :: _ => simp [keys] at le
    · obtain ⟨u, -, mem⟩ := start word stored
      exact .inr ⟨List.ne_nil_of_mem mem, absent⟩
  · rintro (many | ⟨some_key, absent⟩)
    · obtain ⟨a, b, others, keys⟩ : ∃ a b others, f.keys = a :: b :: others := by
        match f.keys, many with
        | a :: b :: others, _ => exact ⟨a, b, others, rfl⟩
      have distinct := nodup_keys proper
      rw [keys] at distinct
      obtain ⟨v, stored_v⟩ := reach a (by simp [keys])
      obtain ⟨w, stored_w⟩ := reach b (by simp [keys])
      refine ⟨⟨_, stored_v⟩, .inl ⟨_, _, stored_v, stored_w, ?_⟩⟩
      simp only [List.head?_cons, ne_eq, Option.some.injEq]
      rintro rfl
      simp at distinct
    · obtain ⟨u, mem⟩ := List.exists_mem_of_ne_nil _ some_key
      obtain ⟨word, stored⟩ := reach u mem
      exact ⟨⟨_, stored⟩, .inr absent⟩

/-- What is reported of a store below an offset: the value of the longest prefix, unless
none is stored, and the boundaries. -/
structure Match.Reports (s : Store Token ρ) (prompt : List Token) (offset : Nat)
    (result : Match ρ) (found : Bool → Match ρ) : Prop where
  longest : ∀ boundaries, (found boundaries).longest = (scan s prompt).or result.longest
  shared : ∀ k, k ∈ (found true).shared_boundaries ↔
    k ∈ result.shared_boundaries ∨ ∃ j, k = offset + j ∧ k ≠ 0 ∧ Boundary s prompt j

theorem round_reports (proper : f.Proper) (entry : Option ρ) (offset : Nat)
    (result : Match ρ) {go : Bool → Token → List Token → Nat → Match ρ → Match ρ}
    (below : ∀ t ts result, Match.Reports (f.get t) ts (offset + 1) result
      fun boundaries => go boundaries t ts offset result) :
    Match.Reports (route entry f.get) prompt offset result
      fun boundaries => result.round boundaries entry f (go boundaries) offset prompt := by
  cases prompt with
  | nil => exact ⟨fun _ => rfl, fun k => by simp [Match.round, not_boundary_nil]⟩
  | cons t ts =>
    refine ⟨fun boundaries => ?_, fun k => ?_⟩
    · have found := fun r => (below t ts r).longest boundaries
      unfold Match.round
      dsimp only
      split_ifs <;> rw [found] <;> simp [scan, Match.push, Option.or_assoc]
    · have found := fun r => (below t ts r).shared k
      have deeper : (∃ j, k = offset + 1 + j ∧ k ≠ 0 ∧ Boundary (f.get t) ts j) ↔
          ∃ j, k = offset + (j + 1) ∧ k ≠ 0 ∧ Boundary (route entry f.get) (t :: ts) (j + 1) := by
        simp [boundary_succ, Nat.add_assoc, Nat.add_comm 1]
      have here : (∃ j, k = offset + j ∧ k ≠ 0 ∧ Boundary (route entry f.get) (t :: ts) j) ↔
          (k = offset ∧ k ≠ 0 ∧ Boundary (route entry f.get) (t :: ts) 0) ∨
            ∃ j, k = offset + (j + 1) ∧ k ≠ 0 ∧
              Boundary (route entry f.get) (t :: ts) (j + 1) := by
        constructor
        · rintro ⟨j, at_j, pos, boundary⟩
          cases j with
          | zero => exact .inl ⟨at_j, pos, boundary⟩
          | succ j => exact .inr ⟨j, at_j, pos, boundary⟩
        · rintro (⟨at_zero, pos, boundary⟩ | ⟨j, found⟩)
          · exact ⟨0, at_zero, pos, boundary⟩
          · exact ⟨j + 1, found⟩
      rw [here, boundary_node proper, ← deeper]
      unfold Match.round
      dsimp only
      split_ifs with push <;> rw [found]
      · obtain ⟨-, no_entry, pos, branches⟩ := push
        simp only [Match.push, List.mem_append, List.mem_singleton, or_assoc]
        refine or_congr_right (or_congr_left ⟨?_, And.left⟩)
        rintro rfl
        exact ⟨rfl, pos, no_entry, branches⟩
      · refine or_congr_right (iff_or_self.mpr ?_)
        rintro ⟨rfl, pos, no_entry, branches⟩
        exact absurd ⟨rfl, no_entry, pos, branches⟩ push

theorem descend_whole (boundaries : Bool) (key : Token) (edge below : List Token)
    (entry : Option ρ) (children rest : Children ρ) (offset : Nat) (result : Match ρ) :
    (Children.cons key edge entry children rest).descend boundaries key (edge ++ below) offset
        result =
      result.round boundaries entry children (children.descend boundaries)
        (offset + (edge.length + 1)) below := by
  have whole : common edge (edge ++ below) = edge.length :=
    Radix.common_of_prefix (List.prefix_append edge below)
  rw [Children.descend, if_pos rfl]
  dsimp only
  rw [whole, List.drop_left, if_neg (fun differ => differ rfl)]

theorem descend_short (boundaries : Bool) (key : Token)
    (entry : Option ρ) (children rest : Children ρ) (offset : Nat) (result : Match ρ)
    (short : common edge prompt < edge.length) :
    (Children.cons key edge entry children rest).descend boundaries key prompt offset result =
      if boundaries ∧ common edge prompt < prompt.length then
        result.push (offset + (common edge prompt + 1))
      else result := by
  rw [Children.descend, if_pos rfl]
  rw [if_pos (Nat.ne_of_lt short)]
  simp

/-- From the children of a node on, the loop reports what is stored behind the next token. -/
theorem descend_reports (proper : f.Proper) (next : Token) (prompt : List Token)
    (offset : Nat) (result : Match ρ) :
    Match.Reports (f.get next) prompt (offset + 1) result
      fun boundaries => f.descend boundaries next prompt offset result := by
  induction f generalizing next prompt offset result with
  | nil => exact ⟨fun _ => by simp [Children.descend, Children.get],
      fun k => by simp [Children.descend, Children.get, not_boundary_empty]⟩
  | cons key edge entry children rest ih ih_rest =>
    obtain ⟨absent, occupied, proper_children, proper_rest⟩ := proper
    by_cases same : key = next
    · subst same
      have holds : Holds (route entry children.get) :=
        holds_route occupied fun u => (holds_get proper_children).mpr
      rw [get_cons_self]
      by_cases whole : common edge prompt = edge.length
      · obtain ⟨below, rfl⟩ := Radix.prefix_of_common whole
        have found : Match.Reports (route entry children.get) below (offset + (edge.length + 1))
            result fun boundaries => result.round boundaries entry children
              (children.descend boundaries) (offset + (edge.length + 1)) below :=
          round_reports proper_children entry _ result
            fun t ts result => ih proper_children t ts _ result
        refine ⟨fun boundaries => ?_, fun k => ?_⟩
        · rw [scan_under_append, descend_whole]
          exact found.longest boundaries
        · simp only [descend_whole, boundary_under_append holds]
          refine (found.shared k).trans (or_congr_right ⟨?_, ?_⟩)
          · rintro ⟨j, at_j, pos, boundary⟩
            exact ⟨edge.length + j, by omega, pos, by omega, by simpa using boundary⟩
          · rintro ⟨j, at_j, pos, le, boundary⟩
            exact ⟨j - edge.length, by omega, pos, boundary⟩
      · have short : common edge prompt < edge.length :=
          lt_of_le_of_ne (Radix.common_le_left edge prompt) whole
        refine ⟨fun boundaries => ?_, fun k => ?_⟩
        · rw [scan_under_short short, descend_short _ _ _ _ _ _ _ short]
          split_ifs <;> rfl
        · simp only [descend_short _ _ _ _ _ _ _ short, boundary_under_short holds short]
          split_ifs with inside
          · simp only [Match.push, List.mem_append, List.mem_singleton]
            refine or_congr_right ⟨?_, ?_⟩
            · rintro rfl
              exact ⟨_, by omega, by omega, rfl, inside.2⟩
            · omega
          · refine (or_iff_left ?_).symm
            rintro ⟨j, -, -, rfl, lt⟩
            exact inside ⟨trivial, lt⟩
    · simp only [Children.descend, if_neg same, get_cons_of_ne _ _ _ _ same]
      exact ih_rest proper_rest next prompt offset result

end children

/-! ## Any history -/

/-- A call of `Insert` or `Erase` on the root. -/
inductive Change (ρ : Type) where
  | insert (tokens : List Token) (value : ρ)
  | erase (tokens : List Token)

def PrefixNode.apply (node : PrefixNode ρ) : Change ρ → PrefixNode ρ
  | .insert tokens value => node.insert value tokens
  | .erase tokens => node.erase tokens

/-- The tree after some calls. -/
def PrefixNode.run (changes : List (Change ρ)) : PrefixNode ρ := changes.foldl apply {}

/-- What a call does to the entries that are stored. -/
def Change.write (s : Store Token ρ) : Change ρ → Store Token ρ
  | insert tokens value => Function.update s tokens (some value)
  | erase tokens => Function.update s tokens none

/-- The entries that are stored after some calls. -/
def stored (changes : List (Change ρ)) : Store Token ρ := changes.foldl Change.write empty

variable {node : PrefixNode ρ}

theorem apply_proper (proper : node.children.Proper) (change : Change ρ) :
    (node.apply change).children.Proper := by
  cases change with
  | insert tokens value =>
    cases tokens with
    | nil => exact proper
    | cons t ts => exact proper_insert proper t ts
  | erase tokens =>
    cases tokens with
    | nil => exact proper
    | cons t ts => exact proper_erase proper t ts

theorem apply_get (proper : node.children.Proper) (change : Change ρ) :
    (node.apply change).get = change.write node.get := by
  cases change with
  | insert tokens value =>
    cases tokens with
    | nil => exact (update_route_nil _ _ _).symm
    | cons t ts => exact (congrArg (route _) (get_insert _ t ts)).trans (update_route_cons ..).symm
  | erase tokens =>
    cases tokens with
    | nil => exact (update_route_nil _ _ _).symm
    | cons t ts =>
      exact (congrArg (route _) (get_erase proper t ts)).trans (update_route_cons ..).symm

/-- Each run keeps the tree proper, and the tree stores what the calls left. -/
theorem foldl_apply (changes : List (Change ρ))
    (proper : node.children.Proper) :
    (changes.foldl PrefixNode.apply node).children.Proper ∧
      (changes.foldl PrefixNode.apply node).get = changes.foldl Change.write node.get := by
  induction changes generalizing node with
  | nil => exact ⟨proper, rfl⟩
  | cons change rest ih =>
    obtain ⟨keeps, same⟩ := ih (apply_proper proper change)
    exact ⟨keeps, by rw [List.foldl_cons, same, apply_get proper]; rfl⟩

theorem run_get (changes : List (Change ρ)) :
    (PrefixNode.run changes).children.Proper ∧ (PrefixNode.run changes).get = stored changes := by
  have start : ({} : PrefixNode ρ).children.Proper := trivial
  obtain ⟨proper, same⟩ := foldl_apply changes start
  exact ⟨proper, same.trans (congrArg (changes.foldl Change.write) route_empty)⟩

/-- After any history the tree finds what a scan of the stored token lists finds: the entry
of the longest one that is a prefix of the prompt, and the lengths inside the prompt at which
token lists that are not themselves stored there are shared. -/
theorem PrefixNode.find_run (changes : List (Change ρ)) (prompt : List Token) :
    (∀ boundaries value, ((run changes).find boundaries prompt).longest = some value ↔
      ∃ tokens, stored changes tokens = some value ∧ tokens <+: prompt ∧
        ∀ other, stored changes other ≠ none → other <+: prompt →
          other.length ≤ tokens.length) ∧
      ∀ count, count ∈ ((run changes).find true prompt).shared_boundaries ↔
        0 < count ∧ Boundary (stored changes) prompt count := by
  obtain ⟨proper, same⟩ := run_get changes
  have found : Match.Reports (run changes).get prompt 0 {}
      fun boundaries => (run changes).find boundaries prompt :=
    round_reports proper (run changes).entry 0 {}
      fun t ts result => descend_reports proper t ts 0 result
  rw [same] at found
  refine ⟨fun boundaries value => ?_, fun count => ?_⟩
  · rw [← scan_eq_some_iff, found.longest boundaries, Option.or_none]
  · refine (found.shared count).trans ?_
    simp [Nat.pos_iff_ne_zero]

end Gufo.DiskStore
