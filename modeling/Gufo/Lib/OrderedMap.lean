import Mathlib.Data.List.Pairwise
import Mathlib.Data.Prod.Lex

/-!
# Ordered maps

`std::map`: one value for each key, iterated by ascending key. What an operation
does is said by `find`; iteration order is the order of the entries.
-/

namespace Gufo

structure OrderedMap (κ α : Type) [LinearOrder κ] where
  entries : List (κ × α)
  ordered : entries.Pairwise fun a b => a.1 < b.1

namespace OrderedMap
variable {κ α : Type} [LinearOrder κ] {m : OrderedMap κ α} {k l : κ} {v w : α}

def empty : OrderedMap κ α := ⟨[], .nil⟩

def find (m : OrderedMap κ α) (k : κ) : Option α := (m.entries.find? (·.1 = k)).map (·.2)

theorem find_eq_some : m.find k = some v ↔ (k, v) ∈ m.entries := by
  constructor
  · intro found
    obtain ⟨⟨l, w⟩, at_, rfl⟩ := Option.map_eq_some_iff.mp found
    obtain rfl : l = k := by simpa using List.find?_some at_
    exact List.mem_of_find?_eq_some at_
  · intro member
    cases at_ : m.entries.find? (·.1 = k) with
    | none => exact absurd (List.find?_eq_none.mp at_ _ member) (by simp)
    | some entry =>
      obtain ⟨l, w⟩ := entry
      obtain rfl : l = k := by simpa using List.find?_some at_
      have other := List.mem_of_find?_eq_some at_
      have apart : m.entries.Pairwise fun a b => a.1 ≠ b.1 := m.ordered.imp ne_of_lt
      have same : (l, w) = (l, v) := by
        by_contra differ
        have : Std.Symm fun a b : κ × α => a.1 ≠ b.1 := ⟨fun _ _ => Ne.symm⟩
        exact apart.forall other member differ rfl
      rw [find, at_, Option.map_some, (Prod.mk.inj same).2]

theorem find_eq_none : m.find k = none ↔ ∀ v, (k, v) ∉ m.entries := by
  constructor
  · intro absent v member
    rw [find_eq_some.mpr member] at absent
    cases absent
  · intro absent
    cases found : m.find k with
    | none => rfl
    | some v => exact absurd (find_eq_some.mp found) (absent v)

/-! ## Insertion -/

def emplaceEntry (k : κ) (v : α) : List (κ × α) → List (κ × α)
  | [] => [(k, v)]
  | entry :: rest =>
    if k < entry.1 then (k, v) :: entry :: rest
    else if k = entry.1 then entry :: rest
    else entry :: emplaceEntry k v rest

variable {entries : List (κ × α)}

theorem mem_emplaceEntry {entry : κ × α}
    (h : entry ∈ emplaceEntry k v entries) : entry = (k, v) ∨ entry ∈ entries := by
  induction entries with
  | nil => exact .inl (List.mem_singleton.mp h)
  | cons first rest ih =>
    unfold emplaceEntry at h
    split at h
    · exact List.mem_cons.mp h
    · split at h
      · exact .inr h
      · rcases List.mem_cons.mp h with rfl | later
        · exact .inr List.mem_cons_self
        · exact (ih later).imp_right (List.mem_cons_of_mem _)

theorem emplaceEntry_ordered
    (h : entries.Pairwise fun a b => a.1 < b.1) :
    (emplaceEntry k v entries).Pairwise fun a b => a.1 < b.1 := by
  induction entries with
  | nil => simp [emplaceEntry]
  | cons first rest ih =>
    obtain ⟨least, sorted⟩ := List.pairwise_cons.mp h
    unfold emplaceEntry
    split
    · rename_i less
      refine List.pairwise_cons.mpr ⟨fun entry member => ?_, h⟩
      rcases List.mem_cons.mp member with rfl | later
      · exact less
      · exact less.trans (least entry later)
    · rename_i not_less
      split
      · exact h
      · rename_i differ
        refine List.pairwise_cons.mpr ⟨fun entry member => ?_, ih sorted⟩
        rcases mem_emplaceEntry member with rfl | later
        · exact lt_of_le_of_ne (not_lt.mp not_less) (Ne.symm differ)
        · exact least entry later

/-- `emplace`: a key that is present keeps its value. -/
def emplace (m : OrderedMap κ α) (k : κ) (v : α) : OrderedMap κ α :=
  ⟨emplaceEntry k v m.entries, emplaceEntry_ordered m.ordered⟩

theorem emplaceEntry_keeps {entry : κ × α} (h : entry ∈ entries) :
    entry ∈ emplaceEntry k v entries := by
  induction entries with
  | nil => cases h
  | cons first rest ih =>
    unfold emplaceEntry
    split
    · exact List.mem_cons_of_mem _ h
    · split
      · exact h
      · rcases List.mem_cons.mp h with rfl | later
        · exact List.mem_cons_self
        · exact List.mem_cons_of_mem _ (ih later)

theorem emplaceEntry_adds (absent : ∀ w, (k, w) ∉ entries) :
    (k, v) ∈ emplaceEntry k v entries := by
  induction entries with
  | nil => exact List.mem_singleton_self _
  | cons first rest ih =>
    unfold emplaceEntry
    split
    · exact List.mem_cons_self
    · split
      · rename_i same
        exact absurd (same ▸ List.mem_cons_self) (absent first.2)
      · exact List.mem_cons_of_mem _ (ih fun w later => absent w (List.mem_cons_of_mem _ later))

theorem find_emplace (absent : m.find k = none) :
    (m.emplace k v).find l = if l = k then some v else m.find l := by
  rw [find_eq_none] at absent
  by_cases same : l = k
  · subst same
    rw [if_pos rfl, find_eq_some]
    exact emplaceEntry_adds absent
  · rw [if_neg same]
    apply Option.ext
    intro w
    rw [find_eq_some, find_eq_some]
    constructor
    · intro member
      rcases mem_emplaceEntry member with eq | old
      · exact absurd (Prod.mk.inj eq).1 same
      · exact old
    · exact emplaceEntry_keeps

/-! ## Removal and change -/

def erase (m : OrderedMap κ α) (k : κ) : OrderedMap κ α :=
  ⟨m.entries.filter (·.1 ≠ k), m.ordered.filter _⟩

theorem mem_erase {entry : κ × α} :
    entry ∈ (m.erase k).entries ↔ entry ∈ m.entries ∧ entry.1 ≠ k := by
  simp [erase]

@[simp] theorem find_erase : (m.erase k).find l = if l = k then none else m.find l := by
  by_cases same : l = k
  · rw [if_pos same, find_eq_none]
    intro v member
    exact (mem_erase.mp member).2 same
  · rw [if_neg same]
    apply Option.ext
    intro v
    rw [find_eq_some, find_eq_some, mem_erase]
    exact and_iff_left same

/-- Every value replaced, with its key in sight. -/
def mapValues (m : OrderedMap κ α) (f : κ → α → α) : OrderedMap κ α :=
  ⟨m.entries.map fun entry => (entry.1, f entry.1 entry.2),
    List.pairwise_map.mpr (m.ordered.imp id)⟩

@[simp] theorem find_mapValues (f : κ → α → α) : (m.mapValues f).find k = (m.find k).map (f k) := by
  apply Option.ext
  intro w
  rw [find_eq_some, Option.map_eq_some_iff]
  constructor
  · intro member
    obtain ⟨⟨l, v⟩, old, eq⟩ := List.mem_map.mp member
    cases eq
    exact ⟨v, find_eq_some.mpr old, rfl⟩
  · rintro ⟨v, found, rfl⟩
    exact List.mem_map.mpr ⟨(k, v), find_eq_some.mp found, rfl⟩

@[simp] theorem find_empty : (empty : OrderedMap κ α).find k = none := rfl

end OrderedMap
end Gufo
