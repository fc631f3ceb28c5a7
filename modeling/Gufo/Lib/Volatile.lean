import Gufo.Lib.Sums

/-!
# Directories before and after a crash

A name has one value now, and since the directory's last sync it may have had
others. A crash leaves any of them. A directory also lists every name it ever
had a file under, so that what is present can be scanned and measured.
-/

namespace Gufo.Volatile
open Gufo.Sums

section
variable {κ φ : Type}

/-- The file under a name, and the values the name had since the last sync. -/
structure Cell (φ : Type) where
  now : Option φ := none
  before : List (Option φ) := []

/-- What a crash can leave under the name. -/
def Cell.possible (c : Cell φ) : List (Option φ) := c.now :: c.before

structure Directory (κ φ : Type) where
  cells : κ → Cell φ := fun _ => {}
  names : List κ := []
  distinct : names.Nodup := by simp
  covers : ∀ k, (cells k).now ≠ none → k ∈ names := by simp

namespace Directory

/-- The file under a name. -/
def now (d : Directory κ φ) (k : κ) : Option φ := (d.cells k).now

/-- What a crash can leave under a name. -/
def possible (d : Directory κ φ) (k : κ) : List (Option φ) := (d.cells k).possible

/-- The names of the files present. -/
def present (d : Directory κ φ) : List κ := d.names.filter fun k => (d.now k).isSome

variable {d : Directory κ φ} {k : κ}

theorem mem_present : k ∈ d.present ↔ d.now k ≠ none := by
  simp only [present, List.mem_filter, ← Option.isSome_iff_ne_none]
  exact ⟨And.right, fun h => ⟨d.covers k (Option.isSome_iff_ne_none.mp h), h⟩⟩

theorem nodup_present (d : Directory κ φ) : d.present.Nodup := d.distinct.filter _

/-- Everything present becomes durable, and nothing else. -/
def sync (d : Directory κ φ) : Directory κ φ where
  cells k := ⟨(d.cells k).now, []⟩
  names := d.names
  distinct := d.distinct
  covers := d.covers

@[simp] theorem possible_sync (d : Directory κ φ) (k : κ) : d.sync.possible k = [d.now k] := rfl

theorem now_possible (d : Directory κ φ) (k : κ) : d.now k ∈ d.possible k := List.mem_cons_self

/-- Whatever happens, the name has this value. -/
def Fixed (d : Directory κ φ) (k : κ) (v : Option φ) : Prop := ∀ u ∈ d.possible k, u = v

theorem Fixed.now {v : Option φ} (h : d.Fixed k v) : d.now k = v :=
  h _ (d.now_possible k)

theorem fixed_sync (d : Directory κ φ) (k : κ) : d.sync.Fixed k (d.now k) := by
  intro u hu
  simpa using hu

theorem Fixed.sync {v : Option φ} (h : d.Fixed k v) :
    d.sync.Fixed k v :=
  h.now ▸ fixed_sync d k

/-- The size of everything present. -/
def size (w : φ → Nat) (d : Directory κ φ) : Nat :=
  total (fun k => ((d.now k).map w).getD 0) d.names

theorem size_sync (w : φ → Nat) (d : Directory κ φ) : d.sync.size w = d.size w := rfl

/-- One name's weight. -/
def weight (w : φ → Nat) (v : Option φ) : Nat := (v.map w).getD 0

/-! ## Crashes -/

/-- What a crash may make of a directory; `survives` says what it may make of a file. -/
def Crashes (survives : φ → φ → Prop) (d d' : Directory κ φ) : Prop :=
  ∀ k, (d'.cells k).before = [] ∧ ∃ v ∈ d.possible k, match v, d'.now k with
    | none, none => True
    | some f, some g => survives f g
    | _, _ => False

variable {survives : φ → φ → Prop} {d d' : Directory κ φ}

/-- A value that a crash left was possible before, up to what it did to the file. -/
theorem Crashes.survivor
    (h : Crashes survives d d') {g : φ} (left : d'.now k = some g) :
    ∃ f, some f ∈ d.possible k ∧ survives f g := by
  obtain ⟨-, v, possible_, outcome⟩ := h k
  rw [left] at outcome
  cases v with
  | none => exact outcome.elim
  | some f => exact ⟨f, possible_, outcome⟩

theorem Crashes.possible
    (h : Crashes survives d d') (k : κ) : d'.possible k = [d'.now k] := by
  have nothing := (h k).1
  simp [Directory.possible, Cell.possible, nothing, Directory.now]

/-- A fixed file is there after a crash. -/
theorem Crashes.fixed
    (h : Crashes survives d d') {f : φ} (fixed_ : d.Fixed k (some f)) :
    ∃ g, d'.now k = some g ∧ survives f g := by
  obtain ⟨-, v, possible_, outcome⟩ := h k
  have eq := fixed_ v possible_
  subst eq
  cases left : d'.now k with
  | none => rw [left] at outcome; exact outcome.elim
  | some g => rw [left] at outcome; exact ⟨g, rfl, outcome⟩

/-! ## Changes -/

variable [DecidableEq κ]

def withName (names : List κ) (k : κ) : List κ := if k ∈ names then names else k :: names

theorem mem_withName {names : List κ} {k j : κ} : j ∈ withName names k ↔ j = k ∨ j ∈ names := by
  unfold withName
  split
  · rename_i known
    exact ⟨.inr, fun h => h.elim (· ▸ known) id⟩
  · simp

theorem nodup_withName {names : List κ} (h : names.Nodup) (k : κ) : (withName names k).Nodup := by
  unfold withName
  split
  · exact h
  · rename_i unknown
    exact List.nodup_cons.mpr ⟨unknown, h⟩

/-- One cell replaced. -/
def set (d : Directory κ φ) (k : κ) (c : Cell φ) : Directory κ φ where
  cells j := if j = k then c else d.cells j
  names := withName d.names k
  distinct := nodup_withName d.distinct k
  covers j h := by
    rw [mem_withName]
    by_cases hj : j = k
    · exact .inl hj
    · rw [if_neg hj] at h
      exact .inr (d.covers j h)

/-- A name gets a file, or loses it, until the next sync only in memory. -/
def put (d : Directory κ φ) (k : κ) (v : Option φ) : Directory κ φ :=
  d.set k ⟨v, (d.cells k).now :: (d.cells k).before⟩

/-- The file under a name changes in place. -/
def amend (d : Directory κ φ) (k : κ) (f : φ → φ) : Directory κ φ :=
  d.set k ⟨(d.cells k).now.map f, (d.cells k).before⟩

@[simp] theorem now_put (d : Directory κ φ) (k j : κ) (v : Option φ) :
    (d.put k v).now j = if j = k then v else d.now j := by
  simp only [now, put, set]
  split <;> rfl

@[simp] theorem now_amend (d : Directory κ φ) (k j : κ) (f : φ → φ) :
    (d.amend k f).now j = if j = k then (d.now k).map f else d.now j := by
  simp only [now, amend, set]
  split <;> rfl

theorem possible_put (d : Directory κ φ) (k j : κ) (v : Option φ) :
    (d.put k v).possible j = if j = k then v :: d.possible k else d.possible j := by
  simp only [possible, put, set]
  split <;> rfl

theorem Fixed.put {k j : κ} {v w : Option φ} (h : d.Fixed j v)
    (other : j ≠ k) : (d.put k w).Fixed j v := by
  intro u hu
  rw [possible_put, if_neg other] at hu
  exact h u hu

theorem total_withName (v : κ → Nat) (names : List κ) (k : κ) (h : k ∉ names → v k = 0) :
    total v (withName names k) = total v names := by
  unfold withName
  split
  · rfl
  · rename_i unknown
    rw [total_cons, h unknown, Nat.zero_add]

/-- Over names that differ in one place the totals differ by that place. -/
theorem total_change {v u : κ → Nat} {names : List κ} (nodup : names.Nodup)
    (hk : k ∈ names) (same : ∀ j, j ≠ k → u j = v j) :
    total u names + v k = total v names + u k := by
  induction names with
  | nil => cases hk
  | cons a l ih =>
    obtain ⟨out, rest⟩ := List.nodup_cons.mp nodup
    rw [total_cons, total_cons]
    by_cases ha : a = k
    · subst ha
      have tail : total u l = total v l :=
        total_congr fun j hj => same j fun eq => out (eq ▸ hj)
      omega
    · have hk : k ∈ l := (List.mem_cons.mp hk).resolve_left fun eq => ha eq.symm
      have step := ih rest hk
      have head := same a ha
      omega

/-- One cell replaced changes the size by the difference. -/
theorem size_set (w : φ → Nat) (d : Directory κ φ) (k : κ) (c : Cell φ) :
    (d.set k c).size w + weight w (d.now k) = d.size w + weight w c.now := by
  have old : d.size w = total (fun j => weight w (d.now j)) (withName d.names k) := by
    refine (total_withName _ _ _ fun unknown => ?_).symm
    have absent : d.now k = none := by
      by_contra some_
      exact unknown (d.covers k some_)
    rw [absent]
    rfl
  have new : (d.set k c).size w =
      total (fun j => weight w (if j = k then c.now else d.now j)) (withName d.names k) := by
    refine total_congr fun j _ => ?_
    simp only [Directory.now, set, weight]
    split <;> rfl
  rw [old, new]
  have change := total_change (v := fun j => weight w (d.now j))
    (u := fun j => weight w (if j = k then c.now else d.now j)) (nodup_withName d.distinct k)
    (mem_withName.mpr (.inl rfl)) (fun j hj => by rw [if_neg hj])
  simpa using change

theorem size_put (w : φ → Nat) (d : Directory κ φ) (k : κ) (v : Option φ) :
    (d.put k v).size w + weight w (d.now k) = d.size w + weight w v := size_set w d k _

theorem size_amend (w : φ → Nat) (d : Directory κ φ) (k : κ) (f : φ → φ) :
    (d.amend k f).size w + weight w (d.now k) = d.size w + weight w ((d.now k).map f) :=
  size_set w d k _

end Directory

end

end Gufo.Volatile
