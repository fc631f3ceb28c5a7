import Gufo.Lib.Probing
import Mathlib.Data.List.GetD
import Mathlib.Data.List.Nodup
import Mathlib.Tactic.Ring

/-!
# The heads of the prompt lookup

An open-addressed table from a key to the end of its most recent occurrence. It grows before it
is more than half full, so every search ends.
-/

namespace Gufo.Speculative

open Probing

def kNone : Nat := 2 ^ 32 - 1
def kEmpty : Nat := 2 ^ 64 - 1

structure Heads where
  keys : List Nat
  values : List Nat
  size : Nat
  shift : Nat
deriving DecidableEq

namespace Heads

def new : Heads := ⟨[], [], 0, 64⟩

def held (t : Heads) (i : Nat) : Nat := t.keys.getD i kEmpty

/-- Fibonacci hashing: the top bits of the product. -/
def slot (t : Heads) (key : Nat) : Nat := (key * 0x9E3779B97F4A7C15 % 2 ^ 64) >>> t.shift

def next (t : Heads) (i : Nat) : Nat := (i + 1) &&& (t.keys.length - 1)

def probe (t : Heads) (key : Nat) : Nat :=
  Probing.probe kEmpty t.next t.held key t.keys.length (t.slot key)

/-- Puts a key that is not there into the first empty place. -/
def place (t : Heads) (key value : Nat) : Heads :=
  let j := Probing.probe kEmpty t.next t.held kEmpty t.keys.length (t.slot key)
  { t with keys := t.keys.set j key, values := t.values.set j value, size := t.size + 1 }

/-- One step of the loop over the old table. -/
def rehash (t : Heads) (entry : Nat × Nat) : Heads :=
  if entry.1 = kEmpty then t else t.place entry.1 entry.2

/-- `Grow`: the shift is one less for every halving of the capacity. -/
def grow (t : Heads) : Heads :=
  let capacity := if t.keys = [] then 1024 else 2 * t.keys.length
  (t.keys.zip t.values).foldl rehash
    ⟨List.replicate capacity kEmpty, List.replicate capacity 0, 0, 64 - Nat.log2 capacity⟩

/-- `Exchange`, with the previous value. -/
def exchange (t : Heads) (key value : Nat) : Heads × Nat :=
  let t := if t.keys.length < 2 * (t.size + 1) then t.grow else t
  let i := t.probe key
  if t.held i = kEmpty then
    ({ t with keys := t.keys.set i key, values := t.values.set i value, size := t.size + 1 }, kNone)
  else ({ t with values := t.values.set i value }, t.values.getD i 0)

def find (t : Heads) (key : Nat) : Nat :=
  if t.size = 0 then kNone
  else if t.held (t.probe key) = key then t.values.getD (t.probe key) 0
  else kNone

def clear (t : Heads) : Heads :=
  if t.size ≠ 0 then { t with keys := List.replicate t.keys.length kEmpty, size := 0 } else t

/-! ## The invariant -/

structure Valid (t : Heads) : Prop where
  capacity : t.keys = [] ∨ ∃ bits, t.keys.length = 2 ^ bits ∧ t.shift = 64 - bits
  values_length : t.values.length = t.keys.length
  size_eq : t.size = t.keys.countP (· != kEmpty)
  half : 2 * t.size ≤ t.keys.length
  found : Found kEmpty t.next t.slot t.held

/-- The table holds a value under a key. -/
def Holds (t : Heads) (key value : Nat) : Prop :=
  key ≠ kEmpty ∧ ∃ j, t.held j = key ∧ t.values.getD j 0 = value

section
variable {t : Heads} {key value : Nat} {i j : Nat}

theorem held_lt (h : t.held j ≠ kEmpty) : j < t.keys.length := by
  by_contra outside
  exact h (List.getD_eq_default _ _ (by omega))

theorem valid_new : Valid new :=
  ⟨.inl rfl, rfl, rfl, Nat.le_refl 0, fun _ h => absurd rfl h⟩

/-! ## Every search ends -/

theorem slot_lt {bits : Nat} (shift : t.shift = 64 - bits) (key : Nat) : t.slot key < 2 ^ bits := by
  unfold slot
  rw [shift, Nat.shiftRight_eq_div_pow, Nat.div_lt_iff_lt_mul (Nat.pow_pos (by omega)), ← pow_add]
  exact Nat.lt_of_lt_of_le (Nat.mod_lt _ (by omega)) (Nat.pow_le_pow_right (by omega) (by omega))

theorem next_iterate {bits : Nat} (length : t.keys.length = 2 ^ bits) (inside : i < 2 ^ bits)
    (n : Nat) : t.next^[n] i = (i + n) % 2 ^ bits := by
  induction n with
  | zero => exact (Nat.mod_eq_of_lt inside).symm
  | succ n ih =>
    rw [Function.iterate_succ_apply', ih, next, length, Nat.and_two_pow_sub_one_eq_mod,
      Nat.mod_add_mod, Nat.add_assoc]

/-- From any place every other one is reached. -/
theorem next_reaches {bits : Nat} (length : t.keys.length = 2 ^ bits) (inside : i < 2 ^ bits)
    (inside' : j < 2 ^ bits) : ∃ n ≤ t.keys.length, t.next^[n] i = j := by
  by_cases le : i ≤ j
  · refine ⟨j - i, by omega, ?_⟩
    rw [next_iterate length inside, show i + (j - i) = j by omega, Nat.mod_eq_of_lt inside']
  · refine ⟨j + 2 ^ bits - i, by omega, ?_⟩
    rw [next_iterate length inside, show i + (j + 2 ^ bits - i) = j + 2 ^ bits by omega,
      Nat.add_mod_right, Nat.mod_eq_of_lt inside']

theorem exists_empty (valid : Valid t) (some : t.keys ≠ []) :
    ∃ j < t.keys.length, t.held j = kEmpty := by
  by_contra none
  simp only [not_exists, not_and] at none
  have all : t.keys.countP (· != kEmpty) = t.keys.length := by
    rw [List.countP_eq_length]
    intro k mem
    obtain ⟨j, inside, rfl⟩ := List.getElem_of_mem mem
    have := none j inside
    rw [held, List.getD_eq_getElem _ _ inside] at this
    simpa using this
  have := valid.half
  have := List.length_pos_iff.mpr some
  have := valid.size_eq
  omega

/-- The search for a key from its slot on, and where it ends. -/
theorem probe_spec (valid : Valid t) (some : t.keys ≠ []) (key k : Nat) :
    Ends kEmpty t.next t.held k (t.slot key)
        (Probing.probe kEmpty t.next t.held k t.keys.length (t.slot key)) ∧
      Probing.probe kEmpty t.next t.held k t.keys.length (t.slot key) < t.keys.length := by
  obtain ⟨bits, length, shift⟩ := valid.capacity.resolve_left some
  obtain ⟨j, inside, free⟩ := exists_empty valid some
  obtain ⟨n, enough, reaches⟩ := next_reaches length (slot_lt shift key) (length ▸ inside)
  have ends := @probe_ends Nat kEmpty t.next t.held k (t.slot key) _ t.keys.length
    ⟨n, enough, .inl (reaches ▸ free)⟩
  refine ⟨ends, ?_⟩
  obtain ⟨n', last, -, -⟩ := ends
  rw [← last, next_iterate length (slot_lt shift key), length]
  exact Nat.mod_lt _ (Nat.pow_pos (by omega))

/-- What putting a new key into the empty place where its search ends changes. -/
theorem put_spec (valid : Valid t) (proper : key ≠ kEmpty)
    (ends : Ends kEmpty t.next t.held key (t.slot key) j) (inside : j < t.keys.length)
    (free : t.held j = kEmpty) (room : 2 * (t.size + 1) ≤ t.keys.length) :
    let t' : Heads :=
      { t with keys := t.keys.set j key, values := t.values.set j value, size := t.size + 1 }
    Valid t' ∧ ∀ k v, t'.Holds k v ↔ t.Holds k v ∨ k = key ∧ v = value := by
  intro t'
  have held_ : t'.held = Function.update t.held j key := by
    funext i
    by_cases at_ : i = j
    · subst at_
      simp [t', held, inside]
    · rw [Function.update_of_ne at_]
      simp [t', held, List.getD_eq_getElem?_getD, List.getElem?_set_ne (Ne.symm at_)]
  have next_ : t'.next = t.next := by
    funext i
    simp [t', next]
  have values_ : ∀ i, t'.values.getD i 0 = if i = j then value else t.values.getD i 0 := by
    intro i
    split
    · rename_i at_
      subst at_
      simp [t', valid.values_length, inside]
    · rename_i at_
      simp [t', List.getD_eq_getElem?_getD, List.getElem?_set_ne (Ne.symm at_)]
  refine ⟨⟨?_, ?_, ?_, ?_, ?_⟩, fun k v => ?_⟩
  · cases valid.capacity with
    | inl none => exact absurd inside (by rw [none]; exact Nat.not_lt_zero j)
    | inr some =>
      refine .inr ?_
      simp only [t', List.length_set]
      exact some
  · simp [t', valid.values_length]
  · have here : t.keys[j] = kEmpty := by
      rw [← free, held, List.getD_eq_getElem _ _ inside]
    have counted := @List.countP_set Nat (· != kEmpty) t.keys j key inside
    simp only [here, bne_self_eq_false, Bool.false_eq_true, if_false, bne_iff_ne, ne_eq, proper,
      not_false_eq_true, if_true, Nat.sub_zero] at counted
    simp only [t', valid.size_eq]
    exact counted.symm
  · simp only [t', List.length_set]
    exact room
  · rw [held_, next_]
    exact valid.found.put ends free
  · unfold Holds
    rw [held_]
    simp only [values_]
    constructor
    · rintro ⟨proper', i, holds, value_⟩
      by_cases at_ : i = j
      · subst at_
        rw [Function.update_self] at holds
        rw [if_pos rfl] at value_
        exact .inr ⟨holds.symm, value_.symm⟩
      · rw [Function.update_of_ne at_] at holds
        rw [if_neg at_] at value_
        exact .inl ⟨proper', i, holds, value_⟩
    · rintro (⟨proper', i, holds, value_⟩ | ⟨rfl, rfl⟩)
      · have at_ : i ≠ j := by
          rintro rfl
          exact proper' (holds.symm.trans free)
        exact ⟨proper', i, by rw [Function.update_of_ne at_, holds], by rw [if_neg at_, value_]⟩
      · exact ⟨proper, j, Function.update_self .., if_pos rfl⟩

/-- `place` adds a key that is not there. -/
theorem place_spec (valid : Valid t) (proper : key ≠ kEmpty) (absent : ∀ v, ¬t.Holds key v)
    (room : 2 * (t.size + 1) ≤ t.keys.length) :
    Valid (t.place key value) ∧
      ∀ k v, (t.place key value).Holds k v ↔ t.Holds k v ∨ k = key ∧ v = value := by
  have some : t.keys ≠ [] := List.ne_nil_of_length_pos (by omega)
  obtain ⟨ends, inside⟩ := probe_spec valid some key kEmpty
  have nowhere : ∀ i, t.held i ≠ key := fun i holds => absent _ ⟨proper, i, holds, rfl⟩
  exact put_spec valid proper (ends.of_absent nowhere) inside (ends.stops.elim id id) room

end

/-! ## The operations -/

section
variable {t : Heads} {key value : Nat}

/-- The loop over the old table adds its entries. -/
theorem rehash_all (l : List (Nat × Nat)) (valid : Valid t)
    (distinct : l.Pairwise fun a b => a.1 ≠ kEmpty → a.1 ≠ b.1)
    (fresh : ∀ e ∈ l, e.1 ≠ kEmpty → ∀ v, ¬t.Holds e.1 v)
    (room : 2 * (t.size + l.countP (·.1 != kEmpty)) ≤ t.keys.length) :
    Valid (l.foldl rehash t) ∧
      (∀ k v, (l.foldl rehash t).Holds k v ↔ t.Holds k v ∨ k ≠ kEmpty ∧ (k, v) ∈ l) ∧
      (l.foldl rehash t).keys.length = t.keys.length ∧
      (l.foldl rehash t).size = t.size + l.countP (·.1 != kEmpty) := by
  induction l generalizing t with
  | nil => exact ⟨valid, fun k v => by simp, rfl, rfl⟩
  | cons e l ih =>
    obtain ⟨apart, distinct⟩ := List.pairwise_cons.mp distinct
    rw [List.foldl_cons]
    by_cases none : e.1 = kEmpty
    · rw [rehash, if_pos none]
      have count : (e :: l).countP (·.1 != kEmpty) = l.countP (·.1 != kEmpty) :=
        List.countP_cons_of_neg (by simp [none])
      rw [count] at room ⊢
      obtain ⟨valid', holds, length, size⟩ :=
        ih valid distinct (fun e' mem => fresh e' (List.mem_cons_of_mem e mem)) room
      refine ⟨valid', fun k v => ?_, length, size⟩
      rw [holds, List.mem_cons]
      refine or_congr_right (and_congr_right fun proper => ⟨.inr, fun mem => mem.resolve_left ?_⟩)
      rintro rfl
      exact proper none
    · rw [rehash, if_neg none]
      have count : (e :: l).countP (·.1 != kEmpty) = l.countP (·.1 != kEmpty) + 1 :=
        List.countP_cons_of_pos (by simp [none])
      obtain ⟨placed, added⟩ := @place_spec t e.1 e.2 valid none
        (fresh e (List.mem_cons_self ..) none) (by omega)
      have length_ : (t.place e.1 e.2).keys.length = t.keys.length := List.length_set
      have size_ : (t.place e.1 e.2).size = t.size + 1 := rfl
      obtain ⟨valid', holds, length, size⟩ := ih placed distinct (fun e' mem proper v held => by
        cases (added _ _).mp held with
        | inl old => exact fresh e' (List.mem_cons_of_mem e mem) proper v old
        | inr new => exact apart e' mem none new.1.symm) (by omega)
      refine ⟨valid', fun k v => ?_, length.trans length_, by omega⟩
      rw [holds, added, List.mem_cons, or_assoc]
      refine or_congr_right ⟨?_, ?_⟩
      · rintro (⟨rfl, rfl⟩ | ⟨proper, mem⟩)
        · exact ⟨none, .inl rfl⟩
        · exact ⟨proper, .inr mem⟩
      · rintro ⟨proper, here | mem⟩
        · exact .inl ⟨congrArg Prod.fst here, congrArg Prod.snd here⟩
        · exact .inr ⟨proper, mem⟩

theorem holds_iff_mem (valid : Valid t) :
    t.Holds key value ↔ key ≠ kEmpty ∧ (key, value) ∈ t.keys.zip t.values := by
  refine and_congr_right fun proper => ⟨?_, fun mem => ?_⟩
  · rintro ⟨j, rfl, rfl⟩
    have inside := held_lt proper
    have inside' : j < t.values.length := valid.values_length ▸ inside
    refine List.mem_iff_getElem.mpr ⟨j, by rw [List.length_zip]; omega, ?_⟩
    rw [List.getElem_zip, held, List.getD_eq_getElem _ _ inside, List.getD_eq_getElem _ _ inside']
  · obtain ⟨j, inside, entry⟩ := List.mem_iff_getElem.mp mem
    rw [List.length_zip] at inside
    rw [List.getElem_zip, Prod.mk.injEq] at entry
    exact ⟨j, by rw [held, List.getD_eq_getElem _ _ (by omega), entry.1],
      by rw [List.getD_eq_getElem _ _ (by omega), entry.2]⟩

theorem Holds.size_pos (valid : Valid t) (holds : t.Holds key value) : 0 < t.size := by
  obtain ⟨proper, mem⟩ := (holds_iff_mem valid).mp holds
  rw [valid.size_eq]
  refine List.countP_pos_iff.mpr ⟨key, (List.of_mem_zip mem).1, ?_⟩
  rw [bne_iff_ne]
  exact proper

/-- `Grow` keeps what the table holds and makes room. -/
theorem grow_spec (valid : Valid t) :
    Valid t.grow ∧ (∀ k v, t.grow.Holds k v ↔ t.Holds k v) ∧
      2 * (t.grow.size + 1) ≤ t.grow.keys.length := by
  unfold grow
  simp only
  generalize capacity_ : (if t.keys = [] then 1024 else 2 * t.keys.length) = capacity
  have some : 2 * (t.size + 1) ≤ capacity ∧ ∃ bits, capacity = 2 ^ bits := by
    rw [← capacity_]
    have half := valid.half
    cases valid.capacity with
    | inl none =>
      rw [none] at half ⊢
      rw [if_pos rfl]
      rw [List.length_nil] at half
      exact ⟨by omega, 10, rfl⟩
    | inr power =>
      obtain ⟨bits, length, -⟩ := power
      have pos : 0 < 2 ^ bits := Nat.pow_pos (by omega)
      rw [if_neg (List.ne_nil_of_length_pos (by omega))]
      exact ⟨by omega, bits + 1, by rw [length, pow_succ, Nat.mul_comm]⟩
  obtain ⟨room, bits, power⟩ := some
  generalize fresh_ : (⟨List.replicate capacity kEmpty, List.replicate capacity 0, 0,
    64 - Nat.log2 capacity⟩ : Heads) = fresh
  have nothing : ∀ j, fresh.held j = kEmpty := by
    intro j
    rw [← fresh_, held]
    simp only [List.getD_eq_getElem?_getD, List.getElem?_replicate]
    split <;> rfl
  have length_ : fresh.keys.length = capacity := by rw [← fresh_, List.length_replicate]
  have size_ : fresh.size = 0 := by rw [← fresh_]
  have valid_ : Valid fresh := by
    refine ⟨.inr ⟨bits, length_.trans power, ?_⟩, ?_, ?_, by omega, fun j h => absurd (nothing j) h⟩
    · rw [← fresh_, power]
      simp
    · rw [← fresh_, List.length_replicate, List.length_replicate]
    · rw [← fresh_, List.countP_replicate]
      simp
  have none : ∀ k v, ¬fresh.Holds k v := by
    rintro k v ⟨proper, j, holds, -⟩
    exact proper (holds.symm.trans (nothing j))
  have count : (t.keys.zip t.values).countP (·.1 != kEmpty) = t.size := by
    have := @List.countP_map (Nat × Nat) Nat (· != kEmpty) Prod.fst (t.keys.zip t.values)
    rw [List.map_fst_zip (Nat.le_of_eq valid.values_length.symm)] at this
    rw [valid.size_eq, this]
    rfl
  have distinct : (t.keys.zip t.values).Pairwise fun a b => a.1 ≠ kEmpty → a.1 ≠ b.1 := by
    refine List.pairwise_iff_getElem.mpr fun i j inside inside' lt proper same => ?_
    rw [List.length_zip] at inside inside'
    rw [List.getElem_zip] at proper
    rw [List.getElem_zip, List.getElem_zip] at same
    have held_ : ∀ n (h : n < t.keys.length), t.held n = t.keys[n] := fun n h => by
      rw [held, List.getD_eq_getElem _ _ h]
    have := @Found.injective Nat kEmpty t.next t.slot t.held i valid.found j
      (by rw [held_ i (by omega), held_ j (by omega)]; exact same)
      (by rw [held_ i (by omega)]; exact proper)
    omega
  obtain ⟨valid', holds, length, size⟩ := rehash_all (t.keys.zip t.values) valid_ distinct
    (fun e _ _ v => none e.1 v) (by omega)
  refine ⟨valid', fun k v => ?_, by omega⟩
  rw [holds, holds_iff_mem valid]
  exact or_iff_right (none k v)

/-- `Exchange` puts the value under the key and gives the one that stood there. -/
theorem exchange_spec (valid : Valid t) (proper : key ≠ kEmpty) (value : Nat) :
    Valid (t.exchange key value).1 ∧
      (∀ k v, (t.exchange key value).1.Holds k v ↔ if k = key then v = value else t.Holds k v) ∧
      (t.Holds key (t.exchange key value).2 ∨
        (t.exchange key value).2 = kNone ∧ ∀ v, ¬t.Holds key v) := by
  unfold exchange
  simp only
  generalize grown_ : (if t.keys.length < 2 * (t.size + 1) then t.grow else t) = grown
  have grown : Valid grown ∧ (∀ k v, grown.Holds k v ↔ t.Holds k v) ∧
      2 * (grown.size + 1) ≤ grown.keys.length := by
    rw [← grown_]
    split
    · exact grow_spec valid
    · exact ⟨valid, fun _ _ => Iff.rfl, by omega⟩
  obtain ⟨valid_, holds_, room⟩ := grown
  have some : grown.keys ≠ [] := List.ne_nil_of_length_pos (by omega)
  obtain ⟨ends, inside⟩ := probe_spec valid_ some key key
  split
  · rename_i free
    obtain ⟨put, added⟩ := @put_spec grown key value _ valid_ proper ends inside free room
    have absent : ∀ v, ¬t.Holds key v := by
      intro v held
      obtain ⟨-, j, here, -⟩ := (holds_ _ _).mpr held
      exact valid_.found.absent proper ends free j here
    refine ⟨put, fun k v => ?_, .inr ⟨rfl, absent⟩⟩
    rw [probe, added, holds_]
    split
    · rename_i same
      subst same
      exact ⟨fun h => (h.resolve_left (absent v)).2, fun h => .inr ⟨rfl, h⟩⟩
    · rename_i other
      exact ⟨fun h => h.resolve_right fun new => other new.1, .inl⟩
  · rename_i taken
    have here : grown.held (grown.probe key) = key := ends.stops.resolve_left taken
    refine ⟨⟨valid_.capacity, ?_, valid_.size_eq, valid_.half, valid_.found⟩, fun k v => ?_,
      .inl ((holds_ _ _).mp ⟨proper, _, here, rfl⟩)⟩
    · simp only [List.length_set]
      exact valid_.values_length
    · have inside' : grown.probe key < grown.values.length := valid_.values_length ▸ inside
      rw [← holds_]
      by_cases same : k = key
      · subst same
        rw [if_pos rfl]
        constructor
        · rintro ⟨-, j, holds, rfl⟩
          have := valid_.found.injective (holds.trans here.symm) (holds ▸ proper)
          subst this
          simp [inside']
        · rintro rfl
          exact ⟨proper, grown.probe k, here, by simp [inside']⟩
      · rw [if_neg same]
        refine and_congr_right fun _ => exists_congr fun j => and_congr_right fun holds => ?_
        have other : grown.probe key ≠ j := by
          rintro rfl
          exact same (Eq.trans holds.symm here)
        simp [List.getElem?_set_ne other]

theorem find_spec (valid : Valid t) (proper : key ≠ kEmpty) :
    t.Holds key (t.find key) ∨ t.find key = kNone ∧ ∀ v, ¬t.Holds key v := by
  unfold find
  split
  · rename_i empty
    refine .inr ⟨rfl, fun v holds => ?_⟩
    exact Nat.ne_of_gt (holds.size_pos valid) empty
  · have half := valid.half
    obtain ⟨ends, -⟩ := probe_spec valid (List.ne_nil_of_length_pos (by omega)) key key
    split
    · rename_i here
      exact .inl ⟨proper, _, here, rfl⟩
    · rename_i elsewhere
      refine .inr ⟨rfl, fun v holds => ?_⟩
      obtain ⟨-, j, here, -⟩ := holds
      exact valid.found.absent proper ends (ends.stops.resolve_right elsewhere) j here

theorem clear_spec (valid : Valid t) : Valid t.clear ∧ ∀ k v, ¬t.clear.Holds k v := by
  unfold clear
  split
  · have nothing : ∀ (n j : Nat), (List.replicate n kEmpty).getD j kEmpty = kEmpty := by
      intro n j
      simp only [List.getD_eq_getElem?_getD, List.getElem?_replicate]
      split <;> rfl
    refine ⟨⟨?_, ?_, ?_, Nat.zero_le _, fun j h => absurd (nothing _ j) h⟩, ?_⟩
    · cases valid.capacity with
      | inl none => exact .inl (by rw [none, List.length_nil, List.replicate_zero])
      | inr some =>
        simp only [List.length_replicate]
        exact .inr some
    · simp [valid.values_length]
    · rw [List.countP_replicate]
      simp
    · rintro k v ⟨proper, j, holds, -⟩
      exact proper (Eq.trans holds.symm (nothing _ j))
  · rename_i empty
    simp only [ne_eq, Decidable.not_not] at empty
    refine ⟨valid, fun k v holds => ?_⟩
    exact Nat.ne_of_gt (holds.size_pos valid) empty

end

end Heads
end Gufo.Speculative
