/-!
# Lists of keyed values

When any two values of one key must go together, it is enough to look at one key
at a time, and at one key to compare the first value with the rest.
-/

namespace Gufo.Keyed

section
variable {κ α : Type} (key : α → κ) (R : α → α → Prop)

/-- Any two values of one key are related. -/
def Together (l : List α) : Prop := l.Pairwise fun a b => key a = key b → R a b

variable {key R}

/-- Keys can be looked at one at a time. -/
theorem together_iff_filter [DecidableEq κ] {l : List α} :
    Together key R l ↔ ∀ k, (l.filter fun a => key a = k).Pairwise R := by
  constructor
  · intro h k
    refine (h.filter fun a => key a = k).imp_of_mem fun {a b} ha hb related => related ?_
    have ka : key a = k := by simpa using (List.mem_filter.mp ha).2
    have kb : key b = k := by simpa using (List.mem_filter.mp hb).2
    rw [ka, kb]
  · intro h
    induction l with
    | nil => exact List.Pairwise.nil
    | cons a l ih =>
      refine List.pairwise_cons.mpr ⟨fun b hb same => ?_, ih fun k => ?_⟩
      · have at_ := h (key a)
        rw [List.filter_cons_of_pos (by simp)] at at_
        exact List.rel_of_pairwise_cons at_ (List.mem_filter.mpr ⟨hb, by simp [same]⟩)
      · exact (h k).sublist ((List.sublist_cons_self a l).filter _)

/-- At one key the first value decides, when relatedness to it carries over. -/
theorem pairwise_iff_first {a : α} {l : List α} (carries : ∀ b c, R a b → R a c → R b c) :
    (a :: l).Pairwise R ↔ ∀ b ∈ l, R a b := by
  constructor
  · exact fun h b => List.rel_of_pairwise_cons h
  · intro h
    refine List.pairwise_cons.mpr ⟨h, ?_⟩
    have all : l.Pairwise fun b c => R a b ∧ R a c :=
      List.pairwise_of_forall_mem_list fun b hb c hc => ⟨h b hb, h c hc⟩
    exact all.imp fun both => carries _ _ both.1 both.2

/-- The values of one group and those of another go together. -/
def Across (key : α → κ) (R : α → α → Prop) (l m : List α) : Prop :=
  ∀ a ∈ l, ∀ b ∈ m, key a = key b → R a b

/-- A list of groups goes together when each does and any two do. -/
theorem together_flatMap {ι : Type} {f : ι → List α} {groups : List ι} :
    Together key R (groups.flatMap f) ↔
      (∀ g ∈ groups,
        Together key R (f g)) ∧ groups.Pairwise fun g h => Across key R (f g) (f h) := by
  unfold Together
  rw [List.flatMap, List.pairwise_flatten]
  simp [List.pairwise_map, Across]

end

end Gufo.Keyed
