import Gufo.Prefix.Records

/-!
# How far the index knows a sequence

`CommonPrefixTokens` searches the tree, leaving out what cannot improve on the best
record so far. It finds what a scan of all records would find.
-/

namespace Gufo.Prefix
open Gufo.Radix

variable {published : Published} {s : Index}

/-- Every record of an identity. -/
def Index.records (s : Index) (identity : Execution.Identity) : List Record :=
  ((s.trees.find identity).map Tree.records).getD []

/-- A record with the input identity of the query at the record's boundary. -/
def PrefixQuery.knows (query : PrefixQuery) (r : Record) : Bool :=
  decide (query.inputAt r.boundary = some r.input)

/-- The longest common prefix of a query with the records that have its input identity. -/
def longestCommonPrefix (query : PrefixQuery) (records : List Record) : Nat :=
  ((records.filter query.knows).map fun r => common r.tokens query.tokens).foldr max 0

theorem foldr_max_eq {l : List Nat} {n : Nat} (bound : ∀ m ∈ l, m ≤ n) (reached : n = 0 ∨ n ∈ l) :
    l.foldr max 0 = n := by
  induction l generalizing n with
  | nil => simpa [eq_comm] using reached
  | cons m rest ih =>
    have here := bound m List.mem_cons_self
    have below : rest.foldr max 0 ≤ n := by
      clear ih reached here
      induction rest with
      | nil => exact Nat.zero_le n
      | cons k tail ih =>
        exact max_le (bound k (by simp)) (ih fun m' mem => bound m' (by simp at mem ⊢; tauto))
    rw [List.foldr_cons]
    refine le_antisymm (max_le here below) ?_
    rcases reached with rfl | mem
    · exact Nat.zero_le _
    · rcases List.mem_cons.mp mem with rfl | mem
      · exact le_max_left _ _
      · rw [ih (fun m' mem' => bound m' (List.mem_cons_of_mem _ mem')) (.inr mem)]
        exact le_max_right _ _

/-- The search of a tree is a scan of its records. -/
theorem longestAgreement_eq {t : Tree} (shaped : t.Shaped) (query : PrefixQuery) :
    longestAgreement query.knows query.tokens t.values t.forest =
      longestCommonPrefix query t.records := by
  obtain ⟨bound, reached⟩ : (∀ q ∈ t.forest.all, query.knows q.2 = true →
      common q.1 query.tokens ≤ longestAgreement query.knows query.tokens t.values t.forest) ∧ _ :=
    longestAgreement_spec t.values shaped.proper
  refine (foldr_max_eq (fun n mem => ?_) ?_).symm
  · obtain ⟨r, found, rfl⟩ := List.mem_map.mp mem
    obtain ⟨stored, known⟩ := List.mem_filter.mp found
    rcases mem_records.mp stored with root | ⟨path, below⟩
    · rw [shaped.root r root]
      exact Nat.zero_le _
    · rw [shaped.placed _ below]
      exact bound _ below known
  · refine reached.imp id fun ⟨⟨path, r⟩, below, known, eq⟩ => ?_
    have stored : r ∈ t.records := mem_records.mpr (.inr ⟨path, below⟩)
    refine List.mem_map.mpr ⟨r, List.mem_filter.mpr ⟨stored, known⟩, ?_⟩
    rw [← eq, shaped.placed _ below]

/-- `CommonPrefixTokens` is the longest common prefix with any record of the compatibility
identity whose input identity the query shares. -/
theorem commonPrefixTokens_spec (reach : Reachable published s) (query : PrefixQuery)
    (wellFormed : query.input.tokenCount = query.tokens.length) :
    commonPrefixTokens query s =
      .ok (longestCommonPrefix query (s.records query.compatibility)) := by
  unfold commonPrefixTokens Index.records
  rw [if_neg (not_not.mpr wellFormed)]
  cases tree : s.trees.find query.compatibility with
  | none => rfl
  | some t => exact congrArg Except.ok (longestAgreement_eq (reach.good.trees tree).shaped query)

/-- Of a longer record with the same input and a nearer one with another. -/
theorem commonPrefixTokens_spec_of_two : ∃ s : Index,
    Reachable (fun _ _ _ => none) s ∧
      commonPrefixTokens { compatibility := [7], tokens := [1, 2, 3], input := ⟨3, [9], []⟩ } s =
        .ok 2 := by
  have reach := ((Reachable.initial.step
    (@Step.register (fun _ _ _ => none) _ {} [7] [⟨1, .appendRows, 1, 4, 2, 0⟩] none _ rfl)).step
    (@Step.insertLive _ _ {} ⟨⟨0, 1⟩, [1, 2, 5, 6], [7], [9], [], true⟩ _ _ rfl)).step
    (@Step.insertLive _ _ {} ⟨⟨1, 1⟩, [1, 2, 3], [7], [8], [], true⟩ _ _ rfl)
  exact ⟨_, reach, (commonPrefixTokens_spec reach _ rfl).trans rfl⟩

end Gufo.Prefix
