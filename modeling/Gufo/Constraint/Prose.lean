import Gufo.Constraint.Tools

/-!
# Free text before the calls

The state of the automaton is how much of the marker the text ends with. It has read
all of the marker exactly when the marker ends the text for the first time.
-/

namespace Gufo.Constraint

section
variable {marker : List Byte}

/-! ## The beginnings of a marker that end a text -/

theorem longestMatch_le (candidate : List Byte) (n : Nat) :
    longestMatch marker candidate n ≤ n := by
  induction n with
  | zero => exact Nat.le_refl 0
  | succ n ih =>
    rw [longestMatch]
    split <;> omega

theorem longestMatch_ends (candidate : List Byte) (n : Nat) :
    marker.take (longestMatch marker candidate n) <:+ candidate := by
  induction n with
  | zero => exact List.nil_suffix
  | succ n ih =>
    rw [longestMatch]
    split
    · assumption
    · exact ih

theorem le_longestMatch {candidate : List Byte} {n m : Nat} (le : m ≤ n)
    (ends : marker.take m <:+ candidate) : m ≤ longestMatch marker candidate n := by
  induction n with
  | zero => exact le
  | succ n ih =>
    rw [longestMatch]
    split
    · exact le
    · rename_i no
      refine ih (Nat.le_of_lt_succ (Nat.lt_of_le_of_ne le ?_))
      rintro rfl
      exact no ends

/-- How much of the marker the text ends with. -/
def border (marker t : List Byte) : Nat := longestMatch marker t (min t.length marker.length)

theorem border_le (t : List Byte) : border marker t ≤ marker.length :=
  (longestMatch_le t _).trans (Nat.min_le_right ..)

theorem border_ends (t : List Byte) : marker.take (border marker t) <:+ t := longestMatch_ends t _

variable {t : List Byte}

theorem le_border {m : Nat} (le : m ≤ marker.length)
    (ends : marker.take m <:+ t) : m ≤ border marker t := by
  have short := ends.length_le
  rw [List.length_take, Nat.min_eq_left le] at short
  exact le_longestMatch (Nat.le_min.mpr ⟨short, le⟩) ends

/-- The same beginnings end both texts, so the longest is the same. -/
theorem border_congr {s t : List Byte}
    (same : ∀ m ≤ marker.length, marker.take m <:+ s ↔ marker.take m <:+ t) :
    border marker s = border marker t :=
  Nat.le_antisymm (le_border (border_le s) ((same _ (border_le s)).mp (border_ends s)))
    (le_border (border_le t) ((same _ (border_le t)).mpr (border_ends t)))

theorem concat_suffix {a b : Byte} {x s : List Byte} :
    x ++ [a] <:+ s ++ [b] ↔ a = b ∧ x <:+ s := by
  rw [← List.reverse_prefix, List.reverse_append, List.reverse_append, List.reverse_singleton,
    List.reverse_singleton, List.singleton_append, List.singleton_append, List.cons_prefix_cons,
    List.reverse_prefix]

theorem transition_border (some : border marker t < marker.length) (byte : Byte) :
    transition marker (border marker t) byte = border marker (t ++ [byte]) := by
  refine border_congr fun m le => ?_
  cases m with
  | zero => simp
  | succ m =>
    rw [List.take_succ_eq_append_getElem (Nat.lt_of_succ_le le), concat_suffix, concat_suffix]
    refine and_congr_right fun _ => ⟨fun inside => inside.trans (border_ends t), fun ends => ?_⟩
    have short := le_border (Nat.le_of_succ_le le) ends
    refine List.suffix_of_suffix_length_le ends (border_ends t) ?_
    rw [List.length_take, List.length_take]
    omega

/-- The marker does not occur. -/
def Free (marker t : List Byte) : Prop := ¬marker <:+: t

/-- The marker occurs at the end, and nowhere before. -/
def FirstAtEnd (marker t : List Byte) : Prop := marker <:+ t ∧ Free marker t.dropLast

theorem border_eq : border marker t = marker.length ↔ marker <:+ t := by
  constructor
  · intro all
    have := @border_ends marker t
    rwa [all, List.take_length] at this
  · intro ends
    refine Nat.le_antisymm (border_le t) (le_border (Nat.le_refl _) ?_)
    rwa [List.take_length]

theorem border_lt (free : Free marker t) :
    border marker t < marker.length :=
  Nat.lt_of_le_of_ne (border_le t) fun all => free (border_eq.mp all).isInfix

theorem free_concat {byte : Byte} (free : Free marker t) :
    Free marker (t ++ [byte]) ↔ border marker (t ++ [byte]) ≠ marker.length := by
  rw [Free, List.infix_concat_iff, ne_eq, border_eq]
  exact not_congr (or_iff_left free)

/-! ## The states -/

variable {g : JsonConstraint} {target : Option Nat} {base begun : Nat}

/-- Where a state goes with so much of the marker. -/
def next (marker : List Byte) (target : Option Nat) (base matched : Nat) : Nat :=
  if matched = marker.length then target.getD 0 else base + matched

/-- The class of the bytes that lead there. -/
def reads (marker : List Byte) (begun matched : Nat) (byte : Byte) : Bool :=
  decide (transition marker begun byte = matched)

/-- The rule of a state has the transitions that lead somewhere, each with its class. -/
structure IsState (g : JsonConstraint) (marker : List Byte) (target : Option Nat)
    (base begun : Nat) (rule : Rule) : Prop where
  sound : ∀ sequence ∈ rule, ∃ matched c,
    sequence = [.terminal c, .rule (next marker target base matched)] ∧
      g.classes[c]? = some (reads marker begun matched) ∧
      (matched = marker.length → target ≠ none)
  complete : ∀ byte matched, transition marker begun byte = matched →
    (matched = marker.length → target ≠ none) →
      ∃ c, [.terminal c, .rule (next marker target base matched)] ∈ rule ∧
        g.classes[c]? = some (reads marker begun matched)

/-- All states stand where they should. -/
def HasText (g : JsonConstraint) (marker : List Byte) (target : Option Nat) (base : Nat) : Prop :=
  ∀ begun < marker.length, ∃ rule, g.rules[base + begun]? = some ([] :: rule) ∧
    IsState g marker target base begun rule

theorem mem_pair {c id : Nat} {bits : Byte → Bool} (here : g.classes[c]? = some bits)
    {w : List Byte} :
    w ∈ language g [.terminal c, .rule id] ↔
      ∃ byte rest, w = byte :: rest ∧ bits byte = true ∧ rest ∈ language g [.rule id] := by
  rw [language_cons, Language.mem_mul]
  constructor
  · rintro ⟨u, first, rest, last, rfl⟩
    obtain ⟨byte, bit, rfl⟩ := (mem_language_terminal here).mp first
    exact ⟨byte, rest, rfl, bit, last⟩
  · rintro ⟨byte, rest, rfl, bit, last⟩
    exact ⟨_, (mem_language_terminal here).mpr ⟨byte, bit, rfl⟩, rest, last, rfl⟩

/-- A state accepts the end of the text, or reads a byte and goes on. -/
theorem mem_state (states : HasText g marker target base) (lt : begun < marker.length)
    {w : List Byte} :
    w ∈ language g [.rule (base + begun)] ↔ w = [] ∨ ∃ byte rest, w = byte :: rest ∧
      (transition marker begun byte = marker.length → target ≠ none) ∧
      rest ∈ language g [.rule (next marker target base (transition marker begun byte))] := by
  obtain ⟨rule, here, state⟩ := states begun lt
  rw [mem_language_rule here, List.exists_mem_cons_iff, language_nil, Language.mem_one]
  refine or_congr_right ⟨?_, ?_⟩
  · rintro ⟨sequence, mem, accepts⟩
    obtain ⟨matched, c, rfl, class_, goes⟩ := state.sound sequence mem
    obtain ⟨byte, rest, rfl, bit, last⟩ := (mem_pair class_).mp accepts
    obtain rfl : transition marker begun byte = matched := by simpa [reads] using bit
    exact ⟨byte, rest, rfl, goes, last⟩
  · rintro ⟨byte, rest, rfl, goes, last⟩
    obtain ⟨c, mem, class_⟩ := state.complete byte _ rfl goes
    exact ⟨_, mem, (mem_pair class_).mpr ⟨byte, rest, rfl, by simp [reads], last⟩⟩

/-- From a state on: the text stays free of the marker, or the marker comes up for the
first time and the target takes over. The induction is over the bytes still to come. -/
theorem text_language (states : HasText g marker target base)
    (free : Free marker t) {w : List Byte} :
    w ∈ language g [.rule (base + border marker t)] ↔ Free marker (t ++ w) ∨
      ∃ u v, w = u ++ v ∧ FirstAtEnd marker (t ++ u) ∧
        ∃ id ∈ target, v ∈ language g [.rule id] := by
  induction w generalizing t with
  | nil =>
    refine iff_of_true ((mem_state states (border_lt free)).mpr (.inl rfl)) (.inl ?_)
    rwa [List.append_nil]
  | cons byte w ih =>
    have lt := border_lt free
    rw [mem_state states lt]
    have shift : t ++ byte :: w = (t ++ [byte]) ++ w := by simp
    by_cases whole : border marker (t ++ [byte]) = marker.length
    · -- The marker is complete, so no longer text is free of it.
      have ends := border_eq.mp whole
      constructor
      · rintro (no | ⟨_, _, same, goes, last⟩)
        · cases no
        · cases same
          rw [transition_border lt] at goes last
          rw [next, if_pos whole] at last
          refine .inr ⟨[byte], w, rfl, ⟨ends, by simpa using free⟩, ?_⟩
          cases target with
          | none => exact absurd rfl (goes whole)
          | some id => exact ⟨id, rfl, last⟩
      · rintro (longer | ⟨u, v, same, ⟨again, before⟩, id, is, last⟩)
        · exact absurd (shift ▸ ends.isInfix.trans (List.infix_append' [] (t ++ [byte]) w)) longer
        · cases u with
          | nil => exact absurd (List.IsSuffix.isInfix (by simpa using again)) free
          | cons b u =>
            cases same
            rcases List.eq_nil_or_concat u with rfl | ⟨u', c, rfl⟩
            · refine .inr ⟨byte, v, rfl, fun _ no => ?_, ?_⟩
              · cases is.symm.trans no
              · rw [transition_border lt, next, if_pos whole, is]
                exact last
            · refine absurd ?_ before
              have : (t ++ byte :: (u' ++ [c])).dropLast = (t ++ [byte]) ++ u' := by
                rw [show t ++ byte :: (u' ++ [c]) = ((t ++ [byte]) ++ u') ++ [c] by simp,
                  List.dropLast_concat]
              rw [List.concat_eq_append, this]
              exact ends.isInfix.trans (List.infix_append' [] (t ++ [byte]) u')
    · have free' : Free marker (t ++ [byte]) := (free_concat free).mpr whole
      have step := @ih (t ++ [byte]) free'
      constructor
      · rintro (no | ⟨_, _, same, -, last⟩)
        · cases no
        · cases same
          rw [transition_border lt, next, if_neg whole] at last
          rcases step.mp last with longer | ⟨u, v, rfl, first, more⟩
          · exact .inl (shift ▸ longer)
          · exact .inr ⟨byte :: u, v, rfl, by simpa using first, more⟩
      · intro h
        refine .inr ⟨byte, w, rfl, fun all => absurd ((transition_border lt byte).symm.trans all)
          whole, ?_⟩
        rw [transition_border lt, next, if_neg whole]
        refine step.mpr ?_
        rcases h with longer | ⟨u, v, same, first, more⟩
        · exact .inl (shift ▸ longer)
        · cases u with
          | nil => exact absurd (List.IsSuffix.isInfix (by simpa using first.1)) free
          | cons b u =>
            cases same
            exact .inr ⟨u, v, rfl, by simpa using first, more⟩

end

end Gufo.Constraint
