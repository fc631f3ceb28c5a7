import Gufo.Lexeme.Bodies
import Gufo.Lexeme.Scalars

/-!
# What one byte leaves

`Inv` is what holds of a state that the matcher goes on with: it stands for the bytes
of the next character, and something may still follow. A byte either leads to such a
state again, or nothing may follow but the end.
-/

namespace Gufo.Lexeme
open Gufo.Regex Gufo.Constraint

section
variable {x : StringLexeme} {s : State} {accepts : List Nat → Prop} {begun : List Nat}
  {count : Nat}

theorem order_of_sound (sound : x.Sound) : x.minimum ≤ x.maximum := by
  have finishes := sound.finishes
  unfold Impl.CanFinish at finishes
  dsimp only at finishes
  split at finishes
  · cases finishes
  · omega

theorem maximum_large (sound : x.Sound) (counted : count ≤ x.minimum + 1)
    (unbounded : x.maximum = UINT32_MAX) : count < x.maximum := by
  have := sound.small
  rw [unbounded, UINT32_MAX]
  omega

/-- Another character is only possible below the maximum. -/
theorem body_room (sound : x.Sound) (le : count ≤ x.maximum)
    (capped : x.maximum = UINT32_MAX → count ≤ x.minimum) {later : List Nat}
    (body : x.Body accepts (count + 1) later) : count < x.maximum := by
  obtain ⟨cs, _, _, _, _, _, top⟩ := body
  rcases top with unbounded | bounded
  · exact maximum_large sound (by omega) unbounded
  · omega

/-- The number that `Character` keeps. -/
def StringLexeme.kept (x : StringLexeme) (count : Nat) : Nat :=
  if x.maximum = UINT32_MAX then min count x.minimum else count

theorem kept_le (le : count ≤ x.maximum) : x.kept count ≤ x.maximum := by
  unfold StringLexeme.kept
  split <;> omega

theorem kept_capped (unbounded : x.maximum = UINT32_MAX) : x.kept count ≤ x.minimum := by
  rw [StringLexeme.kept, if_pos unbounded]
  exact Nat.min_le_right ..

theorem body_kept {bytes : List Nat} :
    x.Body accepts (x.kept count) bytes ↔ x.Body accepts count bytes := by
  have fits : ∀ n, x.Fits (x.kept count) n ↔ x.Fits count n := by
    unfold StringLexeme.Fits StringLexeme.kept
    split <;> omega
  unfold StringLexeme.Body
  simp [fits]

/-- What a state says about the bytes read and about the characters to come. -/
inductive Reads (x : StringLexeme) (s : State) : (List Nat → Prop) → List Nat → Prop
  | general {begun : List Nat} (general : x.scalarOnly = false) (read : Begun s begun)
      (knows : x.regex.Knows s.dfa) : Reads x s (x.Accepted s.dfa) begun
  | scalar {accepts : List Nat → Prop} {begun : List Nat} (scalarOnly : x.scalarOnly = true)
      (read : Marked s begun) (dfa : s.dfa = some 0)
      (all : ∀ cs, (∀ cp ∈ cs, Scalar cp) → accepts cs) : Reads x s accepts begun

/-- The invariant of a state that the matcher goes on with. -/
structure Inv (x : StringLexeme) (s : State) (accepts : List Nat → Prop) (begun : List Nat) :
    Prop where
  reads : Reads x s accepts begun
  le : s.count ≤ x.maximum
  capped : x.maximum = UINT32_MAX → s.count ≤ x.minimum
  alive : ∃ rest, x.Body accepts s.count (begun ++ rest)
  proper : Proper begun

theorem counted_succ (capped : x.maximum = UINT32_MAX → s.count ≤ x.minimum)
    (room : s.count < x.maximum) : x.Counted (s.count + 1) :=
  ⟨room, fun unbounded => Nat.succ_le_succ (capped unbounded)⟩

/-! ## One more character -/

/-- The characters after one more. -/
def after (accepts : List Nat → Prop) (cp : Nat) (cs : List Nat) : Prop := accepts (cp :: cs)

theorem take_iff (sound : x.Sound) (le : s.count ≤ x.maximum)
    (capped : x.maximum = UINT32_MAX → s.count ≤ x.minimum) (cp : Nat) :
    s.count ≠ x.maximum ∧ x.CanTake s cp ↔
      ∃ later, x.Body (after (x.Accepted s.dfa) cp) (s.count + 1) later := by
  obtain ⟨E, _, e, longest, valid, compiled⟩ := sound.compiled
  have knows := knows_advance valid compiled s.dfa cp
  constructor
  · rintro ⟨room, take⟩
    exact (alive_iff sound (counted_succ capped (by omega)) knows).mp take
  · rintro ⟨later, body⟩
    have room := body_room sound le capped body
    exact ⟨by omega, (alive_iff sound (counted_succ capped room) knows).mpr ⟨later, body⟩⟩

/-- Where everything is accepted, there is always something that fits. -/
theorem exists_all (order : x.minimum ≤ x.maximum) (le : count ≤ x.maximum)
    (all : ∀ cs, (∀ cp ∈ cs, Scalar cp) → accepts cs) : ∃ rest, x.Body accepts count rest := by
  have scalars : ∀ cp ∈ List.replicate (x.minimum - count) 97, Scalar cp := by
    intro cp mem
    rw [List.eq_of_mem_replicate mem]
    exact .inl (by omega)
  refine exists_body scalars (all _ scalars) ?_
  unfold StringLexeme.Fits
  rw [List.length_replicate]
  omega

variable {b : Nat}

/-- `Character` goes on exactly where something may follow the character. -/
theorem character_spec (sound : x.Sound) (inv : Inv x s accepts begun) {cp own : Nat}
    (scalar : Scalar cp) (spelled : Spelling own (begun ++ [b]))
    (same : x.scalarOnly = false → own = cp) :
    (∃ next accepts', x.Character s cp = some next ∧ Inv x next accepts' [] ∧
      ∀ rest, x.Body accepts s.count (begun ++ b :: rest) ↔ x.Body accepts' next.count rest) ∨
    x.Character s cp = none ∧ ∀ rest, ¬x.Body accepts s.count (begun ++ b :: rest) := by
  obtain ⟨E, _, e, longest, valid, compiled⟩ := sound.compiled
  have step : ∀ rest, x.Body accepts s.count (begun ++ b :: rest) ↔
      x.Body (after accepts own) (s.count + 1) rest := by
    intro rest
    have := @body_cons x accepts s.count own (begun ++ [b]) rest spelled
    rwa [List.append_assoc] at this
  have notBad : ¬(0x10ffff < cp ∨ 0xd800 ≤ cp ∧ cp ≤ 0xdfff) := by
    rcases scalar with low | ⟨high, top⟩ <;> omega
  have empty : Proper [] := ⟨fun _ => spelling_nil, .inl rfl⟩
  by_cases full : s.count = x.maximum
  · refine .inr ⟨by rw [StringLexeme.Character, if_pos (.inl full)], fun rest body => ?_⟩
    have := body_room sound inv.le inv.capped ((step rest).mp body)
    omega
  have room : s.count < x.maximum := by
    have := inv.le
    omega
  have open_ : ¬(s.count = x.maximum ∨ 0x10ffff < cp ∨ 0xd800 ≤ cp ∧ cp ≤ 0xdfff) :=
    not_or.mpr ⟨full, notBad⟩
  cases inv.reads with
  | general general read knows =>
    obtain rfl := same general
    have take := take_iff sound inv.le inv.capped own
    by_cases finishes : x.CanTake s own
    · have value : x.Character s own = some { dfa := x.regex.Advance s.dfa own
                                              count := x.kept (s.count + 1) } := by
        unfold StringLexeme.Character
        rw [if_neg open_]
        simp only [general, Bool.not_false, Bool.true_and]
        rw [if_neg (by unfold StringLexeme.CanTake at finishes; simp [finishes])]
        rfl
      refine .inl ⟨_, _, value, ⟨.general general (.body rfl rfl)
        (knows_advance valid compiled s.dfa own), kept_le room, kept_capped, ?_, empty⟩,
        fun rest => ?_⟩
      · obtain ⟨later, body⟩ := take.mp ⟨full, finishes⟩
        exact ⟨later, body_kept.mpr body⟩
      · rw [step]
        exact body_kept.symm
    · refine .inr ⟨?_, fun rest body => ?_⟩
      · unfold StringLexeme.Character
        rw [if_neg open_]
        simp only [general, Bool.not_false, Bool.true_and]
        rw [if_pos (by unfold StringLexeme.CanTake at finishes; simpa using finishes)]
      · exact finishes (take.mpr ⟨rest, (step rest).mp body⟩).2
  | scalar scalarOnly read dfa all =>
    have all' : ∀ cs, (∀ c ∈ cs, Scalar c) → after accepts own cs := fun cs scalars =>
      all _ (List.forall_mem_cons.mpr ⟨spelled.scalar, scalars⟩)
    have value : x.Character s cp = some { dfa := s.dfa, count := x.kept (s.count + 1) } := by
      unfold StringLexeme.Character
      rw [if_neg open_]
      simp only [scalarOnly, Bool.not_true, Bool.false_and]
      rfl
    refine .inl ⟨_, _, value, ⟨.scalar scalarOnly (.body rfl) dfa all', kept_le room, kept_capped,
      exists_all (order_of_sound sound) (kept_le room) all', empty⟩, fun rest => ?_⟩
    rw [step]
    exact body_kept.symm

/-! ## One more byte -/

/-- What `Advance` answers after the bytes. -/
inductive Answers (x : StringLexeme) (accepts : List Nat → Prop) (count : Nat) (bytes : List Nat) :
    Match × Option State → Prop
  | further {next : State} {accepts' : List Nat → Prop} {begun : List Nat}
      (inv : Inv x next accepts' begun)
      (same : ∀ rest, x.Body accepts count (bytes ++ rest) ↔
        x.Body accepts' next.count (begun ++ rest)) :
      Answers x accepts count bytes (⟨true, false⟩, some next)
  | done {complete : Bool} {encoded : Option State}
      (ends : ∀ rest, x.Body accepts count (bytes ++ rest) ↔ complete = true ∧ rest = []) :
      Answers x accepts count bytes (⟨false, complete⟩, encoded)

variable {encoded : Option State}

theorem answers_none {bytes : List Nat}
    (none : ∀ rest, ¬x.Body accepts count (bytes ++ rest)) :
    Answers x accepts count bytes (⟨false, false⟩, encoded) :=
  .done fun rest => iff_of_false (none rest) fun no => Bool.false_ne_true no.1

/-- No string goes on with a byte that begins no character. -/
theorem body_closed (inv : Inv x s accepts begun) (open_ : begun = [] → b ≠ 34)
    (closed : ∀ cp, ¬Opens (begun ++ [b]) cp) (rest : List Nat) :
    ¬x.Body accepts s.count (begun ++ [b] ++ rest) := by
  intro body
  rw [List.append_assoc] at body
  obtain ⟨cp, more, _, spelled, _⟩ := (body_step inv.proper open_).mp body
  exact closed cp ⟨more, by rwa [List.append_assoc]⟩

theorem answers_close (sound : x.Sound) (inv : Inv x s accepts []) {complete : Bool}
    (value : complete = (decide (x.minimum ≤ s.count) && x.regex.Accepting s.dfa))
    :
    Answers x accepts s.count [34] (⟨false, complete⟩, encoded) := by
  have fits : x.Fits s.count 0 ↔ x.minimum ≤ s.count := by
    have := inv.le
    unfold StringLexeme.Fits
    omega
  have accepting : accepts [] ↔ x.regex.Accepting s.dfa = true := by
    cases inv.reads with
    | general => rfl
    | scalar scalarOnly _ dfa all =>
      refine iff_of_true (all [] nofun) ?_
      rw [dfa]
      exact sound.all scalarOnly [] nofun
  refine .done fun rest => ?_
  have quote : [34] ++ rest = 34 :: rest := rfl
  rw [quote, body_quote, fits, accepting, value, Bool.and_eq_true, decide_eq_true_eq, and_comm,
    and_comm (a := x.minimum ≤ s.count)]

theorem answers_character (sound : x.Sound) (inv : Inv x s accepts begun) {cp own : Nat}
    (scalar : Scalar cp) (spelled : Spelling own (begun ++ [b]))
    (same : x.scalarOnly = false → own = cp) :
    Answers x accepts s.count (begun ++ [b])
      (match x.Character s cp with
      | none => (⟨false, false⟩, encoded)
      | some next => (⟨true, false⟩, some next)) := by
  rcases character_spec sound inv scalar spelled same with ⟨next, _, value, inv', step⟩ |
    ⟨value, closed⟩
  · rw [value]
    refine .further inv' fun rest => ?_
    rw [List.append_assoc]
    exact step rest
  · rw [value]
    refine answers_none fun rest => ?_
    rw [List.append_assoc]
    exact closed rest

/-- The character that a string goes on with is one that `Pending` looks for. -/
theorem alive_of_pending (sound : x.Sound) (inv : Inv x s accepts begun)
    (general : x.scalarOnly = false) {next : State} (open_ : begun = [] → b ≠ 34)
    (mode : next.mode ≠ .body) (dfa : next.dfa = s.dfa) (count : next.count = s.count)
    (read : Begun next (begun ++ [b])) : x.Pending next = true ↔
      ∃ rest, x.Body accepts s.count (begun ++ [b] ++ rest) := by
  have accepted : accepts = x.Accepted s.dfa ∧ x.regex.Knows s.dfa := by
    cases inv.reads with
    | general _ _ knows => exact ⟨rfl, knows⟩
    | scalar scalarOnly => exact absurd (scalarOnly.symm.trans general) Bool.true_eq_false.mp
  obtain ⟨rfl, knows⟩ := accepted
  have take := take_iff (s := next) sound (count ▸ inv.le) (count ▸ inv.capped)
  rw [pending_iff sound general (dfa ▸ knows) read mode]
  constructor
  · rintro ⟨room, cp, ⟨more, spelled⟩, can⟩
    obtain ⟨later, body⟩ := (take cp).mp ⟨room, can⟩
    rw [count, dfa] at body
    refine ⟨more ++ later, ?_⟩
    rw [← List.append_assoc]
    exact (body_cons spelled).mpr body
  · rintro ⟨rest, body⟩
    rw [List.append_assoc] at body
    obtain ⟨cp, more, later, spelled, _, body⟩ := (body_step inv.proper open_).mp body
    have := (take cp).mpr ⟨later, by rw [count, dfa]; exact body⟩
    exact ⟨this.1, cp, ⟨more, by rwa [List.append_assoc]⟩, this.2⟩

theorem answers_become (inv : Inv x s accepts begun) {next : State}
    (mode : next.mode ≠ .body) (count : next.count = s.count)
    (reads : Reads x next accepts (begun ++ [b])) (part : ∀ cp, ¬Spelling cp (begun ++ [b]))
    (open_ : begun = [] → b ≠ 34)
    (pending : x.Pending next = true ↔ ∃ rest, x.Body accepts s.count (begun ++ [b] ++ rest))
    :
    Answers x accepts s.count (begun ++ [b])
      (if next.mode ≠ .body ∧ x.Pending next = false then (⟨false, false⟩, encoded)
      else (⟨true, false⟩, some next)) := by
  cases goes : x.Pending next with
  | false =>
    rw [if_pos ⟨mode, rfl⟩]
    refine answers_none fun rest body => ?_
    rw [pending.mpr ⟨rest, body⟩] at goes
    cases goes
  | true =>
    rw [if_neg (fun no => Bool.noConfusion no.2)]
    obtain ⟨rest, body⟩ := pending.mp goes
    have opens : ∃ cp, Opens (begun ++ [b]) cp := by
      by_contra closed
      exact body_closed inv open_ (not_exists.mp closed) rest body
    refine .further ⟨reads, count ▸ inv.le, count ▸ inv.capped, ⟨rest, ?_⟩, part, .inr opens⟩
      fun rest => ?_
    · rw [count]
      exact body
    · rw [count]

theorem advance_general (sound : x.Sound) (inv : Inv x s accepts begun)
    (general : x.scalarOnly = false) (read : Begun s begun) (knows : x.regex.Knows s.dfa)
    (same : accepts = x.Accepted s.dfa) (byte : Byte) :
    Answers x accepts s.count (begun ++ [byte.toNat]) (x.Advance (some s) byte) := by
  have follows := decode_follows general read byte.toNat
  unfold StringLexeme.Advance
  dsimp only
  cases decoded : x.decode s byte.toNat with
  | reject =>
    rw [decoded] at follows
    obtain ⟨open_, closed⟩ := follows
    exact answers_none (body_closed inv open_ closed)
  | close complete =>
    rw [decoded] at follows
    obtain ⟨rfl, quote, value⟩ := follows
    rw [quote]
    exact answers_close sound inv value
  | character cp =>
    rw [decoded] at follows
    obtain ⟨open_, spelled, closed⟩ := follows
    by_cases scalar : Scalar cp
    · exact answers_character sound inv scalar (spelled scalar) fun _ => rfl
    · have bad : x.Character s cp = none := by
        rw [StringLexeme.Character, if_pos]
        unfold Scalar at scalar
        omega
      dsimp only
      rw [bad]
      exact answers_none (body_closed inv open_ (closed scalar))
  | become next =>
    rw [decoded] at follows
    obtain ⟨open_, mode, dfa, count, read', part⟩ := follows
    have reads : Reads x next accepts (begun ++ [byte.toNat]) := by
      rw [same, ← dfa]
      exact .general general read' (dfa ▸ knows)
    exact answers_become inv mode count reads part open_
      (alive_of_pending sound inv general open_ mode dfa count read')

theorem advance_scalar (sound : x.Sound) (inv : Inv x s accepts begun)
    (scalarOnly : x.scalarOnly = true) (read : Marked s begun) (dfa : s.dfa = some 0)
    (all : ∀ cs, (∀ cp ∈ cs, Scalar cp) → accepts cs) (byte : Byte) :
    Answers x accepts s.count (begun ++ [byte.toNat]) (x.Advance (some s) byte) := by
  have marks := decode_marks scalarOnly read byte.toNat
  unfold StringLexeme.Advance
  dsimp only
  cases decoded : x.decode s byte.toNat with
  | reject =>
    rw [decoded] at marks
    obtain ⟨open_, closed⟩ := marks
    exact answers_none (body_closed inv open_ closed)
  | close complete =>
    rw [decoded] at marks
    obtain ⟨rfl, quote, value⟩ := marks
    rw [quote]
    exact answers_close sound inv value
  | character cp =>
    rw [decoded] at marks
    obtain ⟨_, scalar, own, spelled⟩ := marks
    exact answers_character sound inv scalar spelled fun general =>
      absurd (scalarOnly.symm.trans general) Bool.true_eq_false.mp
  | become next =>
    rw [decoded] at marks
    obtain ⟨open_, mode, dfa', count, read', part, cp, more, spelled⟩ := marks
    have reads := Reads.scalar scalarOnly read' (dfa'.trans dfa) all
    refine answers_become inv mode count reads part open_ ?_
    rw [StringLexeme.Pending, if_pos scalarOnly, decide_eq_true_eq, count]
    constructor
    · intro room
      obtain ⟨later, body⟩ := @exists_all x (after accepts cp) (s.count + 1)
        (order_of_sound sound) room fun cs scalars =>
          all _ (List.forall_mem_cons.mpr ⟨spelled.scalar, scalars⟩)
      refine ⟨more ++ later, ?_⟩
      rw [← List.append_assoc]
      exact (body_cons spelled).mpr body
    · rintro ⟨rest, body⟩
      rw [List.append_assoc] at body
      obtain ⟨_, _, _, _, _, body⟩ := (body_step inv.proper open_).mp body
      exact body_room sound inv.le inv.capped body

/-- One byte more leaves what it should leave. -/
theorem advance_spec (sound : x.Sound) (inv : Inv x s accepts begun) (byte : Byte) :
    Answers x accepts s.count (begun ++ [byte.toNat]) (x.Advance (some s) byte) := by
  cases inv.reads with
  | general general read knows => exact advance_general sound inv general read knows rfl byte
  | scalar scalarOnly read dfa all => exact advance_scalar sound inv scalarOnly read dfa all byte

end

end Gufo.Lexeme
