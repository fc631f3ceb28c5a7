import Gufo.Constraint.Building
import Gufo.Lib.Decimal
import Mathlib.Algebra.Order.BigOperators.Group.List

/-!
# Unsigned intervals

`DigitsBetween` shares the leading digits of two strings of one length;
`UnsignedInterval` has a choice for each length, and one for all longer strings when
there is no upper end.
-/

namespace Gufo.Constraint
open Gufo.Decimal

/-- `Range(c, d)` of two digits. -/
def digitRange (first last : Nat) : Compile Symbol := range (48 + first) (48 + last)

/-- `Byte` of a digit. -/
def digit (d : Nat) : Symbol := byte (48 + d)

/-- The strings whose leading digit is between two others. -/
def middleChoice (l h size : Nat) : Compile Sequence :=
  if l + 1 < h then do
    let between ← digitRange (l + 1) (h - 1)
    let any ← digitRange 0 9
    return [← seq (between :: List.replicate size any)]
  else pure []

/-- For two strings of `size` digits. -/
def digitsBetween : Nat → List Nat → List Nat → Compile Symbol
  | size + 1, l :: low, h :: high =>
    if (l :: low).all (· = 0) ∧ (h :: high).all (· = 9) then do
      let any ← digitRange 0 9
      seq (List.replicate (size + 1) any)
    else if l = h then do
      seq [digit l, ← digitsBetween size low high]
    else do
      let lowest ← seq [digit l, ← digitsBetween size low (List.replicate size 9)]
      let middle ← middleChoice l h size
      let highest ← seq [digit h, ← digitsBetween size (List.replicate size 0) high]
      alt (lowest :: middle ++ [highest])
  | _, _, _ => seq []

/-- The ends of the strings of one length. -/
def firstOf (low : List Nat) (length : Nat) : List Nat :=
  if length = low.length then low else 1 :: List.replicate (length - 1) 0

def lastOf (high : Option (List Nat)) (length : Nat) : List Nat :=
  match high with
  | some h => if length = h.length then h else List.replicate length 9
  | none => List.replicate length 9

/-- The choices of the loop, for these lengths. -/
def intervalChoices (low : List Nat) (high : Option (List Nat)) : List Nat → Compile Sequence
  | [] => pure []
  | length :: lengths =>
    if before (firstOf low length) (lastOf high length) then do
      let choice ← digitsBetween length (firstOf low length) (lastOf high length)
      return choice :: (← intervalChoices low high lengths)
    else intervalChoices low high lengths

def lengths (low : List Nat) (high : Option (List Nat)) : List Nat :=
  List.range' low.length ((high.getD low).length + 1 - low.length)

/-- The choice for the strings longer than `low`. -/
def longer (low : List Nat) : Compile Symbol := do
  let first ← digitRange 1 9
  let any ← digitRange 0 9
  let more ← repeat_ (← digitRange 0 9)
  seq (first :: List.replicate low.length any ++ [more])

def withLonger (low : List Nat) (high : Option (List Nat)) (choices : Sequence) :
    Compile Sequence :=
  match high with
  | some _ => pure choices
  | none => do return choices ++ [← longer low]

def unsignedInterval (low : List Nat) (high : Option (List Nat)) : Compile Symbol := do
  let choices ← withLonger low high (← intervalChoices low high (lengths low high))
  if choices.isEmpty then
    throw (.empty "JSON Schema: numeric bounds describe an empty interval")
  else alt choices

/-! ## The strings between two ends -/

/-- The bytes of a digit string. -/
def spell (ds : List Nat) : List Byte := ds.map fun d => UInt8.ofNat (48 + d)

/-- The strings of `size` digits whose value is not outside the ends. -/
def between (size low high : Nat) : Language Byte :=
  those fun w =>
    ∃ ds, ds.length = size ∧ Digits ds ∧ low ≤ value ds ∧ value ds ≤ high ∧ w = spell ds

/-- How many rules `digitsBetween` appends at most. -/
def cost : Nat → List Nat → List Nat → Nat
  | size + 1, l :: low, h :: high =>
    if (l :: low).all (· = 0) ∧ (h :: high).all (· = 9) then 1
    else if l = h then cost size low high + 1
    else cost size low (List.replicate size 9) + cost size (List.replicate size 0) high + 4
  | _, _, _ => 1

theorem spell_cons (d : Nat) (ds : List Nat) : spell (d :: ds) = UInt8.ofNat (48 + d) :: spell ds :=
  rfl

theorem mem_digits {first last : Nat} (le : last < 10) {w : List Byte} :
    w ∈ bytes (48 + first) (48 + last) ↔
      ∃ d, first ≤ d ∧ d ≤ last ∧ w = [UInt8.ofNat (48 + d)] := by
  constructor
  · rintro ⟨b, low, high, rfl⟩
    refine ⟨b.toNat - 48, by omega, by omega, ?_⟩
    rw [Nat.add_sub_cancel' (by omega), UInt8.ofNat_toNat]
  · rintro ⟨d, low, high, rfl⟩
    have small : (UInt8.ofNat (48 + d)).toNat = 48 + d := by
      exact Nat.mod_eq_of_lt (by omega)
    exact ⟨_, by omega, by omega, rfl⟩

theorem mem_between {size low high : Nat} {w : List Byte} :
    w ∈ between size low high ↔
      ∃ ds, ds.length = size ∧ Digits ds ∧ low ≤ value ds ∧ value ds ≤ high ∧ w = spell ds :=
  Iff.rfl

theorem mem_all {size : Nat} {w : List Byte} :
    w ∈ (List.replicate size (bytes 48 57)).prod ↔
      ∃ ds, ds.length = size ∧ Digits ds ∧ w = spell ds := by
  induction size generalizing w with
  | zero =>
    constructor
    · rintro rfl
      exact ⟨[], rfl, digits_nil, rfl⟩
    · rintro ⟨ds, none, _, rfl⟩
      rw [List.length_eq_zero_iff.mp none]
      rfl
  | succ size ih =>
    constructor
    · rintro ⟨u, first, v, rest, rfl⟩
      obtain ⟨d, -, le, rfl⟩ := (@mem_digits 0 9 (by decide) u).mp first
      obtain ⟨ds, len, digits, rfl⟩ := ih.mp rest
      exact ⟨d :: ds, by simp [len], digits_cons.mpr ⟨by omega, digits⟩, rfl⟩
    · rintro ⟨ds, len, digits, rfl⟩
      cases ds with
      | nil => cases len
      | cons d ds =>
        obtain ⟨lt, digits⟩ := digits_cons.mp digits
        exact ⟨_, (@mem_digits 0 9 (by decide) _).mpr ⟨d, Nat.zero_le _, by omega, rfl⟩, _,
          ih.mpr ⟨ds, Nat.succ.inj len, digits, rfl⟩, rfl⟩

/-- One leading digit, and then a string between two ends. -/
theorem mem_single_between {d size low high : Nat} {w : List Byte} :
    w ∈ ({[UInt8.ofNat (48 + d)]} : Language Byte) * between size low high ↔
      ∃ ds, ds.length = size ∧ Digits ds ∧ low ≤ value ds ∧ value ds ≤ high ∧
        w = spell (d :: ds) := by
  constructor
  · rintro ⟨_, rfl, _, ⟨ds, len, digits, le, ge, rfl⟩, rfl⟩
    exact ⟨ds, len, digits, le, ge, rfl⟩
  · rintro ⟨ds, len, digits, le, ge, rfl⟩
    exact ⟨_, rfl, _, ⟨ds, len, digits, le, ge, rfl⟩, rfl⟩

variable {ds : List Nat}

theorem all_zero : ds.all (· = 0) = true ↔ ds = List.replicate ds.length 0 := by
  rw [List.eq_replicate_length]
  simp

theorem all_nine : ds.all (· = 9) = true ↔ ds = List.replicate ds.length 9 := by
  rw [List.eq_replicate_length]
  simp

/-- Everything between the zeros and the nines. -/
theorem between_full (size : Nat) :
    between size (value (List.replicate size 0)) (value (List.replicate size 9)) =
      (List.replicate size (bytes 48 57)).prod := by
  ext w
  rw [mem_between, mem_all]
  refine exists_congr fun ds => and_congr_right fun len => and_congr_right fun digits => ?_
  have := value_lt digits
  have := value_nines size
  rw [value_zeros]
  rw [len] at *
  constructor
  · exact fun h => h.2.2
  · exact fun h => ⟨Nat.zero_le _, by omega, h⟩

variable {low high : List Nat}

/-- Strings with one leading digit in common. -/
theorem between_same {d size : Nat} (lenl : low.length = size)
    (lenh : high.length = size) (lt : d < 10) (dl : Digits low) (dh : Digits high) :
    ({[UInt8.ofNat (48 + d)]} : Language Byte) * between size (value low) (value high) =
      between (size + 1) (value (d :: low)) (value (d :: high)) := by
  ext w
  rw [mem_single_between, mem_between]
  constructor
  · rintro ⟨ds, len, digits, le, ge, rfl⟩
    exact ⟨d :: ds, by simp [len], digits_cons.mpr ⟨lt, digits⟩,
      (value_cons_le (lenl.trans len.symm) dl digits).mpr (.inr ⟨rfl, le⟩),
      (value_cons_le (len.trans lenh.symm) digits dh).mpr (.inr ⟨rfl, ge⟩), rfl⟩
  · rintro ⟨ds, len, digits, le, ge, rfl⟩
    cases ds with
    | nil => cases len
    | cons e ds =>
      have len' := Nat.succ.inj len
      have digits' := (digits_cons.mp digits).2
      have le' := (value_cons_le (lenl.trans len'.symm) dl digits').mp le
      have ge' := (value_cons_le (len'.trans lenh.symm) digits' dh).mp ge
      obtain rfl : d = e := by omega
      exact ⟨ds, len', digits', by omega, by omega, rfl⟩

/-- Strings whose ends differ in the leading digit. -/
theorem mem_between_split {l h size : Nat} (lenl : low.length = size)
    (lenh : high.length = size) (lt : l < h) (hlt : h < 10) (dl : Digits low) (dh : Digits high)
    {w : List Byte} :
    w ∈ between (size + 1) (value (l :: low)) (value (h :: high)) ↔
      w ∈ ({[UInt8.ofNat (48 + l)]} : Language Byte) *
          between size (value low) (value (List.replicate size 9)) ∨
        w ∈ bytes (48 + (l + 1)) (48 + (h - 1)) * (List.replicate size (bytes 48 57)).prod ∨
        w ∈ ({[UInt8.ofNat (48 + h)]} : Language Byte) *
          between size (value (List.replicate size 0)) (value high) := by
  rw [mem_single_between, mem_single_between, mem_between, Language.mem_mul]
  have nines := value_nines size
  constructor
  · rintro ⟨ds, len, digits, le, ge, rfl⟩
    cases ds with
    | nil => cases len
    | cons d ds =>
      have len' := Nat.succ.inj len
      have digits' := (digits_cons.mp digits).2
      have le' := (value_cons_le (lenl.trans len'.symm) dl digits').mp le
      have ge' := (value_cons_le (len'.trans lenh.symm) digits' dh).mp ge
      have below := value_lt digits'
      rw [len'] at below
      rcases Nat.lt_trichotomy l d with above | rfl | under
      · rcases Nat.lt_trichotomy d h with inside | rfl | _
        · exact .inr (.inl ⟨_, (mem_digits (by omega)).mpr ⟨d, above, by omega, rfl⟩, _,
            mem_all.mpr ⟨ds, len', digits', rfl⟩, rfl⟩)
        · exact .inr (.inr ⟨ds, len', digits', by rw [value_zeros]; omega, by omega, rfl⟩)
        · omega
      · exact .inl ⟨ds, len', digits', by omega, by omega, rfl⟩
      · omega
  · rintro (⟨ds, len, digits, le, ge, rfl⟩ | ⟨u, first, v, rest, rfl⟩ |
      ⟨ds, len, digits, le, ge, rfl⟩)
    · exact ⟨l :: ds, by simp [len], digits_cons.mpr ⟨by omega, digits⟩,
        (value_cons_le (lenl.trans len.symm) dl digits).mpr (.inr ⟨rfl, le⟩),
        (value_cons_le (len.trans lenh.symm) digits dh).mpr (.inl lt), rfl⟩
    · obtain ⟨d, le, ge, rfl⟩ := (mem_digits (by omega)).mp first
      obtain ⟨ds, len, digits, rfl⟩ := mem_all.mp rest
      exact ⟨d :: ds, by simp [len], digits_cons.mpr ⟨by omega, digits⟩,
        (value_cons_le (lenl.trans len.symm) dl digits).mpr (.inl (by omega)),
        (value_cons_le (len.trans lenh.symm) digits dh).mpr (.inl (by omega)), rfl⟩
    · exact ⟨h :: ds, by simp [len], digits_cons.mpr ⟨by omega, digits⟩,
        (value_cons_le (lenl.trans len.symm) dl digits).mpr (.inl lt),
        (value_cons_le (len.trans lenh.symm) digits dh).mpr (.inr ⟨rfl, ge⟩), rfl⟩

theorem middle_empty {l h : Nat} (no : ¬l + 1 < h) (lt : l < h) (L : Language Byte)
    {w : List Byte} :
    w ∉ bytes (48 + (l + 1)) (48 + (h - 1)) * L := by
  rintro ⟨u, ⟨b, low, high, rfl⟩, v, _, rfl⟩
  omega

section
variable {g : JsonConstraint}

theorem denotes_replicate {symbol : Symbol} {L : Language Byte} (d : Denotes g symbol L)
    (size : Nat) :
    List.Forall₂ (Denotes g) (List.replicate size symbol) (List.replicate size L) := by
  induction size with
  | zero => exact .nil
  | succ size ih => exact .cons d ih

/-- A leading digit and the rest. -/
theorem adds_lead (ready : Ready g) {d : Nat} (lt : d < 10) {rest : Symbol} {L : Language Byte}
    (h : Denotes g rest L) :
    Adds g (seq [digit d, rest]) 1 fun h symbol =>
      Denotes h symbol ({[UInt8.ofNat (48 + d)]} * L) := by
  have both : List.Forall₂ (Denotes g) [digit d, rest] [{[UInt8.ofNat (48 + d)]}, L] :=
    .cons (denotes_byte ready (by omega)) (.cons h .nil)
  simpa using adds_seq ready both

/-- The middle choice, where the leading digits leave room for one. -/
theorem adds_middle (ready : Ready g) (l h size : Nat) :
    Adds g (middleChoice l h size) 1 fun i middle => ∃ Ls, List.Forall₂ (Denotes i) middle Ls ∧
      ∀ w, (∃ L ∈ Ls, w ∈ L) ↔ l + 1 < h ∧
        w ∈ bytes (48 + (l + 1)) (48 + (h - 1)) * (List.replicate size (bytes 48 57)).prod := by
  unfold middleChoice
  split
  · rename_i room
    refine .bind (n := 0) (k := 1) (adds_range ready _ _) fun i first _ ready one => ?_
    refine .bind (n := 0) (k := 1) (adds_range ready _ _) fun j any grown ready' all => ?_
    have both : List.Forall₂ (Denotes j) (first :: List.replicate size any)
        (bytes (48 + (l + 1)) (48 + (h - 1)) :: List.replicate size (bytes (48 + 0) (48 + 9))) :=
      .cons (one.keep ready.toClosed grown) (denotes_replicate all size)
    refine .bind (n := 1) (k := 0) (adds_seq ready' both) fun k symbol _ ready holds => ?_
    exact .pure ready ⟨_, .cons holds .nil, fun w => by simp [room]⟩
  · rename_i none
    exact .pure ready ⟨[], .nil, fun w => by simp [none]⟩

theorem adds_digitsBetween {size : Nat} (ready : Ready g)
    (lenl : low.length = size) (lenh : high.length = size) (dl : Digits low) (dh : Digits high)
    (le : value low ≤ value high) :
    Adds g (digitsBetween size low high) (cost size low high) fun h symbol =>
      Denotes h symbol (between size (value low) (value high)) := by
  induction size generalizing g low high with
  | zero =>
    rw [List.length_eq_zero_iff.mp lenl, List.length_eq_zero_iff.mp lenh]
    refine (adds_seq ready .nil).weaken le_rfl fun h symbol _ holds => ?_
    exact (between_full 0).symm ▸ holds
  | succ size ih =>
    match low, high, lenl, lenh with
    | l :: low, h :: high, lenl, lenh =>
      have lenl' := Nat.succ.inj lenl
      have lenh' := Nat.succ.inj lenh
      obtain ⟨lt, dl'⟩ := digits_cons.mp dl
      obtain ⟨ht, dh'⟩ := digits_cons.mp dh
      have order := (value_cons_le (lenl'.trans lenh'.symm) dl' dh').mp le
      rw [digitsBetween, cost]
      split
      · rename_i full
        have zeros := all_zero.mp full.1
        have nines := all_nine.mp full.2
        rw [lenl] at zeros
        rw [lenh] at nines
        rw [zeros, nines, between_full]
        refine .bind (n := 0) (k := 1) (adds_range ready _ _) fun i any _ ready all => ?_
        exact adds_seq ready (denotes_replicate all (size + 1))
      · split
        · rename_i same
          subst same
          have inner : value low ≤ value high := by omega
          rw [← between_same lenl' lenh' lt dl' dh']
          exact .bind (ih ready lenl' lenh' dl' dh' inner) fun i rest _ ready' holds =>
            adds_lead ready' lt holds
        · have less : l < h := by omega
          have zeros := digits_replicate (d := 0) (by decide) size
          have nines := digits_replicate (d := 9) (by decide) size
          have up : value low ≤ value (List.replicate size 9) := by
            have := value_lt dl'
            have := value_nines size
            rw [lenl'] at *
            omega
          have down : value (List.replicate size 0) ≤ value high := by
            rw [value_zeros]
            exact Nat.zero_le _
          refine Adds.weaken (n := cost size low (List.replicate size 9) + (1 + (1 +
            (cost size (List.replicate size 0) high + (1 + 1))))) ?_ (by omega) fun _ _ _ => id
          refine .bind (ih ready lenl' (List.length_replicate ..) dl' nines up)
            fun _ rest _ ready₀ below => ?_
          refine .bind (adds_lead ready₀ lt below) fun i lowest _ ready₁ one => ?_
          refine .bind (adds_middle ready₁ l h size) fun j middle grow₂ ready₂ two => ?_
          obtain ⟨Ls, spans, mid⟩ := two
          refine .bind (ih ready₂ (List.length_replicate ..) lenh' zeros dh' down)
            fun k rest grow₃ ready₃ above => ?_
          refine .bind (adds_lead ready₃ ht above) fun m highest grow₄ ready₄ three => ?_
          have all := List.rel_append (List.Forall₂.cons
            (one.keep ready₁.toClosed (grow₂.trans (grow₃.trans grow₄)))
            (keep_all ready₂.toClosed (grow₃.trans grow₄) spans)) (List.Forall₂.cons three .nil)
          refine (adds_alt ready₄ all).weaken le_rfl fun n symbol _ holds => ⟨holds.within, ?_⟩
          rw [holds.language]
          ext w
          rw [mem_those, mem_between_split lenl' lenh' less ht dl' dh']
          have room := mid w
          have none := fun no =>
            @middle_empty l h no less (List.replicate size (bytes 48 57)).prod w
          have between := and_iff_right_of_imp fun inside => not_not.mp fun no => none no inside
          simp only [List.mem_append, List.mem_cons, List.not_mem_nil, or_false, or_and_right,
            exists_or, exists_eq_left, room]
          rw [between, or_assoc]

/-! ## How many rules -/

theorem cost_full (size : Nat) : cost size (List.replicate size 0) (List.replicate size 9) = 1 := by
  cases size with
  | zero => rfl
  | succ size => simp [List.replicate_succ, cost]

theorem cost_nines (size : Nat) (low : List Nat) (len : low.length = size) (digits : Digits low) :
    cost size low (List.replicate size 9) ≤ 5 * size + 1 := by
  induction size generalizing low with
  | zero => simp [cost]
  | succ size ih =>
    cases low with
    | nil => cases len
    | cons l low =>
      have := ih low (Nat.succ.inj len) (digits_cons.mp digits).2
      rw [List.replicate_succ, cost, cost_full]
      split
      · omega
      · split <;> omega

theorem cost_zeros (size : Nat) (high : List Nat) (len : high.length = size) :
    cost size (List.replicate size 0) high ≤ 5 * size + 1 := by
  induction size generalizing high with
  | zero => simp [cost]
  | succ size ih =>
    cases high with
    | nil => cases len
    | cons h high =>
      have := ih high (Nat.succ.inj len)
      rw [List.replicate_succ, cost, cost_full]
      split
      · omega
      · split <;> omega

theorem cost_le (size : Nat) (low high : List Nat) (lenl : low.length = size)
    (lenh : high.length = size) (digits : Digits low) : cost size low high ≤ 10 * size + 6 := by
  induction size generalizing low high with
  | zero => simp [cost]
  | succ size ih =>
    match low, high, lenl, lenh with
    | l :: low, h :: high, lenl, lenh =>
      have digits' := (digits_cons.mp digits).2
      have := ih low high (Nat.succ.inj lenl) (Nat.succ.inj lenh) digits'
      have := cost_nines size low (Nat.succ.inj lenl) digits'
      have := cost_zeros size high (Nat.succ.inj lenh)
      rw [cost]
      split
      · omega
      · split <;> omega

theorem cost_whole (size : Nat) :
    cost (size + 1) (1 :: List.replicate size 0) (List.replicate (size + 1) 9) ≤ 6 := by
  rw [List.replicate_succ, cost]
  simp only [cost_full]
  split
  · omega
  · split <;> omega

/-! ## Intervals -/

/-- The canonical spellings of the numbers with a property. -/
def numerals (p : Nat → Prop) : Language Byte :=
  those fun w => ∃ n, p n ∧ w = spell (decimal n)

theorem canonical_cons {d : Nat} (pos : 0 < d) (lt : d < 10) (digits : Digits ds) :
    Canonical (d :: ds) := by
  refine ⟨nofun, digits_cons.mpr ⟨lt, digits⟩, fun _ => ?_⟩
  have : 1 * 10 ^ ds.length ≤ d * 10 ^ ds.length := Nat.mul_le_mul_right _ pos
  rw [value_cons, List.length_cons, Nat.add_sub_cancel]
  omega

variable {low : List Nat}

theorem canonical_firstOf (c : Canonical low) {length : Nat}
    (le : low.length ≤ length) :
    Canonical (firstOf low length) ∧ (firstOf low length).length = length := by
  unfold firstOf
  split
  · rename_i same
    exact ⟨c, same.symm⟩
  · exact ⟨canonical_cons (by decide) (by decide) (digits_replicate (by decide) _), by simp; omega⟩

variable {high : Option (List Nat)}

theorem digits_lastOf (digits : ∀ h ∈ high, Digits h) (length : Nat) :
    Digits (lastOf high length) ∧ (lastOf high length).length = length := by
  unfold lastOf
  cases high with
  | none => exact ⟨digits_replicate (by decide) _, List.length_replicate ..⟩
  | some h =>
    dsimp only
    split
    · rename_i same
      exact ⟨digits h rfl, same.symm⟩
    · exact ⟨digits_replicate (by decide) _, List.length_replicate ..⟩

/-- The strings of one length that the loop has a choice for. -/
def ofLength (low : List Nat) (high : Option (List Nat)) (length : Nat) : Language Byte :=
  between length (value (firstOf low length)) (value (lastOf high length))

theorem adds_intervalChoices (ready : Ready g)
    (c : Canonical low) (digits : ∀ h ∈ high, Digits h) {ls : List Nat}
    (long : ∀ length ∈ ls, low.length ≤ length) :
    Adds g (intervalChoices low high ls)
      (ls.map fun length => cost length (firstOf low length) (lastOf high length)).sum
      fun h choices => ∃ Ls, List.Forall₂ (Denotes h) choices Ls ∧
        ∀ w, (∃ L ∈ Ls, w ∈ L) ↔ ∃ length ∈ ls, w ∈ ofLength low high length := by
  induction ls generalizing g with
  | nil => exact .pure ready ⟨[], .nil, fun w => by simp⟩
  | cons length ls ih =>
    obtain ⟨here, later⟩ := List.forall_mem_cons.mp long
    obtain ⟨first, lenf⟩ := canonical_firstOf c here
    obtain ⟨last, lenl⟩ := digits_lastOf digits length
    have order := before_iff (lenf.trans lenl.symm) first.digits last
    rw [intervalChoices, List.map_cons, List.sum_cons]
    split
    · rename_i some
      refine .bind (adds_digitsBetween ready lenf lenl first.digits last (order.mp some))
        fun i choice _ ready one => ?_
      refine .bind (k := 0) (ih ready later) fun j choices grown ready' more => ?_
      obtain ⟨Ls, all, spec⟩ := more
      refine .pure ready' ⟨_, .cons (one.keep ready.toClosed grown) all, fun w => ?_⟩
      rw [List.exists_mem_cons_iff, List.exists_mem_cons_iff, spec w]
      rfl
    · rename_i none
      refine (ih ready later).weaken (Nat.le_add_left ..) fun i choices _ more => ?_
      obtain ⟨Ls, all, spec⟩ := more
      refine ⟨Ls, all, fun w => ?_⟩
      rw [List.exists_mem_cons_iff, spec w, or_iff_right]
      rintro ⟨ds, -, -, le, ge, -⟩
      exact none (order.mpr (le.trans ge))

theorem mem_kstar_digits {w : List Byte} :
    w ∈ KStar.kstar (bytes 48 57) ↔ ∃ ds, Digits ds ∧ w = spell ds := by
  rw [Language.kstar_eq_iSup_pow, Language.mem_iSup]
  constructor
  · rintro ⟨n, mem⟩
    rw [← List.prod_replicate] at mem
    obtain ⟨ds, -, digits, rfl⟩ := mem_all.mp mem
    exact ⟨ds, digits, rfl⟩
  · rintro ⟨ds, digits, rfl⟩
    refine ⟨ds.length, ?_⟩
    rw [← List.prod_replicate]
    exact mem_all.mpr ⟨ds, rfl, digits, rfl⟩

theorem spell_append (a b : List Nat) : spell (a ++ b) = spell a ++ spell b := List.map_append

theorem adds_longer (ready : Ready g) (some : 0 < low.length) :
    Adds g (longer low) 2 fun h symbol => Denotes h symbol
      (those fun w => ∃ ds, low.length < ds.length ∧ Canonical ds ∧ w = spell ds) := by
  refine .bind (n := 0) (k := 2) (adds_range ready _ _) fun i first _ ready one => ?_
  refine .bind (n := 0) (k := 2) (adds_range ready _ _) fun j any grow₁ ready₁ all => ?_
  refine .bind (n := 0) (k := 2) (adds_range ready₁ _ _) fun k last grow₂ ready₂ rest => ?_
  have nonempty : [] ∉ bytes (48 + 0) (48 + 9) := by
    rintro ⟨_, _, _, no⟩
    cases no
  refine .bind (n := 1) (k := 1) (adds_repeat ready₂ rest nonempty)
    fun m more grow₃ ready₃ star => ?_
  have parts : List.Forall₂ (Denotes m) (first :: List.replicate low.length any ++ [more])
      (bytes (48 + 1) (48 + 9) :: List.replicate low.length (bytes (48 + 0) (48 + 9)) ++
        [KStar.kstar (bytes (48 + 0) (48 + 9))]) :=
    List.rel_append (.cons (one.keep ready.toClosed (grow₁.trans (grow₂.trans grow₃)))
      (denotes_replicate (all.keep ready₁.toClosed (grow₂.trans grow₃)) _)) (.cons star .nil)
  refine (adds_seq ready₃ parts).weaken le_rfl fun n symbol _ holds => ⟨holds.within, ?_⟩
  rw [holds.language]
  ext w
  rw [mem_those, List.prod_append, List.prod_cons, List.prod_singleton, Language.mem_mul]
  constructor
  · rintro ⟨_, front, v, back, rfl⟩
    obtain ⟨u, lead, x, middle, rfl⟩ := Language.mem_mul.mp front
    obtain ⟨d, pos, le, rfl⟩ := (@mem_digits 1 9 (by decide) u).mp lead
    obtain ⟨ds, len, digits, rfl⟩ := mem_all.mp middle
    obtain ⟨es, digits', rfl⟩ := mem_kstar_digits.mp back
    refine ⟨d :: (ds ++ es), by simp; omega, canonical_cons pos (by omega) ?_, ?_⟩
    · exact fun x mem => (List.mem_append.mp mem).elim (digits x) (digits' x)
    · rw [spell_cons, spell_append]
      rfl
  · rintro ⟨ds, long, c, rfl⟩
    cases ds with
    | nil => cases long
    | cons d ds =>
      obtain ⟨lt, digits⟩ := digits_cons.mp c.digits
      have lead := c.leading (by omega)
      have below := value_lt digits
      rw [value_cons, List.length_cons, Nat.add_sub_cancel] at lead
      have pos : 0 < d := by
        rcases Nat.eq_zero_or_pos d with rfl | pos
        · omega
        · exact pos
      have split : ds = ds.take low.length ++ ds.drop low.length := (List.take_append_drop ..).symm
      refine ⟨spell (d :: ds.take low.length), ?_, spell (ds.drop low.length), ?_, ?_⟩
      · refine Language.mem_mul.mpr ⟨_, (@mem_digits 1 9 (by decide) _).mpr ⟨d, pos, by omega, rfl⟩,
          _, mem_all.mpr ⟨ds.take low.length, ?_, fun x mem => digits x (List.mem_of_mem_take mem),
            rfl⟩, rfl⟩
        simp at long ⊢
        omega
      · exact mem_kstar_digits.mpr ⟨_, fun x mem => digits x (List.mem_of_mem_drop mem), rfl⟩
      · rw [← spell_append, List.cons_append, ← split]

theorem le_firstOf (c : Canonical low) {length : Nat}
    (le : low.length ≤ length) : value low ≤ value (firstOf low length) := by
  rcases Nat.eq_or_lt_of_le le with same | longer
  · rw [firstOf, if_pos same.symm]
  · have pos := c.length_pos
    obtain ⟨first, len⟩ := canonical_firstOf c le
    have lead := first.leading (by omega)
    have grow : 10 ^ low.length ≤ 10 ^ (length - 1) := Nat.pow_le_pow_right (by decide) (by omega)
    have := c.lt
    rw [len] at lead
    omega

theorem firstOf_le {low ds : List Nat} (c : Canonical low) (cd : Canonical ds)
    (le : value low ≤ value ds) : value (firstOf low ds.length) ≤ value ds := by
  rw [firstOf]
  split
  · exact le
  · have len := c.length_le cd le
    have pos := c.length_pos
    have lead := cd.leading (by omega)
    rw [value_cons, List.length_replicate, value_zeros]
    omega

theorem le_lastOf (digits : Digits ds)
    (le : ∀ h ∈ high, value ds ≤ value h) : value ds ≤ value (lastOf high ds.length) := by
  have below := value_lt digits
  have nines := value_nines ds.length
  unfold lastOf
  cases high with
  | none =>
    dsimp only
    omega
  | some h =>
    dsimp only
    split
    · exact le h rfl
    · omega

theorem lastOf_le {h ds : List Nat} (c : Canonical h) (digits : Digits ds)
    (le : ds.length ≤ h.length) (last : value ds ≤ value (lastOf (some h) ds.length)) :
    value ds ≤ value h := by
  rcases Nat.eq_or_lt_of_le le with same | shorter
  · simpa [lastOf, same] using last
  · by_cases some : 1 < h.length
    · have lead := c.leading some
      have below := value_lt digits
      have grow : 10 ^ ds.length ≤ 10 ^ (h.length - 1) :=
        Nat.pow_le_pow_right (by decide) (by omega)
      omega
    · rw [List.length_eq_zero_iff.mp (by omega : ds.length = 0)]
      exact Nat.zero_le _

/-- A number is in the interval if its canonical string is chosen for its length. -/
theorem mem_ofLength (c : Canonical low)
    (ch : ∀ h ∈ high, Canonical h) {w : List Byte} :
    (∃ length ∈ lengths low high, w ∈ ofLength low high length) ↔
      ∃ ds, Canonical ds ∧ value low ≤ value ds ∧ (∀ h ∈ high, value ds ≤ value h) ∧
        ds.length ≤ (high.getD low).length ∧ w = spell ds := by
  simp only [lengths, List.mem_range'_1, ofLength, mem_between]
  constructor
  · rintro ⟨_, ⟨long, short⟩, ds, rfl, digits, le, ge, rfl⟩
    obtain ⟨first, len⟩ := canonical_firstOf c long
    have pos := c.length_pos
    have canonical : Canonical ds := by
      refine ⟨List.ne_nil_of_length_pos (by omega), digits, fun many => ?_⟩
      have lead := first.leading (by omega)
      rw [len] at lead
      exact lead.trans le
    refine ⟨ds, canonical, (le_firstOf c long).trans le, ?_, by omega, rfl⟩
    rintro h is
    cases is
    exact lastOf_le (ch h rfl) digits (by simp at short; omega) ge
  · rintro ⟨ds, canonical, le, ge, short, rfl⟩
    have := c.length_le canonical le
    exact ⟨ds.length, ⟨this, by omega⟩, ds, rfl, canonical.digits, firstOf_le c canonical le,
      le_lastOf canonical.digits ge, rfl⟩

/-! ## The budget of an interval -/

theorem sum_once {ls : List Nat} (nodup : ls.Nodup) (a c : Nat) :
    (ls.map fun l => if l = a then c else 0).sum ≤ c := by
  induction ls with
  | nil => simp
  | cons l ls ih =>
    obtain ⟨fresh, nodup⟩ := List.nodup_cons.mp nodup
    rw [List.map_cons, List.sum_cons]
    by_cases here : l = a
    · have none : (ls.map fun l => if l = a then c else 0).sum = 0 := by
        refine List.sum_eq_zero fun x mem => ?_
        obtain ⟨l', inRest, rfl⟩ := List.mem_map.mp mem
        exact if_neg fun same : l' = a => fresh ((here.trans same.symm).symm ▸ inRest)
      rw [if_pos here, none]
      omega
    · rw [if_neg here]
      exact (Nat.zero_add _).le.trans (ih nodup)

/-- Only the two ends of the loop need more than a few rules. -/
theorem cost_length (c : Canonical low)
    (digits : ∀ h ∈ high, Digits h) {length : Nat} (le : low.length ≤ length)
    (short : length ≤ 309) :
    cost length (firstOf low length) (lastOf high length) ≤
      6 + (if length = low.length then 3096 else 0) +
        if length = (high.getD low).length then 3096 else 0 := by
  obtain ⟨first, lenf⟩ := canonical_firstOf c le
  obtain ⟨last, lenl⟩ := digits_lastOf digits length
  have most := cost_le length _ _ lenf lenl first.digits
  by_cases lower : length = low.length
  · rw [if_pos lower]
    omega
  · by_cases upper : length = (high.getD low).length
    · rw [if_pos upper]
      omega
    · rw [if_neg lower, if_neg upper, firstOf, if_neg lower]
      have nines : lastOf high length = List.replicate length 9 := by
        cases high with
        | none => rfl
        | some h => exact if_neg upper
      obtain ⟨size, rfl⟩ : ∃ size, length = size + 1 := ⟨length - 1, by omega⟩
      rw [nines, Nat.add_sub_cancel]
      exact cost_whole size

theorem cost_interval (c : Canonical low)
    (digits : ∀ h ∈ high, Digits h) (short : (high.getD low).length ≤ 309) :
    ((lengths low high).map fun length =>
      cost length (firstOf low length) (lastOf high length)).sum ≤ 8052 := by
  have nodup : (lengths low high).Nodup := List.nodup_range'
  have few : (lengths low high).length ≤ 310 := by
    simp only [lengths, List.length_range']
    omega
  calc ((lengths low high).map fun length =>
        cost length (firstOf low length) (lastOf high length)).sum
      ≤ ((lengths low high).map fun length => 6 + (if length = low.length then 3096 else 0) +
          if length = (high.getD low).length then 3096 else 0).sum := by
        refine List.sum_le_sum fun length mem => ?_
        have bounds := List.mem_range'_1.mp mem
        exact cost_length c digits bounds.1 (by omega)
    _ = (lengths low high).length * 6 +
          ((lengths low high).map fun l => if l = low.length then 3096 else 0).sum +
          ((lengths low high).map fun l => if l = (high.getD low).length then 3096 else 0).sum := by
        simp
    _ ≤ 8052 := by
        have := sum_once nodup low.length 3096
        have := sum_once nodup (high.getD low).length 3096
        omega

theorem adds_withLonger (ready : Ready g)
    (some : 0 < low.length) {choices : Sequence} {Ls : List (Language Byte)}
    (all : List.Forall₂ (Denotes g) choices Ls) :
    Adds g (withLonger low high choices) 2 fun h more => ∃ Ms, List.Forall₂ (Denotes h) more Ms ∧
      ∀ w, (∃ L ∈ Ms, w ∈ L) ↔ (∃ L ∈ Ls, w ∈ L) ∨ high = none ∧
        ∃ ds, low.length < ds.length ∧ Canonical ds ∧ w = spell ds := by
  cases high with
  | some h => exact .pure ready ⟨Ls, all, fun w => by simp⟩
  | none =>
    refine .bind (k := 0) (adds_longer ready some) fun i symbol grown ready' holds => ?_
    refine .pure ready' ⟨_, List.rel_append (keep_all ready.toClosed grown all)
      (.cons holds .nil), fun w => ?_⟩
    simp [or_and_right, exists_or]

/-- The interval's symbol spells its numbers, of which there is one. -/
theorem adds_unsignedInterval (ready : Ready g)
    (c : Canonical low) (ch : ∀ h ∈ high, Canonical h) (le : ∀ h ∈ high, value low ≤ value h)
    (short : (high.getD low).length ≤ 309) :
    Adds g (unsignedInterval low high) 8055 fun h symbol => Denotes h symbol
      (numerals fun n => value low ≤ n ∧ ∀ h ∈ high, n ≤ value h) := by
  have digits : ∀ h ∈ high, Digits h := fun h is => (ch h is).digits
  have long : ∀ length ∈ lengths low high, low.length ≤ length :=
    fun length mem => (List.mem_range'_1.mp mem).1
  refine .bind (n := 8052) (k := 3) ((adds_intervalChoices ready c digits long).weaken
    (cost_interval c digits short) fun _ _ _ => id) fun i choices _ ready some => ?_
  obtain ⟨Ls, all, spec⟩ := some
  refine .bind (n := 2) (k := 1) (adds_withLonger ready c.length_pos all)
    fun j more _ ready some => ?_
  obtain ⟨Ms, all', spec'⟩ := some
  have denotes : ∀ w, (∃ L ∈ Ms, w ∈ L) ↔
      w ∈ numerals fun n => value low ≤ n ∧ ∀ h ∈ high, n ≤ value h := by
    intro w
    rw [spec' w, spec w, mem_ofLength c ch]
    constructor
    · rintro (⟨ds, canonical, le, ge, -, rfl⟩ | ⟨rfl, ds, longer, canonical, rfl⟩)
      · exact ⟨value ds, ⟨le, ge⟩, congrArg spell (canonical_iff.mp canonical)⟩
      · refine ⟨value ds, ⟨?_, nofun⟩, congrArg spell (canonical_iff.mp canonical)⟩
        by_contra less
        exact absurd (canonical.length_le c (by omega)) (by omega)
    · rintro ⟨n, ⟨le, ge⟩, rfl⟩
      have canonical := canonical_decimal n
      rw [← value_decimal n] at le ge
      by_cases long : (decimal n).length ≤ (high.getD low).length
      · exact .inl ⟨_, canonical, le, ge, long, rfl⟩
      · cases high with
        | none => exact .inr ⟨rfl, _, by simpa using long, canonical, rfl⟩
        | some h => exact absurd (canonical.length_le (ch h rfl) (ge h rfl)) long
  have nonempty : ¬more.isEmpty = true := by
    intro empty
    rw [List.isEmpty_iff.mp empty] at all'
    cases all'
    obtain ⟨L, mem, -⟩ := (denotes (spell (decimal (value low)))).mpr ⟨value low, ⟨le_rfl, le⟩, rfl⟩
    cases mem
  rw [if_neg nonempty]
  refine (adds_alt ready all').weaken le_rfl fun k symbol _ holds => ⟨holds.within, ?_⟩
  rw [holds.language]
  ext w
  exact denotes w

end

end Gufo.Constraint
