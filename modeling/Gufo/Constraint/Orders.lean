import Gufo.Constraint.Building

/-!
# Arguments in any order

`orders` is what native arguments may spell: words of distinct members in any order,
every needed one among them. It satisfies one equation, by the member that comes first.
An argument set on a stack satisfies the same one: its members leave the used
parameters as they are, and it clears them when it closes.
-/

namespace Gufo.Constraint

section
variable {L : Nat → Language Byte} {unused : Finset Nat} {needed : Nat → Prop}

/-- Words of distinct unused members in any order, every needed one among them. -/
def orders (L : Nat → Language Byte) (unused : Finset Nat) (needed : Nat → Prop) :
    Language Byte :=
  those fun w => ∃ order : List Nat, order.Nodup ∧ (∀ i ∈ order, i ∈ unused) ∧
    (∀ i ∈ unused, needed i → i ∈ order) ∧ w ∈ (order.map L).prod

theorem mem_orders {w : List Byte} :
    w ∈ orders L unused needed ↔
      (∃ i ∈ unused, w ∈ L i * orders L (unused.erase i) needed) ∨
        (∀ i ∈ unused, ¬needed i) ∧ w = [] := by
  constructor
  · rintro ⟨order, nodup, inside, all, mem⟩
    cases order with
    | nil => exact .inr ⟨fun i free need => absurd (all i free need) List.not_mem_nil, mem⟩
    | cons i order =>
      obtain ⟨first, nodup⟩ := List.nodup_cons.mp nodup
      obtain ⟨free, inside⟩ := List.forall_mem_cons.mp inside
      obtain ⟨u, here, v, later, rfl⟩ := Language.mem_mul.mp mem
      refine .inl ⟨i, free, Language.append_mem_mul here
        ⟨order, nodup, fun j mem => ?_, fun j mem need => ?_, later⟩⟩
      · exact Finset.mem_erase.mpr ⟨fun same => first (same ▸ mem), inside j mem⟩
      · obtain ⟨other, free⟩ := Finset.mem_erase.mp mem
        exact (List.mem_cons.mp (all j free need)).resolve_left other
  · rintro (⟨i, free, mem⟩ | ⟨none, rfl⟩)
    · obtain ⟨u, here, v, ⟨order, nodup, inside, all, later⟩, rfl⟩ := Language.mem_mul.mp mem
      refine ⟨i :: order, List.nodup_cons.mpr ⟨fun mem => ?_, nodup⟩, List.forall_mem_cons.mpr
        ⟨free, fun j mem => Finset.mem_of_mem_erase (inside j mem)⟩, fun j mem need => ?_,
        Language.append_mem_mul here later⟩
      · exact Finset.notMem_erase i unused (inside i mem)
      · by_cases same : j = i
        · exact List.mem_cons.mpr (.inl same)
        · exact List.mem_cons_of_mem _ (all j (Finset.mem_erase.mpr ⟨same, mem⟩) need)
    · exact ⟨[], .nil, nofun, fun i mem need => absurd need (none i mem), rfl⟩

theorem mem_orders_mul {K : Language Byte} {w : List Byte} :
    w ∈ orders L unused needed * K ↔
      (∃ i ∈ unused, w ∈ L i * (orders L (unused.erase i) needed * K)) ∨
        (∀ i ∈ unused, ¬needed i) ∧ w ∈ K := by
  constructor
  · rintro ⟨u, mem, v, below, rfl⟩
    rcases mem_orders.mp mem with ⟨i, free, more⟩ | ⟨none, rfl⟩
    · refine .inl ⟨i, free, ?_⟩
      rw [← mul_assoc]
      exact Language.append_mem_mul more below
    · exact .inr ⟨none, below⟩
  · rintro (⟨i, free, mem⟩ | ⟨none, mem⟩)
    · rw [← mul_assoc] at mem
      obtain ⟨u, first, v, below, rfl⟩ := Language.mem_mul.mp mem
      exact ⟨u, mem_orders.mpr (.inl ⟨i, free, first⟩), v, below, rfl⟩
    · exact ⟨[], mem_orders.mpr (.inr ⟨none, rfl⟩), w, mem, rfl⟩

end

/-! ## Used bits -/

/-- The members whose bit is not set. -/
def unused (n : Nat) (bit : Nat → Bool) : Finset Nat :=
  (Finset.range n).filter fun i => bit i = false

theorem mem_unused {n i : Nat} {bit : Nat → Bool} : i ∈ unused n bit ↔ i < n ∧ bit i = false := by
  simp [unused]

theorem unused_mark {n i : Nat} {bit marked : Nat → Bool}
    (spec : ∀ j, marked j = (bit j || decide (j = i))) :
    unused n marked = (unused n bit).erase i := by
  ext j
  rw [mem_unused, Finset.mem_erase, mem_unused, spec, Bool.or_eq_false_iff, decide_eq_false_iff_not]
  tauto

theorem Words.bit_mark {words : Words} {i : Nat} (room : i / 64 < words.length) (j : Nat) :
    (words.mark i).bit j = (words.bit j || decide (j = i)) := by
  unfold Words.bit Words.mark
  by_cases same : i / 64 = j / 64
  · rw [← same, List.getElem?_modify_eq, List.getElem?_eq_getElem room]
    have place : j % 64 = i % 64 ↔ j = i := by omega
    simp [Nat.mod_lt, place]
  · rw [List.getElem?_modify_ne _ _ same]
    have other : j ≠ i := fun equal => same (by rw [equal])
    simp [other]

@[simp]
theorem Words.length_mark (words : Words) (i : Nat) : (words.mark i).length = words.length := by
  simp [Words.mark]

theorem Words.bit_zero (n i : Nat) : Words.bit (List.replicate n 0) i = false := by
  unfold Words.bit
  rw [List.getElem?_replicate]
  split <;> simp

variable {set : ArgumentSet}

theorem satisfied_iff {used : Words} :
    set.satisfied used = true ↔ ∀ i, set.required.bit i = true → used.bit i = true := by
  unfold ArgumentSet.satisfied
  simp only [List.all_eq_true, Prod.forall, List.mem_zipIdx_iff_getElem?, decide_eq_true_eq,
    Words.bit]
  constructor
  · intro all i need
    cases here : set.required[i / 64]? with
    | none => simp [here] at need
    | some word =>
      rw [here] at need
      have := congrArg (·.getLsbD (i % 64)) (all word (i / 64) here)
      simp only [BitVec.getLsbD_and] at this
      rw [Option.getD_some] at need
      rw [need, Bool.and_true] at this
      exact this
  · intro all word k here
    refine BitVec.eq_of_getLsbD_eq fun j lt => ?_
    have := all (k * 64 + j)
    rw [show (k * 64 + j) / 64 = k by omega, show (k * 64 + j) % 64 = j by omega, here] at this
    rw [BitVec.getLsbD_and]
    cases bit : word.getLsbD j with
    | false => simp
    | true => rw [this bit, Bool.and_true]

/-! ## Rules without argument sets -/

def Symbol.Plain (P : Nat → Prop) : Symbol → Prop
  | rule id => P id
  | arguments _ => False
  | _ => True

/-- From the rules with `P` no argument set is reached. -/
def Plain (P : Nat → Prop) (g : JsonConstraint) : Prop :=
  ∀ id, P id → ∃ rule, g.rules[id]? = some rule ∧
    ∀ sequence ∈ rule, ∀ symbol ∈ sequence, symbol.Plain P

section
variable {P : Nat → Prop} {g : JsonConstraint}

theorem Plain.keep {h : JsonConstraint} (plain : Plain P g) (e : Embeds {} g h) : Plain P h := by
  intro id p
  obtain ⟨rule, here, inside⟩ := plain id p
  refine ⟨rule, ?_, inside⟩
  rw [← Rule.relocate_zero rule]
  exact e.rules here

theorem Plain.pushed (plain : Plain P g) {id : Nat} {rule : Rule} {sequence symbols : Sequence}
    (all : ∀ symbol ∈ Symbol.rule id :: symbols, symbol.Plain P) (here : g.rules[id]? = some rule)
    (mem : sequence ∈ rule) : ∀ symbol ∈ sequence ++ symbols, symbol.Plain P := by
  obtain ⟨top, below⟩ := List.forall_mem_cons.mp all
  obtain ⟨_, here', inside⟩ := plain id top
  cases here.symm.trans here'
  exact List.forall_mem_append.mpr ⟨inside sequence mem, below⟩

variable {below : Sequence} {used : Words}

/-- Plain symbols leave the used parameters for what is below. -/
theorem Accepts.carry (plain : Plain P g) {s : Stack} {u v : List Byte} (h : Accepts g s u)
    (all : ∀ symbol ∈ s.symbols, symbol.Plain P) (settled : s.Settled)
    (rest : Accepts g ⟨below, [], used⟩ v) :
    Accepts g ⟨s.symbols ++ below, s.lexeme, used⟩ (u ++ v) := by
  induction h with
  | empty text words =>
    obtain rfl | ⟨_, _, no⟩ := settled.lexeme
    · exact rest
    · cases no
  | rule here mem _ ih =>
    refine .rule here mem ?_
    have := ih (plain.pushed all here mem) (settled.rule _)
    rwa [List.append_assoc] at this
  | choose | close => exact (all _ (List.mem_cons_self ..)).elim
  | terminal here bit _ ih =>
    exact .terminal here bit (ih (List.forall_mem_cons.mp all).2 settled.terminal)
  | spell here allowed more _ ih =>
    exact .spell here allowed more (ih all ⟨.inr ⟨_, _, rfl⟩, settled.used⟩)
  | spelled here allowed whole _ ih =>
    exact .spelled here allowed whole (ih (List.forall_mem_cons.mp all).2 settled.spelled)

/-- A run cut where the plain symbols are read. -/
def Cut (g : JsonConstraint) (symbols : Sequence) (text : List Byte) (below : Sequence)
    (used : Words) (w : List Byte) : Prop :=
  ∃ u v, w = u ++ v ∧ Accepts g ⟨symbols, text, []⟩ u ∧ Accepts g ⟨below, [], used⟩ v

theorem cut_top {symbols : Sequence} {text w : List Byte}
    (settled : Stack.Settled ⟨symbols, text, []⟩) (h : Accepts g ⟨symbols ++ below, text, used⟩ w)
    (go : ∀ symbol rest, symbols = symbol :: rest → Cut g symbols text below used w) :
    Cut g symbols text below used w := by
  cases symbols with
  | nil =>
    obtain rfl | ⟨_, _, no⟩ := settled.lexeme
    · exact ⟨[], w, rfl, .empty _ _, h⟩
    · cases no
  | cons symbol rest => exact go symbol rest rfl

theorem Accepts.carried (plain : Plain P g) {symbols : Sequence} {text w : List Byte}
    (h : Accepts g ⟨symbols ++ below, text, used⟩ w) (all : ∀ symbol ∈ symbols, symbol.Plain P)
    (settled : Stack.Settled ⟨symbols, text, []⟩) : Cut g symbols text below used w := by
  generalize same : (⟨symbols ++ below, text, used⟩ : Stack) = t at h
  induction h generalizing symbols text with
  | empty lexeme words =>
    refine cut_top settled (same ▸ .empty lexeme words) fun symbol rest top => ?_
    cases top
    cases same
  | rule here mem rest ih =>
    refine cut_top settled (same ▸ .rule here mem rest) fun symbol symbols top => ?_
    cases top
    cases same
    obtain ⟨u, v, rfl, first, second⟩ := ih (plain.pushed all here mem) (settled.rule _)
      (by rw [List.append_assoc]; rfl)
    exact ⟨u, v, rfl, .rule here mem first, second⟩
  | choose here place fresh rest =>
    refine cut_top settled (same ▸ .choose here place fresh rest) fun symbol symbols top => ?_
    cases top
    cases same
    exact (all _ (List.mem_cons_self ..)).elim
  | close here done rest =>
    refine cut_top settled (same ▸ .close here done rest) fun symbol symbols top => ?_
    cases top
    cases same
    exact (all _ (List.mem_cons_self ..)).elim
  | terminal here bit rest ih =>
    refine cut_top settled (same ▸ .terminal here bit rest) fun symbol symbols top => ?_
    cases top
    cases same
    obtain ⟨u, v, rfl, first, second⟩ :=
      ih (List.forall_mem_cons.mp all).2 settled.terminal rfl
    exact ⟨_ :: u, v, rfl, .terminal here bit first, second⟩
  | @spell id lex _ text _ byte _ here allowed more rest ih =>
    refine cut_top settled (same ▸ .spell here allowed more rest) fun symbol symbols top => ?_
    cases top
    cases same
    obtain ⟨u, v, rfl, first, second⟩ :=
      @ih (.lexeme id :: symbols) (lex.advance text byte).2 all ⟨.inr ⟨_, _, rfl⟩, settled.used⟩ rfl
    exact ⟨_ :: u, v, rfl, .spell here allowed more first, second⟩
  | spelled here allowed whole rest ih =>
    refine cut_top settled (same ▸ .spelled here allowed whole rest) fun symbol symbols top => ?_
    cases top
    cases same
    obtain ⟨u, v, rfl, first, second⟩ :=
      ih (List.forall_mem_cons.mp all).2 settled.spelled rfl
    exact ⟨_ :: u, v, rfl, .spelled here allowed whole first, second⟩

theorem mem_language_plain (plain : Plain P g) {id : Nat} (p : P id) {w : List Byte} :
    Accepts g ⟨.rule id :: below, [], used⟩ w ↔
      ∃ u ∈ language g [.rule id], ∃ v, Accepts g ⟨below, [], used⟩ v ∧ u ++ v = w := by
  have all : ∀ symbol ∈ [Symbol.rule id], symbol.Plain P := by
    simpa [Symbol.Plain] using p
  constructor
  · intro h
    obtain ⟨u, v, rfl, first, second⟩ :=
      @Accepts.carried P g below used plain [.rule id] [] w h all (settled_fresh _)
    exact ⟨u, first, v, second, rfl⟩
  · rintro ⟨u, first, v, second, rfl⟩
    exact Accepts.carry plain first all (settled_fresh _) second

/-! ## Argument sets -/

/-- Each member has a bit, and only members are required. -/
structure ArgumentSet.Fits (set : ArgumentSet) : Prop where
  room : ∀ i < set.members.length, i / 64 < set.required.length
  required : ∀ i, set.required.bit i = true → i < set.members.length

theorem opened_self {words : Words}
    (sized : words.length = set.required.length) : set.opened words = words := by
  unfold ArgumentSet.opened
  split
  case isTrue empty =>
    rw [List.isEmpty_iff.mp empty] at sized ⊢
    rw [← sized]
    rfl
  case isFalse => rfl

theorem length_opened :
    (set.opened []).length = set.required.length := by simp [ArgumentSet.opened]

theorem bit_opened (i : Nat) : (set.opened []).bit i = false :=
  Words.bit_zero ..

theorem satisfied_unused (fits : set.Fits) {words : Words} :
    set.satisfied words = true ↔
      ∀ i ∈ unused set.members.length words.bit, ¬set.required.bit i = true := by
  rw [satisfied_iff]
  constructor
  · intro all i free need
    exact Bool.false_ne_true ((mem_unused.mp free).2.symm.trans (all i need))
  · intro none i need
    by_contra clear
    exact none i (mem_unused.mpr ⟨fits.required i need, by simpa using clear⟩) need

/-- A set on a stack reads its members in some order, and then the stack goes on as
if no parameter had been used. -/
theorem accepts_set (plain : Plain P g) {id : Nat}
    (here : g.argumentSets[id]? = some set) (fits : set.Fits) (inside : ∀ m ∈ set.members, P m)
    {L : Nat → Language Byte}
    (each : ∀ i m, set.members[i]? = some m → language g [.rule m] = L i) {w : List Byte}
    (sized : (set.opened used).length = set.required.length) :
    Accepts g ⟨.arguments id :: below, [], used⟩ w ↔
      w ∈ orders L (unused set.members.length (set.opened used).bit)
        (fun i => set.required.bit i = true) * language g below := by
  generalize left : (unused set.members.length (set.opened used).bit).card = n
  induction n using Nat.strong_induction_on generalizing used w with
  | _ n ih =>
    rw [mem_orders_mul, ← satisfied_unused fits]
    have step := @accepts_arguments g w id ⟨below, [], used⟩
    simp only [here, Option.some.injEq, exists_eq_left'] at step
    rw [step]
    refine or_congr ?_ Iff.rfl
    -- the rest of the run is on the same set, with one member less unused
    have later : ∀ i member, set.members[i]? = some member → (set.opened used).bit i = false →
        ∀ v, Accepts g ⟨.arguments id :: below, [], (set.opened used).mark i⟩ v ↔
          v ∈ orders L ((unused set.members.length (set.opened used).bit).erase i)
            (fun i => set.required.bit i = true) * language g below := by
      intro i member place clear v
      have inBounds := (List.getElem?_eq_some_iff.mp place).1
      have free := mem_unused.mpr ⟨inBounds, clear⟩
      have room : i / 64 < (set.opened used).length := sized ▸ fits.room i inBounds
      have marked := unused_mark (n := set.members.length) (Words.bit_mark room)
      have same := @opened_self set ((set.opened used).mark i) (by rw [Words.length_mark, sized])
      have fewer := Finset.card_erase_lt_of_mem free
      rw [left, ← marked] at fewer
      rw [← marked]
      have := @ih _ fewer ((set.opened used).mark i) v (by rw [same, Words.length_mark, sized])
        (by rw [same])
      rwa [same] at this
    constructor
    · rintro ⟨i, member, place, clear, run⟩
      obtain ⟨u, first, v, second, rfl⟩ :=
        (mem_language_plain plain (inside _ (List.mem_of_getElem? place))).mp run
      refine ⟨i, mem_unused.mpr ⟨(List.getElem?_eq_some_iff.mp place).1, clear⟩,
        Language.append_mem_mul ?_ ((later i member place clear v).mp second)⟩
      rwa [← each i member place]
    · rintro ⟨i, free, mem⟩
      obtain ⟨inBounds, clear⟩ := mem_unused.mp free
      have place := List.getElem?_eq_getElem inBounds
      obtain ⟨u, first, v, second, rfl⟩ := Language.mem_mul.mp mem
      rw [← each i _ place] at first
      exact ⟨i, _, place, clear, (mem_language_plain plain
        (inside _ (List.mem_of_getElem? place))).mpr
          ⟨u, first, v, (later i _ place clear v).mpr second, rfl⟩⟩

theorem language_set (plain : Plain P g) {id : Nat}
    (here : g.argumentSets[id]? = some set) (fits : set.Fits) (inside : ∀ m ∈ set.members, P m)
    {L : Nat → Language Byte}
    (each : ∀ i m, set.members[i]? = some m → language g [.rule m] = L i) :
    language g [.arguments id] =
      orders L (Finset.range set.members.length) fun i => set.required.bit i = true := by
  have all : unused set.members.length (set.opened []).bit = Finset.range set.members.length := by
    ext i
    rw [mem_unused, Finset.mem_range, bit_opened]
    simp
  ext w
  rw [mem_language, accepts_set plain here fits inside each length_opened, all, language_nil,
    mul_one]

end

end Gufo.Constraint
