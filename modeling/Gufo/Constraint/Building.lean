import Gufo.Constraint.Embedding
import Mathlib.Tactic.Ring

/-!
# Building a grammar

The small builders of `JsonConstraintCompiler`. Each appends rules and classes to the
grammar, and each says what its symbol generates, whatever is appended later. A
builder fails only at the rule limit.
-/

namespace Gufo.Constraint

def kMaxRules : Nat := 262144

/-- `std::invalid_argument` and `JsonSchemaEmpty`. -/
inductive Failure where
  | invalid (message : String)
  | empty (message : String)
  deriving DecidableEq, Repr

abbrev Compile := StateT JsonConstraint (Except Failure)

/-- A literal byte is the class of its own number. -/
def byte (b : Nat) : Symbol := .terminal b

def new (rule : Rule) : Compile Symbol := fun g =>
  if kMaxRules ≤ g.rules.length then
    .error (.invalid "JSON Schema: compiled grammar exceeds the rule limit")
  else .ok (.rule g.rules.length, { g with rules := g.rules ++ [rule] })

def seq (sequence : Sequence) : Compile Symbol := new [sequence]

def alt (alternatives : Sequence) : Compile Symbol := new (alternatives.map fun id => [id])

/-- `Class`, of the bytes with `bits`. -/
def class_ (bits : Byte → Bool) : Compile Symbol := fun g =>
  .ok (.terminal g.classes.length, { g with classes := g.classes ++ [bits] })

def range (first last : Nat) : Compile Symbol :=
  class_ fun b => decide (first ≤ b.toNat ∧ b.toNat ≤ last)

def optional (rule : Symbol) : Compile Symbol := new [[], [rule]]

def repeat_ (rule : Symbol) : Compile Symbol := fun g =>
  match new [] g with
  | .error reason => .error reason
  | .ok (id, g) =>
    .ok (id, { g with rules := g.rules.set (g.rules.length - 1) [[], [rule, id]] })

/-- The chunks of `Literal`, each of at most 64 bytes. -/
def chunks : Nat → List Nat → List (List Nat)
  | 0, _ => []
  | _ + 1, [] => []
  | fuel + 1, value => value.take 64 :: chunks fuel (value.drop 64)

def literal (value : List Nat) : Compile Symbol := do
  seq (← (chunks value.length value).mapM fun chunk => seq (chunk.map byte))

/-! ## What has been built -/

/-- A grammar in the middle of a compilation. -/
structure Ready (g : JsonConstraint) : Prop extends g.Closed where
  bytes : ∀ b < 256, ∃ bits, g.classes[b]? = some bits ∧ ∀ c, bits c = decide (c.toNat = b)

/-- The symbol generates just these bytes. -/
structure Denotes (g : JsonConstraint) (symbol : Symbol) (L : Language Byte) : Prop where
  within : symbol.Within g
  language : language g [symbol] = L

variable {L : Language Byte}

theorem Denotes.keep {g h : JsonConstraint} {symbol : Symbol}
    (d : Denotes g symbol L) (closed : g.Closed) (e : Embeds {} g h) : Denotes h symbol L :=
  ⟨d.within.keep e, (language_keep e closed (by simpa using d.within)).trans d.language⟩

/-- From `g` the builder appends at most `n` rules and gives what `post` says, or it is
stopped by the rule limit. -/
def Adds {α : Type} (g : JsonConstraint) (m : Compile α) (n : Nat)
    (post : JsonConstraint → α → Prop) : Prop :=
  match m g with
  | .ok (a, h) => Embeds {} g h ∧ Ready h ∧ h.rules.length ≤ g.rules.length + n ∧ post h a
  | .error e => e = .invalid "JSON Schema: compiled grammar exceeds the rule limit" ∧
      kMaxRules < g.rules.length + n

section
variable {α β : Type} {g : JsonConstraint} {n k : Nat}

theorem Adds.pure (ready : Ready g) {a : α} {post : JsonConstraint → α → Prop} (h : post g a) :
    Adds g (pure a) n post :=
  ⟨.of_begins (List.prefix_refl _) (List.prefix_refl _) (List.prefix_refl _) (List.prefix_refl _),
    ready, Nat.le_add_right .., h⟩

theorem Adds.bind {m : Compile α} {f : α → Compile β} {mid : JsonConstraint → α → Prop}
    {post : JsonConstraint → β → Prop} (first : Adds g m n mid)
    (second : ∀ h a, Embeds {} g h → Ready h → mid h a → Adds h (f a) k post) :
    Adds g (m >>= f) (n + k) post := by
  unfold Adds at first ⊢
  change match Except.bind (m g) (fun p => f p.1 p.2) with | .ok (b, h) => _ | .error e => _
  cases run : m g with
  | error e =>
    rw [run] at first
    exact ⟨first.1, by omega⟩
  | ok p =>
    obtain ⟨a, h⟩ := p
    rw [run] at first
    obtain ⟨grown, ready, few, holds⟩ := first
    have second := second h a grown ready holds
    unfold Adds at second
    dsimp only [Except.bind]
    cases rest : f a h with
    | error e =>
      rw [rest] at second
      exact ⟨second.1, by omega⟩
    | ok p =>
      rw [rest] at second
      obtain ⟨grown', ready', few', holds'⟩ := second
      exact ⟨grown.trans grown', ready', by omega, holds'⟩

theorem Adds.weaken {m : Compile α} {post post' : JsonConstraint → α → Prop} (h : Adds g m n post)
    (le : n ≤ k) (imp : ∀ g' a, Embeds {} g g' → post g' a → post' g' a) : Adds g m k post' := by
  unfold Adds at h ⊢
  cases run : m g with
  | error e =>
    rw [run] at h
    exact ⟨h.1, by omega⟩
  | ok p =>
    rw [run] at h
    obtain ⟨grown, ready, few, holds⟩ := h
    exact ⟨grown, ready, by omega, imp _ _ grown holds⟩

end

/-! ## The builders -/

section
variable {g : JsonConstraint}

/-- The language of the words with a property. -/
def those (p : List Byte → Prop) : Language Byte := {w | p w}

@[simp]
theorem mem_those {p : List Byte → Prop} {w : List Byte} : w ∈ those p ↔ p w := Iff.rfl

theorem denotes_byte (ready : Ready g) {b : Nat} (lt : b < 256) :
    Denotes g (byte b) {[UInt8.ofNat b]} := by
  obtain ⟨bits, here, spec⟩ := ready.bytes b lt
  refine ⟨(List.getElem?_eq_some_iff.mp here).1, ?_⟩
  ext w
  rw [byte, mem_language_terminal here]
  constructor
  · rintro ⟨c, bit, rfl⟩
    have same : c.toNat = b := by simpa [spec] using bit
    rw [← same, UInt8.ofNat_toNat]
    rfl
  · intro mem
    exact ⟨UInt8.ofNat b, by rw [spec]; simpa using Nat.mod_eq_of_lt lt, mem⟩

theorem ready_append_rule (ready : Ready g) (rule : Rule)
    (within : ∀ sequence ∈ rule, ∀ symbol ∈ sequence,
      symbol.Within { g with rules := g.rules ++ [rule] }) :
    Embeds {} g { g with rules := g.rules ++ [rule] } ∧
      Ready { g with rules := g.rules ++ [rule] } := by
  have grown : Embeds {} g { g with rules := g.rules ++ [rule] } :=
    .of_begins (List.prefix_append ..) (List.prefix_refl _) (List.prefix_refl _)
      (List.prefix_refl _)
  refine ⟨grown, ⟨?_, ?_⟩, ready.bytes⟩
  · intro r mem sequence inRule symbol inSequence
    rcases List.mem_append.mp mem with old | new
    · exact (ready.rules r old sequence inRule symbol inSequence).keep grown
    · rw [List.mem_singleton.mp new] at inRule
      exact within sequence inRule symbol inSequence
  · intro set mem member inSet
    have := ready.members set mem member inSet
    simp
    omega

/-- A new rule generates what one of its sequences did. -/
theorem adds_new (ready : Ready g) (rule : Rule)
    (within : ∀ sequence ∈ rule, ∀ symbol ∈ sequence, symbol.Within g) :
    Adds g (new rule) 1 fun h symbol =>
      Denotes h symbol (those fun w => ∃ sequence ∈ rule, w ∈ language g sequence) := by
  unfold Adds new
  split
  case h_1 symbol h eq =>
    split at eq
    · cases eq
    · cases eq
      have grown : Embeds {} g { g with rules := g.rules ++ [rule] } :=
        .of_begins (List.prefix_append ..) (List.prefix_refl _) (List.prefix_refl _)
          (List.prefix_refl _)
      obtain ⟨_, ready'⟩ := ready_append_rule ready rule fun sequence inRule symbol mem =>
        (within sequence inRule symbol mem).keep grown
      refine ⟨grown, ready', by simp, by simp [Symbol.Within], ?_⟩
      ext w
      have here : (g.rules ++ [rule])[g.rules.length]? = some rule := by simp
      rw [mem_language_rule here]
      refine exists_congr fun sequence => and_congr_right fun mem => ?_
      rw [language_keep grown ready.toClosed (within sequence mem)]
  case h_2 e eq =>
    split at eq
    · cases eq
      exact ⟨rfl, by omega⟩
    · cases eq

variable {Ls : List (Language Byte)} {symbols : Sequence}

theorem language_list
    (h : List.Forall₂ (Denotes g) symbols Ls) : language g symbols = Ls.prod := by
  induction h with
  | nil => simp
  | cons d _ ih => rw [language_cons, d.language, ih, List.prod_cons]

theorem within_of_denotes
    (h : List.Forall₂ (Denotes g) symbols Ls) : ∀ symbol ∈ symbols, symbol.Within g := by
  induction h with
  | nil => exact nofun
  | cons d _ ih => exact List.forall_mem_cons.mpr ⟨d.within, ih⟩

theorem keep_all {h : JsonConstraint} (closed : g.Closed) (e : Embeds {} g h)
    (d : List.Forall₂ (Denotes g) symbols Ls) :
    List.Forall₂ (Denotes h) symbols Ls := d.imp fun _ _ one => one.keep closed e

theorem adds_seq (ready : Ready g)
    (d : List.Forall₂ (Denotes g) symbols Ls) :
    Adds g (seq symbols) 1 fun h symbol => Denotes h symbol Ls.prod := by
  refine (adds_new ready [symbols] ?_).weaken le_rfl fun h symbol _ holds => ?_
  · simpa using within_of_denotes d
  · refine ⟨holds.within, holds.language.trans ?_⟩
    ext w
    rw [mem_those, List.exists_mem_cons_iff, language_list d]
    simp

theorem adds_alt (ready : Ready g)
    (d : List.Forall₂ (Denotes g) symbols Ls) :
    Adds g (alt symbols) 1 fun h symbol => Denotes h symbol (those fun w => ∃ L ∈ Ls, w ∈ L) := by
  refine (adds_new ready (symbols.map fun id => [id]) ?_).weaken le_rfl
    fun h symbol _ holds => ?_
  · simpa using within_of_denotes d
  · refine ⟨holds.within, holds.language.trans ?_⟩
    ext w
    change (∃ sequence ∈ symbols.map _, _) ↔ ∃ L ∈ Ls, w ∈ L
    clear holds
    induction d with
    | nil => simp
    | cons one _ ih =>
      rw [List.map_cons, List.exists_mem_cons_iff, List.exists_mem_cons_iff, ih, one.language]

/-- One byte within the bounds. -/
def bytes (first last : Nat) : Language Byte :=
  those fun w => ∃ b : Byte, first ≤ b.toNat ∧ b.toNat ≤ last ∧ w = [b]

theorem adds_range (ready : Ready g) (first last : Nat) :
    Adds g (range first last) 0 fun h symbol => Denotes h symbol (bytes first last) := by
  have grown : Embeds {} g { g with classes := g.classes ++
      [fun b => decide (first ≤ b.toNat ∧ b.toNat ≤ last)] } :=
    .of_begins (List.prefix_refl _) (List.prefix_append ..) (List.prefix_refl _)
      (List.prefix_refl _)
  refine ⟨grown, ⟨⟨fun rule mem sequence inRule symbol inSequence => ?_, ready.members⟩,
    fun b lt => ?_⟩, Nat.le_refl _, by simp [Symbol.Within], ?_⟩
  · exact (ready.rules rule mem sequence inRule symbol inSequence).keep grown
  · obtain ⟨bits, here, spec⟩ := ready.bytes b lt
    exact ⟨bits, grown.classes here, spec⟩
  · ext w
    have here : (g.classes ++ [fun b => decide (first ≤ b.toNat ∧ b.toNat ≤ last)])[
        g.classes.length]? = some fun b => decide (first ≤ b.toNat ∧ b.toNat ≤ last) := by simp
    rw [mem_language_terminal here]
    simp only [decide_eq_true_eq, and_assoc]
    rfl

theorem adds_optional (ready : Ready g) {rule : Symbol} (d : Denotes g rule L) :
    Adds g (optional rule) 1 fun h symbol => Denotes h symbol (1 + L) := by
  refine (adds_new ready [[], [rule]] ?_).weaken le_rfl fun h symbol _ holds => ?_
  · simpa using d.within
  · refine ⟨holds.within, holds.language.trans ?_⟩
    ext w
    rw [mem_those, Language.mem_add, List.exists_mem_cons_iff, List.exists_mem_cons_iff,
      language_nil, d.language]
    simp

/-- What satisfies the equation of a repetition is the repetition, as each turn reads a byte. -/
theorem kstar_of_equation {L X : Language Byte} (nonempty : [] ∉ L)
    (equation : ∀ w, w ∈ X ↔ w = [] ∨ w ∈ L * X) : X = KStar.kstar L := by
  have fromX : ∀ n, ∀ w : List Byte, w.length = n → w ∈ X → w ∈ KStar.kstar L := by
    intro n
    induction n using Nat.strong_induction_on with
    | _ n ih =>
      intro w len mem
      rcases (equation w).mp mem with rfl | more
      · exact Language.nil_mem_kstar L
      · obtain ⟨u, first, v, rest, rfl⟩ := Language.mem_mul.mp more
        have pos : 0 < u.length :=
          List.length_pos_iff.mpr fun empty => nonempty (empty ▸ first)
        have := ih v.length (by simp at len; omega) v rfl rest
        rw [← Language.one_add_self_mul_kstar_eq_kstar]
        exact .inr (Language.append_mem_mul first this)
  ext w
  refine ⟨fromX _ w rfl, fun mem => ?_⟩
  obtain ⟨words, rfl, all⟩ := Language.mem_kstar.mp mem
  clear mem
  induction words with
  | nil => exact (equation _).mpr (.inl rfl)
  | cons u words ih =>
    have rest := ih fun y mem => all y (List.mem_cons_of_mem _ mem)
    exact (equation _).mpr (.inr (Language.append_mem_mul (all u (List.mem_cons_self ..)) rest))

theorem adds_repeat (ready : Ready g) {rule : Symbol} (d : Denotes g rule L)
    (nonempty : [] ∉ L) :
    Adds g (repeat_ rule) 1 fun h symbol => Denotes h symbol (KStar.kstar L) := by
  unfold Adds repeat_ new
  by_cases full : kMaxRules ≤ g.rules.length
  · simp only [full, if_true]
    exact ⟨trivial, by omega⟩
  · simp only [full, if_false, List.length_append, List.length_singleton, Nat.add_sub_cancel]
    rw [List.set_append_right _ _ (Nat.le_refl _), Nat.sub_self, List.set_cons_zero]
    have within : Symbol.Within { g with
        rules := g.rules ++ [[[], [rule, .rule g.rules.length]]] } (.rule g.rules.length) := by
      simp [Symbol.Within]
    have grown : Embeds {} g { g with rules := g.rules ++ [[[], [rule, .rule g.rules.length]]] } :=
      .of_begins (List.prefix_append ..) (List.prefix_refl _) (List.prefix_refl _)
        (List.prefix_refl _)
    obtain ⟨_, ready'⟩ := ready_append_rule ready [[], [rule, .rule g.rules.length]]
      (by simpa using ⟨d.within.keep grown, within⟩)
    refine ⟨grown, ready', by simp, within, kstar_of_equation nonempty fun w => ?_⟩
    have here : (g.rules ++ [[[], [rule, .rule g.rules.length]]])[g.rules.length]? =
        some [[], [rule, .rule g.rules.length]] := by simp
    rw [mem_language_rule here]
    simp only [List.mem_cons, List.not_mem_nil, or_false, exists_eq_or_imp, exists_eq_left]
    rw [language_cons, (d.keep ready.toClosed grown).language, language_nil, Language.mem_one]

theorem flatten_chunks {fuel : Nat} {value : List Nat} (enough : value.length ≤ fuel) :
    (chunks fuel value).flatten = value ∧ (chunks fuel value).length ≤ fuel := by
  induction fuel generalizing value with
  | zero =>
    rw [List.length_eq_zero_iff.mp (Nat.le_zero.mp enough)]
    simp [chunks]
  | succ fuel ih =>
    cases value with
    | nil => simp [chunks]
    | cons b value =>
      rw [chunks]
      · obtain ⟨same, few⟩ := @ih ((b :: value).drop 64) (by simp at enough ⊢; omega)
        exact ⟨by rw [List.flatten_cons, same, List.take_append_drop], by simpa using few⟩
      · exact nofun

theorem adds_chunk (ready : Ready g) {chunk : List Nat} (small : ∀ b ∈ chunk, b < 256) :
    Adds g (seq (chunk.map byte)) 1 fun h symbol => Denotes h symbol {chunk.map UInt8.ofNat} := by
  have d : List.Forall₂ (Denotes g) (chunk.map byte)
      (chunk.map fun b => ({[UInt8.ofNat b]} : Language Byte)) := by
    rw [List.forall₂_map_left_iff, List.forall₂_map_right_iff, List.forall₂_same]
    exact fun b mem => denotes_byte ready (small b mem)
  refine (adds_seq ready d).weaken le_rfl fun h symbol _ holds => ⟨holds.within, ?_⟩
  rw [holds.language]
  clear holds d small
  induction chunk with
  | nil => rfl
  | cons b chunk ih =>
    rw [List.map_cons, List.prod_cons, ih]
    ext w
    constructor
    · rintro ⟨_, rfl, _, rfl, rfl⟩
      rfl
    · rintro rfl
      exact ⟨_, rfl, _, rfl, rfl⟩

theorem adds_chunks {all : List (List Nat)} (ready : Ready g)
    (small : ∀ chunk ∈ all, ∀ b ∈ chunk, b < 256) :
    Adds g (all.mapM fun chunk => seq (chunk.map byte)) all.length fun h symbols =>
      List.Forall₂ (Denotes h) symbols
        (all.map fun chunk => ({chunk.map UInt8.ofNat} : Language Byte)) := by
  induction all generalizing g with
  | nil => exact .pure ready .nil
  | cons chunk rest ih =>
    rw [List.mapM_cons, List.length_cons, Nat.add_comm]
    obtain ⟨here, later⟩ := List.forall_mem_cons.mp small
    refine .bind (adds_chunk ready here) fun h symbol _ ready one => ?_
    refine .bind (k := 0) (ih ready later) fun i symbols grown ready' more => ?_
    exact .pure ready' (.cons (one.keep ready.toClosed grown) more)

theorem prod_singletons (all : List (List Nat)) :
    (all.map fun chunk => ({chunk.map UInt8.ofNat} : Language Byte)).prod =
      {all.flatten.map UInt8.ofNat} := by
  induction all with
  | nil => rfl
  | cons chunk rest ih =>
    rw [List.map_cons, List.prod_cons, ih, List.flatten_cons, List.map_append]
    ext w
    constructor
    · rintro ⟨_, rfl, _, rfl, rfl⟩
      rfl
    · rintro rfl
      exact ⟨_, rfl, _, rfl, rfl⟩

theorem adds_literal (ready : Ready g) {value : List Nat} (small : ∀ b ∈ value, b < 256) :
    Adds g (literal value) (value.length + 1) fun h symbol =>
      Denotes h symbol {value.map UInt8.ofNat} := by
  obtain ⟨same, few⟩ := flatten_chunks (Nat.le_refl value.length)
  have small' : ∀ chunk ∈ chunks value.length value, ∀ b ∈ chunk, b < 256 :=
    fun chunk mem b inChunk => small b (same ▸ List.mem_flatten.mpr ⟨chunk, mem, inChunk⟩)
  refine .bind ((adds_chunks ready small').weaken few fun _ _ _ => id) fun h symbols _ ready d => ?_
  refine (adds_seq ready d).weaken le_rfl fun i symbol _ holds => ?_
  rwa [prod_singletons, same] at holds

end

end Gufo.Constraint
