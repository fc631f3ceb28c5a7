import Gufo.Constraint.Orders
import Gufo.Constraint.Integer

/-!
# Native arguments

`Arguments` keeps a rule for each subset of a few members, and an argument set for
more of them. Both generate the same: the members in any order, none twice and every
required one among them.
-/

namespace Gufo.Constraint

/-- A name and the rule that generates the whole argument. -/
abbrev Member := String × Nat

/-! ## More members -/

def markRequired (required : List String) : List (Member × Nat) → Words → Words
  | [], words => words
  | (member, i) :: rest, words =>
    markRequired required rest (if required.contains member.1 then words.mark i else words)

def argumentSet (members : List Member) (required : List String) : ArgumentSet where
  members := members.map (·.2)
  required :=
    markRequired required members.zipIdx (List.replicate ((members.length + 63) / 64) 0)

/-- `Arguments` of more than ten members. -/
def wide (members : List Member) (required : List String) : Compile Symbol := do
  let id := (← get).argumentSets.length
  modify fun g => { g with argumentSets := g.argumentSets ++ [argumentSet members required] }
  seq [.arguments id]

/-! ## A few members -/

abbrev Suffixes := List (Nat × Symbol)

/-- An alternative for each member that is not used, and then what follows it. -/
def alternatives (follow : Nat → Suffixes → Compile (Symbol × Suffixes)) (used : Nat) :
    List (Member × Nat) → Suffixes → Compile (Rule × Suffixes)
  | [], suffixes => pure ([], suffixes)
  | (member, i) :: rest, suffixes =>
    if used.testBit i then alternatives follow used rest suffixes
    else do
      let (next, suffixes) ← follow (used ||| 1 <<< i) suffixes
      let (rule, suffixes) ← alternatives follow used rest suffixes
      return ([.rule member.2, next] :: rule, suffixes)

/-- `suffix`, whose depth is at most one more than there are members. -/
def suffix (members : List Member) (required : List String) :
    Nat → Nat → Suffixes → Compile (Symbol × Suffixes)
  | 0, _, _ => fun _ => .error (.invalid "depth")
  | depth + 1, used, suffixes =>
    match suffixes.lookup used with
    | some found => pure (found, suffixes)
    | none => do
      let (rule, suffixes) ←
        alternatives (suffix members required depth) used members.zipIdx suffixes
      let complete := members.zipIdx.all fun (member, i) =>
        used.testBit i || !required.contains member.1
      let id ← new (rule ++ if complete then [[]] else [])
      return (id, (used, id) :: suffixes)

/-- `Arguments` of at most ten members. -/
def narrow (members : List Member) (required : List String) : Compile Symbol := do
  return (← suffix members required (members.length + 1) 0 []).1

/-- `Arguments` -/
def arguments (members : List Member) (required : List String) : Compile Symbol :=
  if 10 < members.length then wide members required else narrow members required

/-! ## The bits of a set -/

/-- The member has to be there. -/
def needed (members : List Member) (required : List String) (i : Nat) : Prop :=
  ∃ member, members[i]? = some member ∧ member.1 ∈ required

variable {rest : List (Member × Nat)}

theorem bit_markRequired {required : List String} {words : Words}
    (room : ∀ p ∈ rest, p.2 / 64 < words.length) (j : Nat) :
    (markRequired required rest words).bit j = true ↔
      words.bit j = true ∨ ∃ member, (member, j) ∈ rest ∧ member.1 ∈ required := by
  induction rest generalizing words with
  | nil => simp [markRequired]
  | cons p rest ih =>
    obtain ⟨member, i⟩ := p
    obtain ⟨here, room⟩ := List.forall_mem_cons.mp room
    rw [markRequired, ih (by split <;> simpa using room)]
    by_cases need : member.1 ∈ required
    · simp only [List.contains_iff_mem.mpr need, if_true, Words.bit_mark here, Bool.or_eq_true,
        decide_eq_true_eq, List.mem_cons, Prod.mk.injEq]
      constructor
      · rintro ((old | rfl) | ⟨other, mem, need'⟩)
        · exact .inl old
        · exact .inr ⟨member, .inl ⟨rfl, rfl⟩, need⟩
        · exact .inr ⟨other, .inr mem, need'⟩
      · rintro (old | ⟨other, ⟨rfl, rfl⟩ | mem, need'⟩)
        · exact .inl (.inl old)
        · exact .inl (.inr rfl)
        · exact .inr ⟨other, mem, need'⟩
    · rw [if_neg (by simpa using need)]
      refine or_congr Iff.rfl (exists_congr fun other => ?_)
      constructor
      · rintro ⟨mem, need'⟩
        exact ⟨List.mem_cons_of_mem _ mem, need'⟩
      · rintro ⟨mem, need'⟩
        rcases List.mem_cons.mp mem with same | mem
        · cases same
          exact absurd need' need
        · exact ⟨mem, need'⟩

@[simp]
theorem length_markRequired {required : List String} {words : Words} :
    (markRequired required rest words).length = words.length := by
  induction rest generalizing words with
  | nil => rfl
  | cons p rest ih =>
    rw [markRequired, ih]
    split <;> simp

section
variable {members : List Member} {required : List String}

theorem room_argumentSet (i : Nat) (lt : i < members.length) :
    i / 64 < (members.length + 63) / 64 := by omega

theorem bit_argumentSet (i : Nat) :
    (argumentSet members required).required.bit i = true ↔ needed members required i := by
  unfold argumentSet needed
  rw [bit_markRequired, Words.bit_zero]
  · simp [List.mem_zipIdx_iff_getElem?]
  · rintro ⟨member, i⟩ mem
    rw [List.length_replicate]
    exact room_argumentSet i (List.getElem?_eq_some_iff.mp (List.mem_zipIdx_iff_getElem?.mp mem)).1

theorem fits_argumentSet : (argumentSet members required).Fits where
  room := fun i lt => by
    have := room_argumentSet i (by simpa [argumentSet] using lt)
    simpa [argumentSet] using this
  required := fun i need => by
    obtain ⟨member, here, -⟩ := (bit_argumentSet i).mp need
    simpa [argumentSet] using (List.getElem?_eq_some_iff.mp here).1

end

/-! ## Both forms -/

/-- The builder gives what `post` says, or it is stopped by the rule limit. -/
def Builds {α : Type} (g : JsonConstraint) (m : Compile α) (post : JsonConstraint → α → Prop) :
    Prop :=
  match m g with
  | .ok (a, h) => Embeds {} g h ∧ Ready h ∧ post h a
  | .error e => e = .invalid "JSON Schema: compiled grammar exceeds the rule limit"

section
variable {α β : Type} {g : JsonConstraint}

theorem Adds.builds {m : Compile α} {n : Nat} {post : JsonConstraint → α → Prop}
    (adds : Adds g m n post) : Builds g m post := by
  unfold Adds at adds
  unfold Builds
  cases run : m g with
  | error e =>
    rw [run] at adds
    exact adds.1
  | ok p =>
    rw [run] at adds
    obtain ⟨grown, ready, -, holds⟩ := adds
    exact ⟨grown, ready, holds⟩

theorem Builds.pure (ready : Ready g) {a : α} {post : JsonConstraint → α → Prop} (h : post g a) :
    Builds g (pure a) post := (Adds.pure (n := 0) ready h).builds

theorem Builds.bind {m : Compile α} {f : α → Compile β} {mid : JsonConstraint → α → Prop}
    {post : JsonConstraint → β → Prop} (first : Builds g m mid)
    (second : ∀ h a, Embeds {} g h → Ready h → mid h a → Builds h (f a) post) :
    Builds g (m >>= f) post := by
  unfold Builds at first ⊢
  change match Except.bind (m g) (fun p => f p.1 p.2) with | .ok (b, h) => _ | .error e => _
  cases run : m g with
  | error e =>
    rw [run] at first
    exact first
  | ok p =>
    obtain ⟨a, h⟩ := p
    rw [run] at first
    obtain ⟨grown, ready, holds⟩ := first
    have second := second h a grown ready holds
    unfold Builds at second
    dsimp only [Except.bind]
    cases rest : f a h with
    | error e =>
      rw [rest] at second
      exact second
    | ok p =>
      rw [rest] at second
      obtain ⟨grown', ready', holds'⟩ := second
      exact ⟨grown.trans grown', ready', holds'⟩

theorem Builds.weaken {m : Compile α} {post post' : JsonConstraint → α → Prop}
    (h : Builds g m post) (imp : ∀ g' a, Ready g' → post g' a → post' g' a) :
    Builds g m post' := by
  unfold Builds at h ⊢
  cases run : m g with
  | error e =>
    rw [run] at h
    exact h
  | ok p =>
    rw [run] at h
    exact ⟨h.1, h.2.1, imp _ _ h.2.1 h.2.2⟩

end

section
variable {g : JsonConstraint} {members : List Member} {required : List String}
  {L : Nat → Language Byte}

/-- What the arguments may be. -/
def spelled (members : List Member) (required : List String) (L : Nat → Language Byte)
    (unused : Finset Nat) : Language Byte := orders L unused (needed members required)

theorem adds_wide {P : Nat → Prop} (ready : Ready g) (plain : Plain P g)
    (ordinary : ∀ m ∈ members, P m.2)
    (each : ∀ i m, members[i]? = some m → Denotes g (.rule m.2) (L i)) :
    Adds g (wide members required) 1 fun h symbol =>
      Denotes h symbol (spelled members required L (Finset.range members.length)) := by
  let k := { g with argumentSets := g.argumentSets ++ [argumentSet members required] }
  have grown : Embeds {} g k :=
    .of_begins (List.prefix_refl _) (List.prefix_refl _) (List.prefix_refl _)
      (List.prefix_append ..)
  have ready' : Ready k := by
    refine ⟨⟨fun rule mem sequence inRule symbol inSequence =>
      (ready.rules rule mem sequence inRule symbol inSequence).keep grown,
      fun set mem member inSet => ?_⟩, ready.bytes⟩
    rcases List.mem_append.mp mem with old | new
    · exact ready.members set old member inSet
    · rw [List.mem_singleton.mp new] at inSet
      obtain ⟨m, mem, rfl⟩ := List.mem_map.mp inSet
      obtain ⟨i, here⟩ := List.getElem?_of_mem mem
      exact (each i m here).within
  have denotes : Denotes k (.arguments g.argumentSets.length)
      (spelled members required L (Finset.range members.length)) := by
    refine ⟨by simp [k, Symbol.Within], ?_⟩
    have here : k.argumentSets[g.argumentSets.length]? = some (argumentSet members required) := by
      simp [k]
    have inside : ∀ m ∈ (argumentSet members required).members, P m := by
      intro m inSet
      obtain ⟨member, mem, rfl⟩ := List.mem_map.mp inSet
      exact ordinary member mem
    refine (language_set (plain.keep grown) here fits_argumentSet inside
      (L := L) fun i m place => ?_).trans ?_
    · obtain ⟨member, here, rfl⟩ :=
        Option.map_eq_some_iff.mp ((List.getElem?_map ..).symm.trans place)
      exact ((each i member here).keep ready.toClosed grown).language
    · simp only [bit_argumentSet, spelled]
      rw [argumentSet, List.length_map]
  have adds := adds_seq ready' (.cons denotes .nil)
  rw [List.prod_singleton] at adds
  unfold Adds at adds ⊢
  rw [show wide members required g = seq [.arguments g.argumentSets.length] k from rfl]
  cases run : seq [.arguments g.argumentSets.length] k with
  | error e =>
    rw [run] at adds
    exact adds
  | ok p =>
    rw [run] at adds
    exact ⟨grown.trans adds.1, adds.2⟩

/-- The members and the suffixes that have been built generate what they should. -/
structure Known (members : List Member) (required : List String) (L : Nat → Language Byte)
    (g : JsonConstraint) (suffixes : Suffixes) : Prop where
  each : ∀ i m, members[i]? = some m → Denotes g (.rule m.2) (L i)
  suffixes : ∀ p ∈ suffixes,
    Denotes g p.2 (spelled members required L (unused members.length p.1.testBit))

variable {suffixes : Suffixes}

theorem Known.keep {h : JsonConstraint}
    (known : Known members required L g suffixes) (closed : g.Closed) (e : Embeds {} g h) :
    Known members required L h suffixes :=
  ⟨fun i m here => (known.each i m here).keep closed e,
    fun p mem => (known.suffixes p mem).keep closed e⟩

theorem testBit_mark (used i j : Nat) :
    (used ||| 1 <<< i).testBit j = (used.testBit j || decide (j = i)) := by
  simp [Nat.shiftLeft_eq, Nat.testBit_two_pow, eq_comm]

/-- What the alternatives of the members in `rest` generate. -/
structure Offers (members : List Member) (required : List String) (L : Nat → Language Byte)
    (used : Nat) (rest : List (Member × Nat)) (g : JsonConstraint) (rule : Rule) : Prop where
  within : ∀ sequence ∈ rule, ∀ symbol ∈ sequence, symbol.Within g
  language : ∀ w, (∃ sequence ∈ rule, w ∈ language g sequence) ↔
    ∃ p ∈ rest, used.testBit p.2 = false ∧ w ∈ L p.2 *
      spelled members required L ((unused members.length used.testBit).erase p.2)

theorem builds_alternatives {follow : Nat → Suffixes → Compile (Symbol × Suffixes)} {used : Nat}
    (next : ∀ g suffixes i, Ready g → Known members required L g suffixes →
      i ∈ unused members.length used.testBit →
      Builds g (follow (used ||| 1 <<< i) suffixes) fun h r =>
        Known members required L h r.2 ∧ Denotes h r.1
          (spelled members required L ((unused members.length used.testBit).erase i)))
    (sub : ∀ p ∈ rest, members[p.2]? = some p.1)
    (ready : Ready g) (known : Known members required L g suffixes) :
    Builds g (alternatives follow used rest suffixes) fun h r =>
      Known members required L h r.2 ∧ Offers members required L used rest h r.1 := by
  induction rest generalizing g suffixes with
  | nil => exact .pure ready ⟨known, nofun, fun w => by simp⟩
  | cons p rest ih =>
    obtain ⟨member, i⟩ := p
    obtain ⟨here, sub⟩ := List.forall_mem_cons.mp sub
    rw [alternatives]
    cases bit : used.testBit i with
    | true =>
      refine (ih sub ready known).weaken fun h r _ holds => ⟨holds.1, holds.2.within, fun w => ?_⟩
      rw [holds.2.language, List.exists_mem_cons_iff]
      simp [bit]
    | false =>
      have free := mem_unused.mpr ⟨(List.getElem?_eq_some_iff.mp here).1, bit⟩
      refine .bind (next g suffixes i ready known free) fun h r grown ready' follows => ?_
      refine .bind (ih sub ready' follows.1) fun k r' grown' ready'' more => ?_
      refine .pure ready'' ⟨more.1, ?_, fun w => ?_⟩
      · have here := more.1.each i member here
        have follows := follows.2.keep ready'.toClosed grown'
        refine List.forall_mem_cons.mpr ⟨?_, more.2.within⟩
        simpa using ⟨here.within, follows.within⟩
      · have here := more.1.each i member here
        have follows := follows.2.keep ready'.toClosed grown'
        rw [List.exists_mem_cons_iff, List.exists_mem_cons_iff, more.2.language, language_cons,
          here.language, follows.language]
        simp [bit]

theorem complete_iff_needed {used : Nat} :
    (members.zipIdx.all fun (member, i) => used.testBit i || !required.contains member.1) = true ↔
      ∀ i ∈ unused members.length used.testBit, ¬needed members required i := by
  simp only [List.all_eq_true, needed, mem_unused]
  constructor
  · rintro all i ⟨-, clear⟩ ⟨member, here, need⟩
    have := all (member, i) (List.mem_zipIdx_iff_getElem?.mpr here)
    simp [clear, need] at this
  · rintro none ⟨member, i⟩ mem
    have here := List.mem_zipIdx_iff_getElem?.mp mem
    cases clear : used.testBit i with
    | true => simp
    | false =>
      have := none i ⟨(List.getElem?_eq_some_iff.mp here).1, clear⟩
      simpa [clear] using fun need => this ⟨member, here, need⟩

theorem mem_ite_empty {complete : Bool} {w : List Byte} :
    (∃ sequence ∈ (if complete then [[]] else [] : Rule), w ∈ language g sequence) ↔
      complete = true ∧ w = [] := by
  cases complete <;> simp

theorem builds_suffix {depth used : Nat} (ready : Ready g)
    (known : Known members required L g suffixes)
    (enough : (unused members.length used.testBit).card < depth) :
    Builds g (suffix members required depth used suffixes) fun h r =>
      Known members required L h r.2 ∧
        Denotes h r.1 (spelled members required L (unused members.length used.testBit)) := by
  induction depth generalizing g used suffixes with
  | zero => cases enough
  | succ depth ih =>
    rw [suffix]
    cases found : suffixes.lookup used with
    | some symbol =>
      obtain ⟨before, after, rfl, -⟩ := List.lookup_eq_some_iff.mp found
      exact .pure ready ⟨known, known.suffixes (used, symbol) (by simp)⟩
    | none =>
      refine .bind (builds_alternatives (fun g suffixes i ready known free => ?_)
        (fun p mem => List.mem_zipIdx_iff_getElem?.mp mem) ready known)
        fun h r grown ready' built => ?_
      · have marked := unused_mark (n := members.length) (testBit_mark used i)
        rw [← marked]
        refine ih ready known ?_
        have := Finset.card_erase_lt_of_mem free
        rw [marked]
        omega
      · obtain ⟨known, offers⟩ := built
        refine .bind (adds_new ready' _ ?_).builds fun k id grown' ready'' holds => ?_
        · refine List.forall_mem_append.mpr ⟨offers.within, ?_⟩
          split <;> simp
        · have denotes : Denotes k id
              (spelled members required L (unused members.length used.testBit)) := by
            refine ⟨holds.within, holds.language.trans ?_⟩
            ext w
            rw [mem_those, spelled, mem_orders, ← complete_iff_needed]
            simp only [List.mem_append, or_and_right, exists_or, offers.language, mem_ite_empty]
            refine or_congr ⟨?_, ?_⟩ Iff.rfl
            · rintro ⟨p, mem, clear, more⟩
              have here := List.mem_zipIdx_iff_getElem?.mp mem
              exact ⟨p.2, mem_unused.mpr ⟨(List.getElem?_eq_some_iff.mp here).1, clear⟩, more⟩
            · rintro ⟨i, free, more⟩
              obtain ⟨lt, clear⟩ := mem_unused.mp free
              exact ⟨(members[i], i),
                List.mem_zipIdx_iff_getElem?.mpr (List.getElem?_eq_getElem lt), clear, more⟩
          refine .pure ready'' ⟨⟨(known.keep ready'.toClosed grown').each, ?_⟩, denotes⟩
          exact List.forall_mem_cons.mpr
            ⟨denotes, (known.keep ready'.toClosed grown').suffixes⟩

theorem builds_narrow (ready : Ready g)
    (each : ∀ i m, members[i]? = some m → Denotes g (.rule m.2) (L i)) :
    Builds g (narrow members required) fun h symbol =>
      Denotes h symbol (spelled members required L (Finset.range members.length)) := by
  have all : unused members.length (Nat.testBit 0) = Finset.range members.length := by
    ext i
    simp [mem_unused]
  have enough : (unused members.length (Nat.testBit 0)).card < members.length + 1 := by
    rw [all, Finset.card_range]
    omega
  refine .bind (builds_suffix ready ⟨each, nofun⟩ enough) fun h r _ ready' built => ?_
  refine .pure ready' ?_
  rw [← all]
  exact built.2

end

/-! ## The stack that goes on -/

/-- The grammar that generates the sequence. -/
def JsonConstraint.beginning (g : JsonConstraint) (sequence : Sequence) : JsonConstraint :=
  { g with rules := g.rules ++ [[sequence]], root := g.rules.length }

theorem run_beginning {g : JsonConstraint} (closed : g.Closed) {sequence : Sequence}
    (within : ∀ symbol ∈ sequence, symbol.Within g) {limits : Limits} {bytes : List Byte}
    {state : State} (ran : run limits (g.beginning sequence) bytes = .ok state) :
    complete state = true ↔ bytes ∈ language g sequence := by
  have grown : Embeds {} g (g.beginning sequence) :=
    .of_begins (List.prefix_append ..) (List.prefix_refl _) (List.prefix_refl _)
      (List.prefix_refl _)
  have here : (g.beginning sequence).rules[g.rules.length]? = some [sequence] := by
    simp [JsonConstraint.beginning]
  rw [run_complete ran, show (g.beginning sequence).root = g.rules.length from rfl,
    mem_language_rule here, ← language_keep grown closed within]
  simp

/-- The symbol generates the language, and whatever stands below it on a stack goes on
as if nothing had stood above. -/
structure Spells (L : Language Byte) (g : JsonConstraint) (symbol : Symbol) : Prop where
  language : language g [symbol] = L
  machine : ∀ limits below bytes state, (∀ s ∈ below, s.Within g) →
    run limits (g.beginning (symbol :: below)) bytes = .ok state →
      (complete state = true ↔ bytes ∈ L * Constraint.language g below)

theorem Denotes.spells {g : JsonConstraint} {symbol : Symbol} {L : Language Byte}
    (d : Denotes g symbol L) (ready : Ready g) : Spells L g symbol where
  language := d.language
  machine := fun limits below bytes state within ran => by
    rw [run_beginning ready.toClosed (List.forall_mem_cons.mpr ⟨d.within, within⟩) ran,
      language_cons, d.language]

/-- What the rule of a member generates. -/
def argument (g : JsonConstraint) (members : List Member) (i : Nat) : Language Byte :=
  match members[i]? with
  | some member => language g [.rule member.2]
  | none => 0

section
variable {g : JsonConstraint} {P : Nat → Prop} {members : List Member}

theorem denotes_argument (plain : Plain P g) (ordinary : ∀ m ∈ members, P m.2) (i : Nat)
    (m : Member) (here : members[i]? = some m) : Denotes g (.rule m.2) (argument g members i) := by
  obtain ⟨rule, there, -⟩ := plain m.2 (ordinary m (List.mem_of_getElem? here))
  exact ⟨(List.getElem?_eq_some_iff.mp there).1, by rw [argument, here]⟩

theorem wide_spells (ready : Ready g) (plain : Plain P g) (ordinary : ∀ m ∈ members, P m.2)
    (required : List String) :
    Builds g (wide members required) (Spells (orders (argument g members)
      (Finset.range members.length) (needed members required))) :=
  (adds_wide ready plain ordinary (denotes_argument plain ordinary)).builds.weaken
    fun _ _ ready d => d.spells ready

theorem narrow_spells (ready : Ready g) (plain : Plain P g) (ordinary : ∀ m ∈ members, P m.2)
    (required : List String) :
    Builds g (narrow members required) (Spells (orders (argument g members)
      (Finset.range members.length) (needed members required))) :=
  (builds_narrow ready (denotes_argument plain ordinary)).weaken fun _ _ ready d => d.spells ready

end

/-- An argument set and the rules of all subsets generate the same: words of distinct
members, in any order, all required ones among them. Whatever follows on the stack is
read as if no parameter had been used. -/
theorem arguments_agree {g : JsonConstraint} {P : Nat → Prop} (ready : Ready g)
    (plain : Plain P g) (members : List Member) (ordinary : ∀ m ∈ members, P m.2)
    (required : List String) :
    Builds g (wide members required) (Spells (orders (argument g members)
      (Finset.range members.length) (needed members required))) ∧
    Builds g (narrow members required) (Spells (orders (argument g members)
      (Finset.range members.length) (needed members required))) :=
  ⟨wide_spells ready plain ordinary required, narrow_spells ready plain ordinary required⟩

/-- A grammar with the arguments `a` and `b`. -/
def twoArguments : JsonConstraint := { literalBytes with rules := [[[byte 97]], [[byte 98]]] }

theorem ready_twoArguments : Ready twoArguments := by
  refine ⟨⟨?_, nofun⟩, ready_literalBytes.bytes⟩
  simp [twoArguments, literalBytes, byte, Symbol.Within]

theorem plain_twoArguments : Plain (· < 2) twoArguments := by
  intro id lt
  have : id = 0 ∨ id = 1 := by omega
  rcases this with rfl | rfl
  · exact ⟨[[byte 97]], rfl, by simp [byte, Symbol.Plain]⟩
  · exact ⟨[[byte 98]], rfl, by simp [byte, Symbol.Plain]⟩

theorem arguments_agree_two :
    Builds twoArguments (wide [("a", 0), ("b", 1)] ["a"])
      (Spells (orders (argument twoArguments [("a", 0), ("b", 1)]) (Finset.range 2)
        (needed [("a", 0), ("b", 1)] ["a"]))) ∧
    Builds twoArguments (narrow [("a", 0), ("b", 1)] ["a"])
      (Spells (orders (argument twoArguments [("a", 0), ("b", 1)]) (Finset.range 2)
        (needed [("a", 0), ("b", 1)] ["a"]))) :=
  arguments_agree ready_twoArguments plain_twoArguments [("a", 0), ("b", 1)] (by simp) ["a"]

end Gufo.Constraint
