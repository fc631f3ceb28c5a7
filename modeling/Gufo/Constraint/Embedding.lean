import Gufo.Constraint.Language
import Gufo.Lib.Text

/-!
# Grammars inside grammars

Rules, classes, lexemes and argument sets that are appended to another grammar move
by as many places as it had before. A symbol is moved by its kind. What a moved
stack accepts is what it accepted in its own grammar.
-/

namespace Gufo.Constraint

/-- How many of each kind stand before the appended ones. -/
structure Offsets where
  rules : Nat := 0
  classes : Nat := 0
  lexemes : Nat := 0
  argumentSets : Nat := 0

def Symbol.relocate (o : Offsets) : Symbol → Symbol
  | terminal id => terminal (id + o.classes)
  | lexeme id => lexeme (id + o.lexemes)
  | arguments id => arguments (id + o.argumentSets)
  | rule id => rule (id + o.rules)

def Rule.relocate (o : Offsets) (rule : Rule) : Rule := rule.map (·.map (·.relocate o))

def ArgumentSet.relocate (o : Offsets) (set : ArgumentSet) : ArgumentSet :=
  { set with members := set.members.map (· + o.rules) }

def Stack.relocate (o : Offsets) (s : Stack) : Stack :=
  { s with symbols := s.symbols.map (·.relocate o) }

/-- The symbol names something that the grammar has. -/
def Symbol.Within (g : JsonConstraint) : Symbol → Prop
  | terminal id => id < g.classes.length
  | lexeme id => id < g.lexemes.length
  | arguments id => id < g.argumentSets.length
  | rule id => id < g.rules.length

/-- Every symbol of the grammar names something that it has. -/
structure JsonConstraint.Closed (g : JsonConstraint) : Prop where
  rules : ∀ rule ∈ g.rules, ∀ sequence ∈ rule, ∀ symbol ∈ sequence, symbol.Within g
  members : ∀ set ∈ g.argumentSets, ∀ member ∈ set.members, member < g.rules.length

/-- `h` holds what `g` has, moved by the offsets. -/
structure Embeds (o : Offsets) (g h : JsonConstraint) : Prop where
  rules : ∀ {id rule}, g.rules[id]? = some rule →
    h.rules[id + o.rules]? = some (Rule.relocate o rule)
  classes : ∀ {id bits}, g.classes[id]? = some bits → h.classes[id + o.classes]? = some bits
  lexemes : ∀ {id lex}, g.lexemes[id]? = some lex → h.lexemes[id + o.lexemes]? = some lex
  argumentSets : ∀ {id set}, g.argumentSets[id]? = some set →
    h.argumentSets[id + o.argumentSets]? = some (set.relocate o)

section
variable {o : Offsets} {g h : JsonConstraint} {used : Words}

theorem Accepts.relocate (e : Embeds o g h) {s : Stack} {w : List Byte} (a : Accepts g s w) :
    Accepts h (s.relocate o) w := by
  induction a with
  | empty => exact .empty _ _
  | rule here mem _ ih =>
    refine .rule (e.rules here) (List.mem_map_of_mem mem) ?_
    simpa [Stack.relocate] using ih
  | choose here place fresh _ ih =>
    exact .choose (e.argumentSets here) (by simp [ArgumentSet.relocate, place]) fresh ih
  | close here done _ ih => exact .close (e.argumentSets here) done ih
  | terminal here bit _ ih => exact .terminal (e.classes here) bit ih
  | spell here allowed more _ ih => exact .spell (e.lexemes here) allowed more ih
  | spelled here allowed whole _ ih => exact .spelled (e.lexemes here) allowed whole ih

variable {symbols : Sequence}

theorem relocate_cons {s : Stack} {symbol : Symbol} {text : List Byte}
    (same : s.relocate o = ⟨symbol :: symbols, text, used⟩) :
    ∃ top rest, s = ⟨top :: rest, text, used⟩ ∧ top.relocate o = symbol ∧
      rest.map (·.relocate o) = symbols := by
  obtain ⟨_ | ⟨top, rest⟩, _, _⟩ := s
  · cases same
  · cases same
    exact ⟨top, rest, rfl, rfl, rfl⟩

theorem relocate_nil {s : Stack} {text : List Byte}
    (same : s.relocate o = ⟨[], text, used⟩) : s = ⟨[], text, used⟩ := by
  obtain ⟨_ | ⟨top, rest⟩, _, _⟩ := s <;> cases same
  rfl

theorem Accepts.of_relocate (e : Embeds o g h) (closed : g.Closed) {s : Stack} {w : List Byte}
    (a : Accepts h (s.relocate o) w) (within : ∀ symbol ∈ s.symbols, symbol.Within g) :
    Accepts g s w := by
  generalize same : s.relocate o = t at a
  induction a generalizing s with
  | empty text used =>
    rw [relocate_nil same]
    exact .empty _ _
  | rule here mem _ ih =>
    obtain ⟨top, rest, rfl, moved, rfl⟩ := relocate_cons same
    have inside := within top (List.mem_cons_self ..)
    cases top <;> cases moved
    have own := List.getElem?_eq_getElem inside
    cases here.symm.trans (e.rules own)
    obtain ⟨sequence, mem', rfl⟩ := List.mem_map.mp mem
    refine .rule own mem' (ih (fun symbol mem => ?_) (by simp [Stack.relocate]))
    rcases List.mem_append.mp mem with new | old
    · exact closed.rules _ (List.getElem_mem inside) _ mem' symbol new
    · exact within symbol (List.mem_cons_of_mem _ old)
  | choose here place fresh _ ih =>
    obtain ⟨top, rest, rfl, moved, rfl⟩ := relocate_cons same
    have inside := within top (List.mem_cons_self ..)
    cases top <;> cases moved
    have own := List.getElem?_eq_getElem inside
    cases here.symm.trans (e.argumentSets own)
    obtain ⟨member, place', rfl⟩ := Option.map_eq_some_iff.mp
      ((List.getElem?_map ..).symm.trans place)
    refine .choose own place' fresh (ih (fun symbol mem => ?_) rfl)
    rcases List.mem_cons.mp mem with rfl | old
    · exact closed.members _ (List.getElem_mem inside) _ (List.mem_of_getElem? place')
    · exact within symbol old
  | close here done _ ih =>
    obtain ⟨top, rest, rfl, moved, rfl⟩ := relocate_cons same
    have inside := within top (List.mem_cons_self ..)
    cases top <;> cases moved
    have own := List.getElem?_eq_getElem inside
    cases here.symm.trans (e.argumentSets own)
    exact .close own done (ih (fun symbol mem => within symbol (List.mem_cons_of_mem _ mem)) rfl)
  | terminal here bit _ ih =>
    obtain ⟨top, rest, rfl, moved, rfl⟩ := relocate_cons same
    have inside := within top (List.mem_cons_self ..)
    cases top <;> cases moved
    have own := List.getElem?_eq_getElem inside
    cases here.symm.trans (e.classes own)
    exact .terminal own bit (ih (fun symbol mem => within symbol (List.mem_cons_of_mem _ mem)) rfl)
  | spell here allowed more _ ih =>
    obtain ⟨top, rest, rfl, moved, rfl⟩ := relocate_cons same
    have inside := within top (List.mem_cons_self ..)
    cases top <;> cases moved
    have own := List.getElem?_eq_getElem inside
    cases here.symm.trans (e.lexemes own)
    exact .spell own allowed more (ih within rfl)
  | spelled here allowed whole _ ih =>
    obtain ⟨top, rest, rfl, moved, rfl⟩ := relocate_cons same
    have inside := within top (List.mem_cons_self ..)
    cases top <;> cases moved
    have own := List.getElem?_eq_getElem inside
    cases here.symm.trans (e.lexemes own)
    exact .spelled own allowed whole
      (ih (fun symbol mem => within symbol (List.mem_cons_of_mem _ mem)) rfl)

/-- Moved symbols generate what they generated in their own grammar. -/
theorem language_relocate (e : Embeds o g h) (closed : g.Closed)
    (within : ∀ symbol ∈ symbols, symbol.Within g) :
    language h (symbols.map (·.relocate o)) = language g symbols := by
  ext w
  exact ⟨fun a => @Accepts.of_relocate _ _ _ e closed ⟨symbols, [], []⟩ w a within,
    fun a => a.relocate e⟩

/-! ## Growing in place -/

@[simp]
theorem relocate_zero (s : Symbol) : s.relocate {} = s := by
  cases s <;> rfl

theorem Rule.relocate_zero (rule : Rule) : Rule.relocate {} rule = rule := by
  simp [Rule.relocate]

theorem ArgumentSet.relocate_zero (set : ArgumentSet) : set.relocate {} = set := by
  simp [ArgumentSet.relocate]

/-- A grammar that has grown still has what it had. -/
theorem Embeds.of_begins (rules : g.rules <+: h.rules) (classes : g.classes <+: h.classes)
    (lexemes : g.lexemes <+: h.lexemes) (sets : g.argumentSets <+: h.argumentSets) :
    Embeds {} g h where
  rules := fun here => by
    rw [Rule.relocate_zero]
    exact (Text.getElem?_eq rules (List.getElem?_eq_some_iff.mp here).1).trans here
  classes := fun here => (Text.getElem?_eq classes (List.getElem?_eq_some_iff.mp here).1).trans here
  lexemes := fun here => (Text.getElem?_eq lexemes (List.getElem?_eq_some_iff.mp here).1).trans here
  argumentSets := fun here => by
    rw [ArgumentSet.relocate_zero]
    exact (Text.getElem?_eq sets (List.getElem?_eq_some_iff.mp here).1).trans here

theorem Embeds.trans {o : Offsets} {k : JsonConstraint} (first : Embeds o g h)
    (second : Embeds {} h k) : Embeds o g k where
  rules := fun here => by simpa [Rule.relocate_zero] using second.rules (first.rules here)
  classes := fun here => second.classes (first.classes here)
  lexemes := fun here => second.lexemes (first.lexemes here)
  argumentSets := fun here => by
    simpa [ArgumentSet.relocate_zero] using second.argumentSets (first.argumentSets here)

/-- What is appended below leaves the language of what was there. -/
theorem language_keep (e : Embeds {} g h) (closed : g.Closed)
    (within : ∀ symbol ∈ symbols, symbol.Within g) : language h symbols = language g symbols := by
  have := language_relocate e closed within
  simpa using this

theorem Symbol.Within.keep (e : Embeds {} g h) {symbol : Symbol} (within : symbol.Within g) :
    symbol.Within h := by
  cases symbol with
  | terminal id =>
    exact (List.getElem?_eq_some_iff.mp (e.classes (List.getElem?_eq_getElem within))).1
  | lexeme id =>
    exact (List.getElem?_eq_some_iff.mp (e.lexemes (List.getElem?_eq_getElem within))).1
  | arguments id =>
    exact (List.getElem?_eq_some_iff.mp (e.argumentSets (List.getElem?_eq_getElem within))).1
  | rule id =>
    exact (List.getElem?_eq_some_iff.mp (e.rules (List.getElem?_eq_getElem within))).1

end

end Gufo.Constraint
