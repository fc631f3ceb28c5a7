import Gufo.Constraint.Prose

/-!
# Linked grammars

Whatever is appended or changed later, an imported grammar keeps its rules, classes,
lexemes and argument sets where it was put, so that its root generates what it did.
-/

namespace Gufo.Constraint

/-- Only rules in `X` may have changed; everything else stands where it stood. -/
structure Keeps (X : Nat → Prop) (g h : JsonConstraint) : Prop where
  rules : ∀ {id rule}, ¬X id → g.rules[id]? = some rule → h.rules[id]? = some rule
  grown : g.rules.length ≤ h.rules.length
  classes : g.classes <+: h.classes
  lexemes : g.lexemes <+: h.lexemes
  argumentSets : g.argumentSets <+: h.argumentSets

section
variable {X Y : Nat → Prop} {g h k : JsonConstraint}

theorem Keeps.refl (g : JsonConstraint) : Keeps X g g :=
  ⟨fun _ here => here, Nat.le_refl _, List.prefix_refl _, List.prefix_refl _, List.prefix_refl _⟩

theorem Keeps.trans (first : Keeps X g h) (second : Keeps X h k) : Keeps X g k where
  rules := fun fixed here => second.rules fixed (first.rules fixed here)
  grown := first.grown.trans second.grown
  classes := first.classes.trans second.classes
  lexemes := first.lexemes.trans second.lexemes
  argumentSets := first.argumentSets.trans second.argumentSets

theorem Keeps.mono (keeps : Keeps X g h) (sub : ∀ id < g.rules.length, X id → Y id) :
    Keeps Y g h where
  rules := fun fixed here => keeps.rules
    (fun x => fixed (sub _ (List.getElem?_eq_some_iff.mp here).1 x)) here
  grown := keeps.grown
  classes := keeps.classes
  lexemes := keeps.lexemes
  argumentSets := keeps.argumentSets

theorem keeps_append (X : Nat → Prop) (g : JsonConstraint) (more : List Rule) :
    Keeps X g { g with rules := g.rules ++ more } where
  rules := fun _ here =>
    (List.getElem?_append_left (List.getElem?_eq_some_iff.mp here).1).trans here
  grown := by simp
  classes := List.prefix_refl _
  lexemes := List.prefix_refl _
  argumentSets := List.prefix_refl _

end

/-- A run of two steps. -/
theorem bind_ok {α β : Type} {m : Compile α} {f : α → Compile β} {g k : JsonConstraint} {b : β}
    (ok : (m >>= f) g = .ok (b, k)) : ∃ a h, m g = .ok (a, h) ∧ f a h = .ok (b, k) := by
  change Except.bind (m g) (fun p => f p.1 p.2) = _ at ok
  cases ran : m g with
  | error e => rw [ran] at ok; cases ok
  | ok p =>
    rw [ran] at ok
    exact ⟨p.1, p.2, rfl, ok⟩

/-! ## What later steps leave alone -/

/-- From `low` on, the step may change rules as it likes; its value is as `P` says. -/
def Extends {α : Type} (low : Nat) (m : Compile α) (P : α → Prop) : Prop :=
  ∀ g, low ≤ g.rules.length → ∀ a h, m g = .ok (a, h) → Keeps (low ≤ ·) g h ∧ P a

section
variable {α β : Type} {low : Nat} {P : α → Prop} {Q : β → Prop}

theorem Extends.pure {a : α} (holds : P a) : Extends low (pure a) P := by
  rintro g _ _ _ eq
  cases eq
  exact ⟨.refl _, holds⟩

theorem Extends.bind {m : Compile α} {f : α → Compile β} (first : Extends low m P)
    (second : ∀ a, P a → Extends low (f a) Q) : Extends low (m >>= f) Q := by
  rintro g le b k eq
  obtain ⟨a, h, ran, rest⟩ := bind_ok eq
  obtain ⟨keeps, holds⟩ := first g le a h ran
  obtain ⟨keeps', holds'⟩ := second a holds h (le.trans keeps.grown) b k rest
  exact ⟨keeps.trans keeps', holds'⟩

theorem checkCapacity_ok {rules classes lexemes sets : Nat} {g h : JsonConstraint} {u : Unit}
    (ok : checkCapacity rules classes lexemes sets g = .ok (u, h)) : h = g := by
  unfold checkCapacity at ok
  dsimp only at ok
  split at ok <;> cases ok
  rfl

theorem extends_checkCapacity (rules classes lexemes sets : Nat) :
    Extends low (checkCapacity rules classes lexemes sets) fun _ => True :=
  fun _ _ _ _ ok => checkCapacity_ok ok ▸ ⟨.refl _, trivial⟩

theorem extends_push (rule : Rule) : Extends low (push rule) (low ≤ ·) := by
  rintro g le _ _ eq
  cases eq
  exact ⟨keeps_append _ g [rule], le⟩

theorem extends_append {id : Nat} (le : low ≤ id) (sequence : Sequence) :
    Extends low (append id sequence) fun _ => True := by
  rintro g _ _ _ eq
  cases eq
  refine ⟨⟨fun {i rule} fixed here => ?_, by simp, List.prefix_refl _, List.prefix_refl _,
    List.prefix_refl _⟩, trivial⟩
  have differ : id ≠ i := by
    rintro rfl
    exact fixed le
  simp [here, differ]

theorem extends_assign {id : Nat} (le : low ≤ id) (rule : Rule) :
    Extends low (assign id rule) fun _ => True := by
  rintro g _ _ _ eq
  cases eq
  refine ⟨⟨fun {i rule} fixed here => ?_, by simp, List.prefix_refl _, List.prefix_refl _,
    List.prefix_refl _⟩, trivial⟩
  have differ : id ≠ i := by
    rintro rfl
    exact fixed le
  simp [here, differ]

theorem extends_class (bits : Byte → Bool) : Extends low (class_ bits) fun _ => True := by
  rintro g _ _ _ eq
  cases eq
  exact ⟨⟨fun _ here => here, Nat.le_refl _, List.prefix_append .., List.prefix_refl _,
    List.prefix_refl _⟩, trivial⟩

theorem extends_toolLiteral (text : List Byte) : Extends low (toolLiteral text) (low ≤ ·) :=
  .bind (extends_checkCapacity 1 0 0 0) fun _ _ => extends_push _

theorem extends_pad (indent : Symbol) (count : Nat) {padding : Nat} :
    Extends low (pad indent count padding) fun _ => True := by
  induction count generalizing padding with
  | zero => exact .pure trivial
  | succ count ih => exact .bind (extends_push _) fun _ _ => ih

theorem extends_spaceRule : Extends low spaceRule (low ≤ ·) := by
  refine .bind (extends_push _) fun space le => ?_
  refine .bind (extends_toolLiteral _) fun single _ => ?_
  refine .bind (extends_toolLiteral _) fun newline _ => ?_
  refine .bind (extends_toolLiteral _) fun double _ => ?_
  refine .bind (extends_class _) fun indent _ => ?_
  refine .bind (extends_push _) fun first _ => .bind (extends_pad _ _) fun padding _ => ?_
  refine .bind (extends_append le _) fun _ _ => ?_
  refine .bind (extends_append le _) fun _ _ => ?_
  exact .bind (extends_append le _) fun _ _ => .pure le

theorem extends_another {format : ToolFormat} {parallel : Bool} {after calls : Nat}
    (le : low ≤ after) (before : Sequence) :
    Extends low (another format parallel after calls before) fun _ => True := by
  unfold another
  split
  · exact .bind (extends_toolLiteral _) fun _ _ => extends_append le _
  · exact .pure trivial

end

/-! ## Free text -/

section
variable {g h : JsonConstraint} {marker : List Byte} {target : Option Nat} {base begun : Nat}

/-- The transitions add classes only, and are those of the state for the numbers tried. -/
theorem transitions_ok {numbers : List Nat} {rule : Rule}
    (ok : transitions marker target base begun numbers g = .ok (rule, h)) :
    h.rules = g.rules ∧ Keeps (fun _ => False) g h ∧
      (∀ sequence ∈ rule, ∃ matched c,
        sequence = [.terminal c, .rule (next marker target base matched)] ∧
          h.classes[c]? = some (reads marker begun matched) ∧
          (matched = marker.length → target ≠ none)) ∧
      ∀ byte matched, matched ∈ numbers → transition marker begun byte = matched →
        (matched = marker.length → target ≠ none) →
          ∃ c, [.terminal c, .rule (next marker target base matched)] ∈ rule ∧
            h.classes[c]? = some (reads marker begun matched) := by
  induction numbers generalizing g rule with
  | nil =>
    cases ok
    exact ⟨rfl, .refl _, nofun, nofun⟩
  | cons number numbers ih =>
    rw [transitions] at ok
    split at ok
    · rename_i none
      obtain ⟨same, keeps, sound, complete⟩ := ih ok
      refine ⟨same, keeps, sound, fun byte matched mem leads goes => ?_⟩
      rcases List.mem_cons.mp mem with rfl | later
      · rcases none with empty | ⟨all, no⟩
        · have := List.all_eq_true.mp empty byte.toNat (List.mem_range.mpr byte.toNat_lt)
          simp [leads] at this
        · exact absurd no (goes all)
      · exact complete byte matched later leads goes
    · rename_i live
      obtain ⟨terminal, _, new, ok⟩ := bind_ok ok
      cases new
      obtain ⟨more, k, rest, ok⟩ := bind_ok ok
      cases ok
      obtain ⟨same, keeps, sound, complete⟩ := ih rest
      · have here : h.classes[g.classes.length]? = some (reads marker begun number) :=
          (Text.getElem?_eq keeps.classes (by simp)).trans (by simp [reads, funext_iff])
        refine ⟨same, ⟨fun _ => keeps.rules id, keeps.grown,
          (List.prefix_append ..).trans keeps.classes, keeps.lexemes, keeps.argumentSets⟩,
          fun sequence mem => ?_, fun byte matched mem leads goes => ?_⟩
        · rcases List.mem_cons.mp mem with rfl | later
          · exact ⟨number, _, rfl, here, fun all no => live (.inr ⟨all, no⟩)⟩
          · exact sound sequence later
        · rcases List.mem_cons.mp mem with rfl | later
          · exact ⟨_, List.mem_cons_self .., here⟩
          · obtain ⟨c, inRest, there⟩ := complete byte matched later leads goes
            exact ⟨c, List.mem_cons_of_mem _ inRest, there⟩

theorem transition_le (byte : Byte) : transition marker begun byte ≤ marker.length :=
  (longestMatch_le _ _).trans (Nat.min_le_right ..)

/-- A state keeps its classes. -/
theorem IsState.keep {X : Nat → Prop} {rule : Rule}
    (state : IsState g marker target base begun rule) (keeps : Keeps X g h) :
    IsState h marker target base begun rule := by
  have classes : ∀ {c bits}, g.classes[c]? = some bits → h.classes[c]? = some bits := fun here =>
    (Text.getElem?_eq keeps.classes (List.getElem?_eq_some_iff.mp here).1).trans here
  constructor
  · intro sequence mem
    obtain ⟨matched, c, eq, here, goes⟩ := state.sound sequence mem
    exact ⟨matched, c, eq, classes here, goes⟩
  · intro byte matched leads goes
    obtain ⟨c, mem, here⟩ := state.complete byte matched leads goes
    exact ⟨c, mem, classes here⟩

theorem states_ok {numbers : List Nat} {rules : List Rule}
    (ok : states marker target base numbers g = .ok (rules, h)) :
    h.rules = g.rules ∧ Keeps (fun _ => False) g h ∧
      List.Forall₂ (fun begun rule => ∃ rest, rule = [] :: rest ∧
        IsState h marker target base begun rest) numbers rules := by
  induction numbers generalizing g rules with
  | nil =>
    cases ok
    exact ⟨rfl, .refl _, .nil⟩
  | cons begun numbers ih =>
    obtain ⟨rule, k, one, ok⟩ := bind_ok ok
    obtain ⟨rest, l, more, ok⟩ := bind_ok ok
    cases ok
    obtain ⟨same, keeps, sound, complete⟩ := transitions_ok one
    obtain ⟨same', keeps', all⟩ := ih more
    have state : IsState k marker target base begun rule :=
      ⟨sound, fun byte matched leads goes => complete byte matched (List.mem_range.mpr
        (Nat.lt_succ_of_le (leads ▸ transition_le byte))) leads goes⟩
    exact ⟨same'.trans same, keeps.trans keeps', .cons ⟨rule, rfl, state.keep keeps'⟩ all⟩

/-- The states stand behind what was there. -/
theorem text_ok (ok : text marker target g = .ok (base, h)) :
    base = g.rules.length ∧ h.rules.length = base + marker.length ∧
      Keeps (fun _ => False) g h ∧ HasText h marker target base := by
  obtain ⟨_, k, room, ok₁⟩ := bind_ok ok
  cases checkCapacity_ok room
  obtain ⟨_, _, now, ok₂⟩ := bind_ok ok₁
  cases now
  obtain ⟨rules, l, built, ok₃⟩ := bind_ok ok₂
  cases ok₃
  obtain ⟨same, keeps, all⟩ := states_ok built
  have count : rules.length = marker.length := by simpa using all.length_eq.symm
  refine ⟨rfl, by simp [same, count], keeps.trans (keeps_append _ l rules), fun begun lt => ?_⟩
  have inRange : begun < rules.length := count.symm ▸ lt
  obtain ⟨rest, eq, state⟩ := (List.forall₂_iff_get.mp all).2 begun (by simpa using lt) inRange
  refine ⟨rest, ?_, ?_⟩
  · rw [← same]
    rw [List.getElem?_append_right (Nat.le_add_right ..), Nat.add_sub_cancel_left,
      List.getElem?_eq_getElem inRange]
    exact congrArg some eq
  · simpa using state.keep (keeps_append (fun _ => False) l rules)

theorem HasText.keep {X : Nat → Prop} (states : HasText g marker target base) (keeps : Keeps X g h)
    (fixed : ∀ begun < marker.length, ¬X (base + begun)) : HasText h marker target base := by
  intro begun lt
  obtain ⟨rule, here, state⟩ := states begun lt
  exact ⟨rule, keeps.rules (fixed begun lt) here, state.keep keeps⟩

end

section
variable {low : Nat}

theorem extends_text (marker : List Byte) (target : Option Nat) :
    Extends low (text marker target) (low ≤ ·) := by
  rintro g le base h ok
  obtain ⟨rfl, -, keeps, -⟩ := text_ok ok
  exact ⟨keeps.mono fun _ _ no => no.elim, le⟩

theorem extends_afterCall (format : ToolFormat) (parallel : Bool) (calls : Nat)
    (prose : Option Nat) : Extends low (afterCall format parallel calls prose) fun _ => True := by
  cases format with
  | qwen =>
    refine .bind (extends_push _) fun after le => .bind extends_spaceRule fun space _ => ?_
    refine .bind (extends_assign le _) fun _ _ => ?_
    exact .bind (extends_another le _) fun _ _ => .pure trivial
  | deepSeek =>
    refine .bind (extends_push _) fun after le => .bind (extends_toolLiteral _) fun finish _ => ?_
    refine .bind (extends_push _) fun tail le => ?_
    cases parallel with
    | false => exact .pure trivial
    | true => exact .bind (extends_append le _) fun _ _ => .pure trivial
  | json =>
    cases prose with
    | none =>
      refine .bind (extends_push _) fun after le => ?_
      exact .bind (extends_another le _) fun _ _ => .pure trivial
    | some prose =>
      cases parallel with
      | false => exact fun g le a h ok => ⟨(extends_text _ _ g le a h ok).1, trivial⟩
      | true => exact .pure trivial

theorem extends_reasoningRoot (format : ToolFormat) :
    Extends low (reasoningRoot format) fun r => ∀ id ∈ r, low ≤ id := by
  unfold reasoningRoot
  split
  · exact .pure nofun
  · rintro g le r h ok
    cases ok
    refine ⟨?_, by rintro _ ⟨⟩; exact le⟩
    exact ⟨(keeps_append (low ≤ ·) g [[]]).rules, (keeps_append (low ≤ ·) g [[]]).grown,
      List.prefix_refl _, List.prefix_refl _, List.prefix_refl _⟩

theorem extends_entrance (format : ToolFormat) (required : Bool) (calls : Nat)
    (prose : Option Nat) : Extends low (entrance format required calls prose) fun _ => True := by
  unfold entrance
  split
  · exact .pure trivial
  · split
    · exact .bind (extends_toolLiteral _) fun _ _ => .pure trivial
    · refine .bind (extends_class _) fun terminal _ => ?_
      refine .bind (P := fun _ => True) ?_ fun g _ => ?_
      · rintro g _ a h ok
        cases ok
        exact ⟨.refl _, trivial⟩
      · refine .bind (extends_push _) fun ws _ => ?_
        exact .bind (extends_toolLiteral _) fun _ _ => .pure trivial

end

end Gufo.Constraint
