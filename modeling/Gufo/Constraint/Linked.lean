import Gufo.Constraint.Linking

/-!
# What a linked grammar generates

Each tool has its own alternative of a call, whose arguments are generated by the root
of the tool's grammar. Without an answer the output is free text, and a call once the
marker has come up.
-/

namespace Gufo.Constraint

variable {format : ToolFormat}

section
variable {X : Nat → Prop} {g h : JsonConstraint} {heap : Nat → Program}

theorem Keeps.weaken (keeps : Keeps (fun _ => False) g h) (X : Nat → Prop) : Keeps X g h :=
  keeps.mono fun _ _ no => no.elim

/-- Steps that append only, seen from what was there. -/
theorem Extends.keeps {α : Type} {m : Compile α} {P : α → Prop} {a : α}
    (extends_ : Extends g.rules.length m P) (ok : m g = .ok (a, h)) :
    Keeps (fun _ => False) g h ∧ P a := by
  obtain ⟨keeps, holds⟩ := extends_ g (Nat.le_refl _) a h ok
  exact ⟨keeps.mono fun id lt le => absurd lt (Nat.not_lt.mpr le), holds⟩

theorem push_ok {rule : Rule} {id : Nat} (ok : push rule g = .ok (id, h)) :
    id = g.rules.length ∧ h.rules = g.rules ++ [rule] ∧ Keeps (fun _ => False) g h := by
  cases ok
  exact ⟨rfl, rfl, keeps_append _ g [rule]⟩

theorem append_ok {id : Nat} {sequence : Sequence} {u : Unit}
    (ok : append id sequence g = .ok (u, h)) :
    Keeps (· = id) g h ∧
      ∀ rule, g.rules[id]? = some rule → h.rules[id]? = some (rule ++ [sequence]) := by
  cases ok
  refine ⟨⟨fun {i rule} fixed here => ?_, by simp, List.prefix_refl _, List.prefix_refl _,
    List.prefix_refl _⟩, fun rule here => ?_⟩
  · have differ : id ≠ i := fun same => fixed same.symm
    simp [here, differ]
  · simp [here]

/-! ## Imported grammars -/

/-- The grammar at the address stands in `g`, where nothing changes any more. -/
def Standing (X : Nat → Prop) (heap : Nat → Program) (g : JsonConstraint) (address root : Nat) :
    Prop :=
  ∃ o : Offsets, root = (heap address).grammar.root + o.rules ∧
    Embeds o (heap address).grammar g ∧
    ∀ id < (heap address).grammar.rules.length, ¬X (id + o.rules)

variable {address root : Nat}

theorem Standing.keep (standing : Standing X heap g address root)
    (keeps : Keeps X g h) : Standing X heap h address root := by
  obtain ⟨o, is, embeds, fixed⟩ := standing
  refine ⟨o, is, ⟨fun {id rule} here => ?_, fun {id bits} here => ?_, fun {id lex} here => ?_,
    fun {id set} here => ?_⟩, fixed⟩
  · exact keeps.rules (fixed id (List.getElem?_eq_some_iff.mp here).1) (embeds.rules here)
  · have there := embeds.classes here
    exact (Text.getElem?_eq keeps.classes (List.getElem?_eq_some_iff.mp there).1).trans there
  · have there := embeds.lexemes here
    exact (Text.getElem?_eq keeps.lexemes (List.getElem?_eq_some_iff.mp there).1).trans there
  · have there := embeds.argumentSets here
    exact (Text.getElem?_eq keeps.argumentSets (List.getElem?_eq_some_iff.mp there).1).trans there

/-- The language that a grammar has on its own. -/
def Program.language (p : Program) : Language Byte :=
  Constraint.language p.grammar [.rule p.grammar.root]

theorem Standing.language (standing : Standing X heap g address root) :
    language g [.rule root] = (heap address).language := by
  obtain ⟨o, rfl, embeds, -⟩ := standing
  have within : ∀ symbol ∈ [Symbol.rule (heap address).grammar.root],
      symbol.Within (heap address).grammar := by
    simpa [Symbol.Within] using (heap address).root
  exact language_relocate embeds (heap address).closed within

theorem importGrammar_ok
    (ok : importGrammar (heap address).grammar g = .ok (root, h))
    (fresh : ∀ id, X id → id < g.rules.length) :
    Keeps (fun _ => False) g h ∧ Standing X heap h address root := by
  obtain ⟨_, k, room, ok₁⟩ := bind_ok ok
  cases checkCapacity_ok room
  cases ok₁
  refine ⟨⟨fun _ here => (List.getElem?_append_left
    (List.getElem?_eq_some_iff.mp here).1).trans here, by simp, List.prefix_append ..,
    List.prefix_append .., List.prefix_append ..⟩, ⟨g.rules.length, g.classes.length,
    g.lexemes.length, g.argumentSets.length⟩, rfl, ⟨fun {id rule} here => ?_,
    fun {id bits} here => ?_, fun {id lex} here => ?_, fun {id set} here => ?_⟩, fun id _ x => ?_⟩
  · rw [List.getElem?_append_right (Nat.le_add_left ..), Nat.add_sub_cancel, List.getElem?_map,
      here]
    rfl
  · rw [List.getElem?_append_right (Nat.le_add_left ..), Nat.add_sub_cancel, here]
  · rw [List.getElem?_append_right (Nat.le_add_left ..), Nat.add_sub_cancel, here]
  · rw [List.getElem?_append_right (Nat.le_add_left ..), Nat.add_sub_cancel, List.getElem?_map,
      here]
    rfl
  · exact absurd (fresh _ x) (by simp)

/-- Every grammar that counts as imported stands where it is said to. -/
def Imported (X : Nat → Prop) (heap : Nat → Program) (g : JsonConstraint)
    (imported : List (Nat × Nat)) : Prop :=
  ∀ entry ∈ imported, Standing X heap g entry.1 entry.2

theorem Imported.keep {imported : List (Nat × Nat)} (all : Imported X heap g imported)
    (keeps : Keeps X g h) : Imported X heap h imported :=
  fun entry mem => (all entry mem).keep keeps

theorem mem_of_lookup {imported : List (Nat × Nat)}
    (found : imported.lookup address = some root) : (address, root) ∈ imported := by
  obtain ⟨before, after, rfl, -⟩ := List.lookup_eq_some_iff.mp found
  simp

variable {imported imported' : List (Nat × Nat)}

theorem importOnce_ok
    (ok : importOnce heap imported address g = .ok ((root, imported'), h))
    (all : Imported X heap g imported) (fresh : ∀ id, X id → id < g.rules.length) :
    Keeps (fun _ => False) g h ∧ Standing X heap h address root ∧ Imported X heap h imported' := by
  unfold importOnce at ok
  cases found : imported.lookup address with
  | some there =>
    rw [found] at ok
    cases ok
    exact ⟨.refl _, all _ (mem_of_lookup found), all⟩
  | none =>
    rw [found] at ok
    obtain ⟨_, k, new, ok₁⟩ := bind_ok ok
    cases ok₁
    obtain ⟨keeps, standing⟩ := importGrammar_ok new fresh
    refine ⟨keeps, standing, fun entry mem => ?_⟩
    rcases List.mem_cons.mp mem with rfl | old
    · exact standing
    · exact (all entry old).keep (keeps.weaken X)

/-! ## The alternatives of a call -/

/-- The rules that grow with each tool. -/
def Frame.Open (frame : Frame) (id : Nat) : Prop := id = frame.calls ∨ frame.reasoning = some id

/-- The rules of the frame are there, and apart. -/
structure Frame.Within (frame : Frame) (g : JsonConstraint) : Prop where
  calls : frame.calls < g.rules.length
  reasoning : ∀ id ∈ frame.reasoning, frame.calls < id ∧ id < g.rules.length

variable {frame : Frame}

theorem Frame.Within.keep (within : frame.Within g) (keeps : Keeps X g h) :
    frame.Within h :=
  ⟨within.calls.trans_le keeps.grown, fun id is =>
    ⟨(within.reasoning id is).1, (within.reasoning id is).2.trans_le keeps.grown⟩⟩

theorem Frame.Within.fresh (within : frame.Within g) :
    ∀ id, frame.Open id → id < g.rules.length := by
  rintro id (rfl | is)
  · exact within.calls
  · exact (within.reasoning id is).2

/-- The sequence calls the tool: its root generates what its grammar does. -/
def Calls (heap : Nat → Program) (frame : Frame) (g : JsonConstraint) (tool : String × Nat)
    (sequence : Sequence) : Prop :=
  ∃ begin_ root, sequence = [.rule begin_, .rule root, .rule frame.close, .rule frame.after] ∧
    Standing frame.Open heap g tool.2 root

theorem Calls.keep {tool : String × Nat} {sequence : Sequence}
    (calls : Calls heap frame g tool sequence) (keeps : Keeps frame.Open g h) :
    Calls heap frame h tool sequence := by
  obtain ⟨begin_, root, eq, standing⟩ := calls
  exact ⟨begin_, root, eq, standing.keep keeps⟩

theorem toolLiteral_ok {text : List Byte} {id : Nat} (ok : toolLiteral text g = .ok (id, h)) :
    Keeps (fun _ => False) g h := ((extends_toolLiteral text).keeps ok).1

theorem linkTool_ok
    {tool : String × Nat} (ok : linkTool heap format frame imported tool g = .ok (imported', h))
    (within : frame.Within g) (all : Imported frame.Open heap g imported) :
    Keeps frame.Open g h ∧ Imported frame.Open heap h imported' ∧
      ∀ rule, g.rules[frame.calls]? = some rule → ∃ sequence,
        h.rules[frame.calls]? = some (rule ++ [sequence]) ∧ Calls heap frame h tool sequence := by
  obtain ⟨begin_, g₁, opened, ok₁⟩ := bind_ok ok
  obtain ⟨⟨root, known⟩, g₂, once, ok₂⟩ := bind_ok ok₁
  obtain ⟨_, g₃, called, ok₃⟩ := bind_ok ok₂
  have keeps₁ := toolLiteral_ok opened
  obtain ⟨keeps₂, standing, all₂⟩ := importOnce_ok once (all.keep (keeps₁.weaken _))
    (within.keep keeps₁).fresh
  obtain ⟨only, grown⟩ := append_ok called
  have keeps₃ : Keeps frame.Open g₂ g₃ := only.mono fun id _ same => .inl same
  have two := (keeps₁.weaken frame.Open).trans (keeps₂.weaken frame.Open)
  have rule₂ : ∀ rule, g.rules[frame.calls]? = some rule → g₂.rules[frame.calls]? = some rule :=
    fun rule here => keeps₂.rules nofun (keeps₁.rules nofun here)
  cases reads : frame.reasoning with
  | none =>
    rw [reads] at ok₃
    cases ok₃
    exact ⟨two.trans keeps₃, all₂.keep keeps₃, fun rule here =>
      ⟨_, grown rule (rule₂ rule here), begin_, root, rfl, standing.keep keeps₃⟩⟩
  | some reasoning =>
    rw [reads] at ok₃
    obtain ⟨name, g₄, spelled, ok₄⟩ := bind_ok ok₃
    obtain ⟨_, g₅, again, ok₅⟩ := bind_ok ok₄
    cases ok₅
    have keeps₄ := toolLiteral_ok spelled
    obtain ⟨only', -⟩ := append_ok again
    have keeps₅ : Keeps frame.Open g₄ h :=
      only'.mono fun id _ same => .inr (same ▸ reads)
    have last := (keeps₄.weaken frame.Open).trans keeps₅
    have apart : frame.calls ≠ reasoning := ((within.reasoning reasoning reads).1).ne
    refine ⟨(two.trans keeps₃).trans last, (all₂.keep keeps₃).keep last, fun rule here => ?_⟩
    refine ⟨_, ?_, begin_, root, rfl, (standing.keep keeps₃).keep last⟩
    exact only'.rules apart (keeps₄.rules nofun (grown rule (rule₂ rule here)))

theorem linkTools_ok
    {tools : List (String × Nat)}
    (ok : linkTools heap format frame imported tools g = .ok (imported', h))
    (within : frame.Within g) (all : Imported frame.Open heap g imported) :
    Keeps frame.Open g h ∧ ∀ rule, g.rules[frame.calls]? = some rule → ∃ more,
      h.rules[frame.calls]? = some (rule ++ more) ∧
        List.Forall₂ (Calls heap frame h) tools more := by
  induction tools generalizing g imported with
  | nil =>
    cases ok
    exact ⟨.refl _, fun rule here => ⟨[], by simpa using here, .nil⟩⟩
  | cons tool tools ih =>
    obtain ⟨known, k, one, ok₁⟩ := bind_ok ok
    obtain ⟨keeps, all', called⟩ := linkTool_ok one within all
    obtain ⟨keeps', rest⟩ := ih ok₁ (within.keep keeps) all'
    refine ⟨keeps.trans keeps', fun rule here => ?_⟩
    obtain ⟨sequence, there, calls⟩ := called rule here
    obtain ⟨more, now, others⟩ := rest _ there
    exact ⟨sequence :: more, by simpa using now, .cons (calls.keep keeps') others⟩

/-! ## The frame -/

theorem frameOf_ok {parallel plain : Bool}
    {prose : Option Nat} (ok : frameOf format parallel plain g = .ok ((frame, prose), h)) :
    Keeps (fun _ => False) g h ∧ frame.Within h ∧ g.rules.length ≤ frame.calls ∧
      h.rules[frame.calls]? = some [] ∧
      (plain = true → ∃ base, prose = some base ∧
        HasText h (marker format) (some frame.calls) base ∧
        ∀ begun < (marker format).length, ¬frame.Open (base + begun)) := by
  obtain ⟨close, g₁, closed, ok₁⟩ := bind_ok ok
  obtain ⟨calls, g₂, pushed, ok₂⟩ := bind_ok ok₁
  obtain ⟨_, g₃, texted, ok₃⟩ := bind_ok ok₂
  obtain ⟨after, g₄, called, ok₄⟩ := bind_ok ok₃
  obtain ⟨reasoning, g₅, read, ok₅⟩ := bind_ok ok₄
  cases ok₅
  have keeps₁ := toolLiteral_ok closed
  obtain ⟨place, rules₂, keeps₂⟩ := push_ok pushed
  have empty₂ : g₂.rules[calls]? = some [] := by rw [rules₂, place]; simp
  have keeps₃ : Keeps (fun _ => False) g₂ g₃ := by
    cases plain with
    | false => cases texted; exact .refl _
    | true =>
      obtain ⟨base, k, built, rest⟩ := bind_ok texted
      cases rest
      exact (text_ok built).2.2.1
  obtain ⟨keeps₄, -⟩ := (extends_afterCall format parallel calls _).keeps called
  obtain ⟨keeps₅, high⟩ := (extends_reasoningRoot format).keeps read
  have inside₂ : calls < g₂.rules.length := (List.getElem?_eq_some_iff.mp empty₂).1
  have grown₄ : g₂.rules.length ≤ g₄.rules.length := keeps₃.grown.trans keeps₄.grown
  have inside : ∀ id ∈ reasoning, id < h.rules.length := by
    rintro id is
    unfold reasoningRoot at read
    split at read
    · cases read
      cases is
    · cases read
      cases is
      simp
  refine ⟨keeps₁.trans (keeps₂.trans (keeps₃.trans (keeps₄.trans keeps₅))),
    ⟨inside₂.trans_le (grown₄.trans keeps₅.grown), fun id is => ⟨?_, inside id is⟩⟩,
    place ▸ keeps₁.grown, keeps₅.rules nofun (keeps₄.rules nofun (keeps₃.rules nofun empty₂)), ?_⟩
  · exact inside₂.trans_le (grown₄.trans (high id is))
  · rintro rfl
    obtain ⟨base, k, built, rest⟩ := bind_ok texted
    cases rest
    obtain ⟨at_, length, -, states⟩ := text_ok built
    refine ⟨base, rfl, (states.keep keeps₄ fun _ _ => id).keep keeps₅ fun _ _ => id, ?_⟩
    rintro begun lt (same | is)
    · have : base + begun = calls := same
      omega
    · have low := high _ is
      have := keeps₄.grown
      omega

end

/-! ## The linked grammar -/

/-- What the linked grammar generates, with the rule of the calls. -/
structure Links (heap : Nat → Program) (answer : Option Nat) (tools : List (String × Nat))
    (required : Bool) (format : ToolFormat) (g : JsonConstraint) (calls : Nat) : Prop where
  /-- A call has one alternative for each tool, around the language of the tool's grammar. -/
  called : ∃ rule close after, g.rules[calls]? = some rule ∧
    List.Forall₂ (fun tool sequence => ∃ begin_ root,
      sequence = [.rule begin_, .rule root, .rule close, .rule after] ∧
        language g [.rule root] = (heap tool.2).language) tools rule
  /-- The answer keeps its language. -/
  kept : ∀ address ∈ answer,
    language g [.rule (heap address).grammar.root] = (heap address).language
  /-- Free text, or free text up to the first marker and then a call. -/
  plain : answer = none → required = false → ∀ w, w ∈ language g [.rule g.root] ↔
    Free (marker format) w ∨
      ∃ u v, w = u ++ v ∧ FirstAtEnd (marker format) u ∧ v ∈ language g [.rule calls]

theorem marker_nonempty (format : ToolFormat) : marker format ≠ [] := by
  cases format <;> decide

theorem link_ok {heap : Nat → Program} {object : Program} {answer : Option Nat}
    {tools : List (String × Nat)} {required parallel : Bool}
    {r : Frame × List (Nat × Nat)} {g : JsonConstraint}
    (ok : link heap answer tools required parallel format
      (begun heap object answer required parallel) = .ok (r, g)) :
    Links heap answer tools required format g r.1.calls := by
  obtain ⟨⟨frame, prose⟩, g₁, framed, ok₁⟩ := bind_ok ok
  obtain ⟨imported, g₂, linked, ok₂⟩ := bind_ok ok₁
  obtain ⟨first, g₃, entered, ok₃⟩ := bind_ok ok₂
  obtain ⟨_, g₄, room, ok₄⟩ := bind_ok ok₃
  obtain ⟨root, g₅, pushed, ok₅⟩ := bind_ok ok₄
  cases checkCapacity_ok room
  obtain ⟨_, _, moved, ok₆⟩ := bind_ok ok₅
  cases moved
  cases ok₆
  obtain ⟨keeps₁, within, beyond, empty, text⟩ := frameOf_ok framed
  have known : Imported frame.Open heap g₁
      (answer.toList.map fun address => (address, (heap address).grammar.root)) := by
    rintro entry mem
    obtain ⟨address, inList, rfl⟩ := List.mem_map.mp mem
    have is : answer = some address := by simpa using inList
    subst is
    have start : Standing (fun _ => False) heap
        (begun heap object (some address) required parallel) address (heap address).grammar.root :=
      ⟨{}, rfl, .of_begins (List.prefix_refl _) (List.prefix_refl _) (List.prefix_refl _)
        (List.prefix_refl _), fun _ _ => id⟩
    obtain ⟨o, at_, embeds, -⟩ := start.keep keeps₁
    refine ⟨o, at_, embeds, ?_⟩
    have zero : o.rules = 0 := by
      omega
    rintro id lt open_
    rw [zero, Nat.add_zero] at open_
    have below : id < frame.calls := Nat.lt_of_lt_of_le lt beyond
    rcases open_ with rfl | is
    · omega
    · have := (within.reasoning id is).1
      omega
  obtain ⟨keeps₂, alternatives⟩ := linkTools_ok linked within known
  obtain ⟨more, calls₂, called⟩ := alternatives [] empty
  obtain ⟨keeps₃, -⟩ := (extends_entrance format required frame.calls prose).keeps entered
  obtain ⟨place, rules₅, keeps₅⟩ := push_ok pushed
  have last : Keeps (fun _ => False) g₂ { g₅ with root } :=
    (keeps₃.trans keeps₅).trans ⟨fun _ here => here, Nat.le_refl _, List.prefix_refl _,
      List.prefix_refl _, List.prefix_refl _⟩
  constructor
  · refine ⟨more, frame.close, frame.after, last.rules nofun calls₂, called.imp ?_⟩
    rintro tool sequence ⟨begin_, root', eq, standing⟩
    exact ⟨begin_, root', eq, (standing.keep (last.weaken _)).language⟩
  · rintro address is
    have standing := known _ (List.mem_map.mpr ⟨address, by simpa using is, rfl⟩)
    exact ((standing.keep keeps₂).keep (last.weaken _)).language
  · rintro rfl rfl w
    obtain ⟨base, rfl, states, apart⟩ := text rfl
    have states' := (states.keep keeps₂ apart).keep last fun _ _ => id
    cases entered
    have here : g₅.rules[root]? = some [[.rule base]] := by rw [rules₅, place]; simp
    have free : Free (marker format) [] := fun inside =>
      marker_nonempty format (List.infix_nil.mp inside)
    have text := @text_language _ [] _ _ _ states' free w
    have zero : border (marker format) [] = 0 := Nat.le_zero.mp (longestMatch_le _ _)
    rw [zero, Nat.add_zero, List.nil_append] at text
    rw [mem_language_rule (show { g₅ with root }.rules[root]? = _ from here)]
    simp [text]

/-- In the linked grammar each imported root generates the language of its own grammar.
Without an answer and with nothing required, the complete outputs are the free texts and
the calls after the first marker. Without tools the answer stays as it is. -/
theorem withTools_preserves (heap : Nat → Program) (object : Program) (answer : Option Nat)
    (tools : List (String × Nat)) (required parallel : Bool) (format : ToolFormat) :
    match withTools heap object answer tools required parallel format with
    | .error _ => tools ≠ []
    | .ok none => tools = [] ∧ answer = none
    | .ok (some g) =>
      (tools = [] ∧ ∃ address, answer = some address ∧ g = (heap address).grammar) ∨
        ∃ calls, Links heap answer tools required format g calls ∧
          (answer = none → required = false → ∀ limits bytes state,
            run limits g bytes = .ok state → (complete state = true ↔ Free (marker format) bytes ∨
              ∃ u v, bytes = u ++ v ∧ FirstAtEnd (marker format) u ∧
                v ∈ language g [.rule calls])) := by
  unfold withTools
  cases tools with
  | nil => cases answer <;> simp
  | cons tool tools =>
    cases ran : link heap answer (tool :: tools) required parallel format
        (begun heap object answer required parallel) with
    | error e => exact nofun
    | ok p =>
      have links := link_ok ran
      refine .inr ⟨p.1.1.calls, links, fun plain optional limits bytes state read => ?_⟩
      rw [run_complete read, links.plain plain optional]

end Gufo.Constraint
