import Gufo.Constraint.Building
import Gufo.Json.Value

/-!
# Linking tools

`JsonConstraint::WithTools` appends the grammar of each tool's arguments to a copy of
the answer's grammar, each grammar once, and builds the calls around them. Before the
calls the output is free text, followed by a small automaton that looks for the marker.

A shared pointer is an address, and `heap` says which grammar stands there. The cache
of linked grammars is left out.
-/

namespace Gufo.Constraint

inductive ToolFormat where
  | json
  | qwen
  | deepSeek
  deriving DecidableEq, Repr

/-- A grammar as the compiler leaves it: all its symbols name something it has. -/
structure Program where
  grammar : JsonConstraint
  closed : grammar.Closed
  root : grammar.root < grammar.rules.length

/-- The bytes of a literal. -/
def utf8 (literal : String) : List Byte := literal.toUTF8.data.toList

/-! ## The texts of a format -/

def marker : ToolFormat → List Byte
  | .deepSeek => utf8 "<｜DSML｜tool_calls>"
  | _ => utf8 "<tool_call>"

/-- What follows the arguments. -/
def closing : ToolFormat → List Byte
  | .json => utf8 "\x7d</tool_call>"
  | .deepSeek => utf8 "</｜DSML｜invoke>"
  | .qwen => utf8 "</function>\n</tool_call>"

/-- What stands before the arguments of the tool. -/
def opening (name : String) : ToolFormat → List Byte
  | .json => utf8 ("\x7b\"name\":" ++ String.ofList (Json.Value.quoted name) ++ ",\"arguments\":")
  | .deepSeek => utf8 ("\n<｜DSML｜invoke name=\"" ++ name ++ "\">\n")
  | .qwen => utf8 ("\n<function=" ++ name ++ ">\n")

/-- The end of the opening, after reasoning has spelled its beginning. -/
def named (name : String) : ToolFormat → List Byte
  | .deepSeek => utf8 (name ++ "\">\n")
  | _ => utf8 (name ++ ">\n")

def reasoningPrefix : ToolFormat → List Byte
  | .deepSeek => utf8 "<｜DSML｜tool_calls>\n<｜DSML｜invoke name=\""
  | _ => utf8 "<tool_call>\n<function="

/-! ## Small steps -/

def checkCapacity (rules classes lexemes argumentSets : Nat) : Compile Unit := fun g =>
  let fits (current extra : Nat) := decide (current ≤ kMaxRules ∧ extra ≤ kMaxRules - current)
  if fits g.rules.length rules && fits g.classes.length classes &&
      fits g.lexemes.length lexemes && fits g.argumentSets.length argumentSets then
    .ok ((), g)
  else .error (.invalid "JSON Schema: combined tool grammar exceeds its resource budget")

/-- `rules_.push_back`, and the number of the rule. -/
def push (rule : Rule) : Compile Nat := fun g =>
  .ok (g.rules.length, { g with rules := g.rules ++ [rule] })

/-- `rules_[id].push_back` -/
def append (id : Nat) (sequence : Sequence) : Compile Unit := fun g =>
  .ok ((), { g with rules := g.rules.modify id (· ++ [sequence]) })

/-- `rules_[id] =` -/
def assign (id : Nat) (rule : Rule) : Compile Unit := fun g =>
  .ok ((), { g with rules := g.rules.set id rule })

def toolLiteral (text : List Byte) : Compile Nat := do
  checkCapacity 1 0 0 0
  push [text.map fun b => .terminal b.toNat]

/-! ## Free text -/

/-- The longest beginning of the marker, of at most so many bytes, that ends the candidate. -/
def longestMatch (marker candidate : List Byte) : Nat → Nat
  | 0 => 0
  | matched + 1 =>
    if marker.take (matched + 1) <:+ candidate then matched + 1
    else longestMatch marker candidate matched

/-- How much of the marker is there after one more byte. -/
def transition (marker : List Byte) (begun : Nat) (byte : Byte) : Nat :=
  let candidate := marker.take begun ++ [byte]
  longestMatch marker candidate (min candidate.length marker.length)

/-- The transitions of one state, and the classes they read. -/
def transitions (marker : List Byte) (target : Option Nat) (base begun : Nat) :
    List Nat → Compile Rule
  | [] => pure []
  | matched :: rest =>
    if (List.range 256).all (fun b => transition marker begun (UInt8.ofNat b) ≠ matched) ∨
        matched = marker.length ∧ target = none then
      transitions marker target base begun rest
    else do
      let terminal ← class_ fun byte => decide (transition marker begun byte = matched)
      let next := if matched = marker.length then target.getD 0 else base + matched
      return [terminal, .rule next] :: (← transitions marker target base begun rest)

/-- A state for each beginning of the marker; every state may end the text. -/
def states (marker : List Byte) (target : Option Nat) (base : Nat) :
    List Nat → Compile (List Rule)
  | [] => pure []
  | begun :: rest => do
    let rule ← transitions marker target base begun (List.range (marker.length + 1))
    return ([] :: rule) :: (← states marker target base rest)

/-- `text`: free text, and the marker goes to the target, if there is one. -/
def text (marker : List Byte) (target : Option Nat) : Compile Nat := do
  checkCapacity marker.length (marker.length * 256) 0 0
  let base := (← get).rules.length
  let rules ← states marker target base (List.range marker.length)
  modify fun g => { g with rules := g.rules ++ rules }
  return base

/-! ## After a call -/

def pad (indent : Symbol) : Nat → Nat → Compile Nat
  | 0, padding => pure padding
  | count + 1, padding => do pad indent count (← push [[], [indent, .rule padding]])

/-- Empty, one space, or one or two newlines and up to 20 spaces and tabs. -/
def spaceRule : Compile Nat := do
  let space ← push [[]]
  let single ← toolLiteral (utf8 " ")
  let newline ← toolLiteral (utf8 "\n")
  let double ← toolLiteral (utf8 "\n\n")
  let indent ← class_ fun byte => decide (byte = 32 ∨ byte = 9)
  let padding ← pad indent 20 (← push [[]])
  append space [.rule single]
  append space [.rule newline, .rule padding]
  append space [.rule double, .rule padding]
  return space

/-- Another call, where calls may follow each other. The program names `rules_[after]`
before the literal is appended; the reference is taken to stay valid. -/
def another (format : ToolFormat) (parallel : Bool) (after calls : Nat) (before : Sequence) :
    Compile Unit :=
  if parallel then do
    let begin_ ← toolLiteral (marker format)
    append after (before ++ [.rule begin_, .rule calls])
  else pure ()

/-- The rule after a call. `prose` is there when there is no answer. -/
def afterCall (format : ToolFormat) (parallel : Bool) (calls : Nat) (prose : Option Nat) :
    Compile Nat :=
  match format with
  | .qwen => do
    let after ← push [[]]
    let space ← spaceRule
    assign after [[.rule space]]
    another format parallel after calls [.rule space]
    return after
  | .deepSeek => do
    let after ← push [[]]
    let finish ← toolLiteral (utf8 "\n</｜DSML｜tool_calls>")
    let tail ← push [[.rule finish, .rule after]]
    if parallel then append tail [.rule calls]
    return tail
  | .json =>
    match prose with
    | none => do
      let after ← push [[]]
      another format parallel after calls []
      return after
    | some prose => if parallel then pure prose else text (marker format) none

/-! ## The tools -/

/-- The grammar appended, and where its root is now. -/
def importGrammar (arguments : JsonConstraint) : Compile Nat := do
  checkCapacity arguments.rules.length arguments.classes.length arguments.lexemes.length
    arguments.argumentSets.length
  fun g =>
    let o : Offsets :=
      ⟨g.rules.length, g.classes.length, g.lexemes.length, g.argumentSets.length⟩
    .ok (arguments.root + o.rules,
      { g with
        classes := g.classes ++ arguments.classes
        lexemes := g.lexemes ++ arguments.lexemes
        argumentSets := g.argumentSets ++ arguments.argumentSets.map (·.relocate o)
        rules := g.rules ++ arguments.rules.map (Rule.relocate o) })

/-- The root of a tool's grammar, which is appended unless it has been already. -/
def importOnce (heap : Nat → Program) (imported : List (Nat × Nat)) (address : Nat) :
    Compile (Nat × List (Nat × Nat)) :=
  match imported.lookup address with
  | some root => pure (root, imported)
  | none => do
    let root ← importGrammar (heap address).grammar
    return (root, (address, root) :: imported)

/-- The rules that the calls share. -/
structure Frame where
  calls : Nat
  close : Nat
  after : Nat
  /-- `reasoning_tool_root_`, which native formats have. -/
  reasoning : Option Nat

def linkTool (heap : Nat → Program) (format : ToolFormat) (frame : Frame)
    (imported : List (Nat × Nat)) (tool : String × Nat) : Compile (List (Nat × Nat)) := do
  let begin_ ← toolLiteral (opening tool.1 format)
  let (root, imported) ← importOnce heap imported tool.2
  append frame.calls [.rule begin_, .rule root, .rule frame.close, .rule frame.after]
  match frame.reasoning with
  | none => return imported
  | some reasoning =>
    let name ← toolLiteral (named tool.1 format)
    append reasoning [.rule name, .rule root, .rule frame.close, .rule frame.after]
    return imported

def linkTools (heap : Nat → Program) (format : ToolFormat) (frame : Frame) :
    List (Nat × Nat) → List (String × Nat) → Compile (List (Nat × Nat))
  | imported, [] => pure imported
  | imported, tool :: tools => do
    linkTools heap format frame (← linkTool heap format frame imported tool) tools

/-- The rule that native calls are read with after reasoning. -/
def reasoningRoot (format : ToolFormat) : Compile (Option Nat) :=
  if format = .json then pure none
  else do
    modify fun g => { g with reasoningToolPrefix := reasoningPrefix format }
    let id ← push []
    modify fun g => { g with reasoningToolRoot := id }
    return some id

/-- The alternative that the output begins with. -/
def entrance (format : ToolFormat) (required : Bool) (calls : Nat) (prose : Option Nat) :
    Compile Sequence :=
  match prose, required with
  | some prose, false => pure [.rule prose]
  | _, _ =>
    if format = .json then do
      return [.rule (← toolLiteral (marker format)), .rule calls]
    else do
      let terminal ← class_ fun byte => decide (byte ∈ utf8 " \t\r\n")
      let ws := (← get).rules.length
      let ws ← push [[], [terminal, .rule ws]]
      return [.rule ws, .rule (← toolLiteral (marker format)), .rule calls]

/-- The free text before the calls, which an answer takes the place of. -/
def proseOf (format : ToolFormat) (plain : Bool) (calls : Nat) : Compile (Option Nat) :=
  if plain then do return some (← text (marker format) (some calls)) else pure none

/-- The frame of the calls, and the free text before them. -/
def frameOf (format : ToolFormat) (parallel plain : Bool) : Compile (Frame × Option Nat) := do
  let close ← toolLiteral (closing format)
  let calls ← push []
  let prose ← proseOf format plain calls
  let after ← afterCall format parallel calls prose
  return (⟨calls, close, after, ← reasoningRoot format⟩, prose)

/-- What `WithTools` builds: the frame, and where each grammar was appended. -/
def link (heap : Nat → Program) (answer : Option Nat) (tools : List (String × Nat))
    (required parallel : Bool) (format : ToolFormat) : Compile (Frame × List (Nat × Nat)) := do
  let (frame, prose) ← frameOf format parallel answer.isNone
  let known := answer.toList.map fun address => (address, (heap address).grammar.root)
  let imported ← linkTools heap format frame known tools
  let plain := if required then [] else known.map fun (_, root) => [Symbol.rule root]
  let first ← entrance format required frame.calls prose
  checkCapacity 1 0 0 0
  let root ← push (plain ++ [first])
  modify fun g => { g with root }
  return (frame, imported)

/-- The grammar that the linking starts from; `Object()` if there is no answer. -/
def begun (heap : Nat → Program) (object : Program) (answer : Option Nat)
    (required parallel : Bool) : JsonConstraint :=
  let g := match answer with
    | some address => (heap address).grammar
    | none => object.grammar
  { g with
    stopOnlyWhenComplete := answer.isSome && !parallel
    automaticTools := answer.isNone && !required }

/-- `WithTools`; without tools the answer stays as it is. -/
def withTools (heap : Nat → Program) (object : Program) (answer : Option Nat)
    (tools : List (String × Nat)) (required parallel : Bool) (format : ToolFormat) :
    Except Failure (Option JsonConstraint) :=
  if tools.isEmpty then .ok (answer.map fun address => (heap address).grammar)
  else
    match link heap answer tools required parallel format
        (begun heap object answer required parallel) with
    | .ok (_, g) => .ok (some g)
    | .error reason => .error reason

end Gufo.Constraint
