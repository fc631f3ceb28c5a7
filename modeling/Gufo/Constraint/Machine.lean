import Mathlib.Algebra.Order.Ring.Int

/-!
# The grammar machine

A `JsonConstraint` is a byte grammar whose state is a set of stacks. A stack's
symbols stand top first here. The used parameters are words of 64 bits, as the
required ones of an argument set are, and empty while no set is open.

The resource limits are parameters: `Limits.code` are those of the program.
-/

namespace Gufo.Constraint

abbrev Byte := UInt8

structure Match where
  isPrefix : Bool
  complete : Bool

/-- What the machine asks of a `JsonSchemaLexeme`. -/
structure Lexeme where
  allowsByte : Byte → Bool
  advance : List Byte → Byte → Match × List Byte

/-- The kind bits of a symbol and the number below them. -/
inductive Symbol where
  | terminal (id : Nat)
  | lexeme (id : Nat)
  | arguments (id : Nat)
  | rule (id : Nat)
  deriving DecidableEq, Repr

abbrev Sequence := List Symbol
abbrev Rule := List Sequence
abbrev Words := List (BitVec 64)

structure ArgumentSet where
  members : List Nat
  required : Words

structure JsonConstraint where
  rules : List Rule := []
  classes : List (Byte → Bool) := []
  lexemes : List Lexeme := []
  argumentSets : List ArgumentSet := []
  root : Nat := 0
  stopOnlyWhenComplete : Bool := true
  automaticTools : Bool := false
  reasoningToolPrefix : List Byte := []
  reasoningToolRoot : Nat := 0

structure Stack where
  symbols : List Symbol
  lexeme : List Byte := []
  usedParameters : Words := []
  deriving DecidableEq, Repr

abbrev State := List Stack

structure Limits where
  work : Nat
  states : Nat
  stack : Nat

/-- `kMaxWork`, `kMaxStates` and `kMaxStack`. -/
def Limits.code : Limits := ⟨2000000, 8192, 16384⟩

/-! ## The order of the stacks -/

def Symbol.encode : Symbol → Nat
  | terminal id => 2 ^ 31 + id
  | lexeme id => 2 ^ 30 + id
  | arguments id => 2 ^ 29 + id
  | rule id => id

def lexicographic : List Nat → List Nat → Ordering
  | [], [] => .eq
  | [], _ :: _ => .lt
  | _ :: _, [] => .gt
  | a :: as, b :: bs => (compare a b).then (lexicographic as bs)

/-- `operator<=>` of the stacks, whose symbols it reads bottom first. -/
def Stack.order (a b : Stack) : Ordering :=
  let by_ (key : Stack → List Nat) := lexicographic (key a) (key b)
  (by_ fun s => s.symbols.reverse.map Symbol.encode).then <|
    (by_ fun s => s.lexeme.map UInt8.toNat).then
      (by_ fun s => s.usedParameters.map BitVec.toNat)

/-- `std::unique` -/
def unique : State → State
  | [] => []
  | [a] => [a]
  | a :: b :: rest => if a = b then unique (b :: rest) else a :: unique (b :: rest)

def sorted (state : State) : State :=
  unique (state.mergeSort fun a b => (a.order b).isLE)

/-! ## Argument sets -/

/-- `words[i / 64] & (1ULL << (i % 64))` -/
def Words.bit (words : Words) (i : Nat) : Bool := (words[i / 64]?.getD 0).getLsbD (i % 64)

/-- `words[i / 64] |= 1ULL << (i % 64)` -/
def Words.mark (words : Words) (i : Nat) : Words :=
  words.modify (i / 64) fun word => word ||| BitVec.twoPow 64 (i % 64)

/-- The used parameters once the set is open. -/
def ArgumentSet.opened (set : ArgumentSet) (used : Words) : Words :=
  if used.isEmpty then List.replicate set.required.length 0 else used

/-- Whether every required member is used. -/
def ArgumentSet.satisfied (set : ArgumentSet) (used : Words) : Bool :=
  set.required.zipIdx.all fun (word, i) => used[i]?.getD 0 &&& word = word

/-- The stacks that go on with a member not used yet. -/
def ArgumentSet.choices (set : ArgumentSet) (id : Nat) (rest : Stack) : List Stack :=
  let used := set.opened rest.usedParameters
  set.members.zipIdx.filterMap fun (member, i) =>
    if used.bit i then none
    else some
      { rest with
        symbols := .rule member :: .arguments id :: rest.symbols
        usedParameters := used.mark i }

/-! ## Expanding -/

/-- `std::vector::at` -/
def at_ {α : Type} (l : List α) (i : Nat) : Except String α :=
  match l[i]? with
  | some a => pure a
  | none => throw "vector::at"

/-- What an argument set on the top becomes, in the order it is pushed. -/
def unfoldArguments (limits : Limits) (g : JsonConstraint) (count id : Nat) (rest : Stack) :
    Except String (List Stack) := do
  let set ← at_ g.argumentSets id
  if limits.stack < rest.symbols.length + 2 then
    throw "JSON grammar stack limit exceeded"
  let next := set.choices id rest
  if 0 < next.length ∧ limits.states < count + next.length then
    throw "JSON grammar state limit exceeded"
  return next ++ if set.satisfied (set.opened rest.usedParameters) then
    [{ rest with usedParameters := [] }] else []

/-- What a rule on the top becomes. -/
def unfoldRule (limits : Limits) (g : JsonConstraint) (id : Nat) (rest : Stack) :
    Except String (List Stack) := do
  let rule ← at_ g.rules id
  if rule.any fun sequence => limits.stack < rest.symbols.length + sequence.length then
    throw "JSON grammar stack limit exceeded"
  return rule.map fun sequence => { rest with symbols := sequence ++ rest.symbols }

/-- The loop of `Expand`, whose work is counted down. The last of the pending
stacks stands first. -/
def expandLoop (limits : Limits) (g : JsonConstraint) :
    Nat → List Stack → State → Except String State
  | _, [], output => pure output
  | 0, _ :: _, _ => throw "JSON grammar state limit exceeded"
  | work + 1, stack :: pending, output =>
    if limits.states < pending.length + 1 + output.length then
      throw "JSON grammar state limit exceeded"
    else
      match stack.symbols with
      | .arguments id :: symbols => do
        let next ←
          unfoldArguments limits g (pending.length + output.length) id { stack with symbols }
        expandLoop limits g work (next.reverse ++ pending) output
      | .rule id :: symbols => do
        let next ← unfoldRule limits g id { stack with symbols }
        expandLoop limits g work (next.reverse ++ pending) output
      | _ => expandLoop limits g work pending (output ++ [stack])

/-- `Expand` -/
def expand (limits : Limits) (g : JsonConstraint) (pending : List Stack) : Except String State := do
  return sorted (← expandLoop limits g limits.work pending.reverse [])

/-- `Start` -/
def start (limits : Limits) (g : JsonConstraint) : Except String State :=
  expand limits g [{ symbols := [.rule g.root] }]

/-! ## Advancing -/

/-- The class a symbol that is no lexeme is looked up in. -/
def Symbol.classIndex : Symbol → Nat
  | terminal id => id
  | symbol => symbol.encode

/-- What one stack becomes with a byte, before it is expanded. -/
def advanceStack (g : JsonConstraint) (byte : Byte) (stack : Stack) : Except String (List Stack) :=
  match stack.symbols with
  | [] => pure []
  | .lexeme id :: rest => do
    let lexeme ← at_ g.lexemes id
    if !lexeme.allowsByte byte then return []
    let (result, spelled) := lexeme.advance stack.lexeme byte
    return (if result.isPrefix then [{ stack with lexeme := spelled }] else []) ++
      if result.complete then [{ stack with symbols := rest, lexeme := [] }] else []
  | symbol :: rest => do
    let bits ← at_ g.classes symbol.classIndex
    return if bits byte then [{ stack with symbols := rest }] else []

/-- `Advance` -/
def advance (limits : Limits) (g : JsonConstraint) (state : State) (byte : Byte) :
    Except String State := do
  expand limits g (← state.mapM (advanceStack g byte)).flatten

/-- `Complete` -/
def complete (state : State) : Bool := state.any (·.symbols.isEmpty)

/-- `Start`, then `Advance` for each byte. -/
def run (limits : Limits) (g : JsonConstraint) (bytes : List Byte) : Except String State := do
  bytes.foldlM (advance limits g) (← start limits g)

/-! ## Tokens -/

structure Piece where
  text : List Byte
  stop : Bool := false

/-- The loop of `Allows`. -/
def survives (limits : Limits) (g : JsonConstraint) : State → List Byte → Except String Bool
  | _, [] => return true
  | state, byte :: text => do
    let next ← advance limits g state byte
    if next.isEmpty then return false else survives limits g next text

/-- `Allows` of the vocabulary. -/
def allows (limits : Limits) (g : JsonConstraint) (state : State) (piece : Piece) :
    Except String Bool :=
  if g.stopOnlyWhenComplete && complete state then return piece.stop
  else if piece.stop then return complete state
  else if piece.text.isEmpty then return g.automaticTools && complete state
  else survives limits g state piece.text

/-- `Accept` of the vocabulary. -/
def accept (limits : Limits) (g : JsonConstraint) (state : State) (piece : Piece) :
    Except String State :=
  if (piece.stop || g.automaticTools && piece.text.isEmpty) && complete state then return state
  else if piece.stop || piece.text.isEmpty then
    throw "invalid token accepted by JSON constraint"
  else do
    let next ← piece.text.foldlM (advance limits g) state
    if next.isEmpty then throw "invalid token accepted by JSON constraint" else return next

end Gufo.Constraint
