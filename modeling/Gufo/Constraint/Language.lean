import Gufo.Constraint.Machine
import Mathlib.Computability.Language

/-!
# What a grammar accepts

`Accepts` says which bytes take a stack to an empty one. The machine follows every
such run at once, so a state is complete exactly when the bytes read are accepted.
-/

namespace Gufo.Constraint

inductive Accepts (g : JsonConstraint) : Stack → List Byte → Prop
  | empty (lexeme used) : Accepts g ⟨[], lexeme, used⟩ []
  | rule {id rule sequence symbols lexeme used w} (here : g.rules[id]? = some rule)
      (mem : sequence ∈ rule) (rest : Accepts g ⟨sequence ++ symbols, lexeme, used⟩ w) :
      Accepts g ⟨.rule id :: symbols, lexeme, used⟩ w
  | choose {id set i member symbols lexeme used w} (here : g.argumentSets[id]? = some set)
      (place : set.members[i]? = some member) (fresh : (set.opened used).bit i = false)
      (rest : Accepts g
        ⟨.rule member :: .arguments id :: symbols, lexeme, (set.opened used).mark i⟩ w) :
      Accepts g ⟨.arguments id :: symbols, lexeme, used⟩ w
  | close {id set symbols lexeme used w} (here : g.argumentSets[id]? = some set)
      (done : set.satisfied (set.opened used) = true)
      (rest : Accepts g ⟨symbols, lexeme, []⟩ w) :
      Accepts g ⟨.arguments id :: symbols, lexeme, used⟩ w
  | terminal {id bits symbols lexeme used byte w} (here : g.classes[id]? = some bits)
      (bit : bits byte = true) (rest : Accepts g ⟨symbols, lexeme, used⟩ w) :
      Accepts g ⟨.terminal id :: symbols, lexeme, used⟩ (byte :: w)
  | spell {id lex symbols lexeme used byte w} (here : g.lexemes[id]? = some lex)
      (allowed : lex.allowsByte byte = true)
      (more : (lex.advance lexeme byte).1.isPrefix = true)
      (rest : Accepts g ⟨.lexeme id :: symbols, (lex.advance lexeme byte).2, used⟩ w) :
      Accepts g ⟨.lexeme id :: symbols, lexeme, used⟩ (byte :: w)
  | spelled {id lex symbols lexeme used byte w} (here : g.lexemes[id]? = some lex)
      (allowed : lex.allowsByte byte = true)
      (whole : (lex.advance lexeme byte).1.complete = true)
      (rest : Accepts g ⟨symbols, [], used⟩ w) :
      Accepts g ⟨.lexeme id :: symbols, lexeme, used⟩ (byte :: w)

/-- The bytes that a sequence of symbols generates. -/
def language (g : JsonConstraint) (symbols : Sequence) : Language Byte :=
  {w | Accepts g ⟨symbols, [], []⟩ w}

/-! ## The machine follows every run -/

section
variable {limits : Limits} {g : JsonConstraint} {w : List Byte}

/-- Some stack of the state accepts the bytes. -/
def Some (g : JsonConstraint) (state : State) (w : List Byte) : Prop :=
  ∃ stack ∈ state, Accepts g stack w

@[simp]
theorem some_nil : ¬Some g [] w := by simp [Some]

variable {state : State} {stack : Stack}

@[simp]
theorem some_cons :
    Some g (stack :: state) w ↔ Accepts g stack w ∨ Some g state w := by simp [Some]

@[simp]
theorem some_append {a b : State} : Some g (a ++ b) w ↔ Some g a w ∨ Some g b w := by
  simp [Some, or_and_right, exists_or]

@[simp]
theorem some_reverse {a : State} : Some g a.reverse w ↔ Some g a w := by simp [Some]

theorem mem_unique : stack ∈ unique state ↔ stack ∈ state := by
  fun_induction unique state with
  | case1 => rfl
  | case2 => rfl
  | case3 a rest ih => rw [ih]; simp
  | case4 a b rest _ ih => rw [List.mem_cons, ih, List.mem_cons (a := stack) (b := a)]

theorem mem_sorted : stack ∈ sorted state ↔ stack ∈ state := by
  rw [sorted, mem_unique, List.mem_mergeSort]

theorem at_ok {α : Type} {l : List α} {i : Nat} {a : α} : at_ l i = .ok a ↔ l[i]? = some a := by
  unfold at_
  cases l[i]? with
  | none => exact iff_of_false nofun nofun
  | some b => exact ⟨fun h => by cases h; rfl, fun h => by cases h; rfl⟩

/-- The top of the stack reads a byte, or the stack is empty. -/
def Stack.Leaf (stack : Stack) : Prop :=
  (∀ id symbols, stack.symbols ≠ .rule id :: symbols) ∧
    ∀ id symbols, stack.symbols ≠ .arguments id :: symbols

theorem accepts_rule {id : Nat} {rest : Stack} :
    Accepts g { rest with symbols := .rule id :: rest.symbols } w ↔
      ∃ rule, g.rules[id]? = some rule ∧
        ∃ sequence ∈ rule, Accepts g { rest with symbols := sequence ++ rest.symbols } w := by
  constructor
  · intro h
    cases h with
    | rule here mem rest => exact ⟨_, here, _, mem, rest⟩
  · rintro ⟨_, here, _, mem, rest⟩
    exact .rule here mem rest

theorem accepts_arguments {id : Nat} {rest : Stack} :
    Accepts g { rest with symbols := .arguments id :: rest.symbols } w ↔
      ∃ set, g.argumentSets[id]? = some set ∧
        ((∃ i member, set.members[i]? = some member ∧
            (set.opened rest.usedParameters).bit i = false ∧
            Accepts g { rest with
              symbols := .rule member :: .arguments id :: rest.symbols
              usedParameters := (set.opened rest.usedParameters).mark i } w) ∨
          set.satisfied (set.opened rest.usedParameters) = true ∧
            Accepts g { rest with usedParameters := [] } w) := by
  constructor
  · intro h
    cases h with
    | choose here place fresh rest => exact ⟨_, here, .inl ⟨_, _, place, fresh, rest⟩⟩
    | close here done rest => exact ⟨_, here, .inr ⟨done, rest⟩⟩
  · rintro ⟨_, here, ⟨_, _, place, fresh, rest⟩ | ⟨done, rest⟩⟩
    · exact .choose here place fresh rest
    · exact .close here done rest

variable {next : List Stack}

theorem unfoldRule_ok {id : Nat} {rest : Stack}
    (h : unfoldRule limits g id rest = .ok next) :
    Some g next w ↔ Accepts g { rest with symbols := .rule id :: rest.symbols } w := by
  unfold unfoldRule at h
  cases found : at_ g.rules id with
  | error reason => rw [found] at h; cases h
  | ok rule =>
    rw [found] at h
    simp only [bind, Except.bind] at h
    split at h
    · cases h
    · cases h
      rw [accepts_rule]
      have here := at_ok.mp found
      simp [Some, here]

theorem some_choices {set : ArgumentSet} {id : Nat} {rest : Stack} :
    Some g (set.choices id rest) w ↔
      ∃ i member, set.members[i]? = some member ∧
        (set.opened rest.usedParameters).bit i = false ∧
        Accepts g { rest with
          symbols := .rule member :: .arguments id :: rest.symbols
          usedParameters := (set.opened rest.usedParameters).mark i } w := by
  simp only [Some, ArgumentSet.choices, List.mem_filterMap, Prod.exists,
    List.mem_zipIdx_iff_getElem?]
  constructor
  · rintro ⟨_, ⟨member, i, place, same⟩, accepts⟩
    split at same
    · cases same
    · rename_i fresh
      cases same
      exact ⟨i, member, place, by simpa using fresh, accepts⟩
  · rintro ⟨i, member, place, fresh, accepts⟩
    exact ⟨_, ⟨member, i, place, by rw [fresh]; rfl⟩, accepts⟩

theorem unfoldArguments_ok {count id : Nat} {rest : Stack}
    (h : unfoldArguments limits g count id rest = .ok next) :
    Some g next w ↔ Accepts g { rest with symbols := .arguments id :: rest.symbols } w := by
  unfold unfoldArguments at h
  cases found : at_ g.argumentSets id with
  | error reason => rw [found] at h; cases h
  | ok set =>
    rw [found] at h
    simp only [bind, Except.bind] at h
    split at h
    · cases h
    · split at h
      · cases h
      · cases h
        have here := at_ok.mp found
        rw [accepts_arguments, some_append, some_choices]
        cases done : set.satisfied (set.opened rest.usedParameters) <;> simp [here, done]

theorem expandLoop_ok {work : Nat} {pending output result : State}
    (h : expandLoop limits g work pending output = .ok result) (leaf : ∀ s ∈ output, s.Leaf) :
    (∀ s ∈ result, s.Leaf) ∧ ∀ w, Some g result w ↔ Some g (pending ++ output) w := by
  induction work generalizing pending output with
  | zero =>
    cases pending with
    | nil => cases h; exact ⟨leaf, fun w => by simp⟩
    | cons => cases h
  | succ work ih =>
    cases pending with
    | nil => cases h; exact ⟨leaf, fun w => by simp⟩
    | cons stack pending =>
      unfold expandLoop at h
      split at h
      · cases h
      · split at h
        case h_1 id symbols top =>
          cases next : unfoldArguments limits g (pending.length + output.length) id
              { stack with symbols } with
          | error reason => rw [next] at h; cases h
          | ok nexts =>
            rw [next] at h
            obtain ⟨leaf, same⟩ := ih h leaf
            refine ⟨leaf, fun w => ?_⟩
            have unfolded := unfoldArguments_ok (w := w) next
            rw [← top] at unfolded
            simp [same w, unfolded]
        case h_2 id symbols top =>
          cases next : unfoldRule limits g id { stack with symbols } with
          | error reason => rw [next] at h; cases h
          | ok nexts =>
            rw [next] at h
            obtain ⟨leaf, same⟩ := ih h leaf
            refine ⟨leaf, fun w => ?_⟩
            have unfolded := unfoldRule_ok (w := w) next
            rw [← top] at unfolded
            simp [same w, unfolded]
        case h_3 noArguments noRule =>
          obtain ⟨leaf, same⟩ := ih h (fun s mem => by
            rcases List.mem_append.mp mem with old | new
            · exact leaf s old
            · rw [List.mem_singleton.mp new]
              exact ⟨noRule, noArguments⟩)
          exact ⟨leaf, fun w => by rw [same w]; simp; tauto⟩

theorem expand_ok {pending state : State} (h : expand limits g pending = .ok state) :
    (∀ s ∈ state, s.Leaf) ∧ ∀ w, Some g state w ↔ Some g pending w := by
  unfold expand at h
  cases loop : expandLoop limits g limits.work pending.reverse [] with
  | error reason => rw [loop] at h; cases h
  | ok output =>
    rw [loop] at h
    cases h
    obtain ⟨leaf, same⟩ := expandLoop_ok loop nofun
    refine ⟨fun s mem => leaf s (mem_sorted.mp mem), fun w => ?_⟩
    have := same w
    simp only [Some, mem_sorted, List.append_nil, List.mem_reverse] at this ⊢
    exact this

theorem advanceStack_ok {byte : Byte} (leaf : stack.Leaf)
    (h : advanceStack g byte stack = .ok next) :
    Some g next w ↔ Accepts g stack (byte :: w) := by
  obtain ⟨symbols, lexeme, used⟩ := stack
  unfold advanceStack at h
  match symbols with
  | [] =>
    cases h
    exact iff_of_false some_nil nofun
  | .lexeme id :: rest =>
    dsimp only at h
    cases found : at_ g.lexemes id with
    | error reason => rw [found] at h; cases h
    | ok lex =>
      rw [found] at h
      have here := at_ok.mp found
      simp only [bind, Except.bind] at h
      constructor
      · intro some
        split at h
        · cases h
          exact absurd some some_nil
        · rename_i allowed
          cases h
          have allowed : lex.allowsByte byte = true := by simpa using allowed
          rcases some_append.mp some with more | whole
          · split at more
            · rename_i isPrefix
              exact .spell here allowed isPrefix (by simpa using more)
            · exact absurd more some_nil
          · split at whole
            · rename_i complete
              exact .spelled here allowed complete (by simpa using whole)
            · exact absurd whole some_nil
      · intro accepts
        cases accepts with
        | spell here' allowed more rest =>
          cases here.symm.trans here'
          rw [if_neg (by simp [allowed])] at h
          cases h
          rw [if_pos more, some_append]
          exact .inl (by simpa using rest)
        | spelled here' allowed whole rest =>
          cases here.symm.trans here'
          rw [if_neg (by simp [allowed])] at h
          cases h
          rw [if_pos whole, some_append]
          exact .inr (by simpa using rest)
  | .terminal id :: rest =>
    dsimp only [Symbol.classIndex] at h
    cases found : at_ g.classes id with
    | error reason => rw [found] at h; cases h
    | ok bits =>
      rw [found] at h
      cases h
      have here := at_ok.mp found
      constructor
      · intro some
        split at some
        · rename_i bit
          exact .terminal here bit (by simpa using some)
        · exact absurd some some_nil
      · intro accepts
        cases accepts with
        | terminal here' bit rest =>
          cases here.symm.trans here'
          rw [if_pos bit]
          simpa using rest
  | .arguments id :: rest => exact absurd rfl (leaf.2 id rest)
  | .rule id :: rest => exact absurd rfl (leaf.1 id rest)

theorem mapM_advanceStack {byte : Byte} {next : List (List Stack)}
    (leaf : ∀ s ∈ state, s.Leaf) (h : state.mapM (advanceStack g byte) = .ok next) :
    Some g next.flatten w ↔ Some g state (byte :: w) := by
  induction state generalizing next with
  | nil =>
    cases h
    simp
  | cons stack state ih =>
    rw [List.mapM_cons] at h
    cases one : advanceStack g byte stack with
    | error reason => rw [one] at h; cases h
    | ok nexts =>
      rw [one] at h
      cases more : state.mapM (advanceStack g byte) with
      | error reason => rw [more] at h; cases h
      | ok rest =>
        rw [more] at h
        cases h
        rw [List.flatten_cons, some_append, some_cons,
          advanceStack_ok (leaf stack (List.mem_cons_self ..)) one,
          ih (fun s mem => leaf s (List.mem_cons_of_mem _ mem)) more]

theorem advance_ok {byte : Byte} {state next : State} (leaf : ∀ s ∈ state, s.Leaf)
    (h : advance limits g state byte = .ok next) :
    (∀ s ∈ next, s.Leaf) ∧ ∀ w, Some g next w ↔ Some g state (byte :: w) := by
  unfold advance at h
  cases all : state.mapM (advanceStack g byte) with
  | error reason => rw [all] at h; cases h
  | ok advanced =>
    rw [all] at h
    obtain ⟨leaf', same⟩ := expand_ok h
    exact ⟨leaf', fun w => (same w).trans (mapM_advanceStack leaf all)⟩

theorem foldlM_advance {bytes : List Byte} {state final : State} (leaf : ∀ s ∈ state, s.Leaf)
    (h : bytes.foldlM (advance limits g) state = .ok final) :
    (∀ s ∈ final, s.Leaf) ∧ ∀ w, Some g final w ↔ Some g state (bytes ++ w) := by
  induction bytes generalizing state with
  | nil =>
    cases h
    exact ⟨leaf, fun w => Iff.rfl⟩
  | cons byte bytes ih =>
    rw [List.foldlM_cons] at h
    cases one : advance limits g state byte with
    | error reason => rw [one] at h; cases h
    | ok next =>
      rw [one] at h
      obtain ⟨leaf, step⟩ := advance_ok leaf one
      obtain ⟨leaf, same⟩ := ih leaf h
      exact ⟨leaf, fun w => (same w).trans (step (bytes ++ w))⟩

theorem complete_iff (leaf : ∀ s ∈ state, s.Leaf) :
    complete state = true ↔ Some g state [] := by
  simp only [complete, List.any_eq_true, List.isEmpty_iff, Some]
  refine exists_congr fun stack => and_congr_right fun mem => ?_
  obtain ⟨symbols, lexeme, used⟩ := stack
  constructor
  · rintro rfl
    exact .empty _ _
  · intro accepts
    cases accepts with
    | empty => rfl
    | rule => exact absurd rfl ((leaf _ mem).1 _ _)
    | choose | close => exact absurd rfl ((leaf _ mem).2 _ _)

variable {bytes text : List Byte} {piece : Piece} {b : Bool}

/-- A state stands for what may still follow the bytes read. -/
theorem run_ok (h : run limits g bytes = .ok state) :
    (∀ s ∈ state, s.Leaf) ∧ ∀ w, Some g state w ↔ bytes ++ w ∈ language g [.rule g.root] := by
  unfold run at h
  cases begun : start limits g with
  | error reason => rw [begun] at h; cases h
  | ok first =>
    rw [begun] at h
    obtain ⟨leaf, same⟩ := expand_ok begun
    obtain ⟨leaf, step⟩ := foldlM_advance leaf h
    exact ⟨leaf, fun w => (step w).trans ((same _).trans (some_cons.trans (or_iff_left some_nil)))⟩

/-- The bytes read so far make a complete output exactly when the root generates them. -/
theorem run_complete (h : run limits g bytes = .ok state) :
    complete state = true ↔ bytes ∈ language g [.rule g.root] := by
  obtain ⟨leaf, same⟩ := run_ok h
  rw [complete_iff leaf, same, List.append_nil]

/-! ## Tokens -/

/-- What an answer says of more text: a stack is left, or no word goes on with it. -/
def Told (limits : Limits) (g : JsonConstraint) (bytes text : List Byte) (answer : Bool) : Prop :=
  if answer then ∃ next, run limits g (bytes ++ text) = .ok next ∧ next ≠ []
  else ∀ more, bytes ++ text ++ more ∉ language g [.rule g.root]

end

/-! ## Sequences -/

section
variable {g : JsonConstraint}

/-- No lexeme has begun unless it is on the top, and no parameter is used unless its
argument set is still on the stack. -/
structure Stack.Settled (s : Stack) : Prop where
  lexeme : s.lexeme = [] ∨ ∃ id symbols, s.symbols = .lexeme id :: symbols
  used : s.usedParameters = [] ∨ ∃ id, .arguments id ∈ s.symbols

theorem settled_fresh (symbols : Sequence) : Stack.Settled ⟨symbols, [], []⟩ := ⟨.inl rfl, .inl rfl⟩

/-- The stack with more symbols below. -/
def Stack.above (s : Stack) (below : Sequence) : Stack := { s with symbols := s.symbols ++ below }

section
variable {id : Nat} {symbols : Sequence} {text : List Byte} {used : Words}

theorem Stack.Settled.pushed {symbol : Symbol} (s : Stack.Settled ⟨symbol :: symbols, text, used⟩)
    (noLexeme : ∀ id, symbol ≠ .lexeme id) : text = [] := by
  rcases s.lexeme with none | ⟨id, rest, same⟩
  · exact none
  · cases same
    exact absurd rfl (noLexeme id)

theorem Stack.Settled.rule (s : Stack.Settled ⟨.rule id :: symbols, text, used⟩)
    (sequence : Sequence) : Stack.Settled ⟨sequence ++ symbols, text, used⟩ := by
  refine ⟨.inl (s.pushed nofun), s.used.imp_right ?_⟩
  rintro ⟨set, mem⟩
  exact ⟨set, List.mem_append_right _ (by simpa using mem)⟩

theorem Stack.Settled.terminal (s : Stack.Settled ⟨.terminal id :: symbols, text, used⟩) :
    Stack.Settled ⟨symbols, text, used⟩ := by
  refine ⟨.inl (s.pushed nofun), s.used.imp_right ?_⟩
  rintro ⟨set, mem⟩
  exact ⟨set, by simpa using mem⟩

theorem Stack.Settled.spelled (s : Stack.Settled ⟨.lexeme id :: symbols, text, used⟩) :
    Stack.Settled ⟨symbols, [], used⟩ := by
  refine ⟨.inl rfl, s.used.imp_right ?_⟩
  rintro ⟨set, mem⟩
  exact ⟨set, by simpa using mem⟩

theorem Stack.Settled.choose (s : Stack.Settled ⟨.arguments id :: symbols, text, used⟩)
    (member : Nat) (words : Words) :
    Stack.Settled ⟨.rule member :: .arguments id :: symbols, text, words⟩ :=
  ⟨.inl (s.pushed nofun), .inr ⟨id, by simp⟩⟩

theorem Stack.Settled.close (s : Stack.Settled ⟨.arguments id :: symbols, text, used⟩) :
    Stack.Settled ⟨symbols, text, []⟩ := ⟨.inl (s.pushed nofun), .inl rfl⟩

end

theorem Accepts.join {s : Stack} {below : Sequence} {u v : List Byte} (h : Accepts g s u)
    (settled : s.Settled) (rest : Accepts g ⟨below, [], []⟩ v) :
    Accepts g (s.above below) (u ++ v) := by
  induction h with
  | empty lexeme used =>
    obtain rfl | ⟨_, _, same⟩ := settled.lexeme
    · obtain rfl | ⟨_, mem⟩ := settled.used
      · exact rest
      · cases mem
    · cases same
  | rule here mem _ ih =>
    refine .rule here mem ?_
    simpa [Stack.above] using ih (settled.rule _)
  | choose here place fresh _ ih => exact .choose here place fresh (ih (settled.choose _ _))
  | close here done _ ih => exact .close here done (ih settled.close)
  | terminal here bit _ ih => exact .terminal here bit (ih settled.terminal)
  | spell here allowed more _ ih =>
    exact .spell here allowed more (ih ⟨.inr ⟨_, _, rfl⟩, settled.used⟩)
  | spelled here allowed whole _ ih => exact .spelled here allowed whole (ih settled.spelled)

/-- A run cut where the stack below comes up, `s` being what stands above it. -/
def Stack.Cut (g : JsonConstraint) (s : Stack) (below : Sequence) (w : List Byte) : Prop :=
  ∃ u v, w = u ++ v ∧ Accepts g s u ∧ Accepts g ⟨below, [], []⟩ v

theorem cut_step {s : Stack} {below : Sequence} {w : List Byte} (settled : s.Settled)
    (h : Accepts g (s.above below) w)
    (go : ∀ symbol symbols, s.symbols = symbol :: symbols → s.Cut g below w) :
    s.Cut g below w := by
  obtain ⟨symbols, spelled, used⟩ := s
  cases symbols with
  | nil =>
    obtain rfl | ⟨_, _, no⟩ := settled.lexeme
    · obtain rfl | ⟨_, mem⟩ := settled.used
      · exact ⟨[], w, rfl, .empty _ _, h⟩
      · cases mem
    · cases no
  | cons symbol symbols => exact go symbol symbols rfl

theorem Accepts.cut {s : Stack} {below : Sequence} {w : List Byte}
    (h : Accepts g (s.above below) w) (settled : s.Settled) : s.Cut g below w := by
  generalize same : s.above below = t at h
  induction h generalizing s with
  | empty lexeme used =>
    refine cut_step settled (same ▸ .empty lexeme used) fun symbol symbols top => ?_
    simp [Stack.above, top] at same
  | rule here mem rest ih =>
    refine cut_step settled (same ▸ .rule here mem rest) fun symbol symbols top => ?_
    obtain ⟨_, text, used⟩ := s
    cases top
    cases same
    obtain ⟨u, v, rfl, first, second⟩ :=
      ih (settled.rule _) (congrArg (Stack.mk · text used) (List.append_assoc ..))
    exact ⟨u, v, rfl, .rule here mem first, second⟩
  | choose here place fresh rest ih =>
    refine cut_step settled (same ▸ .choose here place fresh rest) fun symbol symbols top => ?_
    obtain ⟨_, text, used⟩ := s
    cases top
    cases same
    obtain ⟨u, v, rfl, first, second⟩ := ih (settled.choose _ _) rfl
    exact ⟨u, v, rfl, .choose here place fresh first, second⟩
  | close here done rest ih =>
    refine cut_step settled (same ▸ .close here done rest) fun symbol symbols top => ?_
    obtain ⟨_, text, used⟩ := s
    cases top
    cases same
    obtain ⟨u, v, rfl, first, second⟩ := ih settled.close rfl
    exact ⟨u, v, rfl, .close here done first, second⟩
  | terminal here bit rest ih =>
    refine cut_step settled (same ▸ .terminal here bit rest) fun symbol symbols top => ?_
    obtain ⟨_, text, used⟩ := s
    cases top
    cases same
    obtain ⟨u, v, rfl, first, second⟩ := ih settled.terminal rfl
    exact ⟨_ :: u, v, rfl, .terminal here bit first, second⟩
  | @spell id lex _ _ _ byte _ here allowed more rest ih =>
    refine cut_step settled (same ▸ .spell here allowed more rest) fun symbol symbols top => ?_
    obtain ⟨_, text, used⟩ := s
    cases top
    cases same
    obtain ⟨u, v, rfl, first, second⟩ :=
      @ih ⟨.lexeme id :: symbols, (lex.advance text byte).2, used⟩
        ⟨.inr ⟨_, _, rfl⟩, settled.used⟩ rfl
    exact ⟨_ :: u, v, rfl, .spell here allowed more first, second⟩
  | spelled here allowed whole rest ih =>
    refine cut_step settled (same ▸ .spelled here allowed whole rest) fun symbol symbols top => ?_
    obtain ⟨_, text, used⟩ := s
    cases top
    cases same
    obtain ⟨u, v, rfl, first, second⟩ := ih settled.spelled rfl
    exact ⟨_ :: u, v, rfl, .spelled here allowed whole first, second⟩

theorem mem_language {symbols : Sequence} {w : List Byte} :
    w ∈ language g symbols ↔ Accepts g ⟨symbols, [], []⟩ w := Iff.rfl

@[simp]
theorem language_nil : language g [] = 1 := by
  ext w
  constructor
  · intro h
    cases h
    rfl
  · rintro rfl
    exact .empty _ _

/-- A sequence continues as if nothing had stood above it. -/
theorem language_append (a b : Sequence) :
    language g (a ++ b) = language g a * language g b := by
  ext w
  constructor
  · intro h
    obtain ⟨u, v, rfl, first, second⟩ :=
      @Accepts.cut g ⟨a, [], []⟩ b w h (settled_fresh a)
    exact ⟨u, first, v, second, rfl⟩
  · rintro ⟨u, first, v, second, rfl⟩
    exact Accepts.join first (settled_fresh a) second

theorem language_cons (a : Symbol) (b : Sequence) :
    language g (a :: b) = language g [a] * language g b := language_append [a] b

theorem mem_language_rule {id : Nat} {rule : Rule} (here : g.rules[id]? = some rule)
    {w : List Byte} :
    w ∈ language g [.rule id] ↔ ∃ sequence ∈ rule, w ∈ language g sequence := by
  have := @accepts_rule g w id ⟨[], [], []⟩
  simp only [here, Option.some.injEq, exists_eq_left', List.append_nil] at this
  exact this

theorem mem_language_terminal {id : Nat} {bits : Byte → Bool} (here : g.classes[id]? = some bits)
    {w : List Byte} :
    w ∈ language g [.terminal id] ↔ ∃ byte, bits byte = true ∧ w = [byte] := by
  constructor
  · intro h
    cases h with
    | terminal here' bit rest =>
      cases here.symm.trans here'
      cases rest
      exact ⟨_, bit, rfl⟩
  · rintro ⟨byte, bit, rfl⟩
    exact .terminal here bit (.empty _ _)

end

end Gufo.Constraint
