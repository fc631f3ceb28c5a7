import Gufo.Chat.Tokens

/-!
# Control tokens come from the template

What a special token spans, byte by byte. The whole prompt falls apart at its line ends and
at the spans that are encoded by themselves, so that the question is one about single
lines: those around a name, and the last one of a text.
-/

namespace Gufo.Chat
open Gufo.Text Gufo.ToolCall Gufo.Marked

namespace QwenTokenizer
variable {tokenizer : QwenTokenizer}

def spellings (tokenizer : QwenTokenizer) : List Bytes := tokenizer.specialTokens.map (·.text)

/-! ## The scan for special spellings -/

/-- A place comes before another, or the word there is no shorter. -/
def Before (a b : Nat × SpecialToken) : Prop :=
  a.1 < b.1 ∨ a.1 = b.1 ∧ b.2.text.length ≤ a.2.text.length

theorem Before.trans {a b c : Nat × SpecialToken} (first : Before a b) (second : Before b c) :
    Before a c := by
  unfold Before at *
  omega

variable {best : Option (Nat × SpecialToken)} {text : Bytes} {token : SpecialToken}

theorem takeEarlier_none
    (none : takeEarlier text best token = Option.none) :
    best = Option.none ∧ find token.text text = Option.none := by
  unfold takeEarlier at none
  split at none
  · rename_i nowhere
    exact ⟨none, nowhere⟩
  · cases none
  · split at none <;> cases none

theorem takeEarlier_some
    {first : Nat × SpecialToken} (taken : takeEarlier text best token = some first) :
    (best = some first ∨ first.2 = token ∧ find token.text text = some first.1) ∧
      (∀ b ∈ best, Before first b) ∧ ∀ i ∈ find token.text text, Before first (i, token) := by
  unfold takeEarlier at taken
  split at taken
  · rename_i nowhere
    rw [taken, nowhere]
    refine ⟨.inl rfl, fun b hb => ?_, fun i hi => by cases hi⟩
    obtain rfl := Option.some.inj hb
    exact .inr ⟨rfl, le_rfl⟩
  · rename_i found at_
    obtain rfl := Option.some.inj taken
    rw [at_]
    refine ⟨.inr ⟨rfl, rfl⟩, fun b hb => (by cases hb), fun i hi => ?_⟩
    obtain rfl := Option.some.inj hi
    exact .inr ⟨rfl, le_rfl⟩
  · rename_i found next matched at_
    rw [at_]
    split at taken
    · obtain rfl := Option.some.inj taken
      refine ⟨.inr ⟨rfl, rfl⟩, fun b hb => ?_, fun i hi => ?_⟩
      · obtain rfl := Option.some.inj hb
        unfold Before
        simp only
        omega
      · obtain rfl := Option.some.inj hi
        exact .inr ⟨rfl, le_rfl⟩
    · obtain rfl := Option.some.inj taken
      refine ⟨.inl rfl, fun b hb => ?_, fun i hi => ?_⟩
      · obtain rfl := Option.some.inj hb
        exact .inr ⟨rfl, le_rfl⟩
      · obtain rfl := Option.some.inj hi
        unfold Before
        simp only
        omega

theorem foldl_takeEarlier_none {l : List SpecialToken}
    (none : l.foldl (takeEarlier text) best = Option.none) :
    best = Option.none ∧ ∀ token ∈ l, find token.text text = Option.none := by
  induction l generalizing best with
  | nil => exact ⟨none, fun token h => by cases h⟩
  | cons token l ih =>
    obtain ⟨before, rest⟩ := ih none
    obtain ⟨nothing, nowhere⟩ := takeEarlier_none before
    exact ⟨nothing, List.forall_mem_cons.mpr ⟨nowhere, rest⟩⟩

theorem foldl_takeEarlier_some {l : List SpecialToken}
    {first : Nat × SpecialToken}
    (taken : l.foldl (takeEarlier text) best = some first) :
    (best = some first ∨ first.2 ∈ l ∧ find first.2.text text = some first.1) ∧
      (∀ b ∈ best, Before first b) ∧
      ∀ token ∈ l, ∀ i ∈ find token.text text, Before first (i, token) := by
  induction l generalizing best with
  | nil =>
    refine ⟨.inl taken, fun b hb => ?_, fun token h => by cases h⟩
    obtain rfl := Option.some.inj (taken.symm.trans hb)
    exact .inr ⟨rfl, le_rfl⟩
  | cons token l ih =>
    obtain ⟨origin, least, rest⟩ := ih taken
    cases step : takeEarlier text best token with
    | none =>
      obtain ⟨nothing, nowhere⟩ := takeEarlier_none step
      rw [step] at origin
      refine ⟨?_, fun b hb => (by rw [nothing] at hb; cases hb), ?_⟩
      · rcases origin with absurd_ | ⟨mem, at_⟩
        · cases absurd_
        · exact .inr ⟨List.mem_cons_of_mem token mem, at_⟩
      · refine List.forall_mem_cons.mpr ⟨fun i hi => ?_, rest⟩
        rw [nowhere] at hi
        cases hi
    | some middle =>
      obtain ⟨from_, leastM, restM⟩ := takeEarlier_some step
      have before := least middle step
      refine ⟨?_, fun b hb => before.trans (leastM b hb), ?_⟩
      · rcases origin with same | ⟨mem, at_⟩
        · obtain rfl := Option.some.inj (step.symm.trans same)
          rcases from_ with old | ⟨rfl, at_⟩
          · exact .inl old
          · exact .inr ⟨List.mem_cons_self, at_⟩
        · exact .inr ⟨List.mem_cons_of_mem token mem, at_⟩
      · exact List.forall_mem_cons.mpr ⟨fun i hi => before.trans (restM i hi), rest⟩

/-- The scan takes the earliest spelling, and of those that start together the longest. -/
theorem nextSpecial_some {next : Nat}
    (found : tokenizer.nextSpecial text = some (next, token)) :
    token ∈ tokenizer.specialTokens ∧ find token.text text = some next ∧
      ∀ other ∈ tokenizer.specialTokens, ∀ i ∈ find other.text text,
        Before (next, token) (i, other) := by
  obtain ⟨origin, -, least⟩ := foldl_takeEarlier_some found
  rcases origin with absurd_ | ⟨mem, here⟩
  · cases absurd_
  · exact ⟨mem, here, least⟩

@[simp] theorem controlOf_append (chunks more : List Chunk) :
    controlOf (chunks ++ more) = controlOf chunks ++ controlOf more := by
  simp [controlOf]

@[simp] theorem controlOf_textChunk (text : Bytes) :
    controlOf (textChunk text) = List.replicate text.length false := by
  unfold textChunk
  split
  · rename_i empty
    simp [empty, controlOf]
  · simp [controlOf, Chunk.control]

theorem controlOf_scanSpecials {fuel : Nat} (enough : text.length ≤ fuel) :
    controlOf (tokenizer.scanSpecials fuel text) = marks tokenizer.spellings text := by
  induction fuel generalizing text with
  | zero =>
    rw [List.eq_nil_of_length_eq_zero (Nat.le_zero.mp enough)]
    rfl
  | succ fuel ih =>
    unfold scanSpecials
    cases found : tokenizer.nextSpecial text with
    | none =>
      obtain ⟨-, nowhere⟩ := foldl_takeEarlier_none found
      rw [controlOf_textChunk, marks_eq_false]
      intro j inside w mem here
      obtain ⟨token, htoken, rfl⟩ := List.mem_map.mp mem
      exact absurd here (find_none.mp (nowhere token htoken) j inside.le)
    | some first =>
      obtain ⟨next, token⟩ := first
      obtain ⟨mem, here, least⟩ := nextSpecial_some found
      obtain ⟨inside, occurs, -⟩ := find_some.mp here
      have positive := List.length_pos_of_ne_nil token.nonempty
      have word : token.text ∈ tokenizer.spellings := List.mem_map.mpr ⟨token, mem, rfl⟩
      -- nothing stands before it, and nothing longer at its place
      have early : ∀ j ≤ next, ∀ w ∈ tokenizer.spellings, w <+: text.drop j →
          j = next ∧ w.length ≤ token.text.length := by
        intro j le w hw begins
        obtain ⟨other, hother, rfl⟩ := List.mem_map.mp hw
        obtain ⟨i, before, at_i⟩ := find_le (by omega) begins
        have order := least other hother i at_i
        unfold Before at order
        simp only at order
        omega
      rw [controlOf_append, controlOf_textChunk, List.length_take, min_eq_left inside,
        marks_none inside fun j lt w hw begins => by have := (early j lt.le w hw begins).1; omega,
        marks_word word token.nonempty occurs fun w hw begins => (early next le_rfl w hw begins).2,
        List.drop_drop, ← ih (by simp only [List.length_drop]; omega)]
      rfl

theorem controlOf_boundary (flag : Bool) (id : Option TokenId) :
    controlOf (if flag then id.toList.map .boundary else []) = [] := by
  cases flag <;> cases id <;> rfl

theorem controlOf_encode_text (text : Bytes) (options : TokenizerOptions) :
    controlOf (tokenizer.encode text { options with parseSpecialTokens := false }) =
      List.replicate text.length false := by
  unfold encode
  simp [controlOf_boundary]

theorem controlOf_encode (text : Bytes) (options : TokenizerOptions) :
    controlOf (tokenizer.encode text { options with parseSpecialTokens := true }) =
      marks tokenizer.spellings text := by
  have scanned : controlOf (if true = true ∧ tokenizer.specialTokens ≠ [] then
      tokenizer.scanSpecials text.length text else textChunk text) =
      marks tokenizer.spellings text := by
    split
    · exact controlOf_scanSpecials le_rfl
    · rename_i none
      have empty : tokenizer.specialTokens = [] := by simpa using none
      rw [controlOf_textChunk, marks_eq_false]
      intro j _ w mem
      simp [spellings, empty] at mem
  unfold encode
  rw [controlOf_append, controlOf_append, scanned, controlOf_boundary, controlOf_boundary,
    List.nil_append, List.append_nil]

end QwenTokenizer

/-! ## Fragments -/

section
variable (tokenizer : QwenTokenizer)

/-- A content span that is encoded by itself. -/
def isCut (f : Fragment) : Bool := f.writer = .content ∧ tokenizer.spellsSpecial f.text

/-- What the scan for special spellings sees of a fragment: nothing of one that is cut out. -/
def symbols (f : Fragment) : List (Option UInt8) :=
  if isCut tokenizer f then List.replicate f.text.length none else f.text.map some

def words : List (List (Option UInt8)) := tokenizer.spellings.map (List.map some)

variable {tokenizer}

theorem free_none : ∀ w ∈ words tokenizer, none ∉ w := by
  intro w mem
  obtain ⟨v, -, rfl⟩ := List.mem_map.mp mem
  simp

theorem marks_some (text : Bytes) :
    marks (words tokenizer) (text.map some) = marks tokenizer.spellings text :=
  marks_map (fun _ _ same => Option.some.inj same) text

theorem spellsSpecial_nil : tokenizer.spellsSpecial [] = false := by
  simp only [QwenTokenizer.spellsSpecial, List.any_eq_false, Bool.not_eq_true]
  intro token _
  cases found : find token.text ([] : Bytes) with
  | none => rfl
  | some i =>
    have := find_lt found
    have := List.length_pos_of_ne_nil token.nonempty
    simp only [List.length_nil] at *
    omega

/-- A span between what was passed over and the rest. -/
theorem encodeSpan_eq (options : TokenizerOptions) {before text rest : Bytes}
    {chunks : List Chunk} {cursor : Nat} (nonempty : text ≠ []) :
    encodeSpan tokenizer (before ++ text ++ rest) 0 (before ++ text ++ rest).length options
        (chunks, cursor) (before.length, text.length) =
      if tokenizer.spellsSpecial text then
        (chunks ++
          (if cursor < before.length then
            tokenizer.encode (slice (before ++ text ++ rest) cursor before.length)
              { options with parseSpecialTokens := true }
          else []) ++
          tokenizer.encode text { options with parseSpecialTokens := false },
          before.length + text.length)
      else (chunks, cursor) := by
  have positive := List.length_pos_of_ne_nil nonempty
  have length : (before ++ text ++ rest).length = before.length + text.length + rest.length := by
    simp [Nat.add_assoc]
  unfold encodeSpan
  rw [if_neg (by omega)]
  simp only [Nat.max_zero, length, min_eq_left (Nat.le_add_right _ rest.length), slice_middle]

/-- One span of the fragments, between what was encoded and the rest. -/
theorem foldl_encodeSpan (options : TokenizerOptions) (fs : List Fragment) {before : Bytes}
    {chunks : List Chunk} {cursor : Nat} (le : cursor ≤ before.length)
    (fresh : cursor = 0 → chunks = []) :
    let all := before ++ Fragment.rendered fs
    let s := (Fragment.spans before.length fs).foldl
      (encodeSpan tokenizer all 0 all.length options) (chunks, cursor)
    (s.2 = 0 → s.1 = []) ∧
    controlOf s.1 ++ marks tokenizer.spellings (all.drop s.2) =
      controlOf chunks ++
        marks (words tokenizer)
          ((before.drop cursor).map some ++ fs.flatMap (symbols tokenizer)) := by
  induction fs generalizing before chunks cursor with
  | nil =>
    simp only [Fragment.rendered, List.flatMap_nil, List.append_nil, Fragment.spans,
      List.foldl_nil]
    exact ⟨fresh, by rw [marks_some]⟩
  | cons f fs ih =>
    have all : before ++ Fragment.rendered (f :: fs) =
        (before ++ f.text) ++ Fragment.rendered fs := by
      simp [Fragment.rendered]
    have length : (before ++ f.text).length = before.length + f.text.length := List.length_append
    simp only [Fragment.spans, List.foldl_append, all]
    by_cases cut : isCut tokenizer f = true
    · obtain ⟨content, spells⟩ := of_decide_eq_true cut
      have nonempty : f.text ≠ [] := by
        intro empty
        rw [empty, spellsSpecial_nil] at spells
        cases spells
      have hidden : symbols tokenizer f = List.replicate f.text.length none := if_pos cut
      rw [if_pos ⟨content, nonempty⟩, List.foldl_cons, List.foldl_nil,
        encodeSpan_eq options nonempty, if_pos spells, ← length]
      have positive := List.length_pos_of_ne_nil nonempty
      have whole : (before ++ f.text).length ≤ (before ++ f.text).length := le_rfl
      obtain ⟨first, rest⟩ := ih whole fun zero => by omega
      refine ⟨first, rest.trans ?_⟩
      have framed : controlOf (if cursor < before.length then
          tokenizer.encode (slice (before ++ f.text ++ Fragment.rendered fs) cursor before.length)
            { options with parseSpecialTokens := true } else []) =
          marks tokenizer.spellings (before.drop cursor) := by
        split
        · rw [QwenTokenizer.controlOf_encode, List.append_assoc, slice_left le]
        · rw [List.drop_eq_nil_of_le (by omega)]
          rfl
      rw [QwenTokenizer.controlOf_append, QwenTokenizer.controlOf_append, framed,
        QwenTokenizer.controlOf_encode_text, List.drop_length, List.flatMap_cons, hidden,
        marks_run free_none positive, marks_some]
      simp
    · have plain : symbols tokenizer f = f.text.map some := if_neg cut
      have same : (if f.writer = .content ∧ f.text ≠ [] then [(before.length, f.text.length)]
          else []).foldl (encodeSpan tokenizer ((before ++ f.text) ++ Fragment.rendered fs) 0
            ((before ++ f.text) ++ Fragment.rendered fs).length options) (chunks, cursor) =
          (chunks, cursor) := by
        split
        · rename_i recorded
          have silent : ¬tokenizer.spellsSpecial f.text = true := fun spells =>
            cut (decide_eq_true ⟨recorded.1, spells⟩)
          rw [List.foldl_cons, List.foldl_nil, encodeSpan_eq options recorded.2, if_neg silent]
        · rfl
      rw [same, ← length]
      have within : cursor ≤ (before ++ f.text).length := by omega
      obtain ⟨first, rest⟩ := ih within fresh
      refine ⟨first, rest.trans ?_⟩
      rw [List.drop_append_of_le_length le, List.flatMap_cons, plain, List.map_append,
        List.append_assoc]

/-- What special tokens span in the whole prompt. -/
theorem controlOf_encodeRendered (options : TokenizerOptions) (fs : List Fragment) :
    controlOf (encodeRendered tokenizer (Fragment.rendered fs) 0 (Fragment.rendered fs).length
      (Fragment.spans 0 fs) { options with parseSpecialTokens := true }) =
      marks (words tokenizer) (fs.flatMap (symbols tokenizer)) := by
  obtain ⟨fresh, whole⟩ := @foldl_encodeSpan tokenizer { options with parseSpecialTokens := true }
    fs [] [] 0 le_rfl fun _ => rfl
  simp only [List.nil_append, List.length_nil, List.drop_nil, List.map_nil] at fresh whole
  unfold encodeRendered
  generalize (Fragment.spans 0 fs).foldl _ _ = s at fresh whole ⊢
  obtain ⟨chunks, cursor⟩ := s
  refine Eq.trans ?_ whole
  simp only at fresh ⊢
  split
  · rename_i zero
    rw [fresh zero, zero]
    have all : slice (Fragment.rendered fs) 0 (Fragment.rendered fs).length =
        Fragment.rendered fs := by simp [slice]
    rw [all]
    exact QwenTokenizer.controlOf_encode _ options
  · split
    · have rest : slice (Fragment.rendered fs) cursor (Fragment.rendered fs).length =
          (Fragment.rendered fs).drop cursor := by
        simp [slice, ← List.length_drop]
      rw [QwenTokenizer.controlOf_append, rest]
      exact congrArg _ (QwenTokenizer.controlOf_encode _ options)
    · rename_i behind
      rw [List.drop_eq_nil_of_le (Nat.not_lt.mp behind)]
      exact (List.append_nil _).symm

end

end Gufo.Chat
