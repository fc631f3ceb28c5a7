import Gufo.ToolCall.QwenGrows
import Gufo.ToolCall.DeepSeekGrows

/-!
# Partial tool calls grow

The streaming layer emits argument bytes that it can never take back. The calls of a text
against those of every beginning of it: for DeepSeek by running the block scan over both,
for Qwen from the scan of its one call.
-/

namespace Gufo.ToolCall
open Gufo.Text

namespace DeepSeek

/-- What a call of the shorter text is in the longer one. -/
structure CallGrows (c d : ScannedToolCall) : Prop where
  name : d.name = c.name
  arguments : c.arguments <+: d.arguments
  unfinished : ∀ u ∈ c.unfinished, u.name ∉ c.arguments.map ToolArgument.name →
    Continued u c.arguments.length d.arguments d.unfinished
  repeated : ∀ u ∈ c.unfinished, u.name ∈ c.arguments.map ToolArgument.name → d.valid = true →
    Repeats u d.arguments

/-- Every call of the one list is, at its index, one that has grown. -/
def Later (calls calls' : List ScannedToolCall) : Prop :=
  ∀ (k : Nat) (c : ScannedToolCall), calls[k]? = some c → ∃ d, calls'[k]? = some d ∧ CallGrows c d

section
variable {parses : Bytes → Bool} {s t : Bytes}

/-! ## One invocation -/

variable {spelling : Spelling}

/-- A call grows; where it is not the same in the longer text, the shorter one has no invocation
behind it. -/
theorem scanInvocation_grows (h : s <+: t) {start tagEnd : Nat}
    (inside : tagEnd + 1 ≤ s.length) :
    let c := scanInvocation parses true s start spelling tagEnd
    let d := scanInvocation parses true t start spelling tagEnd
    CallGrows c.1 d.1 ∧ (d = c ∨ c.1.complete = false ∧ firstInvoke s c.2 = none) := by
  have lengths := h.length_le
  have outgrown : Outgrown s t spelling
      (scanParameters parses true s spelling (s.length + 1)
        ⟨[], none, decide ((attributeOf (slice s start (tagEnd + 1)) "name").getD [] ≠ []),
          tagEnd + 1, tagEnd + 1⟩)
      (scanParameters parses true t spelling (t.length + 1) _) :=
    scanParameters_outgrown h ⟨rfl, rfl⟩ (by omega) (by omega)
  simp only [scanInvocation, slice_eq h inside]
  generalize scanParameters parses true s spelling (s.length + 1) _ = a at outgrown ⊢
  refine ⟨⟨rfl, outgrown.arguments, outgrown.unfinished, outgrown.repeated⟩, ?_⟩
  by_cases closes : spelling.invokeClose <+: s.drop a.cursor
  · left
    obtain rfl := outgrown.complete closes
    rw [decide_eq_true closes, decide_eq_true (closes.trans (drop_mono h _))]
  · cases outgrown.goes_on closes with
    | inl last =>
      right
      rw [decide_eq_false closes]
      exact ⟨rfl, last⟩
    | inr same =>
      left
      obtain ⟨rfl, opened⟩ := same
      rw [decide_eq_false closes, decide_eq_false opened]

/-- What a round does with an invocation it has scanned. -/
def settle (b : Blocks) (scanned : ScannedToolCall × Nat) : BlockStep :=
  if (scanned.1.valid ∧ scanned.1.complete) ∨ scanned.1.name ≠ [] then
    if scanned.1.valid ∧ scanned.1.complete then
      .next { b with
        calls := b.calls ++ [scanned.1]
        cursor := scanned.2 }
    else .stop { b with calls := b.calls ++ [scanned.1] }
  else .next { b with cursor := scanned.2 }

variable {b : Blocks}

theorem invocationStep_eq {text : Bytes} {start tagEnd : Nat}
    (found : firstInvoke text b.cursor = some (start, spelling))
    (tag : findFrom closeTag text start = some tagEnd) :
    invocationStep parses true text b =
      settle b (scanInvocation parses true text start spelling tagEnd) := by
  unfold invocationStep settle
  simp [found, tag]

/-! ## One round -/

/-- The block that is open is closed by a tag. -/
def Enclosed (b : Blocks) : Prop := ∀ e ∈ b.envelope, Tag e.2 ∧ bytes "</" <+: e.2

/-- A round over a text and the same round over a longer one: it stops, enters or leaves a block,
or scans an invocation. -/
inductive Round (parses : Bytes → Bool) (s t : Bytes) (b : Blocks) : BlockStep → BlockStep → Prop
  | stop (later : BlockStep) : Round parses s t b (.stop b) later
  | moved (b' : Blocks) (calls : b'.calls = b.calls) (forward : b.cursor ≤ b'.cursor)
      (enclosed : Enclosed b') : Round parses s t b (.next b') (.next b')
  | scanned (start tagEnd : Nat) (spelling : Spelling)
      (found : firstInvoke s b.cursor = some (start, spelling))
      (tag : findFrom closeTag s start = some tagEnd) :
      Round parses s t b (settle b (scanInvocation parses true s start spelling tagEnd))
        (settle b (scanInvocation parses true t start spelling tagEnd))

theorem round_invocation (h : s <+: t) {later : BlockStep}
    (there : ∀ invoke, firstInvoke s b.cursor = some invoke →
      later = invocationStep parses true t b) :
    Round parses s t b (invocationStep parses true s b) later := by
  cases found : firstInvoke s b.cursor with
  | none =>
    have stops : invocationStep parses true s b = .stop b := by
      unfold invocationStep
      rw [found]
    rw [stops]
    exact .stop later
  | some invoke =>
    obtain ⟨start, spelling⟩ := invoke
    cases tag : findFrom closeTag s start with
    | none =>
      have stops : invocationStep parses true s b = .stop b := by
        unfold invocationStep
        simp [found, tag]
      rw [stops]
      exact .stop later
    | some tagEnd =>
      rw [there _ found, invocationStep_eq found tag,
        invocationStep_eq (firstInvoke_mono h found) (findFrom_mono h tag)]
      exact .scanned start tagEnd spelling found tag

variable {closing : Bytes}

/-- A closing tag that the shorter text has not lies behind its invocation. -/
theorem closing_behind (h : s <+: t) {cursor start stop : Nat}
    (tag : Tag closing) (found : firstInvoke s cursor = some (start, spelling))
    (closed : findFrom closing s cursor = none) (closedT : findFrom closing t cursor = some stop) :
    precedes stop (some (start, spelling)) = false := by
  have beyond := findFrom_beyond h closed closedT
  obtain ⟨-, occurs, inside⟩ := firstInvoke_spec found
  have bracket := (Spelling.tag_invokeOpen spelling).head (occurs.trans (drop_mono h _))
  simp only [precedes, decide_eq_false_iff_not]
  intro before
  have := tag.before (findFrom_some.mp closedT).2.2.1 bracket before
  omega

/-- An invocation that the shorter text has not lies behind its closing tag. -/
theorem precedes_mono (h : s <+: t) {cursor stop : Nat} (tag : Tag closing)
    (slash : bytes "</" <+: closing) (closed : findFrom closing s cursor = some stop)
    (first : precedes stop (firstInvoke s cursor) = true) :
    precedes stop (firstInvoke t cursor) = true := by
  cases found : firstInvoke s cursor with
  | some invoke =>
    rw [firstInvoke_mono h found, ← found]
    exact first
  | none =>
    cases foundT : firstInvoke t cursor with
    | none => rfl
    | some invoke =>
      obtain ⟨start, spelling⟩ := invoke
      obtain ⟨-, invokes, -⟩ := firstInvoke_spec foundT
      have occurs := (findFrom_some.mp (findFrom_mono h closed)).2.2.1
      have inside := findFrom_lt closed
      have new := earliest_none.mp found spelling spelling.mem_all
      have beyond := findFrom_beyond h new (earliest_some foundT).2.1
      simp only [precedes, decide_eq_true_eq]
      by_contra before
      rcases Nat.lt_or_eq_of_le (Nat.not_lt.mp before) with less | rfl
      · have := (Spelling.tag_invokeOpen spelling).before invokes (tag.head occurs) less
        omega
      · exact not_both (Spelling.open_slash spelling) (slash.trans occurs) invokes

variable {markers : List Bytes}

/-- The round inside a block. -/
theorem blockStep_enclosed {text : Bytes} {opened : Nat}
    (open_ : b.envelope = some (opened, closing))
    (more : ¬text.length ≤ b.cursor) :
    blockStep parses (some markers) true text b =
      match findFrom closing text b.cursor with
      | some stop =>
        if precedes stop (firstInvoke text b.cursor) then
          .next { b with
            envelope := none
            cursor := stop + closing.length
            spans := b.spans ++ [(opened, stop + closing.length)] }
        else invocationStep parses true text b
      | none => invocationStep parses true text b := by
  obtain ⟨cursor, envelope, calls, spans⟩ := b
  obtain rfl : envelope = some (opened, closing) := open_
  exact if_neg more

theorem round_enclosed (h : s <+: t) {opened : Nat}
    (open_ : b.envelope = some (opened, closing)) (tag : Tag closing)
    (slash : bytes "</" <+: closing) (more : ¬s.length ≤ b.cursor) :
    Round parses s t b (blockStep parses (some markers) true s b)
      (blockStep parses (some markers) true t b) := by
  have moreT : ¬t.length ≤ b.cursor := by have := h.length_le; omega
  rw [blockStep_enclosed open_ more, blockStep_enclosed open_ moreT]
  cases closed : findFrom closing s b.cursor with
  | none =>
    refine round_invocation h fun invoke found => ?_
    cases closedT : findFrom closing t b.cursor with
    | none => rfl
    | some stop =>
      simp only [firstInvoke_mono h found, closing_behind h tag found closed closedT]
      rfl
  | some stop =>
    simp only [findFrom_mono h closed]
    by_cases first : precedes stop (firstInvoke s b.cursor) = true
    · rw [if_pos first, if_pos (precedes_mono h tag slash closed first)]
      refine .moved _ rfl ?_ (fun e he => by cases he)
      have := (findFrom_some.mp closed).1
      simp only
      omega
    · rw [if_neg first]
      refine round_invocation h fun invoke found => ?_
      rw [found] at first
      rw [firstInvoke_mono h found, if_neg first]

theorem round_outside (recognised : Recognised (some markers)) (h : s <+: t)
    (outside : b.envelope = none) (more : ¬s.length ≤ b.cursor) :
    Round parses s t b (blockStep parses (some markers) true s b)
      (blockStep parses (some markers) true t b) := by
  have moreT : ¬t.length ≤ b.cursor := by have := h.length_le; omega
  unfold blockStep
  simp only [if_neg more, if_neg moreT, outside]
  cases found : firstMarker markers s b.cursor with
  | none => exact .stop _
  | some first =>
    obtain ⟨start, opening⟩ := first
    obtain ⟨mem, here, -⟩ := earliest_some found
    simp only [firstMarker_mono recognised h found]
    refine .moved _ rfl ?_ fun e he => ?_
    · have := (findFrom_some.mp here).1
      simp only
      omega
    · obtain rfl := Option.some.inj he
      exact ⟨(recognised markers rfl opening mem).2, List.prefix_append _ _⟩

theorem blockStep_round {markers : Option (List Bytes)} (recognised : Recognised markers)
    (h : s <+: t) (enclosed : Enclosed b) :
    Round parses s t b (blockStep parses markers true s b) (blockStep parses markers true t b) := by
  by_cases late : s.length ≤ b.cursor
  · have stops : blockStep parses markers true s b = .stop b := by
      unfold blockStep
      rw [if_pos late]
    rw [stops]
    exact .stop _
  · cases markers with
    | none =>
      have moreT : ¬t.length ≤ b.cursor := by have := h.length_le; omega
      unfold blockStep
      rw [if_neg late, if_neg moreT]
      exact round_invocation h fun _ _ => rfl
    | some markers =>
      cases open_ : b.envelope with
      | none => exact round_outside recognised h open_ late
      | some envelope =>
        obtain ⟨opened, closing⟩ := envelope
        obtain ⟨tag, slash⟩ := enclosed (opened, closing) open_
        exact round_enclosed h open_ tag slash late

/-! ## Runs -/

/-- The state behind a step. -/
def BlockStep.blocks : BlockStep → Blocks
  | .next b => b
  | .stop b => b

theorem settle_calls (b : Blocks) (scanned : ScannedToolCall × Nat) :
    b.calls <+: (settle b scanned).blocks.calls ∧
      (scanned.1.name ≠ [] → (settle b scanned).blocks.calls = b.calls ++ [scanned.1]) := by
  unfold settle
  split
  · split
    · exact ⟨List.prefix_append _ _, fun _ => rfl⟩
    · exact ⟨List.prefix_append _ _, fun _ => rfl⟩
  · rename_i nothing
    exact ⟨List.prefix_rfl, fun named => absurd (.inr named) nothing⟩

theorem settle_enclosed {b b' : Blocks} (enclosed : Enclosed b) {scanned : ScannedToolCall × Nat}
    (next : settle b scanned = .next b') : Enclosed b' := by
  unfold settle at next
  split at next
  · split at next
    · cases next
      exact enclosed
    · cases next
  · cases next
    exact enclosed

variable {markers : Option (List Bytes)}

theorem scanBlocks_calls (recognised : Recognised markers) (fuel : Nat)
    (enclosed : Enclosed b) : b.calls <+: (scanBlocks parses markers true t fuel b).calls := by
  induction fuel generalizing b with
  | zero => exact List.prefix_rfl
  | succ fuel ih =>
    have round : Round parses t t b _ _ := blockStep_round recognised (List.prefix_refl t) enclosed
    unfold scanBlocks
    generalize blockStep parses markers true t b = step at round ⊢
    cases round with
    | stop => exact List.prefix_rfl
    | moved b' calls forward enclosed' =>
      rw [← calls]
      exact ih enclosed'
    | scanned start tagEnd spelling found tag =>
      have calls := (settle_calls b (scanInvocation parses true t start spelling tagEnd)).1
      cases next : settle b (scanInvocation parses true t start spelling tagEnd) with
      | stop b' =>
        rw [next] at calls
        exact calls
      | next b' =>
        rw [next] at calls
        exact calls.trans (ih (settle_enclosed enclosed next))

/-- Behind the last invocation no call is added. -/
theorem scanBlocks_last (recognised : Recognised markers) (fuel : Nat)
    (enclosed : Enclosed b) (last : firstInvoke t b.cursor = none) :
    (scanBlocks parses markers true t fuel b).calls = b.calls := by
  induction fuel generalizing b with
  | zero => rfl
  | succ fuel ih =>
    have round : Round parses t t b _ _ := blockStep_round recognised (List.prefix_refl t) enclosed
    unfold scanBlocks
    generalize blockStep parses markers true t b = step at round ⊢
    cases round with
    | stop => rfl
    | moved b' calls forward enclosed' =>
      rw [← calls]
      exact ih enclosed' (firstInvoke_none last forward)
    | scanned start tagEnd spelling found tag =>
      rw [last] at found
      cases found

theorem Later.trans_begins {calls calls' calls'' : List ScannedToolCall}
    (later : Later calls calls') (more : calls' <+: calls'') : Later calls calls'' := by
  intro k c here
  obtain ⟨d, there, grows⟩ := later k c here
  have inside := (List.getElem?_eq_some_iff.mp there).1
  exact ⟨d, (getElem?_eq more inside).trans there, grows⟩

theorem Later.concat {calls : List ScannedToolCall} (later : Later calls calls)
    {c d : ScannedToolCall} (grows : CallGrows c d) : Later (calls ++ [c]) (calls ++ [d]) := by
  intro k e here
  rcases Nat.lt_trichotomy k calls.length with before | rfl | behind
  · rw [List.getElem?_append_left before] at here ⊢
    exact later k e here
  · rw [List.getElem?_concat_length] at here ⊢
    obtain rfl := Option.some.inj here
    exact ⟨d, rfl, grows⟩
  · rw [List.getElem?_eq_none (by simp; omega)] at here
    cases here

theorem Later.settle (kept : Later b.calls b.calls) {c : ScannedToolCall × Nat}
    (grows : CallGrows c.1 c.1) : Later (settle b c).blocks.calls (settle b c).blocks.calls := by
  unfold DeepSeek.settle
  split
  · split
    · exact kept.concat grows
    · exact kept.concat grows
  · exact kept

/-- A run that goes on from an invocation keeps what its step has added. -/
theorem settle_run (recognised : Recognised markers) (fuel : Nat)
    (enclosed : Enclosed b) (d : ScannedToolCall × Nat) :
    (settle b d).blocks.calls <+:
      (match settle b d with
        | .stop b => b
        | .next b => scanBlocks parses markers true t fuel b).calls := by
  cases next : settle b d with
  | stop b' => exact List.prefix_rfl
  | next b' => exact scanBlocks_calls recognised fuel (settle_enclosed enclosed next)

/-- Round by round, the longer text has every call of the shorter one, grown. -/
theorem scanBlocks_later (recognised : Recognised markers) (h : s <+: t) {fuel fuel' : Nat}
    (le : fuel ≤ fuel') (enclosed : Enclosed b) (kept : Later b.calls b.calls) :
    Later (scanBlocks parses markers true s fuel b).calls
      (scanBlocks parses markers true t fuel' b).calls := by
  induction fuel generalizing fuel' b with
  | zero => exact kept.trans_begins (scanBlocks_calls recognised fuel' enclosed)
  | succ fuel ih =>
    obtain ⟨fuel', rfl⟩ : ∃ k, fuel' = k + 1 := ⟨fuel' - 1, by omega⟩
    have all : b.calls <+: (scanBlocks parses markers true t (fuel' + 1) b).calls :=
      scanBlocks_calls recognised (fuel' + 1) enclosed
    have round : Round parses s t b _ _ := blockStep_round recognised h enclosed
    unfold scanBlocks at all ⊢
    generalize blockStep parses markers true s b = here at round ⊢
    generalize blockStep parses markers true t b = there at round all ⊢
    cases round with
    | stop => exact kept.trans_begins all
    | moved b' calls forward enclosed' => exact ih (by omega) enclosed' (calls.symm ▸ kept)
    | scanned start tagEnd spelling found tag =>
      obtain ⟨grows, rest⟩ : CallGrows (scanInvocation parses true s start spelling tagEnd).1
          (scanInvocation parses true t start spelling tagEnd).1 ∧ _ :=
        scanInvocation_grows h (findFrom_lt tag : tagEnd + 1 ≤ s.length)
      generalize scanInvocation parses true s start spelling tagEnd = c at grows rest ⊢
      generalize scanInvocation parses true t start spelling tagEnd = d at grows rest all ⊢
      rcases rest with rfl | ⟨incomplete, last⟩
      · have kept' := kept.settle grows
        cases next : settle b d with
        | stop b' =>
          rw [next] at kept'
          exact kept'
        | next b' =>
          rw [next] at kept'
          exact ih (by omega) (settle_enclosed enclosed next) kept'
      · by_cases named : c.1.name = []
        · -- passed over, and the last one of the shorter text
          have passed : settle b c = .next { b with cursor := c.2 } := by
            unfold settle
            simp [incomplete, named]
          rw [passed]
          rw [scanBlocks_last (b := { b with cursor := c.2 }) recognised fuel enclosed last]
          exact kept.trans_begins all
        · have taken : settle b c = .stop { b with calls := b.calls ++ [c.1] } := by
            unfold settle
            simp [incomplete, named]
          have calls := (settle_calls b d).2 (by rw [grows.name]; exact named)
          rw [taken]
          refine (kept.concat grows).trans_begins ?_
          rw [← calls]
          exact settle_run recognised fuel' enclosed d

/-- The calls of a text only grow with it. -/
theorem scan_later (recognised : Recognised markers) (h : s <+: t) :
    Later (scan parses markers true s).1 (scan parses markers true t).1 :=
  scanBlocks_later recognised h (by have := h.length_le; omega) (fun e he => by cases he)
    (fun k c here => by cases k <;> cases here)

end

theorem closed_of (pat : Bytes) (shape : pat = pat.dropLast ++ [62] ∧ 62 ∉ pat.dropLast) :
    Closed pat := ⟨pat.dropLast, shape⟩

/-- The openers that the response parser passes: none for a text without an envelope, those of the
native dialect or of the JSON fallback, and an empty list where Qwen's opener is the only one. -/
def markerSets : List (Option (List Bytes)) :=
  [none, some [], some nativeMarkers, some fallbackMarkers]

theorem recognised_of_mem {markers : Option (List Bytes)} (mem : markers ∈ markerSets) :
    Recognised markers := by
  have shapes : ∀ markers ∈ markerSets, ∀ l ∈ markers, ∀ m ∈ l,
      (m = m.dropLast ++ [62] ∧ 62 ∉ m.dropLast) ∧
      (envelopeEnd m = 60 :: (envelopeEnd m).tail ∧ 60 ∉ (envelopeEnd m).tail) := by decide
  intro l hl m hm
  obtain ⟨closed, tag⟩ := shapes markers mem l hl m hm
  exact ⟨closed_of m closed, tag_of _ tag⟩

end DeepSeek

/-- Partial tool calls only grow. A Qwen value is promised unless it is itself a start of the
closing line; a DeepSeek value under a name of its own continues at its index, and one under a
repeated name is, in a call that stays valid, a beginning of the argument it repeats. -/
theorem partial_calls_grow (parses : Bytes → Bool) {markers : Option (List Bytes)}
    (mem : markers ∈ DeepSeek.markerSets) {s t : Bytes} (h : s <+: t) :
    (Qwen.nativeCallOpen <+: t → (∀ p ∈ (Qwen.scan s).closed, p.framed = true) →
      Qwen.Grows Qwen.Given (Qwen.scan s) (Qwen.scan t)) ∧
    DeepSeek.Later (DeepSeek.scan parses markers true s).1
      (DeepSeek.scan parses markers true t).1 :=
  ⟨fun native framed => Qwen.scan_grows native h framed,
    DeepSeek.scan_later (DeepSeek.recognised_of_mem mem) h⟩

/-- A Qwen call and a DeepSeek call, each cut in its second value. -/
def qwenCut : Bytes :=
  bytes "<tool_call>\n<function=f>\n<parameter=x>\n1\n</parameter>\n" ++
    bytes "<parameter=y>\n2"

def deepSeekCut (name : String) : Bytes :=
  bytes "<DS｜invoke name=\"f\"><DS｜parameter name=\"x\">a</DS｜parameter>" ++
    bytes "<DS｜parameter name=\"" ++ bytes name ++ bytes "\">b"

theorem partial_calls_grow_cut :
    Qwen.Grows Qwen.Given (Qwen.scan qwenCut) (Qwen.scan (qwenCut ++ bytes "3")) ∧
    DeepSeek.Later (DeepSeek.scan (fun _ => false) none true (deepSeekCut "y")).1
      (DeepSeek.scan (fun _ => false) none true (deepSeekCut "y" ++ bytes "c")).1 := by
  refine ⟨(partial_calls_grow (fun _ => false) (by decide : none ∈ DeepSeek.markerSets)
      (List.prefix_append qwenCut (bytes "3"))).1 (by decide) ?_,
    (partial_calls_grow (fun _ => false) (by decide)
      (List.prefix_append (deepSeekCut "y") (bytes "c"))).2⟩
  decide +kernel

/-- The call that `</param` cuts in the line closing an empty value. -/
def emptyCut : Bytes := bytes "<tool_call>\n<function=f>\n<parameter=y>\n</param"

/-- Neither promise holds without its condition: `</param` may begin the line that closes an empty
value, and a conflicting repeat of an argument is rejected when it closes. -/
theorem partial_calls_shrink :
    ¬(∀ s t : Bytes, s <+: t → Qwen.nativeCallOpen <+: t →
      (∀ p ∈ (Qwen.scan t).closed, p.framed = true) →
      Qwen.Grows (fun _ => True) (Qwen.scan s) (Qwen.scan t)) ∧
    ¬(∀ (parses : Bytes → Bool) (s t : Bytes), s <+: t →
      ∀ (k : Nat) (c : DeepSeek.ScannedToolCall),
      (DeepSeek.scan parses none true s).1[k]? = some c →
      ∃ d, (DeepSeek.scan parses none true t).1[k]? = some d ∧ d.name = c.name ∧
        c.arguments <+: d.arguments ∧
        ∀ u ∈ c.unfinished, ∃ v, (v ∈ d.arguments ∨ d.unfinished = some v) ∧ v.name = u.name ∧
          u.value <+: v.value) := by
  constructor
  · intro claim
    have grows := claim emptyCut (emptyCut ++ bytes "eter>\n</function>\n</tool_call>")
      (List.prefix_append _ _) (by decide) (by decide +kernel)
    obtain ⟨v, -, value, there⟩ := grows.unfinished ⟨bytes "y", bytes "</param", true, 46⟩
      (by decide +kernel) trivial
    have empty : (Qwen.scan (emptyCut ++ bytes "eter>\n</function>\n</tool_call>")).closed =
        [⟨bytes "y", [], true, 51⟩] := by decide +kernel
    have first : (Qwen.scan emptyCut).closed = [] := by decide +kernel
    rw [empty, first] at there
    rcases there with closed | ⟨length, -⟩
    · obtain rfl := Option.some.inj closed
      exact absurd value (by decide)
    · cases length
  · intro claim
    obtain ⟨d, there, -, -, grows⟩ := claim (fun _ => false) (deepSeekCut "x")
      (deepSeekCut "x" ++ bytes "</DS｜parameter>") (List.prefix_append _ _) 0
      ⟨bytes "f", [⟨bytes "x", bytes "a", true⟩], some ⟨bytes "x", bytes "b", true⟩, false, false⟩
      (by decide +kernel)
    have rejected : (DeepSeek.scan (fun _ => false) none true
        (deepSeekCut "x" ++ bytes "</DS｜parameter>")).1[0]? =
        some ⟨bytes "f", [⟨bytes "x", bytes "a", true⟩], none, false, false⟩ := by decide +kernel
    rw [rejected] at there
    obtain rfl := Option.some.inj there
    obtain ⟨v, place, -, value⟩ := grows _ rfl
    rcases place with only | none
    · obtain rfl := List.mem_singleton.mp only
      exact absurd value (by decide)
    · cases none

end Gufo.ToolCall
