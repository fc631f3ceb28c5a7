import Gufo.Serve.ReasoningLexeme

/-!
# The marker of a call in reasoning

The server finds the call that the sampler's grammar left reasoning for: the first native marker
outside of quotes.
-/

namespace Gufo.Serve

/-- The formats with a native call. -/
inductive NativeFormat where
  | kQwen
  | kDeepSeek
deriving DecidableEq

/-- `kNativeCallOpen`: `<tool_call>`, a newline and `<function=`, or the opener of the block with
the header of its first call. -/
def nativeCallOpen : NativeFormat → List Byte
  | .kQwen =>
    [60, 116, 111, 111, 108, 95, 99, 97, 108, 108, 62, 10,
      60, 102, 117, 110, 99, 116, 105, 111, 110, 61]
  | .kDeepSeek =>
    [60, 239, 189, 156, 68, 83, 77, 76, 239, 189, 156,
      116, 111, 111, 108, 95, 99, 97, 108, 108, 115, 62, 10,
      60, 239, 189, 156, 68, 83, 77, 76, 239, 189, 156,
      105, 110, 118, 111, 107, 101, 32, 110, 97, 109, 101, 61, 34]

/-- `ReasoningToolMarkers`: the separator of the DeepSeek template belongs to the marker. -/
def reasoningToolMarkers : NativeFormat → List (List Byte)
  | .kQwen => [nativeCallOpen .kQwen]
  | .kDeepSeek =>
    [newline :: newline :: nativeCallOpen .kDeepSeek, nativeCallOpen .kDeepSeek]

/-- The lexeme of `WithReasoning` that ends in a call. -/
def toolLexeme (format : NativeFormat) : ReasoningLexeme := ⟨nativeCallOpen format, .kTool⟩

/-- `<` -/
def opening : Byte := 60

/-- A marker that is not quoted, by the place of its `<`. -/
def markerAt (full : List Byte) (markers : List (List Byte)) (quotes : Quotes) (begin_ next : Nat) :
    Option Nat :=
  markers.findSome? fun marker =>
    match marker.findIdx? (· == opening) with
    | none => none
    | some tagOffset =>
      if tagOffset ≤ next - begin_ ∧ marker.isPrefixOf (full.drop (next - tagOffset)) = true ∧
          quotes.quotedAt next = false then
        some (next - tagOffset)
      else none

def earliestFrom (full : List Byte) (markers : List (List Byte)) (quotes : Quotes) (begin_ : Nat) :
    Nat → Nat → Option Nat
  | 0, _ => none
  | fuel + 1, position =>
    if full.length ≤ position then none
    else
      match (full.drop position).findIdx? (· == opening) with
      | none => none
      | some ahead =>
        match markerAt full markers quotes begin_ (position + ahead) with
        | some found => some found
        | none => earliestFrom full markers quotes begin_ fuel (position + ahead + 1)

/-- `EarliestMarker`. -/
def earliestMarker (full : List Byte) (markers : List (List Byte)) (quotes : Quotes)
    (begin_ : Nat) : Option Nat :=
  earliestFrom full markers quotes begin_ (full.length + 1) begin_

/-- The loop over markers in quotes that are not closed. -/
def skipUnclosed (full : List Byte) (markers : List (List Byte)) (quotes : Quotes) :
    Nat → Option Nat → Option Nat
  | 0, _ => none
  | _ + 1, none => none
  | fuel + 1, some found =>
    if quotes.unclosedAt found = true then
      skipUnclosed full markers quotes fuel (earliestMarker full markers quotes (found + 1))
    else some found

/-- `ReasoningToolMarker`. -/
def reasoningToolMarker (full : List Byte) (markers : List (List Byte)) (quotes : Quotes)
    (begin_ : Nat) : Option Nat :=
  skipUnclosed full markers quotes (full.length + 1) (earliestMarker full markers quotes begin_)

/-! ## The search -/

section
variable {full : List Byte} {markers : List (List Byte)} {quotes : Quotes} {begin_ : Nat}

/-- The first `<` from the position on that begins a marker. -/
theorem earliestFrom_spec {fuel position : Nat} (enough : full.length < position + fuel) :
    (earliestFrom full markers quotes begin_ fuel position = none → ∀ next, position ≤ next →
      full[next]? = some opening → markerAt full markers quotes begin_ next = none) ∧
    ∀ found, earliestFrom full markers quotes begin_ fuel position = some found → ∃ next,
      position ≤ next ∧ full[next]? = some opening ∧
      markerAt full markers quotes begin_ next = some found ∧ ∀ next', position ≤ next' →
        next' < next → full[next']? = some opening →
        markerAt full markers quotes begin_ next' = none := by
  induction fuel generalizing position with
  | zero =>
    refine ⟨fun _ next le here => ?_, fun found same => nomatch same⟩
    rw [List.getElem?_eq_none (by omega)] at here
    cases here
  | succ fuel ih =>
    unfold earliestFrom
    split
    · refine ⟨fun _ next le here => ?_, fun found same => nomatch same⟩
      rw [List.getElem?_eq_none (by omega)] at here
      cases here
    · cases search : (full.drop position).findIdx? (· == opening) with
      | none =>
        refine ⟨fun _ next le here => ?_, fun found same => nomatch same⟩
        have none := List.findIdx?_eq_none_iff.mp search opening
          (List.mem_of_getElem? (i := next - position)
            (by rw [List.getElem?_drop, Nat.add_sub_cancel' le, here]))
        simp at none
      | some ahead =>
        obtain ⟨inside, here, before⟩ := List.findIdx?_eq_some_iff_getElem.mp search
        simp only [List.getElem_drop, beq_iff_eq] at here before
        have at_ : full[position + ahead]? = some opening := by
          rw [List.length_drop] at inside
          rw [List.getElem?_eq_getElem (by omega), here]
        have skipped : ∀ next', position ≤ next' → next' < position + ahead →
            full[next']? ≠ some opening := by
          intro next' le lt there
          obtain ⟨_, same⟩ := List.getElem?_eq_some_iff.mp there
          refine before (next' - position) (by omega) ?_
          simp only [Nat.add_sub_cancel' le]
          exact same
        simp only
        cases marks : markerAt full markers quotes begin_ (position + ahead) with
        | some found =>
          refine ⟨fun same => (nomatch same), fun found' same => ?_⟩
          cases same
          exact ⟨position + ahead, by omega, at_, marks,
            fun next' le lt there => absurd there (skipped next' le lt)⟩
        | none =>
          obtain ⟨nothing, something⟩ := @ih (position + ahead + 1) (by omega)
          have between : ∀ next', position ≤ next' → next' < position + ahead + 1 →
              full[next']? = some opening →
              markerAt full markers quotes begin_ next' = none := by
            intro next' le lt there
            by_cases last : next' = position + ahead
            · exact last ▸ marks
            · exact absurd there (skipped next' le (by omega))
          refine ⟨fun same next le here => ?_, fun found same => ?_⟩
          · by_cases passed : next < position + ahead + 1
            · exact between next le passed here
            · exact nothing same next (by omega) here
          · obtain ⟨next, le, here, marks', first⟩ := something found same
            refine ⟨next, by omega, here, marks', fun next' le' lt there => ?_⟩
            by_cases passed : next' < position + ahead + 1
            · exact between next' le' passed there
            · exact first next' (by omega) lt there

/-- The marker of a call begins here. -/
def Marks (format : NativeFormat) (full : List Byte) (next : Nat) : Prop :=
  nativeCallOpen format <+: full.drop next

theorem Marks.opens {format : NativeFormat} {next : Nat} (marks : Marks format full next) :
    full[next]? = some opening := by
  obtain ⟨rest, same⟩ := marks
  have first := congrArg (·[0]?) same
  simp only [List.getElem?_drop, Nat.add_zero] at first
  rw [← first]
  cases format <;> rfl

/-- A marker is found where it is not quoted, by its `<` or by the separator before it. -/
theorem markerAt_spec (format : NativeFormat) (next : Nat) :
    (markerAt full (reasoningToolMarkers format) quotes begin_ next = none →
      Marks format full next → quotes.quotedAt next = true) ∧
    ∀ found, markerAt full (reasoningToolMarkers format) quotes begin_ next = some found →
      Marks format full next ∧ quotes.quotedAt next = false ∧ (found = next ∨
        found + 2 = next ∧ begin_ ≤ found ∧ full[found]? = some newline ∧
          full[found + 1]? = some newline) := by
  have plain : ∀ format, (nativeCallOpen format).findIdx? (· == opening) = some 0 := by
    intro format
    cases format <;> rfl
  have parted : (newline :: newline :: nativeCallOpen .kDeepSeek).findIdx? (· == opening) =
      some 2 := rfl
  have bare : ∀ found, (if 0 ≤ next - begin_ ∧
      (nativeCallOpen format).isPrefixOf (full.drop (next - 0)) = true ∧
        quotes.quotedAt next = false then some (next - 0) else none) = some found →
      Marks format full next ∧ quotes.quotedAt next = false ∧ found = next := by
    intro found same
    split at same
    · rename_i here
      cases same
      exact ⟨List.isPrefixOf_iff_prefix.mp here.2.1, here.2.2, rfl⟩
    · cases same
  have missed : (if 0 ≤ next - begin_ ∧
      (nativeCallOpen format).isPrefixOf (full.drop (next - 0)) = true ∧
        quotes.quotedAt next = false then some (next - 0) else none) = none →
      Marks format full next → quotes.quotedAt next = true := by
    intro none marks
    split at none
    · cases none
    · rename_i here
      by_contra not
      exact here ⟨Nat.zero_le _, List.isPrefixOf_iff_prefix.mpr marks,
        Bool.eq_false_iff.mpr not⟩
  unfold markerAt
  cases format with
  | kQwen =>
    simp only [reasoningToolMarkers, List.findSome?_cons, List.findSome?_nil, plain]
    generalize only : (if 0 ≤ next - begin_ ∧
      (nativeCallOpen .kQwen).isPrefixOf (full.drop (next - 0)) = true ∧
        quotes.quotedAt next = false then some (next - 0) else none) = o at bare missed
    cases o with
    | none => exact ⟨fun _ => missed rfl, fun found same => nomatch same⟩
    | some at_ =>
      refine ⟨fun same => (nomatch same), fun found same => ?_⟩
      cases same
      obtain ⟨marks, clear, here⟩ := bare at_ rfl
      exact ⟨marks, clear, .inl here⟩
  | kDeepSeek =>
    simp only [reasoningToolMarkers, List.findSome?_cons, List.findSome?_nil, plain, parted]
    generalize only : (if 0 ≤ next - begin_ ∧
      (nativeCallOpen .kDeepSeek).isPrefixOf (full.drop (next - 0)) = true ∧
        quotes.quotedAt next = false then some (next - 0) else none) = o at bare missed
    split_ifs with here
    · refine ⟨fun same => (nomatch same), fun found same => ?_⟩
      cases same
      obtain ⟨room, begins, clear⟩ := here
      obtain ⟨rest, same⟩ := List.isPrefixOf_iff_prefix.mp begins
      have first := congrArg (·[0]?) same
      have second := congrArg (·[1]?) same
      simp only [List.getElem?_drop] at first second
      refine ⟨⟨rest, ?_⟩, clear, .inr ⟨by omega, by omega, first.symm, second.symm⟩⟩
      have behind := congrArg (List.drop 2) same
      rw [List.drop_drop, show next - 2 + 2 = next by omega] at behind
      exact behind
    · cases o with
      | none => exact ⟨fun _ => missed rfl, fun found same => nomatch same⟩
      | some at_ =>
        refine ⟨fun same => (nomatch same), fun found same => ?_⟩
        cases same
        obtain ⟨marks, clear, here⟩ := bare at_ rfl
        exact ⟨marks, clear, .inl here⟩

/-- The loops find the first marker that no quote covers. -/
theorem skipUnclosed_spec (format : NativeFormat) {n fuel : Nat} (within_ : quotes.Within n)
    (parted : ∀ next, Marks format full (next + 2) → full[next]? = some newline →
      full[next + 1]? = some newline → quotes.quotedAt (next + 2) = false →
      quotes.unclosedAt next = false → ¬quotes.Covers (next + 2))
    (enough : full.length < begin_ + fuel)
    (before : ∀ next < begin_, Marks format full next → quotes.Covers next) :
    (skipUnclosed full (reasoningToolMarkers format) quotes fuel
        (earliestMarker full (reasoningToolMarkers format) quotes begin_) = none →
      ∀ next, Marks format full next → quotes.Covers next) ∧
    ∀ found, skipUnclosed full (reasoningToolMarkers format) quotes fuel
        (earliestMarker full (reasoningToolMarkers format) quotes begin_) = some found →
      ∃ next, (found = next ∨ found + 2 = next ∧ full[found]? = some newline) ∧
        Marks format full next ∧ ¬quotes.Covers next ∧
        ∀ next' < next, Marks format full next' → quotes.Covers next' := by
  induction fuel generalizing begin_ with
  | zero =>
    refine ⟨fun _ next marks => ?_, fun found same => nomatch same⟩
    have inside : next < full.length := by
      by_contra outside
      have opens := marks.opens
      rw [List.getElem?_eq_none (by omega)] at opens
      cases opens
    exact before next (by omega) marks
  | succ fuel ih =>
    obtain ⟨nothing, something⟩ := @earliestFrom_spec full (reasoningToolMarkers format) quotes
      begin_ (full.length + 1) begin_ (by omega)
    cases search : earliestMarker full (reasoningToolMarkers format) quotes begin_ with
    | none =>
      refine ⟨fun _ next marks => ?_, fun found same => nomatch same⟩
      by_cases past : next < begin_
      · exact before next past marks
      · have none := nothing search next (by omega) marks.opens
        have quoted := (markerAt_spec format next).1 none marks
        exact (quotes.quoted_or_unclosed within_ next).mp (.inl quoted)
    | some found =>
      obtain ⟨next, le, -, marked, first⟩ := something found search
      obtain ⟨marks, clear, place⟩ := (markerAt_spec format next).2 found marked
      have early : ∀ next' < next, Marks format full next' → quotes.Covers next' := by
        intro next' lt marks'
        by_cases past : next' < begin_
        · exact before next' past marks'
        · have none := first next' (by omega) lt marks'.opens
          have quoted := (markerAt_spec format next').1 none marks'
          exact (quotes.quoted_or_unclosed within_ next').mp (.inl quoted)
      unfold skipUnclosed
      by_cases unclosed : quotes.unclosedAt found = true
      · rw [if_pos unclosed]
        refine ih (by omega) fun next' lt marks' => ?_
        by_cases here : next' < next
        · exact early next' here marks'
        · -- the marker itself was found by its `<`, which is not closed
          have last : next' = found := by omega
          rw [last]
          exact (quotes.quoted_or_unclosed within_ found).mp (.inr unclosed)
      · rw [if_neg unclosed]
        refine ⟨fun same => (nomatch same), fun found' same => ?_⟩
        cases same
        rcases place with rfl | ⟨rfl, -, line, line'⟩
        · refine ⟨found, .inl rfl, marks, fun covers => ?_, early⟩
          cases (quotes.quoted_or_unclosed within_ found).mpr covers with
          | inl quoted => exact Bool.false_ne_true (clear.symm.trans quoted)
          | inr no => exact unclosed no
        · exact ⟨found + 2, .inr ⟨rfl, line⟩, marks,
            parted found marks line line' clear (Bool.eq_false_iff.mpr unclosed), early⟩

end

end Gufo.Serve
