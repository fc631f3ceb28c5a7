import Gufo.ToolCall.Qwen

/-!
# A Qwen call that grows

The scan of a text against the scan of a beginning of it: closed parameters stay, an
unfinished one keeps its name and its bytes, a complete call is final. The value lemmas
come first, then one parameter, then the loop.
-/

namespace Gufo.ToolCall
open Gufo.Text

/-! ## Views -/

/-- The same place in a text and in one that goes on. -/
structure Ahead (v w : View) : Prop where
  position : v.position = w.position
  data : v.data <+: w.data

namespace Ahead
variable {v w : View}

theorem trim (h : Ahead v w) (some : v.trim.data ≠ []) : Ahead v.trim w.trim := by
  refine ⟨?_, trim_mono h.data⟩
  have solid : v.data.dropWhile isSpace ≠ [] := (trim_begins v.data).ne_nil some
  simp [View.trim, h.position, takeWhile_mono h.data solid]

theorem removePrefix (h : Ahead v w) (n : Nat) : Ahead (v.removePrefix n) (w.removePrefix n) :=
  ⟨congrArg (· + n) h.position, drop_mono h.data n⟩

end Ahead

variable {v : View} {tag : Bytes}

namespace View

@[simp] theorem trim_trim (v : View) : v.trim.trim = v.trim := by
  simp [trim, trimAscii, takeWhile_trim, Text.trim_trim]

theorem consume_trim (v : View) (tag : Bytes) : v.trim.consume tag = v.consume tag := by
  simp [consume]

theorem consume_true :
    (v.consume tag).1 = true ↔ tag <+: v.trim.data := by
  unfold consume
  split <;> simp_all

theorem consume_eq (h : tag <+: v.trim.data) :
    v.consume tag = (true, v.trim.removePrefix tag.length) := if_pos h

theorem consume_none (h : ¬tag <+: v.trim.data) :
    v.consume tag = (false, v.trim) := if_neg h

theorem consume_shorter (h : tag <+: v.trim.data) (some : tag ≠ []) :
    (v.consume tag).2.data.length < v.data.length := by
  rw [consume_eq h]
  have le : v.trim.data.length ≤ v.data.length :=
    ((trim_begins v.data).length_le).trans (List.length_dropWhile_le isSpace v.data)
  have tagLe := h.length_le
  have pos := List.length_pos_of_ne_nil some
  simp only [removePrefix, List.length_drop]
  omega

end View

theorem Ahead.consume {v w : View} (h : Ahead v w) (some : tag ≠ [])
    (taken : tag <+: v.trim.data) :
    tag <+: w.trim.data ∧ Ahead (v.consume tag).2 (w.consume tag).2 := by
  have longer := taken.trans (trim_mono h.data)
  refine ⟨longer, ?_⟩
  rw [View.consume_eq taken, View.consume_eq longer]
  exact (h.trim (taken.ne_nil some)).removePrefix _

namespace Qwen

/-! ## Framed values -/

theorem newline_eq : newline = [10] := by decide
theorem carriageNewline_eq : carriageNewline = [13, 10] := by decide
theorem fullDelimiter_eq : fullDelimiter = delimiter ++ newline := by decide
theorem carriageDelimiter_eq : carriageDelimiter = delimiter ++ carriageNewline := by decide

/-- The bytes that a delimiter starting at the opening newline lets through: what they are the
start of is known only when the line ends. -/
def closingLine : Bytes := bytes "</parameter>\r"

variable {s t : Bytes}

theorem isFramed_mono (h : s <+: t) (framed : isFramed s = true) :
    isFramed t = true := by
  simp only [isFramed, decide_eq_true_eq] at framed ⊢
  exact framed.imp (·.trans h) (·.trans h)

variable {s : Bytes}

theorem frameOf_begins (framed : isFramed s = true) : frameOf s <+: s := by
  simp only [isFramed, decide_eq_true_eq] at framed
  unfold frameOf
  split
  · assumption
  · exact framed.resolve_right (by assumption)

theorem frameOf_mono (h : s <+: t) (framed : isFramed s = true) :
    frameOf t = frameOf s := by
  simp only [isFramed, decide_eq_true_eq] at framed
  unfold frameOf
  by_cases carriage : carriageNewline <+: s
  · rw [if_pos carriage, if_pos (carriage.trans h)]
  · rw [if_neg carriage, if_neg]
    exact not_both (by decide) ((framed.resolve_right carriage).trans h)

theorem dropReturn_begins (s : Bytes) : dropReturn s <+: s := by
  unfold dropReturn
  split
  · exact List.take_prefix _ _
  · exact List.prefix_rfl

theorem dropReturn_mono (h : s <+: t) : dropReturn s <+: dropReturn t := by
  by_cases same : s.length = t.length
  · rw [h.eq_of_length same]
  · have le := h.length_le
    have short := (dropReturn_begins s).trans h
    have lengths := (dropReturn_begins s).length_le
    rw [dropReturn.eq_def t]
    split
    · exact prefix_of_le short (List.take_prefix _ _) (by simp only [List.length_take]; omega)
    · exact short

theorem heldBack_mono (h : s <+: t) : heldBack s <+: heldBack t :=
  holdBack_mono (holdBack_mono h fullDelimiter) carriageDelimiter

theorem heldBack_begins (s : Bytes) : heldBack s <+: s :=
  (holdBack_begins _ carriageDelimiter).trans (holdBack_begins s fullDelimiter)

theorem unfinishedValue_mono (h : s <+: t) (framed : isFramed s = true) :
    unfinishedValue s <+: unfinishedValue t := by
  have held := heldBack_mono (drop_mono h (frameOf s).length)
  simp only [unfinishedValue, frameOf_mono h framed]
  split
  · exact dropReturn_mono held
  · exact held

/-- What is given out of an unfinished value is a beginning of its bytes. -/
theorem unfinishedValue_begins (body : Bytes) :
    unfinishedValue body <+: body.drop (frameOf body).length := by
  have held := heldBack_begins (body.drop (frameOf body).length)
  simp only [unfinishedValue]
  split
  · exact (dropReturn_begins _).trans held
  · exact held

/-! ## The closing delimiter -/

theorem closes_iff {rest : Bytes} :
    (decide (delimiter <+: rest) && closes true (rest.drop delimiter.length)) = true ↔
      fullDelimiter <+: rest ∨ carriageDelimiter <+: rest := by
  rw [fullDelimiter_eq, carriageDelimiter_eq, append_begins, append_begins]
  simp only [closes, Bool.and_eq_true, decide_eq_true_eq, Bool.true_eq_false, false_and, or_false]
  tauto

theorem window_closes : Window
    (fun rest => decide (delimiter <+: rest) && closes true (rest.drop delimiter.length)) 15 1 := by
  have full : fullDelimiter.length = 14 := by decide
  have carriage : carriageDelimiter.length = 15 := by decide
  constructor
  · intro s t h here
    rw [closes_iff] at here ⊢
    exact here.imp (·.trans h) (·.trans h)
  · intro s t h le here
    rw [closes_iff] at here ⊢
    exact here.imp (prefix_of_le · h (by omega)) (prefix_of_le · h (by omega))
  · intro s here
    rw [closes_iff] at here
    cases here with
    | inl here => have := here.length_le; omega
    | inr here => have := here.length_le; omega

theorem framedClose_mono (h : s <+: t) {f : Nat}
    (found : framedClose true s = some f) : framedClose true t = some f :=
  window_closes.stays (by omega) h found

theorem framedClose_spec {t : Bytes} {f : Nat} (found : framedClose true t = some f) :
    f ≤ t.length ∧ (fullDelimiter <+: t.drop f ∨ carriageDelimiter <+: t.drop f) := by
  obtain ⟨le, here, -⟩ := firstWhere_some.mp found
  exact ⟨le, closes_iff.mp here⟩

theorem framedClose_none (none : framedClose true s = none) (f : Nat) :
    ¬fullDelimiter <+: s.drop f ∧ ¬carriageDelimiter <+: s.drop f := by
  by_cases inside : f ≤ s.length
  · have not := firstWhere_none.mp none f inside
    have iff := @closes_iff (s.drop f)
    rw [not] at iff
    simpa using iff
  · rw [List.drop_eq_nil_of_le (by omega)]
    decide

/-! ## A value that was unfinished and is closed now -/

/-- Everything from a delimiter on is held back as long as it is not whole. -/
theorem heldBack_le (h : s <+: t) {k : Nat}
    (closed : fullDelimiter <+: t.drop k ∨ carriageDelimiter <+: t.drop k)
    (opened : ¬fullDelimiter <+: s.drop k ∧ ¬carriageDelimiter <+: s.drop k) :
    (heldBack s).length ≤ k := by
  have first := holdBack_begins s fullDelimiter
  have second := holdBack_begins (holdBack s fullDelimiter) carriageDelimiter
  cases closed with
  | inl full =>
    have start := (List.prefix_or_prefix_of_prefix (drop_mono h k) full).resolve_right opened.1
    exact second.length_le.trans (holdBack_le start)
  | inr carriage =>
    have start := (List.prefix_or_prefix_of_prefix (drop_mono h k) carriage).resolve_right opened.2
    exact holdBack_le ((drop_mono first k).trans start)

/-- A delimiter that starts at the frame itself: only its own beginning can be unfinished. -/
theorem start_of_closingLine (h : s <+: t)
    (closed : parameterClose ++ newline <+: t ∨ parameterClose ++ carriageNewline <+: t)
    (opened : ¬parameterClose ++ newline <+: s ∧ ¬parameterClose ++ carriageNewline <+: s) :
    s <+: closingLine := by
  have line : closingLine = parameterClose ++ [13] := by decide
  have short : parameterClose <+: closingLine := line ▸ List.prefix_append _ _
  cases closed with
  | inl full =>
    have start := (List.prefix_or_prefix_of_prefix h full).resolve_right opened.1
    rw [newline_eq, List.prefix_concat_iff] at start
    cases start with
    | inl all =>
      exact absurd (all ▸ List.prefix_rfl) opened.1
    | inr start => exact start.trans short
  | inr carriage =>
    have start := (List.prefix_or_prefix_of_prefix h carriage).resolve_right opened.2
    have split : parameterClose ++ carriageNewline = closingLine ++ [10] := by decide
    rw [split, List.prefix_concat_iff] at start
    cases start with
    | inl all =>
      exact absurd (all ▸ List.prefix_rfl) opened.2
    | inr start => exact start

theorem frame_length : (frameOf s = newline ∧ (frameOf s).length = 1) ∨
    (frameOf s = carriageNewline ∧ (frameOf s).length = 2) := by
  unfold frameOf
  split
  · exact .inr ⟨rfl, by decide⟩
  · exact .inl ⟨rfl, by decide⟩

/-- The frame of a value up to its closing tag is the frame of the whole text. -/
theorem stripFraming_take {t : Bytes} (framed : isFramed t = true) {n : Nat}
    (frame : (frameOf t).length ≤ n) (inside : n ≤ t.length) :
    stripFramingNewlines (t.take n) =
      let rest := (t.drop (frameOf t).length).take (n - (frameOf t).length)
      if frameOf t <:+ rest then rest.take (rest.length - (frameOf t).length) else rest := by
  have start : frameOf t <+: t.take n :=
    prefix_of_le (frameOf_begins framed) (List.take_prefix n t)
      (by simp only [List.length_take]; omega)
  have same : frameOf (t.take n) = frameOf t := by
    have framed' : isFramed (t.take n) = true := by
      simp only [isFramed, decide_eq_true_eq]
      cases frame_length (s := t) with
      | inl kind => exact .inl (kind.1 ▸ start)
      | inr kind => exact .inr (kind.1 ▸ start)
    exact (frameOf_mono (List.take_prefix n t) framed').symm
  simp [stripFramingNewlines, same, if_pos start, List.drop_take]

/-- What was given out of an unfinished value stays at its beginning when it is closed, but for
the beginning of a delimiter that starts at the frame. -/
theorem unfinished_closed (h : s <+: t) (framed : isFramed s = true)
    (opened : framedClose true s = none) {f : Nat} (found : framedClose true t = some f)
    (given : unfinishedValue s = [] ∨ ¬unfinishedValue s <+: closingLine) :
    unfinishedValue s <+: stripFramingNewlines (t.take (f + 1)) := by
  obtain ⟨inside, closed⟩ := framedClose_spec found
  have unclosed := framedClose_none opened
  have framedT := isFramed_mono h framed
  have sameFrame := frameOf_mono h framed
  have rest : s.drop (frameOf s).length <+: t.drop (frameOf s).length := drop_mono h _
  have out := unfinishedValue_begins s
  have newlineHere : t[f]? = some 10 := by
    have head : [10] <+: t.drop f := by
      cases closed with
      | inl full => exact List.IsPrefix.trans (by decide) full
      | inr carriage => exact List.IsPrefix.trans (by decide) carriage
    obtain ⟨more, same⟩ := head
    have first := congrArg (·[0]?) same
    simpa using first.symm
  have inText : f < t.length := by
    by_contra out
    rw [List.getElem?_eq_none (by omega)] at newlineHere
    cases newlineHere
  -- the delimiter starts at the frame's own newline
  have atFrame : f + 1 = (frameOf s).length →
      unfinishedValue s <+: stripFramingNewlines (t.take (f + 1)) := by
    intro atFrame
    have line : s.drop (frameOf s).length <+: closingLine := by
      refine start_of_closingLine rest ?_ ?_
      · have tail := closed.imp (drop_mono · 1) (drop_mono · 1)
        simp only [List.drop_drop] at tail
        rw [← atFrame]
        exact tail
      · have reach := (frameOf_begins framed).length_le
        have here : s[f]? = some 10 := (getElem?_eq h (by omega)).symm.trans newlineHere
        have step : s.drop f = 10 :: s.drop (frameOf s).length := by
          rw [List.drop_eq_getElem?_toList_append, here, atFrame]
          rfl
        have not := unclosed f
        have full : fullDelimiter = 10 :: (parameterClose ++ newline) := by decide
        have carriage : carriageDelimiter = 10 :: (parameterClose ++ carriageNewline) := by decide
        rw [step, full, carriage, List.cons_prefix_cons, List.cons_prefix_cons] at not
        simpa using not
    cases given with
    | inl none =>
      rw [none]
      exact List.nil_prefix
    | inr given => exact absurd (out.trans line) given
  by_cases edge : f + 1 = (frameOf s).length
  · exact atFrame edge
  have beyond : (frameOf s).length ≤ f := by
    cases frame_length (s := s) with
    | inl kind => omega
    | inr kind =>
      have first : f ≠ 0 := by
        rintro rfl
        have start := (kind.1 ▸ frameOf_begins framed : carriageNewline <+: s).trans h
        obtain ⟨more, rfl⟩ := start
        simp [carriageNewline_eq] at newlineHere
      omega
  -- it starts behind the frame, at `k` of the value
  obtain ⟨k, rfl⟩ := Nat.exists_eq_add_of_le beyond
  have held := heldBack_le rest (k := k) (by simpa using closed)
    (by simpa using unclosed ((frameOf s).length + k))
  have here : (t.drop (frameOf s).length)[k]? = some 10 := by
    rw [List.getElem?_drop]
    exact newlineHere
  have taken : (t.drop (frameOf s).length).take (k + 1) =
      (t.drop (frameOf s).length).take k ++ newline := by
    rw [List.take_add_one, here]
    rfl
  have before : heldBack (s.drop (frameOf s).length) <+: (t.drop (frameOf s).length).take k := by
    refine prefix_of_le ((heldBack_begins _).trans rest) (List.take_prefix _ _) ?_
    simp only [List.length_take, List.length_drop]
    omega
  have width : (frameOf s).length + k + 1 - (frameOf s).length = k + 1 := by omega
  rw [stripFraming_take framedT (by rw [sameFrame]; omega) (by omega), sameFrame]
  simp only [width, taken]
  cases frame_length (s := s) with
  | inl kind =>
    have plain : frameOf s ≠ carriageNewline := by rw [kind.1]; decide
    simp only [unfinishedValue, if_neg plain]
    rw [kind.1, if_pos (List.suffix_append _ _), List.length_append, Nat.add_sub_cancel,
      List.take_left, ← kind.1]
    exact before
  | inr kind =>
    simp only [unfinishedValue, if_pos kind.1]
    generalize (t.drop (frameOf s).length).take k = y at before ⊢
    split
    · rename_i framedEnd
      obtain ⟨x, same⟩ : ∃ x, y = x ++ bytes "\r" := by
        obtain ⟨x, same⟩ := framedEnd
        refine ⟨x, ?_⟩
        have ends : frameOf s = bytes "\r" ++ newline := kind.1.trans (by decide)
        rw [ends, ← List.append_assoc] at same
        exact (List.append_cancel_right same).symm
      have lengths : (bytes "\r").length = 1 ∧ newline.length = 1 := by decide
      have left : (x ++ bytes "\r" ++ newline).take ((x ++ bytes "\r" ++ newline).length -
          (frameOf s).length) = x := by
        rw [kind.2, List.append_assoc, List.length_append, List.length_append]
        have : x.length + ((bytes "\r").length + newline.length) - 2 = x.length := by omega
        rw [this, List.take_left]
      rw [same, left]
      rw [same] at before
      have single : bytes "\r" = [13] := by decide
      rw [single, List.prefix_concat_iff] at before
      cases before with
      | inl all =>
        rw [all, dropReturn, single, if_pos (List.suffix_append _ _)]
        simp
      | inr before => exact (dropReturn_begins _).trans before
    · exact (dropReturn_begins _).trans (before.trans (List.prefix_append _ _))

/-! ## One parameter -/

/-- A framed parameter's scan, once its name is read. -/
theorem scanParameter_framed {n nameEnd progress : Nat}
    (name : find closeTag v.data = some nameEnd)
    (framed : isFramed (v.data.drop (nameEnd + 1)) = true) :
    scanParameter n true progress v =
      match framedClose true (v.data.drop (nameEnd + 1)) with
      | none =>
        .broken
          (if v.data.take nameEnd ≠ [] then
            some ⟨v.data.take nameEnd, unfinishedValue (v.data.drop (nameEnd + 1)), true, n⟩
          else none) n
      | some f =>
        if v.data.take nameEnd = [] then
          .broken none (v.position + (nameEnd + 1) + (f + 1) + parameterClose.length)
        else
          .closed ⟨v.data.take nameEnd,
              stripFramingNewlines ((v.data.drop (nameEnd + 1)).take (f + 1)), true,
              v.position + (nameEnd + 1) + (f + 1) + parameterClose.length⟩ true
            ((v.removePrefix (nameEnd + 1)).removePrefix (f + 1 + parameterClose.length)) := by
  unfold scanParameter
  rw [name]
  simp only [View.removePrefix, framed, Bool.and_true, if_true, true_and, Bool.true_eq_false,
    false_and, if_false]
  cases framedClose true (v.data.drop (nameEnd + 1)) with
  | none => rfl
  | some f => rfl

/-- A parameter that is reported has a name, and is framed as its body is. -/
theorem scanParameter_name {n progress : Nat} {canonical : Bool} {result : ParameterScan}
    (done : scanParameter n canonical progress v = result)
    (reported : (∃ p c rest, result = .closed p c rest ∧ p.framed = true) ∨
      ∃ u pr, result = .broken (some u) pr) :
    ∃ nameEnd, find closeTag v.data = some nameEnd ∧
      isFramed (v.data.drop (nameEnd + 1)) = true := by
  subst done
  cases name : find closeTag v.data with
  | none => simp [scanParameter, name] at reported
  | some nameEnd =>
    refine ⟨nameEnd, rfl, ?_⟩
    by_contra unframed
    simp only [Bool.not_eq_true] at unframed
    simp only [scanParameter, name, View.removePrefix, unframed, Bool.and_false,
      Bool.false_eq_true, if_false, false_and, true_and] at reported
    cases close : find parameterClose (v.data.drop (nameEnd + 1)) with
    | none => simp [close] at reported
    | some f =>
      simp only [close] at reported
      split at reported
      · simp at reported
      · split at reported
        · simp at reported
        · obtain ⟨p, c, rest, eq, framed⟩ | ⟨u, pr, eq⟩ := reported
          · cases eq
            cases framed
          · cases eq

theorem scanParameter_closed {n m progress : Nat} {v w : View} (h : Ahead v w)
    {p : ToolParameter} {canonical : Bool} {rest : View}
    (done : scanParameter n true progress v = .closed p canonical rest)
    (framed : p.framed = true) :
    canonical = true ∧ rest.data.length < v.data.length ∧
      ∃ rest', scanParameter m true progress w = .closed p true rest' ∧ Ahead rest rest' := by
  obtain ⟨nameEnd, name, framedBody⟩ := scanParameter_name done (.inl ⟨p, _, _, rfl, framed⟩)
  have nameT := find_mono h.data name
  have body := drop_mono h.data (nameEnd + 1)
  have tag := find_lt name
  rw [scanParameter_framed name framedBody] at done
  rw [scanParameter_framed nameT (isFramed_mono body framedBody)]
  have spelled := take_eq h.data (n := nameEnd) (by omega)
  cases close : framedClose true (v.data.drop (nameEnd + 1)) with
  | none => simp [close] at done
  | some f =>
    have inside := (framedClose_spec close).2
    have reach : f + 1 ≤ (v.data.drop (nameEnd + 1)).length := by
      have lengths : fullDelimiter.length = 14 ∧ carriageDelimiter.length = 15 := by decide
      have : 1 ≤ ((v.data.drop (nameEnd + 1)).drop f).length := by
        cases inside with
        | inl inside => have := inside.length_le; omega
        | inr inside => have := inside.length_le; omega
      simp only [List.length_drop] at this ⊢
      omega
    simp only [close] at done
    rw [framedClose_mono body close]
    simp only [spelled, take_eq body reach, ← h.position]
    split at done
    · cases done
    · rename_i named
      rw [if_neg named]
      cases done
      refine ⟨rfl, ?_, _, rfl, (h.removePrefix _).removePrefix _⟩
      simp only [View.removePrefix, List.length_drop] at reach ⊢
      omega

/-- An unfinished parameter is, in the longer text, closed or still unfinished; what was given
out of its value stays. -/
theorem scanParameter_broken {n m progress : Nat} {v w : View} (h : Ahead v w)
    {u : ToolParameter} {pr : Nat}
    (done : scanParameter n true progress v = .broken (some u) pr)
    (given : u.value = [] ∨ ¬u.value <+: closingLine) :
    ∃ q, q.name = u.name ∧ u.value <+: q.value ∧
      ((∃ rest, scanParameter m true progress w = .closed q true rest) ∨
        ∃ pr', scanParameter m true progress w = .broken (some q) pr') := by
  obtain ⟨nameEnd, name, framedBody⟩ := scanParameter_name done (.inr ⟨u, pr, rfl⟩)
  have nameT := find_mono h.data name
  have body := drop_mono h.data (nameEnd + 1)
  have tag := find_lt name
  rw [scanParameter_framed name framedBody] at done
  rw [scanParameter_framed nameT (isFramed_mono body framedBody)]
  have spelled := take_eq h.data (n := nameEnd) (by omega)
  cases close : framedClose true (v.data.drop (nameEnd + 1)) with
  | some f =>
    simp only [close] at done
    split at done <;> cases done
  | none =>
    simp only [close] at done
    split at done
    · rename_i named
      cases done
      simp only [spelled]
      cases closeT : framedClose true (w.data.drop (nameEnd + 1)) with
      | none =>
        exact ⟨⟨v.data.take nameEnd, unfinishedValue (w.data.drop (nameEnd + 1)), true, m⟩, rfl,
          unfinishedValue_mono body framedBody, .inr ⟨m, by simp only [if_pos named]⟩⟩
      | some f =>
        exact ⟨_, rfl, unfinished_closed body framedBody close closeT given,
          .inl ⟨_, by simp only [if_neg named]; rfl⟩⟩
    · cases done

/-! ## The loop -/

/-- Parameters that are closed stay closed. -/
theorem scanParameters_extends (n fuel : Nat) (s : Parameters) :
    s.parameters <+: (scanParameters n fuel s).parameters := by
  induction fuel generalizing s with
  | zero => exact List.prefix_rfl
  | succ fuel ih =>
    unfold scanParameters
    simp only
    split
    · split
      · refine List.IsPrefix.trans ?_ (ih _)
        exact List.prefix_append _ _
      · exact List.prefix_rfl
    · exact List.prefix_rfl

/-- What the scan of a beginning of the text tells about the scan of the text. -/
structure Outgrown (s t : Parameters) : Prop where
  closed : s.parameters <+: t.parameters
  unfinished : ∀ u, s.unfinished = some u → (u.value = [] ∨ ¬u.value <+: closingLine) →
    ∃ q, q.name = u.name ∧ u.value <+: q.value ∧
      (t.parameters[s.parameters.length]? = some q ∨
        t.parameters.length = s.parameters.length ∧ t.unfinished = some q)
  ended : s.valid = true → (s.body.consume functionClose).1 = true →
    t.parameters = s.parameters ∧ s.unfinished = none ∧ t.unfinished = none ∧ t.valid = true ∧
      t.progress = s.progress ∧
      Ahead (s.body.consume functionClose).2 (t.body.consume functionClose).2 ∧
      (t.body.consume functionClose).1 = true

/-- Before a parameter, or at the end of the list: nothing is broken yet, all are framed. -/
structure Open (s : Parameters) : Prop where
  valid : s.valid = true
  canonical : s.canonical = true
  unfinished : s.unfinished = none

theorem scanParameters_outgrown {n m fuel fuel' : Nat} {s t : Parameters} (hs : Open s)
    (ht : Open t) (same : t.parameters = s.parameters) (progress : t.progress = s.progress)
    (ahead : Ahead s.body t.body) (enough : s.body.data.length < fuel)
    (enough' : t.body.data.length < fuel')
    (framed : ∀ p ∈ (scanParameters n fuel s).parameters, p.framed = true) :
    Outgrown (scanParameters n fuel s) (scanParameters m fuel' t) := by
  induction fuel generalizing s t fuel' with
  | zero => omega
  | succ fuel ih =>
    obtain ⟨fuel', rfl⟩ : ∃ k, fuel' = k + 1 := ⟨fuel' - 1, by omega⟩
    have tag : parameterOpen ≠ [] := by decide
    by_cases opened : parameterOpen <+: s.body.trim.data
    · -- a parameter opens in both texts
      obtain ⟨openedT, inside⟩ := ahead.consume tag opened
      have shorter := View.consume_shorter opened tag
      have shorterT := View.consume_shorter openedT tag
      have yes := View.consume_true.mpr opened
      have yesT := View.consume_true.mpr openedT
      have extends_ := scanParameters_extends m (fuel' + 1) t
      unfold scanParameters at framed extends_ ⊢
      simp only [yes, yesT, if_true, hs.canonical, ht.canonical, progress, same]
        at framed extends_ ⊢
      cases first : scanParameter n true s.progress (s.body.consume parameterOpen).2 with
      | closed p canonical rest =>
        simp only [first] at framed
        have framedP : p.framed = true :=
          framed p ((scanParameters_extends n fuel _).subset (by simp))
        obtain ⟨rfl, less, rest', firstT, next⟩ :=
          scanParameter_closed (m := m) inside first framedP
        simp only [firstT]
        have lessT : rest'.data.length < (t.body.consume parameterOpen).2.data.length :=
          (scanParameter_closed (m := m) (v := (t.body.consume parameterOpen).2)
            ⟨rfl, List.prefix_rfl⟩ firstT framedP).2.1
        exact ih ⟨hs.valid, rfl, hs.unfinished⟩ ⟨ht.valid, rfl, ht.unfinished⟩ rfl rfl next
          (by simp only; omega) (by simp only; omega) framed
      | broken unfinished pr =>
        refine ⟨extends_, fun u eq given => ?_, fun valid => by cases valid⟩
        subst eq
        obtain ⟨q, name, value, found⟩ := scanParameter_broken (m := m) inside first given
        refine ⟨q, name, value, ?_⟩
        obtain ⟨rest, closed⟩ | ⟨pr', broken⟩ := found
        · simp only [closed]
          have longer := scanParameters_extends m fuel' { t with
            parameters := s.parameters ++ [q]
            canonical := true
            progress := q.progress
            body := rest }
          rw [getElem?_eq longer (by simp)]
          simp
        · simp [broken]
    · -- the list ends in the shorter text
      have no : (s.body.consume parameterOpen) = (false, s.body.trim) := View.consume_none opened
      have extends_ := scanParameters_extends m (fuel' + 1) t
      rw [same] at extends_
      have left : scanParameters n (fuel + 1) s = { s with body := s.body.trim } := by
        unfold scanParameters
        simp [no]
      rw [left]
      refine ⟨extends_, fun u eq => ?_, fun _ closed => ?_⟩
      · simp only [hs.unfinished] at eq
        cases eq
      · rw [View.consume_trim] at closed ⊢
        have taken := View.consume_true.mp closed
        obtain ⟨takenT, inside⟩ := ahead.consume (by decide) taken
        have noT : t.body.consume parameterOpen = (false, t.body.trim) :=
          View.consume_none (not_both (by decide) takenT)
        have right : scanParameters m (fuel' + 1) t = { t with body := t.body.trim } := by
          unfold scanParameters
          simp [noT]
        rw [right]
        simp only [View.consume_trim]
        exact ⟨same, hs.unfinished, ht.unfinished, ht.valid, progress, inside,
          View.consume_true.mpr takenT⟩

/-! ## The whole scan -/

namespace Scan

/-- The parameters that a scan reports as closed. -/
def closed (s : Scan) : List ToolParameter := (s.call.map (·.parameters)).getD []

def unfinished (s : Scan) : Option ToolParameter := s.call.bind (·.unfinished)

def complete (s : Scan) : Bool := (s.call.map (·.complete)).getD false

end Scan

/-- Parameters stay, an unfinished one grows, a complete call is final. `given` says which
unfinished parameters are promised to grow. -/
structure Grows (given : ToolParameter → Prop) (s t : Scan) : Prop where
  closed : s.closed <+: t.closed
  unfinished : ∀ u, s.unfinished = some u → given u →
    ∃ q, q.name = u.name ∧ u.value <+: q.value ∧
      (t.closed[s.closed.length]? = some q ∨
        t.closed.length = s.closed.length ∧ t.unfinished = some q)
  complete : s.complete = true → t.call = s.call ∧ t.endOffset = s.endOffset

/-- A scan that reports nothing promises nothing. -/
theorem grows_of_empty {given : ToolParameter → Prop} {s t : Scan} (closed : s.closed = [])
    (unfinished : s.unfinished = none) (open_ : s.complete = false) : Grows given s t := by
  refine ⟨closed ▸ List.nil_prefix, fun u eq => ?_, fun done => ?_⟩
  · rw [unfinished] at eq
    cases eq
  · rw [open_] at done
    cases done

/-- Not the bytes that a delimiter starting at the opening newline lets through. -/
def Given (u : ToolParameter) : Prop := u.value = [] ∨ ¬u.value <+: closingLine

theorem scanNative_grows (h : s <+: t) (header : nativeCallOpen <+: s)
    {v w : View} (ahead : Ahead v w) (inside : v.data.length ≤ s.length)
    (insideT : w.data.length ≤ t.length)
    (framed : ∀ p ∈ (scanNative s v).closed, p.framed = true) :
    Grows Given (scanNative s v) (scanNative t w) := by
  unfold scanNative at framed ⊢
  cases name : find closeTag v.data with
  | none => exact grows_of_empty rfl rfl rfl
  | some nameEnd =>
    have tag := find_lt name
    simp only [name, find_mono ahead.data name, take_eq ahead.data (n := nameEnd) (by omega),
      decide_eq_true header, decide_eq_true (header.trans h)] at framed ⊢
    split
    · exact grows_of_empty rfl rfl rfl
    · rename_i named
      rw [if_neg named] at framed
      have grown : Outgrown
          (scanParameters s.length (s.length + 1)
            ⟨[], none, true, true, callOpen.length, v.removePrefix (nameEnd + 1)⟩)
          (scanParameters t.length (t.length + 1)
            ⟨[], none, true, true, callOpen.length, w.removePrefix (nameEnd + 1)⟩) :=
        scanParameters_outgrown ⟨rfl, rfl, rfl⟩ ⟨rfl, rfl, rfl⟩ rfl rfl
        (ahead.removePrefix _) (by simp only [View.removePrefix, List.length_drop]; omega)
        (by simp only [View.removePrefix, List.length_drop]; omega) framed
      refine ⟨grown.closed, grown.unfinished, fun complete => ?_⟩
      simp only [Scan.complete, Option.map_some, Option.getD_some, Bool.and_eq_true] at complete
      obtain ⟨⟨valid, function⟩, call⟩ := complete
      obtain ⟨same, none, noneT, validT, progress, next, functionT⟩ := grown.ended valid function
      have taken := View.consume_true.mp call
      obtain ⟨takenT, last⟩ := next.consume (by decide) taken
      have callT := View.consume_true.mpr takenT
      simp [same, none, noneT, valid, validT, function, functionT, call, callT, last.position]

/-- Before the whole opener is there, nothing is reported. -/
theorem scanJson_empty (short : v.data.length < callClose.length) :
    (scanJson s v).closed = [] ∧ (scanJson s v).unfinished = none ∧
      (scanJson s v).complete = false := by
  refine ⟨rfl, rfl, ?_⟩
  simp only [scanJson, Scan.complete, Option.map_some, Option.getD_some, decide_eq_false_iff_not]
  intro closed
  have le := closed.length_le
  simp only [List.length_drop] at le
  omega

/-- A Qwen call only grows with its text, as long as its parameters are framed. -/
theorem scan_grows {t : Bytes} (native : nativeCallOpen <+: t) (h : s <+: t)
    (framed : ∀ p ∈ (scan s).closed, p.framed = true) : Grows Given (scan s) (scan t) := by
  have opener : nativeCallOpen = callOpen ++ (newline ++ functionOpen) := by decide
  by_cases matched : callOpen <+: s
  · have openT := matched.trans h
    obtain ⟨more, bodyT⟩ := (append_begins.mp (opener ▸ native)).2
    have start : Ahead ⟨callOpen.length, s.drop callOpen.length⟩
        ⟨callOpen.length, t.drop callOpen.length⟩ := ⟨rfl, drop_mono h _⟩
    have nonempty : functionOpen ≠ [] := by decide
    have lead : (t.drop callOpen.length).dropWhile isSpace = functionOpen ++ more := by
      rw [← bodyT, newline_eq, show functionOpen = 60 :: functionOpen.tail by decide]
      rfl
    have trimmedT : functionOpen <+: trimAscii (t.drop callOpen.length) := by
      unfold trimAscii trim
      rw [lead]
      refine prefix_trimEnd (List.prefix_append _ _) fun last at_end => ?_
      have ends : functionOpen.getLast? = some 61 := by decide
      obtain rfl := Option.some.inj (ends.symm.trans at_end)
      decide
    unfold scan at framed ⊢
    simp only [if_pos matched, if_pos openT, View.consume_trim] at framed ⊢
    by_cases opened : functionOpen <+: trimAscii (s.drop callOpen.length)
    · obtain ⟨-, next⟩ := start.consume nonempty opened
      have shorter :=
        View.consume_shorter (v := ⟨callOpen.length, s.drop callOpen.length⟩) opened nonempty
      have shorterT :=
        View.consume_shorter (v := ⟨callOpen.length, t.drop callOpen.length⟩) trimmedT nonempty
      have yes := View.consume_true (v := ⟨callOpen.length, s.drop callOpen.length⟩).mpr opened
      have yesT := View.consume_true (v := ⟨callOpen.length, t.drop callOpen.length⟩).mpr trimmedT
      simp only [yes, yesT, if_true] at framed ⊢
      have header : nativeCallOpen <+: s := by
        refine prefix_of_le native h ?_
        have solid : (s.drop callOpen.length).dropWhile isSpace ≠ [] :=
          (trim_begins (s.drop callOpen.length)).ne_nil (opened.ne_nil nonempty)
        have spaces := takeWhile_mono (drop_mono h callOpen.length) solid
        have split := congrArg List.length
          (List.takeWhile_append_dropWhile (p := isSpace) (l := s.drop callOpen.length))
        have one : ((t.drop callOpen.length).takeWhile isSpace).length = 1 := by
          rw [← bodyT, newline_eq, show functionOpen = 60 :: functionOpen.tail by decide]
          rfl
        have body := opened.length_le.trans (trim_begins (s.drop callOpen.length)).length_le
        have lengths : nativeCallOpen.length = 22 ∧ callOpen.length = 11 ∧
            functionOpen.length = 10 := by decide
        rw [List.length_append, ← spaces, one, List.length_drop] at split
        omega
      simp only [List.length_drop] at shorter shorterT
      exact scanNative_grows h header next (by omega) (by omega) framed
    · have begun : trimAscii (s.drop callOpen.length) <+: functionOpen :=
        (List.prefix_or_prefix_of_prefix (trim_mono (drop_mono h _)) trimmedT).resolve_right opened
      have no := View.consume_none (v := ⟨callOpen.length, s.drop callOpen.length⟩) opened
      simp only [no, Bool.false_eq_true, if_false]
      have lengths : callClose.length = 12 ∧ functionOpen.length = 10 := by decide
      obtain ⟨closed, unfinished, open_⟩ := scanJson_empty (s := s)
        (v := (⟨callOpen.length, s.drop callOpen.length⟩ : View).trim) (by
          have := begun.length_le
          simp only [View.trim]
          omega)
      exact grows_of_empty closed unfinished open_
  · have empty : scan s = {} := by
      unfold scan
      rw [if_neg matched]
    rw [empty]
    exact grows_of_empty rfl rfl rfl

end Qwen

end Gufo.ToolCall
