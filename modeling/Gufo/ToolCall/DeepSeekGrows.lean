import Gufo.ToolCall.DeepSeek

/-!
# DeepSeek calls that grow

The calls of a text against those of a beginning of it. Tags have one bracket, at their
start, so that no tag of the longer text can begin before one that the shorter text has
whole and end behind it.
-/

namespace Gufo.ToolCall.DeepSeek
open Gufo.Text

/-! ## Tags -/

/-- A tag holds `<` as its first byte only. -/
def Tag (pat : Bytes) : Prop := ∃ rest, pat = 60 :: rest ∧ 60 ∉ rest

/-- A marker holds `>` as its last byte only. -/
def Closed (pat : Bytes) : Prop := ∃ body, pat = body ++ [62] ∧ 62 ∉ body

theorem Tag.ne_nil {pat : Bytes} (h : Tag pat) : pat ≠ [] := by
  obtain ⟨rest, rfl, -⟩ := h
  simp

variable {pat text : Bytes}

theorem Tag.head (h : Tag pat) {i : Nat} (here : pat <+: text.drop i) :
    text[i]? = some 60 := by
  obtain ⟨rest, rfl, -⟩ := h
  obtain ⟨more, same⟩ := here
  have first := congrArg (·[0]?) same
  simpa using first.symm

/-- A tag that begins before a bracket ends before it. -/
theorem Tag.before (h : Tag pat) {i j : Nat} (here : pat <+: text.drop j)
    (bracket : text[i]? = some 60) (lt : j < i) : j + pat.length ≤ i := by
  obtain ⟨rest, rfl, single⟩ := h
  obtain ⟨more, same⟩ := here
  by_contra inside
  simp only [List.length_cons] at inside
  have at_i := congrArg (·[i - j]?) same
  simp only [List.getElem?_drop, Nat.add_sub_cancel' lt.le, bracket, List.cons_append] at at_i
  obtain ⟨k, eq⟩ : ∃ k, i - j = k + 1 := ⟨i - j - 1, by omega⟩
  rw [eq, List.getElem?_cons_succ, List.getElem?_append_left (by omega)] at at_i
  exact single (List.mem_of_getElem? at_i)

/-- A marker that has begun by a closing bracket ends with it at the latest. -/
theorem Closed.within (h : Closed pat) {i j : Nat} (here : pat <+: text.drop j)
    (bracket : text[i]? = some 62) (le : j ≤ i) : j + pat.length ≤ i + 1 := by
  obtain ⟨body, rfl, single⟩ := h
  obtain ⟨more, same⟩ := here
  by_contra inside
  simp only [List.length_append, List.length_singleton] at inside
  have at_i := congrArg (·[i - j]?) same
  simp only [List.getElem?_drop, Nat.add_sub_cancel' le, bracket, List.append_assoc] at at_i
  rw [List.getElem?_append_left (by omega)] at at_i
  exact single (List.mem_of_getElem? at_i)

theorem Closed.last (h : Closed pat) {i : Nat} (here : pat <+: text.drop i) :
    text[i + pat.length - 1]? = some 62 := by
  obtain ⟨body, rfl, -⟩ := h
  obtain ⟨more, same⟩ := here
  have at_end := congrArg (·[body.length]?) same
  simp only [List.getElem?_drop, List.append_assoc] at at_end
  rw [List.getElem?_append_right (le_refl _)] at at_end
  simp only [Nat.sub_self, List.singleton_append, List.getElem?_cons_zero] at at_end
  rw [List.length_append, List.length_singleton, ← Nat.add_assoc, Nat.add_sub_cancel]
  exact at_end.symm

theorem tag_of (pat : Bytes) (shape : pat = 60 :: pat.tail ∧ 60 ∉ pat.tail) : Tag pat :=
  ⟨pat.tail, shape⟩

namespace Spelling

theorem tag_invokeOpen (s : Spelling) : Tag s.invokeOpen := tag_of _ (by cases s <;> decide)
theorem tag_invokeClose (s : Spelling) : Tag s.invokeClose := tag_of _ (by cases s <;> decide)
theorem tag_parameterOpen (s : Spelling) : Tag s.parameterOpen := tag_of _ (by cases s <;> decide)
theorem tag_parameterClose (s : Spelling) : Tag s.parameterClose := tag_of _ (by cases s <;> decide)

theorem solid_parameterOpen (s : Spelling) :
    ∀ last ∈ s.parameterOpen.getLast?, isSpace last = false := by
  intro last at_end
  have ends : s.parameterOpen.getLast? = some 114 := by cases s <;> decide
  obtain rfl := Option.some.inj (ends.symm.trans at_end)
  decide

theorem open_apart {s s' : Spelling} (ne : s ≠ s') :
    ¬s.invokeOpen <+: s'.invokeOpen ∧ ¬s'.invokeOpen <+: s.invokeOpen := by
  cases s <;> cases s' <;> first | exact absurd rfl ne | decide

theorem open_parameter (s s' : Spelling) :
    ¬s.invokeOpen <+: s'.parameterOpen ∧ ¬s'.parameterOpen <+: s.invokeOpen := by
  cases s <;> cases s' <;> decide

theorem open_close (s s' : Spelling) :
    ¬s.invokeOpen <+: s'.invokeClose ∧ ¬s'.invokeClose <+: s.invokeOpen := by
  cases s <;> cases s' <;> decide

theorem close_parameter (s : Spelling) :
    ¬s.invokeClose <+: s.parameterOpen ∧ ¬s.parameterOpen <+: s.invokeClose := by
  cases s <;> decide

theorem parameterClose_closeTag (s : Spelling) :
    ¬s.parameterClose <+: closeTag ∧ ¬closeTag <+: s.parameterClose := by
  cases s <;> decide

theorem open_slash (s : Spelling) :
    ¬bytes "</" <+: s.invokeOpen ∧ ¬s.invokeOpen <+: bytes "</" := by
  cases s <;> decide

theorem mem_all (s : Spelling) : s ∈ all := by cases s <;> decide

end Spelling

/-! ## Invocations and markers -/

variable {text : Bytes} {cursor i : Nat}

theorem firstInvoke_spec {s : Spelling}
    (found : firstInvoke text cursor = some (i, s)) :
    cursor ≤ i ∧ s.invokeOpen <+: text.drop i ∧ i + s.invokeOpen.length ≤ text.length := by
  obtain ⟨-, here, -⟩ := earliest_some found
  obtain ⟨low, -, occurs, -⟩ := findFrom_some.mp here
  exact ⟨low, occurs, findFrom_lt here⟩

/-- An invocation of the shorter text is the first one of the longer text too. -/
theorem firstInvoke_mono {s t : Bytes} (h : s <+: t) {spelling : Spelling}
    (found : firstInvoke s cursor = some (i, spelling)) :
    firstInvoke t cursor = some (i, spelling) := by
  obtain ⟨-, here, inside⟩ := firstInvoke_spec found
  have hereT := here.trans (drop_mono h i)
  have bracket := (Spelling.tag_invokeOpen spelling).head hereT
  have own := (earliest_some found).2.1
  refine earliest_mono found (fun y _ j => findFrom_mono h) fun y _ j none foundT => ?_
  have beyond := findFrom_beyond h none foundT
  obtain ⟨-, -, occurs, -⟩ := findFrom_some.mp foundT
  by_contra early
  rcases Nat.lt_or_eq_of_le (Nat.not_lt.mp early) with before | rfl
  · have := (Spelling.tag_invokeOpen y).before occurs bracket before
    omega
  · by_cases same : y = spelling
    · rw [same, own] at none
      cases none
    · exact not_both (Spelling.open_apart same) occurs hereT

variable {cursor : Nat}

/-- Behind the last invocation there is none. -/
theorem firstInvoke_none (none : firstInvoke text cursor = none)
    {later : Nat} (le : cursor ≤ later) : firstInvoke text later = Option.none := by
  have all := earliest_none.mp none
  refine earliest_none.mpr fun y hy => findFrom_none.mpr fun i low high => ?_
  exact findFrom_none.mp (all y hy) i (le.trans low) high

theorem firstInvoke_end (le : text.length ≤ cursor) :
    firstInvoke text cursor = none := by
  refine earliest_none.mpr fun y _ => findFrom_none.mpr fun i low high occurs => ?_
  rw [List.drop_eq_nil_of_le (by omega), List.prefix_nil] at occurs
  exact (Spelling.tag_invokeOpen y).ne_nil occurs

/-- The openers a scan may be given. -/
def Recognised (markers : Option (List Bytes)) : Prop :=
  ∀ l ∈ markers, ∀ m ∈ l, Closed m ∧ Tag (envelopeEnd m)

theorem firstMarker_mono {markers : List Bytes} (recognised : Recognised (some markers))
    {s t : Bytes} (h : s <+: t) {m : Bytes}
    (found : firstMarker markers s cursor = some (i, m)) :
    firstMarker markers t cursor = some (i, m) := by
  obtain ⟨mem, here, -⟩ := earliest_some found
  obtain ⟨-, -, occursM, -⟩ := findFrom_some.mp here
  have inside := findFrom_lt here
  have closed := (recognised markers rfl m mem).1
  have bracket := closed.last (occursM.trans (drop_mono h i))
  have long : 0 < m.length := by
    obtain ⟨body, rfl, -⟩ := closed
    simp
  refine earliest_mono found (fun y _ j => findFrom_mono h) fun y hy j none foundT => ?_
  have beyond := findFrom_beyond h none foundT
  obtain ⟨-, -, occurs, -⟩ := findFrom_some.mp foundT
  by_contra early
  have := (recognised markers rfl y hy).1.within occurs bracket (by omega)
  omega

/-! ## One parameter -/

section
variable {parses : Bytes → Bool} {s t : Bytes} {spelling : Spelling}

theorem jsonClose_mono (h : s <+: t) {valueStart fuel fuel' close found : Nat}
    (fuelLe : fuel ≤ fuel') (inside : close ≤ s.length)
    (done : jsonClose parses s spelling valueStart fuel close = some found) :
    found ≤ s.length ∧ jsonClose parses t spelling valueStart fuel' close = some found := by
  induction fuel generalizing fuel' close with
  | zero => cases done
  | succ fuel ih =>
    obtain ⟨fuel', rfl⟩ : ∃ k, fuel' = k + 1 := ⟨fuel' - 1, by omega⟩
    unfold jsonClose at done ⊢
    rw [slice_eq h inside]
    split at done
    · rename_i whole
      obtain rfl := Option.some.inj done
      exact ⟨inside, if_pos whole⟩
    · rename_i more
      rw [if_neg more]
      cases next : findFrom spelling.parameterClose s (close + spelling.parameterClose.length) with
      | none => simp [next] at done
      | some close' =>
        simp only [next] at done
        have reach := findFrom_lt next
        simp only [findFrom_mono h next]
        exact ih (by omega) (by omega) done

variable {valueStart close : Nat} {state next : Parameters}

theorem closeParameter_mono (h : s <+: t) {tag : Bytes}
    (inside : close ≤ s.length)
    (done : closeParameter parses s spelling state tag valueStart close = some next) :
    closeParameter parses t spelling state tag valueStart close = some next := by
  unfold closeParameter at done ⊢
  simp only at done ⊢
  split
  · rename_i name eq
    rw [eq] at done
    simp only at done
    split
    · rename_i given
      rw [if_pos given] at done
      generalize decide ((attributeOf tag "string").getD (bytes "true") = bytes "true") = isString
        at done ⊢
      cases isString with
      | true =>
        simp only [if_true, Option.map_some, slice_eq h inside] at done ⊢
        exact done
      | false =>
        simp only [Bool.false_eq_true, if_false] at done ⊢
        obtain ⟨found, closed, eq⟩ := Option.map_eq_some_iff.mp done
        obtain ⟨reach, closedT⟩ := jsonClose_mono h
          (by have := h.length_le; omega : s.length + 1 ≤ t.length + 1) inside closed
        rw [closedT, Option.map_some, slice_eq h reach, eq]
    · rename_i malformed
      rwa [if_neg malformed] at done
  · rename_i eq
    rw [eq] at done
    exact done

variable {text tag : Bytes}

/-- Closing a parameter keeps the arguments, and moves on behind its closing tag. -/
theorem closeParameter_spec
    (done : closeParameter parses text spelling state tag valueStart close = some next) :
    state.arguments <+: next.arguments ∧ next.unfinished = state.unfinished ∧
      next.protectedEnd = next.cursor ∧ (next.valid = true → state.valid = true) := by
  have added : ∀ argument, state.arguments <+: (addArgument state argument).arguments ∧
      (addArgument state argument).unfinished = state.unfinished ∧
      ((addArgument state argument).valid = true → state.valid = true) := by
    intro argument
    unfold addArgument
    split
    · exact ⟨List.prefix_append _ _, rfl, id⟩
    · split
      · exact ⟨List.prefix_rfl, rfl, fun valid => by cases valid⟩
      · exact ⟨List.prefix_rfl, rfl, id⟩
  unfold closeParameter at done
  simp only at done
  split at done
  · split at done
    · obtain ⟨found, -, rfl⟩ := Option.map_eq_some_iff.mp done
      obtain ⟨arguments, unfinished, valid⟩ := added _
      exact ⟨arguments, unfinished, rfl, valid⟩
    · obtain rfl := Option.some.inj done
      exact ⟨List.prefix_rfl, rfl, rfl, fun valid => by cases valid⟩
  · obtain rfl := Option.some.inj done
    exact ⟨List.prefix_rfl, rfl, rfl, fun valid => by cases valid⟩

/-- The JSON search only moves on. -/
theorem jsonClose_le {valueStart fuel close found : Nat}
    (done : jsonClose parses text spelling valueStart fuel close = some found) : close ≤ found := by
  induction fuel generalizing close with
  | zero => cases done
  | succ fuel ih =>
    unfold jsonClose at done
    split at done
    · exact (Option.some.inj done).le
    · cases next : findFrom spelling.parameterClose text
          (close + spelling.parameterClose.length) with
      | none => simp [next] at done
      | some close' =>
        simp only [next] at done
        obtain ⟨low, -⟩ := findFrom_some.mp next
        have := ih done
        omega

theorem closeParameter_cursor
    (done : closeParameter parses text spelling state tag valueStart close = some next) :
    close < next.cursor := by
  have pos := List.length_pos_of_ne_nil (Spelling.tag_parameterClose spelling).ne_nil
  unfold closeParameter at done
  simp only at done
  split at done
  · split at done
    · obtain ⟨found, closed, rfl⟩ := Option.map_eq_some_iff.mp done
      have le : close ≤ found := by
        split at closed
        · exact (Option.some.inj closed).le
        · exact jsonClose_le closed
      change close < found + _
      omega
    · obtain rfl := Option.some.inj done
      change close < close + _
      omega
  · obtain rfl := Option.some.inj done
    change close < close + _
    omega

/-! ## One round of the parameter loop -/

/-- Where the space behind a cursor ends. -/
def solidFrom (text : Bytes) (cursor : Nat) : Nat :=
  cursor + ((text.drop cursor).takeWhile isSpace).length

theorem le_solidFrom (text : Bytes) (cursor : Nat) : cursor ≤ solidFrom text cursor :=
  Nat.le_add_right _ _

theorem prefix_solidFrom {text pat : Bytes}
    (solid : ∀ last ∈ pat.getLast?, isSpace last = false) :
    pat <+: trimAscii (text.drop cursor) ↔ pat <+: text.drop (solidFrom text cursor) := by
  unfold trimAscii solidFrom
  rw [prefix_trim solid, List.drop_drop]

theorem solidFrom_eq (h : s <+: t) (inside : solidFrom s cursor < s.length) :
    solidFrom t cursor = solidFrom s cursor := by
  unfold solidFrom at inside ⊢
  rw [takeWhile_mono (drop_mono h cursor)]
  intro empty
  rw [dropWhile_eq_drop, List.drop_drop, List.drop_eq_nil_iff] at empty
  omega

/-- The bytes up to the solid ones are space. -/
theorem solidFrom_space (low : cursor ≤ i)
    (high : i < solidFrom text cursor) : ∀ b ∈ text[i]?, isSpace b = true := by
  intro b at_i
  unfold solidFrom at high
  have here : (text.drop cursor)[i - cursor]? = some b := by
    rw [List.getElem?_drop, Nat.add_sub_cancel' low]
    exact at_i
  have begins := List.takeWhile_prefix isSpace (l := text.drop cursor)
  rw [getElem?_eq begins (by omega)] at here
  exact List.mem_takeWhile_imp (List.mem_of_getElem? here)

theorem parameterStep_eq (text : Bytes) (a : Parameters) :
    parameterStep parses true text spelling a =
      if text.length ≤ a.cursor then .stop a
      else if ¬spelling.parameterOpen <+: text.drop (solidFrom text a.cursor) then
        .stop { a with cursor := solidFrom text a.cursor }
      else
        match findFrom closeTag text (solidFrom text a.cursor) with
        | none =>
          .stop { a with
            cursor := solidFrom text a.cursor
            protectedEnd := text.length
            valid := false }
        | some tagEnd =>
          match findFrom spelling.parameterClose text tagEnd with
          | none =>
            .stop { a with
              cursor := solidFrom text a.cursor
              unfinished := partialArgument text spelling (solidFrom text a.cursor) tagEnd
              protectedEnd := text.length
              valid := false }
          | some close =>
            match closeParameter parses text spelling { a with cursor := solidFrom text a.cursor }
                (slice text (solidFrom text a.cursor) (tagEnd + 1)) (tagEnd + 1) close with
            | some b => .next b
            | none =>
              .stop { a with
                cursor := solidFrom text a.cursor
                protectedEnd := text.length
                valid := false } := by
  unfold parameterStep
  simp only [prefix_solidFrom (Spelling.solid_parameterOpen spelling)]
  rfl

variable {a b : Parameters}

/-- A round that goes on has a whole tag, and the end of its value. -/
theorem parameterStep_next
    (done : parameterStep parses true text spelling a = .next b) :
    ∃ tagEnd close, a.cursor < text.length ∧
      spelling.parameterOpen <+: text.drop (solidFrom text a.cursor) ∧
      findFrom closeTag text (solidFrom text a.cursor) = some tagEnd ∧
      findFrom spelling.parameterClose text tagEnd = some close ∧
      closeParameter parses text spelling { a with cursor := solidFrom text a.cursor }
        (slice text (solidFrom text a.cursor) (tagEnd + 1)) (tagEnd + 1) close = some b := by
  rw [parameterStep_eq] at done
  split at done
  · cases done
  · rename_i inside
    split at done
    · cases done
    · rename_i opened
      cases tag : findFrom closeTag text (solidFrom text a.cursor) with
      | none => simp [tag] at done
      | some tagEnd =>
        cases closed : findFrom spelling.parameterClose text tagEnd with
        | none => simp [tag, closed] at done
        | some close =>
          simp only [tag, closed] at done
          refine ⟨tagEnd, close, Nat.not_le.mp inside, not_not.mp opened, rfl, closed, ?_⟩
          split at done
          · rename_i eq
            cases done
            exact eq
          · cases done

/-- How the arguments stand after a round or more. -/
structure Onward (a b : Parameters) : Prop where
  arguments : a.arguments <+: b.arguments
  valid : b.valid = true → a.valid = true

theorem Onward.refl (a : Parameters) : Onward a a := ⟨List.prefix_rfl, id⟩

theorem Onward.trans {a b c : Parameters} (first : Onward a b) (second : Onward b c) : Onward a c :=
  ⟨first.arguments.trans second.arguments, first.valid ∘ second.valid⟩

theorem parameterStep_onward
    (done : parameterStep parses true text spelling a = .next b) :
    Onward a b ∧ b.unfinished = a.unfinished ∧ b.protectedEnd = b.cursor ∧ a.cursor < b.cursor := by
  obtain ⟨tagEnd, close, -, -, tag, closed, eq⟩ := parameterStep_next done
  obtain ⟨arguments, unfinished, progress, valid⟩ := closeParameter_spec eq
  refine ⟨⟨arguments, valid⟩, unfinished, progress, ?_⟩
  have low := le_solidFrom text a.cursor
  have := (findFrom_some.mp tag).1
  have := (findFrom_some.mp closed).1
  have := closeParameter_cursor eq
  omega

/-- The loop stops at the end of the text, behind the last parameter, or at a parameter that the
text has no end of. -/
theorem parameterStep_stop
    (done : parameterStep parses true text spelling a = .stop b) :
    (text.length ≤ a.cursor ∧ b = a) ∨
    (a.cursor < text.length ∧ ¬spelling.parameterOpen <+: text.drop (solidFrom text a.cursor) ∧
      b = { a with cursor := solidFrom text a.cursor }) ∨
    (spelling.parameterOpen <+: text.drop (solidFrom text a.cursor) ∧
      b.cursor = solidFrom text a.cursor ∧ b.arguments = a.arguments ∧ b.valid = false ∧
      b.protectedEnd = text.length ∧
      (b.unfinished = a.unfinished ∨ ∃ tagEnd,
        findFrom closeTag text (solidFrom text a.cursor) = some tagEnd ∧
        findFrom spelling.parameterClose text tagEnd = none ∧
        b.unfinished = partialArgument text spelling (solidFrom text a.cursor) tagEnd)) := by
  rw [parameterStep_eq] at done
  split at done
  · rename_i late
    cases done
    exact .inl ⟨late, rfl⟩
  · rename_i inside
    split at done
    · rename_i other
      cases done
      exact .inr (.inl ⟨Nat.not_le.mp inside, other, rfl⟩)
    · rename_i opened
      refine .inr (.inr ⟨not_not.mp opened, ?_⟩)
      cases tag : findFrom closeTag text (solidFrom text a.cursor) with
      | none =>
        simp only [tag] at done
        cases done
        exact ⟨rfl, rfl, rfl, rfl, .inl rfl⟩
      | some tagEnd =>
        cases closed : findFrom spelling.parameterClose text tagEnd with
        | none =>
          simp only [tag, closed] at done
          cases done
          exact ⟨rfl, rfl, rfl, rfl, .inr ⟨tagEnd, rfl, closed, rfl⟩⟩
        | some close =>
          simp only [tag, closed] at done
          split at done
          · cases done
          · cases done
            exact ⟨rfl, rfl, rfl, rfl, .inl rfl⟩

theorem scanParameters_onward (text : Bytes) (fuel : Nat) (a : Parameters) :
    Onward a (scanParameters parses true text spelling fuel a) := by
  induction fuel generalizing a with
  | zero => exact Onward.refl a
  | succ fuel ih =>
    unfold scanParameters
    cases step : parameterStep parses true text spelling a with
    | stop b =>
      rcases parameterStep_stop step with ⟨-, rfl⟩ | ⟨-, -, rfl⟩ | ⟨-, -, same, invalid, -⟩
      · exact Onward.refl _
      · exact ⟨List.prefix_rfl, id⟩
      · exact ⟨by rw [same], fun valid => by rw [invalid] at valid; cases valid⟩
    | next b => exact (parameterStep_onward step).1.trans (ih b)

/-- A round over a whole parameter is the same in the longer text. -/
theorem parameterStep_mono (h : s <+: t)
    (done : parameterStep parses true s spelling a = .next b) :
    parameterStep parses true t spelling a = .next b := by
  obtain ⟨tagEnd, close, inside, opened, tag, closed, eq⟩ := parameterStep_next done
  have solid : solidFrom t a.cursor = solidFrom s a.cursor := solidFrom_eq h (by
    have := findFrom_lt tag
    have := (findFrom_some.mp tag).1
    have : 0 < closeTag.length := by decide
    omega)
  have tagInside : tagEnd + 1 ≤ s.length := findFrom_lt tag
  have closeInside := findFrom_lt closed
  rw [parameterStep_eq, if_neg (by have := h.length_le; omega), solid,
    if_neg (not_not.mpr (opened.trans (drop_mono h _))), findFrom_mono h tag]
  simp only
  rw [findFrom_mono h closed]
  simp only
  rw [slice_eq h tagInside, closeParameter_mono h (by omega) eq]

/-! ## Where the shorter text stops -/

/-- An unfinished argument grows into the next argument, closed or still unfinished. -/
def Continued (u : ToolArgument) (count : Nat) (arguments : List ToolArgument)
    (unfinished : Option ToolArgument) : Prop :=
  ∃ v, (arguments[count]? = some v ∨ (arguments.length = count ∧ unfinished = some v)) ∧
    v.name = u.name ∧ v.isString = u.isString ∧ u.value <+: v.value

/-- An unfinished repeat of an argument's name is a beginning of that argument. -/
def Repeats (u : ToolArgument) (arguments : List ToolArgument) : Prop :=
  ∃ v ∈ arguments, v.name = u.name ∧ v.isString = u.isString ∧ u.value <+: v.value

/-- What the parameter loop of the longer text makes of the shorter one's result. -/
structure Outgrown (s t : Bytes) (spelling : Spelling) (a b : Parameters) : Prop where
  arguments : a.arguments <+: b.arguments
  unfinished : ∀ u ∈ a.unfinished, u.name ∉ a.arguments.map ToolArgument.name →
    Continued u a.arguments.length b.arguments b.unfinished
  repeated : ∀ u ∈ a.unfinished, u.name ∈ a.arguments.map ToolArgument.name → b.valid = true →
    Repeats u b.arguments
  complete : spelling.invokeClose <+: s.drop a.cursor → b = a
  goes_on : ¬spelling.invokeClose <+: s.drop a.cursor →
    firstInvoke s a.protectedEnd = none ∨ (b = a ∧ ¬spelling.invokeClose <+: t.drop a.cursor)

/-- Nothing is open between two parameters. -/
structure Between (a : Parameters) : Prop where
  unfinished : a.unfinished = none
  progress : a.protectedEnd = a.cursor

theorem outgrown_late (between : Between a) (late : s.length ≤ a.cursor)
    (onward : Onward a b) : Outgrown s t spelling a b where
  arguments := onward.arguments
  unfinished u hu := by simp [between.unfinished] at hu
  repeated u hu := by simp [between.unfinished] at hu
  complete closes := by
    rw [List.drop_eq_nil_of_le late, List.prefix_nil] at closes
    exact absurd closes (Spelling.tag_invokeClose spelling).ne_nil
  goes_on _ := .inl (firstInvoke_end (by rw [between.progress]; exact late))

/-- Space and the start of a tag of another kind hold no invocation. -/
theorem firstInvoke_within {pat : Bytes} (tag : Tag pat)
    (apart : ∀ y : Spelling, ¬y.invokeOpen <+: pat)
    (within : s.drop (solidFrom s cursor) <+: pat) : firstInvoke s cursor = none := by
  refine earliest_none.mpr fun y _ => findFrom_none.mpr fun i low high occurs => ?_
  have bracket := (Spelling.tag_invokeOpen y).head occurs
  rcases Nat.lt_trichotomy i (solidFrom s cursor) with before | rfl | behind
  · have space := solidFrom_space low before 60 bracket
    revert space
    decide
  · exact apart y (occurs.trans within)
  · obtain ⟨rest, rfl, single⟩ := tag
    obtain ⟨k, rfl⟩ : ∃ k, i = solidFrom s cursor + (k + 1) :=
      ⟨i - solidFrom s cursor - 1, by omega⟩
    have inside := (List.getElem?_eq_some_iff.mp bracket).1
    rw [← List.getElem?_drop, ← getElem?_eq within (by simp only [List.length_drop]; omega),
      List.getElem?_cons_succ] at bracket
    exact single (List.mem_of_getElem? bracket)

/-- What is no tag in the shorter text, but begins one in the longer text, is the start of it. -/
theorem within_of_new (h : s <+: t) {i : Nat} {pat : Bytes} (old : ¬pat <+: s.drop i)
    (new : pat <+: t.drop i) : s.drop i <+: pat := by
  cases List.prefix_or_prefix_of_prefix (drop_mono h i) new with
  | inl within => exact within
  | inr whole => exact absurd whole old

theorem outgrown_other (h : s <+: t) {a : Parameters} (between : Between a)
    (inside : a.cursor < s.length)
    (other : ¬spelling.parameterOpen <+: s.drop (solidFrom s a.cursor)) {fuel : Nat} :
    Outgrown s t spelling { a with cursor := solidFrom s a.cursor }
      (scanParameters parses true t spelling (fuel + 1) a) := by
  have onward : Onward a (scanParameters parses true t spelling (fuel + 1) a) :=
    scanParameters_onward t (fuel + 1) a
  have same (reach : solidFrom s a.cursor < s.length)
      (otherT : ¬spelling.parameterOpen <+: t.drop (solidFrom s a.cursor)) :
      scanParameters parses true t spelling (fuel + 1) a =
        { a with cursor := solidFrom s a.cursor } := by
    unfold scanParameters
    rw [parameterStep_eq, solidFrom_eq h reach, if_neg (by have := h.length_le; omega),
      if_pos otherT]
  refine ⟨onward.arguments, fun u hu => by simp [between.unfinished] at hu,
    fun u hu => by simp [between.unfinished] at hu, fun closes => ?_, fun opened => ?_⟩
  · have reach : solidFrom s a.cursor < s.length := by
      by_contra beyond
      rw [List.drop_eq_nil_of_le (Nat.not_lt.mp beyond), List.prefix_nil] at closes
      exact (Spelling.tag_invokeClose spelling).ne_nil closes
    exact same reach (not_both (Spelling.close_parameter spelling) (closes.trans (drop_mono h _)))
  · by_cases parameter : s.drop (solidFrom s a.cursor) <+: spelling.parameterOpen
    · refine .inl ?_
      rw [between.progress]
      exact firstInvoke_within (Spelling.tag_parameterOpen spelling)
        (fun y => (Spelling.open_parameter y spelling).1) parameter
    · by_cases closing : s.drop (solidFrom s a.cursor) <+: spelling.invokeClose
      · refine .inl ?_
        rw [between.progress]
        exact firstInvoke_within (Spelling.tag_invokeClose spelling)
          (fun y => (Spelling.open_close y spelling).1) closing
      · refine .inr ⟨same ?_ fun new => parameter (within_of_new h other new),
          fun new => closing (within_of_new h opened new)⟩
        by_contra beyond
        rw [List.drop_eq_nil_of_le (Nat.not_lt.mp beyond)] at parameter
        exact parameter List.nil_prefix

theorem given_string {tag name : Bytes} (ne : name ≠ [])
    (string : (attributeOf tag "string").getD (bytes "true") = bytes "true") :
    name ≠ [] ∧ (attributeOf tag "string" = none ∨ attributeOf tag "string" = some (bytes "true") ∨
      attributeOf tag "string" = some (bytes "false")) := by
  refine ⟨ne, ?_⟩
  cases flag : attributeOf tag "string" with
  | none => exact .inl rfl
  | some value =>
    rw [flag] at string
    exact .inr (.inl (congrArg some string))

/-- A string argument of a new name is taken as its bytes stand. -/
theorem closeParameter_string {state : Parameters}
    {name : Bytes} (named : attributeOf tag "name" = some name) (ne : name ≠ [])
    (string : (attributeOf tag "string").getD (bytes "true") = bytes "true")
    (new : name ∉ state.arguments.map ToolArgument.name) :
    closeParameter parses text spelling state tag valueStart close = some { state with
      arguments := state.arguments ++ [⟨name, slice text valueStart close, true⟩]
      cursor := close + spelling.parameterClose.length
      protectedEnd := close + spelling.parameterClose.length } := by
  have fresh : state.arguments.find? (fun b => b.name = name) = none := by
    rw [List.find?_eq_none]
    intro b hb same
    exact new (List.mem_map.mpr ⟨b, hb, of_decide_eq_true same⟩)
  unfold closeParameter
  simp only [named]
  rw [if_pos (given_string ne string), decide_eq_true string]
  simp [addArgument, fresh]

/-- A repeat is dropped where it is identical, and rejects the call otherwise. -/
theorem closeParameter_repeat
    {name : Bytes} (named : attributeOf tag "name" = some name) (ne : name ≠ [])
    (string : (attributeOf tag "string").getD (bytes "true") = bytes "true")
    (old : name ∈ state.arguments.map ToolArgument.name)
    (done : closeParameter parses text spelling state tag valueStart close = some next) :
    next.arguments = state.arguments ∧ (next.valid = true →
      ∃ v ∈ state.arguments, v.name = name ∧ v.isString = true ∧
        v.value = slice text valueStart close) := by
  unfold closeParameter at done
  simp only [named] at done
  rw [if_pos (given_string ne string), decide_eq_true string] at done
  simp only [if_true, Option.map_some, Option.some.injEq] at done
  subst done
  unfold addArgument
  obtain ⟨w, hw, same⟩ := List.mem_map.mp old
  cases found : state.arguments.find? (fun b => b.name = name) with
  | none => exact absurd (decide_eq_true same) (List.find?_eq_none.mp found w hw)
  | some previous =>
    simp only
    split
    · exact ⟨rfl, fun valid => by cases valid⟩
    · rename_i identical
      obtain ⟨value, isString⟩ := not_or.mp identical
      exact ⟨rfl, fun _ => ⟨previous, List.mem_of_find?_eq_some found,
        by simpa using List.find?_some found, not_not.mp isString, not_not.mp value⟩⟩

theorem partialArgument_some {c tagEnd : Nat} {u : ToolArgument}
    (some_u : partialArgument text spelling c tagEnd = some u) :
    attributeOf (slice text c (tagEnd + 1)) "name" = some u.name ∧ u.name ≠ [] ∧
      (attributeOf (slice text c (tagEnd + 1)) "string").getD (bytes "true") = bytes "true" ∧
      u = ⟨u.name, holdBack (text.drop (tagEnd + 1)) spelling.parameterClose, true⟩ := by
  unfold partialArgument at some_u
  simp only at some_u
  split at some_u
  · cases some_u
  · rename_i name named
    split at some_u
    · rename_i string
      obtain rfl := Option.some.inj some_u
      exact ⟨named, string.1, string.2, rfl⟩
    · cases some_u

/-- What was given out of an unfinished value lies before the closing tag that comes. -/
theorem holdBack_slice (h : s <+: t) {c tagEnd close : Nat}
    (tag : findFrom closeTag s c = some tagEnd)
    (open_ : findFrom spelling.parameterClose s tagEnd = none)
    (closed : findFrom spelling.parameterClose t tagEnd = some close) :
    holdBack (s.drop (tagEnd + 1)) spelling.parameterClose <+: slice t (tagEnd + 1) close := by
  obtain ⟨low, -, occurs, -⟩ := findFrom_some.mp closed
  have behind : tagEnd + 1 ≤ close := by
    by_contra before
    obtain rfl : close = tagEnd := by omega
    exact not_both (Spelling.parameterClose_closeTag spelling) occurs
      (findFrom_some.mp (findFrom_mono h tag)).2.2.1
  have held := holdBack_begins (s.drop (tagEnd + 1)) spelling.parameterClose
  refine prefix_of_le (held.trans (drop_mono h _)) (List.take_prefix _ _) ?_
  have short : (s.drop (tagEnd + 1)).drop (close - (tagEnd + 1)) <+: spelling.parameterClose := by
    rw [List.drop_drop, Nat.add_sub_cancel' behind]
    refine prefix_of_le (drop_mono h close) occurs ?_
    have := findFrom_beyond h open_ closed
    simp only [List.length_drop]
    omega
  have := holdBack_le short
  have := findFrom_lt closed
  simp only [slice, List.length_take, List.length_drop]
  omega

/-- An unfinished argument, taken up by the longer text. -/
theorem partialArgument_grows (h : s <+: t) {a : Parameters} {c tagEnd : Nat}
    (solid : solidFrom t a.cursor = c) (opened : spelling.parameterOpen <+: t.drop c)
    (inside : a.cursor < t.length) (tag : findFrom closeTag s c = some tagEnd)
    (open_ : findFrom spelling.parameterClose s tagEnd = none) {u : ToolArgument}
    (some_u : partialArgument s spelling c tagEnd = some u) (fuel : Nat) :
    let b := scanParameters parses true t spelling (fuel + 1) a
    (u.name ∉ a.arguments.map ToolArgument.name →
      Continued u a.arguments.length b.arguments b.unfinished) ∧
    (u.name ∈ a.arguments.map ToolArgument.name → b.valid = true → Repeats u b.arguments) := by
  have tagInside : tagEnd + 1 ≤ s.length := findFrom_lt tag
  obtain ⟨named, ne, string, eq⟩ := partialArgument_some some_u
  unfold scanParameters
  rw [parameterStep_eq, if_neg (by omega), solid, if_neg (not_not.mpr opened), findFrom_mono h tag]
  simp only
  cases closed : findFrom spelling.parameterClose t tagEnd with
  | none =>
    -- still unfinished, and longer
    refine ⟨fun _ => ⟨⟨u.name, holdBack (t.drop (tagEnd + 1)) spelling.parameterClose, true⟩,
      .inr ⟨rfl, ?_⟩, rfl, by rw [eq], ?_⟩, fun _ valid => by cases valid⟩
    · unfold partialArgument
      simp only [slice_eq h tagInside, named]
      exact if_pos ⟨ne, string⟩
    · rw [eq]
      exact holdBack_mono (drop_mono h _) _
  | some close =>
    simp only [slice_eq h tagInside]
    have value : u.value <+: slice t (tagEnd + 1) close := by
      rw [eq]
      exact holdBack_slice h tag open_ closed
    have isString : true = u.isString := by rw [eq]
    refine ⟨fun new => ?_, fun old valid => ?_⟩
    · have done : closeParameter parses t spelling { a with cursor := c } (slice s c (tagEnd + 1))
          (tagEnd + 1) close = some _ := closeParameter_string named ne string new
      rw [done]
      refine ⟨⟨u.name, slice t (tagEnd + 1) close, true⟩, .inl ?_, rfl, isString, value⟩
      generalize eqN : Parameters.mk (a.arguments ++ [⟨u.name, slice t (tagEnd + 1) close, true⟩])
        a.unfinished a.valid _ _ = next
      have arguments :
          next.arguments = a.arguments ++ [⟨u.name, slice t (tagEnd + 1) close, true⟩] :=
        congrArg Parameters.arguments eqN.symm
      rw [getElem?_eq (scanParameters_onward t fuel next).arguments (by simp [arguments]),
        arguments]
      simp
    · cases next : closeParameter parses t spelling { a with cursor := c }
          (slice s c (tagEnd + 1)) (tagEnd + 1) close with
      | none => simp [next] at valid
      | some b =>
        simp only [next] at valid ⊢
        obtain ⟨same, identical⟩ :
            b.arguments = { a with cursor := c : Parameters }.arguments ∧ (b.valid = true → _) :=
          closeParameter_repeat named ne string old next
        have onward : Onward b (scanParameters parses true t spelling fuel b) :=
          scanParameters_onward t fuel b
        obtain ⟨v, hv, name, flag, whole⟩ := identical (onward.valid valid)
        refine ⟨v, onward.arguments.subset (same ▸ hv), name, flag.trans isString, ?_⟩
        rw [whole]
        exact value

theorem outgrown_open (h : s <+: t) (between : Between a)
    (opened : spelling.parameterOpen <+: s.drop (solidFrom s a.cursor))
    (cursor : b.cursor = solidFrom s a.cursor) (arguments : b.arguments = a.arguments)
    (protectedEnd : b.protectedEnd = s.length)
    (unfinished : b.unfinished = a.unfinished ∨ ∃ tagEnd,
      findFrom closeTag s (solidFrom s a.cursor) = some tagEnd ∧
      findFrom spelling.parameterClose s tagEnd = none ∧
      b.unfinished = partialArgument s spelling (solidFrom s a.cursor) tagEnd) {fuel : Nat} :
    Outgrown s t spelling b (scanParameters parses true t spelling (fuel + 1) a) := by
  have low := le_solidFrom s a.cursor
  have reach : solidFrom s a.cursor < s.length := by
    by_contra beyond
    rw [List.drop_eq_nil_of_le (Nat.not_lt.mp beyond), List.prefix_nil] at opened
    exact (Spelling.tag_parameterOpen spelling).ne_nil opened
  have grows : ∀ u ∈ b.unfinished,
      let r := scanParameters parses true t spelling (fuel + 1) a
      (u.name ∉ a.arguments.map ToolArgument.name →
        Continued u a.arguments.length r.arguments r.unfinished) ∧
      (u.name ∈ a.arguments.map ToolArgument.name → r.valid = true → Repeats u r.arguments) := by
    intro u hu
    rcases unfinished with none | ⟨tagEnd, tag, open_, eq⟩
    · rw [none, between.unfinished] at hu
      cases hu
    · rw [eq] at hu
      exact partialArgument_grows h (solidFrom_eq h reach)
        (opened.trans (drop_mono h _)) (by have := h.length_le; omega) tag open_ hu fuel
  refine ⟨?_, fun u hu new => ?_, fun u hu old => ?_, fun closes => ?_, fun _ => .inl ?_⟩
  · rw [arguments]
    exact (scanParameters_onward t (fuel + 1) a).arguments
  · rw [arguments] at new ⊢
    exact (grows u hu).1 new
  · rw [arguments] at old
    exact (grows u hu).2 old
  · rw [cursor] at closes
    exact absurd opened (not_both (Spelling.close_parameter spelling) closes)
  · rw [protectedEnd]
    exact firstInvoke_end le_rfl

/-- Over a longer text, the parameter loop repeats every whole round, and takes up what the
shorter text stopped at. -/
theorem scanParameters_outgrown (h : s <+: t) {fuel fuel' : Nat} {a : Parameters}
    (between : Between a) (enough : s.length < a.cursor + fuel) (le : fuel ≤ fuel') :
    Outgrown s t spelling (scanParameters parses true s spelling fuel a)
      (scanParameters parses true t spelling fuel' a) := by
  induction fuel generalizing fuel' a with
  | zero =>
    have late : s.length ≤ a.cursor := by omega
    exact outgrown_late between late (scanParameters_onward t fuel' a)
  | succ fuel ih =>
    obtain ⟨fuel', rfl⟩ : ∃ k, fuel' = k + 1 := ⟨fuel' - 1, by omega⟩
    cases step : parameterStep parses true s spelling a with
    | next b =>
      obtain ⟨-, unfinished, progress, advance⟩ := parameterStep_onward step
      unfold scanParameters
      rw [step, parameterStep_mono h step]
      exact ih ⟨unfinished.trans between.unfinished, progress⟩ (by omega) (by omega)
    | stop b =>
      have ends : scanParameters parses true s spelling (fuel + 1) a = b := by
        unfold scanParameters
        rw [step]
      rw [ends]
      rcases parameterStep_stop step with ⟨late, rfl⟩ | ⟨inside, other, rfl⟩ |
        ⟨opened, cursor, arguments, -, protectedEnd, unfinished⟩
      · exact outgrown_late between late (scanParameters_onward t (fuel' + 1) b)
      · exact outgrown_other h between inside other
      · exact outgrown_open h between opened cursor arguments protectedEnd unfinished

end

end Gufo.ToolCall.DeepSeek
