import Gufo.Serve.ReasoningMarker

/-!
# Server and grammar agree

The server's parser finds a call in reasoning exactly where the grammar left reasoning for one.
-/

namespace Gufo.Serve

/-! ## A fence that is open behind the separator -/

variable {p : Nat}

theorem Held.append {spans : List Span} (held : Held spans p) (more : List Span) :
    Held (spans ++ more) p := by
  obtain ⟨span, mem, holds⟩ := held
  exact ⟨span, List.mem_append_left _ mem, holds⟩

namespace Quotes

/-- The fence that begins at `b` is still open, or a span holds the position behind. -/
def FenceOpen (q : Quotes) (b p p' : Nat) : Prop :=
  0 < q.fenceSize ∧ q.fenceBegin = b ∧ ¬Held q.spans p ∨ Held q.spans p'

section
variable {q : Quotes} {n b p p' : Nat}

theorem FenceOpen.flushRun (h : FenceOpen q b p p') : FenceOpen q.flushRun b p p' := by
  by_cases none : q.runSize = 0
  · unfold Quotes.flushRun
    rwa [if_pos none]
  cases h with
  | inl fence =>
    unfold Quotes.flushRun
    rw [if_neg none, if_pos fence.1]
    split_ifs
    · exact .inl fence
    · exact .inl fence
  | inr held =>
    refine .inr ?_
    unfold Quotes.flushRun
    split_ifs <;> first | exact held | exact held.append _

theorem FenceOpen.notice (h : FenceOpen q b p p') (cursor : Nat) (byte : Byte) :
    FenceOpen (q.notice cursor byte) b p p' := by
  unfold Quotes.notice
  split_ifs
  · exact h
  · exact h

theorem FenceOpen.closeFence (h : FenceOpen q b p p') (begun : b ≤ p') (after : After q p') :
    FenceOpen q.closeFence b p p' := by
  unfold Quotes.closeFence
  split_ifs with closes
  · refine .inr (held_push.mpr ?_)
    cases h with
    | inl fence => exact .inr ⟨fence.2.1 ▸ begun, after.close closes.2⟩
    | inr held => exact .inl held
  · exact h

theorem FenceOpen.read (h : FenceOpen q b p p') (begun : b ≤ p') (after : After q p')
    (byte : Byte) : FenceOpen (q.read n byte) b p p' := by
  have noticed := h.notice n byte
  have flushed := noticed.flushRun
  have after' := (after.notice n byte).flushRun
  unfold Quotes.read
  simp only
  split_ifs
  · unfold delimit
    simp only
    split_ifs <;> first | exact flushed | exact noticed
  · have closed := flushed.closeFence begun after'
    unfold endLine endInline
    split_ifs
    · exact closed
    · exact closed
  · exact flushed
  · exact flushed

theorem FenceOpen.feed (h : FenceOpen q b p p') (begun : b ≤ p') (after : After q p')
    (lt : p' < n) (bytes : List Byte) :
    FenceOpen (q.feed n bytes) b p p' := by
  induction bytes generalizing q n with
  | nil => exact h
  | cons byte rest ih =>
    exact ih (h.read begun after byte) (read_covers after lt byte).1 (Nat.lt_succ_of_lt lt)

/-- In the fence both positions are quoted alike. -/
theorem FenceOpen.alike (h : FenceOpen q b p p') (within_ : Within q n) (begun : b ≤ p)
    (le : p ≤ p') (after : After q p') (clear : q.quotedAt p' = false) :
    q.unclosedAt p = true := by
  have not_held : ¬Held q.spans p' := by
    intro held
    unfold quotedAt at clear
    rw [(within_iff within_.spans p').mpr held, Bool.true_or] at clear
    cases clear
  obtain ⟨fenced, rfl, free⟩ := h.resolve_right not_held
  have open_ : q.quotedAt p = false := by
    unfold quotedAt at clear ⊢
    rw [Bool.or_eq_false_iff, if_pos fenced] at clear ⊢
    refine ⟨Bool.eq_false_iff.mpr fun held => free ((within_iff within_.spans p).mp held), ?_⟩
    have provisional := clear.2
    simp only [Bool.or_eq_false_iff, Bool.and_eq_false_iff, decide_eq_false_iff_not,
      beq_eq_false_iff_ne] at provisional ⊢
    obtain ⟨closing, ending⟩ := provisional
    constructor
    · rcases closing with (open_ | start) | stop
      · exact .inl (.inl open_)
      · exact absurd (Nat.le_trans begun le) start
      · by_cases closes : q.closingFence = true
        · exact absurd (after.close closes) stop
        · exact .inl (.inl (Bool.eq_false_iff.mpr closes))
    · rcases ending with (early | start) | stop
      · exact .inl (.inl early)
      · exact absurd (Nat.le_trans begun le) start
      · by_cases some : q.runSize ≠ 0
        · exact absurd (after.run some) stop
        · exact .inl (.inl (.inl (.inl (by omega))))
  unfold unclosedAt
  rw [open_, Bool.not_false, Bool.true_and, Bool.or_eq_true, decide_eq_true_eq]
  exact .inl (.inl ⟨fenced, begun⟩)

theorem read_newline (q : Quotes) (cursor : Nat) :
    q.read cursor newline = q.flushRun.endLine cursor := by
  have same : q.notice cursor newline = q := if_neg fun h => h.2.2 rfl
  unfold read
  rw [same]
  simp only
  rw [if_neg (by decide), if_pos trivial]

theorem flushRun_idle (idle : q.runSize = 0) : q.flushRun = q := if_pos idle

theorem endInline_same (q : Quotes) (cursor : Nat) :
    (q.endInline cursor).fenceSize = q.fenceSize ∧ (q.endInline cursor).fenceBegin = q.fenceBegin ∧
      (q.endInline cursor).spans = q.spans := by
  unfold endInline
  split_ifs <;> exact ⟨rfl, rfl, rfl⟩

/-- A fence that is open behind the end of a line was open before. -/
theorem endLine_fence (fenced : 0 < (q.endLine n).fenceSize) :
    0 < q.fenceSize ∧ (q.endLine n).fenceBegin = q.fenceBegin ∧ (q.endLine n).spans = q.spans := by
  obtain ⟨size, begins, spans⟩ := q.closeFence.endInline_same n
  have fenced' : 0 < q.closeFence.fenceSize := size ▸ fenced
  have same : q.closeFence = q := by
    by_contra differs
    unfold closeFence at fenced' differs
    split_ifs at fenced' differs
    · exact Nat.lt_irrefl 0 fenced'
    · exact differs rfl
  exact ⟨same ▸ fenced', begins.trans (congrArg fenceBegin same),
    spans.trans (congrArg Quotes.spans same)⟩

/-- Behind two line ends only a fence that began before them is open. -/
theorem two_lines (h : Within q n) :
    ((q.read n newline).read (n + 1) newline).inlineSize = 0 ∧
      ((q.read n newline).read (n + 1) newline).runSize = 0 ∧
      (0 < ((q.read n newline).read (n + 1) newline).fenceSize →
        ((q.read n newline).read (n + 1) newline).fenceBegin ≤ n ∧
        ¬Held ((q.read n newline).read (n + 1) newline).spans n) := by
  have first := h.flushRun
  have flushed := flushRun_runSize q
  have idle : (q.flushRun.endLine n).runSize = 0 := by rw [endLine_runSize, flushed]
  rw [read_newline q n, read_newline _ (n + 1), flushRun_idle idle]
  refine ⟨?_, by rw [endLine_runSize, idle], fun fenced => ?_⟩
  · have open_ : (q.flushRun.endLine n).closeFence = q.flushRun.endLine n :=
      if_neg fun closes => Bool.false_ne_true closes.2
    have ends : ((q.flushRun.endLine n).endInline (n + 1)).inlineSize = 0 := by
      unfold endInline
      split_ifs with inline
      · rfl
      · by_contra some
        exact inline ⟨Nat.pos_of_ne_zero some, rfl⟩
    rw [← open_] at ends
    exact ends
  · obtain ⟨fenced', begins, spans⟩ := endLine_fence fenced
    obtain ⟨fenced'', begins', spans'⟩ := endLine_fence fenced'
    have edge_ : q.flushRun.edge n = n := if_pos flushed
    have begun := first.fence fenced''
    rw [edge_] at begun
    have apart : ¬0 < q.flushRun.inlineSize := fun open_ => by
      have := (first.inline open_).2
      omega
    rw [begins, begins', spans, spans']
    refine ⟨begun, first.spans.not_held ?_⟩
    unfold bound
    rwa [if_neg apart, if_pos fenced'']

theorem Within.bound_le (h : Within q n) : q.bound n ≤ n := by
  have low : q.edge n ≤ n := by
    unfold edge
    split_ifs with none
    · exact Nat.le_refl n
    · have := (h.run none).2
      omega
  unfold bound
  split_ifs with open_ fenced
  · exact Nat.le_trans (h.inline open_).1 low
  · exact Nat.le_trans (h.fence fenced) low
  · exact low

/-! ## Runs and quotes, byte by byte -/

theorem notice_run (q : Quotes) (cursor : Nat) (byte : Byte) :
    (q.notice cursor byte).runSize = q.runSize ∧ (q.notice cursor byte).runChar = q.runChar := by
  unfold notice
  split_ifs <;> exact ⟨rfl, rfl⟩

/-- The pending run stands at the end of what was read. -/
theorem read_run {seen : List Byte} {byte : Byte}
    (ends : List.replicate q.runSize q.runChar <:+ seen) :
    List.replicate (q.read n byte).runSize (q.read n byte).runChar <:+ seen ++ [byte] := by
  obtain ⟨size, char⟩ := notice_run q n byte
  rw [← size, ← char] at ends
  unfold read
  generalize q.notice n byte = f at ends
  by_cases mark : byte = backtick ∨ byte = tilde
  · rw [if_pos mark]
    unfold delimit
    by_cases differs : f.runSize ≠ 0 ∧ f.runChar ≠ byte
    · simp only [if_pos differs, flushRun_runSize, if_true]
      exact List.suffix_append seen [byte]
    · simp only [if_neg differs]
      by_cases none : f.runSize = 0
      · simp only [none, if_true]
        exact List.suffix_append seen [byte]
      · have same : f.runChar = byte := by
          by_contra other
          exact differs ⟨none, other⟩
        simp only [if_neg none]
        rw [same] at ends ⊢
        obtain ⟨front, whole⟩ := ends
        exact ⟨front, by rw [List.replicate_succ', ← List.append_assoc, whole]⟩
  · rw [if_neg mark]
    have none : (if byte = newline then f.flushRun.endLine n
        else if blank byte = false then { f.flushRun with closingFence := false }
        else f.flushRun).runSize = 0 := by
      split_ifs
      · rw [endLine_runSize, flushRun_runSize]
      · exact flushRun_runSize f
      · exact flushRun_runSize f
    rw [none]
    exact List.nil_suffix

/-- No quote is open. -/
structure Clear (q : Quotes) : Prop where
  inline : q.inlineSize = 0
  fence : q.fenceSize = 0

theorem clear_iff : Clear q ↔ ¬q.quoting.quoted := by
  unfold Quoting.quoted
  rw [not_or, not_not, not_not]
  exact ⟨fun h => ⟨h.inline, h.fence⟩, fun h => ⟨h.1, h.2⟩⟩

theorem plain_runSize {byte : Byte} (plain : byte ≠ backtick ∧ byte ≠ tilde) :
    (q.read n byte).runSize = 0 := by
  unfold read
  rw [if_neg (not_or.mpr plain)]
  split_ifs
  · rw [endLine_runSize, flushRun_runSize]
  · exact flushRun_runSize _
  · exact flushRun_runSize _

/-- Only delimiters open a quote. -/
theorem Clear.read {byte : Byte} (h : Clear q) (idle : q.runSize = 0)
    (plain : byte ≠ backtick ∧ byte ≠ tilde) : Clear (q.read n byte) := by
  have noticed : Clear (q.notice n byte) ∧ (q.notice n byte).runSize = 0 := by
    unfold notice
    split_ifs <;> exact ⟨⟨h.inline, h.fence⟩, idle⟩
  obtain ⟨clear, idle'⟩ := noticed
  unfold Quotes.read
  simp only
  rw [if_neg (not_or.mpr plain), flushRun_idle idle']
  generalize q.notice n byte = f at clear
  have closed : f.closeFence = f := if_neg fun closes => by
    have := clear.fence
    omega
  have ended : f.endInline n = f := if_neg fun ends => by
    have := clear.inline
    omega
  split_ifs
  · unfold endLine
    rw [closed, ended]
    exact ⟨clear.inline, clear.fence⟩
  · exact ⟨clear.inline, clear.fence⟩
  · exact clear

/-- Without a run, a plain byte leaves the quotes as they are. -/
theorem read_idle {byte : Byte} (idle : q.runSize = 0) (plain : byte ≠ backtick ∧ byte ≠ tilde)
    (within_ : byte ≠ newline) :
    (q.read n byte).inlineSize = q.inlineSize ∧ (q.read n byte).fenceSize = q.fenceSize ∧
      (q.read n byte).fenceBegin = q.fenceBegin ∧ (q.read n byte).spans = q.spans := by
  have noticed : (q.notice n byte).runSize = 0 := (notice_run q n byte).1.trans idle
  have same : (q.notice n byte).inlineSize = q.inlineSize ∧
      (q.notice n byte).fenceSize = q.fenceSize ∧ (q.notice n byte).fenceBegin = q.fenceBegin ∧
      (q.notice n byte).spans = q.spans := by
    unfold notice
    split_ifs <;> exact ⟨rfl, rfl, rfl, rfl⟩
  unfold read
  rw [if_neg (not_or.mpr plain), if_neg within_, flushRun_idle noticed]
  split_ifs
  · exact same
  · exact same

end

end Quotes

/-! ## The quotes of a text -/

/-- No run of delimiters is as long as 32 bits count. -/
def Counted (text : List Byte) : Prop :=
  ∀ c, c = backtick ∨ c = tilde → ¬List.replicate (2 ^ 32) c <:+: text

variable {text : List Byte}

namespace QuoteTracker

variable {format : NativeFormat}

section
variable (t : QuoteTracker)

/-- The quotes behind the first bytes of a text. -/
def behind (seen : List Byte) : Quotes := t.cleared.feed 0 seen

theorem behind_concat (seen : List Byte) (byte : Byte) :
    t.behind (seen ++ [byte]) = (t.behind seen).read seen.length byte := by
  unfold behind
  rw [feed_append, Nat.zero_add]
  rfl

theorem behind_within (seen : List Byte) : (t.behind seen).Within seen.length := by
  have := (t.cleared_within 0).feed seen
  rwa [Nat.zero_add] at this

theorem behind_marked (seen : List Byte) : (t.behind seen).Marked seen.length ∧
    List.replicate (t.behind seen).runSize (t.behind seen).runChar <:+ seen := by
  induction seen using List.reverseRecOn with
  | nil => exact ⟨⟨fun _ mem => (by cases mem), fun some => absurd rfl some⟩, List.nil_suffix⟩
  | append_singleton seen byte ih =>
    rw [behind_concat, List.length_append, List.length_singleton]
    exact ⟨ih.1.read byte, Quotes.read_run ih.2⟩

theorem runSize_le {seen text : List Byte} (counted : Counted text) (front : seen <+: text) :
    (t.behind seen).runSize ≤ kMaximumRun := by
  obtain ⟨marked, ends⟩ := t.behind_marked seen
  by_contra long
  rw [kMaximumRun] at long
  refine counted _ (marked.char (by omega)) ?_
  have part : List.replicate (2 ^ 32) (t.behind seen).runChar <:+:
      List.replicate (t.behind seen).runSize (t.behind seen).runChar := by
    refine ⟨List.replicate ((t.behind seen).runSize - 2 ^ 32) (t.behind seen).runChar, [], ?_⟩
    rw [List.append_nil, List.replicate_append_replicate]
    congr 1
    omega
  exact part.trans (ends.isInfix.trans front.isInfix)

/-- The tracker and the lexeme know the same quotes. -/
theorem behind_quoting {seen text : List Byte} (counted : Counted text) (front : seen <+: text) :
    (t.behind seen).quoting = quotingOf seen := by
  induction seen using List.reverseRecOn with
  | nil => rfl
  | append_singleton seen byte ih =>
    have earlier : seen <+: text := (List.prefix_append seen [byte]).trans front
    have small := t.runSize_le counted front
    rw [behind_concat] at small ⊢
    rw [quotingOf_concat, ← ih earlier]
    exact Quotes.quoting_read (t.behind_within seen) (t.behind_marked seen).1 small

/-- A marker in the text is a call when no quote is open at its first byte. -/
theorem calls_iff {text front marker : List Byte} {first : Byte} {rest : List Byte}
    (counted : Counted text) (begins : marker = first :: rest)
    (plain : ∀ byte ∈ marker, byte ≠ backtick ∧ byte ≠ tilde)
    (inside : front ++ marker <+: text) :
    Calls marker (front ++ marker) ↔ (t.behind (front ++ [first])).Clear := by
  have quoting : ∀ seen, seen <+: front ++ marker →
      ((t.behind seen).Clear ↔ ¬(quotingOf seen).quoted) := fun seen le => by
    rw [Quotes.clear_iff, t.behind_quoting counted (le.trans inside)]
  have one : front ++ [first] <+: front ++ marker := by
    rw [begins]
    exact ⟨rest, by rw [List.append_assoc]; rfl⟩
  constructor
  · rintro ⟨front', same, open_⟩
    rw [List.append_cancel_right_eq] at same
    subst same
    exact (quoting _ one).mpr (open_ [first] rest begins (List.cons_ne_nil _ _))
  · intro clear
    have on : ∀ more, first :: more <+: marker →
        (t.behind (front ++ first :: more)).Clear ∧
          (t.behind (front ++ first :: more)).runSize = 0 := by
      intro more
      induction more using List.reverseRecOn with
      | nil =>
        intro _
        refine ⟨clear, ?_⟩
        rw [behind_concat]
        exact Quotes.plain_runSize (plain first (begins ▸ List.mem_cons_self ..))
      | append_singleton more byte ih =>
        intro le
        have cut : front ++ first :: (more ++ [byte]) = (front ++ first :: more) ++ [byte] := by
          rw [← List.cons_append, List.append_assoc]
        obtain ⟨clear', idle⟩ := ih
          ((List.prefix_append (first :: more) [byte]).trans le)
        have harmless := plain byte (le.subset
          (List.mem_cons_of_mem _ (List.mem_append_right _ (List.mem_singleton_self _))))
        rw [cut, behind_concat]
        exact ⟨clear'.read idle harmless, Quotes.plain_runSize harmless⟩
    refine ⟨front, rfl, fun some rest' whole nonempty => ?_⟩
    cases some with
    | nil => exact absurd rfl nonempty
    | cons byte more =>
      have same : byte = first := by
        rw [begins, List.cons_append, List.cons.injEq] at whole
        exact whole.1.symm
      subst same
      have le : byte :: more <+: marker := ⟨rest', whole.symm⟩
      refine (quoting _ ?_).mp (on more le).1
      obtain ⟨left, same⟩ := le
      exact ⟨left, by rw [List.append_assoc, same]⟩

/-! ## The first call -/

/-- A marker begins here that no quote covers. -/
def Free (format : NativeFormat) (text : List Byte) (p : Nat) : Prop :=
  Marks format text p ∧ ¬(t.behind text).Covers p

theorem native_plain (format : NativeFormat) : ∀ byte ∈ nativeCallOpen format,
    byte ≠ backtick ∧ byte ≠ tilde ∧ byte ≠ 47 := by
  have all : (nativeCallOpen format).all
      (fun byte => decide (byte ≠ backtick ∧ byte ≠ tilde ∧ byte ≠ 47)) = true := by
    cases format <;> rfl
  exact fun byte mem => of_decide_eq_true (List.all_eq_true.mp all byte mem)

theorem native_begins (format : NativeFormat) :
    ∃ rest, nativeCallOpen format = opening :: rest ∧ 8 ≤ (nativeCallOpen format).length := by
  cases format <;> exact ⟨_, rfl, by decide⟩

theorem marks_inside
    (marks : Marks format text p) : p + (nativeCallOpen format).length ≤ text.length := by
  have inside := marks.length_le
  obtain ⟨_, _, long⟩ := native_begins format
  rw [List.length_drop] at inside
  omega

theorem marks_take
    (marks : Marks format text p) :
    text.take (p + (nativeCallOpen format).length) = text.take p ++ nativeCallOpen format := by
  obtain ⟨rest, same⟩ := marks
  rw [List.take_add, ← same, List.take_left]

/-- A position is covered when a quote is open at its byte. -/
theorem covers_iff
    (marks : Marks format text p) :
    (t.behind text).Covers p ↔ ¬(t.behind (text.take p ++ [opening])).Clear := by
  obtain ⟨lt, here⟩ := List.getElem?_eq_some_iff.mp marks.opens
  have length : (text.take p).length = p := by
    rw [List.length_take]
    omega
  have cut : text = (text.take p ++ [opening]) ++ text.drop (p + 1) := by
    rw [← here, ← List.take_succ_eq_append_getElem lt, List.take_append_drop]
  have within_ := t.behind_within (text.take p)
  rw [length] at within_
  obtain ⟨after, covers⟩ := @Quotes.read_here (t.behind (text.take p)) p opening within_
    ⟨by decide, by decide, by decide⟩ (by decide)
  have last := t.behind_concat (text.take p) opening
  rw [length] at last
  have rest : t.behind text =
      (t.behind (text.take p ++ [opening])).feed (p + 1) (text.drop (p + 1)) := by
    conv_lhs => rw [cut]
    unfold behind
    rw [feed_append, Nat.zero_add, List.length_append, length, List.length_singleton]
  rw [rest, last, (Quotes.feed_covers after (Nat.lt_succ_self p) _).2, covers]
  constructor
  · rintro (inline | fence) clear
    · exact absurd clear.inline (Nat.ne_of_gt inline)
    · exact absurd clear.fence (Nat.ne_of_gt fence)
  · intro open_
    by_contra none
    exact open_ ⟨by omega, by omega⟩

/-- The lexeme's call and the parser's are the same. -/
theorem free_iff (counted : Counted text) (p : Nat)
    (inside : p + (nativeCallOpen format).length ≤ text.length) :
    Calls (nativeCallOpen format) (text.take (p + (nativeCallOpen format).length)) ↔
      t.Free format text p := by
  obtain ⟨rest, begins, -⟩ := native_begins format
  have agree : ∀ marks : Marks format text p,
      (Calls (nativeCallOpen format) (text.take (p + (nativeCallOpen format).length)) ↔
        t.Free format text p) := fun marks => by
    have whole := marks_take marks
    rw [whole, t.calls_iff counted begins
      (fun byte mem => ⟨(native_plain format byte mem).1, (native_plain format byte mem).2.1⟩)
      (whole ▸ List.take_prefix _ _)]
    unfold Free
    rw [t.covers_iff marks, not_not]
    exact (and_iff_right marks).symm
  constructor
  · intro calls
    refine (agree ?_).mp calls
    obtain ⟨front, ends, -⟩ := calls
    rw [List.take_add] at ends
    obtain ⟨-, last⟩ := List.append_inj' ends (by
      rw [List.length_take, List.length_drop]
      omega)
    have whole := List.take_append_drop (nativeCallOpen format).length (text.drop p)
    rw [last] at whole
    exact ⟨_, whole⟩
  · intro free
    exact (agree free.1).mpr free

end

/-! ## The end of reasoning -/

/-- Up to the end of a marker, `</think>` is only spelled before it. -/
theorem explicit_before
    (marks : Marks format text p) :
    (∀ k ≤ p + (nativeCallOpen format).length, ¬explicitEnd <:+ text.take k) ↔
      ∀ i < p, ¬explicitEnd <+: text.drop i := by
  obtain ⟨_, _, long⟩ := native_begins format
  constructor
  · intro none i lt begins
    refine none (i + 8) (by omega) ⟨text.take i, ?_⟩
    obtain ⟨rest, same⟩ := begins
    rw [List.take_add, ← same, show 8 = explicitEnd.length from rfl, List.take_left]
  · rintro none k le ⟨front, ends⟩
    have size := congrArg List.length ends
    rw [List.length_append, List.length_take, show explicitEnd.length = 8 from rfl] at size
    have start : text = front ++ (explicitEnd ++ text.drop k) := by
      rw [← List.append_assoc, ends, List.take_append_drop]
    by_cases early : front.length < p
    · refine none front.length early ⟨text.drop k, ?_⟩
      conv_rhs => rw [start]
      rw [List.drop_left]
    · -- a slash stands in no marker
      have slash : text[front.length + 1]? = some 47 := by
        rw [start, List.getElem?_append_right (by omega), Nat.add_sub_cancel_left]
        rfl
      obtain ⟨rest, same⟩ := marks
      have there : (nativeCallOpen format)[front.length + 1 - p]? = some 47 := by
        have := congrArg (·[front.length + 1 - p]?) same
        simp only [List.getElem?_drop] at this
        rw [Nat.add_sub_cancel' (by omega), slash,
          List.getElem?_append_left (by omega)] at this
        exact this
      exact absurd rfl (native_plain format 47 (List.mem_of_getElem? there)).2.2

/-- The separator before a marker is in no other quote than the marker. -/
theorem parted (t : QuoteTracker) {next : Nat}
    (marks : Marks format text (next + 2)) (line : text[next]? = some newline)
    (line' : text[next + 1]? = some newline)
    (clear : (t.behind text).quotedAt (next + 2) = false)
    (closed : (t.behind text).unclosedAt next = false) :
    ¬(t.behind text).Covers (next + 2) := by
  intro covers
  have open_ := (t.covers_iff marks).mp covers
  obtain ⟨lt, first⟩ := List.getElem?_eq_some_iff.mp line
  obtain ⟨lt', second⟩ := List.getElem?_eq_some_iff.mp line'
  obtain ⟨lt'', third⟩ := List.getElem?_eq_some_iff.mp marks.opens
  have length : (text.take next).length = next := by
    rw [List.length_take]
    omega
  have lines : text.take (next + 2) = (text.take next ++ [newline]) ++ [newline] := by
    rw [List.take_succ_eq_append_getElem lt', List.take_succ_eq_append_getElem lt, first, second]
  have within0 := t.behind_within (text.take next)
  rw [length] at within0
  have two := t.behind_concat (text.take next ++ [newline]) newline
  rw [← lines, t.behind_concat (text.take next) newline, List.length_append, length,
    List.length_singleton] at two
  obtain ⟨inline, idle, fence⟩ := Quotes.two_lines within0
  rw [← two] at inline idle fence
  have three := t.behind_concat (text.take (next + 2)) opening
  rw [show (text.take (next + 2)).length = next + 2 by rw [List.length_take]; omega] at three
  obtain ⟨inline', size, begins, spans⟩ := @Quotes.read_idle (t.behind (text.take (next + 2)))
    (next + 2) opening idle ⟨by decide, by decide⟩ (by decide)
  rw [← three] at inline' size begins spans
  have fenced : 0 < (t.behind (text.take (next + 2))).fenceSize := by
    by_contra none
    exact open_ ⟨by omega, by omega⟩
  obtain ⟨begun, free⟩ := fence fenced
  have fenceOpen : (t.behind (text.take (next + 2) ++ [opening])).FenceOpen
      (t.behind (text.take (next + 2))).fenceBegin next (next + 2) :=
    .inl ⟨size ▸ fenced, begins, spans ▸ free⟩
  have within2 := t.behind_within (text.take (next + 2))
  rw [show (text.take (next + 2)).length = next + 2 by rw [List.length_take]; omega] at within2
  have after := (@Quotes.read_here (t.behind (text.take (next + 2))) (next + 2) opening within2
    ⟨by decide, by decide, by decide⟩ (by decide)).1
  rw [← three] at after
  have rest : t.behind text = (t.behind (text.take (next + 2) ++ [opening])).feed (next + 2 + 1)
      (text.drop (next + 2 + 1)) := by
    have cut : text = (text.take (next + 2) ++ [opening]) ++ text.drop (next + 2 + 1) := by
      rw [← third, ← List.take_succ_eq_append_getElem lt'', List.take_append_drop]
    conv_lhs => rw [cut]
    unfold behind
    rw [feed_append, Nat.zero_add, List.length_append, List.length_singleton,
      show (text.take (next + 2)).length = next + 2 by rw [List.length_take]; omega]
  have last := fenceOpen.feed (by omega) after (Nat.lt_succ_self _) (text.drop (next + 2 + 1))
  have after' := (Quotes.feed_covers after (Nat.lt_succ_self _) (text.drop (next + 2 + 1))).1
  rw [← rest] at last after'
  have unclosed := last.alike (t.behind_within text) begun (by omega) after' clear
  rw [closed] at unclosed
  cases unclosed

end QuoteTracker

/-! ## Agreement -/

open QuoteTracker

/-- The place of the `<` of a marker that was found: behind the separator, if it has one. -/
def tagOf (text : List Byte) (found : Nat) : Nat :=
  if text[found]? = some newline then found + 2 else found

/-- The parser's search of a reasoning text for a call of the format. -/
def foundAt (format : NativeFormat) (t : QuoteTracker) (text : List Byte) : Option Nat :=
  reasoningToolMarker text (reasoningToolMarkers format) (t.reset text 0).toQuotes 0

theorem foundAt_iff (format : NativeFormat) (t : QuoteTracker) (text : List Byte) (p : Nat) :
    (∃ found ∈ foundAt format t text, tagOf text found = p) ↔
      t.Free format text p ∧ ∀ p' < p, ¬t.Free format text p' := by
  have same : (t.reset text 0).toQuotes = t.behind text := by
    rw [QuoteTracker.reset_eq, Nat.zero_min, List.drop_zero]
    rfl
  obtain ⟨nothing, something⟩ := @skipUnclosed_spec text (t.behind text) 0 format text.length
    (text.length + 1) (t.behind_within text) (fun next => t.parted) (by omega)
    (fun next early => absurd early (Nat.not_lt_zero next))
  unfold foundAt reasoningToolMarker
  rw [same]
  constructor
  · rintro ⟨found, search, rfl⟩
    obtain ⟨next, place, marks, free, first⟩ := something found search
    have here : tagOf text found = next := by
      rcases place with rfl | ⟨rfl, line⟩
      · refine if_neg fun line => ?_
        rw [marks.opens] at line
        cases line
      · exact if_pos line
    rw [here]
    exact ⟨⟨marks, free⟩, fun p' lt free' => free'.2 (first p' lt free'.1)⟩
  · rintro ⟨free, first⟩
    cases search : skipUnclosed text (reasoningToolMarkers format) (t.behind text)
        (text.length + 1) (earliestMarker text (reasoningToolMarkers format) (t.behind text) 0) with
    | none => exact absurd (nothing search p free.1) free.2
    | some found =>
      obtain ⟨next, place, marks, free', first'⟩ := something found search
      have here : tagOf text found = next := by
        rcases place with rfl | ⟨rfl, line⟩
        · refine if_neg fun line => ?_
          rw [marks.opens] at line
          cases line
        · exact if_pos line
      refine ⟨found, rfl, here.trans ?_⟩
      rcases Nat.lt_trichotomy next p with lt | eq | gt
      · exact absurd ⟨marks, free'⟩ (first next lt)
      · exact eq
      · exact absurd (first' p gt free.1) free.2

/-- However a text is cut, the tracker answers as for the whole, with its spans one behind the
other; and the parser finds a call in it exactly where the grammar leaves reasoning for one, when
the end of reasoning was not spelled before. -/
theorem quotes_agree (t : QuoteTracker) (pieces : List (List Byte)) :
    (∀ position,
      (pieces.foldl QuoteTracker.append (t.reset [] 0)).quotedAt position =
        (t.reset pieces.flatten 0).quotedAt position ∧
      (pieces.foldl QuoteTracker.append (t.reset [] 0)).unclosedAt position =
        (t.reset pieces.flatten 0).unclosedAt position) ∧
    Ordered (t.reset pieces.flatten 0).spans pieces.flatten.length ∧
    Ordered (t.reset pieces.flatten 0).unfinishedInline pieces.flatten.length ∧
    ∀ format p, Counted pieces.flatten →
      ((∃ found ∈ foundAt format t pieces.flatten, tagOf pieces.flatten found = p) ∧
        (∀ i < p, ¬explicitEnd <+: pieces.flatten.drop i) ↔
      (toolLexeme format).CompletesAt pieces.flatten (p + (nativeCallOpen format).length)) := by
  rw [QuoteTracker.append_pieces]
  generalize pieces.flatten = text
  have within_ := t.reset_within text 0
  refine ⟨fun position => ⟨rfl, rfl⟩, within_.spans.mono within_.bound_le,
    within_.unfinished.mono within_.bound_le, fun format p counted => ?_⟩
  obtain ⟨_, begins, long⟩ := native_begins format
  rw [ReasoningLexeme.completesAt_iff (l := toolLexeme format)
    (List.ne_nil_of_length_pos (by show 0 < (nativeCallOpen format).length; omega)) rfl]
  constructor
  · rintro ⟨search, plain⟩
    obtain ⟨free, first⟩ := (foundAt_iff format t text p).mp search
    have inside := marks_inside free.1
    refine ⟨inside, (t.free_iff counted p inside).mpr free, (explicit_before free.1).mpr plain,
      fun k lt calls => ?_⟩
    obtain ⟨p', rfl⟩ : ∃ p', k = p' + (nativeCallOpen format).length := by
      obtain ⟨front, ends, -⟩ := calls
      have size := congrArg List.length ends
      rw [List.length_take, List.length_append, Nat.min_eq_left (by omega)] at size
      exact ⟨front.length, size⟩
    exact first p' (by omega) ((t.free_iff counted p' (by omega)).mp calls)
  · rintro ⟨inside, calls, plain, first⟩
    have free := (t.free_iff counted p inside).mp calls
    refine ⟨(foundAt_iff format t text p).mpr ⟨free, fun p' lt free' => ?_⟩,
      (explicit_before free.1).mp plain⟩
    exact first _ (by omega) ((t.free_iff counted p' (marks_inside free'.1)).mpr free')

theorem counted_of_short (short : text.length < 2 ^ 32) : Counted text := by
  intro c _ long
  have := long.length_le
  rw [List.length_replicate] at this
  omega

/-- A call behind plain prose, cut inside of its marker. -/
theorem quotes_agree_call : (toolLexeme .kQwen).CompletesAt
    ([[120, 32, 60, 116, 111], (nativeCallOpen .kQwen).drop 3].flatten) 24 :=
  ((quotes_agree .empty [[120, 32, 60, 116, 111], (nativeCallOpen .kQwen).drop 3]).2.2.2 .kQwen 2
    (counted_of_short (by decide))).mp ⟨⟨2, by decide +kernel, by decide⟩, by decide⟩

/-! ## Runs that the lexeme does not count -/

/-- A quote that `n` backticks open and one more does not close. -/
def longRuns (n : Nat) : List Byte :=
  (120 :: List.replicate n backtick) ++ 120 :: List.replicate (n + 1) backtick

theorem mem_longRuns {n : Nat} {byte : Byte} (mem : byte ∈ longRuns n) :
    byte = 120 ∨ byte = backtick := by
  unfold longRuns at mem
  simp only [List.mem_append, List.mem_cons, List.mem_replicate] at mem
  rcases mem with (x | ⟨-, tick⟩) | x | ⟨-, tick⟩
  · exact .inl x
  · exact .inr tick
  · exact .inl x
  · exact .inr tick

section
variable {q : Quotes} {n k limit : Nat}

theorem Quotes.read_tick (noticed : q.firstNonblank ≠ none) :
    q.read n backtick = q.delimit n backtick := by
  have same : q.notice n backtick = q := if_neg fun h => noticed h.1
  unfold Quotes.read
  rw [same]
  simp only
  exact if_pos (.inl trivial)

/-- Backticks behind the first byte of a line are one run. -/
theorem Quotes.feed_ticks (idle : q.runSize = 0) (noticed : q.firstNonblank ≠ none) :
    q.feed n (List.replicate (k + 1) backtick) =
      { q with runBegin := n, runChar := backtick, runSize := k + 1 } := by
  induction k with
  | zero =>
    rw [List.replicate_one, Quotes.feed, Quotes.feed, Quotes.read_tick noticed]
    unfold Quotes.delimit
    simp [idle]
  | succ k ih =>
    have noticed' : { q with
        runBegin := n, runChar := backtick, runSize := k + 1 : Quotes }.firstNonblank ≠ none :=
      noticed
    rw [List.replicate_succ', QuoteTracker.feed_append, ih, Quotes.feed, Quotes.feed,
      Quotes.read_tick noticed']
    unfold Quotes.delimit
    simp

/-- Behind a run, a byte of the line that is no delimiter settles what it was. -/
theorem Quotes.read_letter {byte : Byte} (noticed : q.firstNonblank ≠ none)
    (letter : byte ≠ backtick ∧ byte ≠ tilde ∧ byte ≠ newline ∧ blank byte = false) :
    q.read n byte = { q.flushRun with closingFence := false } := by
  have same : q.notice n byte = q := if_neg fun h => noticed h.1
  obtain ⟨tick, wave, line, visible⟩ := letter
  unfold Quotes.read
  rw [same]
  rw [if_neg (not_or.mpr ⟨tick, wave⟩), if_neg line, if_pos visible]

theorem Quotes.feed_run {byte : Byte} (idle : q.runSize = 0) (noticed : q.firstNonblank ≠ none)
    (letter : byte ≠ backtick ∧ byte ≠ tilde ∧ byte ≠ newline ∧ blank byte = false) :
    q.feed n (List.replicate (k + 1) backtick ++ [byte]) =
      { ({ q with runBegin := n, runChar := backtick, runSize := k + 1 } : Quotes).flushRun with
        closingFence := false } := by
  rw [QuoteTracker.feed_append, Quotes.feed_ticks idle noticed, Quotes.feed, Quotes.feed]
  exact @Quotes.read_letter { q with runBegin := n, runChar := backtick, runSize := k + 1 } _ _
    noticed letter

/-- A run of backticks between letters opens inline code. -/
theorem Quotes.feed_open (noticed : q.firstNonblank = some 0) (idle : q.runSize = 0)
    (inline : q.inlineSize = 0) (fence : q.fenceSize = 0) (pos : 0 < n) :
    (q.feed n (List.replicate (k + 1) backtick ++ [120])).inlineSize = k + 1 ∧
    (q.feed n (List.replicate (k + 1) backtick ++ [120])).fenceSize = 0 ∧
    (q.feed n (List.replicate (k + 1) backtick ++ [120])).runSize = 0 ∧
    (q.feed n (List.replicate (k + 1) backtick ++ [120])).firstNonblank = some 0 := by
  have inside : ¬0 = n := Nat.ne_of_lt pos
  rw [Quotes.feed_run idle (by rw [noticed]; exact Option.some_ne_none 0) (by decide)]
  unfold Quotes.flushRun
  simp [inline, fence, noticed, Quotes.atLineStart, inside]

/-- The tracker knows that the quote is still open. -/
theorem QuoteTracker.longRuns_open (t : QuoteTracker) :
    (t.behind (longRuns (k + 1) ++ [opening])).inlineSize = k + 1 := by
  obtain ⟨inline, fence, idle, noticed⟩ :=
    @Quotes.feed_open (t.cleared.read 0 120) 1 k rfl rfl rfl rfl Nat.one_pos
  have cut : longRuns (k + 1) ++ [opening] = 120 :: ((List.replicate (k + 1) backtick ++ [120]) ++
      (List.replicate (k + 1 + 1) backtick ++ [opening])) := by
    simp [longRuns]
  unfold behind
  rw [cut, Quotes.feed, feed_append]
  rw [Quotes.feed_run idle (by rw [noticed]; exact Option.some_ne_none 0) (by decide)]
  unfold Quotes.flushRun
  simp [inline, fence, noticed, Quotes.atLineStart]

/-- Backticks behind a letter are one run, counted up to the limit. -/
theorem Quoting.fold_ticks {s : Quoting} (idle : s.run = 0) (noticed : s.nonblank = true)
    (some : 0 < limit) :
    (List.replicate (k + 1) backtick).foldl (Quoting.read limit) s =
      { s with run := min (k + 1) limit, runChar := backtick, runAtStart := false } := by
  have visible : blank backtick = false ∧ backtick ≠ newline := by decide
  induction k with
  | zero =>
    rw [List.replicate_one, List.foldl_cons, List.foldl_nil]
    unfold Quoting.read
    rw [if_pos visible]
    simp [Quoting.part, Quoting.delimit, idle, noticed, some, Nat.min_eq_left some]
  | succ k ih =>
    rw [List.replicate_succ', List.foldl_append, ih, List.foldl_cons, List.foldl_nil]
    unfold Quoting.read
    have counted : min (k + 1) limit ≠ 0 := by omega
    have next : (if min (k + 1) limit < limit then min (k + 1) limit + 1 else min (k + 1) limit) =
        min (k + 1 + 1) limit := by
      split_ifs <;> omega
    generalize min (k + 1) limit = run at counted next ⊢
    simp [Quoting.part, Quoting.delimit, noticed, counted, next]

/-- The lexeme takes both runs for equally long. -/
theorem longRuns_quoting (some : 0 < limit) :
    (longRuns limit).foldl (Quoting.read limit) .start =
      ⟨limit, 0, limit, backtick, false, 0, true, false⟩ := by
  obtain ⟨k, rfl⟩ : ∃ k, limit = k + 1 := ⟨limit - 1, by omega⟩
  have first : Quoting.start.read (k + 1) 120 = ⟨0, 0, 0, 0, false, 0, true, false⟩ := rfl
  have run : (List.replicate (k + 1) backtick).foldl (Quoting.read (k + 1))
      ⟨0, 0, 0, 0, false, 0, true, false⟩ = ⟨0, 0, k + 1, backtick, false, 0, true, false⟩ := by
    rw [Quoting.fold_ticks rfl rfl some, Nat.min_self]
  have opens : Quoting.read (k + 1) ⟨0, 0, k + 1, backtick, false, 0, true, false⟩ 120 =
      ⟨k + 1, 0, 0, 0, false, 0, true, false⟩ := by
    simp [Quoting.read, Quoting.part, Quoting.flush, backtick, tilde, newline, blank]
  have more : (List.replicate (k + 1 + 1) backtick).foldl (Quoting.read (k + 1))
      ⟨k + 1, 0, 0, 0, false, 0, true, false⟩ =
      ⟨k + 1, 0, k + 1, backtick, false, 0, true, false⟩ := by
    rw [Quoting.fold_ticks rfl rfl some, Nat.min_eq_right (Nat.le_succ _)]
  unfold longRuns
  rw [List.foldl_append, List.foldl_cons, List.foldl_cons, first, run, opens, more]

theorem longRuns_calls : Calls (nativeCallOpen .kQwen)
    (longRuns kMaximumRun ++ nativeCallOpen .kQwen) := by
  have closed : ∀ k < 22, ¬(((nativeCallOpen .kQwen).take (k + 1)).foldl
      (Quoting.read kMaximumRun)
      ⟨kMaximumRun, 0, kMaximumRun, backtick, false, 0, true, false⟩).quoted := by
    decide
  refine ⟨_, rfl, fun some rest whole nonempty => ?_⟩
  have begins := List.length_pos_iff.mpr nonempty
  have part : some = (nativeCallOpen .kQwen).take (some.length - 1 + 1) := by
    rw [whole, Nat.sub_add_cancel begins, List.take_left]
  have size := congrArg List.length whole
  rw [List.length_append, show (nativeCallOpen .kQwen).length = 22 from rfl] at size
  unfold quotingOf
  rw [List.foldl_append, longRuns_quoting (by decide), part]
  exact closed _ (by omega)

theorem longRuns_slash : (47 : Byte) ∉ longRuns kMaximumRun ++ nativeCallOpen .kQwen := by
  intro slash
  cases List.mem_append.mp slash with
  | inl mem => exact absurd (mem_longRuns mem) (by decide)
  | inr mem => exact absurd rfl (native_plain .kQwen 47 mem).2.2

/-- The marker behind the runs ends reasoning for the lexeme. -/
theorem longRuns_completes : (toolLexeme .kQwen).CompletesAt
    (longRuns kMaximumRun ++ nativeCallOpen .kQwen)
    ((longRuns kMaximumRun).length + (nativeCallOpen .kQwen).length) := by
  have whole : (longRuns kMaximumRun ++ nativeCallOpen .kQwen).length =
      (longRuns kMaximumRun).length + (nativeCallOpen .kQwen).length := List.length_append
  have slash : (47 : Byte) ∈ explicitEnd := by decide
  rw [ReasoningLexeme.completesAt_iff (l := toolLexeme .kQwen) (List.cons_ne_nil _ _) rfl, ← whole]
  refine ⟨Nat.le_refl _, ?_, fun k _ ends => longRuns_slash (List.mem_of_mem_take
    (ends.subset slash)), fun k lt calls => ?_⟩
  · rw [List.take_length]
    exact longRuns_calls
  · obtain ⟨front, ends, -⟩ := calls
    obtain ⟨rest, same⟩ := List.take_prefix k (longRuns kMaximumRun ++ nativeCallOpen .kQwen)
    have size := congrArg List.length ends
    rw [List.length_take, Nat.min_eq_left (Nat.le_of_lt lt), List.length_append,
      show (toolLexeme .kQwen).toolPrefix = nativeCallOpen .kQwen from rfl] at size
    have early : front.length < (longRuns kMaximumRun).length := by omega
    have here : (longRuns kMaximumRun)[front.length]? = some opening := by
      rw [← List.getElem?_append_left early, ← same, ends, List.append_assoc,
        List.getElem?_append_right (Nat.le_refl _), Nat.sub_self]
      rfl
    exact absurd (mem_longRuns (List.mem_of_getElem? here)) (by decide)

/-- The lexeme leaves reasoning for a call that the parser takes for quoted prose. -/
theorem long_runs_differ : ¬∀ (format : NativeFormat) (t : QuoteTracker) (text : List Byte)
    (p : Nat), (∀ i, ¬explicitEnd <+: text.drop i) →
    ((∃ found ∈ foundAt format t text, tagOf text found = p) ↔
      (toolLexeme format).CompletesAt text (p + (nativeCallOpen format).length)) := by
  intro agree
  have slash : (47 : Byte) ∈ explicitEnd := by decide
  have found := (agree .kQwen .empty (longRuns kMaximumRun ++ nativeCallOpen .kQwen) _
    fun i begins => longRuns_slash (List.mem_of_mem_drop (begins.subset slash))).mpr
      longRuns_completes
  obtain ⟨⟨marks, free⟩, -⟩ := (foundAt_iff _ _ _ _).mp found
  refine free ((QuoteTracker.empty.covers_iff marks).mpr fun clear => ?_)
  rw [List.take_left] at clear
  have open_ := @QuoteTracker.longRuns_open (kMaximumRun - 1) .empty
  rw [show kMaximumRun - 1 + 1 = kMaximumRun from rfl, clear.inline] at open_
  cases open_

end

end Gufo.Serve
