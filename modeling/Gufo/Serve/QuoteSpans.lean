import Gufo.Serve.QuoteTracker

/-!
# The spans of quoted prose

The recorded spans are sorted and disjoint. Whether a position is quoted or may still be is
settled when its byte is read: what comes behind it only settles which of the two.
-/

namespace Gufo.Serve

/-- One behind the other, up to a bound. -/
structure Ordered (spans : List Span) (bound : Nat) : Prop where
  apart : spans.Pairwise fun a b => a.stop ≤ b.start
  inside : ∀ span ∈ spans, span.start ≤ span.stop ∧ span.stop ≤ bound

theorem ordered_nil (bound : Nat) : Ordered [] bound :=
  ⟨.nil, fun _ mem => absurd mem List.not_mem_nil⟩

variable {spans : List Span}

theorem Ordered.mono {bound bound' : Nat} (h : Ordered spans bound)
    (le : bound ≤ bound') : Ordered spans bound' :=
  ⟨h.apart, fun span mem => ⟨(h.inside span mem).1, Nat.le_trans (h.inside span mem).2 le⟩⟩

theorem Ordered.push {start stop bound : Nat} (h : Ordered spans start)
    (le : start ≤ stop) (le' : stop ≤ bound) : Ordered (spans ++ [⟨start, stop⟩]) bound := by
  refine ⟨List.pairwise_append.mpr ⟨h.apart, List.pairwise_singleton .., fun a ha b hb => ?_⟩,
    fun span mem => ?_⟩
  · rw [List.mem_singleton.mp hb]
    exact (h.inside a ha).2
  · cases List.mem_append.mp mem with
    | inl old => exact (h.mono (Nat.le_trans le le')).inside span old
    | inr new =>
      rw [List.mem_singleton.mp new]
      exact ⟨le, le'⟩

/-- Some span holds the position. -/
def Held (spans : List Span) (p : Nat) : Prop := ∃ span ∈ spans, span.start ≤ p ∧ p < span.stop

theorem held_push {start stop p : Nat} :
    Held (spans ++ [⟨start, stop⟩]) p ↔ Held spans p ∨ start ≤ p ∧ p < stop := by
  constructor
  · rintro ⟨span, mem, holds⟩
    cases List.mem_append.mp mem with
    | inl old => exact .inl ⟨span, old, holds⟩
    | inr new =>
      rw [List.mem_singleton.mp new] at holds
      exact .inr holds
  · rintro (⟨span, mem, holds⟩ | holds)
    · exact ⟨span, List.mem_append_left _ mem, holds⟩
    · exact ⟨_, List.mem_append_right _ (List.mem_singleton_self _), holds⟩

theorem Ordered.not_held {bound p : Nat} (h : Ordered spans bound)
    (le : bound ≤ p) : ¬Held spans p := by
  rintro ⟨span, mem, holds⟩
  have := (h.inside span mem).2
  omega

/-- The search finds the span that holds the position. -/
theorem within_iff {bound : Nat} (h : Ordered spans bound) (p : Nat) :
    Quotes.within spans p = true ↔ Held spans p := by
  have starts : spans.Pairwise fun a b => a.start ≤ b.start := by
    refine h.apart.imp_of_mem fun {a b} ha _ le => Nat.le_trans (h.inside a ha).1 le
  obtain ⟨front, back, cut, length, inside, outside⟩ := @LowerBound.lowerBound_cut _
    (fun span : Span => decide (span.start ≤ p)) _
    (starts.imp fun le below => decide_eq_true (Nat.le_trans le (of_decide_eq_true below)))
  have in_front : ∀ span ∈ spans, span.start ≤ p → span ∈ front := by
    intro span mem le
    rw [cut] at mem
    cases List.mem_append.mp mem with
    | inl front => exact front
    | inr back => exact absurd le (of_decide_eq_false (outside span back))
  unfold Quotes.within
  simp only [← length]
  cases last : front.reverse with
  | nil =>
    have none : front = [] := List.reverse_eq_nil_iff.mp last
    subst none
    refine ⟨fun found => by simp at found, ?_⟩
    rintro ⟨span, mem, le, -⟩
    exact absurd (in_front span mem le) List.not_mem_nil
  | cons span init =>
    have front_ : front = init.reverse ++ [span] := by
      rw [← List.reverse_reverse front, last, List.reverse_cons]
    have here : spans[front.length - 1]? = some span := by
      rw [cut, front_, List.length_append, List.length_singleton, Nat.add_sub_cancel,
        List.append_assoc, List.getElem?_append_right (Nat.le_refl _), Nat.sub_self]
      rfl
    have some : front.length ≠ 0 := by
      rw [front_, List.length_append]
      exact Nat.succ_ne_zero _
    rw [here, decide_eq_true some, Bool.true_and, Option.any_some, decide_eq_true_eq]
    have mem : span ∈ front := by
      rw [front_]
      exact List.mem_append_right _ (List.mem_singleton_self _)
    have le := of_decide_eq_true (inside span mem)
    constructor
    · intro lt
      exact ⟨span, cut ▸ List.mem_append_left _ mem, le, lt⟩
    · rintro ⟨span', mem', le', lt'⟩
      have first := in_front span' mem' le'
      rw [front_] at first
      cases List.mem_append.mp first with
      | inl early =>
        have apart := h.apart
        rw [cut, front_, List.append_assoc] at apart
        have := (List.pairwise_append.mp apart).2.2 span' early span
          (List.mem_append_left _ (List.mem_singleton_self _))
        omega
      | inr same => exact List.mem_singleton.mp same ▸ lt'

namespace Quotes

/-! ## The invariant -/

/-- Where the delimiters that may still grow begin. -/
def edge (q : Quotes) (n : Nat) : Nat := if q.runSize = 0 then n else q.runBegin

/-- Where the open quote begins, or the edge. -/
def bound (q : Quotes) (n : Nat) : Nat :=
  if 0 < q.inlineSize then q.inlineBegin else if 0 < q.fenceSize then q.fenceBegin else q.edge n

/-- Behind `n` bytes. -/
structure Within (q : Quotes) (n : Nat) : Prop where
  run : q.runSize ≠ 0 → q.firstNonblank ≠ none ∧ q.runBegin + q.runSize = n
  inline : 0 < q.inlineSize → q.inlineBegin ≤ q.edge n ∧ q.fenceSize = 0
  fence : 0 < q.fenceSize → q.fenceBegin ≤ q.edge n
  close : q.closingFence = true → 0 < q.fenceSize ∧ q.fenceBegin ≤ q.closeBegin ∧ q.closeBegin ≤ n
  spans : Ordered q.spans (q.bound n)
  unfinished : Ordered q.unfinishedInline (q.bound n)

def Covers (q : Quotes) (p : Nat) : Prop :=
  Held q.spans p ∨ Held q.unfinishedInline p ∨ 0 < q.fenceSize ∧ q.fenceBegin ≤ p ∨
    0 < q.inlineSize ∧ q.inlineBegin ≤ p

/-- Nothing that is still pending lies at the position or before it. -/
structure After (q : Quotes) (p : Nat) : Prop where
  run : q.runSize ≠ 0 → p < q.runBegin
  close : q.closingFence = true → p < q.closeBegin

section
variable {q : Quotes} {n p : Nat} {byte : Byte}

theorem flushRun_runSize (q : Quotes) : q.flushRun.runSize = 0 := by
  unfold flushRun
  split_ifs <;> first | rfl | assumption

theorem closeFence_runSize (q : Quotes) : q.closeFence.runSize = q.runSize := by
  unfold closeFence
  split_ifs <;> rfl

theorem endLine_runSize (q : Quotes) (cursor : Nat) :
    (q.endLine cursor).runSize = q.runSize := by
  have ends : (q.closeFence.endInline cursor).runSize = q.closeFence.runSize := by
    unfold endInline
    split_ifs <;> rfl
  exact ends.trans (closeFence_runSize q)

theorem Within.flushRun (h : Within q n) : Within q.flushRun n := by
  obtain ⟨run, inline, fence, close, spans, unfinished⟩ := h
  by_cases none : q.runSize = 0
  · unfold Quotes.flushRun
    rw [if_pos none]
    exact ⟨run, inline, fence, close, spans, unfinished⟩
  obtain ⟨some, last⟩ := run none
  have edge_ : q.edge n = q.runBegin := if_neg none
  rw [edge_] at inline fence
  unfold bound at spans unfinished
  unfold Quotes.flushRun
  rw [if_neg none]
  by_cases fenced : 0 < q.fenceSize
  · have apart : ¬0 < q.inlineSize := fun open_ => by
      omega
    have begun := fence fenced
    split_ifs
    · refine ⟨fun h => absurd rfl h, fun open_ => absurd open_ apart, fun _ => ?_,
        fun _ => ⟨fenced, begun, by simp only; omega⟩, ?_, ?_⟩
      · simp only [edge, if_true]
        omega
      · simpa [bound, if_neg apart, if_pos fenced] using spans
      · simpa [bound, if_neg apart, if_pos fenced] using unfinished
    · refine ⟨fun h => absurd rfl h, fun open_ => absurd open_ apart, fun _ => ?_, close,
        ?_, ?_⟩
      · simp only [edge, if_true]
        omega
      · simpa [bound, if_neg apart, if_pos fenced] using spans
      · simpa [bound, if_neg apart, if_pos fenced] using unfinished
  rw [if_neg fenced] at spans unfinished ⊢
  have still : q.closingFence = true → False := fun closing => fenced (close closing).1
  split_ifs with opens tick idle equal
  · rw [if_neg (by omega)] at spans unfinished
    refine ⟨fun h => absurd rfl h, fun open_ => ?_, fun _ => ?_,
      fun closing => (still closing).elim, ?_, ?_⟩
    · simp only at open_
      omega
    · simp only [edge, if_true]
      omega
    · simp only [bound]
      rw [if_neg (by omega), if_pos (by omega)]
      exact spans.mono (by omega)
    · simp only [bound]
      rw [if_neg (by omega), if_pos (by omega)]
      exact unfinished.mono (by omega)
  · rw [if_neg (by omega)] at spans unfinished
    refine ⟨fun h => absurd rfl h, fun _ => ⟨?_, ?_⟩, fun open_ => absurd open_ fenced,
      fun closing => (still closing).elim, ?_, ?_⟩
    · simp only [edge, if_true]
      omega
    · simp only
      omega
    · simp only [bound]
      rw [if_pos (by omega)]
      exact spans.mono (by omega)
    · simp only [bound]
      rw [if_pos (by omega)]
      exact unfinished.mono (by omega)
  · have open_ : 0 < q.inlineSize := by omega
    have begun := (inline open_).1
    rw [if_pos open_] at spans unfinished
    refine ⟨fun h => absurd rfl h, fun h => absurd h (Nat.lt_irrefl 0),
      fun open_ => absurd open_ fenced, fun closing => (still closing).elim, ?_, ?_⟩
    · simp only [bound, edge, Nat.lt_irrefl, if_false, if_neg fenced, if_true]
      exact spans.push begun (by omega)
    · simp only [bound, edge, Nat.lt_irrefl, if_false, if_neg fenced, if_true]
      exact unfinished.mono (by omega)
  · have open_ : 0 < q.inlineSize := by omega
    refine ⟨fun h => absurd rfl h, fun _ => ⟨?_, (inline open_).2⟩,
      fun open_ => absurd open_ fenced, fun closing => (still closing).elim, ?_, ?_⟩
    · simp only [edge, if_true]
      omega
    · simpa [bound, if_pos open_] using spans
    · simpa [bound, if_pos open_] using unfinished
  · refine ⟨fun h => absurd rfl h, fun open_ => ⟨?_, (inline open_).2⟩,
      fun open_ => absurd open_ fenced, fun closing => (still closing).elim, ?_, ?_⟩
    · have := (inline open_).1
      simp only [edge, if_true]
      omega
    · simp only [bound, edge, if_true, if_neg fenced]
      split_ifs with open_
      · rwa [if_pos open_] at spans
      · rw [if_neg open_] at spans
        exact spans.mono (by omega)
    · simp only [bound, edge, if_true, if_neg fenced]
      split_ifs with open_
      · rwa [if_pos open_] at unfinished
      · rw [if_neg open_] at unfinished
        exact unfinished.mono (by omega)

theorem Within.notice (h : Within q n) (cursor : Nat) (byte : Byte) :
    Within (q.notice cursor byte) n := by
  unfold Quotes.notice
  split_ifs
  · exact ⟨fun some => ⟨Option.some_ne_none _, (h.run some).2⟩, h.inline, h.fence, h.close,
      h.spans, h.unfinished⟩
  · exact h

theorem notice_some (q : Quotes) (cursor : Nat) {byte : Byte} (visible : blank byte = false)
    (within_ : byte ≠ newline) : (q.notice cursor byte).firstNonblank ≠ none := by
  unfold notice
  split_ifs with none
  · exact Option.some_ne_none _
  · intro none'
    exact none ⟨none', visible, within_⟩

/-- A byte that does not go on with any delimiters. -/
theorem Within.grow (h : Within q n) (flushed : q.runSize = 0) : Within q (n + 1) := by
  obtain ⟨run, inline, fence, close, spans, unfinished⟩ := h
  have edge_ : q.edge n = n := if_pos flushed
  have edge' : q.edge (n + 1) = n + 1 := if_pos flushed
  have wider : q.bound n ≤ q.bound (n + 1) := by
    unfold bound
    split_ifs <;> omega
  refine ⟨fun some => absurd flushed some, fun open_ => ?_, fun open_ => ?_, fun closing => ?_,
    spans.mono wider, unfinished.mono wider⟩
  · have := inline open_
    exact ⟨by omega, this.2⟩
  · omega
  · have := close closing
    exact ⟨this.1, this.2.1, by omega⟩

theorem Within.endLine (h : Within q n) (flushed : q.runSize = 0) :
    Within (q.endLine n) (n + 1) := by
  have edge_ : q.edge n = n := if_pos flushed
  obtain ⟨run, inline, fence, close, spans, unfinished⟩ := h
  unfold bound at spans unfinished
  rw [edge_] at inline fence spans unfinished
  by_cases closes : 0 < q.fenceSize ∧ q.closingFence = true
  · obtain ⟨fenced, closing⟩ := closes
    have apart : ¬0 < q.inlineSize := fun open_ => by
      omega
    rw [if_neg apart, if_pos fenced] at spans unfinished
    obtain ⟨-, begun, ends⟩ := close closing
    rw [Quotes.endLine, Quotes.closeFence, if_pos ⟨fenced, closing⟩, Quotes.endInline]
    simp only [apart, false_and, if_false]
    refine ⟨fun some => absurd flushed some, fun open_ => absurd open_ apart,
      fun open_ => absurd open_ (Nat.lt_irrefl 0),
      fun closing => absurd closing Bool.false_ne_true, ?_, ?_⟩
    · simp only [bound, if_neg apart, Nat.lt_irrefl, if_false, edge, flushed, if_true]
      exact spans.push begun (by omega)
    · simp only [bound, if_neg apart, Nat.lt_irrefl, if_false, edge, flushed, if_true]
      exact unfinished.mono (by omega)
  · rw [Quotes.endLine, Quotes.closeFence, if_neg closes, Quotes.endInline]
    by_cases ends : 0 < q.inlineSize ∧ q.firstNonblank = none
    · have open_ := ends.1
      obtain ⟨begun, unfenced⟩ := inline open_
      rw [if_pos open_] at spans unfinished
      rw [if_pos ends]
      refine ⟨fun some => absurd flushed some, fun open_ => absurd open_ (Nat.lt_irrefl 0),
        fun open_ => ?_, fun closing => absurd closing Bool.false_ne_true, ?_, ?_⟩
      · simp only at open_
        omega
      · simp only [bound, Nat.lt_irrefl, if_false, unfenced, edge, flushed, if_true]
        exact spans.mono (by omega)
      · simp only [bound, Nat.lt_irrefl, if_false, unfenced, edge, flushed, if_true]
        exact unfinished.push begun (by omega)
    · rw [if_neg ends]
      refine ⟨fun some => absurd flushed some, fun open_ => ⟨?_, (inline open_).2⟩, fun open_ => ?_,
        fun closing => absurd closing Bool.false_ne_true, ?_, ?_⟩
      · have := (inline open_).1
        simp only [edge, flushed, if_true]
        omega
      · have := fence open_
        simp only [edge, flushed, if_true]
        omega
      · simp only [bound, edge, flushed, if_true]
        exact spans.mono (by split_ifs <;> omega)
      · simp only [bound, edge, flushed, if_true]
        exact unfinished.mono (by split_ifs <;> omega)

theorem Within.delimit (h : Within q n) (some : q.firstNonblank ≠ none) :
    Within (q.delimit n byte) (n + 1) := by
  unfold Quotes.delimit
  simp only
  have same : ∀ q : Quotes, q.flushRun.firstNonblank = q.firstNonblank := by
    intro q
    unfold Quotes.flushRun
    split_ifs <;> rfl
  generalize flushed_ : (if q.runSize ≠ 0 ∧ q.runChar ≠ byte then q.flushRun else q) = f
  have both : Within f n ∧ f.firstNonblank ≠ none := by
    rw [← flushed_]
    split_ifs
    · exact ⟨h.flushRun, by rwa [same]⟩
    · exact ⟨h, some⟩
  obtain ⟨⟨run, inline, fence, close, spans, unfinished⟩, some⟩ := both
  by_cases none : f.runSize = 0
  · have edge_ : f.edge n = n := if_pos none
    unfold bound at spans unfinished
    rw [edge_] at inline fence spans unfinished
    rw [if_pos none]
    simp only [none, Nat.zero_add]
    refine ⟨fun _ => ⟨some, rfl⟩, fun open_ => ?_, fun open_ => ?_, fun closing => ?_, ?_, ?_⟩
    · simpa [edge, Nat.one_ne_zero] using inline open_
    · simpa [edge, Nat.one_ne_zero] using fence open_
    · have := close closing
      exact ⟨this.1, this.2.1, by simp only; omega⟩
    · simpa [bound, edge, Nat.one_ne_zero] using spans
    · simpa [bound, edge, Nat.one_ne_zero] using unfinished
  · have edge_ : f.edge n = f.runBegin := if_neg none
    unfold bound at spans unfinished
    rw [edge_] at inline fence spans unfinished
    rw [if_neg none]
    refine ⟨fun _ => ⟨some, ?_⟩, fun open_ => ?_, fun open_ => ?_, fun closing => ?_, ?_, ?_⟩
    · simp only
      omega
    · simpa [edge, Nat.succ_ne_zero] using inline open_
    · simpa [edge, Nat.succ_ne_zero] using fence open_
    · have := close closing
      exact ⟨this.1, this.2.1, by simp only; omega⟩
    · simpa [bound, edge, Nat.succ_ne_zero] using spans
    · simpa [bound, edge, Nat.succ_ne_zero] using unfinished

theorem delimiter_visible (mark : byte = backtick ∨ byte = tilde) :
    blank byte = false ∧ byte ≠ newline := by
  cases mark with
  | inl h => subst h; decide
  | inr h => subst h; decide

/-- Every byte keeps the invariant. -/
theorem Within.read (h : Within q n) (byte : Byte) : Within (q.read n byte) (n + 1) := by
  have noticed := h.notice n byte
  unfold Quotes.read
  split_ifs with mark line visible
  · obtain ⟨visible, within_⟩ := delimiter_visible mark
    exact noticed.delimit (notice_some q n visible within_)
  · exact noticed.flushRun.endLine (flushRun_runSize _)
  · have grown := noticed.flushRun.grow (flushRun_runSize _)
    exact ⟨grown.run, grown.inline, grown.fence,
      fun closing => absurd closing Bool.false_ne_true, grown.spans, grown.unfinished⟩
  · exact noticed.flushRun.grow (flushRun_runSize _)

theorem Within.feed (h : Within q n) (bytes : List Byte) :
    Within (q.feed n bytes) (n + bytes.length) := by
  induction bytes generalizing q n with
  | nil => exact h
  | cons byte rest ih =>
    rw [List.length_cons, ← Nat.add_assoc, Nat.add_right_comm]
    exact ih (h.read byte)

/-! ## What comes behind a position -/

theorem After.flushRun (after : After q p) : After q.flushRun p := by
  refine ⟨fun some => absurd (flushRun_runSize q) some, fun closing => ?_⟩
  unfold Quotes.flushRun at closing ⊢
  split_ifs at closing ⊢ with none
  all_goals first
    | exact after.close closing
    | exact after.run none

/-- Delimiters behind a position do not change whether it is covered. -/
theorem covers_flushRun (after : After q p) :
    Covers q.flushRun p ↔ Covers q p := by
  by_cases none : q.runSize = 0
  · unfold Quotes.flushRun
    rw [if_pos none]
  have begins := after.run none
  unfold Quotes.flushRun Covers
  split_ifs with fenced closes opens tick idle equal
  · rfl
  · rfl
  · -- a fence begins behind the position
    simp only
    refine or_congr_right (or_congr_right (or_congr_left ⟨fun new => ?_, fun old => ?_⟩))
    · omega
    · exact absurd old.1 fenced
  · simp only
    refine or_congr_right (or_congr_right (or_congr_right ⟨fun new => ?_, fun old => ?_⟩))
    · omega
    · omega
  · -- the span reaches behind the position
    rw [held_push]
    constructor
    · rintro ((old | new) | old | old | old)
      · exact .inl old
      · exact .inr (.inr (.inr ⟨by omega, new.1⟩))
      · exact .inr (.inl old)
      · exact .inr (.inr (.inl old))
      · exact absurd old.1 (Nat.lt_irrefl 0)
    · rintro (old | old | old | old)
      · exact .inl (.inl old)
      · exact .inr (.inl old)
      · exact .inr (.inr (.inl old))
      · exact .inl (.inr ⟨old.2, begins⟩)
  · rfl
  · rfl

theorem covers_endLine (after : After q p) (lt : p < n) : Covers (q.endLine n) p ↔ Covers q p := by
  by_cases closes : 0 < q.fenceSize ∧ q.closingFence = true
  · have behind := after.close closes.2
    rw [Quotes.endLine, Quotes.closeFence, if_pos closes, Quotes.endInline]
    unfold Covers
    split_ifs with ends
    · simp only [held_push, Nat.lt_irrefl, false_and, or_false]
      constructor
      · rintro ((old | new) | (old | new))
        · exact .inl old
        · exact .inr (.inr (.inl ⟨closes.1, new.1⟩))
        · exact .inr (.inl old)
        · exact .inr (.inr (.inr ⟨ends.1, new.1⟩))
      · rintro (old | old | old | old)
        · exact .inl (.inl old)
        · exact .inr (.inl old)
        · exact .inl (.inr ⟨old.2, behind⟩)
        · exact .inr (.inr ⟨old.2, lt⟩)
    · simp only [held_push, Nat.lt_irrefl, false_and, false_or]
      constructor
      · rintro ((old | new) | old | old)
        · exact .inl old
        · exact .inr (.inr (.inl ⟨closes.1, new.1⟩))
        · exact .inr (.inl old)
        · exact .inr (.inr (.inr old))
      · rintro (old | old | old | old)
        · exact .inl (.inl old)
        · exact .inr (.inl old)
        · exact .inl (.inr ⟨old.2, behind⟩)
        · exact .inr (.inr old)
  · rw [Quotes.endLine, Quotes.closeFence, if_neg closes, Quotes.endInline]
    unfold Covers
    split_ifs with ends
    · simp only [held_push, Nat.lt_irrefl, false_and, or_false]
      constructor
      · rintro (old | (old | new) | old)
        · exact .inl old
        · exact .inr (.inl old)
        · exact .inr (.inr (.inr ⟨ends.1, new.1⟩))
        · exact .inr (.inr (.inl old))
      · rintro (old | old | old | old)
        · exact .inl old
        · exact .inr (.inl (.inl old))
        · exact .inr (.inr old)
        · exact .inr (.inl (.inr ⟨old.2, lt⟩))
    · rfl

theorem covers_notice (cursor : Nat) (byte : Byte) :
    Covers (q.notice cursor byte) p ↔ Covers q p := by
  unfold Quotes.notice
  split_ifs <;> rfl

theorem After.notice (after : After q p) (cursor : Nat) (byte : Byte) :
    After (q.notice cursor byte) p := by
  unfold Quotes.notice
  split_ifs
  · exact ⟨after.run, after.close⟩
  · exact after

theorem delimit_covers (after : After q p) (lt : p < n) :
    After (q.delimit n byte) p ∧ (Covers (q.delimit n byte) p ↔ Covers q p) := by
  unfold Quotes.delimit
  simp only
  generalize flushed_ : (if q.runSize ≠ 0 ∧ q.runChar ≠ byte then q.flushRun else q) = f
  have both : After f p ∧ (Covers f p ↔ Covers q p) := by
    rw [← flushed_]
    split_ifs
    · exact ⟨after.flushRun, covers_flushRun after⟩
    · exact ⟨after, Iff.rfl⟩
  rw [← both.2]
  split_ifs with none
  · exact ⟨⟨fun _ => lt, both.1.close⟩, Iff.rfl⟩
  · exact ⟨⟨fun _ => both.1.run none, both.1.close⟩, Iff.rfl⟩

/-- What comes behind a position leaves it covered or not. -/
theorem read_covers (after : After q p) (lt : p < n) (byte : Byte) :
    After (q.read n byte) p ∧ (Covers (q.read n byte) p ↔ Covers q p) := by
  have after' := after.notice n byte
  have flushed := after'.flushRun
  have same := covers_flushRun after'
  rw [covers_notice] at same
  unfold Quotes.read
  split_ifs with mark line visible
  · obtain ⟨behind, same'⟩ := @delimit_covers _ n p byte after' lt
    exact ⟨behind, same'.trans (covers_notice n byte)⟩
  · refine ⟨⟨fun some => absurd ?_ some, fun closing => absurd closing Bool.false_ne_true⟩, ?_⟩
    · rw [endLine_runSize, flushRun_runSize]
    · rw [covers_endLine flushed lt, same]
  · exact ⟨⟨flushed.run, fun closing => absurd closing Bool.false_ne_true⟩, same⟩
  · exact ⟨flushed, same⟩

theorem feed_covers (after : After q p) (lt : p < n) (bytes : List Byte) :
    After (q.feed n bytes) p ∧ (Covers (q.feed n bytes) p ↔ Covers q p) := by
  induction bytes generalizing q n with
  | nil => exact ⟨after, Iff.rfl⟩
  | cons byte rest ih =>
    obtain ⟨after', same⟩ := read_covers after lt byte
    obtain ⟨after'', same'⟩ := ih after' (Nat.lt_succ_of_lt lt)
    exact ⟨after'', same'.trans same⟩

/-- A byte that is no delimiter and not blank is covered when a quote is open there. -/
theorem read_here (h : Within q n) (plain : byte ≠ backtick ∧ byte ≠ tilde ∧ byte ≠ newline)
    (visible : blank byte = false) :
    After (q.read n byte) n ∧
      (Covers (q.read n byte) n ↔
        0 < (q.read n byte).inlineSize ∨ 0 < (q.read n byte).fenceSize) := by
  have flushed := (h.notice n byte).flushRun
  have none := flushRun_runSize (q.notice n byte)
  unfold Quotes.read
  rw [if_neg (not_or.mpr ⟨plain.1, plain.2.1⟩), if_neg plain.2.2, if_pos visible]
  generalize (q.notice n byte).flushRun = f at flushed none
  have edge_ : f.edge n = n := if_pos none
  have low : f.bound n ≤ n := by
    have inline := flushed.inline
    have fence := flushed.fence
    rw [edge_] at inline fence
    unfold bound
    split_ifs with open_ fenced
    · exact (inline open_).1
    · exact fence fenced
    · exact Nat.le_of_eq edge_
  refine ⟨⟨fun some => absurd none some, fun closing => absurd closing Bool.false_ne_true⟩, ?_⟩
  constructor
  · rintro (held | held | held | held)
    · exact absurd held (flushed.spans.not_held low)
    · exact absurd held (flushed.unfinished.not_held low)
    · exact .inr held.1
    · exact .inl held.1
  · rintro (open_ | fenced)
    · exact .inr (.inr (.inr ⟨open_, edge_ ▸ (flushed.inline open_).1⟩))
    · exact .inr (.inr (.inl ⟨fenced, edge_ ▸ flushed.fence fenced⟩))

/-! ## The answers -/

/-- Quoted, or in a quote that may still close: the position is covered. -/
theorem quoted_or_unclosed (h : Within q n) (p : Nat) :
    q.quotedAt p = true ∨ q.unclosedAt p = true ↔ Covers q p := by
  have quoted : q.quotedAt p = true → Covers q p := by
    unfold quotedAt
    rw [Bool.or_eq_true]
    rintro (held | provisional)
    · exact .inl ((within_iff h.spans p).mp held)
    · split_ifs at provisional with fenced
      · simp only [Bool.or_eq_true, Bool.and_eq_true, decide_eq_true_eq] at provisional
        refine .inr (.inr (.inl ⟨fenced, ?_⟩))
        rcases provisional with ⟨⟨-, le⟩, -⟩ | ⟨⟨-, le⟩, -⟩
        · exact le
        · exact le
      · simp only [Bool.and_eq_true, decide_eq_true_eq] at provisional
        obtain ⟨⟨⟨⟨open_, -⟩, -⟩, le⟩, -⟩ := provisional
        exact .inr (.inr (.inr ⟨open_, le⟩))
  unfold unclosedAt
  simp only [Bool.and_eq_true, Bool.not_eq_true', Bool.or_eq_true, decide_eq_true_eq,
    within_iff h.unfinished]
  constructor
  · rintro (yes | ⟨-, (fenced | open_) | held⟩)
    · exact quoted yes
    · exact .inr (.inr (.inl fenced))
    · exact .inr (.inr (.inr open_))
    · exact .inr (.inl held)
  · intro covers
    by_cases yes : q.quotedAt p = true
    · exact .inl yes
    · refine .inr ⟨Bool.eq_false_iff.mpr yes, ?_⟩
      rcases covers with held | held | fenced | open_
      · refine absurd ?_ yes
        unfold quotedAt
        rw [(within_iff h.spans p).mpr held, Bool.true_or]
      · exact .inr held
      · exact .inl (.inl fenced)
      · exact .inl (.inr open_)

end

end Quotes

namespace QuoteTracker

/-- What `Reset` leaves before the first byte. -/
def cleared (t : QuoteTracker) : Quotes :=
  { t.toQuotes with
    spans := []
    unfinishedInline := []
    firstNonblank := none
    runBegin := 0
    runSize := 0
    runChar := 0
    inlineSize := 0
    fenceSize := 0
    fenceChar := 0
    closingFence := false }

theorem reset_eq (t : QuoteTracker) (text : List Byte) (origin : Nat) :
    (t.reset text origin).toQuotes =
      t.cleared.feed (min origin text.length) (text.drop (min origin text.length)) := by
  unfold reset
  simp only [append_eq, List.length_replicate]
  rfl

theorem cleared_within (t : QuoteTracker) (n : Nat) : t.cleared.Within n :=
  ⟨fun some => absurd rfl some, fun open_ => absurd open_ (Nat.lt_irrefl 0),
    fun open_ => absurd open_ (Nat.lt_irrefl 0),
    fun closing => absurd closing Bool.false_ne_true, ordered_nil _, ordered_nil _⟩

/-- The spans are sorted and disjoint, whatever text was tracked. -/
theorem reset_within (t : QuoteTracker) (text : List Byte) (origin : Nat) :
    (t.reset text origin).Within text.length := by
  have := (t.cleared_within (min origin text.length)).feed (text.drop (min origin text.length))
  rw [List.length_drop] at this
  rw [reset_eq]
  convert this using 1
  omega

end QuoteTracker
end Gufo.Serve
