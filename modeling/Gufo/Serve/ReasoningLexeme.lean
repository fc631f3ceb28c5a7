import Gufo.Serve.QuoteSpans
import Gufo.Lib.Borders
import Mathlib.Algebra.Order.Ring.Int

/-!
# The lexeme of reasoning

The sampler's grammar reads reasoning byte by byte and keeps only what it needs of the quotes:
their delimiters, but no place. What it knows is what the tracker of the server knows.
-/

namespace Gufo.Serve

def kMaximumRun : Nat := 2 ^ 32 - 1

/-- The part of the scan that is about quotes. -/
structure Quoting where
  inlineQuote : Nat
  fence : Nat
  run : Nat
  runChar : Byte
  runAtStart : Bool
  fenceChar : Byte
  nonblank : Bool
  closingFence : Bool
deriving DecidableEq

namespace Quoting

def start : Quoting := ⟨0, 0, 0, 0, false, 0, false, false⟩

/-- What a run of delimiters was, once another byte follows. -/
def flush (s : Quoting) : Quoting :=
  if s.fence ≠ 0 then
    if s.runChar = s.fenceChar ∧ s.fence ≤ s.run ∧ s.runAtStart = true then
      { s with closingFence := true, run := 0, runChar := 0, runAtStart := false }
    else { s with run := 0, runChar := 0, runAtStart := false }
  else if s.inlineQuote = 0 ∧ 3 ≤ s.run ∧ s.runAtStart = true then
    { s with fence := s.run, fenceChar := s.runChar, run := 0, runChar := 0, runAtStart := false }
  else if s.runChar = backtick then
    if s.inlineQuote = 0 then
      { s with inlineQuote := s.run, run := 0, runChar := 0, runAtStart := false }
    else if s.run = s.inlineQuote then
      { s with inlineQuote := 0, run := 0, runChar := 0, runAtStart := false }
    else { s with run := 0, runChar := 0, runAtStart := false }
  else { s with run := 0, runChar := 0, runAtStart := false }

def closeFence (s : Quoting) : Quoting :=
  if s.fence ≠ 0 ∧ s.closingFence = true then { s with fence := 0, fenceChar := 0 } else s

def endInline (s : Quoting) : Quoting :=
  if s.inlineQuote ≠ 0 ∧ s.nonblank = false then { s with inlineQuote := 0 } else s

/-- Another byte ends the run. -/
def part (s : Quoting) (byte : Byte) : Quoting :=
  if s.run ≠ 0 ∧ byte ≠ s.runChar then s.flush else s

/-- One more delimiter. Runs are counted up to a limit. -/
def delimit (s : Quoting) (limit : Nat) (lineStart : Bool) (byte : Byte) : Quoting :=
  let s := if s.run = 0 then { s with runChar := byte, runAtStart := lineStart } else s
  { s with run := if s.run < limit then s.run + 1 else s.run }

/-- The quotes behind one more byte. -/
def read (limit : Nat) (s : Quoting) (byte : Byte) : Quoting :=
  let lineStart := !s.nonblank
  let s := if blank byte = false ∧ byte ≠ newline then { s with nonblank := true } else s
  let s := s.part byte
  if byte = backtick ∨ byte = tilde then s.delimit limit lineStart byte
  else if byte = newline then
    { s.closeFence.endInline with closingFence := false, nonblank := false }
  else if blank byte = false then { s with closingFence := false }
  else s

def quoted (s : Quoting) : Prop := s.inlineQuote ≠ 0 ∨ s.fence ≠ 0

instance (s : Quoting) : Decidable s.quoted := inferInstanceAs (Decidable (_ ∨ _))

end Quoting

inductive ReasoningEnd where
  | kExplicit
  | kTool
  | kUnfinished
deriving DecidableEq

structure Scan extends Quoting where
  explicitPrefix : Nat
  toolPrefix : Nat
deriving DecidableEq

/-- `Match`: whether more bytes may follow, and whether the lexeme is complete. -/
structure LexemeMatch where
  isPrefix : Bool
  complete : Bool
deriving DecidableEq

structure ReasoningLexeme where
  toolPrefix : List Byte
  end_ : ReasoningEnd

/-- `</think>` -/
def explicitEnd : List Byte := [60, 47, 116, 104, 105, 110, 107, 62]

def explicitFailure : List Nat := [0, 0, 0, 0, 0, 0, 0, 0]

namespace ReasoningLexeme

def start : Scan := ⟨.start, 0, 0⟩

def toolFailure (l : ReasoningLexeme) : List Nat :=
  Borders.borders l.toolPrefix l.toolPrefix.length

/-- `Advance`. -/
def advance (l : ReasoningLexeme) (s : Scan) (byte : Byte) : Scan × LexemeMatch :=
  let quoting := s.toQuoting.read kMaximumRun byte
  let explicitPrefix := Borders.advance explicitEnd explicitFailure byte s.explicitPrefix
  let toolPrefix :=
    if quoting.quoted then 0 else Borders.advance l.toolPrefix l.toolFailure byte s.toolPrefix
  let s : Scan := ⟨quoting, explicitPrefix, toolPrefix⟩
  if explicitPrefix = explicitEnd.length then (s, ⟨false, decide (l.end_ = .kExplicit)⟩)
  else if toolPrefix = l.toolPrefix.length then (s, ⟨false, decide (l.end_ = .kTool)⟩)
  else (s, ⟨true, decide (l.end_ = .kUnfinished)⟩)

/-- The scan behind the bytes, when none of them ended the lexeme. -/
def feed (l : ReasoningLexeme) (s : Scan) : List Byte → Option Scan
  | [] => some s
  | byte :: rest =>
    if (l.advance s byte).2.isPrefix then l.feed (l.advance s byte).1 rest else none

/-- Of the bytes of a text, the first `stop` complete the lexeme. -/
def CompletesAt (l : ReasoningLexeme) (text : List Byte) (stop : Nat) : Prop :=
  ∃ n s byte, stop = n + 1 ∧ l.feed start (text.take n) = some s ∧ text[n]? = some byte ∧
    (l.advance s byte).2 = ⟨false, true⟩

end ReasoningLexeme

/-! ## The tracker knows what the lexeme knows -/

namespace Quotes

def quoting (q : Quotes) : Quoting where
  inlineQuote := q.inlineSize
  fence := q.fenceSize
  run := q.runSize
  runChar := if q.runSize = 0 then 0 else q.runChar
  runAtStart := decide (q.runSize ≠ 0) && q.atLineStart q.runBegin
  fenceChar := if q.fenceSize = 0 then 0 else q.fenceChar
  nonblank := q.firstNonblank.isSome
  closingFence := q.closingFence

section
variable {q : Quotes} {n : Nat} {byte : Byte} {lineStart : Bool}

theorem flushRun_firstNonblank (q : Quotes) : q.flushRun.firstNonblank = q.firstNonblank := by
  unfold flushRun
  split_ifs <;> rfl

theorem quoting_flushRun (some : q.runSize ≠ 0) : q.flushRun.quoting = q.quoting.flush := by
  have char : q.quoting.runChar = q.runChar := if_neg some
  have begins : q.quoting.runAtStart = q.atLineStart q.runBegin := by
    simp [quoting, some]
  unfold flushRun Quoting.flush
  rw [if_neg some, char, begins]
  by_cases fenced : 0 < q.fenceSize
  · have fenced' : q.quoting.fence ≠ 0 := Nat.ne_of_gt fenced
    have mark : q.quoting.fenceChar = q.fenceChar := if_neg fenced'
    rw [if_pos fenced, if_pos fenced', mark]
    by_cases closes : q.runChar = q.fenceChar ∧ q.fenceSize ≤ q.runSize ∧
        q.atLineStart q.runBegin = true
    · have closes' : q.runChar = q.fenceChar ∧ q.quoting.fence ≤ q.quoting.run ∧
          q.atLineStart q.runBegin = true := closes
      rw [if_pos closes, if_pos closes']
      simp [quoting, Nat.ne_of_gt fenced]
    · have closes' : ¬(q.runChar = q.fenceChar ∧ q.quoting.fence ≤ q.quoting.run ∧
          q.atLineStart q.runBegin = true) := closes
      rw [if_neg closes, if_neg closes']
      simp [quoting, Nat.ne_of_gt fenced]
  · have unfenced : q.fenceSize = 0 := by omega
    have unfenced' : ¬q.quoting.fence ≠ 0 := fun h => h unfenced
    rw [if_neg fenced, if_neg unfenced']
    by_cases opens : q.inlineSize = 0 ∧ 3 ≤ q.runSize ∧ q.atLineStart q.runBegin = true
    · have opens' : q.quoting.inlineQuote = 0 ∧ 3 ≤ q.quoting.run ∧
          q.atLineStart q.runBegin = true := opens
      rw [if_pos opens, if_pos opens']
      simp [quoting, some]
    · have opens' : ¬(q.quoting.inlineQuote = 0 ∧ 3 ≤ q.quoting.run ∧
          q.atLineStart q.runBegin = true) := opens
      split_ifs <;> simp_all [quoting]

theorem quoting_notice (q : Quotes) (cursor : Nat) (byte : Byte)
    (run : q.runSize ≠ 0 → q.firstNonblank ≠ none) :
    (q.notice cursor byte).quoting =
      if blank byte = false ∧ byte ≠ newline then { q.quoting with nonblank := true }
      else q.quoting := by
  unfold notice
  by_cases visible : blank byte = false ∧ byte ≠ newline
  · rw [if_pos visible]
    cases first : q.firstNonblank with
    | none =>
      have none : q.runSize = 0 := by
        by_contra some
        exact run some first
      rw [if_pos ⟨rfl, visible⟩]
      simp [quoting, none]
    | some p =>
      simp [quoting, first]
  · rw [if_neg visible, if_neg fun h => visible h.2]

theorem quoting_closeFence (q : Quotes) : q.closeFence.quoting = q.quoting.closeFence := by
  have fence : 0 < q.fenceSize ↔ q.quoting.fence ≠ 0 := Nat.pos_iff_ne_zero
  unfold closeFence Quoting.closeFence
  by_cases closes : 0 < q.fenceSize ∧ q.closingFence = true
  · have closes' : q.quoting.fence ≠ 0 ∧ q.quoting.closingFence = true :=
      ⟨fence.mp closes.1, closes.2⟩
    rw [if_pos closes, if_pos closes']
    rfl
  · have closes' : ¬(q.quoting.fence ≠ 0 ∧ q.quoting.closingFence = true) :=
      fun h => closes ⟨fence.mpr h.1, h.2⟩
    rw [if_neg closes, if_neg closes']

theorem quoting_endInline (q : Quotes) (cursor : Nat) :
    (q.endInline cursor).quoting = q.quoting.endInline := by
  have inline : 0 < q.inlineSize ↔ q.quoting.inlineQuote ≠ 0 := Nat.pos_iff_ne_zero
  have first : q.firstNonblank = none ↔ q.quoting.nonblank = false := by
    simp [quoting]
  unfold endInline Quoting.endInline
  by_cases ends : 0 < q.inlineSize ∧ q.firstNonblank = none
  · rw [if_pos ends, if_pos ⟨inline.mp ends.1, first.mp ends.2⟩]
    rfl
  · rw [if_neg ends, if_neg fun h => ends ⟨inline.mpr h.1, first.mpr h.2⟩]

theorem quoting_endLine (flushed : q.runSize = 0) :
    (q.endLine n).quoting =
      { q.quoting.closeFence.endInline with closingFence := false, nonblank := false } := by
  have none : (q.closeFence.endInline n).runSize = 0 := (endLine_runSize q n).trans flushed
  rw [← quoting_closeFence, ← quoting_endInline _ n]
  unfold endLine
  simp [quoting, none]

/-- The first byte of a line lies behind, and runs are made of delimiters. -/
structure Marked (q : Quotes) (n : Nat) : Prop where
  first : ∀ p ∈ q.firstNonblank, p < n
  char : q.runSize ≠ 0 → q.runChar = backtick ∨ q.runChar = tilde

theorem delimit_firstNonblank (q : Quotes) (cursor : Nat) (byte : Byte) :
    (q.delimit cursor byte).firstNonblank = q.firstNonblank := by
  unfold delimit
  simp only
  split_ifs <;> first | rfl | exact flushRun_firstNonblank q

theorem notice_first (marked : Marked q n) : ∀ p ∈ (q.notice n byte).firstNonblank, p < n + 1 := by
  intro p mem
  unfold notice at mem
  split_ifs at mem
  · cases mem
    exact Nat.lt_succ_self _
  · exact Nat.lt_succ_of_lt (marked.first p mem)

theorem delimit_char (mark : byte = backtick ∨ byte = tilde)
    (char : q.runSize ≠ 0 → q.runChar = backtick ∨ q.runChar = tilde) :
    (q.delimit n byte).runChar = backtick ∨ (q.delimit n byte).runChar = tilde := by
  unfold delimit
  simp only
  by_cases differs : q.runSize ≠ 0 ∧ q.runChar ≠ byte
  · rw [if_pos differs, if_pos (flushRun_runSize q)]
    exact mark
  · split_ifs with none
    · exact mark
    · exact char none

theorem Marked.read (h : Marked q n) (byte : Byte) : Marked (q.read n byte) (n + 1) := by
  have first := @notice_first q n byte h
  have char : (q.notice n byte).runSize ≠ 0 →
      (q.notice n byte).runChar = backtick ∨ (q.notice n byte).runChar = tilde := by
    unfold notice
    split_ifs <;> exact h.char
  have none := flushRun_runSize (q.notice n byte)
  unfold Quotes.read
  split_ifs with mark
  · refine ⟨?_, fun _ => delimit_char mark char⟩
    rw [delimit_firstNonblank]
    exact first
  · refine ⟨fun _ mem => (Option.some_ne_none _ mem.symm).elim, fun some => absurd ?_ some⟩
    rw [endLine_runSize, none]
  · refine ⟨?_, fun some => absurd none some⟩
    simp only [flushRun_firstNonblank]
    exact first
  · refine ⟨?_, fun some => absurd none some⟩
    rw [flushRun_firstNonblank]
    exact first

theorem quoting_part (q : Quotes) (byte : Byte) :
    (if q.runSize ≠ 0 ∧ q.runChar ≠ byte then q.flushRun else q).quoting = q.quoting.part byte := by
  unfold Quoting.part
  by_cases some : q.runSize ≠ 0
  · have char : q.quoting.runChar = q.runChar := if_neg some
    by_cases differs : q.runChar ≠ byte
    · have both : q.quoting.run ≠ 0 ∧ byte ≠ q.quoting.runChar := ⟨some, char ▸ differs.symm⟩
      rw [if_pos ⟨some, differs⟩, if_pos both, quoting_flushRun some]
    · have not : ¬(q.quoting.run ≠ 0 ∧ byte ≠ q.quoting.runChar) :=
        fun both => differs (char ▸ both.2.symm)
      rw [if_neg fun both => differs both.2, if_neg not]
  · have not : ¬(q.quoting.run ≠ 0 ∧ byte ≠ q.quoting.runChar) := fun both => some both.1
    rw [if_neg fun both => some both.1, if_neg not]

theorem quoting_delimit {limit : Nat} (fresh : q.firstNonblank = some n ↔ lineStart = true)
    (counted : (q.delimit n byte).runSize ≤ limit) :
    (q.delimit n byte).quoting = (q.quoting.part byte).delimit limit lineStart byte := by
  rw [← quoting_part]
  unfold delimit at counted ⊢
  simp only at counted ⊢
  have first : (if q.runSize ≠ 0 ∧ q.runChar ≠ byte then q.flushRun else q).firstNonblank =
      q.firstNonblank := by
    split_ifs
    · exact flushRun_firstNonblank q
    · rfl
  generalize (if q.runSize ≠ 0 ∧ q.runChar ≠ byte then q.flushRun else q) = f at counted first ⊢
  unfold Quoting.delimit
  simp only
  by_cases none : f.runSize = 0
  · have none' : f.quoting.run = 0 := none
    have room : 0 < limit := by
      omega
    have begins : f.atLineStart n = lineStart := by
      unfold atLineStart
      rw [first, Bool.eq_iff_iff, beq_iff_eq]
      exact fresh
    simp only [none', room, if_true]
    simp [quoting, none, ← begins, atLineStart]
  · have some' : f.quoting.run ≠ 0 := none
    have room : f.quoting.run < limit := by
      rw [if_neg none] at counted
      exact counted
    rw [if_neg none, if_neg some', if_pos room]
    simp [quoting, none, atLineStart]

/-- One byte moves both alike, as long as no run outgrows the count. -/
theorem quoting_read {limit : Nat} (h : Within q n) (marked : Marked q n)
    (counted : (q.read n byte).runSize ≤ limit) :
    (q.read n byte).quoting = q.quoting.read limit byte := by
  have noticed := quoting_notice q n byte fun some => (h.run some).1
  have char : (q.notice n byte).runSize ≠ 0 →
      (q.notice n byte).runChar = backtick ∨ (q.notice n byte).runChar = tilde := by
    unfold notice
    split_ifs <;> exact marked.char
  have none := flushRun_runSize (q.notice n byte)
  unfold Quoting.read
  rw [← noticed]
  by_cases mark : byte = backtick ∨ byte = tilde
  · have same : q.read n byte = (q.notice n byte).delimit n byte := if_pos mark
    rw [same] at counted ⊢
    rw [if_pos mark]
    refine quoting_delimit ?_ counted
    obtain ⟨visible, within_⟩ := delimiter_visible mark
    unfold notice
    cases first : q.firstNonblank with
    | none => simp [visible, within_, quoting, first]
    | some p =>
      have := marked.first p first
      rw [if_neg fun h => nomatch h.1]
      simp only [first, quoting, Option.isSome_some, Bool.not_true, Bool.false_eq_true, iff_false,
        Option.some.injEq]
      omega
  · have flushed : (q.notice n byte).flushRun.quoting = (q.notice n byte).quoting.part byte := by
      rw [← quoting_part]
      by_cases some : (q.notice n byte).runSize ≠ 0
      · rw [if_pos ⟨some, fun same => mark (same ▸ char some)⟩]
      · have zero : (q.notice n byte).runSize = 0 := by
          by_contra h
          exact some h
        rw [if_neg fun both => some both.1]
        unfold flushRun
        rw [if_pos zero]
    have read_ : q.read n byte =
        if byte = newline then (q.notice n byte).flushRun.endLine n
        else if blank byte = false then
          { (q.notice n byte).flushRun with closingFence := false }
        else (q.notice n byte).flushRun := if_neg mark
    rw [if_neg mark, read_, ← flushed]
    split_ifs
    · exact quoting_endLine none
    · rfl
    · rfl

end

end Quotes

/-! ## Where the lexeme ends -/

/-- The quotes behind the bytes, as the lexeme counts them. -/
def quotingOf (seen : List Byte) : Quoting := seen.foldl (Quoting.read kMaximumRun) .start

theorem quotingOf_concat (seen : List Byte) (byte : Byte) :
    quotingOf (seen ++ [byte]) = (quotingOf seen).read kMaximumRun byte := by
  unfold quotingOf
  rw [List.foldl_append, List.foldl_cons, List.foldl_nil]

/-- The marker ends what was read, and no quote was open from its first byte on. -/
def Calls (marker seen : List Byte) : Prop :=
  ∃ front, seen = front ++ marker ∧
    ∀ some rest, marker = some ++ rest → some ≠ [] → ¬(quotingOf (front ++ some)).quoted

namespace ReasoningLexeme

/-- What the scan knows of the bytes: its quotes, and how much of each marker stands at the end.
The marker of a call counts from the last quote on. -/
structure Follows (l : ReasoningLexeme) (seen : List Byte) (s : Scan) : Prop where
  quoting : s.toQuoting = quotingOf seen
  explicit : Borders.Longest explicitEnd seen 7 s.explicitPrefix
  tool : ∃ front back, seen = front ++ back ∧ (front = [] ∨ (quotingOf front).quoted) ∧
    (∀ some rest, back = some ++ rest → some ≠ [] → ¬(quotingOf (front ++ some)).quoted) ∧
    Borders.Longest l.toolPrefix back (l.toolPrefix.length - 1) s.toolPrefix

section
variable {l : ReasoningLexeme} {s : Scan} {seen : List Byte}

theorem follows_start (l : ReasoningLexeme) : Follows l [] start :=
  ⟨rfl, Borders.longest_nil _ _ (by decide), [], [], rfl, .inl rfl,
    fun some _ whole nonempty => absurd (List.append_eq_nil_iff.mp whole.symm).1 nonempty,
    Borders.longest_nil _ _ (Nat.sub_le _ _)⟩

theorem explicit_table : Borders.Table explicitEnd explicitFailure 8 := by
  exact (Borders.borders_table explicitEnd (Nat.le_refl 8)).2

/-- All of a pattern stands at the end. -/
theorem whole_iff {marker text : List Byte} {k : Nat}
    (longest : Borders.Longest marker text marker.length k) :
    k = marker.length ↔ marker <:+ text := by
  constructor
  · rintro rfl
    have := longest.ends
    rwa [List.take_length] at this
  · intro ends
    have := longest.longest marker.length (Nat.le_refl _) (by rwa [List.take_length])
    exact Nat.le_antisymm longest.le this

theorem Follows.explicit_next (h : Follows l seen s) (byte : Byte) :
    Borders.Longest explicitEnd (seen ++ [byte]) explicitEnd.length
      (Borders.advance explicitEnd explicitFailure byte s.explicitPrefix) :=
  have le := h.explicit.le
  h.explicit.advance (by decide) (fun i lt => explicit_table i (by omega)) byte

/-- The prefix of the tool marker behind one more byte. -/
def toolNext (l : ReasoningLexeme) (s : Scan) (byte : Byte) : Nat :=
  if (s.toQuoting.read kMaximumRun byte).quoted then 0
  else Borders.advance l.toolPrefix l.toolFailure byte s.toolPrefix

theorem longest_lower {marker text : List Byte} {k : Nat}
    (longest : Borders.Longest marker text marker.length k) (part : k ≠ marker.length) :
    Borders.Longest marker text (marker.length - 1) k := by
  have le := longest.le
  exact ⟨by omega, longest.ends, fun j le' ends => longest.longest j (by omega) ends⟩

/-- The marker is whole where a call begins, and otherwise the scan goes on to know it. -/
theorem Follows.tool_next (h : Follows l seen s) (nonempty : l.toolPrefix ≠ []) (byte : Byte) :
    (l.toolNext s byte = l.toolPrefix.length ↔ Calls l.toolPrefix (seen ++ [byte])) ∧
      (l.toolNext s byte ≠ l.toolPrefix.length → ∃ front back, seen ++ [byte] = front ++ back ∧
        (front = [] ∨ (quotingOf front).quoted) ∧
        (∀ some rest, back = some ++ rest → some ≠ [] → ¬(quotingOf (front ++ some)).quoted) ∧
        Borders.Longest l.toolPrefix back (l.toolPrefix.length - 1) (l.toolNext s byte)) := by
  obtain ⟨front, back, cut, fresh, plain, longest⟩ := h.tool
  have pos := List.length_pos_iff.mpr nonempty
  have here : s.toQuoting.read kMaximumRun byte = quotingOf (seen ++ [byte]) := by
    rw [quotingOf_concat, h.quoting]
  unfold toolNext
  rw [here]
  by_cases quoted : (quotingOf (seen ++ [byte])).quoted
  · rw [if_pos quoted]
    refine ⟨⟨fun none => by omega, ?_⟩, fun _ => ⟨seen ++ [byte], [], by rw [List.append_nil],
      .inr quoted, fun some _ whole some_ => absurd (List.append_eq_nil_iff.mp whole.symm).1 some_,
      Borders.longest_nil _ _ (Nat.sub_le _ _)⟩⟩
    rintro ⟨front', ends, open_⟩
    refine absurd quoted ?_
    rw [ends]
    exact open_ _ [] (List.append_nil _).symm nonempty
  · rw [if_neg quoted]
    have table := (Borders.borders_table l.toolPrefix (Nat.le_refl _)).2
    have le := longest.le
    have next := longest.advance (by omega) (fun i lt => table i (by omega)) byte
    rw [Nat.sub_add_cancel pos] at next
    have all : ∀ some rest, back ++ [byte] = some ++ rest → some ≠ [] →
        ¬(quotingOf (front ++ some)).quoted := by
      intro some rest whole some_
      cases rest using List.reverseRecOn with
      | nil =>
        rw [List.append_nil] at whole
        rwa [← whole, ← List.append_assoc, ← cut]
      | append_singleton rest last =>
        rw [← List.append_assoc] at whole
        exact plain some rest (List.append_inj' whole rfl).1 some_
    refine ⟨?_, fun part => ⟨front, back ++ [byte], by rw [cut, List.append_assoc], fresh, all,
      longest_lower next part⟩⟩
    unfold toolFailure
    rw [whole_iff next]
    constructor
    · rintro ⟨pre, ends⟩
      refine ⟨front ++ pre, by rw [cut, List.append_assoc, List.append_assoc, ends],
        fun some rest whole some_ => ?_⟩
      rw [List.append_assoc]
      refine all (pre ++ some) rest ?_ (List.append_ne_nil_of_right_ne_nil _ some_)
      rw [← ends, whole, List.append_assoc]
    · rintro ⟨front', ends, open_⟩
      rw [cut, List.append_assoc] at ends
      -- a quote does not end inside of the marker
      rcases List.append_eq_append_iff.mp ends with ⟨pre, rfl, rest⟩ | ⟨some, begins, rest⟩
      · exact ⟨pre, rest.symm⟩
      · by_cases none : some = []
        · subst none
          exact ⟨[], by rw [rest]; rfl⟩
        · refine absurd (open_ some (back ++ [byte]) rest none) ?_
          rw [← begins, Decidable.not_not]
          refine fresh.resolve_left fun empty => none ?_
          rw [empty] at begins
          exact (List.append_eq_nil_iff.mp begins.symm).2

theorem Follows.explicit_iff (h : Follows l seen s) (byte : Byte) :
    Borders.advance explicitEnd explicitFailure byte s.explicitPrefix = explicitEnd.length ↔
      explicitEnd <:+ seen ++ [byte] := whole_iff (h.explicit_next byte)

/-- The lexeme goes on unless one of its markers is whole. -/
theorem Follows.goes_on (h : Follows l seen s) (nonempty : l.toolPrefix ≠ []) (byte : Byte) :
    ((l.advance s byte).2.isPrefix = true ↔
      ¬explicitEnd <:+ seen ++ [byte] ∧ ¬Calls l.toolPrefix (seen ++ [byte])) ∧
    ((l.advance s byte).2.isPrefix = true → Follows l (seen ++ [byte]) (l.advance s byte).1) := by
  have explicit := h.explicit_iff byte
  obtain ⟨tool, cut⟩ := h.tool_next nonempty byte
  unfold toolNext at tool cut
  unfold advance
  by_cases ends : Borders.advance explicitEnd explicitFailure byte s.explicitPrefix =
      explicitEnd.length
  · rw [if_pos ends]
    exact ⟨⟨fun no => absurd no Bool.false_ne_true, fun no => absurd (explicit.mp ends) no.1⟩,
      fun no => absurd no Bool.false_ne_true⟩
  · rw [if_neg ends]
    generalize call_ : (if (s.toQuoting.read kMaximumRun byte).quoted then 0
      else Borders.advance l.toolPrefix l.toolFailure byte s.toolPrefix) = call at tool cut
    by_cases whole : call = l.toolPrefix.length
    · rw [if_pos whole]
      exact ⟨⟨fun no => absurd no Bool.false_ne_true, fun no => absurd (tool.mp whole) no.2⟩,
        fun no => absurd no Bool.false_ne_true⟩
    · rw [if_neg whole]
      refine ⟨⟨fun _ => ⟨fun no => ends (explicit.mpr no), fun no => whole (tool.mpr no)⟩,
        fun _ => rfl⟩, fun _ => ⟨?_, longest_lower (h.explicit_next byte) ends, cut whole⟩⟩
      rw [quotingOf_concat, ← h.quoting]

/-- It completes for a call where the call's marker is whole first. -/
theorem Follows.completes (h : Follows l seen s) (nonempty : l.toolPrefix ≠ [])
    (tool : l.end_ = .kTool) (byte : Byte) :
    (l.advance s byte).2 = ⟨false, true⟩ ↔
      ¬explicitEnd <:+ seen ++ [byte] ∧ Calls l.toolPrefix (seen ++ [byte]) := by
  rw [← h.explicit_iff byte, ← (h.tool_next nonempty byte).1]
  unfold advance toolNext
  simp only [tool]
  split_ifs with ends whole <;> simp_all

theorem feed_concat (l : ReasoningLexeme) (s : Scan) (bytes : List Byte) (byte : Byte) :
    l.feed s (bytes ++ [byte]) = (l.feed s bytes).bind fun s' =>
      if (l.advance s' byte).2.isPrefix then some (l.advance s' byte).1 else none := by
  induction bytes generalizing s with
  | nil => rfl
  | cons first rest ih =>
    rw [List.cons_append, feed, feed, ih]
    split_ifs <;> rfl

/-- The scan goes on as long as no marker was whole. -/
theorem feed_spec (nonempty : l.toolPrefix ≠ []) (text : List Byte) {n : Nat}
    (le : n ≤ text.length) :
    (∀ s, l.feed start (text.take n) = some s → Follows l (text.take n) s) ∧
      ((l.feed start (text.take n)).isSome = true ↔ ∀ k ≤ n,
        ¬explicitEnd <:+ text.take k ∧ ¬Calls l.toolPrefix (text.take k)) := by
  induction n with
  | zero =>
    refine ⟨fun s same => ?_, fun _ k none => ?_, fun _ => rfl⟩
    · cases same
      exact follows_start l
    · cases Nat.le_zero.mp none
      refine ⟨fun ends => absurd (List.suffix_nil.mp ends) (List.cons_ne_nil _ _), ?_⟩
      rintro ⟨front, whole, -⟩
      exact nonempty (List.append_eq_nil_iff.mp whole.symm).2
  | succ n ih =>
    obtain ⟨follows, going⟩ := ih (by omega)
    rw [List.take_succ_eq_append_getElem (by omega : n < text.length), feed_concat]
    cases before : l.feed start (text.take n) with
    | none =>
      rw [before] at going
      refine ⟨fun s same => (by cases same), fun some => (by cases some), fun all => ?_⟩
      cases going.mpr fun k le => all k (by omega)
    | some s =>
      have known := follows s before
      obtain ⟨goes, next⟩ := known.goes_on nonempty text[n]
      rw [before] at going
      have past := going.mp rfl
      rw [Option.bind_some]
      constructor
      · intro s' same
        split_ifs at same with on
        cases same
        exact next on
      · have last : text.take n ++ [text[n]] = text.take (n + 1) :=
          (List.take_succ_eq_append_getElem (by omega)).symm
        rw [last] at goes
        constructor
        · intro some k le'
          split_ifs at some with on
          · by_cases here : k = n + 1
            · exact here ▸ goes.mp on
            · exact past k (by omega)
          · cases some
        · intro all
          rw [if_pos (goes.mpr (all (n + 1) (Nat.le_refl _)))]
          rfl

/-- The lexeme leaves reasoning for a call at the first marker of one outside of quotes, unless
the end of reasoning was spelled before. -/
theorem completesAt_iff (nonempty : l.toolPrefix ≠ []) (tool : l.end_ = .kTool)
    (text : List Byte) (stop : Nat) :
    l.CompletesAt text stop ↔ stop ≤ text.length ∧ Calls l.toolPrefix (text.take stop) ∧
      (∀ k ≤ stop, ¬explicitEnd <:+ text.take k) ∧
      ∀ k < stop, ¬Calls l.toolPrefix (text.take k) := by
  constructor
  · rintro ⟨n, s, byte, rfl, before, here, completes⟩
    obtain ⟨lt, rfl⟩ := List.getElem?_eq_some_iff.mp here
    obtain ⟨follows, going⟩ := feed_spec nonempty text (Nat.le_of_lt lt)
    have past := going.mp (by rw [before]; rfl)
    obtain ⟨plain, calls⟩ := ((follows s before).completes nonempty tool _).mp completes
    rw [← List.take_succ_eq_append_getElem lt] at plain calls
    refine ⟨lt, calls, fun k le => ?_, fun k lt' => (past k (by omega)).2⟩
    by_cases last : k = n + 1
    · exact last ▸ plain
    · exact (past k (by omega)).1
  · rintro ⟨le, calls, plain, first⟩
    have some : stop ≠ 0 := by
      rintro rfl
      obtain ⟨front, whole, -⟩ := calls
      exact nonempty (List.append_eq_nil_iff.mp whole.symm).2
    obtain ⟨n, rfl⟩ := Nat.exists_eq_succ_of_ne_zero some
    obtain ⟨follows, going⟩ := @feed_spec l nonempty text n (by omega)
    have going := going.mpr fun k le => ⟨plain k (by omega), first k (by omega)⟩
    obtain ⟨s, before⟩ := Option.isSome_iff_exists.mp going
    have lt : n < text.length := by omega
    refine ⟨n, s, text[n], rfl, before, List.getElem?_eq_getElem lt, ?_⟩
    refine ((follows s before).completes nonempty tool _).mpr ?_
    rw [← List.take_succ_eq_append_getElem lt]
    exact ⟨plain _ (Nat.le_refl _), calls⟩

end

end ReasoningLexeme
end Gufo.Serve
