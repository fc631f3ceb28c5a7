import Gufo.Lib.LowerBound
import Mathlib.Data.List.GetD

/-!
# Quoted prose

Inline code and code fences are tracked as the text arrives, so that a marker that is only
talked about is not taken for a call.
-/

namespace Gufo.Serve

abbrev Byte := UInt8

def backtick : Byte := 96
def tilde : Byte := 126
def newline : Byte := 10

/-- A space, a tab or a carriage return. -/
def blank (byte : Byte) : Bool := byte == 32 || byte == 9 || byte == 13

structure Span where
  start : Nat
  stop : Nat
deriving DecidableEq

/-- What is known of the quotes behind the bytes read so far. -/
structure Quotes where
  spans : List Span
  unfinishedInline : List Span
  firstNonblank : Option Nat
  runBegin : Nat
  runSize : Nat
  runChar : Byte
  inlineBegin : Nat
  inlineSize : Nat
  fenceBegin : Nat
  fenceSize : Nat
  fenceChar : Byte
  closeBegin : Nat
  closingFence : Bool
deriving DecidableEq

namespace Quotes

def atLineStart (q : Quotes) (position : Nat) : Bool := q.firstNonblank == some position

def flushRun (q : Quotes) : Quotes :=
  if q.runSize = 0 then q
  else if 0 < q.fenceSize then
    if q.runChar = q.fenceChar ∧ q.fenceSize ≤ q.runSize ∧ q.atLineStart q.runBegin = true then
      { q with closingFence := true, closeBegin := q.runBegin, runSize := 0 }
    else { q with runSize := 0 }
  else if q.inlineSize = 0 ∧ 3 ≤ q.runSize ∧ q.atLineStart q.runBegin = true then
    { q with
      fenceChar := q.runChar
      fenceSize := q.runSize
      fenceBegin := q.runBegin + q.runSize
      runSize := 0 }
  else if q.runChar = backtick then
    if q.inlineSize = 0 then
      { q with inlineSize := q.runSize, inlineBegin := q.runBegin + q.runSize, runSize := 0 }
    else if q.runSize = q.inlineSize then
      { q with spans := q.spans ++ [⟨q.inlineBegin, q.runBegin⟩], inlineSize := 0, runSize := 0 }
    else { q with runSize := 0 }
  else { q with runSize := 0 }

/-- A byte that is not blank may be the first one of its line. -/
def notice (q : Quotes) (cursor : Nat) (byte : Byte) : Quotes :=
  if q.firstNonblank = none ∧ blank byte = false ∧ byte ≠ newline then
    { q with firstNonblank := some cursor }
  else q

/-- One more delimiter. -/
def delimit (q : Quotes) (cursor : Nat) (byte : Byte) : Quotes :=
  let q := if q.runSize ≠ 0 ∧ q.runChar ≠ byte then q.flushRun else q
  let q := if q.runSize = 0 then { q with runBegin := cursor, runChar := byte } else q
  { q with runSize := q.runSize + 1 }

/-- A line that only closes the fence ends it. -/
def closeFence (q : Quotes) : Quotes :=
  if 0 < q.fenceSize ∧ q.closingFence = true then
    { q with spans := q.spans ++ [⟨q.fenceBegin, q.closeBegin⟩], fenceSize := 0, fenceChar := 0 }
  else q

/-- A blank line ends inline code that is unfinished. -/
def endInline (q : Quotes) (cursor : Nat) : Quotes :=
  if 0 < q.inlineSize ∧ q.firstNonblank = none then
    { q with
      unfinishedInline := q.unfinishedInline ++ [⟨q.inlineBegin, cursor⟩]
      inlineSize := 0 }
  else q

/-- The end of a line. -/
def endLine (q : Quotes) (cursor : Nat) : Quotes :=
  { q.closeFence.endInline cursor with closingFence := false, firstNonblank := none }

/-- `Read`. -/
def read (q : Quotes) (cursor : Nat) (byte : Byte) : Quotes :=
  let q := q.notice cursor byte
  if byte = backtick ∨ byte = tilde then q.delimit cursor byte
  else
    let q := q.flushRun
    if byte = newline then q.endLine cursor
    else if blank byte = false then { q with closingFence := false }
    else q

/-- The bytes from a place on, one after another. -/
def feed (q : Quotes) (cursor : Nat) : List Byte → Quotes
  | [] => q
  | byte :: rest => (q.read cursor byte).feed (cursor + 1) rest

/-- The last span that does not start behind the position holds it. -/
def within (spans : List Span) (position : Nat) : Bool :=
  let next := LowerBound.lowerBound (fun span : Span => decide (span.start ≤ position)) spans
  decide (next ≠ 0) && (spans[next - 1]?).any fun span => decide (position < span.stop)

def quotedAt (q : Quotes) (position : Nat) : Bool :=
  within q.spans position ||
    if 0 < q.fenceSize then
      (q.closingFence && decide (q.fenceBegin ≤ position) && decide (position < q.closeBegin)) ||
        (decide (q.fenceSize ≤ q.runSize) && q.runChar == q.fenceChar &&
          q.atLineStart q.runBegin && decide (q.fenceBegin ≤ position) &&
          decide (position < q.runBegin))
    else
      decide (0 < q.inlineSize) && q.runChar == backtick && decide (q.runSize = q.inlineSize) &&
        decide (q.inlineBegin ≤ position) && decide (position < q.runBegin)

def unclosedAt (q : Quotes) (position : Nat) : Bool :=
  !q.quotedAt position &&
    (decide (0 < q.fenceSize ∧ q.fenceBegin ≤ position ∨
      0 < q.inlineSize ∧ q.inlineBegin ≤ position) || within q.unfinishedInline position)

end Quotes

structure QuoteTracker extends Quotes where
  text : List Byte
  bytesScanned : Nat
deriving DecidableEq

namespace QuoteTracker

/-- A tracker that was not reset yet. -/
def empty : QuoteTracker := ⟨⟨[], [], none, 0, 0, 0, 0, 0, 0, 0, 0, 0, false⟩, [], 0⟩

/-- `Append`: the loop over the places of the new bytes. -/
def append (t : QuoteTracker) (piece : List Byte) : QuoteTracker :=
  let text := t.text ++ piece
  { t with
    text
    bytesScanned := t.bytesScanned + piece.length
    toQuotes := (List.range' t.text.length piece.length).foldl
      (fun q cursor => q.read cursor (text.getD cursor 0)) t.toQuotes }

/-- `Reset`. The bytes before the origin do not count. -/
def reset (t : QuoteTracker) (text : List Byte) (origin : Nat) : QuoteTracker :=
  let origin := min origin text.length
  append { t with
    text := List.replicate origin 32
    spans := []
    unfinishedInline := []
    firstNonblank := none
    runBegin := 0
    runSize := 0
    runChar := 0
    inlineSize := 0
    fenceSize := 0
    fenceChar := 0
    closingFence := false } (text.drop origin)

/-! ## Pieces -/

theorem foldl_read (q : Quotes) (text front piece : List Byte)
    (reads : front ++ piece <+: text) :
    (List.range' front.length piece.length).foldl
      (fun q cursor => q.read cursor (text.getD cursor 0)) q = q.feed front.length piece := by
  induction piece generalizing q front with
  | nil => rfl
  | cons byte rest ih =>
    have here : text.getD front.length 0 = byte := by
      obtain ⟨more, rfl⟩ := reads
      rw [List.append_assoc, List.getD_append_right _ _ _ _ (Nat.le_refl _), Nat.sub_self]
      rfl
    have next := ih (q.read front.length byte) (front ++ [byte])
      (by rwa [List.append_assoc, List.singleton_append])
    rw [List.length_append, List.length_singleton] at next
    rw [List.length_cons, List.range'_succ, List.foldl_cons, here, Quotes.feed]
    exact next

theorem append_eq (t : QuoteTracker) (piece : List Byte) :
    t.append piece = ⟨t.toQuotes.feed t.text.length piece, t.text ++ piece,
      t.bytesScanned + piece.length⟩ := by
  have reads := foldl_read t.toQuotes (t.text ++ piece) t.text piece (List.prefix_refl _)
  simp only [append, reads]

theorem feed_append (q : Quotes) (cursor : Nat) (bytes more : List Byte) :
    q.feed cursor (bytes ++ more) = (q.feed cursor bytes).feed (cursor + bytes.length) more := by
  induction bytes generalizing q cursor with
  | nil => rfl
  | cons byte rest ih =>
    rw [List.cons_append, Quotes.feed, Quotes.feed, ih, List.length_cons]
    congr 1
    omega

theorem append_append (t : QuoteTracker) (piece more : List Byte) :
    (t.append piece).append more = t.append (piece ++ more) := by
  rw [append_eq, append_eq, append_eq, feed_append]
  simp [Nat.add_assoc]

/-- However the text is cut, the pieces leave what the whole leaves. -/
theorem append_pieces (t : QuoteTracker) (pieces : List (List Byte)) :
    pieces.foldl append (t.reset [] 0) = t.reset pieces.flatten 0 := by
  have all : ∀ (t : QuoteTracker) (piece : List Byte),
      pieces.foldl append (t.append piece) = t.append (piece ++ pieces.flatten) := by
    induction pieces with
    | nil => intro t piece; rw [List.foldl_nil, List.flatten_nil, List.append_nil]
    | cons first rest ih =>
      intro t piece
      rw [List.foldl_cons, append_append, ih, List.flatten_cons, List.append_assoc]
  exact all _ []

end QuoteTracker
end Gufo.Serve
