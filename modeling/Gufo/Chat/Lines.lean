import Gufo.Chat.Control

/-!
# The lines of a prompt

A prompt keeps control tokens off copied text exactly where each of its lines does. Of the
lines that hold copied text, most are safe by themselves: a text without a special spelling
that stands between line ends, and one with a special spelling, which is cut out.
-/

namespace Gufo.Chat
open Gufo.Text Gufo.ToolCall Gufo.ToolCall.Qwen Gufo.Marked

/-- Whether each byte of the fragments was copied from a message. -/
def copied (f : Fragment) : List Bool :=
  List.replicate f.text.length (decide (f.writer ≠ .framing))

def copiedOf (fs : List Fragment) : List Bool := fs.flatMap copied

/-- No byte is both spanned by a special token and copied from a message. -/
def Apart (control copied : List Bool) : Prop := ∀ p ∈ control.zip copied, p ≠ (true, true)

instance (control copied : List Bool) : Decidable (Apart control copied) :=
  inferInstanceAs (Decidable (∀ p ∈ control.zip copied, p ≠ (true, true)))

theorem apart_append {a a' b b' : List Bool} (length : a.length = a'.length) :
    Apart (a ++ b) (a' ++ b') ↔ Apart a a' ∧ Apart b b' := by
  unfold Apart
  rw [List.zip_append length]
  exact List.forall_mem_append

theorem apart_cons_false (x : Bool) (a b : List Bool) :
    Apart (false :: a) (x :: b) ↔ Apart a b := by
  simp [Apart]

theorem apart_of_control {n : Nat} (b : List Bool) : Apart (List.replicate n false) b := by
  intro p hp
  have first := (List.of_mem_zip hp).1
  have := List.eq_of_mem_replicate first
  rintro rfl
  cases this

theorem apart_of_copied {n : Nat} (a : List Bool) : Apart a (List.replicate n false) := by
  intro p hp
  have second := (List.of_mem_zip hp).2
  have := List.eq_of_mem_replicate second
  rintro rfl
  cases this

section
variable (tokenizer : QwenTokenizer)

/-- Special tokens span no copied byte of the fragments, read by themselves. -/
def Kept (fs : List Fragment) : Prop :=
  Apart (marks (words tokenizer) (fs.flatMap (symbols tokenizer))) (copiedOf fs)

variable {tokenizer}

theorem symbols_length (f : Fragment) : (symbols tokenizer f).length = f.text.length := by
  unfold symbols
  split <;> simp

theorem flatMap_symbols_length (fs : List Fragment) :
    (fs.flatMap (symbols tokenizer)).length = (copiedOf fs).length := by
  induction fs with
  | nil => rfl
  | cons f fs ih =>
    unfold copiedOf at ih ⊢
    rw [List.flatMap_cons, List.flatMap_cons, List.length_append, List.length_append, ih,
      symbols_length, copied, List.length_replicate]

@[simp] theorem symbols_framing (text : Bytes) :
    symbols tokenizer (framing text) = text.map some := rfl

theorem copied_framing (text : Bytes) :
    copied (framing text) = List.replicate text.length false := rfl

theorem copiedOf_append (fs gs : List Fragment) :
    copiedOf (fs ++ gs) = copiedOf fs ++ copiedOf gs := List.flatMap_append

theorem copiedOf_cons (f : Fragment) (fs : List Fragment) :
    copiedOf (f :: fs) = copied f ++ copiedOf fs := rfl

/-- The words hold no line end. -/
def LineFree (tokenizer : QwenTokenizer) : Prop := ∀ w ∈ tokenizer.spellings, (10 : UInt8) ∉ w

theorem LineFree.words (free : LineFree tokenizer) : ∀ w ∈ words tokenizer, some 10 ∉ w := by
  intro w mem
  obtain ⟨v, hv, rfl⟩ := List.mem_map.mp mem
  simpa using free v hv

/-- A line end in the framing divides the question. -/
theorem kept_line (free : LineFree tokenizer) (fs gs : List Fragment) (a b : Bytes) :
    Kept tokenizer (fs ++ framing (a ++ newline ++ b) :: gs) ↔
      Kept tokenizer (fs ++ [framing a]) ∧ Kept tokenizer (framing b :: gs) := by
  have line : newline = [10] := by decide
  unfold Kept
  have text : (fs ++ framing (a ++ newline ++ b) :: gs).flatMap (symbols tokenizer) =
      (fs ++ [framing a]).flatMap (symbols tokenizer) ++
        some 10 :: (framing b :: gs).flatMap (symbols tokenizer) := by
    simp [line]
  have labels : copiedOf (fs ++ framing (a ++ newline ++ b) :: gs) =
      copiedOf (fs ++ [framing a]) ++ false :: copiedOf (framing b :: gs) := by
    simp only [copiedOf_append, copiedOf_cons, copied_framing, line, List.length_append,
      List.length_singleton, List.append_assoc, ← List.replicate_append_replicate]
    rfl
  rw [text, labels, marks_separator free.words, apart_append, apart_cons_false]
  rw [marks_length, flatMap_symbols_length]

/-- Fragments without text change nothing. -/
theorem kept_congr {fs gs : List Fragment}
    (same : fs.filter (fun f => f.text ≠ []) = gs.filter fun f => f.text ≠ []) :
    Kept tokenizer fs ↔ Kept tokenizer gs := by
  have drop : ∀ fs : List Fragment,
      (fs.filter fun f => f.text ≠ []).flatMap (symbols tokenizer) =
        fs.flatMap (symbols tokenizer) ∧
      copiedOf (fs.filter fun f => f.text ≠ []) = copiedOf fs := by
    intro fs
    induction fs with
    | nil => exact ⟨rfl, rfl⟩
    | cons f fs ih =>
      by_cases empty : f.text = []
      · rw [List.filter_cons_of_neg (by simpa using empty), List.flatMap_cons, copiedOf_cons, ih.1,
          ih.2]
        simp [symbols, copied, empty]
      · rw [List.filter_cons_of_pos (by simpa using empty), List.flatMap_cons, List.flatMap_cons,
          copiedOf_cons, copiedOf_cons, ih.1, ih.2]
        exact ⟨rfl, rfl⟩
  unfold Kept
  rw [← (drop fs).1, ← (drop fs).2, ← (drop gs).1, ← (drop gs).2, same]

theorem kept_framings {fs : List Fragment} (all : ∀ f ∈ fs, f.text ≠ [] → f.writer = .framing) :
    Kept tokenizer fs := by
  have labels : copiedOf fs = List.replicate (copiedOf fs).length false := by
    refine List.eq_replicate_of_mem fun x hx => ?_
    obtain ⟨f, hf, mem⟩ := List.mem_flatMap.mp hx
    have value := List.eq_of_mem_replicate mem
    have nonempty : f.text ≠ [] := by
      intro empty
      simp [copied, empty] at mem
    rw [value, all f hf nonempty]
    rfl
  unfold Kept
  rw [labels]
  exact apart_of_copied _

@[simp] theorem kept_nil : Kept tokenizer [] := kept_framings (by simp)

theorem kept_of_framing (text : Bytes) : Kept tokenizer [framing text] :=
  kept_framings (by simp [framing])

/-- A text between line ends: without a special spelling nothing is spanned, and with one it is
hidden from the scan. -/
theorem kept_text (text : Bytes) : Kept tokenizer [appendContent text] := by
  unfold Kept
  have none : marks (words tokenizer) ([appendContent text].flatMap (symbols tokenizer)) =
      List.replicate text.length false := by
    rw [List.flatMap_singleton]
    by_cases cut : isCut tokenizer (appendContent text) = true
    · have hidden : symbols tokenizer (appendContent text) =
          List.replicate text.length Option.none := if_pos cut
      have all := marks_separators (@free_none tokenizer) text.length []
      rw [List.append_nil] at all
      rw [hidden, all]
      exact List.append_nil _
    · have plain : symbols tokenizer (appendContent text) = text.map some := if_neg cut
      rw [plain, marks_some, marks_eq_false]
      intro j inside w mem here
      obtain ⟨token, htoken, rfl⟩ := List.mem_map.mp mem
      obtain ⟨i, -, found⟩ := find_le inside.le here
      refine absurd (decide_eq_true ⟨rfl, ?_⟩) cut
      have own : (appendContent text).text = text := rfl
      exact List.any_eq_true.mpr ⟨token, htoken, by rw [own, found]; rfl⟩
  rw [none]
  exact apart_of_control _

/-- The fragments end with a line end, or there are none: what follows is a question of its own. -/
def Lined (tokenizer : QwenTokenizer) (fs : List Fragment) : Prop :=
  ∀ gs, Kept tokenizer (fs ++ gs) ↔ Kept tokenizer fs ∧ Kept tokenizer gs

theorem lined_nil : Lined tokenizer [] := fun gs => by
  simp

theorem kept_empty (gs : List Fragment) :
    Kept tokenizer (framing [] :: gs) ↔ Kept tokenizer gs :=
  kept_congr (List.filter_cons_of_neg (by simp [framing]))

theorem lined_end (free : LineFree tokenizer) (fs : List Fragment) (a : Bytes) :
    Lined tokenizer (fs ++ [framing (a ++ newline)]) := by
  intro gs
  have cut := kept_line free fs gs a []
  have last := kept_line free fs [] a []
  rw [List.append_nil] at cut last
  rw [List.append_assoc, List.singleton_append, cut, kept_empty, last, kept_empty]
  simp

/-- The last line of the fragments, and what stands behind its end. -/
theorem kept_end (free : LineFree tokenizer) (fs : List Fragment) (a : Bytes) :
    Kept tokenizer (fs ++ [framing (a ++ newline)]) ↔ Kept tokenizer (fs ++ [framing a]) := by
  have last := kept_line free fs [] a []
  rw [List.append_nil] at last
  rw [last, kept_empty]
  simp

/-- A line of framing is passed over. -/
theorem kept_opening (free : LineFree tokenizer) (a : Bytes) (gs : List Fragment) :
    Kept tokenizer (framing (a ++ newline) :: gs) ↔ Kept tokenizer gs := by
  have cut := kept_line free [] gs a []
  rw [List.append_nil, List.nil_append, List.nil_append, kept_empty] at cut
  rw [cut]
  simp [kept_of_framing]

end

end Gufo.Chat
