import Gufo.Serve.Utf8
import Gufo.Lib.LowerBound

/-!
# Where a token stands in the text

Log-probabilities come with tokens, text goes out in pieces, and both only agree on the bytes of
the decoded output. A token is mapped while its bytes are decoded: from where the scalar of its
first byte starts to where that of its last byte stops.
-/

namespace Gufo.Serve
open Gufo.LowerBound

/-! ## The tokens and their places -/

structure TokenPiece (ν : Type) where
  text : List UInt8
  logprobs : Option ν

/-- A range in the decoded, unfiltered output. -/
structure TextSourceSpan where
  first : Nat
  size : Nat
deriving DecidableEq

/-- `textBegin` and `textEnd` are `begin` and `end`. -/
structure Token (ν : Type) where
  inputBegin : Nat
  inputEnd : Nat
  values : ν
  textBegin : Nat := 0
  textEnd : Nat := 0
  mapped : Bool := false
  emitted : Bool := false
deriving DecidableEq

structure ResponsesLogprobs (ν : Type) where
  decoder : Utf8Decoder
  tokens : List (Token ν)
  inputBytes : Nat
  consumedBytes : Nat
  decodedBytes : Nat
  mapped : Nat
deriving DecidableEq

namespace ResponsesLogprobs
variable {ν : Type}

def start : ResponsesLogprobs ν := ⟨.start, [], 0, 0, 0, 0⟩

def markOne (stop decoded output : Nat) (t : Token ν) : Token ν :=
  if t.inputBegin < stop then
    { t with
      textBegin := if t.mapped then t.textBegin else decoded
      textEnd := decoded + output
      mapped := true }
  else t

/-- The loop from the first token that is not wholly mapped. -/
def mark (stop decoded output : Nat) : List (Token ν) → List (Token ν)
  | [] => []
  | t :: rest =>
    if t.inputBegin < stop then markOne stop decoded output t :: mark stop decoded output rest
    else t :: rest

/-- What the decoder calls with the input and output bytes of a scalar. -/
def observe (s : ResponsesLogprobs ν) (call : Nat × Nat) : ResponsesLogprobs ν :=
  let stop := s.consumedBytes + call.1
  let tokens := s.tokens.take s.mapped ++ mark stop s.decodedBytes call.2 (s.tokens.drop s.mapped)
  let passed := ((tokens.drop s.mapped).takeWhile fun t => decide (t.inputEnd ≤ stop)).length
  { s with
    tokens
    mapped := s.mapped + passed
    consumedBytes := stop
    decodedBytes := s.decodedBytes + call.2 }

/-- The token of a piece, behind so many bytes of input. -/
def tokenOf (inputBytes : Nat) (piece : TokenPiece ν) : List (Token ν) :=
  match piece.logprobs with
  | some values =>
    if piece.text = [] then []
    else [{ inputBegin := inputBytes, inputEnd := inputBytes + piece.text.length, values }]
  | none => []

/-- The piece is there, and the decoder has not reported on it yet. -/
def arrive (s : ResponsesLogprobs ν) (piece : TokenPiece ν) (decoder : Utf8Decoder) :
    ResponsesLogprobs ν :=
  { s with
    decoder
    tokens := s.tokens ++ tokenOf s.inputBytes piece
    inputBytes := s.inputBytes + piece.text.length }

def push (s : ResponsesLogprobs ν) (piece : TokenPiece ν) (final : Bool) : ResponsesLogprobs ν :=
  let (pushed, decoder) := s.decoder.push piece.text final
  pushed.calls.foldl observe (s.arrive piece decoder)

/-- One past the last token of which some byte is decoded. -/
def mappedEnd (s : ResponsesLogprobs ν) : Nat :=
  s.mapped + if (s.tokens[s.mapped]?).any Token.mapped then 1 else 0

/-- The loop over the tokens of a span, from index `i` on: the ones returned, with their index,
and all of them as they are left. -/
def emit (stop i : Nat) : List (Token ν) → List (Nat × ν) × List (Token ν)
  | [] => ([], [])
  | t :: rest =>
    if t.textBegin < stop then
      let (returned, left) := emit stop (i + 1) rest
      if t.emitted then (returned, t :: left)
      else ((i, t.values) :: returned, { t with emitted := true } :: left)
    else ([], t :: rest)

def takeSpan (s : ResponsesLogprobs ν) (span : TextSourceSpan) :
    List (Nat × ν) × ResponsesLogprobs ν :=
  if span.size = 0 then ([], s)
  else
    let reached := s.tokens.take s.mappedEnd
    let it := lowerBound (fun t => decide (t.textEnd ≤ span.first)) reached
    let (returned, left) := emit (span.first + span.size) it (reached.drop it)
    (returned, { s with tokens := reached.take it ++ left ++ s.tokens.drop s.mappedEnd })

/-- `Take`: the values of the tokens that it renders, each with the token's index. -/
def take (s : ResponsesLogprobs ν) : List TextSourceSpan → List (Nat × ν) × ResponsesLogprobs ν
  | [] => ([], s)
  | span :: rest =>
    let (returned, s') := s.takeSpan span
    let (more, last) := s'.take rest
    (returned ++ more, last)

/-! ## Places in the output -/

def consumedBy (calls : List (Nat × Nat)) : Nat := (calls.map Prod.fst).sum
def producedBy (calls : List (Nat × Nat)) : Nat := (calls.map Prod.snd).sum

/-- Where in the output the scalar of an input byte starts. -/
def startOf : List (Nat × Nat) → Nat → Nat
  | [], _ => 0
  | (input, output) :: rest, i => if i < input then 0 else output + startOf rest (i - input)

/-- Where in the output it stops. -/
def stopOf : List (Nat × Nat) → Nat → Nat
  | [], _ => 0
  | (input, output) :: rest, i => if i < input then output else output + stopOf rest (i - input)

section
variable {calls : List (Nat × Nat)} {i j : Nat}

theorem startOf_mono (le : i ≤ j) : startOf calls i ≤ startOf calls j := by
  induction calls generalizing i j with
  | nil => exact Nat.le_refl _
  | cons call rest ih =>
    simp only [startOf]
    have := @ih (i - call.1) (j - call.1) (by omega)
    split <;> split <;> omega

theorem stopOf_mono (le : i ≤ j) : stopOf calls i ≤ stopOf calls j := by
  induction calls generalizing i j with
  | nil => exact Nat.le_refl _
  | cons call rest ih =>
    simp only [stopOf]
    have := @ih (i - call.1) (j - call.1) (by omega)
    split <;> split <;> omega

theorem startOf_append (more : List (Nat × Nat)) (inside : i < consumedBy calls) :
    startOf (calls ++ more) i = startOf calls i := by
  induction calls generalizing i with
  | nil => simp [consumedBy] at inside
  | cons call rest ih =>
    simp only [consumedBy, List.map_cons, List.sum_cons] at inside
    simp only [List.cons_append, startOf]
    split
    · rfl
    · rw [ih (by unfold consumedBy; omega)]

theorem stopOf_append (more : List (Nat × Nat)) (inside : i < consumedBy calls) :
    stopOf (calls ++ more) i = stopOf calls i := by
  induction calls generalizing i with
  | nil => simp [consumedBy] at inside
  | cons call rest ih =>
    simp only [consumedBy, List.map_cons, List.sum_cons] at inside
    simp only [List.cons_append, stopOf]
    split
    · rfl
    · rw [ih (by unfold consumedBy; omega)]

theorem startOf_behind (more : List (Nat × Nat)) (behind : consumedBy calls ≤ i) :
    startOf (calls ++ more) i = producedBy calls + startOf more (i - consumedBy calls) := by
  induction calls generalizing i with
  | nil => simp [consumedBy, producedBy]
  | cons call rest ih =>
    simp only [consumedBy, producedBy, List.map_cons, List.sum_cons] at behind ih ⊢
    simp only [List.cons_append, startOf]
    rw [if_neg (by omega), ih (by omega), Nat.sub_sub, Nat.add_assoc]

theorem stopOf_behind (more : List (Nat × Nat)) (behind : consumedBy calls ≤ i) :
    stopOf (calls ++ more) i = producedBy calls + stopOf more (i - consumedBy calls) := by
  induction calls generalizing i with
  | nil => simp [consumedBy, producedBy]
  | cons call rest ih =>
    simp only [consumedBy, producedBy, List.map_cons, List.sum_cons] at behind ih ⊢
    simp only [List.cons_append, stopOf]
    rw [if_neg (by omega), ih (by omega), Nat.sub_sub, Nat.add_assoc]

/-- What is not decoded yet stands at the end. -/
theorem startOf_end (behind : consumedBy calls ≤ i) : startOf calls i = producedBy calls := by
  have := startOf_behind [] behind
  rwa [List.append_nil, startOf, Nat.add_zero] at this

theorem stopOf_end (behind : consumedBy calls ≤ i) : stopOf calls i = producedBy calls := by
  have := stopOf_behind [] behind
  rwa [List.append_nil, stopOf, Nat.add_zero] at this

theorem startOf_lt (positive : ∀ call ∈ calls, 0 < call.2) (inside : i < consumedBy calls) :
    startOf calls i < stopOf calls i := by
  induction calls generalizing i with
  | nil => simp [consumedBy] at inside
  | cons call rest ih =>
    simp only [consumedBy, List.map_cons, List.sum_cons] at inside
    have first := positive call List.mem_cons_self
    simp only [startOf, stopOf]
    split
    · exact first
    · have := ih (fun c hc => positive c (List.mem_cons_of_mem call hc))
        (by unfold consumedBy; omega : i - call.1 < consumedBy rest)
      omega

end

theorem consumedBy_append (a b : List (Nat × Nat)) :
    consumedBy (a ++ b) = consumedBy a + consumedBy b := by
  simp [consumedBy]

theorem producedBy_append (a b : List (Nat × Nat)) :
    producedBy (a ++ b) = producedBy a + producedBy b := by
  simp [producedBy]

/-! ## The tokens keep to their places -/

/-- A token is mapped as far as its bytes are decoded. -/
structure Placed (calls : List (Nat × Nat)) (t : Token ν) : Prop where
  mapped : t.mapped = decide (t.inputBegin < consumedBy calls)
  first : t.mapped = true → t.textBegin = startOf calls t.inputBegin
  last : t.mapped = true → t.textEnd = stopOf calls (t.inputEnd - 1)

/-- Whose bytes come before those of the other. -/
def Before (a b : Token ν) : Prop := a.inputEnd ≤ b.inputBegin

structure Aligned (calls : List (Nat × Nat)) (s : ResponsesLogprobs ν) : Prop where
  consumed : s.consumedBytes = consumedBy calls
  decoded : s.decodedBytes = producedBy calls
  nonempty : ∀ t ∈ s.tokens, t.inputBegin < t.inputEnd
  ordered : s.tokens.Pairwise Before
  placed : ∀ t ∈ s.tokens, Placed calls t
  passed : ∃ done rest, s.tokens = done ++ rest ∧ done.length = s.mapped ∧
    (∀ t ∈ done, t.inputEnd ≤ s.consumedBytes) ∧ ∀ t ∈ rest, s.consumedBytes < t.inputEnd

section
variable {calls : List (Nat × Nat)} {call : Nat × Nat}

theorem markOne_keeps (stop decoded output : Nat) (t : Token ν) :
    (markOne stop decoded output t).inputBegin = t.inputBegin ∧
      (markOne stop decoded output t).inputEnd = t.inputEnd ∧
      (markOne stop decoded output t).values = t.values ∧
      (markOne stop decoded output t).emitted = t.emitted := by
  unfold markOne
  split <;> exact ⟨rfl, rfl, rfl, rfl⟩

variable {l : List (Token ν)}

theorem mark_eq {stop decoded output : Nat}
    (sorted : l.Pairwise fun a b => a.inputBegin ≤ b.inputBegin) :
    mark stop decoded output l = l.map (markOne stop decoded output) := by
  induction l with
  | nil => rfl
  | cons t rest ih =>
    obtain ⟨low, sorted⟩ := List.pairwise_cons.mp sorted
    unfold mark
    split
    · rw [ih sorted, List.map_cons]
    · have same : ∀ u ∈ t :: rest, markOne stop decoded output u = id u := by
        intro u hu
        have from_t : t.inputBegin ≤ u.inputBegin := by
          cases List.mem_cons.mp hu with
          | inl eq => exact Nat.le_of_eq (by rw [eq])
          | inr hu => exact low u hu
        unfold markOne
        rw [if_neg (by omega)]
        rfl
      rw [List.map_congr_left same, List.map_id]

theorem sorted_begin (nonempty : ∀ t ∈ l, t.inputBegin < t.inputEnd)
    (ordered : l.Pairwise Before) : l.Pairwise fun a b => a.inputBegin ≤ b.inputBegin := by
  refine ordered.imp_of_mem fun {a b} ha _ before => ?_
  have := nonempty a ha
  unfold Before at before
  omega

theorem sorted_end (nonempty : ∀ t ∈ l, t.inputBegin < t.inputEnd)
    (ordered : l.Pairwise Before) : l.Pairwise fun a b => a.inputEnd ≤ b.inputEnd := by
  refine ordered.imp_of_mem fun {a b} _ hb before => ?_
  have := nonempty b hb
  unfold Before at before
  omega

/-- A token whose bytes were all decoded stays where it is. -/
theorem Placed.stays {t : Token ν} (h : Placed calls t) (nonempty : t.inputBegin < t.inputEnd)
    (more : List (Nat × Nat)) (whole : t.inputEnd ≤ consumedBy calls) :
    Placed (calls ++ more) t := by
  refine ⟨?_, fun mapped => ?_, fun mapped => ?_⟩
  · rw [h.mapped, consumedBy_append, decide_eq_true (by omega), decide_eq_true (by omega)]
  · rw [h.first mapped, startOf_append more (by omega)]
  · rw [h.last mapped, stopOf_append more (by omega)]

/-- The others grow by the scalar. -/
theorem Placed.marked {t : Token ν} (h : Placed calls t)
    (open_ : consumedBy calls < t.inputEnd) :
    Placed (calls ++ [call])
      (markOne (consumedBy calls + call.1) (producedBy calls) call.2 t) := by
  have total : consumedBy (calls ++ [call]) = consumedBy calls + call.1 := by
    simp [consumedBy]
  unfold markOne
  split
  · rename_i reached
    refine ⟨?_, fun _ => ?_, fun _ => ?_⟩
    · simp [total, reached]
    · simp only
      split
      · rename_i before
        rw [h.mapped, decide_eq_true_eq] at before
        rw [h.first (by rw [h.mapped, decide_eq_true before]), startOf_append _ before]
      · rename_i fresh
        rw [h.mapped, decide_eq_true_eq] at fresh
        rw [startOf_behind _ (by omega), startOf, if_pos (by omega), Nat.add_zero]
    · simp only
      rw [stopOf_behind _ (by omega), stopOf]
      split
      · rfl
      · rfl
  · rename_i behind
    have unmapped : t.mapped = false := by
      rw [h.mapped, decide_eq_false (by omega)]
    refine ⟨?_, fun mapped => ?_, fun mapped => ?_⟩
    · rw [unmapped, total, decide_eq_false behind]
    · rw [unmapped] at mapped
      cases mapped
    · rw [unmapped] at mapped
      cases mapped

theorem dropWhile_none {α : Type} {p : α → Bool} {l : List α}
    (sorted : l.Pairwise fun a b => p b = true → p a = true) :
    ∀ a ∈ l.dropWhile p, p a = false := by
  induction l with
  | nil => simp
  | cons a l ih =>
    obtain ⟨first, sorted⟩ := List.pairwise_cons.mp sorted
    rw [List.dropWhile_cons]
    split
    · exact ih sorted
    · rename_i fails
      intro b hb
      cases List.mem_cons.mp hb with
      | inl eq => rw [eq]; simpa using fails
      | inr hb =>
        by_contra holds
        exact fails (first b hb (by simpa using holds))

/-- What a token is, apart from where it stands in the output. -/
def Token.source (t : Token ν) : Nat × Nat × ν × Bool :=
  (t.inputBegin, t.inputEnd, t.values, t.emitted)

/-- The tokens of the one state are those of the other, placed anew. -/
def Same (s s' : ResponsesLogprobs ν) : Prop :=
  s'.tokens.map Token.source = s.tokens.map Token.source

variable {s : ResponsesLogprobs ν}

theorem observe_tokens {done rest : List (Token ν)}
    (tokens : s.tokens = done ++ rest) (length : done.length = s.mapped)
    (sorted : rest.Pairwise fun a b => a.inputBegin ≤ b.inputBegin) :
    (s.observe call).tokens = done ++
        rest.map (markOne (s.consumedBytes + call.1) s.decodedBytes call.2) ∧
      (s.observe call).mapped = s.mapped +
        ((rest.map (markOne (s.consumedBytes + call.1) s.decodedBytes call.2)).takeWhile
          fun t => decide (t.inputEnd ≤ s.consumedBytes + call.1)).length := by
  simp [observe, tokens, ← length, mark_eq sorted]

theorem observe_same (h : Aligned calls s) : Same s (s.observe call) := by
  obtain ⟨done, rest, tokens, length, -, -⟩ := h.passed
  have nonempty := h.nonempty
  have ordered := h.ordered
  rw [tokens] at nonempty ordered
  have sorted := sorted_begin (fun t ht => nonempty t (List.mem_append_right done ht))
    (List.pairwise_append.mp ordered).2.1
  unfold Same
  rw [(@observe_tokens ν call s done rest tokens length sorted).1, tokens, List.map_append,
    List.map_append, List.map_map]
  congr 1
  refine List.map_congr_left fun t _ => ?_
  obtain ⟨first, last, values, emitted⟩ :=
    markOne_keeps (s.consumedBytes + call.1) s.decodedBytes call.2 t
  simp [Token.source, first, last, values, emitted]

theorem observe_aligned (h : Aligned calls s) :
    Aligned (calls ++ [call]) (s.observe call) := by
  obtain ⟨done, rest, tokens, length, whole, open_⟩ := h.passed
  have nonempty := h.nonempty
  have ordered := h.ordered
  have placed := h.placed
  rw [tokens] at nonempty ordered placed
  have sorted := sorted_begin (fun t ht => nonempty t (List.mem_append_right done ht))
    (List.pairwise_append.mp ordered).2.1
  obtain ⟨after, mapped⟩ :=
    @observe_tokens ν call s done rest tokens length sorted
  have keeps := @markOne_keeps ν (s.consumedBytes + call.1) s.decodedBytes call.2
  generalize mark : @markOne ν (s.consumedBytes + call.1) s.decodedBytes call.2 = f
    at after mapped keeps
  have total : s.consumedBytes + call.1 = consumedBy (calls ++ [call]) := by
    rw [h.consumed, consumedBy_append]
    simp [consumedBy]
  have nonempty' : ∀ t ∈ done ++ rest.map f, t.inputBegin < t.inputEnd := by
    intro t ht
    cases List.mem_append.mp ht with
    | inl ht => exact nonempty t (List.mem_append_left rest ht)
    | inr ht =>
      obtain ⟨u, hu, rfl⟩ := List.mem_map.mp ht
      rw [(keeps u).1, (keeps u).2.1]
      exact nonempty u (List.mem_append_right done hu)
  have ordered' : (done ++ rest.map f).Pairwise Before := by
    obtain ⟨first, second, across⟩ := List.pairwise_append.mp ordered
    refine List.pairwise_append.mpr ⟨first, List.pairwise_map.mpr ?_, fun a ha b hb => ?_⟩
    · refine second.imp fun {a b} before => ?_
      unfold Before at before ⊢
      rwa [(keeps a).2.1, (keeps b).1]
    · obtain ⟨u, hu, rfl⟩ := List.mem_map.mp hb
      have := across a ha u hu
      unfold Before at this ⊢
      rwa [(keeps u).1]
  refine ⟨total, ?_, by rwa [after], by rwa [after], ?_, ?_⟩
  · show s.decodedBytes + call.2 = _
    rw [h.decoded, producedBy_append]
    simp [producedBy]
  · rw [after]
    intro t ht
    cases List.mem_append.mp ht with
    | inl ht =>
      have inside := List.mem_append_left rest ht
      exact (placed t inside).stays (nonempty t inside) _ (h.consumed ▸ whole t ht)
    | inr ht =>
      obtain ⟨u, hu, rfl⟩ := List.mem_map.mp ht
      rw [← mark, h.consumed, h.decoded]
      exact (placed u (List.mem_append_right done hu)).marked (h.consumed ▸ open_ u hu)
  · have ends := sorted_end (fun t ht => nonempty' t (List.mem_append_right done ht))
      (List.pairwise_append.mp ordered').2.1
    refine ⟨done ++ (rest.map f).takeWhile fun t => decide (t.inputEnd ≤ s.consumedBytes + call.1),
      (rest.map f).dropWhile fun t => decide (t.inputEnd ≤ s.consumedBytes + call.1), ?_, ?_, ?_,
      ?_⟩
    · rw [after, List.append_assoc, List.takeWhile_append_dropWhile]
    · rw [mapped, List.length_append, length]
    · intro t ht
      cases List.mem_append.mp ht with
      | inl ht => exact Nat.le_trans (whole t ht) (Nat.le_add_right _ _)
      | inr ht => exact of_decide_eq_true (List.all_eq_true.mp List.all_takeWhile t ht)
    · intro t ht
      show s.consumedBytes + call.1 < t.inputEnd
      have fails := dropWhile_none (ends.imp fun {a b} le holds =>
        decide_eq_true (Nat.le_trans le (of_decide_eq_true holds))) t ht
      simpa using fails

end

end ResponsesLogprobs
end Gufo.Serve
