import Gufo.Lib.Text

/-!
# Stop sequences

The filter between the accepted output and the client. It gives out a piece only as far as
no stop sequence can still begin in it, so what it holds back between two pieces is the
longest end of the text that starts one.
-/

namespace Gufo.Serve
open Gufo.Text

abbrev Bytes := List UInt8

/-! ## The filter -/

def kMaxStopSequences : Nat := 64
def kMaxStopSequenceBytes : Nat := 4096
def kMaxStopTotalBytes : Nat := 16384

def validateBytes (bytes : Nat) : List Bytes → Except String Unit
  | [] => .ok ()
  | sequence :: rest =>
    if sequence = [] ∨ kMaxStopSequenceBytes < sequence.length then
      .error s!"stop sequences must contain 1 to {kMaxStopSequenceBytes} UTF-8 bytes"
    else if kMaxStopTotalBytes < bytes + sequence.length then
      .error "stop sequences exceed the total byte limit"
    else validateBytes (bytes + sequence.length) rest

def validateStopSequences (sequences : List Bytes) (maxCount : Nat) : Except String Unit :=
  if maxCount < sequences.length then
    .error s!"too many stop sequences (maximum {maxCount})"
  else validateBytes 0 sequences

/-- `matched` is the index in `match_`. -/
structure StopSequenceFilter where
  sequences : List Bytes
  pending : Bytes
  matched : Option Nat
deriving DecidableEq

namespace StopSequenceFilter

def start (sequences : List Bytes) : StopSequenceFilter := ⟨sequences, [], none⟩

/-- The constructor. -/
def create (sequences : List Bytes) : Except String StopSequenceFilter :=
  match validateStopSequences sequences kMaxStopSequences with
  | .error message => .error message
  | .ok () => .ok (start sequences)

def stopped (f : StopSequenceFilter) : Bool := f.matched.isSome

def matchedSequence (f : StopSequenceFilter) : Option Bytes :=
  f.matched.bind fun i => f.sequences[i]?

/-- A completed stop sequence: its end, its start and its index in the list. -/
structure Completed where
  finish : Nat
  start : Nat
  index : Nat
deriving DecidableEq

/-- One round of the loop over the sequences. -/
def better (pending : Bytes) (best : Option Completed) (i : Nat) (sequence : Bytes) :
    Option Completed :=
  match find sequence pending with
  | none => best
  | some position =>
    let candidateEnd := position + sequence.length
    match best with
    | none => some ⟨candidateEnd, position, i⟩
    | some b =>
      if candidateEnd < b.finish ∨ candidateEnd = b.finish ∧ position < b.start then
        some ⟨candidateEnd, position, i⟩
      else some b

def completedFrom (pending : Bytes) (best : Option Completed) (i : Nat) :
    List Bytes → Option Completed
  | [] => best
  | sequence :: rest => completedFrom pending (better pending best i sequence) (i + 1) rest

/-- The match that `Push` settles on. -/
def completed (pending : Bytes) (sequences : List Bytes) : Option Completed :=
  completedFrom pending none 0 sequences

/-- The loop over the lengths of one sequence, downwards as long as they exceed `keep`. -/
def keepFrom (pending sequence : Bytes) (keep : Nat) : Nat → Nat
  | 0 => keep
  | length + 1 =>
    if length + 1 ≤ keep then keep
    else if sequence.take (length + 1) <:+ pending then length + 1
    else keepFrom pending sequence keep length

/-- How many bytes at the end may become a stop sequence. -/
def keep (pending : Bytes) (sequences : List Bytes) : Nat :=
  sequences.foldl
    (fun keep s => keepFrom pending s keep (min pending.length (s.length - 1))) 0

/-- What a piece gives out, and the filter behind it. -/
def push (f : StopSequenceFilter) (piece : Bytes) : Bytes × StopSequenceFilter :=
  if f.stopped then ([], f)
  else
    let pending := f.pending ++ piece
    match completed pending f.sequences with
    | some c => (pending.take c.start, { f with pending := [], matched := some c.index })
    | none =>
      let cut := pending.length - keep pending f.sequences
      (pending.take cut, { f with pending := pending.drop cut })

def finish (f : StopSequenceFilter) : Bytes × StopSequenceFilter :=
  (f.pending, { f with pending := [] })

/-- The outputs of the pieces pushed one after another. -/
def pushAll (f : StopSequenceFilter) : List Bytes → List Bytes × StopSequenceFilter
  | [] => ([], f)
  | piece :: rest =>
    let (output, next) := f.push piece
    let (outputs, last) := next.pushAll rest
    (output :: outputs, last)

variable {sequences : List Bytes}

theorem validateBytes_nonempty {bytes : Nat}
    (valid : validateBytes bytes sequences = .ok ()) : ∀ s ∈ sequences, s ≠ [] := by
  induction sequences generalizing bytes with
  | nil => simp
  | cons sequence rest ih =>
    simp only [validateBytes] at valid
    split at valid
    · cases valid
    · rename_i fits
      split at valid
      · cases valid
      · exact List.forall_mem_cons.mpr ⟨fun empty => fits (.inl empty), ih valid⟩

/-- A filter that could be made starts from nonempty sequences. -/
theorem create_ok {f : StopSequenceFilter}
    (made : create sequences = .ok f) : f = start sequences ∧ ∀ s ∈ sequences, s ≠ [] := by
  unfold create at made
  split at made
  · cases made
  · rename_i valid
    refine ⟨(Except.ok.inj made).symm, ?_⟩
    unfold validateStopSequences at valid
    split at valid
    · cases valid
    · exact validateBytes_nonempty valid

/-! ## The earliest end -/

/-- `sequence` stands in `text` at `position`. -/
def Occurs (sequence text : Bytes) (position : Nat) : Prop :=
  position ≤ text.length ∧ sequence <+: text.drop position

variable {j : Nat}

theorem Occurs.reach {s text : Bytes} (h : Occurs s text j) :
    j + s.length ≤ text.length := by
  have length := h.2.length_le
  have inside := h.1
  simp only [List.length_drop] at length
  omega

theorem Occurs.grows {s text more : Bytes} (h : Occurs s text j) :
    Occurs s (text ++ more) j := by
  have whole := List.prefix_append text more
  exact ⟨h.1.trans whole.length_le, h.2.trans (drop_mono whole j)⟩

/-- An occurrence that ends in the shorter text stands there. -/
theorem Occurs.back {s text more : Bytes} (h : Occurs s (text ++ more) j)
    (inside : j + s.length ≤ text.length) : Occurs s text j := by
  refine ⟨by omega, prefix_of_le h.2 (drop_mono (List.prefix_append text more) j) ?_⟩
  simp only [List.length_drop]
  omega

theorem occurs_append {s a b : Bytes} :
    Occurs s (a ++ b) (a.length + j) ↔ Occurs s b j := by
  simp [Occurs, List.drop_append, List.drop_eq_nil_of_le (Nat.le_add_right a.length j)]

theorem infix_iff {s text : Bytes} : s <:+: text ↔ ∃ j, Occurs s text j := by
  constructor
  · rintro ⟨before, after, rfl⟩
    refine ⟨before.length, by simp only [List.length_append]; omega, after, ?_⟩
    rw [List.append_assoc, List.drop_left]
  · rintro ⟨j, -, after, rest⟩
    exact ⟨text.take j, after, by rw [List.append_assoc, rest, List.take_append_drop]⟩

/-- The occurrence that a text is cut at: none ends earlier, and of those that end with it none
is longer. -/
structure Earliest (sequences : List Bytes) (text : Bytes) (c : Completed) : Prop where
  here : ∃ s, sequences[c.index]? = some s ∧ Occurs s text c.start ∧ c.start + s.length = c.finish
  first : ∀ s ∈ sequences, ∀ j, Occurs s text j →
    c.finish < j + s.length ∨ c.finish = j + s.length ∧ c.start ≤ j

variable {c : Completed}

theorem Earliest.reach {text : Bytes}
    (h : Earliest sequences text c) : c.start ≤ c.finish ∧ c.finish ≤ text.length := by
  obtain ⟨s, -, occurs, ends⟩ := h.here
  have := occurs.reach
  omega

/-- Bytes that come later end later. -/
theorem Earliest.grows {text : Bytes}
    (h : Earliest sequences text c) (more : Bytes) : Earliest sequences (text ++ more) c := by
  obtain ⟨s, stored, occurs, ends⟩ := h.here
  refine ⟨⟨s, stored, occurs.grows, ends⟩, fun t ht j later => ?_⟩
  by_cases inside : j + t.length ≤ text.length
  · exact h.first t ht j (later.back inside)
  · have := h.reach
    omega

/-- What the loop has found among the sequences seen so far. -/
def Best (sequences : List Bytes) (pending : Bytes) : Option Completed → Prop
  | none => ∀ s ∈ sequences, ∀ j, ¬Occurs s pending j
  | some c => Earliest sequences pending c

theorem best_start (pending : Bytes) : Best [] pending none := by simp [Best]

theorem find_first {s pending : Bytes} {i : Nat} (found : find s pending = some i) :
    Occurs s pending i ∧ ∀ j, Occurs s pending j → i ≤ j := by
  obtain ⟨inside, here, none⟩ := find_some.mp found
  refine ⟨⟨inside, here⟩, fun j h => ?_⟩
  by_contra early
  exact none j (by omega) h.2

variable {before : List Bytes}

theorem stored_append {s r : Bytes} {i : Nat}
    (stored : before[i]? = some r) : (before ++ [s])[i]? = some r := by
  have inside := (List.getElem?_eq_some_iff.mp stored).1
  rwa [List.getElem?_append_left inside]

theorem best_better {pending s : Bytes} {best : Option Completed}
    (h : Best before pending best) :
    Best (before ++ [s]) pending (better pending best before.length s) := by
  have split : ∀ t ∈ before ++ [s], t ∈ before ∨ t = s := by simp
  unfold better
  cases found : find s pending with
  | none =>
    have absent : ∀ j, ¬Occurs s pending j := fun j h => find_none.mp found j h.1 h.2
    cases best with
    | none =>
      intro t ht j
      obtain old | rfl := split t ht
      · exact h t old j
      · exact absent j
    | some c =>
      obtain ⟨r, stored, occurs, ends⟩ := h.here
      refine ⟨⟨r, stored_append stored, occurs, ends⟩, fun t ht j at_j => ?_⟩
      obtain old | rfl := split t ht
      · exact h.first t old j at_j
      · exact absurd at_j (absent j)
  | some position =>
    obtain ⟨occurs, least⟩ := find_first found
    have fresh : (before ++ [s])[before.length]? = some s := List.getElem?_concat_length
    cases best with
    | none =>
      refine ⟨⟨s, fresh, occurs, rfl⟩, fun t ht j at_j => ?_⟩
      obtain old | rfl := split t ht
      · exact absurd at_j (h t old j)
      · have := least j at_j
        simp only
        omega
    | some c =>
      simp only
      split
      · refine ⟨⟨s, fresh, occurs, rfl⟩, fun t ht j at_j => ?_⟩
        obtain old | rfl := split t ht
        · have := h.first t old j at_j
          simp only
          omega
        · have := least j at_j
          simp only
          omega
      · obtain ⟨r, stored, at_r, ends⟩ := h.here
        refine ⟨⟨r, stored_append stored, at_r, ends⟩, fun t ht j at_j => ?_⟩
        obtain old | rfl := split t ht
        · exact h.first t old j at_j
        · have := least j at_j
          omega

theorem best_completedFrom {before rest : List Bytes} {pending : Bytes} {best : Option Completed}
    (h : Best before pending best) :
    Best (before ++ rest) pending (completedFrom pending best before.length rest) := by
  induction rest generalizing before best with
  | nil => simpa [completedFrom] using h
  | cons s rest ih =>
    have next := ih (best_better (s := s) h)
    rwa [List.append_assoc, List.singleton_append, List.length_append, List.length_singleton]
      at next

theorem best_completed (pending : Bytes) (sequences : List Bytes) :
    Best sequences pending (completed pending sequences) :=
  best_completedFrom (best_start pending)

/-! ## What may still become a stop sequence -/

theorem keepFrom_spec (pending sequence : Bytes) (keep bound : Nat) :
    let kept := keepFrom pending sequence keep bound
    keep ≤ kept ∧ (kept = keep ∨ kept ≤ bound ∧ sequence.take kept <:+ pending) ∧
      ∀ l ≤ bound, sequence.take l <:+ pending → l ≤ kept := by
  induction bound with
  | zero => exact ⟨le_refl _, .inl rfl, fun l hl _ => by omega⟩
  | succ length ih =>
    simp only [keepFrom]
    split
    · exact ⟨le_refl _, .inl rfl, fun l hl _ => by omega⟩
    · split
      · rename_i ends
        exact ⟨by omega, .inr ⟨le_refl _, ends⟩, fun l hl _ => hl⟩
      · rename_i not
        obtain ⟨grows, source, most⟩ := ih
        refine ⟨grows, source.imp_right fun ⟨le, ends⟩ => ⟨by omega, ends⟩, fun l hl ends => ?_⟩
        by_cases top : l = length + 1
        · exact absurd (top ▸ ends) not
        · exact most l (by omega) ends

/-- `k` bytes at the end of `pending` start a sequence, and no more do. -/
structure Kept (sequences : List Bytes) (pending : Bytes) (k : Nat) : Prop where
  starts : k = 0 ∨ ∃ s ∈ sequences, k ≤ pending.length ∧ k < s.length ∧ s.take k <:+ pending
  most : ∀ s ∈ sequences, ∀ l ≤ pending.length, l < s.length → s.take l <:+ pending → l ≤ k

theorem kept_fold (rest : List Bytes) {pending : Bytes} {k : Nat}
    (nonempty : ∀ s ∈ rest, s ≠ []) (h : Kept before pending k) :
    Kept (before ++ rest) pending (rest.foldl
      (fun keep s => keepFrom pending s keep (min pending.length (s.length - 1))) k) := by
  induction rest generalizing before k with
  | nil => simpa using h
  | cons s rest ih =>
    have length := List.length_pos_iff.mpr (nonempty s List.mem_cons_self)
    obtain ⟨grows, source, most⟩ :=
      keepFrom_spec pending s k (min pending.length (s.length - 1))
    have next : Kept (before ++ [s]) pending
        (keepFrom pending s k (min pending.length (s.length - 1))) := by
      constructor
      · cases source with
        | inl same =>
          rw [same]
          exact h.starts.imp_right fun ⟨t, ht, rest⟩ => ⟨t, List.mem_append_left [s] ht, rest⟩
        | inr fresh => exact .inr ⟨s, by simp, by omega, by omega, fresh.2⟩
      · intro t ht l le proper ends
        cases List.mem_append.mp ht with
        | inl old => exact (h.most t old l le proper ends).trans grows
        | inr last =>
          obtain rfl := List.mem_singleton.mp last
          exact most l (by omega) ends
    have whole := ih (fun t ht => nonempty t (List.mem_cons_of_mem s ht)) next
    rwa [List.append_assoc, List.singleton_append] at whole

theorem kept_keep (nonempty : ∀ s ∈ sequences, s ≠ [])
    (pending : Bytes) : Kept sequences pending (keep pending sequences) :=
  @kept_fold [] sequences pending 0 nonempty ⟨.inl rfl, by simp⟩

theorem take_suffix_eq {s pending : Bytes} {k : Nat} (proper : k < s.length)
    (ends : s.take k <:+ pending) :
    pending.drop (pending.length - k) = s.take k := by
  have length : (s.take k).length = k := by rw [List.length_take]; omega
  rw [List.suffix_iff_eq_drop.mp ends, length]

/-! ## A run -/

/-- Before the stop: nothing has matched, and every end of the text that starts a sequence is
held back. -/
structure Held (sequences : List Bytes) (text released : Bytes) (f : StopSequenceFilter) :
    Prop where
  list : f.sequences = sequences
  going : f.matched = none
  whole : released ++ f.pending = text
  absent : ∀ s ∈ sequences, ∀ j, ¬Occurs s text j
  starts : ∃ s ∈ sequences, f.pending <+: s ∧ f.pending.length < s.length
  covers : ∀ s ∈ sequences, ∀ j ≤ text.length, text.drop j <+: s → released.length ≤ j

/-- Behind the stop. -/
structure Stopped (sequences : List Bytes) (text released : Bytes) (f : StopSequenceFilter)
    (c : Completed) : Prop where
  list : f.sequences = sequences
  matched : f.matched = some c.index
  earliest : Earliest sequences text c
  before : released = text.take c.start
  nothing : f.pending = []

def Shown (sequences : List Bytes) (text released : Bytes) (f : StopSequenceFilter) : Prop :=
  Held sequences text released f ∨ ∃ c, Stopped sequences text released f c

section
variable {sequences : List Bytes} {text released : Bytes} {f : StopSequenceFilter}

theorem shown_start (some : sequences ≠ []) (nonempty : ∀ s ∈ sequences, s ≠ []) :
    Shown sequences [] [] (start sequences) := by
  obtain ⟨s, hs⟩ := List.exists_mem_of_ne_nil sequences some
  refine .inl ⟨rfl, rfl, rfl, fun t ht j h => nonempty t ht ?_,
    ⟨s, hs, List.nil_prefix, List.length_pos_iff.mpr (nonempty s hs)⟩, fun _ _ j _ _ => by simp⟩
  have := h.reach
  simp only [List.length_nil] at this
  exact List.length_eq_zero_iff.mp (by omega)

/-- An occurrence in the longer text starts in what was held back. -/
theorem Held.begins (h : Held sequences text released f) {s piece : Bytes} (hs : s ∈ sequences)
    (occurs : Occurs s (text ++ piece) j) : released.length ≤ j := by
  have lengths := congrArg List.length h.whole
  simp only [List.length_append] at lengths
  by_cases behind : text.length ≤ j
  · omega
  · have outside : ¬j + s.length ≤ text.length := fun le => h.absent s hs j (occurs.back le)
    refine h.covers s hs j (by omega) (prefix_of_le
      (drop_mono (List.prefix_append text piece) j) occurs.2 ?_)
    simp only [List.length_drop]
    omega

theorem Held.text_append (h : Held sequences text released f) (piece : Bytes) :
    text ++ piece = released ++ (f.pending ++ piece) := by
  rw [← h.whole, List.append_assoc]

variable {piece : Bytes}

/-- The filter compares only what it held back, and that is enough. -/
theorem Held.earliest (h : Held sequences text released f)
    (found : Earliest sequences (f.pending ++ piece) c) :
    Earliest sequences (text ++ piece)
      ⟨released.length + c.finish, released.length + c.start, c.index⟩ := by
  rw [h.text_append]
  obtain ⟨s, stored, occurs, ends⟩ := found.here
  refine ⟨⟨s, stored, occurs_append.mpr occurs, by simp only; omega⟩, fun t ht j later => ?_⟩
  rw [← h.text_append] at later
  obtain ⟨i, rfl⟩ := Nat.exists_eq_add_of_le (h.begins ht later)
  rw [h.text_append] at later
  have := found.first t ht i (occurs_append.mp later)
  simp only
  omega

theorem Held.absent_append (h : Held sequences text released f)
    (none : ∀ s ∈ sequences, ∀ j, ¬Occurs s (f.pending ++ piece) j) :
    ∀ s ∈ sequences, ∀ j, ¬Occurs s (text ++ piece) j := by
  intro s hs j occurs
  obtain ⟨i, rfl⟩ := Nat.exists_eq_add_of_le (h.begins hs occurs)
  rw [h.text_append] at occurs
  exact none s hs i (occurs_append.mp occurs)

theorem Held.covers_append (h : Held sequences text released f) {k : Nat}
    (absent : ∀ s ∈ sequences, ∀ j, ¬Occurs s (text ++ piece) j)
    (kept : Kept sequences (f.pending ++ piece) k) {s : Bytes} (hs : s ∈ sequences)
    (inside : j ≤ (text ++ piece).length) (starts : (text ++ piece).drop j <+: s) :
    released.length + ((f.pending ++ piece).length - k) ≤ j := by
  -- a start of `s` was one before the piece came
  have low : released.length ≤ j := by
    by_cases behind : text.length ≤ j
    · have lengths := congrArg List.length h.whole
      simp only [List.length_append] at lengths
      omega
    · exact h.covers s hs j (by omega)
        ((drop_mono (List.prefix_append text piece) j).trans starts)
  have proper : ((text ++ piece).drop j).length < s.length := by
    refine lt_of_le_of_ne starts.length_le fun equal => absent s hs j ⟨inside, ?_⟩
    rw [starts.eq_of_length equal]
  obtain ⟨i, rfl⟩ := Nat.exists_eq_add_of_le low
  rw [h.text_append] at starts proper inside
  rw [List.drop_append, List.drop_eq_nil_of_le (Nat.le_add_right _ i), Nat.add_sub_cancel_left,
    List.nil_append] at starts proper
  simp only [List.length_append, List.length_drop] at inside proper
  have ends : s.take ((f.pending ++ piece).length - i) <:+ f.pending ++ piece := by
    have same := List.prefix_iff_eq_take.mp starts
    rw [List.length_drop] at same
    rw [← same]
    exact List.drop_suffix i _
  have most := kept.most s hs _ (Nat.sub_le _ i)
    (by simp only [List.length_append]; omega) ends
  omega

theorem push_some (going : f.stopped = false)
    (found : completed (f.pending ++ piece) f.sequences = some c) :
    f.push piece =
      ((f.pending ++ piece).take c.start, ⟨f.sequences, [], some c.index⟩) := by
  simp [push, going, found]

theorem push_none (going : f.stopped = false)
    (found : completed (f.pending ++ piece) f.sequences = none) :
    f.push piece =
      let cut := (f.pending ++ piece).length - keep (f.pending ++ piece) f.sequences
      ((f.pending ++ piece).take cut,
        ⟨f.sequences, (f.pending ++ piece).drop cut, f.matched⟩) := by
  simp [push, going, found]

theorem push_stopped (stop : f.stopped = true) (piece : Bytes) : f.push piece = ([], f) := by
  unfold push
  rw [if_pos stop]

theorem Held.going_on (h : Held sequences text released f) : f.stopped = false := by
  unfold stopped
  rw [h.going]
  rfl

theorem Stopped.stopped (h : Stopped sequences text released f c) :
    f.stopped = true := by
  unfold StopSequenceFilter.stopped
  rw [h.matched]
  rfl

theorem push_shown (nonempty : ∀ s ∈ sequences, s ≠ []) (h : Shown sequences text released f)
    (piece : Bytes) :
    Shown sequences (text ++ piece) (released ++ (f.push piece).1) (f.push piece).2 := by
  cases h with
  | inr stop =>
    obtain ⟨c, stop⟩ := stop
    rw [push_stopped stop.stopped, List.append_nil]
    refine .inr ⟨c, stop.list, stop.matched, stop.earliest.grows piece, ?_, stop.nothing⟩
    have := stop.earliest.reach
    rw [stop.before, List.take_append_of_le_length (by omega)]
  | inl held =>
    have best := best_completed (f.pending ++ piece) f.sequences
    cases found : completed (f.pending ++ piece) f.sequences with
    | some c =>
      rw [found, held.list] at best
      rw [push_some held.going_on found]
      refine .inr ⟨⟨released.length + c.finish, released.length + c.start, c.index⟩, held.list, rfl,
        held.earliest best, ?_, rfl⟩
      simp [held.text_append, List.take_length_add_append]
    | none =>
      rw [found, held.list] at best
      rw [push_none held.going_on found, held.list]
      have kept := kept_keep nonempty (f.pending ++ piece)
      have absent := held.absent_append best
      refine .inl ⟨rfl, held.going, ?_, absent, ?_, fun s hs j inside starts => ?_⟩
      · rw [held.text_append, List.append_assoc, List.take_append_drop]
      · cases kept.starts with
        | inl zero =>
          obtain ⟨s, hs, -, -⟩ := held.starts
          simp only [zero, Nat.sub_zero, List.drop_length]
          exact ⟨s, hs, List.nil_prefix, List.length_pos_iff.mpr (nonempty s hs)⟩
        | inr some =>
          obtain ⟨s, hs, -, proper, ends⟩ := some
          simp only [take_suffix_eq proper ends]
          refine ⟨s, hs, List.take_prefix _ s, ?_⟩
          rw [List.length_take]
          omega
      · have := held.covers_append absent kept hs inside starts
        rw [List.length_append, List.length_take]
        omega

theorem pushAll_shown (nonempty : ∀ s ∈ sequences, s ≠ []) (h : Shown sequences text released f)
    (pieces : List Bytes) :
    Shown sequences (text ++ pieces.flatten) (released ++ (f.pushAll pieces).1.flatten)
      (f.pushAll pieces).2 := by
  induction pieces generalizing text released f with
  | nil => simpa [pushAll] using h
  | cons piece rest ih =>
    have next := ih (push_shown nonempty h piece)
    rwa [List.append_assoc, List.append_assoc] at next

theorem pushAll_stopped (stop : f.stopped = true) (pieces : List Bytes) :
    (f.pushAll pieces).1.flatten = [] ∧ (f.pushAll pieces).2 = f := by
  induction pieces with
  | nil => exact ⟨rfl, rfl⟩
  | cons piece rest ih =>
    simp only [pushAll, push_stopped stop, List.flatten_cons, List.nil_append]
    exact ih

end

/-- However the text is cut, the filter gives out the text up to the stop sequence that ends
first, the longest of those that end there, and reports that one. -/
theorem pushAll_exact {sequences : List Bytes} (some : sequences ≠ [])
    (nonempty : ∀ s ∈ sequences, s ≠ []) (pieces : List Bytes) :
    let text := pieces.flatten
    let f := ((start sequences).pushAll pieces).2
    let output := ((start sequences).pushAll pieces).1.flatten ++ f.finish.1
    ((∀ s ∈ sequences, ¬s <:+: text) → output = text ∧ f.stopped = false) ∧
    ((∃ s ∈ sequences, s <:+: text) → ∃ c s, Earliest sequences text c ∧
      sequences[c.index]? = Option.some s ∧ output = text.take c.start ∧ f.stopped = true ∧
      f.matchedSequence = Option.some s) ∧
    (f.stopped = true → ∀ more, (f.pushAll more).1.flatten = [] ∧
      (f.pushAll more).2.finish.1 = []) ∧
    ∃ s ∈ sequences, f.pending <+: s ∧ f.pending ≠ s := by
  intro text f output
  have shown : Shown sequences text _ f := pushAll_shown nonempty (shown_start some nonempty) pieces
  cases shown with
  | inl held =>
    refine ⟨fun _ => ⟨held.whole, held.going_on⟩, fun ⟨s, hs, inside⟩ => ?_, fun stop => ?_, ?_⟩
    · obtain ⟨j, occurs⟩ := infix_iff.mp inside
      exact absurd occurs (held.absent s hs j)
    · rw [held.going_on] at stop
      cases stop
    · obtain ⟨s, hs, begins, proper⟩ := held.starts
      exact ⟨s, hs, begins, fun same => by rw [same] at proper; exact lt_irrefl _ proper⟩
  | inr stop =>
    obtain ⟨c, stop⟩ := stop
    obtain ⟨s, stored, occurs, -⟩ := stop.earliest.here
    have mem := List.mem_of_getElem? stored
    have rest : f.finish.1 = [] := stop.nothing
    refine ⟨fun none => absurd (infix_iff.mpr ⟨_, occurs⟩) (none s mem), fun _ => ?_,
      fun _ more => ?_, ?_⟩
    · refine ⟨c, s, stop.earliest, stored, ?_, stop.stopped, ?_⟩
      · rw [← stop.before]
        exact (congrArg _ rest).trans (List.append_nil _)
      · unfold matchedSequence
        rw [stop.matched, stop.list]
        exact stored
    · obtain ⟨outputs, same⟩ := pushAll_stopped stop.stopped more
      exact ⟨outputs, by rw [same, rest]⟩
    · rw [stop.nothing]
      exact ⟨s, mem, List.nil_prefix, fun empty => nonempty s mem empty.symm⟩

/-- Of two sequences that end together the longer one is reported, and its first byte, which
came a piece earlier, was held back. -/
theorem pushAll_exact_cut :
    let sequences : List Bytes := [[98, 99], [97, 98, 99], [99, 99]]
    let f := ((start sequences).pushAll [[120, 97], [98], [99, 99]]).2
    f.matchedSequence = some [97, 98, 99] ∧ ∃ s ∈ sequences, f.pending <+: s ∧ f.pending ≠ s :=
  ⟨by decide, (pushAll_exact (by decide) (by decide) [[120, 97], [98], [99, 99]]).2.2.2⟩

end StopSequenceFilter
end Gufo.Serve
