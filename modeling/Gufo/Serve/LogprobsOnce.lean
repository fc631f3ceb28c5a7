import Gufo.Serve.Logprobs
import Mathlib.Data.List.Sort

/-!
# Log-probabilities go out once

A token is returned for the first range of the output that meets its text. The ranges only move
on, so tokens come out in their order, and which of them come out depends on the bytes that the
ranges cover and not on how they were cut.
-/

namespace Gufo.Serve
open Gufo.LowerBound

namespace ResponsesLogprobs
variable {ν : Type} {calls : List (Nat × Nat)}

/-! ## A push -/

/-- Between two calls: what the decoder has not passed on is pending. -/
structure Running (calls : List (Nat × Nat)) (s : ResponsesLogprobs ν) : Prop extends
    Aligned calls s where
  held : s.consumedBytes + s.decoder.pending.length = s.inputBytes
  inside : ∀ t ∈ s.tokens, t.inputEnd ≤ s.inputBytes

theorem running_start : Running [] (start : ResponsesLogprobs ν) where
  consumed := rfl
  decoded := rfl
  nonempty := by simp [start]
  ordered := by simp [start]
  placed := by simp [start]
  passed := ⟨[], [], rfl, rfl, by simp, by simp⟩
  held := rfl
  inside := by simp [start]

variable {s : ResponsesLogprobs ν}

theorem observeAll_aligned (h : Aligned calls s)
    (more : List (Nat × Nat)) :
    Aligned (calls ++ more) (more.foldl observe s) ∧ Same s (more.foldl observe s) ∧
      (more.foldl observe s).inputBytes = s.inputBytes ∧
      (more.foldl observe s).decoder = s.decoder := by
  induction more generalizing calls s with
  | nil => exact ⟨by rwa [List.append_nil], rfl, rfl, rfl⟩
  | cons call rest ih =>
    obtain ⟨aligned, same, input, decoder⟩ := ih (@observe_aligned ν calls call s h)
    rw [List.append_assoc, List.singleton_append] at aligned
    exact ⟨aligned, same.trans (observe_same h), input, decoder⟩

variable {t : Token ν}

theorem tokenOf_spec {inputBytes : Nat} {piece : TokenPiece ν}
    (mem : t ∈ tokenOf inputBytes piece) :
    t.inputBegin = inputBytes ∧ t.inputEnd = inputBytes + piece.text.length ∧
      0 < piece.text.length ∧ t.mapped = false ∧ t.emitted = false := by
  unfold tokenOf at mem
  split at mem
  · split at mem
    · cases mem
    · rename_i some
      obtain rfl := List.mem_singleton.mp mem
      exact ⟨rfl, rfl, List.length_pos_iff.mpr some, rfl, rfl⟩
  · cases mem

theorem tokenOf_length (inputBytes : Nat) (piece : TokenPiece ν) :
    (tokenOf inputBytes piece).Pairwise Before := by
  unfold tokenOf
  split
  · split
    · exact .nil
    · exact List.pairwise_singleton _ _
  · exact .nil

/-- A new token stands behind all that is decoded. -/
theorem Running.arrives (h : Running calls s) (piece : TokenPiece ν)
    (decoder : Utf8Decoder) : Aligned calls (s.arrive piece decoder) := by
  have held := h.held
  refine ⟨h.consumed, h.decoded, fun t ht => ?_, ?_, fun t ht => ?_, ?_⟩
  · cases List.mem_append.mp ht with
    | inl old => exact h.nonempty t old
    | inr new =>
      obtain ⟨first, last, some, -⟩ := tokenOf_spec new
      omega
  · refine List.pairwise_append.mpr ⟨h.ordered, tokenOf_length s.inputBytes piece,
      fun a ha b hb => ?_⟩
    rw [Before, (tokenOf_spec hb).1]
    exact h.inside a ha
  · cases List.mem_append.mp ht with
    | inl old => exact h.placed t old
    | inr new =>
      obtain ⟨first, -, -, unmapped, -⟩ := tokenOf_spec new
      have consumed := h.consumed
      refine ⟨?_, fun mapped => ?_, fun mapped => ?_⟩
      · rw [unmapped, decide_eq_false (by omega)]
      · rw [unmapped] at mapped
        cases mapped
      · rw [unmapped] at mapped
        cases mapped
  · obtain ⟨done, rest, tokens, length, whole, open_⟩ := h.passed
    refine ⟨done, rest ++ tokenOf s.inputBytes piece, ?_, length, whole, fun t ht => ?_⟩
    · rw [← List.append_assoc, ← tokens]
      rfl
    cases List.mem_append.mp ht with
    | inl old => exact open_ t old
    | inr new =>
      obtain ⟨first, last, some, -⟩ := tokenOf_spec new
      show s.consumedBytes < t.inputEnd
      omega

theorem push_eq (s : ResponsesLogprobs ν) (piece : TokenPiece ν) (final : Bool) :
    s.push piece final = (s.decoder.push piece.text final).1.calls.foldl observe
      (s.arrive piece (s.decoder.push piece.text final).2) := rfl

/-- A push decodes, and adds the piece's token to the ones that are there. -/
theorem push_running (h : Running calls s) (piece : TokenPiece ν)
    (final : Bool) :
    Running (calls ++ (s.decoder.push piece.text final).1.calls) (s.push piece final) ∧
      (s.push piece final).tokens.map Token.source =
        (s.tokens ++ tokenOf s.inputBytes piece).map Token.source ∧
      (s.push piece final).inputBytes = s.inputBytes + piece.text.length ∧
      (s.push piece final).decoder = (s.decoder.push piece.text final).2 := by
  have counts := s.decoder.push_counts piece.text final
  have held := h.held
  rw [push_eq]
  generalize (s.decoder.push piece.text final).1.calls = more at counts ⊢
  generalize (s.decoder.push piece.text final).2 = decoder' at counts ⊢
  obtain ⟨aligned, same, input, decoder⟩ := observeAll_aligned (h.arrives piece decoder') more
  refine ⟨{ aligned with held := ?_, inside := fun t ht => ?_ }, same, input, decoder⟩
  · rw [aligned.consumed, decoder, input, consumedBy_append, ← h.consumed]
    unfold consumedBy
    simp only [arrive]
    omega
  · have mem := List.mem_map_of_mem (f := Token.source) ht
    rw [same] at mem
    obtain ⟨u, hu, source⟩ := List.mem_map.mp mem
    have ends : u.inputEnd = t.inputEnd := by
      simp only [Token.source, Prod.mk.injEq] at source
      exact source.2.1
    rw [input]
    simp only [arrive]
    cases List.mem_append.mp hu with
    | inl old =>
      have := h.inside u old
      omega
    | inr new =>
      obtain ⟨-, last, -⟩ := tokenOf_spec new
      omega

/-! ## A span -/

/-- The tokens that a predicate picks and that were not returned, with their index. -/
def fresh (p : Token ν → Bool) (i : Nat) : List (Token ν) → List (Nat × ν)
  | [] => []
  | t :: rest =>
    if p t = true ∧ t.emitted = false then (i, t.values) :: fresh p (i + 1) rest
    else fresh p (i + 1) rest

def flag (p : Token ν → Bool) (t : Token ν) : Token ν :=
  if p t then { t with emitted := true } else t

/-- The token's text meets the span. -/
def hit (span : TextSourceSpan) (t : Token ν) : Bool :=
  decide (span.size ≠ 0) && t.mapped && decide (span.first < t.textEnd) &&
    decide (t.textBegin < span.first + span.size)

variable {l : List (Token ν)}

section
variable {p q : Token ν → Bool}

theorem fresh_none (none : ∀ t ∈ l, p t = false) (i : Nat) :
    fresh p i l = [] := by
  induction l generalizing i with
  | nil => rfl
  | cons t rest ih =>
    unfold fresh
    rw [none t List.mem_cons_self, if_neg (by simp)]
    exact ih (fun u hu => none u (List.mem_cons_of_mem t hu)) (i + 1)

theorem fresh_append (a b : List (Token ν)) (i : Nat) :
    fresh p i (a ++ b) = fresh p i a ++ fresh p (i + a.length) b := by
  induction a generalizing i with
  | nil => rfl
  | cons t rest ih =>
    simp only [List.cons_append, fresh, ih, List.length_cons,
      show i + 1 + rest.length = i + (rest.length + 1) by omega]
    split <;> rfl

theorem fresh_congr (same : ∀ t ∈ l, p t = q t) (i : Nat) :
    fresh p i l = fresh q i l := by
  induction l generalizing i with
  | nil => rfl
  | cons t rest ih =>
    simp [fresh, same t List.mem_cons_self, ih (fun u hu => same u (List.mem_cons_of_mem t hu))]

theorem flag_congr (same : ∀ t ∈ l, p t = q t) :
    l.map (flag p) = l.map (flag q) :=
  List.map_congr_left fun t ht => by unfold flag; rw [same t ht]

theorem flag_none (none : ∀ t ∈ l, p t = false) : l.map (flag p) = l := by
  have same : ∀ t ∈ l, flag p t = id t := by
    intro t ht
    unfold flag
    rw [none t ht]
    rfl
  rw [List.map_congr_left same, List.map_id]

theorem mem_fresh {i k : Nat} {values : ν} :
    (k, values) ∈ fresh p i l ↔
      ∃ j t, k = i + j ∧ l[j]? = some t ∧ p t = true ∧ t.emitted = false ∧ t.values = values := by
  induction l generalizing i with
  | nil => simp [fresh]
  | cons u rest ih =>
    have tail : (k, values) ∈ fresh p (i + 1) rest ↔ ∃ j t, k = i + (j + 1) ∧
        (u :: rest)[j + 1]? = some t ∧ p t = true ∧ t.emitted = false ∧ t.values = values := by
      rw [ih]
      simp [show ∀ j, i + 1 + j = i + (j + 1) by omega]
    unfold fresh
    split
    · rename_i picked
      rw [List.mem_cons, Prod.mk.injEq, tail]
      constructor
      · rintro (⟨rfl, rfl⟩ | ⟨j, t, rest⟩)
        · exact ⟨0, u, rfl, rfl, picked.1, picked.2, rfl⟩
        · exact ⟨j + 1, t, rest⟩
      · rintro ⟨j, t, here, stored, rest⟩
        cases j with
        | zero =>
          cases stored
          exact .inl ⟨here, rest.2.2.symm⟩
        | succ j => exact .inr ⟨j, t, here, stored, rest⟩
    · rename_i not
      rw [tail]
      constructor
      · rintro ⟨j, t, rest⟩
        exact ⟨j + 1, t, rest⟩
      · rintro ⟨j, t, here, stored, picked, fresh, rest⟩
        cases j with
        | zero =>
          cases stored
          exact absurd ⟨picked, fresh⟩ not
        | succ j => exact ⟨j, t, here, stored, picked, fresh, rest⟩

theorem fresh_sorted (p : Token ν → Bool) (i : Nat) (l : List (Token ν)) :
    (fresh p i l).Pairwise fun a b => a.1 < b.1 := by
  induction l generalizing i with
  | nil => exact .nil
  | cons t rest ih =>
    unfold fresh
    split
    · refine List.pairwise_cons.mpr ⟨fun a ha => ?_, ih (i + 1)⟩
      obtain ⟨j, -, later, -⟩ := mem_fresh.mp (show (a.1, a.2) ∈ _ from ha)
      omega
    · exact ih (i + 1)

end

theorem emit_eq {stop : Nat}
    (sorted : l.Pairwise fun a b => a.textBegin ≤ b.textBegin) (i : Nat) :
    emit stop i l = (fresh (fun t => decide (t.textBegin < stop)) i l,
      l.map (flag fun t => decide (t.textBegin < stop))) := by
  induction l generalizing i with
  | nil => rfl
  | cons t rest ih =>
    obtain ⟨low, sorted⟩ := List.pairwise_cons.mp sorted
    unfold emit
    split
    · rename_i here
      simp only [ih sorted, List.map_cons, fresh, flag, here, decide_true, true_and, if_true]
      split
      · cases t
        simp_all
      · rename_i not
        rw [if_pos (by simpa using not)]
    · rename_i beyond
      have none : ∀ u ∈ t :: rest, decide (u.textBegin < stop) = false := by
        intro u hu
        refine decide_eq_false ?_
        cases List.mem_cons.mp hu with
        | inl eq => rw [eq]; exact beyond
        | inr hu =>
          have := low u hu
          omega
      rw [fresh_none none, flag_none none]

/-- The tokens that some byte is decoded of are the first ones, up to `mappedEnd`. -/
theorem Aligned.split (h : Aligned calls s) :
    ∃ front back, s.tokens = front ++ back ∧ front.length = s.mappedEnd ∧
      (∀ t ∈ front, t.mapped = true) ∧ ∀ t ∈ back, t.mapped = false := by
  obtain ⟨done, rest, tokens, length, whole, open_⟩ := h.passed
  have placed := h.placed
  have nonempty := h.nonempty
  have ordered := h.ordered
  have consumed := h.consumed
  rw [tokens] at placed nonempty ordered
  have first : ∀ t ∈ done, t.mapped = true := by
    intro t ht
    have mem := List.mem_append_left rest ht
    have := whole t ht
    have := nonempty t mem
    rw [(placed t mem).mapped]
    exact decide_eq_true (by omega)
  have later : ∀ t ∈ rest, consumedBy calls ≤ t.inputBegin → t.mapped = false := by
    intro t ht behind
    rw [(placed t (List.mem_append_right done ht)).mapped]
    exact decide_eq_false (by omega)
  unfold mappedEnd
  rw [tokens, ← length, List.getElem?_append_right (Nat.le_refl _), Nat.sub_self]
  cases rest with
  | nil => exact ⟨done, [], rfl, rfl, first, by simp⟩
  | cons t rest =>
    obtain ⟨-, second, -⟩ := List.pairwise_append.mp ordered
    obtain ⟨low, -⟩ := List.pairwise_cons.mp second
    have behind : ∀ u ∈ rest, consumedBy calls ≤ u.inputBegin := by
      intro u hu
      have before := low u hu
      have := open_ t List.mem_cons_self
      unfold Before at before
      omega
    have after : ∀ u ∈ rest, u.mapped = false :=
      fun u hu => later u (List.mem_cons_of_mem t hu) (behind u hu)
    by_cases mapped : t.mapped = true
    · refine ⟨done ++ [t], rest, by simp, by simp [mapped], fun u hu => ?_, after⟩
      cases List.mem_append.mp hu with
      | inl hu => exact first u hu
      | inr hu => rw [List.mem_singleton.mp hu, mapped]
    · refine ⟨done, t :: rest, rfl, by simp [mapped], first, fun u hu => ?_⟩
      cases List.mem_cons.mp hu with
      | inl eq => rw [eq]; simpa using mapped
      | inr hu => exact after u hu

/-- The texts of mapped tokens move on with the tokens. -/
theorem Aligned.text_mono (h : Aligned calls s) :
    s.tokens.Pairwise fun a b => a.mapped = true → b.mapped = true →
      a.textBegin ≤ b.textBegin ∧ a.textEnd ≤ b.textEnd := by
  refine h.ordered.imp_of_mem fun {a b} ha hb before ma mb => ?_
  have nonemptyA := h.nonempty a ha
  have nonemptyB := h.nonempty b hb
  unfold Before at before
  rw [(h.placed a ha).first ma, (h.placed b hb).first mb, (h.placed a ha).last ma,
    (h.placed b hb).last mb]
  exact ⟨startOf_mono (by omega), stopOf_mono (by omega)⟩

/-- A span returns the tokens it meets that were not returned before. -/
theorem takeSpan_eq (h : Aligned calls s) (span : TextSourceSpan) :
    s.takeSpan span = (fresh (hit span) 0 s.tokens,
      { s with tokens := s.tokens.map (flag (hit span)) }) := by
  unfold takeSpan
  split
  · rename_i zero
    have none : ∀ t ∈ s.tokens, hit span t = false := by simp [hit, zero]
    rw [fresh_none none, flag_none none]
  rename_i some
  obtain ⟨front, back, tokens, length, mapped, unmapped⟩ := h.split
  have mono := h.text_mono
  rw [tokens] at mono
  have texts : front.Pairwise fun a b => a.textBegin ≤ b.textBegin ∧ a.textEnd ≤ b.textEnd :=
    (List.pairwise_append.mp mono).1.imp_of_mem fun {a b} ha hb le => le (mapped a ha) (mapped b hb)
  obtain ⟨a, b, cut, short, before, behind⟩ := @lowerBound_cut (Token ν)
    (fun t => decide (t.textEnd ≤ span.first)) front
    (texts.imp fun {a b} le below => by simp only [decide_eq_true_eq] at below ⊢; omega)
  have noneA : ∀ t ∈ a, hit span t = false := by
    intro t ht
    have := of_decide_eq_true (before t ht)
    simp [hit, decide_eq_false (Nat.not_lt.mpr this)]
  have noneBack : ∀ t ∈ back, hit span t = false := by
    intro t ht
    simp [hit, unmapped t ht]
  have onB : ∀ t ∈ b, decide (t.textBegin < span.first + span.size) = hit span t := by
    intro t ht
    have above := of_decide_eq_false (behind t ht)
    simp [hit, mapped t (cut ▸ List.mem_append_right a ht), some,
      decide_eq_true (by omega : span.first < t.textEnd)]
  have sorted : b.Pairwise fun a b => a.textBegin ≤ b.textBegin := by
    rw [cut] at texts
    exact (List.pairwise_append.mp texts).2.1.imp And.left
  have reached : s.tokens.take s.mappedEnd = front := by rw [tokens, ← length, List.take_left]
  have beyond : s.tokens.drop s.mappedEnd = back := by rw [tokens, ← length, List.drop_left]
  simp only [reached, beyond, ← short]
  rw [tokens, cut, List.take_left, List.drop_left, emit_eq sorted, fresh_congr onB,
    flag_congr onB, fresh_append, fresh_append, fresh_none noneA, fresh_none noneBack,
    List.map_append, List.map_append, flag_none noneA, flag_none noneBack, Nat.zero_add,
    List.nil_append, List.append_nil]

/-! ## What has been returned -/

/-- The text of the token and the span have a byte in common. -/
def Meets (calls : List (Nat × Nat)) (span : TextSourceSpan) (t : Token ν) : Prop :=
  span.size ≠ 0 ∧ span.first < stopOf calls (t.inputEnd - 1) ∧
    startOf calls t.inputBegin < span.first + span.size

variable {span : TextSourceSpan}

/-- What is decoded later changes nothing about a span of what is decoded. -/
theorem meets_append (more : List (Nat × Nat)) (t : Token ν)
    (inside : span.first + span.size ≤ producedBy calls) :
    Meets (calls ++ more) span t ↔ Meets calls span t := by
  refine and_congr_right fun some => and_congr ?_ ?_
  · by_cases whole : t.inputEnd - 1 < consumedBy calls
    · rw [stopOf_append more whole]
    · rw [stopOf_behind more (by omega), @stopOf_end calls _ (by omega)]
      omega
  · by_cases begun : t.inputBegin < consumedBy calls
    · rw [startOf_append more begun]
    · rw [startOf_behind more (by omega), @startOf_end calls _ (by omega)]
      omega

theorem hit_iff (placed : Placed calls t)
    (inside : span.first + span.size ≤ producedBy calls) :
    hit span t = true ↔ Meets calls span t := by
  simp only [hit, Bool.and_eq_true, decide_eq_true_eq, Meets]
  cases mapped : t.mapped with
  | true => rw [placed.first mapped, placed.last mapped]; simp [and_assoc]
  | false =>
    have behind := placed.mapped
    rw [mapped] at behind
    rw [startOf_end (Nat.not_lt.mp (of_decide_eq_false behind.symm))]
    simp only [Bool.false_eq_true, and_false, false_and, false_iff]
    omega

theorem flag_keeps (p : Token ν → Bool) (t : Token ν) :
    (flag p t).inputBegin = t.inputBegin ∧ (flag p t).inputEnd = t.inputEnd ∧
      (flag p t).values = t.values ∧ ((flag p t).emitted = true ↔ t.emitted = true ∨ p t = true) ∧
      (Placed calls t → Placed calls (flag p t)) := by
  unfold flag
  split
  · rename_i picked
    exact ⟨rfl, rfl, rfl, by simp [picked], fun h => ⟨h.mapped, h.first, h.last⟩⟩
  · rename_i not
    exact ⟨rfl, rfl, rfl, by simp [not], id⟩

/-- `spans` were taken, up to `taken`, and `returned` came out. -/
structure Delivered (calls : List (Nat × Nat)) (spans : List TextSourceSpan) (taken : Nat)
    (returned : List (Nat × ν)) (s : ResponsesLogprobs ν) : Prop where
  running : Running calls s
  limit : taken ≤ producedBy calls
  reach : ∀ span ∈ spans, span.size ≠ 0 → span.first + span.size ≤ taken
  emitted : ∀ t ∈ s.tokens, (t.emitted = true ↔ ∃ span ∈ spans, Meets calls span t)
  results : ∀ i values, (i, values) ∈ returned ↔
    ∃ t, s.tokens[i]? = some t ∧ t.emitted = true ∧ t.values = values
  sorted : returned.Pairwise fun a b => a.1 < b.1

section
variable {spans : List TextSourceSpan} {taken : Nat} {returned : List (Nat × ν)}
  {s : ResponsesLogprobs ν}

theorem delivered_start : Delivered [] [] 0 [] (start : ResponsesLogprobs ν) where
  running := running_start
  limit := Nat.zero_le _
  reach := by simp
  emitted := by simp [start]
  results := by simp [start]
  sorted := .nil

theorem getElem?_source {l l' : List (Token ν)} (same : l'.map Token.source = l.map Token.source)
    (i : Nat) : (l'[i]?).map Token.source = (l[i]?).map Token.source := by
  rw [← List.getElem?_map, ← List.getElem?_map, same]

theorem push_delivered (h : Delivered calls spans taken returned s) (piece : TokenPiece ν)
    (final : Bool) :
    Delivered (calls ++ (s.decoder.push piece.text final).1.calls) spans taken returned
      (s.push piece final) := by
  obtain ⟨running, same, -, -⟩ := push_running h.running piece final
  generalize (s.decoder.push piece.text final).1.calls = more at running ⊢
  have limit := h.limit
  have bound : ∀ span ∈ spans, span.size ≠ 0 → span.first + span.size ≤ producedBy calls :=
    fun span hs some => Nat.le_trans (h.reach span hs some) limit
  have fresh : ∀ t ∈ tokenOf s.inputBytes piece, t.emitted = false := fun t ht =>
    (tokenOf_spec ht).2.2.2.2
  refine ⟨running, ?_, h.reach, fun t ht => ?_, fun i values => ?_, h.sorted⟩
  · rw [producedBy_append]
    omega
  · have mem := List.mem_map_of_mem (f := Token.source) ht
    rw [same] at mem
    obtain ⟨u, hu, source⟩ := List.mem_map.mp mem
    simp only [Token.source, Prod.mk.injEq] at source
    have meets : ∀ span, Meets (calls ++ more) span t ↔ Meets (calls ++ more) span u := by
      intro span
      unfold Meets
      rw [source.1, source.2.1]
    rw [← source.2.2.2]
    simp only [meets]
    cases List.mem_append.mp hu with
    | inl old =>
      rw [h.emitted u old]
      refine exists_congr fun span => and_congr_right fun hs => ?_
      by_cases some : span.size = 0
      · simp [Meets, some]
      · exact (meets_append more u (bound span hs some)).symm
    | inr new =>
      obtain ⟨first, -⟩ := tokenOf_spec new
      have consumed := h.running.consumed
      have held := h.running.held
      rw [fresh u new]
      simp only [Bool.false_eq_true, false_iff, not_exists, not_and]
      rintro span hs ⟨some, -, low⟩
      have := bound span hs some
      rw [startOf_behind more (by omega)] at low
      omega
  · rw [h.results]
    have at_i := getElem?_source same i
    constructor
    · rintro ⟨t, stored, emitted, rfl⟩
      rw [List.getElem?_append_left (List.getElem?_eq_some_iff.mp stored).1, stored] at at_i
      obtain ⟨u, there, source⟩ := Option.map_eq_some_iff.mp at_i
      simp only [Token.source, Prod.mk.injEq] at source
      exact ⟨u, there, by rw [source.2.2.2, emitted], source.2.2.1⟩
    · rintro ⟨u, there, emitted, rfl⟩
      rw [there] at at_i
      obtain ⟨t, stored, source⟩ := Option.map_eq_some_iff.mp at_i.symm
      simp only [Token.source, Prod.mk.injEq] at source
      by_cases old : i < s.tokens.length
      · rw [List.getElem?_append_left old] at stored
        exact ⟨t, stored, by rw [source.2.2.2, emitted], source.2.2.1⟩
      · rw [List.getElem?_append_right (by omega)] at stored
        have := fresh t (List.mem_of_getElem? stored)
        rw [source.2.2.2, emitted] at this
        cases this

/-- A span that comes behind the ones before returns later tokens. -/
theorem takeSpan_delivered (h : Delivered calls spans taken returned s)
    (behind : taken ≤ span.first) (inside : span.first + span.size ≤ producedBy calls) :
    Delivered calls (spans ++ [span]) (span.first + span.size)
      (returned ++ (s.takeSpan span).1) (s.takeSpan span).2 := by
  have aligned := h.running.toAligned
  rw [takeSpan_eq aligned]
  have hits : ∀ t ∈ s.tokens, (hit span t = true ↔ Meets calls span t) :=
    fun t ht => hit_iff (aligned.placed t ht) inside
  have keeps := @flag_keeps ν calls (hit span)
  refine ⟨⟨⟨aligned.consumed, aligned.decoded, ?_, ?_, ?_, ?_⟩, h.running.held, ?_⟩, inside, ?_, ?_,
    ?_, ?_⟩
  · intro t ht
    obtain ⟨u, hu, rfl⟩ := List.mem_map.mp ht
    rw [(keeps u).1, (keeps u).2.1]
    exact aligned.nonempty u hu
  · refine List.pairwise_map.mpr (aligned.ordered.imp fun {a b} before => ?_)
    unfold Before at before ⊢
    rwa [(keeps a).2.1, (keeps b).1]
  · intro t ht
    obtain ⟨u, hu, rfl⟩ := List.mem_map.mp ht
    exact (keeps u).2.2.2.2 (aligned.placed u hu)
  · obtain ⟨done, rest, tokens, length, whole, open_⟩ := aligned.passed
    refine ⟨done.map (flag (hit span)), rest.map (flag (hit span)), ?_, ?_, ?_, ?_⟩
    · simp [tokens]
    · rw [List.length_map, length]
    · intro t ht
      obtain ⟨u, hu, rfl⟩ := List.mem_map.mp ht
      rw [(keeps u).2.1]
      exact whole u hu
    · intro t ht
      obtain ⟨u, hu, rfl⟩ := List.mem_map.mp ht
      rw [(keeps u).2.1]
      exact open_ u hu
  · intro t ht
    obtain ⟨u, hu, rfl⟩ := List.mem_map.mp ht
    rw [(keeps u).2.1]
    exact h.running.inside u hu
  · intro other ho some
    cases List.mem_append.mp ho with
    | inl old =>
      have := h.reach other old some
      omega
    | inr new =>
      obtain rfl := List.mem_singleton.mp new
      exact Nat.le_refl _
  · intro t ht
    obtain ⟨u, hu, rfl⟩ := List.mem_map.mp ht
    rw [(keeps u).2.2.2.1, h.emitted u hu, hits u hu]
    simp [Meets, (keeps u).1, (keeps u).2.1, or_and_right, exists_or]
  · intro i values
    simp only [List.mem_append, h.results, mem_fresh, Nat.zero_add, List.getElem?_map,
      Option.map_eq_some_iff]
    constructor
    · rintro (⟨t, stored, emitted, same⟩ | ⟨j, t, rfl, stored, picked, -, same⟩)
      · exact ⟨_, ⟨t, stored, rfl⟩, (keeps t).2.2.2.1.mpr (.inl emitted), (keeps t).2.2.1 ▸ same⟩
      · exact ⟨_, ⟨t, stored, rfl⟩, (keeps t).2.2.2.1.mpr (.inr picked), (keeps t).2.2.1 ▸ same⟩
    · rintro ⟨_, ⟨t, stored, rfl⟩, emitted, same⟩
      rw [(keeps t).2.2.1] at same
      cases before : t.emitted with
      | true => exact .inl ⟨t, stored, before, same⟩
      | false =>
        have picked := ((keeps t).2.2.2.1.mp emitted).resolve_left (by rw [before]; simp)
        exact .inr ⟨i, t, rfl, stored, picked, before, same⟩
  · refine List.pairwise_append.mpr ⟨h.sorted, fresh_sorted _ _ _, fun a ha b hb => ?_⟩
    obtain ⟨ti, storedA, emittedA, -⟩ := (h.results a.1 a.2).mp ha
    obtain ⟨j, tj, here, storedB, picked, freshB, -⟩ := mem_fresh.mp (show (b.1, b.2) ∈ _ from hb)
    obtain ⟨lenA, rfl⟩ := List.getElem?_eq_some_iff.mp storedA
    obtain ⟨lenB, rfl⟩ := List.getElem?_eq_some_iff.mp storedB
    by_contra late
    rcases Nat.lt_or_ge j a.1 with earlier | same
    · -- an earlier token would have met the earlier span
      have before := List.pairwise_iff_getElem.mp aligned.ordered j a.1 lenB lenA earlier
      have nonempty := aligned.nonempty _ (List.getElem_mem lenB)
      obtain ⟨-, low, -⟩ := (hits _ (List.getElem_mem lenB)).mp picked
      obtain ⟨first, hf, some, meetsLow, meetsHigh⟩ :=
        (h.emitted _ (List.getElem_mem lenA)).mp emittedA
      have reach := h.reach first hf some
      unfold Before at before
      have mono : startOf calls s.tokens[j].inputBegin ≤ startOf calls s.tokens[a.1].inputBegin :=
        startOf_mono (by omega)
      have := (h.emitted _ (List.getElem_mem lenB)).mpr ⟨first, hf, some, by omega, by omega⟩
      rw [freshB] at this
      cases this
    · obtain rfl : j = a.1 := by omega
      rw [freshB] at emittedA
      cases emittedA

end

/-! ## Runs -/

inductive Op (ν : Type) where
  | push (piece : TokenPiece ν) (final : Bool)
  | take (spans : List TextSourceSpan)

def Op.isPush : Op ν → Bool
  | .push .. => true
  | .take _ => false

/-- All that the takes return, and the state behind them. -/
def run (s : ResponsesLogprobs ν) : List (Op ν) → List (Nat × ν) × ResponsesLogprobs ν
  | [] => ([], s)
  | .push piece final :: rest => (s.push piece final).run rest
  | .take spans :: rest =>
    let (returned, s') := s.take spans
    let (more, last) := s'.run rest
    (returned ++ more, last)

/-- The scalars that the decoder reports. -/
def callsOf (d : Utf8Decoder) : List (Op ν) → List (Nat × Nat)
  | [] => []
  | .push piece final :: rest =>
    (d.push piece.text final).1.calls ++ callsOf (d.push piece.text final).2 rest
  | .take _ :: rest => callsOf d rest

/-- The tokens that arrive, behind so many bytes of input. -/
def arrivals (inputBytes : Nat) : List (Op ν) → List (Token ν)
  | [] => []
  | .push piece _ :: rest =>
    tokenOf inputBytes piece ++ arrivals (inputBytes + piece.text.length) rest
  | .take _ :: rest => arrivals inputBytes rest

def spansOf : List (Op ν) → List TextSourceSpan
  | [] => []
  | .push .. :: rest => spansOf rest
  | .take spans :: rest => spans ++ spansOf rest

/-- The ranges move on from `taken`, within what is decoded. -/
def InOrder (decoded : Nat) : Nat → List TextSourceSpan → Prop
  | _, [] => True
  | taken, span :: rest =>
    if span.size = 0 then InOrder decoded taken rest
    else taken ≤ span.first ∧ span.first + span.size ≤ decoded ∧
      InOrder decoded (span.first + span.size) rest

def takenBy (taken : Nat) : List TextSourceSpan → Nat
  | [] => taken
  | span :: rest => takenBy (if span.size = 0 then taken else span.first + span.size) rest

/-- The ranges of all takes move on. -/
def Consecutive (s : ResponsesLogprobs ν) (taken : Nat) : List (Op ν) → Prop
  | [] => True
  | .push piece final :: rest => Consecutive (s.push piece final) taken rest
  | .take spans :: rest =>
    InOrder s.decodedBytes taken spans ∧ Consecutive (s.take spans).2 (takenBy taken spans) rest

variable {ops : List (Op ν)}

section
variable {spans : List TextSourceSpan} {taken : Nat} {returned : List (Nat × ν)}
  {s : ResponsesLogprobs ν}

theorem takeSpan_empty (empty : span.size = 0)
    (s : ResponsesLogprobs ν) : s.takeSpan span = ([], s) := by
  unfold takeSpan
  rw [if_pos empty]

/-- What a span leaves of the tokens and of the decoder. -/
theorem takeSpan_frame (h : Aligned calls s) (span : TextSourceSpan) :
    (s.takeSpan span).2.decoder = s.decoder ∧
      (s.takeSpan span).2.inputBytes = s.inputBytes ∧
      (s.takeSpan span).2.decodedBytes = s.decodedBytes ∧
      (s.takeSpan span).2.tokens = s.tokens.map (flag (hit span)) := by
  rw [takeSpan_eq h]
  exact ⟨rfl, rfl, rfl, rfl⟩

/-- An empty span adds nothing. -/
theorem Delivered.skip (h : Delivered calls spans taken returned s)
    (empty : span.size = 0) : Delivered calls (spans ++ [span]) taken returned s := by
  refine { h with reach := fun other ho some => ?_, emitted := fun t ht => ?_ }
  · cases List.mem_append.mp ho with
    | inl old => exact h.reach other old some
    | inr new => exact absurd (List.mem_singleton.mp new ▸ empty) some
  · rw [h.emitted t ht]
    simp [Meets, empty]

/-- Tokens that differ only in what was returned of them. -/
def Token.input (t : Token ν) : Nat × Nat × ν := (t.inputBegin, t.inputEnd, t.values)

theorem flag_input (p : Token ν → Bool) (l : List (Token ν)) :
    (l.map (flag p)).map Token.input = l.map Token.input := by
  rw [List.map_map]
  refine List.map_congr_left fun t _ => ?_
  obtain ⟨first, last, values, -⟩ := @flag_keeps ν [] p t
  simp [Token.input, first, last, values]

variable {more : List TextSourceSpan}

theorem take_delivered (h : Delivered calls spans taken returned s)
    (order : InOrder s.decodedBytes taken more) :
    Delivered calls (spans ++ more) (takenBy taken more) (returned ++ (s.take more).1)
        (s.take more).2 ∧
      (s.take more).2.decoder = s.decoder ∧ (s.take more).2.inputBytes = s.inputBytes ∧
      (s.take more).2.tokens.map Token.input = s.tokens.map Token.input := by
  induction more generalizing spans taken returned s with
  | nil => exact ⟨by simpa [take, takenBy] using h, rfl, rfl, rfl⟩
  | cons span rest ih =>
    obtain ⟨decoder, input, decoded, tokens⟩ := takeSpan_frame h.running.toAligned span
    simp only [InOrder] at order
    simp only [take, takenBy]
    by_cases empty : span.size = 0
    · rw [if_pos empty] at order
      rw [if_pos empty, takeSpan_empty empty]
      obtain ⟨next, frame⟩ := ih (h.skip empty) order
      rw [List.append_assoc, List.singleton_append] at next
      exact ⟨next, frame⟩
    · rw [if_neg empty] at order
      obtain ⟨behind, inside, order⟩ := order
      rw [if_neg empty]
      obtain ⟨next, decoder', input', tokens'⟩ := ih
        (takeSpan_delivered h behind (h.running.decoded ▸ inside)) (decoded.symm ▸ order)
      rw [List.append_assoc, List.append_assoc, List.singleton_append] at next
      exact ⟨next, decoder'.trans decoder, input'.trans input,
        tokens'.trans (by rw [tokens, flag_input])⟩

theorem push_input (h : Delivered calls spans taken returned s) (piece : TokenPiece ν)
    (final : Bool) :
    (s.push piece final).tokens.map Token.input =
      s.tokens.map Token.input ++ (tokenOf s.inputBytes piece).map Token.input := by
  obtain ⟨-, same, -⟩ := push_running h.running piece final
  have inputs := congrArg (List.map fun x : Nat × Nat × ν × Bool => (x.1, x.2.1, x.2.2.1)) same
  simp only [List.map_map, List.map_append] at inputs
  exact inputs

/-- The end of the last range. -/
def takenAfter (taken : Nat) : List (Op ν) → Nat
  | [] => taken
  | .push .. :: rest => takenAfter taken rest
  | .take spans :: rest => takenAfter (takenBy taken spans) rest

theorem consecutive_append {ops more : List (Op ν)} :
    Consecutive s taken (ops ++ more) ↔
      Consecutive s taken ops ∧ Consecutive (s.run ops).2 (takenAfter taken ops) more := by
  induction ops generalizing s taken with
  | nil => simp [Consecutive, run, takenAfter]
  | cons op rest ih =>
    cases op with
    | push piece final => exact ih
    | take spans =>
      simp [Consecutive, run, takenAfter, ih, and_assoc]

/-- What one operation does, for all of them in turn. -/
theorem run_delivered (h : Delivered calls spans taken returned s)
    (consecutive : Consecutive s taken ops) :
    Delivered (calls ++ callsOf s.decoder ops) (spans ++ spansOf ops) (takenAfter taken ops)
        (returned ++ (s.run ops).1) (s.run ops).2 ∧
      (s.run ops).2.tokens.map Token.input =
        s.tokens.map Token.input ++ (arrivals s.inputBytes ops).map Token.input ∧
      ∀ more, callsOf s.decoder (ops ++ more) =
          callsOf s.decoder ops ++ callsOf (s.run ops).2.decoder more ∧
        arrivals s.inputBytes (ops ++ more) =
          arrivals s.inputBytes ops ++ arrivals (s.run ops).2.inputBytes more := by
  induction ops generalizing calls spans taken returned s with
  | nil =>
    exact ⟨by simpa [callsOf, spansOf, run, takenAfter] using h, by simp [run, arrivals],
      fun more => ⟨rfl, rfl⟩⟩
  | cons op rest ih =>
    cases op with
    | push piece final =>
      obtain ⟨-, -, input, decoder⟩ := push_running h.running piece final
      obtain ⟨next, tokens, split⟩ := ih (push_delivered h piece final) consecutive
      rw [decoder, List.append_assoc] at next
      rw [push_input h, input, List.append_assoc, ← List.map_append] at tokens
      rw [decoder, input] at split
      refine ⟨next, tokens, fun more => ⟨?_, ?_⟩⟩
      · simp [callsOf, (split more).1, run]
      · simp [arrivals, (split more).2, run]
    | take more =>
      obtain ⟨order, consecutive⟩ := consecutive
      obtain ⟨step, decoder, input, frame⟩ := take_delivered h order
      obtain ⟨next, tokens, split⟩ := ih step consecutive
      rw [decoder, List.append_assoc, List.append_assoc] at next
      rw [frame, input] at tokens
      rw [decoder, input] at split
      exact ⟨next, tokens, split⟩

theorem run_start (consecutive : Consecutive start 0 ops) :
    Delivered (callsOf .start ops) (spansOf ops) (takenAfter 0 ops) (start.run ops).1
        (start.run ops).2 ∧
      (start.run ops).2.tokens.map Token.input = (arrivals 0 ops).map Token.input ∧
      ∀ more, callsOf .start (ops ++ more) =
          callsOf .start ops ++ callsOf (start.run ops).2.decoder more ∧
        arrivals 0 (ops ++ more) =
          arrivals 0 ops ++ arrivals (start.run ops).2.inputBytes more :=
  run_delivered delivered_start consecutive

theorem meets_input {t u : Token ν} (same : Token.input t = Token.input u) (span : TextSourceSpan) :
    Meets calls span t ↔ Meets calls span u := by
  simp only [Token.input, Prod.mk.injEq] at same
  unfold Meets
  rw [same.1, same.2.1]

theorem getElem?_input {l l' : List (Token ν)} (same : l'.map Token.input = l.map Token.input)
    {i : Nat} (stored : l[i]? = some t) :
    ∃ u, l'[i]? = some u ∧ Token.input u = Token.input t := by
  have at_i : (l'[i]?).map Token.input = (l[i]?).map Token.input := by
    rw [← List.getElem?_map, ← List.getElem?_map, same]
  rw [stored] at at_i
  exact Option.map_eq_some_iff.mp at_i

/-- A take returns the tokens that its spans are the first to meet. -/
theorem mem_take (h : Delivered calls spans taken returned s)
    (order : InOrder s.decodedBytes taken more) {i : Nat} {values : ν} :
    (i, values) ∈ (s.take more).1 ↔ ∃ t, s.tokens[i]? = some t ∧ t.values = values ∧
      (∃ span ∈ more, Meets calls span t) ∧ ∀ span ∈ spans, ¬Meets calls span t := by
  obtain ⟨next, -, -, frame⟩ := take_delivered h order
  have apart := (List.pairwise_append.mp next.sorted).2.2
  have whole := next.results i values
  rw [List.mem_append] at whole
  constructor
  · intro mem
    obtain ⟨u, there, emitted, rfl⟩ := whole.mp (.inr mem)
    obtain ⟨t, stored, same⟩ := getElem?_input frame.symm there
    have new : ∀ span ∈ spans, ¬Meets calls span t := by
      intro span hs meets
      have old := (h.results i t.values).mpr
        ⟨t, stored, (h.emitted t (List.mem_of_getElem? stored)).mpr ⟨span, hs, meets⟩, rfl⟩
      exact Nat.lt_irrefl i (apart _ old _ mem)
    obtain ⟨span, hs, meets⟩ := (next.emitted u (List.mem_of_getElem? there)).mp emitted
    rw [meets_input same.symm] at meets
    have values : t.values = u.values := (Prod.mk.inj (Prod.mk.inj same).2).2
    cases List.mem_append.mp hs with
    | inl old => exact absurd meets (new span old)
    | inr later => exact ⟨t, stored, values, ⟨span, later, meets⟩, new⟩
  · rintro ⟨t, stored, rfl, ⟨span, hs, meets⟩, new⟩
    obtain ⟨u, there, same⟩ := getElem?_input frame stored
    have emitted := (next.emitted u (List.mem_of_getElem? there)).mpr
      ⟨span, List.mem_append_right spans hs, (meets_input same span).mpr meets⟩
    have values : u.values = t.values := (Prod.mk.inj (Prod.mk.inj same).2).2
    refine (whole.mpr ⟨u, there, emitted, values⟩).resolve_left fun old => ?_
    obtain ⟨t', stored', before, -⟩ := (h.results i t.values).mp old
    rw [stored] at stored'
    cases stored'
    obtain ⟨first, hf, meetsFirst⟩ := (h.emitted t (List.mem_of_getElem? stored)).mp before
    exact new first hf meetsFirst

theorem InOrder.bound {decoded : Nat}
    (order : InOrder decoded taken more) :
    ∀ span ∈ more, span.size ≠ 0 → taken ≤ span.first ∧ span.first + span.size ≤ decoded := by
  induction more generalizing taken with
  | nil => simp
  | cons first rest ih =>
    intro span hs some
    unfold InOrder at order
    split at order
    · rename_i empty
      cases List.mem_cons.mp hs with
      | inl same => exact absurd (same ▸ empty) some
      | inr hs => exact ih order span hs some
    · obtain ⟨behind, inside, order⟩ := order
      cases List.mem_cons.mp hs with
      | inl same => exact same ▸ ⟨behind, inside⟩
      | inr hs =>
        have := ih order span hs some
        omega

end

theorem arrivals_spec {inputBytes : Nat} :
    ∀ t ∈ arrivals inputBytes ops, inputBytes ≤ t.inputBegin ∧ t.inputBegin < t.inputEnd := by
  induction ops generalizing inputBytes with
  | nil => simp [arrivals]
  | cons op rest ih =>
    intro t ht
    cases op with
    | take => exact ih t ht
    | push piece final =>
      cases List.mem_append.mp ht with
      | inl here =>
        obtain ⟨first, last, some, -⟩ := tokenOf_spec here
        omega
      | inr later =>
        have := ih t later
        omega

theorem callsOf_positive (d : Utf8Decoder) (ops : List (Op ν)) :
    ∀ call ∈ callsOf d ops, 0 < call.2 := by
  induction ops generalizing d with
  | nil => simp [callsOf]
  | cons op rest ih =>
    cases op with
    | take => exact ih d
    | push piece final =>
      intro call hc
      cases List.mem_append.mp hc with
      | inl here => exact (d.push_positive piece.text final call here).2
      | inr later => exact ih _ call later

theorem callsOf_pushes (d : Utf8Decoder) (ops : List (Op ν)) :
    callsOf d (ops.filter Op.isPush) = callsOf d ops := by
  induction ops generalizing d with
  | nil => rfl
  | cons op rest ih =>
    cases op with
    | take => exact ih d
    | push => simp [List.filter_cons, Op.isPush, callsOf, ih]

theorem arrivals_pushes (inputBytes : Nat) (ops : List (Op ν)) :
    arrivals inputBytes (ops.filter Op.isPush) = arrivals inputBytes ops := by
  induction ops generalizing inputBytes with
  | nil => rfl
  | cons op rest ih =>
    cases op with
    | take => exact ih inputBytes
    | push => simp [List.filter_cons, Op.isPush, arrivals, ih]

/-- A byte of the output that a range covers. -/
def Covered (spans : List TextSourceSpan) (x : Nat) : Prop :=
  ∃ span ∈ spans, span.first ≤ x ∧ x < span.first + span.size

theorem meets_iff (positive : ∀ call ∈ calls, 0 < call.2)
    (nonempty : t.inputBegin < t.inputEnd)
    (inside : span.size ≠ 0 → span.first + span.size ≤ producedBy calls) :
    Meets calls span t ↔ ∃ x, (span.first ≤ x ∧ x < span.first + span.size) ∧
      startOf calls t.inputBegin ≤ x ∧ x < stopOf calls (t.inputEnd - 1) := by
  constructor
  · rintro ⟨some, low, high⟩
    have decoded : t.inputBegin < consumedBy calls := by
      by_contra behind
      rw [startOf_end (by omega)] at high
      omega
    have wide := startOf_lt positive decoded
    have mono : stopOf calls t.inputBegin ≤ stopOf calls (t.inputEnd - 1) :=
      stopOf_mono (by omega)
    exact ⟨max span.first (startOf calls t.inputBegin), by omega, by omega⟩
  · rintro ⟨x, within, text⟩
    exact ⟨by omega, by omega, by omega⟩

theorem sorted_ext {l l' : List (Nat × ν)} (h : l.Pairwise fun a b => a.1 < b.1)
    (h' : l'.Pairwise fun a b => a.1 < b.1) (same : ∀ i v, (i, v) ∈ l ↔ (i, v) ∈ l') : l = l' :=
  have : Std.Irrefl fun a b : Nat × ν => a.1 < b.1 := ⟨fun a => Nat.lt_irrefl a.1⟩
  h.eq_of_mem_iff h' fun x => same x.1 x.2

/-- What a whole run returns. -/
theorem mem_run (consecutive : Consecutive start 0 ops) {i : Nat}
    {values : ν} :
    (i, values) ∈ (start.run ops).1 ↔ ∃ t, (arrivals 0 ops)[i]? = some t ∧ t.values = values ∧
      ∃ x, Covered (spansOf ops) x ∧ startOf (callsOf .start ops) t.inputBegin ≤ x ∧
        x < stopOf (callsOf .start ops) (t.inputEnd - 1) := by
  obtain ⟨h, tokens, -⟩ := run_start consecutive
  have inside : ∀ span ∈ spansOf ops, span.size ≠ 0 →
      span.first + span.size ≤ producedBy (callsOf .start ops) :=
    fun span hs some => Nat.le_trans (h.reach span hs some) h.limit
  have positive := callsOf_positive Utf8Decoder.start ops
  have covered : ∀ t ∈ arrivals 0 ops, (∃ span ∈ spansOf ops, Meets (callsOf .start ops) span t) ↔
      ∃ x, Covered (spansOf ops) x ∧ startOf (callsOf .start ops) t.inputBegin ≤ x ∧
        x < stopOf (callsOf .start ops) (t.inputEnd - 1) := by
    intro t ht
    constructor
    · rintro ⟨span, hs, meets⟩
      obtain ⟨x, within, text⟩ :=
        (meets_iff positive (arrivals_spec t ht).2 (inside span hs)).mp meets
      exact ⟨x, ⟨span, hs, within⟩, text⟩
    · rintro ⟨x, ⟨span, hs, within⟩, text⟩
      exact ⟨span, hs, (meets_iff positive (arrivals_spec t ht).2 (inside span hs)).mpr
        ⟨x, within, text⟩⟩
  rw [h.results]
  constructor
  · rintro ⟨t, stored, emitted, rfl⟩
    obtain ⟨u, there, same⟩ := getElem?_input (tokens.symm) stored
    obtain ⟨span, hs, meets⟩ := (h.emitted t (List.mem_of_getElem? stored)).mp emitted
    exact ⟨u, there, (Prod.mk.inj (Prod.mk.inj same).2).2,
      (covered u (List.mem_of_getElem? there)).mp ⟨span, hs, (meets_input same span).mpr meets⟩⟩
  · rintro ⟨u, there, rfl, met⟩
    obtain ⟨t, stored, same⟩ := getElem?_input tokens there
    obtain ⟨span, hs, meets⟩ := (covered u (List.mem_of_getElem? there)).mpr met
    exact ⟨t, stored, (h.emitted t (List.mem_of_getElem? stored)).mpr
      ⟨span, hs, (meets_input same span).mpr meets⟩, (Prod.mk.inj (Prod.mk.inj same).2).2⟩

/-- A take within a run. -/
structure Taking (ops before : List (Op ν)) (spans : List TextSourceSpan) : Prop where
  more : ∃ more, callsOf .start ops = callsOf .start before ++ more
  earlier : ∀ span ∈ spansOf before, span.size ≠ 0 →
    span.first + span.size ≤ takenAfter 0 before ∧
      span.first + span.size ≤ producedBy (callsOf .start before)
  bound : ∀ span ∈ spans, span.size ≠ 0 → takenAfter 0 before ≤ span.first ∧
    span.first + span.size ≤ producedBy (callsOf .start before)
  returns : ∀ i values, (i, values) ∈ ((start.run before).2.take spans).1 ↔
    ∃ t, (arrivals 0 ops)[i]? = some t ∧ t.values = values ∧
      (∃ span ∈ spans, Meets (callsOf .start ops) span t) ∧
        ∀ span ∈ spansOf before, ¬Meets (callsOf .start ops) span t

theorem taking {before after : List (Op ν)} {spans : List TextSourceSpan}
    (consecutive : Consecutive start 0 (before ++ .take spans :: after)) :
    Taking (before ++ .take spans :: after) before spans := by
  obtain ⟨first, order, -⟩ := consecutive_append.mp consecutive
  obtain ⟨h, inputs, rest⟩ := run_start first
  obtain ⟨moreCalls, moreTokens⟩ := rest (.take spans :: after)
  have limit := h.limit
  have bound := order.bound
  rw [h.running.decoded] at bound
  have earlier : ∀ span ∈ spansOf before, span.size ≠ 0 →
      span.first + span.size ≤ takenAfter 0 before ∧
      span.first + span.size ≤ producedBy (callsOf .start before) :=
    fun span hs some => ⟨h.reach span hs some, Nat.le_trans (h.reach span hs some) limit⟩
  have grown : ∀ span, (span.size ≠ 0 →
      span.first + span.size ≤ producedBy (callsOf .start before)) → ∀ t : Token ν,
      Meets (callsOf .start (before ++ .take spans :: after)) span t ↔
        Meets (callsOf .start before) span t := by
    intro span inside t
    by_cases some : span.size = 0
    · simp [Meets, some]
    · rw [moreCalls]
      exact meets_append _ t (inside some)
  have now := fun span hs => grown span fun some => (bound span hs some).2
  have then_ := fun span hs => grown span fun some => (earlier span hs some).2
  refine ⟨⟨_, moreCalls⟩, earlier, bound, fun i values => ?_⟩
  rw [mem_take h order]
  constructor
  · rintro ⟨t, stored, rfl, ⟨span, hs, meets⟩, new⟩
    obtain ⟨u, there, same⟩ := getElem?_input inputs.symm stored
    refine ⟨u, ?_, (Prod.mk.inj (Prod.mk.inj same).2).2, ⟨span, hs, ?_⟩, fun other ho met => ?_⟩
    · rw [moreTokens, List.getElem?_append_left (List.getElem?_eq_some_iff.mp there).1, there]
    · exact (now span hs u).mpr ((meets_input same span).mpr meets)
    · exact new other ho ((meets_input same other).mp ((then_ other ho u).mp met))
  · rintro ⟨u, there, rfl, ⟨span, hs, meets⟩, new⟩
    rw [moreTokens] at there
    by_cases old : i < (arrivals 0 before).length
    · rw [List.getElem?_append_left old] at there
      obtain ⟨t, stored, same⟩ := getElem?_input inputs there
      refine ⟨t, stored, (Prod.mk.inj (Prod.mk.inj same).2).2, ⟨span, hs, ?_⟩,
        fun other ho met => ?_⟩
      · exact (meets_input same span).mpr ((now span hs u).mp meets)
      · exact new other ho ((then_ other ho u).mpr ((meets_input same other).mp met))
    · -- a token that arrives later stands behind what was decoded
      rw [List.getElem?_append_right (by omega)] at there
      have late := (arrivals_spec u (List.mem_of_getElem? there)).1
      have held := h.running.held
      have consumed := h.running.consumed
      obtain ⟨some, -, high⟩ := (now span hs u).mp meets
      have := (bound span hs some).2
      rw [startOf_end (by omega)] at high
      omega

/-- A range that holds the beginning of a token is the first to meet it. -/
theorem Taking.begins {ops before : List (Op ν)} {spans : List TextSourceSpan}
    (h : Taking ops before spans) (hs : span ∈ spans) {i : Nat}
    (stored : (arrivals 0 ops)[i]? = some t)
    (low : span.first ≤ startOf (callsOf .start ops) t.inputBegin)
    (high : startOf (callsOf .start ops) t.inputBegin < span.first + span.size) :
    (i, t.values) ∈ ((start.run before).2.take spans).1 := by
  obtain ⟨more, grown⟩ := h.more
  have some : span.size ≠ 0 := by omega
  obtain ⟨behind, inside⟩ := h.bound span hs some
  have nonempty := (arrivals_spec t (List.mem_of_getElem? stored)).2
  have positive := callsOf_positive Utf8Decoder.start ops
  have total : span.first + span.size ≤ producedBy (callsOf .start ops) := by
    rw [grown, producedBy_append]
    omega
  have decoded : t.inputBegin < consumedBy (callsOf .start ops) := by
    by_contra behind
    rw [startOf_end (by omega)] at high
    omega
  refine (h.returns i t.values).mpr ⟨t, stored, rfl, ⟨span, hs, ?_⟩, fun other ho met => ?_⟩
  · exact (meets_iff positive nonempty fun _ => total).mpr
      ⟨_, ⟨low, high⟩, Nat.le_refl _, Nat.lt_of_lt_of_le (startOf_lt positive decoded)
        (stopOf_mono (by omega))⟩
  · obtain ⟨someOther, -, before⟩ := met
    have := (h.earlier other ho someOther).1
    omega

/-- Each token comes out of the first take with a range that meets its text, in order, and
whatever the cuts between the ranges are. -/
theorem take_once {ops : List (Op ν)} (consecutive : Consecutive start 0 ops) :
    let calls := callsOf .start ops
    let tokens := arrivals 0 ops
    (∀ before spans after, ops = before ++ .take spans :: after → ∀ i values,
      (i, values) ∈ ((start.run before).2.take spans).1 ↔
        ∃ t, tokens[i]? = some t ∧ t.values = values ∧ (∃ span ∈ spans, Meets calls span t) ∧
          ∀ span ∈ spansOf before, ¬Meets calls span t) ∧
    ((start.run ops).1.Pairwise fun a b => a.1 < b.1) ∧
    (∀ before spans after, ops = before ++ .take spans :: after → ∀ span ∈ spans, ∀ i t,
      tokens[i]? = some t → span.first ≤ startOf calls t.inputBegin →
      startOf calls t.inputBegin < span.first + span.size →
      (i, t.values) ∈ ((start.run before).2.take spans).1) ∧
    ∀ ops', Consecutive start 0 ops' → ops'.filter Op.isPush = ops.filter Op.isPush →
      (∀ x, Covered (spansOf ops') x ↔ Covered (spansOf ops) x) →
      (start.run ops').1 = (start.run ops).1 := by
  have sorted := (run_start consecutive).1.sorted
  refine ⟨?_, sorted, ?_, fun ops' order pushes cover => ?_⟩
  · rintro before spans after rfl
    exact (taking consecutive).returns
  · rintro before spans after rfl span hs i t stored low high
    exact (taking consecutive).begins hs stored low high
  · refine sorted_ext (run_start order).1.sorted sorted fun i values => ?_
    rw [mem_run order, mem_run consecutive, ← arrivals_pushes 0 ops', ← callsOf_pushes _ ops',
      pushes, arrivals_pushes, callsOf_pushes]
    simp [cover]

/-- Two tokens share a scalar: the first has come out when the range that holds it comes. -/
theorem take_once_shared :
    let ops : List (Op Nat) := [.push ⟨[97, 0xC3], some 1⟩ false, .take [⟨0, 1⟩],
      .push ⟨[0xA9, 98], some 2⟩ false, .take [⟨1, 3⟩], .push ⟨[], none⟩ true]
    (start.run ops).1 = [(0, 1), (1, 2)] ∧ (start.run ops).1.Pairwise fun a b => a.1 < b.1 := by
  intro ops
  have first : InOrder 1 0 [⟨0, 1⟩] := by simp [InOrder]
  have second : InOrder 4 1 [⟨1, 3⟩] := by simp [InOrder]
  have consecutive : Consecutive start 0 ops := ⟨first, second, trivial⟩
  exact ⟨by decide, (take_once consecutive).2.1⟩

end ResponsesLogprobs
end Gufo.Serve
