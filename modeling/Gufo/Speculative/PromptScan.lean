import Gufo.Speculative.PromptLookup
import Mathlib.Data.List.MinMax

/-!
# The prompt lookup is a scan

Among the newest places where the last three tokens of the context occur, the first one that
matches the longest way back.
-/

namespace Gufo.Speculative

namespace PromptLookup

/-! ## The scan -/

/-- The last `length` tokens of the context stand just before `stop`. -/
def Agrees (committed context : List Int) (stop length : Nat) : Prop :=
  length ≤ stop ∧
    (committed.take stop).drop (stop - length) = context.drop (context.length - length)

instance (committed context : List Int) (stop length : Nat) :
    Decidable (Agrees committed context stop length) :=
  inferInstanceAs (Decidable (_ ∧ _))

/-- The newest places below `indexed` where the key occurs. -/
def candidates (committed context : List Int) (indexed : Nat) : List Nat :=
  ((List.range indexed).reverse.filter
    fun stop => decide (Agrees committed context stop kKeyTokens)).take kMaxCandidates

/-- The longest match that ends there. -/
def matched (committed context : List Int) (maxMatch stop : Nat) : Nat :=
  Nat.findGreatest (Agrees committed context stop) maxMatch

/-- A place as the match that ends there. -/
def asMatch (length : Nat → Nat) : Option Nat → Match
  | none => ⟨0, 0⟩
  | some stop => ⟨stop, length stop⟩

/-- The first longest one of the candidates that are allowed and accepted. -/
def scan (s : PromptLookup) (committed tail : List Int) (minimum : Nat)
    (acceptSource : Nat → Bool) (requireResume : Bool) : Match :=
  let context := committed ++ tail
  let maxMatch := s.maxMatch context.length
  if maxMatch < kKeyTokens then ⟨0, 0⟩
  else
    asMatch (matched committed context maxMatch)
      (((candidates committed context s.indexedTokens).filter fun stop =>
        s.allowed minimum requireResume stop (matched committed context maxMatch stop) &&
          acceptSource stop).argmax (matched committed context maxMatch))

/-! ## Reachable indexes -/

/-- A lookup after some calls, and the tokens it has indexed. Every history that `Extend` is
given extends those that are indexed, and its positions are 32-bit numbers. -/
inductive Reached : PromptLookup → List Int → Prop
  | new : Reached new []
  | clear {s tokens} : Reached s tokens → Reached s.clear []
  | beginRequest {s tokens} : Reached s tokens → Reached s.beginRequest tokens
  | step {s tokens} (position : Nat) : Reached s tokens → Reached (s.step position).1 tokens
  | restore {s tokens} (state : LookupState) : Reached s tokens → Reached (s.restore state) []
  | observe {s tokens} (start proposed accepted : Nat) : Reached s tokens →
      Reached (s.observe start proposed accepted) tokens
  | extend {s tokens committed} (promptOnly : Bool) : Reached s tokens → tokens <+: committed →
      committed.length < 2 ^ 32 →
      Reached (s.extend committed promptOnly) (s.source committed promptOnly)

section
variable {s : PromptLookup} {tokens : List Int}

theorem source_prefix_of (s : PromptLookup) (committed : List Int) (promptOnly : Bool) :
    s.source committed promptOnly <+: committed := by
  unfold source
  split
  · exact List.take_prefix ..
  · exact List.prefix_refl committed

/-- The fields that the index has nothing to do with. -/
theorem Indexed.of_same {s' : PromptLookup} {n : Nat} (h : Indexed s tokens n)
    (head : s'.head = s.head) (prev : s'.prev = s.prev) : Indexed s' tokens n := by
  obtain ⟨count, inside, valid, heads, chain⟩ := h
  refine ⟨?_, inside, ?_, ?_, ?_⟩
  · rw [prev, count]
  · rw [head]
    exact valid
  · rw [head]
    exact heads
  · rw [prev]
    exact chain

/-- `Extend` indexes all of its tokens, whether it starts again or goes on. -/
theorem extend_indexed {committed : List Int} {promptOnly : Bool}
    (h : Indexed s tokens tokens.length) (extends_ : tokens <+: committed)
    (small : committed.length < 2 ^ 32) :
    Indexed (s.extend committed promptOnly) (s.source committed promptOnly)
      (s.source committed promptOnly).length := by
  have short := (source_prefix_of s committed promptOnly).length_le
  have front := source_prefix_of s committed promptOnly
  unfold extend
  simp only
  generalize s.source committed promptOnly = source at *
  have bound : source.length ≤ kNone := by
    rw [kNone]
    omega
  generalize reset_ : (if source.length < s.prev.length ∨
    s.prev ≠ [] ∧ source.getD (s.prev.length - 1) 0 ≠ s.last then s.clearIndex else s) = reset
  have start : Indexed reset source reset.prev.length := by
    rw [← reset_]
    split
    · exact indexed_clearIndex h.valid source
    · rename_i goesOn
      simp only [not_or, Nat.not_lt] at goesOn
      rw [h.count] at goesOn ⊢
      have same : tokens <+: source := List.prefix_of_prefix_length_le extends_ front goesOn.1
      refine h.congr ?_ goesOn.1
      rw [List.take_length]
      exact List.prefix_iff_eq_take.mp same
  have inside := start.inside
  have all := indexRounds_indexed start (m := source.length - reset.prev.length) (by omega) bound
  split
  · exact all.of_same rfl rfl
  · exact all

theorem Reached.indexed (h : Reached s tokens) : Indexed s tokens tokens.length := by
  induction h with
  | new => exact indexed_new []
  | clear _ ih => exact (indexed_clearIndex ih.valid []).of_same rfl rfl
  | beginRequest _ ih => exact ih.of_same rfl rfl
  | step position _ ih =>
    unfold PromptLookup.step
    split
    · exact ih
    · exact ih.of_same rfl rfl
  | restore state _ ih => exact (indexed_clearIndex ih.valid []).of_same rfl rfl
  | observe start proposed accepted _ ih => exact ih.of_same rfl rfl
  | extend promptOnly _ extends_ small ih => exact extend_indexed ih extends_ small

theorem Reached.bounded (h : Reached s tokens) : tokens.length ≤ kNone := by
  rw [kNone]
  induction h with
  | new => exact Nat.zero_le _
  | clear => exact Nat.zero_le _
  | beginRequest _ ih => exact ih
  | step _ _ ih => exact ih
  | restore => exact Nat.zero_le _
  | observe _ _ _ _ ih => exact ih
  | @extend s _ committed promptOnly _ _ small _ =>
    have := (source_prefix_of s committed promptOnly).length_le
    omega

end

/-! ## The walk along the chain -/

section
variable {s : PromptLookup} {tokens : List Int} {n : Nat}

/-- The walk sees the places of the key, the newest first. -/
theorem walk_spots (h : Indexed s tokens n) (small : n ≤ kNone) (choose : Match → Nat → Match)
    (key rounds : Nat) {bound : Nat} (le : bound ≤ n) (best : Match) :
    s.walk choose rounds ((spots (hits tokens key) bound).head?.getD kNone) best =
      ((spots (hits tokens key) bound).take rounds).foldl choose best := by
  induction rounds generalizing bound best with
  | zero => rfl
  | succ rounds ih =>
    unfold walk
    cases places : spots (hits tokens key) bound with
    | nil => rw [List.head?_nil, Option.getD_none, if_pos rfl, List.take_nil, List.foldl_nil]
    | cons e rest =>
      obtain ⟨lt, hit, rest_⟩ := spots_cons places
      obtain ⟨behind, key_⟩ := of_decide_eq_true hit
      have next := h.chain e (by omega) behind
      rw [key_] at next
      rw [List.head?_cons, Option.getD_some, if_neg (by omega), next, ih (by omega), rest_,
        List.take_succ_cons, List.foldl_cons]

theorem asMatch_found {length : Nat → Nat} {o : Option Nat}
    (found : (asMatch length o).length ≠ 0) :
    ∃ stop ∈ o, asMatch length o = ⟨stop, length stop⟩ := by
  cases o with
  | none => exact absurd rfl found
  | some stop => exact ⟨stop, rfl, rfl⟩

/-- The search for the best one. -/
theorem foldl_best (choose : Match → Nat → Match) (length : Nat → Nat) (p : Nat → Bool)
    (l : List Nat) (chooses : ∀ best, ∀ e ∈ l, choose best e =
      if best.length < length e ∧ p e = true then ⟨e, length e⟩ else best)
    (pos : ∀ e ∈ l, 0 < length e) (o : Option Nat) :
    l.foldl choose (asMatch length o) =
      asMatch length ((l.filter p).foldl (List.argAux fun b c => length c < length b) o) := by
  induction l generalizing o with
  | nil => rfl
  | cons e l ih =>
    have ih := ih (fun best e' mem => chooses best e' (List.mem_cons_of_mem e mem))
      fun e' mem => pos e' (List.mem_cons_of_mem e mem)
    have here := List.mem_cons_self (a := e) (l := l)
    rw [List.foldl_cons, chooses _ e here, List.filter_cons]
    by_cases good : p e = true
    · rw [if_pos good, List.foldl_cons]
      cases o with
      | none =>
        have both : (asMatch length none).length < length e ∧ p e = true := ⟨pos e here, good⟩
        rw [if_pos both]
        exact ih (some e)
      | some best =>
        have taken : List.argAux (fun b c => length c < length b) (some best) e =
            if length best < length e then some e else some best := rfl
        rw [taken]
        by_cases longer : length best < length e
        · have both : (asMatch length (some best)).length < length e ∧ p e = true :=
            ⟨longer, good⟩
          rw [if_pos longer, if_pos both]
          exact ih (some e)
        · have not : ¬((asMatch length (some best)).length < length e ∧ p e = true) :=
            fun both => longer both.1
          rw [if_neg longer, if_neg not]
          exact ih (some best)
    · rw [if_neg good, if_neg fun both => good both.2]
      exact ih o

end

/-! ## Matching backwards -/

section
variable {committed tail : List Int} {stop length maxMatch : Nat}

theorem contextAt_eq (committed tail : List Int) (i : Nat) :
    contextAt committed tail i = (committed ++ tail).getD i 0 := by
  unfold contextAt
  simp only [List.getD_eq_getElem?_getD]
  split
  · rename_i inside
    rw [List.getElem?_append_left inside]
  · rw [List.getElem?_append_right (by omega)]

theorem drop_last (l : List Int) {length : Nat} (room : length < l.length) :
    l.drop (l.length - (length + 1)) =
      l.getD (l.length - length - 1) 0 :: l.drop (l.length - length) := by
  rw [List.drop_eq_getElem_cons (by omega), List.getD_eq_getElem _ _ (by omega)]
  congr 2
  omega

/-- One token more agrees. -/
theorem agrees_succ {context : List Int} (inside : stop ≤ committed.length)
    (room : length < context.length) :
    Agrees committed context stop (length + 1) ↔ Agrees committed context stop length ∧
      length < stop ∧
      committed.getD (stop - length - 1) 0 = context.getD (context.length - length - 1) 0 := by
  have size : (committed.take stop).length = stop := by
    rw [List.length_take, Nat.min_eq_left inside]
  have head : length < stop → (committed.take stop).getD (stop - length - 1) 0 =
      committed.getD (stop - length - 1) 0 := fun lt => by
    simp only [List.getD_eq_getElem?_getD]
    rw [List.getElem?_take_of_lt (by omega)]
  constructor
  · rintro ⟨lt, same⟩
    have split := drop_last (committed.take stop) (by omega : length < _)
    rw [size, head lt] at split
    rw [split, drop_last context room, List.cons.injEq] at same
    exact ⟨⟨by omega, same.2⟩, lt, same.1⟩
  · rintro ⟨⟨-, same⟩, lt, first⟩
    have split := drop_last (committed.take stop) (by omega : length < _)
    rw [size, head lt] at split
    exact ⟨lt, by rw [split, drop_last context room, same, first]⟩

theorem Agrees.mono {context : List Int} {shorter : Nat} (inside : stop ≤ committed.length)
    (le : shorter ≤ length) (room : length ≤ context.length)
    (agrees : Agrees committed context stop length) : Agrees committed context stop shorter := by
  induction length with
  | zero =>
    cases Nat.le_zero.mp le
    exact agrees
  | succ length ih =>
    by_cases last : shorter = length + 1
    · exact last ▸ agrees
    · exact ih (by omega) (by omega) ((agrees_succ inside (by omega)).mp agrees).1

/-- The loop finds the longest match. -/
theorem backwards_eq (inside : stop ≤ committed.length)
    (room : maxMatch ≤ (committed ++ tail).length) {fuel : Nat}
    (enough : maxMatch ≤ length + fuel) (le : length ≤ maxMatch)
    (agrees : Agrees committed (committed ++ tail) stop length) :
    backwards committed tail (committed.length + tail.length) maxMatch stop fuel length =
      matched committed (committed ++ tail) maxMatch stop := by
  have done : ∀ {length}, length ≤ maxMatch → Agrees committed (committed ++ tail) stop length →
      (length < maxMatch → ¬Agrees committed (committed ++ tail) stop (length + 1)) →
      length = matched committed (committed ++ tail) maxMatch stop := by
    intro length le agrees none
    refine (Nat.findGreatest_eq_iff.mpr ⟨le, fun _ => agrees, fun longer gt le' more => ?_⟩).symm
    exact none (by omega) (more.mono inside (by omega) (by omega))
  induction fuel generalizing length with
  | zero =>
    rw [backwards]
    exact done le agrees fun lt => by omega
  | succ fuel ih =>
    unfold backwards
    rw [contextAt_eq, ← List.length_append]
    split
    · rename_i goesOn
      rw [List.length_append]
      refine ih (by omega) (by omega) ((agrees_succ inside (by omega)).mpr ?_)
      exact ⟨agrees, goesOn.2⟩
    · rename_i stops
      refine done le agrees fun lt more => stops ⟨lt, ?_⟩
      exact ((agrees_succ inside (by omega)).mp more).2

end

/-! ## The result -/

/-- The key of the context is the key of its last three tokens. -/
theorem contextKey_eq {context : Nat} (committed tail : List Int)
    (length : (committed ++ tail).length = context) (three : kKeyTokens ≤ context) :
    (List.range kKeyTokens).map (fun i => contextAt committed tail (context - kKeyTokens + i)) =
      (committed ++ tail).drop (context - kKeyTokens) := by
  refine List.ext_getElem ?_ fun i inside inside' => ?_
  · rw [List.length_map, List.length_range, List.length_drop]
    omega
  · rw [List.length_drop] at inside'
    rw [List.getElem_map, List.getElem_range, List.getElem_drop, contextAt_eq,
      List.getD_eq_getElem _ _ (by omega)]

/-- Where the key of the context occurs, its last three tokens do. -/
theorem hits_iff {committed context : List Int} {stop : Nat} (inside : stop ≤ committed.length)
    (three : kKeyTokens ≤ context.length) (ids : ∀ t ∈ committed ++ context, 0 ≤ t ∧ t < 2 ^ 21) :
    hits committed (keyOf (context.drop (context.length - kKeyTokens))) stop =
      decide (Agrees committed context stop kKeyTokens) := by
  unfold hits keyAt Agrees
  refine decide_eq_decide.mpr (and_congr_right fun behind => ?_)
  rw [List.drop_take, show stop - (stop - kKeyTokens) = kKeyTokens by omega]
  refine ⟨fun same => keyOf_inj ?_ ?_ (fun t mem => ids t ?_) same, fun same => by rw [same]⟩
  · rw [List.length_take, List.length_drop]
    rw [kKeyTokens] at *
    omega
  · rw [List.length_drop]
    rw [kKeyTokens] at *
    omega
  · rw [List.mem_append] at mem ⊢
    exact mem.imp (fun h => List.mem_of_mem_drop (List.mem_of_mem_take h)) List.mem_of_mem_drop

theorem mem_candidates {committed context : List Int} {indexed stop : Nat}
    (mem : stop ∈ candidates committed context indexed) :
    stop < indexed ∧ Agrees committed context stop kKeyTokens := by
  have all := List.mem_filter.mp (List.mem_of_mem_take mem)
  exact ⟨List.mem_range.mp (List.mem_reverse.mp all.1), of_decide_eq_true all.2⟩

section
variable {s : PromptLookup} {tokens committed tail : List Int} {minimum : Nat}
  {acceptSource : Nat → Bool} {requireResume : Bool}

/-- What the loop makes of an occurrence. -/
theorem better_eq (s : PromptLookup) (length : Nat → Nat) (best : Match) {stop : Nat}
    (inside : stop < s.prev.length) :
    s.better length minimum acceptSource requireResume best stop =
      if best.length < length stop ∧
          (s.allowed minimum requireResume stop (length stop) && acceptSource stop) = true then
        ⟨stop, length stop⟩
      else best := by
  unfold better
  simp [inside]

/-- Nothing is allowed where no copy can be resumed. -/
theorem not_allowed {stop length : Nat} (maxMatch : Nat) (le : length ≤ maxMatch)
    (early : requireResume = true ∧ (s.resume = kNoResume ∨ maxMatch < minimum)) :
    s.allowed minimum requireResume stop length = false := by
  obtain ⟨require, none | short⟩ := early
  · simp [allowed, require, resumes, none]
  · have : ¬minimum ≤ length := by omega
    simp [allowed, require, this]

theorem matched_le (committed context : List Int) (maxMatch stop : Nat) :
    matched committed context maxMatch stop ≤ maxMatch :=
  Nat.findGreatest_le maxMatch

theorem find_eq_scan (h : Indexed s tokens tokens.length) (extends_ : tokens <+: committed)
    (small : tokens.length ≤ kNone) (ids : ∀ t ∈ committed ++ tail, 0 ≤ t ∧ t < 2 ^ 21) :
    s.find committed tail minimum acceptSource requireResume =
      s.scan committed tail minimum acceptSource requireResume := by
  have inside := extends_.length_le
  have same : tokens.take tokens.length = committed.take tokens.length := by
    rw [List.take_length]
    exact List.prefix_iff_eq_take.mp extends_
  have index := h.congr same inside
  have count : s.prev.length = tokens.length := h.count
  unfold find scan indexedTokens
  simp only [← List.length_append]
  generalize max_ : s.maxMatch (committed ++ tail).length = maxMatch
  have room : maxMatch ≤ (committed ++ tail).length := by
    rw [← max_, PromptLookup.maxMatch]
    split <;> omega
  by_cases few : maxMatch < kKeyTokens
  · rw [if_pos (.inl few), if_pos few]
  rw [if_neg few, count]
  have three : kKeyTokens ≤ (committed ++ tail).length := by omega
  by_cases early : requireResume = true ∧ (s.resume = kNoResume ∨ maxMatch < minimum)
  · rw [if_pos (.inr early), List.filter_eq_nil_iff.mpr]
    · rfl
    · intro stop _
      rw [not_allowed maxMatch (matched_le ..) early]
      exact Bool.false_ne_true
  rw [if_neg (not_or.mpr ⟨few, early⟩), contextKey_eq committed tail rfl three]
  have proper := @keyOf_proper ((committed ++ tail).drop
    ((committed ++ tail).length - kKeyTokens)) (by rw [List.length_drop, kKeyTokens] at *; omega)
  generalize key_ : keyOf ((committed ++ tail).drop ((committed ++ tail).length - kKeyTokens)) =
    key at proper
  have newest : s.head.find key =
      (spots (hits committed key) tokens.length).head?.getD kNone := by
    cases Heads.find_spec index.valid proper with
    | inl there =>
      rw [(index.heads key proper _).mp there]
      rfl
    | inr nowhere =>
      rw [nowhere.1]
      cases first : (spots (hits committed key) tokens.length).head? with
      | none => rfl
      | some v => exact absurd ((index.heads key proper v).mpr first) (nowhere.2 v)
  have places : (spots (hits committed key) tokens.length).take kMaxCandidates =
      candidates committed (committed ++ tail) tokens.length := by
    refine congrArg _ (List.filter_congr fun stop mem => ?_)
    have lt := List.mem_range.mp (List.mem_reverse.mp mem)
    rw [← key_]
    refine hits_iff (by omega) three fun t mem => ids t ?_
    rw [List.mem_append] at mem ⊢
    exact mem.elim .inl List.mem_append.mp
  rw [newest, walk_spots index small _ key kMaxCandidates (Nat.le_refl _), places]
  have lengths : ∀ stop ∈ candidates committed (committed ++ tail) tokens.length,
      backwards committed tail (committed ++ tail).length maxMatch stop maxMatch kKeyTokens =
        matched committed (committed ++ tail) maxMatch stop := fun stop mem => by
    obtain ⟨lt, agrees⟩ := mem_candidates mem
    rw [List.length_append]
    exact backwards_eq (by omega) room (by omega) (by omega) agrees
  have best := foldl_best
    (s.better (fun stop => backwards committed tail (committed ++ tail).length maxMatch stop
      maxMatch kKeyTokens) minimum acceptSource requireResume)
    (matched committed (committed ++ tail) maxMatch)
    (fun stop => s.allowed minimum requireResume stop
      (matched committed (committed ++ tail) maxMatch stop) && acceptSource stop)
    (candidates committed (committed ++ tail) tokens.length)
    (fun best stop mem => by
      rw [better_eq s _ best (by have := (mem_candidates mem).1; omega), lengths stop mem])
    (fun stop mem => by
      have := Nat.le_findGreatest (P := Agrees committed (committed ++ tail) stop)
        (Nat.not_lt.mp few) (mem_candidates mem).2
      rw [kKeyTokens] at this
      exact Nat.lt_of_lt_of_le (by omega) this) none
  exact best

/-- What a match promises: it starts inside the indexed tokens, and the tokens before it are the
last ones of the context. -/
theorem scan_agrees {result : Match}
    (scans : s.scan committed tail minimum acceptSource requireResume = result)
    (found : result.length ≠ 0) :
    result.start < s.indexedTokens ∧
      Agrees committed (committed ++ tail) result.start result.length := by
  unfold scan at scans
  simp only at scans
  split at scans
  · exact absurd (by rw [← scans]) found
  subst scans
  obtain ⟨stop, best, same⟩ := asMatch_found found
  rw [same] at found ⊢
  have mem := (List.mem_filter.mp (List.argmax_mem best)).1
  exact ⟨(mem_candidates mem).1, Nat.findGreatest_of_ne_zero rfl found⟩

end

/-- Every search gives what the scan gives: whatever was indexed before, and however the table
grew and was cleared. -/
theorem find_scan {s : PromptLookup} {tokens committed tail : List Int} (reached : Reached s tokens)
    (extends_ : tokens <+: committed) (ids : ∀ t ∈ committed ++ tail, 0 ≤ t ∧ t < 2 ^ 21)
    (minimum : Nat) (acceptSource : Nat → Bool) (requireResume : Bool) :
    s.indexedTokens = tokens.length ∧
      s.find committed tail minimum acceptSource requireResume =
        s.scan committed tail minimum acceptSource requireResume ∧
      ((s.find committed tail minimum acceptSource requireResume).length ≠ 0 →
        (s.find committed tail minimum acceptSource requireResume).start < s.indexedTokens ∧
        Agrees committed (committed ++ tail)
          (s.find committed tail minimum acceptSource requireResume).start
          (s.find committed tail minimum acceptSource requireResume).length) := by
  have same := @find_eq_scan s tokens committed tail minimum acceptSource requireResume
    reached.indexed extends_ reached.bounded ids
  exact ⟨reached.indexed.count, same, scan_agrees same.symm⟩

/-- A search for the three tokens that the text began with. -/
theorem find_scan_copy :
    (new.extend [1, 2, 3, 7] false).indexedTokens = 4 ∧
      (new.extend [1, 2, 3, 7] false).find [1, 2, 3, 7] [1, 2, 3] 3 (fun _ => true) false =
        (new.extend [1, 2, 3, 7] false).scan [1, 2, 3, 7] [1, 2, 3] 3 (fun _ => true) false :=
  have found := @find_scan (new.extend [1, 2, 3, 7] false) [1, 2, 3, 7] [1, 2, 3, 7] [1, 2, 3]
    (@Reached.extend new [] [1, 2, 3, 7] false .new List.nil_prefix (by decide))
    (List.prefix_refl _) (by decide) 3 (fun _ => true) false
  ⟨found.1, found.2.1⟩

end PromptLookup
end Gufo.Speculative
