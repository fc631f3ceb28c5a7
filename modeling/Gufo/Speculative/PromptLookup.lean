import Gufo.Speculative.Heads

/-!
# The prompt lookup

Copies are proposed from the tokens that were committed. Where a key of three tokens occurs is
kept as a chain: the table has the newest end, and behind every end stands the one before it.
-/

namespace Gufo.Speculative

def kKeyTokens : Nat := 3
def kMaxMatch : Nat := 64
def kMaxCandidates : Nat := 16
def kResumeMinMatch : Nat := 5
def kResumeWindow : Nat := 512
def kResumeBack : Nat := 8
def kNoState : Nat := 2 ^ 32 - 1
def kNoResume : Nat := 2 ^ 64 - 1

/-- `Key`: the low 21 bits of every token. -/
def keyOf (tokens : List Int) : Nat :=
  tokens.foldl (fun key t => (key <<< 21) % 2 ^ 64 ||| (t % 2 ^ 21).toNat) 0

structure Match where
  start : Nat
  length : Nat
deriving DecidableEq

/-- `State`, as the snapshots carry it. -/
structure LookupState where
  resume : Nat
  requestStart : Nat

structure PromptLookup where
  head : Heads
  prev : List Nat
  last : Int
  resume : Nat
  requestStart : Nat

namespace PromptLookup

def new : PromptLookup := ⟨.new, [], 0, kNoResume, kNoResume⟩

def clearIndex (s : PromptLookup) : PromptLookup :=
  { s with head := s.head.clear, prev := [], resume := kNoResume }

def clear (s : PromptLookup) : PromptLookup := { s.clearIndex with requestStart := kNoResume }

def beginRequest (s : PromptLookup) : PromptLookup :=
  { s with resume := kNoResume, requestStart := kNoResume }

def step (s : PromptLookup) (position : Nat) : PromptLookup × Bool :=
  if s.requestStart ≠ kNoResume then (s, true)
  else ({ s with requestStart := position }, false)

def restore (s : PromptLookup) (state : LookupState) : PromptLookup :=
  { s.clear with
    resume := if state.resume = kNoState then kNoResume else state.resume
    requestStart := if state.requestStart = kNoState then kNoResume else state.requestStart }

def observe (s : PromptLookup) (start proposed accepted : Nat) : PromptLookup :=
  { s with
    resume := if 2 * accepted % 2 ^ 64 < proposed then kNoResume else (start + accepted) % 2 ^ 64 }

/-! ## Extending the index -/

/-- The tokens that are indexed: a sampled request has only those before its start. -/
def source (s : PromptLookup) (committed : List Int) (promptOnly : Bool) : List Int :=
  if promptOnly = true ∧ s.requestStart ≠ kNoResume then
    committed.take (min committed.length s.requestStart)
  else committed

/-- One round of the loop: the key that ends just before the next token. -/
def indexNext (committed : List Int) (s : PromptLookup) : PromptLookup :=
  let stop := s.prev.length
  if kKeyTokens ≤ stop then
    let (head, previous) := s.head.exchange
      (keyOf ((committed.drop (stop - kKeyTokens)).take kKeyTokens)) (stop % 2 ^ 32)
    { s with head, prev := s.prev ++ [previous] }
  else { s with prev := s.prev ++ [kNone] }

def indexRounds (committed : List Int) : Nat → PromptLookup → PromptLookup
  | 0, s => s
  | n + 1, s => indexRounds committed n (indexNext committed s)

def extend (s : PromptLookup) (committed : List Int) (promptOnly : Bool) : PromptLookup :=
  let committed := s.source committed promptOnly
  let s :=
    if committed.length < s.prev.length ∨
        s.prev ≠ [] ∧ committed.getD (s.prev.length - 1) 0 ≠ s.last then
      s.clearIndex
    else s
  let s := indexRounds committed (committed.length - s.prev.length) s
  if s.prev ≠ [] then { s with last := committed.getD (s.prev.length - 1) 0 } else s

def indexedTokens (s : PromptLookup) : Nat := s.prev.length

/-! ## Finding a match -/

/-- A token of the context. -/
def contextAt (committed tail : List Int) (i : Nat) : Int :=
  if i < committed.length then committed.getD i 0 else tail.getD (i - committed.length) 0

/-- The loop that extends a match backwards. -/
def backwards (committed tail : List Int) (context maxMatch stop : Nat) : Nat → Nat → Nat
  | 0, length => length
  | fuel + 1, length =>
    if length < maxMatch ∧ length < stop ∧
        committed.getD (stop - length - 1) 0 = contextAt committed tail (context - length - 1) then
      backwards committed tail context maxMatch stop fuel (length + 1)
    else length

def resumes (s : PromptLookup) (stop : Nat) : Bool :=
  decide (s.resume ≠ kNoResume ∧ s.resume ≤ stop + kResumeBack ∧
    stop ≤ (s.resume + kResumeWindow) % 2 ^ 64)

def allowed (s : PromptLookup) (minimum : Nat) (requireResume : Bool) (stop length : Nat) : Bool :=
  if requireResume then s.resumes stop && decide (minimum ≤ length)
  else decide (minimum ≤ length) || (s.resumes stop && decide (kResumeMinMatch ≤ length))

def maxMatch (s : PromptLookup) (context : Nat) : Nat :=
  min kMaxMatch
    (if s.requestStart = kNoResume then context else context - min context s.requestStart)

/-- What an occurrence makes of the best match so far. -/
def better (s : PromptLookup) (length : Nat → Nat) (minimum : Nat) (acceptSource : Nat → Bool)
    (requireResume : Bool) (best : Match) (stop : Nat) : Match :=
  if stop < s.prev.length ∧ best.length < length stop ∧
      s.allowed minimum requireResume stop (length stop) = true ∧ acceptSource stop = true then
    ⟨stop, length stop⟩
  else best

/-- The loop over the chain. -/
def walk (s : PromptLookup) (choose : Match → Nat → Match) : Nat → Nat → Match → Match
  | 0, _, best => best
  | n + 1, stop, best =>
    if stop = kNone then best
    else walk s choose n (s.prev.getD stop kNone) (choose best stop)

def find (s : PromptLookup) (committed tail : List Int) (minimum : Nat)
    (acceptSource : Nat → Bool) (requireResume : Bool) : Match :=
  let context := committed.length + tail.length
  let maxMatch := s.maxMatch context
  if maxMatch < kKeyTokens ∨
      requireResume = true ∧ (s.resume = kNoResume ∨ maxMatch < minimum) then
    ⟨0, 0⟩
  else
    let key := keyOf ((List.range kKeyTokens).map fun i =>
      contextAt committed tail (context - kKeyTokens + i))
    s.walk
      (s.better (fun stop => backwards committed tail context maxMatch stop maxMatch kKeyTokens)
        minimum acceptSource requireResume)
      kMaxCandidates (s.head.find key) ⟨0, 0⟩

/-! ## Keys -/

/-- A key packs its tokens. -/
theorem keyOf_three (a b c : Int) :
    keyOf [a, b, c] =
      (a % 2 ^ 21).toNat * 2 ^ 42 + (b % 2 ^ 21).toNat * 2 ^ 21 + (c % 2 ^ 21).toNat := by
  have pack : ∀ (key : Nat) (t : Int), key < 2 ^ 43 →
      (key <<< 21) % 2 ^ 64 ||| (t % 2 ^ 21).toNat = key * 2 ^ 21 + (t % 2 ^ 21).toNat := by
    intro key t small
    have wide : key <<< 21 < 2 ^ 64 := by
      omega
    rw [Nat.mod_eq_of_lt wide, ← Nat.shiftLeft_add_eq_or_of_lt (by omega), Nat.shiftLeft_eq]
  unfold keyOf
  rw [List.foldl_cons, List.foldl_cons, List.foldl_cons, List.foldl_nil, pack 0 a (by omega),
    pack _ b (by omega), pack _ c (by omega)]
  omega

theorem keyOf_proper {tokens : List Int} (three : tokens.length = 3) : keyOf tokens ≠ kEmpty := by
  obtain ⟨a, b, c, rfl⟩ := List.length_eq_three.mp three
  rw [keyOf_three, kEmpty]
  omega

/-- A number has one quotient and one remainder. -/
theorem quotient_remainder_inj {n a b a' b' : Nat} (hb : b < n) (hb' : b' < n)
    (same : a * n + b = a' * n + b') : a = a' ∧ b = b' := by
  have low : b = b' := by
    have rests := congrArg (· % n) same
    simpa [Nat.mul_add_mod_of_lt, Nat.mul_comm _ n, hb, hb', Nat.mul_add_mod,
      Nat.mod_eq_of_lt] using rests
  subst low
  exact ⟨Nat.eq_of_mul_eq_mul_right (by omega) (Nat.add_right_cancel same), rfl⟩

theorem id_of_low {t t' : Int} (h : 0 ≤ t ∧ t < 2 ^ 21) (h' : 0 ≤ t' ∧ t' < 2 ^ 21)
    (same : (t % 2 ^ 21).toNat = (t' % 2 ^ 21).toNat) : t = t' := by
  omega

/-- Equal keys are equal token triples. -/
theorem keyOf_inj {tokens tokens' : List Int} (three : tokens.length = 3)
    (three' : tokens'.length = 3) (ids : ∀ t ∈ tokens ++ tokens', 0 ≤ t ∧ t < 2 ^ 21)
    (same : keyOf tokens = keyOf tokens') : tokens = tokens' := by
  obtain ⟨a, b, c, rfl⟩ := List.length_eq_three.mp three
  obtain ⟨a', b', c', rfl⟩ := List.length_eq_three.mp three'
  simp only [List.cons_append, List.nil_append, List.forall_mem_cons, List.not_mem_nil] at ids
  obtain ⟨ha, hb, hc, ha', hb', hc', -⟩ := ids
  have shape : ∀ x y : Nat, x * 2 ^ 42 + y * 2 ^ 21 = (x * 2 ^ 21 + y) * 2 ^ 21 := by omega
  rw [keyOf_three, keyOf_three, shape, shape] at same
  have low (t : Int) : (t % 2 ^ 21).toNat < 2 ^ 21 := by omega
  obtain ⟨front, last⟩ := quotient_remainder_inj (low c) (low c') same
  obtain ⟨first, second⟩ := quotient_remainder_inj (low b) (low b') front
  rw [id_of_low ha ha' first, id_of_low hb hb' second, id_of_low hc hc' last]

/-! ## The chains -/

/-- The places below `n` where it hits, the newest first. -/
def spots (hits : Nat → Bool) (n : Nat) : List Nat := (List.range n).reverse.filter hits

theorem spots_succ (hits : Nat → Bool) (n : Nat) :
    spots hits (n + 1) = if hits n then n :: spots hits n else spots hits n := by
  unfold spots
  rw [List.range_succ, List.reverse_append, List.reverse_singleton, List.singleton_append,
    List.filter_cons]

/-- The places behind the newest one are those below it. -/
theorem spots_cons {hits : Nat → Bool} {n e : Nat} {rest : List Nat}
    (front : spots hits n = e :: rest) : e < n ∧ hits e = true ∧ rest = spots hits e := by
  induction n with
  | zero => cases front
  | succ n ih =>
    rw [spots_succ] at front
    split at front
    · rename_i here
      cases front
      exact ⟨Nat.lt_succ_self _, here, rfl⟩
    · obtain ⟨lt, rest⟩ := ih front
      exact ⟨Nat.lt_succ_of_lt lt, rest⟩

theorem spots_congr {hits hits' : Nat → Bool} {n : Nat} (same : ∀ e < n, hits e = hits' e) :
    spots hits n = spots hits' n :=
  List.filter_congr fun e mem => same e (List.mem_range.mp (List.mem_reverse.mp mem))

/-- The key that ends just before a place. -/
def keyAt (tokens : List Int) (e : Nat) : Nat :=
  keyOf ((tokens.drop (e - kKeyTokens)).take kKeyTokens)

def hits (tokens : List Int) (key e : Nat) : Bool :=
  decide (kKeyTokens ≤ e ∧ keyAt tokens e = key)

/-- The first `n` tokens are indexed. -/
structure Indexed (s : PromptLookup) (tokens : List Int) (n : Nat) : Prop where
  count : s.prev.length = n
  inside : n ≤ tokens.length
  valid : s.head.Valid
  heads : ∀ key, key ≠ kEmpty → ∀ e, s.head.Holds key e ↔
    (spots (hits tokens key) n).head? = some e
  chain : ∀ e < n, kKeyTokens ≤ e → s.prev.getD e kNone =
    ((spots (hits tokens (keyAt tokens e)) e).head?).getD kNone

section
variable {s : PromptLookup} {tokens tokens' : List Int} {n : Nat}

theorem keyAt_take {e : Nat} (behind : kKeyTokens ≤ e) (le : e ≤ n) :
    keyAt (tokens.take n) e = keyAt tokens e := by
  unfold keyAt
  rw [List.drop_take, List.take_take, Nat.min_eq_left (by omega)]

theorem hits_take {e : Nat} (le : e ≤ n) (key : Nat) :
    hits (tokens.take n) key e = hits tokens key e := by
  unfold hits
  by_cases behind : kKeyTokens ≤ e
  · rw [keyAt_take behind le]
  · simp [behind]

/-- Only the tokens that are indexed matter. -/
theorem Indexed.congr (h : Indexed s tokens n) (same : tokens.take n = tokens'.take n)
    (inside : n ≤ tokens'.length) : Indexed s tokens' n := by
  have hits_ : ∀ key, ∀ e ≤ n, hits tokens key e = hits tokens' key e := fun key e le => by
    rw [← hits_take le key, same, hits_take le key]
  refine ⟨h.count, inside, h.valid, fun key proper e => ?_, fun e lt behind => ?_⟩
  · rw [h.heads key proper e, spots_congr fun e lt => hits_ key e (Nat.le_of_lt lt)]
  · rw [h.chain e lt behind, ← keyAt_take behind (Nat.le_of_lt lt), same,
      keyAt_take behind (Nat.le_of_lt lt),
      spots_congr fun e' lt' => hits_ _ e' (Nat.le_of_lt (Nat.lt_trans lt' lt))]

theorem indexed_new (tokens : List Int) : Indexed new tokens 0 := by
  refine ⟨rfl, Nat.zero_le _, Heads.valid_new, fun key proper e => ⟨?_, fun h => ?_⟩,
    fun e lt => absurd lt (Nat.not_lt_zero e)⟩
  · rintro ⟨-, j, holds, -⟩
    exact absurd holds.symm proper
  · cases h

theorem indexed_clearIndex (valid : s.head.Valid) (tokens : List Int) :
    Indexed s.clearIndex tokens 0 := by
  obtain ⟨valid', none⟩ := Heads.clear_spec valid
  refine ⟨rfl, Nat.zero_le _, valid', fun key _ e => ⟨fun h => absurd h (none key e), fun h => ?_⟩,
    fun e lt => absurd lt (Nat.not_lt_zero e)⟩
  cases h

/-- One more token is indexed, with the key that ends just before it. -/
theorem indexNext_indexed (h : Indexed s tokens n) (lt : n < tokens.length)
    (small : n < kNone) : Indexed (indexNext tokens s) tokens (n + 1) := by
  obtain ⟨count, inside, valid, heads, chain⟩ := h
  have old : ∀ previous e, e < n → (s.prev ++ [previous]).getD e kNone = s.prev.getD e kNone := by
    intro previous e lt'
    simp only [List.getD_eq_getElem?_getD]
    rw [List.getElem?_append_left (by omega)]
  have new_ : ∀ previous, (s.prev ++ [previous]).getD n kNone = previous := by
    intro previous
    simp only [List.getD_eq_getElem?_getD]
    rw [List.getElem?_append_right (by omega), count, Nat.sub_self]
    rfl
  unfold indexNext
  simp only [count]
  rw [show keyOf ((tokens.drop (n - kKeyTokens)).take kKeyTokens) = keyAt tokens n from rfl]
  split
  · rename_i behind
    have three : ((tokens.drop (n - kKeyTokens)).take kKeyTokens).length = 3 := by
      rw [List.length_take, List.length_drop, kKeyTokens] at *
      omega
    have proper : keyAt tokens n ≠ kEmpty := keyOf_proper three
    have stop : n % 2 ^ 32 = n := Nat.mod_eq_of_lt (by rw [kNone] at small; omega)
    obtain ⟨valid', holds, previous⟩ := Heads.exchange_spec valid proper (n % 2 ^ 32)
    rw [stop] at valid' holds previous ⊢
    refine ⟨by simp [count], lt, valid', fun key proper' e => ?_, fun e lt' behind' => ?_⟩
    · rw [holds, spots_succ]
      by_cases same : key = keyAt tokens n
      · have here : hits tokens key n = true := decide_eq_true ⟨behind, same.symm⟩
        rw [if_pos same, if_pos here, List.head?_cons, Option.some.injEq]
        exact eq_comm
      · rw [if_neg same, if_neg, heads key proper']
        simp only [hits, decide_eq_true_eq]
        exact fun here => same here.2.symm
    · by_cases last : e = n
      · subst last
        rw [new_]
        cases previous with
        | inl there =>
          rw [(heads _ proper _).mp there]
          rfl
        | inr nowhere =>
          rw [nowhere.1]
          cases first : (spots (hits tokens (keyAt tokens e)) e).head? with
          | none => rfl
          | some v => exact absurd ((heads _ proper v).mpr first) (nowhere.2 v)
      · rw [old _ e (by omega)]
        exact chain e (by omega) behind'
  · rename_i front
    have miss : ∀ key, hits tokens key n = false := by
      intro key
      simp only [hits, decide_eq_false_iff_not]
      exact fun here => front here.1
    refine ⟨by simp [count], lt, valid, fun key proper e => ?_, fun e lt' behind => ?_⟩
    · rw [heads key proper e, spots_succ, if_neg (by rw [miss]; exact Bool.false_ne_true)]
    · rw [old _ e (by omega)]
      exact chain e (by omega) behind

theorem indexRounds_indexed {m : Nat} (h : Indexed s tokens n) (last : n + m = tokens.length)
    (small : tokens.length ≤ kNone) :
    Indexed (indexRounds tokens m s) tokens tokens.length := by
  induction m generalizing s n with
  | zero => exact last ▸ h
  | succ m ih => exact ih (indexNext_indexed h (by omega) (by omega)) (by omega)

end

end PromptLookup
end Gufo.Speculative
