import Gufo.Lexeme.Strings

/-!
# What a state has read

`Begun` says which bytes of the next character a state stands for. One more byte makes
them longer, or makes them a character, or makes them something that no character
begins with; the state follows in every case.
-/

namespace Gufo.Lexeme
open Gufo.Regex Gufo.Constraint

/-! ## Unfinished characters -/

theorem unfinished_escape {cp : Nat} : ¬Spelling cp [92] := by
  intro s
  rcases spelling_escape.mp s with ⟨_, _, no⟩ | ⟨_, _, _, no⟩ | ⟨_, _, _, _, _, _, _, _, _, no⟩ <;>
    cases no

variable {ds : List Nat}

theorem unfinished_hex {cp : Nat} (short : ds.length < 4) :
    ¬Spelling cp (92 :: 117 :: ds) := by
  intro s
  rcases spelling_u.mp s with ⟨_, quad⟩ | ⟨ds', _, _, _, first, _, _, _, _, same⟩
  · have := quad.length
    omega
  · rw [same, List.length_append, first.length] at short
    omega

section
variable {ds : List Nat} {high cp : Nat} (first : Quad ds high)
  (isHigh : 0xd800 ≤ high ∧ high ≤ 0xdbff)

include first isHigh

theorem unfinished_high : ¬Spelling cp (92 :: 117 :: ds) := by
  intro s
  rw [← List.append_nil (92 :: 117 :: ds)] at s
  obtain ⟨_, _, _, _, _, no⟩ := (spelling_high first isHigh).mp s
  cases no

theorem unfinished_slash : ¬Spelling cp (92 :: 117 :: ds ++ [92]) := by
  intro s
  obtain ⟨_, _, _, _, _, no⟩ := (spelling_high first isHigh).mp s
  cases no

theorem unfinished_low {es : List Nat} (short : es.length < 4) :
    ¬Spelling cp (92 :: 117 :: ds ++ 92 :: 117 :: es) := by
  intro s
  obtain ⟨_, _, second, _, _, same⟩ := (spelling_high first isHigh).mp s
  cases same
  have := second.length
  omega

end

theorem unfinished_multi {b cp : Nat} {cs : List Nat} (lead : 0x80 ≤ b)
    (short : cs.length + 1 < utf8Width b) : ¬Spelling cp (b :: cs) := by
  intro s
  have := ((spelling_multi lead).mp s).2.1
  omega

/-- The bytes that have been read of the next character. -/
inductive Begun : State → List Nat → Prop
  | body {s} (mode : s.mode = .body) (value : s.value = 0) : Begun s []
  | escape {s} (mode : s.mode = .escape) (value : s.value = 0) : Begun s [92]
  | hex {s ds} (mode : s.mode = .hex) (short : ds.length < 4) (left : s.extra = 4 - ds.length)
      (read : digits hexDigit 16 ds 0 = some s.value) : Begun s (92 :: 117 :: ds)
  | lowSlash {s ds} (mode : s.mode = .lowSlash) (first : Quad ds s.value)
      (isHigh : 0xd800 ≤ s.value ∧ s.value ≤ 0xdbff) : Begun s (92 :: 117 :: ds)
  | lowU {s ds} (mode : s.mode = .lowU) (first : Quad ds s.value)
      (isHigh : 0xd800 ≤ s.value ∧ s.value ≤ 0xdbff) : Begun s (92 :: 117 :: ds ++ [92])
  | lowHex {s ds es high} (mode : s.mode = .lowHex) (first : Quad ds high)
      (isHigh : 0xd800 ≤ high ∧ high ≤ 0xdbff) (short : es.length < 4)
      (left : s.extra = high * 256 + (4 - es.length))
      (read : digits hexDigit 16 es 0 = some s.value) :
      Begun s (92 :: 117 :: ds ++ 92 :: 117 :: es)
  | utf8 {s b cs} (mode : s.mode = .utf8) (lead : 0x80 ≤ b) (short : cs.length + 1 < utf8Width b)
      (left : s.extra = utf8Width b * 256 + (utf8Width b - 1 - cs.length))
      (read : digits continuation 64 cs (b % 2 ^ (7 - utf8Width b)) = some s.value) :
      Begun s (b :: cs)

/-- What a byte did, in terms of the bytes read of the character. -/
def Decoded.Follows (x : StringLexeme) (s : State) (begun : List Nat) (b : Nat) : Decoded → Prop
  | .close complete => begun = [] ∧ b = 34 ∧
      complete = (decide (x.minimum ≤ s.count) && x.regex.Accepting s.dfa)
  | .reject => (begun = [] → b ≠ 34) ∧ ∀ cp, ¬Opens (begun ++ [b]) cp
  | .character cp => (begun = [] → b ≠ 34) ∧ (Scalar cp → Spelling cp (begun ++ [b])) ∧
      (¬Scalar cp → ∀ other, ¬Opens (begun ++ [b]) other)
  | .become next => (begun = [] → b ≠ 34) ∧ next.mode ≠ .body ∧ next.dfa = s.dfa ∧
      next.count = s.count ∧ Begun next (begun ++ [b]) ∧ ∀ cp, ¬Spelling cp (begun ++ [b])

variable {b : Nat}

theorem utf8Width_eq (width : utf8Width b ≠ 0) :
    utf8Width b = 2 ∧ 0xc2 ≤ b ∧ b ≤ 0xdf ∨ utf8Width b = 3 ∧ 0xe0 ≤ b ∧ b ≤ 0xef ∨
      utf8Width b = 4 ∧ 0xf0 ≤ b ∧ b ≤ 0xf4 := by
  unfold utf8Width at width ⊢
  split
  case isTrue two => exact .inl ⟨rfl, two⟩
  case isFalse two =>
    rw [if_neg two] at width
    split
    case isTrue three => exact .inr (.inl ⟨rfl, three⟩)
    case isFalse three =>
      rw [if_neg three] at width
      split
      case isTrue four => exact .inr (.inr ⟨rfl, four⟩)
      case isFalse four =>
        rw [if_neg four] at width
        exact absurd rfl width

theorem utf8Width_cases (width : utf8Width b ≠ 0) :
    2 ≤ utf8Width b ∧ utf8Width b ≤ 4 := by
  rcases utf8Width_eq width with ⟨same, _⟩ | ⟨same, _⟩ | ⟨same, _⟩ <;> omega

theorem digits_single {digit : Nat → Option Nat} {base : Nat} {bs : List Nat} {b v w : Nat}
    (read : digits digit base bs v = some w) :
    digits digit base (bs ++ [b]) v = (digit b).map fun d => w * base + d := by
  rw [digits_append, read, Option.bind_some, digits]
  cases digit b <;> rfl

/-- A byte that is no digit is not read. -/
theorem digits_closed {digit : Nat → Option Nat} {base : Nat} {bs : List Nat} {b v w : Nat}
    (none : digit b = none) : digits digit base (bs ++ [b]) v ≠ some w := by
  intro read
  rw [digits_append] at read
  obtain ⟨_, _, last⟩ := Option.bind_eq_some_iff.mp read
  obtain ⟨d, here, _⟩ := digits_cons.mp last
  rw [none] at here
  cases here

theorem lookup_short {b cp : Nat} : shortEscapes.lookup b = some cp ↔ (b, cp) ∈ shortEscapes := by
  constructor
  · intro found
    obtain ⟨before, after, same, -⟩ := List.lookup_eq_some_iff.mp found
    rw [same]
    simp
  · intro mem
    have : ∀ p ∈ shortEscapes, shortEscapes.lookup p.1 = some p.2 := by decide
    exact this _ mem

/-! ## Bytes that begin nothing -/

theorem closed_control (control : b < 0x20) (cp : Nat) : ¬Opens [b] cp := by
  rintro ⟨rest, s⟩
  have := ((spelling_ascii (by omega) (by omega)).mp s).2.2.1
  omega

theorem closed_lead (high : 0x80 ≤ b) (width : utf8Width b = 0) (cp : Nat) :
    ¬Opens [b] cp := by
  rw [opens_multi high]
  omega

theorem closed_escape (u : b ≠ 117) (found : shortEscapes.lookup b = none) (cp : Nat) :
    ¬Opens ([92] ++ [b]) cp := by
  rintro ⟨rest, s⟩
  rcases spelling_escape.mp s with ⟨letter, mem, same⟩ | ⟨_, _, _, same⟩ |
    ⟨_, _, _, _, _, _, _, _, _, same⟩
  · cases same
    rw [lookup_short.mpr mem] at found
    cases found
  · cases same
    exact u rfl
  · cases same
    exact u rfl

theorem closed_hex (short : ds.length < 4) (digit : hexDigit b = none)
    (cp : Nat) : ¬Opens (92 :: 117 :: ds ++ [b]) cp := by
  have length : (ds ++ [b]).length + (3 - ds.length) = 4 := by simp; omega
  intro opens
  obtain ⟨v, read, _⟩ := (opens_hex length).mp opens
  exact digits_closed digit read

section
variable {ds : List Nat} {high b : Nat} (first : Quad ds high)
  (isHigh : 0xd800 ≤ high ∧ high ≤ 0xdbff)

include first isHigh

theorem closed_slash (slash : b ≠ 92) (cp : Nat) : ¬Opens (92 :: 117 :: ds ++ [b]) cp := by
  rintro ⟨rest, s⟩
  rw [List.append_assoc] at s
  obtain ⟨es, low, _, _, _, same⟩ := (spelling_high first isHigh).mp s
  cases same
  exact slash rfl

theorem closed_letter (u : b ≠ 117) (cp : Nat) : ¬Opens (92 :: 117 :: ds ++ [92] ++ [b]) cp := by
  rintro ⟨rest, s⟩
  rw [List.append_assoc, List.append_assoc] at s
  obtain ⟨es, low, _, _, _, same⟩ := (spelling_high first isHigh).mp s
  cases same
  exact u rfl

theorem closed_low {es : List Nat} (short : es.length < 4) (digit : hexDigit b = none) (cp : Nat) :
    ¬Opens (92 :: 117 :: ds ++ 92 :: 117 :: es ++ [b]) cp := by
  have length : (es ++ [b]).length + (3 - es.length) = 4 := by simp; omega
  intro opens
  rw [List.append_assoc] at opens
  obtain ⟨v, read, _⟩ := (opens_low first isHigh length).mp opens
  exact digits_closed digit read

end

theorem closed_multi {c b : Nat} {cs : List Nat} (lead : 0x80 ≤ c) (digit : continuation b = none)
    (cp : Nat) : ¬Opens (c :: cs ++ [b]) cp := by
  rw [List.cons_append, opens_multi lead]
  rintro ⟨_, v, _, read, _⟩
  exact digits_closed digit read

/-! ## One byte -/

section
variable {x : StringLexeme} {s : State} {begun : List Nat}

theorem body_follows (general : x.scalarOnly = false) (value : s.value = 0) (b : Nat) :
    (x.body s b).Follows x s [] b := by
  unfold StringLexeme.body
  by_cases quote : b = 34
  · rw [if_pos quote]
    exact ⟨rfl, quote, rfl⟩
  rw [if_neg quote]
  by_cases slash : b = 92
  · subst slash
    refine ⟨fun _ => quote, nofun, rfl, rfl, .escape rfl value, fun _ => unfinished_escape⟩
  rw [if_neg slash]
  by_cases control : b < 0x20
  · rw [if_pos control]
    exact ⟨fun _ => quote, closed_control control⟩
  rw [if_neg control]
  by_cases ascii : b < 0x80
  · rw [if_pos ascii]
    refine ⟨fun _ => quote, fun _ => ?_, fun no => absurd (.inl (by omega)) no⟩
    exact (spelling_ascii ascii slash).mpr ⟨rfl, rfl, by omega, quote⟩
  rw [if_neg ascii]
  have high : 0x80 ≤ b := by omega
  by_cases width : utf8Width b = 0
  · rw [if_pos width]
    exact ⟨fun _ => quote, closed_lead high width⟩
  · rw [if_neg width, general, if_neg Bool.false_ne_true]
    have sizes := utf8Width_cases width
    have short : ([] : List Nat).length + 1 < utf8Width b := by simp; omega
    exact ⟨fun _ => quote, nofun, rfl, rfl, .utf8 rfl high short (by simp) rfl,
      fun _ => unfinished_multi high short⟩

theorem escape_follows (value : s.value = 0) (b : Nat) :
    (StringLexeme.escape s b).Follows x s [92] b := by
  unfold StringLexeme.escape
  by_cases u : b = 117
  · subst u
    have short : ([] : List Nat).length < 4 := by simp
    refine ⟨fun no => (by cases no), fun no => (by cases no), rfl, rfl, .hex rfl short rfl ?_,
      fun _ => unfinished_hex short⟩
    simp [digits, value]
  · rw [if_neg u]
    cases found : shortEscapes.lookup b with
    | none => exact ⟨fun no => (by cases no), closed_escape u found⟩
    | some cp =>
      have spelled := Spelling.short (lookup_short.mp found)
      exact ⟨fun no => (by cases no), fun _ => spelled, fun no => absurd spelled.scalar no⟩

theorem lowSlash_follows (first : Quad ds s.value)
    (isHigh : 0xd800 ≤ s.value ∧ s.value ≤ 0xdbff) (b : Nat) :
    (StringLexeme.lowSlash s b).Follows x s (92 :: 117 :: ds) b := by
  unfold StringLexeme.lowSlash
  by_cases slash : b = 92
  · subst slash
    exact ⟨nofun, nofun, rfl, rfl, .lowU rfl first isHigh,
      fun _ => unfinished_slash first isHigh⟩
  · rw [if_pos slash]
    exact ⟨nofun, closed_slash first isHigh slash⟩

theorem lowU_follows (first : Quad ds s.value)
    (isHigh : 0xd800 ≤ s.value ∧ s.value ≤ 0xdbff) (b : Nat) :
    (StringLexeme.lowU s b).Follows x s (92 :: 117 :: ds ++ [92]) b := by
  unfold StringLexeme.lowU
  by_cases u : b = 117
  · subst u
    have longer : 92 :: 117 :: ds ++ [92] ++ [117] = 92 :: 117 :: ds ++ 92 :: 117 :: [] := by simp
    unfold Decoded.Follows
    rw [longer]
    have short : ([] : List Nat).length < 4 := by simp
    exact ⟨nofun, nofun, rfl, rfl, .lowHex rfl first isHigh short rfl rfl,
      fun _ => unfinished_low first isHigh short⟩
  · rw [if_pos u]
    exact ⟨nofun, closed_letter first isHigh u⟩

/-- Four digits that are no surrogate are a character, and any other no beginning of one. -/
theorem opens_quad {v cp : Nat} (quad : Quad ds v)
    (notHigh : ¬(0xd800 ≤ v ∧ v ≤ 0xdbff)) (opens : Opens (92 :: 117 :: ds) cp) : Scalar v := by
  obtain ⟨w, read, ⟨scalar, within⟩ | ⟨large, within⟩⟩ := (opens_hex (n := 0) quad.length).mp opens
  all_goals cases quad.read.symm.trans read
  · unfold Within at within
    rwa [show v = cp by omega]
  · unfold Within at within
    omega

theorem hex_follows (general : x.scalarOnly = false) (mode : s.mode = .hex)
    (short : ds.length < 4) (left : s.extra = 4 - ds.length)
    (read : digits hexDigit 16 ds 0 = some s.value) (b : Nat) :
    (x.hex s b).Follows x s (92 :: 117 :: ds) b := by
  have next := digits_single (b := b) read
  unfold StringLexeme.hex
  cases digit : hexDigit b with
  | none => exact ⟨nofun, closed_hex short digit⟩
  | some d =>
    rw [digit, Option.map_some] at next
    dsimp only
    rw [general, if_neg Bool.false_ne_true]
    by_cases more : (s.extra - 1) % 256 = 0
    · have last : ds.length = 3 := by omega
      have quad : Quad (ds ++ [b]) (s.value * 16 + d) := ⟨by simp [last], next⟩
      rw [if_neg (not_not_intro more), mode, if_neg nofun]
      by_cases isHigh : 0xd800 ≤ s.value * 16 + d ∧ s.value * 16 + d ≤ 0xdbff
      · rw [if_pos isHigh]
        exact ⟨nofun, nofun, rfl, rfl, .lowSlash rfl quad isHigh,
          fun _ => unfinished_high quad isHigh⟩
      · rw [if_neg isHigh]
        exact ⟨nofun, fun scalar => .unicode scalar quad,
          fun no cp opens => no (opens_quad quad isHigh opens)⟩
    · rw [if_pos more]
      have short : (ds ++ [b]).length < 4 := by simp; omega
      refine ⟨nofun, by rw [mode]; nofun, rfl, rfl, .hex mode short ?_ next,
        fun _ => unfinished_hex short⟩
      simp [left]; omega

theorem lowHex_follows {ds es : List Nat} {high : Nat} (general : x.scalarOnly = false)
    (mode : s.mode = .lowHex) (first : Quad ds high) (isHigh : 0xd800 ≤ high ∧ high ≤ 0xdbff)
    (short : es.length < 4) (left : s.extra = high * 256 + (4 - es.length))
    (read : digits hexDigit 16 es 0 = some s.value) (b : Nat) :
    (x.hex s b).Follows x s (92 :: 117 :: ds ++ 92 :: 117 :: es) b := by
  have next := digits_single (b := b) read
  have longer : 92 :: 117 :: ds ++ 92 :: 117 :: es ++ [b] =
      92 :: 117 :: ds ++ 92 :: 117 :: (es ++ [b]) := by simp
  unfold StringLexeme.hex
  cases digit : hexDigit b with
  | none => exact ⟨nofun, closed_low first isHigh short digit⟩
  | some d =>
    rw [digit, Option.map_some] at next
    dsimp only
    rw [general, if_neg Bool.false_ne_true]
    by_cases more : (s.extra - 1) % 256 = 0
    · have last : es.length = 3 := by omega
      have quad : Quad (es ++ [b]) (s.value * 16 + d) := ⟨by simp [last], next⟩
      rw [if_neg (not_not_intro more), mode, if_pos rfl]
      by_cases out : s.value * 16 + d < 0xdc00 ∨ 0xdfff < s.value * 16 + d
      · rw [if_pos out]
        refine ⟨nofun, fun cp opens => ?_⟩
        rw [longer] at opens
        obtain ⟨v, same, low, within, isLow, _⟩ := (opens_low first isHigh (n := 0)
          quad.length).mp opens
        cases next.symm.trans same
        unfold Within at within
        omega
      · rw [if_neg out]
        have spelled := Spelling.pair first quad isHigh (by omega)
        have upper : (s.extra - 1) / 256 = high := by omega
        have same : StringLexeme.combine ((s.extra - 1) / 256) (s.value * 16 + d) =
            0x10000 + (high - 0xd800) * 1024 + (s.value * 16 + d - 0xdc00) :=
          congrArg (StringLexeme.combine · (s.value * 16 + d)) upper
        unfold Decoded.Follows
        rw [same, longer]
        exact ⟨nofun, fun _ => spelled, fun no => absurd spelled.scalar no⟩
    · rw [if_pos more]
      unfold Decoded.Follows
      rw [longer]
      have short : (es ++ [b]).length < 4 := by simp; omega
      refine ⟨nofun, by rw [mode]; nofun, rfl, rfl, .lowHex mode first isHigh short ?_ next,
        fun _ => unfinished_low first isHigh short⟩
      simp [left]; omega

theorem utf8_follows {c : Nat} {cs : List Nat} (general : x.scalarOnly = false)
    (mode : s.mode = .utf8) (lead : 0x80 ≤ c) (short : cs.length + 1 < utf8Width c)
    (left : s.extra = utf8Width c * 256 + (utf8Width c - 1 - cs.length))
    (read : digits continuation 64 cs (c % 2 ^ (7 - utf8Width c)) = some s.value) (b : Nat) :
    (x.utf8 s b).Follows x s (c :: cs) b := by
  have next := digits_single (b := b) read
  have sizes := utf8Width_cases (b := c) (by omega)
  unfold StringLexeme.utf8
  rw [general, if_neg Bool.false_ne_true]
  cases digit : continuation b with
  | none => exact ⟨nofun, closed_multi lead digit⟩
  | some d =>
    rw [digit, Option.map_some] at next
    dsimp only
    by_cases more : (s.extra - 1) % 256 = 0
    · have last : cs.length + 2 = utf8Width c := by omega
      have width : (s.extra - 1) / 256 = utf8Width c := by omega
      -- nothing but the character itself can come
      have whole : ∀ cp, Opens (c :: cs ++ [b]) cp →
          cp = s.value * 64 + d ∧ utf8Minimum (utf8Width c) ≤ cp ∧ Scalar cp := by
        intro cp opens
        obtain ⟨n, v, length, same, within, least, scalar⟩ := (opens_multi lead).mp opens
        cases next.symm.trans same
        have none : n = 0 := by
          simp at length
          omega
        subst none
        unfold Within at within
        exact ⟨by omega, least, scalar⟩
      rw [if_neg (not_not_intro more), width]
      by_cases small : s.value * 64 + d < utf8Minimum (utf8Width c)
      · rw [if_pos small]
        refine ⟨nofun, fun cp opens => ?_⟩
        obtain ⟨rfl, least, _⟩ := whole cp opens
        omega
      · rw [if_neg small]
        refine ⟨nofun, fun scalar => ?_, fun no cp opens => ?_⟩
        · have whole : (cs ++ [b]).length + 1 = utf8Width c := by simpa using last
          exact (spelling_multi lead).mpr ⟨scalar, whole, next, by omega⟩
        · obtain ⟨rfl, _, scalar⟩ := whole cp opens
          exact no scalar
    · rw [if_pos more]
      have short : (cs ++ [b]).length + 1 < utf8Width c := by simp; omega
      refine ⟨nofun, by rw [mode]; nofun, rfl, rfl, .utf8 mode lead short ?_ next,
        fun _ => unfinished_multi lead short⟩
      simp [left]; omega

/-- In every phase the state follows what is read. -/
theorem decode_follows (general : x.scalarOnly = false) (h : Begun s begun) (b : Nat) :
    (x.decode s b).Follows x s begun b := by
  unfold StringLexeme.decode
  cases h with
  | body mode value => rw [mode]; exact body_follows general value b
  | escape mode value => rw [mode]; exact escape_follows value b
  | hex mode short left read =>
    simp only [mode]
    exact hex_follows general mode short left read b
  | lowSlash mode first isHigh => simp only [mode]; exact lowSlash_follows first isHigh b
  | lowU mode first isHigh => simp only [mode]; exact lowU_follows first isHigh b
  | lowHex mode first isHigh short left read =>
    simp only [mode]
    exact lowHex_follows general mode first isHigh short left read b
  | utf8 mode lead short left read =>
    simp only [mode]
    exact utf8_follows general mode lead short left read b

end

end Gufo.Lexeme
