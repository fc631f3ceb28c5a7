import Gufo.Json.Grammar

/-!
# Number tokens

The scanner takes the longest number at the front of a text, and takes every number whole.
-/

namespace Gufo.Json.Octets

/-- No digits go on here. -/
def NoDigit (rest : List Byte) : Prop := ∀ c ∈ rest.head?, isDigit c = false

/-- No number goes on here. -/
def Ends (rest : List Byte) : Prop :=
  ∀ c ∈ rest.head?, isDigit c = false ∧ c ≠ point ∧ c ≠ 101 ∧ c ≠ 69

theorem Ends.noDigit {rest : List Byte} (h : Ends rest) : NoDigit rest :=
  fun c mem => (h c mem).1

theorem ends_nil : Ends [] := nofun

section
variable {s rest ds : List Byte}

theorem scanDigits_sound (h : scanDigits s = some (ds, rest)) :
    s = ds ++ rest ∧ ds ≠ [] ∧ Digits ds := by
  unfold scanDigits at h
  split at h
  · cases h
  · rename_i nonempty
    cases h
    exact ⟨(List.takeWhile_append_dropWhile ..).symm, nonempty,
      fun _ mem => List.mem_takeWhile_imp mem⟩

theorem scanDigits_complete (nonempty : ds ≠ []) (digits : Digits ds) (stop : NoDigit rest) :
    scanDigits (ds ++ rest) = some (ds, rest) := by
  have none : rest.takeWhile isDigit = [] ∧ rest.dropWhile isDigit = rest := by
    cases rest with
    | nil => exact ⟨rfl, rfl⟩
    | cons c rest =>
      have := stop c rfl
      exact ⟨List.takeWhile_cons_of_neg (by rw [this]; exact Bool.false_ne_true),
        List.dropWhile_cons_of_neg (by rw [this]; exact Bool.false_ne_true)⟩
  have take : (ds ++ rest).takeWhile isDigit = ds := by
    rw [List.takeWhile_append_of_pos digits, none.1, List.append_nil]
  have drop : (ds ++ rest).dropWhile isDigit = rest := by
    rw [List.dropWhile_append_of_pos digits, none.2]
  unfold scanDigits
  rw [take, drop]
  cases ds with
  | nil => exact absurd rfl nonempty
  | cons d ds => rfl

theorem scanByte_append (choices s : List Byte) :
    s = (scanByte choices s).1 ++ (scanByte choices s).2 ∧
      ((scanByte choices s).1 = [] ∨ ∃ c ∈ choices, (scanByte choices s).1 = [c]) := by
  unfold scanByte
  split
  · split_ifs with mem
    · exact ⟨rfl, .inr ⟨_, mem, rfl⟩⟩
    · exact ⟨rfl, .inl rfl⟩
  · exact ⟨rfl, .inl rfl⟩

theorem scanByte_none {choices : List Byte} (none : ∀ c ∈ s.head?, c ∉ choices) :
    scanByte choices s = ([], s) := by
  cases s with
  | nil => rfl
  | cons c s => exact if_neg (none c rfl)

theorem scanWhole_sound (h : scanWhole s = some (ds, rest)) :
    s = ds ++ rest ∧ ds ≠ [] ∧ Digits ds ∧ (ds.head? = some 48 → ds = [48]) := by
  unfold scanWhole at h
  split at h
  · split_ifs at h with zero more
    · cases h
      refine ⟨by rw [zero]; rfl, List.cons_ne_nil _ _, ?_, fun _ => rfl⟩
      intro d mem
      rw [List.mem_singleton.mp mem]
      rfl
    · obtain ⟨whole, nonempty, digits⟩ := scanDigits_sound h
      refine ⟨whole, nonempty, digits, fun lead => ?_⟩
      cases ds with
      | nil => cases lead
      | cons d ds =>
        cases lead
        rw [List.cons_append, List.cons.injEq] at whole
        exact absurd whole.1 zero
  · cases h

theorem scanWhole_complete (nonempty : ds ≠ []) (digits : Digits ds)
    (leading : ds.head? = some 48 → ds = [48]) (stop : NoDigit rest) :
    scanWhole (ds ++ rest) = some (ds, rest) := by
  cases ds with
  | nil => exact absurd rfl nonempty
  | cons d ds =>
    by_cases zero : d = 48
    · subst zero
      cases leading rfl
      have stop' : (rest.head?.map isDigit).getD false = false := by
        cases rest with
        | nil => rfl
        | cons c rest => exact stop c rfl
      rw [List.singleton_append, scanWhole, if_pos rfl, stop', if_neg Bool.false_ne_true]
    · have := scanDigits_complete nonempty digits stop
      rw [List.cons_append] at this ⊢
      rw [scanWhole, if_neg zero, this]

/-- What a fraction is spelled as. -/
def fractionText (ds : List Byte) : List Byte := if ds = [] then [] else point :: ds

theorem scanFraction_sound (h : scanFraction s = some (ds, rest)) :
    s = fractionText ds ++ rest ∧ Digits ds := by
  unfold scanFraction at h
  split at h
  · split_ifs at h with dot
    · obtain ⟨whole, nonempty, digits⟩ := scanDigits_sound h
      refine ⟨?_, digits⟩
      rw [fractionText, if_neg nonempty, List.cons_append, ← whole, dot]
    · cases h
      exact ⟨rfl, fun _ mem => absurd mem List.not_mem_nil⟩
  · cases h
    exact ⟨rfl, fun _ mem => absurd mem List.not_mem_nil⟩

theorem scanFraction_complete (digits : Digits ds) (stop : NoDigit rest)
    (dot : ∀ c ∈ rest.head?, c ≠ point) :
    scanFraction (fractionText ds ++ rest) = some (ds, rest) := by
  unfold fractionText
  by_cases none : ds = []
  · subst none
    cases rest with
    | nil => rfl
    | cons c rest => exact if_neg (dot c rfl)
  · rw [if_neg none, List.cons_append, scanFraction, if_pos rfl,
      scanDigits_complete none digits stop]

/-- What an exponent is spelled as. -/
def powerText (p : Option Power) : List Byte := p.elim [] Power.spelling

theorem scanPower_sound {p : Option Power} (h : scanPower s = some (p, rest)) :
    s = powerText p ++ rest ∧ ∀ q ∈ p, q.WellFormed := by
  unfold scanPower at h
  split at h
  · rename_i c s
    split_ifs at h with mark
    · obtain ⟨⟨ds, left⟩, digits, last⟩ := Option.bind_eq_some_iff.mp h
      cases last
      obtain ⟨whole, nonempty, all⟩ := scanDigits_sound digits
      obtain ⟨cut, sign⟩ := scanByte_append [45, 43] s
      refine ⟨?_, fun q mem => ?_⟩
      · conv_lhs => rw [cut, whole]
        simp [powerText, Power.spelling]
      · cases mem
        refine ⟨mark, ?_, nonempty, all⟩
        rcases sign with none | ⟨d, mem, one⟩
        · exact .inl none
        · rw [one]
          simp only [List.mem_cons, List.not_mem_nil, or_false] at mem
          rcases mem with rfl | rfl
          · exact .inr (.inr rfl)
          · exact .inr (.inl rfl)
    · cases h
      exact ⟨rfl, nofun⟩
  · cases h
    exact ⟨rfl, nofun⟩

theorem digits_head (nonempty : ds ≠ []) (digits : Digits ds) {c : Byte}
    (head : (ds ++ rest).head? = some c) : isDigit c = true := by
  cases ds with
  | nil => exact absurd rfl nonempty
  | cons d ds =>
    cases head
    exact digits _ (List.mem_cons_self ..)

theorem scanPower_complete {p : Option Power} (wf : ∀ q ∈ p, q.WellFormed) (stop : Ends rest) :
    scanPower (powerText p ++ rest) = some (p, rest) := by
  cases p with
  | none =>
    cases rest with
    | nil => rfl
    | cons c rest =>
      obtain ⟨-, -, small, large⟩ := stop c rfl
      exact if_neg (not_or.mpr ⟨small, large⟩)
  | some p =>
    obtain ⟨mark, sign, nonempty, digits⟩ := wf p rfl
    have scan : scanByte [45, 43] (p.sign ++ (p.digits ++ rest)) = (p.sign, p.digits ++ rest) := by
      rcases sign with none | plus | minus
      · rw [none, List.nil_append]
        refine scanByte_none fun c head => ?_
        have digit := digits_head nonempty digits head
        rintro mem
        simp only [List.mem_cons, List.not_mem_nil, or_false] at mem
        rcases mem with rfl | rfl <;> cases digit
      · rw [plus]
        rfl
      · rw [minus]
        rfl
    have text : powerText (some p) ++ rest = p.mark :: (p.sign ++ (p.digits ++ rest)) := by
      simp [powerText, Power.spelling]
    rw [text, scanPower, if_pos mark]
    simp [scan, scanDigits_complete nonempty digits stop.noDigit]

end

theorem spelling_eq (t : Token) (rest : List Byte) : t.spelling ++ rest =
    (if t.negative then [minus] else []) ++ (t.whole ++ (fractionText t.fraction ++
      (powerText t.power ++ rest))) := by
  simp [Token.spelling, fractionText, powerText]

theorem scanNumber_sound {s rest : List Byte} {t : Token} (h : scanNumber s = some (t, rest)) :
    s = t.spelling ++ rest ∧ t.WellFormed := by
  unfold scanNumber at h
  simp only [Option.bind_eq_bind, Option.bind_eq_some_iff, Option.pure_def, Prod.exists,
    Option.some.injEq, Prod.mk.injEq] at h
  obtain ⟨whole, left, first, fraction, left', second, power, left'', third, rfl, rfl⟩ := h
  obtain ⟨cut, sign⟩ := scanByte_append [minus] s
  obtain ⟨cut', nonempty, digits, leading⟩ := scanWhole_sound first
  obtain ⟨cut'', digits'⟩ := scanFraction_sound second
  obtain ⟨cut₃, wf⟩ := scanPower_sound third
  refine ⟨?_, nonempty, digits, leading, digits', wf⟩
  rw [spelling_eq]
  conv_lhs => rw [cut, cut', cut'', cut₃]
  rcases sign with none | ⟨c, mem, one⟩
  · rw [none]
    rfl
  · rw [one, List.mem_singleton.mp mem]
    rfl

theorem power_head {p : Option Power} (wf : ∀ q ∈ p, q.WellFormed) {rest : List Byte}
    (stop : Ends rest) : ∀ c ∈ (powerText p ++ rest).head?, isDigit c = false ∧ c ≠ point := by
  intro c head
  cases p with
  | none => exact ⟨(stop c head).1, (stop c head).2.1⟩
  | some p =>
    cases head
    rcases (wf p rfl).mark with small | large
    · rw [small]
      decide
    · rw [large]
      decide

/-- A number is taken whole. -/
theorem scanNumber_complete {t : Token} (wf : t.WellFormed) {rest : List Byte}
    (stop : Ends rest) : scanNumber (t.spelling ++ rest) = some (t, rest) := by
  have behind := power_head wf.power stop
  have fraction : NoDigit (fractionText t.fraction ++ (powerText t.power ++ rest)) := by
    intro c head
    unfold fractionText at head
    split_ifs at head
    · exact (behind c head).1
    · cases head
      rfl
  have sign : scanByte [minus] (t.spelling ++ rest) = (if t.negative then [minus] else [],
      t.whole ++ (fractionText t.fraction ++ (powerText t.power ++ rest))) := by
    rw [spelling_eq]
    cases t.negative with
    | true => rfl
    | false =>
      refine scanByte_none fun c head mem => ?_
      have digit := digits_head wf.nonempty wf.whole head
      rw [List.mem_singleton.mp mem] at digit
      cases digit
  unfold scanNumber
  simp only [sign, scanWhole_complete wf.nonempty wf.whole wf.leading fraction,
    scanFraction_complete wf.fraction (fun c head => (behind c head).1)
      (fun c head => (behind c head).2), scanPower_complete wf.power stop, Option.bind_eq_bind,
    Option.bind_some, Option.pure_def, Option.some.injEq, Prod.mk.injEq, and_true]
  obtain ⟨negative, whole, fraction, power⟩ := t
  cases negative <;> rfl

/-- A token has one spelling, and a spelling one token. -/
theorem spelling_inj {t u : Token} (wf : t.WellFormed) (wf' : u.WellFormed)
    (same : t.spelling = u.spelling) : t = u := by
  have first := scanNumber_complete wf ends_nil
  have second := scanNumber_complete wf' ends_nil
  rw [same, second, Option.some.injEq, Prod.mk.injEq] at first
  exact first.1.symm

end Gufo.Json.Octets
