import Gufo.Json.Tokens

/-!
# The parser accepts the grammar

What is parsed is a text of the value, and every text of a value whose objects have no key twice
and that is nested at most 128 deep is parsed as that value.
-/

namespace Gufo.Json.Octets
open Outcome

/-- What the standard library promises: a double is spelled as a number that reads back as the
double; a number is read as the nearest double, with its sign, unless that is not finite or an
underflow is reported; and underflows are reported below the least normal double only. -/
structure Numbers.Correct (n : Numbers) : Prop where
  token : ∀ x, ∃ t : Token, t.WellFormed ∧ n.toChars x = t.spelling
  round : ∀ x, n.fromChars (n.toChars x) = some x
  nearest : ∀ t : Token, t.WellFormed → ∀ x, n.fromChars t.spelling = some x →
    x.negative = t.negative ∧ Nearest t.magnitude x
  reads : ∀ t : Token, t.WellFormed →
    ((n.fromChars t.spelling).isSome = true ↔ InRange t.magnitude ∧ ¬n.underflows t.spelling)
  underflow : ∀ t : Token, t.WellFormed → n.underflows t.spelling →
    0 < t.magnitude ∧ t.magnitude < (2 ^ 52 : ℕ)

section
variable {n : Numbers} {fuel depth : Nat} {s rest : List Byte}

theorem parseNumber_sound (correct : n.Correct) {v : Value}
    (h : parseNumber n s = .ok (v, rest)) :
    ∃ x text, v = .number x ∧ s = text ++ rest ∧ NumberText n text x := by
  unfold parseNumber at h
  cases scan : scanNumber s with
  | none =>
    rw [scan] at h
    cases h
  | some p =>
    obtain ⟨t, left⟩ := p
    obtain ⟨whole, wf⟩ := scanNumber_sound scan
    rw [scan] at h
    simp only at h
    cases read : n.fromChars t.spelling with
    | none =>
      rw [read] at h
      cases h
    | some x =>
      rw [read] at h
      cases h
      obtain ⟨range, reported⟩ := (correct.reads t wf).mp (by rw [read]; rfl)
      exact ⟨x, t.spelling, rfl, whole, t, wf, rfl, range, reported, read⟩

theorem parseNumber_complete {x : Double} {text : List Byte} (number : NumberText n text x)
    (stop : Ends rest) : parseNumber n (text ++ rest) = .ok (.number x, rest) := by
  obtain ⟨t, wf, rfl, -, -, read⟩ := number
  unfold parseNumber
  simp [scanNumber_complete wf stop, read]

/-! ## What is parsed is a text of the value -/

/-- What the three readers return under one fuel. -/
structure Sound (n : Numbers) (fuel : Nat) : Prop where
  value : ∀ depth s (v : Value) rest, depth ≤ 128 → parseValue n fuel depth s = .ok (v, rest) →
    (∃ w text, s = w ++ text ++ rest ∧ Blank w ∧ v.Text n text) ∧ v.Distinct ∧
      depth + v.depth ≤ 128
  items : ∀ depth s (items : List Value) rest, depth ≤ 128 →
    parseItems n fuel depth s = .ok (items, rest) →
    (∃ body, s = body ++ closeBracket :: rest ∧ ItemsText n items body) ∧ DistinctItems items ∧
      depth + depthItems items ≤ 128
  members : ∀ depth keys s (members : List (List Byte × Value)) rest, depth ≤ 128 →
    parseMembers n fuel depth keys s = .ok (members, rest) →
    (∃ body, s = body ++ closeBrace :: rest ∧ MembersText n members body) ∧
      ((members.map Prod.fst).Nodup ∧ ∀ k ∈ members.map Prod.fst, k ∉ keys) ∧
      DistinctMembers members ∧ depth + depthMembers members ≤ 128

theorem parseKey_sound {key : List Byte} (h : parseKey s = .ok (key, rest)) :
    ∃ w name w', s = w ++ name ++ w' ++ colon :: rest ∧ Blank w ∧ StringText name key ∧
      Blank w' := by
  obtain ⟨w, blank, cut⟩ := skipWs_spec s
  unfold parseKey at h
  cases front : skipWs s with
  | nil =>
    rw [front] at h
    cases h
  | cons c tail =>
    rw [front] at h cut
    simp only at h
    split_ifs at h with quote_
    · obtain ⟨⟨key', left⟩, read, next⟩ := bind_eq_ok.mp h
      obtain ⟨body, whole, chars⟩ := parseString_iff.mp read
      obtain ⟨w', blank', cut'⟩ := skipWs_spec left
      cases front' : skipWs left with
      | nil =>
        rw [front'] at next
        cases next
      | cons d tail' =>
        rw [front'] at next cut'
        simp only at next
        split_ifs at next with colon_
        · cases next
          refine ⟨w, quote :: (body ++ [quote]), w', ?_, blank, ⟨body, rfl, chars⟩, blank'⟩
          rw [cut, quote_, whole, cut', colon_]
          simp
        · cases next
    · cases h

theorem parseBool_sound {v : Value} (h : parseBool s = .ok (v, rest)) :
    ∃ b text, v = .bool b ∧ s = text ++ rest ∧ v.Text n text := by
  unfold parseBool at h
  cases yes : behind [116, 114, 117, 101] s with
  | some left =>
    rw [yes] at h
    cases h
    exact ⟨true, _, rfl, behind_spec.mp yes, by simp [Value.Text]⟩
  | none =>
    rw [yes] at h
    cases no : behind [102, 97, 108, 115, 101] s with
    | some left =>
      rw [no] at h
      cases h
      exact ⟨false, _, rfl, behind_spec.mp no, by simp [Value.Text]⟩
    | none =>
      rw [no] at h
      cases h

theorem parseNull_sound {v : Value} (h : parseNull s = .ok (v, rest)) :
    v = .null ∧ ∃ text, s = text ++ rest ∧ v.Text n text := by
  unfold parseNull at h
  cases yes : behind [110, 117, 108, 108] s with
  | some left =>
    rw [yes] at h
    cases h
    exact ⟨rfl, _, behind_spec.mp yes, by simp [Value.Text]⟩
  | none =>
    rw [yes] at h
    cases h

theorem sound_value (correct : n.Correct) (sound : Sound n fuel) (depth : Nat) (s : List Byte)
    (v : Value) (rest : List Byte) (deep : depth ≤ 128)
    (h : parseValue n (fuel + 1) depth s = .ok (v, rest)) :
    (∃ w text, s = w ++ text ++ rest ∧ Blank w ∧ v.Text n text) ∧ v.Distinct ∧
      depth + v.depth ≤ 128 := by
  obtain ⟨w, blank, cut⟩ := skipWs_spec s
  have placed : ∀ {text}, skipWs s = text ++ rest → s = w ++ text ++ rest := fun same => by
    rw [List.append_assoc, ← same, ← cut]
  unfold parseValue at h
  cases front : skipWs s with
  | nil =>
    rw [front] at h
    cases h
  | cons c tail =>
    rw [front] at h placed
    simp only at h
    split_ifs at h with far brace bracket quote_ bool null
    · cases h
    · have shallow : depth < 128 := by
        by_contra past
        exact far ⟨.inl brace, by omega⟩
      cases empty : behind [closeBrace] (skipWs tail) with
      | some left =>
        rw [empty] at h
        cases h
        obtain ⟨w', blank', cut'⟩ := skipWs_spec tail
        rw [behind_spec.mp empty] at cut'
        refine ⟨⟨w, openBrace :: (w' ++ [closeBrace]), placed ?_, blank, ?_⟩, ?_, ?_⟩
        · rw [brace, cut']
          simp
        · exact ⟨w', rfl, .inl ⟨rfl, blank'⟩⟩
        · exact ⟨List.nodup_nil, trivial⟩
        · exact shallow
      | none =>
        rw [empty] at h
        obtain ⟨⟨members, left⟩, read, same⟩ := map_eq_ok.mp h
        cases same
        obtain ⟨⟨body, whole, text⟩, ⟨nodup, -⟩, distinct, bound⟩ :=
          sound.members _ _ _ _ _ shallow read
        refine ⟨⟨w, openBrace :: (body ++ [closeBrace]), placed ?_, blank, body, rfl, .inr text⟩,
          ⟨nodup, distinct⟩, ?_⟩
        · rw [brace, whole]
          simp
        · simp only [Value.depth]
          omega
    · have shallow : depth < 128 := by
        by_contra past
        exact far ⟨.inr bracket, by omega⟩
      cases empty : behind [closeBracket] (skipWs tail) with
      | some left =>
        rw [empty] at h
        cases h
        obtain ⟨w', blank', cut'⟩ := skipWs_spec tail
        rw [behind_spec.mp empty] at cut'
        refine ⟨⟨w, openBracket :: (w' ++ [closeBracket]), placed ?_, blank, ?_⟩, ?_, ?_⟩
        · rw [bracket, cut']
          simp
        · exact ⟨w', rfl, .inl ⟨rfl, blank'⟩⟩
        · exact trivial
        · exact shallow
      | none =>
        rw [empty] at h
        obtain ⟨⟨items, left⟩, read, same⟩ := map_eq_ok.mp h
        cases same
        obtain ⟨⟨body, whole, text⟩, distinct, bound⟩ := sound.items _ _ _ _ shallow read
        refine ⟨⟨w, openBracket :: (body ++ [closeBracket]), placed ?_, blank, body, rfl,
          .inr text⟩, distinct, ?_⟩
        · rw [bracket, whole]
          simp
        · simp only [Value.depth]
          omega
    · obtain ⟨⟨bytes, left⟩, read, same⟩ := map_eq_ok.mp h
      cases same
      obtain ⟨body, whole, chars⟩ := parseString_iff.mp read
      refine ⟨⟨w, quote :: (body ++ [quote]), placed ?_, blank, body, rfl, chars⟩, trivial, deep⟩
      rw [quote_, whole]
      simp
    · obtain ⟨b, text, rfl, whole, spelled⟩ := @parseBool_sound n _ _ _ h
      exact ⟨⟨w, text, placed whole, blank, spelled⟩, trivial, deep⟩
    · obtain ⟨rfl, text, whole, spelled⟩ := @parseNull_sound n _ _ _ h
      exact ⟨⟨w, text, placed whole, blank, spelled⟩, trivial, deep⟩
    · obtain ⟨x, text, rfl, whole, number⟩ := parseNumber_sound correct h
      exact ⟨⟨w, text, placed whole, blank, number⟩, trivial, deep⟩

theorem sound_items (sound : Sound n fuel) (depth : Nat) (s : List Byte) (items : List Value)
    (rest : List Byte) (deep : depth ≤ 128)
    (h : parseItems n (fuel + 1) depth s = .ok (items, rest)) :
    (∃ body, s = body ++ closeBracket :: rest ∧ ItemsText n items body) ∧ DistinctItems items ∧
      depth + depthItems items ≤ 128 := by
  obtain ⟨⟨v, left⟩, first, next⟩ := bind_eq_ok.mp h
  obtain ⟨⟨w, text, whole, blank, spelled⟩, distinct, bound⟩ := sound.value _ _ _ _ deep first
  obtain ⟨w', blank', cut⟩ := skipWs_spec left
  simp only at next
  cases front : skipWs left with
  | nil =>
    rw [front] at next
    cases next
  | cons c tail =>
    rw [front] at next cut
    simp only at next
    split_ifs at next with comma_ bracket
    · obtain ⟨⟨items, left'⟩, read, same⟩ := map_eq_ok.mp next
      cases same
      obtain ⟨⟨body, whole', spelled'⟩, distinct', bound'⟩ := sound.items _ _ _ _ deep read
      refine ⟨⟨w ++ text ++ w' ++ comma :: body, ?_, w, text, w', blank, spelled, blank',
        .inr ⟨body, rfl, spelled'⟩⟩, ⟨distinct, distinct'⟩, ?_⟩
      · rw [whole, cut, comma_, whole']
        simp
      · simp only [depthItems]
        omega
    · cases next
      refine ⟨⟨w ++ text ++ w', ?_, w, text, w', blank, spelled, blank', .inl ⟨rfl, rfl⟩⟩,
        ⟨distinct, trivial⟩, ?_⟩
      · rw [whole, cut, bracket]
        simp
      · simp only [depthItems]
        omega
    · cases next

theorem sound_members (sound : Sound n fuel) (depth : Nat) (keys : List (List Byte))
    (s : List Byte) (members : List (List Byte × Value)) (rest : List Byte) (deep : depth ≤ 128)
    (h : parseMembers n (fuel + 1) depth keys s = .ok (members, rest)) :
    (∃ body, s = body ++ closeBrace :: rest ∧ MembersText n members body) ∧
      ((members.map Prod.fst).Nodup ∧ ∀ k ∈ members.map Prod.fst, k ∉ keys) ∧
      DistinctMembers members ∧ depth + depthMembers members ≤ 128 := by
  obtain ⟨⟨key, behind⟩, named, next⟩ := bind_eq_ok.mp h
  obtain ⟨w₀, name, w₁, start, blank₀, string, blank₁⟩ := parseKey_sound named
  simp only at next
  split_ifs at next with seen
  · cases next
  obtain ⟨⟨v, left⟩, first, last⟩ := bind_eq_ok.mp next
  obtain ⟨⟨w, text, whole, blank, spelled⟩, distinct, bound⟩ := sound.value _ _ _ _ deep first
  obtain ⟨w', blank', cut⟩ := skipWs_spec left
  cases front : skipWs left with
  | nil =>
    rw [front] at last
    cases last
  | cons c tail =>
    rw [front] at last cut
    simp only at last
    split_ifs at last with comma_ brace
    · obtain ⟨⟨members, left'⟩, read, same⟩ := map_eq_ok.mp last
      cases same
      obtain ⟨⟨body, whole', spelled'⟩, ⟨nodup, fresh⟩, distinct', bound'⟩ :=
        sound.members _ _ _ _ _ deep read
      refine ⟨⟨w₀ ++ name ++ w₁ ++ colon :: (w ++ text ++ w' ++ comma :: body), ?_, w₀, name, w₁, w,
        text, w', blank₀, string, blank₁, blank, spelled, blank', .inr ⟨body, rfl, spelled'⟩⟩,
        ⟨?_, ?_⟩, ⟨distinct, distinct'⟩, ?_⟩
      · rw [start, whole, cut, comma_, whole']
        simp
      · exact List.nodup_cons.mpr ⟨fun again => fresh key again (List.mem_cons_self ..), nodup⟩
      · intro k mem old
        cases mem with
        | head => exact seen old
        | tail _ mem => exact fresh k mem (List.mem_cons_of_mem _ old)
      · simp only [depthMembers]
        omega
    · cases last
      refine ⟨⟨w₀ ++ name ++ w₁ ++ colon :: (w ++ text ++ w'), ?_, w₀, name, w₁, w, text, w',
        blank₀, string, blank₁, blank, spelled, blank', .inl ⟨rfl, rfl⟩⟩,
        ⟨List.nodup_singleton _, fun k mem => ?_⟩, ⟨distinct, trivial⟩, ?_⟩
      · rw [start, whole, cut, brace]
        simp
      · rwa [List.mem_singleton.mp mem]
      · simp only [depthMembers]
        omega
    · cases last

theorem sound (correct : n.Correct) (fuel : Nat) : Sound n fuel := by
  induction fuel with
  | zero => exact ⟨nofun, nofun, nofun⟩
  | succ fuel ih => exact ⟨sound_value correct ih, sound_items ih, sound_members ih⟩

/-! ## Every text of a value is parsed -/

/-- What can stand behind a value. -/
def Follows (rest : List Byte) : Prop :=
  ∀ c ∈ rest.head?, isBlank c = true ∨ c = comma ∨ c = closeBracket ∨ c = closeBrace

theorem Follows.ends (h : Follows rest) : Ends rest := by
  intro c head
  rcases h c head with blank | rfl | rfl | rfl
  · simp only [isBlank, Bool.or_eq_true, beq_iff_eq] at blank
    rcases blank with ((rfl | rfl) | rfl) | rfl <;> decide
  · decide
  · decide
  · decide

/-- Blanks, and then a mark that follows a value. -/
theorem follows_blank {w : List Byte} (blank : Blank w) (h : Follows rest) :
    Follows (w ++ rest) := by
  cases w with
  | nil => exact h
  | cons c w =>
    intro d head
    cases head
    exact .inl (blank c (List.mem_cons_self ..))

theorem follows_cons {c : Byte} (mark : c = comma ∨ c = closeBracket ∨ c = closeBrace) :
    Follows (c :: rest) := by
  intro d head
  cases head
  exact .inr mark

/-- The first byte of a number. -/
theorem spelling_head {t : Token} (wf : t.WellFormed) :
    ∃ c tail, t.spelling = c :: tail ∧ ∀ k, isDigit k = false → k ≠ minus → c ≠ k := by
  have text := spelling_eq t []
  rw [List.append_nil] at text
  cases sign : t.negative with
  | true =>
    rw [sign] at text
    exact ⟨minus, _, text, fun k _ other => other.symm⟩
  | false =>
    rw [sign] at text
    cases whole : t.whole with
    | nil => exact absurd whole wf.nonempty
    | cons c more =>
      rw [whole] at text
      refine ⟨c, _, text, ?_⟩
      rintro k letter - rfl
      have digit := wf.whole c (whole ▸ List.mem_cons_self ..)
      rw [letter] at digit
      cases digit

theorem not_blank {c : Byte} (other : ∀ k, isDigit k = false → k ≠ minus → c ≠ k) :
    isBlank c = false := by
  simp only [isBlank, Bool.or_eq_false_iff, beq_eq_false_iff_ne]
  exact ⟨⟨⟨other _ rfl (by decide), other _ rfl (by decide)⟩, other _ rfl (by decide)⟩,
    other _ rfl (by decide)⟩

/-- The first byte of a value. -/
theorem text_head {v : Value} {text : List Byte} (h : v.Text n text) :
    ∃ c tail, text = c :: tail ∧ isBlank c = false ∧ c ≠ closeBracket := by
  cases v with
  | null =>
    exact ⟨_, _, h, rfl, by decide⟩
  | bool b =>
    cases b with
    | true => exact ⟨_, _, h, rfl, by decide⟩
    | false => exact ⟨_, _, h, rfl, by decide⟩
  | number x =>
    obtain ⟨t, wf, rfl, -⟩ := h
    obtain ⟨c, tail, text, other⟩ := spelling_head wf
    exact ⟨c, tail, text, not_blank other, other _ rfl (by decide)⟩
  | string s =>
    obtain ⟨body, rfl, -⟩ := h
    exact ⟨_, _, rfl, rfl, by decide⟩
  | array items =>
    obtain ⟨body, rfl, -⟩ := h
    exact ⟨_, _, rfl, rfl, by decide⟩
  | object members =>
    obtain ⟨body, rfl, -⟩ := h
    exact ⟨_, _, rfl, rfl, by decide⟩

/-- What the three readers do with a text of a value, under one fuel. -/
structure Complete (n : Numbers) (fuel : Nat) : Prop where
  value : ∀ (v : Value) w text depth rest, v.Text n text → v.Distinct → depth + v.depth ≤ 128 →
    text.length < fuel → Blank w → Follows rest →
    parseValue n fuel depth (w ++ (text ++ rest)) = .ok (v, rest)
  items : ∀ items body depth rest, ItemsText n items body → DistinctItems items →
    depth + depthItems items ≤ 128 → body.length + 1 < fuel →
    parseItems n fuel depth (body ++ closeBracket :: rest) = .ok (items, rest)
  members : ∀ members body depth keys rest, MembersText n members body →
    (members.map Prod.fst).Nodup → (∀ k ∈ members.map Prod.fst, k ∉ keys) →
    DistinctMembers members → depth + depthMembers members ≤ 128 → body.length + 1 < fuel →
    parseMembers n fuel depth keys (body ++ closeBrace :: rest) = .ok (members, rest)

theorem behind_none {c d : Byte} {tail : List Byte} (differs : d ≠ c) :
    behind [c] (d :: tail) = none := by
  refine if_neg fun begins => differs ?_
  obtain ⟨rest, same⟩ := List.isPrefixOf_iff_prefix.mp begins
  exact (List.cons.inj same).1.symm

theorem items_head {items : List Value} {body : List Byte} (h : ItemsText n items body) :
    behind [closeBracket] (skipWs (body ++ rest)) = none := by
  cases items with
  | nil => exact absurd h id
  | cons v more =>
    obtain ⟨w, text, w', blank, spelled, -, cut⟩ := h
    obtain ⟨c, tail, rfl, visible, other⟩ := text_head spelled
    rcases cut with ⟨-, rfl⟩ | ⟨_, rfl, -⟩
    · rw [List.append_assoc, List.append_assoc, skipWs_blank blank, List.cons_append,
        skipWs_cons visible]
      exact behind_none other
    · rw [List.append_assoc, List.append_assoc, List.append_assoc, skipWs_blank blank,
        List.cons_append, skipWs_cons visible]
      exact behind_none other

theorem members_head {members : List (List Byte × Value)} {body : List Byte}
    (h : MembersText n members body) :
    behind [closeBrace] (skipWs (body ++ rest)) = none := by
  have differs : quote ≠ closeBrace := by decide
  have visible : isBlank quote = false := rfl
  cases members with
  | nil => exact absurd h id
  | cons m more =>
    obtain ⟨w, name, w', before, text, after, blank, ⟨chars, rfl, -⟩, -, -, -, -, cut⟩ := h
    rcases cut with ⟨-, rfl⟩ | ⟨_, rfl, -⟩
    · rw [List.append_assoc, List.append_assoc, List.append_assoc, skipWs_blank blank,
        List.cons_append, skipWs_cons visible]
      exact behind_none differs
    · rw [List.append_assoc, List.append_assoc, List.append_assoc, skipWs_blank blank,
        List.cons_append, skipWs_cons visible]
      exact behind_none differs

theorem complete_value (complete : Complete n fuel) (v : Value) (w text : List Byte) (depth : Nat)
    (rest : List Byte) (h : v.Text n text) (distinct : v.Distinct) (deep : depth + v.depth ≤ 128)
    (long : text.length < fuel + 1) (blank : Blank w) (stop : Follows rest) :
    parseValue n (fuel + 1) depth (w ++ (text ++ rest)) = .ok (v, rest) := by
  obtain ⟨c, tail, cut, visible, -⟩ := text_head h
  have front : skipWs (w ++ (text ++ rest)) = c :: (tail ++ rest) := by
    rw [skipWs_blank blank, cut, List.cons_append, skipWs_cons visible]
  unfold parseValue
  rw [front]
  simp only
  cases v with
  | null =>
    cases cut.symm.trans h
    rfl
  | bool b =>
    cases b with
    | true =>
      cases cut.symm.trans h
      rfl
    | false =>
      cases cut.symm.trans h
      rfl
  | number x =>
    have number : NumberText n text x := h
    obtain ⟨t, wf, rfl, -⟩ := h
    obtain ⟨d, tail', text', other⟩ := spelling_head wf
    obtain ⟨rfl, rfl⟩ := List.cons.inj (cut.symm.trans text')
    have brace : c ≠ openBrace := other _ rfl (by decide)
    have bracket : c ≠ openBracket := other _ rfl (by decide)
    have no_bool : ¬(c = 116 ∨ c = 102) :=
      not_or.mpr ⟨other _ rfl (by decide), other _ rfl (by decide)⟩
    rw [if_neg (fun far => not_or.mpr ⟨brace, bracket⟩ far.1), if_neg brace, if_neg bracket,
      if_neg (other _ rfl (by decide)), if_neg no_bool, if_neg (other _ rfl (by decide)),
      ← List.cons_append, ← cut]
    exact parseNumber_complete number stop.ends
  | string s =>
    obtain ⟨body, rfl, chars⟩ := h
    cases cut
    have read : parseString (body ++ quote :: rest) = .ok (s, rest) :=
      parseString_iff.mpr ⟨body, rfl, chars⟩
    have no_brace : ¬((quote = openBrace ∨ quote = openBracket) ∧ 128 ≤ depth) :=
      fun far => absurd far.1 (by decide)
    have other : quote ≠ openBrace ∧ quote ≠ openBracket := by decide
    rw [if_neg no_brace, if_neg other.1, if_neg other.2, if_pos rfl, List.append_assoc,
      List.singleton_append, read]
    rfl
  | array items =>
    obtain ⟨body, rfl, spelled⟩ := h
    cases cut
    simp only [Value.depth] at deep
    simp only [List.length_cons, List.length_append, List.length_nil] at long
    have shallow : ¬((openBracket = openBrace ∨ openBracket = openBracket) ∧ 128 ≤ depth) :=
      fun far => by omega
    have no_brace : openBracket ≠ openBrace := by decide
    rw [if_neg shallow, if_neg no_brace, if_pos rfl, List.append_assoc, List.singleton_append]
    rcases spelled with ⟨rfl, blank'⟩ | spelled
    · rw [skipWs_blank blank', skipWs_cons rfl]
      rfl
    · rw [items_head spelled]
      rw [complete.items items body (depth + 1) rest spelled distinct (by omega) (by omega)]
      rfl
  | object members =>
    obtain ⟨body, rfl, spelled⟩ := h
    cases cut
    simp only [Value.depth] at deep
    simp only [List.length_cons, List.length_append, List.length_nil] at long
    have shallow : ¬((openBrace = openBrace ∨ openBrace = openBracket) ∧ 128 ≤ depth) :=
      fun far => by omega
    rw [if_neg shallow, if_pos rfl, List.append_assoc, List.singleton_append]
    rcases spelled with ⟨rfl, blank'⟩ | spelled
    · rw [skipWs_blank blank', skipWs_cons rfl]
      rfl
    · rw [members_head spelled]
      rw [complete.members members body (depth + 1) [] rest spelled distinct.1
        (fun k _ => List.not_mem_nil) distinct.2 (by omega) (by omega)]
      rfl

theorem complete_items (complete : Complete n fuel) (items : List Value) (body : List Byte)
    (depth : Nat) (rest : List Byte) (h : ItemsText n items body) (distinct : DistinctItems items)
    (deep : depth + depthItems items ≤ 128) (long : body.length + 1 < fuel + 1) :
    parseItems n (fuel + 1) depth (body ++ closeBracket :: rest) = .ok (items, rest) := by
  cases items with
  | nil => exact absurd h id
  | cons v more =>
    obtain ⟨w, text, w', blank, spelled, blank', cut⟩ := h
    simp only [depthItems] at deep
    unfold parseItems
    rcases cut with ⟨rfl, rfl⟩ | ⟨body, rfl, spelled'⟩
    · simp only [List.length_append] at long
      rw [List.append_assoc, List.append_assoc,
        complete.value v w text depth (w' ++ closeBracket :: rest) spelled distinct.1 (by omega)
          (by omega) blank (follows_blank blank' (follows_cons (by decide))), ok_bind]
      simp only
      rw [skipWs_blank blank', skipWs_cons rfl]
      rfl
    · simp only [List.length_append, List.length_cons] at long
      have next := complete.items more body depth rest spelled' distinct.2 (by omega) (by omega)
      rw [List.append_assoc, List.append_assoc, List.append_assoc, List.cons_append,
        complete.value v w text depth (w' ++ comma :: (body ++ closeBracket :: rest)) spelled
          distinct.1 (by omega) (by omega) blank (follows_blank blank' (follows_cons (.inl rfl))),
        ok_bind]
      simp only
      rw [skipWs_blank blank', skipWs_cons rfl]
      simp only [if_true]
      rw [next]
      rfl

theorem parseKey_complete {w name w' key : List Byte} (blank : Blank w)
    (string : StringText name key) (blank' : Blank w') :
    parseKey (w ++ (name ++ (w' ++ colon :: rest))) = .ok (key, rest) := by
  obtain ⟨body, rfl, chars⟩ := string
  have read : parseString (body ++ quote :: (w' ++ colon :: rest)) =
      .ok (key, w' ++ colon :: rest) := parseString_iff.mpr ⟨body, rfl, chars⟩
  unfold parseKey
  rw [skipWs_blank blank, List.cons_append, skipWs_cons rfl, List.append_assoc,
    List.singleton_append]
  simp only [if_true]
  rw [read, ok_bind]
  rw [skipWs_blank blank', skipWs_cons rfl]
  rfl

theorem complete_members (complete : Complete n fuel) (members : List (List Byte × Value))
    (body : List Byte) (depth : Nat) (keys : List (List Byte)) (rest : List Byte)
    (h : MembersText n members body) (nodup : (members.map Prod.fst).Nodup)
    (fresh : ∀ k ∈ members.map Prod.fst, k ∉ keys) (distinct : DistinctMembers members)
    (deep : depth + depthMembers members ≤ 128) (long : body.length + 1 < fuel + 1) :
    parseMembers n (fuel + 1) depth keys (body ++ closeBrace :: rest) = .ok (members, rest) := by
  cases members with
  | nil => exact absurd h id
  | cons m more =>
    obtain ⟨key, v⟩ := m
    obtain ⟨w₀, name, w₁, w, text, w', blank₀, string, blank₁, blank, spelled, blank', cut⟩ := h
    simp only [depthMembers] at deep
    have new : key ∉ keys := fresh key (List.mem_cons_self ..)
    obtain ⟨fresh', nodup'⟩ := List.nodup_cons.mp nodup
    unfold parseMembers
    rcases cut with ⟨rfl, rfl⟩ | ⟨body, rfl, spelled'⟩
    · simp only [List.length_append, List.length_cons] at long
      have named := @parseKey_complete (w ++ (text ++ (w' ++ closeBrace :: rest))) _ _ _ _ blank₀
        string blank₁
      have first := complete.value v w text depth (w' ++ closeBrace :: rest) spelled distinct.1
        (by omega) (by omega) blank (follows_blank blank' (follows_cons (by decide)))
      simp only [List.append_assoc, List.cons_append]
      rw [named, ok_bind]
      simp only [if_neg new]
      rw [first, ok_bind]
      rw [skipWs_blank blank', skipWs_cons rfl]
      rfl
    · simp only [List.length_append, List.length_cons] at long
      have named := @parseKey_complete
        (w ++ (text ++ (w' ++ comma :: (body ++ closeBrace :: rest)))) _ _ _ _ blank₀ string blank₁
      have first := complete.value v w text depth (w' ++ comma :: (body ++ closeBrace :: rest))
        spelled distinct.1 (by omega) (by omega) blank
        (follows_blank blank' (follows_cons (.inl rfl)))
      have next := complete.members more body depth (key :: keys) rest spelled' nodup'
        (fun k mem old => by
          cases old with
          | head => exact fresh' mem
          | tail _ old => exact fresh k (List.mem_cons_of_mem _ mem) old)
        distinct.2 (by omega) (by omega)
      simp only [List.append_assoc, List.cons_append]
      rw [named, ok_bind]
      simp only [if_neg new]
      rw [first, ok_bind]
      rw [skipWs_blank blank', skipWs_cons rfl]
      simp only [if_true]
      rw [next]
      rfl

theorem complete (fuel : Nat) : Complete n fuel := by
  induction fuel with
  | zero =>
    exact ⟨fun _ _ _ _ _ _ _ _ long => absurd long (Nat.not_lt_zero _),
      fun _ _ _ _ _ _ _ long => absurd long (Nat.not_lt_zero _),
      fun _ _ _ _ _ _ _ _ _ _ long => absurd long (Nat.not_lt_zero _)⟩
  | succ fuel ih => exact ⟨complete_value ih, complete_items ih, complete_members ih⟩

/-- A text is parsed as a value exactly when it is a text of it, no object has a key twice and
nothing is nested too deep. -/
theorem parse_iff (correct : n.Correct) {text : List Byte} {v : Value} :
    parse n text = .ok v ↔ Document n text v ∧ v.Distinct ∧ v.depth ≤ 128 := by
  unfold parse
  constructor
  · intro h
    obtain ⟨⟨v', left⟩, read, last⟩ := bind_eq_ok.mp h
    simp only at last
    split_ifs at last with ends
    · cases last
      obtain ⟨⟨w, body, whole, blank, spelled⟩, distinct, bound⟩ :=
        (sound correct _).value _ _ _ _ (by decide) read
      rw [Nat.zero_add] at bound
      exact ⟨⟨w, body, left, whole, blank, spelled, skipWs_nil.mp ends⟩, distinct, bound⟩
    · cases last
  · rintro ⟨⟨w, body, w', rfl, blank, spelled, blank'⟩, distinct, bound⟩
    have stop : Follows w' := by
      have := @follows_blank [] _ blank' nofun
      rwa [List.append_nil] at this
    have read := (complete (n := n) ((w ++ body ++ w').length + 1)).value v w body 0 w' spelled
      distinct (by omega) (by simp only [List.length_append]; omega) blank stop
    rw [← List.append_assoc] at read
    rw [read, ok_bind]
    simp only
    rw [if_pos (skipWs_nil.mpr blank')]

end

end Gufo.Json.Octets
