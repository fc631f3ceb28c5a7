import Mathlib.Tactic.Ring

/-!
# Byte streams

Little-endian words, a writer with a size limit and a reader over the bytes that
are left. `Writes` says which bytes a writer adds, `Reads` which bytes a reader
takes and what it makes of them; both compose along `bind` and over lists, so the
layout of a format is stated once and proved field by field.
-/

namespace Gufo.Wire

/-! ## Little-endian words -/

/-- The `width` low bytes of `n`, least significant first. -/
def leBytes : Nat → UInt64 → List UInt8
  | 0, _ => []
  | width + 1, n => n.toUInt8 :: leBytes width (n >>> 8)

/-- The word whose byte `i` is shifted to its place. -/
def assemble : Nat → List UInt8 → UInt64
  | _, [] => 0
  | i, b :: rest => (b.toUInt64 <<< (8 * i).toUInt64) ||| assemble (i + 1) rest

/-- The number a little-endian byte string stands for. -/
def value : List UInt8 → Nat
  | [] => 0
  | b :: rest => b.toNat + 256 * value rest

@[simp] theorem length_leBytes (width : Nat) (n : UInt64) : (leBytes width n).length = width := by
  induction width generalizing n with
  | zero => rfl
  | succ width ih => simp [leBytes, ih]

theorem value_lt (l : List UInt8) : value l < 256 ^ l.length := by
  induction l with
  | nil => simp [value]
  | cons b rest ih =>
    have byte := b.toNat_lt
    simp only [value, List.length_cons, pow_succ]
    omega

theorem value_leBytes (width : Nat) (n : UInt64) :
    value (leBytes width n) = n.toNat % 256 ^ width := by
  induction width generalizing n with
  | zero => simp [leBytes, value, Nat.mod_one]
  | succ width ih =>
    have shifted : (n >>> 8).toNat = n.toNat / 256 := by
      simp [UInt64.toNat_shiftRight, Nat.shiftRight_eq_div_pow]
    have low : n.toUInt8.toNat = n.toNat % 256 := by simp
    simp only [leBytes, value, ih, shifted, low]
    rw [pow_succ', Nat.mod_mul]

variable {l k : List UInt8}

theorem leBytes_injective (length : l.length = k.length)
    (same : value l = value k) : l = k := by
  induction l generalizing k with
  | nil => simpa [eq_comm] using length
  | cons b rest ih =>
    cases k with
    | nil => simp at length
    | cons c tail =>
      have byte := b.toNat_lt
      have byte' := c.toNat_lt
      simp only [value] at same
      have head : b.toNat = c.toNat := by omega
      have rests : value rest = value tail := by omega
      rw [UInt8.toNat_inj.mp head, ih (by simpa using length) rests]

variable {l : List UInt8}

/-- Bytes that fit in a word are put at their places without overlap. -/
theorem toNat_assemble {i : Nat} (fits : i + l.length ≤ 8) :
    (assemble i l).toNat = 256 ^ i * value l := by
  induction l generalizing i with
  | nil => simp [assemble, value]
  | cons b rest ih =>
    simp only [List.length_cons] at fits
    have later := ih (i := i + 1) (by omega)
    have byte := b.toNat_lt
    have place : (b.toUInt64 <<< (8 * i).toUInt64).toNat = 256 ^ i * b.toNat := by
      have small : 8 * i < 64 := by omega
      have power : (256 : Nat) ^ i * 256 ≤ 2 ^ 64 := by
        calc (256 : Nat) ^ i * 256 = 256 ^ (i + 1) := by ring
          _ ≤ 256 ^ 8 := Nat.pow_le_pow_right (by decide) (by omega)
          _ = 2 ^ 64 := by decide
      have amount : (8 * i).toUInt64.toNat = 8 * i := by
        simp [Nat.toUInt64]
        omega
      have scale : (2 : Nat) ^ (8 * i) = 256 ^ i := by
        rw [pow_mul]
        rfl
      rw [UInt64.toNat_shiftLeft, amount, Nat.mod_eq_of_lt small, UInt8.toNat_toUInt64,
        Nat.shiftLeft_eq, scale, Nat.mul_comm]
      apply Nat.mod_eq_of_lt
      exact Nat.lt_of_lt_of_le (Nat.mul_lt_mul_of_pos_left byte (Nat.pow_pos (by decide))) power
    have scale : (2 : Nat) ^ (8 * (i + 1)) = 256 ^ (i + 1) := by
      rw [pow_mul]
      rfl
    have below : 256 ^ i * b.toNat < 2 ^ (8 * (i + 1)) := by
      rw [scale, pow_succ]
      exact Nat.mul_lt_mul_of_pos_left byte (Nat.pow_pos (by decide))
    simp only [assemble, value]
    rw [UInt64.toNat_or, place, later, ← scale, Nat.or_comm,
      ← Nat.two_pow_add_eq_or_of_lt below, scale]
    ring

theorem assemble_leBytes {width : Nat} (word : width ≤ 8) {n : UInt64}
    (fits : n.toNat < 256 ^ width) : assemble 0 (leBytes width n) = n := by
  apply UInt64.toNat_inj.mp
  rw [toNat_assemble (by simpa using word), value_leBytes, Nat.mod_eq_of_lt fits]
  simp

theorem leBytes_assemble (word : l.length ≤ 8) :
    leBytes l.length (assemble 0 l) = l := by
  apply leBytes_injective (by simp)
  rw [value_leBytes, toNat_assemble (by simpa using word), pow_zero, one_mul,
    Nat.mod_eq_of_lt (value_lt l)]

theorem assemble_lt (word : l.length ≤ 8) :
    (assemble 0 l).toNat < 256 ^ l.length := by
  rw [toNat_assemble (by simpa using word), pow_zero, one_mul]
  exact value_lt l

/-! ## Writers and readers

A writer's state is the bytes written so far, a reader's the bytes that are left. -/

abbrev Stream := StateT (List UInt8) Option

/-- The writer adds exactly `l`, wherever that stays within `limit`. -/
def Writes (limit : Nat) (w : Stream Unit) (l : List UInt8) : Prop :=
  ∀ bytes : List UInt8, bytes.length + l.length ≤ limit → w bytes = some ((), bytes ++ l)

/-- The reader takes exactly `l` and returns `a`, whatever follows. -/
def Reads {α : Type} (r : Stream α) (l : List UInt8) (a : α) : Prop :=
  ∀ rest : List UInt8, r (l ++ rest) = some (a, rest)

/-- A check that ends the stream. -/
def reject (c : Prop) [Decidable c] : Stream Unit := fun bytes => if c then none else some ((),
  bytes)

variable {bytes rest : List UInt8}

section
variable {α β : Type} {limit : Nat}

theorem writes_bind {w : Stream Unit} {v : Unit → Stream Unit}
    (first : Writes limit w l) (second : Writes limit (v ()) k) :
    Writes limit (w >>= v) (l ++ k) := by
  intro bytes fits
  simp only [List.length_append] at fits
  have here := first bytes (by omega)
  have there := second (bytes ++ l) (by simp only [List.length_append]; omega)
  simp only [bind, StateT.bind, here]
  rw [← List.append_assoc]
  exact there

variable {layout : α → List UInt8}

theorem writes_forM {f : α → Stream Unit} {as : List α}
    (each : ∀ a ∈ as, Writes limit (f a) (layout a)) :
    Writes limit (as.forM f) (as.flatMap layout) := by
  induction as with
  | nil =>
    intro bytes _
    rw [List.flatMap_nil, List.append_nil]
    rfl
  | cons a rest ih =>
    simp only [List.forM_eq_forM, List.forM_cons, List.flatMap_cons]
    apply writes_bind (each a (by simp))
    simpa using ih fun b hb => each b (by simp [hb])

theorem reads_pure (a : α) : Reads (pure a) [] a := fun _ => rfl

theorem reads_bind {r : Stream α} {f : α → Stream β} {a : α} {b : β}
    (first : Reads r l a) (second : Reads (f a) k b) : Reads (r >>= f) (l ++ k) b := by
  intro rest
  have here := first (k ++ rest)
  simp only [bind, StateT.bind, List.append_assoc, here]
  exact second rest

theorem reads_return {r : Stream α} {a : α} (h : Reads r l a) (g : α → β) :
    Reads (r >>= fun x => pure (g x)) l (g a) := by
  have all := reads_bind (f := fun x => pure (g x)) h (reads_pure _)
  rwa [List.append_nil] at all

/-- Reads `n` items one after the other. -/
def many (r : Stream α) : Nat → Stream (List α)
  | 0 => pure []
  | n + 1 => do
    let a ← r
    let rest ← many r n
    return a :: rest

theorem reads_many {r : Stream α} {as : List α}
    (each : ∀ a ∈ as, Reads r (layout a) a) :
    Reads (many r as.length) (as.flatMap layout) as := by
  induction as with
  | nil => exact reads_pure []
  | cons a rest ih =>
    have tail := ih fun b hb => each b (by simp [hb])
    exact reads_bind (each a (by simp)) (reads_return tail fun rest => a :: rest)

/-- A run of a composed reader, taken apart. -/
theorem of_bind {r : Stream α} {f : α → Stream β} {b : β}
    (h : (r >>= f) bytes = some (b, rest)) :
    ∃ a mid, r bytes = some (a, mid) ∧ f a mid = some (b, rest) := by
  simp only [bind, StateT.bind] at h
  cases hr : r bytes with
  | none => simp [hr] at h
  | some first =>
    rw [hr] at h
    exact ⟨first.1, first.2, rfl, h⟩

theorem reads_reject {c : Prop} [Decidable c] {f : Unit → Stream β} {b : β}
    (h : ¬c) (body : Reads (f ()) l b) : Reads (reject c >>= f) l b := by
  intro rest
  have run := body rest
  simpa [reject, h, bind, StateT.bind] using run

theorem of_reject {c : Prop} [Decidable c] {f : Unit → Stream β} {b : β}
    (h : (reject c >>= f) bytes = some (b, rest)) : ¬c ∧ f () bytes = some (b, rest) := by
  by_cases hc : c
  · simp [reject, hc, bind, StateT.bind] at h
  · exact ⟨hc, by simpa [reject, hc, bind, StateT.bind] using h⟩

theorem of_failure {a : α} :
    (failure : Stream α) bytes ≠ some (a, rest) := by
  intro h
  cases h

theorem of_pure {a b : α}
    (h : (pure a : Stream α) bytes = some (b, rest)) : a = b ∧ bytes = rest := by
  cases h
  exact ⟨rfl, rfl⟩

theorem of_many {r : Stream α}
    (each : ∀ {bytes a rest}, r bytes = some (a, rest) → bytes = layout a ++ rest) :
    ∀ {n : Nat} {bytes : List UInt8} {as : List α} {rest : List UInt8},
      many r n bytes = some (as, rest) → as.length = n ∧ bytes = as.flatMap layout ++ rest := by
  intro n
  induction n with
  | zero =>
    intro bytes as rest h
    obtain ⟨rfl, rfl⟩ := of_pure h
    simp
  | succ n ih =>
    intro bytes as rest h
    obtain ⟨a, mid, head, tail⟩ := of_bind h
    obtain ⟨others, last, body, done⟩ := of_bind tail
    obtain ⟨rfl, rfl⟩ := of_pure done
    obtain ⟨length, eq⟩ := ih body
    exact ⟨by simp [length], by rw [each head, eq]; simp⟩

end

/-! ## Blocks and words -/

/-- Takes the next `n` bytes. -/
def takeBytes (n : Nat) : Stream (List UInt8) := fun bytes =>
  if n > bytes.length then none else some (bytes.take n, bytes.drop n)

/-- Takes a little-endian word of `width` bytes. -/
def takeWord (width : Nat) : Stream UInt64 := do
  let b ← takeBytes width
  return assemble 0 b

/-- Refuses when fewer than `n` bytes are left. -/
def atLeast (n : Nat) : Stream Unit := fun bytes =>
  if bytes.length < n then none else some ((), bytes)

theorem reads_takeBytes (b : List UInt8) : Reads (takeBytes b.length) b b := by
  intro rest
  simp [takeBytes]

theorem of_takeBytes {n : Nat} {bytes b rest : List UInt8}
    (h : takeBytes n bytes = some (b, rest)) : b.length = n ∧ bytes = b ++ rest := by
  unfold takeBytes at h
  split at h
  · simp at h
  · obtain ⟨rfl, rfl⟩ := h
    exact ⟨by simp; omega, by simp⟩

theorem reads_takeWord {width : Nat} {n : UInt64} (word : width ≤ 8)
    (fits : n.toNat < 256 ^ width) : Reads (takeWord width) (leBytes width n) n := by
  have bytes := reads_takeBytes (leBytes width n)
  rw [length_leBytes] at bytes
  have word := reads_return bytes (assemble 0)
  rwa [assemble_leBytes ‹_› fits] at word

theorem of_takeWord {width : Nat} {n : UInt64} (word : width ≤ 8)
    (h : takeWord width bytes = some (n, rest)) :
    bytes = leBytes width n ++ rest ∧ n.toNat < 256 ^ width := by
  obtain ⟨b, mid, blob, done⟩ := of_bind h
  obtain ⟨rfl, rfl⟩ := of_pure done
  obtain ⟨rfl, eq⟩ := of_takeBytes blob
  exact ⟨by rw [leBytes_assemble word, eq], assemble_lt word⟩

theorem reads_atLeast {β : Type} {n : Nat} {f : Unit → Stream β} {b : β}
    (there : n ≤ l.length) (body : Reads (f ()) l b) : Reads (atLeast n >>= f) l b := by
  intro rest
  have run := body rest
  have enough : ¬(l ++ rest).length < n := by
    rw [List.length_append]
    omega
  simpa only [bind, StateT.bind, atLeast, if_neg enough, Option.bind_some] using run

theorem of_atLeast {β : Type} {n : Nat} {f : Unit → Stream β} {b : β}
    (h : (atLeast n >>= f) bytes = some (b, rest)) : f () bytes = some (b, rest) := by
  obtain ⟨_, mid, guard, done⟩ := of_bind h
  unfold atLeast at guard
  split at guard
  · simp at guard
  · obtain ⟨-, rfl⟩ := guard
    exact done

/-! ## Readers that say why they refuse -/

abbrev Checked := StateT (List UInt8) (Except String)

/-- A group of reads with one message for all of them. -/
def orReject {α : Type} (message : String) (r : Stream α) : Checked α := fun bytes =>
  match r bytes with
  | none => .error message
  | some out => .ok out

/-- The reader takes exactly `l` and returns `a`, whatever follows. -/
def Accepts {α : Type} (r : Checked α) (l : List UInt8) (a : α) : Prop :=
  ∀ rest : List UInt8, r (l ++ rest) = .ok (a, rest)

section
variable {α β : Type}

theorem accepts_pure (a : α) : Accepts (pure a) [] a := fun _ => rfl

theorem accepts_orReject (message : String) {r : Stream α} {a : α}
    (h : Reads r l a) : Accepts (orReject message r) l a := by
  intro rest
  simp [orReject, h rest]

variable {f : α → Checked β}

theorem accepts_bind {r : Checked α} {a : α} {b : β}
    (first : Accepts r l a) (second : Accepts (f a) k b) : Accepts (r >>= f) (l ++ k) b := by
  intro rest
  have here := first (k ++ rest)
  simp only [bind, StateT.bind, List.append_assoc, here, Except.bind]
  exact second rest

/-- A check of values already read takes no bytes. -/
theorem accepts_lift {e : Except String α} {a : α} {b : β}
    (passed : e = .ok a) (body : Accepts (f a) l b) :
    Accepts ((StateT.lift e : Checked α) >>= f) l b := by
  intro rest
  have run := body rest
  subst passed
  simpa [bind, StateT.bind, StateT.lift, Except.bind, pure, Except.pure] using run

theorem of_orReject {message : String} {r : Stream α} {a : α}
    (h : orReject message r bytes = .ok (a, rest)) : r bytes = some (a, rest) := by
  unfold orReject at h
  split at h
  · simp at h
  · rename_i out eq
    simp only [Except.ok.injEq] at h
    rw [eq, h]

theorem of_accepts_bind {r : Checked α} {b : β}
    (h : (r >>= f) bytes = .ok (b, rest)) :
    ∃ a mid, r bytes = .ok (a, mid) ∧ f a mid = .ok (b, rest) := by
  simp only [bind, StateT.bind, Except.bind] at h
  cases hr : r bytes with
  | error message => simp [hr] at h
  | ok first =>
    rw [hr] at h
    exact ⟨first.1, first.2, rfl, h⟩

theorem of_accepts_lift {e : Except String α}
    {b : β} (h : ((StateT.lift e : Checked α) >>= f) bytes = .ok (b, rest)) :
    ∃ a, e = .ok a ∧ f a bytes = .ok (b, rest) := by
  cases e with
  | error message => simp [bind, StateT.bind, StateT.lift, Except.bind] at h
  | ok a => exact ⟨a, rfl, by simpa [bind, StateT.bind, StateT.lift, Except.bind, pure,
      Except.pure] using h⟩

theorem of_accepts_pure {a b : α}
    (h : (pure a : Checked α) bytes = .ok (b, rest)) : a = b ∧ bytes = rest := by
  cases h
  exact ⟨rfl, rfl⟩

end

end Gufo.Wire
