import Gufo.Store.Claims
import Gufo.Store.Publish

/-!
# The payloads of a manifest

How a manifest's claims, its dependencies and its encoded length follow from its
payloads, and what becomes of them when checksums are filled in.
-/

namespace Gufo.Store
open Gufo.Disk Gufo.Keyed

/-! ## Claims -/

/-- The payload a claim is about. -/
def Claim.payload (c : Claim) : Bool × DiskPayload :=
  (c.key.1, ⟨c.key.2, c.geometry.bytes, c.geometry.checksum⟩)

theorem componentClaims_payload (m : DiskManifest) (c : DiskComponent) :
    (componentClaims m c).map Claim.payload =
      c.chunks.map (fun p => (false, p)) ++
        (c.tail.toList ++ c.privateState.toList).map fun p => (true, p) := by
  simp only [componentClaims, List.map_append, List.map_map, Function.comp_def, Claim.payload,
    geometry]
  have chunks : c.chunks.zipIdx.map (fun x => (false, x.1)) = c.chunks.map fun p => (false, p) := by
    conv_rhs => rw [← List.zipIdx_map_fst 0 c.chunks, List.map_map]
    rfl
  rw [← chunks]

/-- The claims of a manifest are about its payloads, in their order. -/
theorem manifestClaims_payload (m : DiskManifest) :
    (manifestClaims m).map Claim.payload = payloads m := by
  simp only [manifestClaims, payloads, List.map_flatMap]
  exact List.flatMap_congr fun c _ => componentClaims_payload m c

variable {m : DiskManifest}

theorem mem_payloads {p : Bool × DiskPayload} :
    p ∈ payloads m ↔ ∃ c ∈ manifestClaims m, c.payload = p := by
  rw [← manifestClaims_payload, List.mem_map]

variable {key : FileKey}

theorem referenced_iff {entries : List DurableEntry} :
    referenced entries key = true ↔ ∃ e ∈ entries, ∃ p ∈ payloads e.manifest, keyOf p = key := by
  simp [referenced]

theorem Compatible.payload_eq {c d : Claim} (h : Compatible c d) (same : c.key = d.key) :
    c.payload = d.payload := by
  simp [Claim.payload, same, h.geometry]

/-- A consistent manifest has one payload for each file. -/
theorem Consistent.payload_eq (h : Consistent m) {p q : Bool × DiskPayload}
    (hp : p ∈ payloads m) (hq : q ∈ payloads m) (same : keyOf p = keyOf q) : p = q := by
  obtain ⟨c, hc, rfl⟩ := mem_payloads.mp hp
  obtain ⟨d, hd, rfl⟩ := mem_payloads.mp hq
  have forward : (manifestClaims m).Pairwise fun c d => c.key = d.key → c.payload = d.payload :=
    h.imp fun {c d} related same => (related same).payload_eq same
  have backward : (manifestClaims m).Pairwise
      (flip fun c d => c.key = d.key → c.payload = d.payload) :=
    forward.imp fun {c d} eq same => (eq same.symm).symm
  exact forward.forall_of_forall_of_flip (fun _ _ _ => rfl) backward hc hd same

/-! ## Payloads changed -/

theorem payloads_mapPayloads (f : Bool × DiskPayload → DiskPayload) (m : DiskManifest) :
    payloads (mapPayloads f m) = (payloads m).map fun p => (p.1, f p) := by
  simp only [payloads, mapPayloads, List.flatMap_map, List.map_flatMap]
  refine List.flatMap_congr fun c _ => ?_
  cases c.tail <;> cases c.privateState <;> simp [Function.comp_def]

theorem references_mapPayloads (f : Bool × DiskPayload → DiskPayload) (m : DiskManifest) :
    references (mapPayloads f m).components = references m.components := by
  simp only [references, mapPayloads, List.map_map]
  congr 1
  refine List.map_congr_left fun c _ => ?_
  simp [DiskComponent.references]

/-- Changed payloads leave the length of the encoding. -/
theorem length_layout_mapPayloads (f : Bool × DiskPayload → DiskPayload) (m : DiskManifest) :
    (mapPayloads f m).layout.length = m.layout.length := by
  rw [length_manifest_layout, length_manifest_layout, references_mapPayloads]
  simp [mapPayloads]

theorem length_encoded {folding : Bool} {bytes : List UInt8}
    (h : encodeManifest folding m = some bytes) : bytes.length = m.layout.length + 8 := by
  rw [encodeManifest_eq folding (valid_of_encoded h), Option.some.injEq] at h
  simp [← h]

theorem length_encoded_le {folding : Bool} {bytes : List UInt8}
    (h : encodeManifest folding m = some bytes) : bytes.length ≤ maxManifestBytes := by
  have fits := (sized_of_validate (valid_of_encoded h)).fits
  rw [length_encoded h]
  unfold maxManifestBytes at *
  omega

theorem payloads_setChecksum (key : FileKey) (crc : UInt64) (m : DiskManifest) :
    payloads (setChecksum key crc m) = (payloads m).map fun p =>
      if keyOf p = key then (p.1, { p.2 with checksum := crc }) else p := by
  unfold setChecksum
  rw [payloads_mapPayloads]
  refine List.map_congr_left fun p _ => ?_
  by_cases h : keyOf p = key <;> simp [h]

theorem payloads_replacePayload (key : FileKey) (q : DiskPayload) (m : DiskManifest) :
    payloads (replacePayload key q m) =
      (payloads m).map fun p => if keyOf p = key then (p.1, q) else p := by
  unfold replacePayload
  rw [payloads_mapPayloads]
  refine List.map_congr_left fun p _ => ?_
  by_cases h : keyOf p = key <;> simp [h]

/-- A claim with the checksum of one file set. -/
def Claim.attest (key : FileKey) (crc : UInt64) (c : Claim) : Claim :=
  if c.key = key then { c with geometry := { c.geometry with checksum := crc } } else c

@[simp] theorem key_attest (key : FileKey) (crc : UInt64) (c : Claim) :
    (c.attest key crc).key = c.key := by
  unfold Claim.attest
  split <;> rfl

theorem attest_of_ne {c : Claim} (crc : UInt64) (h : c.key ≠ key) :
    c.attest key crc = c := if_neg h

theorem componentClaims_setChecksum (key : FileKey) (crc : UInt64) (m : DiskManifest)
    (c : DiskComponent) :
    componentClaims (setChecksum key crc m)
      { c with
        chunks := c.chunks.map fun p =>
          if keyOf (false, p) = key then { p with checksum := crc } else p
        tail := c.tail.map fun p => if keyOf (true, p) = key then { p with checksum := crc } else p
        privateState := c.privateState.map fun p =>
          if keyOf (true, p) = key then { p with checksum := crc } else p } =
      (componentClaims m c).map (Claim.attest key crc) := by
  have attest (b : Bool) (p : DiskPayload) (first : Nat) :
      (⟨(b, (if keyOf (b, p) = key then { p with checksum := crc } else p).file),
        geometry (setChecksum key crc m) c.descriptor first
          (if keyOf (b, p) = key then { p with checksum := crc } else p)⟩ : Claim) =
        Claim.attest key crc ⟨(b, p.file), geometry m c.descriptor first p⟩ := by
    unfold Claim.attest keyOf
    split <;> rfl
  simp only [componentClaims, List.map_append, List.length_map, List.zipIdx_map, List.map_map,
    Function.comp_def, Prod.map_fst, Prod.map_snd, id_eq, ← attest]
  cases c.tail <;> cases c.privateState <;> simp

theorem manifestClaims_setChecksum (key : FileKey) (crc : UInt64) (m : DiskManifest) :
    manifestClaims (setChecksum key crc m) = (manifestClaims m).map (Claim.attest key crc) := by
  simp only [manifestClaims, List.map_flatMap]
  conv_lhs => rw [setChecksum, mapPayloads, List.flatMap_map]
  exact List.flatMap_congr fun c _ => componentClaims_setChecksum key crc m c

theorem Consistent.setChecksum (h : Consistent m) (key : FileKey)
    (crc : UInt64) : Consistent (setChecksum key crc m) := by
  unfold Consistent Together
  rw [manifestClaims_setChecksum, List.pairwise_map]
  refine List.Pairwise.imp (fun {c d} related same => ?_) h
  rw [key_attest, key_attest] at same
  have pair := related same
  refine ⟨by simpa using pair.left, by simpa using pair.right, ?_⟩
  unfold Claim.attest
  rw [same]
  split
  · simp [pair.geometry]
  · exact pair.geometry

/-- A checksum can be set where the other manifest has no claim. -/
theorem Agree.setChecksum {m n : DiskManifest} (h : Agree m n) (crc : UInt64)
    (free : ∀ p ∈ payloads m, keyOf p ≠ key) : Agree m (setChecksum key crc n) := by
  refine ⟨h.checkpoint, fun c hc d hd same => ?_⟩
  rw [manifestClaims_setChecksum] at hd
  obtain ⟨e, he, rfl⟩ := List.mem_map.mp hd
  rw [key_attest] at same
  have elsewhere : e.key ≠ key := same ▸ free c.payload (mem_payloads.mpr ⟨c, hc, rfl⟩)
  rw [attest_of_ne crc elsewhere]
  exact h.claims c hc e he same

/-! ## Dependencies -/

theorem before_iff {a b : FileKey} : before a b = true ↔
    (a.1 = false ∧ b.1 = true) ∨ (a.1 = b.1 ∧ a.2.toList < b.2.toList) := by
  simp [before]

theorem before_irrefl (a : FileKey) : before a a ≠ true := by
  rw [ne_eq, before_iff]
  rintro (⟨no, yes⟩ | ⟨-, less⟩)
  · rw [no] at yes
    cases yes
  · exact List.lt_irrefl _ less

theorem before_trans {a b c : FileKey} (h : before a b = true) (k : before b c = true) :
    before a c = true := by
  rw [before_iff] at *
  rcases h with ⟨ha, hb⟩ | ⟨hab, less⟩
  · rcases k with ⟨hb', -⟩ | ⟨hbc, -⟩
    · rw [hb] at hb'
      cases hb'
    · exact .inl ⟨ha, hbc ▸ hb⟩
  · rcases k with ⟨hb, hc⟩ | ⟨hbc, less'⟩
    · exact .inl ⟨hab.trans hb, hc⟩
    · exact .inr ⟨hab.trans hbc, List.lt_trans less less'⟩

theorem before_of_not {a b : FileKey} (h : before a b ≠ true) (other : a ≠ b) :
    before b a = true := by
  rw [ne_eq, before_iff] at h
  obtain ⟨x, f⟩ := a
  obtain ⟨y, g⟩ := b
  rw [before_iff]
  cases x <;> cases y <;> simp at h ⊢
  · refine List.not_le.mp fun le => other ?_
    exact congrArg _ (Vector.toList_inj.mp (List.le_antisymm le h))
  · refine List.not_le.mp fun le => other ?_
    exact congrArg _ (Vector.toList_inj.mp (List.le_antisymm le h))

variable {deps : Dependencies} {d : FileKey × DiskPayload}

theorem mem_emplace {p : DiskPayload}
    (h : d ∈ emplace key p deps) : d = (key, p) ∨ d ∈ deps := by
  induction deps with
  | nil => exact .inl (List.mem_singleton.mp h)
  | cons first rest ih =>
    unfold emplace at h
    split at h
    · exact .inr h
    · split at h
      · exact List.mem_cons.mp h
      · rcases List.mem_cons.mp h with rfl | h
        · exact .inr List.mem_cons_self
        · exact (ih h).imp_right (List.mem_cons_of_mem _)

theorem keys_emplace {p : DiskPayload} {k : FileKey} :
    k ∈ (emplace key p deps).map (·.1) ↔ k = key ∨ k ∈ deps.map (·.1) := by
  induction deps with
  | nil => simp [emplace]
  | cons first rest ih =>
    unfold emplace
    split
    · rename_i same
      simp [same]
    · split
      · simp
      · rw [List.map_cons, List.mem_cons, ih, List.map_cons, List.mem_cons]
        exact or_left_comm

/-- In the order of the keys. -/
def Sorted (deps : Dependencies) : Prop := deps.Pairwise fun d e => before d.1 e.1 = true

theorem sorted_emplace {p : DiskPayload} (h : Sorted deps) :
    Sorted (emplace key p deps) := by
  induction deps with
  | nil => exact List.pairwise_singleton _ _
  | cons first rest ih =>
    obtain ⟨head, tail⟩ := List.pairwise_cons.mp h
    unfold emplace
    split
    · exact h
    · rename_i other
      split
      · rename_i less
        refine List.pairwise_cons.mpr ⟨fun d hd => ?_, h⟩
        rcases List.mem_cons.mp hd with rfl | hd
        · exact less
        · exact before_trans less (head d hd)
      · rename_i more
        refine List.pairwise_cons.mpr ⟨fun d hd => ?_, ih tail⟩
        rcases mem_emplace hd with rfl | hd
        · exact before_of_not more other
        · exact head d hd

theorem Sorted.nodup (h : Sorted deps) : (deps.map (·.1)).Nodup := by
  refine List.pairwise_map.mpr (h.imp fun {d e} less same => ?_)
  rw [same] at less
  exact before_irrefl _ less

/-- What holds of every step of the fold that collects the dependencies. -/
theorem dependencies_induction {I : Dependencies → Prop} (start : I [])
    (step : ∀ deps, I deps → ∀ p ∈ payloads m, I (emplace (keyOf p) p.2 deps)) :
    I (dependencies m) := by
  suffices all : ∀ (l : List (Bool × DiskPayload)) deps, (∀ p ∈ l, p ∈ payloads m) → I deps →
      I (l.foldl (fun deps p => emplace (keyOf p) p.2 deps) deps) from all _ _ (fun _ h => h) start
  intro l
  induction l with
  | nil => exact fun _ _ h => h
  | cons p l ih =>
    intro deps inside h
    exact ih _ (fun q hq => inside q (List.mem_cons_of_mem _ hq))
      (step deps h p (inside p List.mem_cons_self))

theorem nodup_dependencies (m : DiskManifest) : ((dependencies m).map (·.1)).Nodup :=
  (dependencies_induction (I := Sorted) List.Pairwise.nil fun _ h _ _ => sorted_emplace h).nodup

/-- A dependency is a payload under its key. -/
theorem payload_of_dependency
    (h : d ∈ dependencies m) : ∃ p ∈ payloads m, keyOf p = d.1 ∧ p.2 = d.2 := by
  refine dependencies_induction
    (I := fun deps => ∀ d ∈ deps, ∃ p ∈ payloads m, keyOf p = d.1 ∧ p.2 = d.2)
    (fun d hd => absurd hd List.not_mem_nil) (fun deps ih p hp d hd => ?_) d h
  rcases mem_emplace hd with rfl | hd
  · exact ⟨p, hp, rfl, rfl⟩
  · exact ih d hd

/-- Every payload has a dependency. -/
theorem dependency_of_payload {p : Bool × DiskPayload} (h : p ∈ payloads m) :
    keyOf p ∈ (dependencies m).map (·.1) := by
  suffices all : ∀ (l : List (Bool × DiskPayload)) deps, p ∈ l ∨ keyOf p ∈ deps.map (·.1) →
      keyOf p ∈ (l.foldl (fun deps p => emplace (keyOf p) p.2 deps) deps).map (·.1) from
    all _ _ (.inl h)
  intro l
  induction l with
  | nil => exact fun _ there => there.resolve_left List.not_mem_nil
  | cons q l ih =>
    refine fun deps there => ih _ ?_
    rw [keys_emplace]
    rcases there with there | there
    · rcases List.mem_cons.mp there with rfl | there
      · exact .inr (.inl rfl)
      · exact .inl there
    · exact .inr (.inr there)

theorem lookup_of_mem (nodup : (deps.map (·.1)).Nodup)
    (h : d ∈ deps) : lookup deps d.1 = some d.2 := by
  unfold lookup
  induction deps with
  | nil => cases h
  | cons first rest ih =>
    obtain ⟨out, tail⟩ := List.nodup_cons.mp nodup
    rcases List.mem_cons.mp h with rfl | h
    · simp
    · have other : (first.1 == d.1) = false := by
        rw [beq_eq_false_iff_ne]
        intro same
        exact out (List.mem_map.mpr ⟨d, h, same.symm⟩)
      rw [List.find?_cons, other]
      exact ih tail h

end Gufo.Store
