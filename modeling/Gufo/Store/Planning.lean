import Gufo.Store.Moves
import Gufo.Store.Payloads

/-!
# What publication checks before it writes

Up to the provisional index entry `Publish` changes nothing, except that a stored
payload it finds damaged quarantines the entries that claim it. What it has then
established about the dependencies is `Planned`.
-/

namespace Gufo.Store
open Gufo.Disk Gufo.Program Gufo.Keyed

/-- Nothing happened, or the owners of a damaged file were quarantined. -/
def Refuses (s : Site) (e : Failure) (w : Site) : Prop :=
  w = s ∨ ∃ key, e = .dependency key ∧ w = quarantine key s

/-- The bytes of the dependencies that the index does not claim. -/
def freshBytes (entries : List DurableEntry) (deps : Dependencies) : Nat :=
  ((deps.filter fun d => !referenced entries d.1).map fun d => d.2.bytes.toNat).sum

theorem freshBytes_append (entries : List DurableEntry) (deps more : Dependencies) :
    freshBytes entries (deps ++ more) = freshBytes entries deps + freshBytes entries more := by
  simp [freshBytes]

theorem freshBytes_cons (entries : List DurableEntry) (d : FileKey × DiskPayload)
    (rest : Dependencies) :
    freshBytes entries (d :: rest) =
      (if referenced entries d.1 then 0 else d.2.bytes.toNat) + freshBytes entries rest := by
  unfold freshBytes
  cases known : referenced entries d.1 <;> simp [known]

/-- A reused dependency's checksum in the candidate. -/
def settle (entries : List DurableEntry) (r : Publication) (m : DiskManifest)
    (d : FileKey × DiskPayload) : DiskManifest :=
  if referenced entries d.1 ∧ d.2.checksum = 0 ∧ r.sources.any (·.key == d.1) then
    replacePayload d.1
      (((resolved entries d.1).map fun q => { d.2 with checksum := q.checksum }).getD d.2) m
  else m

/-- The manifest that joins the index: unspecified checksums of reused files are resolved. -/
def resolvedManifest (entries : List DurableEntry) (r : Publication) : DiskManifest :=
  (dependencies r.manifest).foldl (settle entries r) r.manifest

theorem settle_checkpoint (entries : List DurableEntry) (r : Publication) (m : DiskManifest)
    (d : FileKey × DiskPayload) : (settle entries r m d).checkpoint = m.checkpoint := by
  unfold settle
  split <;> rfl

theorem resolvedManifest_checkpoint (entries : List DurableEntry) (r : Publication) :
    (resolvedManifest entries r).checkpoint = r.manifest.checkpoint := by
  unfold resolvedManifest
  generalize r.manifest = m, dependencies r.manifest = ds
  induction ds generalizing m with
  | nil => rfl
  | cons d ds ih => exact (ih _).trans (settle_checkpoint entries r m d)

/-- What a dependency that the index claims was found to be. -/
structure Verified (s : Site) (key : FileKey) (p : DiskPayload) : Prop where
  claimed : ∀ e ∈ s.store.entries, ∀ q ∈ payloads e.manifest, keyOf q = key → q.2 = p
  there : ∃ f, s.now key.folder p.file = some f ∧ f.size = p.bytes.toNat

/-- What the loop over the dependencies has established when `rest` is still to come. -/
structure Planning (s : Site) (r : Publication) (size : Nat) (rest : Dependencies)
    (plan : Plan) : Prop where
  keys : (plan.dependencies ++ rest).map (·.1) = (dependencies r.manifest).map (·.1)
  ahead : ∀ d ∈ rest, d ∈ dependencies r.manifest
  candidate : rest.foldl (settle s.store.entries r) plan.candidate =
    resolvedManifest s.store.entries r
  files : ∀ d ∈ plan.dependencies, d.1.2 = d.2.file
  reused : ∀ d ∈ plan.dependencies, referenced s.store.entries d.1 = true → Verified s d.1 d.2
  fresh : ∀ d ∈ plan.dependencies, referenced s.store.entries d.1 = false →
    d ∈ dependencies r.manifest ∧ s.now d.1.folder d.2.file = none
  payload : ∀ d ∈ plan.dependencies ++ rest, ∃ p ∈ payloads plan.candidate, keyOf p = d.1 ∧ p.2 = d.2
  covers : (payloads plan.candidate).map keyOf = (payloads r.manifest).map keyOf
  length : plan.candidate.layout.length = r.manifest.layout.length
  unsourced : r.sources = [] → plan.candidate = r.manifest
  additional : plan.additional.toNat = size + freshBytes s.store.entries plan.dependencies

/-- What is known when the candidate joins the index. -/
abbrev Planned (s : Site) (r : Publication) (size : Nat) (plan : Plan) : Prop :=
  Planning s r size [] plan

section
variable (folding : Bool) (sizes : Layouts) {s : Site} {r : Publication}

/-! ## Existing payloads -/

theorem holds_dependencyFailure {Q : Unit → Site → Prop} (key : FileKey) :
    Holds (· = s) (dependencyFailure key) Q (Refuses s) := by
  refine holds_bind (R := fun _ w => w = quarantine key s) (holds_update ?_) fun _ => ?_
  · rintro w rfl
    rfl
  · exact holds_throw fun w hw => .inr ⟨key, rfl, hw⟩

theorem holds_verify (staging : Nat) (key : FileKey) (p : DiskPayload) :
    Holds (· = s) (verify folding staging key p) (fun _ w => w = s ∧ Verified s key p)
      (Refuses s) := by
  refine holds_site fun w hw => ?_
  subst hw
  refine holds_reject (fun _ v hv => .inl hv) fun passed => ?_
  have claimed : ∀ e ∈ w.store.entries, ∀ q ∈ payloads e.manifest, keyOf q = key → q.2 = p := by
    simpa using passed
  refine holds_bind (holds_ask (Q := fun _ v => v = w) (fun _ _ h => h) fun _ h => .inl h)
    fun a => ?_
  refine holds_site fun v hv => ?_
  subst hv
  cases there : v.now key.folder p.file with
  | none => exact holds_dependencyFailure key
  | some f =>
    refine holds_ite (fun _ => holds_dependencyFailure key) fun fine => ?_
    have fits : f.size = p.bytes.toNat := by
      by_contra other
      exact fine (.inr (.inr other))
    have verified : Verified v key p := ⟨claimed, f, there, fits⟩
    refine holds_ite (fun _ => holds_pure fun u hu => ⟨hu, verified⟩) fun _ => ?_
    refine holds_bind (holds_call (Q := fun _ u => u = v) (fun _ h => h) (fun _ h => .inl h)
      fun _ h => .inl h) fun _ => ?_
    refine holds_bind (holds_ask (Q := fun _ u => u = v) (fun _ _ h => h) fun _ h => .inl h)
      fun b => ?_
    exact holds_ite (fun _ => holds_dependencyFailure key)
      fun _ => holds_pure fun u hu => ⟨hu, verified⟩

/-! ## The loop over the dependencies -/

theorem holds_add {P : Site → Prop} {Q : UInt64 → Site → Prop} {E : Failure → Site → Prop}
    {a b : UInt64}
    (h : ∀ w, P w → (a + b).toNat = a.toNat + b.toNat → Q (a + b) w)
    (fails : ∀ w, P w → E .invalid w) : Holds P (add a b) Q E := by
  refine holds_reject (fun _ => fails) fun fits => holds_pure fun w hw => h w hw ?_
  rw [UInt64.toNat_add]
  exact Nat.mod_eq_of_lt (by omega)

variable {d : FileKey × DiskPayload} {rest : Dependencies} {plan : Plan} {size : Nat}

theorem Planning.next
    (h : Planning s r size (d :: rest) plan) :
    (d.1 ∉ rest.map (·.1)) ∧ d.1 ∉ plan.dependencies.map (·.1) ∧ d.1.2 = d.2.file := by
  have nodup := nodup_dependencies r.manifest
  rw [← h.keys, List.map_append, List.map_cons, List.nodup_append, List.nodup_cons] at nodup
  obtain ⟨-, ⟨out, -⟩, apart⟩ := nodup
  refine ⟨out, fun known => apart _ known _ List.mem_cons_self rfl, ?_⟩
  obtain ⟨p, -, same, payload⟩ := payload_of_dependency (h.ahead d List.mem_cons_self)
  rw [← same, ← payload]
  rfl

/-- A dependency kept as it is. -/
theorem Planning.keep
    (h : Planning s r size (d :: rest) plan) {additional : UInt64}
    (same : settle s.store.entries r plan.candidate d = plan.candidate)
    (reused : referenced s.store.entries d.1 = true → Verified s d.1 d.2)
    (fresh : referenced s.store.entries d.1 = false → s.now d.1.folder d.2.file = none)
    (counted : additional.toNat = plan.additional.toNat +
      (if referenced s.store.entries d.1 then 0 else d.2.bytes.toNat)) :
    Planning s r size rest
      { plan with dependencies := plan.dependencies ++ [d], additional := additional } := by
  have regroup : plan.dependencies ++ [d] ++ rest = plan.dependencies ++ d :: rest := by simp
  refine { h with keys := ?_, ahead := ?_, candidate := ?_, files := ?_, reused := ?_,
                  fresh := ?_, payload := ?_, additional := ?_ }
  · rw [regroup, h.keys]
  · exact fun e he => h.ahead e (List.mem_cons_of_mem _ he)
  · rw [← h.candidate, List.foldl_cons, same]
  · intro e he
    rcases List.mem_append.mp he with he | he
    · exact h.files e he
    · rw [List.mem_singleton.mp he]
      exact h.next.2.2
  · intro e he
    rcases List.mem_append.mp he with he | he
    · exact h.reused e he
    · rw [List.mem_singleton.mp he]
      exact reused
  · intro e he new
    rcases List.mem_append.mp he with he | he
    · exact h.fresh e he new
    · rw [List.mem_singleton.mp he] at new ⊢
      exact ⟨h.ahead d List.mem_cons_self, fresh new⟩
  · rw [regroup]
    exact h.payload
  · rw [counted, h.additional, freshBytes_append, freshBytes_cons]
    simp [freshBytes]
    omega

/-- A dependency whose checksum is resolved. -/
theorem Planning.resolve
    (h : Planning s r size (d :: rest) plan) {q : DiskPayload}
    (known : referenced s.store.entries d.1 = true) (sourced : r.sources ≠ [])
    (settled : settle s.store.entries r plan.candidate d = replacePayload d.1 q plan.candidate)
    (file : q.file = d.2.file) (verified : Verified s d.1 q) :
    Planning s r size rest
      { plan with
        candidate := replacePayload d.1 q plan.candidate
        dependencies := plan.dependencies ++ [(d.1, q)] } := by
  obtain ⟨out, new, self⟩ := h.next
  have regroup : (plan.dependencies ++ [(d.1, q)] ++ rest).map (·.1) =
      (plan.dependencies ++ d :: rest).map (·.1) := by simp
  have payloads' := payloads_replacePayload d.1 q plan.candidate
  refine { h with keys := ?_, ahead := ?_, candidate := ?_, files := ?_, reused := ?_,
                  fresh := ?_, payload := ?_, covers := ?_, length := ?_, unsourced := ?_,
                  additional := ?_ }
  · rw [regroup, h.keys]
  · exact fun e he => h.ahead e (List.mem_cons_of_mem _ he)
  · rw [← h.candidate, List.foldl_cons, settled]
  · intro e he
    rcases List.mem_append.mp he with he | he
    · exact h.files e he
    · rw [List.mem_singleton.mp he]
      exact self.trans file.symm
  · intro e he claimed
    rcases List.mem_append.mp he with he | he
    · exact h.reused e he claimed
    · rw [List.mem_singleton.mp he]
      exact verified
  · intro e he unclaimed
    rcases List.mem_append.mp he with he | he
    · exact h.fresh e he unclaimed
    · rw [List.mem_singleton.mp he] at unclaimed
      rw [known] at unclaimed
      cases unclaimed
  · intro e he
    rw [payloads']
    have elsewhere (there : e ∈ plan.dependencies ++ rest) (other : e.1 ≠ d.1) :
        ∃ p ∈ (payloads plan.candidate).map fun p => if keyOf p = d.1 then (p.1, q) else p,
          keyOf p = e.1 ∧ p.2 = e.2 := by
      have there : e ∈ plan.dependencies ++ d :: rest := by
        rcases List.mem_append.mp there with there | there
        · exact List.mem_append_left _ there
        · exact List.mem_append_right _ (List.mem_cons_of_mem _ there)
      obtain ⟨p, hp, key, eq⟩ := h.payload e there
      exact ⟨p, List.mem_map.mpr ⟨p, hp, if_neg (key ▸ other)⟩, key, eq⟩
    rcases List.mem_append.mp he with he | he
    · rcases List.mem_append.mp he with he | he
      · exact elsewhere (List.mem_append_left _ he)
          fun same => new (List.mem_map.mpr ⟨e, he, same⟩)
      · rw [List.mem_singleton.mp he]
        obtain ⟨p, hp, key, -⟩ := h.payload d
          (List.mem_append_right _ List.mem_cons_self)
        refine ⟨(p.1, q), List.mem_map.mpr ⟨p, hp, if_pos key⟩, ?_, rfl⟩
        have first : p.1 = d.1.1 := congrArg Prod.fst key
        exact Prod.ext first (file.trans self.symm)
    · exact elsewhere (List.mem_append_right _ he)
        fun same => out (List.mem_map.mpr ⟨e, he, same⟩)
  · rw [payloads', List.map_map, ← h.covers]
    refine List.map_congr_left fun p _ => ?_
    rw [Function.comp_apply]
    split
    · rename_i same
      refine Prod.ext rfl ?_
      have second : p.2.file = d.1.2 := congrArg Prod.snd same
      exact file.trans (self.symm.trans second.symm)
    · rfl
  · exact (length_layout_mapPayloads _ _).trans h.length
  · exact fun none_ => absurd none_ sourced
  · rw [h.additional, freshBytes_append, freshBytes_cons, if_pos known]
    simp [freshBytes]

theorem holds_reuse
    (h : Planning s r size (d :: rest) plan) (known : referenced s.store.entries d.1 = true) :
    Holds (· = s) (reuse folding r d.1 d.2 plan)
      (fun plan w => w = s ∧ Planning s r size rest plan) (Refuses s) := by
  refine holds_site fun w hw => ?_
  subst hw
  refine holds_ite (fun unspecified => ?_) fun specified => ?_
  · refine holds_reject (fun _ v hv => .inl hv) fun _ => ?_
    refine holds_bind (holds_verify folding r.staging d.1 _) fun _ => holds_pure fun v hv => ?_
    obtain ⟨rfl, verified⟩ := hv
    refine ⟨rfl, h.resolve known ?_ (if_pos ⟨known, unspecified⟩) ?_ verified⟩
    · intro none_
      simp [none_] at unspecified
    · cases resolved v.store.entries d.1 <;> rfl
  · refine holds_bind (holds_verify folding r.staging d.1 d.2) fun _ => holds_pure fun v hv => ?_
    obtain ⟨rfl, verified⟩ := hv
    refine ⟨rfl, h.keep (if_neg fun both => specified both.2) (fun _ => verified) ?_ ?_⟩
    · rw [known]
      intro no
      cases no
    · rw [if_pos known]
      rfl

theorem holds_supply
    (h : Planning s r size (d :: rest) plan) (new : referenced s.store.entries d.1 = false) :
    Holds (· = s) (supply r d.1 d.2 plan)
      (fun plan w => w = s ∧ Planning s r size rest plan) (Refuses s) := by
  refine holds_bind (R := fun stored w => w = s ∧ stored = (s.now d.1.folder d.2.file).isSome)
    (holds_exists ?_ (fun w hw => .inl hw) fun w hw => .inl hw) fun stored => ?_
  · rintro w rfl
    exact ⟨rfl, rfl⟩
  refine holds_reject (fun _ w hw => .inl hw.1) fun unstored => ?_
  refine holds_bind (R := fun _ w => w = s ∧ s.now d.1.folder d.2.file = none)
    (holds_exists ?_ (fun w hw => .inl hw.1) fun w hw => .inl hw.1) fun _ => ?_
  · rintro w ⟨rfl, known⟩
    exact ⟨rfl, by simpa [known] using unstored⟩
  refine holds_reject (fun _ w hw => .inl hw.1) fun _ => ?_
  refine holds_reject (fun _ w hw => .inl hw.1) fun _ => ?_
  refine holds_reject (fun _ w hw => .inl hw.1) fun _ => ?_
  refine holds_bind (R := fun n w => (w = s ∧ s.now d.1.folder d.2.file = none) ∧
    n.toNat = plan.additional.toNat + d.2.bytes.toNat)
    (holds_add (fun w hw sum => ⟨hw, sum⟩) fun w hw => .inl hw.1) fun n => ?_
  refine holds_pure fun w hw => ?_
  obtain ⟨⟨rfl, absent⟩, sum⟩ := hw
  refine ⟨rfl, h.keep (if_neg fun both => ?_) ?_ (fun _ => absent) ?_⟩
  · rw [new] at both
    cases both.1
  · rw [new]
    intro no
    cases no
  · rw [sum, new]
    rfl

theorem holds_planDependency
    (h : Planning s r size (d :: rest) plan) :
    Holds (· = s) (planDependency folding r plan d)
      (fun plan w => w = s ∧ Planning s r size rest plan) (Refuses s) := by
  refine holds_site fun w hw => ?_
  subst hw
  refine holds_ite (fun known => holds_reuse folding h known) fun new => holds_supply h ?_
  simpa using new

theorem planning_start {size : UInt64} :
    Planning s r size.toNat (dependencies r.manifest)
      { candidate := r.manifest, additional := size } where
  keys := rfl
  ahead _ hd := hd
  candidate := rfl
  files _ hd := absurd hd List.not_mem_nil
  reused _ hd := absurd hd List.not_mem_nil
  fresh _ hd := absurd hd List.not_mem_nil
  payload _ hd := payload_of_dependency hd
  covers := rfl
  length := rfl
  unsourced _ := rfl
  additional := rfl

theorem holds_plan {size : UInt64} :
    Holds (· = s) ((dependencies r.manifest).foldlM (planDependency folding r)
        { candidate := r.manifest, additional := size })
      (fun plan w => w = s ∧ Planned s r size.toNat plan) (Refuses s) := by
  have fold : Holds (fun w => w = s ∧ Planning s r size.toNat (dependencies r.manifest)
        { candidate := r.manifest, additional := size })
      ((dependencies r.manifest).foldlM (planDependency folding r)
        { candidate := r.manifest, additional := size })
      (fun plan w => w = s ∧ Planning s r size.toNat [] plan) (Refuses s) := by
    apply holds_foldlM (I := fun rest plan w => w = s ∧ Planning s r size.toNat rest plan)
    intro d rest plan
    refine holds_of_start fun w hw => ?_
    obtain ⟨rfl, planning⟩ := hw
    exact holds_planDependency folding planning
  exact holds_consequence fold (fun w hw => ⟨hw, planning_start⟩) (fun _ _ h => h) fun _ _ h => h

/-! ## The other checks -/

/-- What the checks on the request establish. -/
structure Admissible (s : Site) (r : Publication) (bytes : List UInt8) : Prop where
  encoded : encodeManifest folding r.manifest = some bytes
  named : s.now .manifests r.file = none
  buffers : badBuffers folding (dependencies r.manifest) r.buffers = false
  sources : badSources (dependencies r.manifest) r.sources r.staging = false

theorem holds_checkRequest :
    Holds (· = s) (checkRequest folding sizes r)
      (fun found w => w = s ∧ Admissible folding s r found.1 ∧ found.2 = r.manifest)
      (Refuses s) := by
  have still {e : Failure} : Holds (· = s) (call e) (fun _ w => w = s) (Refuses s) :=
    holds_call (fun _ h => h) (fun _ h => .inl h) fun _ h => .inl h
  refine holds_bind still fun _ => ?_
  cases encoded : encodeManifest folding r.manifest with
  | none => exact holds_throw fun w hw => .inl hw
  | some bytes =>
    obtain ⟨-, decoded⟩ := reads_encoded sizes folding encoded
    refine holds_reject (fun _ w hw => .inl hw) fun _ => holds_bind still fun _ => ?_
    rw [decoded]
    refine holds_bind still fun _ => holds_bind still fun _ => ?_
    refine holds_bind (R := fun stored w => w = s ∧ stored = (s.now .manifests r.file).isSome)
      (holds_exists ?_ (fun w hw => .inl hw) fun w hw => .inl hw) fun stored => ?_
    · rintro w rfl
      exact ⟨rfl, rfl⟩
    refine holds_reject (fun _ w hw => .inl hw.1) fun unstored => ?_
    refine holds_bind (R := fun _ w => w = s ∧ s.now .manifests r.file = none)
      (holds_exists ?_ (fun w hw => .inl hw.1) fun w hw => .inl hw.1) fun _ => ?_
    · rintro w ⟨rfl, known⟩
      exact ⟨rfl, by simpa [known] using unstored⟩
    refine holds_reject (fun _ w hw => .inl hw.1) fun _ => ?_
    refine holds_reject (fun _ w hw => .inl hw.1) fun buffers => ?_
    refine holds_reject (fun _ w hw => .inl hw.1) fun sources => ?_
    refine holds_pure fun w hw => ⟨hw.1, ⟨encoded, hw.2, ?_, ?_⟩, rfl⟩
    · simpa using buffers
    · simpa using sources

theorem holds_requiredBytes (entries : List DurableEntry) (required : UInt64)
    (deps : Dependencies) :
    Holds (· = s) (requiredBytes entries required deps) (fun _ w => w = s) (Refuses s) := by
  induction deps generalizing required with
  | nil => exact holds_pure fun w hw => hw
  | cons d rest ih =>
    refine holds_ite (fun _ => ih required) fun _ => ?_
    exact holds_bind (R := fun _ w => w = s)
      (holds_add (fun w hw _ => hw) fun w hw => .inl hw) fun required => ih required

theorem holds_checkCapacity (size : UInt64) (deps : Dependencies) :
    Holds (· = s) (checkCapacity size deps) (fun _ w => w = s) (Refuses s) := by
  refine holds_site fun w hw => ?_
  subst hw
  refine holds_ite (fun _ => holds_pure fun v hv => hv) fun _ => ?_
  refine holds_bind (holds_requiredBytes _ _ _) fun _ => ?_
  exact holds_reject_last (fun _ v hv => .inl hv) fun _ v hv => hv

/-- Past the exact check everything new fits. -/
theorem holds_requireCapacity (additional : UInt64) :
    Holds (· = s) (requireCapacity additional)
      (fun _ w => w = s ∧ s.store.managedBytes.toNat + additional.toNat ≤ s.store.budgetBytes.toNat)
      (Refuses s) := by
  refine holds_site fun w hw => ?_
  subst hw
  refine holds_reject_last (fun _ v hv => .inl hv) fun passed v hv => ⟨hv, ?_⟩
  simp only [not_or, gt_iff_lt, UInt64.not_lt] at passed
  obtain ⟨within, fits⟩ := passed
  rw [UInt64.le_iff_toNat_le] at within fits
  rw [UInt64.toNat_sub_of_le _ _ (UInt64.le_iff_toNat_le.mpr within)] at fits
  omega

theorem holds_requireAvailable (deps : Dependencies) :
    Holds (· = s) (requireAvailable deps) (fun _ w => w = s) (Refuses s) := by
  refine holds_site fun w hw => ?_
  subst hw
  dsimp only
  split
  · exact holds_pure fun v hv => hv
  · exact holds_throw fun v hv => .inl hv

end

end Gufo.Store
