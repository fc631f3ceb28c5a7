import Gufo.Store.Committing

/-!
# What a publication leaves

The parts of a publication put together: `holds_publish` says everything one can
have done, whether it returned, stopped or was cut off.
-/

namespace Gufo.Store
open Gufo.Disk Gufo.Program Gufo.Keyed Gufo.Volatile

section
variable {folding : Bool} {s w : Site} {r : Publication} {m : DiskManifest}

/-- How a publication can have failed: by a check; while writing; or with an uncertain manifest. -/
inductive Fails (folding : Bool) (s : Site) (r : Publication) (e : Failure) (w : Site) : Prop
  | refused (h : Refuses s e w)
  | interrupted (plain : Plain e) (begun : Begun s w)
      (entries : e ≠ .crashed → w.store.entries = s.store.entries)
  | uncertain (plain : Plain e) (m : DiskManifest) (f : File) (attempted : Attempted folding s r m f w)
      (recovery : e ≠ .crashed →
        w.store.entries = s.store.entries ∧ w.store.recoveryRequired = true)

/-- What a publication that returns has done. -/
structure Publishes (folding : Bool) (s : Site) (r : Publication) (w : Site) : Prop where
  fits : Coherent (manifestsOf s.store.entries ++ [resolvedManifest s.store.entries r])
  committed : ∃ m f v, Committed folding s r m f v ∧ w = recordPublished v

theorem dropLast_concat (entries : List DurableEntry) (e : DurableEntry) :
    (entries.concat e).dropLast = entries := by simp

/-- Stopped while the last entry is provisional. -/
def Halts (folding : Bool) (s : Site) (r : Publication) (e : Failure) (w : Site) : Prop :=
  Stops s e w ∨ ∃ m f v x, Plain e ∧ Attempted folding s r m f v ∧
    v.store.entries = s.store.entries.concat x ∧ (e ≠ .crashed → w = v.setRecovery true) ∧
    (e = .crashed → w = v)

theorem Attempted.congr {f : File} {v : Site} (h : Attempted folding s r m f w)
    (folders : v.folders = w.folders) (published : v.published = w.published)
    (budget : v.store.budgetBytes = w.store.budgetBytes)
    (underflow : v.store.underflow = w.store.underflow)
    (managed : v.store.managedBytes = w.store.managedBytes) : Attempted folding s r m f v := by
  have size : v.managedSize = w.managedSize := by
    unfold Site.managedSize
    rw [folders]
  exact {
    published := published.trans h.published
    budget := budget.trans h.budget
    underflow := underflow.trans h.underflow
    kept := by rw [folders]; exact h.kept
    balance := by rw [size, managed]; exact h.balance
    within := by rw [managed, budget]; exact h.within
    coherent := h.coherent
    backed := h.backed.congr fun key => by rw [folders]
    named := h.named
    recovered := h.recovered
    manifests := by rw [folders]; exact h.manifests }

/-- The provisional entry goes again. -/
theorem Halts.fails {e : Failure} (h : Halts folding s r e w) (alive : e ≠ .crashed) :
    Fails folding s r e (w.setEntries w.store.entries.dropLast) := by
  rcases h with ⟨plain, begun, x, entries⟩ | ⟨m, f, v, x, plain, attempted, entries, handled, -⟩
  · refine .interrupted plain { begun with
      published := begun.published, budget := begun.budget, underflow := begun.underflow
      kept := begun.kept, balance := begun.balance, within := begun.within
      manifests := begun.manifests, recovery := begun.recovery } fun _ => ?_
    rw [Site.entries_setEntries, entries, dropLast_concat]
  · rw [handled alive]
    refine .uncertain plain m f (attempted.congr rfl rfl rfl rfl rfl) fun _ => ⟨?_, rfl⟩
    have same : (v.setRecovery true).store.entries = v.store.entries := rfl
    rw [Site.entries_setEntries, same, entries, dropLast_concat]

theorem Halts.crashed (h : Halts folding s r .crashed w) : Fails folding s r .crashed w := by
  rcases h with ⟨plain, begun, -⟩ | ⟨m, f, v, x, plain, attempted, -, -, same⟩
  · exact .interrupted plain begun fun alive => absurd rfl alive
  · exact same rfl ▸ .uncertain plain m f attempted fun alive => absurd rfl alive

/-- The site with the candidate provisionally in the index. -/
def provisioned (s : Site) (r : Publication) (candidate : DiskManifest) : Site :=
  { s with store := { s.store with
    entries := s.store.entries.concat
      { file := r.file, manifest := candidate, durable := false, epoch := s.store.nextEpoch }
    nextEpoch := s.store.nextEpoch + 1 } }

theorem begun_provisioned {candidate : DiskManifest}
    (within : s.store.managedBytes.toNat ≤ s.store.budgetBytes.toNat) :
    Begun s (provisioned s r candidate) where
  published := rfl
  budget := rfl
  underflow := rfl
  kept _ _ h := h
  balance := by
    have size : (provisioned s r candidate).managedSize = s.managedSize := rfl
    have managed : (provisioned s r candidate).store.managedBytes = s.store.managedBytes := rfl
    rw [size, managed]
  within := within
  manifests := rfl
  recovery := rfl

/-- Where the writing starts. -/
theorem Planned.writing {size : Nat} {plan : Plan} (h : Planned s r size plan)
    (room : s.store.managedBytes.toNat + plan.additional.toNat ≤ s.store.budgetBytes.toNat)
    (coherent : Coherent (manifestsOf s.store.entries ++ [plan.candidate])) :
    Writing folding s r plan.candidate (plan.dependencies.map (·.1)) plan.dependencies
      (size + freshBytes s.store.entries plan.dependencies) (provisioned s r plan.candidate) := by
  have keys : plan.dependencies.map (·.1) = (dependencies r.manifest).map (·.1) := by
    simpa using h.keys
  have covers {p : Bool × DiskPayload} (hp : p ∈ payloads plan.candidate) :
      keyOf p ∈ plan.dependencies.map (·.1) := by
    have mem : keyOf p ∈ (payloads r.manifest).map keyOf := h.covers ▸ List.mem_map_of_mem hp
    obtain ⟨q, hq, same⟩ := List.mem_map.mp mem
    rw [keys, ← same]
    exact dependency_of_payload hq
  exact {
    begun_provisioned (by omega) with
    entry := ⟨_, rfl, rfl, rfl⟩
    coherent := coherent
    length := h.length
    unsourced := h.unsourced
    nodup := keys ▸ nodup_dependencies r.manifest
    files := h.files
    ahead := fun d hd => h.payload d (List.mem_append_left _ hd)
    fresh := fun d hd new => (h.fresh d hd new).1
    stays := fun _ there => there
    absent := fun key hk new => by
      obtain ⟨d, hd, rfl⟩ := List.mem_map.mp hk
      rw [h.files d hd]
      exact (h.fresh d hd new).2
    reused := fun p hp known => by
      obtain ⟨d, hd, same⟩ := List.mem_map.mp (covers hp)
      obtain ⟨q, hq, key, payload⟩ := h.payload d (List.mem_append_left _ hd)
      have consistent := (coherent_iff_agree.mp coherent).1 plan.candidate (by simp)
      have eq : q = p := consistent.payload_eq hq hp (key.trans same)
      have verified := h.reused d hd (same.symm ▸ known)
      rw [← eq] at same ⊢
      refine ⟨fun e he o ho there => ?_, ?_⟩
      · rw [payload]
        exact verified.claimed e he o ho (there.trans same.symm)
      · obtain ⟨f, there, -⟩ := verified.there
        rw [payload, ← same, there]
        simp
    written := fun p hp _ out => absurd (covers hp) out
    room := by
      have additional := h.additional
      have managed : (provisioned s r plan.candidate).store.managedBytes = s.store.managedBytes :=
        rfl
      have budget : (provisioned s r plan.candidate).store.budgetBytes = s.store.budgetBytes := rfl
      rw [managed, budget]
      omega }

theorem holds_requireCoherent {entries : List DurableEntry} :
    Holds (· = w) requireCoherent
      (fun _ v => v = w ∧ (w.store.entries = entries → Coherent (manifestsOf entries)))
      (fun e v => Plain e ∧ v = w) := by
  refine holds_bind (holds_still (fun v hv => ⟨plain_exhausted, hv⟩)
    fun v hv => ⟨plain_crashed, hv⟩) fun _ => holds_site fun v hv => ?_
  refine holds_reject_last (fun _ u hu => ⟨plain_invalid, hu.trans hv⟩) fun fine u hu => ?_
  refine ⟨hu.trans hv, fun same => coherent_iff.mpr fun m hm => ?_⟩
  rw [hv, same] at fine
  obtain ⟨e, he, rfl⟩ := List.mem_map.mp hm
  simpa using List.any_eq_false.mp (by simpa using fine) e he

theorem holds_write {bytes : List UInt8} {plan : Plan} (ok : Admissible folding s r bytes)
    (recovered : s.store.recoveryRequired = false) (planned : Planned s r bytes.length plan)
    (room : s.store.managedBytes.toNat + plan.additional.toNat ≤ s.store.budgetBytes.toNat) :
    Holds (· = provisioned s r plan.candidate) (write folding r plan.dependencies bytes)
      (fun _ w => Coherent (manifestsOf s.store.entries ++ [plan.candidate]) ∧
        ∃ m f, Committed folding s r m f w)
      (Halts folding s r) := by
  have begun : Begun s (provisioned s r plan.candidate) := begun_provisioned (by omega)
  have entries : manifestsOf (provisioned s r plan.candidate).store.entries =
      manifestsOf s.store.entries ++ [plan.candidate] := by
    simp [provisioned, manifestsOf]
  refine holds_bind (R := fun _ v => v = provisioned s r plan.candidate ∧
      Coherent (manifestsOf s.store.entries ++ [plan.candidate]))
    (holds_consequence holds_requireCoherent (fun _ h => h)
      (fun _ v hv => ⟨hv.1, entries ▸ hv.2 rfl⟩) ?_) fun _ => ?_
  · rintro e v ⟨plain, rfl⟩
    exact .inl ⟨plain, begun, _, rfl⟩
  refine holds_of_start fun v hv => ?_
  obtain ⟨rfl, coherent⟩ := hv
  -- Past the check every stop but the last is one of the writing.
  refine holds_bind (R := fun _ v => ∃ m, Writing folding s r m [] [] bytes.length v)
    (holds_consequence (holds_forM (E := Stops s) (I := fun rest v => ∃ m,
        Writing folding s r m (rest.map (·.1)) rest
          (bytes.length + freshBytes s.store.entries rest) v)
      plan.dependencies fun d rest => holds_writeDependency ok d) ?_ (fun _ _ h => h)
      fun _ _ h => .inl h) fun _ => ?_
  · rintro v rfl
    exact ⟨_, planned.writing room coherent⟩
  refine holds_of_start fun v hv => ?_
  obtain ⟨m, writing⟩ := hv
  refine holds_bind (R := fun _ v => Writing folding s r m [] [] bytes.length v ∧ True)
    (holds_consequence (holds_syncFolder_writing (C := fun _ => True) (by simp) fun _ h => h)
      (fun u hu => ⟨hu ▸ writing, trivial⟩) (fun _ u hu => ⟨hu.1, trivial⟩) fun _ _ h => .inl h)
    fun _ => ?_
  refine holds_bind (R := fun _ v => Writing folding s r m [] [] bytes.length v ∧
      Settled .chunks v)
    (holds_consequence (holds_syncFolder_writing (C := fun _ => True) (by simp) fun _ h => h)
      (fun _ h => h) (fun _ u hu => ⟨hu.1, hu.2.2⟩) fun _ _ h => .inl h) fun _ => ?_
  refine holds_bind (R := fun _ v => Writing folding s r m [] [] bytes.length v ∧ Steady v)
    (holds_consequence (holds_syncFolder_writing (C := Settled .chunks) (by simp)
      fun u hu => hu.sync _) (fun _ h => h) (fun _ _ h => h) fun _ _ h => .inl h) fun _ => ?_
  refine holds_bind (holds_unquarantined (fun u hu => .inl (hu.1.stops plain_quarantined))
    fun u hu => .inl (hu.1.stops plain_crashed)) fun _ => ?_
  refine holds_bind (holds_consequence (holds_finalBytes ok.encoded) (fun _ h => h)
    (fun _ _ h => h) fun _ _ h => .inl h) fun final => ?_
  refine holds_of_start fun u hu => ?_
  obtain ⟨⟨writing, steady⟩, encoded, length⟩ := hu
  rw [← length] at writing
  refine holds_bind (holds_consequence (holds_writeManifest encoded)
    (fun t ht => ht ▸ ⟨writing, steady⟩) (fun _ _ h => h) fun _ _ h => .inl h) fun _ => ?_
  refine holds_consequence (holds_onError (E := Halts folding s r) (holds_commit ok.named recovered) ?_ ?_)
    (fun _ h => h) (fun _ t ht => ⟨coherent, m, ht⟩) fun _ _ h => h
  · rintro t ⟨plain, n, g, attempted, x, provisional, -⟩
    exact .inr ⟨n, g, t, x, plain, attempted, provisional, fun alive => absurd rfl alive,
      fun _ => rfl⟩
  · rintro e t alive ⟨plain, n, g, attempted, x, provisional, -⟩
    exact .inr ⟨n, g, t, x, plain, attempted, provisional, fun _ => rfl,
      fun dead => absurd dead alive⟩

/-- Everything a publication can have done. -/
theorem holds_publish (sizes : Layouts) :
    Holds (· = s) (publish folding sizes r) (fun _ => Publishes folding s r) (Fails folding s r) := by
  have refused {α : Type} {m : Op α} {P : Site → Prop} {Q : α → Site → Prop}
      (h : Holds P m Q (Refuses s)) : Holds P m Q (Fails folding s r) :=
    holds_consequence h (fun _ h => h) (fun _ _ h => h) fun _ _ h => .refused h
  refine holds_site fun w hw => ?_
  subst hw
  refine holds_reject (fun _ v hv => .refused (.inl hv)) fun recovered => ?_
  refine holds_bind (refused (holds_checkRequest folding sizes)) fun found => ?_
  refine holds_of_start fun v hv => ?_
  obtain ⟨rfl, ok, candidate⟩ := hv
  obtain ⟨bytes, m⟩ := found
  dsimp only at ok candidate ⊢
  subst candidate
  refine holds_bind (refused (holds_checkCapacity _ _)) fun _ => ?_
  have short : bytes.length.toUInt64.toNat = bytes.length := by
    have most := length_encoded_le ok.encoded
    rw [Nat.toUInt64_eq, UInt64.toNat_ofNat']
    unfold maxManifestBytes at most
    omega
  refine holds_bind (refused (holds_plan folding)) fun plan => ?_
  refine holds_of_start fun u hu => ?_
  obtain ⟨rfl, planned⟩ := hu
  rw [short] at planned
  refine holds_bind (refused (holds_requireCapacity _)) fun _ => ?_
  refine holds_of_start fun t ht => ?_
  obtain ⟨rfl, room⟩ := ht
  refine holds_bind (refused (holds_requireAvailable _)) fun _ => ?_
  refine holds_bind (refused (holds_still (fun _ h => .inl h) fun _ h => .inl h)) fun _ => ?_
  refine holds_bind (R := fun _ v => v = provisioned t r plan.candidate) ?_ fun _ => ?_
  · refine holds_site fun v hv => ?_
    subst hv
    refine holds_reject (fun _ x hx => .refused (.inl hx)) fun _ => holds_update ?_
    rintro x rfl
    rfl
  refine holds_bind (holds_onError (E := Fails folding t r) (holds_write ok (by simpa using recovered) planned room)
    (fun _ h => h.crashed) fun e v alive h => h.fails alive) fun _ => ?_
  refine holds_update fun v hv => ?_
  obtain ⟨fits, m, f, committed⟩ := hv
  have resolved : plan.candidate = resolvedManifest t.store.entries r := planned.candidate
  exact ⟨resolved ▸ fits, m, f, v, committed, rfl⟩

end

end Gufo.Store
