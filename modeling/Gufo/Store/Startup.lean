import Gufo.Store.Claims
import Gufo.Store.Moves
import Mathlib.Data.List.Dedup

/-!
# What startup finds

Startup changes the directories only by making what is there durable. Which rows its
index has is a function of the directories and of which reads succeeded: the order
of the scan only permutes them.
-/

namespace Gufo.Store
open Gufo.Disk Gufo.Program Gufo.Volatile

section
variable (folding : Bool) (sizes : Layouts) (readable : DiskFileId → Bool) {s w : Site}

/-- The manifest discovery finds in a file. -/
def found (s : Site) (file : DiskFileId) : Option DiskManifest :=
  if readable file then discover folding sizes s file else none

/-- The rows of the files that hold a manifest. -/
def discovered (s : Site) (files : List DiskFileId) : List (DiskFileId × DiskManifest) :=
  files.filterMap fun file => (found folding sizes readable s file).map (file, ·)

/-- The rows that no other conflicts with. -/
def kept (rows : List (DiskFileId × DiskManifest)) : List (DiskFileId × DiskManifest) :=
  rows.filter fun r => !rejected (rows.map (·.2)) r.2

theorem kept_perm {rows others : List (DiskFileId × DiskManifest)} (h : rows.Perm others) :
    (kept rows).Perm (kept others) := by
  have same : ∀ m, rejected (rows.map (·.2)) m = rejected (others.map (·.2)) m :=
    rejected_perm (h.map _)
  unfold kept
  simp only [same]
  exact h.filter _

/-- A store that has not looked at its directories yet. -/
def New (s : Site) : Prop := ∃ budget, s.store = { budgetBytes := budget }

/-- The directories so far: those in the list are synced. -/
structure Opening (s : Site) (synced : List Folder) (w : Site) : Prop where
  folders : ∀ g, w.folders g = if g ∈ synced then (s.folders g).sync else s.folders g
  published : w.published = s.published

/-- What startup has found when it returns. -/
structure Opens (s w : Site) : Prop extends Opening s Folder.all w where
  rows : (rows w.store.entries).Perm
    (kept (discovered folding sizes readable s (s.folders .manifests).present))
  coherent : Coherent (manifestsOf w.store.entries)
  /-- No recovery is needed exactly when every manifest file has its entry. -/
  recovery : w.store.recoveryRequired = false →
    w.store.entries.length = (s.folders .manifests).present.length
  settled : w.store.entries.length = (s.folders .manifests).present.length →
    w.store.recoveryRequired = false
  budget : w.store.budgetBytes = s.store.budgetBytes
  underflow : w.store.underflow = false
  managed : w.store.managedBytes.toNat = s.managedSize

theorem arrange_perm {order present : List DiskFileId} (nodup : present.Nodup) :
    (arrange order present).Perm present := by
  refine (List.perm_ext_iff_of_nodup ?_ nodup).mpr fun id => ?_
  · refine List.nodup_append.mpr ⟨(List.nodup_dedup order).filter _, nodup.filter _, ?_⟩
    intro a ha b hb eq
    have ordered := List.mem_dedup.mp (List.mem_filter.mp ha).1
    have fresh := (List.mem_filter.mp hb).2
    rw [← eq] at fresh
    simp [ordered] at fresh
  · simp only [arrange, List.mem_append, List.mem_filter, List.mem_dedup, decide_eq_true_eq]
    constructor
    · rintro (⟨-, there⟩ | ⟨there, -⟩) <;> exact there
    · intro there
      by_cases ordered : id ∈ order
      · exact .inl ⟨ordered, there⟩
      · exact .inr ⟨there, ordered⟩

theorem holds_scan {P : Site → Prop} {Q : List DiskFileId → Site → Prop}
    {E : Failure → Site → Prop} {folder : Folder}
    (h : ∀ order w, P w → Q (arrange order (w.folders folder).present) w)
    (fails : ∀ w, P w → E .io w) (crashed : ∀ w, P w → E .crashed w) :
    Holds P (scan folder) Q E := by
  refine holds_bind (holds_ask (Q := fun _ => P) (fun _ _ h => h) crashed) fun a => ?_
  refine holds_reject (fun _ => fails) fun _ => holds_site fun w hw => holds_pure fun v hv => ?_
  rw [hv]
  exact h a.order w hw

/-- The state of the loop over the manifest files. -/
structure Discovering (s : Site) (visited : List DiskFileId) (w : Site) : Prop
    extends Opening s [] w where
  rows : rows w.store.entries = discovered folding sizes readable s visited
  rejected : w.store.rejectedManifests + w.store.entries.length = visited.length
  budget : w.store.budgetBytes = s.store.budgetBytes
  underflow : w.store.underflow = false
  managed : w.store.managedBytes.toNat = s.managedSize

variable {readable}

theorem Opening.same_folders (h : Opening s [] w) : w.folders = s.folders := by
  funext g
  rw [h.folders g, if_neg List.not_mem_nil]

theorem found_congr (same : w.folders = s.folders) (file : DiskFileId) :
    found folding sizes readable w file = found folding sizes readable s file := by
  have now_ : w.now = s.now := by
    unfold Site.now
    rw [same]
  unfold found discover
  rw [now_]
  have there : dependencyPresent w = dependencyPresent s := by
    unfold dependencyPresent
    rw [now_]
  rw [there]

theorem holds_discoverFile (visited : List DiskFileId) (file : DiskFileId) :
    Holds (Discovering folding sizes readable s visited) (discoverFile folding sizes readable file)
      (fun _ => Discovering folding sizes readable s (visited ++ [file]))
      (fun _ => Opening s []) := by
  refine holds_bind (holds_still (fun _ h => h.toOpening) fun _ h => h.toOpening) fun _ => ?_
  refine holds_site fun w hw => ?_
  have same : (if readable file then discover folding sizes w file else none) =
      found folding sizes readable s file := found_congr folding sizes hw.same_folders file
  rw [same]
  have rejected := hw.rejected
  cases hfound : found folding sizes readable s file with
  | none =>
    refine holds_update fun v hv => ?_
    subst hv
    refine { hw with rows := ?_, rejected := ?_, folders := hw.folders, published := hw.published
                     budget := hw.budget, underflow := hw.underflow, managed := hw.managed }
    · rw [hw.rows]
      simp [discovered, hfound]
    · dsimp only
      rw [List.length_append, List.length_singleton]
      omega
  | some m =>
    refine holds_update fun v hv => ?_
    subst hv
    refine { hw with rows := ?_, rejected := ?_, folders := hw.folders, published := hw.published
                     budget := hw.budget, underflow := hw.underflow, managed := hw.managed }
    · have before := hw.rows
      unfold Store.rows at before ⊢
      simp [discovered, hfound] at before ⊢
      rw [before]
    · dsimp only
      rw [List.concat_eq_append, List.length_append, List.length_append, List.length_singleton,
        List.length_singleton]
      omega

theorem holds_discovery {files : List DiskFileId} :
    Holds (Discovering folding sizes readable s [])
      (files.forM (discoverFile folding sizes readable))
      (fun _ => Discovering folding sizes readable s files) (fun _ => Opening s []) := by
  refine holds_consequence (holds_forM (I := fun rest w => ∃ visited, visited ++ rest = files ∧
    Discovering folding sizes readable s visited w) files fun file rest => ?_)
    (fun w hw => ⟨[], rfl, hw⟩) ?_ fun _ _ h => h
  · refine holds_of_start fun w hw => ?_
    obtain ⟨visited, whole, discovering⟩ := hw
    refine holds_consequence (holds_discoverFile folding sizes visited file)
      (fun v hv => hv ▸ discovering) (fun _ v hv => ⟨_, ?_, hv⟩) fun _ _ h => h
    rw [List.append_assoc]
    exact whole
  · rintro - w ⟨visited, whole, discovering⟩
    rw [List.append_nil] at whole
    exact whole ▸ discovering

/-! ## The rest of startup -/

/-- Nothing but syncs happened. -/
def Closes (s : Site) (_ : Failure) (w : Site) : Prop := ∃ synced, Opening s synced w

variable (readable) in
/-- The index is complete; the directories are being made durable. -/
structure Indexing (s : Site) (synced : List Folder) (w : Site) : Prop
    extends Opening s synced w where
  rows : (rows w.store.entries).Perm
    (kept (discovered folding sizes readable s (s.folders .manifests).present))
  coherent : Coherent (manifestsOf w.store.entries)
  recovery : w.store.recoveryRequired = decide
    (w.store.entries.length ≠ (s.folders .manifests).present.length)
  budget : w.store.budgetBytes = s.store.budgetBytes
  underflow : w.store.underflow = false
  managed : w.store.managedBytes.toNat = s.managedSize

theorem holds_startup_sync {synced : List Folder} {folder : Folder} :
    Holds (Indexing folding sizes readable s synced) (syncFolder folder)
      (fun _ => Indexing folding sizes readable s (folder :: synced))
      (Closes s) := by
  have step {w : Site} (h : Opening s synced w) :
      Opening s (folder :: synced) (w.change folder (·.sync)) := by
    refine ⟨fun g => ?_, h.published⟩
    rw [Site.folders_change, h.folders g]
    by_cases same : g = folder
    · subst same
      rw [if_pos rfl, if_pos List.mem_cons_self]
      split <;> rfl
    · simp [same]
  refine holds_effect (fun w hw => ?_) (fun w hw => ⟨_, hw.toOpening⟩)
    (fun w hw => ⟨_, step hw.toOpening⟩) fun w hw => ⟨_, hw.toOpening⟩
  exact { hw with
    toOpening := step hw.toOpening, rows := hw.rows, coherent := hw.coherent
    recovery := hw.recovery, budget := hw.budget, underflow := hw.underflow
    managed := hw.managed }

theorem holds_startup (new : New s) :
    Holds (· = s) (startup folding sizes readable)
      (fun _ => Opens folding sizes readable s) (Closes s) := by
  have closed {e : Failure} {w : Site} (h : Opening s [] w) : Closes s e w := ⟨[], h⟩
  obtain ⟨budget, store⟩ := new
  have start : Opening s [] s := ⟨fun g => (if_neg List.not_mem_nil).symm, rfl⟩
  refine holds_bind (holds_still (fun w hw => closed (hw ▸ start))
    fun w hw => closed (hw ▸ start)) fun _ => ?_
  refine holds_bind (R := fun _ => Discovering folding sizes readable s []) ?_ fun _ => ?_
  · refine holds_bind (holds_still (fun w hw => closed (hw ▸ start))
      fun w hw => closed (hw ▸ start)) fun _ => holds_site fun w hw => ?_
    subst hw
    refine holds_reject (fun _ v hv => closed (hv ▸ start)) fun fits => holds_update ?_
    rintro v rfl
    refine ⟨⟨start.folders, rfl⟩, ?_, ?_, rfl, ?_, ?_⟩
    · simp [Store.rows, discovered, store]
    · simp [store]
    · simp [store]
    · rw [Nat.toUInt64_eq, UInt64.toNat_ofNat']
      omega
  refine holds_bind (holds_still (fun w hw => closed hw.toOpening)
    fun w hw => closed hw.toOpening) fun _ => ?_
  refine holds_bind (R := fun files w => Discovering folding sizes readable s [] w ∧
      files.Perm (s.folders .manifests).present)
    (holds_scan (fun order w hw => ⟨hw, ?_⟩) (fun w hw => closed hw.toOpening)
      fun w hw => closed hw.toOpening) fun files => ?_
  · rw [hw.same_folders]
    exact arrange_perm (Directory.nodup_present _)
  refine holds_of_start fun w hw => ?_
  obtain ⟨discovering, files_perm⟩ := hw
  refine holds_bind (holds_consequence (holds_discovery folding sizes)
    (fun v hv => hv ▸ discovering) (fun _ _ h => h) fun _ _ h => closed h) fun _ => ?_
  refine holds_bind (R := fun _ v => Opening s [] v ∧
      (Store.rows v.store.entries).Perm
        (kept (discovered folding sizes readable s (s.folders .manifests).present)) ∧
      Coherent (manifestsOf v.store.entries) ∧
      v.store.rejectedManifests + v.store.entries.length =
        (s.folders .manifests).present.length ∧
      v.store.budgetBytes = s.store.budgetBytes ∧ v.store.underflow = false ∧
      v.store.managedBytes.toNat = s.managedSize) ?_ fun _ => ?_
  · refine holds_bind (holds_still (fun v hv => closed hv.toOpening)
      fun v hv => closed hv.toOpening) fun _ => holds_update fun v hv => ?_
    refine ⟨⟨hv.folders, hv.published⟩, ?_, coherent_accepted _, ?_, hv.budget, hv.underflow,
      hv.managed⟩
    · rw [rows_accepted, hv.rows]
      exact kept_perm (files_perm.filterMap _)
    · have count := hv.rejected
      have fewer := List.length_filter_le
        (fun e => !rejected (manifestsOf v.store.entries) e.manifest) v.store.entries
      have length := files_perm.length_eq
      change (accepted v.store.entries).length ≤ _ at fewer
      dsimp only
      omega
  refine holds_bind (R := fun _ => Indexing folding sizes readable s [])
    (holds_update fun v hv => ?_) fun _ => ?_
  · obtain ⟨opening, rows, coherent, count, budget, underflow, managed⟩ := hv
    refine ⟨⟨opening.folders, opening.published⟩, rows, coherent, ?_, budget, underflow, managed⟩
    change (v.store.rejectedManifests != 0) = decide (v.store.entries.length ≠ _)
    rw [Bool.eq_iff_iff, bne_iff_ne, decide_eq_true_eq]
    omega
  refine holds_bind (holds_startup_sync folding sizes) fun _ => ?_
  refine holds_bind (holds_startup_sync folding sizes) fun _ => ?_
  refine holds_bind (holds_startup_sync folding sizes) fun _ => ?_
  refine holds_bind (holds_startup_sync folding sizes) fun _ => holds_update fun v hv => ?_
  have sorted : (v.store.entries.mergeSort byFile).Perm v.store.entries :=
    List.mergeSort_perm _ _
  have recovery := hv.recovery
  refine { hv with folders := fun g => ?_, rows := ?_, coherent := ?_, recovery := fun none_ => ?_
                   settled := fun all => ?_, published := hv.published, budget := hv.budget
                   underflow := hv.underflow, managed := hv.managed }
  · change v.folders g = _
    rw [hv.folders g]
    cases g <;> rfl
  · exact (sorted.map _).trans hv.rows
  · exact hv.coherent.perm (sorted.map _)
  · change v.store.recoveryRequired = false at none_
    rw [recovery, decide_eq_false_iff_not, not_not] at none_
    exact sorted.length_eq.trans none_
  · change v.store.recoveryRequired = false
    rw [recovery, decide_eq_false_iff_not, not_not, ← sorted.length_eq]
    exact all

end

end Gufo.Store
