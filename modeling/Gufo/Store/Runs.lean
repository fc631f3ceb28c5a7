import Gufo.Store.Publication
import Gufo.Store.Startup

/-!
# Runs of a store

A request is answered by a call, a call ends in any of the ways the world lets it
end, and the states of a store are those that startup and such calls lead to.
-/

namespace Gufo.Store
open Gufo.Disk Gufo.Program Gufo.Volatile

/-- What a store can be asked to do. -/
inductive Request
  | publish (r : Publication)
  | retire (id epoch : UInt64) (pinned : Bool)
  | reclaim
  | invalidate (id epoch : UInt64)
  | invalidateDependency (key : FileKey)

section
variable (folding : Bool) (sizes : Layouts)

def serve : Request → Op Unit
  | .publish r => publish folding sizes r
  | .retire id epoch pinned => discard (retire id epoch pinned)
  | .reclaim => reclaim
  | .invalidate id epoch => invalidate id epoch
  | .invalidateDependency key => invalidateDependency key

/-- The operation can end so: with the failure it throws, or without. -/
def Ends {α : Type} (m : Op α) (s : Site) (end_ : Option Failure) (w : Site) : Prop :=
  ∃ answers, match m { s with answers } with
    | .ok _ t => end_ = none ∧ t.toSite = w
    | .error e t => end_ = some e ∧ t.toSite = w

/-- A store's states, from its startup over any directories on. -/
inductive Reachable (opened : Site → Prop) : Site → Prop
  | open {s w : Site} (readable : DiskFileId → Bool) (new : New s)
      (run : Ends (startup folding sizes readable) s none w) (fine : opened w) : Reachable opened w
  | serve {s w : Site} {end_ : Option Failure} (request : Request) (past : Reachable opened s)
      (run : Ends (serve folding sizes request) s end_ w) (alive : end_ ≠ some .crashed) :
      Reachable opened w

end

section
variable {α : Type} {s w : Site} {m : Op α} {Q : α → Site → Prop} {E : Failure → Site → Prop}

theorem Holds.returned (h : Holds (· = s) m Q E) (run : Ends m s none w) : ∃ a, Q a w := by
  obtain ⟨answers, run⟩ := run
  have outcome := h { s with answers } rfl
  cases eq : m { s with answers } with
  | ok a t =>
    rw [eq] at run outcome
    exact ⟨a, run.2 ▸ outcome⟩
  | error e t =>
    rw [eq] at run
    cases run.1

theorem Holds.stopped (h : Holds (· = s) m Q E) {e : Failure} (run : Ends m s (some e) w) :
    E e w := by
  obtain ⟨answers, run⟩ := run
  have outcome := h { s with answers } rfl
  cases eq : m { s with answers } with
  | ok a t =>
    rw [eq] at run
    cases run.1
  | error e' t =>
    rw [eq] at run outcome
    obtain ⟨same, rfl⟩ := run
    rw [Option.some.injEq] at same
    exact same ▸ outcome

theorem holds_discard {P Q : Site → Prop} (h : Holds P m (fun _ => Q) E) :
    Holds P (discard m) (fun _ => Q) E := triple_discard h

end

/-! ## Retirement and reclamation -/

/-- What removing and syncing files keeps. -/
structure Tidy (I : Site → Prop) : Prop where
  unlinked : ∀ {w folder id f}, I w → w.now folder id = some f →
    I (w.change folder (·.put id none))
  removed : ∀ {w folder id f}, I w → w.now folder id = some f →
    I ((w.change folder (·.put id none)).debit f.size)
  synced : ∀ {w folder}, I w → I (w.change folder (·.sync))

section
variable {I : Site → Prop} (tidy : Tidy I)
include tidy

theorem Tidy.remove (folder : Folder) (id : DiskFileId) :
    Holds I (remove folder id) (fun _ => I) (fun _ => I) :=
  holds_remove (fun _ h _ => h) (fun _ _ h there => tidy.removed h there) (fun _ h => h)
    (fun _ _ h there => tidy.unlinked h there) fun _ h => h

theorem Tidy.syncFolder (folder : Folder) :
    Holds I (syncFolder folder) (fun _ => I) (fun _ => I) :=
  holds_effect (fun _ h => tidy.synced h) (fun _ h => h) (fun _ h => tidy.synced h) fun _ h => h

theorem Tidy.removeFiles (e : DurableEntry) :
    Holds I (removeFiles e) (fun _ => I) (fun _ => I) := by
  refine holds_bind (tidy.remove _ _) fun _ => holds_bind (tidy.syncFolder _) fun _ => ?_
  refine holds_bind (holds_forM (I := fun _ => I) _ fun p rest => ?_) fun _ =>
    holds_bind (tidy.syncFolder _) fun _ => tidy.syncFolder _
  refine holds_site fun w hw => holds_ite (fun _ => holds_pure fun v hv => hv ▸ hw) fun _ => ?_
  exact holds_consequence (tidy.remove _ _) (fun v hv => hv ▸ hw) (fun _ _ h => h) fun _ _ h => h

theorem Tidy.reclaimFolder (folder : Folder) (claimed : List DurableEntry → DiskFileId → Bool) :
    Holds I (reclaimFolder folder claimed) (fun _ => I) (fun _ => I) := by
  refine holds_bind (R := fun _ => I) (holds_scan (fun _ _ h => h) (fun _ h => h) fun _ h => h)
    fun files => ?_
  refine holds_bind (holds_forM (I := fun _ => I) _ fun id rest => ?_) fun _ => tidy.syncFolder _
  refine holds_site fun w hw => holds_ite (fun _ => holds_pure fun v hv => hv ▸ hw) fun _ => ?_
  exact holds_consequence (tidy.remove _ _) (fun v hv => hv ▸ hw) (fun _ _ h => h) fun _ _ h => h

end

/-! ## A store with one checkpoint -/

/-- Whether the operation returns when the system answers every call with success. -/
def returns {α : Type} (m : Op α) (s : Site) : Bool :=
  match m { s with } with
  | .ok _ _ => true
  | .error _ _ => false

/-- Where it then ends. -/
def outcome {α : Type} (m : Op α) (s : Site) : Site := (final m { s with }).toSite

theorem ends_outcome {α : Type} {m : Op α} {s : Site} (h : returns m s = true) :
    Ends m s none (outcome m s) := by
  refine ⟨fun _ => {}, ?_⟩
  unfold returns at h
  unfold outcome final
  cases run : m { s with } with
  | ok a t => exact ⟨rfl, rfl⟩
  | error e t => rw [run] at h; cases h

def sampleFile (n : UInt8) : DiskFileId := Vector.replicate 16 n

/-- A checkpoint of one private state of one byte. -/
def sampleCheckpoint (id : UInt64) (state : UInt8) : DiskManifest where
  checkpoint := id
  lineage := 1
  compatibility := Vector.replicate 32 0
  input := []
  tokens := []
  components := [⟨⟨1, 1, .privateState, 0, 0, 1⟩, ⟨1, 0⟩, [], none,
    some ⟨sampleFile state, 1, diskChecksum false [7] 0⟩⟩]
  purpose := .prompt
  rank := 0

def samplePublication (id : UInt64) (file state : UInt8) : Publication where
  file := sampleFile file
  manifest := sampleCheckpoint id state
  buffers := [⟨true, sampleFile state, [7]⟩]

def sampleDisk : Site := { store := { budgetBytes := 1000 } }

def openedStore : Site := outcome (startup false ⟨0, 0⟩ fun _ => true) sampleDisk

theorem openedStore_ends : Ends (startup false ⟨0, 0⟩ fun _ => true) sampleDisk none openedStore :=
  ends_outcome rfl

def publishedStore : Site := outcome (publish false ⟨0, 0⟩ (samplePublication 1 1 2)) openedStore

/-- What the publication comes to, evaluated once. -/
theorem publishedStore_facts :
    returns (publish false ⟨0, 0⟩ (samplePublication 1 1 2)) openedStore = true ∧
      rows publishedStore.store.entries = [(sampleFile 1, sampleCheckpoint 1 2)] ∧
      publishedStore.published = [(sampleFile 1, sampleCheckpoint 1 2)] := by
  decide +kernel

theorem publishedStore_ends :
    Ends (publish false ⟨0, 0⟩ (samplePublication 1 1 2)) openedStore none publishedStore :=
  ends_outcome publishedStore_facts.1

theorem publishedStore_rows :
    rows publishedStore.store.entries = [(sampleFile 1, sampleCheckpoint 1 2)] :=
  publishedStore_facts.2.1

theorem publishedStore_reachable {opened : Site → Prop} (fine : opened openedStore) :
    Reachable false ⟨0, 0⟩ opened publishedStore :=
  .serve (.publish (samplePublication 1 1 2))
    (.open (s := sampleDisk) (fun _ => true) ⟨1000, rfl⟩ openedStore_ends fine)
    publishedStore_ends nofun

end Gufo.Store
