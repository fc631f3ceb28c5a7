import Gufo.Store.Rules

/-!
# What the file operations do to the directories

One lemma for each operation and each thing asked of it: the files that are there,
and the size of everything managed.
-/

namespace Gufo.Store
open Gufo.Disk Gufo.Volatile

namespace Site

@[simp] theorem store_change (w : Site) (folder : Folder)
    (f : Directory DiskFileId File → Directory DiskFileId File) :
    (w.change folder f).store = w.store := rfl

theorem folders_change (w : Site) (folder g : Folder)
    (f : Directory DiskFileId File → Directory DiskFileId File) :
    (w.change folder f).folders g = if g = folder then f (w.folders g) else w.folders g := rfl

@[simp] theorem folders_change_self (w : Site) (folder : Folder)
    (f : Directory DiskFileId File → Directory DiskFileId File) :
    (w.change folder f).folders folder = f (w.folders folder) := if_pos rfl

theorem folders_change_of_ne {w : Site} {folder g : Folder} (h : g ≠ folder)
    (f : Directory DiskFileId File → Directory DiskFileId File) :
    (w.change folder f).folders g = w.folders g := if_neg h

@[simp] theorem folders_credit (w : Site) (n : Nat) : (w.credit n).folders = w.folders := rfl
@[simp] theorem managedSize_credit (w : Site) (n : Nat) :
    (w.credit n).managedSize = w.managedSize := rfl
@[simp] theorem managedSize_debit (w : Site) (n : Nat) :
    (w.debit n).managedSize = w.managedSize := rfl
@[simp] theorem entries_setEntries (w : Site) (entries : List DurableEntry) :
    (w.setEntries entries).store.entries = entries := rfl
theorem now_change (w : Site) (folder g : Folder) (id : DiskFileId)
    (f : Directory DiskFileId File → Directory DiskFileId File) :
    (w.change folder f).now g id = if g = folder then (f (w.folders g)).now id else w.now g id := by
  unfold now
  rw [folders_change]
  split <;> rfl

/-! ## Sizes -/

/-- One directory changed changes the managed size by the difference. -/
theorem managedSize_change (w : Site) (folder : Folder)
    (f : Directory DiskFileId File → Directory DiskFileId File) :
    (w.change folder f).managedSize + (w.folders folder).size File.size =
      w.managedSize + (f (w.folders folder)).size File.size := by
  simp only [managedSize, Folder.all, List.map_cons, List.map_nil, List.sum_cons, List.sum_nil,
    folders_change]
  cases folder <;> simp <;> omega

theorem managedSize_sync (w : Site) (folder : Folder) :
    (w.change folder (·.sync)).managedSize = w.managedSize := by
  have change := w.managedSize_change folder (·.sync)
  rw [Directory.size_sync] at change
  omega

/-- A name that gets or loses a file changes the managed size by their weights. -/
theorem managedSize_put (w : Site) (folder : Folder) (id : DiskFileId) (v : Option File) :
    (w.change folder (·.put id v)).managedSize + Directory.weight File.size (w.now folder id) =
      w.managedSize + Directory.weight File.size v := by
  have change := w.managedSize_change folder (·.put id v)
  have put := Directory.size_put File.size (w.folders folder) id v
  have same : w.now folder id = (w.folders folder).now id := rfl
  rw [same]
  omega

theorem managedSize_amend (w : Site) (folder : Folder) (id : DiskFileId) (f : File → File) :
    (w.change folder (·.amend id f)).managedSize +
        Directory.weight File.size (w.now folder id) =
      w.managedSize + Directory.weight File.size ((w.now folder id).map f) := by
  have change := w.managedSize_change folder (·.amend id f)
  have amend := Directory.size_amend File.size (w.folders folder) id f
  have same : w.now folder id = (w.folders folder).now id := rfl
  rw [same]
  omega

/-- A change in place that keeps the file's size. -/
theorem managedSize_amend_same (w : Site) (folder : Folder) (id : DiskFileId) {f : File → File}
    (same : ∀ g, (f g).size = g.size) :
    (w.change folder (·.amend id f)).managedSize = w.managedSize := by
  have amend := w.managedSize_amend folder id f
  have weights : Directory.weight File.size ((w.now folder id).map f) =
      Directory.weight File.size (w.now folder id) := by
    cases w.now folder id with
    | none => rfl
    | some g => exact same g
  omega

/-- A removal takes the file's size. -/
theorem managedSize_remove {w : Site} {folder : Folder} {id : DiskFileId} {f : File}
    (there : w.now folder id = some f) :
    (w.change folder (·.put id none)).managedSize + f.size = w.managedSize := by
  have put := w.managedSize_put folder id none
  rw [there] at put
  simpa [Directory.weight] using put

/-- A rename between directories moves the file's size. -/
theorem managedSize_rename {w : Site} {folder : Folder} {id : DiskFileId} {f : File}
    (other : folder ≠ .temporary) (source : w.now .temporary id = some f)
    (target : w.now folder id = none) :
    ((w.change folder (·.put id (some f))).change .temporary (·.put id none)).managedSize =
      w.managedSize := by
  have put := w.managedSize_put folder id (some f)
  have still : (w.change folder (·.put id (some f))).now .temporary id = some f := by
    rw [now_change, if_neg (Ne.symm other), source]
  have remove := managedSize_remove still
  rw [target] at put
  have weight : Directory.weight File.size (some f) = f.size := rfl
  have zero : Directory.weight File.size (none : Option File) = 0 := rfl
  omega

end Site

end Gufo.Store
