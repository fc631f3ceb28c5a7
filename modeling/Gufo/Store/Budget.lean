import Gufo.Store.Runs

/-!
# The byte budget

The counter of managed bytes is never below the size of the files with the store's
own names, never above the budget, and never goes below zero. A file under a name
that `ParseName` does not accept is not counted.
-/

namespace Gufo.Store
open Gufo.Disk Gufo.Program Gufo.Volatile

/-- The counter covers what is there and stays within the budget. -/
structure Fit (w : Site) : Prop where
  covers : w.managedSize ≤ w.store.managedBytes.toNat
  within : w.store.managedBytes.toNat ≤ w.store.budgetBytes.toNat
  counted : w.store.underflow = false

section
variable {folding : Bool} {sizes : Layouts} {s w : Site}

theorem Progress.fit (h : Progress s w) (fit : Fit s) : Fit w where
  covers := by
    have balance := h.balance
    have covers := fit.covers
    omega
  within := h.within
  counted := h.underflow.trans fit.counted

theorem Fails.fit {r : Publication} {e : Failure} (h : Fails folding s r e w) (fit : Fit s) :
    Fit w := by
  cases h with
  | refused h =>
    rcases h with rfl | ⟨key, -, rfl⟩
    · exact fit
    · exact ⟨fit.covers, fit.within, fit.counted⟩
  | interrupted plain begun entries => exact begun.toProgress.fit fit
  | uncertain plain m f attempted recovery => exact attempted.toProgress.fit fit

theorem Publishes.fit {r : Publication} (h : Publishes folding s r w) (fit : Fit s) : Fit w := by
  obtain ⟨m, f, v, committed, rfl⟩ := h.committed
  have done := committed.toProgress.fit fit
  exact ⟨done.covers, done.within, done.counted⟩

/-- A publication refused for capacity has done nothing. -/
theorem Fails.capacity {r : Publication} (h : Fails folding s r .capacity w) : w = s := by
  cases h with
  | refused h => exact h.resolve_right fun ⟨key, no, _⟩ => by cases no
  | interrupted plain begun entries => exact absurd rfl plain.1
  | uncertain plain m f attempted recovery => exact absurd rfl plain.1

theorem tidy_fit : Tidy Fit where
  unlinked {w folder id f} h there := by
    have size := Site.managedSize_remove there
    have covers := h.covers
    refine ⟨?_, h.within, h.counted⟩
    rw [Site.store_change]
    omega
  removed {w folder id f} h there := by
    have size := Site.managedSize_remove there
    have covers := h.covers
    have within := h.within
    have enough : f.size ≤ w.store.managedBytes.toNat := by omega
    have short : f.size.toUInt64.toNat = f.size := by
      have limit := w.store.managedBytes.toNat_lt
      rw [Nat.toUInt64_eq, UInt64.toNat_ofNat']
      omega
    have left : ((w.change folder (·.put id none)).debit f.size).store.managedBytes.toNat =
        w.store.managedBytes.toNat - f.size := by
      have less : f.size.toUInt64 ≤ w.store.managedBytes := by
        rw [UInt64.le_iff_toNat_le, short]
        exact enough
      change (w.store.managedBytes - f.size.toUInt64).toNat = _
      rw [UInt64.toNat_sub_of_le _ _ less, short]
    refine ⟨?_, ?_, ?_⟩
    · rw [left, Site.managedSize_debit]
      omega
    · change _ ≤ w.store.budgetBytes.toNat
      omega
    · change (w.store.underflow || decide (w.store.managedBytes.toNat < f.size)) = false
      rw [h.counted, Bool.false_or, decide_eq_false_iff_not]
      omega
  synced {w folder} h := ⟨by rw [Site.managedSize_sync]; exact h.covers, h.within, h.counted⟩

theorem holds_retire_fit {id epoch : UInt64} {pinned : Bool} :
    Holds Fit (retire id epoch pinned) (fun _ => Fit) (fun _ => Fit) := by
  refine holds_site fun w hw => ?_
  refine holds_reject (fun _ v hv => hv ▸ hw) fun _ => ?_
  split
  · exact holds_pure fun v hv => hv ▸ hw
  · refine holds_ite (fun _ => holds_pure fun v hv => hv ▸ hw) fun _ => ?_
    refine holds_ite (fun _ => holds_pure fun v hv => hv ▸ hw) fun _ => ?_
    refine holds_bind (R := fun _ => Fit) (holds_update ?_) fun _ => ?_
    · rintro v rfl
      exact ⟨hw.covers, hw.within, hw.counted⟩
    · refine holds_bind (holds_onError (tidy_fit.removeFiles _) (fun v hv => hv)
        fun _ v _ hv => ?_) fun _ => holds_pure fun _ h => h
      exact ⟨hv.covers, hv.within, hv.counted⟩

theorem holds_reclaim_fit : Holds Fit reclaim (fun _ => Fit) (fun _ => Fit) := by
  have flag {v : Site} (b : Bool) (h : Fit v) : Fit (v.setRecovery b) :=
    ⟨h.covers, h.within, h.counted⟩
  refine holds_bind (R := fun _ => Fit) (holds_update fun _ h => flag true h) fun _ => ?_
  refine holds_bind (tidy_fit.reclaimFolder _ _) fun _ =>
    holds_bind (tidy_fit.reclaimFolder _ _) fun _ =>
    holds_bind (tidy_fit.reclaimFolder _ _) fun _ =>
    holds_bind (tidy_fit.reclaimFolder _ _) fun _ => ?_
  refine holds_bind (R := fun _ => Fit) ?_ fun _ => holds_update fun _ h => flag false h
  refine holds_bind (holds_still (fun _ h => h) fun _ h => h) fun _ => holds_site fun w hw => ?_
  refine holds_reject (fun _ v hv => hv ▸ hw) fun _ => holds_update fun v hv => ?_
  subst hv
  -- The recount is exact, and what is there was covered before.
  have covers := hw.covers
  have within := hw.within
  have exact_ : v.managedSize.toUInt64.toNat = v.managedSize := by
    rw [Nat.toUInt64_eq, UInt64.toNat_ofNat']
    omega
  refine ⟨?_, ?_, hw.counted⟩
  · change v.managedSize ≤ v.managedSize.toUInt64.toNat
    omega
  · change v.managedSize.toUInt64.toNat ≤ v.store.budgetBytes.toNat
    omega

theorem serve_fit {request : Request} {end_ : Option Failure}
    (run : Ends (serve folding sizes request) s end_ w) (h : Fit s) : Fit w := by
  have all {m : Op Unit} (spec : Holds Fit m (fun _ => Fit) (fun _ => Fit))
      (run : Ends m s end_ w) : Fit w := by
    have here : Holds (· = s) m (fun _ => Fit) (fun _ => Fit) :=
      holds_consequence spec (fun v hv => hv ▸ h) (fun _ _ h => h) fun _ _ h => h
    cases end_ with
    | none => exact (here.returned run).elim fun _ fit => fit
    | some e => exact here.stopped run
  cases request with
  | publish r =>
    cases end_ with
    | none => exact ((holds_publish sizes).returned run).elim fun _ published => published.fit h
    | some e => exact ((holds_publish sizes).stopped run).fit h
  | retire id epoch pinned => exact all (holds_discard holds_retire_fit) run
  | reclaim => exact all holds_reclaim_fit run
  | invalidate id epoch =>
    have spec : Holds Fit (invalidate id epoch) (fun _ => Fit) (fun _ => Fit) :=
      holds_update fun v hv => ⟨hv.covers, hv.within, hv.counted⟩
    exact all spec run
  | invalidateDependency key =>
    have spec : Holds Fit (invalidateDependency key) (fun _ => Fit) (fun _ => Fit) :=
      holds_update fun v hv => ⟨hv.covers, hv.within, hv.counted⟩
    exact all spec run

/-- Opened at or under its budget. -/
def Within (w : Site) : Prop := w.store.managedBytes.toNat ≤ w.store.budgetBytes.toNat

theorem reachable_fit (h : Reachable folding sizes Within w) : Fit w := by
  induction h with
  | @«open» s w readable new run fine =>
    obtain ⟨-, opens⟩ := (holds_startup folding sizes new).returned run
    have same : w.managedSize = s.managedSize := by
      unfold Site.managedSize
      refine congrArg _ (List.map_congr_left fun g hg => ?_)
      rw [opens.folders g, if_pos hg, Directory.size_sync]
    exact ⟨by rw [opens.managed, same], fine, opens.underflow⟩
  | serve request past run alive ih => exact serve_fit run ih

/-- In every reachable state of a store opened at or under its budget, the counter covers the files
with the store's own names, never went below zero and is within the budget. A publication refused
for capacity leaves everything as it was. -/
theorem managed_bytes_bounded (folding : Bool) (sizes : Layouts) {w : Site}
    (reachable : Reachable folding sizes Within w) :
    w.managedSize ≤ w.store.managedBytes.toNat ∧ w.store.underflow = false ∧
      w.store.managedBytes.toNat ≤ w.store.budgetBytes.toNat ∧
      ∀ r v, Ends (publish folding sizes r) w (some .capacity) v → v = w :=
  have fit := reachable_fit reachable
  ⟨fit.covers, fit.counted, fit.within, fun _ _ run => ((holds_publish sizes).stopped run).capacity⟩

theorem managed_bytes_sample :
    publishedStore.managedSize ≤ publishedStore.store.managedBytes.toNat ∧
      publishedStore.store.underflow = false ∧
      publishedStore.store.managedBytes.toNat ≤ publishedStore.store.budgetBytes.toNat ∧
      ∀ r v, Ends (publish false ⟨0, 0⟩ r) publishedStore (some .capacity) v → v = publishedStore :=
  managed_bytes_bounded false ⟨0, 0⟩ (publishedStore_reachable (by unfold Within; decide +kernel))

/-- A directory with one file that the store did not name. -/
def strayFile : Site :=
  { sampleDisk with
    foreign := fun folder => if folder = .chunks then [[0]] else []
    store := { budgetBytes := 100 } }

/-- The store opened over it. -/
def strayStore : Site := outcome (startup false ⟨0, 0⟩ fun _ => true) strayFile

theorem strayStore_reachable : Reachable false ⟨0, 0⟩ Within strayStore :=
  .open (s := strayFile) (fun _ => true) ⟨100, rfl⟩ (ends_outcome rfl) (Nat.zero_le _)

/-- The file is not counted. -/
theorem strayFile_uncounted : ¬∀ (folding : Bool) (sizes : Layouts) (w : Site),
    Reachable folding sizes Within w → w.totalSize ≤ w.store.managedBytes.toNat := by
  intro claim
  have bounded := claim false ⟨0, 0⟩ _ strayStore_reachable
  have total : strayStore.totalSize = 1 := rfl
  have managed : strayStore.store.managedBytes.toNat = 0 := rfl
  omega

end

end Gufo.Store
