import Gufo.Store.Runs

/-!
# The index never holds a conflict

Whatever manifests startup meets, in whatever order, and whatever is published and
retired afterwards, any two entries agree; a publication that would break this
fails and leaves the entries.
-/

namespace Gufo.Store
open Gufo.Disk Gufo.Program Gufo.Volatile

section
variable {folding : Bool} {sizes : Layouts} {s w : Site}

theorem rows_quarantine (key : FileKey) (w : Site) :
    rows (quarantine key w).store.entries = rows w.store.entries := by
  unfold quarantine rows
  rw [Site.entries_setEntries, List.map_map]
  refine List.map_congr_left fun e _ => ?_
  rw [Function.comp_apply]
  split <;> rfl

theorem coherent_of_rows {entries others : List DurableEntry} (same : rows others = rows entries)
    (h : Coherent (manifestsOf entries)) : Coherent (manifestsOf others) := by
  rw [manifestsOf_eq] at *
  exact same ▸ h

/-- A publication that fails leaves the rows of the index, and its entries unless it found a
damaged file. -/
theorem Fails.entries {r : Publication} {e : Failure} (h : Fails folding s r e w)
    (alive : e ≠ .crashed) :
    rows w.store.entries = rows s.store.entries ∧
      ((∀ key, e ≠ .dependency key) → w.store.entries = s.store.entries) := by
  cases h with
  | refused h =>
    rcases h with rfl | ⟨key, rfl, rfl⟩
    · exact ⟨rfl, fun _ => rfl⟩
    · exact ⟨rows_quarantine key s, fun none_ => absurd rfl (none_ key)⟩
  | interrupted plain begun entries => exact ⟨by rw [entries alive], fun _ => entries alive⟩
  | uncertain plain m f attempted recovery =>
    exact ⟨by rw [(recovery alive).1], fun _ => (recovery alive).1⟩

/-- A publication that returns has an index without conflict. -/
theorem Publishes.coherent {r : Publication} (h : Publishes folding s r w) :
    Coherent (manifestsOf w.store.entries) := by
  obtain ⟨m, f, v, committed, rfl⟩ := h.committed
  obtain ⟨e, entries, -, manifest⟩ := committed.provisional
  have same : manifestsOf (recordPublished v).store.entries =
      manifestsOf s.store.entries ++ [m] := by
    change manifestsOf v.store.entries = _
    rw [entries]
    simp [manifestsOf, manifest]
  exact same ▸ committed.coherent

/-! ## Retirement and reclamation -/

theorem tidy_entries (entries : List DurableEntry) : Tidy fun w => w.store.entries = entries where
  unlinked h _ := h
  removed h _ := h
  synced h := h

theorem holds_retire_entries {id epoch : UInt64} {pinned : Bool} :
    Holds (· = s) (retire id epoch pinned) (fun _ w => w.store.entries.Sublist s.store.entries)
      (fun _ w => w.store.entries.Sublist s.store.entries) := by
  have same {v : Site} (h : v = s) : v.store.entries.Sublist s.store.entries :=
    h ▸ List.Sublist.refl _
  refine holds_site fun w hw => ?_
  subst hw
  refine holds_reject (fun _ v hv => same hv) fun _ => ?_
  split
  · exact holds_pure fun v hv => same hv
  · rename_i e _
    refine holds_ite (fun _ => holds_pure fun v hv => same hv) fun _ => ?_
    refine holds_ite (fun _ => holds_pure fun v hv => same hv) fun _ => ?_
    have sub : (w.store.entries.erase e).Sublist w.store.entries := List.erase_sublist
    refine holds_bind (R := fun _ v => v.store.entries = w.store.entries.erase e)
      (holds_update ?_) fun _ => ?_
    · rintro v rfl
      rfl
    refine holds_bind (holds_onError
      (E := fun _ v => v.store.entries.Sublist w.store.entries)
      ((tidy_entries _).removeFiles e) (fun v hv => ?_) fun _ v _ hv => ?_) fun _ => ?_
    · exact hv ▸ sub
    · exact hv ▸ sub
    · exact holds_pure fun v hv => hv ▸ sub

theorem holds_reclaim_entries :
    Holds (· = s) reclaim (fun _ w => w.store.entries = s.store.entries)
      (fun _ w => w.store.entries = s.store.entries) := by
  have tidy := tidy_entries s.store.entries
  refine holds_bind (R := fun _ w => w.store.entries = s.store.entries) (holds_update ?_)
    fun _ => ?_
  · rintro w rfl
    rfl
  refine holds_bind (tidy.reclaimFolder _ _) fun _ => holds_bind (tidy.reclaimFolder _ _) fun _ =>
    holds_bind (tidy.reclaimFolder _ _) fun _ => holds_bind (tidy.reclaimFolder _ _) fun _ => ?_
  refine holds_bind (R := fun _ w => w.store.entries = s.store.entries) ?_ fun _ =>
    holds_update fun _ h => h
  refine holds_bind (holds_still (fun _ h => h) fun _ h => h) fun _ => holds_site fun w hw => ?_
  refine holds_reject (fun _ v hv => hv ▸ hw) fun _ => holds_update fun v hv => ?_
  subst hv
  exact hw

/-! ## Every reachable index -/

theorem coherent_invalidated {p : DurableEntry → Prop} [DecidablePred p]
    (h : Coherent (manifestsOf w.store.entries)) :
    Coherent (manifestsOf (w.store.entries.map fun e =>
      if p e then { e with available := false } else e)) := by
  refine coherent_of_rows ?_ h
  unfold rows
  rw [List.map_map]
  refine List.map_congr_left fun e _ => ?_
  rw [Function.comp_apply]
  split <;> rfl

theorem serve_coherent {request : Request} {end_ : Option Failure}
    (run : Ends (serve folding sizes request) s end_ w) (alive : end_ ≠ some .crashed)
    (h : Coherent (manifestsOf s.store.entries)) : Coherent (manifestsOf w.store.entries) := by
  have smaller (sub : w.store.entries.Sublist s.store.entries) :
      Coherent (manifestsOf w.store.entries) := h.sublist (sub.map _)
  cases request with
  | publish r =>
    cases end_ with
    | none => exact ((holds_publish sizes).returned run).elim fun _ published => published.coherent
    | some e =>
      have failed := (holds_publish sizes).stopped run
      exact coherent_of_rows (failed.entries fun dead => alive (dead ▸ rfl)).1 h
  | retire id epoch pinned =>
    have spec : Holds (· = s) (discard (retire id epoch pinned))
        (fun _ w => w.store.entries.Sublist s.store.entries)
        (fun _ w => w.store.entries.Sublist s.store.entries) := holds_discard holds_retire_entries
    cases end_ with
    | none => exact (spec.returned run).elim fun _ sub => smaller sub
    | some e => exact smaller (spec.stopped run)
  | reclaim =>
    cases end_ with
    | none => exact (holds_reclaim_entries.returned run).elim fun _ same => same ▸ h
    | some e =>
      have same := holds_reclaim_entries.stopped run
      exact same ▸ h
  | invalidate id epoch =>
    have spec : Holds (· = s) (invalidate id epoch)
        (fun _ w => Coherent (manifestsOf w.store.entries)) fun _ _ => False :=
      holds_update fun v hv => hv ▸ coherent_invalidated h
    cases end_ with
    | none => exact (spec.returned run).elim fun _ fine => fine
    | some e => exact (spec.stopped run).elim
  | invalidateDependency key =>
    have spec : Holds (· = s) (invalidateDependency key)
        (fun _ w => Coherent (manifestsOf w.store.entries)) fun _ _ => False :=
      holds_update fun v hv => hv ▸ coherent_of_rows (rows_quarantine key s) h
    cases end_ with
    | none => exact (spec.returned run).elim fun _ fine => fine
    | some e => exact (spec.stopped run).elim

theorem reachable_coherent (h : Reachable folding sizes (fun _ => True) w) :
    Coherent (manifestsOf w.store.entries) := by
  induction h with
  | «open» readable new run _ =>
    exact ((holds_startup folding sizes new).returned run).elim fun _ opens => opens.coherent
  | serve request past run alive ih => exact serve_coherent run alive ih

/-- The index of every reachable store is without conflict: any two entries have checkpoints of
their own and claim no file together, other than a chunk of which they say the same. What startup
accepts does not depend on the order it met the files in. A publication that would bring a conflict
fails; the rows of the index stay, and so do its entries, unless it found a damaged file, whose
owners it marks. -/
theorem indexed_claims_agree (folding : Bool) (sizes : Layouts) :
    (∀ w, Reachable folding sizes (fun _ => True) w →
      w.store.entries.Pairwise fun e f => e.manifest.checkpoint ≠ f.manifest.checkpoint ∧
        ∀ c ∈ manifestClaims e.manifest, ∀ d ∈ manifestClaims f.manifest, c.key = d.key →
          c.key.1 = false ∧ c.geometry = d.geometry) ∧
    (∀ readable s w w', New s → Ends (startup folding sizes readable) s none w →
      Ends (startup folding sizes readable) s none w' →
      (rows w.store.entries).Perm (rows w'.store.entries)) ∧
    ∀ s r end_ w, Reachable folding sizes (fun _ => True) s →
      ¬Coherent (manifestsOf s.store.entries ++ [resolvedManifest s.store.entries r]) →
      Ends (publish folding sizes r) s end_ w →
      ∃ e, end_ = some e ∧ (e ≠ .crashed → rows w.store.entries = rows s.store.entries ∧
        ((∀ key, e ≠ .dependency key) → w.store.entries = s.store.entries)) := by
  refine ⟨fun w reachable => ?_, fun readable s w w' new run run' => ?_,
    fun s r end_ w _ conflict run => ?_⟩
  · have pairs := (coherent_iff_agree.mp (reachable_coherent reachable)).2
    refine (List.pairwise_map.mp pairs).imp fun {e f} agree => ⟨agree.checkpoint, ?_⟩
    intro c hc d hd same
    have compatible := agree.claims c hc d hd same
    exact ⟨compatible.left, compatible.geometry⟩
  · obtain ⟨-, opens⟩ := (holds_startup folding sizes new).returned run
    obtain ⟨-, opens'⟩ := (holds_startup folding sizes new).returned run'
    exact opens.rows.trans opens'.rows.symm
  · cases end_ with
    | none =>
      obtain ⟨-, published⟩ := (holds_publish sizes).returned run
      exact absurd published.fits conflict
    | some e => exact ⟨e, rfl, fun alive => ((holds_publish sizes).stopped run).entries alive⟩

/-- Another publication of the checkpoint, with other files. -/
def clashing : Publication := samplePublication 1 3 4

theorem clashing_conflicts : ¬Coherent (manifestsOf publishedStore.store.entries ++
    [resolvedManifest publishedStore.store.entries clashing]) := by
  intro coherent
  rw [manifestsOf_eq, publishedStore_rows] at coherent
  have both := coherent.checkpoints
  simp only [List.map_append, List.map_singleton, resolvedManifest_checkpoint] at both
  exact absurd both (by decide)

/-- Two stores opened over an empty disk have the same rows, the one entry of the sample is without
conflict, and no end of publishing its checkpoint again changes its row. -/
theorem indexed_claims_sample :
    (publishedStore.store.entries.Pairwise fun e f =>
      e.manifest.checkpoint ≠ f.manifest.checkpoint ∧
        ∀ c ∈ manifestClaims e.manifest, ∀ d ∈ manifestClaims f.manifest, c.key = d.key →
          c.key.1 = false ∧ c.geometry = d.geometry) ∧
    (rows openedStore.store.entries).Perm (rows openedStore.store.entries) ∧
    ∀ end_ w, Ends (publish false ⟨0, 0⟩ clashing) publishedStore end_ w → ∃ e, end_ = some e ∧
      (e ≠ .crashed → rows w.store.entries = [(sampleFile 1, sampleCheckpoint 1 2)]) := by
  obtain ⟨agree, order, conflict⟩ := indexed_claims_agree false ⟨0, 0⟩
  have reachable : Reachable false ⟨0, 0⟩ (fun _ => True) publishedStore :=
    publishedStore_reachable trivial
  refine ⟨agree _ reachable, order _ sampleDisk _ _ ⟨1000, rfl⟩ openedStore_ends openedStore_ends,
    fun end_ w run => ?_⟩
  obtain ⟨e, same, unchanged⟩ := conflict _ _ _ _ reachable clashing_conflicts run
  exact ⟨e, same, fun alive => (unchanged alive).1.trans publishedStore_rows⟩

end

end Gufo.Store
