import Gufo.Store.Recovery

/-!
# Lives of a store

A store opens over what is on the disk, serves requests, and stops: at the end of a
call, in the middle of one, or with a power loss that takes with it any part of what
was not synced. Through all of that no manifest that startup accepts is incomplete.
-/

namespace Gufo.Store
open Gufo.Disk Gufo.Program Gufo.Keyed Gufo.Volatile

section
variable {folding : Bool} {sizes : Layouts} {s w v : Site}

/-! ## Retirement -/

theorem Kept.regular (h : Kept folding w) {id : DiskFileId} {f : File}
    (there : w.now .manifests id = some f) : f.links = 1 := by
  obtain ⟨m, sound, -⟩ := h.sound id f (left_of_now there)
  exact sound.links

/-- While a manifest that is no longer indexed goes. -/
structure Retiring (folding : Bool) (id : DiskFileId) (w : Site) : Prop extends Kept folding w where
  nearly : ∀ j f, Left w j f → j = id ∨ ∃ e ∈ w.store.entries, e.file = j
  unindexed : ∀ e ∈ w.store.entries, e.file ≠ id

theorem Retiring.unlink {id : DiskFileId} (h : Retiring folding id w) :
    Retiring folding id (w.change .manifests (·.put id none)) :=
  { h.toKept.unlink h.unindexed with
    nearly := fun j f left => h.nearly j f (left_unlinked left)
    unindexed := h.unindexed }

theorem Retiring.congr {id : DiskFileId} (h : Retiring folding id w)
    (folders : v.folders = w.folders) (published : v.published = w.published)
    (entries : v.store.entries = w.store.entries) : Retiring folding id v :=
  { h.toKept.congr folders published entries with
    nearly := fun j f left => by
      unfold Left at left
      rw [folders] at left
      rw [entries]
      exact h.nearly j f left
    unindexed := by
      rw [entries]
      exact h.unindexed }

/-- The retired manifest's removal made durable, the index is complete again. -/
theorem Retiring.sync {id : DiskFileId} (h : Retiring folding id w)
    (gone : w.now .manifests id = none) : Exact folding (w.change .manifests (·.sync)) :=
  { h.toKept.sync .manifests with
    full := fun j f left => by
      obtain ⟨before, there⟩ := left_sync (Site.folders_change_self _ _ _) left
      refine (h.nearly j f before).resolve_left fun same => ?_
      rw [same, gone] at there
      cases there }

theorem Opened.retiring (h : Opened folding s) (recovered : s.store.recoveryRequired = false)
    {e : DurableEntry} (he : e ∈ s.store.entries) :
    Retiring folding e.file { s with
      store := { s.store with entries := s.store.entries.erase e }
      published := s.published.filter (· != (e.file, e.manifest)) } := by
  have nodup : s.store.entries.Nodup := List.Nodup.of_map _ h.distinct
  have mem {x : DurableEntry} : x ∈ s.store.entries.erase e ↔ x ≠ e ∧ x ∈ s.store.entries :=
    nodup.mem_erase_iff
  have base : Durable folding { s with
      store := { s.store with entries := s.store.entries.erase e }
      published := s.published.filter (· != (e.file, e.manifest)) } :=
    h.toDurable.mono (fun _ _ left => left) (fun _ _ _ fixed => fixed) fun q hq =>
      h.published q (List.mem_filter.mp hq).1
  exact { base with
    entry := fun x hx => h.entry x (mem.mp hx).2
    distinct := h.distinct.sublist (List.erase_sublist.map _)
    known := fun q hq => by
      obtain ⟨published, other⟩ := List.mem_filter.mp hq
      obtain ⟨x, hx, rfl⟩ := List.mem_map.mp (h.known q published)
      refine List.mem_map.mpr ⟨x, mem.mpr ⟨fun same => ?_, hx⟩, rfl⟩
      simp [same] at other
    nearly := fun j f left => by
      obtain ⟨x, hx, same⟩ := h.full recovered j f left
      by_cases eq : x = e
      · exact .inl (eq ▸ same.symm)
      · exact .inr ⟨x, mem.mpr ⟨eq, hx⟩, same⟩
    unindexed := fun x hx same => by
      obtain ⟨other, hx⟩ := mem.mp hx
      exact other (List.inj_on_of_nodup_map h.distinct hx he same) }

theorem holds_removeFiles {e : DurableEntry} :
    Holds (Retiring folding e.file) (removeFiles e) (fun _ => Exact folding)
      (fun _ => Kept folding) := by
  have debited {n : Nat} {v : Site} {j : DiskFileId} (h : Retiring folding j v) :
      Retiring folding j (v.debit n) := h.congr rfl rfl rfl
  refine holds_bind (R := fun _ w => Retiring folding e.file w ∧ w.now .manifests e.file = none)
    (holds_remove (fun w hw gone => ⟨hw, ?_⟩) (fun w f hw _ => ⟨debited hw.unlink, ?_⟩)
      (fun w hw => hw.toKept) (fun w f hw _ => hw.unlink.toKept) fun w hw => hw.toKept) fun _ => ?_
  · exact gone.resolve_right fun ⟨f, there, shared⟩ => shared (hw.toKept.regular there)
  · change (w.change .manifests (·.put e.file none)).now .manifests e.file = none
    rw [Site.now_change, if_pos rfl, Directory.now_put, if_pos rfl]
  refine holds_bind (R := fun _ => Exact folding)
    (holds_effect (fun w hw => hw.1.sync hw.2) (fun w hw => hw.1.toKept)
      (fun w hw => (hw.1.sync hw.2).toKept) fun w hw => hw.1.toKept) fun _ => ?_
  have sync (folder : Folder) : Holds (Exact folding) (syncFolder folder)
      (fun _ => Exact folding) (fun _ => Kept folding) :=
    holds_effect (fun w hw => hw.sync folder) (fun w hw => hw.toKept)
      (fun w hw => (hw.sync folder).toKept) fun w hw => hw.toKept
  refine holds_bind (holds_forM (I := fun _ => Exact folding) _ fun p rest => ?_) fun _ =>
    holds_bind (sync _) fun _ => sync _
  refine holds_site fun w hw => holds_ite (fun _ => holds_pure fun v hv => hv ▸ hw) fun free => ?_
  have unclaimed : referenced w.store.entries (keyOf p) = false := by simpa using free
  have removed : Exact folding (w.change (keyOf p).folder (·.put p.2.file none)) :=
    hw.remove unclaimed
  refine holds_remove (fun v hv _ => hv ▸ hw) ?_ (fun v hv => hv ▸ hw.toKept) ?_
    fun v hv => hv ▸ hw.toKept
  · rintro v f rfl -
    exact removed.congr rfl rfl rfl
  · rintro v f rfl -
    exact removed.toKept

theorem holds_retire_opened {id epoch : UInt64} {pinned : Bool} (h : Opened folding s) :
    Holds (· = s) (retire id epoch pinned) (fun _ => Opened folding) (Survives folding) := by
  refine holds_site fun w hw => ?_
  subst hw
  refine holds_reject (fun _ v hv => hv ▸ h.survives _) fun recovered => ?_
  cases owner : w.store.entries.find? fun e => e.manifest.checkpoint == id with
  | none => exact holds_pure fun v hv => hv ▸ h
  | some e =>
    refine holds_ite (fun _ => holds_pure fun v hv => hv ▸ h) fun _ => ?_
    refine holds_ite (fun _ => holds_pure fun v hv => hv ▸ h) fun _ => ?_
    have start := h.retiring (by simpa using recovered) (List.mem_of_find?_eq_some owner)
    refine holds_bind (R := fun _ => Retiring folding e.file) (holds_update ?_) fun _ => ?_
    · rintro v rfl
      exact start
    refine holds_bind (holds_onError holds_removeFiles (fun v hv => ?_) fun _ v _ hv => ?_)
      fun _ => holds_pure fun v hv => hv.opened
    · exact ⟨hv.toDurable, fun alive => absurd rfl alive⟩
    · have required : Kept folding (v.setRecovery true) := hv.congr rfl rfl rfl
      exact (required.opened rfl).survives _

/-! ## Reclamation -/

/-- Recovery is on its way: whatever stops it, it is still required. -/
def Recovering (I : Site → Prop) (w : Site) : Prop := I w ∧ w.store.recoveryRequired = true

theorem Recovering.survives (h : Recovering (Kept folding) w) (e : Failure) :
    Survives folding e w := (h.1.opened h.2).survives e

theorem Recovering.kept (h : Recovering (Exact folding) w) : Recovering (Kept folding) w :=
  ⟨h.1.toKept, h.2⟩

theorem indexed_iff {entries : List DurableEntry} {file : DiskFileId} :
    indexed entries file = true ↔ ∃ e ∈ entries, e.file = file := by simp [indexed]

/-- The unindexed manifests removed and their removal made durable. -/
theorem holds_reclaim_manifests :
    Holds (Recovering (Kept folding)) (reclaimFolder .manifests indexed)
      (fun _ => Recovering (Exact folding)) (Survives folding) := by
  refine holds_bind (R := fun files w => Recovering (Kept folding) w ∧
      ∀ id, w.now .manifests id ≠ none → indexed w.store.entries id = true ∨ id ∈ files)
    (holds_scan (fun order w hw => ⟨hw, fun id there => .inr ?_⟩) (fun w hw => hw.survives _)
      fun w hw => hw.survives _) fun files => ?_
  · exact (arrange_perm (Directory.nodup_present _)).mem_iff.mpr (Directory.mem_present.mpr there)
  refine holds_bind (holds_forM (E := Survives folding) (I := fun rest w =>
    Recovering (Kept folding) w ∧
      ∀ id, w.now .manifests id ≠ none → indexed w.store.entries id = true ∨ id ∈ rest)
    files fun id rest => ?_) fun _ => ?_
  · refine holds_site fun w hw => ?_
    obtain ⟨recovering, left⟩ := hw
    refine holds_ite (fun known => holds_pure fun v hv => ?_) fun unknown => ?_
    · refine hv ▸ ⟨recovering, fun j there => ?_⟩
      rcases left j there with known' | mem
      · exact .inl known'
      · rcases List.mem_cons.mp mem with rfl | mem
        · exact .inl known
        · exact .inr mem
    · have unindexed : ∀ e ∈ w.store.entries, e.file ≠ id :=
        fun e he same => unknown (indexed_iff.mpr ⟨e, he, same⟩)
      have unlinked : Recovering (Kept folding) (w.change .manifests (·.put id none)) :=
        ⟨recovering.1.unlink unindexed, recovering.2⟩
      refine holds_remove ?_ ?_ (fun v hv => hv ▸ recovering.survives _) ?_
        fun v hv => hv ▸ recovering.survives _
      · rintro v rfl gone
        have absent := gone.resolve_right fun ⟨f, there, shared⟩ =>
          shared (recovering.1.regular there)
        refine ⟨recovering, fun j there => ?_⟩
        rcases left j there with known | mem
        · exact .inl known
        · rcases List.mem_cons.mp mem with rfl | mem
          · exact absurd absent there
          · exact .inr mem
      · rintro v f rfl -
        refine ⟨⟨unlinked.1.congr rfl rfl rfl, unlinked.2⟩, fun j there => ?_⟩
        have now_ : ((v.change .manifests (·.put id none)).debit f.size).now .manifests j =
            if j = id then none else v.now .manifests j := by
          change (v.change .manifests (·.put id none)).now .manifests j = _
          rw [Site.now_change, if_pos rfl, Directory.now_put]
          rfl
        rw [now_] at there
        by_cases same : j = id
        · rw [if_pos same] at there
          exact absurd rfl there
        · rw [if_neg same] at there
          exact (left j there).imp_right fun mem => (List.mem_cons.mp mem).resolve_left same
      · rintro v f rfl -
        exact unlinked.survives _
  · have synced {w : Site} (hw : Recovering (Kept folding) w ∧
        ∀ id, w.now .manifests id ≠ none → indexed w.store.entries id = true ∨ id ∈ []) :
        Recovering (Exact folding) (w.change .manifests (·.sync)) := by
      obtain ⟨recovering, all⟩ := hw
      refine ⟨{ recovering.1.sync .manifests with full := fun id f left => ?_ }, recovering.2⟩
      obtain ⟨-, there⟩ := left_sync (Site.folders_change_self _ _ _) left
      have known := (all id (there ▸ Option.some_ne_none f)).resolve_right List.not_mem_nil
      exact indexed_iff.mp known
    exact holds_effect (fun w hw => synced hw) (fun w hw => hw.1.survives _)
      (fun w hw => (synced hw).kept.survives _) fun w hw => hw.1.survives _

/-- With a complete index the other directories lose only what nothing needs. -/
theorem holds_reclaim_folder {folder : Folder} (other : folder ≠ .manifests)
    {claimed : List DurableEntry → DiskFileId → Bool}
    (safe : ∀ (key : FileKey) entries, key.folder = folder → referenced entries key = true →
      claimed entries key.2 = true) :
    Holds (Recovering (Exact folding)) (reclaimFolder folder claimed)
      (fun _ => Recovering (Exact folding)) (Survives folding) := by
  have survives {e : Failure} {w : Site} (h : Recovering (Exact folding) w) :
      Survives folding e w := h.kept.survives e
  refine holds_bind (R := fun _ => Recovering (Exact folding))
    (holds_scan (fun _ w hw => hw) (fun w hw => survives hw) fun w hw => survives hw)
    fun files => ?_
  refine holds_bind (holds_forM (I := fun _ => Recovering (Exact folding)) files
    fun id rest => ?_) fun _ => ?_
  · refine holds_site fun w hw => ?_
    refine holds_ite (fun _ => holds_pure fun v hv => hv ▸ hw) fun unclaimed => ?_
    have removed : Recovering (Exact folding) (w.change folder (·.put id none)) := by
      refine ⟨hw.1.change other fun key f same known fixed => fixed.put fun eq => ?_, hw.2⟩
      exact unclaimed (eq ▸ safe key _ same known)
    refine holds_remove (fun v hv _ => hv ▸ hw) ?_ (fun v hv => hv ▸ survives hw) ?_
      fun v hv => hv ▸ survives hw
    · rintro v f rfl -
      exact ⟨removed.1.congr rfl rfl rfl, removed.2⟩
    · rintro v f rfl -
      exact survives removed
  · exact holds_effect (fun w hw => ⟨hw.1.sync folder, hw.2⟩) (fun w hw => survives hw)
      (fun w hw => survives ⟨hw.1.sync folder, hw.2⟩) fun w hw => survives hw

theorem holds_reclaim_opened :
    Holds (Opened folding) reclaim (fun _ => Opened folding) (Survives folding) := by
  refine holds_bind (R := fun _ => Recovering (Kept folding)) (holds_update fun w hw => ?_)
    fun _ => holds_bind holds_reclaim_manifests fun _ => ?_
  · have kept : Kept folding w := { hw with }
    exact ⟨kept.congr rfl rfl rfl, rfl⟩
  refine holds_bind (holds_reclaim_folder (by simp) ?_) fun _ => ?_
  · rintro ⟨private_, id⟩ entries same known
    cases private_
    · exact known
    · cases same
  refine holds_bind (holds_reclaim_folder (by simp) ?_) fun _ => ?_
  · rintro ⟨private_, id⟩ entries same known
    cases private_
    · cases same
    · exact known
  refine holds_bind (holds_reclaim_folder (by simp) fun key _ same _ =>
    absurd same (folder_ne_temporary key)) fun _ => ?_
  refine holds_bind (R := fun _ => Recovering (Exact folding)) ?_ fun _ =>
    holds_update fun w hw => ?_
  rotate_left
  · have cleared : Exact folding (w.setRecovery false) := hw.1.congr rfl rfl rfl
    exact cleared.opened
  refine holds_bind (holds_still (fun w hw => hw.kept.survives _) fun w hw => hw.kept.survives _)
    fun _ => holds_site fun w hw => ?_
  refine holds_reject (fun _ v hv => hv ▸ hw.kept.survives _) fun _ => holds_update ?_
  rintro v rfl
  exact ⟨hw.1.congr rfl rfl rfl, hw.2⟩

/-! ## Every call -/

theorem serve_opened {request : Request} {end_ : Option Failure}
    (run : Ends (serve folding sizes request) s end_ w) (h : Opened folding s) :
    Durable folding w ∧ (end_ ≠ some .crashed → Opened folding w) := by
  have of_spec {m : Op Unit} (run : Ends m s end_ w)
      (spec : Holds (· = s) m (fun _ => Opened folding) (Survives folding)) :
      Durable folding w ∧ (end_ ≠ some .crashed → Opened folding w) := by
    cases end_ with
    | none =>
      obtain ⟨-, opened⟩ := spec.returned run
      exact ⟨opened.toDurable, fun _ => opened⟩
    | some e =>
      obtain ⟨durable, opened⟩ := spec.stopped run
      exact ⟨durable, fun alive => opened fun dead => alive (dead ▸ rfl)⟩
  have marked {m : Op Unit} {f : Site → Site} (same : m = update f)
      (fine : Opened folding (f s)) :
      Holds (· = s) m (fun _ => Opened folding) (Survives folding) :=
    same ▸ holds_update fun v hv => hv ▸ fine
  cases request with
  | publish r =>
    exact of_spec run <| holds_consequence (holds_publish sizes) (fun _ h => h)
      (fun _ _ published => published.opened h)
      fun e _ failed => ⟨failed.durable h, fun alive => failed.opened alive h⟩
  | retire id epoch pinned => exact of_spec run (holds_discard (holds_retire_opened h))
  | reclaim =>
    exact of_spec run <| holds_consequence holds_reclaim_opened (fun _ hv => hv ▸ h)
      (fun _ _ h => h) fun _ _ h => h
  | invalidate id epoch =>
    refine of_spec run (marked (f := fun w => w.setEntries (w.store.entries.map fun e =>
      if e.manifest.checkpoint = id ∧ e.epoch = epoch then { e with available := false } else e))
      rfl (h.congr rfl rfl ?_ fun h => h))
    unfold rows
    rw [Site.entries_setEntries, List.map_map]
    refine List.map_congr_left fun e _ => ?_
    rw [Function.comp_apply]
    split <;> rfl
  | invalidateDependency key =>
    exact of_spec run (marked (f := quarantine key) rfl
      (h.congr rfl rfl (rows_quarantine key s) fun h => h))

/-! ## Lives -/

/-- What a power loss leaves of a file: what was synced stays; anything can be left of the rest. -/
def LossOf (f g : File) : Prop := f.synced = true → g = f

/-- The states of a store and its directories, across any number of processes: `up` while one has
the store open. The first finds no manifests. -/
inductive Lives (folding : Bool) (sizes : Layouts) : Bool → Site → Prop
  | start {w : Site} (nothing : ∀ id, (w.folders .manifests).Fixed id none)
      (unpublished : w.published = []) : Lives folding sizes false w
  | opened {s w : Site} (budget : UInt64) (readable : DiskFileId → Bool)
      (past : Lives folding sizes false s)
      (run : Ends (startup folding sizes readable)
        { s with store := { budgetBytes := budget } } none w) :
      Lives folding sizes true (readablePublished readable w)
  | unopened {s w : Site} (budget : UInt64) (readable : DiskFileId → Bool) (e : Failure)
      (past : Lives folding sizes false s)
      (run : Ends (startup folding sizes readable)
        { s with store := { budgetBytes := budget } } (some e) w) : Lives folding sizes false w
  | served {s w : Site} {end_ : Option Failure} (request : Request)
      (past : Lives folding sizes true s) (run : Ends (serve folding sizes request) s end_ w)
      (alive : end_ ≠ some .crashed) : Lives folding sizes true w
  | died {s w : Site} (request : Request) (past : Lives folding sizes true s)
      (run : Ends (serve folding sizes request) s (some .crashed) w) : Lives folding sizes false w
  | stopped {s : Site} (past : Lives folding sizes true s) : Lives folding sizes false s
  | powerLoss {s w : Site} (past : Lives folding sizes false s)
      (loss : ∀ g, Directory.Crashes LossOf (s.folders g) (w.folders g))
      (published : w.published = s.published) : Lives folding sizes false w

theorem Durable.powerLoss (h : Durable folding s)
    (loss : ∀ g, Directory.Crashes LossOf (s.folders g) (w.folders g))
    (published : w.published = s.published) : Durable folding w := by
  have left {id : DiskFileId} {f : File} (l : Left w id f) : Left s id f := by
    unfold Left at l
    rw [(loss .manifests).possible, List.mem_singleton] at l
    obtain ⟨g, before, survives⟩ := (loss .manifests).survivor l.symm
    obtain ⟨m, sound, -⟩ := h.sound id g before
    exact survives sound.synced ▸ before
  have fixed {folder : Folder} {id : DiskFileId} {f : File}
      (before : (s.folders folder).Fixed id (some f)) (synced : f.synced = true) :
      (w.folders folder).Fixed id (some f) := by
    obtain ⟨g, there, survives⟩ := (loss folder).fixed before
    intro u hu
    rw [(loss folder).possible, List.mem_singleton, there, survives synced] at hu
    exact hu
  refine ⟨fun id f l => ?_, fun id f g lf lg => h.single id f g (left lf) (left lg),
    fun id j f g m n other lf lg => h.agree id j f g m n other (left lf) (left lg), fun q hq => ?_⟩
  · obtain ⟨m, sound, consistent⟩ := h.sound id f (left l)
    refine ⟨m, { sound with payload := fun p hp => ?_ }, consistent⟩
    obtain ⟨g, before, attested⟩ := sound.payload p hp
    exact ⟨g, fixed before attested.2.synced, attested⟩
  · obtain ⟨f, before, encoded⟩ := h.published q (published ▸ hq)
    have l : Left s q.1 f := left_of_now before.now
    obtain ⟨m, sound, -⟩ := h.sound q.1 f l
    exact ⟨f, fixed before sound.synced, encoded⟩

theorem lives_durable {up : Bool} (h : Lives folding sizes up w) :
    Durable folding w ∧ (up = true → Opened folding w) := by
  have fresh {budget : UInt64} {s : Site} (durable : Durable folding s) :
      Durable folding { s with store := { budgetBytes := budget } } := durable.congr rfl rfl
  induction h with
  | start nothing unpublished =>
    have none_ (id : DiskFileId) (f : File) : ¬Left _ id f := fun l => by
      cases nothing id _ l
    refine ⟨⟨fun id f l => absurd l (none_ id f), fun id f _ l => absurd l (none_ id f),
      fun id _ f _ _ _ _ l => absurd l (none_ id f), fun q hq => ?_⟩,
      (absurd · Bool.false_ne_true)⟩
    rw [unpublished] at hq
    cases hq
  | opened budget readable past run ih =>
    obtain ⟨-, opens⟩ := (holds_startup folding sizes ⟨budget, rfl⟩).returned run
    have opened := opens.opened (fresh ih.1)
    exact ⟨opened.toDurable, fun _ => opened⟩
  | unopened budget readable e past run ih =>
    obtain ⟨synced, opening⟩ := (holds_startup folding sizes ⟨budget, rfl⟩).stopped run
    exact ⟨(fresh ih.1).opening opening, (absurd · Bool.false_ne_true)⟩
  | served request past run alive ih =>
    obtain ⟨durable, opened⟩ := serve_opened run (ih.2 rfl)
    exact ⟨durable, fun _ => opened alive⟩
  | died request past run ih =>
    exact ⟨(serve_opened run (ih.2 rfl)).1, (absurd · Bool.false_ne_true)⟩
  | stopped past ih => exact ⟨ih.1, (absurd · Bool.false_ne_true)⟩
  | powerLoss past loss published ih =>
    exact ⟨ih.1.powerLoss loss published, (absurd · Bool.false_ne_true)⟩

/-- Whenever the processes and the power stop, discovery accepts only manifests all of whose payload
files are there, with the bytes attested when the manifest was put in place, of the length and with
the checksum the manifest records. And every payload file of a checkpoint whose publication returned
and that was not retired since, nor unreadable to a startup, is there. -/
theorem crash_consistent (folding : Bool) (sizes : Layouts) {up : Bool} {w : Site}
    (life : Lives folding sizes up w) :
    (∀ id m, discover folding sizes w id = some m → ∃ f, w.now .manifests id = some f ∧
      ∀ p ∈ payloads m, ∃ g, w.now (keyOf p).folder p.2.file = some g ∧
        (keyOf p, g.bytes) ∈ f.attested ∧ g.size = p.2.bytes.toNat ∧
        ∃ piece, 0 < piece ∧ checksumIn folding piece g.bytes = p.2.checksum) ∧
    ∀ r ∈ w.published, discover folding sizes w r.1 = some r.2 ∧
      ∀ p ∈ payloads r.2, ∃ g, w.now (keyOf p).folder p.2.file = some g := by
  have durable := (lives_durable life).1
  constructor
  · intro id m found_
    obtain ⟨f, there, -, sound⟩ := durable.sound_of_discover found_
    refine ⟨f, there, fun p hp => ?_⟩
    obtain ⟨g, fixed, attested, complete⟩ := sound.payload p hp
    exact ⟨g, fixed.now, attested, complete.size, complete.checksum⟩
  · intro r hr
    obtain ⟨f, left, there, encoded⟩ := (durable.published r hr).left
    obtain ⟨m, sound, -⟩ := durable.sound r.1 f left
    obtain rfl := encoded_unique sound.encoded encoded
    refine ⟨sound.discover there, fun p hp => ?_⟩
    obtain ⟨g, fixed, -, -⟩ := sound.payload p hp
    exact ⟨g, fixed.now⟩

theorem publishedStore_lives : Lives false ⟨0, 0⟩ true publishedStore := by
  have start : Lives false ⟨0, 0⟩ false sampleDisk :=
    .start (fun _ u hu => List.mem_singleton.mp hu) rfl
  have opened : Lives false ⟨0, 0⟩ true openedStore :=
    .opened 1000 (fun _ => true) start openedStore_ends
  exact .served (.publish (samplePublication 1 1 2)) opened publishedStore_ends nofun

/-- The site after a power loss that took nothing. -/
def afterLoss (s : Site) : Site := { s with folders := fun g => (s.folders g).sync }

theorem afterLoss_lives (h : Lives folding sizes true s) :
    Lives folding sizes false (afterLoss s) := by
  refine .powerLoss (.stopped h) (fun g id => ⟨rfl, _, (s.folders g).now_possible id, ?_⟩) rfl
  have same : ((afterLoss s).folders g).now id = (s.folders g).now id := rfl
  rw [same]
  cases (s.folders g).now id with
  | none => trivial
  | some f => exact fun _ => rfl

theorem published_afterLoss (s : Site) : (afterLoss s).published = s.published := rfl

/-- There discovery finds the sample's manifest, and the file of its state. -/
theorem crash_consistent_sample :
    discover false ⟨0, 0⟩ (afterLoss publishedStore) (sampleFile 1) = some (sampleCheckpoint 1 2) ∧
      ∃ g, (afterLoss publishedStore).now .privateFiles (sampleFile 2) = some g := by
  obtain ⟨found_, there⟩ := (crash_consistent false ⟨0, 0⟩ (afterLoss_lives publishedStore_lives)).2
    (sampleFile 1, sampleCheckpoint 1 2) (by rw [published_afterLoss, publishedStore_facts.2.2]; simp)
  exact ⟨found_, there (true, ⟨sampleFile 2, 1, diskChecksum false [7] 0⟩) (by decide +kernel)⟩

end

end Gufo.Store
