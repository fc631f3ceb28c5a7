import Gufo.Store.Durability

/-!
# Crash consistency

Publication, retirement and reclamation keep the directories durable at every step,
so whatever a crash leaves between two steps, startup finds nothing incomplete. A
checkpoint whose publication returned keeps its files until it is retired.
-/

namespace Gufo.Store
open Gufo.Disk Gufo.Program Gufo.Keyed Gufo.Volatile

section
variable {folding : Bool} {sizes : Layouts} {s w v : Site} {r : Publication} {m : DiskManifest}
  {f : File}

theorem Durable.congr (h : Durable folding w) (folders : v.folders = w.folders)
    (published : v.published = w.published) : Durable folding v := by
  have left {id : DiskFileId} {f : File} (l : Left v id f) : Left w id f := by
    unfold Left at *
    rwa [folders] at l
  refine h.mono (fun _ _ l => left l) (fun key f _ fixed => by rw [folders]; exact fixed) ?_
  intro r hr
  exact (h.published r (published ▸ hr)).congr (by rw [folders])

theorem Opened.congr (h : Opened folding w) (folders : v.folders = w.folders)
    (published : v.published = w.published)
    (rows_ : rows v.store.entries = rows w.store.entries)
    (recovery : v.store.recoveryRequired = false → w.store.recoveryRequired = false) :
    Opened folding v := by
  have mem {r : DiskFileId × DiskManifest} :
      (∃ e ∈ v.store.entries, (e.file, e.manifest) = r) ↔
        ∃ e ∈ w.store.entries, (e.file, e.manifest) = r := by
    have same : r ∈ rows v.store.entries ↔ r ∈ rows w.store.entries := by rw [rows_]
    simpa [rows] using same
  have left {id : DiskFileId} {f : File} (l : Left v id f) : Left w id f := by
    unfold Left at *
    rwa [folders] at l
  exact {
    h.toDurable.congr folders published with
    entry := fun e he => by
      obtain ⟨x, hx, same⟩ := mem.mp ⟨e, he, rfl⟩
      have placed := h.entry x hx
      rw [(Prod.mk.inj same).1, (Prod.mk.inj same).2] at placed
      exact placed.congr (by rw [folders])
    distinct := by
      have files : v.store.entries.map (·.file) = w.store.entries.map (·.file) := by
        simpa [rows, Function.comp_def] using congrArg (List.map Prod.fst) rows_
      rw [files]
      exact h.distinct
    known := fun r hr => by
      rw [rows_]
      exact h.known r (published ▸ hr)
    full := fun recovered id f l => by
      obtain ⟨e, he, same⟩ := h.full (recovery recovered) id f (left l)
      obtain ⟨x, hx, eq⟩ := mem.mpr ⟨e, he, rfl⟩
      exact ⟨x, hx, (Prod.mk.inj eq).1.trans same⟩ }

/-! ## Publication -/

theorem Durable.begun (h : Durable folding s) (begun : Begun s w) : Durable folding w := by
  refine h.mono (fun id f l => ?_) (fun key f _ fixed => begun.kept key f fixed) fun r hr => ?_
  · unfold Left at *
    rwa [begun.manifests] at l
  · exact (h.published r (begun.published ▸ hr)).congr begun.manifests

/-- What can be left once the rename was attempted: what was there, and the new manifest. -/
theorem Attempted.left (h : Attempted folding s r m f w) {id : DiskFileId} {g : File}
    (left : Left w id g) : Left s id g ∨ (id = r.file ∧ g = f) := by
  have put (mem : some g ∈ ((s.folders .manifests).put r.file (some f)).possible id) :
      Left s id g ∨ (id = r.file ∧ g = f) := by
    rw [Directory.possible_put] at mem
    split at mem
    · rename_i same
      rcases List.mem_cons.mp mem with eq | mem
      · exact .inr ⟨same, Option.some.inj eq⟩
      · exact .inl (same ▸ mem)
    · exact .inl mem
  unfold Left at left
  rcases h.manifests with same | same | same
  · rw [same] at left
    exact .inl left
  · rw [same] at left
    exact put left
  · rw [same, Directory.possible_sync, List.mem_singleton] at left
    refine put ?_
    rw [left]
    exact Directory.now_possible _ id

theorem Attempted.placed (h : Attempted folding s r m f w) {id : DiskFileId} {n : DiskManifest}
    (placed : Placed folding s id n) : Placed folding w id n := by
  obtain ⟨g, fixed, encoded⟩ := placed
  have other : id ≠ r.file := by
    intro same
    have there : s.now .manifests id = some g := fixed.now
    rw [same, h.named] at there
    cases there
  refine ⟨g, ?_, encoded⟩
  rcases h.manifests with same | same | same <;> rw [same]
  · exact fixed
  · exact fixed.put other
  · exact (fixed.put other).sync

/-- A key of a coherent open store belongs to an entry whose payload is there for good. -/
theorem Opened.payload (h : Opened folding s) {e : DurableEntry} (he : e ∈ s.store.entries)
    {q : Bool × DiskPayload} (hq : q ∈ payloads e.manifest) :
    ∃ g, (s.folders (keyOf q).folder).Fixed q.2.file (some g) ∧ Attested folding q g := by
  obtain ⟨f, left, -, encoded⟩ := (h.entry e he).left
  obtain ⟨n, sound, -⟩ := h.sound e.file f left
  obtain ⟨g, fixed, -, attested⟩ := sound.payload q
    (encoded_unique sound.encoded encoded ▸ hq)
  exact ⟨g, fixed, attested⟩

theorem Attempted.durable (h : Attempted folding s r m f w) (opened : Opened folding s) :
    Durable folding w := by
  have old (id : DiskFileId) (g : File) (left : Left s id g) (n : DiskManifest)
      (encoded : encodeManifest folding n = some g.bytes) :
      ∃ e ∈ s.store.entries, e.file = id ∧ e.manifest = n := by
    obtain ⟨e, he, same⟩ := opened.full h.recovered id g left
    exact ⟨e, he, same, ((opened.entry e he).eq_of_left (same ▸ left) encoded).symm⟩
  have absent (g : File) : ¬Left s r.file g := by
    intro left
    obtain ⟨n, sound, -⟩ := opened.sound _ g left
    obtain ⟨e, he, same, -⟩ := old _ g left n sound.encoded
    obtain ⟨_, -, there, -⟩ := (opened.entry e he).left
    rw [same, h.named] at there
    cases there
  obtain ⟨each, pairs⟩ := coherent_iff_agree.mp h.coherent
  have cross {id : DiskFileId} {g : File} (left : Left s id g) {n : DiskManifest}
      (encoded : encodeManifest folding n = some g.bytes) : Agree n m := by
    obtain ⟨e, he, -, rfl⟩ := old id g left n encoded
    exact (List.pairwise_append.mp pairs).2.2 _ (List.mem_map_of_mem he) m
      (List.mem_singleton_self m)
  refine ⟨fun id g left => ?_, fun id g g' lg lg' => ?_,
    fun id j g g' n n' other lg lg' hn hn' => ?_,
    fun q hq => h.placed (opened.published q (h.published ▸ hq))⟩
  · rcases h.left left with left | ⟨-, rfl⟩
    · obtain ⟨n, sound, consistent⟩ := opened.sound id g left
      refine ⟨n, { sound with payload := fun p hp => ?_ }, consistent⟩
      obtain ⟨c, fixed, attested⟩ := sound.payload p hp
      exact ⟨c, h.kept (keyOf p) c fixed, attested⟩
    · refine ⟨m, ⟨h.backed.synced, h.backed.links, h.backed.encoded, fun p hp => ?_⟩,
        each m (by simp)⟩
      obtain ⟨c, fixed, attested, fresh, reused⟩ := h.backed.payload p hp
      refine ⟨c, fixed, attested, ?_⟩
      cases known : referenced s.store.entries (keyOf p) with
      | false => exact fresh known
      | true =>
        obtain ⟨e, he, q, hq, key⟩ := referenced_iff.mp known
        have first : (keyOf q).1 = (keyOf p).1 := congrArg Prod.fst key
        have eq : q = p := Prod.ext first (reused known e he q hq key)
        obtain ⟨c', fixed', attested'⟩ := opened.payload he hq
        rw [eq] at fixed' attested'
        have same := (h.kept (keyOf p) c' fixed').now.symm.trans fixed.now
        exact Option.some.inj same ▸ attested'
  · rcases h.left lg with lg | ⟨rfl, rfl⟩
    · rcases h.left lg' with lg' | ⟨rfl, rfl⟩
      · exact opened.single id g g' lg lg'
      · exact absurd lg (absent g)
    · rcases h.left lg' with lg' | ⟨-, rfl⟩
      · exact absurd lg' (absent g')
      · rfl
  · rcases h.left lg with lg | ⟨rfl, rfl⟩
    · rcases h.left lg' with lg' | ⟨rfl, rfl⟩
      · exact opened.agree id j g g' n n' other lg lg' hn hn'
      · exact encoded_unique hn' h.backed.encoded ▸ cross lg hn
    · rcases h.left lg' with lg' | ⟨rfl, -⟩
      · exact encoded_unique hn h.backed.encoded ▸ (cross lg' hn').symm
      · exact absurd rfl other

theorem Fails.durable {e : Failure} (h : Fails folding s r e w) (opened : Opened folding s) :
    Durable folding w := by
  cases h with
  | refused h =>
    rcases h with rfl | ⟨key, -, rfl⟩
    · exact opened.toDurable
    · exact opened.toDurable.congr rfl rfl
  | interrupted plain begun entries => exact opened.toDurable.begun begun
  | uncertain plain m f attempted recovery => exact attempted.durable opened

theorem Fails.opened {e : Failure} (h : Fails folding s r e w) (alive : e ≠ .crashed)
    (opened : Opened folding s) : Opened folding w := by
  have durable := h.durable opened
  cases h with
  | refused h =>
    rcases h with rfl | ⟨key, -, rfl⟩
    · exact opened
    · exact opened.congr rfl rfl (rows_quarantine key s) fun h => h
  | interrupted plain begun entries =>
    have same := entries alive
    exact { durable with
      entry := fun e he => (opened.entry e (same ▸ he)).congr begun.manifests
      distinct := same ▸ opened.distinct
      known := fun r hr => same ▸ opened.known r (begun.published ▸ hr)
      full := fun recovered id f left => by
        unfold Left at left
        rw [begun.manifests] at left
        rw [same]
        exact opened.full (begun.recovery ▸ recovered) id f left }
  | uncertain plain m f attempted recovery =>
    obtain ⟨same, required⟩ := recovery alive
    exact { durable with
      entry := fun e he => attempted.placed (opened.entry e (same ▸ he))
      distinct := same ▸ opened.distinct
      known := fun r hr => same ▸ opened.known r (attempted.published ▸ hr)
      full := fun recovered => by
        rw [required] at recovered
        cases recovered }

theorem Publishes.opened (h : Publishes folding s r w) (opened : Opened folding s) :
    Opened folding w := by
  obtain ⟨m, f, v, committed, rfl⟩ := h.committed
  obtain ⟨e, entries, file, manifest⟩ := committed.provisional
  have durable := committed.toAttempted.durable opened
  have here : Placed folding v e.file e.manifest := by
    refine ⟨f, ?_, manifest ▸ committed.backed.encoded⟩
    have put : ((s.folders .manifests).put r.file (some f)).now r.file = some f := by
      rw [Directory.now_put, if_pos rfl]
    have fixed := Directory.fixed_sync ((s.folders .manifests).put r.file (some f)) r.file
    rw [put] at fixed
    rw [committed.placed, file]
    exact fixed
  have published : (recordPublished v).published = s.published ++ [(e.file, e.manifest)] := by
    change v.published ++ _ = _
    rw [committed.published, entries, List.concat_eq_append, List.getLast?_concat]
    rfl
  have entries' : (recordPublished v).store.entries = s.store.entries ++ [e] := by
    change v.store.entries = _
    rw [entries, List.concat_eq_append]
  have unused : r.file ∉ s.store.entries.map (·.file) := by
    intro mem
    obtain ⟨x, hx, same⟩ := List.mem_map.mp mem
    obtain ⟨_, -, there, -⟩ := (opened.entry x hx).left
    rw [same, committed.named] at there
    cases there
  have base : Durable folding (recordPublished v) := by
    refine durable.mono (fun _ _ left => left) (fun _ _ _ fixed => fixed) fun q hq => ?_
    rw [published] at hq
    rcases List.mem_append.mp hq with hq | hq
    · exact committed.toAttempted.placed (opened.published q hq)
    · rw [List.mem_singleton.mp hq]
      exact here
  exact { base with
    entry := fun x hx => by
      rw [entries'] at hx
      rcases List.mem_append.mp hx with hx | hx
      · exact committed.toAttempted.placed (opened.entry x hx)
      · rw [List.mem_singleton.mp hx]
        exact here
    distinct := by
      rw [entries', List.map_append, List.nodup_append]
      refine ⟨opened.distinct, List.nodup_singleton _, fun a ha b hb same => ?_⟩
      rw [List.map_singleton, List.mem_singleton] at hb
      exact unused (file ▸ hb ▸ same ▸ ha)
    known := fun q hq => by
      rw [published] at hq
      rw [entries', rows, List.map_append]
      rcases List.mem_append.mp hq with hq | hq
      · exact List.mem_append_left _ (opened.known q hq)
      · exact List.mem_append_right _ hq
    full := fun _ id g left => by
      rw [entries']
      rcases committed.toAttempted.left left with left | ⟨same, -⟩
      · obtain ⟨x, hx, same⟩ := opened.full committed.recovered id g left
        exact ⟨x, List.mem_append_left _ hx, same⟩
      · exact ⟨e, List.mem_append_right _ (List.mem_singleton_self e), file.trans same.symm⟩ }

/-! ## Removal -/

/-- The directories are durable and the index is about them, complete or not. -/
structure Kept (folding : Bool) (w : Site) : Prop extends Durable folding w, Listed folding w

/-- The index is complete. -/
structure Exact (folding : Bool) (w : Site) : Prop extends Kept folding w where
  full : Full w

/-- How a call that stops leaves the store: open, unless the process is gone. -/
def Survives (folding : Bool) (e : Failure) (w : Site) : Prop :=
  Durable folding w ∧ (e ≠ .crashed → Opened folding w)

theorem Opened.survives (h : Opened folding w) (e : Failure) : Survives folding e w :=
  ⟨h.toDurable, fun _ => h⟩

theorem Kept.opened (h : Kept folding w) (required : w.store.recoveryRequired = true) :
    Opened folding w :=
  { h with full := fun recovered => by rw [required] at recovered; cases recovered }

theorem Exact.opened (h : Exact folding w) : Opened folding w := { h with full := fun _ => h.full }

theorem Kept.congr (h : Kept folding w) (folders : v.folders = w.folders)
    (published : v.published = w.published) (entries : v.store.entries = w.store.entries) :
    Kept folding v :=
  { h.toDurable.congr folders published with
    entry := fun e he => (h.entry e (entries ▸ he)).congr (by rw [folders])
    distinct := entries ▸ h.distinct
    known := fun q hq => entries ▸ h.known q (published ▸ hq) }

theorem Exact.congr (h : Exact folding w) (folders : v.folders = w.folders)
    (published : v.published = w.published) (entries : v.store.entries = w.store.entries) :
    Exact folding v :=
  { h.toKept.congr folders published entries with
    full := fun id f left => by
      unfold Left at left
      rw [folders] at left
      rw [entries]
      exact h.full id f left }

theorem Placed.put {id j : DiskFileId} {u : Option File} (h : Placed folding w j m)
    (other : j ≠ id) : Placed folding (w.change .manifests (·.put id u)) j m := by
  obtain ⟨g, fixed, encoded⟩ := h
  refine ⟨g, ?_, encoded⟩
  exact fixed.put other

theorem left_unlinked {id j : DiskFileId}
    (h : Left (w.change .manifests (·.put id none)) j f) : Left w j f := by
  unfold Left at *
  rw [Site.folders_change_self, Directory.possible_put] at h
  split at h
  · rename_i same
    rcases List.mem_cons.mp h with no | h
    · cases no
    · exact same ▸ h
  · exact h

/-- A manifest that the index does not have is unlinked. -/
theorem Kept.unlink (h : Kept folding w) {id : DiskFileId}
    (unindexed : ∀ e ∈ w.store.entries, e.file ≠ id) :
    Kept folding (w.change .manifests (·.put id none)) := by
  have placed (q : DiskFileId × DiskManifest) (hq : q ∈ w.published) : q.1 ≠ id := by
    obtain ⟨e, he, rfl⟩ := List.mem_map.mp (h.known q hq)
    exact unindexed e he
  have base : Durable folding (w.change .manifests (·.put id none)) := by
    refine h.mono (fun _ _ left => left_unlinked left) (fun key g _ fixed => ?_) fun q hq =>
      (h.published q hq).put (placed q hq)
    rw [Site.folders_change_of_ne (folder_ne_manifests key)]
    exact fixed
  exact { base with
    entry := fun e he => (h.entry e he).put (unindexed e he)
    distinct := h.distinct
    known := h.known }

theorem Kept.sync (h : Kept folding w) (folder : Folder) :
    Kept folding (w.change folder (·.sync)) := by
  have opening : Opening w [folder] (w.change folder (·.sync)) := by
    refine ⟨fun g => ?_, rfl⟩
    rw [Site.folders_change]
    simp
  have placed {q : DiskFileId × DiskManifest} (h : Placed folding w q.1 q.2) :
      Placed folding (w.change folder (·.sync)) q.1 q.2 := by
    by_cases same : folder = .manifests
    · subst same
      exact h.sync (Site.folders_change_self _ _ _)
    · exact h.congr (Site.folders_change_of_ne (Ne.symm same) _)
  exact { h.toDurable.opening opening with
    entry := fun e he => placed (q := (e.file, e.manifest)) (h.entry e he)
    distinct := h.distinct
    known := h.known }

theorem Exact.sync (h : Exact folding w) (folder : Folder) :
    Exact folding (w.change folder (·.sync)) :=
  { h.toKept.sync folder with
    full := fun id f left => by
      by_cases same : folder = .manifests
      · subst same
        exact h.full id f (left_sync (Site.folders_change_self _ _ _) left).1
      · unfold Left at left
        rw [Site.folders_change_of_ne (Ne.symm same)] at left
        exact h.full id f left }

/-- In a complete index every file that a manifest needs is referenced. -/
theorem Exact.referenced (h : Exact folding w) {key : FileKey} (claimed : Claimed folding w key) :
    referenced w.store.entries key = true := by
  obtain ⟨id, f, n, left, encoded, p, hp, rfl⟩ := claimed
  obtain ⟨e, he, same⟩ := h.full id f left
  have eq := (h.entry e he).eq_of_left (same ▸ left) encoded
  exact referenced_iff.mpr ⟨e, he, p, eq ▸ hp, rfl⟩

/-- Outside the manifests a file may go that the index does not reference. -/
theorem Exact.change (h : Exact folding w) {folder : Folder} (other : folder ≠ .manifests)
    {g : Directory DiskFileId File → Directory DiskFileId File}
    (kept : ∀ (key : FileKey) f, key.folder = folder → Store.referenced w.store.entries key = true →
      (w.folders folder).Fixed key.2 (some f) → (g (w.folders folder)).Fixed key.2 (some f)) :
    Exact folding (w.change folder g) := by
  have manifests : (w.change folder g).folders .manifests = w.folders .manifests :=
    Site.folders_change_of_ne (Ne.symm other) g
  have left {id : DiskFileId} {f : File} (l : Left (w.change folder g) id f) : Left w id f := by
    unfold Left at *
    rwa [manifests] at l
  have base : Durable folding (w.change folder g) := by
    refine h.mono (fun _ _ l => left l) (fun key f claimed fixed => ?_) fun q hq =>
      (h.published q hq).congr manifests
    obtain ⟨id, c, n, l, rest⟩ := claimed
    have known := h.referenced ⟨id, c, n, left l, rest⟩
    rw [Site.folders_change]
    split
    · rename_i same
      have eq : w.folders key.folder = w.folders folder := by rw [same]
      exact eq ▸ kept key f same known (eq ▸ fixed)
    · exact fixed
  exact { base with
    entry := fun e he => (h.entry e he).congr manifests
    distinct := h.distinct
    known := h.known
    full := fun id f l => h.full id f (left l) }

theorem Exact.remove (h : Exact folding w) {key : FileKey}
    (unclaimed : Store.referenced w.store.entries key = false) :
    Exact folding (w.change key.folder (·.put key.2 none)) := by
  refine h.change (folder_ne_manifests key) fun k f same known fixed => fixed.put fun eq => ?_
  rw [key_eq same eq, unclaimed] at known
  cases known

end

end Gufo.Store
