import Gufo.Store.Coherence

/-!
# What a crash can leave

`Durable` speaks of the directories alone, of everything a crash can make of them:
whatever manifest is left is complete, with its payload files in place for good, and
no two of them conflict. `Listed` ties the index of an open store to them. Startup
and publication keep both.
-/

namespace Gufo.Store
open Gufo.Disk Gufo.Program Gufo.Keyed Gufo.Volatile

section
variable (folding : Bool)

/-- The file describes the manifest, and its payloads are there whatever happens, with the contents
attested when it was put in place. -/
structure Sound (m : DiskManifest) (f : File) (w : Site) : Prop where
  synced : f.synced = true
  links : f.links = 1
  encoded : encodeManifest folding m = some f.bytes
  payload : ∀ p ∈ payloads m, ∃ g, (w.folders (keyOf p).folder).Fixed p.2.file (some g) ∧
    (keyOf p, g.bytes) ∈ f.attested ∧ Attested folding p g

/-- A manifest file that is there, or that a crash can bring back. -/
def Left (w : Site) (id : DiskFileId) (f : File) : Prop :=
  some f ∈ (w.folders .manifests).possible id

/-- A manifest that is there for good. -/
def Placed (w : Site) (id : DiskFileId) (m : DiskManifest) : Prop :=
  ∃ f, (w.folders .manifests).Fixed id (some f) ∧ encodeManifest folding m = some f.bytes

structure Durable (w : Site) : Prop where
  sound : ∀ id f, Left w id f → ∃ m, Sound folding m f w ∧ Consistent m
  single : ∀ id f g, Left w id f → Left w id g → f = g
  agree : ∀ id j f g m n, id ≠ j → Left w id f → Left w j g →
    encodeManifest folding m = some f.bytes → encodeManifest folding n = some g.bytes → Agree m n
  published : ∀ r ∈ w.published, Placed folding w r.1 r.2

/-- The index of an open store. -/
structure Listed (w : Site) : Prop where
  entry : ∀ e ∈ w.store.entries, Placed folding w e.file e.manifest
  distinct : (w.store.entries.map (·.file)).Nodup
  known : ∀ r ∈ w.published, r ∈ rows w.store.entries

/-- The index has every manifest that is left. -/
def Full (w : Site) : Prop := ∀ id f, Left w id f → ∃ e ∈ w.store.entries, e.file = id

/-- An open store. -/
structure Opened (w : Site) : Prop extends Durable folding w, Listed folding w where
  full : w.store.recoveryRequired = false → Full w

variable {folding} {s w v : Site}

theorem encoded_unique {m n : DiskManifest} {bytes : List UInt8}
    (h : encodeManifest folding m = some bytes) (k : encodeManifest folding n = some bytes) :
    m = n := by
  have left := (reads_encoded ⟨0, 0⟩ folding h).2
  have right := (reads_encoded ⟨0, 0⟩ folding k).2
  rw [left, Option.some.injEq] at right
  exact right

variable {id : DiskFileId}

theorem left_of_now {f : File} (there : w.now .manifests id = some f) :
    Left w id f := by
  unfold Left
  rw [← there]
  exact (w.folders .manifests).now_possible id

variable {m : DiskManifest}

theorem Placed.left (h : Placed folding w id m) :
    ∃ f, Left w id f ∧ w.now .manifests id = some f ∧ encodeManifest folding m = some f.bytes := by
  obtain ⟨f, fixed, encoded⟩ := h
  exact ⟨f, left_of_now fixed.now, fixed.now, encoded⟩

theorem Placed.eq_of_left {m n : DiskManifest} {f : File}
    (h : Placed folding w id m) (left : Left w id f)
    (encoded : encodeManifest folding n = some f.bytes) : n = m := by
  obtain ⟨g, fixed, encoded'⟩ := h
  have same := fixed _ left
  rw [Option.some.injEq] at same
  exact encoded_unique encoded (same ▸ encoded')

/-- A key that a manifest left in the directory claims. -/
def Claimed (folding : Bool) (w : Site) (key : FileKey) : Prop :=
  ∃ id f m, Left w id f ∧ encodeManifest folding m = some f.bytes ∧
    ∃ p ∈ payloads m, keyOf p = key

/-- Fewer manifests, and the payloads of those left still there. -/
theorem Durable.mono (h : Durable folding w) (fewer : ∀ id f, Left v id f → Left w id f)
    (payload : ∀ key f, Claimed folding v key → (w.folders key.folder).Fixed key.2 (some f) →
      (v.folders key.folder).Fixed key.2 (some f))
    (published : ∀ r ∈ v.published, Placed folding v r.1 r.2) : Durable folding v where
  sound id f left := by
    obtain ⟨m, sound, consistent⟩ := h.sound id f (fewer id f left)
    refine ⟨m, { sound with payload := fun p hp => ?_ }, consistent⟩
    obtain ⟨g, fixed, attested⟩ := sound.payload p hp
    exact ⟨g, payload (keyOf p) g ⟨id, f, m, left, sound.encoded, p, hp, rfl⟩ fixed, attested⟩
  single id f g lf lg := h.single id f g (fewer id f lf) (fewer id g lg)
  agree id j f g m n other lf lg := h.agree id j f g m n other (fewer id f lf) (fewer j g lg)
  published := published

theorem Placed.sync (h : Placed folding w id m)
    (synced : v.folders .manifests = (w.folders .manifests).sync) : Placed folding v id m := by
  obtain ⟨f, fixed, encoded⟩ := h
  refine ⟨f, ?_, encoded⟩
  rw [synced]
  exact fixed.sync

theorem Placed.congr (h : Placed folding w id m)
    (same : v.folders .manifests = w.folders .manifests) : Placed folding v id m := by
  unfold Placed
  rw [same]
  exact h

theorem left_sync (synced : v.folders .manifests = (w.folders .manifests).sync)
    {f : File} (h : Left v id f) : Left w id f ∧ w.now .manifests id = some f := by
  unfold Left at h
  rw [synced, Directory.possible_sync, List.mem_singleton] at h
  have there : w.now .manifests id = some f := h.symm
  refine ⟨?_, there⟩
  unfold Left
  rw [h]
  exact (w.folders .manifests).now_possible id

/-! ## Startup -/

theorem Durable.opening {synced : List Folder} (h : Durable folding s)
    (opening : Opening s synced w) : Durable folding w := by
  have manifests := opening.folders .manifests
  refine h.mono (fun id f left => ?_) (fun key f _ fixed => ?_) fun r hr => ?_
  · by_cases there : Folder.manifests ∈ synced
    · rw [if_pos there] at manifests
      exact (left_sync manifests left).1
    · rw [if_neg there] at manifests
      unfold Left at *
      rwa [manifests] at left
  · rw [opening.folders]
    split
    · exact fixed.sync
    · exact fixed
  · rw [opening.published] at hr
    by_cases there : Folder.manifests ∈ synced
    · rw [if_pos there] at manifests
      exact (h.published r hr).sync manifests
    · rw [if_neg there] at manifests
      exact (h.published r hr).congr manifests

/-- Discovery accepts every manifest that is complete. -/
theorem Sound.discover {sizes : Layouts} {f : File}
    (h : Sound folding m f w) (there : w.now .manifests id = some f) :
    discover folding sizes w id = some m := by
  obtain ⟨⟨plan, planned⟩, decoded⟩ := reads_encoded sizes folding h.encoded
  have long := length_encoded h.encoded
  have short := length_encoded_le h.encoded
  have least := length_manifest_layout m
  have regular : f.regular = true := by simp [File.regular, h.links]
  have low : ¬f.size < 20 := by
    unfold File.size
    omega
  have high : ¬maxManifestBytes < f.size := by
    unfold File.size
    omega
  have all : (payloads m).all (dependencyPresent w) = true := by
    refine List.all_eq_true.mpr fun p hp => ?_
    obtain ⟨g, fixed, -, attested⟩ := h.payload p hp
    have now_ : w.now (keyOf p).folder p.2.file = some g := fixed.now
    simp [dependencyPresent, now_, File.regular, attested.links, attested.size]
  simp [Store.discover, there, regular, low, high, planned, decoded, all, invalidIf]

variable {sizes : Layouts} {readable : DiskFileId → Bool}

/-- Whatever discovery finds in a durable directory is what the file describes. -/
theorem Durable.sound_of_discover (h : Durable folding s)
    (found_ : discover folding sizes s id = some m) :
    ∃ f, s.now .manifests id = some f ∧ Left s id f ∧ Sound folding m f s := by
  cases there : s.now .manifests id with
  | none => simp [Store.discover, there] at found_
  | some f =>
    have left := left_of_now there
    obtain ⟨n, sound, -⟩ := h.sound id f left
    rw [sound.discover there, Option.some.injEq] at found_
    exact ⟨f, rfl, left, found_ ▸ sound⟩

variable {files : List DiskFileId}

theorem mem_discovered {r : DiskFileId × DiskManifest} :
    r ∈ discovered folding sizes readable s files ↔
      r.1 ∈ files ∧ readable r.1 = true ∧ discover folding sizes s r.1 = some r.2 := by
  obtain ⟨id, m⟩ := r
  simp only [discovered, found, List.mem_filterMap, Option.map_eq_some_iff]
  constructor
  · rintro ⟨file, mem, n, found_, same⟩
    obtain ⟨rfl, rfl⟩ := Prod.mk.inj same
    by_cases fine : readable file = true
    · rw [if_pos fine] at found_
      exact ⟨mem, fine, found_⟩
    · rw [if_neg fine] at found_
      cases found_
  · rintro ⟨mem, fine, found_⟩
    exact ⟨id, mem, m, by rw [if_pos fine]; exact found_, rfl⟩

theorem discovered_distinct (nodup : files.Nodup) :
    (discovered folding sizes readable s files).Pairwise fun r q => r.1 ≠ q.1 := by
  refine List.pairwise_filterMap.mpr (nodup.imp fun {a b} other r hr q hq => ?_)
  obtain ⟨m, -, rfl⟩ := Option.map_eq_some_iff.mp hr
  obtain ⟨n, -, rfl⟩ := Option.map_eq_some_iff.mp hq
  exact other

/-- Nothing discovered in a durable directory is in conflict. -/
theorem Durable.kept_discovered (h : Durable folding s)
    (nodup : files.Nodup) :
    kept (discovered folding sizes readable s files) =
      discovered folding sizes readable s files := by
  have coherent : Coherent ((discovered folding sizes readable s files).map (·.2)) := by
    refine coherent_iff_agree.mpr ⟨fun m hm => ?_, List.pairwise_map.mpr ?_⟩
    · obtain ⟨r, hr, rfl⟩ := List.mem_map.mp hm
      obtain ⟨f, -, left, sound⟩ := h.sound_of_discover (mem_discovered.mp hr).2.2
      obtain ⟨n, sound', consistent⟩ := h.sound r.1 f left
      exact encoded_unique sound'.encoded sound.encoded ▸ consistent
    · refine (discovered_distinct nodup).imp_of_mem fun {r q} hr hq other => ?_
      obtain ⟨f, -, leftf, soundf⟩ := h.sound_of_discover (mem_discovered.mp hr).2.2
      obtain ⟨g, -, leftg, soundg⟩ := h.sound_of_discover (mem_discovered.mp hq).2.2
      exact h.agree _ _ f g _ _ other leftf leftg soundf.encoded soundg.encoded
  refine List.filter_eq_self.mpr fun r hr => ?_
  rw [coherent_iff.mp coherent r.2 (List.mem_map_of_mem hr)]
  rfl

/-- The published checkpoints whose files startup could read. -/
def readablePublished (readable : DiskFileId → Bool) (w : Site) : Site :=
  { w with published := w.published.filter fun r => readable r.1 }

theorem Opens.opened (h : Opens folding sizes readable s w) (durable : Durable folding s) :
    Opened folding (readablePublished readable w) := by
  have after : Durable folding w := durable.opening h.toOpening
  have nodup := Volatile.Directory.nodup_present (s.folders .manifests)
  have rows_ := h.rows
  rw [durable.kept_discovered nodup] at rows_
  have manifests : w.folders .manifests = (s.folders .manifests).sync := by
    rw [h.folders, if_pos (by simp [Folder.all])]
  have placed {id : DiskFileId} {f : File} {m : DiskManifest}
      (there : s.now .manifests id = some f) (encoded : encodeManifest folding m = some f.bytes) :
      Placed folding (readablePublished readable w) id m := by
    refine ⟨f, ?_, encoded⟩
    change (w.folders .manifests).Fixed id (some f)
    rw [manifests, ← there]
    exact Directory.fixed_sync _ id
  have present {id : DiskFileId} :
      id ∈ (s.folders .manifests).present ↔ s.now .manifests id ≠ none :=
    Volatile.Directory.mem_present
  have of_entry {r : DiskFileId × DiskManifest} (hr : r ∈ Store.rows w.store.entries) :
      ∃ f, s.now .manifests r.1 = some f ∧ Sound folding r.2 f s := by
    obtain ⟨-, -, found_⟩ := mem_discovered.mp (rows_.mem_iff.mp hr)
    obtain ⟨f, there, -, sound⟩ := durable.sound_of_discover found_
    exact ⟨f, there, sound⟩
  have files : w.store.entries.map (·.file) = (Store.rows w.store.entries).map (·.1) := by
    simp [Store.rows]
  have base : Durable folding (readablePublished readable w) :=
    after.mono (fun _ _ left => left) (fun _ _ _ fixed => fixed)
      fun r hr => after.published r (List.mem_filter.mp hr).1
  exact {
    base with
    entry := fun e he => by
      obtain ⟨f, there, sound⟩ := of_entry (r := (e.file, e.manifest))
        (List.mem_map.mpr ⟨e, he, rfl⟩)
      exact placed there sound.encoded
    distinct := by
      change (w.store.entries.map (·.file)).Nodup
      rw [files, (rows_.map _).nodup_iff]
      exact List.pairwise_map.mpr (discovered_distinct nodup)
    known := fun r hr => by
      obtain ⟨published, readable_⟩ := List.mem_filter.mp hr
      obtain ⟨f, left, there, encoded⟩ := (durable.published r (h.published ▸ published)).left
      obtain ⟨m, sound, -⟩ := durable.sound r.1 f left
      have same : m = r.2 := encoded_unique sound.encoded encoded
      have mem := present.mpr (there ▸ Option.some_ne_none f)
      exact rows_.mem_iff.mpr (mem_discovered.mpr ⟨mem, readable_, same ▸ sound.discover there⟩)
    full := fun recovered id f left => by
      obtain ⟨-, there⟩ := left_sync manifests left
      have count := h.recovery recovered
      have every : (discovered folding sizes readable s
          (s.folders .manifests).present).length = (s.folders .manifests).present.length := by
        rw [← rows_.length_eq, ← count]
        simp [Store.rows]
      have some_ := List.filterMap_length_eq_length.mp every id
        (present.mpr (there ▸ Option.some_ne_none f))
      obtain ⟨m, found_⟩ : ∃ m, found folding sizes readable s id = some m := by
        simpa [Option.isSome_iff_exists] using some_
      have mem : (id, m) ∈ Store.rows w.store.entries := by
        refine rows_.mem_iff.mpr (List.mem_filterMap.mpr ⟨id, ?_, by rw [found_]; rfl⟩)
        exact present.mpr (there ▸ Option.some_ne_none f)
      obtain ⟨e, he, same⟩ := List.mem_map.mp mem
      exact ⟨e, he, congrArg Prod.fst same⟩ }

end

end Gufo.Store
