import Gufo.Store.Writing

/-!
# From the payload files to the manifest

One payload file written and renamed, the directory syncs, and the manifest with its
rename. `Committed` is where a publication that returns ends.
-/

namespace Gufo.Store
open Gufo.Disk Gufo.Program Gufo.Keyed Gufo.Volatile

section
variable {folding : Bool} {s w : Site} {r : Publication} {m : DiskManifest}
  {missing : List FileKey} {rest : Dependencies} {left : Nat}

/-! ## One payload -/

/-- The contents a payload describes. -/
structure Complete (folding : Bool) (p : Bool × DiskPayload) (content : List UInt8) : Prop where
  size : content.length = p.2.bytes.toNat
  checksum : ∃ piece, 0 < piece ∧ checksumIn folding piece content = p.2.checksum

variable {bytes : List UInt8}

theorem drafted_sync {id : DiskFileId} (h : Drafted id bytes w) :
    ∃ f, (w.change .temporary (·.amend id fun f => { f with synced := true })).now .temporary id =
      some f ∧ f.bytes = bytes ∧ f.links = 1 ∧ f.synced = true := by
  obtain ⟨f, there, content, links⟩ := h
  have there : (w.folders .temporary).now id = some f := there
  refine ⟨{ f with synced := true }, ?_, content, links, rfl⟩
  rw [Site.now_change, if_pos rfl, Directory.now_amend, if_pos rfl, there]
  rfl

theorem holds_finish {k : FileKey} {content : List UInt8} (once : k ∉ missing)
    (complete : ∀ p ∈ payloads m, keyOf p = k → Complete folding p content) :
    Holds (fun w => Writing folding s r m (k :: missing) rest left w ∧ Drafted k.2 content w)
      (do syncFile k.2; rename k.folder k.2)
      (fun _ w => ∃ m, Writing folding s r m missing rest left w) (Stops s) := by
  have aside (v : Site) :
      Aside v (v.change .temporary (·.amend k.2 fun f => { f with synced := true })) 0 :=
    aside_amend fun _ => rfl
  refine holds_bind (R := fun _ w => Writing folding s r m (k :: missing) rest left w ∧
      ∃ f, w.now .temporary k.2 = some f ∧ f.bytes = content ∧ f.links = 1 ∧ f.synced = true)
    (holds_effect (fun v hv => ⟨hv.1.aside (n := 0) (aside v), drafted_sync hv.2⟩)
      (fun v hv => hv.1.stops plain_io)
      (fun v hv => (hv.1.aside (n := 0) (aside v)).stops plain_io)
      fun v hv => hv.1.stops plain_crashed) fun _ => ?_
  have placed {v : Site} {f : File} (hv : Writing folding s r m (k :: missing) rest left v ∧
      ∃ f, v.now .temporary k.2 = some f ∧ f.bytes = content ∧ f.links = 1 ∧ f.synced = true)
      (source : v.now .temporary k.2 = some f) (target : v.now k.folder k.2 = none) :
      Writing folding s r m missing rest left (moved k.folder k.2 f v) := by
    obtain ⟨writing, g, there, content, links, synced⟩ := hv
    rw [there, Option.some.injEq] at source
    subst source
    refine writing.moved there target once fun p hp same => ?_
    obtain ⟨size, checksum⟩ := complete p hp same
    exact ⟨synced, links, by rw [File.size, content, size], content ▸ checksum⟩
  exact holds_rename (fun v f hv source target => ⟨m, placed hv source target⟩)
    (fun v hv => hv.1.stops plain_io)
    (fun v f hv source target => (placed hv source target).stops plain_io)
    fun v hv => hv.1.stops plain_crashed

theorem Writing.tail {d : FileKey × DiskPayload}
    (h : Writing folding s r m missing (d :: rest) left w) :
    Writing folding s r m missing rest left w :=
  { h with
    nodup := (List.nodup_cons.mp h.nodup).2
    files := fun e he => h.files e (List.mem_cons_of_mem _ he)
    ahead := fun e he => h.ahead e (List.mem_cons_of_mem _ he)
    fresh := fun e he => h.fresh e (List.mem_cons_of_mem _ he) }

/-- A file that the index claims needs no writing. -/
theorem Writing.skip {k : FileKey} (h : Writing folding s r m (k :: missing) rest left w)
    (known : referenced s.store.entries k = true) :
    Writing folding s r m missing rest left w := by
  refine { h with absent := ?_, written := ?_ }
  · exact fun key hk => h.absent key (List.mem_cons_of_mem _ hk)
  · intro p hp new there
    refine h.written p hp new fun pending => ?_
    rcases List.mem_cons.mp pending with eq | pending
    · rw [eq, known] at new
      cases new
    · exact there pending

theorem of_badBuffers {deps : Dependencies} {buffers : List WriteBuffer}
    (h : badBuffers folding deps buffers = false) {b : WriteBuffer} (hb : b ∈ buffers) :
    ∃ p, lookup deps b.key = some p ∧ b.bytes.length = p.bytes.toNat ∧
      diskChecksum folding b.bytes 0 = p.checksum := by
  have all := (Bool.or_eq_false_iff.mp h).1
  have fine := List.any_eq_false.mp all b hb
  cases found : lookup deps b.key with
  | none => simp [found] at fine
  | some p => exact ⟨p, rfl, by simpa [found] using fine⟩

theorem of_badSources {deps : Dependencies} {sources : List WriteSource} {staging : Nat}
    (h : badSources deps sources staging = false) {src : WriteSource} (hs : src ∈ sources) :
    ∃ p, lookup deps src.key = some p ∧ src.content.length = p.bytes.toNat ∧
      0 < src.alignment ∧ src.alignment ≤ staging := by
  have all := (Bool.or_eq_false_iff.mp h).1
  have fine := List.any_eq_false.mp all src hs
  cases found : lookup deps src.key with
  | none => simp [found] at fine
  | some p =>
    simp only [found, Bool.or_eq_true, bne_iff_ne, Bool.not_eq_true', beq_iff_eq,
      decide_eq_true_eq, not_or, not_not, Nat.not_lt] at fine
    obtain ⟨⟨⟨⟨size, -⟩, aligned⟩, fits⟩, -⟩ := fine
    exact ⟨p, rfl, size, Nat.pos_of_ne_zero aligned, fits⟩

theorem holds_copySource {d : FileKey × DiskPayload} {src : WriteSource}
    (new : referenced s.store.entries d.1 = false) (behind : d.1 ∉ rest.map (·.1))
    (sourced : r.sources ≠ []) (same : d.1.2 = d.2.file)
    (aligned : 0 < src.alignment) (fits : src.alignment ≤ r.staging)
    (size : src.content.length = d.2.bytes.toNat)
    (payload : ∀ p ∈ payloads m, keyOf p = d.1 → p.2 = d.2) :
    Holds (fun w => Writing folding s r m (d.1 :: missing) rest (left + d.2.bytes.toNat) w ∧
        Drafted d.1.2 [] w)
      (copySource folding r src d.1 d.2)
      (fun _ w => ∃ m, (∀ p ∈ payloads m, keyOf p = d.1 → Complete folding p src.content) ∧
        Writing folding s r m (d.1 :: missing) rest left w ∧ Drafted d.1.2 src.content w)
      (Stops s) := by
  have pos : 0 < r.staging / src.alignment * src.alignment :=
    Nat.mul_pos (Nat.div_pos fits aligned) aligned
  unfold copySource
  rw [← size, ← same]
  refine holds_bind (holds_copyLoop d.1.2 pos _ [] src.content 0 (Nat.le_refl _)) fun crc => ?_
  refine holds_reject (fun _ w hw => hw.1.1.stops plain_invalid) fun _ => ?_
  refine holds_update fun w hw => ⟨Store.setChecksum d.1 crc m, fun p hp key => ?_,
    hw.1.1.setChecksum new List.mem_cons_self behind sourced crc, hw.1.2⟩
  rw [payloads_setChecksum] at hp
  obtain ⟨q, hq, eq⟩ := List.mem_map.mp hp
  have target : keyOf q = d.1 := by
    by_contra other
    rw [if_neg other] at eq
    exact other (eq ▸ key)
  rw [if_pos target] at eq
  subst eq
  refine ⟨?_, _, pos, hw.2.symm⟩
  rw [payload q hq target, size]

theorem holds_writeDependency (ok : Admissible folding s r bytes)
    (d : FileKey × DiskPayload) :
    Holds (fun w => ∃ m, Writing folding s r m ((d :: rest).map (·.1)) (d :: rest)
        (left + freshBytes s.store.entries (d :: rest)) w)
      (writeDependency folding r d)
      (fun _ w => ∃ m, Writing folding s r m (rest.map (·.1)) rest
        (left + freshBytes s.store.entries rest) w) (Stops s) := by
  refine holds_of_start fun w hw => ?_
  obtain ⟨m, writing⟩ := hw
  have same := writing.files d List.mem_cons_self
  obtain ⟨p, hp, key, payload⟩ := writing.ahead d List.mem_cons_self
  have behind : d.1 ∉ rest.map (·.1) := (List.nodup_cons.mp writing.nodup).1
  have unique : ∀ q ∈ payloads m, keyOf q = d.1 → q.2 = d.2 := by
    intro q hq there
    have consistent := (coherent_iff_agree.mp writing.coherent).1 m (by simp)
    rw [consistent.payload_eq hq hp (there.trans key.symm), payload]
  refine holds_bind (R := fun stored v => v = w ∧ stored = (w.now d.1.folder d.2.file).isSome)
    (holds_exists ?_ ?_ ?_) fun stored => ?_
  · rintro v rfl
    exact ⟨rfl, rfl⟩
  · rintro v rfl
    exact writing.stops plain_io
  · rintro v rfl
    exact writing.stops plain_crashed
  refine holds_of_start fun v hv => ?_
  obtain ⟨rfl, stored⟩ := hv
  cases known : referenced s.store.entries d.1 with
  | true =>
    have there : v.now d.1.folder d.2.file ≠ none := by
      have before := (writing.reused p hp (key ▸ known)).2
      have eq : (keyOf p).folder = d.1.folder := congrArg _ key
      rw [eq, payload, ← same] at before
      rw [← same]
      exact writing.stays d.1 before
    rw [Option.isSome_iff_ne_none.mpr there] at stored
    rw [stored]
    refine holds_pure fun u hu => ⟨m, ?_⟩
    have done := (writing.skip known).tail
    rw [freshBytes_cons, if_pos known, Nat.zero_add] at done
    exact hu ▸ done
  | false =>
    have absent : v.now d.1.folder d.2.file = none :=
      same ▸ writing.absent d.1 List.mem_cons_self known
    rw [absent] at stored
    rw [stored]
    have within := lookup_of_mem (nodup_dependencies r.manifest)
      (writing.fresh d List.mem_cons_self known)
    have begun : Writing folding s r m (d.1 :: rest.map (·.1)) rest
        (left + freshBytes s.store.entries rest + d.2.bytes.toNat) v := by
      have tail := writing.tail
      rw [freshBytes_cons, known] at tail
      have sum : left + (d.2.bytes.toNat + freshBytes s.store.entries rest) =
          left + freshBytes s.store.entries rest + d.2.bytes.toNat := by omega
      simpa [sum] using tail
    rw [if_neg (by simp), ← same]
    have created : Holds (Writing folding s r m (d.1 :: rest.map (·.1)) rest
        (left + freshBytes s.store.entries rest + d.2.bytes.toNat)) _ _ _ :=
      holds_create_writing d.1.2
    refine holds_bind (holds_consequence created (fun u hu => hu ▸ begun) (fun _ _ h => h)
      fun _ _ h => h) fun _ => ?_
    cases buffered : r.buffers.find? fun b => b.key == d.1 with
    | some b =>
      obtain ⟨q, looked, size, checksum⟩ := of_badBuffers ok.buffers (List.mem_of_find?_eq_some buffered)
      have bkey : b.key = d.1 := by simpa using List.find?_some buffered
      rw [bkey, within, Option.some.injEq] at looked
      subst looked
      rw [← size]
      refine holds_bind (holds_writeFile_writing d.1.2 [] b.bytes) fun _ => ?_
      refine holds_finish behind fun q hq there => ?_
      rw [List.nil_append]
      have eq := unique q hq there
      exact ⟨by rw [eq, size], _, Nat.succ_pos _, by rw [checksumIn_whole, checksum, eq]⟩
    | none =>
      cases streamed : r.sources.find? fun src => src.key == d.1 with
      | none => exact holds_throw fun u hu => hu.1.stops plain_invalid
      | some src =>
        have mem := List.mem_of_find?_eq_some streamed
        obtain ⟨q, looked, size, aligned, fits⟩ := of_badSources ok.sources mem
        have skey : src.key = d.1 := by simpa using List.find?_some streamed
        rw [skey, within, Option.some.injEq] at looked
        subst looked
        refine holds_bind (holds_copySource known behind (List.ne_nil_of_mem mem) same aligned fits
          size unique) fun _ => ?_
        refine holds_of_start fun u hu => ?_
        obtain ⟨n, complete, writing, drafted⟩ := hu
        refine holds_consequence (holds_finish behind complete) (fun t ht => ?_)
          (fun _ _ h => h) fun _ _ h => h
        exact ht ▸ ⟨writing, drafted⟩

/-! ## The directories made durable -/

/-- Whatever happens to the directory, it keeps what it has. -/
def Settled (folder : Folder) (w : Site) : Prop :=
  ∀ id, (w.folders folder).Fixed id (w.now folder id)

/-- The payload directories are settled. -/
def Steady (w : Site) : Prop := Settled .chunks w ∧ Settled .privateFiles w

theorem settled_sync (folder : Folder) (w : Site) :
    Settled folder (w.change folder (·.sync)) := by
  intro id
  rw [Site.now_change, if_pos rfl, Site.folders_change_self]
  exact Directory.fixed_sync _ id

theorem now_synced (folder g : Folder) (id : DiskFileId) :
    (w.change folder (·.sync)).now g id = w.now g id := by
  rw [Site.now_change]
  split <;> rfl

theorem Settled.sync {g : Folder} (h : Settled g w) (folder : Folder) :
    Settled g (w.change folder (·.sync)) := by
  intro id
  rw [now_synced, Site.folders_change]
  split
  · exact (h id).sync
  · exact h id

theorem Steady.payload (h : Steady w) (key : FileKey) :
    (w.folders key.folder).Fixed key.2 (w.now key.folder key.2) := by
  unfold FileKey.folder
  split
  · exact h.2 key.2
  · exact h.1 key.2

theorem Steady.temporary (h : Steady w)
    (f : Directory DiskFileId File → Directory DiskFileId File) :
    Steady (w.change .temporary f) := by
  have still {g : Folder} (hg : g ≠ .temporary) (settled : Settled g w) :
      Settled g (w.change .temporary f) := by
    intro id
    rw [Site.now_change, if_neg hg, Site.folders_change_of_ne hg]
    exact settled id
  exact ⟨still (by simp) h.1, still (by simp) h.2⟩

theorem holds_create_steady (id : DiskFileId) :
    Holds Steady (create id) (fun _ => Steady) (fun _ _ => True) :=
  holds_create (fun _ hw _ => hw.temporary _) (fun _ _ => trivial) (fun _ _ _ => trivial)
    fun _ _ => trivial

theorem holds_writeFile_steady (id : DiskFileId) (bytes : List UInt8) :
    Holds Steady (writeFile id bytes) (fun _ => Steady) (fun _ _ => True) :=
  holds_writeFile (I := fun _ => Steady)
    (fun n rest _ _ _ hw =>
      hw.temporary (·.amend id fun f => { f with bytes := f.bytes ++ rest.take n }))
    (fun _ _ _ => trivial) fun _ _ _ => trivial

theorem Progress.sync (h : Progress s w) (folder : Folder) :
    Progress s (w.change folder (·.sync)) where
  published := h.published
  budget := h.budget
  underflow := h.underflow
  kept key f fixed := by
    have before := h.kept key f fixed
    rw [Site.folders_change]
    split
    · exact before.sync
    · exact before
  balance := by
    rw [Site.managedSize_sync]
    exact h.balance
  within := h.within

theorem Writing.sync (h : Writing folding s r m missing rest left w) {folder : Folder}
    (other : folder ≠ .manifests) :
    Writing folding s r m missing rest left (w.change folder (·.sync)) := by
  refine { h with
    toProgress := h.toProgress.sync folder
    manifests := (Site.folders_change_of_ne (Ne.symm other) _).trans h.manifests
    recovery := h.recovery, entry := h.entry, room := h.room
    stays := fun key there => ?_, absent := fun key hk new => ?_
    written := fun p hp new there => ?_ }
  · rw [now_synced]
    exact h.stays key there
  · rw [now_synced]
    exact h.absent key hk new
  · rw [now_synced]
    exact h.written p hp new there

variable {C : Site → Prop}

theorem holds_syncFolder_writing {folder : Folder} (other : folder ≠ .manifests)
    (stable : ∀ w, C w → C (w.change folder (·.sync))) :
    Holds (fun w => Writing folding s r m missing rest left w ∧ C w) (syncFolder folder)
      (fun _ w => Writing folding s r m missing rest left w ∧ C w ∧ Settled folder w) (Stops s) :=
  holds_effect (fun w hw => ⟨hw.1.sync other, stable w hw.2, settled_sync folder w⟩)
    (fun _ hw => hw.1.stops plain_io) (fun _ hw => (hw.1.sync other).stops plain_io)
    fun _ hw => hw.1.stops plain_crashed

/-! ## The manifest -/

/-- A file that describes a manifest whose payloads are there for good. Those the index claimed
before are as it claims them. -/
structure Backed (folding : Bool) (s : Site) (m : DiskManifest) (f : File) (w : Site) : Prop where
  synced : f.synced = true
  links : f.links = 1
  encoded : encodeManifest folding m = some f.bytes
  payload : ∀ p ∈ payloads m, ∃ g, (w.folders (keyOf p).folder).Fixed p.2.file (some g) ∧
    (keyOf p, g.bytes) ∈ f.attested ∧
    (referenced s.store.entries (keyOf p) = false → Attested folding p g) ∧
    (referenced s.store.entries (keyOf p) = true →
      ∀ e ∈ s.store.entries, ∀ q ∈ payloads e.manifest, keyOf q = keyOf p → q.2 = p.2)

/-- From the manifest's rename on, whether or not it took effect. -/
structure Attempted (folding : Bool) (s : Site) (r : Publication) (m : DiskManifest) (f : File)
    (w : Site) : Prop extends Progress s w where
  coherent : Coherent (manifestsOf s.store.entries ++ [m])
  backed : Backed folding s m f w
  named : s.now .manifests r.file = none
  recovered : s.store.recoveryRequired = false
  manifests : w.folders .manifests = s.folders .manifests ∨
    w.folders .manifests = (s.folders .manifests).put r.file (some f) ∨
    w.folders .manifests = ((s.folders .manifests).put r.file (some f)).sync

theorem mem_snapshot {p : Bool × DiskPayload} {g : File} (hp : p ∈ payloads m)
    (there : w.now (keyOf p).folder p.2.file = some g) : (keyOf p, g.bytes) ∈ snapshot w m :=
  List.mem_filterMap.mpr ⟨p, hp, by rw [there]; rfl⟩

/-- Once everything is written, each payload has its file for good. -/
theorem Writing.payload_there (h : Writing folding s r m [] [] left w) (steady : Steady w)
    {p : Bool × DiskPayload} (hp : p ∈ payloads m) :
    ∃ g, w.now (keyOf p).folder p.2.file = some g ∧
      (w.folders (keyOf p).folder).Fixed p.2.file (some g) ∧
      (referenced s.store.entries (keyOf p) = false → Attested folding p g) := by
  have fixed := steady.payload (keyOf p)
  cases known : referenced s.store.entries (keyOf p) with
  | false =>
    obtain ⟨g, there, attested⟩ := h.written p hp known List.not_mem_nil
    have there' : w.now (keyOf p).folder (keyOf p).2 = some g := there
    rw [there'] at fixed
    exact ⟨g, there, fixed, fun _ => attested⟩
  | true =>
    have there := h.stays (keyOf p) (h.reused p hp known).2
    obtain ⟨g, there⟩ := Option.ne_none_iff_exists'.mp there
    rw [there] at fixed
    exact ⟨g, there, fixed, fun no => absurd no (by simp)⟩

theorem Writing.last (h : Writing folding s r m missing rest left w) :
    ∃ e, w.store.entries.getLast? = some e ∧ e.manifest = m ∧ e.file = r.file := by
  obtain ⟨e, entries, file, manifest⟩ := h.entry
  exact ⟨e, by rw [entries, List.concat_eq_append, List.getLast?_concat], manifest, file⟩

theorem holds_finalBytes
    (ok : encodeManifest folding r.manifest = some bytes) :
    Holds (fun w => Writing folding s r m [] [] left w ∧ C w) (finalBytes folding r bytes)
      (fun b w => (Writing folding s r m [] [] left w ∧ C w) ∧
        encodeManifest folding m = some b ∧ b.length = bytes.length) (Stops s) := by
  refine holds_ite (fun unsourced => holds_pure fun w hw => ⟨hw, ?_, rfl⟩) fun _ => ?_
  · rw [hw.1.unsourced unsourced]
    exact ok
  · refine holds_site fun w hw => ?_
    obtain ⟨e, last, manifest, -⟩ := hw.1.last
    rw [last, Option.bind_some, manifest]
    cases encoded : encodeManifest folding m with
    | none => exact holds_throw fun v hv => hv ▸ hw.1.stops plain_invalid
    | some b =>
      refine holds_pure fun v hv => ⟨hv ▸ hw, rfl, ?_⟩
      rw [length_encoded encoded, length_encoded ok, hw.1.length]

/-- The manifest's file, written and synced, ready to be renamed. -/
def Prepared (folding : Bool) (s : Site) (r : Publication) (m : DiskManifest) (w : Site) : Prop :=
  Writing folding s r m [] [] 0 w ∧
    ∃ f, w.now .temporary r.file = some f ∧ Backed folding s m f w

variable {f : File}

theorem drafted_amend {id : DiskFileId} (there : w.now .temporary id = some f)
    (g : File → File) : (w.change .temporary (·.amend id g)).now .temporary id = some (g f) := by
  have there : (w.folders .temporary).now id = some f := there
  rw [Site.now_change, if_pos rfl, Directory.now_amend, if_pos rfl, there]
  rfl

theorem holds_writeManifest (encoded : encodeManifest folding m = some bytes) :
    Holds (fun w => Writing folding s r m [] [] bytes.length w ∧ Steady w)
      (writeManifest r bytes) (fun _ => Prepared folding s r m) (Stops s) := by
  have amend (g : File → File) (same : ∀ f, (g f).size = f.size) (v : Site) :
      Aside v (v.change .temporary (·.amend r.file g)) 0 := aside_amend same
  have content : Holds (fun w => Writing folding s r m [] [] (0 + bytes.length) w ∧
      Drafted r.file [] w) (writeFile r.file bytes)
      (fun _ w => Writing folding s r m [] [] 0 w ∧ Drafted r.file ([] ++ bytes) w) (Stops s) :=
    holds_writeFile_writing r.file [] bytes
  refine holds_bind (holds_consequence (holds_and (holds_create_writing r.file)
    (holds_create_steady r.file)) (fun _ h => h) (fun _ _ h => h) fun _ _ h => h.1) fun _ => ?_
  refine holds_bind (R := fun _ w => Writing folding s r m [] [] 0 w ∧ Drafted r.file bytes w ∧
    Steady w) (holds_consequence (holds_and content
      (holds_writeFile_steady r.file bytes)) ?_ (fun _ w h => ⟨h.1.1, h.1.2, h.2⟩)
      fun _ _ h => h.1) fun _ => ?_
  · rintro w ⟨⟨writing, drafted⟩, steady⟩
    rw [Nat.zero_add]
    exact ⟨⟨writing, drafted⟩, steady⟩
  refine holds_bind (R := fun _ w => (Writing folding s r m [] [] 0 w ∧ Steady w) ∧
    ∃ f, w.now .temporary r.file = some f ∧ f.bytes = bytes ∧ f.links = 1 ∧
      f.attested = snapshot w m) (holds_update ?_) fun _ => ?_
  · rintro w ⟨writing, ⟨f, there, content, links⟩, steady⟩
    obtain ⟨e, last, manifest, -⟩ := writing.last
    rw [last, Option.map_some, Option.getD_some, manifest]
    refine ⟨⟨writing.aside (n := 0) (amend (fun f => { f with attested := snapshot w m })
      (fun _ => rfl) w), steady.temporary _⟩, _,
      drafted_amend there _, content, links, ?_⟩
    refine List.filterMap_congr fun p _ => ?_
    rw [Site.now_change, if_neg (folder_ne_temporary _)]
  · have finished {v : Site} (hv : (Writing folding s r m [] [] 0 v ∧ Steady v) ∧
        ∃ f, v.now .temporary r.file = some f ∧ f.bytes = bytes ∧ f.links = 1 ∧
          f.attested = snapshot v m) :
        Prepared folding s r m
          (v.change .temporary (·.amend r.file fun f => { f with synced := true })) := by
      obtain ⟨⟨writing, steady⟩, f, there, content, links, attested⟩ := hv
      refine ⟨writing.aside (n := 0) (amend (fun f => { f with synced := true })
        (fun _ => rfl) v), _, drafted_amend there _, rfl,
        links, by rw [content]; exact encoded, fun p hp => ?_⟩
      obtain ⟨g, now_, fixed, attest⟩ := writing.payload_there steady hp
      refine ⟨g, ?_, ?_, attest, fun known => (writing.reused p hp known).1⟩
      · rw [Site.folders_change_of_ne (folder_ne_temporary _)]
        exact fixed
      · rw [attested]
        exact mem_snapshot hp now_
    exact holds_effect (fun v hv => finished hv) (fun v hv => hv.1.1.stops plain_io)
      (fun v hv => (finished hv).1.stops plain_io) fun v hv => hv.1.1.stops plain_crashed

/-! ## The rename -/

theorem Backed.congr {v : Site} (h : Backed folding s m f w)
    (same : ∀ key : FileKey, v.folders key.folder = w.folders key.folder) :
    Backed folding s m f v :=
  { h with payload := fun p hp => by rw [same]; exact h.payload p hp }

/-- The candidate is the last entry. -/
def Provisional (s : Site) (r : Publication) (m : DiskManifest) (w : Site) : Prop :=
  ∃ e, w.store.entries = s.store.entries.concat e ∧ e.file = r.file ∧ e.manifest = m

/-- Stopped after the rename was attempted. -/
def Attempts (folding : Bool) (s : Site) (r : Publication) (e : Failure) (w : Site) : Prop :=
  Plain e ∧ ∃ m f, Attempted folding s r m f w ∧ Provisional s r m w

/-- The manifest is in its place for good. -/
structure Committed (folding : Bool) (s : Site) (r : Publication) (m : DiskManifest) (f : File)
    (w : Site) : Prop extends Attempted folding s r m f w where
  placed : w.folders .manifests = ((s.folders .manifests).put r.file (some f)).sync
  provisional : Provisional s r m w
  recovery : w.store.recoveryRequired = s.store.recoveryRequired

theorem Attempted.renamed (h : Attempted folding s r m f w)
    (before : w.folders .manifests = s.folders .manifests)
    (source : w.now .temporary r.file = some f) (target : w.now .manifests r.file = none) :
    Attempted folding s r m f (moved .manifests r.file f w) ∧
      (moved .manifests r.file f w).folders .manifests =
        (s.folders .manifests).put r.file (some f) := by
  have placed : (moved .manifests r.file f w).folders .manifests =
      (s.folders .manifests).put r.file (some f) := by
    rw [folders_moved (by simp), if_pos rfl, before]
  refine ⟨{ h with
    toProgress := h.toProgress.moved (by simp) source target
    backed := h.backed.congr fun key => ?_
    manifests := .inr (.inl placed) }, placed⟩
  rw [folders_moved (folder_ne_temporary key), if_neg (folder_ne_manifests key)]

theorem Attempted.synced (h : Attempted folding s r m f w)
    (placed : w.folders .manifests = (s.folders .manifests).put r.file (some f)) :
    Attempted folding s r m f (w.change .manifests (·.sync)) ∧
      (w.change .manifests (·.sync)).folders .manifests =
        ((s.folders .manifests).put r.file (some f)).sync := by
  have durable : (w.change .manifests (·.sync)).folders .manifests =
      ((s.folders .manifests).put r.file (some f)).sync := by
    rw [Site.folders_change_self, placed]
  refine ⟨{ h with
    toProgress := h.toProgress.sync .manifests
    backed := h.backed.congr fun key => Site.folders_change_of_ne (folder_ne_manifests key) _
    manifests := .inr (.inr durable) }, durable⟩

theorem Committed.sync_temporary (h : Committed folding s r m f w) :
    Committed folding s r m f (w.change .temporary (·.sync)) :=
  { h with
    toProgress := h.toProgress.sync .temporary
    backed := h.backed.congr fun key => Site.folders_change_of_ne (folder_ne_temporary key) _
    manifests := h.manifests, placed := h.placed, provisional := h.provisional
    recovery := h.recovery }

theorem Committed.attempts (h : Committed folding s r m f w) {e : Failure}
    (plain : Plain e) : Attempts folding s r e w :=
  ⟨plain, m, f, h.toAttempted, h.provisional⟩

theorem holds_unquarantined {E : Failure → Site → Prop}
    (fails : ∀ w, C w → E .quarantined w) (crashed : ∀ w, C w → E .crashed w) :
    Holds C requireUnquarantined (fun _ => C) E :=
  holds_bind (holds_ask (Q := fun _ => C) (fun _ _ h => h) crashed) fun _ =>
    holds_reject_last (fun _ => fails) fun _ _ h => h

theorem holds_commit (named : s.now .manifests r.file = none)
    (recovered : s.store.recoveryRequired = false) :
    Holds (Prepared folding s r m) (commit r) (fun _ w => ∃ f, Committed folding s r m f w)
      (Attempts folding s r) := by
  refine holds_of_start fun w hw => ?_
  obtain ⟨writing, f, source, backed⟩ := hw
  have start : Attempted folding s r m f w :=
    { writing.toProgress with
      coherent := writing.coherent, backed := backed, named := named, recovered := recovered
      manifests := .inl writing.manifests }
  have attempts {e : Failure} (plain : Plain e) : Attempts folding s r e w :=
    ⟨plain, m, f, start, writing.entry⟩
  have renamed (g : File) (there : w.now .temporary r.file = some g)
      (target : w.now .manifests r.file = none) :
      Attempted folding s r m f (moved .manifests r.file g w) ∧
        (moved .manifests r.file g w).folders .manifests =
          (s.folders .manifests).put r.file (some f) := by
    rw [source, Option.some.injEq] at there
    subst there
    exact start.renamed writing.manifests source target
  refine holds_bind (R := fun _ v => (Attempted folding s r m f v ∧
      v.folders .manifests = (s.folders .manifests).put r.file (some f)) ∧
        Provisional s r m v ∧ v.store.recoveryRequired = s.store.recoveryRequired)
    (holds_rename ?_ ?_ ?_ ?_) fun _ => ?_
  · rintro v g rfl there target
    exact ⟨renamed g there target, writing.entry, writing.recovery⟩
  · rintro v rfl
    exact attempts plain_io
  · rintro v g rfl there target
    exact ⟨plain_io, m, f, (renamed g there target).1, writing.entry⟩
  · rintro v rfl
    exact attempts plain_crashed
  refine holds_bind (R := fun _ => Committed folding s r m f) (holds_effect ?_ ?_ ?_ ?_)
    fun _ => ?_
  · rintro v ⟨⟨attempted, placed⟩, provisional, recovery⟩
    obtain ⟨durable, there⟩ := attempted.synced placed
    exact { durable with placed := there, provisional := provisional, recovery := recovery }
  · rintro v ⟨⟨attempted, -⟩, provisional, -⟩
    exact ⟨plain_io, m, f, attempted, provisional⟩
  · rintro v ⟨⟨attempted, placed⟩, provisional, -⟩
    exact ⟨plain_io, m, f, (attempted.synced placed).1, provisional⟩
  · rintro v ⟨⟨attempted, -⟩, provisional, -⟩
    exact ⟨plain_crashed, m, f, attempted, provisional⟩
  refine holds_bind (R := fun _ => Committed folding s r m f)
    (holds_effect (fun _ hv => hv.sync_temporary) (fun _ hv => hv.attempts plain_io)
      (fun _ hv => hv.sync_temporary.attempts plain_io) fun _ hv => hv.attempts plain_crashed)
    fun _ => ?_
  refine holds_bind (holds_unquarantined (fun _ hv => hv.attempts plain_quarantined)
    fun _ hv => hv.attempts plain_crashed) fun _ => holds_update fun v hv => ⟨f, ?_⟩
  obtain ⟨e, entries, file, manifest⟩ := hv.provisional
  refine { hv with
    published := hv.published, budget := hv.budget, underflow := hv.underflow, kept := hv.kept
    balance := hv.balance, within := hv.within, manifests := hv.manifests, placed := hv.placed
    recovery := hv.recovery, backed := hv.backed.congr fun _ => rfl
    provisional := ⟨{ e with durable := true, payloadVerified := true }, ?_, file, manifest⟩ }
  rw [Site.entries_setEntries, entries, changeLast_concat]

end

end Gufo.Store
