import Gufo.Store.Planning

/-!
# What publication writes

From the provisional index entry on: the payload files one after the other, the
directory syncs, the manifest. `Writing` says what holds between two payloads,
`Attempted` what holds from the manifest's rename on.
-/

namespace Gufo.Store
open Gufo.Disk Gufo.Program Gufo.Keyed Gufo.Volatile

section
variable (folding : Bool)

/-- A file that holds a payload, complete and with its checksum. -/
structure Attested (p : Bool × DiskPayload) (f : File) : Prop where
  synced : f.synced = true
  links : f.links = 1
  size : f.size = p.2.bytes.toNat
  checksum : ∃ piece, 0 < piece ∧ checksumIn folding piece f.bytes = p.2.checksum

/-- What publication never undoes, compared with the site it found. -/
structure Progress (s w : Site) : Prop where
  published : w.published = s.published
  budget : w.store.budgetBytes = s.store.budgetBytes
  underflow : w.store.underflow = s.store.underflow
  kept : ∀ (key : FileKey) f, (s.folders key.folder).Fixed key.2 (some f) →
    (w.folders key.folder).Fixed key.2 (some f)
  balance : w.managedSize + s.store.managedBytes.toNat =
    s.managedSize + w.store.managedBytes.toNat
  within : w.store.managedBytes.toNat ≤ w.store.budgetBytes.toNat

/-- Before the manifest is renamed. -/
structure Begun (s w : Site) : Prop extends Progress s w where
  manifests : w.folders .manifests = s.folders .manifests
  recovery : w.store.recoveryRequired = s.store.recoveryRequired

/-- Between two payloads: `missing` are the files still to appear, `rest` the dependencies still to
be visited, `left` the bytes still to be written. -/
structure Writing (s : Site) (r : Publication) (m : DiskManifest) (missing : List FileKey)
    (rest : Dependencies) (left : Nat) (w : Site) : Prop extends Begun s w where
  entry : ∃ e, w.store.entries = s.store.entries.concat e ∧ e.file = r.file ∧ e.manifest = m
  coherent : Coherent (manifestsOf s.store.entries ++ [m])
  length : m.layout.length = r.manifest.layout.length
  unsourced : r.sources = [] → m = r.manifest
  nodup : (rest.map (·.1)).Nodup
  files : ∀ d ∈ rest, d.1.2 = d.2.file
  ahead : ∀ d ∈ rest, ∃ p ∈ payloads m, keyOf p = d.1 ∧ p.2 = d.2
  fresh : ∀ d ∈ rest, referenced s.store.entries d.1 = false → d ∈ dependencies r.manifest
  stays : ∀ key : FileKey, s.now key.folder key.2 ≠ none → w.now key.folder key.2 ≠ none
  absent : ∀ key ∈ missing, referenced s.store.entries key = false →
    w.now key.folder key.2 = none
  reused : ∀ p ∈ payloads m, referenced s.store.entries (keyOf p) = true →
    (∀ e ∈ s.store.entries, ∀ q ∈ payloads e.manifest, keyOf q = keyOf p → q.2 = p.2) ∧
      s.now (keyOf p).folder p.2.file ≠ none
  written : ∀ p ∈ payloads m, referenced s.store.entries (keyOf p) = false →
    keyOf p ∉ missing → ∃ f, w.now (keyOf p).folder p.2.file = some f ∧ Attested folding p f
  room : w.store.managedBytes.toNat + left ≤ w.store.budgetBytes.toNat

/-- Neither refused for capacity nor for a damaged dependency. -/
def Plain (e : Failure) : Prop := e ≠ .capacity ∧ ∀ key, e ≠ .dependency key

/-- Stopped before the manifest's rename, with the provisional entry still there. -/
def Stops (s : Site) (e : Failure) (w : Site) : Prop :=
  Plain e ∧ Begun s w ∧ ∃ x, w.store.entries = s.store.entries.concat x

variable {folding} {s w w' : Site} {r : Publication} {m : DiskManifest} {missing : List FileKey}
  {rest : Dependencies} {left : Nat}

theorem Writing.stops (h : Writing folding s r m missing rest left w) {e : Failure}
    (plain : Plain e) : Stops s e w :=
  ⟨plain, h.toBegun, h.entry.imp fun _ => And.left⟩

theorem plain_io : Plain .io := ⟨by simp, by simp⟩
theorem plain_crashed : Plain .crashed := ⟨by simp, by simp⟩
theorem plain_invalid : Plain .invalid := ⟨by simp, by simp⟩
theorem plain_exhausted : Plain .exhausted := ⟨by simp, by simp⟩
theorem plain_callback : Plain .callback := ⟨by simp, by simp⟩
theorem plain_quarantined : Plain .quarantined := ⟨by simp, by simp⟩

/-! ## Changes to the temporary directory -/

/-- Only the temporary directory changed; it and the byte counter grew by the same. -/
structure Aside (w w' : Site) (n : Nat) : Prop where
  folders : ∀ g, g ≠ .temporary → w'.folders g = w.folders g
  published : w'.published = w.published
  entries : w'.store.entries = w.store.entries
  budget : w'.store.budgetBytes = w.store.budgetBytes
  underflow : w'.store.underflow = w.store.underflow
  recovery : w'.store.recoveryRequired = w.store.recoveryRequired
  size : w'.managedSize = w.managedSize + n
  managed : w'.store.managedBytes.toNat = w.store.managedBytes.toNat + n

theorem folder_ne_temporary (key : FileKey) : key.folder ≠ .temporary := by
  unfold FileKey.folder
  split <;> simp

theorem folder_ne_manifests (key : FileKey) : key.folder ≠ .manifests := by
  unfold FileKey.folder
  split <;> simp

variable {n : Nat}

theorem Aside.payload (h : Aside w w' n) (key : FileKey) :
    w'.folders key.folder = w.folders key.folder := h.folders _ (folder_ne_temporary key)

theorem Aside.now (h : Aside w w' n) (key : FileKey) (id : DiskFileId) :
    w'.now key.folder id = w.now key.folder id := by
  unfold Site.now
  rw [h.payload]

theorem Progress.aside (h : Progress s w) (move : Aside w w' n)
    (fits : w.store.managedBytes.toNat + n ≤ w.store.budgetBytes.toNat) : Progress s w' where
  published := move.published.trans h.published
  budget := move.budget.trans h.budget
  underflow := move.underflow.trans h.underflow
  kept key f fixed := by
    rw [move.payload]
    exact h.kept key f fixed
  balance := by
    have balance := h.balance
    rw [move.size, move.managed]
    omega
  within := by
    rw [move.managed, move.budget]
    exact fits

theorem Writing.aside (h : Writing folding s r m missing rest (left + n) w)
    (move : Aside w w' n) : Writing folding s r m missing rest left w' := by
  have room := h.room
  refine { h with
    toProgress := h.toProgress.aside move (by omega)
    manifests := (move.folders _ (by simp)).trans h.manifests
    recovery := move.recovery.trans h.recovery
    entry := by rw [move.entries]; exact h.entry
    stays := fun key there => by rw [move.now]; exact h.stays key there
    absent := fun key hk new => by rw [move.now]; exact h.absent key hk new
    written := fun p hp new there => by rw [move.now]; exact h.written p hp new there
    room := by rw [move.managed, move.budget]; omega }

theorem aside_change {f : Directory DiskFileId File → Directory DiskFileId File}
    (size : (w.change .temporary f).managedSize = w.managedSize) :
    Aside w (w.change .temporary f) 0 where
  folders _ hg := Site.folders_change_of_ne hg f
  published := rfl
  entries := rfl
  budget := rfl
  underflow := rfl
  recovery := rfl
  size := size
  managed := rfl

variable {id : DiskFileId}

theorem aside_create (absent : w.now .temporary id = none) :
    Aside w (w.change .temporary (·.put id (some {}))) 0 := by
  refine aside_change ?_
  have put := w.managedSize_put .temporary id (some {})
  rw [absent] at put
  have empty : Directory.weight File.size (some {}) = 0 := rfl
  have none_ : Directory.weight File.size (none : Option File) = 0 := rfl
  omega

theorem aside_amend {f : File → File} (same : ∀ g, (f g).size = g.size) :
    Aside w (w.change .temporary (·.amend id f)) 0 :=
  aside_change (w.managedSize_amend_same .temporary id same)

theorem toNat_credit (fits : w.store.managedBytes.toNat + n < 2 ^ 64) :
    (w.credit n).store.managedBytes.toNat = w.store.managedBytes.toNat + n := by
  simp only [Site.credit, UInt64.toNat_add, Nat.toUInt64_eq, UInt64.toNat_ofNat']
  omega

variable {f : File}

theorem aside_append (there : w.now .temporary id = some f)
    {bytes : List UInt8} (length : bytes.length = n)
    (fits : w.store.managedBytes.toNat + n ≤ w.store.budgetBytes.toNat) :
    Aside w ((w.change .temporary
      (·.amend id fun f => { f with bytes := f.bytes ++ bytes })).credit n) n where
  folders _ hg := by
    rw [Site.folders_credit]
    exact Site.folders_change_of_ne hg _
  published := rfl
  entries := rfl
  budget := rfl
  underflow := rfl
  recovery := rfl
  size := by
    have amend := w.managedSize_amend .temporary id fun f => { f with bytes := f.bytes ++ bytes }
    rw [there] at amend
    have weights : Directory.weight File.size
        (some { f with bytes := f.bytes ++ bytes }) = f.size + n := by
      simp [Directory.weight, File.size, length]
    have before : Directory.weight File.size (some f) = f.size := rfl
    simp only [Option.map_some] at amend
    rw [Site.managedSize_credit]
    omega
  managed := by
    have limit := w.store.budgetBytes.toNat_lt
    exact toNat_credit (w := w.change .temporary _) (by rw [Site.store_change]; omega)

/-! ## One payload file -/

/-- A new file in the temporary directory with these contents so far. -/
def Drafted (id : DiskFileId) (bytes : List UInt8) (w : Site) : Prop :=
  ∃ f, w.now .temporary id = some f ∧ f.bytes = bytes ∧ f.links = 1

theorem drafted_append {soFar bytes : List UInt8}
    (h : Drafted id soFar w) :
    Drafted id (soFar ++ bytes) ((w.change .temporary
      (·.amend id fun f => { f with bytes := f.bytes ++ bytes })).credit n) := by
  obtain ⟨f, there, content, links⟩ := h
  refine ⟨{ f with bytes := f.bytes ++ bytes }, ?_, by rw [content], links⟩
  have self : (w.change .temporary
      (·.amend id fun f => { f with bytes := f.bytes ++ bytes })).now .temporary id =
        ((w.folders .temporary).now id).map fun f => { f with bytes := f.bytes ++ bytes } := by
    rw [Site.now_change, if_pos rfl, Directory.now_amend, if_pos rfl]
  have there : (w.folders .temporary).now id = some f := there
  rw [there] at self
  exact self

theorem holds_create_writing (id : DiskFileId) :
    Holds (Writing folding s r m missing rest left) (create id)
      (fun _ w => Writing folding s r m missing rest left w ∧ Drafted id [] w) (Stops s) := by
  refine holds_create (fun w hw absent => ⟨hw.aside (n := 0) (aside_create absent), ?_⟩)
    (fun w hw => hw.stops plain_io)
    (fun w hw absent => (hw.aside (n := 0) (aside_create absent)).stops plain_io)
    fun w hw => hw.stops plain_crashed
  exact ⟨{}, by rw [Site.now_change, if_pos rfl, Directory.now_put, if_pos rfl], rfl, rfl⟩

theorem holds_writeFile_writing (id : DiskFileId) (soFar bytes : List UInt8) :
    Holds (fun w => Writing folding s r m missing rest (left + bytes.length) w ∧
        Drafted id soFar w)
      (writeFile id bytes)
      (fun _ w => Writing folding s r m missing rest left w ∧ Drafted id (soFar ++ bytes) w)
      (Stops s) := by
  refine holds_consequence (holds_writeFile (I := fun ahead w => ∃ done, done ++ ahead = bytes ∧
      Writing folding s r m missing rest (left + ahead.length) w ∧ Drafted id (soFar ++ done) w)
    ?_ ?_ ?_) ?_ ?_ fun _ _ h => h
  · rintro n ahead w pos most ⟨done, whole, writing, drafted⟩
    have length : (ahead.take n).length = n := by
      rw [List.length_take]
      omega
    have exact_ : left + ahead.length = left + (ahead.drop n).length + n := by
      rw [List.length_drop]
      omega
    rw [exact_] at writing
    have room := writing.room
    have ⟨f, there, _⟩ := drafted
    refine ⟨done ++ ahead.take n, ?_, writing.aside (aside_append there length (by omega)), ?_⟩
    · rw [List.append_assoc, List.take_append_drop, whole]
    · rw [← List.append_assoc]
      exact drafted_append drafted
  · rintro ahead w ⟨done, -, writing, -⟩
    exact writing.stops plain_io
  · rintro ahead w ⟨done, -, writing, -⟩
    exact writing.stops plain_crashed
  · rintro w ⟨writing, drafted⟩
    exact ⟨[], rfl, writing, by rw [List.append_nil]; exact drafted⟩
  · rintro - w ⟨done, whole, writing, drafted⟩
    rw [List.append_nil] at whole
    exact ⟨writing, whole ▸ drafted⟩

theorem holds_copyLoop (id : DiskFileId) {piece : Nat} (pos : 0 < piece) (fuel : Nat)
    (soFar bytes : List UInt8) (crc : UInt64) (enough : bytes.length ≤ fuel) :
    Holds (fun w => Writing folding s r m missing rest (left + bytes.length) w ∧
        Drafted id soFar w)
      (copyLoop folding id piece fuel bytes crc)
      (fun c w => (Writing folding s r m missing rest left w ∧ Drafted id (soFar ++ bytes) w) ∧
        c = streamChecksum folding piece fuel bytes crc) (Stops s) := by
  induction fuel generalizing soFar bytes crc with
  | zero =>
    have none_ : bytes = [] := List.length_eq_zero_iff.mp (by omega)
    subst none_
    exact holds_pure fun w hw => ⟨by simpa using hw, rfl⟩
  | succ fuel ih =>
    refine holds_ite (fun none_ => holds_pure fun w hw => ?_) fun some_ => ?_
    · subst none_
      exact ⟨by simpa using hw, by simp [streamChecksum]⟩
    · refine holds_bind (holds_still (fun w hw => hw.1.stops plain_callback)
        fun w hw => hw.1.stops plain_crashed) fun _ => ?_
      have split_ : left + bytes.length =
          left + (bytes.drop piece).length + (bytes.take piece).length := by
        rw [List.length_drop, List.length_take]
        omega
      have shorter : (bytes.drop piece).length ≤ fuel := by
        rw [List.length_drop]
        omega
      rw [split_]
      refine holds_bind (holds_writeFile_writing id soFar (bytes.take piece)) fun _ => ?_
      refine holds_consequence (ih (soFar ++ bytes.take piece) (bytes.drop piece) _ shorter)
        (fun w hw => hw) (fun c w hw => ?_) fun _ _ h => h
      rw [List.append_assoc, List.take_append_drop] at hw
      refine ⟨hw.1, hw.2.trans ?_⟩
      rw [streamChecksum, if_neg some_]

/-- A pass in one piece. -/
theorem checksumIn_whole (bytes : List UInt8) :
    checksumIn folding (bytes.length + 1) bytes = diskChecksum folding bytes 0 := by
  unfold checksumIn
  cases bytes with
  | nil =>
    cases folding <;> rfl
  | cons b rest =>
    have nothing : (b :: rest).drop ((b :: rest).length + 1) = [] :=
      List.drop_eq_nil_of_le (by omega)
    have all : (b :: rest).take ((b :: rest).length + 1) = b :: rest :=
      List.take_of_length_le (by omega)
    rw [List.length_cons, streamChecksum, if_neg (by simp), ← List.length_cons, nothing, all]
    cases rest.length <;> simp [streamChecksum]

theorem changeLast_concat (f : DurableEntry → DurableEntry) (entries : List DurableEntry)
    (e : DurableEntry) : changeLast f (entries.concat e) = entries.concat (f e) := by
  unfold changeLast
  induction entries with
  | nil => rfl
  | cons first rest ih =>
    simp only [List.concat_eq_append, List.length_append, List.length_singleton,
      Nat.add_sub_cancel] at ih
    simp [List.modify_succ_cons, ih]

/-- The checksum of a file still missing can be set in the candidate. -/
theorem Writing.setChecksum {key : FileKey} (h : Writing folding s r m missing rest left w)
    (new : referenced s.store.entries key = false) (pending : key ∈ missing)
    (behind : key ∉ rest.map (·.1)) (sourced : r.sources ≠ []) (crc : UInt64) :
    Writing folding s r (setChecksum key crc m) missing rest left
      (w.setEntries (changeLast (fun e =>
        { e with manifest := Store.setChecksum key crc e.manifest }) w.store.entries)) := by
  have other {p : Bool × DiskPayload} (hp : p ∈ payloads (Store.setChecksum key crc m))
      (apart : keyOf p ≠ key) : p ∈ payloads m := by
    rw [payloads_setChecksum] at hp
    obtain ⟨q, hq, eq⟩ := List.mem_map.mp hp
    by_cases same : keyOf q = key
    · rw [if_pos same] at eq
      exact absurd (eq ▸ same) apart
    · rw [if_neg same] at eq
      exact eq ▸ hq
  have unclaimed {e : DurableEntry} (he : e ∈ s.store.entries) {p : Bool × DiskPayload}
      (hp : p ∈ payloads e.manifest) : keyOf p ≠ key := by
    intro same
    have known := referenced_iff.mpr ⟨e, he, p, hp, same⟩
    rw [new] at known
    cases known
  obtain ⟨e, entries, file, manifest⟩ := h.entry
  refine { h with
    entry := ⟨{ e with manifest := Store.setChecksum key crc e.manifest }, ?_, file, ?_⟩
    coherent := ?_, length := ?_, unsourced := ?_, ahead := ?_
    reused := ?_, written := ?_
    published := h.published, budget := h.budget, underflow := h.underflow, kept := h.kept
    balance := h.balance, within := h.within, manifests := h.manifests, recovery := h.recovery
    room := h.room }
  · rw [Site.entries_setEntries, entries, changeLast_concat]
  · rw [manifest]
  · obtain ⟨each, pairs⟩ := coherent_iff_agree.mp h.coherent
    obtain ⟨old, -, cross⟩ := List.pairwise_append.mp pairs
    refine coherent_iff_agree.mpr ⟨fun n hn => ?_, List.pairwise_append.mpr
      ⟨old, List.pairwise_singleton _ _, fun n hn o ho => ?_⟩⟩
    · rcases List.mem_append.mp hn with hn | hn
      · exact each n (List.mem_append_left _ hn)
      · rw [List.mem_singleton.mp hn]
        exact (each m (List.mem_append_right _ (List.mem_singleton_self m))).setChecksum key crc
    · rw [List.mem_singleton.mp ho]
      obtain ⟨e, he, rfl⟩ := List.mem_map.mp hn
      exact (cross _ hn m (List.mem_singleton_self m)).setChecksum crc fun p hp => unclaimed he hp
  · exact (length_layout_mapPayloads _ _).trans h.length
  · exact fun none_ => absurd none_ sourced
  · intro d hd
    obtain ⟨p, hp, same, payload⟩ := h.ahead d hd
    have apart : keyOf p ≠ key := by
      intro eq
      exact behind (List.mem_map.mpr ⟨d, hd, same.symm.trans eq⟩)
    refine ⟨p, ?_, same, payload⟩
    rw [payloads_setChecksum]
    exact List.mem_map.mpr ⟨p, hp, if_neg apart⟩
  · intro p hp known
    have apart : keyOf p ≠ key := by
      intro eq
      rw [eq, new] at known
      cases known
    exact h.reused p (other hp apart) known
  · intro p hp unknown there
    have apart : keyOf p ≠ key := by
      intro eq
      exact there (eq ▸ pending)
    exact h.written p (other hp apart) unknown there

/-! ## A file in its place -/

/-- The site after a rename out of the temporary directory. -/
def moved (folder : Folder) (id : DiskFileId) (f : File) (w : Site) : Site :=
  (w.change folder (·.put id (some f))).change .temporary (·.put id none)

theorem folders_moved {folder g : Folder}
    (hg : g ≠ .temporary) : (moved folder id f w).folders g =
      if g = folder then (w.folders g).put id (some f) else w.folders g := by
  unfold moved
  rw [Site.folders_change_of_ne hg, Site.folders_change]

theorem now_moved {folder g : Folder} {id j : DiskFileId} (hg : g ≠ .temporary) :
    (moved folder id f w).now g j = if g = folder ∧ j = id then some f else w.now g j := by
  unfold Site.now
  rw [folders_moved hg]
  by_cases same : g = folder
  · simp [same]
  · simp [same]

theorem key_eq {key k : FileKey} (folder : key.folder = k.folder) (id : key.2 = k.2) : key = k := by
  refine Prod.ext ?_ id
  unfold FileKey.folder at folder
  cases h : key.1 <;> cases h' : k.1 <;> simp_all

theorem now_moved_key {key k : FileKey} :
    (moved k.folder k.2 f w).now key.folder key.2 =
      if key = k then some f else w.now key.folder key.2 := by
  rw [now_moved (folder_ne_temporary key)]
  by_cases same : key = k
  · simp [same]
  · rw [if_neg same, if_neg fun both => same (key_eq both.1 both.2)]

theorem Progress.moved {folder : Folder} (h : Progress s w)
    (other : folder ≠ .temporary) (source : w.now .temporary id = some f)
    (target : w.now folder id = none) : Progress s (moved folder id f w) where
  published := h.published
  budget := h.budget
  underflow := h.underflow
  kept key g fixed := by
    have before := h.kept key g fixed
    rw [folders_moved (folder_ne_temporary key)]
    split
    · rename_i same
      refine before.put fun eq => ?_
      have there : w.now folder id = some g := by
        rw [← same, ← eq]
        exact before.now
      rw [target] at there
      cases there
    · exact before
  balance := by
    have size := Site.managedSize_rename other source target
    have balance := h.balance
    unfold Store.moved
    rw [size]
    exact balance
  within := h.within

theorem Writing.moved {k : FileKey}
    (h : Writing folding s r m (k :: missing) rest left w)
    (source : w.now .temporary k.2 = some f) (target : w.now k.folder k.2 = none)
    (once : k ∉ missing)
    (complete : ∀ p ∈ payloads m, keyOf p = k → Attested folding p f) :
    Writing folding s r m missing rest left (moved k.folder k.2 f w) := by
  refine { h with
    toProgress := h.toProgress.moved (folder_ne_temporary k) source target
    manifests := ?_, recovery := h.recovery, entry := h.entry, stays := ?_, absent := ?_
    written := ?_, room := h.room }
  · rw [folders_moved (by simp), if_neg (Ne.symm (folder_ne_manifests k))]
    exact h.manifests
  · intro key there
    rw [now_moved_key]
    split
    · simp
    · exact h.stays key there
  · intro key hk new
    have other : key ≠ k := by
      intro eq
      exact once (eq ▸ hk)
    rw [now_moved_key, if_neg other]
    exact h.absent key (List.mem_cons_of_mem _ hk) new
  · intro p hp new there
    have now_ : (Store.moved k.folder k.2 f w).now (keyOf p).folder p.2.file =
        if keyOf p = k then some f else w.now (keyOf p).folder p.2.file := now_moved_key
    rw [now_]
    split
    · rename_i same
      exact ⟨f, rfl, complete p hp same⟩
    · rename_i other
      refine h.written p hp new fun known => ?_
      rcases List.mem_cons.mp known with eq | known
      · exact other eq
      · exact there known

end

end Gufo.Store
