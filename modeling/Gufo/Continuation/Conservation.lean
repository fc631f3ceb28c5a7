import Gufo.Continuation.Eviction

/-!
# Bytes and slots over every run

One step changes one lease object and the cache together: what the object gains or
loses in reserved bytes and slots, the cache's counters and slots lose or gain.
-/

namespace Gufo.Continuation
open Gufo.Sums
variable {σ : Type} {payloadBytes : σ → UInt64}

/-- Whether an object holds a slot, as a count. -/
def Object.holds (i : Nat) (o : Object σ) : Nat := if o.slot = some i then 1 else 0

/-- Whether a slot is taken, as a count. -/
def Cache.busy (c : Cache σ) (i : Nat) : Nat := if (c.entry i).available then 0 else 1

namespace World

/-- How many lease objects hold a slot. -/
def holders (w : World σ) (i : Nat) : Nat := total (Object.holds i) w.objects

/-- The bytes of the valid checkpoint records. -/
def recordBytes (w : World σ) : Nat :=
  total (fun e => if e.valid then e.snapshotBytes.toNat else 0)
    (w.cache.entries.drop w.cache.stateCount)

/-- What the leases have reserved and neither published nor given back. -/
def outstanding (w : World σ) : Nat := total (fun o => o.reserved.toNat) w.objects

/-- The cache and its leases agree. -/
structure Balanced (w : World σ) : Prop where
  sound : w.cache.Sound
  reserved : w.cache.reservedSnapshotBytes.toNat = w.outstanding
  busy : ∀ i < w.cache.stateCount, w.cache.busy i = w.holders i
  held : ∀ o ∈ w.objects, ∀ i, o.slot = some i → i < w.cache.stateCount

variable {w : World σ} {a : Nat}

theorem Balanced.slot (h : Balanced w) {o : Object σ} (at_a : w.objects[a]? = some o)
    {i : Nat} (slot : o.slot = some i) : i < w.cache.stateCount :=
  h.held o (List.mem_of_getElem? at_a) i slot

/-- No lease has reserved more than the counter holds. -/
theorem Balanced.covers (h : Balanced w) {l : Lease}
    (at_a : w.objects[a]? = some (.leased l)) :
    l.reservedSnapshotBytes ≤ w.cache.reservedSnapshotBytes := by
  rw [UInt64.le_iff_toNat_le, h.reserved]
  exact le_total (fun o : Object σ => o.reserved.toNat) at_a

variable {c' : Cache σ}

/-- An object and the cache change together. -/
theorem Balanced.change (h : Balanced w) {o o' : Object σ}
    (at_a : w.objects[a]? = some o) (sound : c'.Sound)
    (stateCount : c'.stateCount = w.cache.stateCount)
    (reserved : c'.reservedSnapshotBytes.toNat + o.reserved.toNat =
      w.cache.reservedSnapshotBytes.toNat + o'.reserved.toNat)
    (busy : ∀ i < w.cache.stateCount, c'.busy i + o.holds i = w.cache.busy i + o'.holds i)
    (slot : ∀ i, o'.slot = some i → i < w.cache.stateCount) :
    Balanced { cache := c', objects := w.objects.set a o' } := by
  refine ⟨sound, ?_, fun i hi => ?_, fun b hb i eq => ?_⟩
  · have moved := total_set (fun o : Object σ => o.reserved.toNat) at_a o'
    have before := h.reserved
    simp only [outstanding] at before ⊢
    omega
  · have hi : i < w.cache.stateCount := stateCount ▸ hi
    have moved := total_set (Object.holds i) at_a o'
    have before := h.busy i hi
    have changed := busy i hi
    simp only [holders] at before ⊢
    omega
  · rw [stateCount]
    cases List.mem_or_eq_of_mem_set hb with
    | inl old => exact h.held b old i eq
    | inr new => exact slot i (new ▸ eq)

/-- An object that keeps its slot, with a cache that keeps all slots as they are. -/
theorem Balanced.keep (h : Balanced w) {o o' : Object σ}
    (at_a : w.objects[a]? = some o) (sound : c'.Sound) (keeps : w.cache.Keeps c')
    (reserved : c'.reservedSnapshotBytes.toNat + o.reserved.toNat =
      w.cache.reservedSnapshotBytes.toNat + o'.reserved.toNat) (slot : o'.slot = o.slot) :
    Balanced { cache := c', objects := w.objects.set a o' } := by
  refine h.change at_a sound keeps.stateCount reserved (fun i _ => ?_) fun i eq => ?_
  · simp [Cache.busy, Object.holds, keeps.available, slot]
  · exact h.slot at_a (slot ▸ eq)

/-- An object that gives its slot and its reservation back. -/
theorem Balanced.free (h : Balanced w) {a index : Nat} {o : Object σ}
    (at_a : w.objects[a]? = some o) (slot : o.slot = some index) (sound : c'.Sound)
    (frees : w.cache.Frees c' index)
    (reserved : c'.reservedSnapshotBytes.toNat + o.reserved.toNat =
      w.cache.reservedSnapshotBytes.toNat) :
    Balanced { cache := c', objects := w.objects.set a .empty } := by
  refine h.change at_a sound frees.stateCount (by simpa [Object.reserved] using reserved)
    (fun i hi => ?_) fun i eq => by cases eq
  have own := h.busy i hi
  by_cases same : i = index
  · subst same
    have one : o.holds i = 1 := by simp [Object.holds, slot]
    have le := le_total (Object.holds i) at_a
    have most : w.cache.busy i ≤ 1 := by
      unfold Cache.busy
      split <;> omega
    simp only [holders] at own
    have freed : c'.busy i = 0 := by simp [Cache.busy, frees.free]
    have none : (Object.empty : Object σ).holds i = 0 := by simp [Object.holds, Object.slot]
    omega
  · have not_own : o.holds i = 0 := by
      simp only [Object.holds, slot, Option.some.injEq]
      exact if_neg (Ne.symm same)
    have none : (Object.empty : Object σ).holds i = 0 := by simp [Object.holds, Object.slot]
    have unchanged : c'.busy i = w.cache.busy i := by simp [Cache.busy, frees.others i same]
    omega

theorem Balanced.drop (h : Balanced w) {l : Lease}
    (at_a : w.objects[a]? = some (.leased l)) : Balanced (w.drop a l) := by
  obtain ⟨sound, frees, reserved⟩ := h.sound.invalidate (h.covers at_a) (h.slot at_a rfl)
  exact h.free at_a rfl sound frees reserved

/-- A move leaves every total where it was. -/
theorem total_hand (v : Object σ → Nat) {objects : List (Object σ)} {source target : Nat}
    {o : Object σ} (at_source : objects[source]? = some o)
    (at_target : objects[target]? = some .empty) (ne : source ≠ target) :
    total v ((objects.set source .empty).set target o) = total v objects := by
  have first := total_set v at_source .empty
  have still : (objects.set source .empty)[target]? = some .empty := by
    rw [List.getElem?_set_ne ne, at_target]
  have second := total_set v still o
  omega

variable {w' : World σ}

theorem Balanced.hand (h : Balanced w) {source target : Nat}
    (done : w.hand source target = some w') : Balanced w' := by
  unfold World.hand at done
  split at done
  · obtain rfl := Option.some.inj done
    exact h
  · rename_i l at_source at_target
    obtain rfl := Option.some.inj done
    have ne : source ≠ target := by
      rintro rfl
      rw [at_source] at at_target
      cases at_target
    refine ⟨h.sound, ?_, fun i hi => ?_, fun o ho i eq => ?_⟩
    · rw [h.reserved]
      exact (total_hand _ at_source at_target ne).symm
    · rw [h.busy i hi]
      exact (total_hand _ at_source at_target ne).symm
    · cases List.mem_or_eq_of_mem_set ho with
      | inl old =>
        cases List.mem_or_eq_of_mem_set old with
        | inl older => exact h.held o older i eq
        | inr new => subst new; cases eq
      | inr new => exact h.slot at_source (new ▸ eq)
  · cases done

/-- Only the cache changes, and no slot with it. -/
theorem Balanced.cache (h : Balanced w) (sound : c'.Sound)
    (keeps : w.cache.Keeps c')
    (reserved : c'.reservedSnapshotBytes = w.cache.reservedSnapshotBytes) :
    Balanced { w with cache := c' } := by
  refine ⟨sound, ?_, fun i hi => ?_, fun o ho i eq => ?_⟩
  · rw [reserved]
    exact h.reserved
  · have same : c'.busy i = w.cache.busy i := by simp [Cache.busy, keeps.available]
    exact same.trans (h.busy i (keeps.stateCount ▸ hi))
  · rw [keeps.stateCount]
    exact h.held o ho i eq

theorem Balanced.acquire (h : Balanced w) (at_a : w.objects[a]? = some .empty)
    {m : Model σ} {q : Request} {p : Captured σ}
    (taken : w.cache.acquire m q = some (p, c')) :
    Balanced { cache := c', objects := w.objects.set a (.acquiring p) } := by
  obtain ⟨slot, free⟩ := h.sound.acquire_free taken
  have made : ∃ source liveHit, c' = w.cache.capture q p.index source liveHit := by
    simp only [Cache.acquire, Option.map_eq_some_iff] at taken
    obtain ⟨index, -, eq⟩ := taken
    obtain ⟨rfl, rfl⟩ := Prod.mk.inj eq
    exact ⟨_, _, rfl⟩
  obtain ⟨source, liveHit, rfl⟩ := made
  obtain ⟨sound, takes, reserved⟩ := h.sound.capture q slot source liveHit
  refine h.change at_a sound takes.stateCount (by rw [reserved]; rfl) (fun i _ => ?_)
    fun i eq => by cases eq; exact slot
  by_cases same : i = p.index
  · subst same
    simp [Cache.busy, Object.holds, Object.slot, takes.taken, free]
  · have ne : ¬p.index = i := Ne.symm same
    simp [Cache.busy, Object.holds, Object.slot, takes.others i same, ne]

theorem Balanced.tryReserve (h : Balanced w) {l : Lease}
    (at_a : w.objects[a]? = some (.leased l)) {r : Reservation}
    (done : w.tryReserve a l r = some w') : Balanced w' := by
  unfold World.tryReserve at done
  split at done
  · obtain rfl := Option.some.inj done
    exact h
  rename_i unreserved
  obtain ⟨result, _, ends, -, -, sound, keeps, reserved⟩ := h.sound.reserve r
  rw [ends] at done
  obtain rfl := Option.some.inj done
  cases admitted : result.admitted with
  | true =>
    simp only [admitted, if_true] at reserved ⊢
    refine h.keep at_a sound keeps ?_ rfl
    have none : l.reservedSnapshotBytes = 0 := by simpa using unreserved
    simp only [Object.reserved, none, UInt64.toNat_zero]
    omega
  | false =>
    simp only [admitted, Bool.false_eq_true, if_false, Nat.add_zero] at reserved ⊢
    exact h.cache sound keeps (UInt64.toNat_inj.mp reserved)

variable {action : Action σ}

theorem Balanced.leaseStep (h : Balanced w) {l : Lease}
    (at_a : w.objects[a]? = some (.leased l))
    (done : w.leaseStep payloadBytes a l action = some w') : Balanced w' := by
  have covered := h.covers at_a
  have slot := h.slot at_a rfl
  cases action with
  | adoptRestoredPrefix _ cachedTokens restoredBytes =>
    simp only [World.leaseStep] at done
    split at done
    · obtain rfl := Option.some.inj done
      exact h
    · obtain rfl := Option.some.inj done
      exact h.keep at_a h.sound (.refl _) rfl rfl
  | tryReserve => exact h.tryReserve at_a done
  | skip =>
    obtain rfl := Option.some.inj done
    obtain ⟨sound, less⟩ := h.sound.release covered
    exact h.keep at_a sound (.release _ _)
      (by simpa [Object.reserved, Cache.skipSnapshot] using less) rfl
  | publish _ tokens snapshot preserveSource =>
    obtain rfl := Option.some.inj done
    obtain ⟨sound, keeps, reserved⟩ := h.sound.commit payloadBytes
      (p := l.publication tokens snapshot) covered slot
    exact h.keep at_a sound keeps (by simpa [Object.reserved, Lease.publication] using reserved) rfl
  | commit _ tokens snapshot liveTokens =>
    obtain rfl := Option.some.inj done
    obtain ⟨sound, frees, reserved⟩ := h.sound.commit payloadBytes
      (p := l.committal tokens snapshot liveTokens) covered slot
    exact h.free at_a rfl sound frees reserved
  | invalidate =>
    obtain rfl := Option.some.inj done
    exact h.drop at_a
  | _ => cases done

theorem Balanced.onLease (h : Balanced w)
    (done : w.onLease payloadBytes a action = some w') : Balanced w' := by
  unfold World.onLease at done
  split at done
  · rename_i l at_a
    exact h.leaseStep at_a done
  · obtain rfl := Option.some.inj done
    exact h
  · cases done

theorem Balanced.step (h : Balanced w)
    (done : w.step payloadBytes action = some w') : Balanced w' := by
  cases action with
  | construct =>
    obtain rfl := Option.some.inj done
    refine ⟨h.sound, ?_, fun i hi => ?_, fun o ho i eq => ?_⟩
    · simpa [outstanding, Object.reserved] using h.reserved
    · simpa [holders, Object.holds, Object.slot] using h.busy i hi
    · cases List.mem_append.mp ho with
      | inl old => exact h.held o old i eq
      | inr new =>
        obtain rfl := List.mem_singleton.mp new
        cases eq
  | acquire a m q =>
    simp only [World.step] at done
    split at done
    · rename_i at_a _
      split at done
      · rename_i p c' taken
        obtain rfl := Option.some.inj done
        exact h.acquire at_a taken
      · obtain rfl := Option.some.inj done
        exact h
    · obtain rfl := Option.some.inj done
      exact h
    · cases done
  | acquired a =>
    simp only [World.step] at done
    split at done
    · rename_i p at_a
      split at done
      · cases done
      · obtain rfl := Option.some.inj done
        exact h.keep at_a h.sound (.refl _) rfl rfl
    · cases done
  | acquireFailed a =>
    simp only [World.step] at done
    split at done
    · rename_i p at_a
      obtain rfl := Option.some.inj done
      obtain ⟨sound, frees⟩ := h.sound.abandon (h.slot at_a rfl)
      exact h.free at_a rfl sound frees rfl
    · cases done
  | moveConstruct source target => exact h.hand done
  | moveAssign source target =>
    simp only [World.step] at done
    split at done
    · obtain rfl := Option.some.inj done
      exact h
    · split at done
      · rename_i l at_target
        exact (h.drop at_target).hand done
      · exact h.hand done
  | displaceIdle enabled =>
    obtain rfl := Option.some.inj done
    exact h.cache { h.sound with } ⟨rfl, rfl, fun _ => rfl⟩ rfl
  | clear =>
    simp only [World.step] at done
    split at done
    · rename_i c' cleared
      obtain rfl := Option.some.inj done
      obtain ⟨sound, keeps, reserved⟩ := h.sound.clear cleared
      exact h.cache sound keeps reserved
    · obtain rfl := Option.some.inj done
      exact h
  | adoptRestoredPrefix a n b => exact h.onLease done
  | tryReserve a b n s p r => exact h.onLease done
  | skip a r b n => exact h.onLease done
  | publish a t s k => exact h.onLease done
  | commit a t s l => exact h.onLease done
  | invalidate a => exact h.onLease done

end World

theorem reachable_balanced {w : World σ} (h : Reachable payloadBytes w) : w.Balanced := by
  induction h with
  | start created =>
    obtain ⟨sound, reserved, free⟩ := Cache.sound_create created
    refine ⟨sound, ?_, fun i hi => ?_, fun o ho => by cases ho⟩
    · simp [World.outstanding, reserved]
    · simp [World.holders, Cache.busy, free i hi]
  | next _ step ih => exact ih.step step

/-- What holds of the cache and its leases in every state. -/
structure World.Accounted (w : World σ) : Prop where
  retained : w.cache.retainedSnapshotBytes.toNat = w.recordBytes
  reserved : w.cache.reservedSnapshotBytes.toNat = w.outstanding
  within : w.cache.retainedSnapshotBytes.toNat + w.cache.reservedSnapshotBytes.toNat ≤
    w.cache.snapshotCapacityBytes.toNat
  /-- a record can be removed, and a reservation taken back, without an underflow -/
  recordCovered : ∀ i ∈ w.cache.records, (w.cache.entry i).valid = true →
    (w.cache.entry i).snapshotBytes ≤ w.cache.retainedSnapshotBytes
  leaseCovered : ∀ l, .leased l ∈ w.objects →
    l.reservedSnapshotBytes ≤ w.cache.reservedSnapshotBytes
  unique : ∀ i ∈ w.cache.records, ∀ j ∈ w.cache.records, (w.cache.entry i).valid = true →
    (w.cache.entry j).valid = true → (w.cache.entry i).tokens = (w.cache.entry j).tokens →
    (w.cache.entry i).inputIdentity = (w.cache.entry j).inputIdentity → i = j
  /-- a slot is free, or held by one lease, counting an `Acquire` that has taken it -/
  slots : ∀ i < w.cache.stateCount,
    (w.cache.entry i).available = true ∧ w.holders i = 0 ∨
      (w.cache.entry i).available = false ∧ w.holders i = 1
  /-- a reservation's eviction loop ends, having removed only what it may -/
  evictions : ∀ r : Reservation, ∃ done c', w.cache.reserveSnapshot r = some done ∧
    Cache.Evicts r w.cache c' ∧
    done.cache = { c' with reservedSnapshotBytes := done.cache.reservedSnapshotBytes }

theorem World.Balanced.recordBytes_eq {w : World σ} (h : w.Balanced) :
    w.recordBytes = total Entry.bytes w.cache.entries := by
  have split := List.take_append_drop w.cache.stateCount w.cache.entries
  have slots : total Entry.bytes (w.cache.entries.take w.cache.stateCount) = 0 := by
    refine total_eq_zero fun e he => ?_
    obtain ⟨i, hi, rfl⟩ := List.mem_iff_getElem.mp he
    simp only [List.length_take] at hi
    have slot := h.sound.slots i (by omega)
    have inside : i < w.cache.entries.length := by omega
    have same : (w.cache.entries.take w.cache.stateCount)[i] = w.cache.entry i := by
      simp [Cache.entry, List.getD_eq_getElem?_getD, inside]
    simp [Entry.bytes, same, slot.bytes]
  rw [← split, total_append, slots, Nat.zero_add]
  rfl

/-- Bytes, records, slots and reservations are accounted for in every reachable state. -/
theorem reachable_accounted (w : World σ) (h : Reachable payloadBytes w) : w.Accounted := by
  have balanced := reachable_balanced h
  have sound := balanced.sound
  refine {
    retained := ?_
    reserved := balanced.reserved
    within := sound.within
    recordCovered := fun i record valid => sound.covered record valid
    leaseCovered := fun l member => ?_
    unique := sound.unique
    slots := fun i hi => ?_
    evictions := fun r => ?_ }
  · rw [balanced.recordBytes_eq]
    exact sound.counted
  · obtain ⟨a, at_a⟩ := List.getElem?_of_mem member
    exact balanced.covers at_a
  · have same := balanced.busy i hi
    unfold Cache.busy at same
    cases free : (w.cache.entry i).available with
    | true =>
      rw [free] at same
      exact .inl ⟨rfl, same.symm⟩
    | false =>
      rw [free] at same
      exact .inr ⟨rfl, same.symm⟩
  · obtain ⟨done, c', ends, evicts, same, -⟩ := sound.reserve r
    exact ⟨done, c', ends, evicts, same⟩

/-- One slot and one record: a conversation publishes its prompt, then a longer one that only
fits once the first copy is gone. -/
def longerPrompt : List (Action UInt64) :=
  [.construct, .acquire 0 ⟨fun _ => true, fun _ => true, fun _ _ => false⟩ { prompt := [1, 2, 3] },
    .acquired 0, .tryReserve 0 40 2 false .continuation [1, 2], .publish 0 [1, 2] (some 40) false,
    .tryReserve 0 70 3 false .continuation [1, 2, 3]]

/-- A cache of 100 bytes. -/
def smallCache : Cache UInt64 where
  entries := [{}, { available := false }]
  stateCount := 1
  snapshotMode := true
  snapshotCapacityBytes := 100

def afterLongerPrompt : Option (World UInt64) := World.run id { cache := smallCache } longerPrompt

theorem afterLongerPrompt_accounted :
    let w := afterLongerPrompt.get (by decide)
    w.cache.retainedSnapshotBytes = 0 ∧ w.cache.reservedSnapshotBytes = 70 ∧ w.Accounted := by
  have made : Cache.create 1 true 1 (some 100) = .ok smallCache := rfl
  have start : Reachable id { cache := smallCache } := .start made
  exact ⟨by decide, by decide, reachable_accounted _ (start.run (Option.some_get _).symm)⟩

end Gufo.Continuation
