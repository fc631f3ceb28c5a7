import Gufo.Component.Attached

/-!
# Who holds an entry, and what the index lists for it

The invariant of the cache, and how a step of one lease keeps it.
-/

namespace Gufo.Component
variable {τ : Type} {count : Nat}

/-! ## Lookup -/

/-- The live frontiers are in the index, and whatever a candidate restores is the prompt up to
its boundary. -/
structure PrefixLookup.Sound (found : PrefixLookup τ count)
    (index : List (Nat × LiveFrontier τ count)) (prompt : List τ) : Prop where
  live : ∀ c ∈ found.selected, ∀ location ∈ c.live, ∃ r ∈ index, r.2.location = location ∧
    r.2.tokens = prompt.take c.boundary
  candidates : ∀ c ∈ found.candidates, c.Sound prompt

section
variable [DecidableEq τ] {s : Cache τ count} {availability : Availability} {q : Query τ}
  {c : Candidate τ count}

theorem take_of_isPrefixOf {tokens prompt : List τ} (h : tokens.isPrefixOf prompt = true) :
    tokens = prompt.take tokens.length :=
  List.prefix_iff_eq_take.mp (List.isPrefixOf_iff_prefix.mp h)

theorem liveCandidate_sound {r : Nat × LiveFrontier τ count}
    (h : Cache.liveCandidate availability q r = some c) :
    c.Sound q.tokens ∧ c.live = some r.2.location ∧ r.2.tokens = q.tokens.take c.boundary := by
  unfold Cache.liveCandidate at h
  split at h
  · rename_i usable
    cases h
    simp only [Bool.and_eq_true] at usable
    exact ⟨⟨by simp, by simp⟩, rfl, take_of_isPrefixOf usable.1⟩
  · cases h

theorem storedCandidate_sound {r : Stored τ}
    (h : Cache.storedCandidate availability q r = some c) :
    c.Sound q.tokens ∧ c.live = none := by
  unfold Cache.storedCandidate at h
  split at h
  · rename_i usable
    have tokens := take_of_isPrefixOf usable
    obtain ⟨parts, -, rfl⟩ := Option.map_eq_some_iff.mp h
    refine ⟨⟨?_, ?_⟩, rfl⟩
    · intro k ram
      split at ram
      · rw [r.coherent k ram, ← tokens]
      · cases ram
    · intro m disk
      dsimp only at disk ⊢
      split at disk
      · rw [r.described m disk, ← tokens]
      · cases disk
  · cases h

theorem mem_lookup (mem : c ∈ (s.lookup availability q).candidates) :
    (∃ r ∈ s.index, Cache.liveCandidate availability q r = some c) ∨
      ∃ r ∈ s.stored, Cache.storedCandidate availability q r = some c := by
  unfold Cache.lookup at mem
  split at mem
  · cases mem
  · simp only [List.mem_insertionSort, List.mem_filter, List.mem_append, List.mem_filterMap] at mem
    exact mem.1

theorem lookup_selected (h : c ∈ (s.lookup availability q).selected) :
    c ∈ (s.lookup availability q).candidates := by
  unfold Cache.lookup at h ⊢
  split at h
  · cases h
  · rename_i reuse
    rw [if_neg reuse]
    exact List.mem_of_mem_head? h

theorem lookup_sound (s : Cache τ count) (availability : Availability) (q : Query τ) :
    (s.lookup availability q).Sound s.index q.tokens where
  live := by
    intro c selected location live
    rcases mem_lookup (lookup_selected selected) with ⟨r, mem, found⟩ | ⟨r, mem, found⟩
    · obtain ⟨-, at_, tokens⟩ := liveCandidate_sound found
      rw [at_] at live
      exact ⟨r, mem, Option.some.inj live, tokens⟩
    · rw [(storedCandidate_sound found).2] at live
      cases live
  candidates := by
    intro c mem
    rcases mem_lookup mem with ⟨r, -, found⟩ | ⟨r, -, found⟩
    · exact (liveCandidate_sound found).1
    · exact (storedCandidate_sound found).1

end

/-! ## Choosing a free entry -/

section
variable {s : Cache τ count} {standing : Fin count → Cache.Standing} {eligible : Fin count → Bool}

theorem better_eligible {best : Option (Fin count)} (good : ∀ b ∈ best, eligible b = true)
    (i : Fin count) : ∀ b ∈ s.better standing eligible best i, eligible b = true := by
  intro b found
  unfold Cache.better at found
  split at found
  · exact good b found
  · rename_i allowed
    have allowed : eligible i = true := by simpa using allowed
    split at found
    · cases found
      exact allowed
    · split at found
      · cases found
        exact allowed
      · exact good b found

theorem foldl_better_eligible {entries : List (Fin count)} {best : Option (Fin count)}
    (good : ∀ b ∈ best, eligible b = true) :
    ∀ b ∈ entries.foldl (s.better standing eligible) best, eligible b = true := by
  induction entries generalizing best with
  | nil => exact good
  | cons i entries ih => exact ih (better_eligible good i)

theorem least_eligible {i : Fin count} (h : s.least standing eligible = some i) :
    eligible i = true :=
  foldl_better_eligible (fun _ none_ => by cases none_) i h

end

theorem choose_free {s : Cache τ count} {standing : Fin count → Cache.Standing} {i : Fin count}
    (h : s.choose standing = some i) : (s.entries i).busy = false := by
  unfold Cache.choose at h
  split at h
  · cases h
  · rename_i chosen least
    have free : (s.entries chosen).busy = false := by simpa using least_eligible least
    split at h
    · cases h
      exact free
    · rcases Option.or_eq_some_iff.mp h with other | ⟨-, same⟩
      · have spared := least_eligible other
        simp only [Cache.spares, Bool.and_eq_true, Bool.not_eq_true'] at spared
        exact spared.1.1.1.2
      · cases same
        exact free

/-! ## The invariant -/

/-- The history was made for what the slot executes now. -/
def Entry.Belongs (e : Entry τ) : Prop := ∃ h, e.history = some h ∧ h.execution = e.slot.execution

/-- An entry that `Acquire` has taken, before it has its slot. -/
structure Opening (e : Entry τ) (l : Lease τ count) : Prop where
  leased : e.slot.leased = false
  sound : ∀ c ∈ l.found.candidates, c.Sound l.prompt
  live : ∀ location ∈ l.live, e.slot.live = true ∧ location.generation = e.slot.generation ∧
    ∃ c, l.found.selected = some c ∧ e.slot.tokens = l.prompt.take c.boundary

structure Active (e : Entry τ) (l : Lease τ count) : Prop where
  holdsSlot : l.holdsSlot = true
  leased : e.slot.leased = true
  belongs : e.Belongs

/-- The lease `k` is under way, or its holder has it, and it took the entry `i`. -/
def Held (leases : List (Lease τ count)) (i : Fin count) (k : Nat) : Prop :=
  ∃ l, leases[k]? = some l ∧ l.phase ≠ .ended ∧ l.entry = i

/-- An entry and a lease that took it. -/
structure Turn (e : Entry τ) (l : Lease τ count) : Prop where
  busy : e.busy = true ↔ l.phase ≠ .ended
  idle : e.busy = false → e.slot.leased = false
  whole : e.slot.live = true → e.slot.leased = false → e.slot.valid = true ∧ e.Belongs
  opening : l.phase = .opening → Opening e l
  active : l.phase = .active → Active e l

/-- Who holds the entries. -/
structure Holding (entries : Fin count → Entry τ) (leases : List (Lease τ count)) : Prop where
  holder : ∀ i, (entries i).busy = true ↔ ∃ k, Held leases i k
  unique : ∀ i k k', Held leases i k → Held leases i k' → k = k'
  idle : ∀ i, (entries i).busy = false → (entries i).slot.leased = false
  whole : ∀ i, (entries i).slot.live = true → (entries i).slot.leased = false →
    (entries i).slot.valid = true ∧ (entries i).Belongs
  opening : ∀ (k : Nat) (l : Lease τ count), leases[k]? = some l → l.phase = .opening →
    Opening (entries l.entry) l
  active : ∀ (k : Nat) (l : Lease τ count), leases[k]? = some l → l.phase = .active →
    Active (entries l.entry) l

/-- The record is the live frontier of the entry. -/
structure Lists (e : Entry τ) (r : Nat × LiveFrontier τ count) : Prop where
  live : e.live = some r.1
  generation : r.2.location.generation = e.slot.generation
  tokens : r.2.tokens = e.slot.tokens

/-- What the index lists. -/
structure Listing (entries : Fin count → Entry τ) (index : List (Nat × LiveFrontier τ count))
    (next : Nat) : Prop where
  recorded : ∀ r ∈ index, Lists (entries r.2.location.slot) r
  listed : ∀ i id, (entries i).live = some id → ∃ r ∈ index, r.1 = id ∧ r.2.location.slot = i
  fresh : ∀ i id, (entries i).live = some id → id < next
  distinct : ∀ i j id, (entries i).live = some id → (entries j).live = some id → i = j
  frontier : ∀ i, (entries i).live.isSome = true ↔
    (entries i).busy = false ∧ (entries i).slot.live = true

structure Inv (s : Cache τ count) : Prop where
  holding : Holding s.entries s.leases
  listing : Listing s.entries s.index s.nextEntry

theorem inv_init : Inv ({} : Cache τ count) where
  holding := {
    holder := by simp [Held]
    unique := by simp [Held]
    idle := by simp
    whole := by simp
    opening := by simp
    active := by simp }
  listing := {
    recorded := by simp
    listed := by simp
    fresh := by simp
    distinct := by simp
    frontier := by simp }

/-! ## Turns of one lease -/

namespace Holding
variable {entries : Fin count → Entry τ} {leases : List (Lease τ count)} {k : Nat}
  {l l' : Lease τ count} {e : Entry τ}

theorem held_set (at_ : leases[k]? = some l) {j : Fin count} {m : Nat} :
    Held (leases.set k l') j m ↔
      (m = k ∧ l'.phase ≠ .ended ∧ l'.entry = j) ∨ (m ≠ k ∧ Held leases j m) := by
  have short : k < leases.length := (List.getElem?_eq_some_iff.mp at_).1
  unfold Held
  by_cases same : m = k
  · subst same
    rw [List.getElem?_set_self short]
    simp
  · rw [List.getElem?_set_ne (Ne.symm same)]
    simp [same]

/-- A step of the lease `k` that changes its entry only. -/
theorem turn (holding : Holding entries leases) (at_ : leases[k]? = some l)
    (held : l.phase ≠ .ended) (same : l'.entry = l.entry) (turn : Turn e l') :
    Holding (Function.update entries l.entry e) (leases.set k l') := by
  have mine : Held leases l.entry k := ⟨l, at_, held, rfl⟩
  have others : ∀ m (l₁ : Lease τ count), m ≠ k → leases[m]? = some l₁ → l₁.phase ≠ .ended →
      l₁.entry ≠ l.entry := by
    intro m l₁ other at₁ held₁ entry
    exact other (holding.unique l.entry m k ⟨l₁, at₁, held₁, entry⟩ mine)
  have short : k < leases.length := (List.getElem?_eq_some_iff.mp at_).1
  constructor
  case holder =>
    intro i
    simp only [held_set at_]
    by_cases here : i = l.entry
    · subst here
      rw [Function.update_self, turn.busy]
      constructor
      · intro held'
        exact ⟨k, .inl ⟨rfl, held', same⟩⟩
      · rintro ⟨m, ⟨-, held', -⟩ | ⟨other, also⟩⟩
        · exact held'
        · exact absurd (holding.unique _ _ _ also mine) other
    · rw [Function.update_of_ne here, holding.holder i]
      constructor
      · rintro ⟨m, has⟩
        refine ⟨m, .inr ⟨?_, has⟩⟩
        rintro rfl
        obtain ⟨l₁, at₁, -, entry⟩ := has
        rw [at_] at at₁
        cases at₁
        exact here entry.symm
      · rintro ⟨m, ⟨-, -, entry⟩ | ⟨-, has⟩⟩
        · exact absurd (entry.symm.trans same) here
        · exact ⟨m, has⟩
  case unique =>
    intro i m m' has has'
    rw [held_set at_] at has has'
    rcases has with ⟨rfl, -, entry⟩ | ⟨other, has⟩ <;>
      rcases has' with ⟨rfl, -, entry'⟩ | ⟨other', has'⟩
    · rfl
    · rw [← entry, same] at has'
      exact absurd (holding.unique _ _ _ has' mine) other'
    · rw [← entry', same] at has
      exact absurd (holding.unique _ _ _ has mine) other
    · exact holding.unique i m m' has has'
  case idle =>
    intro i
    by_cases here : i = l.entry
    · subst here
      rw [Function.update_self]
      exact turn.idle
    · rw [Function.update_of_ne here]
      exact holding.idle i
  case whole =>
    intro i
    by_cases here : i = l.entry
    · subst here
      rw [Function.update_self]
      exact turn.whole
    · rw [Function.update_of_ne here]
      exact holding.whole i
  case opening =>
    intro m l₁ at₁ phase
    by_cases here : m = k
    · subst here
      rw [List.getElem?_set_self short] at at₁
      cases at₁
      rw [same, Function.update_self]
      exact turn.opening phase
    · rw [List.getElem?_set_ne (Ne.symm here)] at at₁
      rw [Function.update_of_ne (others m l₁ here at₁ (by simp [phase]))]
      exact holding.opening m l₁ at₁ phase
  case active =>
    intro m l₁ at₁ phase
    by_cases here : m = k
    · subst here
      rw [List.getElem?_set_self short] at at₁
      cases at₁
      rw [same, Function.update_self]
      exact turn.active phase
    · rw [List.getElem?_set_ne (Ne.symm here)] at at₁
      rw [Function.update_of_ne (others m l₁ here at₁ (by simp [phase]))]
      exact holding.active m l₁ at₁ phase

theorem held_append {j : Fin count} {m : Nat} :
    Held (leases ++ [l]) j m ↔
      Held leases j m ∨ m = leases.length ∧ l.phase ≠ .ended ∧ l.entry = j := by
  unfold Held
  rcases Nat.lt_trichotomy m leases.length with short | same | long
  · rw [List.getElem?_append_left short]
    simp [short.ne]
  · subst same
    simp
  · rw [List.getElem?_append_right long.le, List.getElem?_eq_none long.le,
      List.getElem?_eq_none (by simp; omega)]
    simp [long.ne']

/-- `Acquire` takes a free entry. -/
theorem take (holding : Holding entries leases) (free : (entries l.entry).busy = false)
    (phase : l.phase = .opening) (busy : e.busy = true) (opening : Opening e l)
    (whole : e.slot.live = true → e.slot.leased = false → e.slot.valid = true ∧ e.Belongs) :
    Holding (Function.update entries l.entry e) (leases ++ [l]) := by
  have untaken : ∀ m, ¬Held leases l.entry m := by
    intro m has
    have := (holding.holder l.entry).mpr ⟨m, has⟩
    rw [free] at this
    exact Bool.false_ne_true this
  have others : ∀ (m : Nat) (l₁ : Lease τ count), leases[m]? = some l₁ → l₁.phase ≠ .ended →
      l₁.entry ≠ l.entry := fun m l₁ at₁ held₁ entry => untaken m ⟨l₁, at₁, held₁, entry⟩
  have placed : ∀ (m : Nat) (l₁ : Lease τ count), (leases ++ [l])[m]? = some l₁ →
      leases[m]? = some l₁ ∨ l₁ = l := by
    intro m l₁ at₁
    by_cases short : m < leases.length
    · exact .inl (by rwa [List.getElem?_append_left short] at at₁)
    · rw [List.getElem?_append_right (Nat.le_of_not_lt short), List.getElem?_singleton] at at₁
      split at at₁
      · exact .inr (Option.some.inj at₁).symm
      · cases at₁
  constructor
  case holder =>
    intro i
    simp only [held_append]
    by_cases here : i = l.entry
    · subst here
      simp [busy, phase]
    · rw [Function.update_of_ne here, holding.holder i]
      constructor
      · rintro ⟨m, has⟩
        exact ⟨m, .inl has⟩
      · rintro ⟨m, has | ⟨-, -, entry⟩⟩
        · exact ⟨m, has⟩
        · exact absurd entry.symm here
  case unique =>
    intro i m m' has has'
    rw [held_append] at has has'
    rcases has with has | ⟨rfl, -, entry⟩ <;> rcases has' with has' | ⟨rfl, -, entry'⟩
    · exact holding.unique i m m' has has'
    · exact absurd (entry' ▸ has) (untaken m)
    · exact absurd (entry ▸ has') (untaken m')
    · rfl
  case idle =>
    intro i
    by_cases here : i = l.entry
    · subst here
      rw [Function.update_self, busy]
      simp
    · rw [Function.update_of_ne here]
      exact holding.idle i
  case whole =>
    intro i
    by_cases here : i = l.entry
    · subst here
      rw [Function.update_self]
      exact whole
    · rw [Function.update_of_ne here]
      exact holding.whole i
  case opening =>
    intro m l₁ at₁ phase₁
    rcases placed m l₁ at₁ with old | rfl
    · rw [Function.update_of_ne (others m l₁ old (by simp [phase₁]))]
      exact holding.opening m l₁ old phase₁
    · rw [Function.update_self]
      exact opening
  case active =>
    intro m l₁ at₁ phase₁
    rcases placed m l₁ at₁ with old | rfl
    · rw [Function.update_of_ne (others m l₁ old (by simp [phase₁]))]
      exact holding.active m l₁ old phase₁
    · rw [phase] at phase₁
      cases phase₁

end Holding

namespace Listing
variable {entries : Fin count → Entry τ} {index : List (Nat × LiveFrontier τ count)} {next : Nat}
  {i : Fin count} {e : Entry τ}

/-- The record of an entry leaves the index with it. -/
theorem unlist (listing : Listing entries index next) (unlisted : e.live = none)
    (kept : e.busy = true ∨ e.slot.live = false) :
    Listing (Function.update entries i e)
      (index.filter fun r => some r.1 ≠ (entries i).live) next := by
  constructor
  case recorded =>
    intro r mem
    simp only [List.mem_filter, decide_eq_true_eq] at mem
    have lists := listing.recorded r mem.1
    have elsewhere : r.2.location.slot ≠ i := by
      rintro rfl
      exact mem.2 lists.live.symm
    rw [Function.update_of_ne elsewhere]
    exact lists
  case listed =>
    intro j id live
    by_cases here : j = i
    · subst here
      rw [Function.update_self, unlisted] at live
      cases live
    · rw [Function.update_of_ne here] at live
      obtain ⟨r, mem, rfl, slot⟩ := listing.listed j id live
      refine ⟨r, ?_, rfl, slot⟩
      simp only [List.mem_filter, decide_eq_true_eq]
      refine ⟨mem, fun same => here ?_⟩
      exact listing.distinct j i r.1 live same.symm
  case fresh =>
    intro j id live
    by_cases here : j = i
    · subst here
      rw [Function.update_self, unlisted] at live
      cases live
    · rw [Function.update_of_ne here] at live
      exact listing.fresh j id live
  case distinct =>
    intro j j' id live live'
    by_cases here : j = i
    · subst here
      rw [Function.update_self, unlisted] at live
      cases live
    · by_cases here' : j' = i
      · subst here'
        rw [Function.update_self, unlisted] at live'
        cases live'
      · rw [Function.update_of_ne here] at live
        rw [Function.update_of_ne here'] at live'
        exact listing.distinct j j' id live live'
  case frontier =>
    intro j
    by_cases here : j = i
    · subst here
      rw [Function.update_self, unlisted]
      rcases kept with busy | dead
      · simp [busy]
      · simp [dead]
    · rw [Function.update_of_ne here]
      exact listing.frontier j

/-- A step of a lease changes nothing that the index lists. -/
theorem turn (listing : Listing entries index next) (hidden : (entries i).live = none)
    (unlisted : e.live = none) (kept : e.busy = true ∨ e.slot.live = false) :
    Listing (Function.update entries i e) index next := by
  have same : (index.filter fun r => some r.1 ≠ (entries i).live) = index := by
    rw [hidden]
    exact List.filter_eq_self.mpr fun r _ => by simp
  have := listing.unlist (i := i) unlisted kept
  rwa [same] at this

/-- A committed frontier joins the index. -/
theorem add (listing : Listing entries index next) (hidden : (entries i).live = none)
    (live : e.live = some next) (free : e.busy = false) (slot : e.slot.live = true) :
    Listing (Function.update entries i e)
      (index ++ [(next, { location := { slot := i, generation := e.slot.generation },
                          tokens := e.slot.tokens })]) (next + 1) := by
  constructor
  case recorded =>
    intro r mem
    rcases List.mem_append.mp mem with old | new
    · have lists := listing.recorded r old
      have elsewhere : r.2.location.slot ≠ i := by
        rintro rfl
        cases hidden.symm.trans lists.live
      rw [Function.update_of_ne elsewhere]
      exact lists
    · rw [List.mem_singleton.mp new]
      simp only [Function.update_self]
      exact ⟨live, rfl, rfl⟩
  case listed =>
    intro j id at_
    by_cases here : j = i
    · subst here
      rw [Function.update_self, live] at at_
      cases at_
      exact ⟨_, List.mem_append_right _ List.mem_cons_self, rfl, rfl⟩
    · rw [Function.update_of_ne here] at at_
      obtain ⟨r, mem, id, slot⟩ := listing.listed j id at_
      exact ⟨r, List.mem_append_left _ mem, id, slot⟩
  case fresh =>
    intro j id at_
    by_cases here : j = i
    · subst here
      rw [Function.update_self, live] at at_
      cases at_
      exact Nat.lt_succ_self _
    · rw [Function.update_of_ne here] at at_
      exact Nat.lt_succ_of_lt (listing.fresh j id at_)
  case distinct =>
    -- an older number is smaller than the new one
    have older : ∀ j, j ≠ i → (entries j).live ≠ some next := by
      intro j _ at_
      exact Nat.lt_irrefl _ (listing.fresh j next at_)
    intro j j' id at_ at'
    by_cases here : j = i <;> by_cases here' : j' = i
    · rw [here, here']
    · rw [here, Function.update_self, live] at at_
      cases at_
      rw [Function.update_of_ne here'] at at'
      exact absurd at' (older j' here')
    · rw [here', Function.update_self, live] at at'
      cases at'
      rw [Function.update_of_ne here] at at_
      exact absurd at_ (older j here)
    · rw [Function.update_of_ne here] at at_
      rw [Function.update_of_ne here'] at at'
      exact listing.distinct j j' id at_ at'
  case frontier =>
    intro j
    by_cases here : j = i
    · subst here
      simp [live, free, slot]
    · rw [Function.update_of_ne here]
      exact listing.frontier j

end Listing

namespace Inv
variable {s : Cache τ count} {k : Nat} {l l' : Lease τ count} {e : Entry τ}

/-- An entry that a lease holds is busy, and the index does not list it. -/
theorem held_busy (inv : Inv s) (at_ : s.leases[k]? = some l) (held : l.phase ≠ .ended) :
    (s.entries l.entry).busy = true ∧ (s.entries l.entry).live = none := by
  have busy := (inv.holding.holder l.entry).mpr ⟨k, l, at_, held, rfl⟩
  refine ⟨busy, ?_⟩
  cases live : (s.entries l.entry).live with
  | none => rfl
  | some id =>
    have free := ((inv.listing.frontier l.entry).mp (by rw [live]; rfl)).1
    rw [busy] at free
    cases free

/-- A step of the lease `k` that touches its entry only. -/
theorem turn (inv : Inv s) (at_ : s.leases[k]? = some l) (held : l.phase ≠ .ended)
    (same : l'.entry = l.entry) (turn : Turn e l') (unlisted : e.live = none)
    (kept : e.busy = true ∨ e.slot.live = false) :
    Inv ((s.setEntry l.entry e).setLease k l') where
  holding := inv.holding.turn at_ held same turn
  listing := inv.listing.turn (inv.held_busy at_ held).2 unlisted kept

end Inv

end Gufo.Component
