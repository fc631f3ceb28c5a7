import Gufo.Component.Holding

/-!
# Leases over whole runs

What a returned lease starts from, and who holds its entry, in every run whose steps meet
`Safe`.
-/

namespace Gufo.Component
variable {τ : Type} {count : Nat}

/-! ## Slots -/

namespace Slot
variable {slot slot' : Slot τ} {live : Option Nat} {answer : Answer}

theorem acquire_some {generation : Nat}
    (h : slot.acquire (some generation) answer = (slot', true)) :
    slot' = { slot with leased := true } := by
  unfold acquire at h
  split at h
  · cases h
  · simp only at h
    split at h
    · cases h
      rfl
    · cases h

theorem acquire_none (h : slot.acquire none answer = (slot', true)) :
    slot'.Blank ∧ slot'.leased = true ∧ slot'.live = false := by
  unfold acquire at h
  split at h
  · cases h
  · cases answer with
    | acquired =>
      cases h
      exact ⟨⟨rfl, rfl, rfl⟩, rfl, rfl⟩
    | refused => cases h
    | lost => cases h

/-- A slot that is not acquired is idle, and holds no frontier unless it was refused. -/
theorem acquire_fails (idle : slot.leased = false) (kept : slot.live = true → answer ≠ .refused)
    (matches_ : ∀ generation ∈ live, slot.live = true ∧ generation = slot.generation)
    (h : slot.acquire live answer = (slot', false)) :
    slot'.leased = false ∧ slot'.live = false := by
  unfold acquire at h
  rw [if_neg (by simp [idle])] at h
  cases live with
  | some generation =>
    have here := matches_ generation rfl
    simp only at h
    rw [if_pos ⟨here.1, here.2, kept here.1⟩] at h
    cases h
  | none =>
    cases answer with
    | acquired => cases h
    | refused =>
      cases h
      refine ⟨idle, ?_⟩
      cases live : slot.live with
      | false => rfl
      | true => exact absurd rfl (kept live)
    | lost =>
      cases h
      exact ⟨idle, rfl⟩

end Slot

/-! ## Claims -/

/-- What `Acquire` has done when it leaves the lock. -/
structure Claimed (s s' : Cache τ count) (q : Query τ) (found : PrefixLookup τ count)
    (i : Fin count) (e : Entry τ) : Prop where
  free : (s.entries i).busy = false
  live : ∀ location ∈ s.selectLive found, location.slot = i
  busy : e.busy = true
  unlisted : e.live = none
  slot : e.slot = (s.entries i).slot
  history : e.history = (s.entries i).history
  entries : s'.entries = Function.update s.entries i e
  index : s'.index = s.index.filter fun r => some r.1 ≠ (s.entries i).live
  next : s'.nextEntry = s.nextEntry
  leases : s'.leases = s.leases ++
    [{ entry := i, prompt := q.tokens, found, live := s.selectLive found }]

theorem selectLive_some {s : Cache τ count} {found : PrefixLookup τ count}
    {location : Location count} (h : s.selectLive found = some location) :
    (s.entries location.slot).busy = false ∧
      ∃ c, found.selected = some c ∧ c.live = some location := by
  unfold Cache.selectLive at h
  split at h
  · cases h
  · rename_i c selected
    split at h
    · cases h
    · rename_i live
      split at h
      · cases h
      · rename_i free
        cases h
        exact ⟨by simpa using free, c, selected, live⟩

theorem claim_claimed [DecidableEq τ] {s s' : Cache τ count} {q : Query τ}
    {availability : Availability} {standing : Fin count → Cache.Standing}
    (h : s.claim q availability standing = some s') :
    ∃ i e, Claimed s s' q (s.lookup availability q) i e := by
  unfold Cache.claim at h
  split at h
  · cases h
  simp only at h
  split at h
  · cases h
  rename_i i chosen
  have free : (s.entries i).busy = false := by
    rcases Option.or_eq_some_iff.mp chosen with live | ⟨-, other⟩
    · obtain ⟨location, select, rfl⟩ := Option.map_eq_some_iff.mp live
      exact (selectLive_some select).1
    · exact choose_free other
  have same : ∀ location ∈ s.selectLive (s.lookup availability q), location.slot = i := by
    intro location select
    rw [Option.mem_def.mp select] at chosen
    exact Option.some.inj chosen
  cases h
  refine ⟨i, _, free, same, ?_, ?_, ?_, ?_, rfl, ?_, rfl, rfl⟩
  all_goals
    cases live : s.selectLive (s.lookup availability q) <;>
      cases listed : (s.entries i).live <;> first | rfl | simp

theorem claim_inv [DecidableEq τ] {s s' : Cache τ count} {q : Query τ}
    {availability : Availability} {standing : Fin count → Cache.Standing} (inv : Inv s)
    (h : s.claim q availability standing = some s') : Inv s' := by
  obtain ⟨i, e, claimed⟩ := claim_claimed h
  have sound := lookup_sound s availability q
  have opening : Opening e
      { entry := i, prompt := q.tokens, found := s.lookup availability q
        live := s.selectLive (s.lookup availability q) } := by
    refine ⟨?_, sound.candidates, ?_⟩
    · rw [claimed.slot]
      exact inv.holding.idle i claimed.free
    · intro location select
      obtain ⟨-, c, selected, live⟩ := selectLive_some select
      obtain ⟨r, mem, at_, tokens⟩ := sound.live c selected location live
      have here : r.2.location.slot = i := at_ ▸ claimed.live location select
      have lists := inv.listing.recorded r mem
      rw [here] at lists
      have frontier := (inv.listing.frontier i).mp (by rw [lists.live]; rfl)
      rw [claimed.slot]
      refine ⟨frontier.2, ?_, c, selected, ?_⟩
      · rw [← at_]
        exact lists.generation
      · rw [← lists.tokens]
        exact tokens
  constructor
  · rw [claimed.entries, claimed.leases]
    refine inv.holding.take claimed.free rfl claimed.busy opening ?_
    intro live idle
    rw [claimed.slot] at live idle
    obtain ⟨valid, history, at_, belongs⟩ := inv.holding.whole i live idle
    rw [claimed.slot]
    exact ⟨valid, history, claimed.history.trans at_, claimed.slot ▸ belongs⟩
  · rw [claimed.entries, claimed.index, claimed.next]
    exact inv.listing.unlist claimed.unlisted (.inl claimed.busy)

/-! ## Ends of a lease -/

section
variable {s : Cache τ count} {k : Nat} {l : Lease τ count}

theorem set_twice (i : Fin count) (e e' : Entry τ) (l' l'' : Lease τ count) :
    (((s.setEntry i e).setLease k l').setEntry i e').setLease k l'' =
      (s.setEntry i e').setLease k l'' := by
  simp [Cache.setEntry, Cache.setLease]

/-- The entry is free, without a frontier. -/
theorem Turn.ended {e : Entry τ} (free : e.busy = false) (idle : e.slot.leased = false)
    (dead : e.slot.live = false) (phase : l.phase = .ended) : Turn e l where
  busy := by simp [free, phase]
  idle := fun _ => idle
  whole := by simp [dead]
  opening := by simp [phase]
  active := by simp [phase]

theorem lease?_eq_some {phase : Phase} :
    s.lease? k phase = some l ↔ s.leases[k]? = some l ∧ l.phase = phase := by
  unfold Cache.lease?
  cases at_ : s.leases[k]? with
  | none => simp
  | some l₁ =>
    by_cases same : l₁.phase = phase
    · simp only [same, if_true, Option.some.injEq]
      constructor
      · rintro rfl
        exact ⟨rfl, same⟩
      · exact And.left
    · simp only [same, if_false, Option.some.injEq, reduceCtorEq, false_iff, not_and]
      rintro rfl
      exact same

theorem setLease_self (at_ : s.leases[k]? = some l) : s.setLease k l = s := by
  obtain ⟨short, rfl⟩ := List.getElem?_eq_some_iff.mp at_
  simp [Cache.setLease]

/-- `Lease::Invalidate`, whatever the lease did to its entry. -/
theorem invalidate_inv (inv : Inv s) (at_ : s.leases[k]? = some l) (held : l.phase ≠ .ended)
    (holds : l.holdsSlot = true) : Inv (s.invalidate k l true) := by
  have unlisted := (inv.held_busy at_ held).2
  unfold Cache.invalidate
  simp only [holds, if_true]
  exact inv.turn at_ held rfl (Turn.ended rfl rfl rfl rfl) unlisted (.inr rfl)

theorem run_inv (inv : Inv s) (at_ : s.leases[k]? = some l) (phase : l.phase = .active)
    (tokens : List τ) (valid : Bool) : Inv (s.run l tokens valid) := by
  have held : l.phase ≠ .ended := by simp [phase]
  obtain ⟨busy, unlisted⟩ := inv.held_busy at_ held
  obtain ⟨holdsSlot, leased, history, made, belongs⟩ := inv.holding.active k l at_ phase
  have turn : Turn { s.entries l.entry with
      slot := { (s.entries l.entry).slot with
        tokens := (s.entries l.entry).slot.tokens ++ tokens
        valid } } l :=
    { busy := by simp [busy, held]
      idle := by simp [busy]
      whole := by simp [leased]
      opening := by simp [phase]
      active := fun _ => ⟨holdsSlot, leased, history, made, belongs⟩ }
  have := inv.turn at_ held rfl turn unlisted (.inl busy)
  rwa [setLease_self (by exact at_)] at this

/-- `Lease::Commit` where the index takes what it commits. -/
theorem commit_inv (inv : Inv s) (at_ : s.leases[k]? = some l) (phase : l.phase = .active)
    (keep positions : Bool) : Inv (s.commit k l keep positions true true) := by
  have held : l.phase ≠ .ended := by simp [phase]
  obtain ⟨busy, unlisted⟩ := inv.held_busy at_ held
  have active := inv.holding.active k l at_ phase
  unfold Cache.commit
  simp only
  split
  · exact invalidate_inv inv at_ held active.holdsSlot
  · split
    · exact inv
    · split
      · exact inv
      · rename_i slot committed
        unfold Slot.commit at committed
        split at committed
        · rename_i valid
          cases committed
          refine ⟨inv.holding.turn at_ held rfl ?_, inv.listing.add unlisted rfl rfl rfl⟩
          exact {
            busy := by simp
            idle := fun _ => rfl
            whole := fun _ _ => ⟨valid, active.belongs⟩
            opening := by simp
            active := by simp }
        · cases committed

end

/-! ## Acquire, behind the lock -/

/-- What a returned lease says about its entry: the prompt up to `cached` is what the slot
holds, and its history is the live frontier's own, or that of what was loaded. -/
structure Truthful (before e : Entry τ) (l : Lease τ count) : Prop where
  holds : e.slot.tokens = l.prompt.take l.cached
  valid : e.slot.valid = true
  belongs : e.Belongs
  attached :
    (Cache.liveBoundary l = some l.cached ∧ e.slot.execution = before.slot.execution ∧
      e.history = before.history ∧ l.source = none ∧ l.diskHit = false) ∨
    Attached l.found.candidates e.history e.slot l.cached l.source l.diskHit

section
variable {s : Cache τ count} {k : Nat} {l : Lease τ count} {service : Service τ}

/-- No exception that the handlers do not undo. -/
structure Undone (e : Entry τ) (l : Lease τ count) (service : Service τ) : Prop where
  settles : service.Settles l.prompt.length l.found.candidates
  kept : e.slot.live = true → service.slot ≠ .refused
  detach : service.detach = true

theorem acquired_fresh {e : Entry τ} {slot : Slot τ} {answer : Answer} (opening : Opening e l)
    (whole : e.slot.live = true → e.slot.valid = true)
    (h : e.slot.acquire (l.live.map Location.generation) answer = (slot, true)) :
    slot.leased = true ∧ Fresh l.prompt (Cache.liveBoundary l)
      { slot, history := e.history, branch := e.branch, durable := e.durable } ∧
      (Cache.liveBoundary l ≠ none → e.slot.live = true ∧
        slot.execution = e.slot.execution) := by
  cases live : l.live with
  | none =>
    rw [live] at h
    obtain ⟨blank, leased, -⟩ := Slot.acquire_none h
    have none_ : Cache.liveBoundary l = none := by simp [Cache.liveBoundary, live]
    refine ⟨leased, ?_, fun some_ => absurd none_ some_⟩
    exact {
      restored := rfl
      clean := rfl
      cached := rfl
      source := rfl
      diskHit := rfl
      valid := blank.valid
      holds := by simp [none_]
      blank := fun _ => blank }
  | some location =>
    obtain ⟨lives, -, c, selected, tokens⟩ := opening.live location live
    have some_ : Cache.liveBoundary l = some c.boundary := by
      simp [Cache.liveBoundary, live, selected]
    rw [live] at h
    have := Slot.acquire_some h
    subst this
    refine ⟨rfl, ?_, fun _ => ⟨lives, rfl⟩⟩
    exact {
      restored := rfl
      clean := rfl
      cached := rfl
      source := rfl
      diskHit := rfl
      valid := whole lives
      holds := by
        intro boundary same
        rw [some_] at same
        cases same
        exact tokens
      blank := by simp [some_] }

/-- `Acquire` ends before there is a lease. -/
theorem refused_inv (inv : Inv s) (at_ : s.leases[k]? = some l) (held : l.phase ≠ .ended)
    {slot : Slot τ} (idle : slot.leased = false) (dead : slot.live = false) :
    Inv ((s.setEntry l.entry { s.entries l.entry with slot, busy := false }).setLease k
      { l with phase := .ended }) :=
  inv.turn at_ held rfl (Turn.ended rfl idle dead rfl) (inv.held_busy at_ held).2 (.inr dead)

theorem withProgress_lease (at_ : s.leases[k]? = some l) {p : Progress τ} {phase : Phase} :
    (s.withProgress k l p phase).leases[k]? = some { l with
      phase
      holdsSlot := true
      cached := p.cached
      source := p.source
      diskHit := p.diskHit } := by
  have short : k < s.leases.length := (List.getElem?_eq_some_iff.mp at_).1
  simp [Cache.withProgress, Cache.setLease, Cache.setEntry, short]

/-- An exception that leaves `Acquire` invalidates the lease. -/
theorem failed_inv (inv : Inv s) (at_ : s.leases[k]? = some l) (held : l.phase ≠ .ended)
    (p : Progress τ) {l' : Lease τ count}
    (new : (s.withProgress k l p .opening).leases[k]? = some l') :
    Inv ((s.withProgress k l p .opening).invalidate k l' true) := by
  rw [withProgress_lease at_] at new
  cases new
  have unlisted := (inv.held_busy at_ held).2
  unfold Cache.invalidate Cache.withProgress
  rw [set_twice]
  refine inv.turn at_ held rfl ?_ ?_ (.inr ?_)
  · apply Turn.ended <;> simp [Cache.setEntry, Cache.setLease, Slot.release, Slot.invalidate]
  · simp [Cache.setEntry, Cache.setLease, unlisted]
  · simp [Cache.setEntry, Cache.setLease, Slot.release, Slot.invalidate]

/-- How `Acquire` ends: without a slot or a lease, with a lease, or invalidating it. -/
inductive Opened (s : Cache τ count) (k : Nat) (l : Lease τ count) (service : Service τ) :
    Cache τ count → Prop where
  | refused (slot : Slot τ) (idle : slot.leased = false) (dead : slot.live = false) :
      Opened s k l service
        ((s.setEntry l.entry { s.entries l.entry with slot, busy := false }).setLease k
          { l with phase := .ended })
  | leased (slot : Slot τ) (p : Progress τ)
      (acquired : (s.entries l.entry).slot.acquire (l.live.map Location.generation) service.slot =
        (slot, true))
      (prepared : prepare service (s.entries l.entry).used l.prompt (Cache.liveBoundary l)
        l.found.candidates
        { slot
          history := (s.entries l.entry).history
          branch := (s.entries l.entry).branch
          durable := (s.entries l.entry).durable } = .ok p) :
      Opened s k l service (s.withProgress k l p .active)
  | failed (p : Progress τ) (l' : Lease τ count)
      (at_ : (s.withProgress k l p .opening).leases[k]? = some l') :
      Opened s k l service ((s.withProgress k l p .opening).invalidate k l' service.detach)

theorem openLease_opened (at_ : s.leases[k]? = some l) (opening : Opening (s.entries l.entry) l)
    (kept : (s.entries l.entry).slot.live = true → service.slot ≠ .refused) :
    Opened s k l service (s.openLease k l service) := by
  unfold Cache.openLease
  simp only
  split
  · rename_i slot acquired
    have matches_ : ∀ generation ∈ l.live.map Location.generation,
        (s.entries l.entry).slot.live = true ∧
          generation = (s.entries l.entry).slot.generation := by
      intro generation at_
      obtain ⟨location, live, rfl⟩ := Option.map_eq_some_iff.mp at_
      exact ⟨(opening.live location live).1, (opening.live location live).2.1⟩
    obtain ⟨idle, dead⟩ := Slot.acquire_fails opening.leased kept matches_ acquired
    exact .refused slot idle dead
  · rename_i slot acquired
    split
    · exact .refused _ rfl rfl
    · split
      · rename_i p prepared
        exact .leased slot p acquired prepared
      · rename_i p prepared
        rw [withProgress_lease at_]
        exact .failed p _ (withProgress_lease at_)

theorem Attached.made {candidates : List (Candidate τ count)} {history : Option History}
    {slot : Slot τ} {cached : Nat} {source : Option Nat} {diskHit : Bool}
    (attached : Attached candidates history slot cached source diskHit) :
    ∃ h, history = some h ∧ h.execution = slot.execution := by
  cases attached <;> exact ⟨_, rfl, rfl⟩

theorem leased_truthful (inv : Inv s) (at_ : s.leases[k]? = some l) (phase : l.phase = .opening)
    (settles : service.Settles l.prompt.length l.found.candidates) {slot : Slot τ} {p : Progress τ}
    (acquired : (s.entries l.entry).slot.acquire (l.live.map Location.generation) service.slot =
      (slot, true))
    (prepared : prepare service (s.entries l.entry).used l.prompt (Cache.liveBoundary l)
      l.found.candidates
      { slot
        history := (s.entries l.entry).history
        branch := (s.entries l.entry).branch
        durable := (s.entries l.entry).durable } = .ok p) :
    p.slot.leased = true ∧
      Truthful (s.entries l.entry) ((s.withProgress k l p .active).entries l.entry) { l with
        phase := .active
        holdsSlot := true
        cached := p.cached
        source := p.source
        diskHit := p.diskHit } := by
  have opening := inv.holding.opening k l at_ phase
  have whole := inv.holding.whole l.entry
  obtain ⟨leased, fresh, kept⟩ :=
    acquired_fresh opening (fun live => (whole live opening.leased).1) acquired
  have started := prepare_started fresh opening.sound settles prepared
  have entry : (s.withProgress k l p .active).entries l.entry = { s.entries l.entry with
      slot := p.slot
      history := p.history
      branch := p.branch
      durable := p.durable } := by
    simp [Cache.withProgress, Cache.setLease, Cache.setEntry]
  rw [entry]
  refine ⟨started.leased.trans leased, started.holds, started.valid, ?_, ?_⟩
  · rcases started.attached with live | loaded
    · obtain ⟨lives, execution⟩ := kept (by rw [live.live]; simp)
      obtain ⟨h, history, made⟩ := (whole lives opening.leased).2
      refine ⟨h, live.history.trans history, made.trans ?_⟩
      rw [live.slot]
      exact execution.symm
    · exact loaded.made
  · rcases started.attached with live | loaded
    · obtain ⟨-, execution⟩ := kept (by rw [live.live]; simp)
      left
      rw [live.slot]
      exact ⟨live.live, execution, live.history, live.source, live.diskHit⟩
    · exact .inr loaded

/-- Either the lease ends with a free entry, or it is active and truthful. -/
theorem openLease_inv (inv : Inv s) (at_ : s.leases[k]? = some l) (phase : l.phase = .opening)
    (undone : Undone (s.entries l.entry) l service) {s' : Cache τ count}
    (opened : Opened s k l service s') : Inv s' := by
  have held : l.phase ≠ .ended := by simp [phase]
  obtain ⟨busy, unlisted⟩ := inv.held_busy at_ held
  cases opened with
  | refused slot idle dead => exact refused_inv inv at_ held idle dead
  | leased slot p acquired prepared =>
    obtain ⟨leased, truthful⟩ :=
      leased_truthful inv at_ phase undone.settles acquired prepared
    refine inv.turn at_ held rfl ?_ unlisted (.inl busy)
    have entry : (s.withProgress k l p .active).entries l.entry = { s.entries l.entry with
        slot := p.slot
        history := p.history
        branch := p.branch
        durable := p.durable } := by
      simp [Cache.withProgress, Cache.setLease, Cache.setEntry]
    have belongs := truthful.belongs
    rw [entry] at belongs
    exact {
      busy := by simp [busy]
      idle := by simp [busy]
      whole := by simp [leased]
      opening := by simp
      active := fun _ => ⟨rfl, leased, belongs⟩ }
  | failed p l' new =>
    rw [undone.detach]
    exact failed_inv inv at_ held p new

/-- The lease that `Acquire` returns. -/
theorem opened_truthful (inv : Inv s) (at_ : s.leases[k]? = some l) (phase : l.phase = .opening)
    (settles : service.Settles l.prompt.length l.found.candidates) {s' : Cache τ count}
    (opened : Opened s k l service s') {l' : Lease τ count}
    (returned : s'.lease? k .active = some l') :
    l'.entry = l.entry ∧ l'.prompt = l.prompt ∧
      Truthful (s.entries l.entry) (s'.entries l'.entry) l' := by
  have short : k < s.leases.length := (List.getElem?_eq_some_iff.mp at_).1
  obtain ⟨at', active⟩ := lease?_eq_some.mp returned
  cases opened with
  | refused slot idle dead =>
    simp only [Cache.setLease, Cache.setEntry, List.getElem?_set_self short] at at'
    cases at'
    cases active
  | leased slot p acquired prepared =>
    rw [withProgress_lease at_] at at'
    cases at'
    exact ⟨rfl, rfl, (leased_truthful inv at_ phase settles acquired prepared).2⟩
  | failed p l₁ new =>
    have short₁ := (List.getElem?_eq_some_iff.mp new).1
    simp only [Cache.invalidate, Cache.setLease, Cache.setEntry] at at' short₁
    rw [List.getElem?_set_self short₁] at at'
    cases at'
    cases active

end

/-! ## Runs -/

/-- No call throws where its exception is not undone: between the load of a candidate and the
end of its block, in the reservation of a slot that still holds a frontier, in the index that
takes a committed frontier, or taking the cancellation check off. -/
def Safe (s : Cache τ count) : Action τ count → Prop
  | .open_ k service => ∀ l, s.lease? k .opening = some l → Undone (s.entries l.entry) l service
  | .commit _ _ _ insert detach => insert = true ∧ detach = true
  | .invalidate _ detach => detach = true
  | _ => True

section
variable [DecidableEq τ]

/-- The states of the runs whose steps are all allowed. -/
inductive Reachable (allowed : Cache τ count → Action τ count → Prop) : Cache τ count → Prop where
  | start : Reachable allowed {}
  | step {s s' : Cache τ count} {a : Action τ count} (before : Reachable allowed s)
      (may : allowed s a) (took : s.step a = some s') : Reachable allowed s'

theorem step_inv {s s' : Cache τ count} {a : Action τ count} (inv : Inv s) (safe : Safe s a)
    (took : s.step a = some s') : Inv s' := by
  cases a with
  | claim query availability standing => exact claim_inv inv took
  | store stored =>
    cases took
    exact ⟨inv.holding, inv.listing⟩
  | open_ k service =>
    obtain ⟨l, found, rfl⟩ := Option.map_eq_some_iff.mp took
    obtain ⟨at_, phase⟩ := lease?_eq_some.mp found
    have undone := safe l found
    have opening := inv.holding.opening k l at_ phase
    exact openLease_inv inv at_ phase undone (openLease_opened at_ opening undone.kept)
  | run k tokens valid =>
    obtain ⟨l, found, took⟩ := Option.bind_eq_some_iff.mp took
    obtain ⟨at_, phase⟩ := lease?_eq_some.mp found
    split at took
    · cases took
      exact run_inv inv at_ phase tokens valid
    · cases took
  | commit k keep positions insert detach =>
    obtain ⟨rfl, rfl⟩ := safe
    obtain ⟨l, found, rfl⟩ := Option.map_eq_some_iff.mp took
    obtain ⟨at_, phase⟩ := lease?_eq_some.mp found
    exact commit_inv inv at_ phase keep positions
  | invalidate k detach =>
    obtain ⟨l, found, rfl⟩ := Option.map_eq_some_iff.mp took
    obtain ⟨at_, phase⟩ := lease?_eq_some.mp found
    have active := inv.holding.active k l at_ phase
    cases safe
    exact invalidate_inv inv at_ (by simp [phase]) active.holdsSlot

theorem Reachable.inv {s : Cache τ count} (reach : Reachable Safe s) : Inv s := by
  induction reach with
  | start => exact inv_init
  | step before safe took ih => exact step_inv ih safe took

/-- In every run whose steps are all safe, an entry is busy exactly while one lease holds it,
the index lists a live frontier for it exactly while none does and its slot holds one, and
every lease that `Acquire` returns is truthful. -/
theorem leases_truthful {s : Cache τ count} (reach : Reachable Safe s) :
    (∀ i, (s.entries i).busy = true ↔ ∃! k, Held s.leases i k) ∧
    (∀ i, (∃ r ∈ s.index, r.2.location.slot = i ∧ Lists (s.entries i) r) ↔
      (∀ k, ¬Held s.leases i k) ∧ (s.entries i).slot.live = true) ∧
    (∀ r ∈ s.index, Lists (s.entries r.2.location.slot) r) ∧
    ∀ k service s', Safe s (.open_ k service) → s.step (.open_ k service) = some s' →
      ∀ l', s'.lease? k .active = some l' →
        Truthful (s.entries l'.entry) (s'.entries l'.entry) l' := by
  have inv := reach.inv
  refine ⟨?_, ?_, inv.listing.recorded, ?_⟩
  · intro i
    rw [inv.holding.holder i]
    constructor
    · rintro ⟨k, held⟩
      exact ⟨k, held, fun k' held' => inv.holding.unique i k' k held' held⟩
    · rintro ⟨k, held, -⟩
      exact ⟨k, held⟩
  · intro i
    have free : (∀ k, ¬Held s.leases i k) ↔ (s.entries i).busy = false := by
      rw [← not_exists, ← inv.holding.holder i, Bool.not_eq_true]
    rw [free, ← inv.listing.frontier i]
    constructor
    · rintro ⟨r, -, -, lists⟩
      rw [lists.live]
      rfl
    · intro live
      obtain ⟨id, at_⟩ := Option.isSome_iff_exists.mp live
      obtain ⟨r, mem, -, slot⟩ := inv.listing.listed i id at_
      exact ⟨r, mem, slot, slot ▸ inv.listing.recorded r mem⟩
  · intro k service s' safe took l' returned
    obtain ⟨l, found, rfl⟩ := Option.map_eq_some_iff.mp took
    obtain ⟨at_, phase⟩ := lease?_eq_some.mp found
    have undone := safe l found
    have opening := inv.holding.opening k l at_ phase
    obtain ⟨entry, -, truthful⟩ := opened_truthful inv at_ phase undone.settles
      (openLease_opened at_ opening undone.kept) returned
    rw [← entry] at truthful
    exact truthful

end

/-! ## Runs of one slot -/

theorem undone_default (e : Entry τ) (l : Lease τ count) : Undone e l {} where
  settles := by
    rintro k c - ⟨-, interrupted⟩
    split at interrupted <;> simp [Outcome.Unsettled] at interrupted
  kept := by simp
  detach := rfl

def onDisk : Stored Nat :=
  { entry := 9, tokens := [3, 4], durable := some { checkpoint := 7, tokens := [3, 4] } }

/-- A request for a prompt of which the disk holds the first two tokens. -/
def request : Action Nat 1 :=
  .claim { tokens := [3, 4, 5] } { parts := fun _ => some { disk := true } } fun _ => {}

def replay (s : Cache Nat 1) (actions : List (Action Nat 1)) : Cache Nat 1 :=
  actions.foldl (fun s a => (s.step a).getD s) s

def requested : Cache Nat 1 := replay {} [.store [onDisk], request]

theorem leases_truthful_requested : ∃ s' l', requested.step (.open_ 0 {}) = some s' ∧
    s'.lease? 0 .active = some l' ∧ l'.cached = 2 ∧
      Truthful (requested.entries 0) (s'.entries 0) l' := by
  have stored : Reachable Safe (replay {} [.store [onDisk]]) :=
    .step (a := .store [onDisk]) .start trivial rfl
  have reach : Reachable Safe requested := .step (a := request) stored trivial rfl
  refine ⟨_, _, rfl, rfl, rfl, ?_⟩
  exact (leases_truthful reach).2.2.2 0 {} _ (fun l _ => undone_default _ l) rfl _ rfl

/-- The same request after a conversation that has left its frontier and its history. -/
def followed : Cache Nat 1 :=
  replay {} [.claim { tokens := [1, 2] } {} fun _ => {}, .open_ 0 {}, .run 0 [1, 2] true,
    .commit 0 true true true true, .store [onDisk], request]

theorem reachable_replay {s : Cache Nat 1} (reach : Reachable (fun _ _ => True) s)
    (actions : List (Action Nat 1)) : Reachable (fun _ _ => True) (replay s actions) := by
  induction actions generalizing s with
  | nil => exact reach
  | cons a actions ih =>
    cases took : s.step a with
    | none => simpa [replay, took] using ih reach
    | some s' => simpa [replay, took] using ih (.step reach trivial took)

/-- The history of the manifest that is loaded cannot be made. -/
def unadopted : Service Nat := { outcome := fun _ => { adopt := false } }

def interrupted : Cache Nat 1 := replay followed [.open_ 1 unadopted]

/-- The lease keeps the history of the conversation before. -/
theorem stale_history_attached : ¬∀ s : Cache Nat 1, Reachable (fun _ _ => True) s →
    ∀ k service s', s.step (.open_ k service) = some s' →
      ∀ l', s'.lease? k .active = some l' →
        Truthful (s.entries l'.entry) (s'.entries l'.entry) l' := by
  intro truthful
  have reach := reachable_replay .start [.claim { tokens := [1, 2] } {} fun _ => {}, .open_ 0 {},
    .run 0 [1, 2] true, .commit 0 true true true true, .store [onDisk], request]
  have belongs : (interrupted.entries 0).Belongs :=
    (truthful followed reach 1 unadopted interrupted rfl _ rfl).belongs
  obtain ⟨h, history, made⟩ := belongs
  cases history
  exact absurd made (by decide)

end Gufo.Component
