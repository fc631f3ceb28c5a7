import Gufo.Component.Acquire
import Gufo.Lib.Outcome

/-!
# What a lease starts from

The history, the source and the number of cached tokens that the rest of `Acquire`
leaves behind, when no call after a load throws.
-/

namespace Gufo.Component
variable {τ : Type} {count : Nat}

/-! ## Interrupted candidates -/

/-- The restored frontier is asked whether it can be decoded, and that or its reset fails. -/
def Outcome.Unsettled (o : Outcome τ) (length : Nat) (c : Candidate τ count) : Prop :=
  length ≤ c.boundary ∧ (o.frontier = none ∨ o.frontier = some false ∧ o.reset = false)

/-- A call throws between the load of the candidate and the end of its block. -/
def Outcome.Interrupted (o : Outcome τ) (length : Nat) (c : Candidate τ count) : Prop :=
  o.load = .loaded ∧
    match c.checkpoint with
    | some _ => o.adopt = true ∧ (o.touch = false ∨ o.Unsettled length c)
    | none => o.adopt = false ∨ o.touch = false ∨ o.Unsettled length c

/-- An interrupted candidate ends the whole `Acquire`: the handler cannot reset the slot. -/
def Service.Settles (service : Service τ) (length : Nat) (candidates : List (Candidate τ count)) :
    Prop :=
  ∀ k c, candidates[k]? = some c → (service.outcome k).Interrupted length c →
    (service.outcome k).recover = false

/-! ## Attachments -/

/-- The history, made for the slot's execution and what it began from, with the tokens, the
source and the disk hit of the lease that got it. -/
inductive Attached (candidates : List (Candidate τ count)) :
    Option History → Slot τ → Nat → Option Nat → Bool → Prop where
  | cold (slot : Slot τ) (empty : slot.contents = .empty) :
      Attached candidates (some ⟨.cold, slot.execution⟩) slot 0 none false
  | restored {c : Candidate τ count} {k : Checkpoint τ} (slot : Slot τ) (mem : c ∈ candidates)
      (ram : c.checkpoint = some k) (loaded : slot.contents = .checkpoint k.id) :
      Attached candidates (some ⟨.restored k.id, slot.execution⟩) slot c.boundary (some k.id) false
  | restoredUnshared {c : Candidate τ count} {m : Manifest τ} (slot : Slot τ)
      (mem : c ∈ candidates) (unshared : c.checkpoint = none) (disk : c.durable = some m)
      (loaded : slot.contents = .manifest m.checkpoint) :
      Attached candidates (some ⟨.restoredUnshared, slot.execution⟩) slot c.boundary none true

/-- What a candidate restores is the prompt up to its boundary. -/
def Candidate.Sound (prompt : List τ) (c : Candidate τ count) : Prop :=
  (∀ k ∈ c.checkpoint, k.tokens = prompt.take c.boundary) ∧
    ∀ m ∈ c.durable, m.tokens = prompt.take c.boundary

/-- An execution that has not run. -/
structure Slot.Blank (slot : Slot τ) : Prop where
  tokens : slot.tokens = []
  valid : slot.valid = true
  contents : slot.contents = .empty

theorem Slot.reset_blank (slot : Slot τ) : slot.reset.Blank := ⟨rfl, rfl, rfl⟩

namespace Progress

/-- Nothing is attached, and a clean slot is blank. -/
structure Clear (p : Progress τ) : Prop where
  restored : p.restored = false
  cached : p.cached = 0
  source : p.source = none
  diskHit : p.diskHit = false
  clean : p.clean = true → p.slot.Blank

structure Done (prompt : List τ) (candidates : List (Candidate τ count)) (p : Progress τ) :
    Prop where
  restored : p.restored = true
  holds : p.slot.tokens = prompt.take p.cached
  valid : p.slot.valid = true
  attached : Attached candidates p.history p.slot p.cached p.source p.diskHit

/-- A candidate was given up, or it is what the lease starts from. -/
def Tried (prompt : List τ) (candidates : List (Candidate τ count)) (p p' : Progress τ) : Prop :=
  (p'.Clear ∨ p'.Done prompt candidates) ∧ p'.slot.leased = p.slot.leased

end Progress

section
variable {prompt : List τ} {candidates : List (Candidate τ count)} {o : Outcome τ}
  {c : Candidate τ count} {p p' : Progress τ}

/-- What a load leaves that did not throw: the candidate, or an empty slot. -/
structure Loaded (prompt : List τ) (candidates : List (Candidate τ count)) (c : Candidate τ count)
    (o : Outcome τ) (p : Progress τ) : Prop where
  loaded : o.load = .loaded
  adopt : o.adopt = true
  touch : o.touch = true
  restored : p.restored = true
  cached : p.cached = 0
  holds : p.slot.tokens = prompt.take c.boundary
  valid : p.slot.valid = true
  attached : Attached candidates p.history p.slot c.boundary p.source p.diskHit

theorem loadCandidate_ends (clear : p.Clear) (sound : c.Sound prompt) (mem : c ∈ candidates)
    (ends : loadCandidate o c p = (p', true)) :
    (p'.Clear ∨ Loaded prompt candidates c o p') ∧ p'.slot.leased = p.slot.leased := by
  unfold loadCandidate at ends
  cases ram : c.checkpoint with
  | some k =>
    simp only [ram, loadCheckpoint] at ends
    cases load : o.load with
    | refused => simp [load] at ends
    | failed left => simp [load] at ends
    | loaded =>
      simp only [load] at ends
      split at ends
      · simp at ends
      · rename_i adopt
        split at ends
        · simp at ends
        · rename_i touch
          simp only [Prod.mk.injEq, and_true] at ends
          subst ends
          refine ⟨.inr ?_, rfl⟩
          exact {
            loaded := load
            adopt := by simpa using adopt
            touch := by simpa using touch
            restored := rfl
            cached := clear.cached
            holds := sound.1 k ram
            valid := rfl
            attached := by
              rw [show (p.diskHit) = false from clear.diskHit]
              exact .restored _ mem ram rfl }
  | none =>
    cases disk : c.durable with
    | none =>
      simp only [ram, disk, Prod.mk.injEq, and_true] at ends
      subst ends
      exact ⟨.inl clear, rfl⟩
    | some m =>
      simp only [ram, disk, loadDurable] at ends
      cases load : o.load with
      | refused =>
        simp only [load, Prod.mk.injEq, and_true] at ends
        subst ends
        exact ⟨.inl ⟨clear.restored, clear.cached, clear.source, clear.diskHit, by simp⟩, rfl⟩
      | failed left => simp [load] at ends
      | loaded =>
        simp only [load] at ends
        split at ends
        · simp at ends
        · rename_i adopt
          simp only [Prod.mk.injEq] at ends
          obtain ⟨rfl, touch⟩ := ends
          refine ⟨.inr ?_, rfl⟩
          exact {
            loaded := load
            adopt := by simpa using adopt
            touch := touch
            restored := rfl
            cached := clear.cached
            holds := sound.2 m disk
            valid := rfl
            attached := by
              rw [show p.source = none from clear.source]
              exact .restoredUnshared _ mem ram disk rfl }

/-- Where the block of a candidate throws, nothing is attached unless it was interrupted. -/
structure Dropped (p p' : Progress τ) : Prop where
  restored : p'.restored = false
  cached : p'.cached = 0
  source : p'.source = none
  diskHit : p'.diskHit = false
  leased : p'.slot.leased = p.slot.leased

theorem Progress.Clear.dropped (clear : p.Clear) {slot : Slot τ} {clean : Bool}
    (leased : slot.leased = p.slot.leased) : Dropped p { p with slot, clean } :=
  ⟨clear.restored, clear.cached, clear.source, clear.diskHit, leased⟩

theorem loadCandidate_throws (clear : p.Clear) (calm : ¬o.Interrupted prompt.length c)
    (throws : loadCandidate o c p = (p', false)) : Dropped p p' := by
  unfold loadCandidate at throws
  cases ram : c.checkpoint with
  | some k =>
    simp only [ram, loadCheckpoint] at throws
    cases load : o.load with
    | refused =>
      simp only [load, Prod.mk.injEq, and_true] at throws
      subst throws
      exact clear.dropped rfl
    | failed left =>
      simp only [load, Prod.mk.injEq, and_true] at throws
      subst throws
      exact clear.dropped rfl
    | loaded =>
      simp only [load] at throws
      split at throws
      · simp only [Prod.mk.injEq, and_true] at throws
        subst throws
        exact clear.dropped rfl
      · rename_i adopt
        split at throws
        · rename_i touch
          refine absurd ⟨load, ?_⟩ calm
          simp only [ram]
          exact ⟨by simpa using adopt, .inl touch⟩
        · simp at throws
  | none =>
    cases disk : c.durable with
    | none => simp [ram, disk] at throws
    | some m =>
      simp only [ram, disk, loadDurable] at throws
      cases load : o.load with
      | refused => simp [load] at throws
      | failed left =>
        simp only [load, Prod.mk.injEq, and_true] at throws
        subst throws
        exact clear.dropped rfl
      | loaded =>
        simp only [load] at throws
        split at throws
        · rename_i adopt
          refine absurd ⟨load, ?_⟩ calm
          simp only [ram]
          exact .inl adopt
        · simp only [Prod.mk.injEq] at throws
          refine absurd ⟨load, ?_⟩ calm
          simp only [ram]
          exact .inr (.inl throws.2)

theorem settle_clear {length : Nat} (clear : p.Clear) : settle length o c p = (p, true) := by
  simp [settle, clear.restored]

theorem settle_ends (loaded : Loaded prompt candidates c o p)
    (ends : settle prompt.length o c p = (p', true)) : p.Tried prompt candidates p' := by
  have adopted : Progress.Done prompt candidates
      { p with cached := c.boundary, durable := c.durable.map Manifest.checkpoint } :=
    ⟨loaded.restored, loaded.holds, loaded.valid, loaded.attached⟩
  simp only [settle, if_neg (show ¬p.restored = false by simp [loaded.restored])] at ends
  split at ends
  · simp only [Prod.mk.injEq, and_true] at ends
    subst ends
    exact ⟨.inr adopted, rfl⟩
  · split at ends
    · simp at ends
    · simp only [Prod.mk.injEq, and_true] at ends
      subst ends
      exact ⟨.inr adopted, rfl⟩
    · split at ends
      · simp only [Prod.mk.injEq, and_true] at ends
        subst ends
        exact ⟨.inl ⟨rfl, loaded.cached, rfl, rfl, fun _ => Slot.reset_blank _⟩, rfl⟩
      · simp at ends

theorem settle_throws (loaded : Loaded prompt candidates c o p)
    (throws : settle prompt.length o c p = (p', false)) : o.Unsettled prompt.length c := by
  simp only [settle, if_neg (show ¬p.restored = false by simp [loaded.restored])] at throws
  split at throws
  · simp at throws
  · rename_i longer
    refine ⟨Nat.le_of_not_lt longer, ?_⟩
    split at throws
    · exact .inl ‹_›
    · simp at throws
    · split at throws
      · simp at throws
      · rename_i frontier reset
        exact .inr ⟨frontier, by simpa using reset⟩

theorem tryCandidate_ends (clear : p.Clear) (sound : c.Sound prompt) (mem : c ∈ candidates)
    (ends : tryCandidate prompt.length o c p = (p', true)) : p.Tried prompt candidates p' := by
  unfold tryCandidate at ends
  split at ends
  · rename_i p₁ load
    obtain ⟨clear₁ | loaded, leased⟩ := loadCandidate_ends clear sound mem load
    · rw [settle_clear clear₁] at ends
      simp only [Prod.mk.injEq, and_true] at ends
      subst ends
      exact ⟨.inl clear₁, leased⟩
    · obtain ⟨tried, leased'⟩ := settle_ends loaded ends
      exact ⟨tried, leased'.trans leased⟩
  · simp at ends

theorem tryCandidate_throws (clear : p.Clear) (sound : c.Sound prompt) (mem : c ∈ candidates)
    (calm : ¬o.Interrupted prompt.length c)
    (throws : tryCandidate prompt.length o c p = (p', false)) : Dropped p p' := by
  unfold tryCandidate at throws
  split at throws
  · rename_i p₁ load
    obtain ⟨clear₁ | loaded, leased⟩ := loadCandidate_ends clear sound mem load
    · rw [settle_clear clear₁] at throws
      simp at throws
    · have unsettled := settle_throws loaded throws
      refine absurd ⟨loaded.loaded, ?_⟩ calm
      split
      · exact ⟨loaded.adopt, .inr unsettled⟩
      · exact .inr (.inr unsettled)
  · rename_i p₁ load
    simp only [Prod.mk.injEq, and_true] at throws
    subst throws
    exact loadCandidate_throws clear calm load

/-- What became of a candidate whose block was not interrupted, or cannot be recovered. -/
theorem attempt_tried (clear : p.Clear) (sound : c.Sound prompt) (mem : c ∈ candidates)
    (settles : o.Interrupted prompt.length c → o.recover = false)
    (ended : attempt prompt.length o c p = .ok p') : p.Tried prompt candidates p' := by
  unfold attempt at ended
  split at ended
  · rename_i p₁ ends
    cases ended
    exact tryCandidate_ends clear sound mem ends
  · rename_i p₁ throws
    split at ended
    · rename_i recover
      cases ended
      have calm : ¬o.Interrupted prompt.length c := by
        intro interrupted
        rw [settles interrupted] at recover
        exact Bool.false_ne_true recover
      have dropped := tryCandidate_throws clear sound mem calm throws
      exact ⟨.inl ⟨dropped.restored, dropped.cached, dropped.source, dropped.diskHit,
        fun _ => Slot.reset_blank _⟩, dropped.leased⟩
    · cases ended

end

variable {service : Service τ}

/-- The loop over what is left of the candidates. -/
theorem attempts_tried {prompt : List τ}
    {candidates all : List (Candidate τ count)} {k : Nat} {p p' : Progress τ}
    (state : p.Clear ∨ p.Done prompt all) (sound : ∀ c ∈ candidates, c.Sound prompt)
    (mem : ∀ c ∈ candidates, c ∈ all)
    (settles : ∀ j c, candidates[j]? = some c →
      (service.outcome (k + j)).Interrupted prompt.length c →
        (service.outcome (k + j)).recover = false)
    (ended : attempts prompt.length service k candidates p = .ok p') : p.Tried prompt all p' := by
  induction candidates generalizing k p with
  | nil =>
    cases ended
    exact ⟨state, rfl⟩
  | cons c rest ih =>
    have later : ∀ j c', rest[j]? = some c' →
        (service.outcome (k + 1 + j)).Interrupted prompt.length c' →
          (service.outcome (k + 1 + j)).recover = false := by
      intro j c' at_
      have := settles (j + 1) c' (by simpa using at_)
      rwa [show k + (j + 1) = k + 1 + j by omega] at this
    have restSound : ∀ c ∈ rest, c.Sound prompt := fun c h => sound c (List.mem_cons_of_mem _ h)
    have restMem : ∀ c ∈ rest, c ∈ all := fun c h => mem c (List.mem_cons_of_mem _ h)
    simp only [attempts] at ended
    split at ended
    · cases ended
      exact ⟨state, rfl⟩
    · rename_i going
      split at ended
      · exact ih state restSound restMem later ended
      · have clear : p.Clear := by
          rcases state with clear | done
          · exact clear
          · exact absurd (.inl done.restored) going
        cases first : attempt prompt.length (service.outcome k) c p with
        | error p₁ => rw [first] at ended; cases ended
        | ok p₁ =>
          rw [first] at ended
          obtain ⟨tried, leased⟩ := attempt_tried clear (sound c List.mem_cons_self)
            (mem c List.mem_cons_self) (by simpa using settles 0 c rfl) first
          obtain ⟨result, leased'⟩ := ih tried restSound restMem later ended
          exact ⟨result, leased'.trans leased⟩

variable {candidates : List (Candidate τ count)}

theorem attempts_restored {length k : Nat}
    {p : Progress τ} (restored : p.restored = true) :
    attempts length service k candidates p = .ok p := by
  cases candidates with
  | nil => rfl
  | cons c rest => simp [attempts, restored]

/-! ## The whole preparation -/

/-- The live frontier and its own history, untouched. -/
structure Progress.Kept (live : Option Nat) (p p' : Progress τ) : Prop where
  live : live = some p'.cached
  slot : p'.slot = p.slot
  history : p'.history = p.history
  source : p'.source = none
  diskHit : p'.diskHit = false

/-- What `Acquire` prepares when it returns. -/
structure Started (prompt : List τ) (live : Option Nat) (candidates : List (Candidate τ count))
    (p p' : Progress τ) : Prop where
  holds : p'.slot.tokens = prompt.take p'.cached
  valid : p'.slot.valid = true
  leased : p'.slot.leased = p.slot.leased
  attached : p.Kept live p' ∨
    Attached candidates p'.history p'.slot p'.cached p'.source p'.diskHit

/-- The slot as it was acquired. -/
structure Fresh (prompt : List τ) (live : Option Nat) (p : Progress τ) : Prop where
  restored : p.restored = false
  clean : p.clean = false
  cached : p.cached = 0
  source : p.source = none
  diskHit : p.diskHit = false
  valid : p.slot.valid = true
  holds : ∀ boundary ∈ live, p.slot.tokens = prompt.take boundary
  blank : live = none → p.slot.Blank

theorem coldStart_started {prompt : List τ} {live : Option Nat}
    {p₀ p p' : Progress τ}
    (tried : p₀.Tried prompt candidates p) (ended : coldStart service p = .ok p') :
    Started prompt live candidates p₀ p' := by
  obtain ⟨clear | done, leased⟩ := tried
  · simp only [coldStart, clear.restored, Bool.false_eq_true, if_false] at ended
    split at ended
    · cases ended
    · split at ended
      · have slot : p'.slot.Blank ∧ p'.slot.leased = p.slot.leased ∧
            p'.cached = 0 ∧ p'.source = none ∧ p'.diskHit = false ∧
            p'.history = some ⟨.cold, p'.slot.execution⟩ := by
          cases clean : p.clean with
          | true =>
            simp only [clean, if_true] at ended
            cases ended
            exact ⟨clear.clean clean, rfl, clear.cached, clear.source, clear.diskHit, rfl⟩
          | false =>
            simp only [clean, Bool.false_eq_true, if_false] at ended
            cases ended
            exact ⟨Slot.reset_blank _, rfl, clear.cached, clear.source, clear.diskHit, rfl⟩
        obtain ⟨blank, same, cached, source, disk, history⟩ := slot
        refine ⟨by rw [blank.tokens, cached, List.take_zero], blank.valid, same.trans leased,
          .inr ?_⟩
        rw [history, cached, source, disk]
        exact .cold _ blank.contents
      · cases ended
  · simp only [coldStart, done.restored, if_true] at ended
    cases ended
    exact ⟨done.holds, done.valid, leased, .inr done.attached⟩

theorem prepare_started {prompt : List τ} {live : Option Nat}
    {used : Nat} {p p' : Progress τ}
    (fresh : Fresh prompt live p) (sound : ∀ c ∈ candidates, c.Sound prompt)
    (settles : service.Settles prompt.length candidates)
    (ended : prepare service used prompt live candidates p = .ok p') :
    Started prompt live candidates p p' := by
  unfold prepare at ended
  split at ended
  · cases ended
  obtain ⟨p₁, begun, ended⟩ := Outcome.bind_eq_ok.mp ended
  obtain ⟨p₂, tried, ended⟩ := Outcome.bind_eq_ok.mp ended
  obtain ⟨p₃, cold, ended⟩ := Outcome.bind_eq_ok.mp ended
  have last : p₃ = p' := by
    split at ended <;> cases ended
    rfl
  subst last
  have settles' : ∀ j c, candidates[j]? = some c →
      (service.outcome (0 + j)).Interrupted prompt.length c →
        (service.outcome (0 + j)).recover = false := by
    intro j c at_
    rw [Nat.zero_add]
    exact settles j c at_
  have fromClear : p₁.Clear → p₁.slot.leased = p.slot.leased →
      Started prompt live candidates p p₃ := by
    intro clear leased
    obtain ⟨result, leased'⟩ :=
      attempts_tried (.inl clear) sound (fun _ mem => mem) settles' tried
    exact coldStart_started ⟨result, leased'.trans leased⟩ cold
  have fromLive : ∀ boundary, live = some boundary →
      p₁ = { p with restored := true, cached := boundary } →
      Started prompt live candidates p p₃ := by
    rintro boundary rfl rfl
    rw [attempts_restored rfl] at tried
    cases tried
    cases cold
    exact ⟨fresh.holds _ rfl, fresh.valid, rfl, .inl ⟨rfl, rfl, rfl, fresh.source, fresh.diskHit⟩⟩
  cases reuse : live with
  | none =>
    rw [reuse] at begun
    cases begun
    rw [← reuse]
    exact fromClear ⟨fresh.restored, fresh.cached, fresh.source, fresh.diskHit,
      fun _ => fresh.blank reuse⟩ rfl
  | some boundary =>
    rw [← reuse]
    simp only [reuse, liveStart] at begun
    split at begun
    · cases begun
      exact fromLive boundary reuse rfl
    · split at begun
      · cases begun
      · cases begun
        exact fromLive boundary reuse rfl
      · cases begun
        refine fromClear ⟨fresh.restored, fresh.cached, fresh.source, fresh.diskHit, ?_⟩ rfl
        intro clean
        rw [fresh.clean] at clean
        exact absurd clean Bool.false_ne_true

end Gufo.Component
