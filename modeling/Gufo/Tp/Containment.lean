import Gufo.Tp.Spread

/-!
# A disagreement does not spread

A state's tag accounts for everything it holds: each contributor is the tagged request
or one it consumed. A request that builds on an unjudged producer depends on it, so its
wait for the verdicts covers all it consumed.
-/

namespace Gufo.Tp
open TpMirroredRunner

/-! ## What the calls of the runner change -/

/-- Two runners that differ in counts, ids and the failure only. -/
structure Same (r r' : TpMirroredRunner) : Prop where
  requests : ∀ s, (r'.requests s).isSome = (r.requests s).isSome
  leases : r'.leases = r.leases
  producers : r'.producers = r.producers
  unsettled : r'.unsettled = r.unsettled
  rejected : r'.rejected = r.rejected
  dependencies : r'.dependencies = r.dependencies

theorem Same.refl (r : TpMirroredRunner) : Same r r := ⟨fun _ => rfl, rfl, rfl, rfl, rfl, rfl⟩

theorem Same.trans {r r' r'' : TpMirroredRunner} (h : Same r r') (k : Same r' r'') :
    Same r r'' :=
  ⟨fun s => (k.requests s).trans (h.requests s), k.leases.trans h.leases,
    k.producers.trans h.producers, k.unsettled.trans h.unsettled, k.rejected.trans h.rejected,
    k.dependencies.trans h.dependencies⟩

theorem same_failure (r : TpMirroredRunner) (failure : String) :
    Same r { r with failure } := ⟨fun _ => rfl, rfl, rfl, rfl, rfl, rfl⟩

theorem same_countCall (r : TpMirroredRunner) (s : Sequence) : Same r (r.countCall s) where
  requests t := by
    by_cases same : t = s
    · subst same
      simp [countCall]
    · simp [countCall, same]
  leases := rfl
  producers := rfl
  unsettled := rfl
  rejected := rfl
  dependencies := rfl

theorem same_sendEnd {α : Type} (r : TpMirroredRunner) (what fallback : String) (a : α)
    (sent : Option String) : Same r (r.sendEnd what fallback a sent).1 := by
  cases sent with
  | none => exact .refl r
  | some error => exact same_failure r _

variable {r r' : TpMirroredRunner}

theorem sendEnd_ok {α : Type} {what fallback : String} {a b : α}
    {sent : Option String} (h : r.sendEnd what fallback a sent = (r', .ok b)) : b = a := by
  cases sent with
  | none =>
    simp only [sendEnd, Prod.mk.injEq, Except.ok.injEq] at h
    exact h.2.symm
  | some error => simp [sendEnd] at h

theorem same_drop (r : TpMirroredRunner) (sent : Option String) : Same r (r.drop sent) := by
  unfold drop
  split
  · exact .refl r
  · cases sent with
    | none => exact .refl r
    | some error => exact same_failure r _

theorem same_beginPersist (r : TpMirroredRunner) (producer : Sequence) (sent : Option String) :
    Same r (r.beginPersist producer sent).1 := by
  unfold beginPersist
  split
  · exact .refl r
  split
  · exact .refl r
  · cases sent with
    | none => exact .refl r
    | some error => exact same_failure r _

theorem same_beginCapture (r : TpMirroredRunner) (state : StateId) :
    Same r (r.beginCapture state).1 := by
  unfold beginCapture
  split
  · exact .refl r
  · exact ⟨fun _ => rfl, rfl, rfl, rfl, rfl, rfl⟩

/-- A state is tagged with the request it is leased to. -/
def produce (r : TpMirroredRunner) (state : StateId) (s : Sequence) : TpMirroredRunner :=
  { r with producers := Function.update r.producers state (some s) }

theorem same_produce (h : Same r r') (state : StateId) (s : Sequence) :
    Same (produce r state s) (produce r' state s) :=
  ⟨h.requests, h.leases, by simp [produce, h.producers], h.unsettled, h.rejected,
    h.dependencies⟩

theorem send_spec (r : TpMirroredRunner) (state : StateId) (sent : Option String) :
    ((∃ message, (r.send state sent).2 = .error message) ∧ Same r (r.send state sent).1) ∨
      ∃ s, r.leases state = some s ∧ Same (produce r state s) (r.send state sent).1 ∧
        ∀ t, (r.send state sent).2 = .ok t → t = s := by
  unfold send
  split
  · exact .inl ⟨⟨_, rfl⟩, .refl r⟩
  · split
    · exact .inl ⟨⟨_, rfl⟩, .refl r⟩
    · rename_i s leased
      exact .inr ⟨s, leased, (same_produce (same_countCall r s) state s).trans
        (same_sendEnd _ _ _ _ _), fun t ok => sendEnd_ok (Prod.ext rfl ok)⟩

/-- Each state of a batch is tagged with its request. -/
def produceAll (r : TpMirroredRunner) : List (StateId × Sequence) → TpMirroredRunner
  | [] => r
  | (state, s) :: rest => produceAll (produce r state s) rest

theorem same_produceAll (h : Same r r')
    (members : List (StateId × Sequence)) : Same (produceAll r members) (produceAll r' members) := by
  induction members generalizing r r' with
  | nil => exact h
  | cons member rest ih => exact ih (same_produce h member.1 member.2)

theorem same_recordBatch (r : TpMirroredRunner) (members : List (StateId × Sequence)) :
    Same (produceAll r members) (r.recordBatch members) := by
  induction members generalizing r with
  | nil => exact .refl r
  | cons member rest ih =>
    have counted := same_produce (same_countCall r member.2) member.1 member.2
    exact (same_produceAll counted rest).trans (ih _)

variable {members : List (StateId × Sequence)}

theorem leases_of_mapM {r : TpMirroredRunner} {states : List StateId}
    (h : states.mapM (fun state => (r.leases state).map (state, ·)) = some members) :
    ∀ member ∈ members, r.leases member.1 = some member.2 := by
  induction states generalizing members with
  | nil =>
    simp only [List.mapM_nil, pure, Option.some.injEq] at h
    subst h
    simp
  | cons state rest ih =>
    simp only [List.mapM_cons, bind, Option.bind_eq_some_iff, Option.map_eq_some_iff, pure,
      Option.some.injEq] at h
    obtain ⟨_, ⟨s, leased, rfl⟩, others, found, rfl⟩ := h
    intro member among
    rcases List.mem_cons.mp among with rfl | later
    · exact leased
    · exact ih found member later

theorem sendBatch_spec (r : TpMirroredRunner) (states : List StateId) (sent : Option String) :
    ((∃ message, (r.sendBatch states sent).2 = .error message) ∧
        Same r (r.sendBatch states sent).1) ∨
      ∃ members, (∀ member ∈ members, r.leases member.1 = some member.2) ∧
        Same (produceAll r members) (r.sendBatch states sent).1 ∧
        ∀ t, (r.sendBatch states sent).2 = .ok t → t = members := by
  unfold sendBatch
  split
  · exact .inl ⟨⟨_, rfl⟩, .refl r⟩
  · split
    · exact .inl ⟨⟨_, rfl⟩, .refl r⟩
    · rename_i members found
      exact .inr ⟨members, leases_of_mapM found, (same_recordBatch r members).trans
        (same_sendEnd _ _ _ _ _), fun t ok => sendEnd_ok (Prod.ext rfl ok)⟩

theorem cacheCall_spec (r : TpMirroredRunner) (state : StateId) (capture : Bool) :
    ((∃ message, (r.cacheCall state capture).2 = .error message) ∧
        Same r (r.cacheCall state capture).1) ∨
      ∃ s, r.leases state = some s ∧ (r.cacheCall state capture).2 = .ok s ∧
        Same (if capture then r else produce r state s) (r.cacheCall state capture).1 := by
  unfold cacheCall
  split
  · exact .inl ⟨⟨_, rfl⟩, .refl r⟩
  · rename_i s leased
    split
    · exact .inl ⟨⟨_, rfl⟩, .refl r⟩
    · refine .inr ⟨s, leased, rfl, ?_⟩
      cases capture with
      | true => exact same_countCall r s
      | false => exact same_produce (same_countCall r s) state s

theorem endRequest_spec (r : TpMirroredRunner) (s : Sequence) (sent : Option String) :
    Same r (r.endRequest s sent).1 ∨ Same (r.release s) (r.endRequest s sent).1 := by
  unfold endRequest
  split
  · exact .inl (.refl r)
  · right
    dsimp only
    split
    · exact .refl _
    split
    · exact .refl _
    · exact same_sendEnd _ _ _ _ _

/-- The tag of a state is gone. -/
def untag (r : TpMirroredRunner) (state : StateId) : TpMirroredRunner :=
  { r with producers := Function.update r.producers state none }

theorem sendInvalidate_spec (r : TpMirroredRunner) (state : StateId) (sent : Option String) :
    Same r (r.sendInvalidate state sent) ∨ Same (untag r state) (r.sendInvalidate state sent) := by
  unfold sendInvalidate
  split
  · exact .inl (.refl r)
  · right
    split
    · exact same_sendEnd (untag r state) _ _ _ _
    · rename_i s leased
      have counted : Same (untag r state) (untag (r.countCall s) state) := by
        have c := same_countCall r s
        exact ⟨c.requests, c.leases, rfl, c.unsettled, c.rejected, c.dependencies⟩
      exact counted.trans (same_sendEnd (untag (r.countCall s) state) _ _ _ _)

/-- The state is leased to nobody. -/
def unlease (r : TpMirroredRunner) (state : StateId) : TpMirroredRunner :=
  { r with leases := Function.update r.leases state none }

theorem releaseContext_spec (r : TpMirroredRunner) (state : StateId) (sent : Option String) :
    Same r (r.setPromptContext state none sent).1 ∨
      Same (unlease r state) (r.setPromptContext state none sent).1 := by
  unfold setPromptContext
  split
  · exact .inl (.refl r)
  · exact .inr (same_sendEnd (unlease r state) _ _ _ _)

/-- The request depends on the producer a state is tagged with. -/
def dependOnTag (r : TpMirroredRunner) (state : StateId) (s : Sequence) : TpMirroredRunner :=
  match r.producers state with
  | none => r
  | some producer => r.dependOn s producer

/-- The state is leased to the request. -/
def leaseTo (r : TpMirroredRunner) (state : StateId) (s : Sequence) : TpMirroredRunner :=
  { r with leases := Function.update r.leases state (some s) }

theorem setPromptContext_spec (r : TpMirroredRunner) (state : StateId) (s : Sequence)
    (sent : Option String) :
    (¬(r.failure = "" ∧ (r.requests s).isSome = true) ∧
        Same r (r.setPromptContext state (some s) sent).1) ∨
      (r.failure = "" ∧ (r.requests s).isSome = true) ∧
        Same (dependOnTag (leaseTo r state s) state s)
          (r.setPromptContext state (some s) sent).1 := by
  unfold setPromptContext
  split
  · rename_i failed
    exact .inl ⟨fun both => failed both.1, .refl r⟩
  · rename_i works
    simp only [ne_eq, not_not] at works
    dsimp only
    split
    · rename_i closed
      refine .inl ⟨fun both => ?_, .refl r⟩
      rw [Option.isNone_iff_eq_none] at closed
      simp [closed] at both
    · rename_i opened
      refine .inr ⟨⟨works, by simpa [Option.isSome_iff_ne_none] using opened⟩, ?_⟩
      exact (same_countCall _ s).trans (same_sendEnd _ _ _ _ _)

/-! ## The invariant -/

/-- Every contributor is the request or one it consumed. -/
def World.Within (w : World) (content : List Sequence) (s : Sequence) : Prop :=
  ∀ q ∈ content, q = s ∨ q ∈ w.consumed s

/-- A kept state is accounted for by its producer; without one it holds nothing. -/
def World.Accounted (w : World) (kept : Kept) : Prop :=
  (kept.producer = 0 → kept.content = []) ∧
    (kept.producer ≠ 0 → w.begun kept.producer = true ∧ w.Within kept.content kept.producer)

/-- A contributor to what a request consumed is covered: the request itself, an agreed
one, or one its dependencies answer for. -/
def World.Covered (w : World) (s q : Sequence) : Prop :=
  q = s ∨ w.agreed q = true ∨ ∃ p ∈ w.runner.dependencies s, q = p ∨ q ∈ w.consumed p

structure Invariant (w : World) : Prop where
  named : ∀ s, w.begun s = true → s ≠ 0
  opened : ∀ s, (w.runner.requests s).isSome = true → w.runner.unsettled s = true
  judged : ∀ s, w.begun s = true →
    w.runner.unsettled s = true ∨ w.agreed s = true ∨ w.runner.rejected s = true
  agreed : ∀ s, w.agreed s = true →
    w.begun s = true ∧ w.runner.unsettled s = false ∧ w.runner.rejected s = false
  rejected : ∀ s, w.runner.rejected s = true → w.runner.unsettled s = false
  unsettled : ∀ s, w.runner.unsettled s = true → w.begun s = true
  fresh : ∀ s, w.begun s = false →
    w.consumed s = [] ∧ w.runner.dependencies s = [] ∧ w.awaited s = none
  lease : ∀ state s, w.runner.leases state = some s → (w.runner.requests s).isSome = true
  own : ∀ state s, w.runner.leases state = some s → w.Within (w.content state) s
  tag : ∀ state p, w.runner.producers state = some p →
    w.begun p = true ∧ w.Within (w.content state) p
  blank : ∀ state, w.runner.producers state = none → w.content state = []
  snapshot : ∀ id kept, w.snapshots id = some kept → w.Accounted kept
  file : ∀ kept ∈ w.files, w.Accounted kept
  capture : ∀ state id p, w.pending = some (.capture state id p) →
    (w.runner.producers state).getD 0 = p
  restore : ∀ state content, w.pending = some (.restore state content) →
    ∀ s, w.runner.leases state = some s → ∀ q ∈ content, q ∈ w.consumed s
  depended : ∀ s, ∀ p ∈ w.runner.dependencies s, w.begun p = true
  built : ∀ s, w.runner.unsettled s = true → ∀ q ∈ w.consumed s, w.Covered s q
  clean : ∀ s, w.agreed s = true → ∀ q ∈ w.consumed s, q = s ∨ w.agreed q = true
  waited : ∀ s, w.awaited s = some true → (w.runner.requests s).isSome = false ∧
    ∀ q ∈ w.consumed s, q = s ∨ w.agreed q = true

theorem invariant_start : Invariant {} := by
  constructor <;> simp

section
variable {w : World} {r : TpMirroredRunner}

/-- The invariant reads nothing of a runner that `Same` lets differ. -/
theorem Invariant.congr (h : Invariant w) (same : Same w.runner r) :
    Invariant { w with runner := r } := by
  obtain ⟨requests, leases, producers, unsettled, rejected, dependencies⟩ := same
  constructor
  · exact h.named
  · intro s
    rw [requests, unsettled]
    exact h.opened s
  · intro s
    rw [unsettled, rejected]
    exact h.judged s
  · intro s
    rw [unsettled, rejected]
    exact h.agreed s
  · intro s
    rw [unsettled, rejected]
    exact h.rejected s
  · intro s
    rw [unsettled]
    exact h.unsettled s
  · intro s
    rw [dependencies]
    exact h.fresh s
  · intro state s
    rw [leases, requests]
    exact h.lease state s
  · intro state s
    rw [leases]
    exact h.own state s
  · intro state p
    rw [producers]
    exact h.tag state p
  · intro state
    rw [producers]
    exact h.blank state
  · exact h.snapshot
  · exact h.file
  · intro state id p
    rw [producers]
    exact h.capture state id p
  · intro state content pending s
    rw [leases]
    exact h.restore state content pending s
  · intro s
    rw [dependencies]
    exact h.depended s
  · intro s
    simp only [World.Covered]
    rw [unsettled, dependencies]
    exact h.built s
  · exact h.clean
  · intro s
    rw [requests]
    exact h.waited s

/-- The call that took the channel is over. -/
theorem Invariant.finish (h : Invariant w) : Invariant { w with pending := none } :=
  { h with
    capture := fun _ _ _ pending => by simp at pending
    restore := fun _ _ pending => by simp at pending }

variable {s : Sequence}

theorem Invariant.produce (h : Invariant w) (idle : w.pending = none) {state : StateId}
    (leased : w.runner.leases state = some s) :
    Invariant { w with runner := produce w.runner state s } :=
  { h with
    tag := by
      intro other p tagged
      simp only [Tp.produce, Function.update_apply] at tagged
      split at tagged
      · rename_i same
        obtain rfl := Option.some.inj tagged
        subst same
        exact ⟨h.unsettled _ (h.opened _ (h.lease _ _ leased)), h.own _ _ leased⟩
      · exact h.tag other p tagged
    blank := by
      intro other none
      simp only [Tp.produce, Function.update_apply] at none
      split at none
      · simp at none
      · exact h.blank other none
    capture := fun _ _ _ pending => by simp [idle] at pending }

theorem hold_same (state : StateId) (content : List Sequence) :
    (w.hold state content).content state = content := by simp [World.hold]

theorem hold_other {state other : StateId} (content : List Sequence) (different : other ≠ state) :
    (w.hold state content).content other = w.content other := by simp [World.hold, different]

variable {content : List Sequence}

/-- The request a state is leased to and tagged with has changed it. -/
theorem Invariant.hold (h : Invariant w) {state : StateId}
    (leased : w.runner.leases state = some s) (tagged : w.runner.producers state = some s)
    (within : w.Within content s) : Invariant (w.hold state content) :=
  { h with
    own := by
      intro other t (held : w.runner.leases other = some t)
      by_cases same : other = state
      · subst same
        rw [leased] at held
        obtain rfl := Option.some.inj held
        rwa [hold_same]
      · rw [hold_other content same]
        exact h.own other t held
    tag := by
      intro other t (held : w.runner.producers other = some t)
      by_cases same : other = state
      · subst same
        rw [tagged] at held
        obtain rfl := Option.some.inj held
        rw [hold_same]
        exact ⟨(h.tag other s tagged).1, within⟩
      · rw [hold_other content same]
        exact h.tag other t held
    blank := by
      intro other (untagged : w.runner.producers other = none)
      have different : other ≠ state := by
        rintro rfl
        rw [tagged] at untagged
        simp at untagged
      rw [hold_other content different]
      exact h.blank other untagged }

theorem within_nil (s : Sequence) : w.Within [] s := fun _ nothing => by simp at nothing

/-- A reset leaves no contributors. -/
theorem Invariant.reset (h : Invariant w) (state : StateId) : Invariant (w.hold state []) :=
  { h with
    own := by
      intro other t (held : w.runner.leases other = some t)
      by_cases same : other = state
      · rw [same, hold_same]
        exact within_nil t
      · rw [hold_other [] same]
        exact h.own other t held
    tag := by
      intro other t (held : w.runner.producers other = some t)
      refine ⟨(h.tag other t held).1, ?_⟩
      by_cases same : other = state
      · rw [same, hold_same]
        exact within_nil t
      · rw [hold_other [] same]
        exact (h.tag other t held).2
    blank := by
      intro other (untagged : w.runner.producers other = none)
      by_cases same : other = state
      · rw [same, hold_same]
      · rw [hold_other [] same]
        exact h.blank other untagged }

theorem Invariant.untag (h : Invariant w) (idle : w.pending = none) {state : StateId}
    (blank : w.content state = []) : Invariant { w with runner := untag w.runner state } :=
  { h with
    tag := by
      intro other p tagged
      simp only [Tp.untag, Function.update_apply] at tagged
      split at tagged
      · simp at tagged
      · exact h.tag other p tagged
    blank := by
      intro other none
      simp only [Tp.untag, Function.update_apply] at none
      split at none
      · rename_i same
        rw [same]
        exact blank
      · exact h.blank other none
    capture := fun _ _ _ pending => by simp [idle] at pending }

theorem Invariant.unlease (h : Invariant w) (state : StateId) :
    Invariant { w with runner := unlease w.runner state } := by
  have fewer : ∀ other s, (Tp.unlease w.runner state).leases other = some s →
      w.runner.leases other = some s := by
    intro other s leased
    simp only [Tp.unlease, Function.update_apply] at leased
    split at leased
    · simp at leased
    · exact leased
  exact
    { h with
      lease := fun other s leased => h.lease other s (fewer other s leased)
      own := fun other s leased => h.own other s (fewer other s leased)
      restore := fun other content pending s leased =>
        h.restore other content pending s (fewer other s leased) }

theorem Invariant.release (h : Invariant w) (s : Sequence) :
    Invariant { w with runner := w.runner.release s } := by
  have fewer : ∀ other t, (w.runner.release s).leases other = some t →
      w.runner.leases other = some t ∧ t ≠ s := by
    intro other t leased
    simp only [TpMirroredRunner.release] at leased
    split at leased
    · simp at leased
    · rename_i different
      refine ⟨leased, ?_⟩
      rintro rfl
      exact different leased
  have closed : ∀ t, ((w.runner.release s).requests t).isSome = true →
      (w.runner.requests t).isSome = true := by
    intro t opened
    simp only [TpMirroredRunner.release, Function.update_apply] at opened
    split at opened
    · simp at opened
    · exact opened
  exact
    { h with
      opened := fun t opened => h.opened t (closed t opened)
      lease := by
        intro other t leased
        obtain ⟨leased, different⟩ := fewer other t leased
        simpa [TpMirroredRunner.release, different] using h.lease other t leased
      own := fun other t leased => h.own other t (fewer other t leased).1
      restore := fun other content pending t leased =>
        h.restore other content pending t (fewer other t leased).1
      waited := by
        intro t waited
        obtain ⟨ended, clean⟩ := h.waited t waited
        refine ⟨?_, clean⟩
        by_contra opened
        rw [closed t (by simpa only [Bool.not_eq_false] using opened)] at ended
        simp at ended }

theorem mem_dependOn {s p t q : Sequence} :
    q ∈ (r.dependOn s p).dependencies t ↔ q ∈ r.dependencies t ∨
      (t = s ∧ q = p ∧ p ≠ s ∧ r.unsettled p = true) := by
  unfold dependOn
  split
  · rename_i unjudged
    by_cases same : t = s
    · subst same
      simp [unjudged, or_comm]
    · simp [same]
  · rename_i judged
    simp only [not_and] at judged
    constructor
    · exact Or.inl
    · rintro (old | ⟨-, -, different, unjudged⟩)
      · exact old
      · exact absurd unjudged (judged different)

/-- Nothing but the dependencies of the request differs. -/
theorem dependOn_frame (r : TpMirroredRunner) (s p : Sequence) :
    (r.dependOn s p).requests = r.requests ∧ (r.dependOn s p).leases = r.leases ∧
      (r.dependOn s p).producers = r.producers ∧ (r.dependOn s p).unsettled = r.unsettled ∧
      (r.dependOn s p).rejected = r.rejected := by
  unfold dependOn
  split <;> simp

theorem World.Covered.mono {w w' : World} {s q : Sequence} (h : w.Covered s q)
    (agreed : ∀ t, w.agreed t = true → w'.agreed t = true)
    (dependencies : ∀ p ∈ w.runner.dependencies s, p ∈ w'.runner.dependencies s)
    (consumed : ∀ t, ∀ p ∈ w.consumed t, p ∈ w'.consumed t) : w'.Covered s q := by
  rcases h with own | other | ⟨p, among, rfl | through⟩
  · exact .inl own
  · exact .inr (.inl (agreed q other))
  · exact .inr (.inr ⟨_, dependencies _ among, .inl rfl⟩)
  · exact .inr (.inr ⟨p, dependencies p among, .inr (consumed p q through)⟩)

theorem Invariant.dependOn (h : Invariant w) {s p : Sequence} (mine : w.begun s = true)
    (known : w.begun p = true) : Invariant { w with runner := w.runner.dependOn s p } := by
  obtain ⟨requests, leases, producers, unsettled, rejected⟩ := dependOn_frame w.runner s p
  constructor
  · exact h.named
  · simpa [requests, unsettled] using h.opened
  · simpa [unsettled, rejected] using h.judged
  · simpa [unsettled, rejected] using h.agreed
  · simpa [unsettled, rejected] using h.rejected
  · simpa [unsettled] using h.unsettled
  · intro t stranger
    obtain ⟨consumed, dependencies, awaited⟩ := h.fresh t stranger
    refine ⟨consumed, List.eq_nil_iff_forall_not_mem.mpr fun q among => ?_, awaited⟩
    rcases mem_dependOn.mp among with old | ⟨rfl, -⟩
    · simp [dependencies] at old
    · simp [mine] at stranger
  · simpa [leases, requests] using h.lease
  · intro state t
    rw [leases]
    exact h.own state t
  · intro state t
    rw [producers]
    exact h.tag state t
  · simpa [producers] using h.blank
  · exact h.snapshot
  · exact h.file
  · simpa [producers] using h.capture
  · simpa [leases] using h.restore
  · intro t q among
    rcases mem_dependOn.mp among with old | ⟨-, rfl, -⟩
    · exact h.depended t q old
    · exact known
  · intro t unjudged q through
    simp only [unsettled] at unjudged
    exact (h.built t unjudged q through).mono (fun _ ok => ok)
      (fun q among => mem_dependOn.mpr (.inl among)) fun _ _ ok => ok
  · exact h.clean
  · simpa [requests] using h.waited

theorem mem_consume {s t q : Sequence} :
    q ∈ (w.consume s content).consumed t ↔ q ∈ w.consumed t ∨ (t = s ∧ q ∈ content) := by
  by_cases same : t = s
  · subst same
    simp [World.consume, or_comm]
  · simp [World.consume, same]

theorem World.Within.consume {s t : Sequence} {content taken : List Sequence}
    (h : w.Within content t) : (w.consume s taken).Within content t :=
  fun q among => (h q among).imp_right fun there => mem_consume.mpr (.inl there)

theorem World.Accounted.consume {kept : Kept} {taken : List Sequence}
    (h : w.Accounted kept) : (w.consume s taken).Accounted kept :=
  ⟨h.1, fun produced => ⟨(h.2 produced).1, (h.2 produced).2.consume⟩⟩

/-- An open request takes over what it is covered for. -/
theorem Invariant.consume (h : Invariant w)
    (opened : (w.runner.requests s).isSome = true) (covered : ∀ q ∈ content, w.Covered s q) :
    Invariant (w.consume s content) := by
  have unjudged := h.opened s opened
  have more : ∀ t, ∀ p ∈ w.consumed t, p ∈ (w.consume s content).consumed t :=
    fun t p there => mem_consume.mpr (.inl there)
  have others : ∀ t, t ≠ s → ∀ q, q ∈ (w.consume s content).consumed t → q ∈ w.consumed t := by
    intro t different q there
    rcases mem_consume.mp there with old | ⟨same, -⟩
    · exact old
    · exact absurd same different
  exact
    { h with
      fresh := by
        intro t (stranger : w.begun t = false)
        have different : t ≠ s := by
          rintro rfl
          rw [h.unsettled t unjudged] at stranger
          simp at stranger
        obtain ⟨nothing, rest⟩ := h.fresh t stranger
        refine ⟨List.eq_nil_iff_forall_not_mem.mpr fun q there => ?_, rest⟩
        have old := others t different q there
        simp [nothing] at old
      own := fun state t leased => (h.own state t leased).consume
      tag := fun state t tagged => ⟨(h.tag state t tagged).1, (h.tag state t tagged).2.consume⟩
      snapshot := fun id kept found => (h.snapshot id kept found).consume
      file := fun kept among => (h.file kept among).consume
      restore := fun state content pending t leased q among =>
        more t q (h.restore state content pending t leased q among)
      built := by
        intro t unjudged q there
        have grown : w.Covered t q → (w.consume s content).Covered t q :=
          fun old => old.mono (fun _ ok => ok) (fun _ ok => ok) more
        rcases mem_consume.mp there with old | ⟨rfl, taken⟩
        · exact grown (h.built t unjudged q old)
        · exact grown (covered q taken)
      clean := by
        intro t (agreed : w.agreed t = true) q there
        have different : t ≠ s := by
          rintro rfl
          rw [(h.agreed t agreed).2.1] at unjudged
          simp at unjudged
        exact h.clean t agreed q (others t different q there)
      waited := by
        intro t (waited : w.awaited t = some true)
        obtain ⟨ended, clean⟩ := h.waited t waited
        have different : t ≠ s := by
          rintro rfl
          rw [ended] at opened
          simp at opened
        exact ⟨ended, fun q there => clean q (others t different q there)⟩ }

/-- What a producer accounts for is covered once the request depends on it, unless it was
rejected before. -/
theorem Invariant.covered (h : Invariant w) {s p : Sequence}
    (opened : w.runner.unsettled s = true) (known : w.begun p = true)
    (within : w.Within content p)
    (timely : w.runner.rejected p = true → p ∈ w.runner.dependencies s) :
    ∀ q ∈ content,
      ({ w with runner := w.runner.dependOn s p } : World).Covered s q := by
  intro q among
  have here := within q among
  have depends : p ∈ (w.runner.dependOn s p).dependencies s →
      ({ w with runner := w.runner.dependOn s p } : World).Covered s q :=
    fun dependency => .inr (.inr ⟨p, dependency, here⟩)
  by_cases same : p = s
  · subst same
    rcases here with own | through
    · exact .inl own
    · exact (h.built p opened q through).mono (fun _ ok => ok)
        (fun q among => mem_dependOn.mpr (.inl among)) fun _ _ ok => ok
  · rcases h.judged p known with unjudged | agreed | rejected
    · exact depends (mem_dependOn.mpr (.inr ⟨rfl, rfl, same, unjudged⟩))
    · rcases here with rfl | through
      · exact .inr (.inl agreed)
      · rcases h.clean p agreed q through with rfl | clean
        · exact .inr (.inl agreed)
        · exact .inr (.inl clean)
    · exact depends (mem_dependOn.mpr (.inl (timely rejected)))

theorem Invariant.leaseTo (h : Invariant w) (idle : w.pending = none) {state : StateId}
    (opened : (w.runner.requests s).isSome = true)
    (within : w.Within (w.content state) s) :
    Invariant { w with runner := leaseTo w.runner state s } := by
  have cases : ∀ other t, (Tp.leaseTo w.runner state s).leases other = some t →
      (other = state ∧ t = s) ∨ w.runner.leases other = some t := by
    intro other t leased
    simp only [Tp.leaseTo, Function.update_apply] at leased
    split at leased
    · rename_i same
      exact .inl ⟨same, (Option.some.inj leased).symm⟩
    · exact .inr leased
  exact
    { h with
      lease := by
        intro other t leased
        rcases cases other t leased with ⟨-, rfl⟩ | old
        · exact opened
        · exact h.lease other t old
      own := by
        intro other t leased
        rcases cases other t leased with ⟨rfl, rfl⟩ | old
        · exact within
        · exact h.own other t old
      restore := fun _ _ pending => by simp [idle] at pending }

theorem dependOnTag_leaseTo (r : TpMirroredRunner) (state : StateId) (s : Sequence) :
    dependOnTag (leaseTo r state s) state s = leaseTo (dependOnTag r state s) state s := by
  unfold dependOnTag
  simp only [leaseTo]
  cases r.producers state with
  | none => rfl
  | some p =>
    simp only [dependOn]
    split <;> rfl

/-- A lease: the request takes over the state and depends on its unjudged producer. -/
theorem Invariant.take (h : Invariant w) (idle : w.pending = none) {state : StateId}
    (opened : (w.runner.requests s).isSome = true)
    (timely : ∀ p, w.runner.producers state = some p → w.runner.rejected p = true →
      p ∈ w.runner.dependencies s) :
    Invariant { w.consume s (w.content state) with
      runner := dependOnTag (Tp.leaseTo w.runner state s) state s } := by
  have unjudged := h.opened s opened
  have mine := h.unsettled s unjudged
  rw [dependOnTag_leaseTo]
  cases tag : w.runner.producers state with
  | none =>
    have nothing := h.blank state tag
    have grown : Invariant (w.consume s (w.content state)) :=
      h.consume opened (by simp [nothing])
    have untouched : dependOnTag w.runner state s = w.runner := by simp [dependOnTag, tag]
    rw [untouched]
    refine grown.leaseTo idle opened fun q among => ?_
    exact .inr (mem_consume.mpr (.inr ⟨rfl, among⟩))
  | some p =>
    obtain ⟨known, within⟩ := h.tag state p tag
    obtain ⟨requests, -, -, -, -⟩ := dependOn_frame w.runner s p
    have depending := h.dependOn mine known
    have open' : ((w.runner.dependOn s p).requests s).isSome = true := by rw [requests]; exact opened
    have grown := depending.consume open' (h.covered unjudged known within (timely p tag))
    have dependent : dependOnTag w.runner state s = w.runner.dependOn s p := by
      simp [dependOnTag, tag]
    rw [dependent]
    refine grown.leaseTo idle open' fun q among => ?_
    exact .inr (mem_consume.mpr (.inr ⟨rfl, among⟩))

theorem update_true {f : Sequence → Bool} {s t : Sequence} :
    Function.update f s true t = true ↔ t = s ∨ f t = true := by
  by_cases same : t = s
  · simp [same]
  · simp [same]

theorem Invariant.begin (h : Invariant w) (stranger : w.begun s = false)
    (named : s ≠ 0) (judged : w.runner.rejected s = false) :
    Invariant { w with
      runner := { w.runner with
        requests := Function.update w.runner.requests s (some {})
        unsettled := Function.update w.runner.unsettled s true }
      begun := Function.update w.begun s true } := by
  obtain ⟨consumed, dependencies, awaited⟩ := h.fresh s stranger
  have known : ∀ t, w.begun t = true → Function.update w.begun s true t = true :=
    fun t there => update_true.mpr (.inr there)
  have other : ∀ t, w.begun t = true → t ≠ s := by
    rintro t there rfl
    simp [stranger] at there
  have accounted : ∀ kept, w.Accounted kept → World.Accounted
      { w with
        runner := { w.runner with
          requests := Function.update w.runner.requests s (some {})
          unsettled := Function.update w.runner.unsettled s true }
        begun := Function.update w.begun s true } kept :=
    fun kept good => ⟨good.1, fun produced => ⟨known _ (good.2 produced).1, (good.2 produced).2⟩⟩
  exact
    { h with
      named := by
        intro t there
        rcases update_true.mp there with rfl | old
        · exact named
        · exact h.named t old
      opened := by
        intro t opened
        by_cases same : t = s
        · exact update_true.mpr (.inl same)
        · refine update_true.mpr (.inr (h.opened t ?_))
          simpa [same] using opened
      judged := by
        intro t there
        rcases update_true.mp there with rfl | old
        · exact .inl (update_true.mpr (.inl rfl))
        · exact (h.judged t old).imp_left fun unjudged => update_true.mpr (.inr unjudged)
      agreed := by
        intro t agreed
        obtain ⟨there, rest⟩ := h.agreed t agreed
        refine ⟨known t there, ?_⟩
        simpa [other t there] using rest
      rejected := by
        intro t rejected
        have different : t ≠ s := by
          rintro rfl
          simp [judged] at rejected
        simpa [different] using h.rejected t rejected
      unsettled := by
        intro t unjudged
        rcases update_true.mp unjudged with rfl | old
        · exact update_true.mpr (.inl rfl)
        · exact known t (h.unsettled t old)
      fresh := by
        intro t nobody
        refine h.fresh t ?_
        by_contra there
        have there := known t (by simpa using there)
        rw [show Function.update w.begun s true t = false from nobody] at there
        simp at there
      lease := by
        intro state t leased
        have opened := h.lease state t leased
        by_cases same : t = s
        · simp [same]
        · simpa [same] using opened
      tag := fun state p tagged => ⟨known p (h.tag state p tagged).1, (h.tag state p tagged).2⟩
      snapshot := fun id kept found => accounted kept (h.snapshot id kept found)
      file := fun kept among => accounted kept (h.file kept among)
      depended := fun t p among => known p (h.depended t p among)
      built := by
        intro t unjudged q through
        rcases update_true.mp unjudged with rfl | old
        · rw [show w.consumed t = [] from consumed] at through
          simp at through
        · exact (h.built t old q through).mono (fun _ ok => ok) (fun _ ok => ok) fun _ _ ok => ok
      waited := by
        intro t (waited : w.awaited t = some true)
        have different : t ≠ s := by
          rintro rfl
          simp [awaited] at waited
        obtain ⟨ended, clean⟩ := h.waited t waited
        exact ⟨by simpa [different] using ended, clean⟩ }

/-- The wait ends with a verdict; a true one means that every contributor is agreed. -/
theorem Invariant.await (h : Invariant w) {verdict : Bool}
    (mine : w.begun s = true) (ended : (w.runner.requests s).isSome = false)
    (sound : verdict = true → ∀ q ∈ w.consumed s, q = s ∨ w.agreed q = true) :
    Invariant { w with awaited := Function.update w.awaited s (some verdict) } :=
  { h with
    fresh := by
      intro t (stranger : w.begun t = false)
      have different : t ≠ s := by
        rintro rfl
        simp [mine] at stranger
      simpa [different] using h.fresh t stranger
    waited := by
      intro t waited
      simp only [Function.update_apply] at waited
      split at waited
      · rename_i same
        subst same
        exact ⟨ended, sound (Option.some.inj waited)⟩
      · exact h.waited t waited }

/-- What `AwaitDependencies` sees: all dependencies are judged and none is rejected. -/
theorem Invariant.agreed_of_await (h : Invariant w)
    (unjudged : w.runner.unsettled s = true)
    (waited : w.runner.awaitDependencies s = some true) :
    ∀ q ∈ w.consumed s, q = s ∨ w.agreed q = true := by
  have settled : ∀ p ∈ w.runner.dependencies s, w.agreed p = true := by
    intro p among
    unfold awaitDependencies at waited
    split at waited
    · simp at waited
    · rename_i accepted
      split at waited
      · simp at waited
      · rename_i heard
        simp only [List.any_eq_true, not_exists, not_and] at accepted heard
        rcases h.judged p (h.depended s p among) with pending | agreed | rejected
        · exact absurd pending (heard p among)
        · exact agreed
        · exact absurd rejected (accepted p among)
  intro q through
  rcases h.built s unjudged q through with own | agreed | ⟨p, among, rfl | deeper⟩
  · exact .inl own
  · exact .inr agreed
  · exact .inr (settled q among)
  · rcases h.clean p (settled p among) q deeper with rfl | clean
    · exact .inr (settled q among)
    · exact .inr clean

/-- The sets after a verdict, read one request at a time. -/
theorem settle_sets (r : TpMirroredRunner) (s t : Sequence) (agreed : Bool) :
    ((r.settle s agreed).unsettled t = true ↔ t ≠ s ∧ r.unsettled t = true) ∧
      ((r.settle s agreed).rejected t = true ↔
        r.rejected t = true ∨ (agreed = false ∧ t = s)) ∧
      (r.settle s agreed).dependencies t = if t = s then [] else r.dependencies t := by
  by_cases same : t = s
  · subst same
    cases agreed <;> simp [TpMirroredRunner.settle]
  · cases agreed <;> simp [TpMirroredRunner.settle, same]

theorem Invariant.settle (h : Invariant w) {agreed : Bool}
    (mine : w.begun s = true) (ended : (w.runner.requests s).isSome = false)
    (unjudged : w.runner.unsettled s = true)
    (sound : agreed = true → w.awaited s = some true) :
    Invariant { w with
      runner := w.runner.settle s agreed
      agreed := if agreed then Function.update w.agreed s true else w.agreed } := by
  have sets := fun t => settle_sets w.runner s t agreed
  have accepted : w.runner.rejected s = false := by
    by_contra refused
    have := h.rejected s (by simpa using refused)
    simp [unjudged] at this
  have agreements : ∀ t, (if agreed then Function.update w.agreed s true else w.agreed) t = true ↔
      w.agreed t = true ∨ (agreed = true ∧ t = s) := by
    intro t
    cases agreed with
    | false => simp
    | true =>
      simp only [if_true, true_and]
      rw [update_true, or_comm]
  have more : ∀ t, w.agreed t = true →
      (if agreed then Function.update w.agreed s true else w.agreed) t = true :=
    fun t old => (agreements t).mpr (.inl old)
  have falsely : ∀ b : Bool, b ≠ true → b = false := by decide
  exact
    { h with
      opened := by
        intro t (opened : (w.runner.requests t).isSome = true)
        refine (sets t).1.mpr ⟨?_, h.opened t opened⟩
        rintro rfl
        simp [ended] at opened
      judged := by
        intro t there
        by_cases same : t = s
        · subst same
          cases agreed with
          | false => exact .inr (.inr ((sets t).2.1.mpr (.inr ⟨rfl, rfl⟩)))
          | true => exact .inr (.inl ((agreements t).mpr (.inr ⟨rfl, rfl⟩)))
        · rcases h.judged t there with pending | old | old
          · exact .inl ((sets t).1.mpr ⟨same, pending⟩)
          · exact .inr (.inl (more t old))
          · exact .inr (.inr ((sets t).2.1.mpr (.inl old)))
      agreed := by
        intro t now
        rcases (agreements t).mp now with old | ⟨rfl, rfl⟩
        · obtain ⟨there, judged, kept⟩ := h.agreed t old
          refine ⟨there, falsely _ fun pending => ?_, falsely _ fun refused => ?_⟩
          · exact absurd ((sets t).1.mp pending).2 (by simp [judged])
          · rcases (sets t).2.1.mp refused with refused | ⟨-, rfl⟩
            · simp [kept] at refused
            · simp [unjudged] at judged
        · refine ⟨mine, falsely _ fun pending => ?_, falsely _ fun refused => ?_⟩
          · exact ((sets t).1.mp pending).1 rfl
          · rcases (sets t).2.1.mp refused with refused | ⟨impossible, -⟩
            · simp [accepted] at refused
            · simp at impossible
      rejected := by
        intro t refused
        refine falsely _ fun pending => ?_
        obtain ⟨different, pending⟩ := (sets t).1.mp pending
        rcases (sets t).2.1.mp refused with old | ⟨-, same⟩
        · simp [h.rejected t old] at pending
        · exact different same
      unsettled := fun t pending => h.unsettled t ((sets t).1.mp pending).2
      fresh := by
        intro t (stranger : w.begun t = false)
        obtain ⟨consumed, dependencies, awaited⟩ := h.fresh t stranger
        refine ⟨consumed, ?_, awaited⟩
        rw [(sets t).2.2, dependencies]
        split <;> rfl
      depended := by
        intro t p among
        rw [(sets t).2.2] at among
        split at among
        · simp at among
        · exact h.depended t p among
      built := by
        intro t pending q through
        obtain ⟨different, pending⟩ := (sets t).1.mp pending
        refine (h.built t pending q through).mono more (fun p among => ?_) fun _ _ ok => ok
        rw [(sets t).2.2, if_neg different]
        exact among
      clean := by
        intro t now q through
        rcases (agreements t).mp now with old | ⟨granted, rfl⟩
        · exact (h.clean t old q through).imp_right (more q)
        · exact ((h.waited t (sound granted)).2 q through).imp_right (more q)
      waited := fun t waited =>
        ⟨(h.waited t waited).1, fun q through => ((h.waited t waited).2 q through).imp_right
          (more q)⟩ }

/-- A batch: each member's state is leased to its request. -/
theorem Invariant.produceAll (h : Invariant w) (idle : w.pending = none)
    (leased : ∀ member ∈ members, w.runner.leases member.1 = some member.2) :
    Invariant { w with runner := produceAll w.runner members } := by
  induction members generalizing w with
  | nil => exact h
  | cons member rest ih =>
    have first := h.produce idle (leased member (by simp))
    exact ih first idle fun other among => leased other (by simp [among])

/-- A call changed a state: its request is a contributor from now on. -/
theorem Invariant.touch (h : Invariant w) (idle : w.pending = none) {state : StateId}
    (leased : w.runner.leases state = some s)
    (within : w.Within content s) :
    Invariant { w.hold state (s :: content) with runner := Tp.produce w.runner state s } := by
  have tagged := h.produce idle leased
  refine tagged.hold (s := s) leased (by simp [Tp.produce]) fun q among => ?_
  rcases List.mem_cons.mp among with rfl | old
  · exact .inl rfl
  · exact within q old

theorem holdAll_with (w : World) (r : TpMirroredRunner) (members : List (StateId × Sequence)) :
    ({ w with runner := r } : World).holdAll members = { w.holdAll members with runner := r } := by
  induction members generalizing w with
  | nil => rfl
  | cons member rest ih => exact ih (w.hold member.1 (member.2 :: w.content member.1))

theorem Invariant.touchAll (h : Invariant w) (idle : w.pending = none)
    (leased : ∀ member ∈ members, w.runner.leases member.1 = some member.2) :
    Invariant { w.holdAll members with runner := Tp.produceAll w.runner members } := by
  induction members generalizing w with
  | nil => exact h
  | cons member rest ih =>
    have mine := leased member (by simp)
    have first := h.touch idle mine (h.own _ _ mine)
    have rest := ih first idle fun other among => leased other (by simp [among])
    rw [holdAll_with] at rest
    exact rest

theorem beginRestore_none (r : TpMirroredRunner) (state : StateId) :
    r.beginRestore state 0 = r := by
  unfold beginRestore
  split <;> simp

/-- The start of a restore. -/
theorem Invariant.startRestore (h : Invariant w) {state : StateId} {kept : Kept}
    (accounted : w.Accounted kept)
    (timely : ∀ s, kept.producer ≠ 0 → w.runner.leases state = some s →
      w.runner.rejected kept.producer = true → kept.producer ∈ w.runner.dependencies s) :
    Invariant (w.startRestore (w.runner.beginRestore state kept.producer) state kept.content) := by
  cases leased : w.runner.leases state with
  | none =>
    have same : w.runner.beginRestore state kept.producer = w.runner := by
      simp [beginRestore, leased]
    simp only [World.startRestore, leased, same]
    exact
      { h with
        capture := fun _ _ _ pending => by simp at pending
        restore := by
          intro other content pending t held
          obtain ⟨rfl, rfl⟩ := pending
          rw [show w.runner.leases _ = some t from held] at leased
          simp at leased }
  | some s =>
    have opened := h.lease state s leased
    have unjudged := h.opened s opened
    have grown : Invariant ({ w.consume s kept.content with
        runner := w.runner.beginRestore state kept.producer }) := by
      by_cases nobody : kept.producer = 0
      · have same : w.runner.beginRestore state kept.producer = w.runner := by
          simp [beginRestore, leased, nobody]
        rw [same]
        exact h.consume opened (by simp [accounted.1 nobody])
      · have same : w.runner.beginRestore state kept.producer =
            w.runner.dependOn s kept.producer := by
          simp [beginRestore, leased, nobody]
        rw [same]
        obtain ⟨known, within⟩ := accounted.2 nobody
        obtain ⟨requests, -, -, -, -⟩ := dependOn_frame w.runner s kept.producer
        exact (h.dependOn (h.unsettled s unjudged) known).consume (by rw [requests]; exact opened)
          (h.covered unjudged known within (timely s nobody leased))
    simp only [World.startRestore, leased]
    have frame : (w.runner.beginRestore state kept.producer).leases = w.runner.leases := by
      simp only [beginRestore, leased]
      split
      · rfl
      · exact (dependOn_frame w.runner s kept.producer).2.1
    exact
      { grown with
        capture := fun _ _ _ pending => by simp at pending
        restore := by
          intro other content pending t held q among
          obtain ⟨rfl, rfl⟩ := pending
          rw [frame, leased] at held
          obtain rfl := Option.some.inj held
          exact mem_consume.mpr (.inr ⟨rfl, among⟩) }

/-! ## One step, and a run -/

/-- A call needs that no other one is between its parts. -/
theorem of_idle {next : Option World}
    (step : (if w.pending.isSome then none else next) = some w') :
    w.pending = none ∧ next = some w' := by
  split at step
  · cases step
  · rename_i idle
    exact ⟨by simpa using idle, step⟩

theorem isSome_of_eq_none {o : Option Request} (h : o = none) : o.isSome = false := by
  rw [h]
  rfl

theorem step_invariant {w' : World} {a : Action} (h : Invariant w) (timely : Timely w a)
    (step : w.step a = some w') : Invariant w' := by
  cases a with
  | begin s =>
    simp only [World.step] at step
    split at step
    · simp at step
    · rename_i stranger
      split at step <;> rename_i began <;> simp only [beginRequest] at began <;>
        split at began <;> rename_i guard
      · simp only [Prod.mk.injEq] at began
        obtain ⟨rfl, -⟩ := began
        simp only [Option.some.injEq] at step
        subst step
        exact h
      · simp at began
      · simp at began
      · simp only [Prod.mk.injEq] at began
        obtain ⟨rfl, -⟩ := began
        simp only [Option.some.injEq] at step
        subst step
        simp only [not_or] at guard
        exact h.begin (by simpa using stranger) guard.1 (by simpa using guard.2.2.2)
  | endRequest s sent =>
    simp only [World.step] at step
    have step := (of_idle step).2
    simp only [Option.some.injEq] at step
    subst step
    rcases endRequest_spec w.runner s sent with same | same
    · exact h.congr same
    · exact (h.release s).congr same
  | await s timeout =>
    simp only [World.step] at step
    split at step
    · rename_i guard
      obtain ⟨mine, ended, unjudged, -⟩ := guard
      have ended := isSome_of_eq_none ended
      split at step
      · rename_i verdict heard
        simp only [Option.some.injEq] at step
        subst step
        refine h.await mine ended fun granted => ?_
        subst granted
        exact h.agreed_of_await unjudged heard
      · split at step
        · simp only [Option.some.injEq] at step
          subst step
          exact h.await mine ended (by simp)
        · simp at step
    · simp at step
  | settle s agreed =>
    simp only [World.step] at step
    split at step
    · rename_i guard
      obtain ⟨mine, ended, unjudged, sound⟩ := guard
      simp only [Option.some.injEq] at step
      subst step
      exact h.settle mine (isSome_of_eq_none ended) unjudged sound
    · simp at step
  | canReuseState state =>
    simp only [World.step, Option.some.injEq] at step
    subst step
    exact { h with }
  | canReuseSnapshot id =>
    simp only [World.step] at step
    split at step
    · simp at step
    · simp only [Option.some.injEq] at step
      subst step
      exact { h with }
  | setPromptContext state request sent =>
    simp only [World.step] at step
    obtain ⟨idle, step⟩ := of_idle step
    cases request with
    | none =>
      simp only [Option.some.injEq] at step
      subst step
      rcases releaseContext_spec w.runner state sent with same | same
      · exact h.congr same
      · exact (h.unlease state).congr same
    | some s =>
      simp only at step
      split at step
      · simp only [Option.some.injEq] at step
        subst step
        rcases setPromptContext_spec w.runner state s sent with ⟨refused, same⟩ | ⟨open', same⟩
        · rw [if_neg refused]
          have kept := h.congr same
          exact { kept with }
        · rw [if_pos open']
          have taken := (h.take idle open'.2 timely).congr same
          exact { taken with }
      · simp at step
  | call state sent =>
    simp only [World.step] at step
    obtain ⟨idle, step⟩ := of_idle step
    have spec := send_spec w.runner state sent
    split at step <;> rename_i runner result sending <;> rw [sending] at spec <;>
      simp only [Option.some.injEq] at step <;> subst step
    · rcases spec with ⟨-, same⟩ | ⟨s, leased, same, -⟩
      · exact h.congr same
      · exact (h.produce idle leased).congr same
    · rcases spec with ⟨⟨message, impossible⟩, -⟩ | ⟨s, leased, same, value⟩
      · simp at impossible
      · obtain rfl := value _ rfl
        exact (h.touch idle leased (h.own _ _ leased)).congr same
  | callBatch states sent =>
    simp only [World.step] at step
    obtain ⟨idle, step⟩ := of_idle step
    have spec := sendBatch_spec w.runner states sent
    split at step <;> rename_i runner result sending <;> rw [sending] at spec <;>
      simp only [Option.some.injEq] at step <;> subst step
    · rcases spec with ⟨-, same⟩ | ⟨members, leased, same, -⟩
      · exact h.congr same
      · exact (h.produceAll idle leased).congr same
    · rcases spec with ⟨⟨message, impossible⟩, -⟩ | ⟨members, leased, same, value⟩
      · simp at impossible
      · obtain rfl := value _ rfl
        exact (h.touchAll idle leased).congr same
  | cacheCall state =>
    obtain ⟨idle, step⟩ := of_idle step
    have spec := cacheCall_spec w.runner state false
    split at step <;> rename_i runner result calling <;> rw [calling] at spec <;>
      simp only [Option.some.injEq] at step <;> subst step
    · rcases spec with ⟨-, same⟩ | ⟨s, -, impossible, -⟩
      · exact h.congr same
      · simp at impossible
    · rcases spec with ⟨⟨message, impossible⟩, -⟩ | ⟨s, leased, value, same⟩
      · simp at impossible
      · obtain rfl := Except.ok.inj value
        exact (h.touch idle leased (h.own _ _ leased)).congr same
  | beginCapture state =>
    have step := (of_idle step).2
    have same := same_beginCapture w.runner state
    split at step <;> rename_i starting <;> rw [starting] at same <;>
      simp only [Option.some.injEq] at step <;> subst step
    · exact h.congr same
    · have kept := h.congr same
      simp only [TpMirroredRunner.beginCapture] at starting
      split at starting
      · simp at starting
      · simp only [Prod.mk.injEq, Except.ok.injEq] at starting
        obtain ⟨rfl, -, tag⟩ := starting
        exact
          { kept with
            capture := by
              intro other number p pending
              obtain ⟨rfl, rfl, rfl⟩ := pending
              exact tag
            restore := fun _ _ pending => by simp at pending }
  | endCapture captured sent =>
    simp only [World.step] at step
    split at step
    · rename_i state id producer pending
      have spec := cacheCall_spec w.runner state true
      split at step <;> rename_i runner result calling <;> rw [calling] at spec
      · simp only [Option.some.injEq] at step
        subst step
        rcases spec with ⟨-, same⟩ | ⟨s, -, impossible, -⟩
        · exact (h.congr (same.trans (same_drop _ sent))).finish
        · simp at impossible
      · rcases spec with ⟨⟨message, impossible⟩, -⟩ | ⟨s, leased, -, same⟩
        · simp at impossible
        · split at step <;> simp only [Option.some.injEq] at step <;> subst step
          · have kept := (h.congr same).finish
            have accounted : w.Accounted ⟨producer, w.content state⟩ := by
              have tag := h.capture state id producer pending
              cases tagged : w.runner.producers state with
              | none =>
                simp only [tagged, Option.getD_none] at tag
                exact ⟨fun _ => h.blank state tagged, fun produced => absurd tag.symm produced⟩
              | some p =>
                simp only [tagged, Option.getD_some] at tag
                subst tag
                obtain ⟨known, within⟩ := h.tag state p tagged
                exact ⟨fun nobody => absurd nobody (h.named p known), fun _ => ⟨known, within⟩⟩
            exact
              { kept with
                snapshot := by
                  intro other held found
                  simp only [Function.update_apply] at found
                  split at found
                  · rw [← Option.some.inj found]
                    exact accounted
                  · exact h.snapshot other held found }
          · exact (h.congr (same.trans (same_drop _ sent))).finish
    · simp at step
  | beginRestore state id =>
    simp only [World.step] at step
    split at step
    · simp at step
    · split at step
      · simp at step
      · rename_i kept found
        simp only [Option.some.injEq] at step
        subst step
        exact h.startRestore (h.snapshot id kept found) fun s _ leased =>
          timely kept s found leased
  | beginRestoreDisk state file =>
    have step := (of_idle step).2
    split at step
    · simp only [Option.some.injEq] at step
      subst step
      -- a foreign file is a kept state without producer and contributors
      have foreign := @Invariant.startRestore w h state ⟨0, []⟩
        ⟨fun _ => rfl, fun produced => absurd rfl produced⟩ fun s produced => absurd rfl produced
      rwa [beginRestore_none] at foreign
    · split at step
      · simp at step
      · rename_i kept found
        have accounted := h.file kept (List.mem_of_getElem? found)
        split at step <;> rename_i checking <;>
          simp only [TpMirroredRunner.beginRestoreDisk] at checking <;>
          split at checking <;> rename_i accepted <;>
          simp only [Prod.mk.injEq, reduceCtorEq, and_false, and_true] at checking <;>
          simp only [Option.some.injEq] at step <;> subst step
        · rw [← checking.1]
          exact h
        · subst checking
          exact h.startRestore accounted fun s _ leased refused => absurd refused accepted
  | endRestore restored =>
    simp only [World.step] at step
    split at step
    · rename_i state content pending
      have ended := h.finish
      have spec := cacheCall_spec w.runner state false
      split at step <;> rename_i runner result calling <;> rw [calling] at spec <;>
        simp only [Option.some.injEq] at step <;> subst step
      · rcases spec with ⟨-, same⟩ | ⟨s, -, impossible, -⟩
        · exact (h.congr same).finish
        · simp at impossible
      · rcases spec with ⟨⟨message, impossible⟩, -⟩ | ⟨s, leased, value, same⟩
        · simp at impossible
        · obtain rfl := Except.ok.inj value
          have taken := h.restore state content pending _ leased
          refine (ended.touch rfl leased fun q among => ?_).congr same
          split at among
          · exact .inr (taken q among)
          · rcases List.mem_append.mp among with new | old
            · exact .inr (taken q new)
            · exact h.own state _ leased q old
    · simp at step
  | persist id sent =>
    have step := (of_idle step).2
    split at step
    · simp at step
    · rename_i kept found
      have same := same_beginPersist w.runner kept.producer sent
      split at step <;> rename_i writing <;> rw [writing] at same <;>
        simp only [Option.some.injEq] at step <;> subst step
      · exact h.congr same
      · have stored := h.congr same
        exact
          { stored with
            file := by
              intro other among
              rcases List.mem_append.mp among with old | new
              · exact stored.file other old
              · rw [List.mem_singleton.mp new]
                exact h.snapshot id kept found }
  | drop id sent =>
    have step := (of_idle step).2
    simp only [Option.some.injEq] at step
    subst step
    have left := h.congr (same_drop w.runner sent)
    exact
      { left with
        snapshot := by
          intro other kept found
          simp only [Function.update_apply] at found
          split at found
          · simp at found
          · exact h.snapshot other kept found }
  | invalidate state sent =>
    obtain ⟨idle, step⟩ := of_idle step
    simp only [Option.some.injEq] at step
    subst step
    have empty := h.reset state
    rcases sendInvalidate_spec w.runner state sent with same | same
    · exact empty.congr same
    · exact (empty.untag idle (hold_same state [])).congr same

theorem reached_invariant (h : Reached Timely w) : Invariant w := by
  induction h with
  | start => exact invariant_start
  | next _ timely step ih => exact step_invariant ih timely step

theorem Invariant.contained (h : Invariant w) : Contained w where
  now s mine unjudged waited q through := by
    rcases h.agreed_of_await unjudged waited q through with rfl | agreed
    · by_contra refused
      have judged := h.rejected q (by simpa using refused)
      simp [unjudged] at judged
    · exact (h.agreed q agreed).2.2
  later s waited q through different := by
    rcases (h.waited s waited).2 q through with same | agreed
    · exact absurd same different
    · exact (h.agreed q agreed).2.2

/-- In every run whose leases and restores are timely, a request whose wait for the
verdicts returned true consumed nothing a rejected request contributed to. -/
theorem reached_contained (h : Reached Timely w) : Contained w :=
  (reached_invariant h).contained

end

/-- Request 2 leases the state of request 1 before its verdict, which is that the ranks
agree. -/
theorem earlyLease_contained : ∃ w, w.awaited 2 = some true ∧ 1 ∈ w.consumed 2 ∧ Contained w :=
  ⟨_, by decide, by decide, reached_contained <|
    .next (a := .await 2 false)
    (.next (a := .settle 1 true)
    (.next (a := .await 1 false)
    (.next (a := .endRequest 2 none)
    (.next (a := .call 0 none)
    (.next (a := .setPromptContext 0 (some 2) none)
    (.next (a := .canReuseState 0)
    (.next (a := .begin 2)
    (.next (a := .endRequest 1 none)
    (.next (a := .call 0 none)
    (.next (a := .setPromptContext 0 (some 1) none)
    (.next (a := .canReuseState 0)
    (.next (a := .begin 1) .start trivial rfl)
    trivial rfl) (fun _ _ refused => absurd refused Bool.false_ne_true) rfl)
    trivial rfl) trivial rfl) trivial rfl) trivial rfl)
    (fun _ _ refused => absurd refused Bool.false_ne_true) rfl)
    trivial rfl) trivial rfl) trivial rfl) trivial rfl) trivial rfl⟩

/-! ## The verdict between the check and the lease -/

/-- The world a list of actions leads to. -/
def World.run (w : World) : List Action → Option World
  | [] => some w
  | a :: rest => (w.step a).bind fun w' => w'.run rest

theorem reached_of_run {P : World → Action → Prop} {w w' : World} {actions : List Action}
    (reached : Reached P w) (all : ∀ v a, P v a) (run : w.run actions = some w') :
    Reached P w' := by
  induction actions generalizing w with
  | nil =>
    simp only [World.run, Option.some.injEq] at run
    rwa [← run]
  | cons a rest ih =>
    simp only [World.run, Option.bind_eq_some_iff] at run
    obtain ⟨v, step, run⟩ := run
    exact ih (reached.next (all w a) step) run

/-- Request 1 computes state 0 and ends. Request 2 finds it reusable, but rank 1's verdict
on request 1 arrives before the lease, which then records no dependency. -/
def lateVerdict : List Action :=
  [.begin 1, .canReuseState 0, .setPromptContext 0 (some 1) none, .call 0 none,
    .endRequest 1 none, .await 1 false, .begin 2, .canReuseState 0, .settle 1 false,
    .setPromptContext 0 (some 2) none, .call 0 none, .endRequest 2 none, .await 2 false]

theorem lateVerdict_spreads : ∃ w, Reached (fun _ _ => True) w ∧
    w.awaited 2 = some true ∧ 1 ∈ w.consumed 2 ∧ w.runner.rejected 1 = true ∧ ¬Contained w := by
  obtain ⟨w, run, waited, through, refused⟩ : ∃ w, World.run {} lateVerdict = some w ∧
      w.awaited 2 = some true ∧ 1 ∈ w.consumed 2 ∧ w.runner.rejected 1 = true :=
    ⟨_, rfl, by decide, by decide, by decide⟩
  refine ⟨w, reached_of_run .start (fun _ _ => trivial) run, waited, through, refused, ?_⟩
  intro contained
  have accepted := contained.later 2 waited 1 through (by decide)
  simp [refused] at accepted

end Gufo.Tp
