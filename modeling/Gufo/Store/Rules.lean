import Gufo.Store.Operations

/-!
# Reasoning about store operations

A statement about an operation speaks of the directories and the store only; what
the world answers is arbitrary. One rule for each system call: it asks for what
holds after it returned, and for what holds wherever it may stop.
-/

namespace Gufo.Store
open Gufo.Disk Gufo.Program Gufo.Volatile

variable {α β : Type} {P : Site → Prop} {E : Failure → Site → Prop}

/-- Started in `P`, the operation returns in `Q` or stops in `E`, whatever is answered. -/
def Holds (P : Site → Prop) (m : Op α) (Q : α → Site → Prop) (E : Failure → Site → Prop) : Prop :=
  Triple (fun w => P w.toSite) m (fun a w => Q a w.toSite) (fun e w => E e w.toSite)

theorem holds_pure {Q : α → Site → Prop} {a : α} (h : ∀ w, P w → Q a w) :
    Holds P (pure a : Op α) Q E := triple_pure fun w => h w.toSite

variable {e : Failure}

theorem holds_throw {Q : α → Site → Prop} (h : ∀ w, P w → E e w) :
    Holds P (throw e : Op α) Q E := triple_throw fun w => h w.toSite

variable {m : Op α}

theorem holds_bind {R : α → Site → Prop} {Q : β → Site → Prop} {f : α → Op β}
    (hm : Holds P m R E) (hf : ∀ a, Holds (R a) (f a) Q E) : Holds P (m >>= f) Q E :=
  triple_bind hm hf

variable {E' : Failure → Site → Prop}

theorem holds_consequence {P' : Site → Prop} {Q Q' : α → Site → Prop}
    (h : Holds P' m Q' E') (hp : ∀ w, P w → P' w)
    (hq : ∀ a w, Q' a w → Q a w) (he : ∀ e w, E' e w → E e w) : Holds P m Q E :=
  triple_consequence h (fun w => hp w.toSite) (fun a w => hq a w.toSite) fun e w => he e w.toSite

theorem holds_and {P' : Site → Prop} {Q Q' : α → Site → Prop}
    (h : Holds P m Q E) (k : Holds P' m Q' E') :
    Holds (fun w => P w ∧ P' w) m (fun a w => Q a w ∧ Q' a w) (fun e w => E e w ∧ E' e w) :=
  triple_and h k

theorem holds_ite {Q : α → Site → Prop} {c : Prop} [Decidable c] {m n : Op α}
    (ht : c → Holds P m Q E) (he : ¬c → Holds P n Q E) : Holds P (if c then m else n) Q E :=
  triple_ite ht he

theorem holds_reject {Q : β → Site → Prop} {c : Prop} [Decidable c]
    {f : PUnit → Op β} (stops : c → ∀ w, P w → E e w) (passes : ¬c → Holds P (f ⟨⟩) Q E) :
    Holds P (reject c e >>= f) Q E :=
  triple_reject (fun hc w => stops hc w.toSite) passes

/-- A check at the end. -/
theorem holds_reject_last {Q : PUnit → Site → Prop} {c : Prop} [Decidable c]
    (stops : c → ∀ w, P w → E e w) (passes : ¬c → ∀ w, P w → Q ⟨⟩ w) :
    Holds P (reject c e) Q E := by
  exact holds_ite (fun hc => holds_throw (stops hc)) fun hc => holds_pure (passes hc)

theorem holds_of_start {Q : α → Site → Prop}
    (h : ∀ w, P w → Holds (· = w) m Q E) : Holds P m Q E :=
  fun w hw => h w.toSite hw w rfl

/-- Reading the site hands it to the rest. -/
theorem holds_site {Q : α → Site → Prop} {f : Site → Op α}
    (h : ∀ w, P w → Holds (· = w) (f w) Q E) : Holds P (site >>= f) Q E :=
  fun w hw => h w.toSite hw w rfl

variable {Q : Unit → Site → Prop} {f : Site → Site}

theorem holds_update (h : ∀ w, P w → Q () (f w)) :
    Holds P (update f) Q E := triple_modify fun w => h w.toSite

theorem holds_ask {Q : Answer → Site → Prop} (h : ∀ a w, P w → Q a w)
    (crashed : ∀ w, P w → E .crashed w) : Holds P ask Q E := by
  refine triple_get_bind fun w hw => ?_
  refine triple_bind (triple_set (Q := fun _ t => t = { w with asked := w.asked + 1 })
    fun t _ => rfl) fun _ => ?_
  refine triple_reject (fun _ t ht => ?_) fun _ => triple_pure fun t ht => ?_
  · rw [ht]
    exact crashed _ hw
  · rw [ht]
    exact h _ _ hw

theorem holds_call (h : ∀ w, P w → Q () w)
    (fails : ∀ w, P w → E e w) (crashed : ∀ w, P w → E .crashed w) : Holds P (call e) Q E :=
  holds_bind (holds_ask (Q := fun _ => P) (fun _ _ h => h) crashed) fun _ =>
    holds_reject_last (fun _ => fails) fun _ => h

/-- A call that only may fail. -/
theorem holds_still (fails : ∀ w, P w → E e w) (crashed : ∀ w, P w → E .crashed w) :
    Holds P (call e) (fun _ => P) E := holds_call (fun _ h => h) fails crashed

theorem holds_effect (h : ∀ w, P w → Q () (f w))
    (fails : ∀ w, P w → E .io w) (uncertain : ∀ w, P w → E .io (f w))
    (crashed : ∀ w, P w → E .crashed w) : Holds P (effect f) Q E := by
  refine holds_bind (holds_ask (Q := fun _ => P) (fun _ _ h => h) crashed) fun a => ?_
  refine holds_reject (fun _ => fails) fun _ => ?_
  refine holds_bind (R := fun _ w => ∃ v, P v ∧ w = f v)
    (holds_update fun w hw => ⟨w, hw, rfl⟩) fun _ => holds_reject_last ?_ ?_
  · rintro - w ⟨v, hv, rfl⟩
    exact uncertain v hv
  · rintro - w ⟨v, hv, rfl⟩
    exact h v hv

variable {id : DiskFileId}

theorem holds_exists {Q : Bool → Site → Prop} {folder : Folder}
    (h : ∀ w, P w → Q (w.now folder id).isSome w) (fails : ∀ w, P w → E .io w)
    (crashed : ∀ w, P w → E .crashed w) : Holds P (exists_ folder id) Q E :=
  holds_bind (holds_call (Q := fun _ => P) (fun _ h => h) fails crashed) fun _ =>
    holds_site fun w hw => holds_pure fun _ hv => hv ▸ h w hw

theorem holds_create
    (h : ∀ w, P w → w.now .temporary id = none →
      Q () (w.change .temporary (·.put id (some {}))))
    (fails : ∀ w, P w → E .io w)
    (uncertain : ∀ w, P w → w.now .temporary id = none →
      E .io (w.change .temporary (·.put id (some {}))))
    (crashed : ∀ w, P w → E .crashed w) : Holds P (create id) Q E := by
  refine holds_site fun w hw => holds_reject (fun _ v hv => hv ▸ fails w hw) fun absent => ?_
  have absent : w.now .temporary id = none := by simpa using absent
  refine holds_effect ?_ ?_ ?_ ?_
  · rintro v rfl
    exact h v hw absent
  · rintro v rfl
    exact fails v hw
  · rintro v rfl
    exact uncertain v hw absent
  · rintro v rfl
    exact crashed v hw

theorem holds_writeSome {Q : Nat → Site → Prop} {bytes : List UInt8}
    (h : ∀ n w, P w → 0 < n → n ≤ max 1 bytes.length →
      Q n ((w.change .temporary
        (·.amend id fun f => { f with bytes := f.bytes ++ bytes.take n })).credit n))
    (fails : ∀ w, P w → E .io w) (crashed : ∀ w, P w → E .crashed w) :
    Holds P (writeSome id bytes) Q E := by
  refine holds_bind (holds_ask (Q := fun _ => P) (fun _ _ h => h) crashed) fun a => ?_
  refine holds_reject (fun _ => fails) fun _ => ?_
  refine holds_bind (R := fun _ => Q (max 1 (min a.count bytes.length)))
    (holds_update fun w hw => ?_) fun _ => holds_pure fun w hw => hw
  exact h _ w hw (by omega) (by omega)

/-- A whole file written: an invariant indexed by the bytes that are still to come. -/
theorem holds_writeFile {I : List UInt8 → Site → Prop} {bytes : List UInt8}
    (step : ∀ n rest w, 0 < n → n ≤ rest.length → I rest w → I (rest.drop n)
      ((w.change .temporary
        (·.amend id fun f => { f with bytes := f.bytes ++ rest.take n })).credit n))
    (fails : ∀ rest w, I rest w → E .io w) (crashed : ∀ rest w, I rest w → E .crashed w) :
    Holds (I bytes) (writeFile id bytes) (fun _ => I []) E := by
  suffices all : ∀ fuel rest, rest.length ≤ fuel →
      Holds (I rest) (writeLoop id fuel rest) (fun _ => I []) E from all _ _ (Nat.le_refl _)
  intro fuel
  induction fuel with
  | zero =>
    intro rest short
    have none_ : rest = [] := List.length_eq_zero_iff.mp (by omega)
    subst none_
    exact holds_pure fun w hw => hw
  | succ fuel ih =>
    intro rest short
    cases rest with
    | nil => exact holds_pure fun w hw => hw
    | cons b bytes =>
      refine holds_bind (R := fun n w => 0 < n ∧ I ((b :: bytes).drop n) w)
        (holds_writeSome ?_ (fails _) (crashed _)) fun n => ?_
      · intro n w hw pos most
        exact ⟨pos, step n _ w pos (by simpa using most) hw⟩
      · refine holds_of_start fun w hw => ?_
        obtain ⟨pos, hw⟩ := hw
        refine holds_consequence (ih ((b :: bytes).drop n) ?_) ?_ (fun _ _ h => h) fun _ _ h => h
        · rw [List.length_drop]
          omega
        · rintro v rfl
          exact hw

theorem holds_rename {folder : Folder}
    (h : ∀ w f, P w → w.now .temporary id = some f → w.now folder id = none →
      Q () ((w.change folder (·.put id (some f))).change .temporary (·.put id none)))
    (fails : ∀ w, P w → E .io w)
    (uncertain : ∀ w f, P w → w.now .temporary id = some f → w.now folder id = none →
      E .io ((w.change folder (·.put id (some f))).change .temporary (·.put id none)))
    (crashed : ∀ w, P w → E .crashed w) : Holds P (rename folder id) Q E := by
  refine holds_site fun w hw => holds_reject (fun _ v hv => hv ▸ fails w hw) fun passed => ?_
  rw [not_or] at passed
  obtain ⟨f, source⟩ : ∃ f, w.now .temporary id = some f := by
    cases hf : w.now .temporary id with
    | none => simp [hf] at passed
    | some f => exact ⟨f, rfl⟩
  have target : w.now folder id = none := by simpa using passed.2
  refine holds_effect ?_ ?_ ?_ ?_
  · rintro v rfl
    rw [source]
    exact h v f hw source target
  · rintro v rfl
    exact fails v hw
  · rintro v rfl
    rw [source]
    exact uncertain v f hw source target
  · rintro v rfl
    exact crashed v hw

theorem holds_remove {folder : Folder}
    (stays : ∀ w, P w → w.now folder id = none ∨ (∃ f, w.now folder id = some f ∧ f.links ≠ 1) →
      Q () w)
    (h : ∀ w f, P w → w.now folder id = some f →
      Q () ((w.change folder (·.put id none)).debit f.size))
    (fails : ∀ w, P w → E .io w)
    (uncertain : ∀ w f, P w → w.now folder id = some f →
      E .io (w.change folder (·.put id none)))
    (crashed : ∀ w, P w → E .crashed w) : Holds P (remove folder id) Q E := by
  refine holds_bind (holds_call (Q := fun _ => P) (fun _ h => h) fails crashed) fun _ => ?_
  refine holds_site fun w hw => ?_
  cases there : w.now folder id with
  | none => exact holds_pure fun v hv => hv ▸ stays w hw (.inl there)
  | some f =>
    refine holds_ite (fun shared => holds_pure fun v hv => ?_) fun _ => ?_
    · exact hv ▸ stays w hw (.inr ⟨f, there, by simpa [File.regular] using shared⟩)
    · refine holds_bind (R := fun _ v => v = w.change folder (·.put id none)) ?_ fun _ => ?_
      · refine holds_effect ?_ ?_ ?_ ?_
        · rintro v rfl
          rfl
        · rintro v rfl
          exact fails v hw
        · rintro v rfl
          exact uncertain v f hw there
        · rintro v rfl
          exact crashed v hw
      · refine holds_update fun v hv => ?_
        rw [hv]
        exact h w f hw there

/-- A loop over a list, with an invariant of what is still to be visited. -/
theorem holds_forM {f : α → Op Unit} {I : List α → Site → Prop} (l : List α)
    (h : ∀ x rest, Holds (I (x :: rest)) (f x) (fun _ => I rest) E) :
    Holds (I l) (l.forM f) (fun _ => I []) E :=
  triple_forM (I := fun l (w : World) => I l w.toSite) h l

/-- The same with an accumulator. -/
theorem holds_foldlM {f : β → α → Op β} {I : List α → β → Site → Prop} (l : List α) (b : β)
    (h : ∀ x rest b, Holds (I (x :: rest) b) (f b x) (fun b => I rest b) E) :
    Holds (I l b) (l.foldlM f b) (fun b => I [] b) E := by
  induction l generalizing b with
  | nil => exact holds_pure fun w hw => hw
  | cons x rest ih =>
    exact holds_bind (h x rest b) fun b => ih b

theorem holds_onError {Q : α → Site → Prop}
    (h : Holds P m Q E') (crashed : ∀ w, E' .crashed w → E .crashed w)
    (handled : ∀ e w, e ≠ .crashed → E' e w → E e (f w)) : Holds P (onError f m) Q E := by
  intro w hw
  have run := h w hw
  unfold onError
  cases eq : m w with
  | ok a t => rw [eq] at run; exact run
  | error e t =>
    rw [eq] at run
    cases e <;> first | exact crashed _ run | exact handled _ _ (by simp) run

end Gufo.Store
