import Gufo.Execution.State

/-!
# The requests of a capture

The payloads that a capture at some positions needs, as a list: what the history has no
chunk for, the tails and the private states. A capture asks for exactly this list, whether
it asks at once or hands the list to the prepare callback first.
-/

open Gufo.Program

namespace Gufo.Execution

variable {services : Services} {alive valid : ChunkRef → Bool} {d : ComponentDescriptor}
  {p : ComponentPosition} {positions : List ComponentPosition} {published cursor : List Entry}
  {draft : Draft} {h : ExecutionHistory} {heap : Heap} {request : CheckpointRequest}
  {acc rs : List PayloadRequest} {r : PayloadRequest} {left first bytes b : Nat} {e : Error}

/-! ## The list -/

/-- For the complete chunks of a component; `none` where a chunk is retired. -/
def chunkRequests (alive valid : ChunkRef → Bool) (d : ComponentDescriptor) :
    Nat → Nat → List Entry → Option (List PayloadRequest)
  | 0, _, _ => some []
  | left + 1, first, cursor =>
    match find alive d.id first cursor with
    | (none, cursor) =>
      (chunkRequests alive valid d left (first + d.rowsPerChunk) cursor).map
        (chunkRequest d first :: ·)
    | (some chunk, cursor) =>
      if valid chunk then chunkRequests alive valid d left (first + d.rowsPerChunk) cursor
      else none

def tailRequests (d : ComponentDescriptor) (rows : Nat) : List PayloadRequest :=
  if fullEnd d rows ≠ rows then [tailRequest d rows] else []

def componentRequests (alive valid : ChunkRef → Bool) (published : List Entry)
    (d : ComponentDescriptor) (p : ComponentPosition) : Option (List PayloadRequest) :=
  if d.kind = .privateState then some [stateRequest d p.validRows]
  else (chunkRequests alive valid d (p.validRows / d.rowsPerChunk) 0 (chunks published d.id)).map
    (· ++ tailRequests d p.validRows)

def requests (alive valid : ChunkRef → Bool) (published : List Entry)
    (positions : List ComponentPosition) :
    List ComponentDescriptor → Option (List PayloadRequest)
  | [] => some []
  | d :: rest =>
    match positionFor positions d.id with
    | none => none
    | some p => do
      let here ← componentRequests alive valid published d p
      let later ← requests alive valid published positions rest
      return here ++ later

def total (rs : List PayloadRequest) : Nat := (rs.map (·.bytes)).sum

@[simp] theorem total_nil : total [] = 0 := rfl

@[simp] theorem total_cons (r : PayloadRequest) (rs : List PayloadRequest) :
    total (r :: rs) = r.bytes + total rs := by simp [total]

@[simp] theorem total_append (rs more : List PayloadRequest) :
    total (rs ++ more) = total rs + total more := by simp [total]

theorem total_tailRequests (d : ComponentDescriptor) (rows : Nat) :
    total (tailRequests d rows) = (rows - fullEnd d rows) * d.rowBytes := by
  unfold tailRequests
  split
  · simp [tailRequest]
  · rename_i complete
    rw [not_not.mp complete, Nat.sub_self, Nat.zero_mul]
    rfl

/-! ## What the world may refuse -/

/-- Errors that the positions and the history have no part in. -/
def Error.OfWorld (e : Error) : Prop := e ∈ [.refused, .prepare, .capture, .payload]

/-- The world grants everything and every callback does its work. -/
structure Services.Willing (services : Services) : Prop where
  callback : services.hasCapture
  granted : ∀ n, services.refused n = false
  captured : ∀ n r, services.captured n r = .complete
  prepared : ∀ plan, services.prepared plan

/-- No inherited chunk expires or retires while the call runs. -/
structure Services.Steady (services : Services) (alive valid : ChunkRef → Bool) : Prop where
  alive : ∀ n, services.alive n = alive
  valid : ∀ n, services.valid n = valid

/-- How a part of a capture fails that does not need these requests. -/
def Failed (services : Services) (needed : Option (List PayloadRequest)) (e : Error) : Prop :=
  (e = .retired ∧ needed = none) ∨ (e.OfWorld ∧ ¬services.Willing)

theorem Failed.mono {needed more : Option (List PayloadRequest)} (failed : Failed services needed e)
    (h : needed = none → more = none) : Failed services more e :=
  failed.imp (fun f => ⟨f.1, h f.2⟩) id

/-! ## What a capture has asked for -/

/-- The requests so far, issued or planned. -/
def Noted (services : Services) (acc : List PayloadRequest) (s : Call) : Prop :=
  if services.hasPrepare then s.issued = [] ∧ s.planned = acc else s.issued = acc ∧ s.planned = []

/-- A question changes nothing but the number of questions. -/
theorem ask_keeps {I : Call → Prop} (needed : Option (List PayloadRequest))
    (free : ∀ s n, I s → I { s with asked := n }) :
    Triple I (ask services) (fun _ => I) (fun e _ => Failed services needed e) := by
  refine triple_get_bind fun s start => ?_
  refine triple_bind (R := fun _ => I) (triple_set fun _ _ => free s _ start) fun _ => ?_
  refine triple_ite (fun refused => ?_) fun _ => triple_pure fun _ h => h
  refine triple_throw fun _ _ => .inr ⟨by simp [Error.OfWorld], fun willing => ?_⟩
  rw [willing.granted] at refused
  exact absurd refused (by simp)

theorem ask_noted (needed : Option (List PayloadRequest)) :
    Triple (Noted services acc) (ask services) (fun _ => Noted services acc)
      (fun e _ => Failed services needed e) :=
  ask_keeps needed fun _ _ h => h

theorem askWhen_noted (c : Prop) [Decidable c] (needed : Option (List PayloadRequest)) :
    Triple (Noted services acc) (askWhen services c) (fun _ => Noted services acc)
      (fun e _ => Failed services needed e) :=
  triple_ite (fun _ => ask_noted needed) fun _ => triple_pure fun _ h => h

/-- The callback is given the request, whatever it does with it. -/
theorem issue_issued (issued planned : List PayloadRequest)
    (needed : Option (List PayloadRequest)) :
    Triple (fun s => s.issued = issued ∧ s.planned = planned) (issue services r)
      (fun _ s => s.issued = issued ++ [r] ∧ s.planned = planned)
      (fun e _ => Failed services needed e) := by
  refine triple_get_bind fun s start => ?_
  refine triple_bind (R := fun _ t => t.issued = issued ++ [r] ∧ t.planned = planned)
    (triple_set fun _ _ => ⟨by simp [start.1], start.2⟩) fun _ => ?_
  cases answer : services.captured s.asked r with
  | complete => exact triple_pure fun _ h => h
  | rejected =>
    refine triple_throw fun _ _ => .inr ⟨by simp [Error.OfWorld], fun willing => ?_⟩
    rw [willing.captured] at answer
    cases answer
  | threw =>
    refine triple_throw fun _ _ => .inr ⟨by simp [Error.OfWorld], fun willing => ?_⟩
    rw [willing.captured] at answer
    cases answer

theorem save_noted (acc : List PayloadRequest) (needed : Option (List PayloadRequest)) :
    Triple (Noted services acc) (save services r) (fun _ => Noted services (acc ++ [r]))
      (fun e _ => Failed services needed e) := by
  unfold save Noted
  by_cases prepare : services.hasPrepare
  · simp only [prepare, if_true]
    exact triple_modify fun s noted => ⟨noted.1, by simp [noted.2]⟩
  · simp only [prepare, if_false, Bool.false_eq_true]
    exact issue_issued acc [] needed

theorem replaceEntries_noted (needed : Option (List PayloadRequest)) :
    Triple (Noted services acc) (replaceEntries services draft) (fun _ => Noted services acc)
      (fun e _ => Failed services needed e) := by
  refine triple_ite (fun _ => triple_pure fun _ h => h) fun _ => ?_
  refine triple_bind (ask_noted needed) fun _ => ?_
  exact triple_get_bind fun _ noted => triple_pure fun _ same => same ▸ noted

theorem newChunk_noted (needed : Option (List PayloadRequest)) :
    Triple (Noted services acc) (newChunk services d first draft)
      (fun _ => Noted services (acc ++ [chunkRequest d first]))
      (fun e _ => Failed services needed e) := by
  refine triple_bind (replaceEntries_noted needed) fun _ => ?_
  refine triple_bind (ask_noted needed) fun _ => ?_
  refine triple_get_bind fun s noted => ?_
  refine triple_bind (R := fun _ => Noted services acc) (triple_set fun _ _ => noted) fun _ => ?_
  refine triple_bind (save_noted _ needed) fun _ => ?_
  exact triple_bind (ask_noted needed) fun _ => triple_pure fun _ h => h

/-- The part of a capture that starts with some requests noted asks for `needed`. -/
def Asks {α : Type} (services : Services) (m : M α) (needed : Option (List PayloadRequest)) :
    Prop :=
  ∀ acc, Triple (Noted services acc) m
    (fun _ s => ∃ rs, needed = some rs ∧ Noted services (acc ++ rs) s)
    (fun e _ => Failed services needed e)

theorem chunkLoop_asks (steady : services.Steady alive valid) :
    ∀ (left first : Nat) (cursor : List Entry) (draft : Draft),
      Asks services (chunkLoop services d left first cursor draft)
        (chunkRequests alive valid d left first cursor) := by
  intro left
  induction left with
  | zero => exact fun _ _ _ acc => triple_pure fun s noted => ⟨[], rfl, by simpa using noted⟩
  | succ left ih =>
    intro first cursor draft acc
    refine triple_get_bind fun s noted => ?_
    rw [steady.alive, steady.valid]
    unfold chunkRequests
    match find alive d.id first cursor with
    | (none, cursor) =>
      refine triple_bind (triple_consequence (newChunk_noted _)
        (fun t same => same ▸ noted) (fun _ _ h => h) fun _ _ h => h) fun draft => ?_
      refine triple_consequence (ih _ cursor draft _) (fun _ h => h) ?_ ?_
      · rintro _ t ⟨rs, found, after⟩
        exact ⟨chunkRequest d first :: rs, by simp [found], by simpa using after⟩
      · exact fun _ _ failed => failed.mono fun h => by simp [h]
    | (some chunk, cursor) =>
      refine triple_reject (fun retired t _ => .inl ⟨rfl, by simp [retired]⟩) fun ok => ?_
      simp only [ok, if_true]
      exact triple_consequence (ih _ cursor _ acc) (fun t same => same ▸ noted)
        (fun _ _ h => h) fun _ _ h => h

theorem captureComponent_asks (steady : services.Steady alive valid) :
    Asks services (captureComponent services published d p draft)
      (componentRequests alive valid published d p) := by
  intro acc
  unfold captureComponent componentRequests
  by_cases kind : d.kind = .privateState
  · simp only [kind, if_true]
    refine triple_bind (save_noted _ _) fun _ => ?_
    exact triple_pure fun _ noted => ⟨_, rfl, noted⟩
  simp only [kind, if_false]
  refine triple_bind (triple_consequence (chunkLoop_asks steady _ _ _ _ acc) (fun _ h => h)
    (fun _ _ h => h) fun _ _ failed => failed.mono fun h => by rw [h]; rfl) fun draft => ?_
  refine triple_of_start fun s ⟨rs, found, noted⟩ => ?_
  rw [found]
  unfold tailRequests
  refine triple_ite (fun part => ?_) fun complete => ?_
  · refine triple_bind (triple_consequence (save_noted (acc ++ rs) _)
      (fun t same => same ▸ noted) (fun _ _ h => h) fun _ _ h => h) fun _ => ?_
    exact triple_pure fun t after => ⟨_, rfl, by simpa [part] using after⟩
  · exact triple_pure fun t same => ⟨_, rfl, by simpa [complete, same] using noted⟩

theorem captureLoop_asks (steady : services.Steady alive valid) :
    ∀ (ds : List ComponentDescriptor) (draft : Draft),
      (∀ d ∈ ds, positionFor positions d.id ≠ none) →
      Asks services (captureLoop services published positions ds draft)
        (requests alive valid published positions ds) := by
  intro ds
  induction ds with
  | nil => exact fun _ _ acc => triple_pure fun s noted => ⟨[], rfl, by simpa using noted⟩
  | cons d rest ih =>
    intro draft placed acc
    unfold captureLoop requests
    cases found : positionFor positions d.id with
    | none => exact absurd found (placed d List.mem_cons_self)
    | some p =>
      refine triple_bind (triple_consequence (captureComponent_asks steady acc) (fun _ h => h)
        (fun _ _ h => h) fun _ _ failed => failed.mono fun h => by simp [h]) fun draft => ?_
      refine triple_of_start fun s ⟨here, first, noted⟩ => ?_
      refine triple_consequence (ih draft (fun d mem => placed d (List.mem_cons_of_mem _ mem)) _)
        (fun t same => same ▸ noted) ?_ ?_
      · rintro _ t ⟨later, second, after⟩
        exact ⟨here ++ later, by simp [first, second], by simpa using after⟩
      · exact fun _ _ failed => failed.mono fun h => by simp [h]

/-- Prepared or not, in the end every request has been issued, in order. -/
theorem capturePlan_issued (acc : List PayloadRequest) (needed : Option (List PayloadRequest)) :
    Triple (Noted services acc) (capturePlan services)
      (fun _ s => s.issued = acc ∧ (services.hasPrepare → s.planned = acc))
      (fun e _ => Failed services needed e) := by
  unfold capturePlan Noted
  by_cases prepare : services.hasPrepare
  · simp only [prepare, if_true, true_implies]
    refine triple_get_bind fun s noted => ?_
    refine triple_ite (fun _ => ?_) fun unprepared => ?_
    · rw [noted.2]
      have loop := triple_forM (f := issue services)
        (I := fun rest t => t.planned = acc ∧ t.issued ++ rest = acc)
        (E := fun e _ => Failed services needed e) (fun r rest => triple_of_start fun t start =>
          triple_consequence (issue_issued t.issued t.planned needed)
            (fun u same => same ▸ ⟨rfl, rfl⟩)
            (fun _ u done => ⟨by rw [done.2, start.1], by rw [done.1, ← start.2]; simp⟩)
            fun _ _ h => h) acc
      exact triple_consequence loop (fun t same => same ▸ ⟨noted.2, by simp [noted.1]⟩)
        (fun _ t done => ⟨by simpa using done.2, done.1⟩) fun _ _ h => h
    · refine triple_throw fun _ _ => .inr ⟨by simp [Error.OfWorld], fun willing => ?_⟩
      exact unprepared (willing.prepared _)
  · simp only [prepare, if_false, Bool.false_eq_true, false_implies, and_true]
    exact triple_pure fun _ noted => noted.1

end Gufo.Execution
