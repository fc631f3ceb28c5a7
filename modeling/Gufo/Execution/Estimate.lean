import Gufo.Execution.Requests

/-!
# The estimate and the capture

`NewPayloadBytes` and `Capture` walk over the components on their own. Both follow the
same list of requests: the estimate is its total, the capture asks for its members.
-/

open Gufo.Program

namespace Gufo.Execution

variable {services : Services} {alive valid : ChunkRef → Bool} {d : ComponentDescriptor}
  {positions : List ComponentPosition} {previous : List ComponentPosition}
  {published cursor : List Entry} {h : ExecutionHistory} {heap : Heap}
  {request : CheckpointRequest} {rs : List PayloadRequest} {bytes b : Nat} {e : Error}

/-! ## The estimate is the total -/

theorem addBytes_ok {a c : Nat} : addBytes a c = .ok b ↔ b = a + c ∧ fits b := by
  unfold addBytes
  split
  · rename_i within
    constructor
    · rintro ⟨⟩
      exact ⟨rfl, within⟩
    · rintro ⟨rfl, _⟩
      rfl
  · rename_i beyond
    constructor
    · rintro ⟨⟩
    · rintro ⟨rfl, within⟩
      exact absurd within beyond

theorem bind_ok {α β : Type} {x : Except Error α} {f : α → Except Error β} {c : β} :
    x >>= f = .ok c ↔ ∃ a, x = .ok a ∧ f a = .ok c := by
  cases x with
  | ok a =>
    constructor
    · exact fun run => ⟨a, rfl, run⟩
    · rintro ⟨_, ⟨⟩, run⟩
      exact run
  | error e =>
    constructor
    · rintro ⟨⟩
    · rintro ⟨_, ⟨⟩, _⟩

theorem error_of_not_ok {α : Type} {x : Except Error α} (h : ∀ a, x ≠ .ok a) :
    ∃ e, x = .error e := by
  cases x with
  | ok a => exact absurd rfl (h a)
  | error e => exact ⟨e, rfl⟩

theorem fits.of_le {n m : Nat} (h : fits m) (le : n ≤ m) : fits n := Nat.lt_of_le_of_lt le h

theorem estimateChunks_ok :
    ∀ (left first : Nat) (cursor : List Entry) (bytes : Nat), fits bytes →
      (estimateChunks alive valid d left first cursor bytes = .ok b ↔
        ∃ rs, chunkRequests alive valid d left first cursor = some rs ∧
          b = bytes + total rs ∧ fits b) := by
  intro left
  induction left with
  | zero =>
    intro first cursor bytes within
    simp only [estimateChunks, chunkRequests, Except.ok.injEq, Option.some.injEq, exists_eq_left',
      total_nil, Nat.add_zero]
    exact ⟨fun same => ⟨same.symm, same ▸ within⟩, fun same => same.1.symm⟩
  | succ left ih =>
    intro first cursor bytes within
    unfold estimateChunks chunkRequests
    match find alive d.id first cursor with
    | (none, cursor) =>
      simp only [bind_ok, addBytes_ok]
      constructor
      · rintro ⟨_, ⟨rfl, sum⟩, run⟩
        obtain ⟨rs, found, eq, all⟩ := (ih _ _ _ sum).mp run
        exact ⟨chunkRequest d first :: rs, by simp [found], by simp [eq, chunkRequest]; omega, all⟩
      · rintro ⟨rs, found, eq, all⟩
        obtain ⟨later, left, rfl⟩ := Option.map_eq_some_iff.mp found
        simp only [total_cons, chunkRequest] at eq
        have sum : fits (bytes + d.rowsPerChunk * d.rowBytes) := all.of_le (by omega)
        exact ⟨_, ⟨rfl, sum⟩, (ih _ _ _ sum).mpr ⟨later, left, by omega, all⟩⟩
    | (some chunk, cursor) =>
      cases ok : valid chunk
      · simp [ok]
      · simpa [ok] using ih _ _ _ within

theorem estimateLoop_ok :
    ∀ (ds : List ComponentDescriptor) (previous : List ComponentPosition) (bytes : Nat),
      fits bytes →
      (estimateLoop alive valid published positions ds previous bytes = .ok b ↔
        (∃ n, countChunks positions ds previous = .ok n) ∧
        ∃ rs, requests alive valid published positions ds = some rs ∧
          b = bytes + total rs ∧ fits b) := by
  intro ds
  induction ds with
  | nil =>
    intro previous bytes within
    simp only [estimateLoop, countChunks, requests, Except.ok.injEq, Option.some.injEq,
      exists_eq', true_and, exists_eq_left', total_nil, Nat.add_zero]
    exact ⟨fun same => ⟨same.symm, same ▸ within⟩, fun same => same.1.symm⟩
  | cons d rest ih =>
    intro previous bytes within
    unfold estimateLoop countChunks requests componentRequests
    cases positionFor positions d.id with
    | none => simp
    | some p =>
      dsimp only
      split
      · simp
      by_cases kind : d.kind = .privateState
      · simp only [kind, if_true, reduceCtorEq, if_false, bind_ok, addBytes_ok]
        constructor
        · rintro ⟨_, ⟨rfl, sum⟩, run⟩
          obtain ⟨counted, rs, found, eq, all⟩ := (ih _ _ sum).mp run
          exact ⟨counted, stateRequest d p.validRows :: rs, by simp [found],
            by simp [eq, stateRequest]; omega, all⟩
        · rintro ⟨counted, rs, found, eq, all⟩
          simp only [Option.bind_eq_bind, Option.bind_some, Option.bind_eq_some_iff,
            Option.pure_def, Option.some.injEq] at found
          obtain ⟨later, found, rfl⟩ := found
          simp only [List.singleton_append, total_cons, stateRequest] at eq
          have sum : fits (bytes + d.stateBytes) := all.of_le (by omega)
          exact ⟨_, ⟨rfl, sum⟩, (ih _ _ sum).mpr ⟨counted, later, found, by omega, all⟩⟩
      · have append : d.kind = .appendRows := by
          cases h : d.kind
          · rfl
          · exact absurd h kind
        simp only [append, reduceCtorEq, if_false, if_true]
        split
        · simp only [bind_ok, addBytes_ok]
          constructor
          · rintro ⟨_, ⟨rfl, sum⟩, middle, chunksRun, run⟩
            obtain ⟨here, found, rfl, part⟩ := (estimateChunks_ok _ _ _ _ sum).mp chunksRun
            obtain ⟨⟨n, counted⟩, later, found', eq, all⟩ := (ih _ _ part).mp run
            refine ⟨⟨_, n, counted, rfl⟩, (here ++ tailRequests d p.validRows) ++ later,
              by simp [found, found'], ?_, all⟩
            rw [eq, total_append, total_append, total_tailRequests]
            omega
          · rintro ⟨⟨_, n, counted, _⟩, rs, found, eq, all⟩
            simp only [Option.bind_eq_bind, Option.bind_eq_some_iff, Option.map_eq_some_iff,
              Option.pure_def, Option.some.injEq] at found
            obtain ⟨_, ⟨here, found, rfl⟩, later, found', rfl⟩ := found
            rw [total_append, total_append, total_tailRequests] at eq
            have sum : fits (bytes + (p.validRows - fullEnd d p.validRows) * d.rowBytes) :=
              all.of_le (by omega)
            have part : fits (bytes + (p.validRows - fullEnd d p.validRows) * d.rowBytes
                + total here) := all.of_le (by omega)
            exact ⟨_, ⟨rfl, sum⟩, _, (estimateChunks_ok _ _ _ _ sum).mpr ⟨here, found, rfl, part⟩,
              (ih _ _ part).mpr ⟨⟨n, counted⟩, later, found', by omega, all⟩⟩
        · simp

/-- The estimate is the total of the requests, where the positions are admitted. -/
theorem newPayloadBytes_ok :
    newPayloadBytes alive valid h positions = .ok b ↔
      positions.length = h.descriptors.length ∧
      (∃ n, countChunks positions h.descriptors h.positions = .ok n) ∧
      ∃ rs, requests alive valid h.entries positions h.descriptors = some rs ∧
        b = total rs ∧ fits b := by
  unfold newPayloadBytes
  split
  · rename_i differ
    constructor
    · rintro ⟨⟩
    · rintro ⟨same, _⟩
      exact absurd same differ
  · rename_i same
    rw [estimateLoop_ok _ _ _ (by decide)]
    simp [not_not.mp same]

/-! ## The checks of a capture -/

/-- Everything about the request but its positions goes on from the history. -/
structure CheckpointRequest.Continues (request : CheckpointRequest) (h : ExecutionHistory) :
    Prop where
  tokens : h.tokens <+: request.tokens
  unchanged : ∃ input, request.input.at_ h.tokens.length = some input ∧
    (h.positions ≠ [] → h.input = input)
  input : ∃ input, request.input.at_ request.tokens.length = some input

theorem placed_of_countChunks :
    ∀ {ds : List ComponentDescriptor} {previous : List ComponentPosition} {n : Nat},
      countChunks positions ds previous = .ok n → ∀ d ∈ ds, positionFor positions d.id ≠ none := by
  intro ds
  induction ds with
  | nil => exact fun _ d mem => by cases mem
  | cons d rest ih =>
    intro previous n run
    unfold countChunks at run
    cases found : positionFor positions d.id with
    | none => simp [found] at run
    | some p =>
      simp only [found] at run
      have later : ∃ m, countChunks positions rest previous.tail = .ok m := by
        split at run
        · cases run
        split at run
        · split at run
          · obtain ⟨m, counted, _⟩ := bind_ok.mp run
            exact ⟨m, counted⟩
          · cases run
        · exact ⟨n, run⟩
      obtain ⟨m, later⟩ := later
      intro d' mem
      cases mem with
      | head => simp [found]
      | tail _ mem => exact ih later d' mem

/-- Errors for the positions of a request. -/
def Error.OfPositions (e : Error) : Prop := e ∈ [.positions, .rewound, .rowBytes]

theorem admitRequest_ok {n : Nat} {input : Identity}
    (run : admitRequest services h request = .ok (n, input)) :
    request.positions.length = h.descriptors.length ∧
      countChunks request.positions h.descriptors h.positions = .ok n := by
  unfold admitRequest at run
  split at run
  · cases run
  split at run
  · cases run
  split at run
  · cases run
  split at run
  · cases run
  rename_i counted
  split at run
  · cases run
  cases run
  exact ⟨by tauto, counted⟩

theorem admitRequest_error (run : admitRequest services h request = .error e) :
    e ∈ [.continuation, .inputQuery, .inputChanged] ∨
      countChunks request.positions h.descriptors h.positions = .error e := by
  unfold admitRequest at run
  split at run
  · cases run
    simp
  split at run
  · cases run
    simp
  split at run
  · cases run
    simp
  split at run
  · rename_i counted
    cases run
    exact .inr counted
  split at run
  · cases run
    simp
  · cases run

/-- Where the rest of the request is right, the checks fail for the positions alone. -/
theorem admitRequest_error_iff (callback : services.hasCapture)
    (continues : request.Continues h) :
    (∃ e, admitRequest services h request = .error e) ↔
      request.positions.length ≠ h.descriptors.length ∨
      ∃ e, countChunks request.positions h.descriptors h.positions = .error e := by
  obtain ⟨previous, asked, unchanged⟩ := continues.unchanged
  obtain ⟨input, found⟩ := continues.input
  have same : ¬(h.positions ≠ [] ∧ h.input ≠ previous) := fun ⟨ne, differ⟩ =>
    differ (unchanged ne)
  unfold admitRequest
  by_cases length : request.positions.length = h.descriptors.length
  · simp only [length, callback, continues.tokens, asked, found, if_neg same]
    cases countChunks request.positions h.descriptors h.positions <;> simp
  · simp [length]

/-! ## The capture follows the list -/

theorem capture_asks (h : ExecutionHistory) (heap : Heap) (request : CheckpointRequest)
    (steady : services.Steady alive valid) :
    Triple (fun s => s = Call.start h heap) (capture services request)
      (fun _ s => request.positions.length = h.descriptors.length ∧
        (∃ n, countChunks request.positions h.descriptors h.positions = .ok n) ∧
        ∃ rs, requests alive valid h.entries request.positions h.descriptors = some rs ∧
          s.issued = rs ∧ (services.hasPrepare → s.planned = rs))
      (fun e _ => admitRequest services h request = .error e ∨
        ((∃ a, admitRequest services h request = .ok a) ∧
          Failed services (requests alive valid h.entries request.positions h.descriptors) e)) := by
  refine triple_get_bind fun s start => ?_
  subst start
  cases admitted : admitRequest services h request with
  | error e =>
    refine triple_bind (R := fun _ _ => False) ?_ fun _ _ impossible => impossible.elim
    simp only [Call.start, admitted]
    exact triple_throw fun _ _ => .inl rfl
  | ok a =>
    obtain ⟨length, counted⟩ := admitRequest_ok admitted
    let needed := requests alive valid h.entries request.positions h.descriptors
    have later : ∀ e (_ : Call), Failed services needed e →
        (.ok a : Except Error (Nat × Identity)) = .error e ∨
          ((∃ a', (.ok a : Except Error (Nat × Identity)) = .ok a') ∧ Failed services needed e) :=
      fun e _ failed => .inr ⟨⟨a, rfl⟩, failed⟩
    refine triple_consequence ?_ (fun _ h => h) (fun _ _ h => h) later
    refine triple_bind (R := fun out s => out = a ∧ Noted services [] s) ?_ ?_
    · simp only [Call.start, admitted]
      exact triple_pure fun s same => ⟨rfl, by subst same; simp [Noted]⟩
    rintro ⟨n, input⟩
    refine triple_of_start fun s ⟨same, noted⟩ => ?_
    subst same
    refine triple_bind (triple_consequence (ask_noted _) (fun t same => same ▸ noted)
      (fun _ _ h => h) fun _ _ h => h) fun _ => ?_
    refine triple_bind (askWhen_noted _ _) fun _ => ?_
    refine triple_bind (ask_noted _) fun _ => ?_
    refine triple_get_bind fun s noted => ?_
    refine triple_bind (R := fun _ => Noted services []) (triple_set fun _ _ => noted) fun _ => ?_
    refine triple_bind (askWhen_noted _ _) fun _ => ?_
    refine triple_bind (captureLoop_asks steady _ _ (placed_of_countChunks counted) [])
      fun draft => ?_
    refine triple_of_start fun s ⟨rs, found, noted⟩ => ?_
    refine triple_bind (triple_consequence (capturePlan_issued rs _)
      (fun t same => same ▸ noted) (fun _ _ h => h) fun _ _ h => h) fun _ => ?_
    refine triple_bind (R := fun _ t => t.issued = rs ∧ (services.hasPrepare → t.planned = rs))
      (ask_keeps _ fun _ _ h => h) fun _ => ?_
    refine triple_bind (R := fun _ t => t.issued = rs ∧ (services.hasPrepare → t.planned = rs))
      (triple_modify fun _ h => h) fun _ => ?_
    exact triple_pure fun t done => ⟨length, ⟨n, counted⟩, rs, found, done⟩

/-! ## Agreement -/

/-- The estimate is the total of what a capture at the same positions asks for, at once or
through the prepare callback. It refuses exactly what a willing world's capture refuses for
its positions or for a retired chunk, and the requests whose bytes do not fit. -/
theorem newPayloadBytes_agrees (steady : services.Steady alive valid) :
    (∀ b checkpoint t,
      newPayloadBytes alive valid h request.positions = .ok b →
      capture services request (Call.start h heap) = .ok checkpoint t →
      total t.issued = b ∧ (services.hasPrepare → t.planned = t.issued)) ∧
    (∀ e t, capture services request (Call.start h heap) = .error e t →
      e.OfPositions ∨ e = .retired →
      ∃ e, newPayloadBytes alive valid h request.positions = .error e) ∧
    (services.Willing → request.Continues h →
      ((∃ e, newPayloadBytes alive valid h request.positions = .error e) ↔
        (∃ e t, capture services request (Call.start h heap) = .error e t) ∨
        ∃ checkpoint t, capture services request (Call.start h heap) = .ok checkpoint t ∧
          ¬fits (total t.issued))) := by
  have asks := capture_asks h heap request steady
  refine ⟨fun b checkpoint t estimated run => ?_, fun e t run positional => ?_,
    fun willing continues => ?_⟩
  · obtain ⟨_, _, rs, found, issued, planned⟩ := asks.ok rfl run
    obtain ⟨_, _, rs', found', eq, _⟩ := newPayloadBytes_ok.mp estimated
    rw [found] at found'
    cases found'
    exact ⟨by rw [issued, eq], fun prepare => (planned prepare).trans issued.symm⟩
  · refine error_of_not_ok fun b estimated => ?_
    obtain ⟨length, ⟨n, counted⟩, rs, found, _⟩ := newPayloadBytes_ok.mp estimated
    rcases asks.error rfl run with rejected | ⟨_, failed⟩
    · rcases admitRequest_error rejected with other | again
      · rcases positional with of | rfl
        · simp only [Error.OfPositions, List.mem_cons, List.not_mem_nil, or_false] at of other
          rcases of with rfl | rfl | rfl <;> simp at other
        · simp at other
      · rw [counted] at again
        cases again
    · rcases failed with ⟨_, missing⟩ | ⟨world, _⟩
      · rw [found] at missing
        cases missing
      · rcases positional with of | rfl
        · simp only [Error.OfPositions, Error.OfWorld, List.mem_cons, List.not_mem_nil,
            or_false] at of world
          rcases of with rfl | rfl | rfl <;> simp at world
        · simp [Error.OfWorld] at world
  · cases run : capture services request (Call.start h heap) with
    | ok checkpoint t =>
      obtain ⟨length, counted, rs, found, issued, _⟩ := asks.ok rfl run
      have estimate : ∀ b, newPayloadBytes alive valid h request.positions = .ok b ↔
          b = total t.issued ∧ fits b := fun b => by
        rw [newPayloadBytes_ok]
        simp [length, counted, found, issued]
      constructor
      · rintro ⟨e, rejected⟩
        refine .inr ⟨checkpoint, t, rfl, fun within => ?_⟩
        rw [(estimate _).mpr ⟨rfl, within⟩] at rejected
        cases rejected
      · rintro (⟨_, _, ⟨⟩⟩ | ⟨_, _, ⟨⟩, beyond⟩)
        exact error_of_not_ok fun b estimated => beyond (((estimate b).mp estimated).1 ▸
          ((estimate b).mp estimated).2)
    | error e t =>
      refine iff_of_true (error_of_not_ok fun b estimated => ?_) (.inl ⟨e, t, rfl⟩)
      obtain ⟨length, ⟨n, counted⟩, rs, found, _⟩ := newPayloadBytes_ok.mp estimated
      rcases asks.error rfl run with rejected | ⟨_, failed⟩
      · rcases (admitRequest_error_iff willing.callback continues).mp ⟨e, rejected⟩ with
          differ | ⟨_, again⟩
        · exact differ length
        · rw [counted] at again
          cases again
      · rcases failed with ⟨_, missing⟩ | ⟨_, unwilling⟩
        · rw [found] at missing
          cases missing
        · exact unwilling willing

/-- Rows of four bytes in chunks of two, and a private state of eight bytes. -/
def smallHistory : ExecutionHistory where
  descriptors := [{ id := 1, kind := .appendRows, rowBytes := 4, rowsPerChunk := 2 },
    { id := 2, kind := .privateState, stateBytes := 8 }]
  compatibility := []

def smallRequest : CheckpointRequest :=
  ⟨[10, 11, 12], { tokenCount := 3 }, [⟨2, 3⟩, ⟨1, 3⟩]⟩

theorem newPayloadBytes_agrees_small :
    (∀ checkpoint t, capture {} smallRequest (Call.start smallHistory {}) = .ok checkpoint t →
      total t.issued = 20) ∧
    ¬∃ e t, capture {} smallRequest (Call.start smallHistory {}) = .error e t := by
  have steady : Services.Steady {} (fun _ => true) fun _ => true := ⟨fun _ => rfl, fun _ => rfl⟩
  have estimated : newPayloadBytes (fun _ => true) (fun _ => true) smallHistory
      smallRequest.positions = .ok 20 := by decide
  refine ⟨fun _ _ run => ((newPayloadBytes_agrees steady).1 _ _ _ estimated run).1,
    fun failed => ?_⟩
  obtain ⟨e, refused⟩ := ((newPayloadBytes_agrees steady).2.2 ⟨rfl, fun _ => rfl, fun _ _ => rfl,
    fun _ => rfl⟩ ⟨by decide, ⟨_, rfl, fun impossible => absurd rfl impossible⟩, ⟨_, rfl⟩⟩).mpr
      (.inl failed)
  cases refused

/-- Two private states whose bytes fit one by one, but not together. -/
def vastHistory : ExecutionHistory where
  descriptors := [{ id := 1, kind := .privateState, stateBytes := 2 ^ 63 },
    { id := 2, kind := .privateState, stateBytes := 2 ^ 63 }]
  compatibility := []

/-- The estimate refuses positions that the capture accepts, and no chunk is involved. -/
theorem vast_estimate_refused :
    validDescriptors vastHistory.descriptors ∧
    newPayloadBytes (fun _ => true) (fun _ => true) vastHistory [⟨1, 0⟩, ⟨2, 0⟩] =
      .error .totalBytes ∧
    ∃ checkpoint t, capture {} ⟨[], {}, [⟨1, 0⟩, ⟨2, 0⟩]⟩ (Call.start vastHistory {}) =
      .ok checkpoint t :=
  ⟨by decide, by decide, _, _, rfl⟩

end Gufo.Execution
