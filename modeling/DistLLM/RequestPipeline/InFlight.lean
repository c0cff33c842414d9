import DistLLM.Library.Dict

/-!
# Requests in flight

`RequestFingerprinter` and the exits of `RequestPipeline.generate`. What the other calls of
`generate` give is data, and other requests may use the fingerprinter in the meantime.
-/
namespace DistLLM.RequestPipeline

open DistLLM.Library

structure RequestFingerprinter where
  enableDedup : Bool := true
  /-- The ids of the requests for each fingerprint. -/
  inFlight : Dict String (List String) := ∅
  inFlightResults : Dict String String := ∅

namespace RequestFingerprinter

variable (f : RequestFingerprinter) (fingerprint requestId : String)

def markInFlight : RequestFingerprinter :=
  if f.enableDedup then
    { f with
      inFlight := f.inFlight.set fingerprint ((f.inFlight.getD fingerprint []).insert requestId)
      inFlightResults := f.inFlightResults.filterKeys fun key => decide (key ≠ fingerprint) }
  else f

def clearInFlight : RequestFingerprinter :=
  match f.inFlight.get? fingerprint with
  | none => f
  | some [] => f
  | some ids =>
    let ids := ids.filter fun id => decide (id ≠ requestId)
    if ids = [] then
      { f with
        inFlight := f.inFlight.filterKeys fun key => decide (key ≠ fingerprint)
        inFlightResults := f.inFlightResults.filterKeys fun key => decide (key ≠ fingerprint) }
    else { f with inFlight := f.inFlight.set fingerprint ids }

def isInFlight : Bool :=
  match f.inFlight.get? fingerprint with
  | none => false
  | some ids => decide (0 < ids.length)

/-- Of `store`, the result that the waiting requests get: the empty response is none. -/
def store (response : String) : RequestFingerprinter :=
  if response ≠ "" then
    { f with inFlightResults := f.inFlightResults.set fingerprint response }
  else f

def Holds : Prop := requestId ∈ f.inFlight.getD fingerprint []

instance : Decidable (f.Holds fingerprint requestId) := inferInstanceAs (Decidable (_ ∈ _))

end RequestFingerprinter

/-- What a request does with the fingerprinter. -/
inductive Use
  | mark (fingerprint requestId : String)
  | clear (fingerprint requestId : String)
  | store (fingerprint requestId response : String)

def RequestFingerprinter.use (f : RequestFingerprinter) : Use → RequestFingerprinter
  | .mark fingerprint requestId => f.markInFlight fingerprint requestId
  | .clear fingerprint requestId => f.clearInFlight fingerprint requestId
  | .store fingerprint _ response => f.store fingerprint response

def RequestFingerprinter.useAll (f : RequestFingerprinter) (uses : List Use) :
    RequestFingerprinter := uses.foldl RequestFingerprinter.use f

/-- What the calls of `generate` give, in their order, and `none` where one raises. The default is
what lets `generate` go on, as where the component of the call is absent. -/
structure Calls where
  /-- The rate limiter refuses the request. -/
  refused : Bool := false
  /-- `wait_for_result`. -/
  waited : Option String := none
  /-- Other requests, up to the mark. -/
  before : List Use := []
  /-- Other requests, between the mark and the exit. -/
  meanwhile : List Use := []
  /-- The prompt cache's answer. -/
  lookup : Option (Option String) := some none
  recordHit : Option Unit := some ()
  /-- The degradation level is 3 at least. -/
  degraded : Option Bool := some false
  partialResponse : Option String := some ""
  recordDegraded : Option Unit := some ()
  recordProcessing : Option Unit := some ()
  promptLen : Option Unit := some ()
  setWorkloadType : Option Unit := some ()
  /-- Also `none` without a tokenizer. -/
  inputIds : Option Unit := some ()
  /-- There are nodes. -/
  nodeOrder : Bool := false
  distributed : Option String := some ""
  /-- The decoder has EAGLE heads. -/
  eagle : Bool := false
  eagleSync : Option String := some ""
  recordEagle : Option Unit := some ()
  fullModel : Option String := some ""
  /-- The metrics behind a generation. -/
  recordMetrics : Option Unit := some ()
  updateResponse : Option Unit := some ()

/-- A response, or none of a call that raised, and the fingerprinter behind it. -/
abbrev Exit := Option String × RequestFingerprinter

/-- One call: where it raises, so does `generate`. -/
def attempt {α : Type} (f : RequestFingerprinter) (call : Option α) (next : α → Exit) : Exit :=
  match call with
  | none => (none, f)
  | some answer => next answer

section
variable (fingerprint requestId : String) (calls : Calls) (f : RequestFingerprinter)

def finish (result : String) : Exit :=
  attempt f calls.recordMetrics fun _ =>
  attempt f calls.updateResponse fun _ =>
  (some result, (f.store fingerprint result).clearInFlight fingerprint requestId)

def generateMarked : Exit :=
  attempt f calls.lookup fun cacheHit =>
  match cacheHit with
  | some result =>
    attempt f calls.recordHit fun _ => (some result, f.clearInFlight fingerprint requestId)
  | none =>
    attempt f calls.degraded fun degraded =>
    if degraded then
      attempt f calls.partialResponse fun result =>
      attempt f calls.recordDegraded fun _ => (some result, f.clearInFlight fingerprint requestId)
    else
      attempt f calls.recordProcessing fun _ =>
      attempt f calls.promptLen fun _ =>
      attempt f calls.setWorkloadType fun _ =>
      attempt f calls.inputIds fun _ =>
      if calls.nodeOrder then
        attempt f calls.distributed (finish fingerprint requestId calls f)
      else if calls.eagle then
        -- this one returns from inside of the try
        attempt f calls.eagleSync fun result =>
        attempt f calls.recordEagle fun _ => (some result, f)
      else attempt f calls.fullModel (finish fingerprint requestId calls f)

def generate : Exit :=
  if calls.refused then (none, f)
  else
    match if f.isInFlight fingerprint then calls.waited else none with
    | some cached => (some cached, f.useAll calls.before)
    | none =>
      let marked := (f.useAll calls.before).markInFlight fingerprint requestId
      generateMarked fingerprint requestId calls
        ((marked.store fingerprint "").useAll calls.meanwhile)

end

/-! ### The fingerprinter -/

namespace RequestFingerprinter

variable {f : RequestFingerprinter} {fingerprint requestId key id : String}

theorem holds_markInFlight : (f.markInFlight fingerprint requestId).Holds key id ↔
      f.Holds key id ∨ f.enableDedup = true ∧ fingerprint = key ∧ requestId = id := by
  unfold markInFlight Holds
  cases dedup : f.enableDedup with
  | false => simp
  | true =>
    simp only [if_true, Dict.getD_set]
    by_cases same : fingerprint = key
    · subst same
      simp only [if_true, List.mem_insert_iff, true_and]
      rw [or_comm, eq_comm]
    · simp [same]

theorem mem_discard (ids : List String) :
    id ∈ ids.filter (fun other => decide (other ≠ requestId)) ↔ id ∈ ids ∧ requestId ≠ id := by
  rw [List.mem_filter, decide_eq_true_eq, ne_comm]

theorem holds_clearInFlight : (f.clearInFlight fingerprint requestId).Holds key id ↔
      f.Holds key id ∧ ¬ (fingerprint = key ∧ requestId = id) := by
  -- an emptied set goes with its key, which is read as an empty set
  have discarded : (f.clearInFlight fingerprint requestId).inFlight.getD key [] =
      if fingerprint = key then
        (f.inFlight.getD key []).filter fun other => decide (other ≠ requestId)
      else f.inFlight.getD key [] := by
    unfold clearInFlight
    split
    next absent =>
      split
      next same => simp [Dict.getD, ← same, absent]
      next => rfl
    next empty =>
      split
      next same => simp [Dict.getD, ← same, empty]
      next => rfl
    next ids _ filled =>
      have held : f.inFlight.getD fingerprint [] = ids := by simp [Dict.getD, filled]
      simp only
      split
      next last =>
        rw [Dict.getD_filterKeys]
        by_cases same : fingerprint = key
        · subst same
          rw [held, last]
          simp
        · simp [same, Ne.symm same]
      next =>
        rw [Dict.getD_set]
        by_cases same : fingerprint = key
        · subst same
          simp [held]
        · simp [same]
  rw [Holds, Holds, discarded]
  by_cases same : fingerprint = key
  · rw [if_pos same, mem_discard]
    simp [same]
  · simp [same]

theorem holds_store {response : String} :
    (f.store fingerprint response).Holds key id ↔ f.Holds key id := by
  unfold store
  split <;> rfl

@[simp] theorem use_enableDedup (use : Use) : (f.use use).enableDedup = f.enableDedup := by
  cases use with
  | mark key id =>
    simp only [RequestFingerprinter.use, markInFlight]
    split <;> rfl
  | clear key id =>
    simp only [RequestFingerprinter.use, clearInFlight]
    split
    · rfl
    · rfl
    · split <;> rfl
  | store key id response =>
    simp only [RequestFingerprinter.use, store]
    split <;> rfl

@[simp] theorem useAll_cons (use : Use) (uses : List Use) :
    f.useAll (use :: uses) = (f.use use).useAll uses := rfl

theorem useAll_enableDedup (uses : List Use) : (f.useAll uses).enableDedup = f.enableDedup := by
  induction uses generalizing f with
  | nil => rfl
  | cons use uses ih => rw [useAll_cons, ih, use_enableDedup]

/-- The use is one of another request, or for another fingerprint. -/
def Other (fingerprint requestId : String) : Use → Prop
  | .mark key id => ¬ (key = fingerprint ∧ id = requestId)
  | .clear key id => ¬ (key = fingerprint ∧ id = requestId)
  | .store .. => True

theorem holds_use_other {use : Use} (other : Other fingerprint requestId use) :
    (f.use use).Holds fingerprint requestId ↔ f.Holds fingerprint requestId := by
  cases use with
  | mark key id =>
    rw [RequestFingerprinter.use, holds_markInFlight]
    exact or_iff_left fun mine => other mine.2
  | clear key id =>
    rw [RequestFingerprinter.use, holds_clearInFlight]
    exact and_iff_left other
  | store key id response => exact holds_store

theorem holds_useAll_other {uses : List Use}
    (others : ∀ use ∈ uses, Other fingerprint requestId use) :
    (f.useAll uses).Holds fingerprint requestId ↔ f.Holds fingerprint requestId := by
  induction uses generalizing f with
  | nil => rfl
  | cons use uses ih =>
    obtain ⟨first, rest⟩ := List.forall_mem_cons.mp others
    rw [useAll_cons, ih rest, holds_use_other first]

theorem use_unmarked (off : f.enableDedup = false) (none_held : ∀ key id, ¬ f.Holds key id)
    (use : Use) : ∀ key id, ¬ (f.use use).Holds key id := by
  intro key' id' held
  cases use with
  | mark key id =>
    rw [RequestFingerprinter.use, holds_markInFlight, off] at held
    exact held.elim (none_held _ _) fun marked => Bool.noConfusion marked.1
  | clear key id =>
    rw [RequestFingerprinter.use, holds_clearInFlight] at held
    exact none_held _ _ held.1
  | store key id response => exact none_held _ _ (holds_store.mp held)

theorem useAll_unmarked {uses : List Use} (off : f.enableDedup = false)
    (none_held : ∀ key id, ¬ f.Holds key id) : ∀ key id, ¬ (f.useAll uses).Holds key id := by
  induction uses generalizing f with
  | nil => exact none_held
  | cons use uses ih =>
    exact ih ((use_enableDedup use).trans off) (use_unmarked off none_held use)

def Reachable (f : RequestFingerprinter) : Prop :=
  ∃ dedup uses, f = useAll { enableDedup := dedup } uses

theorem Reachable.unmarked (reachable : f.Reachable) (off : f.enableDedup = false) :
    ∀ key id, ¬ f.Holds key id := by
  obtain ⟨dedup, uses, rfl⟩ := reachable
  rw [useAll_enableDedup] at off
  exact useAll_unmarked off fun key id => List.not_mem_nil

end RequestFingerprinter

/-! ### The exits -/

section
variable {f : RequestFingerprinter} {fingerprint requestId : String} {calls : Calls}

/-- The exit clears the mark: a cached response or a degraded one that the auditor takes, or a
generation that no call raises in and that the EAGLE heads do not do. -/
def Calls.Clears (calls : Calls) : Prop :=
  (∃ response, calls.lookup = some (some response)) ∧ calls.recordHit.isSome ∨
  calls.lookup = some none ∧
    (calls.degraded = some true ∧ calls.partialResponse.isSome ∧ calls.recordDegraded.isSome ∨
    calls.degraded = some false ∧ calls.recordProcessing.isSome ∧ calls.promptLen.isSome ∧
      calls.setWorkloadType.isSome ∧ calls.inputIds.isSome ∧
      (calls.nodeOrder = true ∧ calls.distributed.isSome ∨
        calls.nodeOrder = false ∧ calls.eagle = false ∧ calls.fullModel.isSome) ∧
      calls.recordMetrics.isSome ∧ calls.updateResponse.isSome)

@[simp] theorem attempt_none {α : Type} (next : α → Exit) : attempt f none next = (none, f) := rfl

@[simp] theorem attempt_some {α : Type} (answer : α) (next : α → Exit) :
    attempt f (some answer) next = next answer := rfl

theorem cleared (f : RequestFingerprinter) :
    ¬ (f.clearInFlight fingerprint requestId).Holds fingerprint requestId := by
  rw [RequestFingerprinter.holds_clearInFlight]
  exact fun held => held.2 ⟨rfl, rfl⟩

theorem finish_spec (fingerprint requestId : String) (calls : Calls) (f : RequestFingerprinter)
    (result : String) : (calls.recordMetrics.isSome ∧ calls.updateResponse.isSome →
      ¬ (finish fingerprint requestId calls f result).2.Holds fingerprint requestId) ∧
    (¬ (calls.recordMetrics.isSome ∧ calls.updateResponse.isSome) →
      (finish fingerprint requestId calls f result).2 = f) := by
  unfold finish
  cases calls.recordMetrics with
  | none => simp
  | some _ =>
    cases calls.updateResponse with
    | none => simp
    | some _ => simpa using cleared _

theorem generateMarked_spec (fingerprint requestId : String) (calls : Calls)
    (f : RequestFingerprinter) : (calls.Clears →
        ¬ (generateMarked fingerprint requestId calls f).2.Holds fingerprint requestId) ∧
      (¬ calls.Clears → (generateMarked fingerprint requestId calls f).2 = f) := by
  have finished := finish_spec fingerprint requestId calls f
  unfold generateMarked Calls.Clears
  -- the calls in their order: a call that raises leaves the fingerprinter as it is
  rcases calls.lookup with _ | _ | response
  · simp
  · rcases calls.degraded with _ | degraded
    · simp
    · cases degraded with
      | true =>
        rcases calls.partialResponse with _ | partialResponse
        · simp
        rcases calls.recordDegraded with _ | _
        · simp
        simpa using cleared _
      | false =>
        rcases calls.recordProcessing with _ | _
        · simp
        rcases calls.promptLen with _ | _
        · simp
        rcases calls.setWorkloadType with _ | _
        · simp
        rcases calls.inputIds with _ | _
        · simp
        cases calls.nodeOrder with
        | true =>
          rcases calls.distributed with _ | result
          · simp
          · simpa using finished result
        | false =>
          cases calls.eagle with
          | true =>
            rcases calls.eagleSync with _ | result
            · simp
            rcases calls.recordEagle with _ | _ <;> simp
          | false =>
            rcases calls.fullModel with _ | result
            · simp
            · simpa using finished result
  · rcases calls.recordHit with _ | _
    · simp
    · simpa using cleared _

def Calls.Marks (calls : Calls) (f : RequestFingerprinter) (fingerprint : String) : Prop :=
  calls.refused = false ∧ (f.isInFlight fingerprint = true → calls.waited = none)

theorem generate_marked (marks : calls.Marks f fingerprint) :
    generate fingerprint requestId calls f = generateMarked fingerprint requestId calls
        ((((f.useAll calls.before).markInFlight fingerprint requestId).store fingerprint
          "").useAll calls.meanwhile) := by
  obtain ⟨served, waits⟩ := marks
  have uncached : (if f.isInFlight fingerprint then calls.waited else none) = none := by
    split
    next busy => exact waits busy
    next => rfl
  rw [generate, served, uncached]
  rfl

end

/-- **The release of the fingerprint.** A request that was marked is no longer in flight behind
`generate` if and only if there is no deduplication, or its exit clears the mark: the auditor takes
the cached or the degraded response, or no call of the generation raises and the EAGLE heads do not
do it. -/
theorem generate_released_iff {f : RequestFingerprinter} {fingerprint requestId : String}
    {calls : Calls} (reachable : f.Reachable) (marks : calls.Marks f fingerprint)
    (others : ∀ use ∈ calls.meanwhile, RequestFingerprinter.Other fingerprint requestId use) :
    ¬ (generate fingerprint requestId calls f).2.Holds fingerprint requestId ↔
      f.enableDedup = false ∨ calls.Clears := by
  rw [generate_marked marks]
  generalize running : (((f.useAll calls.before).markInFlight fingerprint requestId).store
    fingerprint "").useAll calls.meanwhile = g
  have held : g.Holds fingerprint requestId ↔ f.enableDedup = true := by
    rw [← running, RequestFingerprinter.holds_useAll_other others, RequestFingerprinter.holds_store,
      RequestFingerprinter.holds_markInFlight, RequestFingerprinter.useAll_enableDedup]
    refine ⟨?_, fun dedup => .inr ⟨dedup, rfl, rfl⟩⟩
    rintro (marked | ⟨dedup, -, -⟩)
    · by_contra off
      rw [Bool.not_eq_true] at off
      exact RequestFingerprinter.useAll_unmarked off (reachable.unmarked off) _ _ marked
    · exact dedup
  obtain ⟨clears, leaves⟩ := generateMarked_spec fingerprint requestId calls g
  by_cases exit : calls.Clears
  · exact iff_of_true (clears exit) (.inr exit)
  · rw [leaves exit, held]
    simp [exit]

/-- A generation that raises leaves its mark, with another request for the prompt beside it. -/
theorem generate_released_raise :
    ¬ ¬ (generate "f" "1" { fullModel := none, meanwhile := [.mark "f" "2", .clear "f" "2"] }
      {}).2.Holds "f" "1" := by
  have new : RequestFingerprinter.Reachable {} := ⟨true, [], rfl⟩
  rw [generate_released_iff new ⟨rfl, fun _ => rfl⟩ (by simp [RequestFingerprinter.Other])]
  simp [Calls.Clears]

/-- The EAGLE heads return a response, and the request is still in flight. -/
theorem eagle_in_flight : ¬ ∀ calls : Calls, calls.Marks {} "f" →
      ¬ (generate "f" "1" calls {}).2.Holds "f" "1" := by
  intro released
  exact released { eagle := true } ⟨rfl, fun _ => rfl⟩ (by decide)

end DistLLM.RequestPipeline
