import DistLLM.Scheduler.Requests

/-!
# The count of resident tokens

`_total_tokens` should be the total length of the active sequences. Promotion, eviction and
preemption keep the difference of the two. A step changes the lengths and the active set without
touching the counter, and a restoration counts every sequence that it restores, also one that is
active already.
-/
namespace DistLLM.Scheduler

open DistLLM.Library

variable {ρ : Type} [LinearOrder ρ] (s : BatchScheduler ρ)

namespace BatchScheduler

variable {s s' : BatchScheduler ρ}

def resident : Nat := (s.active.map s.totalLen).sum

def drift : Int := s.totalTokens - s.resident

omit [LinearOrder ρ] in
theorem drift_eq {active : List ρ} {lengths : ρ → Nat} (same : s.active = active)
    (each : ∀ rid ∈ active, s.totalLen rid = lengths rid) :
    s.drift = s.totalTokens - ((active.map lengths).sum : Nat) := by
  unfold drift resident
  rw [same, List.map_congr_left each]

theorem sum_foldl_insertKey (f : ρ → Nat) (keys : List ρ) {rids : List ρ} (distinct : rids.Nodup) :
    ((rids.foldl (fun keys rid => insertKey rid keys) keys).map f).sum +
        ((rids.filter fun rid => decide (rid ∈ keys)).map f).sum =
      (keys.map f).sum + (rids.map f).sum := by
  induction rids generalizing keys with
  | nil => simp
  | cons rid rest ih =>
    rw [List.nodup_cons] at distinct
    have tail := ih (insertKey rid keys) distinct.2
    -- the later keys are not the first one
    have same : (rest.filter fun other => decide (other ∈ insertKey rid keys)) =
        rest.filter fun other => decide (other ∈ keys) := by
      refine List.filter_congr fun other member => ?_
      have apart : other ≠ rid := fun equal => distinct.1 (equal ▸ member)
      simp [mem_insertKey, apart]
    rw [same] at tail
    rw [List.foldl_cons]
    by_cases present : rid ∈ keys
    · rw [insertKey_of_mem present] at *
      simp only [present, decide_true, List.filter_cons_of_pos, List.map_cons, List.sum_cons]
      omega
    · rw [insertKey_of_notMem present] at *
      simp only [present, decide_false, Bool.false_eq_true, not_false_eq_true,
        List.filter_cons_of_neg, List.map_cons, List.sum_cons, List.map_append, List.sum_append,
        List.map_nil, List.sum_nil] at *
      omega

omit [LinearOrder ρ] in
theorem sum_filter_add_not (part : ρ → Bool) (lengths : ρ → Nat) (active : List ρ) :
    ((active.filter part).map lengths).sum +
      ((active.filter fun rid => !part rid).map lengths).sum = (active.map lengths).sum := by
  simpa using List.sum_map_filter_add_sum_map_filter_not (fun rid => part rid = true) lengths active

/-! ### Operations -/

theorem drift_add {rid : ρ} {seq : Sequence} (new : rid ∉ s.active)
    (done : s.add rid seq = .ok s') : s'.drift = s.drift := by
  obtain ⟨heap, pushed, rfl⟩ := add_ok done
  refine drift_eq rfl fun other member => ?_
  have apart : other ≠ rid := fun equal => new (equal ▸ member)
  simp [totalLen, apart]

theorem drift_promoteRequest {rid : ρ} {newPriority : Int} {out : Bool × BatchScheduler ρ}
    (done : s.promoteRequest rid newPriority = .ok out) : out.2.drift = s.drift := by
  rcases promoteRequest_ok done with ⟨index, same⟩ | ⟨idx, inside, heap, sifted, same⟩
  · rw [same]
    rfl
  rw [same]
  refine drift_eq rfl fun other _ => ?_
  by_cases equal : other = (s.pendingHeap[idx]).requestId
  · subst equal
    simp [totalLen, Sequence.totalLen]
  · simp [totalLen, equal]

variable {kvCacheState : Option (List ρ)}

theorem drift_preemptLowest {minPriority : Int} {out : Option ρ × BatchScheduler ρ}
    (done : s.preemptLowest minPriority kvCacheState = .ok out) : out.2.drift = s.drift := by
  rcases preemptLowest_ok done with rfl | ⟨rid, heap, saved, member, pushed, rfl⟩
  · rfl
  have lengths : ∀ other ∈ s.active.erase rid,
      (s.setStatus rid .pending).totalLen other = s.totalLen other :=
    fun other _ => (setStatus_sameTokens s rid .pending).totalLen other
  -- the tokens leave the counter and the active set together
  have after := drift_eq (s := { s.setStatus rid .pending with
      active := s.active.erase rid, totalTokens := s.totalTokens - s.totalLen rid }) rfl lengths
  have erased := List.sum_map_erase s.totalLen member
  refine Eq.trans after ?_
  simp only [drift, resident]
  omega

theorem drift_restorePreempted {out : List ρ × BatchScheduler ρ} (distinct : s.preempted.Nodup)
    (done : s.restorePreempted kvCacheState = .ok out) :
    out.2.drift = s.drift + (((s.preempted.filter (s.restorable kvCacheState)).filter fun rid =>
        decide (rid ∈ s.active)).map s.totalLen).sum := by
  rcases restorePreempted_ok done with ⟨nobody, rfl⟩ | ⟨heap, saved, heapified, -, s', pushed, same⟩
  · simp [nobody]
  obtain ⟨frame, -⟩ := pushAll_ok pushed
  obtain ⟨-, sameTokens, active, tokens⟩ :=
    foldl_restoreOne (s.restorable kvCacheState) s.preempted s
  have after : out.2.drift = (s.totalTokens +
      ((s.preempted.filter (s.restorable kvCacheState)).map s.totalLen).sum) -
      ((((s.preempted.filter (s.restorable kvCacheState)).foldl
        (fun active rid => insertKey rid active) s.active).map s.totalLen).sum : Nat) := by
    rw [← tokens, same, frame]
    exact drift_eq active fun rid _ => sameTokens.totalLen rid
  -- who is active already is counted again, but is not a second time in the set
  have sums := sum_foldl_insertKey s.totalLen s.active
    (distinct.filter (s.restorable kvCacheState))
  rw [after]
  simp only [drift, resident]
  omega

theorem drift_build {budget : IterationBudget} {promoted : List ρ} {gone : List (PendingEntry ρ)}
    {out : Scheduled ρ} (built : Built s budget promoted gone out) :
    out.scheduler.drift = s.drift := by
  rw [drift_eq built.active fun rid _ => built.sameTokens.totalLen rid, built.totalTokens]
  have parts := sum_filter_add_not s.isComplete s.totalLen s.active
  simp only [drift, resident, List.map_append, List.sum_append]
  omega

def leaves (samples : List (ρ × Int)) (rid : ρ) : Bool :=
  samples.any fun sample => decide (sample.1 = rid) && (s.sequences rid).finishes sample.2

def grows (samples : List (ρ × Int)) (rid : ρ) : Bool :=
  samples.any fun sample => decide (sample.1 = rid) && !(s.sequences rid).finishes sample.2

/-- The lengths of the active sequences that `samples` completes, less one for each active
sequence that goes on. -/
def stepDrift (samples : List (ρ × Int)) : Int :=
  ((s.active.filter (s.leaves samples)).map s.totalLen).sum - s.active.countP (s.grows samples)

section Step

variable {batch : ScheduledBatch ρ} {nextTokens : List Int}

section

variable (distinct : batch.requestIds.Nodup) (lengths : nextTokens.length = batch.length) (rid : ρ)

include distinct lengths rid

theorem leaves_iff :
    s.leaves (batch.requestIds.zip nextTokens) rid = true ↔ rid ∈ (s.step batch nextTokens).1 := by
  simp only [leaves, List.any_eq_true, Bool.and_eq_true, decide_eq_true_eq]
  constructor
  · rintro ⟨⟨_, token⟩, sampled, rfl, ended⟩
    exact (mem_step_done distinct lengths sampled).mpr ended
  · intro ended
    obtain ⟨token, sampled⟩ := exists_token lengths (mem_batch_of_mem_step_done ended)
    exact ⟨(rid, token), sampled, rfl, (mem_step_done distinct lengths sampled).mp ended⟩

theorem grows_iff :
    s.grows (batch.requestIds.zip nextTokens) rid = true ↔
      rid ∈ batch.requestIds ∧ rid ∉ (s.step batch nextTokens).1 := by
  simp only [grows, List.any_eq_true, Bool.and_eq_true, decide_eq_true_eq, Bool.not_eq_true']
  constructor
  · rintro ⟨⟨_, token⟩, sampled, rfl, going⟩
    refine ⟨(List.of_mem_zip sampled).1, fun ended => ?_⟩
    rw [mem_step_done distinct lengths sampled, going] at ended
    cases ended
  · rintro ⟨member, going⟩
    obtain ⟨token, sampled⟩ := exists_token lengths member
    rw [mem_step_done distinct lengths sampled, Bool.not_eq_true] at going
    exact ⟨(rid, token), sampled, rfl, going⟩

end

omit [LinearOrder ρ] in
theorem sum_map_grown (lengths : ρ → Nat) (more : ρ → Bool) (active : List ρ) :
    (active.map fun rid => lengths rid + if more rid then 1 else 0).sum =
      (active.map lengths).sum + active.countP more := by
  induction active with
  | nil => rfl
  | cons rid rest ih =>
    simp only [List.map_cons, List.sum_cons, List.countP_cons, ih]
    omega

theorem drift_step (distinct : batch.requestIds.Nodup)
    (lengths : nextTokens.length = batch.length) : (s.step batch nextTokens).2.drift =
      s.drift + s.stepDrift (batch.requestIds.zip nextTokens) := by
  have frame := step_frame s batch nextTokens
  have leaves := leaves_iff (s := s) distinct lengths
  have grows := grows_iff (s := s) distinct lengths
  have sampled {rid : ρ} (listed : rid ∈ batch.requestIds) :
      (s.step batch nextTokens).2.totalLen rid = s.totalLen rid + 1 := by
    obtain ⟨token, paired⟩ := exists_token lengths listed
    unfold totalLen
    rw [step_sampled distinct lengths paired, Sequence.sampled_totalLen]
  generalize batch.requestIds.zip nextTokens = samples at *
  -- completed sequences leave with all their tokens, the others grow by one
  have active : (s.step batch nextTokens).2.active =
      s.active.filter fun rid => !s.leaves samples rid := by
    rw [frame]
    refine List.filter_congr fun rid _ => ?_
    simp [← leaves]
  have grown : ∀ rid ∈ s.active.filter fun rid => !s.leaves samples rid,
      (s.step batch nextTokens).2.totalLen rid =
        s.totalLen rid + if s.grows samples rid then 1 else 0 := by
    intro rid member
    have going : rid ∉ (s.step batch nextTokens).1 := by
      simpa [← leaves] using (List.mem_filter.mp member).2
    by_cases listed : rid ∈ batch.requestIds
    · rw [sampled listed, if_pos ((grows rid).mpr ⟨listed, going⟩)]
    · rw [if_neg fun more => listed ((grows rid).mp more).1]
      exact congrArg Sequence.totalLen (step_others listed)
  -- who grows does not leave
  have counted : (s.active.filter fun rid => !s.leaves samples rid).countP (s.grows samples) =
      s.active.countP (s.grows samples) := by
    rw [List.countP_filter]
    refine List.countP_congr fun rid _ => ?_
    rw [Bool.and_eq_true, Bool.not_eq_true', ← Bool.not_eq_true, grows, leaves]
    exact ⟨And.left, fun more => ⟨more, more.2⟩⟩
  have parts := sum_filter_add_not (s.leaves samples) s.totalLen s.active
  have total : (s.step batch nextTokens).2.totalTokens = s.totalTokens := by rw [frame]
  rw [drift_eq active grown, sum_map_grown, counted, total]
  simp only [drift, resident, stepDrift]
  omega

end Step

end BatchScheduler

namespace System

/-! ### Runs -/

/-- The counter is the total length of the active sequences. -/
def Accounted (s : System ρ) : Prop :=
  s.scheduler.totalTokens = ((s.scheduler.active.map s.scheduler.totalLen).sum : Nat)

instance (s : System ρ) : Decidable s.Accounted := inferInstanceAs (Decidable (_ = _))

omit [LinearOrder ρ] in
theorem accounted_iff (s : System ρ) : s.Accounted ↔ s.scheduler.drift = 0 := by
  unfold Accounted BatchScheduler.drift BatchScheduler.resident
  omega

/-- The active sequences that a step completes have together as many tokens as active sequences
get one and go on, and a restored sequence with tokens is not active. -/
def KeepsCount (s : System ρ) : Action ρ → Prop
  | .step batch nextTokens => s.scheduler.stepDrift (batch.requestIds.zip nextTokens) = 0
  | .restorePreempted kvCacheState => ∀ rid ∈ s.scheduler.preempted,
    s.scheduler.restorable kvCacheState rid = true → rid ∈ s.scheduler.active →
      s.scheduler.totalLen rid = 0
  | _ => True

instance (s : System ρ) : DecidablePred s.KeepsCount
  | .step _ _ => inferInstanceAs (Decidable (_ = _))
  | .restorePreempted _ => inferInstanceAs (Decidable (∀ rid ∈ s.scheduler.preempted, _))
  | .add _ _ | .schedule _ _ _ | .promoteRequest _ _ | .preemptLowest _ _ => .isTrue trivial

theorem Known.drift_run {s s' : System ρ} {a : Action ρ} (known : Known s)
    (possible : s.Possible a) (done : s.run a = .ok s') :
    s'.scheduler.drift = s.scheduler.drift ↔ s.KeepsCount a := by
  cases a with
  | add rid seq =>
    obtain ⟨scheduler, accepted, rfl⟩ := map_ok done
    have notActive : rid ∉ s.scheduler.active := fun running =>
      possible.1 (known.ids.activeAdded rid running)
    simpa [KeepsCount] using BatchScheduler.drift_add notActive accepted
  | schedule budget policy shouldPreempt =>
    obtain ⟨out, scheduled, scheduler, -⟩ := run_schedule done
    obtain ⟨victim, s1, preempts, builds⟩ := BatchScheduler.scheduleWithBudget_ok scheduled
    have before : s1.drift = s.scheduler.drift := by
      rcases BatchScheduler.preemptIfNeeded_ok preempts with same | preempted
      · cases same
        rfl
      · exact BatchScheduler.drift_preemptLowest preempted
    obtain ⟨promoted, gone, built⟩ := BatchScheduler.buildBatch_built builds
    rw [scheduler, BatchScheduler.drift_build built, before]
    simp [KeepsCount]
  | step batch nextTokens =>
    cases done
    have drift := BatchScheduler.drift_step (s := s.scheduler)
      (known.issued batch possible.1).1 possible.2
    change (s.scheduler.step batch nextTokens).2.drift = s.scheduler.drift ↔
      s.scheduler.stepDrift _ = 0
    rw [drift, add_eq_left]
  | promoteRequest rid newPriority =>
    obtain ⟨out, promoted, rfl⟩ := map_ok done
    simpa [KeepsCount] using BatchScheduler.drift_promoteRequest promoted
  | preemptLowest minPriority kvCacheState =>
    obtain ⟨out, preempted, rfl⟩ := map_ok done
    simpa [KeepsCount] using BatchScheduler.drift_preemptLowest preempted
  | restorePreempted kvCacheState =>
    obtain ⟨out, restored, rfl⟩ := map_ok done
    have drift := BatchScheduler.drift_restorePreempted known.ids.preempted restored
    simp only [arrive_scheduler, drift, KeepsCount]
    rw [add_eq_left, Nat.cast_eq_zero, List.sum_eq_zero_iff_forall_eq_nat]
    simp only [List.mem_map, List.mem_filter, decide_eq_true_eq]
    constructor
    · intro zero rid preempted ok running
      exact zero _ ⟨rid, ⟨⟨preempted, ok⟩, running⟩, rfl⟩
    · rintro keeps _ ⟨rid, ⟨⟨preempted, ok⟩, running⟩, rfl⟩
      exact keeps rid preempted ok running

end System

/-- In a run whose steps all meet the condition, the counter is the total length of the active
sequences in every state, and there an action keeps it so exactly if it meets the condition. -/
theorem tokens_accounted {s : System ρ} (run : (batching Initial).Reaches System.KeepsCount s) :
    s.Accounted ∧ ∀ a s', s.Possible a → s.run a = .ok s' → (s'.Accounted ↔ s.KeepsCount a) := by
  have inv : s.Known ∧ s.scheduler.drift = 0 := by
    refine batching_invariant (I := fun s => s.Known ∧ s.scheduler.drift = 0) ?_ ?_ run
    · intro s init
      refine ⟨System.known_initial (fun _ => System.initial_ids) init, ?_⟩
      · obtain ⟨⟨chunked, weights, grouping, bucket, floats, paged, limit, start⟩, -⟩ := init
        rw [start]
        rfl
    · rintro s a s' ⟨known, none⟩ possible keeps done
      exact ⟨known.run possible done, ((known.drift_run possible done).mpr keeps).trans none⟩
  obtain ⟨known, none⟩ := inv
  refine ⟨s.accounted_iff.mpr none, fun a s' possible done => ?_⟩
  rw [s'.accounted_iff, ← known.drift_run possible done, none]

/-- Two prompts of one token; the first one is to get one token, the second one five. -/
def twoPrompts : List (Action Nat) :=
  [.add 0 { promptTokens := [1], maxNewTokens := 1 },
    .add 1 { promptTokens := [2], priority := 3, maxNewTokens := 5 },
    .schedule {} .unchanged false]

def stepTwoPrompts : Action Nat :=
  .step [{ requestId := 0, tokens := [1], isPrefill := true, positionOffset := 0 },
    { requestId := 1, tokens := [2], isPrefill := true, positionOffset := 0 }] [7, 8]

theorem tokens_accounted_example :
    let s := twoPrompts.foldl (batching Initial).exec (System.fresh none)
    s.Accounted ∧ ((batching Initial).exec s stepTwoPrompts).Accounted := by
  have run := (System.fresh_reaches System.KeepsCount none).of_follows twoPrompts
    (by decide +kernel)
  have accounted := tokens_accounted run
  have next : (batching Initial).enabled
      (twoPrompts.foldl (batching Initial).exec (System.fresh none)) stepTwoPrompts := by
    decide +kernel
  exact ⟨accounted.1, (accounted.2 stepTwoPrompts _ (batching_exec next).1
    (batching_exec next).2).mpr (by decide +kernel)⟩

/-- One request, one batch and one step: the sequence has grown and the counter has not. -/
theorem step_not_counted : ¬ ∀ s, (batching (Initial (ρ := Nat))).Reachable s → s.Accounted := by
  intro accounted
  have run := (System.fresh_reaches (fun _ _ => True) none).of_follows
    [.add 0 { promptTokens := [1, 2] }, .schedule {} .unchanged false,
      .step [{ requestId := 0, tokens := [1, 2], isPrefill := true, positionOffset := 0 }] [7]]
    (by decide +kernel)
  exact absurd (accounted _ run) (by decide +kernel)

end DistLLM.Scheduler
