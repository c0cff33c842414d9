import DistLLM.Scheduler.Requests

/-!
# Requests are conserved

A request should be in one place: waiting in the heap, active, or completed. Two of the five
operations can break this. A step completes whatever is in its batch, also a sequence that was
preempted after the batch was built and that waits again. And `restore_preempted` goes by a table
from which promotion and completion never remove anything.
-/
namespace DistLLM.Scheduler

open DistLLM.Library

variable {ρ : Type} [LinearOrder ρ]

namespace BatchScheduler

variable {s s' : BatchScheduler ρ} {added completed : List ρ}

/-- Every request is in the three places as often as it was added. -/
def Placed (added completed : List ρ) (s : BatchScheduler ρ) : Prop :=
  ∀ rid, s.pendingIds.count rid + s.active.count rid + completed.count rid = added.count rid

theorem Placed.add {rid : ρ} {seq : Sequence} (placed : Placed added completed s)
    (done : s.add rid seq = .ok s') : Placed (added ++ [rid]) completed s' := by
  obtain ⟨pending, active, -⟩ := add_ids done
  intro other
  have before := placed other
  rw [pending.count_eq, active, List.count_append, List.count_cons, List.count_singleton]
  omega

theorem Placed.promoteRequest {rid : ρ} {newPriority : Int} {out : Bool × BatchScheduler ρ}
    (placed : Placed added completed s) (done : s.promoteRequest rid newPriority = .ok out) :
    Placed added completed out.2 := by
  obtain ⟨pending, active, -⟩ := promoteRequest_ids done
  intro other
  rw [pending.count_eq, active]
  exact placed other

variable {kvCacheState : Option (List ρ)}

section

variable (placed : Placed added completed s)

include placed

theorem Placed.preemptLowest {minPriority : Int} {out : Option ρ × BatchScheduler ρ}
    (done : s.preemptLowest minPriority kvCacheState = .ok out) : Placed added completed out.2 := by
  rcases preemptLowest_ids done with rfl | ⟨rid, member, -, pending, active, -⟩
  · exact placed
  intro other
  have before := placed other
  -- one place up, one place down
  have moved := (List.perm_cons_erase member).count_eq other
  rw [List.count_cons] at moved
  rw [pending.count_eq, active, List.count_cons]
  omega

theorem Placed.apart (distinct : added.Nodup) (rid : ρ) :
    (rid ∈ s.pendingIds → rid ∉ s.active ∧ rid ∉ completed) ∧
      (rid ∈ s.active → rid ∉ s.pendingIds ∧ rid ∉ completed) ∧
      (rid ∈ completed → rid ∉ s.pendingIds ∧ rid ∉ s.active) := by
  have total := placed rid
  have atMost := List.nodup_iff_count_le_one.mp distinct rid
  -- three counts whose sum is at most one
  simp only [← List.count_pos_iff]
  omega

theorem Placed.completed_nodup (distinct : added.Nodup) :
    completed.Nodup := by
  rw [List.nodup_iff_count_le_one] at *
  intro rid
  have total := placed rid
  have atMost := distinct rid
  omega

end

theorem count_of_nodup {keys : List ρ} (distinct : keys.Nodup) (rid : ρ) :
    keys.count rid = if rid ∈ keys then 1 else 0 := by
  split
  · next present => exact List.count_eq_one_of_mem distinct present
  · next absent => exact List.count_eq_zero_of_not_mem absent

variable (placed : Placed added completed s) (known : KnownIds added s) (distinct : added.Nodup)

include placed known distinct

theorem Placed.restorePreempted {out : List ρ × BatchScheduler ρ}
    (waiting : ∀ rid ∈ s.preempted, rid ∈ s.pendingIds)
    (done : s.restorePreempted kvCacheState = .ok out) : Placed added completed out.2 := by
  obtain ⟨pending, active, -⟩ := restorePreempted_ids done
  intro other
  have before := placed other
  have atMost := List.nodup_iff_count_le_one.mp distinct other
  have requeuedOnce : (s.requeued kvCacheState).Nodup := known.preempted.filter _
  rw [pending.count_eq, active, List.count_append,
    count_of_nodup (nodup_foldl_insertKey known.active), count_of_nodup requeuedOnce]
  rw [count_of_nodup known.active] at before
  by_cases preempted : other ∈ s.preempted
  · -- it leaves the heap, and it enters the heap again or the active set
    have waits := List.count_pos_iff.mpr (waiting other preempted)
    have notActive := ((placed.apart distinct other).1 (waiting other preempted)).1
    have left : (s.pendingIds.filter fun rid => decide (rid ∉ s.preempted)).count other = 0 :=
      List.count_eq_zero_of_not_mem fun member => by
        simpa [preempted] using (List.mem_filter.mp member).2
    have enters : (if other ∈ s.requeued kvCacheState then 1 else 0) +
        (if other ∈ (s.preempted.filter (s.restorable kvCacheState)).foldl
          (fun active rid => insertKey rid active) s.active then 1 else 0) = 1 := by
      cases ok : s.restorable kvCacheState other <;>
        simp [mem_foldl_insertKey, requeued, preempted, notActive, ok]
    rw [if_neg notActive] at before
    omega
  · -- a sequence that was not preempted stays where it is
    have stays : (s.pendingIds.filter fun rid => decide (rid ∉ s.preempted)).count other =
        s.pendingIds.count other := List.count_filter (by simpa using preempted)
    rw [stays]
    simpa [mem_foldl_insertKey, requeued, preempted] using before

theorem Placed.build {budget : IterationBudget} {promoted : List ρ} {gone : List (PendingEntry ρ)}
    {out : Scheduled ρ} (built : Built s budget promoted gone out) :
    Placed added (out.evicted.foldl (fun completed rid => insertKey rid completed) completed)
      out.scheduler := by
  have completedOnce := placed.completed_nodup distinct
  intro rid
  have before := placed rid
  have atMost := List.nodup_iff_count_le_one.mp distinct rid
  have heap := built.pendingIds_perm.count_eq rid
  rw [List.count_append] at heap
  rw [built.active, built.evicted, List.count_append, count_of_nodup (known.active.filter _),
    count_of_nodup built.distinct, count_of_nodup (nodup_foldl_insertKey completedOnce)]
  rw [count_of_nodup known.active, count_of_nodup completedOnce] at before
  by_cases left : rid ∈ gone.map PendingEntry.requestId
  · -- it waited, so it is not active from before, and it was promoted
    have counted := List.count_pos_iff.mpr left
    obtain ⟨notActive, notCompleted⟩ := (placed.apart distinct rid).1
      (built.pendingIds_perm.mem_iff.mpr (List.mem_append_left _ left))
    have isPromoted : rid ∈ promoted := by
      obtain ⟨e, member, rfl⟩ := List.mem_map.mp left
      have running := built.goneActive e member
      rw [built.active, List.mem_append] at running
      exact running.resolve_left fun old => notActive (List.mem_of_mem_filter old)
    simp only [mem_foldl_insertKey, List.mem_filter, notActive, notCompleted, isPromoted,
      false_and, or_self, if_true, if_false] at before ⊢
    omega
  · -- it stays in the heap, or it was active and is evicted if it is complete
    have notPromoted : rid ∉ promoted := fun new => by
      obtain ⟨e, member, rfl⟩ := built.promotedGone rid new
      exact left (List.mem_map_of_mem member)
    rw [List.count_eq_zero_of_not_mem left] at heap
    by_cases running : rid ∈ s.active
    · have notCompleted := ((placed.apart distinct rid).2.1 running).2
      cases ended : s.isComplete rid <;>
        simp [mem_foldl_insertKey, running, ended, notPromoted, notCompleted] at before ⊢ <;> omega
    · simp [mem_foldl_insertKey, running, notPromoted] at before ⊢
      omega

/-- What finishes goes from the active requests to the completed ones. -/
theorem Placed.step {batch : ScheduledBatch ρ} {nextTokens : List Int}
    (ready : ∀ rid ∈ (s.step batch nextTokens).1, rid ∈ added ∧ rid ∉ s.pendingIds) :
    Placed added ((s.step batch nextTokens).1.foldl
      (fun completed rid => insertKey rid completed) completed) (s.step batch nextTokens).2 := by
  have completedOnce := placed.completed_nodup distinct
  have frame := step_frame s batch nextTokens
  dsimp only at frame
  have pending : (s.step batch nextTokens).2.pendingIds = s.pendingIds := by
    rw [frame]
    rfl
  have active : (s.step batch nextTokens).2.active =
      s.active.filter fun rid => decide (rid ∉ (s.step batch nextTokens).1) := by rw [frame]
  intro rid
  have before := placed rid
  rw [pending, active, count_of_nodup (known.active.filter _),
    count_of_nodup (nodup_foldl_insertKey completedOnce)]
  rw [count_of_nodup known.active, count_of_nodup completedOnce] at before
  by_cases ended : rid ∈ (s.step batch nextTokens).1
  · -- it leaves the active set, if it was there at all, and is completed
    obtain ⟨wasAdded, notPending⟩ := ready rid ended
    rw [count_of_nodup distinct, if_pos wasAdded]
    simp [mem_foldl_insertKey, ended, List.count_eq_zero_of_not_mem notPending]
  · simpa [mem_foldl_insertKey, ended] using before

end BatchScheduler

namespace System

/-! ### Runs -/

/-- Every added request is in exactly one place, and a completed one in no other. -/
def Conserved (s : System ρ) : Prop :=
  (∀ rid ∈ s.added, s.scheduler.pendingIds.count rid + s.scheduler.active.count rid +
    s.completed.count rid = 1) ∧
  ∀ rid ∈ s.completed, rid ∉ s.scheduler.pendingIds ∧ rid ∉ s.scheduler.active

instance (s : System ρ) : Decidable s.Conserved := inferInstanceAs (Decidable (_ ∧ _))

/-- A step completes no sequence that waits, and a restoration finds all of the preempted
sequences waiting. -/
def KeepsPlaces (s : System ρ) : Action ρ → Prop
  | .step batch nextTokens => ∀ sample ∈ batch.requestIds.zip nextTokens,
    (s.scheduler.sequences sample.1).finishes sample.2 = true →
      sample.1 ∉ s.scheduler.pendingIds
  | .restorePreempted _ => ∀ rid ∈ s.scheduler.preempted, rid ∈ s.scheduler.pendingIds
  | _ => True

instance (s : System ρ) : DecidablePred s.KeepsPlaces
  | .step batch nextTokens =>
    inferInstanceAs (Decidable (∀ sample ∈ batch.requestIds.zip nextTokens, _ → _))
  | .restorePreempted _ => inferInstanceAs (Decidable (∀ rid ∈ s.scheduler.preempted, _))
  | .add _ _ | .schedule _ _ _ | .promoteRequest _ _ | .preemptLowest _ _ => .isTrue trivial

def Settled (s : System ρ) : Prop := s.Known ∧ s.scheduler.Placed s.added s.completed

theorem Settled.run {s s' : System ρ} {a : Action ρ} (settled : Settled s)
    (possible : s.Possible a) (keeps : s.KeepsPlaces a) (done : s.run a = .ok s') : Settled s' := by
  obtain ⟨known, placed⟩ := settled
  refine ⟨known.run possible done, ?_⟩
  cases a with
  | add rid seq =>
    obtain ⟨scheduler, accepted, rfl⟩ := map_ok done
    simpa using placed.add accepted
  | schedule budget policy shouldPreempt =>
    obtain ⟨out, scheduled, scheduler, added, -, completed, -⟩ := run_schedule done
    obtain ⟨victim, s1, preempts, builds⟩ := BatchScheduler.scheduleWithBudget_ok scheduled
    have after : s1.KnownIds s.added ∧ s1.Placed s.added s.completed := by
      rcases BatchScheduler.preemptIfNeeded_ok preempts with same | preempted
      · cases same
        exact ⟨known.ids, placed⟩
      · exact ⟨known.ids.preemptLowest preempted, placed.preemptLowest preempted⟩
    obtain ⟨promoted, gone, built⟩ := BatchScheduler.buildBatch_built builds
    rw [scheduler, added, completed]
    exact after.2.build after.1 known.added built
  | step batch nextTokens =>
    cases done
    obtain ⟨once, inside⟩ := known.issued batch possible.1
    apply placed.step known.ids known.added
    intro rid ended
    have listed := BatchScheduler.mem_batch_of_mem_step_done ended
    obtain ⟨token, sampled⟩ := BatchScheduler.exists_token possible.2 listed
    refine ⟨inside rid listed, keeps (rid, token) sampled ?_⟩
    exact (BatchScheduler.mem_step_done once possible.2 sampled).mp ended
  | promoteRequest rid newPriority =>
    obtain ⟨out, promoted, rfl⟩ := map_ok done
    exact placed.promoteRequest promoted
  | preemptLowest minPriority kvCacheState =>
    obtain ⟨out, preempted, rfl⟩ := map_ok done
    simpa using placed.preemptLowest preempted
  | restorePreempted kvCacheState =>
    obtain ⟨out, restored, rfl⟩ := map_ok done
    simpa using placed.restorePreempted known.ids known.added keeps restored

theorem settled_initial {s : System ρ} (init : (batching Initial).init s) : Settled s := by
  refine ⟨known_initial (fun _ => initial_ids) init, ?_⟩
  · obtain ⟨⟨chunked, weights, grouping, bucket, floats, paged, limit, start⟩, added, -,
      completed, -⟩ := init
    intro rid
    rw [start, added, completed]
    rfl

theorem Settled.conserved {s : System ρ} (settled : Settled s) : s.Conserved := by
  obtain ⟨known, placed⟩ := settled
  constructor
  · intro rid member
    rw [placed rid]
    exact List.count_eq_one_of_mem known.added member
  · exact fun rid => (placed.apart known.added rid).2.2

end System

/-- In a run whose steps complete nothing that waits, and whose restorations find the preempted
sequences waiting, every added request is at each moment in exactly one of the heap, the active
set and the completed ones; so a restoration meets none that is active or completed. -/
theorem requests_conserved {s : System ρ} (run : (batching Initial).Reaches System.KeepsPlaces s) :
    s.Conserved ∧ ∀ kvCacheState, s.KeepsPlaces (.restorePreempted kvCacheState) →
      ∀ rid ∈ s.scheduler.preempted, rid ∉ s.scheduler.active ∧ rid ∉ s.completed := by
  have settled : s.Settled :=
    batching_invariant (fun s init => System.settled_initial init)
      (fun s a s' settled possible keeps done => settled.run possible keeps done) run
  refine ⟨settled.conserved, fun kvCacheState waiting rid preempted => ?_⟩
  obtain ⟨known, placed⟩ := settled
  exact (placed.apart known.added rid).1 (waiting rid preempted)

/-- A request of two tokens that gets one of them and is preempted. -/
def preemptedOnce : List (Action Nat) :=
  [.add 0 { promptTokens := [1, 2], priority := 3, maxNewTokens := 2 },
    .schedule {} .unchanged false,
    .step [{ requestId := 0, tokens := [1, 2], isPrefill := true, positionOffset := 0 }] [7],
    .preemptLowest 3 (some [0])]

def lastToken : List (Action Nat) :=
  [.schedule {} .unchanged false,
    .step [{ requestId := 0, tokens := [7], isPrefill := false, positionOffset := 2 }] [8]]

theorem requests_conserved_example :
    let s := preemptedOnce.foldl (batching Initial).exec (System.fresh none)
    let acts := preemptedOnce ++ [.restorePreempted (some [])] ++ lastToken
    (0 ∉ s.scheduler.active ∧ 0 ∉ s.completed) ∧
      (acts.foldl (batching Initial).exec (System.fresh none)).Conserved := by
  have start := System.fresh_reaches System.KeepsPlaces none
  have first := start.of_follows preemptedOnce (by decide +kernel)
  have run := start.of_follows (preemptedOnce ++ [.restorePreempted (some [])] ++ lastToken)
    (by decide +kernel)
  exact ⟨(requests_conserved first).2 (some []) (by decide +kernel) 0 (by decide +kernel),
    (requests_conserved run).1⟩

/-- The preempted request is promoted again and completes. The restoration then makes it active
once more. -/
theorem restored_after_completion :
    ¬ ∀ s, (batching (Initial (ρ := Nat))).Reachable s → s.Conserved := by
  intro conserved
  have run := (System.fresh_reaches (fun _ _ => True) none).of_follows
    (preemptedOnce ++ lastToken ++ [.restorePreempted (some [])]) (by decide +kernel)
  exact absurd (conserved _ run) (by decide +kernel)

end DistLLM.Scheduler
