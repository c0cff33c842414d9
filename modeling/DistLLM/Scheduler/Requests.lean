import DistLLM.Scheduler.Building

/-!
# Where requests are

What each action of a run does to the scheduler and to the notes, and the facts about request ids
that hold in every run: nothing is anywhere that was not added, and the containers but the heap
hold nothing twice.
-/
namespace DistLLM.Scheduler

open DistLLM.Library

variable {ρ : Type} [LinearOrder ρ] (paged : Option (PagedAttentionManager Nat))
  {kvCacheState : Option (List ρ)} {out : Option ρ × BatchScheduler ρ} {s s' : System ρ}
  {batch : ScheduledBatch ρ}

namespace BatchScheduler

variable {s s' : BatchScheduler ρ}

variable {rid : ρ}

theorem add_ids {seq : Sequence} (done : s.add rid seq = .ok s') :
    s'.pendingIds.Perm (rid :: s.pendingIds) ∧ s'.active = s.active ∧
      s'.preempted = s.preempted := by
  obtain ⟨heap, pushed, rfl⟩ := add_ok done
  exact ⟨(Heap.heappush_perm pushed).map _, rfl, rfl⟩

theorem promoteRequest_ids {newPriority : Int} {out : Bool × BatchScheduler ρ}
    (done : s.promoteRequest rid newPriority = .ok out) :
    out.2.pendingIds.Perm s.pendingIds ∧ out.2.active = s.active ∧
      out.2.preempted = s.preempted := by
  rcases promoteRequest_ok done with ⟨index, same⟩ | ⟨idx, inside, heap, sifted, same⟩
  · rw [same]
    exact ⟨List.Perm.refl _, rfl, rfl⟩
  have perm : heap.toList.Perm (s.pendingHeap.set idx
      { s.pendingHeap[idx] with priority := newPriority }).toList := by
    split at sifted
    · exact (Heap.siftdown_perm sifted).toList
    · exact (Heap.siftup_perm sifted).toList
  -- the changed entry stays the entry of its request
  have ids : (s.pendingHeap.set idx { s.pendingHeap[idx] with priority := newPriority }).toList.map
      PendingEntry.requestId = s.pendingIds := by
    rw [Array.toList_set, List.map_set]
    refine List.ext_getElem (by simp [pendingIds]) fun i _ _ => ?_
    rw [List.getElem_set]
    split
    · next here => simp [pendingIds, ← here]
    · rfl
  rw [same]
  exact ⟨ids ▸ perm.map _, rfl, rfl⟩

theorem preemptLowest_ids {minPriority : Int}
    (done : s.preemptLowest minPriority kvCacheState = .ok out) :
    out = (none, s) ∨ ∃ rid ∈ s.active, out.1 = some rid ∧
      out.2.pendingIds.Perm (rid :: s.pendingIds) ∧ out.2.active = s.active.erase rid ∧
      out.2.preempted = insertKey rid s.preempted := by
  rcases preemptLowest_ok done with rfl | ⟨rid, heap, saved, member, pushed, rfl⟩
  · exact Or.inl rfl
  · exact Or.inr ⟨rid, member, rfl, (Heap.heappush_perm pushed).map _, rfl, rfl⟩

theorem restorePreempted_ids {out : List ρ × BatchScheduler ρ}
    (done : s.restorePreempted kvCacheState = .ok out) :
    out.2.pendingIds.Perm (s.requeued kvCacheState ++
        s.pendingIds.filter fun rid => decide (rid ∉ s.preempted)) ∧
      out.2.active = (s.preempted.filter (s.restorable kvCacheState)).foldl
        (fun active rid => insertKey rid active) s.active ∧ out.2.preempted = [] := by
  rcases restorePreempted_ok done with ⟨nobody, rfl⟩ | ⟨heap, saved, heapified, -, s', pushed, same⟩
  · simp [requeued, nobody]
  obtain ⟨frame, perm⟩ := pushAll_ok pushed
  obtain ⟨restored, -, active, -⟩ :=
    foldl_restoreOne (s.restorable kvCacheState) s.preempted s
  have heapPerm := (Heap.heapify_perm heapified).toList
  rw [same]
  refine ⟨?_, ?_, rfl⟩
  · refine (perm.map PendingEntry.requestId).trans ?_
    rw [List.map_append, List.map_map]
    refine List.Perm.append (by simp [Function.comp_def]) ?_
    refine (heapPerm.map PendingEntry.requestId).trans ?_
    rw [Array.toList_filter, pendingIds, List.filter_map]
    exact List.Perm.refl _
  · dsimp only
    rw [frame]
    exact active

section

variable {budget : IterationBudget} {promoted : List ρ} {gone : List (PendingEntry ρ)}
  {out : Scheduled ρ} (built : Built s budget promoted gone out)

include built

theorem Built.pendingIds_perm :
    s.pendingIds.Perm (gone.map PendingEntry.requestId ++ out.scheduler.pendingIds) := by
  refine (built.heap.map PendingEntry.requestId).trans ?_
  rw [List.map_append]
  rfl

theorem Built.batch_ids (distinct : s.active.Nodup) (issued : batch ∈ out.batch) :
    batch.requestIds.Nodup ∧ ∀ rid ∈ batch.requestIds, rid ∈ out.scheduler.active := by
  obtain ⟨once, inside⟩ :=
    buildActiveBatch_ids (s := s.evictCompleted.2) budget (distinct.filter _)
  have perm := built.ids batch issued
  constructor
  · rw [perm.nodup_iff, List.nodup_append']
    refine ⟨once, built.distinct, fun rid chosen promoted => ?_⟩
    exact built.fresh rid promoted (inside rid chosen)
  · intro rid member
    rw [built.active]
    rcases List.mem_append.mp (perm.mem_iff.mp member) with chosen | promoted
    · exact List.mem_append_left _ (inside rid chosen)
    · exact List.mem_append_right _ promoted

end

/-! ### Only what was added -/

/-- The containers hold added requests only, and the active set and the table of preempted
sequences hold each of them once. -/
structure KnownIds (added : List ρ) (s : BatchScheduler ρ) : Prop where
  pending : ∀ rid ∈ s.pendingIds, rid ∈ added
  active : s.active.Nodup
  activeAdded : ∀ rid ∈ s.active, rid ∈ added
  preempted : s.preempted.Nodup
  preemptedAdded : ∀ rid ∈ s.preempted, rid ∈ added

variable {added : List ρ} (known : KnownIds added s)

include known

theorem KnownIds.add {seq : Sequence}
    (done : s.add rid seq = .ok s') : KnownIds (added ++ [rid]) s' := by
  obtain ⟨pending, active, preempted⟩ := add_ids done
  constructor
  · intro other member
    rw [pending.mem_iff, List.mem_cons] at member
    rcases member with rfl | before
    · simp
    · exact List.mem_append_left _ (known.pending other before)
  · exact active ▸ known.active
  · exact fun other member => List.mem_append_left _ (known.activeAdded other (active ▸ member))
  · exact preempted ▸ known.preempted
  · exact fun other member =>
      List.mem_append_left _ (known.preemptedAdded other (preempted ▸ member))

theorem KnownIds.promoteRequest {newPriority : Int} {out : Bool × BatchScheduler ρ}
    (done : s.promoteRequest rid newPriority = .ok out) :
    KnownIds added out.2 := by
  obtain ⟨pending, active, preempted⟩ := promoteRequest_ids done
  constructor
  · exact fun other member => known.pending other (pending.mem_iff.mp member)
  · exact active ▸ known.active
  · exact fun other member => known.activeAdded other (active ▸ member)
  · exact preempted ▸ known.preempted
  · exact fun other member => known.preemptedAdded other (preempted ▸ member)

theorem KnownIds.preemptLowest {minPriority : Int}
    (done : s.preemptLowest minPriority kvCacheState = .ok out) : KnownIds added out.2 := by
  rcases preemptLowest_ids done with rfl | ⟨rid, member, -, pending, active, preempted⟩
  · exact known
  have ridAdded := known.activeAdded rid member
  constructor
  · intro other waiting
    rw [pending.mem_iff, List.mem_cons] at waiting
    rcases waiting with rfl | before
    · exact ridAdded
    · exact known.pending other before
  · exact active ▸ known.active.erase rid
  · exact fun other still => known.activeAdded other (List.mem_of_mem_erase (active ▸ still))
  · exact preempted ▸ nodup_insertKey known.preempted
  · intro other noted
    rw [preempted, mem_insertKey] at noted
    rcases noted with before | rfl
    · exact known.preemptedAdded other before
    · exact ridAdded

theorem KnownIds.preemptIfNeeded {shouldPreempt : Bool}
    (done : s.preemptIfNeeded shouldPreempt = .ok out) : KnownIds added out.2 := by
  rcases preemptIfNeeded_ok done with rfl | preempted
  · exact known
  · exact known.preemptLowest preempted

theorem KnownIds.restorePreempted {out : List ρ × BatchScheduler ρ}
    (done : s.restorePreempted kvCacheState = .ok out) : KnownIds added out.2 := by
  obtain ⟨pending, active, preempted⟩ := restorePreempted_ids done
  constructor
  · intro other waiting
    rw [pending.mem_iff, List.mem_append] at waiting
    rcases waiting with requeued | before
    · exact known.preemptedAdded other (List.mem_of_mem_filter requeued)
    · exact known.pending other (List.mem_of_mem_filter before)
  · exact active ▸ nodup_foldl_insertKey known.active
  · intro other member
    rw [active, mem_foldl_insertKey] at member
    rcases member with before | restored
    · exact known.activeAdded other before
    · exact known.preemptedAdded other (List.mem_of_mem_filter restored)
  · simp [preempted]
  · simp [preempted]

theorem KnownIds.build {budget : IterationBudget} {promoted : List ρ} {gone : List (PendingEntry ρ)}
    {out : Scheduled ρ}
    (built : Built s budget promoted gone out) : KnownIds added out.scheduler := by
  have preempted : out.scheduler.preempted = s.preempted := by rw [built.frame]
  -- promoted sequences come from the heap, so they were added as well
  have waited : ∀ rid ∈ gone.map PendingEntry.requestId ++ out.scheduler.pendingIds,
      rid ∈ added := fun rid member => known.pending rid (built.pendingIds_perm.mem_iff.mpr member)
  constructor
  · exact fun rid member => waited rid (List.mem_append_right _ member)
  · rw [built.active]
    refine List.nodup_append'.mpr ⟨known.active.filter _, built.distinct, fun rid old new => ?_⟩
    exact built.fresh rid new old
  · intro rid member
    rw [built.active, List.mem_append] at member
    rcases member with old | new
    · exact known.activeAdded rid (List.mem_of_mem_filter old)
    · obtain ⟨e, left, rfl⟩ := built.promotedGone rid new
      exact waited _ (List.mem_append_left _ (List.mem_map_of_mem left))
  · exact preempted ▸ known.preempted
  · exact fun rid member => known.preemptedAdded rid (preempted ▸ member)

theorem KnownIds.step {batch : ScheduledBatch ρ}
    {nextTokens : List Int} : KnownIds added (s.step batch nextTokens).2 := by
  have frame := step_frame s batch nextTokens
  constructor
  · rw [frame]
    exact known.pending
  · rw [frame]
    exact known.active.filter _
  · rw [frame]
    exact fun rid member => known.activeAdded rid (List.mem_of_mem_filter member)
  · rw [frame]
    exact known.preempted
  · rw [frame]
    exact known.preemptedAdded

end BatchScheduler

namespace System

section

variable (rids : List ρ) (s : System ρ)

theorem arrive_frame :
    arrive rids s = { s with
      arrival := (arrive rids s).arrival, arrivals := (arrive rids s).arrivals } := by
  induction rids generalizing s with
  | nil => rfl
  | cons rid rest ih =>
    unfold arrive at *
    rw [List.foldl_cons, ih]

@[simp] theorem arrive_scheduler : (arrive rids s).scheduler = s.scheduler := by rw [arrive_frame]

@[simp] theorem arrive_added : (arrive rids s).added = s.added := by rw [arrive_frame]

@[simp] theorem arrive_issued : (arrive rids s).issued = s.issued := by rw [arrive_frame]

@[simp] theorem arrive_completed : (arrive rids s).completed = s.completed := by rw [arrive_frame]

@[simp] theorem arrive_slices : (arrive rids s).slices = s.slices := by rw [arrive_frame]

end

omit [LinearOrder ρ] in
theorem map_ok {α β ε : Type} {f : α → β} {x : Except ε α} {b : β} (done : x.map f = .ok b) :
    ∃ a, x = .ok a ∧ b = f a := by
  cases x with
  | error _ => cases done
  | ok a =>
    cases done
    exact ⟨a, rfl, rfl⟩

omit [LinearOrder ρ] in
theorem mem_toOption {α ε : Type} {x : Except ε α} {a : α} : a ∈ x.toOption ↔ x = .ok a := by
  cases x <;> simp [Except.toOption]

theorem run_schedule {budget : IterationBudget} {policy : BudgetPolicy} {shouldPreempt : Bool}
    (done : s.run (.schedule budget policy shouldPreempt) = .ok s') :
    ∃ out, s.scheduler.scheduleWithBudget budget policy shouldPreempt = .ok out ∧
      s'.scheduler = out.scheduler ∧ s'.added = s.added ∧ s'.issued = s.issued ++ out.batch.toList ∧
      s'.completed = out.evicted.foldl (fun completed rid => insertKey rid completed) s.completed ∧
      s'.slices = (out.batch.elim s s.issue).slices ∧
      s'.arrival = (arrive out.victim.toList s).arrival ∧
      s'.arrivals = (arrive out.victim.toList s).arrivals := by
  obtain ⟨out, scheduled, rfl⟩ := map_ok done
  refine ⟨out, scheduled, rfl, ?_⟩
  cases out.batch <;> cases out.victim <;> simp [complete, issue, arrive]

theorem run_step {nextTokens : List Int} (done : s.run (.step batch nextTokens) = .ok s') :
    s'.scheduler = (s.scheduler.step batch nextTokens).2 ∧ s'.added = s.added ∧
      s'.issued = s.issued.erase batch ∧ s'.slices = s.slices := by
  cases done
  exact ⟨rfl, rfl, rfl, rfl⟩

/-- Requests are added once, nothing is anywhere that was not added, and no batch has a sequence
twice. -/
structure Known (s : System ρ) : Prop where
  added : s.added.Nodup
  ids : s.scheduler.KnownIds s.added
  issued : ∀ batch ∈ s.issued,
    batch.requestIds.Nodup ∧ ∀ rid ∈ batch.requestIds, rid ∈ s.added

theorem known_initial {start : BatchScheduler ρ → Prop}
    (fresh : ∀ s, start s → s.pendingIds = [] ∧ s.active = [] ∧ s.preempted = [])
    {s : System ρ} (init : (batching start).init s) : Known s := by
  obtain ⟨started, added, issued, -⟩ := init
  obtain ⟨pending, active, preempted⟩ := fresh _ started
  constructor
  · simp [added]
  · constructor <;> simp [pending, active, preempted]
  · simp [issued]

theorem Known.run {a : Action ρ} (known : Known s) (possible : s.Possible a)
    (done : s.run a = .ok s') : Known s' := by
  cases a with
  | add rid seq =>
    obtain ⟨scheduler, accepted, rfl⟩ := map_ok done
    constructor
    · simpa using known.added.append (List.nodup_singleton rid) (by simpa using possible.1)
    · simpa using known.ids.add accepted
    · simp only [arrive_issued, arrive_added]
      intro batch issued
      obtain ⟨once, inside⟩ := known.issued batch issued
      exact ⟨once, fun other member => List.mem_append_left _ (inside other member)⟩
  | schedule budget policy shouldPreempt =>
    obtain ⟨out, scheduled, scheduler, added, issued, -⟩ := run_schedule done
    obtain ⟨victim, s1, preempts, built⟩ := BatchScheduler.scheduleWithBudget_ok scheduled
    have ids : s1.KnownIds s.added := known.ids.preemptIfNeeded preempts
    obtain ⟨promoted, gone, built⟩ := BatchScheduler.buildBatch_built built
    constructor
    · exact added ▸ known.added
    · rw [scheduler, added]
      exact ids.build built
    · intro batch member
      rw [issued, List.mem_append, Option.mem_toList] at member
      rw [added]
      rcases member with before | new
      · exact known.issued batch before
      · obtain ⟨once, inside⟩ := built.batch_ids ids.active new
        exact ⟨once, fun rid listed => (ids.build built).activeAdded rid (inside rid listed)⟩
  | step batch nextTokens =>
    cases done
    constructor
    · exact known.added
    · exact known.ids.step
    · exact fun other issued => known.issued other (List.mem_of_mem_erase issued)
  | promoteRequest rid newPriority =>
    obtain ⟨out, promoted, rfl⟩ := map_ok done
    exact ⟨known.added, known.ids.promoteRequest promoted, known.issued⟩
  | preemptLowest minPriority kvCacheState =>
    obtain ⟨out, preempted, rfl⟩ := map_ok done
    constructor
    · simpa using known.added
    · simpa using known.ids.preemptLowest preempted
    · simpa using known.issued
  | restorePreempted kvCacheState =>
    obtain ⟨out, restored, rfl⟩ := map_ok done
    constructor
    · simpa using known.added
    · simpa using known.ids.restorePreempted restored
    · simpa using known.issued

omit [LinearOrder ρ] in
theorem initial_ids {scheduler : BatchScheduler ρ} (start : Initial scheduler) :
    scheduler.pendingIds = [] ∧ scheduler.active = [] ∧ scheduler.preempted = [] := by
  obtain ⟨chunked, weights, grouping, bucket, floats, paged, limit, rfl⟩ := start
  exact ⟨rfl, rfl, rfl⟩

theorem known_reaches {ok : System ρ → Action ρ → Prop} {s : System ρ}
    (run : (batching Initial).Reaches ok s) : Known s :=
  batching_invariant (fun _ init => known_initial (fun _ => initial_ids) init)
    (fun _ _ _ known possible _ done => known.run possible done) run

/-- The weights of `critical`, `high`, `normal` and `low`. -/
def defaultWeights : Dict Int ℚ :=
  (((∅ : Dict Int ℚ).set 0 (3 / 2)).set 1 (5 / 4)).set 2 1 |>.set 3 (1 / 2)

/-- A new scheduler with default settings and nothing noted yet. -/
def fresh (paged : Option (PagedAttentionManager Nat)) : System Nat :=
  { scheduler := BatchScheduler.init true defaultWeights false (fun _ _ _ _ => 0) .exact paged 4
    added := [], issued := [], completed := [], slices := fun _ => []
    arrival := fun _ => 0, arrivals := 0 }

theorem fresh_init {start : BatchScheduler Nat → Prop} (started : start (fresh paged).scheduler) :
    (batching start).init (fresh paged) :=
  ⟨started, rfl, rfl, rfl, rfl, rfl⟩

theorem fresh_initial : Initial (fresh paged).scheduler :=
  ⟨true, defaultWeights, false, _, .exact, paged, 4, rfl⟩

theorem fresh_reaches (ok : System Nat → Action Nat → Prop)
    (paged : Option (PagedAttentionManager Nat)) : (batching Initial).Reaches ok (fresh paged) :=
  .init (fresh_init paged (fresh_initial paged))

end System

end DistLLM.Scheduler
