import DistLLM.Scheduler.HeapKeys

/-!
# Promotion

`promote_request` finds its entry by an index of positions, which it keeps when it does not find the
request. A preemption pushes into the heap and a restoration builds it anew without discarding the
index, so that a later promotion may change another entry. `IterationScheduler` boosts priorities
before a schedule, and the schedule discards the index.
-/
namespace DistLLM.Scheduler

open DistLLM.Library

variable {ρ : Type} [LinearOrder ρ] (s : BatchScheduler ρ)

namespace BatchScheduler

variable {s s' : BatchScheduler ρ}

/-- The complete sequences leave the active ones. -/
def popCompleted : BatchScheduler ρ :=
  { s with
    active := s.active.filter fun rid => !s.isComplete rid
    totalTokens := s.totalTokens - ((s.active.filter s.isComplete).map s.totalLen).sum }

/-- The entry with a boosted priority: `get_priority_boost` from that of the sequence. -/
def boostEntry (getPriorityBoost : ρ → Int → Int) (s : BatchScheduler ρ) (e : PendingEntry ρ) :
    PendingEntry ρ :=
  { e with priority := getPriorityBoost e.requestId (s.sequences e.requestId).priority }

/-- `_apply_sla_boosts`. The sequences keep their priorities. -/
def applySlaBoosts (getPriorityBoost : ρ → Int → Int) (s : BatchScheduler ρ) :
    Except Raised (BatchScheduler ρ) :=
  if s.pendingHeap.size = 0 then .ok s
  else
    match Heap.heapify PendingEntry.lt (s.pendingHeap.map (boostEntry getPriorityBoost s)) with
    | .error raised => .error raised
    | .ok heap => .ok { s with pendingHeap := heap }

theorem foldl_set_get? (es : List (PendingEntry ρ)) (start : Nat) (index : Dict ρ Nat) (rid : ρ)
    (once : (es.map PendingEntry.requestId).Nodup) (idx : Nat) :
    ((es.zipIdx start).foldl (fun index e => index.set e.1.requestId e.2) index).get? rid =
        some idx ↔ (∃ i, (es.map PendingEntry.requestId)[i]? = some rid ∧ idx = start + i) ∨
        rid ∉ es.map PendingEntry.requestId ∧ index.get? rid = some idx := by
  induction es generalizing start index with
  | nil => simp
  | cons e es ih =>
    rw [List.map_cons, List.nodup_cons] at once
    rw [List.zipIdx_cons, List.foldl_cons, ih (start + 1) _ once.2, Dict.get?_set, List.map_cons,
      List.mem_cons, not_or]
    by_cases same : e.requestId = rid
    · -- the request is here, and nowhere behind
      subst same
      rw [if_pos rfl]
      constructor
      · rintro (⟨i, found, -⟩ | ⟨-, here⟩)
        · exact absurd (List.mem_of_getElem? found) once.1
        · cases here
          exact .inl ⟨0, rfl, rfl⟩
      · rintro (⟨i, found, rfl⟩ | ⟨absent, -⟩)
        · cases i with
          | zero => exact .inr ⟨once.1, rfl⟩
          | succ i => exact absurd (List.mem_of_getElem? (i := i) found) once.1
        · exact absurd rfl absent.1
    · -- the positions behind are counted from one further on
      rw [if_neg same]
      constructor
      · rintro (⟨i, found, rfl⟩ | ⟨absent, before⟩)
        · exact .inl ⟨i + 1, found, by omega⟩
        · exact .inr ⟨⟨Ne.symm same, absent⟩, before⟩
      · rintro (⟨i, found, rfl⟩ | ⟨absent, before⟩)
        · cases i with
          | zero => exact absurd (Option.some.inj found) same
          | succ i => exact .inl ⟨i, found, by omega⟩
        · exact .inr ⟨absent.2, before⟩

theorem buildIndex_get? (once : s.pendingIds.Nodup) {rid : ρ} {idx : Nat} :
    s.buildIndex.get? rid = some idx ↔ s.pendingIds[idx]? = some rid := by
  unfold buildIndex
  rw [foldl_set_get? _ 0 _ rid once]
  simp [pendingIds]

theorem buildIndex_none (once : s.pendingIds.Nodup) {rid : ρ} :
    s.buildIndex.get? rid = none ↔ rid ∉ s.pendingIds := by
  constructor
  · intro absent waiting
    obtain ⟨idx, here⟩ := List.mem_iff_getElem?.mp waiting
    rw [(buildIndex_get? once).mpr here] at absent
    cases absent
  · intro absent
    by_contra found
    obtain ⟨idx, here⟩ := Option.ne_none_iff_exists'.mp found
    exact absent (List.mem_of_getElem? ((buildIndex_get? once).mp here))

/-- The entry of the request has another priority, and the others are as they are. -/
def withPriority (rid : ρ) (priority : Int) (e : PendingEntry ρ) : PendingEntry ρ :=
  if e.requestId = rid then { e with priority := priority } else e

theorem set_withPriority {es : List (PendingEntry ρ)} {idx : Nat}
    (once : (es.map PendingEntry.requestId).Nodup) (inside : idx < es.length) (priority : Int) :
    es.set idx { es[idx] with priority := priority } =
      es.map (withPriority es[idx].requestId priority) := by
  refine List.ext_getElem (by simp) fun i inside' _ => ?_
  rw [List.length_set] at inside'
  rw [List.getElem_set, List.getElem_map, withPriority]
  by_cases here : idx = i
  · subst here
    simp
  · have other : es[i].requestId ≠ es[idx].requestId := by
      intro same
      refine here (List.nodup_iff_injective_get.mp once |>.eq_iff (a := ⟨idx, by simpa⟩)
        (b := ⟨i, by simpa⟩) |>.mp ?_ |> congrArg Fin.val)
      simp [same]
    rw [if_neg here, if_neg other]

/-- A promotion of one request: it is found if it waits, its entry gets the priority, the others
stay, and the heap is in order. -/
structure Promotes (rid : ρ) (priority : Int) (out : Bool × BatchScheduler ρ) : Prop where
  found : out.1 = true ↔ rid ∈ s.pendingIds
  entries : out.2.pendingHeap.toList.Perm (s.pendingHeap.toList.map (withPriority rid priority))
  ordered : out.2.Ordered

/-- The index, if there is one, is that of the heap. -/
def Indexed : Prop :=
  ∀ index, s.pendingIndex = some index → index = s.buildIndex

theorem Indexed.getD (indexed : s.Indexed) : s.pendingIndex.getD s.buildIndex = s.buildIndex := by
  cases cached : s.pendingIndex with
  | none => rfl
  | some index => exact indexed index cached

theorem promoteRequest_spec (indexed : s.Indexed) (once : s.pendingIds.Nodup)
    (apart : Apart s.pendingHeap.toList) (ordered : s.Ordered) (rid : ρ) (newPriority : Int) :
    ∃ out, s.promoteRequest rid newPriority = .ok out ∧ s.Promotes rid newPriority out ∧
      out.2.Indexed := by
  unfold promoteRequest
  dsimp only
  rw [indexed.getD]
  cases found : s.buildIndex.get? rid with
  | none =>
    have absent := (buildIndex_none once).mp found
    refine ⟨(false, { s with pendingIndex := some s.buildIndex }), rfl,
      ⟨by simp [absent], ?_, ordered⟩, ?_⟩
    · have same : s.pendingHeap.toList.map (withPriority rid newPriority) =
          s.pendingHeap.toList := by
        conv_rhs => rw [← List.map_id s.pendingHeap.toList]
        refine List.map_congr_left fun e member => if_neg fun here => absent ?_
        exact here ▸ List.mem_map_of_mem member
      rw [same]
    · rintro index ⟨⟩
      rfl
  | some idx =>
    have here := (buildIndex_get? once).mp found
    have inside : idx < s.pendingHeap.size := by
      have := (List.getElem?_eq_some_iff.mp here).1
      simpa [pendingIds] using this
    have request : s.pendingHeap[idx].requestId = rid := by
      simpa [pendingIds, inside] using here
    -- the entry is where the index says, and sifting it up or down mends the heap
    obtain ⟨heap, sifts, better⟩ := sift_ok inside newPriority apart ordered
    have perm : heap.Perm (s.pendingHeap.set idx
        { s.pendingHeap[idx] with priority := newPriority }) := by
      split at sifts
      · exact Heap.siftdown_perm sifts
      · exact Heap.siftup_perm sifts
    refine ⟨(true, { s with
      sequences := Function.update s.sequences s.pendingHeap[idx].requestId
        { s.sequences s.pendingHeap[idx].requestId with priority := newPriority }
      pendingHeap := heap
      pendingIndex := none }), ?_, ⟨?_, ?_, better⟩, ?_⟩
    · dsimp only
      rw [dif_pos inside]
      simp only [Array.size_set, sifts]
    · exact iff_of_true rfl (List.mem_of_getElem? here)
    · have listed : idx < s.pendingHeap.toList.length := by simpa using inside
      have changed := set_withPriority once listed newPriority
      rw [Array.getElem_toList, request] at changed
      rw [← changed, ← Array.toList_set]
      exact perm.toList
    · rintro index ⟨⟩

theorem applySlaBoosts_spec (getPriorityBoost : ρ → Int → Int) (apart : Apart s.pendingHeap.toList)
    (ordered : s.Ordered) :
    ∃ heap, s.applySlaBoosts getPriorityBoost = .ok { s with pendingHeap := heap } ∧
      Heap.Ordered PendingEntry.key heap ∧
      heap.toList.Perm (s.pendingHeap.toList.map (boostEntry getPriorityBoost s)) := by
  unfold applySlaBoosts
  split
  next empty =>
    refine ⟨s.pendingHeap, rfl, ordered, ?_⟩
    rw [Array.eq_empty_of_size_eq_zero empty]
    exact List.Perm.refl _
  next =>
    have boosted : Apart (s.pendingHeap.map (boostEntry getPriorityBoost s)).toList := by
      rw [Array.toList_map]
      intro e member e' member' same
      obtain ⟨o, old, rfl⟩ := List.mem_map.mp member
      obtain ⟨o', old', rfl⟩ := List.mem_map.mp member'
      exact apart o old o' old' same
    obtain ⟨heap, heapified, better⟩ := Heap.heapify_ordered boosted.comparable
    refine ⟨heap, by rw [heapified], better, ?_⟩
    rw [← Array.toList_map]
    exact (Heap.heapify_perm heapified).toList

theorem scheduleWithBudget_index {budget : IterationBudget} {policy : BudgetPolicy}
    {shouldPreempt : Bool} {out : Scheduled ρ}
    (done : s.scheduleWithBudget budget policy shouldPreempt = .ok out) :
    out.scheduler.pendingIndex = none := by
  obtain ⟨victim, s1, -, builds⟩ := scheduleWithBudget_ok done
  obtain ⟨ids, s2, promotes, -, -, result⟩ := buildBatch_ok builds
  have discarded : s2.pendingIndex = none := by
    unfold promotePending at promotes
    dsimp only at promotes
    split at promotes
    · cases promotes
    · split at promotes
      · cases promotes
      · cases promotes
        rfl
  rcases result with ⟨-, -, same⟩ | ⟨-, batch, -, -, same⟩
  · rw [same]
    exact discarded
  · obtain ⟨frame, -⟩ := buildBatchTensors_frame _ batch s2
    rw [same, frame]
    exact discarded

theorem Indexed.of_none (none_cached : s.pendingIndex = none) : s.Indexed := by
  intro index cached
  rw [none_cached] at cached
  cases cached

theorem Indexed.of_same (indexed : s.Indexed) (heap : s'.pendingHeap = s.pendingHeap)
    (index : s'.pendingIndex = s.pendingIndex) : s'.Indexed := by
  unfold Indexed buildIndex
  rw [heap, index]
  exact indexed

variable {kvCacheState : Option (List ρ)}

theorem preemptLowest_index {minPriority : Int} {out : Option ρ × BatchScheduler ρ}
    (indexed : s.Indexed)
    (keeps : s.pendingIndex = none ∨ s.maxPreempted ≤ s.preempted.length ∨
      s.victim minPriority = none)
    (done : s.preemptLowest minPriority kvCacheState = .ok out) : out.2.Indexed := by
  rcases keeps with uncached | full | nobody
  · rcases preemptLowest_ok done with rfl | ⟨rid, heap, saved, -, -, rfl⟩
    · exact indexed
    · exact .of_none uncached
  · rw [preemptLowest, if_pos full] at done
    cases done
    exact indexed
  · unfold preemptLowest at done
    rw [nobody] at done
    split at done <;> cases done <;> exact indexed

theorem restorePreempted_index {out : List ρ × BatchScheduler ρ} (indexed : s.Indexed)
    (keeps : s.pendingIndex = none ∨ s.preempted = [])
    (done : s.restorePreempted kvCacheState = .ok out) : out.2.Indexed := by
  rcases keeps with uncached | nobody
  · rcases restorePreempted_ok done with ⟨-, rfl⟩ | ⟨heap, saved, -, -, s', pushed, same⟩
    · exact indexed
    · obtain ⟨frame, -⟩ := pushAll_ok pushed
      obtain ⟨restored, -⟩ := foldl_restoreOne (s.restorable kvCacheState) s.preempted s
      rw [same, frame, restored]
      exact .of_none uncached
  · rw [restorePreempted, if_pos nobody] at done
    cases done
    exact indexed

end BatchScheduler

/-! ### Runs with boosts -/

/-- The actions, and the schedule of `IterationScheduler` beside the plain one. -/
inductive BoostedAction (ρ : Type)
  | plain (a : Action ρ)
  | schedule (getPriorityBoost : ρ → Int → Int) (budget : IterationBudget) (policy : BudgetPolicy)
      (shouldPreempt : Bool)

namespace System

/-- What `IterationScheduler.schedule` does before the parent's. -/
def boost (getPriorityBoost : ρ → Int → Int) (s : System ρ) : Except Raised (System ρ) :=
  (s.scheduler.popCompleted.applySlaBoosts getPriorityBoost).map fun scheduler =>
    complete (s.scheduler.active.filter s.scheduler.isComplete) { s with scheduler }

def runBoosted (s : System ρ) : BoostedAction ρ → Except Raised (System ρ)
  | .plain a => s.run a
  | .schedule getPriorityBoost budget policy shouldPreempt =>
    match s.boost getPriorityBoost with
    | .error raised => .error raised
    | .ok s => s.run (.schedule budget policy shouldPreempt)

/-- Callers do with either scheduler what they do with the plain one. -/
def PossibleBoosted (s : System ρ) : BoostedAction ρ → Prop
  | .plain a => s.Possible a
  | .schedule _ _ _ _ => True

instance (s : System ρ) : DecidablePred s.PossibleBoosted
  | .plain a => inferInstanceAs (Decidable (s.Possible a))
  | .schedule _ _ _ _ => .isTrue trivial

/-- While an index is kept nobody is preempted and nothing is restored. -/
def KeepsHeap (s : System ρ) : Action ρ → Prop
  | .preemptLowest minPriority _ =>
    s.scheduler.pendingIndex = none ∨ s.scheduler.maxPreempted ≤ s.scheduler.preempted.length ∨
      s.scheduler.victim minPriority = none
  | .restorePreempted _ => s.scheduler.pendingIndex = none ∨ s.scheduler.preempted = []
  | _ => True

instance (s : System ρ) : DecidablePred s.KeepsHeap
  | .preemptLowest _ _ => inferInstanceAs (Decidable (_ ∨ _ ∨ _))
  | .restorePreempted _ => inferInstanceAs (Decidable (_ ∨ _))
  | .add _ _ | .schedule _ _ _ | .step _ _ | .promoteRequest _ _ => .isTrue trivial

/-- The keys are kept, and the heap while there is an index. -/
def KeepsIndex (s : System ρ) : BoostedAction ρ → Prop
  | .plain a => s.KeepsKeys a ∧ s.KeepsHeap a
  | .schedule _ _ _ _ => True

instance (s : System ρ) : DecidablePred s.KeepsIndex
  | .plain _ => inferInstanceAs (Decidable (_ ∧ _))
  | .schedule _ _ _ _ => .isTrue trivial

end System

/-- The runs from a new scheduler of either kind. -/
def boosting : Machine (System ρ) (BoostedAction ρ) where
  init := (batching Initial).init
  enabled s a := s.PossibleBoosted a ∧ (s.runBoosted a).isOk = true
  exec s a := (s.runBoosted a).toOption.getD s

instance (s : System ρ) (a : BoostedAction ρ) : Decidable (boosting.enabled s a) :=
  inferInstanceAs (Decidable (_ ∧ _))

theorem boosting_exec {s : System ρ} {a : BoostedAction ρ} (enabled : boosting.enabled s a) :
    s.PossibleBoosted a ∧ s.runBoosted a = .ok (boosting.exec s a) := by
  obtain ⟨possible, succeeds⟩ := enabled
  refine ⟨possible, ?_⟩
  cases out : s.runBoosted a with
  | error raised => simp [out, Except.isOk, Except.toBool] at succeeds
  | ok s' => simp [boosting, out, Except.toOption]

namespace System

variable {s s' : System ρ}

theorem Queued.boost {getPriorityBoost : ρ → Int → Int} (queued : Queued s)
    (done : s.boost getPriorityBoost = .ok s') : Queued s' := by
  obtain ⟨⟨added, ids, issued⟩, waits, tickets, ordered⟩ := queued
  obtain ⟨scheduler, boosts, rfl⟩ := map_ok done
  obtain ⟨heap, spec, better, perm⟩ := BatchScheduler.applySlaBoosts_spec
    (s := s.scheduler.popCompleted) getPriorityBoost tickets.apart ordered
  rw [spec] at boosts
  cases boosts
  have requests : (heap.toList.map PendingEntry.requestId).Perm s.scheduler.pendingIds := by
    refine (perm.map _).trans ?_
    rw [List.map_map]
    exact List.Perm.refl _
  refine ⟨⟨added, ⟨?_, ?_, ?_, ids.preempted, ids.preemptedAdded⟩, issued⟩, ⟨?_, ?_⟩, ?_, better⟩
  · exact fun rid waiting => ids.pending rid (requests.mem_iff.mp waiting)
  · exact ids.active.filter _
  · exact fun rid running => ids.activeAdded rid (List.mem_of_mem_filter running)
  · exact requests.nodup_iff.mpr waits.once
  · exact fun rid waiting running =>
      waits.idle rid (requests.mem_iff.mp waiting) (List.mem_of_mem_filter running)
  · refine tickets.mono fun e member => ?_
    obtain ⟨o, old, rfl⟩ := List.mem_map.mp (perm.mem_iff.mp member)
    exact ⟨o, old, rfl, rfl⟩

theorem indexed_run {a : Action ρ} (queued : Queued s) (indexed : s.scheduler.Indexed)
    (keeps : s.KeepsHeap a) (done : s.run a = .ok s') : s'.scheduler.Indexed := by
  cases a with
  | add rid seq =>
    obtain ⟨scheduler, accepted, rfl⟩ := map_ok done
    obtain ⟨heap, pushed, rfl⟩ := BatchScheduler.add_ok accepted
    rw [arrive_scheduler]
    exact .of_none rfl
  | schedule budget policy shouldPreempt =>
    obtain ⟨out, scheduled, scheduler, -⟩ := run_schedule done
    rw [scheduler]
    exact .of_none (BatchScheduler.scheduleWithBudget_index scheduled)
  | step batch nextTokens =>
    cases done
    have frame := BatchScheduler.step_frame s.scheduler batch nextTokens
    dsimp only at frame
    refine indexed.of_same ?_ ?_
    · change (s.scheduler.step batch nextTokens).2.pendingHeap = _
      rw [frame]
    · change (s.scheduler.step batch nextTokens).2.pendingIndex = _
      rw [frame]
  | promoteRequest rid newPriority =>
    obtain ⟨out, promoted, rfl⟩ := map_ok done
    obtain ⟨out', again, -, indexed'⟩ := BatchScheduler.promoteRequest_spec indexed
      queued.waits.once queued.tickets.apart queued.ordered rid newPriority
    rw [promoted] at again
    cases again
    exact indexed'
  | preemptLowest minPriority kvCacheState =>
    obtain ⟨out, preempted, rfl⟩ := map_ok done
    rw [arrive_scheduler]
    exact BatchScheduler.preemptLowest_index indexed keeps preempted
  | restorePreempted kvCacheState =>
    obtain ⟨out, restored, rfl⟩ := map_ok done
    rw [arrive_scheduler]
    exact BatchScheduler.restorePreempted_index indexed keeps restored

/-- The invariant: what is known of the queue, and the index. -/
structure Findable (s : System ρ) : Prop where
  queued : Queued s
  indexed : s.scheduler.Indexed

theorem Findable.run {a : BoostedAction ρ} (findable : Findable s) (possible : s.PossibleBoosted a)
    (keeps : s.KeepsIndex a) (done : s.runBoosted a = .ok s') : Findable s' := by
  obtain ⟨queued, indexed⟩ := findable
  cases a with
  | plain a =>
    exact ⟨queued.run possible keeps.1 done, indexed_run queued indexed keeps.2 done⟩
  | schedule getPriorityBoost budget policy shouldPreempt =>
    rw [runBoosted] at done
    split at done
    · cases done
    next s1 boosts =>
    have boosted := queued.boost boosts
    obtain ⟨out, scheduled, scheduler, -⟩ := run_schedule done
    refine ⟨boosted.run (a := .schedule budget policy shouldPreempt) trivial trivial done, ?_⟩
    rw [scheduler]
    exact .of_none (BatchScheduler.scheduleWithBudget_index scheduled)

theorem findable_initial (init : boosting.init s) : Findable s := by
  refine ⟨queued_initial init, ?_⟩
  obtain ⟨⟨chunked, weights, grouping, bucket, floats, paged, limit, start⟩, -⟩ := init
  rw [start]
  exact .of_none rfl

end System

/-- In a run in which the keys are kept and in which nobody is preempted and nothing restored while
an index is kept, a promotion does not raise, finds its request if and only if it waits, gives its
entry the priority and leaves the others, and leaves a heap. -/
theorem promoteRequest_exact {s : System ρ} (run : boosting.Reaches System.KeepsIndex s) (rid : ρ)
    (newPriority : Int) : ∃ out, s.scheduler.promoteRequest rid newPriority = .ok out ∧
      s.scheduler.Promotes rid newPriority out := by
  have findable : s.Findable :=
    run.invariant (fun s init => System.findable_initial init)
      fun s a findable enabled keeps =>
        findable.run (boosting_exec enabled).1 keeps (boosting_exec enabled).2
  obtain ⟨out, promoted, promotes, -⟩ := BatchScheduler.promoteRequest_spec findable.indexed
    findable.queued.waits.once findable.queued.tickets.apart findable.queued.ordered rid newPriority
  exact ⟨out, promoted, promotes⟩

/-- A request waits behind another, and neither a promotion nor a boost finds anything to do. -/
def promotedLater : List (BoostedAction Nat) :=
  [.plain (.add 0 { promptTokens := [1], priority := 3 }),
    .schedule (fun _ priority => priority) {} .unchanged false,
    .plain (.add 1 { promptTokens := [2], priority := 2 }), .plain (.promoteRequest 7 0)]

theorem promoteRequest_exact_example :
    let s := promotedLater.foldl boosting.exec (System.fresh none)
    ∃ out, s.scheduler.promoteRequest 1 0 = .ok out ∧ s.scheduler.Promotes 1 0 out := by
  have run : boosting.Reaches System.KeepsIndex (System.fresh none) :=
    .init (System.fresh_init none (System.fresh_initial none))
  exact promoteRequest_exact (run.of_follows promotedLater (by decide +kernel)) 1 0

def preemptedLater : List (BoostedAction Nat) :=
  promotedLater ++ [.plain (.preemptLowest 3 none)]

/-- The promotion of an unknown request keeps its index, and a preemption pushes into the heap: the
preempted request is not found. -/
theorem preempted_not_found : ∃ s : System Nat, boosting.Reachable s ∧
    ¬ ∃ out, s.scheduler.promoteRequest 0 1 = .ok out ∧ s.scheduler.Promotes 0 1 out := by
  have start : boosting.Reachable (System.fresh none) :=
    .init (System.fresh_init none (System.fresh_initial none))
  have run := start.of_follows preemptedLater (by decide +kernel)
  refine ⟨_, run, ?_⟩
  rintro ⟨out, done, promotes⟩
  have waiting : 0 ∈ (preemptedLater.foldl boosting.exec
      (System.fresh none)).scheduler.pendingIds := by decide +kernel
  have missed : ((preemptedLater.foldl boosting.exec
      (System.fresh none)).scheduler.promoteRequest 0 1).toOption.map Prod.fst = some false := by
    decide +kernel
  rw [done] at missed
  exact absurd ((promotes.found.mpr waiting).symm.trans (Option.some.inj missed)) (by simp)

end DistLLM.Scheduler
