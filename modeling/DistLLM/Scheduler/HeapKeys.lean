import DistLLM.Scheduler.Requests
import Mathlib.Data.Prod.Lex

/-!
# Heap keys

The keys of the heap should not tie, and entries of equal priority should leave it in the order in
which they came. `add` uses the counter and then increments it, while `preempt_lowest` increments
first, so the next request added gets the counter of the preempted one; and `restore_preempted`
requeues with the length of the sequence for a counter.
-/
namespace DistLLM.Scheduler

open DistLLM.Library

variable {ρ : Type} [LinearOrder ρ]

/-! ### Comparing entries -/

namespace PendingEntry

def key (e : PendingEntry ρ) : Int ×ₗ Nat := toLex (e.priority, e.counter)

theorem lt_eq {e e' : PendingEntry ρ}
    (apart : e.counter = e'.counter → e.requestId = e'.requestId) :
    e.lt e' = (.ok (decide (e.key < e'.key)) : Except Raised Bool) := by
  unfold lt
  split
  · next tie =>
    have equal : e.key = e'.key := by
      unfold key
      rw [tie.1, tie.2]
    rw [if_pos (apart tie.2), equal]
    simp
  · simp only [key, Prod.Lex.toLex_lt_toLex]

end PendingEntry

def Apart (entries : List (PendingEntry ρ)) : Prop :=
  ∀ e ∈ entries, ∀ e' ∈ entries, e.counter = e'.counter → e.requestId = e'.requestId

variable {entries : List (PendingEntry ρ)}

omit [LinearOrder ρ] in
theorem Apart.mono {entries' : List (PendingEntry ρ)} (apart : Apart entries)
    (fewer : ∀ e ∈ entries', e ∈ entries) : Apart entries' :=
  fun e member e' member' => apart e (fewer e member) e' (fewer e' member')

omit [LinearOrder ρ] in
theorem Apart.cons (apart : Apart entries) (entry : PendingEntry ρ)
    (new : ∀ e ∈ entries, e.counter ≠ entry.counter) :
    Apart (entry :: entries) := by
  intro e member e' member' same
  rcases List.mem_cons.mp member with rfl | old <;> rcases List.mem_cons.mp member' with rfl | old'
  · rfl
  · exact absurd same.symm (new e' old')
  · exact absurd same (new e old)
  · exact apart e old e' old' same

theorem Apart.comparable {heap : Array (PendingEntry ρ)} (apart : Apart heap.toList) :
    Heap.Comparable PendingEntry.lt PendingEntry.key heap :=
  fun e member e' member' => PendingEntry.lt_eq (apart e member.val e' member'.val)

/-- `x` raises no `TypeError`, and what it returns satisfies `P`. -/
def Compares {α : Type} (x : Except Raised α) (P : α → Prop) : Prop :=
  match x with
  | .ok a => P a
  | .error raised => raised ≠ .typeError

section

variable {α : Type} {x : Except Raised α} {P : α → Prop} (compares : Compares x P)

include compares

theorem Compares.of_ok {a : α} (done : x = .ok a) : P a := by
  rw [done] at compares
  exact compares

theorem Compares.map {β : Type} {f : α → β} : x.map f ≠ .error .typeError := by
  cases x with
  | ok a => exact fun raised => by cases raised
  | error raised => exact fun same => compares (Except.error.inj same)

end

theorem of_succeeds {α : Type} {x : Except Raised α} {P : α → Prop} {a : α}
    (succeeds : ∃ out, x = .ok out ∧ P out) (done : x = .ok a) : P a := by
  obtain ⟨out, same, holds⟩ := succeeds
  rw [done] at same
  cases same
  exact holds

variable {kvCacheState : Option (List ρ)} {s : System ρ} {budget : IterationBudget} {rid : ρ}
  {newPriority : Int}

namespace BatchScheduler

variable {s s' : BatchScheduler ρ}

abbrev Ordered (s : BatchScheduler ρ) : Prop := Heap.Ordered PendingEntry.key s.pendingHeap

theorem heappush_ok (heap : Array (PendingEntry ρ)) (entry : PendingEntry ρ)
    (apart : Apart (entry :: heap.toList)) (ordered : Heap.Ordered PendingEntry.key heap) :
    ∃ heap', Heap.heappush PendingEntry.lt heap entry = .ok heap' ∧
      Heap.Ordered PendingEntry.key heap' := by
  refine Heap.heappush_ordered (Apart.comparable (apart.mono fun e member => ?_)) ordered
  rw [Array.toList_push, List.mem_append, List.mem_singleton] at member
  rw [List.mem_cons]
  exact member.symm

theorem pushAll_compares (apart : Apart (entries ++ s.pendingHeap.toList)) (ordered : s.Ordered) :
    ∃ s', pushAll entries s = .ok s' ∧ s'.Ordered := by
  induction entries generalizing s with
  | nil => exact ⟨s, rfl, ordered⟩
  | cons entry rest ih =>
    obtain ⟨heap, pushed, better⟩ := heappush_ok s.pendingHeap entry
      (apart.mono fun e member => by
        rcases List.mem_cons.mp member with rfl | old
        · simp
        · simp [Array.mem_def.mpr old]) ordered
    have perm := Heap.heappush_perm pushed
    unfold pushAll
    rw [pushed]
    -- the entries left to push and those in the heap are still the same
    refine ih (s := { s with pendingHeap := heap }) (apart.mono fun e member => ?_) better
    rw [List.mem_append, perm.mem_iff, List.mem_cons] at member
    simp only [List.cons_append, List.mem_cons, List.mem_append]
    rcases member with later | here | old
    · exact Or.inr (Or.inl later)
    · exact Or.inl here
    · exact Or.inr (Or.inr old)

theorem add_compares {seq : Sequence} (apart : Apart s.pendingHeap.toList)
    (new : ∀ e ∈ s.pendingHeap.toList, e.counter ≠ s.counter) (ordered : s.Ordered) :
    Compares (s.add rid seq) Ordered := by
  obtain ⟨heap, pushed, better⟩ := heappush_ok s.pendingHeap
    { priority := seq.priority, counter := s.counter, requestId := rid }
    (apart.cons _ new) ordered
  unfold add
  split
  · exact fun same => by cases same
  · rw [pushed]
    exact better

theorem sift_ok {idx : Nat} (inside : idx < s.pendingHeap.size) (newPriority : Int)
    (apart : Apart s.pendingHeap.toList) (ordered : s.Ordered) :
    ∃ heap, (if newPriority < (s.pendingHeap[idx]).priority then
        Heap.siftdown PendingEntry.lt 0 s.pendingHeap.size (s.pendingHeap.set idx
          { s.pendingHeap[idx] with priority := newPriority }) idx
      else Heap.siftup PendingEntry.lt (s.pendingHeap.set idx
          { s.pendingHeap[idx] with priority := newPriority }) idx) = .ok heap ∧
        Heap.Ordered PendingEntry.key heap := by
  -- the changed entry keeps its counter and its request
  have comparable : Heap.Comparable PendingEntry.lt PendingEntry.key
      (s.pendingHeap.set idx { s.pendingHeap[idx] with priority := newPriority }) := by
    have old {e : PendingEntry ρ} (member : e ∈ s.pendingHeap.set idx
        { s.pendingHeap[idx] with priority := newPriority }) :
        ∃ e' ∈ s.pendingHeap.toList, e.counter = e'.counter ∧ e.requestId = e'.requestId := by
      rcases Array.mem_or_eq_of_mem_set member with before | rfl
      · exact ⟨e, before.val, rfl, rfl⟩
      · exact ⟨s.pendingHeap[idx], (Array.getElem_mem inside).val, rfl, rfl⟩
    intro e member e' member'
    obtain ⟨o, inO, counter, request⟩ := old member
    obtain ⟨o', inO', counter', request'⟩ := old member'
    refine PendingEntry.lt_eq fun same => ?_
    rw [request, request']
    exact apart o inO o' inO' (counter ▸ counter' ▸ same)
  split
  · -- a lesser key moves towards the root
    next less =>
    refine Heap.siftdown_set_ordered inside comparable ordered ?_
    exact Prod.Lex.toLex_le_toLex.mpr (Or.inl less)
  · -- a greater or equal one towards the leaves
    next notLess =>
    refine Heap.siftup_set_ordered inside comparable ordered ?_
    rcases (not_lt.mp notLess).lt_or_eq with greater | equal
    · exact Prod.Lex.toLex_le_toLex.mpr (Or.inl greater)
    · exact Prod.Lex.toLex_le_toLex.mpr (Or.inr ⟨equal, le_rfl⟩)

theorem promoteRequest_compares (apart : Apart s.pendingHeap.toList) (ordered : s.Ordered) :
    Compares (s.promoteRequest rid newPriority) fun out => out.2.Ordered := by
  unfold promoteRequest
  dsimp only
  split
  · exact ordered
  next idx found =>
  split
  next inside =>
    obtain ⟨heap, sifts, better⟩ := sift_ok inside newPriority apart ordered
    simp only [Array.size_set, sifts]
    exact better
  next => exact fun same => by cases same

theorem promoteRequest_entries {out : Bool × BatchScheduler ρ}
    (done : s.promoteRequest rid newPriority = .ok out) :
    out.2.counter = s.counter ∧ ∀ e ∈ out.2.pendingHeap.toList, ∃ o ∈ s.pendingHeap.toList,
      e.counter = o.counter ∧ e.requestId = o.requestId := by
  rcases promoteRequest_ok done with ⟨index, same⟩ | ⟨idx, inside, heap, sifted, same⟩
  · rw [same]
    exact ⟨rfl, fun e member => ⟨e, member, rfl, rfl⟩⟩
  have perm : heap.Perm (s.pendingHeap.set idx
      { s.pendingHeap[idx] with priority := newPriority }) := by
    split at sifted
    · exact Heap.siftdown_perm sifted
    · exact Heap.siftup_perm sifted
  rw [same]
  refine ⟨rfl, fun e member => ?_⟩
  rcases Array.mem_or_eq_of_mem_set (perm.mem_iff.mp (Array.mem_def.mpr member)) with old | rfl
  · exact ⟨e, old.val, rfl, rfl⟩
  · exact ⟨s.pendingHeap[idx], (Array.getElem_mem inside).val, rfl, rfl⟩

theorem preemptLowest_compares (minPriority : Int) (kvCacheState : Option (List ρ))
    (apart : Apart s.pendingHeap.toList)
    (below : ∀ e ∈ s.pendingHeap.toList, e.counter ≤ s.counter) (ordered : s.Ordered) :
    ∃ out, s.preemptLowest minPriority kvCacheState = .ok out ∧ out.2.Ordered := by
  unfold preemptLowest
  split
  · exact ⟨_, rfl, ordered⟩
  split
  · exact ⟨_, rfl, ordered⟩
  next rid found =>
  obtain ⟨heap, pushed, better⟩ := heappush_ok s.pendingHeap
    { priority := (s.sequences rid).priority, counter := s.counter + 1, requestId := rid }
    (apart.cons _ fun e member => (Nat.lt_succ_of_le (below e member)).ne) ordered
  rw [pushed]
  exact ⟨_, rfl, better⟩

theorem restorePreempted_compares (apart : Apart s.pendingHeap.toList)
    (nobody : s.requeued kvCacheState = []) (ordered : s.Ordered) :
    ∃ out, s.restorePreempted kvCacheState = .ok out ∧ out.2.Ordered := by
  unfold restorePreempted
  split
  · exact ⟨_, rfl, ordered⟩
  have fewer : Apart (s.pendingHeap.filter fun e => decide (e.requestId ∉ s.preempted)).toList := by
    rw [Array.toList_filter]
    exact apart.mono fun e member => List.mem_of_mem_filter member
  obtain ⟨heap, heapified, better⟩ := Heap.heapify_ordered fewer.comparable
  simp only [heapified, nobody, List.map_nil, pushAll]
  exact ⟨_, rfl, better⟩

theorem restorePreempted_entries {out : List ρ × BatchScheduler ρ}
    (nobody : s.requeued kvCacheState = []) (done : s.restorePreempted kvCacheState = .ok out) :
    out.2.counter = s.counter ∧ ∀ e ∈ out.2.pendingHeap.toList, e ∈ s.pendingHeap.toList := by
  rcases restorePreempted_ok done with ⟨-, rfl⟩ | ⟨heap, saved, heapified, -, s', pushed, same⟩
  · exact ⟨rfl, fun e member => member⟩
  obtain ⟨restored, -⟩ := foldl_restoreOne (s.restorable kvCacheState) s.preempted s
  rw [nobody] at pushed
  cases pushed
  rw [same, restored]
  refine ⟨rfl, fun e member => ?_⟩
  have kept := (Heap.heapify_perm heapified).toList.mem_iff.mp member
  rw [Array.toList_filter] at kept
  exact List.mem_of_mem_filter kept

/-! ### Scheduling -/

theorem consider_heap (budget : IterationBudget) (decodeAdded : Nat) (st : Promotion ρ)
    (entry : PendingEntry ρ) :
    (st.consider budget decodeAdded entry).scheduler.pendingHeap = st.scheduler.pendingHeap ∧
      ∀ e ∈ (st.consider budget decodeAdded entry).rejected, e ∈ st.rejected ∨ e = entry := by
  rcases consider_cases budget decodeAdded st entry with
    ⟨-, same⟩ | ⟨-, same⟩ | ⟨chunk, -, -, same⟩
  · rw [same]
    exact ⟨rfl, fun e member => Or.inl member⟩
  · rw [same]
    exact ⟨rfl, fun e member => by simpa using member⟩
  · rw [same]
    exact ⟨rfl, fun e member => Or.inl member⟩

theorem promoteLoop_compares (budget : IterationBudget) (decodeAdded : Nat) (maxExamine : Int)
    (rounds : Nat) (st : Promotion ρ)
    (apart : Apart (st.rejected ++ st.scheduler.pendingHeap.toList))
    (ordered : st.scheduler.Ordered) :
    ∃ st', promoteLoop budget decodeAdded maxExamine rounds st = .ok st' ∧
      st'.scheduler.Ordered ∧ Apart (st'.rejected ++ st'.scheduler.pendingHeap.toList) := by
  induction rounds generalizing st with
  | zero => exact ⟨st, rfl, ordered, apart⟩
  | succ rounds ih =>
    unfold promoteLoop
    split
    · by_cases some : 0 < st.scheduler.pendingHeap.size
      · obtain ⟨entry, heap, popped, better, -⟩ := Heap.heappop_ordered
          (apart.mono fun e member => List.mem_append_right _ member).comparable ordered some
        have perm := Heap.heappop_perm popped
        rw [popped]
        have after := consider_heap budget decodeAdded (st.withHeap heap) entry
        have kept : ((st.withHeap heap).consider budget decodeAdded entry).scheduler.pendingHeap =
            heap := after.1
        -- the entry is in neither place any more, or among the rejected ones
        refine ih ((st.withHeap heap).consider budget decodeAdded entry) ?_ ?_
        · rw [kept]
          refine apart.mono fun e member => ?_
          rw [List.mem_append, perm.mem_iff, List.mem_cons]
          rcases List.mem_append.mp member with rejected | left
          · rcases after.2 e rejected with before | rfl
            · exact Or.inl before
            · exact Or.inr (Or.inl rfl)
          · exact Or.inr (Or.inr left)
        · unfold Ordered
          rw [kept]
          exact better
      · have empty : st.scheduler.pendingHeap = #[] :=
          Array.eq_empty_of_size_eq_zero (by omega)
        have popped : Heap.heappop (PendingEntry.lt (ρ := ρ)) #[] = .ok none := rfl
        rw [empty, popped]
        exact ⟨st, rfl, ordered, apart⟩
    · exact ⟨st, rfl, ordered, apart⟩

theorem promotePending_compares (budget : IterationBudget) (acc : ActiveBatch ρ)
    (apart : Apart s.pendingHeap.toList) (ordered : s.Ordered) :
    ∃ out, s.promotePending budget acc = .ok out ∧ out.2.Ordered := by
  obtain ⟨st, looped, better, apart'⟩ := promoteLoop_compares budget acc.decodeAdded
    (max ((budget.maxBatchSize - acc.batch.length) * 2) 10) s.pendingHeap.size
    (Promotion.start s budget acc) (by simpa [Promotion.start] using apart) ordered
  obtain ⟨s', pushed, best⟩ := pushAll_compares apart' better
  refine ⟨(st.batch, { s' with pendingIndex := none }), ?_, best⟩
  unfold promotePending
  dsimp only
  unfold Promotion.start at looped
  rw [looped]
  dsimp only
  rw [pushed]

theorem buildBatch_compares {victim : Option ρ} (apart : Apart s.pendingHeap.toList)
    (ordered : s.Ordered) :
    Compares (s.buildBatch budget victim) fun out => out.scheduler.Ordered := by
  obtain ⟨⟨ids, s'⟩, promotes, better⟩ := promotePending_compares (s := s.evictCompleted.2)
    budget (s.evictCompleted.2.buildActiveBatch budget) apart ordered
  unfold buildBatch
  dsimp only
  rw [promotes]
  cases ids with
  | nil => exact better
  | cons rid rest =>
    dsimp only
    split
    · next raised grouped =>
      -- grouping divides, it does not compare sequences
      unfold applyLengthGrouping at grouped
      split at grouped
      · dsimp only at grouped
        split at grouped
        · cases grouped
        split at grouped
        · cases grouped
          exact fun same => by cases same
        · cases grouped
      · cases grouped
    · next batch grouped =>
      obtain ⟨frame, -⟩ := buildBatchTensors_frame budget batch s'
      rw [frame]
      exact better

theorem scheduleWithBudget_compares {policy : BudgetPolicy} {shouldPreempt : Bool}
    (apart : Apart s.pendingHeap.toList) (below : ∀ e ∈ s.pendingHeap.toList, e.counter ≤ s.counter)
    (ordered : s.Ordered) : Compares (s.scheduleWithBudget budget policy shouldPreempt) fun out =>
      out.scheduler.Ordered := by
  have preempts : ∃ out, s.preemptIfNeeded shouldPreempt = .ok out ∧ out.2.Ordered ∧
      Apart out.2.pendingHeap.toList := by
    unfold preemptIfNeeded
    split
    · obtain ⟨out, preempted, better⟩ :=
        preemptLowest_compares 2 none apart below ordered
      refine ⟨out, preempted, better, ?_⟩
      rcases preemptLowest_ok preempted with rfl | ⟨rid, heap, saved, -, pushed, rfl⟩
      · exact apart
      · refine Apart.mono (apart.cons
          { priority := (s.sequences rid).priority, counter := s.counter + 1, requestId := rid }
          fun e member => (Nat.lt_succ_of_le (below e member)).ne) fun e member => ?_
        exact (Heap.heappush_perm pushed).mem_iff.mp member
    · exact ⟨_, rfl, ordered, apart⟩
  obtain ⟨⟨victim, s'⟩, preempted, better, apart'⟩ := preempts
  unfold scheduleWithBudget
  rw [preempted]
  exact buildBatch_compares apart' better

/-- A request waits once, and not while it is active. -/
structure Waits (s : BatchScheduler ρ) : Prop where
  once : s.pendingIds.Nodup
  idle : ∀ rid ∈ s.pendingIds, rid ∉ s.active

variable {added : List ρ} (waits : s.Waits)

include waits

theorem Waits.add {seq : Sequence} (known : KnownIds added s) (new : rid ∉ added)
    (done : s.add rid seq = .ok s') : s'.Waits := by
  obtain ⟨pending, active, -⟩ := add_ids done
  constructor
  · rw [pending.nodup_iff, List.nodup_cons]
    exact ⟨fun waiting => new (known.pending rid waiting), waits.once⟩
  · intro other waiting
    rw [active]
    rcases List.mem_cons.mp (pending.mem_iff.mp waiting) with rfl | before
    · exact fun running => new (known.activeAdded other running)
    · exact waits.idle other before

theorem Waits.promoteRequest {out : Bool × BatchScheduler ρ}
    (done : s.promoteRequest rid newPriority = .ok out) : out.2.Waits := by
  obtain ⟨pending, active, -⟩ := promoteRequest_ids done
  constructor
  · exact pending.nodup_iff.mpr waits.once
  · intro other waiting
    rw [active]
    exact waits.idle other (pending.mem_iff.mp waiting)

theorem Waits.preemptLowest {minPriority : Int} {out : Option ρ × BatchScheduler ρ}
    (known : KnownIds added s)
    (done : s.preemptLowest minPriority kvCacheState = .ok out) : out.2.Waits := by
  rcases preemptLowest_ids done with rfl | ⟨rid, member, -, pending, active, -⟩
  · exact waits
  constructor
  · rw [pending.nodup_iff, List.nodup_cons]
    exact ⟨fun waiting => waits.idle rid waiting member, waits.once⟩
  · intro other waiting
    rw [active, known.active.mem_erase_iff]
    rcases List.mem_cons.mp (pending.mem_iff.mp waiting) with rfl | before
    · exact fun running => running.1 rfl
    · exact fun running => waits.idle other before running.2

theorem Waits.restorePreempted {out : List ρ × BatchScheduler ρ}
    (nobody : s.requeued kvCacheState = [])
    (done : s.restorePreempted kvCacheState = .ok out) : out.2.Waits := by
  obtain ⟨pending, active, -⟩ := restorePreempted_ids done
  rw [nobody, List.nil_append] at pending
  constructor
  · exact pending.nodup_iff.mpr (waits.once.filter _)
  · intro other waiting
    obtain ⟨before, kept⟩ := List.mem_filter.mp (pending.mem_iff.mp waiting)
    rw [active, mem_foldl_insertKey]
    rintro (running | restored)
    · exact waits.idle other before running
    · simp only [decide_eq_true_eq] at kept
      exact kept (List.mem_of_mem_filter restored)

theorem Waits.build {promoted : List ρ} {gone : List (PendingEntry ρ)} {out : Scheduled ρ}
    (built : Built s budget promoted gone out) : out.scheduler.Waits := by
  have once := built.pendingIds_perm.nodup_iff.mp waits.once
  -- what left the heap is not in it any more, and the promoted sequences are among it
  obtain ⟨-, left, apart⟩ := List.nodup_append'.mp once
  constructor
  · exact left
  · intro rid waiting running
    rw [built.active, List.mem_append] at running
    rcases running with old | new
    · exact waits.idle rid (built.pendingIds_perm.mem_iff.mpr (List.mem_append_right _ waiting))
        (List.mem_of_mem_filter old)
    · obtain ⟨e, member, rfl⟩ := built.promotedGone rid new
      exact apart (List.mem_map_of_mem member) waiting

theorem Waits.step {batch : ScheduledBatch ρ} {nextTokens : List Int} :
    (s.step batch nextTokens).2.Waits := by
  have frame := step_frame s batch nextTokens
  constructor
  · rw [frame]
    exact waits.once
  · rw [frame]
    exact fun rid waiting running => waits.idle rid waiting (List.mem_of_mem_filter running)

end BatchScheduler

/-- The counters of the entries go up in the order in which their requests came. -/
structure Tickets (entries : List (PendingEntry ρ)) (counter : Nat) (arrival : ρ → Nat)
    (arrivals : Nat) : Prop where
  below : ∀ e ∈ entries, e.counter ≤ counter
  arrived : ∀ e ∈ entries, arrival e.requestId < arrivals
  inOrder : ∀ e ∈ entries, ∀ e' ∈ entries,
    arrival e.requestId < arrival e'.requestId → e.counter < e'.counter
  distinct : ∀ e ∈ entries, ∀ e' ∈ entries,
    arrival e.requestId = arrival e'.requestId → e.requestId = e'.requestId

namespace Tickets

variable {entries entries' : List (PendingEntry ρ)} {counter counter' arrivals : Nat}
  {arrival : ρ → Nat}

omit [LinearOrder ρ] in
theorem apart (tickets : Tickets entries counter arrival arrivals) : Apart entries := by
  intro e member e' member' same
  apply tickets.distinct e member e' member'
  rcases lt_trichotomy (arrival e.requestId) (arrival e'.requestId) with first | equal | second
  · exact absurd same (tickets.inOrder e member e' member' first).ne
  · exact equal
  · exact absurd same.symm (tickets.inOrder e' member' e member second).ne

omit [LinearOrder ρ] in
theorem mono (tickets : Tickets entries counter arrival arrivals)
    (fewer : ∀ e ∈ entries', ∃ o ∈ entries, e.counter = o.counter ∧ e.requestId = o.requestId) :
    Tickets entries' counter arrival arrivals := by
  constructor
  · intro e member
    obtain ⟨o, old, same, -⟩ := fewer e member
    exact same ▸ tickets.below o old
  · intro e member
    obtain ⟨o, old, -, same⟩ := fewer e member
    exact same ▸ tickets.arrived o old
  · intro e member e' member' first
    obtain ⟨o, old, counter, request⟩ := fewer e member
    obtain ⟨o', old', counter', request'⟩ := fewer e' member'
    rw [counter, counter']
    rw [request, request'] at first
    exact tickets.inOrder o old o' old' first
  · intro e member e' member' equal
    obtain ⟨o, old, -, request⟩ := fewer e member
    obtain ⟨o', old', -, request'⟩ := fewer e' member'
    rw [request, request'] at equal ⊢
    exact tickets.distinct o old o' old' equal

theorem push (tickets : Tickets entries counter arrival arrivals) (entry : PendingEntry ρ)
    (new : ∀ e ∈ entries, e.requestId ≠ entry.requestId)
    (greater : ∀ e ∈ entries, e.counter < entry.counter) (bounded : entry.counter ≤ counter')
    (grows : counter ≤ counter') :
    Tickets (entry :: entries) counter' (Function.update arrival entry.requestId arrivals)
      (arrivals + 1) := by
  -- the new entry has arrived last, and the arrivals of the others stay
  have own : Function.update arrival entry.requestId arrivals entry.requestId = arrivals :=
    Function.update_self ..
  have other : ∀ e ∈ entries, Function.update arrival entry.requestId arrivals e.requestId =
      arrival e.requestId := fun e member => Function.update_of_ne (new e member) _ _
  constructor
  · intro e member
    rcases List.mem_cons.mp member with rfl | old
    · exact bounded
    · exact (tickets.below e old).trans grows
  · intro e member
    rcases List.mem_cons.mp member with rfl | old
    · rw [own]
      omega
    · rw [other e old]
      exact Nat.lt_succ_of_lt (tickets.arrived e old)
  · intro e member e' member' first
    rcases List.mem_cons.mp member with rfl | old <;>
      rcases List.mem_cons.mp member' with rfl | old'
    · exact absurd first (lt_irrefl _)
    · rw [own, other e' old'] at first
      exact absurd (tickets.arrived e' old') (by omega)
    · exact greater e old
    · rw [other e old, other e' old'] at first
      exact tickets.inOrder e old e' old' first
  · intro e member e' member' equal
    rcases List.mem_cons.mp member with rfl | old <;>
      rcases List.mem_cons.mp member' with rfl | old'
    · rfl
    · rw [own, other e' old'] at equal
      exact absurd (tickets.arrived e' old') (by omega)
    · rw [own, other e old] at equal
      exact absurd (tickets.arrived e old) (by omega)
    · rw [other e old, other e' old'] at equal
      exact tickets.distinct e old e' old' equal

end Tickets

namespace System

/-! ### Runs -/

/-- The keys of the waiting entries differ, and where priorities are equal the counters are in the
order in which the requests came. -/
def KeysInOrder (s : System ρ) : Prop :=
  (s.scheduler.pendingHeap.toList.map fun e => (e.priority, e.counter)).Nodup ∧
  ∀ e ∈ s.scheduler.pendingHeap.toList, ∀ e' ∈ s.scheduler.pendingHeap.toList,
    e.priority = e'.priority → s.arrival e.requestId < s.arrival e'.requestId →
      e.counter < e'.counter

instance (s : System ρ) : Decidable s.KeysInOrder := inferInstanceAs (Decidable (_ ∧ _))

/-- A request is not added while an entry waits with the counter that it would get, and a
restoration requeues nobody. -/
def KeepsKeys (s : System ρ) : Action ρ → Prop
  | .add _ _ => ∀ e ∈ s.scheduler.pendingHeap.toList, e.counter ≠ s.scheduler.counter
  | .restorePreempted kvCacheState => s.scheduler.requeued kvCacheState = []
  | _ => True

instance (s : System ρ) : DecidablePred s.KeepsKeys
  | .add _ _ => inferInstanceAs (Decidable (∀ e ∈ s.scheduler.pendingHeap.toList, _))
  | .restorePreempted _ => inferInstanceAs (Decidable (_ = _))
  | .schedule _ _ _ | .step _ _ | .promoteRequest _ _ | .preemptLowest _ _ => .isTrue trivial

/-- The invariant: requests wait once, their counters are in the order of arrival, and the heap is
in order. -/
structure Queued (s : System ρ) : Prop extends Known s where
  waits : s.scheduler.Waits
  tickets : Tickets s.scheduler.pendingHeap.toList s.scheduler.counter s.arrival s.arrivals
  ordered : s.scheduler.Ordered

theorem Queued.compares {a : Action ρ} (queued : Queued s)
    (keeps : s.KeepsKeys a) : s.run a ≠ .error .typeError := by
  have apart := queued.tickets.apart
  have below := queued.tickets.below
  have ordered := queued.ordered
  have ok {α β : Type} {x : Except Raised α} {P : α → Prop} {f : α → β}
      (succeeds : ∃ out, x = .ok out ∧ P out) : x.map f ≠ .error .typeError := by
    obtain ⟨out, same, -⟩ := succeeds
    rw [same]
    exact fun absurd => by cases absurd
  cases a with
  | add rid seq => exact (BatchScheduler.add_compares apart keeps ordered).map
  | schedule budget policy shouldPreempt =>
    exact (BatchScheduler.scheduleWithBudget_compares apart below ordered).map
  | step batch nextTokens => exact fun absurd => by cases absurd
  | promoteRequest rid newPriority =>
    exact (BatchScheduler.promoteRequest_compares apart ordered).map
  | preemptLowest minPriority kvCacheState =>
    exact ok (BatchScheduler.preemptLowest_compares minPriority kvCacheState apart below
        ordered)
  | restorePreempted kvCacheState =>
    exact ok (BatchScheduler.restorePreempted_compares apart keeps ordered)

theorem preemptLowest_tickets {minPriority : Int} {out : Option ρ × BatchScheduler ρ}
    (tickets : Tickets s.scheduler.pendingHeap.toList s.scheduler.counter s.arrival s.arrivals)
    (waits : s.scheduler.Waits)
    (done : s.scheduler.preemptLowest minPriority kvCacheState = .ok out) :
    Tickets out.2.pendingHeap.toList out.2.counter (arrive out.1.toList s).arrival
      (arrive out.1.toList s).arrivals := by
  rcases BatchScheduler.preemptLowest_ok done with rfl | ⟨rid, heap, saved, running, pushed, rfl⟩
  · exact tickets
  have perm := Heap.heappush_perm pushed
  -- the sequence was active, so no entry of it waits
  have new : ∀ e ∈ s.scheduler.pendingHeap.toList, e.requestId ≠ rid := fun e member same =>
    waits.idle rid (same ▸ List.mem_map_of_mem member) running
  refine (tickets.push
    { priority := (s.scheduler.sequences rid).priority, counter := s.scheduler.counter + 1,
      requestId := rid } new ?_ le_rfl (Nat.le_succ _)).mono ?_
  · exact fun e member => Nat.lt_succ_of_le (tickets.below e member)
  · exact fun e member => ⟨e, perm.mem_iff.mp member, rfl, rfl⟩

theorem Queued.run {s s' : System ρ} {a : Action ρ} (queued : Queued s)
    (possible : s.Possible a) (keeps : s.KeepsKeys a) (done : s.run a = .ok s') : Queued s' := by
  have known := queued.toKnown.run possible done
  obtain ⟨before, waits, tickets, ordered⟩ := queued
  have apart := tickets.apart
  have below := tickets.below
  suffices rest : s'.scheduler.Waits ∧ Tickets s'.scheduler.pendingHeap.toList
      s'.scheduler.counter s'.arrival s'.arrivals ∧ s'.scheduler.Ordered from
    ⟨known, rest.1, rest.2.1, rest.2.2⟩
  cases a with
  | add rid seq =>
    obtain ⟨scheduler, accepted, rfl⟩ := map_ok done
    refine ⟨waits.add before.ids possible.1 accepted, ?_,
      (BatchScheduler.add_compares apart keeps ordered).of_ok accepted⟩
    obtain ⟨heap, pushed, rfl⟩ := BatchScheduler.add_ok accepted
    have perm := Heap.heappush_perm pushed
    have new : ∀ e ∈ s.scheduler.pendingHeap.toList, e.requestId ≠ rid := fun e member same =>
      possible.1 (before.ids.pending rid (same ▸ List.mem_map_of_mem member))
    -- counters are at most `counter`, and by the condition none is equal to it
    refine (tickets.push
      { priority := seq.priority, counter := s.scheduler.counter, requestId := rid }
      new ?_ (Nat.le_succ _) (Nat.le_succ _)).mono ?_
    · exact fun e member => lt_of_le_of_ne (below e member) (keeps e member)
    · exact fun e member => ⟨e, perm.mem_iff.mp member, rfl, rfl⟩
  | schedule budget policy shouldPreempt =>
    obtain ⟨out, scheduled, scheduler, -, -, -, -, arrival, arrivals⟩ := run_schedule done
    obtain ⟨victim, s1, preempts, builds⟩ := BatchScheduler.scheduleWithBudget_ok scheduled
    obtain ⟨-, -, -, -, noted, -⟩ := BatchScheduler.buildBatch_ok builds
    have after : s1.Waits ∧ Tickets s1.pendingHeap.toList s1.counter
        (arrive victim.toList s).arrival (arrive victim.toList s).arrivals := by
      rcases BatchScheduler.preemptIfNeeded_ok preempts with same | preempted
      · cases same
        exact ⟨waits, tickets⟩
      · exact ⟨waits.preemptLowest before.ids preempted,
          preemptLowest_tickets tickets waits preempted⟩
    obtain ⟨promoted, gone, built⟩ := BatchScheduler.buildBatch_built builds
    have counter : out.scheduler.counter = s1.counter := by rw [built.frame]
    rw [scheduler, arrival, arrivals, noted, counter]
    refine ⟨after.1.build built, after.2.mono fun e member => ⟨e, ?_, rfl, rfl⟩, ?_⟩
    · exact built.heap.mem_iff.mpr (List.mem_append_right _ member)
    · exact (BatchScheduler.scheduleWithBudget_compares apart below ordered).of_ok scheduled
  | step batch nextTokens =>
    cases done
    have frame := BatchScheduler.step_frame s.scheduler batch nextTokens
    have heap : (s.scheduler.step batch nextTokens).2.pendingHeap = s.scheduler.pendingHeap := by
      rw [frame]
    have counter : (s.scheduler.step batch nextTokens).2.counter = s.scheduler.counter := by
      rw [frame]
    refine ⟨waits.step, ?_, ?_⟩
    · change Tickets (s.scheduler.step batch nextTokens).2.pendingHeap.toList
        (s.scheduler.step batch nextTokens).2.counter s.arrival s.arrivals
      rwa [heap, counter]
    · change Heap.Ordered _ (s.scheduler.step batch nextTokens).2.pendingHeap
      rwa [heap]
  | promoteRequest rid newPriority =>
    obtain ⟨out, promoted, rfl⟩ := map_ok done
    refine ⟨waits.promoteRequest promoted, ?_,
      (BatchScheduler.promoteRequest_compares apart ordered).of_ok promoted⟩
    obtain ⟨counter, entries⟩ := BatchScheduler.promoteRequest_entries promoted
    rw [counter]
    exact tickets.mono entries
  | preemptLowest minPriority kvCacheState =>
    obtain ⟨out, preempted, rfl⟩ := map_ok done
    have arrival : (arrive out.1.toList { s with scheduler := out.2 }).arrival =
        (arrive out.1.toList s).arrival := by cases out.1 <;> rfl
    have arrivals : (arrive out.1.toList { s with scheduler := out.2 }).arrivals =
        (arrive out.1.toList s).arrivals := by cases out.1 <;> rfl
    rw [arrive_scheduler, arrival, arrivals]
    refine ⟨waits.preemptLowest before.ids preempted,
      preemptLowest_tickets tickets waits preempted, ?_⟩
    exact of_succeeds (P := fun out => out.2.Ordered)
      (BatchScheduler.preemptLowest_compares minPriority kvCacheState apart below
        ordered) preempted
  | restorePreempted kvCacheState =>
    obtain ⟨out, restored, rfl⟩ := map_ok done
    rw [arrive_scheduler, keeps]
    refine ⟨waits.restorePreempted keeps restored, ?_, of_succeeds (P := fun out => out.2.Ordered)
      (BatchScheduler.restorePreempted_compares apart keeps ordered) restored⟩
    obtain ⟨counter, entries⟩ := BatchScheduler.restorePreempted_entries keeps restored
    rw [counter]
    exact tickets.mono fun e member => ⟨e, entries e member, rfl, rfl⟩

theorem queued_initial (init : (batching Initial).init s) : Queued s := by
  have known : Known s := known_initial (fun _ => initial_ids) init
  obtain ⟨⟨chunked, weights, grouping, bucket, floats, paged, limit, start⟩, -⟩ := init
  have empty : s.scheduler.pendingHeap = #[] := by rw [start]; rfl
  have nobody : s.scheduler.pendingIds = [] := by rw [BatchScheduler.pendingIds, empty]; rfl
  refine ⟨known, ⟨?_, ?_⟩, ⟨?_, ?_, ?_, ?_⟩, ?_⟩
  · simp [nobody]
  · simp [nobody]
  · simp [empty]
  · simp [empty]
  · simp [empty]
  · simp [empty]
  · intro i inner _
    unfold Heap.Edge
    rw [empty, Heap.rank_of_le (i := i) (by simp)]
    exact le_top

omit [LinearOrder ρ] in
theorem Queued.keysInOrder (queued : Queued s) : s.KeysInOrder := by
  have apart := queued.tickets.apart
  refine ⟨List.Nodup.map_on ?_ (List.Nodup.of_map _ queued.waits.once), ?_⟩
  · intro e member e' member' same
    exact List.inj_on_of_nodup_map queued.waits.once member member'
      (apart e member e' member' (Prod.mk.inj same).2)
  · exact fun e member e' member' _ => queued.tickets.inOrder e member e' member'

theorem Queued.pops_first (queued : Queued s) {entry : PendingEntry ρ}
    {heap : Array (PendingEntry ρ)}
    (popped : Heap.heappop PendingEntry.lt s.scheduler.pendingHeap = .ok (some (entry, heap))) :
    ∀ e ∈ s.scheduler.pendingHeap.toList, entry.priority ≤ e.priority ∧
      (e.priority = entry.priority → s.arrival entry.requestId ≤ s.arrival e.requestId) := by
  have perm := Heap.heappop_perm popped
  have taken : entry ∈ s.scheduler.pendingHeap.toList := perm.mem_iff.mpr (List.mem_cons_self ..)
  have nonempty : 0 < s.scheduler.pendingHeap.size := by
    exact List.length_pos_of_mem taken
  -- an ordered heap pops its least key
  obtain ⟨item, rest, again, -, least⟩ := Heap.heappop_ordered
    queued.tickets.apart.comparable queued.ordered nonempty
  rw [popped] at again
  cases again
  intro e member
  have order := Prod.Lex.toLex_le_toLex.mp (least e (Array.mem_def.mpr member))
  constructor
  · rcases order with less | equal
    · exact less.le
    · exact equal.1.le
  · intro same
    by_contra later
    have before := queued.tickets.inOrder e member entry taken (not_le.mp later)
    rcases order with less | ⟨-, counter⟩
    · exact absurd same less.ne'
    · exact absurd before (not_lt.mpr counter)

end System

/-- In a run in which no request is added while an entry waits with the counter it would get, and
no restoration requeues anything, the keys of the heap are distinct in every state, and where
priorities are equal they are in the order of arrival. The heap pops in this order, and no action
that meets the condition raises a `TypeError`. -/
theorem heap_keys_distinct {s : System ρ} (run : (batching Initial).Reaches System.KeepsKeys s) :
    s.KeysInOrder ∧ (∀ entry heap,
      Heap.heappop PendingEntry.lt s.scheduler.pendingHeap = .ok (some (entry, heap)) →
      ∀ e ∈ s.scheduler.pendingHeap.toList, entry.priority ≤ e.priority ∧
        (e.priority = entry.priority → s.arrival entry.requestId ≤ s.arrival e.requestId)) ∧
    ∀ a, s.KeepsKeys a → s.run a ≠ .error .typeError := by
  have queued : s.Queued :=
    batching_invariant (fun s init => System.queued_initial init)
      (fun s a s' queued possible keeps done => queued.run possible keeps done) run
  exact ⟨queued.keysInOrder, fun entry heap popped => queued.pops_first popped,
    fun a keeps => queued.compares keeps⟩

/-- A request is preempted while a more important one waits. -/
def preemptedBehind : List (Action Nat) :=
  [.add 0 { promptTokens := [1], priority := 3 }, .schedule {} .unchanged false,
    .add 1 { promptTokens := [2], priority := 0 }, .preemptLowest 3 none]

theorem heap_keys_distinct_example :
    let s := preemptedBehind.foldl (batching Initial).exec (System.fresh none)
    s.KeysInOrder ∧
      (∃ entry heap,
        Heap.heappop PendingEntry.lt s.scheduler.pendingHeap = .ok (some (entry, heap)) ∧
        ∀ e ∈ s.scheduler.pendingHeap.toList, entry.priority ≤ e.priority) ∧
      s.run (.schedule {} .unchanged false) ≠ .error .typeError := by
  have run := (System.fresh_reaches System.KeepsKeys none).of_follows preemptedBehind
    (by decide +kernel)
  obtain ⟨inOrder, pops, compares⟩ := heap_keys_distinct run
  have popped : Heap.heappop PendingEntry.lt (preemptedBehind.foldl (batching Initial).exec
      (System.fresh none)).scheduler.pendingHeap =
        .ok (some ({ priority := 0, counter := 1, requestId := 1 },
          #[{ priority := 3, counter := 3, requestId := 0 }])) := by decide +kernel
  exact ⟨inOrder, ⟨_, _, popped, fun e member => (pops _ _ popped e member).1⟩,
    compares (.schedule {} .unchanged false) trivial⟩

def addedAfter : List (Action Nat) :=
  preemptedBehind ++ [.add 2 { promptTokens := [3], priority := 3 }]

/-- The request that is added gets the counter of the preempted one. The two keys tie, and the next
schedule compares the sequences. -/
theorem counter_used_twice : ∃ s, (batching (Initial (ρ := Nat))).Reachable s ∧
    ¬ s.KeysInOrder ∧ s.run (.schedule {} .unchanged false) = .error .typeError := by
  have run := (System.fresh_reaches (fun _ _ => True) none).of_follows addedAfter
    (by decide +kernel)
  have raised : (match System.run (addedAfter.foldl (batching Initial).exec (System.fresh none))
      (.schedule {} .unchanged false) with
      | .error raised => decide (raised = .typeError)
      | .ok _ => false) = true := by decide +kernel
  refine ⟨_, run, by decide +kernel, ?_⟩
  split at raised
  · next raised' same => rw [same, of_decide_eq_true raised]
  · cases raised

end DistLLM.Scheduler
