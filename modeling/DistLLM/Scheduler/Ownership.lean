import DistLLM.Scheduler.Blocks
import DistLLM.Scheduler.Conservation

/-!
# Who owns blocks

The block manager should have registered exactly the active sequences. Promotion allocates, the
eviction and `step` free. But a promotion goes on when the allocation fails, and a preempted
sequence keeps its blocks, since the manager of a single node cannot swap a sequence out; when it
is promoted again it gets new ones, and the old ones are lost.
-/
namespace DistLLM.Scheduler

open DistLLM.Library

variable {ρ : Type} [LinearOrder ρ]

namespace BatchScheduler

variable {s s' : BatchScheduler ρ} {pool : Nat}

/-- A sound manager of a pool, whose registered sequences are the owners. -/
def Owns (pool : Nat) (paged : Option (PagedAttentionManager ρ)) (owners : List ρ) : Prop :=
  ∃ mgr, paged = some mgr ∧ mgr.Sound ∧ mgr.numBlocks = pool ∧
    ∀ rid, mgr.Registered rid ↔ rid ∈ owners

theorem Owns.free {owners : List ρ} (rids : List ρ) (owns : Owns pool s.pagedAttention owners) :
    Owns pool (s.freeBlocks rids) (owners.filter fun rid => decide (rid ∉ rids)) := by
  obtain ⟨mgr, same, sound, size, registered⟩ := owns
  obtain ⟨sound', size', left⟩ := sound.freeSequences rids
  refine ⟨rids.foldl PagedAttentionManager.freeSequence mgr, ?_, sound', size'.trans size, ?_⟩
  · rw [freeBlocks, same]
    rfl
  · intro rid
    rw [left, registered, List.mem_filter, decide_eq_true_eq]

/-- The table of preempted sequences is full, or no active sequence can be preempted. -/
def PreemptsNobody (s : BatchScheduler ρ) (minPriority : Int) : Prop :=
  s.maxPreempted ≤ s.preempted.length ∨ s.victim minPriority = none

instance (minPriority : Int) : Decidable (s.PreemptsNobody minPriority) :=
  inferInstanceAs (Decidable (_ ∨ _))

theorem preemptLowest_nobody {minPriority : Int} {kvCacheState : Option (List ρ)}
    {out : Option ρ × BatchScheduler ρ} (nobody : s.PreemptsNobody minPriority)
    (done : s.preemptLowest minPriority kvCacheState = .ok out) : out = (none, s) := by
  unfold preemptLowest at done
  split at done
  · cases done
    rfl
  next room =>
  rw [nobody.resolve_left room] at done
  cases done
  rfl

/-- The promotion finds enough free blocks. -/
def Allocates (st : Promotion ρ) (rid : ρ) (_ : Int) : Prop :=
  ∀ mgr ∈ st.scheduler.pagedAttention,
    mgr.blocksNeeded ((st.scheduler.sequences rid).promptTokens.length +
      (st.scheduler.sequences rid).maxNewTokens) ≤ mgr.freeBlocks.length

instance (st : Promotion ρ) (rid : ρ) (chunk : Int) : Decidable (Allocates st rid chunk) :=
  inferInstanceAs (Decidable (∀ mgr ∈ st.scheduler.pagedAttention, _))

theorem Owns.round {budget : IterationBudget} {decodeAdded : Nat} {st : Promotion ρ}
    {entry : PendingEntry ρ} (owns : Owns pool st.scheduler.pagedAttention st.scheduler.active)
    (allocates : entry.requestId ∉ st.scheduler.active →
      ∀ chunk ∈ st.charge budget decodeAdded (st.scheduler.totalLen entry.requestId),
        Allocates st entry.requestId chunk) :
    Owns pool (st.consider budget decodeAdded entry).scheduler.pagedAttention
      (st.consider budget decodeAdded entry).scheduler.active := by
  rcases consider_cases budget decodeAdded st entry with
    ⟨-, same⟩ | ⟨-, same⟩ | ⟨chunk, absent, charged, same⟩
  · rwa [same]
  · rwa [same]
  obtain ⟨mgr, managed, sound, size, registered⟩ := owns
  have room := allocates absent chunk charged mgr managed
  -- the allocation succeeds, for a sequence that has no blocks yet
  obtain ⟨mgr', allocated⟩ : ∃ mgr', mgr.allocateSequence entry.requestId
      ((st.scheduler.sequences entry.requestId).promptTokens.length +
        (st.scheduler.sequences entry.requestId).maxNewTokens) = some mgr' := by
    unfold PagedAttentionManager.allocateSequence
    rw [if_neg (not_lt.mpr room)]
    exact ⟨_, rfl⟩
  obtain ⟨sound', size', more⟩ := sound.allocate (mt (registered entry.requestId).mp absent)
    allocated
  rw [same]
  refine ⟨mgr', ?_, sound', size'.trans size, fun rid => ?_⟩
  · change st.scheduler.allocatePagedBlocks entry.requestId = some mgr'
    rw [allocatePagedBlocks, managed, Option.map_some]
    dsimp only
    rw [allocated, Option.getD_some]
  · change _ ↔ rid ∈ insertKey entry.requestId st.scheduler.active
    rw [more, registered, mem_insertKey]

theorem Owns.build {budget : IterationBudget} {victim : Option ρ} {out : Scheduled ρ}
    (owns : Owns pool s.pagedAttention s.active) (allowed : EachPromoted Allocates s budget)
    (done : s.buildBatch budget victim = .ok out) :
    Owns pool out.scheduler.pagedAttention out.scheduler.active := by
  have evicted : Owns pool s.evictCompleted.2.pagedAttention s.evictCompleted.2.active := by
    obtain ⟨mgr, same, sound, size, registered⟩ :=
      Owns.free (s.active.filter s.isComplete) owns
    refine ⟨mgr, same, sound, size, fun rid => (registered rid).trans ?_⟩
    simp only [evictCompleted, List.mem_filter, decide_eq_true_eq]
    refine and_congr_right fun running => ?_
    simp [running]
  obtain ⟨st, s', still, after, -, result⟩ := buildBatch_rule
    (I := fun st => Owns pool st.scheduler.pagedAttention st.scheduler.active) evicted
    (fun st entry heap owns _ allocates => by
      have popped : Owns pool (st.withHeap heap).scheduler.pagedAttention
        (st.withHeap heap).scheduler.active := owns
      exact popped.round allocates)
    allowed done
  have kept : out.scheduler.pagedAttention = st.scheduler.pagedAttention ∧
      out.scheduler.active = st.scheduler.active := by
    rcases result with ⟨-, -, same⟩ | ⟨-, batch, -, -, same⟩
    · rw [same, after]
      exact ⟨rfl, rfl⟩
    · obtain ⟨frame, -⟩ := buildBatchTensors_frame budget batch s'
      rw [same, frame, after]
      exact ⟨rfl, rfl⟩
  rwa [kept.1, kept.2]

end BatchScheduler

namespace System

/-! ### Runs -/

/-- The registered sequences are the active ones, and all blocks are free once all requests are
completed. -/
def Owned (pool : Nat) (s : System ρ) : Prop :=
  ∃ mgr, s.scheduler.pagedAttention = some mgr ∧
    (∀ rid, mgr.Registered rid ↔ rid ∈ s.scheduler.active) ∧
    ((∀ rid ∈ s.added, rid ∈ s.completed) → mgr.freeBlocks.Perm (List.range pool))

/-- Nobody is preempted, and every promotion finds enough free blocks. -/
def KeepsBlocks (s : System ρ) : Action ρ → Prop
  | .schedule budget policy shouldPreempt =>
    (shouldPreempt = true → s.scheduler.PreemptsNobody 2) ∧
      BatchScheduler.EachPromoted BatchScheduler.Allocates s.scheduler
        (s.scheduler.adjust budget policy)
  | .preemptLowest minPriority _ => s.scheduler.PreemptsNobody minPriority
  | _ => True

instance (s : System ρ) : DecidablePred s.KeepsBlocks
  | .schedule _ _ _ => inferInstanceAs (Decidable (_ ∧ _))
  | .preemptLowest minPriority _ =>
    inferInstanceAs (Decidable (s.scheduler.PreemptsNobody minPriority))
  | .add _ _ | .step _ _ | .promoteRequest _ _ | .restorePreempted _ => .isTrue trivial

/-- The invariant: besides the owners, what lets the requests keep their places. -/
structure Tidy (pool : Nat) (s : System ρ) : Prop where
  settled : s.Settled
  owns : BatchScheduler.Owns pool s.scheduler.pagedAttention s.scheduler.active
  nobody : s.scheduler.preempted = []
  issued : ∀ batch ∈ s.issued, ∀ rid ∈ batch.requestIds, rid ∉ s.scheduler.pendingIds

variable {pool : Nat} {s s' : System ρ} {a : Action ρ}

theorem Tidy.keepsPlaces (tidy : Tidy pool s) (possible : s.Possible a) : s.KeepsPlaces a := by
  cases a with
  | step batch nextTokens =>
    intro sample sampled _
    exact tidy.issued batch possible.1 sample.1 (List.of_mem_zip sampled).1
  | restorePreempted kvCacheState =>
    intro rid member
    rw [tidy.nobody] at member
    cases member
  | _ => trivial

theorem Tidy.run (tidy : Tidy pool s) (possible : s.Possible a) (keeps : s.KeepsBlocks a)
    (done : s.run a = .ok s') : Tidy pool s' := by
  have settled := tidy.settled.run possible (tidy.keepsPlaces possible) done
  suffices rest : BatchScheduler.Owns pool s'.scheduler.pagedAttention s'.scheduler.active ∧
      s'.scheduler.preempted = [] ∧ ∀ batch ∈ s'.issued, ∀ rid ∈ batch.requestIds,
        rid ∉ s'.scheduler.pendingIds from ⟨settled, rest.1, rest.2.1, rest.2.2⟩
  obtain ⟨⟨known, placed⟩, owns, nobody, issued⟩ := tidy
  cases a with
  | add rid seq =>
    obtain ⟨scheduler, accepted, rfl⟩ := map_ok done
    obtain ⟨pending, -, -⟩ := BatchScheduler.add_ids accepted
    obtain ⟨heap, pushed, rfl⟩ := BatchScheduler.add_ok accepted
    refine ⟨owns, nobody, fun batch member other listed waiting => ?_⟩
    rcases List.mem_cons.mp (pending.mem_iff.mp waiting) with rfl | before
    · exact possible.1 ((known.issued batch member).2 other listed)
    · exact issued batch member other listed before
  | schedule budget policy shouldPreempt =>
    obtain ⟨out, scheduled, scheduler, -, batches, -⟩ := run_schedule done
    obtain ⟨victim, s1, preempts, builds⟩ := BatchScheduler.scheduleWithBudget_ok scheduled
    -- the condition leaves the preemption nobody
    have same : s1 = s.scheduler := by
      unfold BatchScheduler.preemptIfNeeded at preempts
      split at preempts
      · next asked =>
        cases (BatchScheduler.preemptLowest_nobody (keeps.1 asked) preempts)
        rfl
      · cases preempts
        rfl
    subst same
    -- new batches hold active sequences, and the old ones none that waits
    have owned := owns.build keeps.2 builds
    obtain ⟨promoted, gone, built⟩ := BatchScheduler.buildBatch_built builds
    have preempted : out.scheduler.preempted = s.scheduler.preempted := by rw [built.frame]
    rw [scheduler]
    refine ⟨owned, preempted.trans nobody, fun batch member rid listed waiting => ?_⟩
    rw [batches, List.mem_append, Option.mem_toList] at member
    rcases member with before | new
    · refine issued batch before rid listed ?_
      exact built.pendingIds_perm.mem_iff.mpr (List.mem_append_right _ waiting)
    · have running := (built.batch_ids known.ids.active new).2 rid listed
      rw [← scheduler] at running waiting
      exact ((settled.2.apart settled.1.added rid).1 waiting).1 running
  | step batch nextTokens =>
    cases done
    have frame := BatchScheduler.step_frame s.scheduler batch nextTokens
    change BatchScheduler.Owns pool (s.scheduler.step batch nextTokens).2.pagedAttention
        (s.scheduler.step batch nextTokens).2.active ∧
      (s.scheduler.step batch nextTokens).2.preempted = [] ∧
      ∀ other ∈ s.issued.erase batch, ∀ rid ∈ other.requestIds,
        rid ∉ (s.scheduler.step batch nextTokens).2.pendingIds
    rw [frame]
    exact ⟨owns.free _, nobody, fun other member => issued other (List.mem_of_mem_erase member)⟩
  | promoteRequest rid newPriority =>
    obtain ⟨out, promoted, rfl⟩ := map_ok done
    obtain ⟨pending, active, preempted⟩ := BatchScheduler.promoteRequest_ids promoted
    have paged : out.2.pagedAttention = s.scheduler.pagedAttention := by
      rcases BatchScheduler.promoteRequest_ok promoted with ⟨_, same⟩ | ⟨_, _, _, _, same⟩
      · rw [same]
      · rw [same]
    rw [paged, active, preempted]
    refine ⟨owns, nobody, fun batch member rid listed waiting => ?_⟩
    exact issued batch member rid listed (pending.mem_iff.mp waiting)
  | preemptLowest minPriority kvCacheState =>
    obtain ⟨out, preempted, rfl⟩ := map_ok done
    cases BatchScheduler.preemptLowest_nobody keeps preempted
    exact ⟨owns, nobody, issued⟩
  | restorePreempted kvCacheState =>
    obtain ⟨out, restored, rfl⟩ := map_ok done
    have same : out = ([], s.scheduler) := by
      unfold BatchScheduler.restorePreempted at restored
      rw [if_pos nobody] at restored
      cases restored
      rfl
    have requeued : s.scheduler.requeued kvCacheState = [] := by
      unfold BatchScheduler.requeued
      rw [nobody, List.filter_nil]
    rw [same, requeued]
    exact ⟨owns, nobody, issued⟩

end System

def Paged (pool : Nat) (scheduler : BatchScheduler ρ) : Prop :=
  ∃ chunked weights grouping bucket floats limit, ∃ blockSize > 0,
    scheduler = BatchScheduler.init chunked weights grouping bucket floats
      (some (PagedAttentionManager.init pool blockSize)) limit

namespace System

variable {pool : Nat} {s : System ρ}

theorem tidy_initial (init : (batching (Paged pool)).init s) : Tidy pool s := by
  obtain ⟨⟨chunked, weights, grouping, bucket, floats, limit, blockSize, -, start⟩, rest⟩ := init
  have settled : Settled s :=
    settled_initial ⟨⟨chunked, weights, grouping, bucket, floats, _, limit, start⟩, rest⟩
  obtain ⟨-, issued, -⟩ := rest
  constructor
  case settled => exact settled
  case owns =>
    rw [start]
    refine ⟨_, rfl, PagedAttentionManager.init_sound pool blockSize, rfl, fun rid => ?_⟩
    simp [PagedAttentionManager.Registered, PagedAttentionManager.init, BatchScheduler.init]
  case nobody => rw [start]; rfl
  case issued => simp [issued]

theorem Tidy.owned (tidy : Tidy pool s) : s.Owned pool := by
  obtain ⟨mgr, managed, sound, size, registered⟩ := tidy.owns
  refine ⟨mgr, managed, registered, fun ended => size ▸ sound.free fun rid held => ?_⟩
  -- an active request would be completed as well
  have running := (registered rid).mp held
  exact (tidy.settled.conserved.2 rid
    (ended rid (tidy.settled.1.ids.activeAdded rid running))).2 running

end System

/-- In a run in which nobody is preempted and every promotion finds enough free blocks, the
sequences registered in the block manager are the active ones in every state, and all blocks are
free when all requests are completed. -/
theorem blocks_owned {pool : Nat} {s : System ρ}
    (run : (batching (Paged pool)).Reaches System.KeepsBlocks s) : s.Owned pool := by
  have tidy : s.Tidy pool :=
    batching_invariant (fun s init => System.tidy_initial init)
      (fun s a s' tidy possible keeps done => tidy.run possible keeps done) run
  exact tidy.owned

def System.pooled (pool : Nat) : System Nat := System.fresh (some (.init pool 2))

theorem pooled_init (pool : Nat) : (batching (Paged pool)).init (System.pooled pool) :=
  System.fresh_init _ ⟨true, System.defaultWeights, false, _, .exact, 4, 2, by decide, rfl⟩

def oneRequest : List (Action Nat) :=
  [.add 0 { promptTokens := [1, 2], maxNewTokens := 2 }, .schedule {} .unchanged false]

theorem blocks_owned_example :
    let acts := oneRequest ++ [
      .step [{ requestId := 0, tokens := [1, 2], isPrefill := true, positionOffset := 0 }] [7],
      .schedule {} .unchanged false,
      .step [{ requestId := 0, tokens := [7], isPrefill := false, positionOffset := 2 }] [8]]
    (acts.foldl (batching (Paged 2)).exec (System.pooled 2)).Owned 2 := by
  have start : (batching (Paged 2)).Reaches System.KeepsBlocks (System.pooled 2) :=
    .init (pooled_init 2)
  have run := start.of_follows
    (oneRequest ++ [
      .step [{ requestId := 0, tokens := [1, 2], isPrefill := true, positionOffset := 0 }] [7],
      .schedule {} .unchanged false,
      .step [{ requestId := 0, tokens := [7], isPrefill := false, positionOffset := 2 }] [8]])
    (by decide +kernel)
  exact blocks_owned run

/-- The pool has one block and the request needs two. It is active without any. -/
theorem active_without_blocks :
    ¬ ∀ pool s, (batching (Paged (ρ := Nat) pool)).Reachable s → s.Owned pool := by
  intro owned
  have start : (batching (Paged 1)).Reachable (System.pooled 1) := .init (pooled_init 1)
  have run := start.of_follows oneRequest (by decide +kernel)
  obtain ⟨mgr, managed, registered, -⟩ := owned 1 _ run
  have running : 0 ∈ (oneRequest.foldl (batching (Paged 1)).exec
      (System.pooled 1)).scheduler.active := by decide +kernel
  -- no sequence is registered, though one is active
  have nobody : ∀ mgr ∈ (oneRequest.foldl (batching (Paged 1)).exec
      (System.pooled 1)).scheduler.pagedAttention, (mgr.seqBlocks.get? 0).isSome = false := by
    decide +kernel
  have held := (registered 0).mpr running
  rw [PagedAttentionManager.Registered, nobody mgr managed] at held
  cases held

end DistLLM.Scheduler
