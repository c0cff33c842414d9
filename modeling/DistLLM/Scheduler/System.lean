import DistLLM.Library.Machine
import DistLLM.Scheduler.Scheduler

/-!
# Runs of the scheduler

The scheduler with its callers: requests are added, batches are scheduled, and each batch is
stepped at most once, with one token for each of its sequences. Beside the scheduler there is what
an observer notes and no operation reads.
-/
namespace DistLLM.Scheduler

open DistLLM.Library

variable {ρ : Type} [LinearOrder ρ]

/-! ### The system -/

/-- The observer's notes are the ids that were added, the batches still to be stepped, the ids
that a step or the eviction found complete, the prompt slices that were put into batches for a
sequence before it had a token, and when a sequence last entered the heap. -/
structure System (ρ : Type) where
  scheduler : BatchScheduler ρ
  added : List ρ
  issued : List (ScheduledBatch ρ)
  completed : List ρ
  slices : ρ → List (BatchRow ρ)
  arrival : ρ → Nat
  arrivals : Nat

inductive Action (ρ : Type)
  | add (rid : ρ) (seq : Sequence)
  | schedule (budget : IterationBudget) (policy : BudgetPolicy) (shouldPreempt : Bool)
  | step (batch : ScheduledBatch ρ) (nextTokens : List Int)
  | promoteRequest (rid : ρ) (newPriority : Int)
  | preemptLowest (minPriority : Int) (kvCacheState : Option (List ρ))
  | restorePreempted (kvCacheState : Option (List ρ))

namespace System

def arrive (rids : List ρ) (s : System ρ) : System ρ :=
  rids.foldl (fun s rid =>
    { s with arrival := Function.update s.arrival rid s.arrivals, arrivals := s.arrivals + 1 }) s

def complete (rids : List ρ) (s : System ρ) : System ρ :=
  { s with completed := rids.foldl (fun completed rid => insertKey rid completed) s.completed }

/-- A batch is built; `s` still has the tokens from before. -/
def issue (batch : ScheduledBatch ρ) (s : System ρ) : System ρ :=
  { s with
    issued := s.issued ++ [batch]
    slices := fun rid =>
      if (s.scheduler.sequences rid).generatedTokens = [] then
        s.slices rid ++ batch.filter fun row => decide (row.requestId = rid ∧ row.isPrefill)
      else s.slices rid }

def run (s : System ρ) : Action ρ → Except Raised (System ρ)
  | .add rid seq =>
    (s.scheduler.add rid seq).map fun scheduler =>
      arrive [rid] { s with scheduler, added := s.added ++ [rid] }
  | .schedule budget policy shouldPreempt =>
    (s.scheduler.scheduleWithBudget budget policy shouldPreempt).map fun out =>
      -- the slices are noted with the tokens from before the batch
      let s := (out.batch.elim s s.issue).complete out.evicted |>.arrive out.victim.toList
      { s with scheduler := out.scheduler }
  | .step batch nextTokens =>
    let (done, scheduler) := s.scheduler.step batch nextTokens
    .ok (complete done { s with scheduler, issued := s.issued.erase batch })
  | .promoteRequest rid newPriority =>
    (s.scheduler.promoteRequest rid newPriority).map fun out => { s with scheduler := out.2 }
  | .preemptLowest minPriority kvCacheState =>
    (s.scheduler.preemptLowest minPriority kvCacheState).map fun out =>
      arrive out.1.toList { s with scheduler := out.2 }
  | .restorePreempted kvCacheState =>
    (s.scheduler.restorePreempted kvCacheState).map fun out =>
      arrive (s.scheduler.requeued kvCacheState) { s with scheduler := out.2 }

/-- Callers add new requests under new ids, and step a batch they were given, with a token for
each sequence. -/
def Possible (s : System ρ) : Action ρ → Prop
  | .add rid seq => rid ∉ s.added ∧ seq.generatedTokens = [] ∧ seq.status = .pending
  | .step batch nextTokens => batch ∈ s.issued ∧ nextTokens.length = batch.length
  | _ => True

instance (s : System ρ) : DecidablePred s.Possible
  | .add _ _ => inferInstanceAs (Decidable (_ ∧ _))
  | .step _ _ => inferInstanceAs (Decidable (_ ∧ _))
  | .schedule _ _ _ | .promoteRequest _ _ | .preemptLowest _ _ | .restorePreempted _ =>
    .isTrue trivial

end System

def BatchScheduler.init (enableChunkedPrefill : Bool) (priorityWeights : Dict Int ℚ)
    (useLengthGrouping : Bool) (logBucket : Nat → Nat → Nat → Nat → Nat) (floats : Rounding)
    (pagedAttention : Option (PagedAttentionManager ρ)) (maxPreempted : Nat) :
    BatchScheduler ρ :=
  { sequences := fun _ => {}, pendingHeap := #[], pendingIndex := none, counter := 0,
    maxPending := 1000, active := [], totalTokens := 0, enableChunkedPrefill,
    chunkedPrefill := ∅, latencyTracker := ∅, priorityWeights, useLengthGrouping, logBucket,
    floats, pagedAttention, preempted := [], preemptedKvState := [], maxPreempted }

def Initial (scheduler : BatchScheduler ρ) : Prop :=
  ∃ chunked weights grouping bucket floats paged limit,
    scheduler = BatchScheduler.init chunked weights grouping bucket floats paged limit

/-- The runs from a new scheduler. An operation that raises has no next state. -/
def batching (start : BatchScheduler ρ → Prop) : Machine (System ρ) (Action ρ) where
  init s := start s.scheduler ∧ s.added = [] ∧ s.issued = [] ∧ s.completed = [] ∧
    s.slices = (fun _ => []) ∧ s.arrivals = 0
  enabled s a := s.Possible a ∧ (s.run a).isOk = true
  exec s a := (s.run a).toOption.getD s

instance (start : BatchScheduler ρ → Prop) (s : System ρ) (a : Action ρ) :
    Decidable ((batching start).enabled s a) :=
  inferInstanceAs (Decidable (_ ∧ _))

variable {start : BatchScheduler ρ → Prop}

theorem batching_exec {s : System ρ} {a : Action ρ} (enabled : (batching start).enabled s a) :
    s.Possible a ∧ s.run a = .ok ((batching start).exec s a) := by
  obtain ⟨possible, succeeds⟩ := enabled
  refine ⟨possible, ?_⟩
  cases out : s.run a with
  | error raised => simp [out, Except.isOk, Except.toBool] at succeeds
  | ok s' => simp [batching, out, Except.toOption]

theorem batching_invariant {ok : System ρ → Action ρ → Prop} {I : System ρ → Prop}
    (initial : ∀ s, (batching start).init s → I s)
    (preserved : ∀ s a s', I s → s.Possible a → ok s a → s.run a = .ok s' → I s') {s : System ρ}
    (run : (batching start).Reaches ok s) : I s :=
  run.invariant initial fun s a inv enabled allowed =>
    preserved s a _ inv (batching_exec enabled).1 allowed (batching_exec enabled).2

end DistLLM.Scheduler
