import DistLLM.Library.Heap
import DistLLM.Scheduler.PagedAttention
import Mathlib.Data.List.Sort

/-!
# The batch scheduler

`BatchScheduler` with its managers for preemption and for cache blocks. What only feeds logs and
statistics is left out, and so are the effective priorities that `_promote_pending` computes and
never uses. The latency tracker is read for one thing, which requests have had their first token.
-/
namespace DistLLM.Scheduler

open DistLLM.Library

variable (budget : IterationBudget)

variable {ρ : Type}

/-- The exceptions that leave an operation. -/
inductive Raised
  | batchCapacity
  | typeError
  | indexError
  | zeroDivision
  deriving DecidableEq

/-- `(priority, counter, sequence)` in the heap. -/
structure PendingEntry (ρ : Type) where
  priority : Int
  counter : Nat
  requestId : ρ
  deriving DecidableEq

/-- `<` on the tuples. Where priorities and counters are equal it comes to the sequences: an
object equals itself, and two different ones have no order. -/
def PendingEntry.lt [DecidableEq ρ] (e e' : PendingEntry ρ) : Except Raised Bool :=
  if e.priority = e'.priority ∧ e.counter = e'.counter then
    if e.requestId = e'.requestId then .ok false else .error .typeError
  else .ok (decide (e.priority < e'.priority ∨ e.priority = e'.priority ∧ e.counter < e'.counter))

variable (rid : ρ)

def insertKey [DecidableEq ρ] (rid : ρ) (keys : List ρ) : List ρ :=
  if rid ∈ keys then keys else keys ++ [rid]

/-- The dictionaries whose values are sequences are lists of request ids here. `latencyTracker`
holds the registered requests and whether their first token is recorded; `logBucket` is the
integer that `group_by_length` computes with logarithms from the least, the greatest and the own
length and the number of buckets; `floats` is how the machine rounds. -/
structure BatchScheduler (ρ : Type) where
  sequences : ρ → Sequence
  pendingHeap : Array (PendingEntry ρ)
  pendingIndex : Option (Dict ρ Nat)
  counter : Nat
  maxPending : Nat
  active : List ρ
  totalTokens : Int
  enableChunkedPrefill : Bool
  chunkedPrefill : Dict ρ ChunkedPrefillInfo
  latencyTracker : Dict ρ Bool
  priorityWeights : Dict Int ℚ
  useLengthGrouping : Bool
  logBucket : Nat → Nat → Nat → Nat → Nat
  floats : Rounding
  pagedAttention : Option (PagedAttentionManager ρ)
  preempted : List ρ
  preemptedKvState : List ρ
  maxPreempted : Nat

namespace BatchScheduler

variable [LinearOrder ρ] (s : BatchScheduler ρ)

def setStatus (rid : ρ) (status : SequenceStatus) : BatchScheduler ρ :=
  { s with sequences := Function.update s.sequences rid { s.sequences rid with status } }

def isComplete (rid : ρ) : Bool := (s.sequences rid).isComplete

def totalLen (rid : ρ) : Nat := (s.sequences rid).totalLen

def pendingIds : List ρ := s.pendingHeap.toList.map PendingEntry.requestId

def pushAll : List (PendingEntry ρ) → BatchScheduler ρ → Except Raised (BatchScheduler ρ)
  | [], s => .ok s
  | entry :: rest, s =>
    match Heap.heappush PendingEntry.lt s.pendingHeap entry with
    | .error raised => .error raised
    | .ok heap => pushAll rest { s with pendingHeap := heap }

def add (rid : ρ) (seq : Sequence) : Except Raised (BatchScheduler ρ) :=
  if s.maxPending ≤ s.pendingHeap.size then .error .batchCapacity
  else
    match Heap.heappush PendingEntry.lt s.pendingHeap
      { priority := seq.priority, counter := s.counter, requestId := rid } with
    | .error raised => .error raised
    | .ok heap =>
      .ok { s with
        sequences := Function.update s.sequences rid seq
        pendingHeap := heap
        counter := s.counter + 1
        pendingIndex := none
        latencyTracker := s.latencyTracker.set rid false }

def buildIndex : Dict ρ Nat :=
  s.pendingHeap.toList.zipIdx.foldl (fun index e => index.set e.1.requestId e.2) ∅

/-- `promote_request`. The index is kept when the request is not found, and preemption and
restoration do not renew it. -/
def promoteRequest (rid : ρ) (newPriority : Int) : Except Raised (Bool × BatchScheduler ρ) :=
  let index := s.pendingIndex.getD s.buildIndex
  match index.get? rid with
  | none => .ok (false, { s with pendingIndex := some index })
  | some idx =>
    if inside : idx < s.pendingHeap.size then
      let entry := s.pendingHeap[idx]
      let heap := s.pendingHeap.set idx { entry with priority := newPriority }
      let sifted :=
        -- `_siftdown` moves towards the root and `_siftup` towards the leaves
        if newPriority < entry.priority then Heap.siftdown PendingEntry.lt 0 heap.size heap idx
        else Heap.siftup PendingEntry.lt heap idx
      match sifted with
      | .error raised => .error raised
      | .ok heap =>
        let seq := s.sequences entry.requestId
        .ok (true, { s with
          sequences :=
            Function.update s.sequences entry.requestId { seq with priority := newPriority }
          pendingHeap := heap
          pendingIndex := none })
    -- an index from before a restoration, which shrank the heap
    else .error .indexError

/-! ### Preemption -/

/-- The first of the scanned active sequences with the greatest priority from `minPriority` on. -/
def victim (minPriority : Int) : Option ρ :=
  (s.active.take 50).foldl (fun victim rid =>
    let priority := (s.sequences rid).priority
    if minPriority ≤ priority ∧ ∀ v ∈ victim, (s.sequences v).priority < priority then some rid
    else victim) none

/-- `preempt_lowest`. The block manager has no `swap_out_sequence`; the error is logged. -/
def preemptLowest (minPriority : Int) (kvCacheState : Option (List ρ)) :
    Except Raised (Option ρ × BatchScheduler ρ) :=
  if s.maxPreempted ≤ s.preempted.length then .ok (none, s)
  else
    match s.victim minPriority with
    | none => .ok (none, s)
    | some rid =>
      let saved :=
        if rid ∈ kvCacheState.getD [] then insertKey rid s.preemptedKvState
        else s.preemptedKvState
      match Heap.heappush PendingEntry.lt s.pendingHeap
        { priority := (s.sequences rid).priority, counter := s.counter + 1, requestId := rid } with
      | .error raised => .error raised
      | .ok heap =>
        -- the counter is incremented before the push, where `add` does it afterwards
        .ok (some rid, { s.setStatus rid .pending with
          active := s.active.erase rid
          totalTokens := s.totalTokens - s.totalLen rid
          counter := s.counter + 1
          pendingHeap := heap
          preempted := insertKey rid s.preempted
          preemptedKvState := saved })

/-- `restore_kv_state` finds what was saved and a place to write it to. -/
def restorable (kvCacheState : Option (List ρ)) (rid : ρ) : Bool :=
  decide (rid ∈ s.preemptedKvState) && kvCacheState.isSome

def restoreOne (kvOk : ρ → Bool) (s : BatchScheduler ρ) (rid : ρ) : BatchScheduler ρ :=
  if kvOk rid then
    { s.setStatus rid .decoding with
      active := insertKey rid s.active
      totalTokens := s.totalTokens + s.totalLen rid }
  else s.setStatus rid .pending

/-- The sequences that `restore_preempted` puts back into the heap. -/
def requeued (kvCacheState : Option (List ρ)) : List ρ :=
  s.preempted.filter fun rid => !s.restorable kvCacheState rid

/-- `restore_preempted`, with the restored sequences. -/
def restorePreempted (kvCacheState : Option (List ρ)) :
    Except Raised (List ρ × BatchScheduler ρ) :=
  if s.preempted = [] then .ok ([], s)
  else
    let restored := s.preempted.foldl (restoreOne (s.restorable kvCacheState)) s
    match Heap.heapify PendingEntry.lt
      (s.pendingHeap.filter fun e => decide (e.requestId ∉ s.preempted)) with
    | .error raised => .error raised
    | .ok heap =>
      let entries := (s.requeued kvCacheState).map fun rid =>
        -- the length stands where the other entries have a counter
        { priority := (s.sequences rid).priority, counter := s.totalLen rid, requestId := rid }
      match pushAll entries { restored with pendingHeap := heap } with
      | .error raised => .error raised
      | .ok s' =>
        .ok (s.preempted.filter (s.restorable kvCacheState), { s' with
          preempted := []
          preemptedKvState := s.preemptedKvState.filter fun rid => decide (rid ∉ s.preempted) })

def freeBlocks (rids : List ρ) : Option (PagedAttentionManager ρ) :=
  s.pagedAttention.map fun mgr => rids.foldl PagedAttentionManager.freeSequence mgr

/-- The eviction in `_prefetch_and_snapshot`, with the evicted sequences. -/
def evictCompleted : List ρ × BatchScheduler ρ :=
  let done := s.active.filter s.isComplete
  (done, { s with
    active := s.active.filter fun rid => !s.isComplete rid
    totalTokens := s.totalTokens - (done.map s.totalLen).sum
    chunkedPrefill := s.chunkedPrefill.filterKeys fun rid => decide (rid ∉ done)
    latencyTracker := s.latencyTracker.filterKeys fun rid => decide (rid ∉ done)
    pagedAttention := s.freeBlocks done })

def isUrgent (rid : ρ) : Bool := s.latencyTracker.getD rid false

/-- The active sequences, those with a first token before the others, and else by request id. -/
def activeItems : List ρ :=
  s.active.insertionSort fun a b =>
    s.isUrgent b < s.isUrgent a ∨ s.isUrgent a = s.isUrgent b ∧ a ≤ b

structure ActiveBatch (ρ : Type) where
  batch : List ρ
  remainP : Int
  remainT : Int
  decodeAdded : Nat

def takeDecode (budget : IterationBudget) (acc : ActiveBatch ρ) (rid : ρ) : ActiveBatch ρ :=
  if (s.sequences rid).inFlight ∧ acc.decodeAdded < budget.decodeSlots ∧ 1 ≤ acc.remainT then
    { acc with
      batch := acc.batch ++ [rid]
      decodeAdded := acc.decodeAdded + 1
      remainT := acc.remainT - 1 }
  else acc

def takeChunks (budget : IterationBudget) : List ρ → ActiveBatch ρ → ActiveBatch ρ
  | [], acc => acc
  | rid :: rest, acc =>
    match s.chunkedPrefill.get? rid with
    | none => takeChunks budget rest acc
    | some info =>
      if info.isComplete then takeChunks budget rest acc
      else
        -- taken whatever is left of the total budget and of the batch size
        let chunk := min (min info.remaining budget.maxPrefillTokens) acc.remainP
        let acc := { acc with
          batch := insertKey rid acc.batch
          remainP := acc.remainP - chunk
          remainT := acc.remainT - chunk }
        if acc.remainP ≤ 0 then acc else takeChunks budget rest acc

def buildActiveBatch (budget : IterationBudget) : ActiveBatch ρ :=
  let acc := s.activeItems.foldl (s.takeDecode budget)
    { batch := [], remainP := budget.maxPrefillTokens, remainT := budget.maxTotalTokens,
      decodeAdded := 0 }
  if s.enableChunkedPrefill then s.takeChunks budget s.activeItems acc else acc

/-! ### Promotion -/

/-- The state of the loop in `_promote_pending`. -/
structure Promotion (ρ : Type) where
  scheduler : BatchScheduler ρ
  batch : List ρ
  rejected : List (PendingEntry ρ)
  remainSlots : Int
  remainP : Int
  remainT : Int

/-- The prompt is longer than the prefill budget and goes in chunks. -/
def chunks (budget : IterationBudget) (tokens : Int) : Bool :=
  s.enableChunkedPrefill && decide (budget.maxPrefillTokens < tokens ∧ 0 < budget.maxPrefillTokens)

/-- `paged_kv_block_count` against the blocks of the pool. -/
def blocksOk (tokens : Int) : Bool :=
  match s.pagedAttention with
  | none => true
  | some mgr =>
    match mgr.poolBlocks with
    | none => true
    | some total =>
      decide ((((tokens + mgr.blockSize - 1) / mgr.blockSize : Int) : ℚ) ≤
        s.floats (s.floats total * s.floats (9 / 10)))

/-- What a candidate of some length is charged if it is promoted. -/
def Promotion.charge (st : Promotion ρ) (budget : IterationBudget) (decodeAdded : Nat)
    (tokens : Int) : Option Int :=
  if st.remainSlots ≤ 0 ∨ (st.remainP ≤ 0 ∧ st.remainT ≤ 0) ∨ st.remainT < tokens then none
  else
    let chunk := if st.scheduler.chunks budget tokens then budget.maxPrefillTokens else tokens
    let fl := st.scheduler.floats
    let tight : Bool :=
      decide (((st.remainT - chunk : Int) : ℚ) < fl (fl decodeAdded * budget.prefillSlackRatio))
    if tight && decide (tokens ≤ budget.maxPrefillTokens) then none
    else
      let chunk :=
        if tight then min chunk (scaled fl st.remainT (fl (1 - budget.prefillSlackRatio)))
        else chunk
      -- a charge never exceeds what is left in total, so this refuses nobody
      if st.remainP < chunk ∧ st.remainT - chunk < 0 then none
      else if st.scheduler.blocksOk (st.scheduler.totalTokens + chunk) then some chunk
      else none

/-- A failed allocation is logged, and the sequence goes on. -/
def allocatePagedBlocks (rid : ρ) : Option (PagedAttentionManager ρ) :=
  s.pagedAttention.map fun mgr =>
    let seq := s.sequences rid
    (mgr.allocateSequence rid (seq.promptTokens.length + seq.maxNewTokens)).getD mgr

/-- The new chunk cursor of a sequence whose prompt goes in chunks. -/
def startChunks (budget : IterationBudget) (rid : ρ) : Dict ρ ChunkedPrefillInfo :=
  let seq := s.sequences rid
  let remainingWork : Int := (seq.totalLen : Int) - seq.prefixMatchLen
  if s.chunks budget seq.totalLen ∧ 0 < remainingWork then
    s.chunkedPrefill.set rid
      { totalPromptTokens := remainingWork, chunkSize := budget.maxPrefillTokens,
        chunksRemaining := ⌈s.floats ((remainingWork : ℚ) / budget.maxPrefillTokens)⌉ }
  else s.chunkedPrefill

def activate (budget : IterationBudget) (rid : ρ) : BatchScheduler ρ :=
  -- the table of preempted sequences keeps the sequence, if it is there
  { s.setStatus rid .prefilling with
    active := insertKey rid s.active
    totalTokens := s.totalTokens + s.totalLen rid
    pagedAttention := s.allocatePagedBlocks rid
    chunkedPrefill := s.startChunks budget rid }

def Promotion.consider (budget : IterationBudget) (decodeAdded : Nat) (st : Promotion ρ)
    (entry : PendingEntry ρ) : Promotion ρ :=
  if entry.requestId ∈ st.scheduler.active then st
  else
    match st.charge budget decodeAdded (st.scheduler.totalLen entry.requestId) with
    | none => { st with rejected := st.rejected ++ [entry] }
    | some chunk =>
      { scheduler := st.scheduler.activate budget entry.requestId
        batch := st.batch ++ [entry.requestId]
        rejected := st.rejected
        remainSlots := st.remainSlots - 1
        remainP := st.remainP - chunk
        remainT := st.remainT - chunk }

def Promotion.withHeap (st : Promotion ρ) (heap : Array (PendingEntry ρ)) : Promotion ρ :=
  { st with scheduler := { st.scheduler with pendingHeap := heap } }

/-- The loop; each round takes an entry, so the size of the heap bounds the rounds. -/
def promoteLoop (budget : IterationBudget) (decodeAdded : Nat) (maxExamine : Int) :
    Nat → Promotion ρ → Except Raised (Promotion ρ)
  | 0, st => .ok st
  | rounds + 1, st =>
    if ((st.batch.length + st.rejected.length : Nat) : Int) < maxExamine then
      match Heap.heappop PendingEntry.lt st.scheduler.pendingHeap with
      | .error raised => .error raised
      | .ok none => .ok st
      | .ok (some (entry, heap)) =>
        promoteLoop budget decodeAdded maxExamine rounds
          ((st.withHeap heap).consider budget decodeAdded entry)
    else .ok st

/-- `_promote_pending`, with the batch it completes. -/
def promotePending (budget : IterationBudget) (acc : ActiveBatch ρ) :
    Except Raised (List ρ × BatchScheduler ρ) :=
  let remainSlots := budget.maxBatchSize - acc.batch.length
  match promoteLoop budget acc.decodeAdded (max (remainSlots * 2) 10) s.pendingHeap.size
    { scheduler := s, batch := acc.batch, rejected := [], remainSlots, remainP := acc.remainP,
      remainT := acc.remainT } with
  | .error raised => .error raised
  | .ok st =>
    match pushAll st.rejected st.scheduler with
    | .error raised => .error raised
    | .ok s => .ok (st.batch, { s with pendingIndex := none })

/-- `_apply_length_grouping`. Where the logarithms of the bounds are equal the division raises. -/
def applyLengthGrouping (batch : List ρ) : Except Raised (List ρ) :=
  if s.useLengthGrouping ∧ 1 < batch.length then
    let numBuckets := min 4 batch.length
    let lengths := batch.map s.totalLen
    let minLen := lengths.foldl min (lengths.headD 0)
    let maxLen := lengths.foldl max 0
    if minLen = maxLen then .ok batch
    else if maxLen ≤ 1 then .error .zeroDivision
    else
      let bucket (rid : ρ) :=
        min (s.logBucket minLen maxLen (s.totalLen rid) numBuckets) (numBuckets - 1)
      .ok ((List.range numBuckets).flatMap fun i =>
        (batch.filter fun rid => decide (bucket rid = i)).insertionSort fun a b =>
          s.totalLen a ≤ s.totalLen b)
  else .ok batch

/-- `max(1, int(budget.max_prefill_tokens * weight))`. -/
def maxChunk (budget : IterationBudget) (priority : Int) : Nat :=
  (max 1 (scaled s.floats budget.maxPrefillTokens (s.priorityWeights.getD priority 1))).toNat

def buildSeqTokens (budget : IterationBudget) (rid : ρ) : BatchRow ρ × BatchScheduler ρ :=
  let seq := s.sequences rid
  let promptLen := seq.promptTokens.length
  match s.chunkedPrefill.get? rid with
  | some info =>
    -- cut by the weighted budget, which need not be what the sequence was charged
    let start := seq.prefixMatchLen + info.tokensProcessed
    let chunkEnd := min (start + s.maxChunk budget seq.priority) promptLen
    let tokens := (seq.promptTokens.drop start).take (chunkEnd - start)
    let info := { info with
      tokensProcessed := info.tokensProcessed + tokens.length
      chunksRemaining := max 0 (info.chunksRemaining - 1) }
    let row := { requestId := rid, tokens, isPrefill := true, positionOffset := start }
    if info.isComplete then
      (row, { s.setStatus rid .decoding with
        chunkedPrefill := s.chunkedPrefill.filterKeys fun k => decide (k ≠ rid) })
    else
      (row, { s.setStatus rid .prefilling with
        chunkedPrefill := s.chunkedPrefill.set rid info })
  | none =>
    if seq.generatedTokens = [] then
      if promptLen = 0 then
        ({ requestId := rid, tokens := [], isPrefill := true, positionOffset := 0 },
          s.setStatus rid .prefilling)
      else
        -- a fully matched prompt replays its last token
        let start := if promptLen ≤ seq.prefixMatchLen then promptLen - 1 else seq.prefixMatchLen
        ({ requestId := rid, tokens := seq.promptTokens.drop start, isPrefill := true,
           positionOffset := start },
          if seq.isComplete then s else s.setStatus rid .prefilling)
    else
      ({ requestId := rid, tokens := [seq.decodeInputToken], isPrefill := false,
         positionOffset := seq.totalLen - 1 },
        s.setStatus rid .decoding)

def buildBatchTensors (budget : IterationBudget) :
    List ρ → BatchScheduler ρ → ScheduledBatch ρ × BatchScheduler ρ
  | [], s => ([], s)
  | rid :: rest, s =>
    let (row, s) := s.buildSeqTokens budget rid
    let (rows, s) := buildBatchTensors budget rest s
    (row :: rows, s)

/-- What a call of `_schedule_with_budget` did: the batch, and on the way the sequences evicted
and the one preempted. -/
structure Scheduled (ρ : Type) where
  scheduler : BatchScheduler ρ
  batch : Option (ScheduledBatch ρ)
  evicted : List ρ
  victim : Option ρ

/-- From the eviction on, with an adjusted budget. -/
def buildBatch (budget : IterationBudget) (victim : Option ρ) : Except Raised (Scheduled ρ) :=
  let (evicted, s) := s.evictCompleted
  match s.promotePending budget (s.buildActiveBatch budget) with
  | .error raised => .error raised
  | .ok ([], s) => .ok { scheduler := s, batch := none, evicted, victim }
  | .ok (batch, s) =>
    match s.applyLengthGrouping batch with
    | .error raised => .error raised
    | .ok batch =>
      let (rows, s) := buildBatchTensors budget batch s
      .ok { scheduler := s, batch := some rows, evicted, victim }

/-- `preempt_if_needed`, given whether the preemption policy asks for it. -/
def preemptIfNeeded (shouldPreempt : Bool) : Except Raised (Option ρ × BatchScheduler ρ) :=
  if shouldPreempt then s.preemptLowest 2 none else .ok (none, s)

def adjust (budget : IterationBudget) (policy : BudgetPolicy) : IterationBudget :=
  applyBudgetPolicy s.floats policy (s.active.map s.sequences) budget

def scheduleWithBudget (budget : IterationBudget) (policy : BudgetPolicy)
    (shouldPreempt : Bool) : Except Raised (Scheduled ρ) :=
  match s.preemptIfNeeded shouldPreempt with
  | .error raised => .error raised
  | .ok (victim, s') => s'.buildBatch (s.adjust budget policy) victim

/-- One sampled token: `step` for one sequence of the batch. -/
def stepOne (s : BatchScheduler ρ) (rid : ρ) (token : Int) : BatchScheduler ρ :=
  let seq := s.sequences rid
  let first := seq.status == .prefilling
  -- the token is kept, whether or not the prompt is through
  let seq := { seq with
    generatedTokens := seq.generatedTokens ++ [token]
    status := if first then .decoding else seq.status }
  let tracker :=
    if first && (s.latencyTracker.get? rid).isSome then s.latencyTracker.set rid true
    else s.latencyTracker
  if seq.isComplete ∨ token ∈ seq.stopTokenIds then
    { s with
      sequences := Function.update s.sequences rid { seq with status := .done }
      latencyTracker := tracker.filterKeys fun k => decide (k ≠ rid) }
  else
    { s with sequences := Function.update s.sequences rid seq, latencyTracker := tracker }

def stepAll : List (ρ × Int) → BatchScheduler ρ → BatchScheduler ρ
  | [], s => s
  | (rid, token) :: rest, s => stepAll rest (s.stepOne rid token)

/-- `step`, with the sequences it finds complete. -/
def step (batch : ScheduledBatch ρ) (nextTokens : List Int) : List ρ × BatchScheduler ρ :=
  let s := stepAll (batch.requestIds.zip nextTokens) s
  let done := batch.requestIds.filter s.isComplete
  -- the token counter and the table of preempted sequences stay as they are
  (done, { s with
    active := s.active.filter fun rid => decide (rid ∉ done)
    chunkedPrefill := s.chunkedPrefill.filterKeys fun rid => decide (rid ∉ done)
    pagedAttention := s.freeBlocks done })

end BatchScheduler

end DistLLM.Scheduler
