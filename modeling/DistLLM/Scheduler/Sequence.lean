import DistLLM.Library.Dict
import DistLLM.Library.Rounding
import Mathlib.Data.Rat.Floor

/-!
# Sequences, budgets and batches

The records that the batch scheduler works on. A sequence is an object that the heap, the active
set, the table of preempted sequences and the batches share, so all of them refer to it by its
request id.
-/
namespace DistLLM.Scheduler

open DistLLM.Library

variable {ρ : Type}

/-- Request ids are compared by their order. -/
scoped instance (priority := high) lawfulIds [LinearOrder ρ] : LawfulBEq ρ := inferInstance

inductive SequenceStatus
  | pending
  | prefilling
  | decoding
  | done
  | failed
  | preempted
  deriving DecidableEq

structure Sequence where
  promptTokens : List Int := []
  generatedTokens : List Int := []
  status : SequenceStatus := .pending
  priority : Int := 2
  maxNewTokens : Nat := 256
  stopTokenIds : List Int := []
  prefixMatchLen : Nat := 0
  deriving DecidableEq

namespace Sequence

def isComplete (seq : Sequence) : Bool :=
  seq.status == .done || seq.status == .failed ||
    decide (seq.maxNewTokens ≤ seq.generatedTokens.length)

def totalLen (seq : Sequence) : Nat := seq.promptTokens.length + seq.generatedTokens.length

def decodeInputToken (seq : Sequence) : Int := seq.generatedTokens.getLastD 0

def inFlight (seq : Sequence) : Bool :=
  seq.status == .decoding || seq.status == .prefilling || !seq.generatedTokens.isEmpty

end Sequence

structure ChunkedPrefillInfo where
  totalPromptTokens : Int
  tokensProcessed : Nat := 0
  chunkSize : Int := 0
  chunksRemaining : Int := 0
  deriving DecidableEq

namespace ChunkedPrefillInfo

def isComplete (info : ChunkedPrefillInfo) : Bool :=
  decide (info.totalPromptTokens ≤ info.tokensProcessed)

def remaining (info : ChunkedPrefillInfo) : Int := info.totalPromptTokens - info.tokensProcessed

end ChunkedPrefillInfo

def truncate (q : ℚ) : Int := if 0 ≤ q then ⌊q⌋ else ⌈q⌉

/-- `int(n * q)` of an integer and a float. -/
def scaled (fl : Rounding) (n : Int) (q : ℚ) : Int := truncate (fl (fl n * q))

structure IterationBudget where
  maxPrefillTokens : Int := 4096
  maxDecodeTokens : Int := 512
  maxBatchSize : Int := 32
  maxTotalTokens : Int := 32768
  enableChunkedPrefill : Bool := true
  prefillSlackRatio : ℚ := 3 / 10
  deriving DecidableEq

def IterationBudget.decodeSlots (budget : IterationBudget) : Int :=
  min budget.maxBatchSize budget.maxDecodeTokens

/-- `compute_sarathi_budget` for the sequences that are active and a measured pressure. -/
def computeSarathiBudget (fl : Rounding) (pressure : ℚ) (active : List Sequence)
    (budget : IterationBudget) : IterationBudget :=
  let activeDecodes := active.countP fun s => s.status == .decoding
  let pendingDecodes := active.countP fun s =>
    s.status == .prefilling && !s.generatedTokens.isEmpty
  let inFlight := active.countP Sequence.inFlight
  let baseDecodeSlots := min budget.maxBatchSize budget.maxDecodeTokens
  let guaranteedDecode := max baseDecodeSlots (activeDecodes + pendingDecodes)
  let adjustedDecode :=
    if fl (7 / 10) < pressure then
      min budget.maxBatchSize (scaled fl guaranteedDecode (fl (1 + pressure)))
    else if pressure < fl (3 / 10) then
      max (max (inFlight : Int) 1) (scaled fl baseDecodeSlots (fl (6 / 10)))
    else baseDecodeSlots
  let adjustedDecode := min adjustedDecode budget.maxBatchSize
  let totalAfterDecode := max 0 (budget.maxTotalTokens - adjustedDecode)
  let prefillScale :=
    if fl (8 / 10) < pressure then max (1 / 4) (fl (1 - pressure))
    else if 1 / 2 < pressure then 3 / 4
    else 1
  let adjustedPrefill := min (scaled fl budget.maxPrefillTokens prefillScale) totalAfterDecode
  let adjustedBatch :=
    if fl (9 / 10) < pressure then max adjustedDecode (scaled fl budget.maxBatchSize (1 / 2))
    else budget.maxBatchSize
  { budget with
    maxPrefillTokens := adjustedPrefill
    maxDecodeTokens := adjustedDecode
    maxBatchSize := adjustedBatch }

/-- Which policy adjusts a budget: a pluggable one that returns a budget of its own, the pressure
policy, or none (a WAN policy that is active leaves the budget as it is). -/
inductive BudgetPolicy
  | pluggable (computed : IterationBudget)
  | sarathi (pressure : ℚ)
  | unchanged
  deriving DecidableEq

def applyBudgetPolicy (fl : Rounding) (policy : BudgetPolicy) (active : List Sequence)
    (budget : IterationBudget) : IterationBudget :=
  match policy with
  | .pluggable computed => computed
  | .sarathi pressure => computeSarathiBudget fl pressure active budget
  | .unchanged => budget

structure BatchRow (ρ : Type) where
  requestId : ρ
  tokens : List Int
  isPrefill : Bool
  positionOffset : Nat
  deriving DecidableEq

/-- `ScheduledBatch`: its parallel lists as one list of rows. -/
abbrev ScheduledBatch (ρ : Type) := List (BatchRow ρ)

namespace ScheduledBatch

def requestIds (batch : ScheduledBatch ρ) : List ρ := batch.map BatchRow.requestId

def totalTokens (batch : ScheduledBatch ρ) : Nat := (batch.map fun row => row.tokens.length).sum

def prefillTokens (batch : ScheduledBatch ρ) : Nat :=
  totalTokens (batch.filter BatchRow.isPrefill)

end ScheduledBatch

end DistLLM.Scheduler
