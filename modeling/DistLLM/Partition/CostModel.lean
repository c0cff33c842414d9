import Mathlib.Algebra.Order.BigOperators.Group.List
import Mathlib.Tactic.Linarith

/-!
# The cost of a range of layers on a node

What a range needs in memory and whether the node has room for it. The times are a parameter:
throughput of the GPUs, bandwidth and contention of the links.
-/
namespace DistLLM.Partition

variable {F : Type}

scoped instance (priority := high) ten_atLeastTwo : Nat.AtLeastTwo 10 := ⟨by decide⟩

structure LayerWeights where
  weightMemoryBytes : Nat := 0
  activationMemoryBytes : Nat := 0
  kvCacheBytesPerToken : Nat := 0
  deriving DecidableEq

structure GPUProfile where
  totalMemoryBytes : Nat := 0

/-- Estimated times of a range on a node. -/
structure Timing (F : Type) where
  computeTimeMs : F
  communicationTimeMs : F
  totalTimeMs : F

structure NodeCost (F : Type) where
  nodeId : String
  startLayer : Nat
  endLayer : Nat
  computeTimeMs : F
  communicationTimeMs : F
  totalTimeMs : F
  memoryBytes : Nat := 0
  memoryAvailableBytes : Nat := 0
  fitsInMemory : Bool := true

/-- Up to so much in use, this part of the memory stays usable. -/
def fragmentationFactors : List (ℚ × ℚ) :=
  [(1/2, 1), (3/5, 49/50), (7/10, 19/20), (4/5, 9/10), (9/10, 41/50), (1, 7/10)]

def fragmentationFactor (utilization : ℚ) : ℚ :=
  if utilization ≤ 1/2 then 1
  else match fragmentationFactors.find? fun band => utilization ≤ band.1 with
    | some (_, factor) => factor
    | none => 7/10

theorem fragmentationFactor_le_one (utilization : ℚ) : fragmentationFactor utilization ≤ 1 := by
  have bounded : ∀ band ∈ fragmentationFactors, band.2 ≤ 1 := by
    simp only [fragmentationFactors, List.forall_mem_cons]
    norm_num
  simp only [fragmentationFactor]
  split
  · exact le_refl 1
  · cases found : fragmentationFactors.find? fun band => utilization ≤ band.1 with
    | none => norm_num
    | some band => exact bounded band (List.mem_of_find?_eq_some found)

/-- The check of `evaluate`: what fragmentation leaves usable, and a tenth of it kept free. -/
def fitsInMemory (totalMem memAvailable : Nat) : Bool :=
  let rawUtilization : ℚ := if 0 < memAvailable then totalMem / memAvailable else 1
  decide ((totalMem : ℚ) ≤ memAvailable * fragmentationFactor rawUtilization * (9/10))

theorem le_of_fitsInMemory {totalMem memAvailable : Nat}
    (fits : fitsInMemory totalMem memAvailable = true) : totalMem ≤ memAvailable := by
  simp only [fitsInMemory, decide_eq_true_eq] at fits
  have usable : (memAvailable : ℚ) * fragmentationFactor
      (if 0 < memAvailable then (totalMem : ℚ) / memAvailable else 1) ≤ memAvailable :=
    mul_le_of_le_one_right (Nat.cast_nonneg _) (fragmentationFactor_le_one _)
  have need : (totalMem : ℚ) ≤ memAvailable := by linarith
  exact_mod_cast need

theorem le_fragmentationFactor {utilization : ℚ} (low : utilization ≤ 4/5) :
    9/10 ≤ fragmentationFactor utilization := by
  simp only [fragmentationFactor, fragmentationFactors, List.find?_cons, low, decide_true]
  by_cases half : utilization ≤ 1/2 <;> by_cases b₂ : utilization ≤ 3/5 <;>
    by_cases b₃ : utilization ≤ 7/10 <;> norm_num [half, b₂, b₃]

theorem fragmentationFactor_le {utilization : ℚ} (high : 4/5 < utilization) :
    fragmentationFactor utilization ≤ 41/50 := by
  have half : ¬utilization ≤ 1/2 := by linarith
  have b₂ : ¬utilization ≤ 3/5 := by linarith
  have b₃ : ¬utilization ≤ 7/10 := by linarith
  have b₄ : ¬utilization ≤ 4/5 := by linarith
  simp only [fragmentationFactor, fragmentationFactors, List.find?_cons, List.find?_nil, half, b₂,
    b₃, b₄, if_false, decide_false]
  by_cases b₅ : utilization ≤ 9/10 <;> by_cases b₆ : utilization ≤ 1 <;> norm_num [b₅, b₆]

theorem le_fragmentationFactor_iff (utilization : ℚ) :
    utilization ≤ fragmentationFactor utilization * (9/10) ↔ utilization ≤ 4/5 := by
  constructor
  · intro room
    by_contra high
    have := fragmentationFactor_le (not_le.mp high)
    linarith
  · intro low
    have := le_fragmentationFactor low
    linarith

theorem fitsInMemory_iff {totalMem memAvailable : Nat} :
    fitsInMemory totalMem memAvailable = true ↔ 5 * totalMem ≤ 4 * memAvailable := by
  simp only [fitsInMemory, decide_eq_true_eq]
  rcases Nat.eq_zero_or_pos memAvailable with rfl | some
  · simp
  · have positive : (0 : ℚ) < memAvailable := Nat.cast_pos.mpr some
    rw [if_pos some, mul_assoc, mul_comm, ← div_le_iff₀ positive, le_fragmentationFactor_iff,
      div_le_div_iff₀ positive (by norm_num)]
    constructor
    · intro room
      have : ((5 * totalMem : Nat) : ℚ) ≤ ((4 * memAvailable : Nat) : ℚ) := by
        push_cast
        linarith
      exact_mod_cast this
    · intro room
      have : ((5 * totalMem : Nat) : ℚ) ≤ ((4 * memAvailable : Nat) : ℚ) := by exact_mod_cast room
      push_cast at this
      linarith

structure PartitionCostModel (F : Type) where
  gpuProfiles : String → Option GPUProfile
  layerWeights : List LayerWeights
  timing : String → Nat → Nat → Timing F

namespace PartitionCostModel

variable [Zero F] (model : PartitionCostModel F)

/-- The activations of the layer that has most, or of `2 * seqLen` bytes a token. -/
def activationPerToken (layers : List LayerWeights) (seqLen : Nat) : Nat :=
  match (layers.map (·.activationMemoryBytes)).filter (0 < ·) with
  | [] => seqLen * 2
  | first :: rest => rest.foldl max first

def totalMemory (layers : List LayerWeights) (batchSize seqLen : Nat) : Nat :=
  (layers.map (·.weightMemoryBytes)).sum
    + (layers.map (·.kvCacheBytesPerToken)).sum * batchSize * seqLen
    + activationPerToken layers seqLen * batchSize * seqLen

def evaluate (nodeId : String) (startLayer endLayer batchSize seqLen : Nat) : NodeCost F :=
  let layers := (model.layerWeights.take endLayer).drop startLayer
  let timing := model.timing nodeId startLayer endLayer
  if layers = [] then
    { nodeId, startLayer, endLayer, computeTimeMs := 0, communicationTimeMs := 0, totalTimeMs := 0 }
  else match model.gpuProfiles nodeId with
    | none =>
      -- a node without a profile is taken for a CPU with room for anything
      { nodeId, startLayer, endLayer, communicationTimeMs := 0
        computeTimeMs := timing.computeTimeMs, totalTimeMs := timing.computeTimeMs }
    | some gpu =>
      let totalMem := totalMemory layers batchSize seqLen
      { nodeId, startLayer, endLayer
        computeTimeMs := timing.computeTimeMs
        communicationTimeMs := timing.communicationTimeMs
        totalTimeMs := timing.totalTimeMs
        memoryBytes := totalMem
        memoryAvailableBytes := gpu.totalMemoryBytes
        fitsInMemory := fitsInMemory totalMem gpu.totalMemoryBytes }

theorem memoryBytes_le_of_fits (nodeId : String) (startLayer endLayer batchSize seqLen : Nat)
    (fits : (model.evaluate nodeId startLayer endLayer batchSize seqLen).fitsInMemory = true) :
    (model.evaluate nodeId startLayer endLayer batchSize seqLen).memoryBytes ≤
      (model.evaluate nodeId startLayer endLayer batchSize seqLen).memoryAvailableBytes := by
  simp only [evaluate] at fits ⊢
  split at fits
  case isTrue empty => simp [empty]
  case isFalse some =>
    simp only [some, if_false]
    cases profile : model.gpuProfiles nodeId with
    | none => simp
    | some gpu => exact le_of_fitsInMemory (by simpa [profile] using fits)

end PartitionCostModel

end DistLLM.Partition
