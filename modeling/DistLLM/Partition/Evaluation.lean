import DistLLM.Partition.Optimizer

/-!
# Evaluating a node with a tuner

`_evaluate_node` hands over to `_evaluate_node_with_quant` when there is a tuner, and that one hands
back, with the same arguments, where it has no info or no recommendation for the node. So a call
either returns after at most three calls or never does.
-/
namespace DistLLM.Partition

open DistLLM.Library

variable {F : Type}

/-! ### The quantization of a node -/

inductive QuantMethod
  | none | bnb8bit | bnb4bit | gptq | awq | fp8E4m3 | fp8E5m2 | int8 | nf4
  deriving DecidableEq

inductive ActivationQuantMethod
  | none | int8 | fp8E4m3
  deriving DecidableEq

inductive KVCacheBits
  | none | fp8 | int8 | int4
  deriving DecidableEq

def QuantMethod.value : QuantMethod → String
  | none => "none"
  | bnb8bit => "bnb_8bit"
  | bnb4bit => "bnb_4bit"
  | gptq => "gptq"
  | awq => "awq"
  | fp8E4m3 => "fp8_e4m3"
  | fp8E5m2 => "fp8_e5m2"
  | int8 => "int8"
  | nf4 => "nf4"

def QuantMethod.speedPenalty [Field F] : QuantMethod → F
  | none => 1
  | bnb8bit => 21/20
  | bnb4bit => 11/10
  | gptq => 1
  | awq => 19/20
  | fp8E4m3 => 9/10
  | fp8E5m2 => 23/25
  | int8 => 51/50
  | nf4 => 27/25

/-- `bandwidth_reduction` and `overhead_ms`. -/
def ActivationQuantMethod.profile [Field F] : ActivationQuantMethod → F × F
  | none => (1, 0)
  | int8 => (1/2, 1/10)
  | fp8E4m3 => (1/2, 1/20)

/-- What is left of so many bytes of KV cache. -/
def KVCacheBits.reduce (bytes : Nat) : KVCacheBits → Nat
  | none => bytes
  | fp8 => bytes / 2
  | int8 => bytes / 2
  | int4 => bytes / 4

/-- Of `NodeQuantRecommendation`, what the cost model reads. -/
structure NodeQuantRecommendation where
  method : QuantMethod
  memoryBytesWithQuant : Nat
  activationQuant : ActivationQuantMethod := .none
  kvCacheBits : KVCacheBits := .none

structure NodeInfo (F : Type) where
  nodeId : String
  deviceType : String := "cuda"
  totalMemoryBytes : Nat := 8 * 1024 ^ 3
  computeCapability : Option F := none
  gpuName : Option String := none
  bandwidthGbps : Option F := none
  numLayersAssigned : Option Int := none
  isHopperOrNewer : Bool := false

/-- `quant_tuner`: the recommendations of the plan for some nodes, a model size, a number of layers
and a bandwidth between nodes. -/
structure QuantizationAutoTuner (F : Type) where
  recommend : List (NodeInfo F) → Nat → Nat → Option F → List NodeQuantRecommendation

/-- What the optimizer holds for the quantization. A dict among the infos stands for the info that it
validates to. -/
structure QuantSetup (F : Type) where
  quantTuner : Option (QuantizationAutoTuner F)
  nodeInfos : List (NodeInfo F)
  modelSizeBytes : Nat := 0
  numLayers : Nat := 0
  interNodeBandwidthGbps : Option F := none
  weightsMemoryBytes : Nat → Nat → Nat

/-- The recommendations for a node with the layers of a range. -/
def QuantSetup.recommendations (setup : QuantSetup F) (tuner : QuantizationAutoTuner F)
    (nodeInfo : NodeInfo F) (startLayer endLayer : Nat) : List NodeQuantRecommendation :=
  tuner.recommend
    [{ nodeInfo with numLayersAssigned := some ((endLayer : Int) - startLayer) }]
    setup.modelSizeBytes setup.numLayers setup.interNodeBandwidthGbps

/-- The method chosen for a node and a range. -/
abbrev QuantChoices := Dict (Nat × Nat × Nat) String

inductive Answer (F : Type)
  | returned (timeMs : Option F)
  /-- `AttributeError` -/
  | raised (text : String)

namespace PartitionOptimizer

variable [Field F] (opt : PartitionOptimizer F) (setup : QuantSetup F)

/-- `evaluate_with_quant` of the quantization-aware model around the cost model. -/
def evaluateWithQuant (nodeId : String) (startLayer endLayer : Nat)
    (quantRecommendation : NodeQuantRecommendation) : NodeCost F :=
  let base := opt.costModel.evaluate nodeId startLayer endLayer
  if quantRecommendation.method = .none then base
  else
    let computeMs := base.computeTimeMs * quantRecommendation.method.speedPenalty
    let weights := setup.weightsMemoryBytes startLayer endLayer
    -- four fifths of the footprint, where the weights cannot be right
    let weightsBase :=
      if weights = 0 ∨ base.memoryBytes < weights then base.memoryBytes * 4 / 5 else weights
    let kvBase := min (base.memoryBytes / 5) (base.memoryBytes - weightsBase)
    let kvQuant := quantRecommendation.kvCacheBits.reduce kvBase
    let activations := base.memoryBytes - weightsBase - kvBase
    let totalMem := quantRecommendation.memoryBytesWithQuant + kvQuant + activations
    let (actReduction, actOverhead) : F × F := quantRecommendation.activationQuant.profile
    let commMs := base.communicationTimeMs * actReduction + actOverhead
    { nodeId, startLayer, endLayer
      computeTimeMs := opt.round computeMs 2
      communicationTimeMs := opt.round commMs 2
      totalTimeMs := opt.round (computeMs + commMs) 2
      memoryBytes := totalMem
      memoryAvailableBytes := base.memoryAvailableBytes
      fitsInMemory := decide (10 * totalMem ≤ 9 * base.memoryAvailableBytes) }

/-- Take the recommendation, and note the method if the range fits with it. -/
def acceptQuant (nodeIdx : Nat) (nodeId : String) (startLayer endLayer : Nat)
    (quantChoices : QuantChoices) (rec : NodeQuantRecommendation) : Option F × QuantChoices :=
  let qcost := opt.evaluateWithQuant setup nodeId startLayer endLayer rec
  match opt.accept nodeId qcost with
  | none => (none, quantChoices)
  | some totalMs =>
    (some totalMs, quantChoices.set (nodeIdx, startLayer, endLayer) rec.method.value)

mutual

/-- `_evaluate_node`, with so many calls to make; without any left there is no answer. -/
def evaluateNodeCalls (nodeIdx startLayer endLayer : Nat) (quantChoices : QuantChoices) :
    Nat → Option (Answer F × QuantChoices)
  | 0 => none
  | calls + 1 =>
    match opt.nodeIds[nodeIdx]? with
    | none => some (.returned none, quantChoices)
    | some nodeId =>
      if setup.quantTuner.isSome && !setup.nodeInfos.isEmpty then
        evaluateNodeWithQuantCalls nodeIdx startLayer endLayer quantChoices calls
      else
        let cost := opt.costModel.evaluate nodeId startLayer endLayer
        some (.returned (opt.accept nodeId cost), quantChoices)

def evaluateNodeWithQuantCalls (nodeIdx startLayer endLayer : Nat) (quantChoices : QuantChoices) :
    Nat → Option (Answer F × QuantChoices)
  | 0 => none
  | calls + 1 =>
    match opt.nodeIds[nodeIdx]?, setup.nodeInfos[nodeIdx]? with
    | some nodeId, some nodeInfo =>
      match setup.quantTuner with
      | none => some (.raised "'NoneType' object has no attribute 'recommend'", quantChoices)
      | some tuner =>
        match setup.recommendations tuner nodeInfo startLayer endLayer with
        | [] => evaluateNodeCalls nodeIdx startLayer endLayer quantChoices calls
        | rec :: _ =>
          let (totalMs, quantChoices) :=
            opt.acceptQuant setup nodeIdx nodeId startLayer endLayer quantChoices rec
          some (.returned totalMs, quantChoices)
    | _, _ => evaluateNodeCalls nodeIdx startLayer endLayer quantChoices calls

end

variable {opt setup} {nodeIdx startLayer endLayer : Nat} {quantChoices : QuantChoices}

/-- The call of `_evaluate_node` returns after finitely many calls. -/
def EvaluateNodeReturns (opt : PartitionOptimizer F) (setup : QuantSetup F)
    (nodeIdx startLayer endLayer : Nat) (quantChoices : QuantChoices) : Prop :=
  ∃ calls timeMs after,
    opt.evaluateNodeCalls setup nodeIdx startLayer endLayer quantChoices calls =
      some (.returned timeMs, after)

def EvaluateNodeWithQuantReturns (opt : PartitionOptimizer F) (setup : QuantSetup F)
    (nodeIdx startLayer endLayer : Nat) (quantChoices : QuantChoices) : Prop :=
  ∃ calls timeMs after,
    opt.evaluateNodeWithQuantCalls setup nodeIdx startLayer endLayer quantChoices calls =
      some (.returned timeMs, after)

/-- There is an info for the node, and the tuner recommends something for it. -/
def Recommended (setup : QuantSetup F) (nodeIdx startLayer endLayer : Nat) : Prop :=
  ∃ tuner nodeInfo, setup.quantTuner = some tuner ∧ setup.nodeInfos[nodeIdx]? = some nodeInfo ∧
    setup.recommendations tuner nodeInfo startLayer endLayer ≠ []

def HandsOver (opt : PartitionOptimizer F) (setup : QuantSetup F) (nodeIdx : Nat) : Prop :=
  nodeIdx < opt.nodeIds.length ∧ setup.quantTuner ≠ none ∧ setup.nodeInfos ≠ []

theorem evaluateNodeCalls_handsOver (hands : HandsOver opt setup nodeIdx) (calls : Nat) :
    opt.evaluateNodeCalls setup nodeIdx startLayer endLayer quantChoices (calls + 1) =
      opt.evaluateNodeWithQuantCalls setup nodeIdx startLayer endLayer quantChoices calls := by
  obtain ⟨inside, tuned, informed⟩ := hands
  have both : (setup.quantTuner.isSome && !setup.nodeInfos.isEmpty) = true := by
    simp [Option.isSome_iff_ne_none, tuned, informed]
  rw [evaluateNodeCalls, List.getElem?_eq_getElem inside]
  simp only [both, if_true]

theorem evaluateNodeCalls_returns (alone : ¬ HandsOver opt setup nodeIdx) (calls : Nat) :
    ∃ timeMs, opt.evaluateNodeCalls setup nodeIdx startLayer endLayer quantChoices (calls + 1) =
      some (.returned timeMs, quantChoices) := by
  rw [evaluateNodeCalls]
  cases found : opt.nodeIds[nodeIdx]? with
  | none => exact ⟨none, rfl⟩
  | some nodeId =>
    have inside := (List.getElem?_eq_some_iff.mp found).1
    have off : (setup.quantTuner.isSome && !setup.nodeInfos.isEmpty) = false := by
      rw [Bool.eq_false_iff]
      intro both
      simp only [Bool.and_eq_true, Option.isSome_iff_ne_none, Bool.not_eq_true',
        List.isEmpty_eq_false_iff] at both
      exact alone ⟨inside, both⟩
    simp only [off, Bool.false_eq_true, if_false]
    exact ⟨_, rfl⟩

theorem evaluateNodeWithQuantCalls_returns (inside : nodeIdx < opt.nodeIds.length)
    (recommended : Recommended setup nodeIdx startLayer endLayer) (quantChoices : QuantChoices)
    (calls : Nat) :
    ∃ timeMs after, opt.evaluateNodeWithQuantCalls setup nodeIdx startLayer endLayer quantChoices
      (calls + 1) = some (.returned timeMs, after) := by
  obtain ⟨tuner, nodeInfo, tuned, informed, some_rec⟩ := recommended
  rw [evaluateNodeWithQuantCalls, List.getElem?_eq_getElem inside, informed]
  simp only [tuned]
  cases recs : setup.recommendations tuner nodeInfo startLayer endLayer with
  | nil => exact absurd recs some_rec
  | cons rec rest => exact ⟨_, _, rfl⟩

theorem evaluateNodeWithQuantCalls_back
    (unanswered : nodeIdx < opt.nodeIds.length → ¬ Recommended setup nodeIdx startLayer endLayer)
    (tuned : nodeIdx < opt.nodeIds.length → nodeIdx < setup.nodeInfos.length →
      setup.quantTuner ≠ none) (calls : Nat) :
    opt.evaluateNodeWithQuantCalls setup nodeIdx startLayer endLayer quantChoices (calls + 1) =
      opt.evaluateNodeCalls setup nodeIdx startLayer endLayer quantChoices calls := by
  rw [evaluateNodeWithQuantCalls]
  split
  next nodeId nodeInfo found informed =>
    have inside := (List.getElem?_eq_some_iff.mp found).1
    obtain ⟨tuner, there⟩ :=
      Option.ne_none_iff_exists'.mp (tuned inside (List.getElem?_eq_some_iff.mp informed).1)
    simp only [there]
    have empty : setup.recommendations tuner nodeInfo startLayer endLayer = [] := by
      by_contra some_rec
      exact unanswered inside ⟨tuner, nodeInfo, there, informed, some_rec⟩
    rw [empty]
  next => rfl

/-- Called without a tuner, for a node with an info, it raises. -/
theorem evaluateNodeWithQuantCalls_raises (inside : nodeIdx < opt.nodeIds.length)
    (informed : nodeIdx < setup.nodeInfos.length) (untuned : setup.quantTuner = none)
    (calls : Nat) :
    opt.evaluateNodeWithQuantCalls setup nodeIdx startLayer endLayer quantChoices (calls + 1) =
      some (.raised "'NoneType' object has no attribute 'recommend'", quantChoices) := by
  rw [evaluateNodeWithQuantCalls, List.getElem?_eq_getElem inside,
    List.getElem?_eq_getElem informed]
  simp only [untuned]

/-! ### Many calls -/

/-- The two functions call each other for ever. -/
theorem calls_unanswered (hands : HandsOver opt setup nodeIdx)
    (unanswered : ¬ Recommended setup nodeIdx startLayer endLayer) (calls : Nat) :
    opt.evaluateNodeCalls setup nodeIdx startLayer endLayer quantChoices calls = none ∧
      opt.evaluateNodeWithQuantCalls setup nodeIdx startLayer endLayer quantChoices calls = none := by
  induction calls with
  | zero => exact ⟨rfl, rfl⟩
  | succ calls ih =>
    rw [evaluateNodeCalls_handsOver hands, evaluateNodeWithQuantCalls_back]
    · exact ⟨ih.2, ih.1⟩
    · exact fun _ => unanswered
    · exact fun _ _ => hands.2.1

/-- The first function returns unless it hands over and nothing is recommended. -/
theorem evaluateNode_returns_iff : EvaluateNodeReturns opt setup nodeIdx startLayer endLayer
    quantChoices ↔
      (HandsOver opt setup nodeIdx → Recommended setup nodeIdx startLayer endLayer) := by
  constructor
  · rintro ⟨calls, timeMs, after, returned⟩ hands
    by_contra unanswered
    rw [(calls_unanswered hands unanswered calls).1] at returned
    cases returned
  · intro answered
    by_cases hands : HandsOver opt setup nodeIdx
    · obtain ⟨timeMs, after, returned⟩ :=
        evaluateNodeWithQuantCalls_returns hands.1 (answered hands) quantChoices 0
      refine ⟨2, timeMs, after, ?_⟩
      rwa [evaluateNodeCalls_handsOver hands]
    · obtain ⟨timeMs, returned⟩ := evaluateNodeCalls_returns hands 0
      exact ⟨1, timeMs, quantChoices, returned⟩

/-- The second one raises where there is an info and no tuner, and else returns if it has a
recommendation, or hands back to a first one that returns. -/
theorem evaluateNodeWithQuant_returns_iff : EvaluateNodeWithQuantReturns opt setup nodeIdx startLayer
    endLayer quantChoices ↔
      opt.nodeIds.length ≤ nodeIdx ∨ Recommended setup nodeIdx startLayer endLayer ∨
        setup.nodeInfos.length ≤ nodeIdx ∧ (setup.quantTuner = none ∨ setup.nodeInfos = []) := by
  constructor
  · rintro ⟨calls, timeMs, after, returned⟩
    by_contra stuck
    simp only [not_or, not_and, not_le] at stuck
    obtain ⟨inside, unanswered, tuned⟩ := stuck
    -- stuck, it raises or hands back and forth
    by_cases raises : nodeIdx < setup.nodeInfos.length ∧ setup.quantTuner = none
    · cases calls with
      | zero => cases returned
      | succ calls =>
        rw [evaluateNodeWithQuantCalls_raises inside raises.1 raises.2] at returned
        cases returned
    · have hands : HandsOver opt setup nodeIdx := by
        by_cases informed : nodeIdx < setup.nodeInfos.length
        · exact ⟨inside, fun untuned => raises ⟨informed, untuned⟩,
            List.ne_nil_of_length_pos (by omega)⟩
        · exact ⟨inside, tuned (not_lt.mp informed)⟩
      rw [(calls_unanswered hands unanswered calls).2] at returned
      cases returned
  · intro fine
    by_cases answered : nodeIdx < opt.nodeIds.length ∧ Recommended setup nodeIdx startLayer endLayer
    · obtain ⟨timeMs, after, returned⟩ :=
        evaluateNodeWithQuantCalls_returns answered.1 answered.2 quantChoices 0
      exact ⟨1, timeMs, after, returned⟩
    · -- handed back once, the call is not handed hands again
      have unanswered : nodeIdx < opt.nodeIds.length →
          ¬ Recommended setup nodeIdx startLayer endLayer := fun inside recommended =>
        answered ⟨inside, recommended⟩
      have rest : nodeIdx < opt.nodeIds.length → setup.nodeInfos.length ≤ nodeIdx ∧
          (setup.quantTuner = none ∨ setup.nodeInfos = []) := fun inside =>
        (fine.resolve_left (not_le.mpr inside)).resolve_left (unanswered inside)
      have alone : ¬ HandsOver opt setup nodeIdx := by
        rintro ⟨inside, tuned, informed⟩
        rcases (rest inside).2 with untuned | empty
        · exact tuned untuned
        · exact informed empty
      obtain ⟨timeMs, returned⟩ := evaluateNodeCalls_returns alone 0
      refine ⟨2, timeMs, quantChoices, ?_⟩
      rw [evaluateNodeWithQuantCalls_back unanswered]
      · exact returned
      · exact fun inside informed => absurd (rest inside).1 (not_le.mpr informed)

/-- **When an evaluation returns.** -/
theorem evaluation_returns_iff (opt : PartitionOptimizer F) (setup : QuantSetup F)
    (nodeIdx startLayer endLayer : Nat) (quantChoices : QuantChoices) :
    (EvaluateNodeReturns opt setup nodeIdx startLayer endLayer quantChoices ↔
      opt.nodeIds.length ≤ nodeIdx ∨ setup.quantTuner = none ∨ setup.nodeInfos = [] ∨
        Recommended setup nodeIdx startLayer endLayer) ∧
    (EvaluateNodeWithQuantReturns opt setup nodeIdx startLayer endLayer quantChoices ↔
      opt.nodeIds.length ≤ nodeIdx ∨ Recommended setup nodeIdx startLayer endLayer ∨
        setup.nodeInfos.length ≤ nodeIdx ∧ (setup.quantTuner = none ∨ setup.nodeInfos = [])) := by
  constructor
  · rw [evaluateNode_returns_iff, HandsOver, ← not_le]
    tauto
  · exact evaluateNodeWithQuant_returns_iff

def uninformed : PartitionOptimizer ℚ × QuantSetup ℚ :=
  ({ costModel :=
      { evaluate := fun nodeId startLayer endLayer =>
          { nodeId, startLayer, endLayer, computeTimeMs := 1, communicationTimeMs := 0
            totalTimeMs := 1 }
        combinedThroughput := fun _ => 0
        pipelineLatency := fun _ => 0 }
     nodeIds := ["a", "b"]
     round := fun x _ => x },
   { quantTuner := some ⟨fun _ _ _ _ => [{ method := .none, memoryBytesWithQuant := 0 }]⟩
     nodeInfos := [{ nodeId := "a" }]
     weightsMemoryBytes := fun _ _ => 0 })

/-- For the second of two nodes with one info, neither call returns. -/
theorem uninformed_never_returns : ¬ EvaluateNodeReturns uninformed.1 uninformed.2 1 0 4 ∅ ∧
      ¬ EvaluateNodeWithQuantReturns uninformed.1 uninformed.2 1 0 4 ∅ := by
  have never : ∀ calls,
      uninformed.1.evaluateNodeCalls uninformed.2 1 0 4 ∅ calls = none ∧
        uninformed.1.evaluateNodeWithQuantCalls uninformed.2 1 0 4 ∅ calls = none := by
    intro calls
    induction calls with
    | zero => exact ⟨rfl, rfl⟩
    | succ calls ih => exact ⟨ih.2, ih.1⟩
  constructor
  · rintro ⟨calls, timeMs, after, returned⟩
    rw [(never calls).1] at returned
    cases returned
  · rintro ⟨calls, timeMs, after, returned⟩
    rw [(never calls).2] at returned
    cases returned

/-- The tuner together with the infos, as far as the cost of a range goes. -/
def tunerOfInfos (opt : PartitionOptimizer F) (setup : QuantSetup F) : Option (QuantTuner F) :=
  match setup.quantTuner with
  | none => none
  | some tuner =>
    if setup.nodeInfos.isEmpty then none
    else some
      { evaluateWithQuant := fun nodeIdx startLayer endLayer =>
          match opt.nodeIds[nodeIdx]?, setup.nodeInfos[nodeIdx]? with
          | some nodeId, some nodeInfo =>
            (setup.recommendations tuner nodeInfo startLayer endLayer).head?.map
              (opt.evaluateWithQuant setup nodeId startLayer endLayer)
          | _, _ => none }

/-- The cost of a node is what its calls return, and an error where they go on for ever. -/
theorem evaluateNode_eq_calls (same : opt.quantTuner = tunerOfInfos opt setup) (calls : Nat) :
    (opt.evaluateNodeCalls setup nodeIdx startLayer endLayer quantChoices (calls + 2)).map Prod.fst =
      (opt.evaluateNode nodeIdx startLayer endLayer).toOption.map .returned := by
  by_cases hands : HandsOver opt setup nodeIdx
  · rw [evaluateNodeCalls_handsOver hands]
    have ⟨inside, tuned, informed⟩ := hands
    obtain ⟨tuner, there⟩ := Option.ne_none_iff_exists'.mp tuned
    have some_info : setup.nodeInfos.isEmpty = false := by simpa using informed
    simp only [evaluateNode, same, tunerOfInfos, there, some_info, Bool.false_eq_true, if_false,
      List.getElem?_eq_getElem inside]
    by_cases recommended : Recommended setup nodeIdx startLayer endLayer
    · obtain ⟨tuner', nodeInfo, there', found, some_rec⟩ := recommended
      obtain rfl : tuner = tuner' := Option.some.inj (there.symm.trans there')
      simp only [evaluateNodeWithQuantCalls, List.getElem?_eq_getElem inside, found, there]
      cases recs : setup.recommendations tuner nodeInfo startLayer endLayer with
      | nil => exact absurd recs some_rec
      | cons rec rest =>
        simp only [List.head?_cons, Option.map_some, acceptQuant, Except.toOption]
        cases opt.accept opt.nodeIds[nodeIdx]
          (opt.evaluateWithQuant setup opt.nodeIds[nodeIdx] startLayer endLayer rec) <;> rfl
    · -- nobody answers, and `evaluateNode` has no recommendation to take
      rw [(calls_unanswered hands recommended (calls + 1)).2]
      cases found : setup.nodeInfos[nodeIdx]? with
      | none => rfl
      | some nodeInfo =>
        have empty : setup.recommendations tuner nodeInfo startLayer endLayer = [] := by
          by_contra some_rec
          exact recommended ⟨tuner, nodeInfo, there, found, some_rec⟩
        simp [empty, Except.toOption]
  · rw [evaluateNodeCalls, evaluateNode]
    cases found : opt.nodeIds[nodeIdx]? with
    | none => rfl
    | some nodeId =>
      have inside := (List.getElem?_eq_some_iff.mp found).1
      have off : (setup.quantTuner.isSome && !setup.nodeInfos.isEmpty) = false := by
        simpa [HandsOver, inside, Option.isSome_iff_ne_none] using hands
      have untuned : tunerOfInfos opt setup = none := by
        rw [tunerOfInfos]
        cases there : setup.quantTuner with
        | none => rfl
        | some tuner =>
          have empty : setup.nodeInfos.isEmpty = true := by simpa [there] using off
          simp [empty]
      simp only [off, same, untuned, Bool.false_eq_true, if_false]
      rfl

/-- The node that the info is about. -/
theorem evaluateNode_eq_calls_informed :
    let opt := { uninformed.1 with quantTuner := tunerOfInfos uninformed.1 uninformed.2 }
    (opt.evaluateNodeCalls uninformed.2 0 0 4 ∅ 2).map Prod.fst =
      (opt.evaluateNode 0 0 4).toOption.map .returned :=
  evaluateNode_eq_calls rfl 0

end PartitionOptimizer

end DistLLM.Partition
