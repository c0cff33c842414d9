import DistLLM.Partition.Optimality
import Mathlib.Data.List.ReduceOption

/-!
# The constraints of a solution

The dynamic programme keeps them all. The beam search keeps the ranges contiguous and in memory, but
begins each node with a single layer and may leave it so.
-/
namespace DistLLM.Partition

open DistLLM.Library

variable {F : Type}

namespace PartitionOptimizer

variable [Field F] [LinearOrder F]

/-- A solution gives contiguous ranges from 0 to `numLayers` to the first nodes in their order, each
with the layers a node has at least and no more than its memory holds. -/
structure Respects (opt : PartitionOptimizer F) (numLayers : Nat)
    (solution : PartitionSolution F) : Prop where
  tiles : Tiles 0 solution.ranges numLayers
  order : solution.points.map (·.nodeId) = opt.nodeIds.take solution.points.length
  enough : ∀ p ∈ solution.points, opt.minLayersPerNode ≤ p.endLayer - p.startLayer
  memory : ∀ p ∈ solution.points,
    (opt.costModel.evaluate p.nodeId p.startLayer p.endLayer).memoryBytes ≤
      (opt.costModel.evaluate p.nodeId p.startLayer p.endLayer).memoryAvailableBytes

def Consults (opt : PartitionOptimizer F) (model : PartitionCostModel F) : Prop :=
  ∀ nodeId startLayer endLayer, opt.costModel.evaluate nodeId startLayer endLayer =
    model.evaluate nodeId startLayer endLayer opt.batchSize opt.seqLen

variable {opt : PartitionOptimizer F} {model : PartitionCostModel F}

omit [LinearOrder F] in
theorem memory_of_accepted (consults : opt.Consults model) (strict : opt.allowOom = false)
    (plain : opt.quantTuner = none) {k s e : Nat} {cost : F}
    (accepted : opt.evaluateNode k s e = .ok (some cost)) {nodeId : String}
    (node : opt.nodeIds[k]? = some nodeId) : (opt.costModel.evaluate nodeId s e).memoryBytes ≤
      (opt.costModel.evaluate nodeId s e).memoryAvailableBytes := by
  rw [consults]
  apply model.memoryBytes_le_of_fits
  rw [← consults]
  by_contra large
  simp [evaluateNode, node, plain, accept, strict, large] at accepted

variable {numLayers : Nat} {solution : PartitionSolution F}

omit [LinearOrder F] in
theorem respects_of_ranges (consults : opt.Consults model) (strict : opt.allowOom = false)
    (plain : opt.quantTuner = none) (tiles : Tiles 0 solution.ranges numLayers)
    (order : solution.points.map (·.nodeId) = opt.nodeIds.take solution.points.length)
    (enough : ∀ r ∈ solution.ranges, opt.minLayersPerNode ≤ r.2 - r.1)
    (feasible : opt.Feasible solution.ranges) : opt.Respects numLayers solution := by
  constructor
  case tiles => exact tiles
  case order => exact order
  case enough =>
    intro p inside
    exact enough _ (List.mem_map_of_mem inside)
  case memory =>
    intro p inside
    obtain ⟨k, place⟩ := List.mem_iff_getElem?.mp inside
    obtain ⟨cost, accepted⟩ := feasible k (p.startLayer, p.endLayer) (by
      simp [PartitionSolution.ranges, place])
    have node : opt.nodeIds[k]? = some p.nodeId := by
      have named : (solution.points.map (·.nodeId))[k]? = some p.nodeId := by simp [place]
      rw [order, List.getElem?_take] at named
      split at named
      · exact named
      · cases named
    exact memory_of_accepted consults strict plain accepted node

/-! ### What the beam search keeps -/

/-- A history for the first `layers` layers. -/
structure Kept (opt : PartitionOptimizer F) (layers : Nat) (history : List (Nat × Nat)) : Prop where
  tiles : Tiles 0 history layers
  feasible : opt.Feasible history

/-- Every history of the beam is one for the layers of its key. -/
def BeamKept (opt : PartitionOptimizer F) (states : Beam F) : Prop :=
  ∀ key list, states.get? key = some list → ∀ state ∈ list, opt.Kept key.1 state.2

variable {layers : Nat} {state next : BeamState F}

theorem Kept.extendLast (kept : opt.Kept layers state.2)
    (goes : opt.extendLast (layers + 1) state = .ok (some next)) :
    opt.Kept (layers + 1) next.2 := by
  obtain ⟨cost, history⟩ := state
  simp only [PartitionOptimizer.extendLast] at goes
  rcases List.eq_nil_or_concat history with rfl | ⟨front, last, rfl⟩
  · cases goes
  · rw [List.concat_eq_append] at goes kept
    simp only [List.getLast?_append, List.getLast?_singleton, List.dropLast_concat,
      List.length_append, List.length_singleton, Nat.add_sub_cancel, Option.some_or] at goes
    obtain ⟨result, accepted, goes⟩ := bind_eq_ok_iff.mp goes
    cases result with
    | none => cases goes
    | some nodeCost =>
      cases goes
      obtain ⟨before, some, rfl⟩ := Tiles.concat_iff.mp kept.tiles
      obtain ⟨feasible, _⟩ := (feasible_concat front last).mp kept.feasible
      constructor
      case tiles => exact Tiles.concat_iff.mpr ⟨before, by omega, rfl⟩
      case feasible => exact (feasible_concat front _).mpr ⟨feasible, nodeCost, accepted⟩

theorem Kept.startNew (kept : opt.Kept layers state.2)
    (goes : opt.startNew (layers + 1) state = .ok (some next)) :
    opt.Kept (layers + 1) next.2 := by
  obtain ⟨cost, history⟩ := state
  simp only [PartitionOptimizer.startNew] at goes
  split at goes
  · cases goes
  · obtain ⟨result, accepted, goes⟩ := bind_eq_ok_iff.mp goes
    cases result with
    | none => cases goes
    | some nodeCost =>
      cases goes
      constructor
      case tiles => exact Tiles.concat_iff.mpr ⟨kept.tiles, by omega, rfl⟩
      case feasible => exact (feasible_concat history _).mpr ⟨kept.feasible, nodeCost, accepted⟩

variable {states : Beam F} {beamWidth : Nat}

theorem mem_beamCell {nodesUsed : Nat} {list : List (BeamState F)}
    (runs : opt.beamCell beamWidth states (layers + 1) nodesUsed = .ok list)
    (member : next ∈ list) : (∃ state ∈ states.getD (layers, nodesUsed) [],
      opt.extendLast (layers + 1) state = .ok (some next)) ∨
    ∃ state ∈ states.getD (layers, nodesUsed - 1) [],
      opt.startNew (layers + 1) state = .ok (some next) := by
  obtain ⟨extended, extends_, runs⟩ := bind_eq_ok_iff.mp runs
  obtain ⟨started, starts, runs⟩ := bind_eq_ok_iff.mp runs
  cases runs
  have candidate := List.mem_of_mem_take member
  rw [List.mem_mergeSort, List.reduceOption_mem_iff, List.mem_append] at candidate
  rcases candidate with old | new
  · exact .inl (mem_of_mapM_eq_ok extends_ old)
  · exact .inr (mem_of_mapM_eq_ok starts new)

theorem BeamKept.beamCell {nodesUsed : Nat} {list : List (BeamState F)} (kept : opt.BeamKept states)
    (runs : opt.beamCell beamWidth states (layers + 1) nodesUsed = .ok list) :
    ∀ state ∈ list, opt.Kept (layers + 1) state.2 := by
  intro next member
  have known : ∀ n, ∀ state ∈ states.getD (layers, n) [], opt.Kept layers state.2 := by
    intro n state inside
    cases entry : states.get? (layers, n) with
    | none => simp [Dict.getD, entry] at inside
    | some list => exact kept _ list entry state (by simpa [Dict.getD, entry] using inside)
  rcases mem_beamCell runs member with ⟨state, inside, goes⟩ | ⟨state, inside, goes⟩
  · exact (known _ state inside).extendLast goes
  · exact (known _ state inside).startNew goes

theorem BeamKept.beamRound {states' : Beam F} (kept : opt.BeamKept states)
    (runs : opt.beamRound beamWidth states (layers + 1) = .ok states') : opt.BeamKept states' := by
  apply foldlM_keeps _ kept runs
  intro before nodesUsed _ after kept goes
  obtain ⟨list, cell, goes⟩ := bind_eq_ok_iff.mp goes
  cases goes
  intro key found entry
  rw [Dict.get?_set] at entry
  split at entry
  · next same =>
    cases same
    cases entry
    exact kept.beamCell cell
  · exact kept key found entry

theorem beamStates_kept
    (runs : opt.beamStates beamWidth numLayers = .ok states) : opt.BeamKept states := by
  have start : opt.BeamKept ((∅ : Beam F).set (0, 0) [(0, [])]) := by
    intro key list entry state inside
    rw [Dict.get?_set] at entry
    split at entry
    · next same =>
      cases same
      cases entry
      obtain rfl := List.mem_singleton.mp inside
      exact ⟨rfl, fun k r place => by simp at place⟩
    · cases entry
  apply foldlM_keeps _ start runs
  intro before layers inside after kept goes
  obtain ⟨layers, rfl⟩ : ∃ n, layers = n + 1 := by
    have := (List.mem_range'_1.mp inside).1
    exact ⟨layers - 1, by omega⟩
  exact kept.beamRound goes

/-- The histories for all layers, in the order in which they are looked at. -/
def finalStates (states : Beam F) (numLayers : Nat) : List (BeamState F) :=
  (states.entries.filter fun entry => entry.1.1 = numLayers).flatMap (·.2)

omit [Field F] in
theorem bestHistory_eq (states : Beam F) (numLayers : Nat) : bestHistory states numLayers =
      ((firstLeast (fun state : BeamState F => some state.1) (finalStates states numLayers)).map
        (·.2.2)).getD [] := by
  let stands : Option (F × BeamState F) → Option F × List (Nat × Nat) := fun best =>
    (best.map Prod.fst, (best.map (·.2.2)).getD [])
  have round : ∀ best state, keepHistory (stands best) state =
      stands (keepLess (fun state : BeamState F => some state.1) best state) := by
    intro best state
    cases best with
    | none => rfl
    | some kept => by_cases less : state.1 < kept.1 <;> simp [keepHistory, keepLess, stands, less]
  have run (items : List (BeamState F)) : items.foldl keepHistory (stands none) =
      stands (firstLeast (fun state : BeamState F => some state.1) items) :=
    List.foldl_hom stands round
  exact congrArg Prod.snd (run _)

omit [Field F] [LinearOrder F] in
theorem mem_finalStates :
    state ∈ finalStates states numLayers ↔
      ∃ n list, states.get? (numLayers, n) = some list ∧ state ∈ list := by
  simp only [finalStates, List.mem_flatMap, List.mem_filter, decide_eq_true_eq]
  constructor
  · rintro ⟨⟨⟨layers, n⟩, list⟩, ⟨entry, rfl⟩, inside⟩
    exact ⟨n, list, (states.mem_entries_iff _ _).mp entry, inside⟩
  · rintro ⟨n, list, entry, inside⟩
    exact ⟨((numLayers, n), list), ⟨(states.mem_entries_iff _ _).mpr entry, rfl⟩, inside⟩

omit [Field F] in
theorem bestHistory_mem (states : Beam F) (numLayers : Nat) :
    (finalStates states numLayers = [] ∧ bestHistory states numLayers = []) ∨
    ∃ state ∈ finalStates states numLayers, bestHistory states numLayers = state.2 := by
  have least := firstLeast_isLeast (fun state : BeamState F => some state.1)
    (finalStates states numLayers)
  rw [bestHistory_eq]
  cases found : firstLeast (fun state : BeamState F => some state.1)
      (finalStates states numLayers) with
  | none =>
    rw [found] at least
    have empty : finalStates states numLayers = [] := by
      apply List.eq_nil_iff_forall_not_mem.mpr
      intro state inside
      cases least state inside
    exact .inl ⟨empty, rfl⟩
  | some kept =>
    rw [found] at least
    exact .inr ⟨kept.2, least.1, rfl⟩

theorem finalize_history (opt : PartitionOptimizer F) (history : List (Nat × Nat))
    (nodes : history.length ≤ opt.nodeIds.length) :
    let solution := opt.finalize (opt.nodeIds.zipWith (fun nodeId range =>
      opt.point nodeId range.1 range.2) history)
    solution.ranges = history ∧
      solution.points.map (·.nodeId) = opt.nodeIds.take solution.points.length := by
  have paired : (opt.finalize (opt.nodeIds.zipWith (fun nodeId range =>
      opt.point nodeId range.1 range.2) history)).points =
        (opt.nodeIds.zip history).map fun t => opt.point t.1 t.2.1 t.2.2 := by
    rw [finalize_points, List.zip_eq_zipWith, List.map_zipWith, List.map_zipWith]
    rfl
  have second : (opt.nodeIds.zip history).map Prod.snd = history := List.map_snd_zip nodes
  have first : (opt.nodeIds.zip history).map Prod.fst = opt.nodeIds.take history.length := by
    apply List.ext_getElem
    · simp [nodes]
    · simp
  constructor
  · rw [PartitionSolution.ranges, paired, List.map_map]
    exact second
  · rw [paired, List.map_map, List.length_map, List.length_zip, Nat.min_eq_right nodes]
    exact first

theorem beam_respects (consults : opt.Consults model) (strict : opt.allowOom = false)
    (plain : opt.quantTuner = none) (least : opt.minLayersPerNode = 1)
    (returns : opt.beamSearchSolve numLayers beamWidth = .ok solution)
    (some : solution.points ≠ []) : opt.Respects numLayers solution := by
  obtain ⟨states, runs, returns⟩ := bind_eq_ok_iff.mp returns
  dsimp only at returns
  split at returns
  · cases returns
    simp [PartitionSolution.unsolved] at some
  · next found =>
    cases returns
    rcases bestHistory_mem states numLayers with ⟨_, empty⟩ | ⟨state, final, best⟩
    · exact absurd empty found
    · obtain ⟨n, list, entry, inside⟩ := mem_finalStates.mp final
      have kept := beamStates_kept runs _ list entry state inside
      rw [best] at some ⊢
      obtain ⟨ranges, order⟩ := finalize_history opt state.2 kept.feasible.length_le
      apply respects_of_ranges consults strict plain
      case tiles =>
        rw [ranges]
        exact kept.tiles
      case order => exact order
      case feasible =>
        rw [ranges]
        exact kept.feasible
      case enough =>
        intro r inside
        rw [ranges] at inside
        have := (kept.tiles.bounds inside).2.1
        omega

theorem exact_respects (consults : opt.Consults model) (strict : opt.allowOom = false)
    (several : 2 ≤ opt.nodeIds.length) (exact : ¬opt.UsesBeam numLayers)
    (least : 1 ≤ opt.minLayersPerNode) (enough : opt.minLayersPerNode ≤ numLayers)
    (returns : opt.solve numLayers = .ok solution) (some : solution.points ≠ []) :
    opt.Respects numLayers solution := by
  cases tuner : opt.quantTuner with
  | none =>
    obtain ⟨solved, solves, found⟩ := solve_cases tuner several exact least enough
    cases solves.symm.trans returns
    obtain ⟨_, partition, order, _⟩ := found.resolve_left fun none => some none.1
    exact respects_of_ranges consults strict tuner partition.tiles order partition.enough
      partition.feasible
  | some _ =>
    -- the plan is attached to a list, which raises
    simp only [solve, exact, if_false, attachQuantizationPlan, tuner] at returns
    split at returns
    · next empty => simp [empty] at several
    · next single => simp [single] at several
    · obtain ⟨dp, _, returns⟩ := bind_eq_ok_iff.mp returns
      cases returns

/-! ### A beam that leaves a node with one layer -/

def unevenId (i : Nat) : String := String.ofList (List.replicate (i + 1) 'n')

theorem unevenId_eq_iff (i : Nat) : unevenId i = unevenId 0 ↔ i = 0 := by
  constructor
  · intro same
    have lengths := congrArg (fun id => id.toList.length) same
    simpa [unevenId] using lengths
  · rintro rfl
    rfl

def unevenWeights (numLayers : Nat) : List LayerWeights :=
  List.replicate (numLayers - 1) { weightMemoryBytes := 8, activationMemoryBytes := 4 }
    ++ [{ weightMemoryBytes := 4, activationMemoryBytes := 4 }]

/-- A cost model in which the first node has room for all layers but the last one, and the others for
the last one alone. -/
def unevenModel (F : Type) [Zero F] (numLayers : Nat) : PartitionCostModel F where
  gpuProfiles nodeId :=
    some { totalMemoryBytes := if nodeId = unevenId 0 then 5 * (2 * numLayers - 1) else 10 }
  layerWeights := unevenWeights numLayers
  timing _ _ _ := { computeTimeMs := 0, communicationTimeMs := 0, totalTimeMs := 0 }

def starvedModel (F : Type) [Zero F] (numLayers : Nat) : PartitionCostModel F :=
  { unevenModel F numLayers with gpuProfiles := fun _ => some { totalMemoryBytes := 0 } }

theorem activationPerToken_eq (layers : List LayerWeights) (bytes seqLen : Nat)
    (some : layers ≠ []) (positive : 0 < bytes)
    (each : ∀ layer ∈ layers, layer.activationMemoryBytes = bytes) :
    PartitionCostModel.activationPerToken layers seqLen = bytes := by
  have all : layers.map (·.activationMemoryBytes) = List.replicate layers.length bytes :=
    List.eq_replicate_iff.mpr ⟨by simp, by simpa using each⟩
  obtain ⟨n, length⟩ := Nat.exists_eq_add_one.mpr (List.length_pos_iff.mpr some)
  have most : ∀ n, (List.replicate n bytes).foldl max bytes = bytes := by
    intro n
    induction n with
    | zero => rfl
    | succ n ih => simpa [List.replicate_succ] using ih
  simp [PartitionCostModel.activationPerToken, all, length, List.replicate_succ, positive, most]

theorem unevenWeights_slice {s e : Nat} (some : s < e) (inside : e ≤ numLayers) :
    ((unevenWeights numLayers).take e).drop s =
      if e < numLayers then
        List.replicate (e - s) { weightMemoryBytes := 8, activationMemoryBytes := 4 }
      else List.replicate (e - 1 - s) { weightMemoryBytes := 8, activationMemoryBytes := 4 }
        ++ [{ weightMemoryBytes := 4, activationMemoryBytes := 4 }] := by
  split
  · next earlier =>
    have whole : e ≤ numLayers - 1 := by omega
    simp [unevenWeights, List.take_append, whole, Nat.sub_eq_zero_of_le whole]
  · next last =>
    obtain rfl : e = numLayers := by omega
    have front : s - (e - 1) = 0 := by omega
    simp [unevenWeights, List.take_append, List.drop_append, front, show e - (e - 1) = 1 by omega]

theorem unevenWeights_memory (numLayers s e : Nat) (some : s < e) (inside : e ≤ numLayers) :
    PartitionCostModel.totalMemory (((unevenWeights numLayers).take e).drop s) 1 1 =
      8 * (e - s) + if e < numLayers then 4 else 0 := by
  have activations : ∀ layers : List LayerWeights, layers ≠ [] →
      (∀ layer ∈ layers, layer.activationMemoryBytes = 4) →
      PartitionCostModel.activationPerToken layers 1 = 4 :=
    fun layers some => activationPerToken_eq layers 4 1 some (by omega)
  rw [unevenWeights_slice some inside]
  split
  · have layers : e - s ≠ 0 := by omega
    rw [PartitionCostModel.totalMemory, activations _ (by simpa using layers) (by simp)]
    simp
    omega
  · have each : ∀ layer ∈ List.replicate (e - 1 - s)
        { weightMemoryBytes := 8, activationMemoryBytes := 4 : LayerWeights } ++
          [{ weightMemoryBytes := 4, activationMemoryBytes := 4 }],
        layer.activationMemoryBytes = 4 := by
      intro layer inside
      rcases List.mem_append.mp inside with many | last
      · rw [List.eq_of_mem_replicate many]
      · rw [List.mem_singleton.mp last]
    rw [PartitionCostModel.totalMemory, activations _ (by simp) each]
    simp
    omega

def HasRoom (numLayers k e s : Nat) : Prop := if k = 0 then e < numLayers else s + 1 = numLayers

instance (numLayers k e s : Nat) : Decidable (HasRoom numLayers k e s) :=
  inferInstanceAs (Decidable (ite _ _ _))

theorem unevenModel_fits (F : Type) [Zero F] {k s e : Nat} (some : s < e) (inside : e ≤ numLayers)
    (first : k = 0 → s = 0) :
    ((unevenModel F numLayers).evaluate (unevenId k) s e 1 1).fitsInMemory =
      decide (HasRoom numLayers k e s) := by
  have layers : ((unevenWeights numLayers).take e).drop s ≠ [] := by
    rw [unevenWeights_slice some inside]
    split <;> simp
    omega
  simp only [PartitionCostModel.evaluate, unevenModel, layers, if_false,
    unevenWeights_memory numLayers s e some inside, unevenId_eq_iff]
  rw [Bool.eq_iff_iff, fitsInMemory_iff, decide_eq_true_eq, HasRoom]
  by_cases head : k = 0
  · simp only [head, if_true, first head]
    split <;> omega
  · simp only [head, if_false]
    split <;> omega

/-- An optimizer that accepts a range exactly when it has room, at no cost. -/
def Uneven (opt : PartitionOptimizer F) (numLayers : Nat) : Prop :=
  ∀ k s e, k < opt.nodeIds.length → s < e → e ≤ numLayers → (k = 0 → s = 0) →
    opt.evaluateNode k s e = .ok (if HasRoom numLayers k e s then some 0 else none)

def unevenBeam (F : Type) [Zero F] (numLayers : Nat) : Nat × Nat → List (BeamState F)
  | (layers, nodes) =>
    if layers = 0 ∧ nodes = 0 then [(0, [])]
    else if nodes = 1 ∧ 0 < layers ∧ layers < numLayers then [(0, [(0, layers)])]
    else if nodes = 2 ∧ layers = numLayers ∧ 2 ≤ layers then
      [(0, [(0, layers - 1), (layers - 1, layers)])]
    else []

variable {nodes : Nat}

section

variable (uneven : opt.Uneven numLayers) (several : 2 ≤ opt.nodeIds.length)
  (inside : layers < numLayers)

include uneven several inside

theorem Uneven.extendLast (some : 1 ≤ nodes) :
    (unevenBeam F numLayers (layers, nodes)).mapM (opt.extendLast (layers + 1)) =
      .ok (if nodes = 1 ∧ 0 < layers then
        [if layers + 1 < numLayers then .some (0, [(0, layers + 1)]) else none] else []) := by
  have earlier : layers ≠ numLayers := by omega
  simp only [unevenBeam, inside, earlier, show nodes ≠ 0 by omega, and_true, and_false, false_and,
    if_false]
  split
  · have evaluated := uneven 0 0 (layers + 1) (by omega) (by omega) (by omega) (fun _ => rfl)
    by_cases room : layers + 1 < numLayers <;>
      simp [PartitionOptimizer.extendLast, evaluated, HasRoom, room, bind, Except.bind, pure,
        Except.pure]
  · rfl

theorem Uneven.startNew (large : 2 ≤ numLayers) :
    (unevenBeam F numLayers (layers, nodes)).mapM (opt.startNew (layers + 1)) =
      .ok (if nodes = 0 ∧ layers = 0 then [.some (0, [(0, 1)])]
        else if nodes = 1 ∧ 0 < layers then
          [if layers + 1 = numLayers then .some (0, [(0, layers), (layers, layers + 1)]) else none]
        else []) := by
  have earlier : layers ≠ numLayers := by omega
  simp only [unevenBeam, inside, earlier, and_true, and_false, false_and, if_false]
  by_cases start : layers = 0 ∧ nodes = 0
  · obtain ⟨rfl, rfl⟩ := start
    have evaluated := uneven 0 0 1 (by omega) (by omega) (by omega) (fun _ => rfl)
    simp [PartitionOptimizer.startNew, evaluated, HasRoom, show 1 < numLayers by omega,
      show ¬opt.nodeIds.length = 0 by omega, bind, Except.bind, pure, Except.pure]
  · simp only [start, and_comm, if_false]
    split
    · have evaluated := uneven 1 layers (layers + 1) (by omega) (by omega) (by omega) (by omega)
      have others : ¬opt.nodeIds.length ≤ 1 := by omega
      by_cases room : layers + 1 = numLayers
      · subst room
        simp [PartitionOptimizer.startNew, evaluated, HasRoom, others, bind, Except.bind, pure,
          Except.pure]
      · simp [PartitionOptimizer.startNew, evaluated, HasRoom, room, others, bind, Except.bind,
          pure, Except.pure]
    · rfl

theorem Uneven.beamCell (large : 2 ≤ numLayers) (some : 1 ≤ nodes)
    (before : ∀ n, states.getD (layers, n) [] = unevenBeam F numLayers (layers, n)) :
    opt.beamCell 10 states (layers + 1) nodes = .ok (unevenBeam F numLayers (layers + 1, nodes)) := by
  simp only [PartitionOptimizer.beamCell, Nat.add_sub_cancel, before,
    uneven.extendLast several inside some, uneven.startNew several inside large]
  simp only [bind, Except.bind, pure, Except.pure, unevenBeam]
  rcases Nat.lt_or_ge nodes 3 with few | many
  · obtain rfl | rfl : nodes = 1 ∨ nodes = 2 := by omega
    · rcases Nat.eq_zero_or_pos layers with rfl | positive
      · simp [List.reduceOption, show 1 < numLayers by omega]
      · by_cases room : layers + 1 < numLayers <;>
          simp [List.reduceOption, positive, Nat.ne_of_gt positive, room]
    · by_cases room : layers + 1 = numLayers
      · subst room
        simp [List.reduceOption, show 0 < layers by omega, show 1 ≤ layers by omega]
      · by_cases positive : 0 < layers <;> simp [List.reduceOption, room, positive]
  · simp [show nodes ≠ 1 by omega, show nodes ≠ 2 by omega, show nodes - 1 ≠ 0 by omega,
      show nodes - 1 ≠ 1 by omega, List.reduceOption]

end

/-- The beam for so many layers, and for one more layer with the numbers of nodes seen. -/
def UnevenFilled (numLayers layers : Nat) (seen : List Nat) (states : Beam F) : Prop :=
  ∀ key, states.getD key [] =
    if key.1 ≤ layers ∨ key.1 = layers + 1 ∧ key.2 ∈ seen then unevenBeam F numLayers key else []

theorem Uneven.beamStep (uneven : opt.Uneven numLayers) (several : 2 ≤ opt.nodeIds.length)
    (large : 2 ≤ numLayers) {seen : List Nat} (inside : layers < numLayers) (some : 1 ≤ nodes)
    (filled : UnevenFilled numLayers layers seen states) :
    ∃ states', opt.beamStep 10 (layers + 1) states nodes = .ok states' ∧
      UnevenFilled numLayers layers (seen ++ [nodes]) states' := by
  have cell := uneven.beamCell several inside large some fun n => by
    rw [filled, if_pos (.inl (le_refl _))]
  refine ⟨_, by simp only [PartitionOptimizer.beamStep, cell]; rfl, ?_⟩
  intro key
  rw [Dict.getD_set, filled]
  by_cases same : (layers + 1, nodes) = key
  · simp [← same]
  · have other : key.1 = layers + 1 → key.2 ≠ nodes := fun layer node =>
      same (Prod.ext layer.symm node.symm)
    rw [if_neg same]
    by_cases layer : key.1 = layers + 1 <;> simp [layer, other]

omit [LinearOrder F] in
theorem unevenBeam_beyond (numLayers layers nodes most : Nat) (beyond : nodes = 0 ∨ most < nodes)
    (one : 1 ≤ most) (two : layers + 1 = numLayers → 2 ≤ most) :
    unevenBeam F numLayers (layers + 1, nodes) = [] := by
  have first : ¬(nodes = 1 ∧ 0 < layers + 1 ∧ layers + 1 < numLayers) := by omega
  have second : ¬(nodes = 2 ∧ layers + 1 = numLayers ∧ 2 ≤ layers + 1) := by
    rintro ⟨rfl, last, _⟩
    omega
  simp only [unevenBeam, first, second, if_false]
  simp

section

variable (uneven : opt.Uneven numLayers) (several : 2 ≤ opt.nodeIds.length) (large : 2 ≤ numLayers)
  (enough : opt.minLayers ≤ numLayers)

include uneven several large enough

theorem Uneven.beamRound (inside : layers < numLayers)
    (filled : UnevenFilled numLayers layers [] states) :
    ∃ states', opt.beamRound 10 states (layers + 1) = .ok states' ∧
      UnevenFilled numLayers (layers + 1) [] states' := by
  have round : ∀ seen nodes later states',
      List.range' 1 (min opt.nodeIds.length ((layers + 1) / opt.minLayers + 1)) =
        seen ++ nodes :: later → UnevenFilled numLayers layers seen states' →
      ∃ after, opt.beamStep 10 (layers + 1) states' nodes = .ok after ∧
        UnevenFilled numLayers layers (seen ++ [nodes]) after := by
    intro seen nodes later states' all holds
    have member : nodes ∈ seen ++ nodes :: later := by simp
    rw [← all, List.mem_range'_1] at member
    exact uneven.beamStep several large inside member.1 holds
  obtain ⟨states', runs, holds⟩ := foldlM_returns (UnevenFilled numLayers layers) round filled
  refine ⟨states', runs, ?_⟩
  rintro ⟨l, nodes⟩
  rw [holds]
  by_cases layer : l = layers + 1
  · subst layer
    by_cases tried : nodes ∈
        List.range' 1 (min opt.nodeIds.length ((layers + 1) / opt.minLayers + 1))
    · simp [tried]
    · rw [List.mem_range'_1] at tried
      have two : layers + 1 = numLayers →
          2 ≤ min opt.nodeIds.length ((layers + 1) / opt.minLayers + 1) := by
        rintro rfl
        have positive : 0 < opt.minLayers := Nat.lt_of_lt_of_le Nat.zero_lt_one (Nat.le_max_left _ _)
        exact le_min several (Nat.succ_le_succ (Nat.div_pos enough positive))
      have nothing : unevenBeam F numLayers (layers + 1, nodes) = [] :=
        unevenBeam_beyond numLayers layers nodes _ (by omega)
          (le_min (by omega) (Nat.le_add_left 1 _)) two
      simp [nothing]
  · simp [layer, show l ≤ layers ↔ l ≤ layers + 1 by omega]

theorem Uneven.beamStates :
    ∃ states, opt.beamStates 10 numLayers = .ok states ∧
      UnevenFilled numLayers numLayers [] states := by
  have start : UnevenFilled numLayers 0 [] ((∅ : Beam F).set (0, 0) [(0, [])]) := by
    rintro ⟨l, nodes⟩
    rw [Dict.getD_set]
    have earlier : 0 ≠ numLayers := by omega
    cases l <;> cases nodes <;> simp [unevenBeam, earlier, Dict.getD]
  have round : ∀ seen layers later (states : Beam F), List.range' 1 numLayers = seen ++ layers :: later →
      UnevenFilled numLayers seen.length [] states →
      ∃ after, opt.beamRound 10 states layers = .ok after ∧
        UnevenFilled numLayers (seen ++ [layers]).length [] after := by
    intro seen layers later states all filled
    have place : (List.range' 1 numLayers)[seen.length]? = some layers := by simp [all]
    obtain ⟨inside, place⟩ := List.getElem?_eq_some_iff.mp place
    simp only [List.getElem_range', Nat.one_mul, List.length_range'] at place inside
    rw [← place, Nat.add_comm, List.length_append]
    exact uneven.beamRound several large enough inside filled
  obtain ⟨states, runs, holds⟩ := foldlM_returns
    (fun seen states => UnevenFilled numLayers seen.length [] states) round start
  rw [List.length_range'] at holds
  exact ⟨states, runs, holds⟩

end

theorem Uneven.bestHistory (large : 2 ≤ numLayers)
    (filled : UnevenFilled numLayers numLayers [] states) :
    bestHistory states numLayers = [(0, numLayers - 1), (numLayers - 1, numLayers)] := by
  have entry (nodes : Nat) : states.getD (numLayers, nodes) [] =
      if nodes = 2 then [(0, [(0, numLayers - 1), (numLayers - 1, numLayers)])] else [] := by
    rw [filled]
    simp [unevenBeam, large, show numLayers ≠ 0 by omega]
  rcases bestHistory_mem states numLayers with ⟨empty, _⟩ | ⟨state, inside, best⟩
  · -- the entry for two nodes is there
    have two := entry 2
    cases found : states.get? (numLayers, 2) with
    | none => simp [Dict.getD, found] at two
    | some list =>
      have member : (0, [(0, numLayers - 1), (numLayers - 1, numLayers)]) ∈
          finalStates states numLayers :=
        mem_finalStates.mpr ⟨2, list, found, by simp_all [Dict.getD]⟩
      rw [empty] at member
      cases member
  · obtain ⟨nodes, list, found, member⟩ := mem_finalStates.mp inside
    have same := entry nodes
    simp only [Dict.getD, found, Option.getD_some] at same
    rw [same] at member
    split at member
    · rw [best, List.mem_singleton.mp member]
    · cases member

theorem Uneven.solve (uneven : opt.Uneven numLayers) (beam : opt.UsesBeam numLayers)
    (enough : opt.minLayersPerNode ≤ numLayers) :
    ∃ solution, opt.solve numLayers = .ok solution ∧
      solution.ranges = [(0, numLayers - 1), (numLayers - 1, numLayers)] ∧
      solution.points.map (·.nodeId) = opt.nodeIds.take solution.points.length := by
  obtain ⟨layers, nodes⟩ := beam
  have most : opt.minLayers ≤ numLayers := by
    simp only [minLayers]
    omega
  obtain ⟨states, runs, filled⟩ := uneven.beamStates (by omega) (by omega) most
  have chosen := Uneven.bestHistory (by omega) filled
  have kept : 2 ≤ opt.nodeIds.length := by omega
  obtain ⟨ranges, order⟩ := finalize_history opt
    [(0, numLayers - 1), (numLayers - 1, numLayers)] kept
  refine ⟨_, ?_, ranges, order⟩
  simp only [PartitionOptimizer.solve]
  split
  · next empty => simp [empty] at kept
  · next single => simp [single] at kept
  · rw [if_pos ⟨layers, nodes⟩, beamSearchSolve, runs]
    simp only [bind, Except.bind, pure, Except.pure, chosen]
    simp

def unevenOptimizer (F : Type) [Field F] (numLayers nodes least : Nat) : PartitionOptimizer F where
  costModel :=
    { evaluate := fun nodeId s e => (unevenModel F numLayers).evaluate nodeId s e 1 1
      combinedThroughput := fun _ => 0
      pipelineLatency := fun _ => 0 }
  nodeIds := (List.range nodes).map unevenId
  seqLen := 1
  minLayersPerNode := least
  round time _ := time

/-- Without memory, but tuned so that the ranges have room as before. -/
def starvedOptimizer (F : Type) [Field F] (numLayers nodes least : Nat) : PartitionOptimizer F :=
  { unevenOptimizer F numLayers nodes least with
    costModel :=
      { evaluate := fun nodeId s e => (starvedModel F numLayers).evaluate nodeId s e 1 1
        combinedThroughput := fun _ => 0
        pipelineLatency := fun _ => 0 }
    quantTuner := some ⟨fun k s e =>
      some ((unevenModel F numLayers).evaluate (unevenId k) s e 1 1)⟩ }

section

omit [LinearOrder F]

theorem unevenModel_total (numLayers : Nat) (nodeId : String) (s e : Nat) :
    ((unevenModel F numLayers).evaluate nodeId s e 1 1).totalTimeMs = 0 := by
  simp [PartitionCostModel.evaluate, unevenModel, apply_ite NodeCost.totalTimeMs]

theorem unevenOptimizer_uneven (numLayers nodes least : Nat) :
    (unevenOptimizer F numLayers nodes least).Uneven numLayers := by
  intro k s e node some inside first
  have fits := unevenModel_fits F some inside first
  have short : k < nodes := by simpa [unevenOptimizer] using node
  by_cases room : HasRoom numLayers k e s <;>
    simp [evaluateNode, unevenOptimizer, short, accept, nodeTimeMs, unevenModel_total, room, fits,
      Dict.getD]

theorem starvedOptimizer_uneven (numLayers nodes least : Nat) :
    (starvedOptimizer F numLayers nodes least).Uneven numLayers := by
  intro k s e node some inside first
  have fits := unevenModel_fits F some inside first
  have short : k < nodes := by simpa [starvedOptimizer, unevenOptimizer] using node
  by_cases room : HasRoom numLayers k e s <;>
    simp [evaluateNode, starvedOptimizer, unevenOptimizer, short, accept, nodeTimeMs,
      unevenModel_total, room, fits, Dict.getD]

end

theorem unevenOptimizer_violates (F : Type) [Field F] [LinearOrder F] {least : Nat}
    (layers : 200 < numLayers) (many : 8 < nodes) (two : 2 ≤ least) (enough : least ≤ numLayers) :
    ∃ solution, (unevenOptimizer F numLayers nodes least).solve numLayers = .ok solution ∧
      solution.points ≠ [] ∧
      ¬(unevenOptimizer F numLayers nodes least).Respects numLayers solution := by
  obtain ⟨solution, solves, ranges, _⟩ := (unevenOptimizer_uneven numLayers nodes least).solve
    (F := F) ⟨layers, by simpa [unevenOptimizer] using many⟩ enough
  refine ⟨solution, solves, ?_, ?_⟩
  · rintro empty
    simp [PartitionSolution.ranges, empty] at ranges
  · intro respects
    have last : (numLayers - 1, numLayers) ∈ solution.ranges := by simp [ranges]
    obtain ⟨p, inside, same⟩ := List.mem_map.mp last
    have wide := respects.enough p inside
    have begins : p.startLayer = numLayers - 1 := congrArg Prod.fst same
    have ends : p.endLayer = numLayers := congrArg Prod.snd same
    simp only [unevenOptimizer, begins, ends] at wide
    omega

theorem starvedOptimizer_violates (F : Type) [Field F] [LinearOrder F] {least : Nat}
    (layers : 200 < numLayers) (many : 8 < nodes) (enough : least ≤ numLayers) :
    ∃ solution, (starvedOptimizer F numLayers nodes least).solve numLayers = .ok solution ∧
      solution.points ≠ [] ∧
      ¬(starvedOptimizer F numLayers nodes least).Respects numLayers solution := by
  obtain ⟨solution, solves, ranges, _⟩ := (starvedOptimizer_uneven numLayers nodes least).solve
    (F := F) ⟨layers, by simpa [starvedOptimizer, unevenOptimizer] using many⟩ enough
  refine ⟨solution, solves, ?_, ?_⟩
  · rintro empty
    simp [PartitionSolution.ranges, empty] at ranges
  · intro respects
    have first : (0, numLayers - 1) ∈ solution.ranges := by simp [ranges]
    obtain ⟨p, inside, same⟩ := List.mem_map.mp first
    have room := respects.memory p inside
    have begins : p.startLayer = 0 := congrArg Prod.fst same
    have ends : p.endLayer = numLayers - 1 := congrArg Prod.snd same
    have some : ((unevenWeights numLayers).take (numLayers - 1)).drop 0 ≠ [] := by
      rw [unevenWeights_slice (by omega) (by omega)]
      split <;> simp
      omega
    have need := unevenWeights_memory numLayers 0 (numLayers - 1) (by omega) (by omega)
    simp only [starvedOptimizer, starvedModel, unevenModel, PartitionCostModel.evaluate, begins,
      ends, some, if_false, need] at room
    omega

/-- 201 layers on nine nodes: the second one gets the last layer alone, where two is the least. -/
theorem beam_leaves_one_layer : (unevenOptimizer ℚ 201 9 2).Consults (unevenModel ℚ 201) ∧
      (unevenOptimizer ℚ 201 9 2).allowOom = false ∧
      2 ≤ (unevenOptimizer ℚ 201 9 2).nodeIds.length ∧
      1 ≤ (unevenOptimizer ℚ 201 9 2).minLayersPerNode ∧
      (unevenOptimizer ℚ 201 9 2).minLayersPerNode ≤ 201 ∧
      ∃ solution, (unevenOptimizer ℚ 201 9 2).solve 201 = .ok solution ∧ solution.points ≠ [] ∧
        ¬(unevenOptimizer ℚ 201 9 2).Respects 201 solution :=
  ⟨fun _ _ _ => rfl, rfl, by simp [unevenOptimizer], by simp [unevenOptimizer],
    by simp [unevenOptimizer], unevenOptimizer_violates ℚ (by omega) (by omega) (by omega) (by omega)⟩

/-- A solution respects the constraints, whatever the nodes and the costs, exactly when the beam
search is not used, or every node may have a single layer and no tuner is in use. -/
theorem respects_iff (F : Type) [Field F] [LinearOrder F] (numLayers nodes least : Nat)
    (tuned : Bool) (several : 2 ≤ nodes) (one : 1 ≤ least) (enough : least ≤ numLayers) :
    (∀ (opt : PartitionOptimizer F) (model : PartitionCostModel F) (solution : PartitionSolution F),
      opt.Consults model → opt.nodeIds.length = nodes → opt.minLayersPerNode = least →
      opt.quantTuner.isSome = tuned → opt.allowOom = false →
      opt.solve numLayers = .ok solution → solution.points ≠ [] → opt.Respects numLayers solution) ↔
    ¬(200 < numLayers ∧ 8 < nodes) ∨ least = 1 ∧ tuned = false := by
  constructor
  · intro respects
    by_contra fails
    obtain ⟨⟨layers, many⟩, small⟩ : (200 < numLayers ∧ 8 < nodes) ∧ ¬(least = 1 ∧ tuned = false) := by
      constructor
      · by_contra exact
        exact fails (.inl exact)
      · exact fun small => fails (.inr small)
    cases tuned with
    | false =>
      obtain ⟨solution, solves, some, violates⟩ :=
        unevenOptimizer_violates F layers many (by simp at small; omega) enough
      exact violates (respects _ (unevenModel F numLayers) solution (fun _ _ _ => rfl)
        (by simp [unevenOptimizer]) rfl rfl rfl solves some)
    | true =>
      obtain ⟨solution, solves, some, violates⟩ :=
        starvedOptimizer_violates F layers many enough
      exact violates (respects _ (starvedModel F numLayers) solution (fun _ _ _ => rfl)
        (by simp [starvedOptimizer, unevenOptimizer]) rfl rfl rfl solves some)
  · intro condition opt model solution consults length min tuner strict solves some
    subst length min
    by_cases beam : opt.UsesBeam numLayers
    · obtain ⟨single, plain⟩ := condition.resolve_left (fun exact => exact beam)
      have plain : opt.quantTuner = none := by simpa [plain] using tuner
      have search : opt.beamSearchSolve numLayers 10 = .ok solution := by
        rw [← solves, PartitionOptimizer.solve]
        split
        · next empty => simp [empty] at several
        · next one_node => simp [one_node] at several
        · rw [if_pos beam]
      exact beam_respects consults strict plain single search some
    · exact exact_respects consults strict several beam one enough solves some

theorem respects_iff_beam : (∀ (opt : PartitionOptimizer ℚ) (model : PartitionCostModel ℚ)
      (solution : PartitionSolution ℚ),
      opt.Consults model → opt.nodeIds.length = 9 → opt.minLayersPerNode = 1 →
      opt.quantTuner.isSome = false → opt.allowOom = false →
      opt.solve 201 = .ok solution → solution.points ≠ [] → opt.Respects 201 solution) ↔
    ¬(200 < 201 ∧ 8 < 9) ∨ 1 = 1 ∧ false = false :=
  respects_iff ℚ 201 9 1 false (by decide) (by decide) (by decide)

end PartitionOptimizer

end DistLLM.Partition
