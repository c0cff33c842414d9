import DistLLM.Library.Folds
import DistLLM.Library.Tiling
import DistLLM.Partition.Optimizer
import Mathlib.Data.List.MinMax

/-!
# The dynamic programme is optimal

The table holds a recurrence over the number of nodes and of layers. Each of its entries is the
least bottleneck of the partitions of so many layers among so many nodes, and following the splits
back gives a partition that has it.
-/
namespace DistLLM.Partition

open DistLLM.Library

variable {F : Type}

namespace PartitionOptimizer

variable [Field F] [LinearOrder F] (opt : PartitionOptimizer F)

def nodeCost (nodeIdx startLayer endLayer : Nat) : Option F :=
  match opt.nodeIds[nodeIdx]? with
  | none => none
  | some nodeId => opt.accept nodeId (opt.costModel.evaluate nodeId startLayer endLayer)

/-- Each range is accepted for the node of its place. -/
def Feasible (ranges : List (Nat × Nat)) : Prop :=
  ∀ k r, ranges[k]? = some r → ∃ cost, opt.evaluateNode k r.1 r.2 = .ok (some cost)

/-- The ranges of a prefix of the nodes, in their order: contiguous from 0 to `numLayers`, each
with enough layers and accepted for its node. -/
structure IsPartition (numLayers : Nat) (ranges : List (Nat × Nat)) : Prop where
  tiles : Tiles 0 ranges numLayers
  enough : ∀ r ∈ ranges, opt.minLayersPerNode ≤ r.2 - r.1
  feasible : opt.Feasible ranges

def times (ranges : List (Nat × Nat)) : List F :=
  ranges.zipIdx.filterMap fun (r, k) => opt.nodeCost k r.1 r.2

def bottleneck (ranges : List (Nat × Nat)) : WithBot F := (opt.times ranges).maximum

/-- The bottleneck when the last of `k + 2` nodes begins at layer `j`. -/
def splitCost (previous : Nat → Option F) (k i j : Nat) : Option F :=
  (previous j).bind fun prevCost => (opt.nodeCost k j i).map (max prevCost)

def firsts (k i : Nat) : List Nat :=
  List.range' (max 1 (k * opt.minLayers)) (i + 1 - opt.minLayers - max 1 (k * opt.minLayers))

/-- What the table holds for `k + 1` nodes and `i` layers: a cost, and the first layer of the last
node. -/
def optimum : Nat → Nat → Option (F × Nat)
  | 0, i => if i = 0 then none else (opt.nodeCost 0 0 i).map fun cost => (cost, 0)
  | k + 1, i =>
    if i = 0 then none
    else firstLeast (opt.splitCost (fun j => (optimum k j).map Prod.fst) (k + 1) i)
      (opt.firsts (k + 1) i)

end PartitionOptimizer

/-- An entry of the table for a value of the recurrence. -/
def Cell.of (best : Option (F × Nat)) : Cell F where
  cost := best.map Prod.fst
  split := best.map Prod.snd

namespace PartitionOptimizer

variable [Field F] [LinearOrder F] {opt : PartitionOptimizer F}

omit [LinearOrder F] in
theorem evaluateNode_plain (plain : opt.quantTuner = none) (k s e : Nat) :
    opt.evaluateNode k s e = .ok (opt.nodeCost k s e) := by
  simp only [evaluateNode, nodeCost, plain]
  cases opt.nodeIds[k]? <;> rfl

theorem initialCell_eq (plain : opt.quantTuner = none) (i : Nat) :
    opt.initialCell i = .ok (.of (opt.optimum 0 i)) := by
  simp only [initialCell, optimum, evaluateNode_plain plain]
  by_cases none_left : i = 0
  · simp [none_left, Cell.of]
  · simp only [none_left, if_false]
    cases opt.nodeCost 0 0 i <;> rfl

variable {k i j : Nat}

theorem trySplit_eq (plain : opt.quantTuner = none) {previous : List (Cell F)}
    {costs : Nat → Option F} (before : (previous.getD j {}).cost = costs j)
    (best : Option (F × Nat)) :
    opt.trySplit previous k i (.of best) j = .ok (.of (keepLess (opt.splitCost costs k i) best j)) := by
  simp only [trySplit, keepLess, splitCost, before, evaluateNode_plain plain]
  cases costs j with
  | none => rfl
  | some prevCost =>
    cases opt.nodeCost k j i with
    | none => rfl
    | some nodeCost =>
      cases best with
      | none => rfl
      | some kept =>
        by_cases less : max prevCost nodeCost < kept.1 <;>
          simp [Cell.of, less, -sup_lt_iff, bind, Except.bind, pure, Except.pure]

omit [Field F] [LinearOrder F] in
theorem mem_firsts :
    j ∈ opt.firsts k i ↔ 1 ≤ j ∧ k * opt.minLayers ≤ j ∧ j + opt.minLayers ≤ i := by
  simp only [firsts, List.mem_range'_1]
  omega

theorem fillCell_eq (plain : opt.quantTuner = none) {previous : List (Cell F)}
    (before : ∀ j ≤ i, (previous.getD j {}) = .of (opt.optimum k j)) :
    opt.fillCell previous (k + 1) i = .ok (.of (opt.optimum (k + 1) i)) := by
  simp only [fillCell, optimum]
  by_cases none_left : i = 0
  · simp [none_left, Cell.of]
  · simp only [none_left, if_false]
    have round : ∀ best, ∀ j ∈ opt.firsts (k + 1) i,
        opt.trySplit previous (k + 1) i (.of best) j = .ok (.of (keepLess
          (opt.splitCost (fun j => (opt.optimum k j).map Prod.fst) (k + 1) i) best j)) := by
      intro best j member
      apply trySplit_eq plain
      have inside := mem_firsts.mp member
      rw [before j (by omega)]
      rfl
    exact foldlM_eq_ok Cell.of round none

theorem column_eq (plain : opt.quantTuner = none) (numLayers k : Nat) : opt.column numLayers k =
      .ok ((List.range (numLayers + 1)).map fun i => .of (opt.optimum k i)) := by
  induction k with
  | zero => exact mapM_eq_ok fun i _ => initialCell_eq plain i
  | succ k ih =>
    simp only [column, ih]
    apply mapM_eq_ok
    intro i inside
    apply fillCell_eq plain
    intro j below
    have short : j < numLayers + 1 := by
      have := List.mem_range.mp inside
      omega
    simp [List.getD_eq_getElem?_getD, List.getElem?_range short]

theorem runDp_eq (plain : opt.quantTuner = none) (numLayers : Nat) :
    ∃ dp, opt.runDp numLayers = .ok dp ∧
      ∀ k < min opt.nodeIds.length (numLayers + 1), ∀ i ≤ numLayers,
        cell dp i k = .of (opt.optimum k i) := by
  refine ⟨_, mapM_eq_ok fun k _ => column_eq plain numLayers k, ?_⟩
  intro k node i below
  have short : i < numLayers + 1 := by omega
  simp [cell, List.getD_eq_getElem?_getD, List.getElem?_range node, List.getElem?_range short]

variable {ranges : List (Nat × Nat)}

section

omit [LinearOrder F]

theorem feasible_concat (front : List (Nat × Nat)) (r : Nat × Nat) : opt.Feasible (front ++ [r]) ↔
      opt.Feasible front ∧ ∃ cost, opt.evaluateNode front.length r.1 r.2 = .ok (some cost) := by
  constructor
  · intro feasible
    constructor
    · intro k r' place
      have short : k < front.length := (List.getElem?_eq_some_iff.mp place).1
      exact feasible k r' (by rw [List.getElem?_append_left short, place])
    · exact feasible front.length r (by simp)
  · rintro ⟨before, last⟩ k r' place
    by_cases earlier : k < front.length
    · rw [List.getElem?_append_left earlier] at place
      exact before k r' place
    · rw [List.getElem?_append_right (by omega)] at place
      obtain ⟨here, rfl⟩ : k - front.length = 0 ∧ r = r' := by
        cases gap : k - front.length <;> simp_all
      obtain rfl : k = front.length := by omega
      exact last

theorem Feasible.length_le (feasible : opt.Feasible ranges) :
    ranges.length ≤ opt.nodeIds.length := by
  by_contra more
  have inside : opt.nodeIds.length < ranges.length := by omega
  obtain ⟨cost, evaluated⟩ := feasible _ _ (List.getElem?_eq_getElem inside)
  simp [evaluateNode] at evaluated

theorem isPartition_concat (numLayers : Nat) (front : List (Nat × Nat)) (j i : Nat) :
    opt.IsPartition numLayers (front ++ [(j, i)]) ↔
      opt.IsPartition j front ∧ i = numLayers ∧ j < i ∧ opt.minLayersPerNode ≤ i - j ∧
        ∃ cost, opt.evaluateNode front.length j i = .ok (some cost) := by
  constructor
  · intro partition
    obtain ⟨before, some, rfl⟩ := Tiles.concat_iff.mp partition.tiles
    obtain ⟨feasible, last⟩ := (feasible_concat front (j, i)).mp partition.feasible
    have enough : ∀ r ∈ front, opt.minLayersPerNode ≤ r.2 - r.1 := fun r inside =>
      partition.enough r (List.mem_append_left _ inside)
    exact ⟨⟨before, enough, feasible⟩, rfl, some, partition.enough (j, i) (by simp), last⟩
  · rintro ⟨before, rfl, some, enough, last⟩
    constructor
    case tiles => exact Tiles.concat_iff.mpr ⟨before.tiles, some, rfl⟩
    case feasible => exact (feasible_concat front (j, i)).mpr ⟨before.feasible, last⟩
    case enough =>
      intro r inside
      rcases List.mem_append.mp inside with earlier | here
      · exact before.enough r earlier
      · rw [List.mem_singleton.mp here]
        exact enough

end

theorem bottleneck_concat (front : List (Nat × Nat)) (j i : Nat) {cost : F}
    (costs : opt.nodeCost front.length j i = some cost) :
    opt.bottleneck (front ++ [(j, i)]) = max (opt.bottleneck front) cost := by
  simp only [bottleneck, times, List.zipIdx_append, List.filterMap_append, Nat.zero_add,
    List.zipIdx_singleton, List.filterMap_cons, costs, List.filterMap_nil, List.maximum_concat]

variable {numLayers : Nat}

omit [LinearOrder F] in
theorem IsPartition.mul_length_le
    (partition : opt.IsPartition numLayers ranges) : ranges.length * opt.minLayers ≤ numLayers := by
  have wide : ∀ r ∈ ranges, opt.minLayers ≤ r.2 - r.1 := by
    intro r inside
    have enough := partition.enough r inside
    have some := (partition.tiles.bounds inside).2.1
    simp only [minLayers]
    omega
  simpa using partition.tiles.mul_length_le wide

/-! ### The recurrence finds the least bottleneck -/

variable (opt) in
/-- The ranges the splits lead back through. -/
def trail : Nat → Nat → List (Nat × Nat)
  | 0, i => [(0, i)]
  | k + 1, i =>
    match opt.optimum (k + 1) i with
    | none => []
    | some (_, j) => trail k j ++ [(j, i)]

theorem optimum_succ {cost : F} (found : opt.optimum (k + 1) i = some (cost, j)) :
    j ∈ opt.firsts (k + 1) i ∧ ∃ prevCost start lastCost, opt.optimum k j = some (prevCost, start) ∧
      opt.nodeCost (k + 1) j i = some lastCost ∧ cost = max prevCost lastCost := by
  simp only [optimum] at found
  split at found
  · cases found
  · have least := firstLeast_isLeast
      (opt.splitCost (fun j => (opt.optimum k j).map Prod.fst) (k + 1) i)
      (opt.firsts (k + 1) i)
    rw [found] at least
    obtain ⟨inside, splits, _⟩ := least
    simp only [splitCost, Option.bind_eq_some_iff, Option.map_eq_some_iff] at splits
    obtain ⟨prevCost, ⟨entry, before, rfl⟩, lastCost, last, rfl⟩ := splits
    exact ⟨inside, entry.1, entry.2, lastCost, before, last, rfl⟩

theorem trail_sound (plain : opt.quantTuner = none) {cost : F}
    (found : opt.optimum k i = some (cost, j)) :
    (opt.trail k i).length = k + 1 ∧ (opt.minLayers ≤ i →
      opt.IsPartition i (opt.trail k i) ∧ opt.bottleneck (opt.trail k i) = cost) := by
  induction k generalizing i cost j with
  | zero =>
    simp only [optimum] at found
    split at found
    · cases found
    · next some =>
      obtain ⟨only, costs, same⟩ := Option.map_eq_some_iff.mp found
      cases same
      refine ⟨rfl, fun enough => ⟨?_, ?_⟩⟩
      · apply (isPartition_concat i [] 0 i).mpr
        refine ⟨⟨rfl, by simp, fun k r => by simp⟩, rfl, by omega, ?_, cost, ?_⟩
        · simp only [minLayers] at enough
          omega
        · rw [evaluateNode_plain plain, List.length_nil, costs]
      · exact (bottleneck_concat [] 0 i costs).trans (by simp [bottleneck, times])
  | succ k ih =>
    obtain ⟨inside, prevCost, start, lastCost, before, last, rfl⟩ := optimum_succ found
    obtain ⟨length, sound⟩ := ih before
    simp only [trail, found]
    refine ⟨by simp [length], fun enough => ?_⟩
    have first := mem_firsts.mp inside
    have wide : opt.minLayers ≤ j := by
      have := Nat.le_mul_of_pos_left opt.minLayers k.add_one_pos
      omega
    obtain ⟨partition, slowest⟩ := sound wide
    constructor
    · apply (isPartition_concat i _ j i).mpr
      have some : 1 ≤ opt.minLayers := Nat.le_max_left _ _
      have least : opt.minLayersPerNode ≤ opt.minLayers := Nat.le_max_right _ _
      refine ⟨partition, rfl, by omega, by omega, lastCost, ?_⟩
      rw [evaluateNode_plain plain, length, last]
    · rw [bottleneck_concat _ j i (by rw [length, last]), slowest]
      rfl

theorem optimum_complete (plain : opt.quantTuner = none) (partition : opt.IsPartition i ranges)
    (length : ranges.length = k + 1) :
    ∃ cost j, opt.optimum k i = some (cost, j) ∧ cost ≤ opt.bottleneck ranges := by
  induction k generalizing i ranges with
  | zero =>
    obtain ⟨⟨start, stop⟩, rfl⟩ := List.length_eq_one_iff.mp length
    obtain ⟨before, rfl, some, enough, cost, evaluated⟩ :=
      (isPartition_concat i [] start stop).mp partition
    obtain rfl : 0 = start := before.tiles
    rw [evaluateNode_plain plain] at evaluated
    have costs := Except.ok.inj evaluated
    have entry : opt.optimum 0 stop = Option.some (cost, 0) := by
      simpa [optimum, Nat.ne_of_gt some] using costs
    refine ⟨cost, 0, entry, ?_⟩
    rw [show [(0, stop)] = [] ++ [(0, stop)] from rfl, bottleneck_concat [] 0 stop costs]
    exact le_max_right _ _
  | succ k ih =>
    rcases List.eq_nil_or_concat ranges with rfl | ⟨front, ⟨j, stop⟩, rfl⟩
    · cases length
    · rw [List.concat_eq_append] at partition length ⊢
      have many : front.length = k + 1 := by simpa using length
      obtain ⟨before, rfl, some, enough, lastCost, evaluated⟩ :=
        (isPartition_concat i front j stop).mp partition
      rw [evaluateNode_plain plain] at evaluated
      have last := Except.ok.inj evaluated
      obtain ⟨prevCost, start, entry, below⟩ := ih before many
      -- the split is among those that are tried
      have inside : j ∈ opt.firsts (k + 1) stop := by
        have room := before.mul_length_le
        have positive : 1 ≤ opt.minLayers := Nat.le_max_left _ _
        have layers := Nat.le_mul_of_pos_left opt.minLayers k.add_one_pos
        rw [many] at room
        apply mem_firsts.mpr
        simp only [minLayers] at room positive layers ⊢
        omega
      have splits : opt.splitCost (fun j => (opt.optimum k j).map Prod.fst) (k + 1) stop j =
          Option.some (max prevCost lastCost) := by
        rw [many] at last
        simp [splitCost, entry, last]
      have least := firstLeast_isLeast
        (opt.splitCost (fun j => (opt.optimum k j).map Prod.fst) (k + 1) stop)
        (opt.firsts (k + 1) stop)
      cases found : firstLeast (opt.splitCost (fun j => (opt.optimum k j).map Prod.fst) (k + 1) stop)
          (opt.firsts (k + 1) stop) with
      | none =>
        rw [found] at least
        rw [least j inside] at splits
        cases splits
      | some kept =>
        rw [found] at least
        refine ⟨kept.1, kept.2, ?_, ?_⟩
        · simp [optimum, found, show stop ≠ 0 by omega]
        · rw [bottleneck_concat front j stop last]
          calc (kept.1 : WithBot F) ≤ (max prevCost lastCost : F) :=
                WithBot.coe_le_coe.mpr (least.2.2 j inside _ splits)
            _ = max (prevCost : WithBot F) lastCost := rfl
            _ ≤ max (opt.bottleneck front) lastCost := max_le_max_right _ below

/-! ### Reading the table back -/

omit [Field F] in
theorem bestColumn_eq (dp : List (List (Cell F))) (numLayers : Nat) : opt.bestColumn dp numLayers =
      ((firstLeast (fun k => (cell dp numLayers k).cost)
        (List.range (min opt.nodeIds.length numLayers))).map Prod.snd).getD 0 := by
  let stands : Option (F × Nat) → Option F × Nat := fun best =>
    (best.map Prod.fst, (best.map Prod.snd).getD 0)
  have round : ∀ best k, keepBest dp numLayers (stands best) k =
      stands (keepLess (fun k => (cell dp numLayers k).cost) best k) := by
    intro best k
    simp only [keepBest, keepLess]
    cases (cell dp numLayers k).cost with
    | none => rfl
    | some cost =>
      cases best with
      | none => rfl
      | some kept => by_cases less : cost < kept.1 <;> simp [stands, less]
  have run (items : List Nat) : items.foldl (keepBest dp numLayers) (stands none) =
      stands (firstLeast (fun k => (cell dp numLayers k).cost) items) :=
    List.foldl_hom stands round
  exact congrArg Prod.snd (run _)

variable (opt) in
/-- The ranges with the ids of their nodes. -/
def assigned (ranges : List (Nat × Nat)) : List (String × Nat × Nat) :=
  ranges.zipIdx.map fun (r, m) => (opt.nodeIds.getD m "", r)

omit [Field F] [LinearOrder F] in
theorem assigned_ranges (ranges : List (Nat × Nat)) :
    (opt.assigned ranges).map Prod.snd = ranges := by
  simp [assigned, Function.comp_def, List.zipIdx_map_fst]

omit [Field F] [LinearOrder F] in
theorem assigned_nodes (short : ranges.length ≤ opt.nodeIds.length) :
    (opt.assigned ranges).map Prod.fst = opt.nodeIds.take ranges.length := by
  apply List.ext_getElem
  · simp [assigned, short]
  · intro m inside _
    have node : m < opt.nodeIds.length := by
      simp only [assigned, List.length_map, List.length_zipIdx] at inside
      omega
    simp [assigned, List.getD_eq_getElem?_getD, List.getElem?_eq_getElem node]

theorem follow_eq (plain : opt.quantTuner = none) {dp : List (List (Cell F))}
    (holds : ∀ k' ≤ k, ∀ i ≤ numLayers, cell dp i k' = .of (opt.optimum k' i))
    (below : i ≤ numLayers) {best : F × Nat} (found : opt.optimum k i = some best) :
    (follow dp k i).reverse = (opt.trail k i).zipIdx.map fun (r, m) => (m, r.1, r.2) := by
  have some : i ≠ 0 := by
    rintro rfl
    cases k <;> simp [optimum] at found
  induction k generalizing i best with
  | zero =>
    have zero : best.2 = 0 := by
      simp only [optimum, some, if_false, Option.map_eq_some_iff] at found
      obtain ⟨cost, _, rfl⟩ := found
      rfl
    simp [follow, trail, some, holds 0 (le_refl 0) i below, found, Cell.of, zero]
  | succ k ih =>
    obtain ⟨cost, j⟩ := best
    obtain ⟨inside, prevCost, start, lastCost, before, _, _⟩ := optimum_succ found
    have first := mem_firsts.mp inside
    have shorter := ih (fun k' less => holds k' (by omega)) (i := j) (by omega) before (by omega)
    have length := (trail_sound plain before).1
    rw [follow]
    simp [some, holds (k + 1) (le_refl _) i below, found, Cell.of, trail, shorter,
      List.zipIdx_append, length]

omit [Field F] [LinearOrder F] in
theorem enforceBoundaryLayers_eq {triples : List (String × Nat × Nat)}
    (tiles : Tiles 0 (triples.map Prod.snd) numLayers) :
    opt.enforceBoundaryLayers numLayers (triples.map fun t => opt.point t.1 t.2.1 t.2.2) =
      triples.map fun t => opt.point t.1 t.2.1 t.2.2 := by
  have first : (triples.map fun t => opt.point t.1 t.2.1 t.2.2).modifyHead
      (fun first => { first with startLayer := 0 }) =
        triples.map fun t => opt.point t.1 t.2.1 t.2.2 := by
    cases triples with
    | nil => rfl
    | cons t rest =>
      obtain ⟨begins, _⟩ := tiles
      simp [point, begins]
  rcases List.eq_nil_or_concat triples with rfl | ⟨front, last, rfl⟩
  · rfl
  · rw [List.concat_eq_append] at tiles first ⊢
    rw [List.map_append] at tiles
    obtain ⟨_, _, ends⟩ := Tiles.concat_iff.mp tiles
    simp only [enforceBoundaryLayers, first]
    simp [point, ends]

theorem finalize_points (points : List (PartitionPoint F)) :
    (opt.finalize points).points = points.map fun p => opt.point p.nodeId p.startLayer p.endLayer := by
  simp only [finalize]
  split
  case isTrue empty => simp [empty, PartitionSolution.unsolved]
  case isFalse => rfl

variable (opt) in
/-- The solution for ranges that tile the layers. -/
theorem finalize_enforce (numLayers : Nat) (triples : List (String × Nat × Nat))
    (tiles : Tiles 0 (triples.map Prod.snd) numLayers) :
    let solution := opt.finalize (opt.enforceBoundaryLayers numLayers
      (triples.map fun t => opt.point t.1 t.2.1 t.2.2))
    solution.ranges = triples.map Prod.snd ∧
      solution.points.map (·.nodeId) = triples.map Prod.fst := by
  simp only [PartitionSolution.ranges, finalize_points, enforceBoundaryLayers_eq tiles]
  simp [point, Function.comp_def]

theorem solve_exact (plain : opt.quantTuner = none) (several : 2 ≤ opt.nodeIds.length)
    (exact : ¬opt.UsesBeam numLayers) :
    ∃ dp, opt.runDp numLayers = .ok dp ∧ opt.solve numLayers = .ok (opt.finalize
      (opt.enforceBoundaryLayers numLayers (opt.backtrack dp numLayers))) ∧
      ∀ k < min opt.nodeIds.length (numLayers + 1), ∀ i ≤ numLayers,
        cell dp i k = .of (opt.optimum k i) := by
  obtain ⟨dp, runs, holds⟩ := runDp_eq plain numLayers
  refine ⟨dp, runs, ?_, holds⟩
  simp only [solve, runs, exact, if_false, attachQuantizationPlan, plain]
  split
  · next empty => simp [empty] at several
  · next single => simp [single] at several
  · rfl

theorem backtrack_cases (plain : opt.quantTuner = none) {dp : List (List (Cell F))}
    (several : 2 ≤ opt.nodeIds.length) (some : 1 ≤ numLayers)
    (holds : ∀ k < min opt.nodeIds.length (numLayers + 1), ∀ i ≤ numLayers,
      cell dp i k = .of (opt.optimum k i)) :
    ((∀ k < min opt.nodeIds.length numLayers, opt.optimum k numLayers = none) ∧
      opt.backtrack dp numLayers = []) ∨
    ∃ k < min opt.nodeIds.length numLayers, ∃ best, opt.optimum k numLayers = .some best ∧
      (∀ k' < min opt.nodeIds.length numLayers, ∀ other,
        opt.optimum k' numLayers = .some other → best.1 ≤ other.1) ∧ opt.backtrack dp numLayers =
        (opt.assigned (opt.trail k numLayers)).map fun t => opt.point t.1 t.2.1 t.2.2 := by
  have entries : ∀ k < min opt.nodeIds.length numLayers,
      (cell dp numLayers k).cost = (opt.optimum k numLayers).map Prod.fst := by
    intro k node
    rw [holds k (by omega) numLayers (le_refl _)]
    rfl
  have least := firstLeast_isLeast (fun k => (cell dp numLayers k).cost)
    (List.range (min opt.nodeIds.length numLayers))
  cases found : firstLeast (fun k => (cell dp numLayers k).cost)
      (List.range (min opt.nodeIds.length numLayers)) with
  | none =>
    left
    rw [found] at least
    have unsolved : ∀ k < min opt.nodeIds.length numLayers, opt.optimum k numLayers = none := by
      intro k node
      have free := least k (List.mem_range.mpr node)
      exact Option.map_eq_none_iff.mp ((entries k node).symm.trans free)
    have begins : cell dp numLayers 0 = .of none := by
      rw [holds 0 (by omega) numLayers (le_refl _), unsolved 0 (by omega)]
    refine ⟨unsolved, ?_⟩
    simp [backtrack, bestColumn_eq, found, follow, begins, Cell.of]
  | some kept =>
    right
    rw [found] at least
    obtain ⟨inside, costs, below⟩ := least
    have node := List.mem_range.mp inside
    obtain ⟨best, entry, same⟩ := Option.map_eq_some_iff.mp ((entries kept.2 node).symm.trans costs)
    refine ⟨kept.2, node, best, entry, ?_, ?_⟩
    · intro k' node' other entry'
      rw [same]
      apply below k' (List.mem_range.mpr node') other.1
      exact (entries k' node').trans (by rw [entry']; rfl)
    · have back := follow_eq plain (fun k' less => holds k' (by omega)) (le_refl numLayers) entry
      simp only [backtrack, bestColumn_eq, found, Option.map_some, Option.getD_some, back,
        assigned, List.map_map]
      rfl

omit [LinearOrder F] in
theorem IsPartition.column (partition : opt.IsPartition numLayers ranges) (some : 1 ≤ numLayers) :
    ∃ k < min opt.nodeIds.length numLayers, ranges.length = k + 1 := by
  have nodes := partition.feasible.length_le
  have layers := partition.mul_length_le
  have positive : 1 ≤ opt.minLayers := Nat.le_max_left _ _
  have each := Nat.le_mul_of_pos_right ranges.length positive
  cases ranges with
  | nil =>
    have : 0 = numLayers := partition.tiles
    omega
  | cons r rest =>
    refine ⟨rest.length, ?_, rfl⟩
    simp only [List.length_cons] at nodes each layers
    omega

/-- The dynamic programme has no point if there is no partition, and else the points of one with the
least bottleneck. -/
theorem solve_cases (plain : opt.quantTuner = none) (several : 2 ≤ opt.nodeIds.length)
    (exact : ¬opt.UsesBeam numLayers) (least : 1 ≤ opt.minLayersPerNode)
    (enough : opt.minLayersPerNode ≤ numLayers) : ∃ solution, opt.solve numLayers = .ok solution ∧
      ((solution.points = [] ∧ ¬∃ ranges, opt.IsPartition numLayers ranges) ∨
        (solution.points ≠ [] ∧ opt.IsPartition numLayers solution.ranges ∧
          solution.points.map (·.nodeId) = opt.nodeIds.take solution.points.length ∧
          ∀ ranges, opt.IsPartition numLayers ranges →
            opt.bottleneck solution.ranges ≤ opt.bottleneck ranges)) := by
  obtain ⟨dp, _, solves, holds⟩ := solve_exact plain several exact
  refine ⟨_, solves, ?_⟩
  rcases backtrack_cases plain several (by omega) holds with
    ⟨unsolved, empty⟩ | ⟨k, node, best, entry, below, back⟩
  · -- an entry for each partition would be in the table
    have free : ¬∃ ranges, opt.IsPartition numLayers ranges := by
      rintro ⟨ranges, partition⟩
      obtain ⟨k, node, length⟩ := partition.column (by omega)
      obtain ⟨cost, j, entry, _⟩ := optimum_complete plain partition length
      rw [unsolved k node] at entry
      cases entry
    have pointless : (opt.finalize (opt.enforceBoundaryLayers numLayers
        (opt.backtrack dp numLayers))).points = [] := by
      rw [finalize_points, empty]
      rfl
    exact .inl ⟨pointless, free⟩
  · obtain ⟨length, sound⟩ := trail_sound plain entry
    obtain ⟨partition, slowest⟩ := sound (by simp only [minLayers]; omega)
    have whole : Tiles 0 ((opt.assigned (opt.trail k numLayers)).map Prod.snd) numLayers := by
      rw [assigned_ranges]
      exact partition.tiles
    obtain ⟨ranges, ids⟩ := opt.finalize_enforce numLayers _ whole
    rw [← back] at ranges ids
    rw [assigned_ranges] at ranges
    rw [assigned_nodes partition.feasible.length_le] at ids
    have points : (opt.finalize (opt.enforceBoundaryLayers numLayers
        (opt.backtrack dp numLayers))).points.length = (opt.trail k numLayers).length := by
      rw [← ranges, PartitionSolution.ranges, List.length_map]
    have solved : (opt.finalize (opt.enforceBoundaryLayers numLayers
        (opt.backtrack dp numLayers))).points ≠ [] := by
      rw [← List.length_pos_iff, points, length]
      exact k.add_one_pos
    refine .inr ⟨solved, ?_⟩
    rw [ranges, points]
    refine ⟨partition, ids, ?_⟩
    intro others partition'
    obtain ⟨k', node', length'⟩ := partition'.column (by omega)
    obtain ⟨cost, j, entry', less⟩ := optimum_complete plain partition' length'
    calc opt.bottleneck (opt.trail k numLayers) = best.1 := slowest
      _ ≤ cost := WithBot.coe_le_coe.mpr (below k' node' _ entry')
      _ ≤ opt.bottleneck others := less

/-- When the dynamic programme runs, it returns a partition with the least bottleneck there is, and
no points exactly when there is no partition. -/
theorem solve_optimal (opt : PartitionOptimizer F) (numLayers : Nat)
    (plain : opt.quantTuner = none) (several : 2 ≤ opt.nodeIds.length)
    (exact : ¬opt.UsesBeam numLayers) (least : 1 ≤ opt.minLayersPerNode)
    (enough : opt.minLayersPerNode ≤ numLayers) : ∃ solution, opt.solve numLayers = .ok solution ∧
      (solution.points = [] ↔ ¬∃ ranges, opt.IsPartition numLayers ranges) ∧ (solution.points ≠ [] →
        opt.IsPartition numLayers solution.ranges ∧
        solution.points.map (·.nodeId) = opt.nodeIds.take solution.points.length ∧
        ∀ ranges, opt.IsPartition numLayers ranges →
          opt.bottleneck solution.ranges ≤ opt.bottleneck ranges) := by
  obtain ⟨solution, solves, cases_⟩ := solve_cases plain several exact least enough
  refine ⟨solution, solves, ?_⟩
  rcases cases_ with ⟨empty, free⟩ | ⟨some, found⟩
  · exact ⟨⟨fun _ => free, fun _ => empty⟩, fun some => absurd empty some⟩
  · exact ⟨⟨fun empty => absurd empty some, fun free => absurd ⟨_, found.1⟩ free⟩, fun _ => found⟩

/-- Two nodes, one of them three times as fast, and two layers for each at least. -/
def twoNodes : PartitionOptimizer ℚ where
  costModel :=
    { evaluate := fun nodeId startLayer endLayer =>
        { nodeId, startLayer, endLayer
          computeTimeMs := 0
          communicationTimeMs := 0
          totalTimeMs := (if nodeId = "fast" then 1 else 3) * (endLayer - startLayer : Nat)
          fitsInMemory := endLayer - startLayer ≤ 5 }
      combinedThroughput := fun _ => 0
      pipelineLatency := fun _ => 0 }
  nodeIds := ["slow", "fast"]
  minLayersPerNode := 2
  round time _ := time

theorem twoNodes_optimal : ∃ solution, twoNodes.solve 8 = .ok solution ∧
    (solution.points = [] ↔ ¬∃ ranges, twoNodes.IsPartition 8 ranges) ∧ (solution.points ≠ [] →
      twoNodes.IsPartition 8 solution.ranges ∧
      solution.points.map (·.nodeId) = twoNodes.nodeIds.take solution.points.length ∧
      ∀ ranges, twoNodes.IsPartition 8 ranges →
        twoNodes.bottleneck solution.ranges ≤ twoNodes.bottleneck ranges) :=
  solve_optimal twoNodes 8 rfl (by decide) (by decide) (by decide) (by decide)

end PartitionOptimizer

end DistLLM.Partition
