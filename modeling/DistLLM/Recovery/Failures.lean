import DistLLM.Library.Folds
import DistLLM.Library.Tiling
import DistLLM.Recovery.Manager

/-!
# The ranges after failures

A failure that is handled gives the orphaned range to the neighbours of the failed node, so that the
ranges of the others tile the layers again.
-/
namespace DistLLM.Recovery

open DistLLM.Library

/-- Nodes in the order of their ranges, which tile the layers from `low` on. -/
def Tiled (low : Int) (nodes : List (String × LayerRange)) (high : Int) : Prop :=
  Tiles low (nodes.map fun node => (node.2.1, node.2.2 + 1)) high

instance (low : Int) (nodes : List (String × LayerRange)) (high : Int) :
    Decidable (Tiled low nodes high) :=
  inferInstanceAs (Decidable (Tiles _ _ _))

/-- The ranges, in some order of the nodes, tile the layers `[0, numLayers)`: they are disjoint,
contiguous and cover all layers. -/
def TilesLayers (assignments : Dict String LayerRange) (numLayers : Int) : Prop :=
  ∃ nodes, nodes.Perm assignments.entries ∧ Tiled 0 nodes numLayers

namespace Tiled

variable {low middle high : Int} {nodes before after : List (String × LayerRange)}
  {node : String × LayerRange}

theorem append_iff : Tiled low (before ++ after) high ↔
    ∃ middle, Tiled low before middle ∧ Tiled middle after high := by
  simp only [Tiled, List.map_append, Tiles.append_iff]

theorem cons_iff : Tiled low (node :: after) high ↔
    node.2.1 = low ∧ node.2.1 ≤ node.2.2 ∧ Tiled (node.2.2 + 1) after high := by
  simp only [Tiled, List.map_cons, Tiles, Int.lt_add_one_iff]

theorem concat_iff : Tiled low (before ++ [node]) high ↔
    Tiled low before node.2.1 ∧ node.2.1 ≤ node.2.2 ∧ node.2.2 + 1 = high := by
  simp only [Tiled, List.map_append, List.map_cons, List.map_nil, Tiles.concat_iff,
    Int.lt_add_one_iff]

theorem bounds (tiled : Tiled low nodes high) (member : node ∈ nodes) :
    low ≤ node.2.1 ∧ node.2.1 ≤ node.2.2 ∧ node.2.2 < high := by
  have := Tiles.bounds tiled (List.mem_map_of_mem member)
  simp only at this
  omega

theorem pairwise (tiled : Tiled low nodes high) : nodes.Pairwise fun a b => a.2.2 < b.2.1 := by
  have ends := Tiles.pairwise tiled
  rw [List.pairwise_map] at ends
  exact ends.imp fun below => by omega

end Tiled

variable {survivors : Dict String LayerRange} {nodes : List (String × LayerRange)}

theorem orderedByRange_eq (same : nodes.Perm survivors.entries)
    (increasing : nodes.Pairwise fun a b => a.2.1 < b.2.1) : orderedByRange survivors = nodes := by
  let le : String × LayerRange → String × LayerRange → Bool := fun a b =>
    a.2.1 < b.2.1 || a.2.1 = b.2.1 && a.2.2 ≤ b.2.2
  have sorted : (orderedByRange survivors).Pairwise fun a b => le a b = true := by
    apply List.pairwise_mergeSort
    · simp [le]
      omega
    · simp [le]
      omega
  have permuted : (orderedByRange survivors).Perm nodes :=
    (List.mergeSort_perm _ _).trans same.symm
  apply permuted.eq_of_pairwise _ sorted (increasing.imp fun less => by simp [le, less])
  intro a b inside member below above
  have begins : a.2.1 = b.2.1 := by
    simp [le] at below above
    omega
  have distinct : (nodes.map fun node => node.2.1).Nodup :=
    List.pairwise_map.mpr (increasing.imp fun less => ne_of_lt less)
  exact List.inj_on_of_nodup_map distinct (permuted.mem_iff.mp inside) member begins

theorem isCleanTiling_of {failedStart failedEnd : Int}
    (apart : ∀ node ∈ nodes, node.2.2 < failedStart ∨ failedEnd < node.2.1)
    (disjoint : nodes.Pairwise fun a b => a.2.2 < b.2.1) :
    isCleanTiling failedStart failedEnd nodes = true := by
  induction nodes with
  | nil => rfl
  | cons node rest ih =>
    have later := ih (fun n inside => apart n (List.mem_cons_of_mem _ inside)) disjoint.of_cons
    have here := apart node List.mem_cons_self
    cases rest with
    | nil => simp [isCleanTiling, here]
    | cons next rest =>
      have below := (List.pairwise_cons.mp disjoint).1 next List.mem_cons_self
      simp only [isCleanTiling, Bool.and_eq_true] at later ⊢
      simp [here, below, later]

/-! ### Absorbing the orphaned range -/

variable {numLayers start stop : Int} {before after : List (String × LayerRange)}

theorem Tiled.sides {failed : String}
    (tiled : Tiled 0 (before ++ (failed, start, stop) :: after) numLayers) :
    Tiled 0 before start ∧ start ≤ stop ∧ Tiled (stop + 1) after numLayers := by
  obtain ⟨middle, left, right⟩ := Tiled.append_iff.mp tiled
  obtain ⟨rfl, some, right⟩ := Tiled.cons_iff.mp right
  exact ⟨left, some, right⟩

section

variable (left : Tiled 0 before start) (some : start ≤ stop)
  (right : Tiled (stop + 1) after numLayers)

include left some right

theorem filter_left :
    (before ++ after).filter (fun node => decide (node.2.2 < start)) = before := by
  rw [List.filter_append]
  have all : before.filter (fun node => decide (node.2.2 < start)) = before :=
    List.filter_eq_self.mpr fun node inside => decide_eq_true (left.bounds inside).2.2
  have none_left : after.filter (fun node => decide (node.2.2 < start)) = [] := by
    apply List.filter_eq_nil_iff.mpr
    intro node inside
    have := right.bounds inside
    simp only [decide_eq_true_eq]
    omega
  rw [all, none_left, List.append_nil]

theorem filter_right :
    (before ++ after).filter (fun node => decide (stop < node.2.1)) = after := by
  rw [List.filter_append]
  have all : after.filter (fun node => decide (stop < node.2.1)) = after := by
    apply List.filter_eq_self.mpr
    intro node inside
    have := right.bounds inside
    simp only [decide_eq_true_eq]
    omega
  have none_right : before.filter (fun node => decide (stop < node.2.1)) = [] := by
    apply List.filter_eq_nil_iff.mpr
    intro node inside
    have := left.bounds inside
    simp only [decide_eq_true_eq]
    omega
  rw [all, none_right, List.nil_append]

end

theorem computeRedistributions_eq (same : (before ++ after).Perm survivors.entries)
    (left : Tiled 0 before start) (some : start ≤ stop) (right : Tiled (stop + 1) after numLayers)
    (survivor : before ++ after ≠ []) : computeRedistributions start stop survivors =
      (leftShare (stop - start + 1) before.getLast? after.head?).map fun share =>
        absorb start stop share before.getLast? after.head? := by
  have disjoint : (before ++ after).Pairwise fun a b => a.2.2 < b.2.1 := by
    apply List.pairwise_append.mpr
    refine ⟨left.pairwise, right.pairwise, ?_⟩
    intro a inside b member
    have := left.bounds inside
    have := right.bounds member
    omega
  have wide : ∀ node ∈ before ++ after, node.2.1 ≤ node.2.2 := by
    intro node inside
    rcases List.mem_append.mp inside with inside | inside
    · exact (left.bounds inside).2.1
    · exact (right.bounds inside).2.1
  have ordered : orderedByRange survivors = before ++ after := by
    apply orderedByRange_eq same
    exact disjoint.imp_of_mem fun inside _ below => by
      have := wide _ inside
      omega
  -- so the span is not tiled anew over all survivors
  have clean : isCleanTiling start stop (before ++ after) = true := by
    apply isCleanTiling_of _ disjoint
    intro node inside
    rcases List.mem_append.mp inside with inside | inside
    · exact .inl (left.bounds inside).2.2
    · have := right.bounds inside
      right
      omega
  have present : survivors.entries ≠ [] := by
    intro empty
    rw [empty] at same
    exact survivor same.eq_nil
  have neighbour : (before.getLast?.isNone && after.head?.isNone) = false := by
    rcases before with _ | ⟨b, before⟩ <;> rcases after with _ | ⟨a, after⟩ <;> simp at survivor ⊢
  simp only [computeRedistributions, present, if_false, show ¬stop - start + 1 ≤ 0 by omega, ordered,
    clean, filter_left left some right, filter_right left some right, neighbour]
  rfl

def applied (survivors : Dict String LayerRange) (redistributions : List LayerRedistribution) :
    Dict String LayerRange :=
  redistributions.foldl (fun refreshed rd =>
    refreshed.set rd.survivingNodeId (rd.newStartLayer, rd.newEndLayer)) survivors

theorem leftShare_between {l r : String × LayerRange} (left : Tiled 0 (before ++ [l]) start)
    (some : start ≤ stop) (right : Tiled (stop + 1) (r :: after) numLayers) :
    ∃ share, leftShare (stop - start + 1) (.some l) (.some r) = .ok share ∧ 0 ≤ share ∧
      share ≤ stop - start + 1 := by
  obtain ⟨_, l_some, _⟩ := Tiled.concat_iff.mp left
  obtain ⟨_, r_some, _⟩ := Tiled.cons_iff.mp right
  have l_size : 1 ≤ layerCount l.2 := by simp only [layerCount]; omega
  have r_size : 1 ≤ layerCount r.2 := by simp only [layerCount]; omega
  refine ⟨_, by rw [leftShare, if_neg (by omega)], ?_, ?_⟩
  · rw [Int.fdiv_eq_ediv_of_nonneg _ (by omega)]
    apply Int.ediv_nonneg _ (by omega)
    exact Int.mul_nonneg (by omega) (by omega)
  · rw [Int.fdiv_eq_ediv_of_nonneg _ (by omega)]
    apply Int.ediv_le_of_le_mul (by omega)
    apply Int.mul_le_mul_of_nonneg_left (by omega) (by omega)

theorem absorb_tiles (same : (before ++ after).Perm survivors.entries) (left : Tiled 0 before start)
    (some : start ≤ stop) (right : Tiled (stop + 1) after numLayers)
    (survivor : before ++ after ≠ []) :
    ∃ share, leftShare (stop - start + 1) before.getLast? after.head? = .ok share ∧
      absorb start stop share before.getLast? after.head? ≠ [] ∧
      ∃ nodes : List (String × LayerRange), nodes.Perm
          (applied survivors (absorb start stop share before.getLast? after.head?)).entries ∧
        Tiled 0 nodes numLayers ∧ nodes.map Prod.fst = (before ++ after).map Prod.fst := by
  -- by the neighbours there are: on the right only, on the left only, on both sides
  rcases List.eq_nil_or_concat before with rfl | ⟨front, ⟨lid, lstart, lstop⟩, rfl⟩
  · cases after with
    | nil => exact absurd rfl survivor
    | cons r rest =>
      obtain ⟨rid, rstart, rstop⟩ := r
      obtain rfl : 0 = start := left
      obtain ⟨rfl, wide, later⟩ := Tiled.cons_iff.mp right
      have set : applied survivors (absorb 0 stop 0 none (.some (rid, stop + 1, rstop))) =
          survivors.set rid (0, rstop) := by
        simp [applied, absorb, show min (stop + 1) 0 = 0 by omega]
      refine ⟨0, rfl, by simp [absorb], (rid, 0, rstop) :: rest, ?_, ?_, rfl⟩
      · exact set ▸ survivors.entries_set_middle [] (0, rstop) same
      · exact Tiled.cons_iff.mpr ⟨rfl, by simp only at wide ⊢; omega, later⟩
  · rw [List.concat_eq_append] at *
    obtain ⟨earlier, wide, ends⟩ := Tiled.concat_iff.mp left
    simp only at earlier wide ends
    cases after with
    | nil =>
      obtain rfl : stop + 1 = numLayers := right
      have set : applied survivors (absorb start stop (stop - start + 1)
          (.some (lid, lstart, lstop)) none) = survivors.set lid (lstart, stop) := by
        simp [applied, absorb, show max lstop (start + (stop - start + 1) - 1) = stop by omega]
      rw [List.append_nil] at same
      refine ⟨stop - start + 1, by simp [leftShare], by simp [absorb],
        front ++ [(lid, lstart, stop)], ?_, ?_, by simp⟩
      · simpa [set] using survivors.entries_set_middle front (lstart, stop) same
      · exact Tiled.concat_iff.mpr ⟨earlier, by simp only; omega, rfl⟩
    | cons r rest =>
      obtain ⟨rid, rstart, rstop⟩ := r
      obtain ⟨share, shares, low, high⟩ := leftShare_between left some right
      obtain ⟨rfl, r_wide, later⟩ := Tiled.cons_iff.mp right
      have set : applied survivors (absorb start stop share (.some (lid, lstart, lstop))
          (.some (rid, stop + 1, rstop))) =
            (survivors.set lid (lstart, start + share - 1)).set rid (start + share, rstop) := by
        simp [applied, absorb, show max lstop (start + share - 1) = start + share - 1 by omega,
          show min (stop + 1) (start + share) = start + share by omega]
      refine ⟨share, by simpa using shares, by simp [absorb],
        front ++ (lid, lstart, start + share - 1) :: (rid, start + share, rstop) :: rest, ?_, ?_,
        by simp⟩
      · have first := survivors.entries_set_middle front (lstart, start + share - 1)
          (by simpa using same)
        have both := (survivors.set lid (lstart, start + share - 1)).entries_set_middle
          (front ++ [(lid, lstart, start + share - 1)]) (start + share, rstop) (by simpa using first)
        simpa [set] using both
      · apply Tiled.append_iff.mpr
        refine ⟨lstart, earlier, ?_⟩
        apply Tiled.cons_iff.mpr
        refine ⟨rfl, by simp only; omega, ?_⟩
        apply Tiled.cons_iff.mpr
        exact ⟨by simp only; omega, by simp only at r_wide ⊢; omega, later⟩

namespace NodeRecoveryManager

variable {mgr : NodeRecoveryManager} {failed : String} {around : Surroundings}

theorem recoverSequences_frame (mgr : NodeRecoveryManager) (failed : String)
    (around : Surroundings) :
    let after := (mgr.recoverSequences failed around).1
    after.layerAssignments = mgr.layerAssignments ∧ after.dryRun = mgr.dryRun ∧
      after.deadNodes = mgr.deadNodes ∧ after.draining = mgr.draining := by
  simp only [recoverSequences]
  split
  · split
    · exact ⟨rfl, rfl, rfl, rfl⟩
    · split <;> exact ⟨rfl, rfl, rfl, rfl⟩
  · exact ⟨rfl, rfl, rfl, rfl⟩

variable {after : NodeRecoveryManager}

theorem redistributeLayers_frame {redistributions : List LayerRedistribution}
    (returns : mgr.redistributeLayers failed = .ok (after, redistributions)) :
    after.dryRun = mgr.dryRun ∧ after.deadNodes = mgr.deadNodes ∧
      after.draining = mgr.draining := by
  simp only [redistributeLayers] at returns
  split at returns
  · cases returns
    exact ⟨rfl, rfl, rfl⟩
  · obtain ⟨planned, _, returns⟩ := bind_eq_ok_iff.mp returns
    split at returns <;> cases returns <;> exact ⟨rfl, rfl, rfl⟩

theorem redistributeLayers_of_absent (absent : mgr.layerAssignments.get? failed = none) :
    mgr.redistributeLayers failed = .ok (mgr, []) := by
  simp only [redistributeLayers, absent]

theorem redistributeLayers_tiles {range : LayerRange} (real : mgr.dryRun = false)
    (tiles : TilesLayers mgr.layerAssignments numLayers)
    (found : mgr.layerAssignments.get? failed = some range)
    (survivor : ∃ n ∈ mgr.layerAssignments.keys, n ≠ failed) :
    ∃ after redistributions, mgr.redistributeLayers failed = .ok (after, redistributions) ∧
      TilesLayers after.layerAssignments numLayers ∧ after.dryRun = false ∧
      ∀ n, n ∈ after.layerAssignments.keys ↔ n ∈ mgr.layerAssignments.keys ∧ n ≠ failed := by
  obtain ⟨nodes, same, tiled⟩ := tiles
  obtain ⟨start, stop⟩ := range
  have member : (failed, start, stop) ∈ nodes :=
    same.mem_iff.mpr ((mgr.layerAssignments.mem_entries_iff _ _).mpr found)
  obtain ⟨before, after, rfl⟩ := List.append_of_mem member
  obtain ⟨left, wide, right⟩ := tiled.sides
  have others : (before ++ after).Perm
      (mgr.layerAssignments.filterKeys fun nid => decide (nid ≠ failed)).entries :=
    (mgr.layerAssignments.filterKeys_perm (same.symm.trans List.perm_middle)).symm
  have some : before ++ after ≠ [] := by
    intro empty
    obtain ⟨n, inside, other⟩ := survivor
    obtain ⟨r, entry⟩ := mgr.layerAssignments.mem_keys_iff.mp inside
    have kept : (n, r) ∈ (mgr.layerAssignments.filterKeys fun nid => decide (nid ≠ failed)).entries := by
      rw [Dict.mem_entries_iff, Dict.get?_filterKeys, entry]
      simp [other]
    rw [← others.mem_iff, empty] at kept
    cases kept
  obtain ⟨share, shares, carried, nodes, perm, tiled, ids⟩ :=
    absorb_tiles others left wide right some
  let redistributions := absorb start stop share before.getLast? after.head?
  refine ⟨(mgr.flagWeightReloads redistributions).setLayerAssignments
    (mgr.refreshedAssignments failed redistributions), redistributions, ?_, ⟨nodes, perm, tiled⟩,
    real, ?_⟩
  · simp only [redistributeLayers, found, computeRedistributions_eq others left wide right some,
      shares, Except.map]
    simp only [bind, Except.bind, carried, real, ne_eq, not_false_eq_true, and_self, if_true]
    rfl
  · intro n
    have listed : n ∈ (mgr.refreshedAssignments failed redistributions).keys ↔
        n ∈ (mgr.layerAssignments.filterKeys fun nid => decide (nid ≠ failed)).keys := by
      rw [Dict.keys, Dict.keys, ← (others.map Prod.fst).mem_iff, ← ids]
      exact (perm.map Prod.fst).symm.mem_iff
    rw [show ((mgr.flagWeightReloads redistributions).setLayerAssignments
      (mgr.refreshedAssignments failed redistributions)).layerAssignments =
        mgr.refreshedAssignments failed redistributions from rfl, listed, Dict.mem_keys_iff,
      Dict.mem_keys_iff]
    simp only [Dict.get?_filterKeys, decide_eq_true_eq, Option.ite_none_right_eq_some]
    constructor
    · rintro ⟨v, other, entry⟩
      exact ⟨⟨v, entry⟩, other⟩
    · rintro ⟨⟨v, entry⟩, other⟩
      exact ⟨v, other, entry⟩

theorem onNodeFailure_cases {plan : NodeRecoveryPlan}
    (handled : mgr.onNodeFailure failed around = (after, .ok plan)) :
    ((failed ∈ mgr.deadNodes ∨ failed ∈ mgr.draining) ∧ after = mgr) ∨
    ¬(failed ∈ mgr.deadNodes ∨ failed ∈ mgr.draining) ∧ ∃ redistributed,
      ((mgr.markFailed failed).recoverSequences failed around).1.redistributeLayers failed =
        .ok (redistributed, plan.redistributions) ∧ after = redistributed.record plan around := by
  simp only [onNodeFailure] at handled
  split at handled
  · next known =>
    cases handled
    exact .inl ⟨known, rfl⟩
  · next unknown =>
    right
    refine ⟨unknown, ?_⟩
    split at handled
    · cases handled
    · split at handled
      · cases handled
      · next redistributed redistributions returns =>
        cases handled
        exact ⟨redistributed, returns, rfl⟩

/-! ### Any number of failures -/

/-- What is left of the ranges after some nodes failed, as long as others have survived. -/
structure Recovered (initial : Dict String LayerRange) (numLayers : Int) (failures : List String)
    (mgr : NodeRecoveryManager) : Prop where
  real : mgr.dryRun = false
  dead : ∀ n, n ∈ mgr.deadNodes ↔ n ∈ failures
  draining : ∀ n, n ∈ mgr.draining ↔ n ∈ failures
  ranges : (∃ n ∈ initial.keys, n ∉ failures) →
    TilesLayers mgr.layerAssignments numLayers ∧
      ∀ n, n ∈ mgr.layerAssignments.keys ↔ n ∈ initial.keys ∧ n ∉ failures

variable {initial : Dict String LayerRange}

section

variable {failures : List String} (recovered : Recovered initial numLayers failures mgr)

include recovered

theorem Recovered.failure {plan : NodeRecoveryPlan}
    (handled : mgr.onNodeFailure failed around = (after, .ok plan)) :
    Recovered initial numLayers (failures ++ [failed]) after := by
  rcases onNodeFailure_cases handled with ⟨known, rfl⟩ | ⟨unknown, redistributed, returns, rfl⟩
  · have again : failed ∈ failures := by
      rcases known with dead | draining
      · exact (recovered.dead failed).mp dead
      · exact (recovered.draining failed).mp draining
    have same : ∀ n, n ∈ failures ++ [failed] ↔ n ∈ failures := by
      intro n
      rw [List.mem_append, List.mem_singleton]
      exact ⟨fun h => h.elim id fun h => h ▸ again, .inl⟩
    constructor
    case real => exact recovered.real
    case dead => exact fun n => (recovered.dead n).trans (same n).symm
    case draining => exact fun n => (recovered.draining n).trans (same n).symm
    case ranges => simpa only [same] using recovered.ranges
  · obtain ⟨ranges, dryRun, dead, draining⟩ :=
      (mgr.markFailed failed).recoverSequences_frame failed around
    obtain ⟨dryRun', dead', draining'⟩ := redistributeLayers_frame returns
    have real : ((mgr.markFailed failed).recoverSequences failed around).1.dryRun = false :=
      dryRun.trans recovered.real
    constructor
    case real => exact dryRun'.trans real
    case dead =>
      intro n
      show n ∈ redistributed.deadNodes ↔ _
      rw [dead', dead, List.mem_append, List.mem_singleton, or_comm, ← recovered.dead n]
      exact Finset.mem_insert
    case draining =>
      intro n
      show n ∈ redistributed.draining ↔ _
      rw [draining', draining, List.mem_append, List.mem_singleton, or_comm,
        ← recovered.draining n]
      exact Finset.mem_insert
    case ranges =>
      rintro ⟨m, known, alive⟩
      rw [List.mem_append, List.mem_singleton, not_or] at alive
      obtain ⟨tiles, nodes⟩ := recovered.ranges ⟨m, known, alive.1⟩
      have kept : ((mgr.markFailed failed).recoverSequences failed around).1.layerAssignments =
          mgr.layerAssignments := ranges
      show TilesLayers redistributed.layerAssignments numLayers ∧
        ∀ n, n ∈ redistributed.layerAssignments.keys ↔ _
      simp only [List.mem_append, List.mem_singleton, not_or, ← and_assoc, ← nodes]
      cases found : mgr.layerAssignments.get? failed with
      | none =>
        -- a node without a range
        have same := redistributeLayers_of_absent (show _ = none by rw [kept]; exact found)
        obtain ⟨rfl, _⟩ := Prod.mk.inj (Except.ok.inj (same.symm.trans returns))
        rw [kept]
        refine ⟨tiles, fun n => ⟨fun inside => ⟨inside, ?_⟩, And.left⟩⟩
        rintro rfl
        obtain ⟨range, entry⟩ := mgr.layerAssignments.mem_keys_iff.mp inside
        rw [found] at entry
        cases entry
      | some range =>
        obtain ⟨after, redistributions, carried, tiles', _, keys⟩ := redistributeLayers_tiles real
          (kept ▸ tiles) (by rw [kept]; exact found)
          ⟨m, by rw [kept]; exact (nodes m).mpr ⟨known, alive.1⟩, alive.2⟩
        cases carried.symm.trans returns
        rw [kept] at keys
        exact ⟨tiles', keys⟩

theorem Recovered.handles (failed : String) (around : Surroundings)
    (survivor : ∃ n ∈ initial.keys, n ∉ failures ++ [failed]) (quiet : around.drainRaises = false) :
    ∃ after plan, mgr.onNodeFailure failed around = (after, .ok plan) := by
  simp only [onNodeFailure, quiet, Bool.and_false, Bool.false_eq_true, if_false]
  split
  · exact ⟨_, _, rfl⟩
  · obtain ⟨m, known, alive⟩ := survivor
    rw [List.mem_append, List.mem_singleton, not_or] at alive
    obtain ⟨tiles, nodes⟩ := recovered.ranges ⟨m, known, alive.1⟩
    obtain ⟨kept, dryRun, _, _⟩ := (mgr.markFailed failed).recoverSequences_frame failed around
    have returns : ∃ redistributed redistributions,
        ((mgr.markFailed failed).recoverSequences failed around).1.redistributeLayers failed =
          .ok (redistributed, redistributions) := by
      cases found : mgr.layerAssignments.get? failed with
      | none => exact ⟨_, _, redistributeLayers_of_absent (by rw [kept]; exact found)⟩
      | some range =>
        obtain ⟨after, redistributions, carried, _⟩ := redistributeLayers_tiles
          (dryRun.trans recovered.real) (kept ▸ tiles) (by rw [kept]; exact found)
          ⟨m, by rw [kept]; exact (nodes m).mpr ⟨known, alive.1⟩, alive.2⟩
        exact ⟨after, redistributions, carried⟩
    obtain ⟨redistributed, redistributions, carried⟩ := returns
    simp only [carried]
    exact ⟨_, _, rfl⟩

end

/-- The failures one after the other, as long as each of them is handled: the call returns a plan. -/
def handleFailures (mgr : NodeRecoveryManager) (failures : List (String × Surroundings)) :
    Except RecoveryError NodeRecoveryManager :=
  failures.foldlM (fun mgr (failed, around) =>
    match mgr.onNodeFailure failed around with
    | (after, .ok _) => .ok after
    | (_, .error raised) => .error raised) mgr

/-- A manager that has not handled a failure yet. -/
structure Fresh (mgr : NodeRecoveryManager) : Prop where
  real : mgr.dryRun = false
  dead : mgr.deadNodes = ∅
  draining : mgr.draining = ∅

theorem Fresh.recovered (fresh : mgr.Fresh) (tiles : TilesLayers mgr.layerAssignments numLayers) :
    Recovered mgr.layerAssignments numLayers [] mgr := by
  constructor
  case real => exact fresh.real
  case dead => simp [fresh.dead]
  case draining => simp [fresh.draining]
  case ranges => simp [tiles]

section

variable {seen : List String} (failures : List (String × Surroundings))
  (recovered : Recovered initial numLayers seen mgr)

include failures recovered

theorem Recovered.handleFailures (handled : mgr.handleFailures failures = .ok after) :
    Recovered initial numLayers (seen ++ failures.map Prod.fst) after := by
  induction failures generalizing seen mgr with
  | nil =>
    cases handled
    simpa using recovered
  | cons failure rest ih =>
    obtain ⟨failed, around⟩ := failure
    rw [NodeRecoveryManager.handleFailures, List.foldlM_cons] at handled
    obtain ⟨next, first, later⟩ := bind_eq_ok_iff.mp handled
    simp only at first
    split at first
    · next middle plan once =>
      cases first
      simpa using ih (recovered.failure once) later
    · cases first

theorem Recovered.handlesAll (survivor : ∃ n ∈ initial.keys, n ∉ seen ++ failures.map Prod.fst)
    (quiet : ∀ failure ∈ failures, failure.2.drainRaises = false) :
    ∃ after, mgr.handleFailures failures = .ok after := by
  induction failures generalizing seen mgr with
  | nil => exact ⟨mgr, rfl⟩
  | cons failure rest ih =>
    obtain ⟨failed, around⟩ := failure
    obtain ⟨n, known, alive⟩ := survivor
    obtain ⟨next, plan, once⟩ := recovered.handles failed around
      ⟨n, known, by simp_all⟩ (quiet _ List.mem_cons_self)
    obtain ⟨after, later⟩ := ih (recovered.failure once) ⟨n, known, by simpa using alive⟩
      fun failure inside => quiet failure (List.mem_cons_of_mem _ inside)
    refine ⟨after, ?_⟩
    rw [NodeRecoveryManager.handleFailures, List.foldlM_cons]
    simp only [once]
    exact later

end

/-- After any failures that were handled, if a node has survived, the ranges of the survivors tile the
layers and no failed node has one. -/
theorem handleFailures_tiles (mgr after : NodeRecoveryManager) (numLayers : Int)
    (failures : List (String × Surroundings)) (fresh : mgr.Fresh)
    (tiles : TilesLayers mgr.layerAssignments numLayers)
    (handled : mgr.handleFailures failures = .ok after)
    (survivor : ∃ n ∈ mgr.layerAssignments.keys, n ∉ failures.map Prod.fst) :
    TilesLayers after.layerAssignments numLayers ∧ ∀ n, n ∈ after.layerAssignments.keys ↔
        n ∈ mgr.layerAssignments.keys ∧ n ∉ failures.map Prod.fst :=
  ((fresh.recovered tiles).handleFailures failures handled).ranges survivor

def threeNodes : NodeRecoveryManager where
  layerAssignments :=
    (((∅ : Dict String LayerRange).set "a" (0, 3)).set "b" (4, 7)).set "c" (8, 11)

theorem threeNodes_tiles : TilesLayers threeNodes.layerAssignments 12 :=
  ⟨[("a", 0, 3), ("b", 4, 7), ("c", 8, 11)], List.Perm.refl _, by decide⟩

/-- The middle one fails, then the first. -/
theorem threeNodes_failures : ∃ after,
    threeNodes.handleFailures [("b", {}), ("a", {})] = .ok after ∧
      TilesLayers after.layerAssignments 12 ∧
      ∀ n, n ∈ after.layerAssignments.keys ↔ n ∈ threeNodes.layerAssignments.keys ∧
        n ∉ [("b", ({} : Surroundings)), ("a", {})].map Prod.fst := by
  have fresh : threeNodes.Fresh := ⟨rfl, rfl, rfl⟩
  have survivor : ∃ n ∈ threeNodes.layerAssignments.keys,
      n ∉ [("b", ({} : Surroundings)), ("a", {})].map Prod.fst := ⟨"c", by decide, by decide⟩
  obtain ⟨after, handled⟩ := (fresh.recovered threeNodes_tiles).handlesAll
    [("b", {}), ("a", {})] (by simpa using survivor) (by simp)
  exact ⟨after, handled, handleFailures_tiles threeNodes after 12 _ fresh threeNodes_tiles handled
    survivor⟩

/-! ### Dry runs

A dry run marks the node as draining and dead as a real failure does, and nothing takes that back:
when the node really fails later, the call returns at once. -/

/-- A dry run leaves the manager as it is, and each failure afterwards is handled as without it. -/
structure Harmless (mgr : NodeRecoveryManager) (failed : String) (around : Surroundings) : Prop where
  state : (mgr.dryRunRecovery failed around).1 = mgr
  later : ∀ node around',
    ((mgr.dryRunRecovery failed around).1.onNodeFailure node around').2 =
      (mgr.onNodeFailure node around').2 ∧
    ((mgr.dryRunRecovery failed around).1.onNodeFailure node around').1.layerAssignments =
      (mgr.onNodeFailure node around').1.layerAssignments

theorem dryRunRecovery_known (around : Surroundings)
    (known : failed ∈ mgr.deadNodes ∨ failed ∈ mgr.draining) :
    mgr.dryRunRecovery failed around = (mgr, .ok { failedNodeId := failed }) := by
  simp [dryRunRecovery, onNodeFailure, known]

theorem redistributeLayers_dry {after : NodeRecoveryManager}
    {redistributions : List LayerRedistribution} (dry : mgr.dryRun = true)
    (returns : mgr.redistributeLayers failed = .ok (after, redistributions)) : after = mgr := by
  simp only [redistributeLayers, dry] at returns
  split at returns
  · cases returns
    rfl
  · obtain ⟨planned, _, returns⟩ := bind_eq_ok_iff.mp returns
    simp only [Bool.true_eq_false, and_false, if_false] at returns
    cases returns
    rfl

theorem dryRunRecovery_unknown (around : Surroundings)
    (unknown : ¬(failed ∈ mgr.deadNodes ∨ failed ∈ mgr.draining)) :
    let after := (mgr.dryRunRecovery failed around).1
    after.draining = insert failed mgr.draining ∧ after.deadNodes = insert failed mgr.deadNodes ∧
      after.layerAssignments = mgr.layerAssignments := by
  obtain ⟨ranges, dryRun, dead, draining⟩ :=
    ({ mgr with dryRun := true }.markFailed failed).recoverSequences_frame failed around
  simp only [dryRunRecovery, onNodeFailure, unknown, if_false, Bool.not_true, Bool.and_false,
    Bool.false_and, Bool.false_eq_true]
  cases returns : (({ mgr with dryRun := true }.markFailed failed).recoverSequences failed
      around).1.redistributeLayers failed with
  | error raised => exact ⟨draining, dead, ranges⟩
  | ok result =>
    have same := redistributeLayers_dry dryRun returns
    simp only [record, same]
    exact ⟨draining, dead, ranges⟩

theorem onNodeFailure_after_dryRun (mgr : NodeRecoveryManager) (failed : String)
    (around around' : Surroundings) :
    let after := (mgr.dryRunRecovery failed around).1
    after.onNodeFailure failed around' = (after, .ok { failedNodeId := failed }) := by
  by_cases known : failed ∈ mgr.deadNodes ∨ failed ∈ mgr.draining
  · simp [dryRunRecovery_known around known, onNodeFailure, known]
  · obtain ⟨_, dead, _⟩ := dryRunRecovery_unknown around known
    simp [onNodeFailure, dead]

/-- A dry run is harmless exactly for a node that is already being recovered. -/
theorem harmless_iff (mgr : NodeRecoveryManager) (failed : String) (around : Surroundings) :
    mgr.Harmless failed around ↔ failed ∈ mgr.deadNodes ∨ failed ∈ mgr.draining := by
  constructor
  · intro harmless
    by_contra unknown
    obtain ⟨draining, _⟩ := dryRunRecovery_unknown around unknown
    rw [harmless.state] at draining
    exact unknown (.inr (draining ▸ Finset.mem_insert_self failed mgr.draining))
  · intro known
    have same := dryRunRecovery_known around known
    constructor
    case state => rw [same]
    case later =>
      intro node around'
      rw [same]
      exact ⟨rfl, rfl⟩

/-- The middle one of three nodes: when it fails its neighbours take its layers, but not after a dry
run of that. -/
theorem dryRun_blocks_recovery : ¬threeNodes.Harmless "b" {} ∧
    (∃ after plan, threeNodes.onNodeFailure "b" {} = (after, .ok plan) ∧
      "b" ∉ after.layerAssignments.keys) ∧
    ((threeNodes.dryRunRecovery "b" {}).1.onNodeFailure "b" {}).2 = .ok { failedNodeId := "b" } ∧
    "b" ∈ ((threeNodes.dryRunRecovery "b" {}).1.onNodeFailure "b" {}).1.layerAssignments.keys := by
  have unknown : ¬("b" ∈ threeNodes.deadNodes ∨ "b" ∈ threeNodes.draining) := by decide
  obtain ⟨draining, _, ranges⟩ := dryRunRecovery_unknown {} unknown
  have blocked := onNodeFailure_after_dryRun threeNodes "b" {} {}
  constructor
  · intro harmless
    rw [harmless.state] at draining
    exact absurd draining (by decide)
  · constructor
    · have fresh : threeNodes.Fresh := ⟨rfl, rfl, rfl⟩
      have recovered := fresh.recovered threeNodes_tiles
      obtain ⟨after, plan, handled⟩ := recovered.handles "b" {} ⟨"a", by decide, by decide⟩ rfl
      obtain ⟨_, keys⟩ := (recovered.failure handled).ranges ⟨"a", by decide, by decide⟩
      exact ⟨after, plan, handled, fun kept => by simpa using ((keys "b").mp kept).2⟩
    · rw [blocked]
      refine ⟨rfl, ?_⟩
      simp only [ranges]
      decide

end NodeRecoveryManager

end DistLLM.Recovery
