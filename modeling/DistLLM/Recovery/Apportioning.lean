import DistLLM.Library.Counts
import DistLLM.Recovery.Planning
import Mathlib.Algebra.BigOperators.Ring.Finset

/-!
# What the apportioning adds up to

The counts of `_largest_remainder_split` add up to the total, and none is below its exact share
rounded down. A layout by such counts has each layer of the span in one range.
-/
namespace DistLLM.Recovery

open DistLLM.Library

variable (total : Nat)

theorem sum_extra (base extra n : Nat) :
    ((List.range n).map fun i => base + if i < extra then 1 else 0).sum =
      n * base + min extra n := by
  induction n with
  | zero => simp
  | succ n ih =>
    rw [List.range_succ, List.map_append, List.sum_append, ih, List.map_singleton,
      List.sum_singleton, Nat.succ_mul]
    split <;> omega

variable {nids : List String}

theorem equalSplit_entries (distinct : nids.Nodup) :
    (equalSplit total nids).entries = (nids.mergeSort (· ≤ ·)).zipIdx.map fun (nid, i) =>
      (nid, total / nids.length + if i < total % nids.length then 1 else 0) := by
  have once : (nids.mergeSort (· ≤ ·)).Nodup := (List.mergeSort_perm nids _).nodup_iff.mpr distinct
  have keys : (nids.mergeSort (· ≤ ·)).zipIdx.map Prod.fst = nids.mergeSort (· ≤ ·) :=
    List.zipIdx_map_fst 0 _
  have filled := Dict.entries_foldl_set (κ := String) Prod.fst
    (fun p : String × Nat => total / nids.length + if p.2 < total % nids.length then 1 else 0)
    (nids.mergeSort (· ≤ ·)).zipIdx ∅ (by rw [keys]; exact once)
  exact filled

theorem equalSplit_keys (distinct : nids.Nodup) :
    (equalSplit total nids).keys.Perm nids := by
  rw [Dict.keys, equalSplit_entries total distinct, List.map_map]
  have keys : (nids.mergeSort (· ≤ ·)).zipIdx.map Prod.fst = nids.mergeSort (· ≤ ·) :=
    List.zipIdx_map_fst 0 _
  exact (List.Perm.of_eq keys).trans (List.mergeSort_perm nids _)

theorem equalSplit_sum (distinct : nids.Nodup)
    (some : nids ≠ []) : (equalSplit total nids).values.sum = total := by
  have positive : 0 < nids.length := List.length_pos_iff.mpr some
  have places : (nids.mergeSort (· ≤ ·)).zipIdx.map Prod.snd = List.range nids.length := by
    rw [List.zipIdx_map_snd, List.length_mergeSort, List.range_eq_range']
  have counts : (equalSplit total nids).values =
      (List.range nids.length).map fun i =>
        total / nids.length + if i < total % nids.length then 1 else 0 := by
    rw [Dict.values, equalSplit_entries total distinct, ← places, List.map_map, List.map_map]
    rfl
  rw [counts, sum_extra, min_eq_left (Nat.mod_lt _ positive).le]
  exact Nat.div_add_mod total nids.length

/-! ### Largest remainders -/

def totalWeight (weights : Dict String ℚ) : ℚ := (weights.values.map (max 0)).sum

def floors (weights : Dict String ℚ) : Dict String Nat :=
  weights.entries.foldl (fun counts (nid, weight) =>
    counts.set nid ⌊exactShare total (totalWeight weights) weight⌋.toNat) ∅

def leftovers (weights : Dict String ℚ) : List String :=
  let order := remainderOrder total (totalWeight weights) weights
  (List.range (total - (floors total weights).values.sum)).map fun i =>
    order.getD (i % order.length) ""

variable {weights : Dict String ℚ}

theorem largestRemainderSplit_eq {total : Nat} (positive : 0 < totalWeight weights) :
    largestRemainderSplit total weights =
      (leftovers total weights).foldl (fun counts nid => counts.set nid (counts.getD nid 0 + 1))
        (floors total weights) := by
  have some : weights.entries ≠ [] := by
    rintro none
    simp [totalWeight, Dict.values, none] at positive
  rw [leftovers, List.foldl_map]
  exact (if_neg some).trans (if_neg (not_le.mpr positive))

theorem floors_entries (weights : Dict String ℚ) :
    (floors total weights).entries = weights.entries.map fun (nid, weight) =>
      (nid, ⌊exactShare total (totalWeight weights) weight⌋.toNat) :=
  Dict.entries_foldl_set (κ := String) Prod.fst
    (fun entry : String × ℚ => ⌊exactShare total (totalWeight weights) entry.2⌋.toNat)
    weights.entries ∅ weights.distinct

theorem floors_keys (weights : Dict String ℚ) : (floors total weights).keys = weights.keys := by
  rw [Dict.keys, floors_entries, List.map_map]
  rfl

variable {nid : String}

theorem floors_getD {total : Nat} {weight : ℚ}
    (member : (nid, weight) ∈ weights.entries) : (floors total weights).getD nid 0 =
      ⌊exactShare total (totalWeight weights) weight⌋.toNat := by
  have listed : (nid, ⌊exactShare total (totalWeight weights) weight⌋.toNat) ∈
      (floors total weights).entries := by
    rw [floors_entries]
    exact List.mem_map.mpr ⟨_, member, rfl⟩
  rw [Dict.getD, ((floors total weights).mem_entries_iff _ _).mp listed]
  rfl

theorem sum_exactShare (positive : 0 < totalWeight weights) :
    (weights.entries.map fun entry => exactShare total (totalWeight weights) entry.2).sum =
      total := by
  have scaled (entry : String × ℚ) : exactShare total (totalWeight weights) entry.2 =
      total / totalWeight weights * max 0 entry.2 := by
    rw [exactShare]
    ring
  have whole : (weights.entries.map fun entry => max 0 entry.2).sum = totalWeight weights := by
    rw [totalWeight, Dict.values, List.map_map]
    rfl
  simp only [scaled]
  rw [List.sum_map_mul_left, whole]
  field_simp

theorem floors_sum_le
    (positive : 0 < totalWeight weights) : (floors total weights).values.sum ≤ total := by
  have below : ((floors total weights).values.sum : ℚ) ≤ total := by
    rw [← sum_exactShare total positive, Dict.values, floors_entries, List.map_map,
      Nat.cast_list_sum, List.map_map]
    refine List.sum_le_sum fun entry _ => ?_
    have nonneg : 0 ≤ exactShare total (totalWeight weights) entry.2 :=
      div_nonneg (mul_nonneg (Nat.cast_nonneg _) (le_max_left _ _)) positive.le
    have floor : ((⌊exactShare total (totalWeight weights) entry.2⌋.toNat : Int) : ℚ) ≤
        exactShare total (totalWeight weights) entry.2 := by
      rw [Int.toNat_of_nonneg (Int.floor_nonneg.mpr nonneg)]
      exact Int.floor_le _
    exact_mod_cast floor
  exact_mod_cast below

theorem leftovers_mem {total : Nat} (some : weights.entries ≠ [])
    (member : nid ∈ leftovers total weights) : nid ∈ weights.keys := by
  obtain ⟨i, _, rfl⟩ := List.mem_map.mp member
  have perm : (remainderOrder total (totalWeight weights) weights).Perm weights.keys :=
    (List.mergeSort_perm weights.entries _).map Prod.fst
  have length : (remainderOrder total (totalWeight weights) weights).length =
      weights.entries.length := perm.length_eq.trans (List.length_map _)
  have inside : i % (remainderOrder total (totalWeight weights) weights).length <
      (remainderOrder total (totalWeight weights) weights).length := by
    refine Nat.mod_lt _ ?_
    rw [length]
    exact List.length_pos_iff.mpr some
  rw [← perm.mem_iff, List.getD_eq_getElem?_getD, List.getElem?_eq_getElem inside]
  exact List.getElem_mem inside

theorem largestRemainderSplit_total (some : weights.entries ≠ []) :
    (largestRemainderSplit total weights).keys.Perm weights.keys ∧
      (largestRemainderSplit total weights).values.sum = total := by
  by_cases positive : 0 < totalWeight weights
  · rw [largestRemainderSplit_eq positive]
    constructor
    · rw [(Dict.foldl_increment _ _ fun nid member => ?_).1, floors_keys]
      rw [floors_keys]
      exact leftovers_mem some member
    · have below := floors_sum_le total positive
      rw [Dict.sum_foldl_increment, leftovers, List.length_map, List.length_range]
      omega
  · have equal : largestRemainderSplit total weights = equalSplit total weights.keys :=
      (if_neg some).trans (if_pos (not_lt.mp positive))
    rw [equal]
    refine ⟨equalSplit_keys total weights.distinct, equalSplit_sum total weights.distinct ?_⟩
    exact fun none => some (List.map_eq_nil_iff.mp none)

theorem floor_le_largestRemainderSplit (positive : 0 < totalWeight weights) {weight : ℚ}
    (member : (nid, weight) ∈ weights.entries) :
    ⌊exactShare total (totalWeight weights) weight⌋.toNat ≤
      (largestRemainderSplit total weights).getD nid 0 := by
  have some : weights.entries ≠ [] := List.ne_nil_of_mem member
  have inside : ∀ nid ∈ leftovers total weights, nid ∈ (floors total weights).keys := by
    intro nid listed
    rw [floors_keys]
    exact leftovers_mem some listed
  rw [largestRemainderSplit_eq positive, (Dict.foldl_increment _ _ inside).2, floors_getD member]
  exact Nat.le_add_right _ _

theorem largestRemainderSplit_le {total : Nat} {other : String} {weight more : Int}
    (entries : weights.entries.Perm [(nid, (weight : ℚ)), (other, (more : ℚ))])
    (positive : 0 < weight) (positive' : 0 < more) (enough : (total : Int) ≤ weight + more) :
    ((largestRemainderSplit total weights).getD nid 0 : Int) ≤ weight := by
  have nonneg : (0 : ℚ) ≤ weight := by exact_mod_cast positive.le
  have nonneg' : (0 : ℚ) ≤ more := by exact_mod_cast positive'.le
  have both : totalWeight weights = weight + more := by
    rw [totalWeight, Dict.values, ((entries.map Prod.snd).map (max 0)).sum_eq]
    simp [max_eq_right nonneg, max_eq_right nonneg']
  have sum_pos : 0 < totalWeight weights := by
    have added : (0 : ℚ) < (weight + more : Int) := by exact_mod_cast by omega
    rw [both]
    exact_mod_cast added
  have some : weights.entries ≠ [] := by
    intro none
    rw [none] at entries
    exact absurd entries.length_eq (by simp)
  obtain ⟨keys, sum⟩ := largestRemainderSplit_total total some
  have counts : (largestRemainderSplit total weights).getD nid 0 +
      (largestRemainderSplit total weights).getD other 0 = total := by
    have added := Dict.sum_getD_of_perm _ ((entries.map Prod.fst).symm.trans keys.symm)
    simpa using added.trans sum
  have least := floor_le_largestRemainderSplit total sum_pos
    (entries.mem_iff.mpr (List.mem_cons_of_mem _ (List.mem_singleton_self _)))
  -- the other one gets at least what this one has no room for
  have share : ((total - weight : Int) : ℚ) ≤ exactShare total (totalWeight weights) more := by
    rw [exactShare, max_eq_right nonneg', both]
    have sum_pos' : (0 : ℚ) < weight + more := both ▸ sum_pos
    have fits : (total : ℚ) ≤ weight + more := by exact_mod_cast enough
    rw [le_div_iff₀ sum_pos']
    push_cast
    nlinarith
  have rest : total - weight ≤ ⌊exactShare total (totalWeight weights) more⌋ :=
    Int.le_floor.mpr share
  omega

/-! ### Quotas -/

theorem remainderOrder_sorted (weights : Dict String ℚ) :
    ∃ sorted : List (String × ℚ), sorted.Perm weights.entries ∧
      remainderOrder total (totalWeight weights) weights = sorted.map Prod.fst ∧
      sorted.Pairwise fun a b => Int.fract (exactShare total (totalWeight weights) b.2) ≤
        Int.fract (exactShare total (totalWeight weights) a.2) := by
  refine ⟨_, List.mergeSort_perm weights.entries _, rfl, ?_⟩
  refine (List.pairwise_mergeSort (fun a b c => ?_) (fun a b => ?_) _).imp fun {a b} ordered => ?_
  · simp only [Bool.or_eq_true, Bool.and_eq_true, decide_eq_true_eq]
    rintro (first | ⟨first, keys⟩) (second | ⟨second, keys'⟩)
    · exact .inl (second.trans first)
    · exact .inl (second ▸ first)
    · exact .inl (first ▸ second)
    · exact .inr ⟨second.trans first, String.le_trans keys' keys⟩
  · simp only [Bool.or_eq_true, Bool.and_eq_true, decide_eq_true_eq]
    rcases lt_trichotomy (Int.fract (exactShare total (totalWeight weights) a.2))
      (Int.fract (exactShare total (totalWeight weights) b.2)) with less | equal | more
    · exact .inr (.inl less)
    · exact (String.le_total (sortKey b.1) (sortKey a.1)).imp
        (fun keys => .inr ⟨equal.symm, keys⟩) fun keys => .inr ⟨equal, keys⟩
    · exact .inl (.inl more)
  · simp only [Bool.or_eq_true, Bool.and_eq_true, decide_eq_true_eq] at ordered
    rcases ordered with less | ⟨equal, -⟩
    · exact less.le
    · exact equal.le

theorem sum_fract (positive : 0 < totalWeight weights) : (weights.entries.map fun entry =>
      Int.fract (exactShare total (totalWeight weights) entry.2)).sum =
        ((total - (floors total weights).values.sum : Nat) : ℚ) := by
  have split : (weights.entries.map fun entry =>
      exactShare total (totalWeight weights) entry.2).sum =
      ((floors total weights).values.sum : ℚ) + (weights.entries.map fun entry =>
        Int.fract (exactShare total (totalWeight weights) entry.2)).sum := by
    rw [Dict.values, floors_entries, List.map_map, Nat.cast_list_sum, List.map_map,
      ← List.sum_map_add]
    refine congrArg List.sum (List.map_congr_left fun entry _ => ?_)
    have nonneg : 0 ≤ exactShare total (totalWeight weights) entry.2 :=
      div_nonneg (mul_nonneg (Nat.cast_nonneg _) (le_max_left _ _)) positive.le
    have whole : ((⌊exactShare total (totalWeight weights) entry.2⌋.toNat : Nat) : ℚ) =
        ⌊exactShare total (totalWeight weights) entry.2⌋ := by
      exact_mod_cast Int.toNat_of_nonneg (Int.floor_nonneg.mpr nonneg)
    simp only [Function.comp_apply, whole, Int.floor_add_fract]
  rw [sum_exactShare total positive] at split
  rw [Nat.cast_sub (floors_sum_le total positive)]
  linarith

theorem leftovers_spec (positive : 0 < totalWeight weights) :
    (leftovers total weights).Nodup ∧ ∀ nid weight, (nid, weight) ∈ weights.entries →
      nid ∈ leftovers total weights →
        0 < Int.fract (exactShare total (totalWeight weights) weight) := by
  obtain ⟨sorted, perm, order, descending⟩ := remainderOrder_sorted total weights
  let part (entry : String × ℚ) := Int.fract (exactShare total (totalWeight weights) entry.2)
  let left := total - (floors total weights).values.sum
  have parts : (sorted.map part).sum = (left : ℚ) :=
    (perm.map part).sum_eq.trans (sum_fract total positive)
  have below (l : List (String × ℚ)) : (l.map part).sum ≤ l.length := by
    simpa using List.sum_le_card_nsmul (l.map part) 1 fun x member => by
      obtain ⟨entry, -, rfl⟩ := List.mem_map.mp member
      exact (Int.fract_lt_one _).le
  have within : left ≤ sorted.length := by exact_mod_cast parts.symm.trans_le (below sorted)
  have taken : leftovers total weights = (sorted.take left).map Prod.fst := by
    refine List.ext_getElem (by simp [leftovers, left, within]) fun i inside inside' => ?_
    have low : i < left := by simpa [leftovers] using inside
    have short : i < sorted.length := low.trans_le within
    simp [leftovers, order, List.getD, Nat.mod_eq_of_lt, short]
  have distinct : (sorted.map Prod.fst).Nodup :=
    (perm.map Prod.fst).nodup_iff.mpr weights.distinct
  rw [taken]
  refine ⟨distinct.sublist ((List.take_sublist _ _).map _), fun nid weight entry listed => ?_⟩
  obtain ⟨e, front, same⟩ := List.mem_map.mp listed
  obtain ⟨i, inside, rfl⟩ := List.getElem_of_mem front
  rw [List.length_take, lt_min_iff] at inside
  have own : (sorted.take left)[i] = (nid, weight) :=
    List.inj_on_of_nodup_map distinct (List.mem_of_mem_take front) (perm.mem_iff.mpr entry) same
  rw [List.getElem_take] at own
  -- else nobody from here on has a part, and those before have too little
  by_contra none
  have rest : ((sorted.drop i).map part).sum ≤ 0 := by
    have none_later : ∀ x ∈ (sorted.drop i).map part, x ≤ 0 := by
      intro x member
      obtain ⟨e, later, rfl⟩ := List.mem_map.mp member
      obtain ⟨k, place, rfl⟩ := List.getElem_of_mem later
      rw [List.getElem_drop]
      refine le_trans ?_ (not_lt.mp none)
      rcases Nat.eq_zero_or_pos k with rfl | after
      · simp [part, own]
      · have ordered := List.pairwise_iff_getElem.mp descending i (i + k) inside.2
          (by simp at place; omega) (by omega)
        rwa [own] at ordered
    simpa using List.sum_le_card_nsmul _ 0 none_later
  have front_le := below (sorted.take i)
  rw [List.length_take, min_eq_left inside.2.le] at front_le
  have whole : (left : ℚ) ≤ i := by
    rw [← parts, ← List.take_append_drop i sorted, List.map_append, List.sum_append]
    linarith
  exact absurd inside.1 (not_lt.mpr (by exact_mod_cast whole))

/-- **Largest remainders.** The shares add up to the total, each is its exact quota rounded down or
up, and without weight there is none. -/
theorem largestRemainderSplit_quota (weights : Dict String ℚ)
    (nonneg : ∀ weight ∈ weights.values, 0 ≤ weight) (positive : 0 < weights.values.sum) :
    (largestRemainderSplit total weights).values.sum = total ∧
      ∀ nid weight, (nid, weight) ∈ weights.entries →
        let quota := total * weight / weights.values.sum
        let share := (largestRemainderSplit total weights).getD nid 0
        (share = ⌊quota⌋ ∨ share = ⌈quota⌉) ∧ (weight = 0 → share = 0) := by
  have all : totalWeight weights = weights.values.sum := by
    refine congrArg List.sum ((List.map_congr_left fun weight member => ?_).trans (List.map_id _))
    exact max_eq_right (nonneg weight member)
  have some : weights.entries ≠ [] := by
    intro none
    simp [Dict.values, none] at positive
  refine ⟨(largestRemainderSplit_total total some).2, fun nid weight entry => ?_⟩
  have heavy : 0 ≤ weight := nonneg weight (List.mem_map_of_mem (f := Prod.snd) entry)
  have quota : exactShare total (totalWeight weights) weight =
      total * weight / weights.values.sum := by
    rw [exactShare, max_eq_right heavy, all]
  rw [← all] at positive
  obtain ⟨once, parts⟩ := leftovers_spec total positive
  have inside : ∀ nid ∈ leftovers total weights, nid ∈ (floors total weights).keys := by
    intro nid listed
    rw [floors_keys]
    exact leftovers_mem some listed
  dsimp only
  rw [largestRemainderSplit_eq positive, (Dict.foldl_increment _ _ inside).2, floors_getD entry,
    quota]
  have floor_nonneg : 0 ≤ ⌊total * weight / weights.values.sum⌋ := by
    rw [← all]
    exact Int.floor_nonneg.mpr
      (div_nonneg (mul_nonneg (Nat.cast_nonneg _) heavy) positive.le)
  by_cases extra : nid ∈ leftovers total weights
  · have part := quota ▸ parts nid weight entry extra
    rw [List.count_eq_one_of_mem once extra]
    refine ⟨.inr ?_, fun zero => ?_⟩
    · rw [Nat.cast_add, Int.toNat_of_nonneg floor_nonneg, eq_comm, Int.ceil_eq_iff]
      have whole := Int.floor_add_fract (total * weight / weights.values.sum)
      have below := Int.fract_lt_one (total * weight / weights.values.sum)
      push_cast
      constructor <;> linarith
    · simp [zero] at part
  · rw [List.count_eq_zero_of_not_mem extra]
    refine ⟨.inl (by simp [floor_nonneg]), fun zero => by simp [zero]⟩

/-- Seven layers by weights of one, two and none. -/
theorem largestRemainderSplit_quota_seven :
    let weights : Dict String ℚ := ⟨[("a", 1), ("b", 2), ("c", 0)], by decide⟩
    (largestRemainderSplit 7 weights).values.sum = 7 ∧
      (largestRemainderSplit 7 weights).getD "c" 0 = 0 := by
  have shares := largestRemainderSplit_quota 7 ⟨[("a", 1), ("b", 2), ("c", 0)], by decide⟩
    (by decide +kernel) (by decide +kernel)
  exact ⟨shares.1, (shares.2 "c" 0 (by simp)).2 rfl⟩

/-! ### Layouts -/

def LayerRedistribution.adds (r : LayerRedistribution) (layer : Int) : Bool :=
  decide (r.addedStartLayer ≤ layer ∧ layer ≤ r.addedEndLayer)

theorem layOut_adds (counts : Dict String Nat) (survivors : List (String × LayerRange))
    (cursor layer : Int) :
    (layOut counts cursor survivors).countP (fun r => r.adds layer) =
      if cursor ≤ layer ∧
          layer < cursor + (survivors.map fun node => counts.getD node.1 0).sum then 1 else 0 := by
  induction survivors generalizing cursor with
  | nil =>
    rw [if_neg (by simp)]
    rfl
  | cons node rest ih =>
    simp only [layOut, List.map_cons, List.sum_cons]
    by_cases empty : counts.getD node.1 0 = 0
    · rw [if_pos empty, ih, empty, zero_add]
    · rw [if_neg empty, List.countP_cons, ih]
      simp only [LayerRedistribution.adds, decide_eq_true_eq]
      rw [Nat.cast_add]
      split <;> split <;> split <;> omega

variable {survivors : List (String × LayerRange)}

theorem layOut_ids {counts : Dict String Nat} {cursor : Int} {r : LayerRedistribution}
    (member : r ∈ layOut counts cursor survivors) :
    r.survivingNodeId ∈ survivors.map Prod.fst := by
  induction survivors generalizing cursor with
  | nil => cases member
  | cons node rest ih =>
    simp only [layOut] at member
    rw [List.map_cons]
    split at member
    · exact List.mem_cons_of_mem _ (ih member)
    · rcases List.mem_cons.mp member with rfl | later
      · exact List.mem_cons_self ..
      · exact List.mem_cons_of_mem _ (ih later)

/-- Each layer of the range is added to one of the survivors. -/
structure Covers (plan : List LayerRedistribution) (survivors : List String)
    (first last : Int) : Prop where
  once : ∀ layer, first ≤ layer → layer ≤ last → plan.countP (fun r => r.adds layer) = 1
  survivor : ∀ r ∈ plan, r.survivingNodeId ∈ survivors

theorem Covers.mono {plan : List LayerRedistribution} {survivors others : List String}
    {first last first' last' : Int} (covers : Covers plan survivors first last)
    (lower : first ≤ first') (upper : last' ≤ last) (ids : survivors ⊆ others) :
    Covers plan others first' last' where
  once layer low high := covers.once layer (lower.trans low) (high.trans upper)
  survivor r member := ids (covers.survivor r member)

def retilingWeight (weights : Option (Dict String ℚ)) (node : String × LayerRange) : ℚ :=
  match weights with
  | none => ((node.2.2 - node.2.1 + 1 : Int) : ℚ)
  | some given => max 1 (given.getD node.1 1)

theorem retilingRedistributions_covers (distinct : (survivors.map Prod.fst).Nodup)
    (nonempty : survivors ≠ []) {spanStart spanEnd : Int} (weights : Option (Dict String ℚ)) :
    Covers (retilingRedistributions survivors spanStart spanEnd weights)
      (survivors.map Prod.fst) spanStart spanEnd := by
  let weigh := retilingWeight weights
  let weighed : Dict String ℚ := survivors.foldl (fun w node => w.set node.1 (weigh node)) ∅
  have entries : weighed.entries = survivors.map fun node => (node.1, weigh node) :=
    Dict.entries_foldl_set (κ := String) Prod.fst weigh survivors ∅ distinct
  have plan : retilingRedistributions survivors spanStart spanEnd weights =
      layOut (largestRemainderSplit (spanEnd - spanStart + 1).toNat weighed) spanStart
        survivors := rfl
  have weighedSome : weighed.entries ≠ [] := by
    rw [entries]
    exact fun none => nonempty (List.map_eq_nil_iff.mp none)
  obtain ⟨keys, sum⟩ :=
    largestRemainderSplit_total (spanEnd - spanStart + 1).toNat weighedSome
  have ids : survivors.map Prod.fst = weighed.keys := by
    rw [Dict.keys, entries, List.map_map]
    rfl
  have all : (survivors.map fun node =>
      (largestRemainderSplit (spanEnd - spanStart + 1).toNat weighed).getD node.1 0).sum =
      (spanEnd - spanStart + 1).toNat := by
    have counted := Dict.sum_getD_of_perm _ (ids ▸ keys.symm)
    rw [List.map_map] at counted
    exact counted.trans sum
  rw [plan]
  refine ⟨fun layer low high => ?_, fun r member => layOut_ids member⟩
  rw [layOut_adds, all, if_pos ⟨low, by omega⟩]

theorem orderedByRange_perm (surviving : Dict String LayerRange) :
    (orderedByRange surviving).Perm surviving.entries := List.mergeSort_perm _ _

theorem orderedByRange_ids (surviving : Dict String LayerRange) :
    ((orderedByRange surviving).map Prod.fst).Perm surviving.keys :=
  (orderedByRange_perm surviving).map Prod.fst

theorem retile_covers {surviving : Dict String LayerRange} {failedStart failedEnd : Int}
    {first last : String × LayerRange} (weights : Option (Dict String ℚ))
    (head : (orderedByRange surviving).head? = some first) :
    Covers (retilingRedistributions (orderedByRange surviving) (min first.2.1 failedStart)
      (max last.2.2 failedEnd) weights) surviving.keys failedStart failedEnd := by
  have distinct : ((orderedByRange surviving).map Prod.fst).Nodup :=
    (orderedByRange_ids surviving).nodup_iff.mpr surviving.distinct
  have nonempty : orderedByRange surviving ≠ [] := List.ne_nil_of_mem (List.mem_of_mem_head? head)
  exact (retilingRedistributions_covers distinct nonempty weights).mono (min_le_right _ _)
    (le_max_right _ _) (orderedByRange_ids surviving).subset

theorem absorb_covers {failedStart failedEnd share : Int}
    {left right : Option (String × LayerRange)} {survivors : List String}
    (leftId : ∀ node ∈ left, node.1 ∈ survivors) (rightId : ∀ node ∈ right, node.1 ∈ survivors)
    (one : left.isSome ∨ right.isSome)
    (whole : right = none → share = failedEnd - failedStart + 1) :
    Covers (absorb failedStart failedEnd share left right) survivors failedStart failedEnd := by
  constructor
  · intro layer low high
    cases left with
    | none =>
      cases right with
      | none => simp at one
      | some right =>
        simp only [absorb, LayerRedistribution.adds, Option.map_none, Option.toList_none,
          Option.map_some, Option.toList_some, List.nil_append, List.countP_singleton,
          decide_eq_true_eq, Option.isSome_none, Bool.false_eq_true, if_false]
        rw [if_pos (by omega)]
    | some left =>
      cases right with
      | none =>
        -- alone, the left one takes the whole share
        have all := whole rfl
        simp only [absorb, LayerRedistribution.adds, Option.map_none, Option.toList_none,
          Option.map_some, Option.toList_some, List.append_nil, List.countP_singleton,
          decide_eq_true_eq]
        rw [if_pos (by omega)]
      | some right =>
        -- a layer is in one of the two parts
        simp only [absorb, LayerRedistribution.adds, Option.map_some, Option.toList_some,
          List.countP_append, List.countP_singleton, decide_eq_true_eq, Option.isSome_some, if_true]
        split <;> split <;> omega
  · intro r member
    rcases List.mem_append.mp member with first | second
    · cases left with
      | none => cases first
      | some node =>
        obtain rfl := List.mem_singleton.mp first
        exact leftId node rfl
    · cases right with
      | none => cases second
      | some node =>
        obtain rfl := List.mem_singleton.mp second
        exact rightId node rfl

end DistLLM.Recovery
