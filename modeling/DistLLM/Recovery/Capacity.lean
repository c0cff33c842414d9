import DistLLM.Recovery.Apportioning
import DistLLM.Scheduler.Sequence
import Mathlib.Algebra.Order.BigOperators.Group.Finset

/-!
# Redistribution within the free memory

The orphaned layers go to those of the two nearest survivors that have memory for more layers, in
proportion to it. Where neither has, they are shared out as if nothing were known of the memory.
-/
namespace DistLLM.Recovery

open DistLLM.Library
open DistLLM.Scheduler (truncate)

/-- `max_additional`: how many layers more a survivor has memory for. -/
def maxAdditional (memory : Dict String ℚ) (perLayer : ℚ) (nid : String) (range : LayerRange) :
    Int :=
  max 0 (truncate (memory.getD nid 0 / perLayer) - layerCount range)

def eligibleSurvivors (surviving : Dict String LayerRange) (memory : Dict String ℚ)
    (perLayer : ℚ) : Dict String ℚ :=
  surviving.entries.foldl (fun eligible (nid, range) =>
    if 0 < maxAdditional memory perLayer nid range then
      eligible.set nid (maxAdditional memory perLayer nid range)
    else eligible) ∅

def leftEntry (failedStart : Int) (ordered : List (String × LayerRange)) :
    Option (String × LayerRange) :=
  (ordered.filter fun node => node.2.2 < failedStart).getLast?

def rightEntry (failedEnd : Int) (ordered : List (String × LayerRange)) :
    Option (String × LayerRange) :=
  (ordered.filter fun node => failedEnd < node.2.1).head?

def absorbersOf (eligible : Dict String ℚ) (left right : Option (String × LayerRange)) :
    List (String × LayerRange × ℚ) :=
  [left, right].filterMap fun entry => entry.bind fun node =>
    (eligible.get? node.1).map fun weight => (node.1, node.2, weight)

/-- `counts`: one absorber takes everything. -/
def absorberCounts (deadCount : Nat) : List (String × LayerRange × ℚ) → Dict String Nat
  | [only] => (∅ : Dict String Nat).set only.1 deadCount
  | absorbers => largestRemainderSplit deadCount
      (absorbers.foldl (fun weights a => weights.set a.1 a.2.2) ∅)

/-- The absorbers take their shares one after the other; with the offset that they get to. -/
def layShares (failedStart deadCount : Int) (counts : Dict String Nat) :
    Int → List (String × LayerRange × ℚ) → List LayerRedistribution × Int
  | offset, [] => ([], offset)
  | offset, (nid, (curStart, curEnd), _) :: rest =>
    let addedCount := min (counts.getD nid 0 : Int) (deadCount - offset)
    if addedCount ≤ 0 then layShares failedStart deadCount counts offset rest
    else
      let addedStart := failedStart + offset
      let addedEnd := addedStart + addedCount - 1
      let (plan, reached) :=
        layShares failedStart deadCount counts (offset + addedCount) rest
      ({ survivingNodeId := nid
         addedStartLayer := addedStart
         addedEndLayer := addedEnd
         newStartLayer := min curStart addedStart
         newEndLayer := max curEnd addedEnd } :: plan, reached)

/-- The safety net: the first absorber takes what the shares leave over. -/
def coverTail (failedStart failedEnd offset : Int) (absorbers : List (String × LayerRange × ℚ))
    (plan : List LayerRedistribution) : List LayerRedistribution :=
  match absorbers with
  | [] => plan
  | (nid, (curStart, curEnd), _) :: _ =>
    if failedEnd - failedStart + 1 ≤ offset then plan
    else if plan.any fun r => r.survivingNodeId == nid then
      plan.modify (plan.findIdx fun r => r.survivingNodeId == nid) fun r =>
        { r with addedEndLayer := failedEnd, newEndLayer := max r.newEndLayer curEnd }
    else
      plan ++ [{ survivingNodeId := nid
                 addedStartLayer := failedStart + offset
                 addedEndLayer := failedEnd
                 newStartLayer := min curStart (failedStart + offset)
                 newEndLayer := max curEnd failedEnd }]

/-- The whole span divided anew, by capacity. -/
def retileByCapacity (ordered : List (String × LayerRange)) (failedStart failedEnd : Int)
    (eligible : Dict String ℚ) : List LayerRedistribution :=
  match ordered.head?, ordered.getLast? with
  | some first, some last =>
    retilingRedistributions ordered (min first.2.1 failedStart) (max last.2.2 failedEnd)
      (some eligible)
  | _, _ => []

def computeRedistributionsCapacityAware (failedStart failedEnd : Int)
    (surviving : Dict String LayerRange) (survivorMemory : Option (Dict String ℚ))
    (perLayer : ℚ) : Except RecoveryError (List LayerRedistribution) :=
  let deadCount := failedEnd - failedStart + 1
  if surviving.entries = [] then .ok []
  else if deadCount ≤ 0 then .ok []
  else
    match survivorMemory with
    | none => computeRedistributions failedStart failedEnd surviving
    | some memory =>
      if perLayer = 0 then .error .zeroDivision
      else
        let eligible := eligibleSurvivors surviving memory perLayer
        let ordered := orderedByRange surviving
        let left := leftEntry failedStart ordered
        let right := rightEntry failedEnd ordered
        let absorbers := absorbersOf eligible left right
        if eligible.entries = [] then computeRedistributions failedStart failedEnd surviving
        else if !isCleanTiling failedStart failedEnd ordered then
          .ok (retileByCapacity ordered failedStart failedEnd eligible)
        else if absorbers = [] then
          if left.isNone && right.isNone then
            .ok (retileByCapacity ordered failedStart failedEnd eligible)
          else computeRedistributions failedStart failedEnd surviving
        else
          let (plan, offset) := layShares failedStart deadCount
            (absorberCounts deadCount.toNat absorbers) 0 absorbers
          .ok (coverTail failedStart failedEnd offset absorbers plan)

variable {failedStart failedEnd : Int} {surviving : Dict String LayerRange}
  {memory : Dict String ℚ} {perLayer : ℚ}

/-! ### The even distribution -/

variable (nid : String) {left right : Option (String × LayerRange)} {node : String × LayerRange}
  (deadCount : Nat)

theorem leftEntry_mem (found : leftEntry failedStart (orderedByRange surviving) = some node) :
    node ∈ surviving.entries :=
  (orderedByRange_perm surviving).subset
    (List.mem_of_mem_filter (List.mem_of_getLast? found))

theorem rightEntry_mem (found : rightEntry failedEnd (orderedByRange surviving) = some node) :
    node ∈ surviving.entries :=
  (orderedByRange_perm surviving).subset
    (List.mem_of_mem_filter (List.mem_of_mem_head? found))

theorem mem_keys_of_entries (member : node ∈ surviving.entries) :
    node.1 ∈ surviving.keys := List.mem_map_of_mem member

/-- The nearest survivors have no layers together, so their share of the orphaned ones is not
defined. -/
def Unsplittable (failedStart failedEnd : Int) (surviving : Dict String LayerRange) : Prop :=
  ∃ left ∈ leftEntry failedStart (orderedByRange surviving),
    ∃ right ∈ rightEntry failedEnd (orderedByRange surviving),
      layerCount left.2 + layerCount right.2 = 0

section

variable (nonempty : surviving.entries ≠ [])

include nonempty

theorem orderedByRange_ends :
    ∃ first last, (orderedByRange surviving).head? = some first ∧
      (orderedByRange surviving).getLast? = some last := by
  have some : orderedByRange surviving ≠ [] := fun none =>
    nonempty (none ▸ (orderedByRange_perm surviving)).symm.eq_nil
  exact ⟨_, _, List.head?_eq_some_head some, List.getLast?_eq_some_getLast some⟩

theorem retileSpan_covers :
    Covers (retileSpan (orderedByRange surviving) failedStart failedEnd) surviving.keys
      failedStart failedEnd := by
  obtain ⟨first, last, head, tail⟩ := orderedByRange_ends nonempty
  simp only [retileSpan, head, tail]
  exact retile_covers none head

theorem retileByCapacity_covers (eligible : Dict String ℚ) :
    Covers (retileByCapacity (orderedByRange surviving) failedStart failedEnd eligible)
      surviving.keys failedStart failedEnd := by
  obtain ⟨first, last, head, tail⟩ := orderedByRange_ends nonempty
  simp only [retileByCapacity, head, tail]
  exact retile_covers (some eligible) head

end

theorem covers_of_none {survivors : List String} (none : failedEnd - failedStart + 1 ≤ 0) :
    Covers [] survivors failedStart failedEnd where
  once layer low high := by omega
  survivor r member := by cases member

theorem leftShare_whole {deadCount share : Int} {left : Option (String × LayerRange)}
    (returns : leftShare deadCount left none = .ok share) : share = deadCount := by
  cases left <;> exact (Except.ok.inj returns).symm

theorem leftShare_error {deadCount : Int} {raised : RecoveryError}
    (raises : leftShare deadCount left right = .error raised) :
    ∃ l ∈ left, ∃ r ∈ right, layerCount l.2 + layerCount r.2 = 0 := by
  cases left with
  | none => cases right <;> cases raises
  | some l =>
    cases right with
    | none => cases raises
    | some r =>
      by_cases none : layerCount l.2 + layerCount r.2 = 0
      · exact ⟨l, rfl, r, rfl, none⟩
      · simp [leftShare, none] at raises

variable {plan : List LayerRedistribution}

section

variable (nonempty : surviving.entries ≠ [])

include nonempty

theorem computeRedistributions_cases (some : 0 < failedEnd - failedStart + 1) :
    let ordered := orderedByRange surviving
    let left := leftEntry failedStart ordered
    let right := rightEntry failedEnd ordered
    computeRedistributions failedStart failedEnd surviving =
        .ok (retileSpan ordered failedStart failedEnd) ∨
      (left.isSome ∨ right.isSome) ∧
        computeRedistributions failedStart failedEnd surviving =
          (leftShare (failedEnd - failedStart + 1) left right).map fun share =>
            absorb failedStart failedEnd share left right := by
  intro ordered left right
  unfold computeRedistributions
  dsimp only
  rw [if_neg nonempty, if_neg (not_le.mpr some)]
  split
  · exact .inl rfl
  · split
    · exact .inl rfl
    next beside =>
      refine .inr ⟨?_, ?_⟩
      · have one : ¬ (left.isNone && right.isNone) = true := beside
        rwa [Bool.and_eq_true, Option.isNone_iff_eq_none, Option.isNone_iff_eq_none, not_and_or,
          ← ne_eq, ← ne_eq, ← Option.isSome_iff_ne_none, ← Option.isSome_iff_ne_none] at one
      · change (leftShare (failedEnd - failedStart + 1) left right).bind _ = _
        cases leftShare (failedEnd - failedStart + 1) left right <;> rfl

theorem computeRedistributions_nothing (none : failedEnd - failedStart + 1 ≤ 0) :
    computeRedistributions failedStart failedEnd surviving = .ok [] := by
  unfold computeRedistributions
  dsimp only
  rw [if_neg nonempty, if_pos none]

theorem computeRedistributions_ok
    (returns : computeRedistributions failedStart failedEnd surviving = .ok plan) :
    Covers plan surviving.keys failedStart failedEnd := by
  by_cases some : 0 < failedEnd - failedStart + 1
  · rcases computeRedistributions_cases nonempty some with retiled | ⟨one, absorbed⟩
    · obtain rfl := Except.ok.inj (retiled.symm.trans returns)
      exact retileSpan_covers nonempty
    · rw [absorbed] at returns
      cases share : leftShare (failedEnd - failedStart + 1)
          (leftEntry failedStart (orderedByRange surviving))
          (rightEntry failedEnd (orderedByRange surviving)) with
      | error raised => simp [share, Except.map] at returns
      | ok share' =>
        rw [share] at returns
        obtain rfl := Except.ok.inj returns
        refine absorb_covers (fun node found => mem_keys_of_entries (leftEntry_mem found))
          (fun node found => mem_keys_of_entries (rightEntry_mem found)) one fun alone => ?_
        rw [alone] at share
        exact leftShare_whole share
  · have early := computeRedistributions_nothing nonempty (not_lt.mp some)
    obtain rfl := Except.ok.inj (early.symm.trans returns)
    exact covers_of_none (not_lt.mp some)

theorem computeRedistributions_error (some : 0 < failedEnd - failedStart + 1)
    {raised : RecoveryError}
    (raises : computeRedistributions failedStart failedEnd surviving = .error raised) :
    Unsplittable failedStart failedEnd surviving := by
  rcases computeRedistributions_cases nonempty some with retiled | ⟨-, absorbed⟩
  · cases retiled.symm.trans raises
  · rw [absorbed] at raises
    cases share : leftShare (failedEnd - failedStart + 1)
        (leftEntry failedStart (orderedByRange surviving))
        (rightEntry failedEnd (orderedByRange surviving)) with
    | error _ => exact leftShare_error share
    | ok share' => simp [share, Except.map] at raises

end

/-! ### The shares of the absorbers -/

def given (plan : List LayerRedistribution) (nid : String) : Int :=
  ((plan.filter fun r => r.survivingNodeId == nid).map fun r =>
    r.addedEndLayer - r.addedStartLayer + 1).sum

theorem given_cons (r : LayerRedistribution) (plan : List LayerRedistribution) (nid : String) :
    given (r :: plan) nid =
      (if r.survivingNodeId = nid then r.addedEndLayer - r.addedStartLayer + 1 else 0) +
        given plan nid := by
  by_cases own : r.survivingNodeId = nid <;> simp [given, own]

def counted (counts : Dict String Nat) (absorbers : List (String × LayerRange × ℚ))
    (nid : String) : Int :=
  ((absorbers.filter fun a => a.1 == nid).map fun a => (counts.getD a.1 0 : Int)).sum

theorem counted_cons (counts : Dict String Nat) (a : String × LayerRange × ℚ)
    (rest : List (String × LayerRange × ℚ)) (nid : String) :
    counted counts (a :: rest) nid =
      (if a.1 = nid then (counts.getD a.1 0 : Int) else 0) + counted counts rest nid := by
  by_cases own : a.1 = nid <;> simp [counted, own]

/-- The shares follow each other from the offset on, each within the count of its absorber. -/
structure Laid (failedStart deadCount : Int) (counts : Dict String Nat) (offset : Int)
    (absorbers : List (String × LayerRange × ℚ)) (out : List LayerRedistribution × Int) :
    Prop where
  reached : out.2 =
    min deadCount (offset + (absorbers.map fun a => (counts.getD a.1 0 : Int)).sum)
  adds : ∀ layer, out.1.countP (fun r => r.adds layer) =
    if failedStart + offset ≤ layer ∧ layer < failedStart + out.2 then 1 else 0
  ids : ∀ r ∈ out.1, r.survivingNodeId ∈ absorbers.map Prod.fst
  nonneg : ∀ nid, 0 ≤ given out.1 nid
  total : ∀ nid, given out.1 nid ≤ out.2 - offset
  own : ∀ nid, given out.1 nid ≤ counted counts absorbers nid

section Laying

variable {deadCount offset : Int} {counts : Dict String Nat} {a : String × LayerRange × ℚ}
  {rest : List (String × LayerRange × ℚ)}

theorem sum_counts_nonneg (counts : Dict String Nat) (absorbers : List (String × LayerRange × ℚ)) :
    (0 : Int) ≤ (absorbers.map fun a => (counts.getD a.1 0 : Int)).sum := by
  refine List.sum_nonneg fun n listed => ?_
  obtain ⟨a, _, rfl⟩ := List.mem_map.mp listed
  exact Int.natCast_nonneg _

theorem Laid.skip {out : List LayerRedistribution × Int}
    (full : min (counts.getD a.1 0 : Int) (deadCount - offset) ≤ 0)
    (laid : Laid failedStart deadCount counts offset rest out) :
    Laid failedStart deadCount counts offset (a :: rest) out := by
  have count : (0 : Int) ≤ counts.getD a.1 0 := Int.natCast_nonneg _
  have later := sum_counts_nonneg counts rest
  constructor
  case reached =>
    rw [laid.reached, List.map_cons, List.sum_cons]
    omega
  case adds => exact laid.adds
  case ids => exact fun r member => List.mem_cons_of_mem _ (laid.ids r member)
  case nonneg => exact laid.nonneg
  case total => exact laid.total
  case own =>
    intro nid
    have before := laid.own nid
    rw [counted_cons]
    split <;> omega

theorem Laid.serve {added reached : Int} {r : LayerRedistribution}
    (share : added = min (counts.getD a.1 0 : Int) (deadCount - offset)) (positive : 0 < added)
    (takes : r.survivingNodeId = a.1 ∧ r.addedStartLayer = failedStart + offset ∧
      r.addedEndLayer = failedStart + offset + added - 1)
    (laid : Laid failedStart deadCount counts (offset + added) rest (plan, reached)) :
    Laid failedStart deadCount counts offset (a :: rest) (r :: plan, reached) := by
  obtain ⟨id, starts, ends⟩ := takes
  have later := sum_counts_nonneg counts rest
  have reach := laid.reached
  dsimp only at reach
  constructor
  case reached =>
    rw [List.map_cons, List.sum_cons]
    omega
  case adds =>
    intro layer
    rw [List.countP_cons, laid.adds]
    simp only [LayerRedistribution.adds, starts, ends, decide_eq_true_eq]
    split <;> split <;> split <;> omega
  case ids =>
    intro r' member
    rcases List.mem_cons.mp member with rfl | tail
    · exact id ▸ List.mem_cons_self ..
    · exact List.mem_cons_of_mem _ (laid.ids r' tail)
  case nonneg =>
    intro nid
    have before : 0 ≤ given plan nid := laid.nonneg nid
    rw [given_cons, starts, ends]
    split <;> omega
  case total =>
    intro nid
    have before : given plan nid ≤ reached - (offset + added) := laid.total nid
    rw [given_cons, starts, ends]
    split <;> omega
  case own =>
    intro nid
    have before : given plan nid ≤ counted counts rest nid := laid.own nid
    rw [given_cons, counted_cons, id, starts, ends]
    split <;> omega

end Laying

theorem layShares_laid (failedStart deadCount : Int) (counts : Dict String Nat) {offset : Int}
    (within : offset ≤ deadCount) (absorbers : List (String × LayerRange × ℚ)) :
    Laid failedStart deadCount counts offset absorbers
      (layShares failedStart deadCount counts offset absorbers) := by
  induction absorbers generalizing offset with
  | nil =>
    constructor
    case reached => simp [layShares, within]
    case adds =>
      intro layer
      rw [if_neg (by simp [layShares])]
      rfl
    case ids =>
      intro r member
      cases member
    all_goals simp [layShares, given, counted]
  | cons a rest ih =>
    obtain ⟨nid, ⟨curStart, curEnd⟩, weight⟩ := a
    simp only [layShares]
    split
    next full => exact (ih within).skip full
    next some =>
      have more : offset + min (counts.getD nid 0 : Int) (deadCount - offset) ≤ deadCount := by
        omega
      exact .serve rfl (not_le.mp some) ⟨rfl, rfl, rfl⟩ (ih more)

variable {y x : String × LayerRange × ℚ}

theorem absorberCounts_pair (different : x.1 ≠ y.1) :
    ∃ weights : Dict String ℚ, weights.entries = [(x.1, x.2.2), (y.1, y.2.2)] ∧
      absorberCounts deadCount [x, y] = largestRemainderSplit deadCount weights := by
  refine ⟨[x, y].foldl (fun weights a => weights.set a.1 a.2.2) ∅, ?_, rfl⟩
  exact Dict.entries_foldl_set (κ := String) Prod.fst (fun a : String × LayerRange × ℚ => a.2.2)
    [x, y] ∅ (by simpa [Dict.keys] using different)

theorem absorberCounts_same
    (same : x.1 = y.1) : (absorberCounts deadCount [x, y]).getD x.1 0 = deadCount := by
  have entries : ([x, y].foldl (fun weights a => weights.set a.1 a.2.2)
      (∅ : Dict String ℚ)).entries = [(x.1, y.2.2)] := by
    simp [Dict.set, Dict.setEntries, same]
  obtain ⟨keys, sum⟩ := largestRemainderSplit_total deadCount
    (fun none => by rw [none] at entries; cases entries)
  have one : [x.1].Perm (absorberCounts deadCount [x, y]).keys := by
    refine List.Perm.trans ?_ keys.symm
    rw [Dict.keys, entries]
    exact List.Perm.refl _
  have all := Dict.sum_getD_of_perm _ one
  rw [List.map_singleton, List.sum_singleton] at all
  exact all.trans sum

theorem absorberCounts_single (x : String × LayerRange × ℚ) :
    (absorberCounts deadCount [x]).getD x.1 0 = deadCount := by
  simp [absorberCounts, Dict.getD_set]

/-- The shares reach the end of the orphaned range, and keep to the capacities if these are enough
together. -/
def SharesWithin (failedStart deadCount : Int) (capacity : String → Int)
    (absorbers : List (String × LayerRange × ℚ)) : Prop :=
  let out := layShares failedStart deadCount (absorberCounts deadCount.toNat absorbers) 0 absorbers
  out.2 = deadCount ∧
    (deadCount ≤ ∑ nid ∈ (absorbers.map Prod.fst).toFinset, capacity nid →
      ∀ nid, given out.1 nid ≤ capacity nid)

section Shares

variable {capacity : String → Int} {deadCount : Int} {x y : String × LayerRange × ℚ}

theorem sharesWithin_single (nonneg : ∀ nid, 0 ≤ capacity nid) (some : 0 ≤ deadCount) :
    SharesWithin failedStart deadCount capacity [x] := by
  have laid := layShares_laid failedStart deadCount
    (absorberCounts deadCount.toNat [x]) some [x]
  have count := absorberCounts_single deadCount.toNat x
  have reached := laid.reached
  rw [List.map_singleton, List.sum_singleton, count] at reached
  refine ⟨by omega, fun enough nid => ?_⟩
  have own := laid.own nid
  rw [counted_cons, count] at own
  have none : counted (absorberCounts deadCount.toNat [x]) [] nid = 0 := rfl
  by_cases here : x.1 = nid
  · have room : deadCount ≤ capacity nid := by simpa [here] using enough
    rw [if_pos here] at own
    omega
  · have free := nonneg nid
    rw [if_neg here] at own
    omega

theorem sharesWithin_same (same : x.1 = y.1) (nonneg : ∀ nid, 0 ≤ capacity nid)
    (some : 0 ≤ deadCount) : SharesWithin failedStart deadCount capacity [x, y] := by
  have laid := layShares_laid failedStart deadCount
    (absorberCounts deadCount.toNat [x, y]) some [x, y]
  have count := absorberCounts_same deadCount.toNat same
  have reached := laid.reached
  rw [List.map_cons, List.map_singleton, List.sum_pair, ← same, count] at reached
  have all : (layShares failedStart deadCount (absorberCounts deadCount.toNat [x, y]) 0
      [x, y]).2 = deadCount := by omega
  refine ⟨all, fun enough nid => ?_⟩
  have total := laid.total nid
  rw [all] at total
  by_cases here : x.1 = nid
  · have room : deadCount ≤ capacity nid := by simpa [← same, here] using enough
    omega
  · have own := laid.own nid
    rw [counted_cons, counted_cons, ← same, if_neg here] at own
    have none : counted (absorberCounts deadCount.toNat [x, y]) [] nid = 0 := rfl
    have free := nonneg nid
    omega

theorem sharesWithin_pair (different : x.1 ≠ y.1) (nonneg : ∀ nid, 0 ≤ capacity nid)
    (some : 0 ≤ deadCount) (weighedX : x.2.2 = capacity x.1 ∧ 0 < capacity x.1)
    (weighedY : y.2.2 = capacity y.1 ∧ 0 < capacity y.1) :
    SharesWithin failedStart deadCount capacity [x, y] := by
  have laid := layShares_laid failedStart deadCount
    (absorberCounts deadCount.toNat [x, y]) some [x, y]
  obtain ⟨weights, entries, counts⟩ :=
    absorberCounts_pair deadCount.toNat different
  rw [weighedX.1, weighedY.1] at entries
  have ids : weights.keys = [x.1, y.1] := by
    rw [Dict.keys, entries]
    rfl
  have sum : (absorberCounts deadCount.toNat [x, y]).getD x.1 0 +
      (absorberCounts deadCount.toNat [x, y]).getD y.1 0 = deadCount.toNat := by
    obtain ⟨keys, total⟩ := largestRemainderSplit_total deadCount.toNat
      (fun none => by rw [none] at entries; cases entries)
    have both := Dict.sum_getD_of_perm (largestRemainderSplit deadCount.toNat weights)
      (ids ▸ keys.symm)
    rw [counts]
    simpa using both.trans total
  have reached := laid.reached
  rw [List.map_cons, List.map_singleton, List.sum_pair] at reached
  refine ⟨by omega, fun enough nid => ?_⟩
  have room : (deadCount.toNat : Int) ≤ capacity x.1 + capacity y.1 := by
    rw [List.map_cons, List.map_singleton, List.toFinset_cons, List.toFinset_cons,
      List.toFinset_nil, insert_empty_eq, Finset.sum_pair different] at enough
    omega
  -- with enough room for all of it, no count is above its weight
  have leX := largestRemainderSplit_le (List.Perm.of_eq entries) weighedX.2 weighedY.2 room
  have leY := largestRemainderSplit_le ((List.Perm.of_eq entries).trans (List.Perm.swap ..))
    weighedY.2 weighedX.2 (room.trans_eq (add_comm _ _))
  rw [← counts] at leX leY
  have own := laid.own nid
  rw [counted_cons, counted_cons] at own
  have none : counted (absorberCounts deadCount.toNat [x, y]) [] nid = 0 := rfl
  by_cases first : x.1 = nid
  · rw [if_pos first, if_neg fun second => different (first.trans second.symm)] at own
    rw [first] at leX own
    omega
  · by_cases second : y.1 = nid
    · rw [if_neg first, if_pos second] at own
      rw [second] at leY own
      omega
    · have free := nonneg nid
      rw [if_neg first, if_neg second] at own
      omega

end Shares

/-! ### Who gets layers -/

def capacity (surviving : Dict String LayerRange) (memory : Dict String ℚ) (perLayer : ℚ)
    (nid : String) : Int :=
  (surviving.get? nid).elim 0 (maxAdditional memory perLayer nid)

theorem capacity_nonneg : 0 ≤ capacity surviving memory perLayer nid := by
  unfold capacity
  cases surviving.get? nid with
  | none => exact le_rfl
  | some range => exact le_max_left _ _

theorem eligible_foldl (memory : Dict String ℚ) (perLayer : ℚ)
    (entries : List (String × LayerRange)) (distinct : (entries.map Prod.fst).Nodup)
    (eligible : Dict String ℚ) (nid : String) :
    (entries.foldl (fun eligible (nid, range) =>
      if 0 < maxAdditional memory perLayer nid range then
        eligible.set nid (maxAdditional memory perLayer nid range : ℚ)
      else eligible) eligible).get? nid =
    match Dict.lookupEntries nid entries with
    | some range =>
      if 0 < maxAdditional memory perLayer nid range then
        some (maxAdditional memory perLayer nid range : ℚ)
      else eligible.get? nid
    | none => eligible.get? nid := by
  induction entries generalizing eligible with
  | nil => rfl
  | cons entry rest ih =>
    obtain ⟨key, range⟩ := entry
    obtain ⟨fresh, distinct⟩ := List.nodup_cons.mp distinct
    rw [List.foldl_cons, ih distinct]
    by_cases same : key = nid
    · subst same
      have later : Dict.lookupEntries key rest = none :=
        (Dict.get?_eq_none_iff ⟨rest, distinct⟩).mpr fresh
      simp only [later, Dict.lookupEntries, if_true]
      split
      · exact Dict.get?_set_self ..
      · rfl
    · simp only [Dict.lookupEntries, same, if_false]
      have kept : (if 0 < maxAdditional memory perLayer key range then
          eligible.set key (maxAdditional memory perLayer key range : ℚ)
          else eligible).get? nid = eligible.get? nid := by
        split
        · rw [Dict.get?_set, if_neg same]
        · rfl
      rw [kept]

theorem eligibleSurvivors_get? (surviving : Dict String LayerRange) (memory : Dict String ℚ)
    (perLayer : ℚ) (nid : String) :
    (eligibleSurvivors surviving memory perLayer).get? nid =
      if 0 < capacity surviving memory perLayer nid then
        some (capacity surviving memory perLayer nid : ℚ) else none := by
  have filled := eligible_foldl memory perLayer surviving.entries surviving.distinct ∅ nid
  have found : Dict.lookupEntries nid surviving.entries = surviving.get? nid := rfl
  rw [eligibleSurvivors, filled, capacity, found]
  cases surviving.get? nid with
  | none => simp
  | some range => rfl

def roomyNeighbours (failedStart failedEnd : Int) (surviving : Dict String LayerRange)
    (memory : Dict String ℚ) (perLayer : ℚ) : List String :=
  (((leftEntry failedStart (orderedByRange surviving)).toList ++
    (rightEntry failedEnd (orderedByRange surviving)).toList).map Prod.fst).filter fun nid =>
      decide (0 < capacity surviving memory perLayer nid)

theorem filterMap_ite {α β : Type} (p : α → Prop) [DecidablePred p] (f : α → β) (l : List α) :
    l.filterMap (fun a => if p a then some (f a) else none) =
      (l.filter fun a => decide (p a)).map f := by
  induction l with
  | nil => rfl
  | cons a rest ih =>
    by_cases kept : p a <;> simp [kept, ih]

theorem absorbersOf_eq (left right : Option (String × LayerRange)) :
    absorbersOf (eligibleSurvivors surviving memory perLayer) left right =
      ((left.toList ++ right.toList).filter fun node =>
        decide (0 < capacity surviving memory perLayer node.1)).map fun node =>
          (node.1, node.2, (capacity surviving memory perLayer node.1 : ℚ)) := by
  have weighed (node : String × LayerRange) :
      ((eligibleSurvivors surviving memory perLayer).get? node.1).map
        (fun weight => (node.1, node.2, weight)) =
      if 0 < capacity surviving memory perLayer node.1 then
        some (node.1, node.2, (capacity surviving memory perLayer node.1 : ℚ)) else none := by
    rw [eligibleSurvivors_get?]
    split <;> rfl
  have entries : absorbersOf (eligibleSurvivors surviving memory perLayer) left right =
      (left.toList ++ right.toList).filterMap fun node =>
        ((eligibleSurvivors surviving memory perLayer).get? node.1).map
          fun weight => (node.1, node.2, weight) := by
    cases left <;> cases right <;> rfl
  rw [entries, ← filterMap_ite]
  exact congrArg (List.filterMap · _) (funext weighed)

theorem absorbersOf_ids (failedStart failedEnd : Int) :
    (absorbersOf (eligibleSurvivors surviving memory perLayer)
        (leftEntry failedStart (orderedByRange surviving))
        (rightEntry failedEnd (orderedByRange surviving))).map Prod.fst =
      roomyNeighbours failedStart failedEnd surviving memory perLayer := by
  rw [absorbersOf_eq, roomyNeighbours, List.filter_map, List.map_map]
  rfl

theorem absorbersOf_weighed {a : String × LayerRange × ℚ}
    (member : a ∈ absorbersOf (eligibleSurvivors surviving memory perLayer) left right) :
    a.2.2 = capacity surviving memory perLayer a.1 ∧
      0 < capacity surviving memory perLayer a.1 := by
  rw [absorbersOf_eq] at member
  obtain ⟨node, kept, rfl⟩ := List.mem_map.mp member
  exact ⟨rfl, by simpa using (List.mem_filter.mp kept).2⟩

theorem mem_roomyNeighbours {nid : String}
    (member : nid ∈ roomyNeighbours failedStart failedEnd surviving memory perLayer) :
    nid ∈ surviving.keys ∧ 0 < capacity surviving memory perLayer nid := by
  obtain ⟨near, room⟩ := List.mem_filter.mp member
  obtain ⟨node, listed, rfl⟩ := List.mem_map.mp near
  refine ⟨?_, by simpa using room⟩
  rcases List.mem_append.mp listed with first | second
  · exact mem_keys_of_entries (leftEntry_mem (Option.mem_toList.mp first))
  · exact mem_keys_of_entries (rightEntry_mem (Option.mem_toList.mp second))

theorem absorbers_within {deadCount : Int} (some : 0 ≤ deadCount)
    (nonempty : absorbersOf (eligibleSurvivors surviving memory perLayer) left right ≠ []) :
    SharesWithin failedStart deadCount (capacity surviving memory perLayer)
      (absorbersOf (eligibleSurvivors surviving memory perLayer) left right) := by
  have weighed : ∀ a ∈ absorbersOf (eligibleSurvivors surviving memory perLayer) left right,
      a.2.2 = capacity surviving memory perLayer a.1 ∧
        0 < capacity surviving memory perLayer a.1 := fun _ => absorbersOf_weighed
  have two : (absorbersOf (eligibleSurvivors surviving memory perLayer) left right).length ≤ 2 :=
    List.length_filterMap_le _ _
  generalize absorbersOf (eligibleSurvivors surviving memory perLayer) left right = absorbers at *
  match absorbers, nonempty, two with
  | [x], _, _ => exact sharesWithin_single capacity_nonneg some
  | [x, y], _, _ =>
    by_cases same : x.1 = y.1
    · exact sharesWithin_same same capacity_nonneg some
    · exact sharesWithin_pair same capacity_nonneg some (weighed x (List.mem_cons_self ..))
        (weighed y (List.mem_cons_of_mem _ (List.mem_singleton_self y)))

/-! ### The whole redistribution -/

/-- What holds of a plan that was made with figures of the memory. On a clean layout the orphaned
layers stay with the nearest survivors that have room, and within it if it suffices; where nobody
has room, or none of the nearest, the plan is that of the even distribution. -/
structure Respects (failedStart failedEnd : Int) (surviving : Dict String LayerRange)
    (memory : Dict String ℚ) (perLayer : ℚ) (plan : List LayerRedistribution) : Prop where
  absorbed :
    isCleanTiling failedStart failedEnd (orderedByRange surviving) = true →
    roomyNeighbours failedStart failedEnd surviving memory perLayer ≠ [] →
    (∀ r ∈ plan,
      r.survivingNodeId ∈ roomyNeighbours failedStart failedEnd surviving memory perLayer) ∧
    (failedEnd - failedStart + 1 ≤
        ∑ nid ∈ (roomyNeighbours failedStart failedEnd surviving memory perLayer).toFinset,
          capacity surviving memory perLayer nid →
      ∀ nid, given plan nid ≤ capacity surviving memory perLayer nid)
  even :
    (∀ nid ∈ surviving.keys, capacity surviving memory perLayer nid = 0) ∨
      isCleanTiling failedStart failedEnd (orderedByRange surviving) = true ∧
        roomyNeighbours failedStart failedEnd surviving memory perLayer = [] ∧
        ((leftEntry failedStart (orderedByRange surviving)).isSome ∨
          (rightEntry failedEnd (orderedByRange surviving)).isSome) →
    computeRedistributions failedStart failedEnd surviving = .ok plan

theorem eligibleSurvivors_eq_nil_iff : (eligibleSurvivors surviving memory perLayer).entries = [] ↔
      ∀ nid ∈ surviving.keys, capacity surviving memory perLayer nid = 0 := by
  constructor
  · intro none nid _
    by_contra room
    have positive : 0 < capacity surviving memory perLayer nid :=
      lt_of_le_of_ne (capacity_nonneg nid) (Ne.symm room)
    have found := eligibleSurvivors_get? surviving memory perLayer nid
    rw [if_pos positive, ← Dict.mem_entries_iff, none] at found
    cases found
  · intro none
    rw [List.eq_nil_iff_forall_not_mem]
    rintro ⟨nid, weight⟩ member
    rw [Dict.mem_entries_iff, eligibleSurvivors_get?] at member
    split at member
    next room =>
      -- only a survivor has any room
      cases found : surviving.get? nid with
      | none => simp [capacity, found] at room
      | some range => exact room.ne' (none nid ((Dict.mem_keys_iff _).mpr ⟨range, found⟩))
    next => cases member

theorem absorbersOf_eq_nil_iff : absorbersOf (eligibleSurvivors surviving memory perLayer)
        (leftEntry failedStart (orderedByRange surviving))
        (rightEntry failedEnd (orderedByRange surviving)) = [] ↔
      roomyNeighbours failedStart failedEnd surviving memory perLayer = [] := by
  rw [← absorbersOf_ids, List.map_eq_nil_iff]

theorem coverTail_of_reached {offset : Int} (full : failedEnd - failedStart + 1 ≤ offset)
    {absorbers : List (String × LayerRange × ℚ)} :
    coverTail failedStart failedEnd offset absorbers plan = plan := by
  cases absorbers with
  | nil => rfl
  | cons a rest => exact if_pos full

theorem absorbers_plan (some : 0 < failedEnd - failedStart + 1)
    (roomy : roomyNeighbours failedStart failedEnd surviving memory perLayer ≠ []) :
    let absorbers := absorbersOf (eligibleSurvivors surviving memory perLayer)
      (leftEntry failedStart (orderedByRange surviving))
      (rightEntry failedEnd (orderedByRange surviving))
    let deadCount := failedEnd - failedStart + 1
    let out :=
      layShares failedStart deadCount (absorberCounts deadCount.toNat absorbers) 0 absorbers
    coverTail failedStart failedEnd out.2 absorbers out.1 = out.1 ∧
      Covers out.1 surviving.keys failedStart failedEnd ∧
      (∀ r ∈ out.1,
        r.survivingNodeId ∈ roomyNeighbours failedStart failedEnd surviving memory perLayer) ∧
      (deadCount ≤
          ∑ nid ∈ (roomyNeighbours failedStart failedEnd surviving memory perLayer).toFinset,
            capacity surviving memory perLayer nid →
        ∀ nid, given out.1 nid ≤ capacity surviving memory perLayer nid) := by
  intro absorbers deadCount out
  have ids : absorbers.map Prod.fst =
      roomyNeighbours failedStart failedEnd surviving memory perLayer := absorbersOf_ids ..
  have nonempty : absorbers ≠ [] := fun none => roomy (absorbersOf_eq_nil_iff.mp none)
  have laid := layShares_laid failedStart deadCount
    (absorberCounts deadCount.toNat absorbers) some.le absorbers
  obtain ⟨reached, within⟩ : SharesWithin failedStart deadCount _ absorbers :=
    absorbers_within some.le nonempty
  have near : ∀ r ∈ out.1,
      r.survivingNodeId ∈ roomyNeighbours failedStart failedEnd surviving memory perLayer :=
    fun r member => ids ▸ laid.ids r member
  refine ⟨?_, ⟨fun layer low high => ?_, fun r member => ?_⟩, near, ids ▸ within⟩
  · exact coverTail_of_reached reached.ge
  · have all : out.2 = deadCount := reached
    rw [laid.adds]
    exact if_pos ⟨by omega, by omega⟩
  · exact (mem_roomyNeighbours (near r member)).1

/-- What a call comes to. It raises only if the memory for a layer is zero or the nearest survivors
have no layers together, and else gives each orphaned layer to one survivor. -/
def Outcome (failedStart failedEnd : Int) (surviving : Dict String LayerRange)
    (survivorMemory : Option (Dict String ℚ)) (perLayer : ℚ) :
    Except RecoveryError (List LayerRedistribution) → Prop
  | .error _ => survivorMemory.isSome ∧ perLayer = 0 ∨ Unsplittable failedStart failedEnd surviving
  | .ok plan => Covers plan surviving.keys failedStart failedEnd ∧
      ∀ memory ∈ survivorMemory, Respects failedStart failedEnd surviving memory perLayer plan

variable {survivorMemory : Option (Dict String ℚ)}

section

variable (nonempty : surviving.entries ≠ [])

include nonempty

theorem outcome_even (some : 0 < failedEnd - failedStart + 1)
    (respects : ∀ plan, computeRedistributions failedStart failedEnd surviving = .ok plan →
      ∀ memory ∈ survivorMemory, Respects failedStart failedEnd surviving memory perLayer plan) :
    Outcome failedStart failedEnd surviving survivorMemory perLayer
      (computeRedistributions failedStart failedEnd surviving) := by
  cases returns : computeRedistributions failedStart failedEnd surviving with
  | error raised => exact .inr (computeRedistributions_error nonempty some returns)
  | ok plan => exact ⟨computeRedistributions_ok nonempty returns, respects plan returns⟩

theorem outcome_nothing (none : failedEnd - failedStart + 1 ≤ 0) :
    Outcome failedStart failedEnd surviving survivorMemory perLayer (.ok []) := by
  refine ⟨covers_of_none none, fun memory _ => ⟨fun _ _ => ⟨fun r member => ?_, ?_⟩, fun _ => ?_⟩⟩
  · cases member
  · intro _ nid
    exact capacity_nonneg nid
  · exact computeRedistributions_nothing nonempty none

theorem outcome_unroomy (some : 0 < failedEnd - failedStart + 1)
    (unroomy : roomyNeighbours failedStart failedEnd surviving memory perLayer = []) :
    Outcome failedStart failedEnd surviving (.some memory) perLayer
      (computeRedistributions failedStart failedEnd surviving) := by
  refine outcome_even nonempty some fun plan returns => ?_
  rintro _ ⟨⟩
  exact ⟨fun _ roomy => absurd unroomy roomy, fun _ => returns⟩

end

theorem roomyNeighbours_eq_nil
    (noRoom : ∀ nid ∈ surviving.keys, capacity surviving memory perLayer nid = 0) :
    roomyNeighbours failedStart failedEnd surviving memory perLayer = [] := by
  rw [List.eq_nil_iff_forall_not_mem]
  intro nid near
  obtain ⟨survives, room⟩ := mem_roomyNeighbours near
  exact room.ne' (noRoom nid survives)

/-- The span is divided anew where the layout is broken, or has nobody beside the orphaned range. -/
theorem outcome_retiled (nonempty : surviving.entries ≠ [])
    (room : ¬ ∀ nid ∈ surviving.keys, capacity surviving memory perLayer nid = 0)
    (apart : isCleanTiling failedStart failedEnd (orderedByRange surviving) = true →
      roomyNeighbours failedStart failedEnd surviving memory perLayer = [] ∧
        leftEntry failedStart (orderedByRange surviving) = none ∧
        rightEntry failedEnd (orderedByRange surviving) = none) (eligible : Dict String ℚ) :
    Outcome failedStart failedEnd surviving (some memory) perLayer
      (.ok (retileByCapacity (orderedByRange surviving) failedStart failedEnd eligible)) := by
  refine ⟨retileByCapacity_covers nonempty eligible, ?_⟩
  rintro _ ⟨⟩
  refine ⟨fun clean roomy => absurd (apart clean).1 roomy, ?_⟩
  rintro (noRoom | ⟨clean, -, beside⟩)
  · exact absurd noRoom room
  · obtain ⟨-, left, right⟩ := apart clean
    simp [left, right] at beside

theorem outcome_absorbed (some : 0 < failedEnd - failedStart + 1)
    (roomy : roomyNeighbours failedStart failedEnd surviving memory perLayer ≠ []) :
    let absorbers := absorbersOf (eligibleSurvivors surviving memory perLayer)
      (leftEntry failedStart (orderedByRange surviving))
      (rightEntry failedEnd (orderedByRange surviving))
    let deadCount := failedEnd - failedStart + 1
    let out :=
      layShares failedStart deadCount (absorberCounts deadCount.toNat absorbers) 0 absorbers
    Outcome failedStart failedEnd surviving (.some memory) perLayer
      (.ok (coverTail failedStart failedEnd out.2 absorbers out.1)) := by
  intro absorbers deadCount out
  obtain ⟨plain, covers, near, within⟩ := absorbers_plan some roomy
  rw [plain]
  refine ⟨covers, ?_⟩
  rintro _ ⟨⟩
  refine ⟨fun _ _ => ⟨near, within⟩, ?_⟩
  rintro (noRoom | ⟨-, unroomy, -⟩)
  · exact absurd (roomyNeighbours_eq_nil noRoom) roomy
  · exact absurd unroomy roomy

/-- **Redistribution within the free memory.** With a survivor, every call that does not raise gives
each orphaned layer to one survivor, and respects the figures of the memory. -/
theorem capacityAware_outcome (nonempty : surviving.entries ≠ [])
    (survivorMemory : Option (Dict String ℚ)) :
    Outcome failedStart failedEnd surviving survivorMemory perLayer
      (computeRedistributionsCapacityAware failedStart failedEnd surviving survivorMemory
        perLayer) := by
  unfold computeRedistributionsCapacityAware
  dsimp only
  rw [if_neg nonempty]
  -- the guards in the order in which the source tests them, one outcome for each
  by_cases none : failedEnd - failedStart + 1 ≤ 0
  · rw [if_pos none]
    exact outcome_nothing nonempty none
  have some : 0 < failedEnd - failedStart + 1 := not_le.mp none
  rw [if_neg none]
  cases survivorMemory with
  | none => exact outcome_even nonempty some fun _ _ memory unknown => by cases unknown
  | some memory =>
    dsimp only
    by_cases zero : perLayer = 0
    · rw [if_pos zero]
      exact .inl ⟨rfl, zero⟩
    rw [if_neg zero]
    by_cases nobody : (eligibleSurvivors surviving memory perLayer).entries = []
    · rw [if_pos nobody]
      exact outcome_unroomy nonempty some
        (roomyNeighbours_eq_nil (eligibleSurvivors_eq_nil_iff.mp nobody))
    rw [if_neg nobody]
    have room := mt eligibleSurvivors_eq_nil_iff.mpr nobody
    by_cases clean : isCleanTiling failedStart failedEnd (orderedByRange surviving) = true
    · rw [if_neg (by simp [clean])]
      by_cases roomy : roomyNeighbours failedStart failedEnd surviving memory perLayer = []
      · rw [if_pos (absorbersOf_eq_nil_iff.mpr roomy)]
        split
        next alone =>
          rw [Bool.and_eq_true, Option.isNone_iff_eq_none, Option.isNone_iff_eq_none] at alone
          exact outcome_retiled nonempty room (fun _ => ⟨roomy, alone⟩) _
        next => exact outcome_unroomy nonempty some roomy
      · rw [if_neg (mt absorbersOf_eq_nil_iff.mp roomy)]
        exact outcome_absorbed some roomy
    · rw [if_pos (by simp [clean])]
      exact outcome_retiled nonempty room (fun tiles => absurd tiles clean) _

/-- The orphaned layers 4 to 7 with a neighbour on each side, and one survivor farther out. -/
def threeSurvivors : Dict String LayerRange :=
  ((∅ : Dict String LayerRange).set "a" (0, 3)).set "b" (8, 11) |>.set "c" (12, 15)

/-- The neighbours have room for three layers and for two. -/
theorem neighbours_with_room :
    Outcome 4 7 threeSurvivors (some (((∅ : Dict String ℚ).set "a" 7).set "b" 6)) 1
      (computeRedistributionsCapacityAware 4 7 threeSurvivors
        (some (((∅ : Dict String ℚ).set "a" 7).set "b" 6)) 1) :=
  capacityAware_outcome (by decide) _

/-- Only the survivor that is farther out has room, and the neighbours take the layers all the same.
With no survivors nobody takes them, and with no memory per layer there is no plan. -/
theorem neighbours_without_room :
    (¬ ∀ (failedStart failedEnd : Int) (surviving : Dict String LayerRange)
        (memory : Dict String ℚ) (perLayer : ℚ) (plan : List LayerRedistribution),
      computeRedistributionsCapacityAware failedStart failedEnd surviving (some memory) perLayer =
        .ok plan → ∀ r ∈ plan, 0 < capacity surviving memory perLayer r.survivingNodeId) ∧
    computeRedistributionsCapacityAware 4 7 ∅ (some ∅) 1 = .ok [] ∧
    computeRedistributionsCapacityAware 4 7 threeSurvivors (some ∅) 0 = .error .zeroDivision := by
  refine ⟨fun eligible => ?_, rfl, rfl⟩
  have plan : computeRedistributionsCapacityAware 4 7 threeSurvivors
      (some ((∅ : Dict String ℚ).set "c" 100)) 1 = .ok
        [{ survivingNodeId := "a", addedStartLayer := 4, addedEndLayer := 5, newStartLayer := 0,
           newEndLayer := 5 },
         { survivingNodeId := "b", addedStartLayer := 6, addedEndLayer := 7, newStartLayer := 6,
           newEndLayer := 11 }] := by
    have ordered : orderedByRange threeSurvivors = threeSurvivors.entries :=
      List.mergeSort_of_pairwise (by decide)
    unfold computeRedistributionsCapacityAware computeRedistributions
    rw [ordered]
    decide +kernel
  exact absurd (eligible _ _ _ _ _ _ plan _ (List.mem_cons_self ..)) (by decide +kernel)

end DistLLM.Recovery
