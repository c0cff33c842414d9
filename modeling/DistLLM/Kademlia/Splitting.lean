import DistLLM.Kademlia.Invariant

/-!
# Whom the routing table refuses

`insert_node` splits a full bucket once. Compared with splitting as long as the bucket of the new
node has the local ID in its range.
-/
namespace DistLLM.Kademlia

open Library

namespace KBucket

variable {b : KBucket} {now : Rat} {node : KademliaNode} {nodeId : NodeId}

def halfOf (b : KBucket) (now : Rat) (nodeId : NodeId) : KBucket :=
  if fromBytes nodeId ≤ b.mid then (b.split now).1 else (b.split now).2

theorem halfOf_shorter (wide : 1 < b.rangeEnd - b.rangeStart) :
    (b.halfOf now nodeId).rangeEnd - (b.halfOf now nodeId).rangeStart <
      b.rangeEnd - b.rangeStart := by
  have inner := b.mid_bounds (by omega)
  unfold halfOf
  split <;> simp only [KBucket.split] <;> omega

theorem halfOf_size_le : (b.halfOf now nodeId).nodes.size ≤ b.nodes.size := by
  unfold halfOf
  split <;> exact List.length_filter_le _ _

theorem halfOf_absent (absent : b.nodes.get? nodeId = none) :
    (b.halfOf now nodeId).nodes.get? nodeId = none := by
  unfold halfOf
  split <;> simp [KBucket.split, Dict.get?_filterKeys, absent]

theorem halfOf_inRange (covers : b.inRange nodeId = true) :
    (b.halfOf now nodeId).inRange nodeId = true := by
  obtain ⟨above, below⟩ : b.Covers (fromBytes nodeId) := of_decide_eq_true covers
  refine decide_eq_true (p := KBucket.Covers _ _) ?_
  unfold halfOf
  split
  next low => exact ⟨above, low⟩
  next high => exact ⟨not_le.mp high, below⟩

theorem addNode_refused_iff : (b.addNode now node).1 = false ↔
    b.nodes.get? node.nodeId = none ∧ K ≤ b.nodes.size := by
  unfold addNode
  cases present : b.nodes.get? node.nodeId with
  | some old => simp
  | none => by_cases full : K ≤ b.nodes.size <;> simp [isFull, full]

end KBucket

namespace RoutingTable

variable {t : RoutingTable} {now : Rat} {node : KademliaNode} {nodeId : NodeId} {idx : Nat}
  {bucket : KBucket}

/-- What is left of a bucket for an ID when it is split as long as that can be done. -/
def narrowed (t : RoutingTable) (now : Rat) (nodeId : NodeId) (bucket : KBucket) : KBucket :=
  if _can : t.canSplit bucket = true then t.narrowed now nodeId (bucket.halfOf now nodeId)
  else bucket
termination_by bucket.rangeEnd - bucket.rangeStart
decreasing_by
  simp only [canSplit, Bool.and_eq_true, decide_eq_true_eq] at _can
  exact KBucket.halfOf_shorter _can.2

theorem narrowed_size_le (t : RoutingTable) (now : Rat) (nodeId : NodeId) (bucket : KBucket) :
    (t.narrowed now nodeId bucket).nodes.size ≤ bucket.nodes.size := by
  induction bucket using narrowed.induct t now nodeId with
  | case1 bucket can ih =>
    rw [narrowed, dif_pos can]
    exact ih.trans KBucket.halfOf_size_le
  | case2 bucket cannot => rw [narrowed, dif_neg cannot]

theorem findBucket_of_parts {before after : List KBucket}
    (parts : t.buckets = before ++ bucket :: after)
    (others : ∀ b ∈ before, b.inRange nodeId = false) (here : bucket.inRange nodeId = true) :
    t.findBucket nodeId = some (before.length, bucket) := by
  have none : before.findIdx? (fun b => b.inRange nodeId) = none :=
    List.findIdx?_eq_none_iff.mpr others
  simp [findBucket, parts, List.findIdx?_append, none, List.findIdx?_cons, here]

theorem findBucket_first (found : t.findBucket nodeId = some (idx, bucket)) :
    ∀ b ∈ t.buckets.take idx, b.inRange nodeId = false := by
  obtain ⟨place, first, there⟩ := Option.bind_eq_some_iff.mp found
  obtain ⟨b, -, same⟩ := Option.map_eq_some_iff.mp there
  cases same
  obtain ⟨inside, -, earlier⟩ := List.findIdx?_eq_some_iff_getElem.mp first
  intro b member
  obtain ⟨j, low, rfl⟩ := List.mem_take_iff_getElem.mp member
  simpa using earlier j (by omega)

/-- After the split, the ID is looked for in the half that it belongs to. -/
theorem findBucket_halved (now : Rat) (found : t.findBucket nodeId = some (idx, bucket))
    (b : KBucket) :
    ∃ newIdx, ((t.replace idx [b]).splitBucket now idx bucket).findBucket nodeId =
      some (newIdx, bucket.halfOf now nodeId) := by
  obtain ⟨present, covers⟩ := findBucket_spec found
  obtain ⟨inside, -⟩ := List.getElem?_eq_some_iff.mp present
  have earlier := findBucket_first found
  have halved : ((t.replace idx [b]).splitBucket now idx bucket).buckets =
      t.buckets.take idx ++ (bucket.split now).1 :: (bucket.split now).2 ::
        t.buckets.drop (idx + 1) := by
    have length : (t.buckets.take idx).length = idx := List.length_take_of_le inside.le
    simp [splitBucket, replace, List.drop_append, length]
  have here : (bucket.halfOf now nodeId).inRange nodeId = true := KBucket.halfOf_inRange covers
  by_cases low : fromBytes nodeId ≤ bucket.mid
  · rw [KBucket.halfOf, if_pos low] at here ⊢
    exact ⟨_, findBucket_of_parts halved earlier here⟩
  · rw [KBucket.halfOf, if_neg low] at here ⊢
    have parts : ((t.replace idx [b]).splitBucket now idx bucket).buckets =
        (t.buckets.take idx ++ [(bucket.split now).1]) ++ (bucket.split now).2 ::
          t.buckets.drop (idx + 1) := by
      simp [halved]
    refine ⟨_, findBucket_of_parts parts ?_ here⟩
    intro b member
    rcases List.mem_append.mp member with old | new
    · exact earlier b old
    · rw [List.mem_singleton.mp new]
      simp [KBucket.inRange, KBucket.Covers, KBucket.split, low]

/-- The node is refused by a full bucket, and by its half where that bucket is split. -/
theorem insertNode_refused_iff (other : node.nodeId ≠ t.localNodeId)
    (found : t.findBucket node.nodeId = some (idx, bucket)) :
    (t.insertNode now node).1 = false ↔ bucket.nodes.get? node.nodeId = none ∧
      K ≤ bucket.nodes.size ∧
        (t.canSplit bucket = true → K ≤ (bucket.halfOf now node.nodeId).nodes.size) := by
  have refused : (bucket.addNode now node).1 = false ↔ _ := KBucket.addNode_refused_iff
  cases added : (bucket.addNode now node).1 with
  | true =>
    have taken : (t.insertNode now node).1 = true := by simp [insertNode, other, found, added]
    rw [added] at refused
    rw [taken]
    constructor
    · intro impossible
      cases impossible
    · rintro ⟨absent, full, -⟩
      exact refused.mpr ⟨absent, full⟩
  | false =>
    obtain ⟨absent, full⟩ := refused.mp added
    have touched : (bucket.addNode now node).2 = bucket.touch now := by
      simp [KBucket.addNode, absent, KBucket.isFull, full]
    by_cases can : t.canSplit bucket = true
    · -- the half that the node belongs to decides
      obtain ⟨newIdx, again⟩ := findBucket_halved now found (bucket.touch now)
      have half : (t.insertNode now node).1 =
          ((bucket.halfOf now node.nodeId).addNode now node).1 := by
        have same : ((t.replace idx [bucket.touch now]).splitBucket now idx (bucket.touch now)) =
            (t.replace idx [bucket.touch now]).splitBucket now idx bucket := rfl
        simp [insertNode, other, found, added, touched, can, same, again]
      rw [half, KBucket.addNode_refused_iff]
      simp [KBucket.halfOf_absent absent, absent, full, can]
    · have rejected : (t.insertNode now node).1 = false := by
        simp [insertNode, other, found, added, can]
      simp [rejected, absent, full, can]

/-- A node is refused only where `K` nodes stay with it, however often its bucket is split. -/
def RefusesFullOnly (t : RoutingTable) (now : Rat) (node : KademliaNode) : Prop :=
  (t.insertNode now node).1 = false → ∀ idx bucket,
    t.findBucket node.nodeId = some (idx, bucket) →
      K ≤ (t.narrowed now node.nodeId bucket).nodes.size

/-- The first split of the bucket leaves `K` nodes with the new one, and a later one does not. -/
def SplitsTooLittle (t : RoutingTable) (now : Rat) (node : KademliaNode) : Prop :=
  ∃ idx bucket, t.findBucket node.nodeId = some (idx, bucket) ∧
    bucket.nodes.get? node.nodeId = none ∧ t.canSplit bucket = true ∧
      K ≤ (bucket.halfOf now node.nodeId).nodes.size ∧
        (t.narrowed now node.nodeId bucket).nodes.size < K

/-- **Refusals.** A node other than the local one is refused for lack of space only, if and only
if no more than one split is needed to make room for it. -/
theorem refuses_full_only_iff (other : node.nodeId ≠ t.localNodeId) :
    t.RefusesFullOnly now node ↔ ¬ t.SplitsTooLittle now node := by
  constructor
  · rintro fullOnly ⟨idx, bucket, found, absent, can, half, room⟩
    have refused := (insertNode_refused_iff other found).mpr
      ⟨absent, half.trans KBucket.halfOf_size_le, fun _ => half⟩
    exact absurd (fullOnly refused idx bucket found) (not_le.mpr room)
  · intro enough refused idx bucket found
    obtain ⟨absent, full, half⟩ := (insertNode_refused_iff other found).mp refused
    by_contra room
    by_cases can : t.canSplit bucket = true
    · exact enough ⟨idx, bucket, found, absent, can, half can, not_le.mp room⟩
    · rw [narrowed, dif_neg can] at room
      exact room full

/-- A node between the twenty others is refused, and two splits leave all of them with it. -/
theorem refuses_full_only_between :
    (twentyNodes.insertNode 0 ⟨idOf 0x40 20, "10.0.0.2", 8468, 0⟩).1 = false ∧
      twentyNodes.RefusesFullOnly 0 ⟨idOf 0x40 20, "10.0.0.2", 8468, 0⟩ := by
  refine ⟨by decide +kernel, (refuses_full_only_iff (by decide)).mpr ?_⟩
  rintro ⟨idx, bucket, found, -, can, -, room⟩
  have splits : ∀ b ∈ twentyNodes.buckets,
      twentyNodes.canSplit (b.halfOf 0 (idOf 0x40 20)) = true ∧
        twentyNodes.canSplit ((b.halfOf 0 (idOf 0x40 20)).halfOf 0 (idOf 0x40 20)) = false ∧
          K ≤ ((b.halfOf 0 (idOf 0x40 20)).halfOf 0 (idOf 0x40 20)).nodes.size := by
    decide +kernel
  obtain ⟨again, last, full⟩ := splits bucket (List.mem_of_getElem? (findBucket_spec found).1)
  rw [narrowed, dif_pos can, narrowed, dif_pos again, narrowed, dif_neg (by simp [last])] at room
  exact absurd room (not_lt.mpr full)

/-- A second split would put the neighbour of the local node into an empty bucket. -/
theorem neighbour_refused : ¬ ∀ localNodeId t, (routing localNodeId).Reachable t →
    ∀ now (node : KademliaNode), node.nodeId ≠ t.localNodeId → fromBytes node.nodeId < 2 ^ B →
      t.RefusesFullOnly now node := by
  intro always
  have splits : ∀ b ∈ twentyNodes.buckets, twentyNodes.canSplit b = true ∧
      twentyNodes.canSplit (b.halfOf 0 (idOf 0 1)) = true ∧
        ((b.halfOf 0 (idOf 0 1)).halfOf 0 (idOf 0 1)).nodes.size = 0 := by
    decide +kernel
  obtain ⟨⟨idx, bucket⟩, found⟩ := Option.isSome_iff_exists.mp
    (show (twentyNodes.findBucket (idOf 0 1)).isSome = true by decide +kernel)
  obtain ⟨can, again, empty⟩ := splits bucket (List.mem_of_getElem? (findBucket_spec found).1)
  have full := always _ _ twentyNodes_reachable 0 ⟨idOf 0 1, "10.0.0.2", 8468, 0⟩ (by decide +kernel)
    (by decide +kernel) (by decide +kernel) idx bucket found
  rw [narrowed, dif_pos can, narrowed, dif_pos again] at full
  have room := full.trans (narrowed_size_le _ _ _ _)
  rw [empty] at room
  exact absurd room (by decide)

end RoutingTable

end DistLLM.Kademlia
