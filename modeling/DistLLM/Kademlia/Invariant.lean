import DistLLM.Kademlia.RoutingTable

/-!
# The routing-table invariant

The ranges of the buckets follow each other from the first ID to the last one, and each bucket
has nodes of its range only. All else follows from that.
-/
namespace DistLLM.Kademlia

open Library

structure KBucket.Holds (localNodeId : NodeId) (b : KBucket) : Prop where
  small : b.nodes.size ≤ K
  inRange : ∀ nid node, b.nodes.get? nid = some node → b.Covers (fromBytes nid)
  keyed : ∀ nid node, b.nodes.get? nid = some node → node.nodeId = nid
  remote : b.nodes.get? localNodeId = none

/-- The range from its start to behind its end. -/
def KBucket.range (b : KBucket) : Nat × Nat := (b.rangeStart, b.rangeEnd + 1)

structure RoutingTable.WellFormed (t : RoutingTable) : Prop where
  tiles : Tiles 0 (t.buckets.map KBucket.range) (2 ^ B)
  holds : ∀ b ∈ t.buckets, b.Holds t.localNodeId

/-! ### Buckets -/

namespace KBucket

variable {b : KBucket} {localNodeId : NodeId}

theorem addNode_range (b : KBucket) (now : Rat) (node : KademliaNode) :
    (b.addNode now node).2.range = b.range := by
  unfold addNode
  split
  · rfl
  · split <;> rfl

section

variable (holds : b.Holds localNodeId)

include holds

theorem Holds.of_nodes {b' : KBucket} (range : b'.range = b.range)
    (size : b'.nodes.size ≤ b.nodes.size)
    (nodes : ∀ nid node, b'.nodes.get? nid = some node → b.nodes.get? nid = some node) :
    b'.Holds localNodeId where
  small := size.trans holds.small
  inRange nid node found := by
    have covered := holds.inRange nid node (nodes nid node found)
    obtain ⟨begins, ends⟩ := Prod.mk.inj range
    simp only [Covers] at covered ⊢
    omega
  keyed nid node found := holds.keyed nid node (nodes nid node found)
  remote := by
    rw [Option.eq_none_iff_forall_ne_some]
    intro node found
    cases holds.remote.symm.trans (nodes _ _ found)

theorem Holds.addNode (now : Rat) {node : KademliaNode} (covered : b.inRange node.nodeId = true)
    (other : node.nodeId ≠ localNodeId) :
    (b.addNode now node).2.Holds localNodeId := by
  unfold KBucket.addNode
  split
  · -- a node that is there already keeps its entry
    refine holds.of_nodes rfl ?_ fun nid old found => ?_
    · exact (b.nodes.entries_moveToEnd_perm _).length_eq.le
    · rwa [Dict.get?_moveToEnd] at found
  next new =>
    split
    next free =>
      have absent : b.nodes.get? node.nodeId = none := by simpa using new
      constructor
      · have room : b.nodes.size < K :=
          lt_of_not_ge (of_decide_eq_false (Bool.not_eq_true' _ |>.mp free))
        simp only [Dict.size, Dict.entries_set_of_absent _ _ _ absent, List.length_append,
          List.length_singleton]
        exact room
      · intro nid old found
        rw [Dict.get?_set] at found
        split at found
        next same =>
          subst same
          exact of_decide_eq_true covered
        next => exact holds.inRange nid old found
      · intro nid old found
        rw [Dict.get?_set] at found
        split at found
        next same =>
          cases found
          exact same
        next => exact holds.keyed nid old found
      · rw [Dict.get?_set, if_neg other, holds.remote]
    next => exact holds.of_nodes rfl le_rfl fun _ _ => id

theorem Holds.removeNode (nodeId : NodeId) :
    (b.removeNode nodeId).Holds localNodeId := by
  refine holds.of_nodes rfl (List.length_filter_le _ _) fun nid node found => ?_
  · rw [KBucket.removeNode, Dict.get?_filterKeys] at found
    split at found
    · exact found
    · cases found

theorem Holds.split (now : Rat) :
    (b.split now).1.Holds localNodeId ∧ (b.split now).2.Holds localNodeId := by
  have part (keep : NodeId → Bool) (start stop : Nat)
      (kept : ∀ nid, keep nid = true → b.Covers (fromBytes nid) →
        start ≤ fromBytes nid ∧ fromBytes nid ≤ stop) :
      KBucket.Holds localNodeId ⟨start, stop, b.nodes.filterKeys keep, now⟩ := by
    have found_before : ∀ nid node, (b.nodes.filterKeys keep).get? nid = some node →
        keep nid = true ∧ b.nodes.get? nid = some node := by
      intro nid node found
      rw [Dict.get?_filterKeys] at found
      split at found
      next keeps => exact ⟨keeps, found⟩
      next => cases found
    constructor
    · exact (List.length_filter_le _ _).trans holds.small
    · intro nid node found
      obtain ⟨keeps, before⟩ := found_before nid node found
      exact kept nid keeps (holds.inRange nid node before)
    · intro nid node found
      exact holds.keyed nid node (found_before nid node found).2
    · rw [Dict.get?_filterKeys, holds.remote, ite_self]
  constructor
  · apply part
    intro nid low covered
    exact ⟨covered.1, of_decide_eq_true low⟩
  · apply part
    intro nid high covered
    simp only [Bool.not_eq_true', decide_eq_false_iff_not, not_le] at high
    exact ⟨high, covered.2⟩

end

theorem mid_bounds (wide : b.rangeStart < b.rangeEnd) :
    b.rangeStart ≤ b.mid ∧ b.mid < b.rangeEnd := by
  unfold mid
  omega

end KBucket

/-! ### The table -/

namespace RoutingTable

variable {t : RoutingTable} {bucket : KBucket} {idx : Nat}

theorem findBucket_spec {nodeId : NodeId} (found : t.findBucket nodeId = some (idx, bucket)) :
    t.buckets[idx]? = some bucket ∧ bucket.inRange nodeId = true := by
  obtain ⟨place, first, there⟩ := Option.bind_eq_some_iff.mp found
  obtain ⟨b, present, same⟩ := Option.map_eq_some_iff.mp there
  cases same
  obtain ⟨inside, covers, -⟩ := List.findIdx?_eq_some_iff_getElem.mp first
  rw [List.getElem?_eq_getElem inside] at present
  cases present
  exact ⟨List.getElem?_eq_getElem inside, covers⟩

theorem buckets_eq (present : t.buckets[idx]? = some bucket) :
    t.buckets = t.buckets.take idx ++ bucket :: t.buckets.drop (idx + 1) := by
  obtain ⟨inside, here⟩ := List.getElem?_eq_some_iff.mp present
  rw [← here, ← List.drop_eq_getElem_cons inside, List.take_append_drop]

theorem WellFormed.bucket_holds (formed : t.WellFormed)
    (present : t.buckets[idx]? = some bucket) : bucket.Holds t.localNodeId :=
  formed.holds bucket (List.mem_of_getElem? present)

theorem WellFormed.replace (formed : t.WellFormed) {bucket' : KBucket}
    (present : t.buckets[idx]? = some bucket) (range : bucket'.range = bucket.range)
    (holds : bucket'.Holds t.localNodeId) : (t.replace idx [bucket']).WellFormed := by
  obtain ⟨tiles, all⟩ := formed
  rw [buckets_eq present] at tiles all
  constructor
  · simpa [RoutingTable.replace, range] using tiles
  · intro b member
    simp only [RoutingTable.replace, List.append_assoc, List.mem_append, List.mem_cons,
      List.not_mem_nil, or_false] at member
    rcases member with before | rfl | after
    · exact all b (List.mem_append_left _ before)
    · exact holds
    · exact all b (List.mem_append_right _ (List.mem_cons_of_mem _ after))

theorem WellFormed.splitBucket (formed : t.WellFormed) (now : Rat)
    (present : t.buckets[idx]? = some bucket) (wide : bucket.rangeStart < bucket.rangeEnd) :
    (t.splitBucket now idx bucket).WellFormed := by
  obtain ⟨left, right⟩ := (formed.bucket_holds present).split now
  obtain ⟨tiles, all⟩ := formed
  obtain ⟨above, below⟩ := KBucket.mid_bounds wide
  rw [buckets_eq present] at tiles all
  constructor
  · rw [List.map_append, List.map_cons] at tiles
    have cut := tiles.cut (show bucket.rangeStart < bucket.mid + 1 by omega) (by omega)
    simpa [RoutingTable.splitBucket, RoutingTable.replace, KBucket.range, KBucket.split] using cut
  · intro b member
    simp only [RoutingTable.splitBucket, RoutingTable.replace, List.append_assoc, List.mem_append,
      List.mem_cons, List.not_mem_nil, or_false] at member
    rcases member with before | (rfl | rfl) | after
    · exact all b (List.mem_append_left _ before)
    · exact left
    · exact right
    · exact all b (List.mem_append_right _ (List.mem_cons_of_mem _ after))

theorem getElem?_replace (present : t.buckets[idx]? = some bucket) (bucket' : KBucket) :
    (t.replace idx [bucket']).buckets[idx]? = some bucket' := by
  obtain ⟨inside, -⟩ := List.getElem?_eq_some_iff.mp present
  simp [RoutingTable.replace, inside.le]

theorem WellFormed.addNode (formed : t.WellFormed) (now : Rat) {node : KademliaNode}
    (found : t.findBucket node.nodeId = some (idx, bucket)) (other : node.nodeId ≠ t.localNodeId) :
    (t.replace idx [(bucket.addNode now node).2]).WellFormed := by
  obtain ⟨present, covered⟩ := findBucket_spec found
  exact formed.replace present (bucket.addNode_range now node)
    ((formed.bucket_holds present).addNode now covered other)

theorem WellFormed.insertNode (formed : t.WellFormed) (now : Rat) (node : KademliaNode) :
    (t.insertNode now node).2.WellFormed := by
  unfold RoutingTable.insertNode
  split
  · exact formed
  next other =>
    split
    · exact formed
    next idx bucket found =>
      have touched := formed.addNode now found other
      have present := getElem?_replace (findBucket_spec found).1 (bucket.addNode now node).2
      dsimp only
      split
      · exact touched
      · split
        next can =>
          -- a bucket that is split has more than two IDs
          have wide : 1 < bucket.rangeEnd - bucket.rangeStart := by
            simp only [RoutingTable.canSplit, Bool.and_eq_true, decide_eq_true_eq] at can
            exact can.2
          have same := Prod.mk.inj (bucket.addNode_range now node)
          have halved := touched.splitBucket now present (by omega)
          split
          next again => exact halved.addNode now again other
          next => exact halved
        next => exact touched

theorem WellFormed.removeNode (formed : t.WellFormed) (nodeId : NodeId) :
    (t.removeNode nodeId).WellFormed := by
  unfold RoutingTable.removeNode
  split
  next idx bucket found =>
    obtain ⟨present, -⟩ := findBucket_spec found
    exact formed.replace present rfl ((formed.bucket_holds present).removeNode nodeId)
  next => exact formed

theorem create_wellFormed (localNodeId : NodeId) (now : Rat) :
    (create localNodeId now).WellFormed := by
  have last : 2 ^ B - 1 + 1 = 2 ^ B := Nat.sub_add_cancel Nat.one_le_two_pow
  constructor
  · exact ⟨rfl, Nat.succ_pos _, last⟩
  · intro b member
    obtain rfl := List.mem_singleton.mp member
    constructor
    · exact Nat.zero_le _
    · intro nid node found
      cases found
    · intro nid node found
      cases found
    · rfl

theorem exec_localNodeId (t : RoutingTable) (act : TableAction) :
    (t.exec act).localNodeId = t.localNodeId := by
  cases act with
  | insertNode now node =>
    simp only [RoutingTable.exec, RoutingTable.insertNode]
    split
    · rfl
    · split
      · rfl
      · split
        · rfl
        · split
          · split <;> rfl
          · rfl
  | removeNode nodeId =>
    simp only [RoutingTable.exec, RoutingTable.removeNode]
    split <;> rfl
  | split now idx | touch now idx =>
    simp only [RoutingTable.exec]
    split <;> rfl

/-- By operation; only a split changes the ranges. -/
theorem WellFormed.exec (formed : t.WellFormed) {act : TableAction}
    (enabled : (routing t.localNodeId).enabled t act) : (t.exec act).WellFormed := by
  cases act with
  | insertNode now node => exact formed.insertNode now node
  | removeNode nodeId => exact formed.removeNode nodeId
  | split now idx =>
    simp only [RoutingTable.exec]
    split
    next bucket present =>
      exact formed.splitBucket now present (enabled now idx bucket rfl present)
    next => exact formed
  | touch now idx =>
    simp only [RoutingTable.exec]
    split
    next bucket present =>
      exact formed.replace present rfl
        ((formed.bucket_holds present).of_nodes rfl le_rfl fun _ _ => id)
    next => exact formed

/-- The buckets have the IDs of 160 bits among them, each with at most `K` nodes of its range; no
node is there twice, and the local node is not there. -/
structure Partitioned (t : RoutingTable) : Prop where
  covered : ∀ value, value < 2 ^ B ↔ ∃ b ∈ t.buckets, b.Covers value
  apart : t.buckets.Pairwise fun b b' => ∀ value, b.Covers value → ¬ b'.Covers value
  nonempty : ∀ b ∈ t.buckets, ∃ value, b.Covers value
  small : ∀ b ∈ t.buckets, b.nodes.size ≤ K
  inRange : ∀ b ∈ t.buckets, ∀ node ∈ b.nodes.values, b.inRange node.nodeId = true
  distinct : (t.allNodes.map KademliaNode.nodeId).Nodup
  remote : t.localNodeId ∉ t.allNodes.map KademliaNode.nodeId

section

variable (formed : t.WellFormed)

include formed

theorem WellFormed.apart :
    t.buckets.Pairwise fun b b' => ∀ value, b.Covers value → ¬ b'.Covers value := by
  refine (List.pairwise_map.mp formed.tiles.pairwise).imp fun {b b'} follows value here there => ?_
  simp only [KBucket.range, KBucket.Covers] at follows here there
  omega

theorem WellFormed.ids_eq {b : KBucket} (member : b ∈ t.buckets) :
    b.nodes.values.map KademliaNode.nodeId = b.nodes.keys := by
  rw [Dict.values, Dict.keys, List.map_map]
  apply List.map_congr_left
  rintro ⟨nid, node⟩ entry
  exact (formed.holds b member).keyed nid node ((Dict.mem_entries_iff _ _ _).mp entry)

theorem WellFormed.allNodes_ids :
    t.allNodes.map KademliaNode.nodeId = t.buckets.flatMap fun b => b.nodes.keys := by
  rw [allNodes, List.map_flatMap]
  apply List.flatMap_congr
  intro b member
  exact formed.ids_eq member

theorem WellFormed.covers_of_mem {b : KBucket} (member : b ∈ t.buckets) {nid : NodeId}
    (here : nid ∈ b.nodes.keys) : b.Covers (fromBytes nid) := by
  obtain ⟨node, found⟩ := (Dict.mem_keys_iff _).mp here
  exact (formed.holds b member).inRange nid node found

theorem WellFormed.partitioned : t.Partitioned where
  covered value := by
    constructor
    · intro low
      obtain ⟨r, member, above, below⟩ := formed.tiles.covers (Nat.zero_le value) low
      obtain ⟨b, inside, rfl⟩ := List.mem_map.mp member
      exact ⟨b, inside, above, Nat.le_of_lt_succ below⟩
    · rintro ⟨b, inside, -, below⟩
      have bounds := formed.tiles.bounds (List.mem_map_of_mem (f := KBucket.range) inside)
      simp only [KBucket.range] at bounds
      omega
  apart := formed.apart
  nonempty b member := by
    have bounds := formed.tiles.bounds (List.mem_map_of_mem (f := KBucket.range) member)
    exact ⟨b.rangeStart, le_rfl, Nat.le_of_lt_succ bounds.2.1⟩
  small b member := (formed.holds b member).small
  inRange b member node here := by
    apply decide_eq_true
    apply formed.covers_of_mem member
    rw [← formed.ids_eq member]
    exact List.mem_map_of_mem here
  distinct := by
    rw [formed.allNodes_ids, List.nodup_flatMap]
    refine ⟨fun b _ => b.nodes.distinct, ?_⟩
    -- an ID in two buckets would be in both ranges
    refine formed.apart.imp_of_mem fun {b b'} member member' apart nid here there => ?_
    exact apart _ (formed.covers_of_mem member here) (formed.covers_of_mem member' there)
  remote := by
    rw [formed.allNodes_ids, List.mem_flatMap]
    rintro ⟨b, member, here⟩
    obtain ⟨node, found⟩ := (Dict.mem_keys_iff _).mp here
    cases (formed.holds b member).remote.symm.trans found

end

theorem wellFormed_of_reachable {localNodeId : NodeId}
    (reached : (routing localNodeId).Reachable t) :
    t.localNodeId = localNodeId ∧ t.WellFormed := by
  apply Machine.Reaches.invariant _ _ reached
  · rintro t ⟨now, rfl⟩
    exact ⟨rfl, create_wellFormed localNodeId now⟩
  · rintro t act ⟨rfl, formed⟩ enabled -
    exact ⟨exec_localNodeId t act, formed.exec enabled⟩

/-- **Routing table.** After any insertions with the splits they bring, removals, refreshes and
splits, the buckets partition the IDs of 160 bits, each bucket has at most `K` nodes, all of its
range, no node is there twice and the local node never, and a search returns the nodes of the
whole table that are closest to its target, closest first. -/
theorem table_partitioned {localNodeId : NodeId} (reached : (routing localNodeId).Reachable t) :
    t.localNodeId = localNodeId ∧ t.Partitioned ∧
      ∀ targetId count, Closest (fun node => xorDistance node.nodeId targetId) count t.allNodes
        (t.findNearest targetId count) := by
  obtain ⟨own, formed⟩ := wellFormed_of_reachable reached
  exact ⟨own, formed.partitioned, fun _ count => closest_take_insertionSort _ count _⟩

/-- An ID of 20 bytes, all but the first and the last of which are zero. -/
def idOf (first last : UInt8) : NodeId := first :: List.replicate 18 0 ++ [last]

/-- The local ID is zero, and the others have their second bit set. -/
def twentyNodes : RoutingTable :=
  (List.range K).foldl
    (fun t i => (t.insertNode 0 ⟨idOf 0x40 (.ofNat i), "10.0.0.1", 8468, 0⟩).2)
    (create (idOf 0 0) 0)

theorem twentyNodes_reachable : (routing (idOf 0 0)).Reachable twentyNodes := by
  have run : ∀ (is : List Nat) (t : RoutingTable), (routing (idOf 0 0)).Reachable t →
      (routing (idOf 0 0)).Reachable (is.foldl
        (fun t i => (t.insertNode 0 ⟨idOf 0x40 (.ofNat i), "10.0.0.1", 8468, 0⟩).2) t) := by
    intro is
    induction is with
    | nil => exact fun t reached => reached
    | cons i is ih =>
      exact fun t reached => ih _ (.step (.insertNode 0 _) reached nofun trivial)
  exact run _ _ (.init ⟨0, rfl⟩)

/-- A node with the first bit set splits the bucket that the others fill. -/
theorem table_partitioned_split :
    let t := (twentyNodes.insertNode 0 ⟨idOf 0x80 0, "10.0.0.1", 8468, 0⟩).2
    t.Partitioned ∧ t.buckets.map (fun b => b.nodes.size) = [20, 1] :=
  ⟨(table_partitioned (.step (.insertNode 0 ⟨idOf 0x80 0, "10.0.0.1", 8468, 0⟩)
    twentyNodes_reachable nofun trivial)).2.1, by decide +kernel⟩

end RoutingTable

end DistLLM.Kademlia
