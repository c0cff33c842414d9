import DistLLM.Kademlia.Invariant
import Mathlib.Data.Finset.Card

/-!
# Iterative lookup

`iterative_find_node`: in each round some nodes of the shortlist are asked for nodes near the
target, and what they answer is merged into it. A round without news ends the lookup. Values that
are found on the way are left out.
-/
namespace DistLLM.Kademlia

open Library

/-- What the nodes answer when they are asked, round by round, and when. A node that fails answers
nothing; the nodes that are told of come from a finite set of nodes with IDs of 160 bits. -/
structure Network where
  answer : Nat → KademliaNode → Option (List KademliaNode)
  clock : Nat → Rat
  members : List KademliaNode
  closed : ∀ round n told, answer round n = some told → ∀ m ∈ told, m ∈ members
  bits : ∀ n ∈ members, fromBytes n.nodeId < 2 ^ B

abbrev Entry := Nat × KademliaNode

def Entry.nodeId (e : Entry) : NodeId := e.2.nodeId

/-- `tmp_node`, for a seed of which only the address is known. -/
def placeholder (seedAddr : String × Int) : Entry :=
  (2 ^ B, { nodeId := List.replicate 20 0, ip := seedAddr.1, port := seedAddr.2 })

/-- A lookup between two rounds. `listed` and `discovered` are kept for what is said about it: the
entries that the shortlist ever got, without the placeholder, and the IDs of all other nodes that
the lookup started from or was told of. -/
structure Lookup where
  table : RoutingTable
  shortlist : List Entry
  queried : Finset NodeId := ∅
  foundNew : Bool := false
  rounds : Nat := 0
  listed : List Entry
  discovered : Finset NodeId

namespace Lookup

variable (k alpha : Nat) (targetId : NodeId) (net : Network)

def entry (targetId : NodeId) (node : KademliaNode) : Entry :=
  (xorDistance node.nodeId targetId, node)

/-- `shortlist.sort(key=lambda x: x[0])`, and the first `k` of it. -/
def reshape (shortlist : List Entry) : List Entry :=
  (shortlist.insertionSort (byCost Prod.fst)).take k

/-- The nodes of the own table, and the seed if there is one. -/
def start (table : RoutingTable) (seedAddr : Option (String × Int)) : Lookup :=
  let known := (table.findNearest targetId k).map (entry targetId)
  { table
    shortlist := reshape k (known ++ (seedAddr.map placeholder).toList)
    listed := known
    discovered := (known.map Entry.nodeId).toFinset }

variable (s : Lookup)

/-- The entries of the shortlist that have not been queried, closest first. -/
def unqueried : List Entry := s.shortlist.filter fun e => decide (e.nodeId ∉ s.queried)

def toQuery : List KademliaNode := (s.unqueried.take alpha).map Prod.snd

def merge (now : Rat) (s : Lookup) (node : KademliaNode) : Lookup :=
  if node.nodeId = s.table.localNodeId then s
  else
    let s := { s with discovered := insert node.nodeId s.discovered }
    if node.nodeId ∈ s.queried then s
    else
      let s := { s with table := (s.table.insertNode now node).2 }
      if s.shortlist.any fun e => decide (e.nodeId = node.nodeId) then s
      else
        { s with
          shortlist := s.shortlist ++ [entry targetId node]
          listed := s.listed ++ [entry targetId node]
          foundNew := true }

/-- The nodes that the round is told of, in the order in which the answers are gathered. -/
def told : List KademliaNode :=
  (s.toQuery alpha).flatMap fun node => (net.answer s.rounds node).getD []

def round : Lookup :=
  let asked := { s with
    queried := s.queried ∪ ((s.toQuery alpha).map KademliaNode.nodeId).toFinset
    foundNew := false
    rounds := s.rounds + 1 }
  let merged := (s.told alpha net).foldl (merge targetId (net.clock s.rounds)) asked
  { merged with shortlist := reshape k merged.shortlist }

def loop : Nat → Lookup → Option Lookup
  | 0, _ => none
  | fuel + 1, s =>
    if s.toQuery alpha = [] then some s
    else
      let s' := s.round k alpha targetId net
      if s'.foundNew then loop fuel s' else some s'

/-- There is nobody to query, or the round brings no news. -/
def Stops (s : Lookup) : Prop :=
  s.toQuery alpha = [] ∨ (s.round k alpha targetId net).foundNew = false

/-- The lookup comes from one state to another, by rounds that bring news. -/
inductive Reached : Lookup → Lookup → Prop
  | here (s : Lookup) : Reached s s
  | round {s s' : Lookup} : ¬ Stops k alpha targetId net s →
      Reached (s.round k alpha targetId net) s' → Reached s s'

end Lookup

theorem Lookup.Reached.eq_of_stops {k alpha : Nat} {targetId : NodeId} {net : Network}
    {s s' : Lookup} (reached : Reached k alpha targetId net s s')
    (stops : Stops k alpha targetId net s) : s' = s := by
  cases reached with
  | here => rfl
  | round goes_on _ => exact absurd stops goes_on

/-- `iterative_find_node`, up to the list of nodes that it makes of its last shortlist. -/
def iterativeFindNode (fuel k alpha : Nat) (targetId : NodeId) (net : Network)
    (table : RoutingTable) (seedAddr : Option (String × Int)) : Option Lookup :=
  Lookup.loop k alpha targetId net fuel (Lookup.start k targetId table seedAddr)

/-- `[node for _, node in shortlist[: self.k]]`. -/
def Lookup.result (k : Nat) (s : Lookup) : List KademliaNode := (s.shortlist.take k).map Prod.snd

variable {e : Entry} {node : KademliaNode} {ids : Finset NodeId}

namespace Lookup

variable {k alpha : Nat} {targetId localNodeId : NodeId} {net : Network}
  {seedAddr : Option (String × Int)} {s : Lookup}

def seeds (seedAddr : Option (String × Int)) : List Entry := (seedAddr.map placeholder).toList

/-- The nodes that a lookup returns are the closest ones of all that it was told of; each of them
has been queried, and neither the placeholder nor the local node is among them. -/
structure Thorough (k : Nat) (targetId localNodeId : NodeId)
    (seedAddr : Option (String × Int)) (s : Lookup) : Prop where
  length : (s.result k).length = min k s.discovered.card
  ordered : (s.result k).Pairwise fun a b =>
    xorDistance a.nodeId targetId ≤ xorDistance b.nodeId targetId
  distinct : ((s.result k).map KademliaNode.nodeId).Nodup
  known : ∀ n ∈ s.result k, n.nodeId ∈ s.discovered
  closest : ∀ n ∈ s.result k, ∀ id ∈ s.discovered, id ∉ (s.result k).map KademliaNode.nodeId →
    xorDistance n.nodeId targetId ≤ xorDistance id targetId
  queried : ∀ n ∈ s.result k, n.nodeId ∈ s.queried
  real : ∀ e ∈ seeds seedAddr, e ∉ s.shortlist
  remote : ∀ n ∈ s.result k, n.nodeId ≠ localNodeId

/-- The IDs of all nodes that the lookup had on its shortlist. -/
def listedIds (s : Lookup) : Finset NodeId := (s.listed.map Entry.nodeId).toFinset

/-- So many nodes were listed that a placeholder is behind them, and so is the node that has the
ID of the placeholder, if the lookup was told of it and did not list it. -/
structure Crowded (k : Nat) (targetId : NodeId) (s : Lookup) : Prop where
  enough : k ≤ s.listedIds.card
  unlisted : List.replicate 20 0 ∈ s.discovered → List.replicate 20 0 ∉ s.listedIds →
    k ≤ (s.listedIds.filter fun id =>
      xorDistance id targetId ≤ xorDistance (List.replicate 20 0) targetId).card

/-! ### The invariant of the rounds -/

structure Real (targetId localNodeId : NodeId) (discovered : Finset NodeId) (e : Entry) :
    Prop where
  measured : e.1 = xorDistance e.nodeId targetId
  bits : fromBytes e.nodeId < 2 ^ B
  remote : e.nodeId ≠ localNodeId
  discovered : e.nodeId ∈ discovered

/-- Two nodes of the shortlist have different IDs, unless one is the placeholder. -/
def Apart (seedAddr : Option (String × Int)) (e e' : Entry) : Prop :=
  e.nodeId = e'.nodeId → e ∈ seeds seedAddr ∨ e' ∈ seeds seedAddr

structure Sound (k : Nat) (targetId localNodeId : NodeId) (seedAddr : Option (String × Int))
    (s : Lookup) : Prop where
  own : s.table.localNodeId = localNodeId
  closest : Closest Prod.fst k (s.listed ++ seeds seedAddr) s.shortlist
  real : ∀ e ∈ s.listed, Real targetId localNodeId s.discovered e
  apart : s.shortlist.Pairwise (Apart seedAddr)
  /-- Every node it was told of gets on the shortlist, but for one with the placeholder's ID. -/
  told : ∀ id ∈ s.discovered, id ∈ (s.listed ++ seeds seedAddr).map Entry.nodeId
  asked : ∀ id ∈ s.queried, id ∈ (s.listed ++ seeds seedAddr).map Entry.nodeId

/-- In a round that began at `base`, with the new entries so far. -/
structure Merging (targetId localNodeId : NodeId) (seedAddr : Option (String × Int))
    (base s : Lookup) (more : List Entry) : Prop where
  own : s.table.localNodeId = localNodeId
  shortlist : s.shortlist = base.shortlist ++ more
  listed : s.listed = base.listed ++ more
  news : s.foundNew = !more.isEmpty
  queried : s.queried = base.queried
  real : ∀ e ∈ s.listed, Real targetId localNodeId s.discovered e
  apart : s.shortlist.Pairwise (Apart seedAddr)
  told : ∀ id ∈ s.discovered, id ∈ (s.listed ++ seeds seedAddr).map Entry.nodeId

theorem mem_ids_append {listed : List Entry} {id : NodeId}
    (member : id ∈ (listed ++ seeds seedAddr).map Entry.nodeId) (more : List Entry) :
    id ∈ (listed ++ more ++ seeds seedAddr).map Entry.nodeId := by
  simp only [List.map_append, List.mem_append] at member ⊢
  exact member.imp_left Or.inl

theorem Sound.mem_listed (sound : Sound k targetId localNodeId seedAddr s)
    (inside : e ∈ s.shortlist) : e ∈ s.listed ∨ e ∈ seeds seedAddr := by
  obtain ⟨others, split, -⟩ := sound.closest.least
  have member := split.mem_iff.mp (List.mem_append_left others inside)
  exact List.mem_append.mp member

section

variable {base : Lookup} {more : List Entry} (sound : Sound k targetId localNodeId seedAddr base)
  (merging : Merging targetId localNodeId seedAddr base s more) (now : Rat)

include sound merging now

theorem Merging.merge {node : KademliaNode} (bits : fromBytes node.nodeId < 2 ^ B) :
    ∃ more', Merging targetId localNodeId seedAddr base (Lookup.merge targetId now s node)
      more' := by
  unfold Lookup.merge
  by_cases own : node.nodeId = s.table.localNodeId
  · rw [if_pos own]
    exact ⟨more, merging⟩
  rw [if_neg own]
  -- what is known of a node stays so when more nodes are discovered
  have real : ∀ e ∈ s.listed,
      Real targetId localNodeId (insert node.nodeId s.discovered) e := by
    intro e inside
    obtain ⟨measured, bits, remote, discovered⟩ := merging.real e inside
    exact ⟨measured, bits, remote, Finset.mem_insert_of_mem discovered⟩
  by_cases asked : node.nodeId ∈ s.queried
  · refine ⟨more, ?_⟩
    simp only [asked, if_true]
    refine ⟨merging.own, merging.shortlist, merging.listed, merging.news, merging.queried,
      real, merging.apart, fun id discovered => ?_⟩
    rcases Finset.mem_insert.mp discovered with rfl | before
    · have known := sound.asked _ (merging.queried ▸ asked)
      rw [merging.listed]
      exact mem_ids_append known more
    · exact merging.told id before
  have same : (s.table.insertNode now node).2.localNodeId = localNodeId :=
    (RoutingTable.exec_localNodeId s.table (.insertNode now node)).trans merging.own
  simp only [asked, if_false]
  by_cases already : (s.shortlist.any fun e => decide (e.nodeId = node.nodeId)) = true
  · refine ⟨more, ?_⟩
    rw [if_pos already]
    refine ⟨same, merging.shortlist, merging.listed, merging.news, merging.queried,
      real, merging.apart, fun id discovered => ?_⟩
    rcases Finset.mem_insert.mp discovered with rfl | before
    · obtain ⟨e, inside, equal⟩ := List.any_eq_true.mp already
      rw [decide_eq_true_eq] at equal
      rw [← equal]
      apply List.mem_map_of_mem
      rw [merging.listed]
      rw [merging.shortlist] at inside
      rcases List.mem_append.mp inside with earlier | later
      · rcases sound.mem_listed earlier with listed | seed
        · exact List.mem_append_left _ (List.mem_append_left _ listed)
        · exact List.mem_append_right _ seed
      · exact List.mem_append_left _ (List.mem_append_right _ later)
    · exact merging.told id before
  · refine ⟨more ++ [entry targetId node], ?_⟩
    rw [if_neg already]
    have absent : ∀ e ∈ s.shortlist, e.nodeId ≠ node.nodeId := by simpa using already
    refine ⟨same, ?_, ?_, by simp, merging.queried, ?_, ?_, ?_⟩
    · simp [merging.shortlist]
    · simp [merging.listed]
    · intro e inside
      rcases List.mem_append.mp inside with before | new
      · exact real e before
      · obtain rfl := List.mem_singleton.mp new
        exact ⟨rfl, bits, fun equal => own (equal.trans merging.own.symm),
          Finset.mem_insert_self ..⟩
    · rw [List.pairwise_append]
      refine ⟨merging.apart, List.pairwise_singleton .., fun e inside e' new equal => ?_⟩
      obtain rfl := List.mem_singleton.mp new
      exact absurd equal (absent e inside)
    · intro id discovered
      rcases Finset.mem_insert.mp discovered with rfl | before
      · exact List.mem_map_of_mem (f := Entry.nodeId)
          (List.mem_append_left _ (List.mem_append_right _ (List.mem_singleton_self _)))
      · exact mem_ids_append (merging.told id before) _

theorem Merging.foldl {nodes : List KademliaNode}
    (bits : ∀ node ∈ nodes, fromBytes node.nodeId < 2 ^ B) :
    ∃ more', Merging targetId localNodeId seedAddr base (nodes.foldl (Lookup.merge targetId now) s)
      more' := by
  induction nodes generalizing s more with
  | nil => exact ⟨more, merging⟩
  | cons node rest ih =>
    obtain ⟨more', merging'⟩ := merging.merge sound now (bits node List.mem_cons_self)
    exact ih merging' fun node later => bits node (List.mem_cons_of_mem _ later)

end

theorem mem_toQuery (chosen : node ∈ s.toQuery alpha) :
    ∃ e ∈ s.shortlist, e.2 = node ∧ node.nodeId ∉ s.queried := by
  obtain ⟨e, taken, rfl⟩ := List.mem_map.mp chosen
  obtain ⟨inside, new⟩ := List.mem_filter.mp (List.mem_of_mem_take taken)
  exact ⟨e, inside, rfl, of_decide_eq_true new⟩

theorem mem_told (told : node ∈ s.told alpha net) : node ∈ net.members := by
  obtain ⟨queried, -, inside⟩ := List.mem_flatMap.mp told
  cases answered : net.answer s.rounds queried with
  | none => simp [answered] at inside
  | some nodes => exact net.closed _ _ nodes answered node (by simpa [answered] using inside)

theorem Sound.round_spec (sound : Sound k targetId localNodeId seedAddr s) (alpha : Nat)
    (net : Network) : ∃ more, (s.round k alpha targetId net).foundNew = !more.isEmpty ∧
      (s.round k alpha targetId net).shortlist = reshape k (s.shortlist ++ more) ∧
      (s.round k alpha targetId net).queried =
        s.queried ∪ ((s.toQuery alpha).map KademliaNode.nodeId).toFinset ∧
      Sound k targetId localNodeId seedAddr (s.round k alpha targetId net) := by
  let asked := { s with
    queried := s.queried ∪ ((s.toQuery alpha).map KademliaNode.nodeId).toFinset
    foundNew := false
    rounds := s.rounds + 1 }
  have soundAsked : Sound k targetId localNodeId seedAddr asked := by
    refine ⟨sound.own, sound.closest, sound.real, sound.apart, sound.told,
      fun id queried => ?_⟩
    rcases Finset.mem_union.mp queried with before | now
    · exact sound.asked id before
    · obtain ⟨node, chosen, rfl⟩ := List.mem_map.mp (List.mem_toFinset.mp now)
      obtain ⟨e, inside, rfl, -⟩ := mem_toQuery chosen
      exact List.mem_map_of_mem (f := Entry.nodeId)
        (List.mem_append.mpr (sound.mem_listed inside))
  have start : Merging targetId localNodeId seedAddr asked asked [] :=
    ⟨sound.own, (List.append_nil _).symm, (List.append_nil _).symm, rfl, rfl, soundAsked.real,
      soundAsked.apart, soundAsked.told⟩
  obtain ⟨more, merged⟩ := start.foldl soundAsked (net.clock s.rounds)
    fun node (told : node ∈ s.told alpha net) => net.bits node (mem_told told)
  have listed : (s.round k alpha targetId net).listed = s.listed ++ more := merged.listed
  refine ⟨more, merged.news, congrArg (reshape k) merged.shortlist, merged.queried, ?_⟩
  refine ⟨merged.own, ?_, merged.real, ?_, merged.told, fun id queried => ?_⟩
  · have merge := soundAsked.closest.append more
    rw [← merged.shortlist] at merge
    refine merge.perm ?_
    rw [listed, List.append_assoc, List.append_assoc]
    exact List.perm_append_comm.append_left _
  · -- sorting and cutting off bring no two entries together
    have sorted := (List.perm_insertionSort (byCost Prod.fst) _).symm.pairwise merged.apart
      fun {e e'} apart equal => (apart equal.symm).symm
    exact sorted.sublist (List.take_sublist _ _)
  · rw [listed]
    exact mem_ids_append (soundAsked.asked id (merged.queried ▸ queried)) more

theorem merge_discovered (now : Rat) (s : Lookup) (node : KademliaNode) :
    (merge targetId now s node).discovered ⊆ insert node.nodeId s.discovered := by
  unfold merge
  split
  · exact Finset.subset_insert ..
  · dsimp only
    split
    · rfl
    · split <;> rfl

theorem foldl_discovered (now : Rat) (s : Lookup) (nodes : List KademliaNode) :
    (nodes.foldl (merge targetId now) s).discovered ⊆
      s.discovered ∪ (nodes.map KademliaNode.nodeId).toFinset := by
  induction nodes generalizing s with
  | nil => exact Finset.subset_union_left
  | cons node rest ih =>
    refine (ih _).trans ?_
    rw [List.map_cons, List.toFinset_cons, Finset.union_insert, ← Finset.insert_union]
    exact Finset.union_subset_union_left (merge_discovered now s node)

theorem round_discovered : (s.round k alpha targetId net).discovered ⊆
      s.discovered ∪ (net.members.map KademliaNode.nodeId).toFinset := by
  refine (foldl_discovered _ _ _).trans (Finset.union_subset_union_right ?_)
  intro id told
  obtain ⟨node, inside, rfl⟩ := List.mem_map.mp (List.mem_toFinset.mp told)
  exact List.mem_toFinset.mpr (List.mem_map_of_mem (mem_told inside))

theorem Sound.start {table : RoutingTable} (reached : (routing localNodeId).Reachable table) :
    Sound k targetId localNodeId seedAddr (start k targetId table seedAddr) := by
  obtain ⟨own, formed⟩ := RoutingTable.wellFormed_of_reachable reached
  have partitioned := formed.partitioned
  have nearest (target : NodeId) (count : Nat) :
      Closest (fun node => xorDistance node.nodeId target) count table.allNodes
        (table.findNearest target count) :=
    closest_take_insertionSort _ count _
  have found : ∀ n ∈ table.findNearest targetId k, n ∈ table.allNodes := by
    intro n inside
    obtain ⟨others, split, -⟩ := (nearest targetId k).least
    exact split.mem_iff.mp (List.mem_append_left others inside)
  have distinct : ((table.findNearest targetId k).map KademliaNode.nodeId).Nodup := by
    obtain ⟨others, split, -⟩ := (nearest targetId k).least
    have all := (split.map KademliaNode.nodeId).nodup_iff.mpr partitioned.distinct
    rw [List.map_append] at all
    exact all.of_append_left
  have ids : ((table.findNearest targetId k).map (entry targetId)).map Entry.nodeId =
      (table.findNearest targetId k).map KademliaNode.nodeId := by
    rw [List.map_map]
    rfl
  refine ⟨own, closest_take_insertionSort _ _ _, fun e inside => ?_, ?_, fun id known => ?_,
    nofun⟩
  · obtain ⟨n, near, rfl⟩ := List.mem_map.mp inside
    have there := found n near
    obtain ⟨b, bucket, member⟩ := List.mem_flatMap.mp there
    have covers : b.Covers (fromBytes n.nodeId) :=
      of_decide_eq_true (partitioned.inRange b bucket n member)
    refine ⟨rfl, (partitioned.covered _).mpr ⟨b, bucket, covers⟩, fun equal => ?_, ?_⟩
    · apply partitioned.remote
      rw [own, ← show n.nodeId = localNodeId from equal]
      exact List.mem_map_of_mem there
    · exact List.mem_toFinset.mpr (List.mem_map_of_mem (f := Entry.nodeId) inside)
  · have apart : ((table.findNearest targetId k).map (entry targetId) ++
        seeds seedAddr).Pairwise (Apart seedAddr) := by
      refine List.pairwise_append.mpr ⟨?_, ?_, fun _ _ e' seed _ => .inr seed⟩
      · rw [← ids] at distinct
        exact (List.pairwise_map.mp distinct).imp fun different equal => absurd equal different
      · cases seedAddr with
        | none => exact List.Pairwise.nil
        | some addr => exact List.pairwise_singleton ..
    have sorted := (List.perm_insertionSort (byCost Prod.fst) _).symm.pairwise apart
      fun {e e'} apart equal => (apart equal.symm).symm
    exact sorted.sublist (List.take_sublist _ _)
  · rw [List.map_append]
    exact List.mem_append_left _ (List.mem_toFinset.mp known)

def asked (alpha : Nat) (s : Lookup) : Finset NodeId :=
  ((s.unqueried.take alpha).map Entry.nodeId).toFinset

theorem toQuery_ids : ((s.toQuery alpha).map KademliaNode.nodeId).toFinset = s.asked alpha := by
  rw [toQuery, List.map_map]
  rfl

structure Ends (alpha : Nat) (s final : Lookup) : Prop where
  shortlist : final.shortlist = s.shortlist
  queried : final.queried = s.queried ∪ s.asked alpha

theorem ends_of_idle (idle : s.toQuery alpha = []) : Ends alpha s s := by
  refine ⟨rfl, ?_⟩
  rw [← toQuery_ids, idle]
  exact (Finset.union_empty _).symm

theorem Sound.ends_round (sound : Sound k targetId localNodeId seedAddr s)
    (quiet : (s.round k alpha targetId net).foundNew = false) :
    Ends alpha s (s.round k alpha targetId net) := by
  obtain ⟨more, news, shortlist, queried, -⟩ := sound.round_spec alpha net
  have nothing : more = [] := by simpa [quiet] using news
  refine ⟨?_, queried.trans (by rw [toQuery_ids])⟩
  rw [shortlist, nothing, List.append_nil]
  exact sound.closest.take_insertionSort_eq

theorem asked_new (busy : s.toQuery alpha ≠ []) : ∃ id ∈ s.asked alpha, id ∉ s.queried := by
  obtain ⟨node, chosen⟩ := List.exists_mem_of_ne_nil _ busy
  obtain ⟨-, -, -, new⟩ := mem_toQuery chosen
  refine ⟨node.nodeId, ?_, new⟩
  rw [← toQuery_ids]
  exact List.mem_toFinset.mpr (List.mem_map_of_mem chosen)

structure Within (net : Network) (ids : Finset NodeId) (s : Lookup) : Prop where
  discovered : s.discovered ⊆ ids
  members : (net.members.map KademliaNode.nodeId).toFinset ⊆ ids
  zero : List.replicate 20 0 ∈ ids

theorem Within.round {ids : Finset NodeId} (within : Within net ids s) :
    Within net ids (s.round k alpha targetId net) where
  discovered := round_discovered.trans (Finset.union_subset within.discovered within.members)
  members := within.members
  zero := within.zero

theorem Within.asked {ids : Finset NodeId} (within : Within net ids s)
    (sound : Sound k targetId localNodeId seedAddr s) : s.asked alpha ⊆ ids := by
  intro id chosen
  obtain ⟨e, taken, rfl⟩ := List.mem_map.mp (List.mem_toFinset.mp chosen)
  have inside : e ∈ s.shortlist := List.mem_of_mem_filter (List.mem_of_mem_take taken)
  rcases sound.mem_listed inside with listed | seed
  · exact within.discovered (sound.real e listed).discovered
  · obtain ⟨addr, -, rfl⟩ : ∃ addr, seedAddr = some addr ∧ placeholder addr = e := by
      simpa [seeds] using seed
    exact within.zero

/-- The lookup stops at exactly one of its states, and the loop returns what that leads to. By
induction on the number of nodes that have not been queried. -/
theorem Sound.loop_spec (sound : Sound k targetId localNodeId seedAddr s) (alpha : Nat)
    (within : Within net ids s) : ∃ enough last final,
      (∀ s', Reached k alpha targetId net s s' ∧ Stops k alpha targetId net s' ↔ s' = last) ∧
      Ends alpha last final ∧ Sound k targetId localNodeId seedAddr final ∧
      ∀ fuel, enough ≤ fuel → loop k alpha targetId net fuel s = some final := by
  induction measured : (ids \ s.queried).card using Nat.strong_induction_on generalizing s with
  | _ left ih =>
  by_cases stops : Stops k alpha targetId net s
  · have only : ∀ s', Reached k alpha targetId net s s' ∧ Stops k alpha targetId net s' ↔
        s' = s := by
      intro s'
      constructor
      · rintro ⟨reached, -⟩
        exact reached.eq_of_stops stops
      · rintro rfl
        exact ⟨.here s', stops⟩
    by_cases idle : s.toQuery alpha = []
    · refine ⟨1, s, s, only, ends_of_idle idle, sound, fun fuel positive => ?_⟩
      obtain ⟨fuel, rfl⟩ := Nat.exists_eq_add_of_le' positive
      rw [loop, if_pos idle]
    · have quiet := stops.resolve_left idle
      obtain ⟨-, -, -, -, next⟩ := sound.round_spec alpha net
      refine ⟨1, s, s.round k alpha targetId net, only, sound.ends_round quiet, next,
        fun fuel positive => ?_⟩
      obtain ⟨fuel, rfl⟩ := Nat.exists_eq_add_of_le' positive
      rw [loop, if_neg idle]
      simp only [quiet, Bool.false_eq_true, if_false]
  · obtain ⟨busy, loud⟩ := not_or.mp stops
    obtain ⟨-, -, -, queried, next⟩ := sound.round_spec alpha net
    rw [toQuery_ids] at queried
    obtain ⟨id, chosen, new⟩ := asked_new busy
    have fewer : (ids \ (s.round k alpha targetId net).queried).card < left := by
      rw [← measured]
      apply Finset.card_lt_card
      refine Finset.ssubset_iff_of_subset ?_ |>.mpr ⟨id, ?_, ?_⟩
      · rw [queried]
        exact Finset.sdiff_subset_sdiff le_rfl Finset.subset_union_left
      · exact Finset.mem_sdiff.mpr ⟨within.asked sound chosen, new⟩
      · rw [queried]
        simp [chosen]
    obtain ⟨enough, last, final, only, ends, sound', returns⟩ :=
      ih _ fewer next within.round rfl
    refine ⟨enough + 1, last, final, fun s' => ?_, ends, sound', fun fuel more => ?_⟩
    · rw [← only]
      refine and_congr_left fun stops' => ⟨fun reached => ?_, .round stops⟩
      cases reached with
      | here => exact absurd stops' stops
      | round _ later => exact later
    · obtain ⟨fuel, rfl⟩ := Nat.exists_eq_add_of_le' (Nat.le_of_add_left_le more)
      rw [loop, if_neg busy]
      simp only [loud, if_true]
      exact returns fuel (by omega)

/-! ### What the shortlist says of the result -/

section

variable (sound : Sound k targetId localNodeId seedAddr s)

include sound

theorem Sound.length_le : s.shortlist.length ≤ k := by
  rw [sound.closest.length]
  exact Nat.min_le_left ..

theorem Sound.result_eq : s.result k = s.shortlist.map Prod.snd := by
  rw [result, List.take_of_length_le sound.length_le]

theorem Sound.result_ids : (s.result k).map KademliaNode.nodeId = s.shortlist.map Entry.nodeId := by
  rw [sound.result_eq, List.map_map]
  rfl

theorem Sound.nodup
    (real : ∀ e ∈ seeds seedAddr, e ∉ s.shortlist) : (s.shortlist.map Entry.nodeId).Nodup := by
  refine List.pairwise_map.mpr (sound.apart.imp_of_mem fun {e e'} here there apart equal => ?_)
  rcases apart equal with seed | seed
  · exact real e seed here
  · exact real e' seed there

theorem Sound.listed (real : ∀ e ∈ seeds seedAddr, e ∉ s.shortlist) {e : Entry}
    (inside : e ∈ s.shortlist) : e ∈ s.listed :=
  (sound.mem_listed inside).resolve_right fun seed => real e seed inside

theorem Sound.behind {e e' : Entry} (inside : e ∈ s.shortlist) (listed : e' ∈ s.listed)
    (outside : e' ∉ s.shortlist) : e.1 ≤ e'.1 := by
  obtain ⟨others, split, least⟩ := sound.closest.least
  have somewhere := split.mem_iff.mpr (List.mem_append_left (seeds seedAddr) listed)
  exact least e inside e' ((List.mem_append.mp somewhere).resolve_left outside)

theorem Sound.full {e : Entry} (there : e ∈ s.listed ++ seeds seedAddr)
    (outside : e ∉ s.shortlist) : s.shortlist.length = k := by
  obtain ⟨others, split, -⟩ := sound.closest.least
  have left := (List.mem_append.mp (split.mem_iff.mpr there)).resolve_left outside
  exact sound.closest.full split (List.ne_nil_of_mem left)

theorem Sound.listedIds_subset : s.listedIds ⊆ s.discovered := by
  intro id listed
  obtain ⟨e, inside, rfl⟩ := List.mem_map.mp (List.mem_toFinset.mp listed)
  exact (sound.real e inside).discovered

theorem Sound.card (real : ∀ e ∈ seeds seedAddr, e ∉ s.shortlist) :
    (s.shortlist.map Entry.nodeId).toFinset.card = s.shortlist.length := by
  rw [List.toFinset_card_of_nodup (sound.nodup real), List.length_map]

theorem Sound.ids_subset (real : ∀ e ∈ seeds seedAddr, e ∉ s.shortlist) :
    (s.shortlist.map Entry.nodeId).toFinset ⊆ s.listedIds := by
  intro id inside
  obtain ⟨e, member, rfl⟩ := List.mem_map.mp (List.mem_toFinset.mp inside)
  exact List.mem_toFinset.mpr (List.mem_map_of_mem (sound.listed real member))

end

theorem Real.lt {discovered : Finset NodeId} (target : fromBytes targetId < 2 ^ B)
    (real : Real targetId localNodeId discovered e) : e.1 < 2 ^ B := by
  rw [real.measured]
  exact Nat.xor_lt_two_pow real.bits target

section

variable (sound : Sound k targetId localNodeId seedAddr s)

include sound

/-- All that was listed and is closer than an entry of the shortlist is on it, beside that entry. -/
theorem Sound.few_closer {e : Entry} (inside : e ∈ s.shortlist) {d : Nat} (further : d < e.1) :
    (s.listedIds.filter fun id => xorDistance id targetId ≤ d).card < k := by
  have all : (s.listedIds.filter fun id => xorDistance id targetId ≤ d) ⊆
      ((s.shortlist.erase e).map Entry.nodeId).toFinset := by
    intro id near
    obtain ⟨member, close⟩ := Finset.mem_filter.mp near
    obtain ⟨e', listed, rfl⟩ := List.mem_map.mp (List.mem_toFinset.mp member)
    rw [← (sound.real e' listed).measured] at close
    have closer := close.trans_lt further
    have there : e' ∈ s.shortlist := by
      by_contra outside
      exact absurd (sound.behind inside listed outside) (not_le.mpr closer)
    have other : e' ≠ e := by
      rintro rfl
      exact absurd closer (lt_irrefl _)
    exact List.mem_toFinset.mpr (List.mem_map_of_mem ((List.mem_erase_of_ne other).mpr there))
  have counted := (Finset.card_le_card all).trans (List.toFinset_card_le _)
  rw [List.length_map, List.length_erase_of_mem inside] at counted
  have positive := List.length_pos_of_mem inside
  have small := sound.length_le
  omega

theorem Crowded.real (target : fromBytes targetId < 2 ^ B) (crowded : Crowded k targetId s) :
    ∀ e ∈ seeds seedAddr, e ∉ s.shortlist := by
  intro e seed inside
  obtain ⟨addr, -, rfl⟩ : ∃ addr, seedAddr = some addr ∧ placeholder addr = e := by
    simpa [seeds] using seed
  have wide : 2 ^ B - 1 < (placeholder addr).1 := Nat.sub_one_lt (Nat.two_pow_pos B).ne'
  have few := sound.few_closer inside wide
  rw [Finset.filter_true_of_mem] at few
  · exact absurd crowded.enough (not_le.mpr few)
  · intro id listed
    obtain ⟨e', member, rfl⟩ := List.mem_map.mp (List.mem_toFinset.mp listed)
    have near := (sound.real e' member).lt target
    rw [(sound.real e' member).measured] at near
    exact Nat.le_sub_one_of_lt near

theorem Thorough.crowded (thorough : Thorough k targetId localNodeId seedAddr s)
    (seeded : seedAddr ≠ none) :
    Crowded k targetId s := by
  have real := thorough.real
  obtain ⟨addr, rfl⟩ := Option.ne_none_iff_exists'.mp seeded
  have full := sound.full (List.mem_append_right _ (List.mem_singleton_self _))
    (real _ (List.mem_singleton_self (placeholder addr)))
  have counted := sound.card real
  rw [full] at counted
  refine ⟨?_, fun told unlisted => ?_⟩
  · rw [← counted]
    exact Finset.card_le_card (sound.ids_subset real)
  · rw [← counted]
    refine Finset.card_le_card fun id inside => Finset.mem_filter.mpr
      ⟨sound.ids_subset real inside, ?_⟩
    have outside : List.replicate 20 0 ∉ (s.result k).map KademliaNode.nodeId := by
      rw [sound.result_ids]
      exact fun member => unlisted (sound.ids_subset real (List.mem_toFinset.mpr member))
    obtain ⟨e, member, rfl⟩ := List.mem_map.mp (List.mem_toFinset.mp inside)
    have returned : e.2 ∈ s.result k := by
      rw [sound.result_eq]
      exact List.mem_map_of_mem member
    exact thorough.closest _ returned _ told outside

theorem Sound.closer (real : ∀ e ∈ seeds seedAddr, e ∉ s.shortlist)
    (crowded : seedAddr ≠ none → Crowded k targetId s) {e : Entry} (inside : e ∈ s.shortlist)
    {id : NodeId} (told : id ∈ s.discovered) (outside : id ∉ s.shortlist.map Entry.nodeId) :
    xorDistance e.nodeId targetId ≤ xorDistance id targetId := by
  rw [← (sound.real e (sound.listed real inside)).measured]
  by_cases listed : id ∈ s.listedIds
  · obtain ⟨e', member, rfl⟩ := List.mem_map.mp (List.mem_toFinset.mp listed)
    rw [← (sound.real e' member).measured]
    exact sound.behind inside member fun there => outside (List.mem_map_of_mem there)
  -- only beside a placeholder is there such a node, and `k` nodes are as close as it
  obtain ⟨seeded, rfl⟩ : seedAddr ≠ none ∧ id = List.replicate 20 0 := by
    have somewhere := sound.told id told
    rw [List.map_append] at somewhere
    have seed := (List.mem_append.mp somewhere).resolve_left fun member =>
      listed (List.mem_toFinset.mpr member)
    cases seedAddr with
    | none => cases seed
    | some addr => exact ⟨nofun, List.mem_singleton.mp seed⟩
  by_contra further
  rw [not_le] at further
  exact absurd ((crowded seeded).unlisted told listed) (not_le.mpr (sound.few_closer inside further))

theorem Sound.length (real : ∀ e ∈ seeds seedAddr, e ∉ s.shortlist) :
    s.shortlist.length = min k s.discovered.card := by
  have counted := sound.card real
  have subset := sound.ids_subset real
  have known := (subset.trans sound.listedIds_subset)
  have bound := Finset.card_le_card known
  by_cases all : ∀ e ∈ s.listed ++ seeds seedAddr, e ∈ s.shortlist
  · -- then there is no placeholder, and all nodes it was told of are listed
    have none : seeds seedAddr = [] := by
      refine List.eq_nil_iff_forall_not_mem.mpr fun e seed => real e seed ?_
      exact all e (List.mem_append_right _ seed)
    have equal : s.discovered ⊆ (s.shortlist.map Entry.nodeId).toFinset := by
      intro id told
      have somewhere := sound.told id told
      rw [none, List.append_nil] at somewhere
      obtain ⟨e, listed, rfl⟩ := List.mem_map.mp somewhere
      exact List.mem_toFinset.mpr (List.mem_map_of_mem (all e (List.mem_append_left _ listed)))
    have same := Finset.card_le_card equal
    have small := sound.length_le
    omega
  · obtain ⟨e, missing⟩ := not_forall.mp all
    obtain ⟨there, outside⟩ := Classical.not_imp.mp missing
    have full := sound.full there outside
    omega

/-- Between two rounds, the result is right if all of the shortlist has been queried, and if a
placeholder has been displaced. -/
theorem Sound.thorough_iff :
    Thorough k targetId localNodeId seedAddr s ↔ (seedAddr ≠ none → Crowded k targetId s) ∧
      (∀ e ∈ seeds seedAddr, e ∉ s.shortlist) ∧ ∀ e ∈ s.shortlist, e.nodeId ∈ s.queried := by
  have returned : ∀ n, n ∈ s.result k ↔ ∃ e ∈ s.shortlist, e.2 = n := by
    intro n
    rw [sound.result_eq, List.mem_map]
  constructor
  · intro thorough
    refine ⟨thorough.crowded sound, thorough.real, fun e inside => ?_⟩
    exact thorough.queried e.2 ((returned _).mpr ⟨e, inside, rfl⟩)
  · rintro ⟨crowded, real, queried⟩
    constructor
    · rw [sound.result_eq, List.length_map, sound.length real]
    · rw [sound.result_eq, List.pairwise_map]
      refine sound.closest.ordered.imp_of_mem fun {e e'} here there order => ?_
      rw [(sound.real e (sound.listed real here)).measured,
        (sound.real e' (sound.listed real there)).measured] at order
      exact order
    · rw [sound.result_ids]
      exact sound.nodup real
    · intro n member
      obtain ⟨e, inside, rfl⟩ := (returned n).mp member
      exact (sound.real e (sound.listed real inside)).discovered
    · intro n member id told outside
      obtain ⟨e, inside, rfl⟩ := (returned n).mp member
      rw [sound.result_ids] at outside
      exact sound.closer real crowded inside told outside
    · intro n member
      obtain ⟨e, inside, rfl⟩ := (returned n).mp member
      exact queried e inside
    · exact real
    · intro n member
      obtain ⟨e, inside, rfl⟩ := (returned n).mp member
      exact (sound.real e (sound.listed real inside)).remote

end

theorem Sound.queried_iff {final : Lookup} (sound : Sound k targetId localNodeId seedAddr final)
    (ends : Ends alpha s final) (real : ∀ e ∈ seeds seedAddr, e ∉ final.shortlist) :
    (∀ e ∈ final.shortlist, e.nodeId ∈ final.queried) ↔ s.unqueried.length ≤ alpha := by
  have nodup := sound.nodup real
  rw [ends.shortlist] at nodup ⊢
  rw [ends.queried]
  have halves := List.take_append_drop alpha s.unqueried
  constructor
  · intro all
    by_contra more
    have left : s.unqueried.drop alpha ≠ [] := by
      rw [Ne, List.drop_eq_nil_iff]
      exact more
    obtain ⟨e, behind⟩ := List.exists_mem_of_ne_nil _ left
    have unqueried := List.mem_of_mem_drop behind
    obtain ⟨inside, new⟩ := List.mem_filter.mp unqueried
    -- an entry behind the ones that are asked has another ID than all of them
    have distinct : (s.unqueried.map Entry.nodeId).Nodup :=
      nodup.sublist (List.filter_sublist.map Entry.nodeId)
    rw [← halves, List.map_append] at distinct
    rcases Finset.mem_union.mp (all e inside) with before | now
    · exact of_decide_eq_true new before
    · exact (List.disjoint_of_nodup_append distinct) (List.mem_toFinset.mp now)
        (List.mem_map_of_mem behind)
  · intro few e inside
    by_cases before : e.nodeId ∈ s.queried
    · exact Finset.mem_union_left _ before
    · refine Finset.mem_union_right _ (List.mem_toFinset.mpr (List.mem_map_of_mem ?_))
      rw [List.take_of_length_le few]
      exact List.mem_filter.mpr ⟨inside, decide_eq_true before⟩

/-- A lookup always comes to an end, and what it returns is right exactly if its last round
has no more than `alpha` nodes left to query and, where a seed address is given, `k` other nodes
displace its placeholder. -/
theorem Sound.lookup_iff (sound : Sound k targetId localNodeId seedAddr s)
    (target : fromBytes targetId < 2 ^ B) :
    ∃ enough final, (∀ fuel, enough ≤ fuel → loop k alpha targetId net fuel s = some final) ∧
      (Thorough k targetId localNodeId seedAddr final ↔
        (∀ last, Reached k alpha targetId net s last → Stops k alpha targetId net last →
          last.unqueried.length ≤ alpha) ∧ (seedAddr ≠ none → Crowded k targetId final)) := by
  let ids := s.discovered ∪ (net.members.map KademliaNode.nodeId).toFinset ∪
    {List.replicate 20 0}
  have within : Within net ids s := by
    constructor
    · exact Finset.subset_union_left.trans Finset.subset_union_left
    · exact Finset.subset_union_right.trans Finset.subset_union_left
    · exact Finset.mem_union_right _ (Finset.mem_singleton_self _)
  obtain ⟨enough, last, final, only, ends, sound', returns⟩ := sound.loop_spec alpha within
  have at_last : (∀ last, Reached k alpha targetId net s last → Stops k alpha targetId net last →
      last.unqueried.length ≤ alpha) ↔ last.unqueried.length ≤ alpha := by
    constructor
    · intro all
      obtain ⟨reached, stops⟩ := (only last).mpr rfl
      exact all last reached stops
    · intro few s' reached stops
      rw [(only s').mp ⟨reached, stops⟩]
      exact few
  refine ⟨enough, final, returns, ?_⟩
  rw [at_last, sound'.thorough_iff]
  constructor
  · rintro ⟨crowded, real, queried⟩
    exact ⟨(sound'.queried_iff ends real).mp queried, crowded⟩
  · rintro ⟨few, crowded⟩
    have real : ∀ e ∈ seeds seedAddr, e ∉ final.shortlist := by
      cases seedAddr with
      | none => exact nofun
      | some addr => exact (crowded nofun).real sound' target
    exact ⟨crowded, real, (sound'.queried_iff ends real).mpr few⟩

end Lookup

/-- **Iterative lookup.** From every table, with every network that tells of finitely many nodes,
a lookup comes to an end. It returns the closest nodes of all that it was told of, all of them
queried, without the placeholder and the local node, exactly if its last round has no more than
`alpha` nodes left to query and, where a seed address is given, `k` other nodes displace its
placeholder. -/
theorem iterativeFindNode_thorough_iff {localNodeId : NodeId} {table : RoutingTable}
    (reached : (routing localNodeId).Reachable table) {targetId : NodeId}
    (target : fromBytes targetId < 2 ^ B) (k alpha : Nat) (net : Network)
    (seedAddr : Option (String × Int)) : ∃ enough final, (∀ fuel, enough ≤ fuel →
        iterativeFindNode fuel k alpha targetId net table seedAddr = some final) ∧
      (final.Thorough k targetId localNodeId seedAddr ↔
        (∀ last, Lookup.Reached k alpha targetId net (.start k targetId table seedAddr) last →
          last.Stops k alpha targetId net → last.unqueried.length ≤ alpha) ∧
        (seedAddr ≠ none → final.Crowded k targetId)) :=
  (Lookup.Sound.start reached).lookup_iff target

def silent : Network where
  answer _ _ := none
  clock _ := 0
  members := []
  closed := nofun
  bits := nofun

def fourNodes : RoutingTable :=
  [1, 2, 3, 4].foldl
    (fun table byte => table.exec (.insertNode 0 ⟨[byte], "10.0.0.1", 8468, 0⟩)) (.create [0] 0)

theorem fourNodes_reachable : (routing [0]).Reachable fourNodes := by
  have insert {t : RoutingTable} (reached : (routing [0]).Reachable t) (node : KademliaNode) :
      (routing [0]).Reachable (t.exec (.insertNode 0 node)) :=
    .step (.insertNode 0 node) reached nofun trivial
  have start : (routing [0]).Reachable (.create [0] 0) := .init ⟨0, rfl⟩
  exact insert (insert (insert (insert start _) _) _) _

/-- Where four nodes are asked at a time, all are. -/
theorem iterativeFindNode_thorough_fourNodes : ∃ enough final,
      (∀ fuel, enough ≤ fuel → iterativeFindNode fuel 20 4 [] silent fourNodes none = some final) ∧
      final.Thorough 20 [] [0] none := by
  obtain ⟨enough, final, returns, thorough⟩ :=
    iterativeFindNode_thorough_iff fourNodes_reachable (show fromBytes [] < 2 ^ B by decide) 20 4
      silent none
  refine ⟨enough, final, returns, thorough.mpr ⟨fun last reached _ => ?_, nofun⟩⟩
  have stops : (Lookup.start 20 [] fourNodes none).Stops 20 4 [] silent := .inr (by decide +kernel)
  rw [reached.eq_of_stops stops]
  decide +kernel

/-- The first three nodes do not answer, and the fourth one is returned without having been
queried. -/
theorem fourth_not_queried : ∃ table final, (routing [0]).Reachable table ∧
      iterativeFindNode 1 20 3 [] silent table none = some final ∧
      ¬ final.Thorough 20 [] [0] none := by
  have unqueried : ∃ final, iterativeFindNode 1 20 3 [] silent fourNodes none = some final ∧
      ∃ n ∈ final.result 20, n.nodeId ∉ final.queried := by
    decide +kernel
  obtain ⟨final, returned, n, member, new⟩ := unqueried
  exact ⟨fourNodes, final, fourNodes_reachable, returned,
    fun thorough => new (thorough.queried n member)⟩

end DistLLM.Kademlia
