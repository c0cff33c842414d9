import DistLLM.Pbft.Frames

/-!
# An honest network

The live nodes of a cluster exchange the messages they put into their own logs, and nobody
forges or alters any. A message once sent can be delivered at any time, in any order and more
than once. The nodes that are not live are silent.
-/
namespace DistLLM.Pbft

open DistLLM.Library PBFTNode

variable {ι Op PK SK Sig : Type}

def Input.sender : Input ι Op Sig → Option ι
  | .prePrepare msg | .prepare msg | .commit msg => some msg.sender
  | .viewChange message => some message.nodeId
  | .newView message => some message.sender
  | .request _ | .startViewChange => none

/-- The sequence number that a message of the three phases is about. -/
def Input.number : Input ι Op Sig → Option Int
  | .prePrepare msg | .prepare msg | .commit msg => some msg.sequence
  | _ => none

variable (n : PBFTNode ι Op PK SK Sig)

/-- The own messages in the logs of a node: what it broadcasts. -/
def PBFTNode.outbox [DecidableEq ι] (n : PBFTNode ι Op PK SK Sig) : List (Input ι Op Sig) :=
  (n.prePrepareLog.values.filter fun m => decide (m.sender = n.nodeId)).map .prePrepare ++
  (n.prepareLog.values.flatten.filter fun m => decide (m.sender = n.nodeId)).map .prepare ++
  (n.commitLog.values.flatten.filter fun m => decide (m.sender = n.nodeId)).map .commit ++
  (n.viewChangeMessages.values.flatten.filter fun m => decide (m.nodeId = n.nodeId)).map
    .viewChange ++
  (n.newViewMessages.values.filter fun m => decide (m.sender = n.nodeId)).map .newView

/-- Where in the logs a message of the outbox is. -/
def PBFTNode.Posts : Input ι Op Sig → Prop
  | .prePrepare m => m.sender = n.nodeId ∧ ∃ q, n.prePrepareLog.get? q = some m
  | .prepare m => m.sender = n.nodeId ∧ ∃ q, m ∈ n.prepareLog.getD q []
  | .commit m => m.sender = n.nodeId ∧ ∃ q, m ∈ n.commitLog.getD q []
  | .viewChange m => m.nodeId = n.nodeId ∧ ∃ view, m ∈ n.viewChangeMessages.getD view []
  | .newView m => m.sender = n.nodeId ∧ ∃ view, n.newViewMessages.get? view = some m
  | .request _ | .startViewChange => False

theorem PBFTNode.mem_outbox_iff [DecidableEq ι]
    (x : Input ι Op Sig) : x ∈ n.outbox ↔ n.Posts x := by
  simp only [outbox, List.mem_append, List.mem_map, List.mem_filter, decide_eq_true_eq,
    Dict.mem_values_iff, Dict.mem_flatten_values_iff]
  cases x <;> simp [Posts, and_comm]

variable [LinearOrder ι] [DecidableEq Op] [DecidableEq Sig]

/-- The nodes, all that was ever sent, what was delivered to whom, and the messages that
`handle_request` returned. -/
structure Network (ι Op PK SK Sig : Type) where
  nodes : ClusterState ι Op PK SK Sig
  sent : List (Input ι Op Sig)
  delivered : List (ι × Input ι Op Sig)
  requests : List (PBFTMessage ι Op Sig)

inductive NetAction (ι Op Sig : Type)
  | request (node : ι) (operation : Op)
  | startViewChange (node : ι)
  | deliver (node : ι) (input : Input ι Op Sig)
  deriving DecidableEq

variable (s : Network ι Op PK SK Sig)

namespace Network

/-- A node moves on, and what is new among its own messages is sent. -/
def put (i : ι) (n : PBFTNode ι Op PK SK Sig) :
    Network ι Op PK SK Sig :=
  { s with
    nodes := Function.update s.nodes i n
    sent := s.sent ++ n.outbox.filter fun x => decide (x ∉ (s.nodes i).outbox) }

def exec (p : Primitives ι Op PK SK Sig) (s : Network ι Op PK SK Sig) :
    NetAction ι Op Sig → Network ι Op PK SK Sig
  | .request i operation =>
    let (msg, n) := (s.nodes i).handleRequest p operation
    { s.put i n with requests := s.requests ++ msg.toList }
  | .startViewChange i => s.put i ((s.nodes i).startViewChange p)
  | .deliver i x =>
    { s.put i ((s.nodes i).receive p x) with delivered := s.delivered ++ [(i, x)] }

end Network

/-- Live nodes act, and what was sent is delivered to other nodes than its sender. -/
def NetEnabled (c : Cluster ι Op PK SK Sig) (s : Network ι Op PK SK Sig) :
    NetAction ι Op Sig → Prop
  | .request i _ => c.Honest i
  | .startViewChange i => c.Honest i
  | .deliver i x => c.Honest i ∧ x ∈ s.sent ∧ x.sender ≠ some i

/-- The live nodes of a cluster and their network; nothing is under way at the start. -/
def network (c : Cluster ι Op PK SK Sig) (start : ClusterState ι Op PK SK Sig → Prop) :
    Machine (Network ι Op PK SK Sig) (NetAction ι Op Sig) where
  init s := start s.nodes ∧ s.sent = [] ∧ s.delivered = [] ∧ s.requests = []
  enabled := NetEnabled c
  exec := Network.exec c.primitives

instance (c : Cluster ι Op PK SK Sig) (start : ClusterState ι Op PK SK Sig → Prop)
    (s : Network ι Op PK SK Sig) : ∀ a, Decidable ((network c start).enabled s a)
  | .request i _ => inferInstanceAs (Decidable (c.Honest i))
  | .startViewChange i => inferInstanceAs (Decidable (c.Honest i))
  | .deliver i x => inferInstanceAs (Decidable (c.Honest i ∧ x ∈ s.sent ∧ x.sender ≠ some i))

namespace Network

theorem put_nodes_self (i : ι) (n : PBFTNode ι Op PK SK Sig) : (s.put i n).nodes i = n :=
  Function.update_self ..

theorem put_nodes_of_ne {i j : ι} (n : PBFTNode ι Op PK SK Sig)
    (other : j ≠ i) : (s.put i n).nodes j = s.nodes j :=
  Function.update_of_ne other ..

theorem put_elim {P : PBFTNode ι Op PK SK Sig → Prop} {i j : ι} {n : PBFTNode ι Op PK SK Sig}
    (old : j ≠ i → P (s.nodes j)) (new : j = i → P n) : P ((s.put i n).nodes j) := by
  by_cases moved : j = i
  · rw [moved, put_nodes_self]
    exact new moved
  · rw [put_nodes_of_ne _ _ moved]
    exact old moved

theorem mem_sent_put (i : ι) (n : PBFTNode ι Op PK SK Sig) (x : Input ι Op Sig) :
    x ∈ (s.put i n).sent ↔ x ∈ s.sent ∨ (n.Posts x ∧ ¬ (s.nodes i).Posts x) := by
  simp [put, mem_outbox_iff]

end Network

end DistLLM.Pbft
