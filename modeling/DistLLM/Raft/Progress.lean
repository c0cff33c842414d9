import DistLLM.Library.Machine
import DistLLM.Raft.Storing
import DistLLM.Raft.Voting

/-!
# Progress tracking of a leader

The exchange at the heart of `_replicate_to_peers` and `_send_heartbeats`: a leader builds a
request for a peer, the peer answers it, and the answer moves `next_index` and `match_index`.
A successful answer is never processed, since its `applied_count` has no length.
-/
namespace DistLLM.Raft

open DistLLM.Library RaftNode

variable {ι P : Type} [DecidableEq ι]

structure Replicas (ι P : Type) where
  leader : RaftNode ι P
  peers : ι → RaftNode ι P

/-- Besides the exchanges, the leader takes proposals, tracks new peers and commits, a call may
be lost on its way back, and a peer may do anything else. -/
inductive ReplicasAction (ι P : Type)
  | propose (entryType : String) (payload : P)
  | trackPeers (peerIds : List ι)
  | advanceCommit
  | exchange (peerId : ι) (timer : Timer)
  | loseReply (peerId : ι) (timer : Timer)
  | peerCall (peerId : ι) (call : Call ι P) (timer : Timer)

namespace Replicas

def setPeer (s : Replicas ι P) (peerId : ι) (n : RaftNode ι P) : Replicas ι P :=
  { s with peers := Function.update s.peers peerId n }

/-- What the leader does with an answer; one that was never given leaves it alone. -/
def processAnswer (n : RaftNode ι P) (peerId : ι) : Except PyError AppendResponse →
    Outcome ι P Bool
  | .ok reply => n.processAppendEntriesResponse peerId reply
  | .error e => (.error e, n)

def exec (s : Replicas ι P) : ReplicasAction ι P → Replicas ι P
  | .propose entryType payload => { s with leader := (s.leader.appendToLog entryType payload).2 }
  | .trackPeers peerIds => { s with leader := s.leader.setPeers peerIds }
  | .advanceCommit => { s with leader := s.leader.advanceCommitIndex }
  | .exchange peerId timer =>
    match s.leader.buildAppendEntriesRequest peerId with
    | none => s
    | some request =>
      let out := receiveAppend (s.peers peerId) request timer
      { s.setPeer peerId out.2 with leader := (processAnswer s.leader peerId out.1).2 }
  | .loseReply peerId timer =>
    match s.leader.buildAppendEntriesRequest peerId with
    | none => s
    | some request => s.setPeer peerId (receiveAppend (s.peers peerId) request timer).2
  | .peerCall peerId call timer => s.setPeer peerId (call.exec (s.peers peerId) timer).2

end Replicas

/-- Replication from a node that has just become the leader, over peers in any state. -/
def progress (ι P : Type) [DecidableEq ι] : Machine (Replicas ι P) (ReplicasAction ι P) where
  init s := ∃ (n : RaftNode ι P) (peerIds : List ι), s.leader = n.becomeLeader.setPeers peerIds
  enabled _ _ := True
  exec := Replicas.exec

/-- An answered request is processed without raising, what is known to be replicated is in
both logs, and a success moves both indices past the batch. -/
structure ExchangeSound [DecidableEq P] (s : Replicas ι P) (peerId : ι) (timer : Timer) : Prop where
  returns : ∀ request reply, s.leader.buildAppendEntriesRequest peerId = some request →
    (receiveAppend (s.peers peerId) request timer).1 = .ok reply →
    ∃ b, (s.leader.processAppendEntriesResponse peerId reply).1 = .ok b
  matched : ∀ ls m, (s.exec (.exchange peerId timer)).leader.leaderState = some ls →
    ls.matchIndex.get? peerId = some m →
    m ≤ commonPrefixLength (s.exec (.exchange peerId timer)).leader.log
      ((s.exec (.exchange peerId timer)).peers peerId).log
  moved : ∀ request reply ls i, s.leader.buildAppendEntriesRequest peerId = some request →
    (receiveAppend (s.peers peerId) request timer).1 = .ok reply → reply.success = true →
    s.leader.leaderState = some ls → ls.nextIndex.get? peerId = some i →
    ∃ ls', (s.exec (.exchange peerId timer)).leader.leaderState = some ls' ∧
      ls'.matchIndex.get? peerId = some (i - 1 + request.entries.length) ∧
      ls'.nextIndex.get? peerId = some (i + request.entries.length)

/-- The peer does not take what the leader has for it: it is in a later term, it was never a
candidate, or it misses the entry before the leader's next index. -/
def Declines (s : Replicas ι P) (peerId : ι) : Prop :=
  ∀ ls nextIdx, s.leader.leaderState = some ls → ls.nextIndex.get? peerId = some nextIdx →
    ¬ AcceptsAppend (s.peers peerId)
      (requestFrom s.leader (nextIdx - 1) s.leader.maxBatchSize s.leader.commitIndex)

variable {ls : RaftLeaderState ι}

theorem processAppendEntriesResponse_cases (n : RaftNode ι P) (peerId : ι)
    (response : AppendResponse) (leads : n.leaderState = some ls) :
    (response.success = true ∧
      (∃ e, (n.processAppendEntriesResponse peerId response).1 = .error e) ∧
      (n.processAppendEntriesResponse peerId response).2 = n) ∨
    (response.success = false ∧
      (n.processAppendEntriesResponse peerId response).1 = .ok false ∧
      ∃ nextIndex, (∀ pid i, nextIndex.get? pid = some i →
          1 ≤ i ∨ ls.nextIndex.get? pid = some i) ∧
        (n.processAppendEntriesResponse peerId response).2 =
          { n with leaderState := some { ls with nextIndex } }) := by
  unfold processAppendEntriesResponse
  rw [leads]
  cases success : response.success with
  | true =>
    left
    exact ⟨rfl, ⟨_, rfl⟩, rfl⟩
  | false =>
    right
    refine ⟨rfl, ?_⟩
    simp only [Bool.false_eq_true, if_false]
    split
    · next above =>
      refine ⟨rfl, _, ?_, rfl⟩
      intro pid i found
      rw [Dict.get?_set] at found
      split at found
      · -- one step back, but not below 1
        cases found
        exact Or.inl (by omega)
      · exact Or.inr found
    · refine ⟨rfl, ls.nextIndex, fun pid i found => Or.inr found, ?_⟩
      rw [← leads]

/-! ### Nothing is ever matched -/

/-- The leader still leads, every tracked match index is zero, and every next index is a
position in the log. -/
structure NothingMatched (n : RaftNode ι P) (ls : RaftLeaderState ι) : Prop where
  leads : n.leaderState = some ls
  zero : ∀ peerId m, ls.matchIndex.get? peerId = some m → m = 0
  positive : ∀ peerId i, ls.nextIndex.get? peerId = some i → 1 ≤ i

theorem NothingMatched.setPeers {n : RaftNode ι P} (unmatched : NothingMatched n ls)
    (peerIds : List ι) :
    ∃ ls', NothingMatched (n.setPeers peerIds) ls' := by
  obtain ⟨leads, zero, positive⟩ := unmatched
  -- a tracked index is kept, and a new one starts at its default
  have tracked : ∀ (d : Dict ι Nat) pid pid' (default v : Nat),
      (d.setDefault pid default).get? pid' = some v → v = default ∨ d.get? pid' = some v := by
    intro d pid pid' default v found
    rw [Dict.get?_setDefault] at found
    by_cases same : pid = pid'
    · rw [if_pos same] at found
      subst same
      cases old : d.get? pid with
      | none =>
        rw [old] at found
        exact Or.inl (Option.some.inj found).symm
      | some v' =>
        rw [old] at found
        exact Or.inr found
    · rw [if_neg same] at found
      exact Or.inr found
  unfold RaftNode.setPeers
  rw [leads]
  refine ⟨_, rfl, And.left ?both, And.right ?both⟩
  clear leads
  induction peerIds generalizing ls with
  | nil => exact ⟨zero, positive⟩
  | cons pid rest ih =>
    rw [List.foldl_cons]
    apply ih
    · intro peerId m found
      split at found
      · rcases tracked _ _ _ _ _ found with rfl | old
        · rfl
        · exact zero peerId m old
      · exact zero peerId m found
    · intro peerId i found
      split at found
      · rcases tracked _ _ _ _ _ found with rfl | old
        · exact Nat.le_add_left 1 _
        · exact positive peerId i old
      · exact positive peerId i found

theorem NothingMatched.processAnswer {n : RaftNode ι P} (unmatched : NothingMatched n ls)
    (peerId : ι) (answer : Except PyError AppendResponse) :
    ∃ ls', NothingMatched (Replicas.processAnswer n peerId answer).2 ls' := by
  cases answer with
  | error e => exact ⟨ls, unmatched⟩
  | ok reply =>
    rcases processAppendEntriesResponse_cases n peerId reply unmatched.leads with
      ⟨_, _, same⟩ | ⟨_, _, nextIndex, moved, out⟩
    · simp only [Replicas.processAnswer, same]
      exact ⟨ls, unmatched⟩
    · simp only [Replicas.processAnswer, out]
      refine ⟨_, rfl, unmatched.zero, fun pid i found => ?_⟩
      rcases moved pid i found with positive | old
      · exact positive
      · exact unmatched.positive pid i old

theorem NothingMatched.step (s : Replicas ι P) (a : ReplicasAction ι P)
    (unmatched : ∃ ls, NothingMatched s.leader ls) : ∃ ls, NothingMatched (s.exec a).leader ls := by
  obtain ⟨ls, unmatched⟩ := unmatched
  cases a with
  | propose entryType payload => exact ⟨ls, unmatched.leads, unmatched.zero, unmatched.positive⟩
  | trackPeers peerIds => exact unmatched.setPeers peerIds
  | advanceCommit =>
    have kept : s.leader.advanceCommitIndex.leaderState = s.leader.leaderState := by
      obtain ⟨volatile, out⟩ := s.leader.advanceCommitIndex_frame
      rw [out]
    exact ⟨ls, kept.trans unmatched.leads, unmatched.zero, unmatched.positive⟩
  | exchange peerId timer =>
    simp only [Replicas.exec]
    split
    · exact ⟨ls, unmatched⟩
    · exact unmatched.processAnswer peerId _
  | loseReply peerId timer =>
    simp only [Replicas.exec]
    split <;> exact ⟨ls, unmatched⟩
  | peerCall peerId call timer => exact ⟨ls, unmatched⟩

variable {s : Replicas ι P}

theorem nothingMatched_of_reachable (reached : (progress ι P).Reachable s) :
    ∃ ls, NothingMatched s.leader ls := by
  apply reached.invariant (I := fun s => ∃ ls, NothingMatched s.leader ls)
  · rintro s ⟨n, peerIds, leader⟩
    have fresh : NothingMatched n.becomeLeader { nextIndex := ∅, matchIndex := ∅ } :=
      ⟨rfl, fun peerId m found => (by simp at found), fun peerId i found => (by simp at found)⟩
    rw [leader]
    exact fresh.setPeers peerIds
  · intro s a unmatched _ _
    exact NothingMatched.step s a unmatched

/-- What the leader builds is the request from its next index, so a peer that declines takes
no request of the leader. -/
theorem NothingMatched.declines_iff (unmatched : NothingMatched s.leader ls) (peerId : ι) :
    Declines s peerId ↔ ∀ request, s.leader.buildAppendEntriesRequest peerId = some request →
      ¬ AcceptsAppend (s.peers peerId) request := by
  constructor
  · intro declines request built
    cases tracked : ls.nextIndex.get? peerId with
    | none =>
      -- a peer that is not tracked is sent nothing
      simp [buildAppendEntriesRequest, unmatched.leads, tracked] at built
    | some nextIdx =>
      rw [buildAppendEntriesRequest_eq s.leader peerId unmatched.leads tracked
        (unmatched.positive peerId nextIdx tracked)] at built
      cases built
      exact declines ls nextIdx unmatched.leads tracked
  · intro refuses ls' nextIdx leads tracked
    cases unmatched.leads.symm.trans leads
    exact refuses _ (buildAppendEntriesRequest_eq s.leader peerId leads tracked
      (unmatched.positive peerId nextIdx tracked))

theorem NothingMatched.le_common [DecidableEq P] (unmatched : ∃ ls, NothingMatched s.leader ls)
    {peerId : ι} {m : Nat} (leads : s.leader.leaderState = some ls)
    (found : ls.matchIndex.get? peerId = some m) :
    m ≤ commonPrefixLength s.leader.log (s.peers peerId).log := by
  obtain ⟨ls', unmatched⟩ := unmatched
  cases unmatched.leads.symm.trans leads
  rw [unmatched.zero peerId m found]
  exact Nat.zero_le _

theorem NothingMatched.refuses_of_sound [DecidableEq P] (unmatched : NothingMatched s.leader ls)
    {peerId : ι} {timer : Timer} (sound : ExchangeSound s peerId timer)
    (request : AppendRequest ι P)
    (built : s.leader.buildAppendEntriesRequest peerId = some request) :
    ¬ AcceptsAppend (s.peers peerId) request := by
  intro accepted
  rcases receiveAppend_reply (s.peers peerId) request timer with ⟨_, reply⟩ | ⟨refused, _⟩
  · obtain ⟨b, returned⟩ := sound.returns request _ built reply
    rcases processAppendEntriesResponse_cases s.leader peerId
      { term := request.term, success := true } unmatched.leads with
      ⟨_, ⟨e, raised⟩, _⟩ | ⟨failed, _⟩
    · cases returned.symm.trans raised
    · cases failed
  · exact refused accepted

/-- A refusal is processed without raising, and no success is left to move an index. -/
theorem NothingMatched.sound_of_refuses [DecidableEq P] (unmatched : NothingMatched s.leader ls)
    {peerId : ι} (timer : Timer)
    (refuses : ∀ request, s.leader.buildAppendEntriesRequest peerId = some request →
      ¬ AcceptsAppend (s.peers peerId) request) : ExchangeSound s peerId timer := by
  have failed : ∀ request reply, s.leader.buildAppendEntriesRequest peerId = some request →
      (receiveAppend (s.peers peerId) request timer).1 = .ok reply → reply.success = false := by
    intro request reply built answered
    rcases receiveAppend_reply (s.peers peerId) request timer with ⟨accepted, _⟩ | ⟨_, fails⟩
    · exact absurd accepted (refuses request built)
    · exact fails reply answered
  refine ⟨?_, ?_, ?_⟩
  · intro request reply built answered
    have fails := failed request reply built answered
    rcases processAppendEntriesResponse_cases s.leader peerId reply unmatched.leads with
      ⟨success, _⟩ | ⟨_, returned, _⟩
    · rw [fails] at success
      cases success
    · exact ⟨false, returned⟩
  · intro ls' m leads found
    exact le_common (NothingMatched.step s (.exchange peerId timer) ⟨ls, unmatched⟩) leads found
  · intro request reply ls' i built answered success
    rw [failed request reply built answered] at success
    cases success

/-- In every run no match index passes the common prefix. An exchange is sound exactly when the
peer declines the request: the leader raises on every success. -/
theorem exchange_sound_iff [DecidableEq P] (s : Replicas ι P)
    (reached : (progress ι P).Reachable s) :
    (∀ ls peerId m, s.leader.leaderState = some ls → ls.matchIndex.get? peerId = some m →
      m ≤ commonPrefixLength s.leader.log (s.peers peerId).log) ∧
    (∀ peerId timer, ExchangeSound s peerId timer ↔ Declines s peerId) := by
  obtain ⟨ls, unmatched⟩ := nothingMatched_of_reachable reached
  refine ⟨fun _ _ _ leads found => NothingMatched.le_common ⟨ls, unmatched⟩ leads found, ?_⟩
  intro peerId timer
  rw [unmatched.declines_iff peerId]
  exact ⟨unmatched.refuses_of_sound, unmatched.sound_of_refuses timer⟩

/-- "a" leads term 1, and the others have been candidates so many times. -/
def leaderAndPeer (campaigns : Nat) : Replicas String String where
  leader := ((RaftNode.init "a" 64 ⟨0, 150⟩).becomeCandidate ⟨1, 150⟩).becomeLeader.setPeers ["b"]
  peers i := Nat.iterate (fun n => n.becomeCandidate ⟨1, 150⟩) campaigns (RaftNode.init i 64 ⟨0, 150⟩)

theorem leaderAndPeer_reachable (campaigns : Nat) :
    (progress String String).Reachable (leaderAndPeer campaigns) :=
  .init ⟨_, _, rfl⟩

/-- A peer of term 2 declines the request, and its answer is processed. -/
theorem exchange_sound_iff_example :
    (receiveAppend ((leaderAndPeer 2).peers "b") (requestFrom (leaderAndPeer 2).leader 0 64 0)
      ⟨2, 150⟩).1 = .ok { term := 2, success := false } ∧
    ExchangeSound (leaderAndPeer 2) "b" ⟨2, 150⟩ := by
  refine ⟨rfl, ((exchange_sound_iff _ (leaderAndPeer_reachable 2)).2 "b" ⟨2, 150⟩).mpr ?_⟩
  intro ls nextIdx _ _ accepted
  have later : ¬ (2 : Nat) ≤ 1 := by decide
  exact later accepted.1

/-- The first accepted heartbeat makes the leader raise. -/
theorem accepted_heartbeat_raises :
    ∃ s, (progress String String).Reachable s ∧ ∃ request,
      s.leader.buildAppendEntriesRequest "b" = some request ∧
      (receiveAppend (s.peers "b") request ⟨2, 150⟩).1 = .ok { term := 1, success := true } ∧
      (s.leader.processAppendEntriesResponse "b" { term := 1, success := true }).1 =
        .error (.typeError "object of type 'int' has no len()") ∧
      ¬ ExchangeSound s "b" ⟨2, 150⟩ := by
  have built : (leaderAndPeer 1).leader.buildAppendEntriesRequest "b" =
      some (requestFrom (leaderAndPeer 1).leader 0 64 0) := rfl
  have answered : (receiveAppend ((leaderAndPeer 1).peers "b")
      (requestFrom (leaderAndPeer 1).leader 0 64 0) ⟨2, 150⟩).1 =
        .ok { term := 1, success := true } := rfl
  refine ⟨_, leaderAndPeer_reachable 1, _, built, answered, rfl, fun sound => ?_⟩
  obtain ⟨b, returned⟩ := sound.returns _ _ built answered
  cases returned

end DistLLM.Raft
