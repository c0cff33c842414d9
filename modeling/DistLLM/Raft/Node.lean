import DistLLM.Library.Dict
import Mathlib.Algebra.Order.Field.Rat
import Mathlib.Data.Finset.Card
import Mathlib.Data.List.Sort

/-!
# RaftNode

The node of the topology consensus layer: its state and its methods, each as a
function from the state before to the result and the state after. Node ids
(`ι`) and entry payloads (`P`) stay abstract. Terms and indices are never
negative in the source and are `Nat` here. A method that raises keeps the
assignments it made before the exception, so the state comes back either way.
-/
namespace DistLLM.Raft

open DistLLM.Library

/-! ### Data model -/

inductive RaftRole
  | follower
  | candidate
  | leader
  deriving DecidableEq, Repr

/-- A log entry; `index` is 1-based and set by the leader that appended it. -/
structure LogEntry (P : Type) where
  term : Nat
  index : Nat
  entryType : String
  payload : P
  deriving DecidableEq, Repr

structure RaftPersistentState (ι P : Type) where
  currentTerm : Nat := 0
  votedFor : Option ι := none
  log : List (LogEntry P) := []

structure RaftVolatileState where
  commitIndex : Nat := 0
  lastApplied : Nat := 0

structure RaftLeaderState (ι : Type) where
  nextIndex : Dict ι Nat
  matchIndex : Dict ι Nat

/-- `_votes_received`. The constructor stores the result of `dataclasses.field(...)`,
which is no set; the first real set is assigned by `_become_candidate`. -/
inductive VoteSet (ι : Type)
  | field
  | received (voters : Finset ι)

inductive PyError
  | attributeError (message : String)
  | typeError (message : String)
  deriving DecidableEq, Repr

/-- One reading of the clock and of the random election delay. -/
structure Timer where
  now : ℚ
  delayMs : Nat

structure RaftNode (ι P : Type) where
  nodeId : ι
  maxBatchSize : Nat
  role : RaftRole
  persistent : RaftPersistentState ι P
  volatile : RaftVolatileState
  leaderState : Option (RaftLeaderState ι)
  leaderId : Option ι
  electionDeadline : ℚ
  votesReceived : VoteSet ι

/-- What a method returns or raises, with the state it leaves behind. -/
abbrev Outcome (ι P α : Type) := Except PyError α × RaftNode ι P

variable {ι P : Type} (n : RaftNode ι P) (s : RaftPersistentState ι P) (timer : Timer)

namespace RaftPersistentState

def lastLogIndex : Nat := s.log.length

def lastLogTerm : Nat :=
  match s.log.getLast? with
  | none => 0
  | some e => e.term

def getEntry (index : Nat) : Option (LogEntry P) :=
  if 1 ≤ index ∧ index ≤ s.log.length then s.log[index - 1]? else none

@[simp] theorem getEntry_zero : s.getEntry 0 = none := by
  simp [getEntry]

@[simp] theorem getEntry_succ (j : Nat) : s.getEntry (j + 1) = s.log[j]? := by
  unfold getEntry
  by_cases inside : j + 1 ≤ s.log.length
  · simp [inside]
  · rw [if_neg (by omega), List.getElem?_eq_none (by omega)]

def appendEntries (entries : List (LogEntry P)) :
    RaftPersistentState ι P :=
  { s with log := s.log ++ entries }

def truncateFrom (index : Nat) : RaftPersistentState ι P :=
  if 1 ≤ index ∧ index ≤ s.log.length then { s with log := s.log.take (index - 1) } else s

end RaftPersistentState

/-- `_random_election_deadline`: an absolute time for the next election timeout. -/
def randomElectionDeadline : ℚ := timer.now + (timer.delayMs : ℚ) / 1000

namespace RaftNode

def init (nodeId : ι) (maxBatchSize : Nat) (timer : Timer) : RaftNode ι P where
  nodeId := nodeId
  maxBatchSize := maxBatchSize
  role := .follower
  persistent := {}
  volatile := {}
  leaderState := none
  leaderId := none
  electionDeadline := randomElectionDeadline timer
  votesReceived := .field

def currentTerm (n : RaftNode ι P) : Nat := n.persistent.currentTerm

def log (n : RaftNode ι P) : List (LogEntry P) := n.persistent.log

def commitIndex (n : RaftNode ι P) : Nat := n.volatile.commitIndex

/-- Log entries from `start` (1-based, never 0 where it is called) to the end. -/
def logSlice (start : Nat) : List (LogEntry P) := n.log.drop (start - 1)

/-- `_become_follower`. Clearing the placeholder of a node that was never a candidate
raises, with role and term already changed and the old deadline still in place. -/
def becomeFollower (term : Nat) (leaderId : Option ι) (timer : Timer) :
    Outcome ι P Unit :=
  let n := { n with
    role := .follower
    persistent := { n.persistent with currentTerm := term }
    leaderId := leaderId
    leaderState := none }
  match n.votesReceived with
  -- `_votes_received` is still the object that `dataclasses.field` returned
  | .field => (.error (.attributeError "'Field' object has no attribute 'clear'"), n)
  | .received _ =>
    (.ok (), { n with
      votesReceived := .received ∅
      electionDeadline := randomElectionDeadline timer })

/-- `_become_candidate`: increment the term and vote for self. -/
def becomeCandidate : RaftNode ι P :=
  { n with
    role := .candidate
    persistent := { n.persistent with
      currentTerm := n.persistent.currentTerm + 1
      votedFor := some n.nodeId }
    leaderId := none
    leaderState := none
    votesReceived := .received {n.nodeId}
    electionDeadline := randomElectionDeadline timer }

def becomeLeader : RaftNode ι P :=
  { n with
    role := .leader
    leaderId := some n.nodeId
    leaderState := some { nextIndex := ∅, matchIndex := ∅ } }

/-- `set_peers` (and `update_peer_tracking`, which has the same body). -/
def setPeers [DecidableEq ι] (n : RaftNode ι P) (peerIds : List ι) : RaftNode ι P :=
  match n.leaderState with
  | none => n
  | some ls =>
    let nextIdx := n.persistent.lastLogIndex + 1
    { n with
      leaderState := some (peerIds.foldl
        (fun ls pid =>
          if pid ≠ n.nodeId then
            { nextIndex := ls.nextIndex.setDefault pid nextIdx
              matchIndex := ls.matchIndex.setDefault pid 0 }
          else ls) ls) }

def resetElectionTimeout : RaftNode ι P :=
  { n with electionDeadline := randomElectionDeadline timer }

def appendToLog (entryType : String) (payload : P) : Nat × RaftNode ι P :=
  let index := n.persistent.lastLogIndex + 1
  let entry := { term := n.currentTerm, index, entryType, payload }
  (index, { n with persistent := n.persistent.appendEntries [entry] })

structure VoteResponse where
  term : Nat
  voteGranted : Bool
  deriving DecidableEq, Repr

/-- The log of the candidate is at least as up to date as the node's own. -/
def logOk (lastLogIndex lastLogTerm : Nat) : Prop :=
  lastLogTerm > n.persistent.lastLogTerm ∨
    (lastLogTerm = n.persistent.lastLogTerm ∧ lastLogIndex ≥ n.persistent.lastLogIndex)

instance (n : RaftNode ι P) (lastLogIndex lastLogTerm : Nat) :
    Decidable (n.logOk lastLogIndex lastLogTerm) :=
  inferInstanceAs (Decidable (_ ∨ _))

/-- `already_voted`: the stored vote names somebody else. -/
def alreadyVoted (candidateId : ι) : Prop :=
  n.persistent.votedFor ≠ none ∧ n.persistent.votedFor ≠ some candidateId

instance [DecidableEq ι] (n : RaftNode ι P) (candidateId : ι) :
    Decidable (n.alreadyVoted candidateId) :=
  inferInstanceAs (Decidable (_ ∧ _))

/-- The second half of `handle_request_vote`, after the term comparison. -/
def considerVote [DecidableEq ι] (n : RaftNode ι P) (candidateId : ι)
    (lastLogIndex lastLogTerm : Nat) (timer : Timer) : Outcome ι P VoteResponse :=
  if n.alreadyVoted candidateId then
    (.ok { term := n.currentTerm, voteGranted := false }, n)
  else if ¬ n.logOk lastLogIndex lastLogTerm then
    (.ok { term := n.currentTerm, voteGranted := false }, n)
  else
    (.ok { term := n.currentTerm, voteGranted := true },
      { n with
        persistent := { n.persistent with votedFor := some candidateId }
        electionDeadline := randomElectionDeadline timer })

def handleRequestVote [DecidableEq ι] (n : RaftNode ι P) (candidateId : ι)
    (candidateTerm lastLogIndex lastLogTerm : Nat) (timer : Timer) : Outcome ι P VoteResponse :=
  if candidateTerm < n.currentTerm then
    (.ok { term := n.currentTerm, voteGranted := false }, n)
  else if candidateTerm > n.currentTerm then
    match n.becomeFollower candidateTerm none timer with
    | (.error e, n) => (.error e, n)
    -- the vote stored in the old term is still there
    | (.ok _, n) => n.considerVote candidateId lastLogIndex lastLogTerm timer
  else n.considerVote candidateId lastLogIndex lastLogTerm timer

structure AppendResponse where
  term : Nat
  success : Bool
  conflictIndex : Option Nat := none
  appliedCount : Option Nat := none
  deriving DecidableEq, Repr

/-- The backward scan of `_find_conflict_index` from `i`. -/
def scanConflict (s : RaftPersistentState ι P) (conflictTerm : Nat) : Nat → Nat
  | 0 => 1
  | i + 1 =>
    match s.getEntry (i + 1) with
    | none => i + 2
    | some e => if e.term ≠ conflictTerm then i + 2 else scanConflict s conflictTerm i

def findConflictIndex (prevLogIndex : Nat) : Nat :=
  let conflictTerm := match s.getEntry prevLogIndex with
    | some e => e.term
    | none => 0
  scanConflict s conflictTerm prevLogIndex

/-- First loop of `handle_append_entries`: cut the log at the first entry whose term
differs from the incoming one. `entryIdx` is `prev_log_index + 1 + i`. -/
def truncateConflict (s : RaftPersistentState ι P) (entryIdx : Nat) :
    List (LogEntry P) → RaftPersistentState ι P
  | [] => s
  | entry :: rest =>
    match s.getEntry entryIdx with
    | none => truncateConflict s (entryIdx + 1) rest
    | some existing =>
      if existing.term ≠ entry.term then s.truncateFrom entryIdx
      else truncateConflict s (entryIdx + 1) rest

/-- Second loop: append the entries whose index the log does not have. -/
def appendMissing (s : RaftPersistentState ι P) : List (LogEntry P) → RaftPersistentState ι P
  | [] => s
  | entry :: rest =>
    -- by the index the entry carries, not by its position in the batch
    match s.getEntry entry.index with
    | none => appendMissing (s.appendEntries [entry]) rest
    | some _ => appendMissing s rest

/-- The entry before the new ones is there and has the expected term. -/
def prevMatches (prevLogIndex prevLogTerm : Nat) : Prop :=
  prevLogIndex = 0 ∨ ∃ e ∈ s.getEntry prevLogIndex, e.term = prevLogTerm

instance (s : RaftPersistentState ι P) (prevLogIndex prevLogTerm : Nat) :
    Decidable (prevMatches s prevLogIndex prevLogTerm) :=
  inferInstanceAs (Decidable (_ ∨ _))

/-- The part of `handle_append_entries` after the leader is accepted. -/
def storeEntries (prevLogIndex prevLogTerm : Nat) (entries : List (LogEntry P))
    (leaderCommit : Nat) : Outcome ι P AppendResponse :=
  if ¬ prevMatches n.persistent prevLogIndex prevLogTerm then
    (.ok { term := n.currentTerm, success := false,
           conflictIndex := some (findConflictIndex n.persistent prevLogIndex) }, n)
  else
    let persistent := appendMissing (truncateConflict n.persistent (prevLogIndex + 1) entries)
      entries
    -- up to the end of the own log, of which the call may have verified less
    let volatile :=
      if leaderCommit > n.volatile.commitIndex then
        { n.volatile with commitIndex := min leaderCommit persistent.lastLogIndex }
      else n.volatile
    (.ok { term := n.currentTerm, success := true }, { n with persistent, volatile })

def handleAppendEntries (leaderTerm : Nat) (leaderId : ι) (prevLogIndex prevLogTerm : Nat)
    (entries : List (LogEntry P)) (leaderCommit : Nat)
    (timer : Timer) : Outcome ι P AppendResponse :=
  if leaderTerm < n.currentTerm then
    (.ok { term := n.currentTerm, success := false }, n)
  else
    match n.becomeFollower leaderTerm (some leaderId) timer with
    | (.error e, n) => (.error e, n)
    | (.ok _, n) => n.storeEntries prevLogIndex prevLogTerm entries leaderCommit

def recordVote [DecidableEq ι] (n : RaftNode ι P) (voterId : ι) : Outcome ι P Unit :=
  match n.votesReceived with
  | .field => (.error (.attributeError "'Field' object has no attribute 'add'"), n)
  | .received voters => (.ok (), { n with votesReceived := .received (insert voterId voters) })

def hasMajority (clusterSize : Nat) : Except PyError Bool :=
  match n.votesReceived with
  | .field => .error (.typeError "object of type 'Field' has no len()")
  | .received voters => .ok (decide (voters.card > clusterSize / 2))

def advanceCommitIndex : RaftNode ι P :=
  match n.leaderState with
  | none => n
  | some ls =>
    -- the leader stands in the list with its commit index
    let matchIndices := (n.volatile.commitIndex :: ls.matchIndex.values).insertionSort (· ≤ ·)
    let mid := matchIndices.length / 2
    let candidate := matchIndices.getD mid 0
    if candidate > n.volatile.commitIndex then
      match n.persistent.getEntry candidate with
      | some entry =>
        -- entries of earlier terms are committed only together with one of this term
        if entry.term = n.persistent.currentTerm then
          { n with volatile := { n.volatile with commitIndex := candidate } }
        else n
      | none => n
    else n

/-- `get_committed_entries`: the entries between `last_applied + 1` and `commit_index`. -/
def getCommittedEntries : List (LogEntry P) :=
  let start := n.volatile.lastApplied + 1
  let stop := n.volatile.commitIndex
  if start > stop then [] else (n.logSlice start).take (stop + 1 - start)

def advanceLastApplied (count : Nat) : RaftNode ι P :=
  { n with volatile := { n.volatile with lastApplied := n.volatile.lastApplied + count } }

structure AppendRequest (ι P : Type) where
  term : Nat
  leaderId : ι
  prevLogIndex : Nat
  prevLogTerm : Nat
  entries : List (LogEntry P)
  leaderCommit : Nat
  isHeartbeat : Bool

def buildAppendEntriesRequest [DecidableEq ι] (n : RaftNode ι P) (peerId : ι) :
    Option (AppendRequest ι P) :=
  match n.leaderState with
  | none => none
  | some ls =>
    match ls.nextIndex.get? peerId with
    | none => none
    | some nextIdx =>
      let prevLogIndex := nextIdx - 1
      let prevLogTerm :=
        if prevLogIndex > 0 then
          match n.persistent.getEntry prevLogIndex with
          | some e => e.term
          | none => 0
        else 0
      let entriesToSend :=
        if nextIdx ≤ n.persistent.lastLogIndex then
          let stop := min (nextIdx + n.maxBatchSize - 1) n.persistent.lastLogIndex
          (n.logSlice nextIdx).take (stop + 1 - nextIdx)
        else []
      some
        { term := n.currentTerm
          leaderId := n.nodeId
          prevLogIndex
          prevLogTerm
          entries := entriesToSend
          leaderCommit := n.volatile.commitIndex
          isHeartbeat := entriesToSend.isEmpty }

def lenOfInt (_ : Nat) : Except PyError Nat :=
  .error (.typeError "object of type 'int' has no len()")

/-- `process_append_entries_response`. The first use of `applied_count` takes its `len`. -/
def processAppendEntriesResponse [DecidableEq ι] (n : RaftNode ι P) (peerId : ι)
    (response : AppendResponse) : Outcome ι P Bool :=
  match n.leaderState with
  | none => (.ok false, n)
  | some ls =>
    if response.success then
      let nextIdx := ls.nextIndex.getD peerId 1
      -- the reply holds a count or nothing, and the default is the number 0
      match lenOfInt (response.appliedCount.getD 0) with
      | .error e => (.error e, n)
      | .ok applied =>
        let matchIndex := ls.matchIndex.set peerId (nextIdx - 1 + applied)
        let newNext := nextIdx + response.appliedCount.getD 0
        let nextIndex := ls.nextIndex.set peerId (min newNext (n.persistent.lastLogIndex + 1))
        (.ok true, { n with leaderState := some { nextIndex, matchIndex } })
    else
      let current := ls.nextIndex.getD peerId 1
      if current > 1 then
        (.ok false, { n with
          leaderState := some { ls with nextIndex := ls.nextIndex.set peerId (current - 1) } })
      else (.ok false, n)

end RaftNode

end DistLLM.Raft
