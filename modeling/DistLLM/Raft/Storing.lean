import DistLLM.Library.Prefix
import DistLLM.Raft.Handlers

/-!
# Storing a batch of entries

What the two loops of `handle_append_entries` leave in the log, and the requests
a leader can make out of its own log.
-/
namespace DistLLM.Raft

open DistLLM.Library RaftNode
open RaftPersistentState (getEntry_zero getEntry_succ)

variable {ι P : Type}

/-- The entries carry the indices that follow `prev`. -/
def NumberedFrom (prev : Nat) (entries : List (LogEntry P)) : Prop :=
  ∀ j e, entries[j]? = some e → e.index = prev + j + 1

theorem NumberedFrom.tail {prev : Nat} {entry : LogEntry P} {rest : List (LogEntry P)}
    (numbered : NumberedFrom prev (entry :: rest)) : NumberedFrom (prev + 1) rest := by
  intro j e found
  have := numbered (j + 1) e found
  omega

theorem NumberedFrom.slice {log : List (LogEntry P)} (numbered : NumberedFrom 0 log)
    (prev count : Nat) : NumberedFrom prev ((log.drop prev).take count) := by
  intro j e found
  rw [List.getElem?_take] at found
  split at found
  · rw [List.getElem?_drop] at found
    have := numbered (prev + j) e found
    omega
  · cases found

/-! ### The two loops -/

/-- Two entries that Raft takes to be the same when they sit at one index. -/
def SameTerm (a b : LogEntry P) : Prop := a.term = b.term

instance (a b : LogEntry P) : Decidable (SameTerm a b) := inferInstanceAs (Decidable (_ = _))

def heldOf (s : RaftPersistentState ι P) (prevLogIndex : Nat) (entries : List (LogEntry P)) : Nat :=
  commonPrefixBy SameTerm (s.log.drop prevLogIndex) entries

section

variable (s : RaftPersistentState ι P) (prevLogIndex : Nat) (entries : List (LogEntry P))

theorem truncateConflict_log :
    (truncateConflict s (prevLogIndex + 1) entries).log =
      if heldOf s prevLogIndex entries = entries.length then s.log
      else s.log.take (prevLogIndex + heldOf s prevLogIndex entries) := by
  -- along the batch, the position in the log moving with it
  induction entries generalizing prevLogIndex with
  | nil =>
    have none : heldOf s prevLogIndex [] = 0 := by
      unfold heldOf
      cases s.log.drop prevLogIndex <;> rfl
    simp [truncateConflict, none]
  | cons entry rest ih =>
    unfold truncateConflict
    rw [getEntry_succ]
    cases found : s.log[prevLogIndex]? with
    | none =>
      -- past the end nothing is held and nothing is cut
      have short : s.log.length ≤ prevLogIndex := List.getElem?_eq_none_iff.mp found
      have none : ∀ prev batch, s.log.length ≤ prev → heldOf s prev batch = 0 := by
        intro prev batch past
        unfold heldOf
        rw [List.drop_eq_nil_of_le past]
        cases batch <;> rfl
      simp only [ih, none prevLogIndex _ short, none (prevLogIndex + 1) rest (by omega)]
      rw [List.take_of_length_le (by omega : s.log.length ≤ prevLogIndex + 0),
        List.take_of_length_le (by omega : s.log.length ≤ prevLogIndex + 1 + 0), ite_self, ite_self]
    | some existing =>
      have inside : prevLogIndex < s.log.length := (List.getElem?_eq_some_iff.mp found).1
      have here : s.log.drop prevLogIndex = existing :: s.log.drop (prevLogIndex + 1) := by
        rw [List.drop_eq_getElem_cons inside, (List.getElem?_eq_some_iff.mp found).2]
      have held : heldOf s prevLogIndex (entry :: rest) =
          if SameTerm existing entry then heldOf s (prevLogIndex + 1) rest + 1 else 0 := by
        unfold heldOf
        rw [here]
        rfl
      by_cases same : existing.term = entry.term
      · have both : SameTerm existing entry := same
        simp only [same, ne_eq, not_true_eq_false, if_false, ih, held, both, if_true,
          List.length_cons, Nat.add_right_cancel_iff]
        split
        · rfl
        · congr 1
          omega
      · -- the first conflict cuts here, and nothing of the batch is held
        have differ : ¬ SameTerm existing entry := same
        have cut : 1 ≤ prevLogIndex + 1 ∧ prevLogIndex + 1 ≤ s.log.length := by omega
        simp [held, differ, same, RaftPersistentState.truncateFrom, cut]

variable (numbered : NumberedFrom prevLogIndex entries) (reaches : prevLogIndex ≤ s.log.length)

include numbered reaches

theorem appendMissing_log :
    (appendMissing s entries).log = s.log ++ entries.drop (s.log.length - prevLogIndex) := by
  -- the log grows with the batch, so it always reaches the entry at hand
  induction entries generalizing s prevLogIndex with
  | nil => simp [appendMissing]
  | cons entry rest ih =>
    have index : entry.index = prevLogIndex + 1 := numbered 0 entry rfl
    unfold appendMissing
    rw [index, getEntry_succ]
    cases found : s.log[prevLogIndex]? with
    | none =>
      have atEnd : s.log.length = prevLogIndex := by
        have := List.getElem?_eq_none_iff.mp found
        omega
      have extended : (s.appendEntries [entry]).log = s.log ++ [entry] := rfl
      have := ih (s.appendEntries [entry]) (prevLogIndex + 1) numbered.tail
        (by rw [extended, List.length_append, List.length_singleton]; omega)
      simp [this, extended, atEnd]
    | some existing =>
      have inside : prevLogIndex < s.log.length := (List.getElem?_eq_some_iff.mp found).1
      have := ih s (prevLogIndex + 1) numbered.tail inside
      have skipped : s.log.length - prevLogIndex = s.log.length - (prevLogIndex + 1) + 1 := by omega
      simp [this, skipped]

theorem stored_log :
    (appendMissing (truncateConflict s (prevLogIndex + 1) entries) entries).log =
      if heldOf s prevLogIndex entries = entries.length then s.log
      else s.log.take (prevLogIndex + heldOf s prevLogIndex entries) ++
        entries.drop (heldOf s prevLogIndex entries) := by
  have inLog : heldOf s prevLogIndex entries ≤ s.log.length - prevLogIndex := by
    have := commonPrefixBy_le_left SameTerm (s.log.drop prevLogIndex) entries
    rwa [List.length_drop] at this
  have cut := truncateConflict_log s prevLogIndex entries
  by_cases all : heldOf s prevLogIndex entries = entries.length
  · rw [if_pos all] at cut ⊢
    rw [appendMissing_log _ prevLogIndex entries numbered (by rw [cut]; exact reaches), cut,
      List.drop_eq_nil_of_le (by omega), List.append_nil]
  · rw [if_neg all] at cut ⊢
    have length : (truncateConflict s (prevLogIndex + 1) entries).log.length =
        prevLogIndex + heldOf s prevLogIndex entries := by
      rw [cut, List.length_take]
      omega
    rw [appendMissing_log _ prevLogIndex entries numbered (by omega), cut]
    congr 2
    rw [cut] at length
    omega

end

/-- The call for the entries after `prevLogIndex`, taken from the leader's log. -/
def requestFrom (n : RaftNode ι P) (prevLogIndex count leaderCommit : Nat) : AppendRequest ι P where
  term := n.currentTerm
  leaderId := n.nodeId
  prevLogIndex := prevLogIndex
  prevLogTerm := match n.persistent.getEntry prevLogIndex with
    | some e => e.term
    | none => 0
  entries := (n.log.drop prevLogIndex).take count
  leaderCommit := leaderCommit
  isHeartbeat := ((n.log.drop prevLogIndex).take count).isEmpty

def receiveAppend (n : RaftNode ι P) (request : AppendRequest ι P) (timer : Timer) :
    Outcome ι P AppendResponse :=
  n.handleAppendEntries request.term request.leaderId request.prevLogIndex request.prevLogTerm
    request.entries request.leaderCommit timer

/-- `build_append_entries_request` makes such a call: what follows `next_index - 1`, at most
a batch of it, with the leader's commit index. -/
theorem buildAppendEntriesRequest_eq [DecidableEq ι] (n : RaftNode ι P) (peerId : ι)
    {ls : RaftLeaderState ι} {nextIdx : Nat} (leads : n.leaderState = some ls)
    (tracked : ls.nextIndex.get? peerId = some nextIdx) (positive : 1 ≤ nextIdx) :
    n.buildAppendEntriesRequest peerId =
      some (requestFrom n (nextIdx - 1) n.maxBatchSize n.commitIndex) := by
  have entries : (if nextIdx ≤ n.persistent.lastLogIndex then
      (n.logSlice nextIdx).take
        (min (nextIdx + n.maxBatchSize - 1) n.persistent.lastLogIndex + 1 - nextIdx)
      else []) = (n.log.drop (nextIdx - 1)).take n.maxBatchSize := by
    unfold logSlice RaftPersistentState.lastLogIndex log
    split
    · next inside =>
      rw [List.take_eq_take_iff, List.length_drop]
      omega
    · next past =>
      rw [List.drop_eq_nil_of_le (by omega), List.take_nil]
  unfold buildAppendEntriesRequest
  simp only [leads, tracked, entries]
  by_cases later : nextIdx - 1 > 0
  · simp only [later, if_true, requestFrom]
    rfl
  · rw [if_neg later, show nextIdx - 1 = 0 by omega]
    rfl

/-- The node takes the call: its term is not stale, stepping down does not raise, and the
entry before the batch is there. -/
def AcceptsAppend (n : RaftNode ι P) (request : AppendRequest ι P) : Prop :=
  n.currentTerm ≤ request.term ∧ n.votesReceived ≠ .field ∧
    prevMatches n.persistent request.prevLogIndex request.prevLogTerm

theorem receiveAppend_reply (n : RaftNode ι P) (request : AppendRequest ι P) (timer : Timer) :
    (AcceptsAppend n request ∧
      (receiveAppend n request timer).1 = .ok { term := request.term, success := true }) ∨
    (¬ AcceptsAppend n request ∧
      ∀ reply, (receiveAppend n request timer).1 = .ok reply → reply.success = false) := by
  unfold receiveAppend
  rcases n.handleAppendEntries_cases request.term request.leaderId request.prevLogIndex
      request.prevLogTerm request.entries request.leaderCommit timer with
    ⟨stale, out⟩ | ⟨_, votes, out⟩ | ⟨current, ⟨voters, votes⟩, out⟩
  · right
    rw [out]
    refine ⟨fun accepted => absurd accepted.1 (by omega), ?_⟩
    rintro reply ⟨⟩
    rfl
  · right
    rw [out]
    exact ⟨fun accepted => accepted.2.1 votes, fun reply raised => (by cases raised)⟩
  · rw [out]
    rcases (n.steppedDown request.term (some request.leaderId) timer).storeEntries_cases
        request.prevLogIndex request.prevLogTerm request.entries request.leaderCommit with
      ⟨missing, stored⟩ | ⟨found, _, _, _, _, stored⟩
    · right
      rw [stored]
      refine ⟨fun accepted => missing accepted.2.2, ?_⟩
      rintro reply ⟨⟩
      rfl
    · left
      rw [stored]
      exact ⟨⟨current, by simp [votes], found⟩, rfl⟩

end DistLLM.Raft
