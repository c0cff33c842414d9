import DistLLM.Scheduler.System

/-!
# What the operations do

For each operation what can come of it, so that the invariants need not open the definitions.
-/
namespace DistLLM.Scheduler

open DistLLM.Library

variable (budget : IterationBudget) {ρ : Type} [LinearOrder ρ] {keys : List ρ}

theorem mem_insertKey {rid other : ρ} :
    other ∈ insertKey rid keys ↔ other ∈ keys ∨ other = rid := by
  unfold insertKey
  split
  · next present =>
    constructor
    · exact Or.inl
    · rintro (member | rfl)
      · exact member
      · exact present
  · rw [List.mem_append, List.mem_singleton]

variable {rid : ρ}

theorem insertKey_of_notMem (absent : rid ∉ keys) : insertKey rid keys = keys ++ [rid] :=
  if_neg absent

theorem insertKey_of_mem (present : rid ∈ keys) : insertKey rid keys = keys :=
  if_pos present

theorem nodup_insertKey (distinct : keys.Nodup) : (insertKey rid keys).Nodup := by
  by_cases present : rid ∈ keys
  · rwa [insertKey_of_mem present]
  · rw [insertKey_of_notMem present]
    exact List.nodup_append'.mpr ⟨distinct, List.nodup_singleton rid, by simpa using present⟩

def Sequence.SameTokens (seq seq' : Sequence) : Prop := seq' = { seq with status := seq'.status }

namespace Sequence.SameTokens

variable {seq seq' seq'' : Sequence}

theorem refl (seq : Sequence) : seq.SameTokens seq := rfl

theorem trans (first : seq.SameTokens seq') (second : seq'.SameTokens seq'') :
    seq.SameTokens seq'' := by
  unfold SameTokens at *
  rw [second, first]

variable (same : seq.SameTokens seq')

include same

theorem promptTokens : seq'.promptTokens = seq.promptTokens := by
  rw [same]

theorem generatedTokens : seq'.generatedTokens = seq.generatedTokens := by
  rw [same]

theorem totalLen : seq'.totalLen = seq.totalLen := by
  unfold Sequence.totalLen
  rw [same.promptTokens, same.generatedTokens]

theorem prefixMatchLen : seq'.prefixMatchLen = seq.prefixMatchLen := by
  rw [same]

theorem priority : seq'.priority = seq.priority := by
  rw [same]

end Sequence.SameTokens

/-! ### Sampled tokens -/

namespace Sequence

/-- The sampled token is the last one: by the limit or a stop token, or because the sequence was
over before. -/
def finishes (seq : Sequence) (token : Int) : Bool :=
  seq.status == .done || seq.status == .failed ||
    decide (seq.maxNewTokens ≤ seq.generatedTokens.length + 1) || decide (token ∈ seq.stopTokenIds)

def sampled (seq : Sequence) (token : Int) : Sequence :=
  { seq with
    generatedTokens := seq.generatedTokens ++ [token]
    status :=
      if seq.finishes token then .done
      else if seq.status = .prefilling then .decoding
      else seq.status }

variable (seq : Sequence) (token : Int)

@[simp] theorem sampled_generatedTokens :
    (seq.sampled token).generatedTokens = seq.generatedTokens ++ [token] := rfl

@[simp] theorem sampled_promptTokens : (seq.sampled token).promptTokens = seq.promptTokens := rfl

theorem sampled_totalLen : (seq.sampled token).totalLen = seq.totalLen + 1 := by
  simp [totalLen, Nat.add_assoc]

theorem sampled_isComplete : (seq.sampled token).isComplete = seq.finishes token := by
  by_cases ended : seq.finishes token = true
  · simp [isComplete, sampled, ended]
  · have going := ended
    simp only [finishes, Bool.or_eq_true, beq_iff_eq, decide_eq_true_eq, not_or] at going
    by_cases first : seq.status = .prefilling <;>
      simp [isComplete, sampled, ended, first, going]

theorem finishes_iff :
    (({ seq with
        generatedTokens := seq.generatedTokens ++ [token]
        status := if seq.status == .prefilling then .decoding else seq.status } :
          Sequence).isComplete = true ∨ token ∈ seq.stopTokenIds) ↔
      seq.finishes token = true := by
  by_cases first : seq.status = .prefilling <;>
    simp [isComplete, finishes, first, or_assoc]

end Sequence

namespace BatchScheduler

section Statuses

omit [LinearOrder ρ]

variable {s s' : BatchScheduler ρ}

def SameTokens (s s' : BatchScheduler ρ) : Prop :=
  ∀ rid, (s.sequences rid).SameTokens (s'.sequences rid)

theorem SameTokens.refl (s : BatchScheduler ρ) : s.SameTokens s := fun _ => rfl

theorem SameTokens.trans {s'' : BatchScheduler ρ} (first : s.SameTokens s')
    (second : s'.SameTokens s'') : s.SameTokens s'' :=
  fun rid => (first rid).trans (second rid)

theorem SameTokens.totalLen (same : s.SameTokens s') (rid : ρ) : s'.totalLen rid = s.totalLen rid :=
  (same rid).totalLen

end Statuses

variable {s s' : BatchScheduler ρ}

theorem setStatus_sameTokens (s : BatchScheduler ρ) (rid : ρ) (status : SequenceStatus) :
    s.SameTokens (s.setStatus rid status) := by
  intro other
  by_cases same : other = rid
  · subst same
    simp [setStatus, Sequence.SameTokens]
  · simp [setStatus, Sequence.SameTokens, same]

theorem pushAll_ok {entries : List (PendingEntry ρ)} (done : pushAll entries s = .ok s') :
    s' = { s with pendingHeap := s'.pendingHeap } ∧
      s'.pendingHeap.toList.Perm (entries ++ s.pendingHeap.toList) := by
  induction entries generalizing s with
  | nil =>
    cases done
    exact ⟨rfl, List.Perm.refl _⟩
  | cons entry rest ih =>
    unfold pushAll at done
    split at done
    · cases done
    next heap pushed =>
    obtain ⟨frame, perm⟩ := ih done
    refine ⟨frame, perm.trans ?_⟩
    exact ((Heap.heappush_perm pushed).append_left rest).trans List.perm_middle

/-- All that adding does: the request is pending with its sequence, and nothing is fed. -/
theorem add_ok {seq : Sequence} (done : s.add rid seq = .ok s') :
    ∃ heap, Heap.heappush PendingEntry.lt s.pendingHeap
        { priority := seq.priority, counter := s.counter, requestId := rid } = .ok heap ∧
      s' = { s with
        sequences := Function.update s.sequences rid seq
        pendingHeap := heap
        counter := s.counter + 1
        pendingIndex := none
        latencyTracker := s.latencyTracker.set rid false } := by
  unfold add at done
  split at done
  · cases done
  split at done
  · cases done
  · next heap pushed =>
    cases done
    exact ⟨heap, pushed, rfl⟩

theorem promoteRequest_ok {newPriority : Int} {out : Bool × BatchScheduler ρ}
    (done : s.promoteRequest rid newPriority = .ok out) :
    (∃ index, out.2 = { s with pendingIndex := index }) ∨
    ∃ (idx : Nat) (inside : idx < s.pendingHeap.size) (heap : Array (PendingEntry ρ)),
      (if newPriority < (s.pendingHeap[idx]).priority then
        Heap.siftdown PendingEntry.lt 0 s.pendingHeap.size (s.pendingHeap.set idx
          { s.pendingHeap[idx] with priority := newPriority }) idx
      else Heap.siftup PendingEntry.lt (s.pendingHeap.set idx
          { s.pendingHeap[idx] with priority := newPriority }) idx) = .ok heap ∧
      out.2 = { s with
        sequences := Function.update s.sequences (s.pendingHeap[idx]).requestId
          { s.sequences (s.pendingHeap[idx]).requestId with priority := newPriority }
        pendingHeap := heap
        pendingIndex := none } := by
  unfold promoteRequest at done
  dsimp only at done
  split at done
  · -- the index does not know the request, and is kept
    cases done
    exact Or.inl ⟨_, rfl⟩
  next idx found =>
  split at done
  · -- the position is read from the index, which may be older than the heap
    next inside =>
    split at done
    · cases done
    · next heap sifted =>
      cases done
      refine Or.inr ⟨idx, inside, heap, ?_, rfl⟩
      simpa using sifted
  · cases done

omit [LinearOrder ρ] in
theorem victim_mem {minPriority : Int} (found : s.victim minPriority = some rid) :
    rid ∈ s.active := by
  -- the scan goes on from the best one so far, so the induction is for any start
  have general : ∀ (keys : List ρ) (start : Option ρ), (∀ v ∈ start, v ∈ s.active) →
      (∀ v ∈ keys, v ∈ s.active) → ∀ v ∈ keys.foldl (fun victim rid =>
        let priority := (s.sequences rid).priority
        if minPriority ≤ priority ∧ ∀ v ∈ victim, (s.sequences v).priority < priority then
          some rid
        else victim) start, v ∈ s.active := by
    intro keys
    induction keys with
    | nil => exact fun start known _ => known
    | cons key rest ih =>
      intro start known all
      refine ih _ ?_ fun v member => all v (List.mem_cons_of_mem _ member)
      intro v chosen
      dsimp only at chosen
      split at chosen
      · cases chosen
        exact all key (List.mem_cons_self ..)
      · exact known v chosen
  exact general _ none (fun v member => by cases member)
    (fun v member => List.mem_of_mem_take member) rid found

variable {kvCacheState : Option (List ρ)}

/-- Either nothing is preempted, or one active request goes back to the heap. -/
theorem preemptLowest_ok {minPriority : Int} {out : Option ρ × BatchScheduler ρ}
    (done : s.preemptLowest minPriority kvCacheState = .ok out) :
    out = (none, s) ∨ ∃ rid heap saved, rid ∈ s.active ∧
      Heap.heappush PendingEntry.lt s.pendingHeap
        { priority := (s.sequences rid).priority, counter := s.counter + 1, requestId := rid } =
          .ok heap ∧
      out = (some rid, { s.setStatus rid .pending with
        active := s.active.erase rid
        totalTokens := s.totalTokens - s.totalLen rid
        counter := s.counter + 1
        pendingHeap := heap
        preempted := insertKey rid s.preempted
        preemptedKvState := saved }) := by
  unfold preemptLowest at done
  split at done
  · cases done
    exact Or.inl rfl
  split at done
  · cases done
    exact Or.inl rfl
  next rid found =>
  cases pushed : Heap.heappush PendingEntry.lt s.pendingHeap
    { priority := (s.sequences rid).priority, counter := s.counter + 1, requestId := rid } with
  | error raised =>
    rw [pushed] at done
    cases done
  | ok heap =>
    rw [pushed] at done
    cases done
    exact Or.inr ⟨rid, heap, _, victim_mem found, pushed, rfl⟩

theorem foldl_restoreOne (kvOk : ρ → Bool) (rids : List ρ) (s : BatchScheduler ρ) :
    let s' := rids.foldl (restoreOne kvOk) s
    s' = { s with
      sequences := s'.sequences, active := s'.active, totalTokens := s'.totalTokens } ∧
    s.SameTokens s' ∧
    s'.active = (rids.filter kvOk).foldl (fun active rid => insertKey rid active) s.active ∧
    s'.totalTokens = s.totalTokens + ((rids.filter kvOk).map s.totalLen).sum := by
  induction rids generalizing s with
  | nil => exact ⟨rfl, SameTokens.refl s, rfl, by simp⟩
  | cons rid rest ih =>
    obtain ⟨frame, same, active, tokens⟩ := ih (restoreOne kvOk s rid)
    rw [List.foldl_cons]
    -- with its cache state the sequence is active again, without it its status alone changes
    by_cases ok : kvOk rid = true
    · have one : restoreOne kvOk s rid = { s.setStatus rid .decoding with
          active := insertKey rid s.active
          totalTokens := s.totalTokens + s.totalLen rid } := if_pos ok
      have sameOne : s.SameTokens (restoreOne kvOk s rid) := by
        rw [one]
        exact setStatus_sameTokens s rid .decoding
      refine ⟨?_, sameOne.trans same, ?_, ?_⟩
      · rw [frame, one]
        rfl
      · rw [active, one, List.filter_cons_of_pos ok]
        rfl
      · rw [tokens, List.filter_cons_of_pos ok, List.map_cons, List.sum_cons, one]
        have lens : (restoreOne kvOk s rid).totalLen = s.totalLen := funext (sameOne.totalLen ·)
        rw [one] at lens
        rw [lens]
        push_cast
        simp only [add_assoc]
    · have one : restoreOne kvOk s rid = s.setStatus rid .pending := if_neg ok
      have sameOne : s.SameTokens (restoreOne kvOk s rid) := by
        rw [one]
        exact setStatus_sameTokens s rid .pending
      refine ⟨?_, sameOne.trans same, ?_, ?_⟩
      · rw [frame, one]
        rfl
      · rw [active, one, List.filter_cons_of_neg ok]
        rfl
      · have lens : (restoreOne kvOk s rid).totalLen = s.totalLen := funext (sameOne.totalLen ·)
        rw [tokens, List.filter_cons_of_neg ok, lens, one]
        rfl

variable {out : List ρ × BatchScheduler ρ}

/-- The heap is made anew without the preempted requests, and those restored are pushed. -/
theorem restorePreempted_ok (done : s.restorePreempted kvCacheState = .ok out) :
    (s.preempted = [] ∧ out = ([], s)) ∨
    ∃ heap saved,
      Heap.heapify PendingEntry.lt
        (s.pendingHeap.filter fun e => decide (e.requestId ∉ s.preempted)) = .ok heap ∧
      out.1 = s.preempted.filter (s.restorable kvCacheState) ∧
      ∃ s', pushAll ((s.requeued kvCacheState).map fun rid =>
          { priority := (s.sequences rid).priority, counter := s.totalLen rid, requestId := rid })
          { s.preempted.foldl (restoreOne (s.restorable kvCacheState)) s with
            pendingHeap := heap } = .ok s' ∧
        out.2 = { s' with preempted := [], preemptedKvState := saved } := by
  unfold restorePreempted at done
  split at done
  · next nobody =>
    cases done
    exact Or.inl ⟨nobody, rfl⟩
  dsimp only at done
  split at done
  · cases done
  next heap heapified =>
  split at done
  · cases done
  · next s' pushed =>
    cases done
    exact Or.inr ⟨heap, _, heapified, rfl, s', pushed, rfl⟩

/-- What one round of the promotion loop can do with the entry that it has popped. -/
theorem consider_cases (decodeAdded : Nat) (st : Promotion ρ) (entry : PendingEntry ρ) :
    (entry.requestId ∈ st.scheduler.active ∧ st.consider budget decodeAdded entry = st) ∨
    (entry.requestId ∉ st.scheduler.active ∧
      st.consider budget decodeAdded entry = { st with rejected := st.rejected ++ [entry] }) ∨
    ∃ chunk, entry.requestId ∉ st.scheduler.active ∧
      st.charge budget decodeAdded (st.scheduler.totalLen entry.requestId) = some chunk ∧
      st.consider budget decodeAdded entry =
        { scheduler := st.scheduler.activate budget entry.requestId
          batch := st.batch ++ [entry.requestId]
          rejected := st.rejected
          remainSlots := st.remainSlots - 1
          remainP := st.remainP - chunk
          remainT := st.remainT - chunk } := by
  unfold Promotion.consider
  by_cases present : entry.requestId ∈ st.scheduler.active
  · exact Or.inl ⟨present, if_pos present⟩
  · rw [if_neg present]
    cases charged : st.charge budget decodeAdded (st.scheduler.totalLen entry.requestId) with
    | none => exact Or.inr (Or.inl ⟨present, rfl⟩)
    | some chunk => exact Or.inr (Or.inr ⟨chunk, present, rfl, rfl⟩)

/-- The state of the promotion loop after the active batch. -/
def Promotion.start (s : BatchScheduler ρ) (budget : IterationBudget) (acc : ActiveBatch ρ) :
    Promotion ρ :=
  { scheduler := s, batch := acc.batch, rejected := [],
    remainSlots := budget.maxBatchSize - acc.batch.length, remainP := acc.remainP,
    remainT := acc.remainT }

/-- The loop runs from the active batch on, and the entries it rejected are pushed back. -/
theorem promotePending_ok {budget : IterationBudget} {acc : ActiveBatch ρ}
    (done : s.promotePending budget acc = .ok out) :
    ∃ st, promoteLoop budget acc.decodeAdded
        (max ((budget.maxBatchSize - acc.batch.length) * 2) 10) s.pendingHeap.size
        (Promotion.start s budget acc) = .ok st ∧
      out.1 = st.batch ∧
      ∃ s', pushAll st.rejected st.scheduler = .ok s' ∧
        out.2 = { s' with pendingIndex := none } := by
  unfold promotePending at done
  dsimp only at done
  split at done
  · cases done
  next st looped =>
  split at done
  · cases done
  · next s' pushed =>
    cases done
    exact ⟨st, looped, rfl, s', pushed, rfl⟩

/-! ### Tokens -/

/-- Cutting the tokens of a sequence moves its chunk cursor and its status, nothing else. -/
theorem buildSeqTokens_frame (s : BatchScheduler ρ) (rid : ρ) :
    let s' := (s.buildSeqTokens budget rid).2
    s' = { s with sequences := s'.sequences, chunkedPrefill := s'.chunkedPrefill } ∧
      s.SameTokens s' ∧ (s.buildSeqTokens budget rid).1.requestId = rid ∧
      (∀ other, other ≠ rid → s'.sequences other = s.sequences other ∧
        s'.chunkedPrefill.get? other = s.chunkedPrefill.get? other) := by
  -- the four ways differ in the status they set and in what becomes of the cursor
  have still (status : SequenceStatus) {other : ρ} (apart : other ≠ rid) :
      (s.setStatus rid status).sequences other = s.sequences other :=
    Function.update_of_ne apart _ _
  unfold buildSeqTokens
  dsimp only
  split
  · next info found =>
    split
    · -- the last chunk drops the cursor
      refine ⟨rfl, setStatus_sameTokens s rid .decoding, rfl, fun other apart => ?_⟩
      refine ⟨still .decoding apart, ?_⟩
      rw [Dict.get?_filterKeys, if_pos (by simpa using apart)]
    · -- any other chunk moves it
      refine ⟨rfl, setStatus_sameTokens s rid .prefilling, rfl, fun other apart => ?_⟩
      refine ⟨still .prefilling apart, ?_⟩
      rw [Dict.get?_set, if_neg (Ne.symm apart)]
  · split
    · split
      · exact ⟨rfl, setStatus_sameTokens s rid .prefilling, rfl, fun other apart =>
          ⟨still .prefilling apart, rfl⟩⟩
      · by_cases complete : (s.sequences rid).isComplete = true
        · rw [if_pos complete]
          exact ⟨rfl, SameTokens.refl s, rfl, fun other apart => ⟨rfl, rfl⟩⟩
        · rw [if_neg complete]
          exact ⟨rfl, setStatus_sameTokens s rid .prefilling, rfl, fun other apart =>
            ⟨still .prefilling apart, rfl⟩⟩
    · exact ⟨rfl, setStatus_sameTokens s rid .decoding, rfl, fun other apart =>
        ⟨still .decoding apart, rfl⟩⟩

/-- The same for the whole batch, by induction: sequences outside it are not touched. -/
theorem buildBatchTensors_frame (batch : List ρ) (s : BatchScheduler ρ) :
    let out := buildBatchTensors budget batch s
    out.2 = { s with
      sequences := out.2.sequences, chunkedPrefill := out.2.chunkedPrefill } ∧
      s.SameTokens out.2 ∧ out.1.requestIds = batch ∧
      (∀ other, other ∉ batch → out.2.sequences other = s.sequences other ∧
        out.2.chunkedPrefill.get? other = s.chunkedPrefill.get? other) := by
  induction batch generalizing s with
  | nil => exact ⟨rfl, SameTokens.refl s, rfl, fun _ _ => ⟨rfl, rfl⟩⟩
  | cons rid rest ih =>
    obtain ⟨frameOne, sameOne, own, restOne⟩ := buildSeqTokens_frame budget s rid
    obtain ⟨frame, same, ids, others⟩ := ih (s.buildSeqTokens budget rid).2
    refine ⟨?_, sameOne.trans same, ?_, ?_⟩
    · simp only [buildBatchTensors]
      rw [frame, frameOne]
    · simp only [buildBatchTensors, ScheduledBatch.requestIds, List.map_cons, own]
      exact congrArg _ ids
    · intro other absent
      rw [List.mem_cons, not_or] at absent
      obtain ⟨sequence, cursor⟩ := others other absent.2
      obtain ⟨sequenceOne, cursorOne⟩ := restOne other absent.1
      exact ⟨sequence.trans sequenceOne, cursor.trans cursorOne⟩

def row (s : BatchScheduler ρ) (budget : IterationBudget) (rid : ρ) : BatchRow ρ :=
  (s.buildSeqTokens budget rid).1

theorem row_congr {budget : IterationBudget}
    (same : (s.sequences rid).SameTokens (s'.sequences rid))
    (cursor : s'.chunkedPrefill.get? rid = s.chunkedPrefill.get? rid)
    (pieces : s'.maxChunk = s.maxChunk) : s'.row budget rid = s.row budget rid := by
  unfold row buildSeqTokens
  dsimp only
  rw [cursor, same.promptTokens, same.generatedTokens, same.prefixMatchLen, same.totalLen,
    same.priority]
  split
  · rw [pieces]
    split <;> rfl
  · split
    · split <;> rfl
    · unfold Sequence.decodeInputToken
      rw [same.generatedTokens]

/-- Where no sequence is in the batch twice, each row is what the sequence was to be fed before. -/
theorem buildBatchTensors_rows {batch : List ρ} (distinct : batch.Nodup) (s : BatchScheduler ρ) :
    (buildBatchTensors budget batch s).1 = batch.map (s.row budget) := by
  induction batch generalizing s with
  | nil => rfl
  | cons rid rest ih =>
    rw [List.nodup_cons] at distinct
    obtain ⟨frame, same, -, others⟩ := buildSeqTokens_frame budget s rid
    have pieces : (s.buildSeqTokens budget rid).2.maxChunk = s.maxChunk := by
      rw [frame]
      rfl
    simp only [buildBatchTensors, ih distinct.2, List.map_cons]
    -- a row built before changed the status and the cursor of its own sequence only
    refine congrArg _ (List.map_congr_left fun other member => ?_)
    have apart : other ≠ rid := fun equal => distinct.1 (equal ▸ member)
    exact row_congr (same other) (others other apart).2 pieces

omit [LinearOrder ρ] in
theorem flatMap_bucket_perm (bucket : ρ → Nat) (n : Nat) (batch : List ρ) :
    ((List.range n).flatMap fun i => batch.filter fun rid => decide (bucket rid = i)).Perm
      (batch.filter fun rid => decide (bucket rid < n)) := by
  induction n with
  | zero => simp
  | succ n ih =>
    rw [List.range_succ, List.flatMap_append, List.flatMap_singleton]
    refine (ih.append_right _).trans ?_
    -- what belongs into the first n + 1 buckets, split into the last one and the others
    have parts := List.filter_append_perm (fun rid => decide (bucket rid < n))
      (batch.filter fun rid => decide (bucket rid < n + 1))
    rw [List.filter_filter, List.filter_filter] at parts
    convert parts using 2
    · refine List.filter_congr fun rid _ => ?_
      simp only [← Bool.decide_and, decide_eq_decide]
      omega
    · refine List.filter_congr fun rid _ => ?_
      simp only [← decide_not, ← Bool.decide_and, decide_eq_decide]
      omega

omit [LinearOrder ρ] in
theorem applyLengthGrouping_perm {batch grouped : List ρ}
    (done : s.applyLengthGrouping batch = .ok grouped) : grouped.Perm batch := by
  unfold applyLengthGrouping at done
  split at done
  next several =>
    dsimp only at done
    split at done
    · cases done
      exact List.Perm.refl _
    split at done
    · cases done
    · cases done
      refine (List.Perm.flatMap_left _ fun i _ => List.perm_insertionSort _ _).trans ?_
      refine (flatMap_bucket_perm _ _ batch).trans ?_
      -- bucket numbers are cut off at the last bucket, so nobody is left out
      rw [List.filter_eq_self.mpr]
      intro rid member
      have := several.2
      simp only [decide_eq_true_eq]
      omega
  next =>
    cases done
    exact List.Perm.refl _

theorem preemptIfNeeded_ok {shouldPreempt : Bool} {out : Option ρ × BatchScheduler ρ}
    (done : s.preemptIfNeeded shouldPreempt = .ok out) :
    out = (none, s) ∨ s.preemptLowest 2 none = .ok out := by
  unfold preemptIfNeeded at done
  split at done
  · exact Or.inr done
  · cases done
    exact Or.inl rfl

/-- The batch is that of the promotion, grouped; later proofs follow a call by this. -/
theorem buildBatch_ok {budget : IterationBudget} {victim : Option ρ} {out : Scheduled ρ}
    (done : s.buildBatch budget victim = .ok out) :
    ∃ ids s', s.evictCompleted.2.promotePending budget
        (s.evictCompleted.2.buildActiveBatch budget) = .ok (ids, s') ∧
      out.evicted = s.active.filter s.isComplete ∧ out.victim = victim ∧
      (ids = [] ∧ out.batch = none ∧ out.scheduler = s' ∨ ids ≠ [] ∧ ∃ batch, batch.Perm ids ∧
          out.batch = some (buildBatchTensors budget batch s').1 ∧
          out.scheduler = (buildBatchTensors budget batch s').2) := by
  unfold buildBatch at done
  dsimp only at done
  split at done
  · cases done
  · next s' promoted =>
    cases done
    exact ⟨[], s', promoted, rfl, rfl, Or.inl ⟨rfl, rfl, rfl⟩⟩
  next ids s' some promoted =>
  split at done
  · cases done
  · next batch grouped =>
    cases done
    exact ⟨ids, s', promoted, rfl, rfl,
      Or.inr ⟨some, batch, applyLengthGrouping_perm grouped, rfl, rfl⟩⟩

theorem scheduleWithBudget_ok {budget : IterationBudget} {policy : BudgetPolicy}
    {shouldPreempt : Bool} {out : Scheduled ρ}
    (done : s.scheduleWithBudget budget policy shouldPreempt = .ok out) :
    ∃ victim s', s.preemptIfNeeded shouldPreempt = .ok (victim, s') ∧
      s'.buildBatch (s.adjust budget policy) victim = .ok out := by
  unfold scheduleWithBudget at done
  split at done
  · cases done
  · next victim s' preempted => exact ⟨victim, s', preempted, done⟩

/-! ### Stepping -/

theorem stepOne_frame (s : BatchScheduler ρ) (rid : ρ) (token : Int) :
    s.stepOne rid token = { s with
      sequences := Function.update s.sequences rid ((s.sequences rid).sampled token)
      latencyTracker := (s.stepOne rid token).latencyTracker } := by
  -- the source tests the sequence after it appended the token and changed the status
  have test := (s.sequences rid).finishes_iff token
  unfold stepOne
  dsimp only
  by_cases ended : (s.sequences rid).finishes token = true
  · rw [if_pos (test.mpr ended)]
    simp [Sequence.sampled, ended]
  · rw [if_neg (mt test.mp ended)]
    simp [Sequence.sampled, ended]

theorem stepAll_frame (pairs : List (ρ × Int)) (s : BatchScheduler ρ) :
    let s' := stepAll pairs s
    s' = { s with sequences := s'.sequences, latencyTracker := s'.latencyTracker } ∧
      (∀ rid, rid ∉ pairs.map Prod.fst → s'.sequences rid = s.sequences rid) ∧
      ((pairs.map Prod.fst).Nodup → ∀ rid token, (rid, token) ∈ pairs →
        s'.sequences rid = (s.sequences rid).sampled token) := by
  induction pairs generalizing s with
  | nil => exact ⟨rfl, fun _ _ => rfl, fun _ _ _ member => by cases member⟩
  | cons pair rest ih =>
    obtain ⟨first, token⟩ := pair
    obtain ⟨frame, others, own⟩ := ih (s.stepOne first token)
    have one := stepOne_frame s first token
    have sequences : (s.stepOne first token).sequences =
        Function.update s.sequences first ((s.sequences first).sampled token) := by rw [one]
    refine ⟨?_, ?_, ?_⟩
    · simp only [stepAll]
      rw [frame, one]
    · intro rid absent
      rw [List.map_cons, List.mem_cons, not_or] at absent
      simp only [stepAll]
      rw [others rid absent.2, sequences, Function.update_of_ne absent.1]
    · intro distinct rid next member
      rw [List.map_cons, List.nodup_cons] at distinct
      simp only [stepAll]
      rcases List.mem_cons.mp member with here | later
      · -- its token comes first, and none comes later
        obtain ⟨rfl, rfl⟩ := Prod.mk.inj here
        rw [others rid distinct.1, sequences, Function.update_self]
      · have apart : rid ≠ first := fun same =>
          distinct.1 (same ▸ List.mem_map.mpr ⟨(rid, next), later, rfl⟩)
        rw [own distinct.2 rid next later, sequences, Function.update_of_ne apart]

section Step

variable {batch : ScheduledBatch ρ} {nextTokens : List Int}

/-- What a step writes: the sequences of the batch, and what the finished ones held. -/
theorem step_frame (s : BatchScheduler ρ) (batch : ScheduledBatch ρ) (nextTokens : List Int) :
    let out := s.step batch nextTokens
    out.2 = { s with
      sequences := out.2.sequences
      latencyTracker := out.2.latencyTracker
      active := s.active.filter fun rid => decide (rid ∉ out.1)
      chunkedPrefill := s.chunkedPrefill.filterKeys fun rid => decide (rid ∉ out.1)
      pagedAttention := s.freeBlocks out.1 } := by
  obtain ⟨frame, -, -⟩ := stepAll_frame (batch.requestIds.zip nextTokens) s
  unfold step freeBlocks
  dsimp only at *
  rw [frame]

theorem step_others (absent : rid ∉ batch.requestIds) :
    (s.step batch nextTokens).2.sequences rid = s.sequences rid := by
  refine (stepAll_frame _ s).2.1 rid fun member => ?_
  obtain ⟨⟨_, token⟩, paired, rfl⟩ := List.mem_map.mp member
  exact absent (List.of_mem_zip paired).1

omit [LinearOrder ρ] in
theorem exists_token (lengths : nextTokens.length = batch.length)
    (member : rid ∈ batch.requestIds) :
    ∃ token, (rid, token) ∈ batch.requestIds.zip nextTokens := by
  have ids : (batch.requestIds.zip nextTokens).map Prod.fst = batch.requestIds := by
    refine List.map_fst_zip ?_
    simp [ScheduledBatch.requestIds, lengths]
  rw [← ids] at member
  obtain ⟨⟨_, token⟩, paired, rfl⟩ := List.mem_map.mp member
  exact ⟨token, paired⟩

section

variable (distinct : batch.requestIds.Nodup) (lengths : nextTokens.length = batch.length)
  {token : Int} (paired : (rid, token) ∈ batch.requestIds.zip nextTokens)

include distinct lengths paired

theorem step_sampled :
    (s.step batch nextTokens).2.sequences rid = (s.sequences rid).sampled token := by
  refine (stepAll_frame _ s).2.2 ?_ rid token paired
  rwa [List.map_fst_zip]
  simp [ScheduledBatch.requestIds, lengths]

theorem mem_step_done :
    rid ∈ (s.step batch nextTokens).1 ↔ (s.sequences rid).finishes token = true := by
  have after := step_sampled (s := s) distinct lengths paired
  -- `step` collects the complete sequences when all tokens are appended
  have complete : (s.step batch nextTokens).2.isComplete rid =
      (s.sequences rid).finishes token := by
    unfold isComplete
    rw [after, Sequence.sampled_isComplete]
  rw [← complete]
  exact ⟨fun member => (List.mem_filter.mp member).2, fun ended =>
    List.mem_filter.mpr ⟨(List.of_mem_zip paired).1, ended⟩⟩

end

theorem mem_batch_of_mem_step_done (member : rid ∈ (s.step batch nextTokens).1) :
    rid ∈ batch.requestIds :=
  (List.mem_filter.mp member).1

end Step

end BatchScheduler

end DistLLM.Scheduler
