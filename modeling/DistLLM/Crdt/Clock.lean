import Mathlib.Data.Prod.Lex

/-!
# Hybrid logical clocks

Timestamps of a physical time, a counter and a node, ordered one after the other, and the clock that
issues them. Whatever the wall clock reads, a clock issues no stamp twice, and none that is not
after all stamps folded in.
-/
namespace DistLLM.Crdt

variable {ν : Type}

structure Timestamp (ν : Type) where
  physicalNs : Int
  counter : Int
  nodeId : ν

namespace Timestamp

/-- What the comparisons of the code compare. -/
def key (ts : Timestamp ν) : Int ×ₗ Int ×ₗ ν :=
  toLex (ts.physicalNs, toLex (ts.counter, ts.nodeId))

theorem key_injective : Function.Injective (key (ν := ν)) := by
  rintro ⟨p, c, n⟩ ⟨p', c', n'⟩ same
  simpa [key] using same

instance [LinearOrder ν] : LinearOrder (Timestamp ν) := LinearOrder.lift' key key_injective

theorem lt_iff [LinearOrder ν] {a b : Timestamp ν} : a < b ↔ a.physicalNs < b.physicalNs ∨
    a.physicalNs = b.physicalNs ∧
      (a.counter < b.counter ∨ a.counter = b.counter ∧ a.nodeId < b.nodeId) := by
  have unfold_lt : a < b ↔ a.key < b.key := .rfl
  rw [unfold_lt, key, key, Prod.Lex.lt_iff]
  simp [Prod.Lex.lt_iff]

end Timestamp

structure HybridLogicalClock (ν : Type) where
  nodeId : ν
  lastPhysicalNs : Int
  counter : Int := 0

variable (clock : HybridLogicalClock ν) {readings : Nat → Int} {stamps : List (Timestamp ν)}

namespace HybridLogicalClock

def lastTimestamp : Timestamp ν :=
  ⟨clock.lastPhysicalNs, clock.counter, clock.nodeId⟩

/-- `tick`, with a reading of the wall clock. -/
def tick (now : Int) : Timestamp ν × HybridLogicalClock ν :=
  let pt := max now clock.lastPhysicalNs
  let clock' : HybridLogicalClock ν :=
    { clock with
      lastPhysicalNs := pt
      counter := if pt = clock.lastPhysicalNs then clock.counter + 1 else 0 }
  (clock'.lastTimestamp, clock')

/-- `update`. The node of the remote stamp is not used. -/
def update (now perceivedPt receivedC : Int) :
    Timestamp ν × HybridLogicalClock ν :=
  let pt := max (max now perceivedPt) clock.lastPhysicalNs
  let c :=
    if pt = perceivedPt ∧ pt = clock.lastPhysicalNs then max receivedC clock.counter + 1
    else if pt = perceivedPt then receivedC + 1
    else if pt = clock.lastPhysicalNs then clock.counter + 1
    else 0
  let clock' : HybridLogicalClock ν := { clock with lastPhysicalNs := pt, counter := c }
  (clock'.lastTimestamp, clock')

def observe (now : Int) (ts : Timestamp ν) :
    Timestamp ν × HybridLogicalClock ν :=
  clock.update now ts.physicalNs ts.counter

/-- Stamps observed one after the other, each with a reading. -/
def observeAll (readings : Nat → Int) :
    List (Timestamp ν) → HybridLogicalClock ν → HybridLogicalClock ν
  | [], clock => clock
  | ts :: rest, clock =>
    observeAll (fun i => readings (i + 1)) rest (clock.observe (readings 0) ts).2

/-- The first stamp that the clock can issue. -/
def next : Timestamp ν :=
  ⟨clock.lastPhysicalNs, clock.counter + 1, clock.nodeId⟩

variable {clock : HybridLogicalClock ν} {now : Int} {ts : Timestamp ν}

@[simp] theorem tick_stamp_nodeId : (clock.tick now).1.nodeId = clock.nodeId := rfl

@[simp] theorem observe_nodeId : (clock.observe now ts).2.nodeId = clock.nodeId := rfl

@[simp] theorem observeAll_nodeId : (clock.observeAll readings stamps).nodeId = clock.nodeId := by
  induction stamps generalizing clock readings with
  | nil => rfl
  | cons ts rest ih => simp [observeAll, ih]

section Order

variable [LinearOrder ν]

theorem next_le_tick : clock.next ≤ (clock.tick now).1 := by
  rw [← not_lt, Timestamp.lt_iff]
  simp only [next, tick, lastTimestamp]
  rintro (before | ⟨_, before | ⟨_, before⟩⟩)
  · omega
  · split at before <;> omega
  · exact lt_irrefl _ before

omit [LinearOrder ν] in
theorem tick_of_le (behind : now ≤ clock.lastPhysicalNs) : (clock.tick now).1 = clock.next := by
  simp [tick, next, lastTimestamp, behind]

theorem tick_lt_next : (clock.tick now).1 < (clock.tick now).2.next := by
  rw [Timestamp.lt_iff]
  right
  constructor
  · rfl
  · exact .inl (Int.lt_succ _)

theorem next_le_tick_next : clock.next ≤ (clock.tick now).2.next :=
  next_le_tick.trans tick_lt_next.le

section Update

variable {perceivedPt receivedC : Int}

theorem update_passes {remoteNodeId : ν} : (⟨perceivedPt, receivedC, remoteNodeId⟩ : Timestamp ν) <
      (clock.update now perceivedPt receivedC).1 := by
  rw [Timestamp.lt_iff]
  simp only [update, lastTimestamp]
  -- a counter counts only where its physical time is the greatest of the three
  split
  · omega
  · split
    · omega
    · split <;> omega

theorem next_le_update : clock.next ≤ (clock.update now perceivedPt receivedC).1 := by
  rw [← not_lt, Timestamp.lt_iff]
  simp only [next, update, lastTimestamp]
  rintro (before | ⟨_, before | ⟨_, before⟩⟩)
  · omega
  · split at before
    · omega
    · split at before
      · omega
      · simp_all
  · exact lt_irrefl _ before

theorem update_lt_next : (clock.update now perceivedPt receivedC).1 <
    (clock.update now perceivedPt receivedC).2.next := by
  rw [Timestamp.lt_iff]
  right
  constructor
  · rfl
  · exact .inl (Int.lt_succ _)

end Update

theorem observe_lt_next : ts < (clock.observe now ts).2.next :=
  update_passes.trans update_lt_next

theorem next_le_observe_next : clock.next ≤ (clock.observe now ts).2.next :=
  next_le_update.trans update_lt_next.le

theorem next_le_observeAll_next : clock.next ≤ (clock.observeAll readings stamps).next := by
  induction stamps generalizing clock readings with
  | nil => exact le_rfl
  | cons ts rest ih => exact next_le_observe_next.trans ih

theorem observeAll_lt_next
    (member : ts ∈ stamps) : ts < (clock.observeAll readings stamps).next := by
  induction stamps generalizing clock readings with
  | nil => simp at member
  | cons first rest ih =>
    rcases List.mem_cons.mp member with rfl | later
    · exact observe_lt_next.trans_le next_le_observeAll_next
    · exact ih later

end Order

/-- A call of the clock, with the reading of the wall clock that it takes. -/
inductive Call (ν : Type) where
  | tick (now : Int)
  | update (now perceivedPt receivedC : Int) (remoteNodeId : ν)
  | observe (now : Int) (ts : Timestamp ν)

def Call.remote? : Call ν → Option (Timestamp ν)
  | .tick _ => none
  | .update _ perceivedPt receivedC remoteNodeId => some ⟨perceivedPt, receivedC, remoteNodeId⟩
  | .observe _ ts => some ts

def call : Call ν → Timestamp ν × HybridLogicalClock ν
  | .tick now => clock.tick now
  | .update now perceivedPt receivedC _ => clock.update now perceivedPt receivedC
  | .observe now ts => clock.observe now ts

def after : List (Call ν) → HybridLogicalClock ν → HybridLogicalClock ν
  | [], clock => clock
  | c :: rest, clock => after rest (clock.call c).2

def returned : List (Call ν) → HybridLogicalClock ν → List (Timestamp ν)
  | [], _ => []
  | c :: rest, clock => (clock.call c).1 :: returned rest (clock.call c).2

section Calls

variable [LinearOrder ν] {c : Call ν} {calls : List (Call ν)}

theorem next_le_call : clock.next ≤ (clock.call c).1 := by
  cases c with
  | tick now => exact next_le_tick
  | update now perceivedPt receivedC remoteNodeId => exact next_le_update
  | observe now ts => exact next_le_update

theorem call_lt_next : (clock.call c).1 < (clock.call c).2.next := by
  cases c with
  | tick now => exact tick_lt_next
  | update now perceivedPt receivedC remoteNodeId => exact update_lt_next
  | observe now ts => exact update_lt_next

theorem remote_lt_call (folds : c.remote? = some ts) : ts < (clock.call c).1 := by
  cases c with
  | tick now => cases folds
  | update now perceivedPt receivedC remoteNodeId =>
    cases folds
    exact update_passes
  | observe now stamp =>
    cases folds
    exact update_passes

theorem next_le_call_next : clock.next ≤ (clock.call c).2.next :=
  next_le_call.trans call_lt_next.le

theorem next_le_after : clock.next ≤ (clock.after calls).next := by
  induction calls generalizing clock with
  | nil => exact le_rfl
  | cons c rest ih => exact next_le_call_next.trans ih

theorem returned_lt_next (earlier : ts ∈ clock.returned calls) : ts < (clock.after calls).next := by
  induction calls generalizing clock with
  | nil => cases earlier
  | cons c rest ih =>
    rcases List.mem_cons.mp earlier with rfl | later
    · exact call_lt_next.trans_le next_le_after
    · exact ih later

theorem remote_lt_next (folded : ts ∈ calls.filterMap Call.remote?) :
    ts < (clock.after calls).next := by
  induction calls generalizing clock with
  | nil => cases folded
  | cons c rest ih =>
    obtain ⟨fold, member, folds⟩ := List.mem_filterMap.mp folded
    rcases List.mem_cons.mp member with rfl | later
    · exact (remote_lt_call folds).trans (call_lt_next.trans_le next_le_after)
    · exact ih (List.mem_filterMap.mpr ⟨fold, later, folds⟩)

/-- The stamp of a call is after all stamps returned before it, and after the remote stamps folded
in before it or by it. -/
theorem call_after_all (clock : HybridLogicalClock ν) (calls : List (Call ν)) (c : Call ν) :
    (∀ ts ∈ clock.returned calls, ts < ((clock.after calls).call c).1) ∧
      ∀ ts ∈ (calls ++ [c]).filterMap Call.remote?, ts < ((clock.after calls).call c).1 := by
  constructor
  · intro ts earlier
    exact (returned_lt_next earlier).trans_le next_le_call
  · intro ts folded
    rw [List.filterMap_append, List.mem_append] at folded
    rcases folded with before | now
    · exact (remote_lt_next before).trans_le next_le_call
    · obtain ⟨fold, member, folds⟩ := List.mem_filterMap.mp now
      rw [List.mem_singleton] at member
      subst member
      exact remote_lt_call folds

end Calls

end HybridLogicalClock

end DistLLM.Crdt
