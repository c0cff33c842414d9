import DistLLM.Crdt.CacheMap
import DistLLM.Library.Machine

/-!
# Replicas and the operations they have absorbed

Beside the replicas, a run keeps a log of the local operations with their effects, and for each
replica the operations that it has absorbed, by itself or through merges. A replica is then what
these operations mean: its sets are unions, its registers the latest writes. Stamps are issued once.
-/
namespace DistLLM.Crdt

open DistLLM.Library

variable {κ V ν : Type}

/-! ### What operations mean -/

/-- A local operation with its effects: the tag of a put, or the pairs that a remove tombstones and
the stamp of the tombstone in the register, if there is one. -/
inductive Op (κ V ν : Type)
  | put (key : κ) (tag : Timestamp ν) (value : Option V)
  | remove (key : κ) (observed : Finset (κ × Timestamp ν)) (stamp : Option (Timestamp ν))

namespace Op

def adds : Op κ V ν → Set (κ × Timestamp ν)
  | put key tag _ => {(key, tag)}
  | remove _ _ _ => ∅

def removes : Op κ V ν → Set (κ × Timestamp ν)
  | put _ _ _ => ∅
  | remove _ observed _ => {pair | pair ∈ observed}

def write : Op κ V ν → Option (κ × LWWRegister V ν)
  | put key tag value => some (key, ⟨value, tag⟩)
  | remove key _ stamp => stamp.map fun stamp => (key, ⟨none, stamp⟩)

end Op

def writesTo (ops : Set (Op κ V ν)) (key : κ) : Set (LWWRegister V ν) :=
  {reg | ∃ op ∈ ops, op.write = some (key, reg)}

/-- The map holds what the operations mean. -/
structure Means [LinearOrder ν] (ops : Set (Op κ V ν)) (map : CRDTCacheMap κ V ν) : Prop where
  adds : ∀ pair, pair ∈ map.membership.adds ↔ ∃ op ∈ ops, pair ∈ op.adds
  removes : ∀ pair, pair ∈ map.membership.removes ↔ ∃ op ∈ ops, pair ∈ op.removes
  values : ∀ key, Latest LWWRegister.timestamp (writesTo ops key) (map.values key)

def Distinct (ops : Set (Op κ V ν)) : Prop :=
  ∀ op ∈ ops, ∀ op' ∈ ops, ∀ key key' reg reg', op.write = some (key, reg) →
    op'.write = some (key', reg') → reg.timestamp = reg'.timestamp → op = op'

section Meaning

variable {ops more : Set (Op κ V ν)} {map other : CRDTCacheMap κ V ν} {op : Op κ V ν}

theorem writesTo_insert (op : Op κ V ν) (ops : Set (Op κ V ν)) (key : κ) :
    writesTo (insert op ops) key = writesTo ops key ∪ {reg | op.write = some (key, reg)} := by
  ext reg
  simp [writesTo, or_comm]

theorem writesTo_union (ops more : Set (Op κ V ν)) (key : κ) :
    writesTo (ops ∪ more) key = writesTo ops key ∪ writesTo more key := by
  ext reg
  simp [writesTo, or_and_right, exists_or]

variable [LinearOrder ν]

theorem Means.congr (means : Means ops map) (same : ops = more) : Means more map := same ▸ means

variable [DecidableEq κ]

theorem Means.merge (means : Means ops map) (means' : Means more other)
    (order : List (κ × Timestamp ν)) (readings : Nat → Int) :
    Means (ops ∪ more) (map.merge other order readings) := by
  constructor
  case adds =>
    intro pair
    simp [CRDTCacheMap.merge, ORSet.merge, means.adds, means'.adds, or_and_right, exists_or]
  case removes =>
    intro pair
    simp [CRDTCacheMap.merge, ORSet.merge, means.removes, means'.removes, or_and_right, exists_or]
  case values =>
    intro key
    rw [writesTo_union]
    simp only [CRDTCacheMap.merge, CRDTCacheMap.mergeValues_eq]
    exact (means.values key).union (means'.values key)

def Op.writeTo (op : Op κ V ν) (key : κ) : Option (LWWRegister V ν) :=
  match op.write with
  | some (written, reg) => if written = key then some reg else none
  | none => none

theorem latest_writeTo (op : Op κ V ν) (key : κ) :
    Latest LWWRegister.timestamp {reg | op.write = some (key, reg)} (op.writeTo key) := by
  simp only [Op.writeTo]
  cases op.write with
  | none => simp [Latest]
  | some written =>
    obtain ⟨key', reg⟩ := written
    by_cases here : key' = key
    · subst here
      simp [Latest]
    · simp [Latest, here]

theorem Means.local (means : Means ops map)
    (adds : ∀ pair, pair ∈ other.membership.adds ↔ pair ∈ op.adds ∨ pair ∈ map.membership.adds)
    (removes : ∀ pair, pair ∈ other.membership.removes ↔
      pair ∈ op.removes ∨ pair ∈ map.membership.removes) (values : ∀ key, other.values key =
      later LWWRegister.timestamp (map.values key) (op.writeTo key)) :
    Means (insert op ops) other := by
  constructor
  case adds => simp [adds, means.adds]
  case removes => simp [removes, means.removes]
  case values =>
    intro key
    rw [writesTo_insert, values]
    exact (means.values key).union (latest_writeTo op key)

theorem Means.put (means : Means ops map) (key : κ) (value : Option V) (now : Int) :
    Means (insert (.put key (map.put key value now).1 value) ops) (map.put key value now).2 := by
  apply means.local
  · simp [CRDTCacheMap.put, ORSet.add, Op.adds]
  · simp [CRDTCacheMap.put, ORSet.add, Op.removes]
  · intro key'
    by_cases here : key' = key
    · subst here
      simp only [CRDTCacheMap.put, Function.update_self, LWWRegister.takeIn_eq, Op.writeTo,
        Op.write]
      rfl
    · have other : ¬ key = key' := fun same => here same.symm
      simp [CRDTCacheMap.put, here, other, Op.writeTo, Op.write]

def CRDTCacheMap.removal (map : CRDTCacheMap κ V ν) (key : κ) (now now' : Int) : Op κ V ν :=
  .remove key (map.membership.observed key)
    ((map.values key).map fun _ => ((map.membership.remove key now).2.clock.tick now').1)

theorem Means.remove (means : Means ops map) (key : κ) (now now' : Int) :
    Means (insert (map.removal key now now') ops) (map.remove key now now').2 := by
  apply means.local
  · intro pair
    simp only [CRDTCacheMap.remove]
    split <;> simp [CRDTCacheMap.removal, Op.adds, ORSet.remove]
  · intro pair
    simp only [CRDTCacheMap.remove]
    split <;> simp [CRDTCacheMap.removal, Op.removes, ORSet.remove, or_comm]
  · intro key'
    simp only [CRDTCacheMap.remove]
    split
    next absent => simp [CRDTCacheMap.removal, absent, Op.writeTo, Op.write]
    next existing found =>
      by_cases here : key' = key
      · subst here
        simp only [Function.update_self, found, CRDTCacheMap.removal, Op.writeTo, Op.write, later,
          LWWRegister.merge_eq, Option.map_some, if_true]
        split <;> rfl
      · have other : ¬ key = key' := fun same => here same.symm
        simp [here, other, found, CRDTCacheMap.removal, Op.writeTo, Op.write]

end Meaning

/-! ### Runs of replicas -/

/-- One replica for each node, and the log of the local operations with the indices of those that
each replica has absorbed. -/
structure Replicas (κ V ν : Type) where
  nodes : ν → CRDTCacheMap κ V ν
  log : List (Op κ V ν)
  absorbed : ν → Finset Nat

namespace Replicas

def known (s : Replicas κ V ν) (n : ν) : Set (Op κ V ν) :=
  {op | ∃ i ∈ s.absorbed n, s.log[i]? = some op}

inductive Action (κ V ν : Type)
  | put (n : ν) (key : κ) (value : Option V) (now : Int)
  | remove (n : ν) (key : κ) (now now' : Int)
  /-- The replica of `n` merges that of `m`. -/
  | merge (n m : ν) (order : List (κ × Timestamp ν)) (readings : Nat → Int)

variable [DecidableEq κ] [LinearOrder ν]

def act (s : Replicas κ V ν) (n : ν) (map : CRDTCacheMap κ V ν) (op : Op κ V ν) :
    Replicas κ V ν where
  nodes := Function.update s.nodes n map
  log := s.log ++ [op]
  absorbed := Function.update s.absorbed n (insert s.log.length (s.absorbed n))

def exec (s : Replicas κ V ν) : Action κ V ν → Replicas κ V ν
  | .put n key value now =>
    let (tag, map) := (s.nodes n).put key value now
    s.act n map (.put key tag value)
  | .remove n key now now' =>
    s.act n ((s.nodes n).remove key now now').2 ((s.nodes n).removal key now now')
  | .merge n m order readings =>
    { s with
      nodes := Function.update s.nodes n ((s.nodes n).merge (s.nodes m) order readings)
      absorbed := Function.update s.absorbed n (s.absorbed n ∪ s.absorbed m) }

/-- Any puts, removes and merges on new replicas, with any readings of the wall clocks. -/
def machine (κ V ν : Type) [DecidableEq κ] [LinearOrder ν] :
    Machine (Replicas κ V ν) (Action κ V ν) where
  init s := (∃ readings : ν → Int, s.nodes = fun n => CRDTCacheMap.create n (readings n)) ∧
    s.log = [] ∧ s.absorbed = fun _ => ∅
  enabled s
    | .merge _ m order _ => (s.nodes m).membership.Lists order
    | _ => True
  exec := exec

instance (s : Replicas κ V ν) : ∀ act, Decidable ((machine κ V ν).enabled s act)
  | .put _ _ _ _ => .isTrue trivial
  | .remove _ _ _ _ => .isTrue trivial
  | .merge _ m order _ => inferInstanceAs (Decidable ((s.nodes m).membership.Lists order))

structure Sound (s : Replicas κ V ν) : Prop where
  ids : ∀ n, (s.nodes n).clock.nodeId = n
  means : ∀ n, Means (s.known n) (s.nodes n)
  inside : ∀ n, ∀ i ∈ s.absorbed n, i < s.log.length
  observed : ∀ op ∈ s.log, ∀ pair ∈ op.removes, ∃ op' ∈ s.log, pair ∈ op'.adds
  issued : ∀ op ∈ s.log, ∀ key reg, op.write = some (key, reg) →
    reg.timestamp < (s.nodes reg.timestamp.nodeId).clock.next
  distinct : Distinct {op | op ∈ s.log}

variable {s : Replicas κ V ν}

omit [DecidableEq κ] [LinearOrder ν] in
theorem mem_log_of_known {n : ν} {op : Op κ V ν} (member : op ∈ s.known n) : op ∈ s.log := by
  obtain ⟨i, _, found⟩ := member
  exact List.mem_of_getElem? found

omit [DecidableEq κ] in
theorem known_act (inside : ∀ m, ∀ i ∈ s.absorbed m, i < s.log.length) (n : ν)
    (map : CRDTCacheMap κ V ν) (op : Op κ V ν) (m : ν) :
    (s.act n map op).known m = if m = n then insert op (s.known n) else s.known m := by
  -- the indices absorbed before lie in the old log
  have old : ∀ m, ∀ i ∈ s.absorbed m, (s.log ++ [op])[i]? = s.log[i]? := fun m i member =>
    List.getElem?_append_left (inside m i member)
  ext op'
  by_cases here : m = n
  · subst here
    simp only [known, act, Function.update_self, Set.mem_ofPred_eq, Finset.mem_insert, if_true,
      Set.mem_insert_iff]
    constructor
    · rintro ⟨i, rfl | member, found⟩
      · left
        simpa using found.symm
      · right
        exact ⟨i, member, by rwa [old m i member] at found⟩
    · rintro (rfl | ⟨i, member, found⟩)
      · exact ⟨_, .inl rfl, by simp⟩
      · exact ⟨i, .inr member, by rwa [old m i member]⟩
  · simp only [known, act, Function.update_of_ne here, Set.mem_ofPred_eq, if_neg here]
    constructor
    · rintro ⟨i, member, found⟩
      exact ⟨i, member, by rwa [old m i member] at found⟩
    · rintro ⟨i, member, found⟩
      exact ⟨i, member, by rwa [old m i member]⟩

omit [DecidableEq κ] in
theorem Sound.act (sound : s.Sound) {n : ν} {map : CRDTCacheMap κ V ν} {op : Op κ V ν}
    (id : map.clock.nodeId = n) (rises : (s.nodes n).clock.next ≤ map.clock.next)
    (means : Means (insert op (s.known n)) map)
    (stamped : ∀ key reg, op.write = some (key, reg) → reg.timestamp.nodeId = n ∧
      (s.nodes n).clock.next ≤ reg.timestamp ∧ reg.timestamp < map.clock.next)
    (observed : ∀ pair ∈ op.removes, ∃ op' ∈ s.log, pair ∈ op'.adds) : (s.act n map op).Sound := by
  have nodes : ∀ m, (s.act n map op).nodes m = if m = n then map else s.nodes m := fun m =>
    Function.update_apply _ _ _ _
  have known := known_act sound.inside n map op
  have log : ∀ op', op' ∈ (s.act n map op).log ↔ op' ∈ s.log ∨ op' = op := fun op' => by
    simp [Replicas.act]
  -- a stamp issued before is not the new one
  have fresh : ∀ op' ∈ s.log, ∀ key key' reg reg', op'.write = some (key, reg) →
      op.write = some (key', reg') → reg.timestamp ≠ reg'.timestamp := by
    intro op' old key key' reg reg' written written' same
    obtain ⟨here, first, _⟩ := stamped key' reg' written'
    have before := sound.issued op' old key reg written
    rw [same, here] at before
    exact absurd first (not_le.mpr before)
  constructor
  case ids =>
    intro m
    rw [nodes]
    split
    next here => rw [id, here]
    next => exact sound.ids m
  case means =>
    intro m
    rw [nodes, known]
    split
    · exact means
    · exact sound.means m
  case inside =>
    intro m i member
    simp only [Replicas.act, List.length_append, List.length_singleton] at member ⊢
    rw [Function.update_apply] at member
    split at member
    · rcases Finset.mem_insert.mp member with rfl | old
      · exact Nat.lt_succ_self _
      · exact Nat.lt_succ_of_lt (sound.inside n i old)
    · exact Nat.lt_succ_of_lt (sound.inside m i member)
  case observed =>
    intro op' member pair removed
    rcases (log op').mp member with old | rfl
    · obtain ⟨op'', known, added⟩ := sound.observed op' old pair removed
      exact ⟨op'', (log op'').mpr (.inl known), added⟩
    · obtain ⟨op'', known, added⟩ := observed pair removed
      exact ⟨op'', (log op'').mpr (.inl known), added⟩
  case issued =>
    intro op' member key reg written
    rw [nodes]
    rcases (log op').mp member with old | rfl
    · have before := sound.issued op' old key reg written
      split
      next here =>
        rw [here] at before
        exact before.trans_le rises
      next => exact before
    · obtain ⟨here, _, after⟩ := stamped key reg written
      rw [if_pos here]
      exact after
  case distinct =>
    intro op₁ member₁ op₂ member₂ key key' reg reg' written written' same
    rcases (log op₁).mp member₁ with old₁ | rfl <;> rcases (log op₂).mp member₂ with old₂ | rfl
    · exact sound.distinct op₁ old₁ op₂ old₂ key key' reg reg' written written' same
    · exact absurd same (fresh op₁ old₁ key key' reg reg' written written')
    · exact absurd same.symm (fresh op₂ old₂ key' key reg' reg written' written)
    · rfl

theorem Sound.put (sound : s.Sound) (n : ν) (key : κ) (value : Option V) (now : Int) :
    (exec s (.put n key value now)).Sound := by
  apply sound.act
  · exact sound.ids n
  · exact HybridLogicalClock.next_le_tick_next
  · exact (sound.means n).put key value now
  · rintro key' reg written
    cases written
    exact ⟨sound.ids n, HybridLogicalClock.next_le_tick, HybridLogicalClock.tick_lt_next⟩
  · simp [Op.removes]

theorem Sound.remove (sound : s.Sound) (n : ν) (key : κ) (now now' : Int) :
    (exec s (.remove n key now now')).Sound := by
  -- the stamp of the tag comes before that of the tombstone
  have first : (s.nodes n).clock.next ≤ ((s.nodes n).membership.remove key now).2.clock.next :=
    HybridLogicalClock.next_le_tick_next
  apply sound.act
  · simp only [CRDTCacheMap.remove]
    split <;> exact sound.ids n
  · simp only [CRDTCacheMap.remove]
    split
    · exact first
    · exact first.trans HybridLogicalClock.next_le_tick_next
  · exact (sound.means n).remove key now now'
  · intro key' reg written
    simp only [CRDTCacheMap.remove]
    cases found : (s.nodes n).values key with
    | none => simp [CRDTCacheMap.removal, Op.write, found] at written
    | some existing =>
      simp only [CRDTCacheMap.removal, Op.write, found, Option.map_some, Option.some.injEq,
        Prod.mk.injEq] at written
      obtain ⟨_, rfl⟩ := written
      exact ⟨sound.ids n, first.trans HybridLogicalClock.next_le_tick,
        HybridLogicalClock.tick_lt_next⟩
  · intro pair member
    have added : pair ∈ (s.nodes n).membership.adds := by
      have listed : pair ∈ (s.nodes n).membership.observed key := member
      exact (Finset.mem_filter.mp listed).1
    obtain ⟨op', known, here⟩ := ((sound.means n).adds pair).mp added
    exact ⟨op', mem_log_of_known known, here⟩

theorem Sound.merge (sound : s.Sound) (n m : ν) (order : List (κ × Timestamp ν))
    (readings : Nat → Int) : (exec s (.merge n m order readings)).Sound := by
  have known : ∀ r, (exec s (.merge n m order readings)).known r =
      if r = n then s.known n ∪ s.known m else s.known r := by
    intro r
    ext op
    by_cases here : r = n
    · subst here
      simp [Replicas.known, exec, or_and_right, exists_or]
    · simp [Replicas.known, exec, here]
  -- only one replica changes
  have nodes : ∀ r, (exec s (.merge n m order readings)).nodes r =
      if r = n then (s.nodes n).merge (s.nodes m) order readings else s.nodes r := fun r =>
    Function.update_apply _ _ _ _
  constructor
  case ids =>
    intro r
    rw [nodes]
    split
    next here =>
      rw [here]
      exact HybridLogicalClock.observeAll_nodeId.trans (sound.ids n)
    next => exact sound.ids r
  case means =>
    intro r
    rw [nodes, known]
    split
    · exact (sound.means n).merge (sound.means m) order readings
    · exact sound.means r
  case inside =>
    intro r i member
    simp only [exec] at member
    rw [Function.update_apply] at member
    split at member
    · rcases Finset.mem_union.mp member with mine | theirs
      · exact sound.inside n i mine
      · exact sound.inside m i theirs
    · exact sound.inside r i member
  case observed => exact sound.observed
  case issued =>
    intro op member key reg written
    have before := sound.issued op member key reg written
    rw [nodes]
    split
    next here =>
      rw [here] at before
      exact before.trans_le HybridLogicalClock.next_le_observeAll_next
    next => exact before
  case distinct => exact sound.distinct

theorem Sound.step (sound : s.Sound) (act : Action κ V ν) : (exec s act).Sound := by
  cases act with
  | put n key value now => exact sound.put n key value now
  | remove n key now now' => exact sound.remove n key now now'
  | merge n m order readings => exact sound.merge n m order readings

theorem sound_of_reaches {ok : Replicas κ V ν → Action κ V ν → Prop}
    (reached : (machine κ V ν).Reaches ok s) : s.Sound := by
  apply Machine.Reaches.invariant (I := fun s : Replicas κ V ν => s.Sound) _ _ reached
  · rintro s ⟨⟨readings, nodes⟩, log, absorbed⟩
    have unknown : ∀ n, s.known n = ∅ := by simp [known, absorbed]
    constructor
    case ids => simp [nodes, CRDTCacheMap.clock, CRDTCacheMap.create, ORSet.create]
    case means =>
      intro n
      rw [unknown, nodes]
      constructor <;> simp [CRDTCacheMap.create, ORSet.create, writesTo, Latest]
    case inside => simp [absorbed]
    case observed => simp [log]
    case issued => simp [log]
    case distinct => simp [log, Distinct]
  · exact fun s act sound _ _ => sound.step act

end Replicas

end DistLLM.Crdt
