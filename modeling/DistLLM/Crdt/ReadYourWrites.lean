import DistLLM.Crdt.CacheMap
import DistLLM.Library.Machine

/-!
# Reading one's own writes

A put is read back if its stamp is later than the register of the key, and its tag is not one that
has been tombstoned. The clock sees to both for stamps that it has issued or folded in. Merging
folds in the tags of the other map, and not the stamps of its registers, and a merged copy has a new
clock.
-/
namespace DistLLM.Crdt

open DistLLM.Library

variable {ι κ V ν : Type} [DecidableEq κ] [LinearOrder ν]

namespace CRDTCacheMap

variable {map other : CRDTCacheMap κ V ν} {key : κ}

def ReadsBack (map : CRDTCacheMap κ V ν) (key : κ) (value : V) (now : Int) : Prop :=
  (map.put key (some value) now).2.get key = some value

/-- The clock is past all registers, and past all tags of its node. -/
structure Ahead (map : CRDTCacheMap κ V ν) : Prop where
  values : ∀ key reg, map.values key = some reg → reg.timestamp < map.clock.next
  tags : ∀ pair ∈ map.membership.adds ∪ map.membership.removes,
    pair.2.nodeId = map.clock.nodeId → pair.2 < map.clock.next

theorem readsBack_iff (map : CRDTCacheMap κ V ν) (key : κ) (value : V) (now : Int) :
    map.ReadsBack key value now ↔
      (key ∈ map.membership.elements ∨ (map.clock.tick now).1 ∉ map.membership.removedTags) ∧
      ∀ reg, map.values key = some reg →
        reg.timestamp < (map.clock.tick now).1 ∨ reg.value = some value := by
  have present := map.mem_elements_put key (some value) now key
  simp only [true_and, or_comm] at present
  rw [ReadsBack, get, ← present, map.put_values]
  by_cases member : key ∈ (map.put key (some value) now).2.membership.elements
  · simp only [member, if_true, true_and]
    cases found : map.values key with
    | none => simp [later]
    | some reg =>
      by_cases after : reg.timestamp < (map.clock.tick now).1 <;> simp [later, after]
  · simp [member]

theorem Ahead.readsBack (ahead : map.Ahead) (key : κ) (value : V) (now : Int) :
    map.ReadsBack key value now := by
  rw [readsBack_iff]
  constructor
  · right
    intro removed
    obtain ⟨pair, member, same⟩ := Finset.mem_image.mp removed
    have before := ahead.tags pair (Finset.mem_union_right _ member) (by rw [same]; rfl)
    rw [same] at before
    exact absurd HybridLogicalClock.next_le_tick (not_le.mpr before)
  · intro reg found
    exact .inl ((ahead.values key reg found).trans_le HybridLogicalClock.next_le_tick)

variable {order : List (κ × Timestamp ν)}

theorem lt_next_of_lists {set : ORSet κ ν} (lists : set.Lists order) {pair : κ × Timestamp ν}
    (member : pair ∈ set.adds ∪ set.removes) (clock : HybridLogicalClock ν) (readings : Nat → Int) :
    pair.2 < (clock.observeAll readings (order.map Prod.snd)).next := by
  apply HybridLogicalClock.observeAll_lt_next
  rw [← lists.2, List.mem_toFinset] at member
  exact List.mem_map_of_mem member

/-! ### What keeps the clock ahead -/

theorem create_ahead (nodeId : ν) (now : Int) : (create nodeId now : CRDTCacheMap κ V ν).Ahead := by
  constructor
  · simp [create]
  · simp [create, ORSet.create]

theorem later_lt {mine theirs : Option (LWWRegister V ν)} {bound : Timestamp ν}
    (old : ∀ reg, mine = some reg → reg.timestamp < bound)
    (new : ∀ reg, theirs = some reg → reg.timestamp < bound) {reg : LWWRegister V ν}
    (latest : later LWWRegister.timestamp mine theirs = some reg) : reg.timestamp < bound := by
  rcases (later_spec latest).1 with here | here
  · exact old reg here
  · exact new reg here

theorem Ahead.put (ahead : map.Ahead) (key : κ) (value : Option V) (now : Int) :
    (map.put key value now).2.Ahead := by
  have rises : map.clock.next ≤ (map.put key value now).2.clock.next :=
    HybridLogicalClock.next_le_tick_next
  have issued : (map.clock.tick now).1 < (map.put key value now).2.clock.next :=
    HybridLogicalClock.tick_lt_next
  constructor
  · intro key' reg found
    by_cases here : key' = key
    · subst here
      rw [put_values] at found
      refine later_lt ?_ ?_ found
      · exact fun reg known => (ahead.values key' reg known).trans_le rises
      · rintro reg ⟨⟩
        exact issued
    · rw [put_values_of_ne here] at found
      exact (ahead.values key' reg found).trans_le rises
  · intro pair member own
    simp only [CRDTCacheMap.put, ORSet.add, Finset.insert_union, Finset.mem_insert] at member
    rcases member with rfl | old
    · exact issued
    · exact (ahead.tags pair old own).trans_le rises

theorem Ahead.remove (ahead : map.Ahead) (key : κ) (now now' : Int) :
    (map.remove key now now').2.Ahead := by
  have first : map.clock.next ≤ (map.membership.remove key now).2.clock.next :=
    HybridLogicalClock.next_le_tick_next
  -- the pairs tombstoned are pairs that were added
  have listed : ∀ pair ∈ map.membership.adds ∪ (map.membership.removes ∪
      map.membership.observed key), pair ∈ map.membership.adds ∪ map.membership.removes := by
    intro pair member
    simp only [ORSet.observed, Finset.mem_union, Finset.mem_filter] at member ⊢
    tauto
  simp only [CRDTCacheMap.remove]
  split
  · constructor
    · exact fun key' reg found => (ahead.values key' reg found).trans_le first
    · exact fun pair member own => (ahead.tags pair (listed pair member) own).trans_le first
  next existing found =>
    -- the tombstone of the register takes a second stamp
    have second : (map.membership.remove key now).2.clock.next ≤
        ((map.membership.remove key now).2.clock.tick now').2.next :=
      HybridLogicalClock.next_le_tick_next
    constructor
    · intro key' reg written
      by_cases here : key' = key
      · subst here
        simp only [Function.update_self, Option.some.injEq, LWWRegister.merge_eq] at written
        split at written <;> cases written
        · exact HybridLogicalClock.tick_lt_next
        · exact (ahead.values key' existing found).trans_le (first.trans second)
      · simp only [Function.update_of_ne here] at written
        exact (ahead.values key' reg written).trans_le (first.trans second)
    · exact fun pair member own =>
        (ahead.tags pair (listed pair member) own).trans_le (first.trans second)

theorem Ahead.ingest (ahead : map.Ahead) (key : κ) (value : Option V) (ts : Timestamp ν)
    (now now' : Int) : (map.ingest key value ts now now').Ahead := by
  let membership :=
    if key ∈ map.membership.elements then map.membership else (map.membership.add key now).2
  have rises : map.clock.next ≤ membership.clock.next := by
    simp only [membership]
    split
    · exact le_rfl
    · exact HybridLogicalClock.next_le_tick_next
  -- the tag of a key that is added here is issued by the clock
  have known : ∀ pair ∈ membership.adds ∪ membership.removes,
      pair.2.nodeId = membership.clock.nodeId → pair.2 < membership.clock.next := by
    simp only [membership]
    split
    · exact ahead.tags
    · exact (ahead.put key value now).tags
  have folded : membership.clock.next ≤ (membership.clock.observe now' ts).2.next :=
    HybridLogicalClock.next_le_observe_next
  constructor
  · intro key' reg found
    by_cases here : key' = key
    · subst here
      simp only [CRDTCacheMap.ingest, Function.update_self, LWWRegister.takeIn_eq] at found
      apply later_lt _ _ found
      · exact fun reg known => (ahead.values key' reg known).trans_le (rises.trans folded)
      · rintro reg ⟨⟩
        exact HybridLogicalClock.observe_lt_next
    · simp only [CRDTCacheMap.ingest, Function.update_of_ne here] at found
      exact (ahead.values key' reg found).trans_le (rises.trans folded)
  · exact fun pair member own => (known pair member own).trans_le folded

variable {readings : Nat → Int}

theorem Ahead.merge (ahead : map.Ahead) (lists : other.membership.Lists order)
    (folded : ∀ key reg, other.values key = some reg →
      reg.timestamp < (map.clock.observeAll readings (order.map Prod.snd)).next) :
    (map.merge other order readings).Ahead := by
  have rises : map.clock.next ≤ (map.merge other order readings).clock.next :=
    HybridLogicalClock.next_le_observeAll_next
  constructor
  · intro key reg found
    have latest := (mergeValues_eq map.values other.values key).symm.trans found
    apply later_lt _ (folded key) latest
    exact fun reg known => (ahead.values key reg known).trans_le rises
  · intro pair member own
    have node : (map.merge other order readings).clock.nodeId = map.clock.nodeId :=
      HybridLogicalClock.observeAll_nodeId
    have split : pair ∈ map.membership.adds ∪ map.membership.removes ∨
        pair ∈ other.membership.adds ∪ other.membership.removes := by
      simp only [CRDTCacheMap.merge, ORSet.merge, Finset.mem_union] at member ⊢
      tauto
    rcases split with mine | theirs
    · exact (ahead.tags pair mine (own.trans node)).trans_le rises
    · exact lt_next_of_lists lists theirs _ _

theorem merged_ahead {now : Int} (lists : other.membership.Lists order)
    (values : ∀ key reg, map.values key = some reg ∨ other.values key = some reg →
      reg.timestamp < (map.merged other now order readings).clock.next)
    (tags : ∀ pair ∈ map.membership.adds ∪ map.membership.removes,
      pair.2.nodeId = map.clock.nodeId →
        pair.2 < (map.merged other now order readings).clock.next) :
    (map.merged other now order readings).Ahead := by
  constructor
  · intro key reg found
    rw [merged_values] at found
    apply later_lt _ _ found
    · exact fun reg known => values key reg (.inl known)
    · exact fun reg known => values key reg (.inr known)
  · intro pair member own
    have node : (map.merged other now order readings).clock.nodeId = map.clock.nodeId :=
      HybridLogicalClock.observeAll_nodeId
    have split : pair ∈ map.membership.adds ∪ map.membership.removes ∨
        pair ∈ other.membership.adds ∪ other.membership.removes := by
      simp only [CRDTCacheMap.merged, ORSet.merged, ORSet.merge, Finset.mem_union] at member ⊢
      tauto
    rcases split with mine | theirs
    · exact tags pair mine (own.trans node)
    · exact lt_next_of_lists lists theirs _ _

/-- After a merge into a map that is ahead, all puts are read back if and only if the clock has
passed the registers that were merged in. -/
theorem Ahead.merge_reads_iff (ahead : map.Ahead) (lists : other.membership.Lists order) {v w : V}
    (two : v ≠ w) :
    (∀ key value now, (map.merge other order readings).ReadsBack key value now) ↔
      ∀ key reg, other.values key = some reg →
        reg.timestamp < (map.clock.observeAll readings (order.map Prod.snd)).next := by
  constructor
  · intro reads key reg found
    by_contra late
    have past : (map.merge other order readings).clock.next ≤ reg.timestamp := not_lt.mp late
    have rises : map.clock.next ≤ (map.merge other order readings).clock.next :=
      HybridLogicalClock.next_le_observeAll_next
    -- the register that is merged in replaces that of the map
    have merged : (map.merge other order readings).values key = some reg := by
      simp only [CRDTCacheMap.merge, mergeValues_eq, found]
      cases known : map.values key with
      | none => rfl
      | some mine =>
        have before := (ahead.values key mine known).trans_le (rises.trans past)
        simp [later, before]
    -- and it stays when the clock issues its next stamp
    have stays : ∀ value, reg.value = some value := by
      intro value
      have back := reads key value (map.merge other order readings).clock.lastPhysicalNs
      rcases ((readsBack_iff _ key value _).mp back).2 reg merged with before | same
      · rw [HybridLogicalClock.tick_of_le le_rfl] at before
        exact absurd before (not_lt.mpr past)
      · exact same
    apply two
    simpa [stays v] using stays w
  · exact fun folded key value now => (ahead.merge lists folded).readsBack key value now

end CRDTCacheMap

/-! ### Runs of maps -/

namespace Maps

/-- An operation on one of the maps. With `merged`, the map `l` becomes a merged copy. -/
inductive Action (ι κ V ν : Type)
  | put (i : ι) (key : κ) (value : Option V) (now : Int)
  | remove (i : ι) (key : κ) (now now' : Int)
  | merge (i j : ι) (order : List (κ × Timestamp ν)) (readings : Nat → Int)
  | merged (l i j : ι) (now : Int) (order : List (κ × Timestamp ν)) (readings : Nat → Int)
  | ingest (i : ι) (key : κ) (value : Option V) (ts : Timestamp ν) (now now' : Int)

variable [DecidableEq ι]

def exec (s : ι → CRDTCacheMap κ V ν) : Action ι κ V ν → ι → CRDTCacheMap κ V ν
  | .put i key value now => Function.update s i ((s i).put key value now).2
  | .remove i key now now' => Function.update s i ((s i).remove key now now').2
  | .merge i j order readings => Function.update s i ((s i).merge (s j) order readings)
  | .merged l i j now order readings =>
    Function.update s l ((s i).merged (s j) now order readings)
  | .ingest i key value ts now now' => Function.update s i ((s i).ingest key value ts now now')

/-- Any operations on new maps, with any readings of the wall clocks. Maps may share a node. -/
def machine (ι κ V ν : Type) [DecidableEq ι] [DecidableEq κ] [LinearOrder ν] :
    Machine (ι → CRDTCacheMap κ V ν) (Action ι κ V ν) where
  init s := ∃ (ids : ι → ν) (readings : ι → Int),
    s = fun i => CRDTCacheMap.create (ids i) (readings i)
  enabled s
    | .merge _ j order _ => (s j).membership.Lists order
    | .merged _ _ j _ order _ => (s j).membership.Lists order
    | _ => True
  exec := exec

instance (s : ι → CRDTCacheMap κ V ν) : ∀ act, Decidable ((machine ι κ V ν).enabled s act)
  | .put _ _ _ _ => .isTrue trivial
  | .remove _ _ _ _ => .isTrue trivial
  | .merge _ j order _ => inferInstanceAs (Decidable ((s j).membership.Lists order))
  | .merged _ _ j _ order _ => inferInstanceAs (Decidable ((s j).membership.Lists order))
  | .ingest _ _ _ _ _ _ => .isTrue trivial

/-- A merge leaves the clock past the registers of the other map, and a merged copy gets a clock
past all registers and the tags of its node. -/
def KeepsAhead (s : ι → CRDTCacheMap κ V ν) : Action ι κ V ν → Prop
  | .merge i j order readings => ∀ key reg, (s j).values key = some reg →
      reg.timestamp < ((s i).clock.observeAll readings (order.map Prod.snd)).next
  | .merged _ i j now order readings =>
    let clock : HybridLogicalClock ν := { nodeId := (s i).clock.nodeId, lastPhysicalNs := now }
    let clock' := clock.observeAll readings (order.map Prod.snd)
    (∀ key reg, (s i).values key = some reg ∨ (s j).values key = some reg →
      reg.timestamp < clock'.next) ∧
    ∀ pair ∈ (s i).membership.adds ∪ (s i).membership.removes,
      pair.2.nodeId = clock.nodeId → pair.2 < clock'.next
  | _ => True

variable {s : ι → CRDTCacheMap κ V ν}

theorem ahead_exec {act : Action ι κ V ν} (ahead : ∀ i, (s i).Ahead)
    (enabled : (machine ι κ V ν).enabled s act) (kept : KeepsAhead s act) (i : ι) :
    (exec s act i).Ahead := by
  -- only one map changes
  have one : ∀ (j : ι) (map : CRDTCacheMap κ V ν), map.Ahead →
      (Function.update s j map i).Ahead := by
    intro j map here
    by_cases same : i = j
    · subst same
      simpa using here
    · simpa [same] using ahead i
  cases act with
  | put j key value now => exact one j _ ((ahead j).put key value now)
  | remove j key now now' => exact one j _ ((ahead j).remove key now now')
  | merge j k order readings => exact one j _ ((ahead j).merge enabled kept)
  | merged l j k now order readings =>
    exact one l _ (CRDTCacheMap.merged_ahead enabled kept.1 kept.2)
  | ingest j key value ts now now' => exact one j _ ((ahead j).ingest key value ts now now')

theorem ahead_of_reaches (reached : (machine ι κ V ν).Reaches KeepsAhead s) (i : ι) :
    (s i).Ahead := by
  apply Machine.Reaches.invariant (I := fun s : ι → CRDTCacheMap κ V ν => ∀ i, (s i).Ahead)
    _ _ reached
  · rintro s ⟨ids, readings, rfl⟩ i
    exact CRDTCacheMap.create_ahead (ids i) (readings i)
  · exact fun s act ahead enabled kept => ahead_exec ahead enabled kept

/-- **Reading one's own writes.** In every run in which the merges leave the clocks past the
registers, whatever is put into a map is read back from it. From a state of such a run, a merge
keeps this only under its condition. -/
theorem reads_own_writes (reached : (machine ι κ V ν).Reaches KeepsAhead s) :
    (∀ i key value now, (s i).ReadsBack key value now) ∧
      ∀ v w : V, v ≠ w → ∀ i j order readings, (s j).membership.Lists order →
        ((∀ key value now, ((s i).merge (s j) order readings).ReadsBack key value now) ↔
          KeepsAhead s (.merge i j order readings)) := by
  have ahead := ahead_of_reaches reached
  constructor
  · exact fun i => (ahead i).readsBack
  · exact fun v w two i j order readings lists => (ahead i).merge_reads_iff lists two

/-- Map 1 is behind and merges the value of map 0, and map 2 becomes a copy of both. -/
theorem reads_own_writes_copy : ∃ s : Nat → CRDTCacheMap Nat String Nat,
    (s 2).get 7 = some "a" ∧ (s 1).ReadsBack 7 "b" 70 ∧ (s 2).ReadsBack 7 "b" 70 := by
  have fresh : (machine Nat Nat String Nat).init
      fun i => CRDTCacheMap.create i (if i = 0 then 100 else 50) := ⟨_, _, rfl⟩
  have reached : (machine Nat Nat String Nat).Reaches KeepsAhead _ := .of_follows (.init fresh)
    [.put 0 7 (some "a") 110, .merge 1 0 [(7, ⟨110, 0, 0⟩)] fun _ => 60,
      .merged 2 1 0 65 [(7, ⟨110, 0, 0⟩)] fun _ => 65]
    (by
      refine ⟨trivial, trivial, by decide, fun key reg found => ?_, by decide, ⟨?_, by decide⟩,
        trivial⟩
      · by_cases here : key = 7
        · subst here
          cases found
          decide
        · simp [machine, exec, CRDTCacheMap.put, CRDTCacheMap.create, here] at found
      · intro key reg found
        by_cases here : key = 7
        · subst here
          rcases found with mine | theirs
          · cases mine
            decide
          · cases theirs
            decide
        · simp [machine, exec, CRDTCacheMap.put, CRDTCacheMap.create, CRDTCacheMap.merge,
            CRDTCacheMap.mergeValues, here] at found)
  have reads := (reads_own_writes reached).1
  exact ⟨_, by decide, reads 1 7 "b" 70, reads 2 7 "b" 70⟩

/-- The tombstone that map 1 merges is stamped after all tags, and hides the value put next. -/
theorem merged_tombstone_hides_write : ¬ ∀ s : Nat → CRDTCacheMap Nat String Nat,
    (machine Nat Nat String Nat).Reachable s →
      ∀ i key value now, (s i).ReadsBack key value now := by
  intro all
  have fresh : (machine Nat Nat String Nat).init
      fun i => CRDTCacheMap.create i (if i = 0 then 100 else 50) := ⟨_, _, rfl⟩
  have reached : (machine Nat Nat String Nat).Reachable _ := .of_follows (.init fresh)
    [.put 0 7 (some "a") 110, .remove 0 7 120 130, .merge 1 0 [(7, ⟨110, 0, 0⟩)] fun _ => 60]
    ⟨trivial, trivial, trivial, trivial, by decide, trivial, trivial⟩
  exact absurd (all _ reached 1 7 "b" 70) (by unfold CRDTCacheMap.ReadsBack; decide)

end Maps

end DistLLM.Crdt
