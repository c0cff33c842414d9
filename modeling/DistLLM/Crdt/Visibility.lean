import DistLLM.Crdt.Convergence

/-!
# Which keys are visible

Membership says that a put stays visible that no known remove has observed. The register of the key
says that the latest write decides, and a remove writes a tombstone. Both agree as long as no live
put is combined with a tombstone of a later stamp.
-/
namespace DistLLM.Crdt

open DistLLM.Library

variable {κ V ν : Type}

/-- Among the operations there is a put of the key whose tag no remove has tombstoned. -/
def LivePut (ops : Set (Op κ V ν)) (key : κ) : Prop :=
  ∃ tag value, .put key tag value ∈ ops ∧ ∀ op ∈ ops, ∀ pair ∈ op.removes, pair.2 ≠ tag

variable [DecidableEq κ] [LinearOrder ν]

theorem Means.livePut_iff {ops : Set (Op κ V ν)} {map : CRDTCacheMap κ V ν}
    (means : Means ops map) (key : κ) : LivePut ops key ↔ key ∈ map.membership.elements := by
  rw [ORSet.mem_elements]
  constructor
  · rintro ⟨tag, value, member, alive⟩
    refine ⟨tag, (means.adds _).mpr ⟨_, member, rfl⟩, fun other removed => ?_⟩
    obtain ⟨op, known, here⟩ := (means.removes _).mp removed
    exact alive op known _ here rfl
  · rintro ⟨tag, added, alive⟩
    obtain ⟨op, member, here⟩ := (means.adds _).mp added
    cases op with
    | remove _ _ _ => exact here.elim
    | put key' tag' value =>
      cases here
      refine ⟨tag, value, member, fun op known pair removed same => ?_⟩
      apply alive pair.1
      rw [← same]
      exact (means.removes _).mpr ⟨op, known, removed⟩

/-- Present keys have a register with a value. -/
def CRDTCacheMap.Shown (map : CRDTCacheMap κ V ν) : Prop :=
  ∀ key ∈ map.membership.elements, ∃ reg, map.values key = some reg ∧ reg.value ≠ none

namespace Replicas

variable {s : Replicas κ V ν} {n m : ν}

/-- A key is visible at a replica exactly if the replica knows a live put of it. -/
def Visible (s : Replicas κ V ν) : Prop :=
  ∀ n key, (s.nodes n).contains key = true ↔ LivePut (s.known n) key

def Valued : Action κ V ν → Prop
  | .put _ _ value _ => value ≠ none
  | _ => True

/-- Of the registers for a key, a tombstone is followed by a value with a later stamp. -/
def Outlived (map other : CRDTCacheMap κ V ν) (key : κ) : Prop :=
  ∀ reg, map.values key = some reg ∨ other.values key = some reg → reg.value = none →
    ∃ reg', (map.values key = some reg' ∨ other.values key = some reg') ∧ reg'.value ≠ none ∧
      reg.timestamp < reg'.timestamp

/-- A put gets a later stamp than the tombstone in the register of its key, and where a merge brings
together a live put and a tombstone, there is a later value. -/
def KeepsVisible (s : Replicas κ V ν) : Action κ V ν → Prop
  | .put n key _ now => ∀ reg, (s.nodes n).values key = some reg → reg.value = none →
      reg.timestamp < ((s.nodes n).clock.tick now).1
  | .remove _ _ _ _ => True
  | .merge n m _ _ => ∀ key tag,
      (key, tag) ∈ (s.nodes n).membership.adds ∪ (s.nodes m).membership.adds →
      (∀ other, (other, tag) ∉ (s.nodes n).membership.removes ∪ (s.nodes m).membership.removes) →
      Outlived (s.nodes n) (s.nodes m) key

theorem Sound.visible_iff (sound : s.Sound) : s.Visible ↔ ∀ n, (s.nodes n).Shown := by
  simp only [Visible, (sound.means _).livePut_iff, CRDTCacheMap.contains_iff, CRDTCacheMap.Shown]
  constructor
  · exact fun visible n key present => ((visible n key).mpr present).2
  · exact fun shown n key => ⟨fun both => both.1, fun present => ⟨present, shown n key present⟩⟩

omit [DecidableEq κ] in
theorem Sound.tick_not_removed (sound : s.Sound) (n : ν) (now : Int) (key : κ) :
    (key, ((s.nodes n).clock.tick now).1) ∉ (s.nodes n).membership.removes := by
  intro removed
  obtain ⟨op, known, here⟩ := ((sound.means n).removes _).mp removed
  obtain ⟨op', member, added⟩ := sound.observed op (mem_log_of_known known) _ here
  cases op' with
  | remove _ _ _ => exact added.elim
  | put key' tag value =>
    cases added
    have before := sound.issued _ member key _ rfl
    simp only [HybridLogicalClock.tick_stamp_nodeId, sound.ids n] at before
    exact absurd HybridLogicalClock.next_le_tick (not_le.mpr before)

theorem Sound.put_shown_iff (sound : s.Sound) (shown : (s.nodes n).Shown) (key : κ)
    {value : Option V} (some_value : value ≠ none) (now : Int) :
    ((s.nodes n).put key value now).2.Shown ↔ ∀ reg, (s.nodes n).values key = some reg →
      reg.value = none → reg.timestamp < ((s.nodes n).clock.tick now).1 := by
  have fresh : ((s.nodes n).clock.tick now).1 ∉ (s.nodes n).membership.removedTags := by
    intro removed
    obtain ⟨⟨other, _⟩, member, rfl⟩ := Finset.mem_image.mp removed
    exact sound.tick_not_removed n now other member
  have elements : ∀ key', key' ∈ ((s.nodes n).put key value now).2.membership.elements ↔
      key' = key ∨ key' ∈ (s.nodes n).membership.elements := by
    simp [CRDTCacheMap.mem_elements_put, fresh]
  have here := (s.nodes n).put_values key value now
  constructor
  · intro shown' reg found tombstone
    obtain ⟨reg', written, valued⟩ := shown' key ((elements key).mpr (.inl rfl))
    rw [here, found, later] at written
    split at written
    next after => exact after
    next => exact absurd tombstone (by cases written; exact valued)
  · intro outlived key' present
    by_cases same : key' = key
    · subst same
      cases found : (s.nodes n).values key' with
      | none =>
        rw [here, found]
        exact ⟨_, rfl, some_value⟩
      | some reg =>
        rw [here, found, later]
        split
        · exact ⟨_, rfl, some_value⟩
        next before => exact ⟨reg, rfl, fun tombstone => before (outlived reg found tombstone)⟩
    · rw [CRDTCacheMap.put_values_of_ne same]
      exact shown key' (((elements key').mp present).resolve_left same)

theorem remove_sets (map : CRDTCacheMap κ V ν) (key : κ) (now now' : Int) :
    (map.remove key now now').2.membership.adds = map.membership.adds ∧
      (map.remove key now now').2.membership.removes =
        map.membership.removes ∪ map.membership.observed key ∧
      ∀ key', key' ≠ key → (map.remove key now now').2.values key' = map.values key' := by
  simp only [CRDTCacheMap.remove]
  split
  · exact ⟨rfl, rfl, fun _ _ => rfl⟩
  · exact ⟨rfl, rfl, fun key' other => Function.update_of_ne other _ _⟩

theorem remove_shown {map : CRDTCacheMap κ V ν} (shown : map.Shown) (key : κ) (now now' : Int) :
    (map.remove key now now').2.Shown := by
  obtain ⟨adds, removes, values⟩ := remove_sets map key now now'
  intro key' present
  rw [ORSet.mem_elements, adds, removes] at present
  obtain ⟨tag, added, alive⟩ := present
  have other : key' ≠ key := by
    rintro rfl
    apply alive key'
    simp [ORSet.observed, added]
  rw [values key' other]
  apply shown
  rw [ORSet.mem_elements]
  exact ⟨tag, added, fun k removed => alive k (Finset.mem_union_left _ removed)⟩

omit [DecidableEq κ] in
theorem Sound.later_valued_iff (sound : s.Sound) {key : κ} {reg : LWWRegister V ν}
    (latest : later LWWRegister.timestamp ((s.nodes n).values key) ((s.nodes m).values key) =
      some reg) : reg.value ≠ none ↔ Outlived (s.nodes n) (s.nodes m) key := by
  have written : ∀ reg, (s.nodes n).values key = some reg ∨ (s.nodes m).values key = some reg →
      ∃ op ∈ s.log, op.write = some (key, reg) := by
    rintro reg (mine | theirs)
    · have latest := (sound.means n).values key
      rw [mine] at latest
      obtain ⟨op, known, here⟩ := latest.mem
      exact ⟨op, mem_log_of_known known, here⟩
    · have latest := (sound.means m).values key
      rw [theirs] at latest
      obtain ⟨op, known, here⟩ := latest.mem
      exact ⟨op, mem_log_of_known known, here⟩
  obtain ⟨one, least⟩ := later_spec latest
  constructor
  · intro valued tomb found tombstone
    refine ⟨reg, one, valued, lt_of_le_of_ne (least tomb found) fun same => ?_⟩
    -- the same stamp would be the same write
    obtain ⟨op, logged, here⟩ := written tomb found
    obtain ⟨op', logged', here'⟩ := written reg one
    obtain rfl := sound.distinct op logged op' logged' key key tomb reg here here' same
    obtain rfl : tomb = reg := by simpa [here] using here'
    exact valued tombstone
  · intro outlived tombstone
    obtain ⟨reg', found, _, after⟩ := outlived reg one tombstone
    exact absurd (least reg' found) (not_le.mpr after)

theorem Sound.merge_shown_iff (sound : s.Sound) (n m : ν) (order : List (κ × Timestamp ν))
    (readings : Nat → Int) : ((s.nodes n).merge (s.nodes m) order readings).Shown ↔
      s.KeepsVisible (.merge n m order readings) := by
  have means := (sound.means n).merge (sound.means m) order readings
  have values : ∀ key, ((s.nodes n).merge (s.nodes m) order readings).values key =
      later LWWRegister.timestamp ((s.nodes n).values key) ((s.nodes m).values key) :=
    fun key => CRDTCacheMap.mergeValues_eq _ _ key
  have live : ∀ key, key ∈ ((s.nodes n).merge (s.nodes m) order readings).membership.elements ↔
      ∃ tag, (key, tag) ∈ (s.nodes n).membership.adds ∪ (s.nodes m).membership.adds ∧
        ∀ other, (other, tag) ∉ (s.nodes n).membership.removes ∪ (s.nodes m).membership.removes :=
    fun key => ORSet.mem_elements
  constructor
  · intro shown key tag added alive
    obtain ⟨reg, found, valued⟩ := shown key ((live key).mpr ⟨tag, added, alive⟩)
    rw [values] at found
    exact (sound.later_valued_iff found).mp valued
  · intro outlived key present
    obtain ⟨tag, added, alive⟩ := (live key).mp present
    rw [values]
    cases latest :
      later LWWRegister.timestamp ((s.nodes n).values key) ((s.nodes m).values key) with
    | none =>
      -- a live put has written a register
      obtain ⟨tag, value, member, _⟩ := (means.livePut_iff key).mpr present
      have empty := means.values key
      rw [values, latest] at empty
      have inside : ⟨value, tag⟩ ∈ writesTo (s.known n ∪ s.known m) key := ⟨_, member, rfl⟩
      rw [show writesTo (s.known n ∪ s.known m) key = ∅ from empty] at inside
      exact inside.elim
    | some reg =>
      exact ⟨reg, rfl, (sound.later_valued_iff latest).mpr (outlived key tag added alive)⟩

theorem Sound.visible_step (sound : s.Sound) (visible : s.Visible) {act : Action κ V ν}
    (valued : Valued act) : (exec s act).Visible ↔ s.KeepsVisible act := by
  have shown := sound.visible_iff.mp visible
  have after : (exec s act).Sound := sound.step act
  rw [after.visible_iff]
  -- only one replica changes
  have one : ∀ (n : ν) (map : CRDTCacheMap κ V ν),
      (exec s act).nodes = Function.update s.nodes n map →
        ((∀ m, ((exec s act).nodes m).Shown) ↔ map.Shown) := by
    intro n map nodes
    rw [nodes]
    constructor
    · intro all
      simpa using all n
    · intro here m
      by_cases same : m = n
      · subst same
        simpa using here
      · simpa [same] using shown m
  cases act with
  | put n key value now =>
    rw [one n _ rfl]
    exact sound.put_shown_iff (shown n) key valued now
  | remove n key now now' =>
    rw [one n _ rfl]
    exact ⟨fun _ => trivial, fun _ => remove_shown (shown n) key now now'⟩
  | merge n m order readings =>
    rw [one n _ rfl]
    exact sound.merge_shown_iff n m order readings

/-- **Visibility.** In every run of puts of values, removes and merges in which each put is stamped
after the tombstone that it meets, and no merge brings a live put together with a later tombstone, a
key is visible at a replica exactly if the replica knows a live put of it. Each step keeps this only
under its condition. -/
theorem visible_iff_live_put
    (reached : (machine κ V ν).Reaches (fun s act => Valued act ∧ s.KeepsVisible act) s) :
    s.Visible ∧ ∀ act, Valued act → ((exec s act).Visible ↔ s.KeepsVisible act) := by
  have both : s.Sound ∧ s.Visible := by
    apply Machine.Reaches.invariant (I := fun s : Replicas κ V ν => s.Sound ∧ s.Visible) _ _ reached
    · intro s fresh
      have sound : s.Sound := sound_of_reaches (.init fresh : (machine κ V ν).Reachable s)
      refine ⟨sound, sound.visible_iff.mpr fun n key present => ?_⟩
      obtain ⟨⟨readings, nodes⟩, _⟩ := fresh
      rw [nodes] at present
      simp [CRDTCacheMap.create, ORSet.create, ORSet.mem_elements] at present
    · rintro s act ⟨sound, visible⟩ _ ⟨valued, kept⟩
      exact ⟨sound.step act, (sound.visible_step visible valued).mpr kept⟩
  exact ⟨both.2, fun act valued => both.1.visible_step both.2 valued⟩

/-- Node 1 removes the key that it has got from node 0, which still shows it. -/
theorem visible_iff_live_put_removed :
    ∃ s : Replicas Nat String Nat, (s.nodes 0).contains 7 = true ∧ (s.nodes 1).contains 7 = false ∧
      s.Visible := by
  have fresh : (machine Nat String Nat).init
      ⟨fun n => CRDTCacheMap.create n (if n = 0 then 100 else 50), [], fun _ => ∅⟩ :=
    ⟨⟨_, rfl⟩, rfl, rfl⟩
  have reached : (machine Nat String Nat).Reaches
      (fun s act => Valued act ∧ s.KeepsVisible act) _ := .of_follows (.init fresh)
    [.put 0 7 (some "a") 110, .merge 1 0 [(7, ⟨110, 0, 0⟩)] fun _ => 60, .remove 1 7 70 70]
    (by
      refine ⟨trivial, ⟨by simp [Valued], fun reg found => nomatch found⟩, by decide,
        ⟨trivial, fun key tag _ _ reg found tombstone => ?_⟩, trivial, ⟨trivial, trivial⟩, trivial⟩
      -- no register is a tombstone
      rcases found with mine | theirs
      · cases mine
      · by_cases here : key = 7
        · subst here
          cases theirs
          cases tombstone
        · simp [machine, exec, act, CRDTCacheMap.put, CRDTCacheMap.create, here] at theirs)
  exact ⟨_, by decide, by decide, (visible_iff_live_put reached).1⟩

/-- Node 1 is behind and puts the key while node 0 removes it. After merging, node 1 knows its own
live put, and the tombstone hides it. -/
theorem tombstone_hides_live_put : ¬ ∀ s : Replicas Nat String Nat,
      (machine Nat String Nat).Reaches (fun _ act => Valued act) s → s.Visible := by
  intro all
  have fresh : (machine Nat String Nat).init
      ⟨fun n => CRDTCacheMap.create n (if n = 0 then 100 else 50), [], fun _ => ∅⟩ :=
    ⟨⟨_, rfl⟩, rfl, rfl⟩
  have reached : (machine Nat String Nat).Reaches (fun _ act => Valued act) _ :=
    .of_follows (.init fresh)
      [.put 0 7 (some "a") 110, .remove 0 7 120 120, .put 1 7 (some "b") 60,
        .merge 1 0 [(7, ⟨110, 0, 0⟩)] fun _ => 70]
      ⟨trivial, by simp [Valued], trivial, trivial, trivial, by simp [Valued], by decide, trivial,
        trivial⟩
  have live := ((sound_of_reaches reached).means 1).livePut_iff 7
  exact absurd ((all _ reached 1 7).mpr (live.mpr (by decide))) (by decide)

end Replicas

end DistLLM.Crdt
