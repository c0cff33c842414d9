import DistLLM.Crdt.CacheMap

/-!
# What the operations of a map write

A map whose membership is written by its own node only shows a key if and only if its register has a
value. Each operation then lets registers give way to later ones: to registers stamped by the clock
of the map, or to those that are taken in.
-/
namespace DistLLM.Crdt

open DistLLM.Library

variable {κ V ν : Type} [DecidableEq κ] [LinearOrder ν]

/-- All tags are of the node of the set, each belongs to one element, and only what was added has
been removed. -/
structure ORSet.Sound (set : ORSet κ ν) : Prop where
  own : ∀ pair ∈ set.adds, pair.2.nodeId = set.clock.nodeId
  tags : ∀ pair ∈ set.adds, pair.2 < set.clock.next
  unique : ∀ pair ∈ set.adds, ∀ pair' ∈ set.adds, pair.2 = pair'.2 → pair.1 = pair'.1
  removed : set.removes ⊆ set.adds

variable {clock : HybridLogicalClock ν}

namespace ORSet.Sound

variable {set : ORSet κ ν}

omit [DecidableEq κ] in
theorem withClock (sound : set.Sound) (node : clock.nodeId = set.clock.nodeId)
    (rises : set.clock.next ≤ clock.next) :
    ORSet.Sound { set with clock } where
  own pair member := (sound.own pair member).trans node.symm
  tags pair member := (sound.tags pair member).trans_le rises
  unique := sound.unique
  removed := sound.removed

omit [DecidableEq κ] in
theorem fresh (sound : set.Sound) (now : Int) {pair : κ × Timestamp ν} (member : pair ∈ set.adds) :
    pair.2 ≠ (set.clock.tick now).1 :=
  ((sound.tags pair member).trans_le HybridLogicalClock.next_le_tick).ne

variable (sound : set.Sound) (elem : κ) (now : Int)

include sound elem now

theorem add : (set.add elem now).2.Sound := by
  constructor
  case own =>
    intro pair member
    rcases Finset.mem_insert.mp member with rfl | old
    · rfl
    · exact sound.own pair old
  case tags =>
    intro pair member
    rcases Finset.mem_insert.mp member with rfl | old
    · exact HybridLogicalClock.tick_lt_next
    · exact (sound.tags pair old).trans_le HybridLogicalClock.next_le_tick_next
  case unique =>
    intro pair member pair' member' same
    rcases Finset.mem_insert.mp member with rfl | old <;>
      rcases Finset.mem_insert.mp member' with rfl | old'
    · rfl
    · exact absurd same.symm (sound.fresh now old')
    · exact absurd same (sound.fresh now old)
    · exact sound.unique pair old pair' old' same
  case removed => exact sound.removed.trans (Finset.subset_insert _ _)

theorem mem_elements_add {elem' : κ} :
    elem' ∈ (set.add elem now).2.elements ↔ elem' = elem ∨ elem' ∈ set.elements := by
  simp only [ORSet.mem_elements, ORSet.add, Finset.mem_insert, Prod.mk.injEq]
  constructor
  · rintro ⟨tag, ⟨rfl, rfl⟩ | added, alive⟩
    · exact Or.inl rfl
    · exact Or.inr ⟨tag, added, alive⟩
  · rintro (rfl | ⟨tag, added, alive⟩)
    · refine ⟨_, Or.inl ⟨rfl, rfl⟩, ?_⟩
      intro other gone
      exact sound.fresh now (sound.removed gone) rfl
    · exact ⟨tag, Or.inr added, alive⟩

theorem remove : (set.remove elem now).2.Sound := by
  have later : ORSet.Sound { set with clock := (set.clock.tick now).2 } :=
    sound.withClock rfl HybridLogicalClock.next_le_tick_next
  exact
    { own := later.own
      tags := later.tags
      unique := later.unique
      removed := Finset.union_subset sound.removed (Finset.filter_subset _ _) }

theorem mem_elements_remove {elem' : κ} (other : elem' ≠ elem) (member : elem' ∈ set.elements) :
    elem' ∈ (set.remove elem now).2.elements := by
  rw [ORSet.mem_elements] at member ⊢
  obtain ⟨tag, added, alive⟩ := member
  refine ⟨tag, added, ?_⟩
  intro gone removed
  rcases Finset.mem_union.mp removed with before | now'
  · exact alive gone before
  · -- a tag that is removed now belongs to the element removed
    obtain ⟨observed, here⟩ := Finset.mem_filter.mp now'
    exact other ((sound.unique _ added _ observed rfl).trans here)

end ORSet.Sound

variable (key : κ) (value : Option V) (ts : Timestamp ν) (now now' : Int)

namespace CRDTCacheMap

variable {map map' map'' : CRDTCacheMap κ V ν}

/-- Besides its membership, the clock is past the registers, and what has a value is a member. -/
structure Sound (map : CRDTCacheMap κ V ν) : Prop where
  members : map.membership.Sound
  values : ∀ key reg, map.values key = some reg → reg.timestamp < map.clock.next
  shown : ∀ key reg, map.values key = some reg → reg.value ≠ none → key ∈ map.membership.elements

theorem Sound.get_eq (sound : map.Sound) (key : κ) :
    map.get key = (map.values key).bind LWWRegister.value := by
  simp only [get]
  cases found : map.values key with
  | none => simp
  | some reg =>
    cases held : reg.value with
    | none => simp [held]
    | some value =>
      have member := sound.shown key reg found (by simp [held])
      simp [member, held]

/-! ### Registers give way to later ones -/

def Grows (old new : Option (LWWRegister V ν)) : Prop :=
  new = old ∨ ∃ reg', new = some reg' ∧ ∀ reg, old = some reg → reg.timestamp < reg'.timestamp

variable {reg : LWWRegister V ν} {old new : Option (LWWRegister V ν)}

omit [DecidableEq κ] in
theorem Grows.le (grows : Grows old new) (held : old = some reg) :
    ∃ reg', new = some reg' ∧ reg.timestamp ≤ reg'.timestamp := by
  rcases grows with rfl | ⟨reg', now, later⟩
  · exact ⟨reg, held, le_rfl⟩
  · exact ⟨reg', now, (later reg held).le⟩

theorem Grows.trans {mid : Option (LWWRegister V ν)} (first : Grows old mid)
    (second : Grows mid new) : Grows old new := by
  rcases second with rfl | ⟨reg', now, later⟩
  · exact first
  · refine Or.inr ⟨reg', now, ?_⟩
    intro reg held
    obtain ⟨between, there, before⟩ := first.le held
    exact before.trans_lt (later between there)

def Covers (map : CRDTCacheMap κ V ν) (key : κ) (ts : Timestamp ν) : Prop :=
  ∃ reg, map.values key = some reg ∧ ts ≤ reg.timestamp

omit [DecidableEq κ] in
theorem Covers.grows {key : κ} {ts : Timestamp ν} (covers : map.Covers key ts)
    (grows : Grows (map.values key) (map'.values key)) : map'.Covers key ts := by
  obtain ⟨reg, held, before⟩ := covers
  obtain ⟨reg', now, later⟩ := grows.le held
  exact ⟨reg', now, before.trans later⟩

/-- A stamp that a clock has issued on the way to another state of it. -/
def Issued (clock clock' : HybridLogicalClock ν) (ts : Timestamp ν) : Prop :=
  ts.nodeId = clock.nodeId ∧ clock.next ≤ ts ∧ ts < clock'.next

/-- Registers give way to later ones, which are stamped here and hold what may be written, or which
are admitted from elsewhere. -/
structure Advances (writes : κ → Option V → Prop) (admits : κ → LWWRegister V ν → Prop)
    (map map' : CRDTCacheMap κ V ν) : Prop where
  node : map'.clock.nodeId = map.clock.nodeId
  rises : map.clock.next ≤ map'.clock.next
  grows : ∀ key, Grows (map.values key) (map'.values key)
  comes : ∀ key reg, map'.values key = some reg → map.values key = some reg ∨ admits key reg ∨
    writes key reg.value ∧ Issued map.clock map'.clock reg.timestamp

namespace Advances

variable {writes : κ → Option V → Prop} {admits : κ → LWWRegister V ν → Prop}

section

omit [DecidableEq κ]

theorem refl (map : CRDTCacheMap κ V ν) : Advances writes admits map map where
  node := rfl
  rises := le_rfl
  grows _ := Or.inl rfl
  comes _ _ held := Or.inl held

theorem trans (first : Advances writes admits map map')
    (second : Advances writes admits map' map'') : Advances writes admits map map'' where
  node := second.node.trans first.node
  rises := first.rises.trans second.rises
  grows key := (first.grows key).trans (second.grows key)
  comes := by
    intro key reg held
    rcases second.comes key reg held with old | admitted | ⟨written, node, after, before⟩
    · rcases first.comes key reg old with older | admitted | ⟨written, node, after, before⟩
      · exact Or.inl older
      · exact Or.inr (Or.inl admitted)
      · exact Or.inr (Or.inr ⟨written, node, after, before.trans_le second.rises⟩)
    · exact Or.inr (Or.inl admitted)
    · exact Or.inr (Or.inr ⟨written, node.trans first.node, first.rises.trans after, before⟩)

theorem mono {writes' : κ → Option V → Prop} {admits' : κ → LWWRegister V ν → Prop}
    (advances : Advances writes admits map map')
    (written : ∀ key value, writes key value → writes' key value)
    (admitted : ∀ key reg, admits key reg → admits' key reg) :
    Advances writes' admits' map map' where
  node := advances.node
  rises := advances.rises
  grows := advances.grows
  comes := by
    intro key reg held
    rcases advances.comes key reg held with old | taken | ⟨here, issued⟩
    · exact Or.inl old
    · exact Or.inr (Or.inl (admitted key reg taken))
    · exact Or.inr (Or.inr ⟨written key _ here, issued⟩)

end

end Advances

theorem Sound.withClock (sound : map.Sound) (node : clock.nodeId = map.clock.nodeId)
    (rises : map.clock.next ≤ clock.next) :
    Sound { map with membership := { map.membership with clock } } where
  members := sound.members.withClock node rises
  values key reg held := (sound.values key reg held).trans_le rises
  shown := sound.shown

variable {admits : κ → LWWRegister V ν → Prop} {writes : κ → Option V → Prop}

omit [DecidableEq κ] in
theorem advances_withClock (node : clock.nodeId = map.clock.nodeId)
    (rises : map.clock.next ≤ clock.next) :
    Advances writes admits map { map with membership := { map.membership with clock } } where
  node := node
  rises := rises
  grows _ := Or.inl rfl
  comes _ _ held := Or.inl held

theorem Advances.update {membership : ORSet κ ν} {key : κ}
    (node : membership.clock.nodeId = map.clock.nodeId)
    (rises : map.clock.next ≤ membership.clock.next)
    (comes : admits key reg ∨
      writes key reg.value ∧ Issued map.clock membership.clock reg.timestamp) :
    Advances writes admits map
      { membership
        values := Function.update map.values key (some (reg.takeIn (map.values key))) } where
  node := node
  rises := rises
  grows := by
    intro key'
    by_cases here : key' = key
    · subst here
      simp only [Function.update_self, LWWRegister.takeIn_eq]
      cases map.values key' with
      | none => exact Or.inr ⟨reg, rfl, by simp⟩
      | some mine =>
        simp only [later]
        split
        next before =>
          refine Or.inr ⟨reg, rfl, ?_⟩
          rintro _ ⟨⟩
          exact before
        next after => exact Or.inl rfl
    · simp only [Function.update_of_ne here]
      exact Or.inl rfl
  comes := by
    intro key' reg' held
    by_cases here : key' = key
    · subst here
      simp only [Function.update_self, LWWRegister.takeIn_eq] at held
      rcases (later_spec held).1 with mine | theirs
      · exact Or.inl mine
      · cases theirs
        exact Or.inr comes
    · simp only [Function.update_of_ne here] at held
      exact Or.inl held

theorem Sound.update {membership : ORSet κ ν} {key : κ} (sound : map.Sound)
    (members : membership.Sound) (rises : map.clock.next ≤ membership.clock.next)
    (kept : ∀ key', key' ≠ key → key' ∈ map.membership.elements → key' ∈ membership.elements)
    (bound : reg.timestamp < membership.clock.next)
    (shown : ∀ reg', later LWWRegister.timestamp (map.values key) (some reg) = some reg' →
      reg'.value ≠ none → key ∈ membership.elements) :
    Sound
      { membership
        values := Function.update map.values key (some (reg.takeIn (map.values key))) } where
  members := members
  values := by
    intro key' reg' held
    by_cases here : key' = key
    · subst here
      simp only [Function.update_self, LWWRegister.takeIn_eq] at held
      rcases (later_spec held).1 with mine | theirs
      · exact (sound.values key' reg' mine).trans_le rises
      · cases theirs
        exact bound
    · simp only [Function.update_of_ne here] at held
      exact (sound.values key' reg' held).trans_le rises
  shown := by
    intro key' reg' held valued
    by_cases here : key' = key
    · subst here
      simp only [Function.update_self, LWWRegister.takeIn_eq] at held
      exact shown reg' held valued
    · simp only [Function.update_of_ne here] at held
      exact kept key' here (sound.shown key' reg' held valued)

/-! ### The operations -/

section Operations

variable {writes : κ → Option V → Prop} {admits : κ → LWWRegister V ν → Prop}

theorem create_sound (nodeId : ν) (now : Int) : (create nodeId now : CRDTCacheMap κ V ν).Sound where
  members := by
    constructor <;> simp [create, ORSet.create]
  values := by simp [create]
  shown := by simp [create]

theorem Sound.put (sound : map.Sound) (key : κ) (value : Option V) (now : Int) :
    (map.put key value now).2.Sound := by
  have member : ∀ key', key' ∈ (map.membership.add key now).2.elements ↔
      key' = key ∨ key' ∈ map.membership.elements := fun _ =>
    sound.members.mem_elements_add key now
  apply sound.update (sound.members.add key now) HybridLogicalClock.next_le_tick_next
  · intro key' other old
    exact (member key').mpr (Or.inr old)
  · exact HybridLogicalClock.tick_lt_next
  · intro reg' held valued
    exact (member key).mpr (Or.inl rfl)

theorem advances_put {value : Option V} (allowed : writes key value) (now : Int) :
    Advances writes admits map (map.put key value now).2 := by
  apply Advances.update
  · rfl
  · exact HybridLogicalClock.next_le_tick_next
  · exact Or.inr ⟨allowed, rfl, HybridLogicalClock.next_le_tick, HybridLogicalClock.tick_lt_next⟩

theorem remove_eq {existing : LWWRegister V ν} (found : map.values key = some existing) :
    (map.remove key now now').2 =
      { membership :=
          { (map.membership.remove key now).2 with
            clock := ((map.membership.remove key now).2.clock.tick now').2 }
        values := Function.update map.values key (some ((⟨none,
          ((map.membership.remove key now).2.clock.tick now').1⟩ : LWWRegister V ν).takeIn
            (map.values key))) } := by
  simp only [CRDTCacheMap.remove, found, LWWRegister.takeIn]

theorem Sound.remove (sound : map.Sound) (key : κ) (now now' : Int) :
    (map.remove key now now').2.Sound := by
  have first : map.clock.next ≤ (map.membership.remove key now).2.clock.next :=
    HybridLogicalClock.next_le_tick_next
  have members := sound.members.remove key now
  have kept : ∀ key', key' ≠ key → key' ∈ map.membership.elements →
      key' ∈ (map.membership.remove key now).2.elements := fun key' other member =>
    sound.members.mem_elements_remove key now other member
  cases found : map.values key with
  | none =>
    simp only [CRDTCacheMap.remove, found]
    refine ⟨members, fun key' reg held => (sound.values key' reg held).trans_le first, ?_⟩
    intro key' reg held valued
    have other : key' ≠ key := by
      rintro rfl
      rw [found] at held
      cases held
    exact kept key' other (sound.shown key' reg held valued)
  | some existing =>
    rw [remove_eq key now now' found]
    have second : (map.membership.remove key now).2.clock.next ≤
        ((map.membership.remove key now).2.clock.tick now').2.next :=
      HybridLogicalClock.next_le_tick_next
    have members' : ORSet.Sound { (map.membership.remove key now).2 with
        clock := ((map.membership.remove key now).2.clock.tick now').2 } :=
      members.withClock rfl second
    apply sound.update members' (first.trans second) kept HybridLogicalClock.tick_lt_next
    -- the tombstone is stamped after the register, which it replaces
    intro reg' held valued
    have before : existing.timestamp < ((map.membership.remove key now).2.clock.tick now').1 :=
      ((sound.values key existing found).trans_le first).trans_le HybridLogicalClock.next_le_tick
    rw [found] at held
    simp only [later, before, if_true, Option.some.injEq] at held
    rw [← held] at valued
    exact absurd rfl valued

theorem advances_remove (allowed : writes key none) (now now' : Int) :
    Advances writes admits map (map.remove key now now').2 := by
  have first : map.clock.next ≤ (map.membership.remove key now).2.clock.next :=
    HybridLogicalClock.next_le_tick_next
  cases found : map.values key with
  | none =>
    simp only [CRDTCacheMap.remove, found]
    exact ⟨rfl, first, fun _ => Or.inl rfl, fun _ _ held => Or.inl held⟩
  | some existing =>
    rw [remove_eq key now now' found]
    apply Advances.update
    · rfl
    · exact first.trans HybridLogicalClock.next_le_tick_next
    · exact Or.inr ⟨allowed, rfl, first.trans HybridLogicalClock.next_le_tick,
        HybridLogicalClock.tick_lt_next⟩

theorem member_spec (sound : map.Sound) (key : κ) (now : Int) :
    (if key ∈ map.membership.elements then map.membership
      else (map.membership.add key now).2).Sound ∧
    (if key ∈ map.membership.elements then map.membership
      else (map.membership.add key now).2).clock.nodeId = map.clock.nodeId ∧
    map.clock.next ≤ (if key ∈ map.membership.elements then map.membership
      else (map.membership.add key now).2).clock.next ∧
    ∀ key', key' ∈ (if key ∈ map.membership.elements then map.membership
      else (map.membership.add key now).2).elements ↔
        key' = key ∨ key' ∈ map.membership.elements := by
  split
  next member =>
    refine ⟨sound.members, rfl, le_rfl, fun key' => ⟨Or.inr, ?_⟩⟩
    rintro (rfl | old)
    · exact member
    · exact old
  next absent =>
    exact ⟨sound.members.add key now, rfl, HybridLogicalClock.next_le_tick_next,
      fun key' => sound.members.mem_elements_add key now⟩

theorem Sound.ingest (sound : map.Sound) (key : κ) (value : Option V) (ts : Timestamp ν)
    (now now' : Int) : (map.ingest key value ts now now').Sound := by
  obtain ⟨members, node, rises, member⟩ := member_spec sound key now
  apply sound.update (members.withClock HybridLogicalClock.observe_nodeId
    HybridLogicalClock.next_le_observe_next) (rises.trans HybridLogicalClock.next_le_observe_next)
  · intro key' other old
    exact (member key').mpr (Or.inr old)
  · exact HybridLogicalClock.observe_lt_next
  · intro reg' held valued
    exact (member key).mpr (Or.inl rfl)

theorem advances_ingest (sound : map.Sound) (key : κ) (value : Option V) (ts : Timestamp ν)
    (admitted : admits key ⟨value, ts⟩) (now now' : Int) :
    Advances writes admits map (map.ingest key value ts now now') := by
  obtain ⟨-, node, rises, -⟩ := member_spec sound key now
  apply Advances.update
  · exact node
  · exact rises.trans HybridLogicalClock.next_le_observe_next
  · exact Or.inl admitted

theorem ingest_covers : (map.ingest key value ts now now').Covers key ts := by
  simp only [Covers, CRDTCacheMap.ingest, Function.update_self, LWWRegister.takeIn_eq]
  cases found : map.values key with
  | none => exact ⟨_, rfl, le_rfl⟩
  | some mine =>
    simp only [later]
    split
    next before => exact ⟨_, rfl, le_rfl⟩
    next after => exact ⟨_, rfl, not_lt.mp after⟩

end Operations

end CRDTCacheMap

end DistLLM.Crdt
