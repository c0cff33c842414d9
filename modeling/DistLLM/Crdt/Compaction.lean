import DistLLM.Crdt.CacheMap
import Mathlib.Data.Finset.Card
import Mathlib.Data.Finset.Fold

/-!
# Compaction of tombstones

`prune` drops a tombstone when its node has added the element again with a greater counter. The add
that the tombstone is for stays where it is, so a tag that loses its last tombstone is alive again:
compaction is invisible exactly where every element with such a tag is present anyhow.
-/
namespace DistLLM.Crdt

variable {κ ν ι : Type} [DecidableEq κ] [LinearOrder ν]

namespace ORSet

/-- The latest counter with which a node has added an element, as `latest_add.get(.., -1)`. -/
def latestAdd (set : ORSet κ ν) (elem : κ) (nodeId : ν) : Int :=
  (set.adds.filter fun pair => pair.1 = elem ∧ pair.2.nodeId = nodeId).fold max (-1)
    fun pair => pair.2.counter

def kept (set : ORSet κ ν) : Finset (κ × Timestamp ν) :=
  set.removes.filter fun pair => set.latestAdd pair.1 pair.2.nodeId ≤ pair.2.counter

/-- `prune`, with the number of tombstones removed. -/
def prune (set : ORSet κ ν) : Nat × ORSet κ ν :=
  (set.removes.card - set.kept.card, { set with removes := set.kept })

/-- The tag has tombstones, and the rule drops all of them. -/
def Released (set : ORSet κ ν) (tag : Timestamp ν) : Prop :=
  tag ∈ set.removedTags ∧
    ∀ elem, (elem, tag) ∈ set.removes → tag.counter < set.latestAdd elem tag.nodeId

/-- The element has an add in one of two sets that neither of them has tombstoned. -/
def LiveIn (set other : ORSet κ ν) (elem : κ) : Prop :=
  ∃ tag, (elem, tag) ∈ set.adds ∪ other.adds ∧ tag ∉ set.removedTags ∧ tag ∉ other.removedTags

variable {set other : ORSet κ ν} {elem : κ} {tag : Timestamp ν}

@[simp] theorem prune_adds : set.prune.2.adds = set.adds := rfl

omit [DecidableEq κ] in
theorem mem_removedTags : tag ∈ set.removedTags ↔ ∃ elem, (elem, tag) ∈ set.removes := by
  simp [removedTags]

theorem mem_prune_removedTags :
    tag ∈ set.prune.2.removedTags ↔ tag ∈ set.removedTags ∧ ¬ set.Released tag := by
  simp only [mem_removedTags, prune, kept, Finset.mem_filter, Released, not_and, not_forall,
    not_lt]
  constructor
  · rintro ⟨elem, removed, late⟩
    exact ⟨⟨elem, removed⟩, fun _ => ⟨elem, removed, late⟩⟩
  · rintro ⟨tombstoned, stays⟩
    obtain ⟨elem, removed, late⟩ := stays tombstoned
    exact ⟨elem, removed, late⟩

theorem mem_elements_iff_liveIn (clock : HybridLogicalClock ν) :
    elem ∈ set.elements ↔ set.LiveIn { clock } elem := by
  simp [ORSet.mem_elements, LiveIn, mem_removedTags]

theorem mem_elements_merge (order : List (κ × Timestamp ν)) (readings : Nat → Int) :
    elem ∈ (set.merge other order readings).elements ↔ set.LiveIn other elem := by
  simp [ORSet.mem_elements, merge, LiveIn, mem_removedTags, forall_and]

theorem liveIn_comm (set other : ORSet κ ν) : set.LiveIn other elem ↔ other.LiveIn set elem := by
  simp only [LiveIn, Finset.union_comm set.adds, and_comm (a := _ ∉ set.removedTags)]

theorem liveIn_prune : set.prune.2.LiveIn other elem ↔ set.LiveIn other elem ∨
    ∃ tag, (elem, tag) ∈ set.adds ∪ other.adds ∧ set.Released tag ∧ tag ∉ other.removedTags := by
  simp only [LiveIn, prune_adds, mem_prune_removedTags, not_and, not_not]
  constructor
  · rintro ⟨tag, added, dropped, alive⟩
    by_cases tombstoned : tag ∈ set.removedTags
    · exact .inr ⟨tag, added, dropped tombstoned, alive⟩
    · exact .inl ⟨tag, added, tombstoned, alive⟩
  · rintro (⟨tag, added, fresh, alive⟩ | ⟨tag, added, released, alive⟩)
    · exact ⟨tag, added, fun tombstoned => absurd tombstoned fresh, alive⟩
    · exact ⟨tag, added, fun _ => released, alive⟩

/-- Every element that has a tag released by the compaction, and not tombstoned in the other set, is
an element of both sets together. -/
def Covered (set other : ORSet κ ν) : Prop :=
  ∀ elem tag, (elem, tag) ∈ set.adds ∪ other.adds → set.Released tag → tag ∉ other.removedTags →
    set.LiveIn other elem

theorem liveIn_prune_iff (set other : ORSet κ ν) :
    (∀ elem, set.prune.2.LiveIn other elem ↔ set.LiveIn other elem) ↔ set.Covered other := by
  simp only [Covered, liveIn_prune, or_iff_left_iff_imp]
  constructor
  · exact fun none elem tag added released alive => none elem ⟨tag, added, released, alive⟩
  · rintro there elem ⟨tag, added, released, alive⟩
    exact there elem tag added released alive

theorem prune_elements_iff : set.prune.2.elements = set.elements ↔
    ∀ elem tag, (elem, tag) ∈ set.adds → set.Released tag → elem ∈ set.elements := by
  have alone := liveIn_prune_iff set { clock := set.clock }
  simpa [Finset.ext_iff, Covered, mem_elements_iff_liveIn set.clock, mem_removedTags] using alone

theorem merge_prune_elements_iff (order : List (κ × Timestamp ν)) (readings : Nat → Int) :
    (set.prune.2.merge other order readings).elements = (set.merge other order readings).elements ↔
      set.Covered other := by
  simp only [Finset.ext_iff, mem_elements_merge]
  exact liveIn_prune_iff set other

theorem merge_into_prune_elements_iff (order order' : List (κ × Timestamp ν))
    (readings readings' : Nat → Int) : (other.merge set.prune.2 order readings).elements =
      (other.merge set order' readings').elements ↔ set.Covered other := by
  simp only [Finset.ext_iff, mem_elements_merge, liveIn_comm other]
  exact liveIn_prune_iff set other

end ORSet

/-- What replicas do, each with the readings of the wall clock that it takes. -/
inductive SetEvent (ι κ ν : Type)
  | add (i : ι) (elem : κ) (now : Int)
  | remove (i : ι) (elem : κ) (now : Int)
  /-- The replica `i` merges the replica `j`. -/
  | merge (i j : ι) (order : List (κ × Timestamp ν)) (readings : Nat → Int)
  | prune (i : ι)

namespace SetEvent

variable [DecidableEq ι]

def exec (sets : ι → ORSet κ ν) : SetEvent ι κ ν → ι → ORSet κ ν
  | .add i elem now => Function.update sets i ((sets i).add elem now).2
  | .remove i elem now => Function.update sets i ((sets i).remove elem now).2
  | .merge i j order readings => Function.update sets i ((sets i).merge (sets j) order readings)
  | .prune i => Function.update sets i (sets i).prune.2

/-- The replicas after a run from new ones, with any nodes and any wall clocks. -/
def run (nodeIds : ι → ν) (readings : ι → Int) (events : List (SetEvent ι κ ν)) : ι → ORSet κ ν :=
  events.foldl exec fun i => ORSet.create (nodeIds i) (readings i)

/-- **When compaction is invisible.** In every state of every run, and for every replica that a later
state holds: the elements of a replica, and those of a merge with the other one in either direction,
are what they are without the compaction iff every element with a released tag is there anyhow. -/
theorem prune_invisible_iff (nodeIds : ι → ν) (clocks : ι → Int)
    (events later : List (SetEvent ι κ ν)) (i j : ι) (order order' : List (κ × Timestamp ν))
    (readings readings' : Nat → Int) :
    let set := run nodeIds clocks events i
    let other := run nodeIds clocks (events ++ .prune i :: later) j
    (set.prune.2.elements = set.elements ∧
      (set.prune.2.merge other order readings).elements =
        (set.merge other order readings).elements ∧
      (other.merge set.prune.2 order readings).elements =
        (other.merge set order' readings').elements) ↔
      (∀ elem tag, (elem, tag) ∈ set.adds → set.Released tag → elem ∈ set.elements) ∧
        set.Covered other := by
  intro set other
  rw [ORSet.prune_elements_iff, ORSet.merge_prune_elements_iff, ORSet.merge_into_prune_elements_iff,
    and_self]

/-- An element added twice and removed comes back: its second tag drops the tombstone of the first
one, which is still in the add-set. -/
theorem prune_resurrects :
    let set := run (fun _ : Unit => 0) (fun _ => 100)
      [.add () 7 100, .add () 7 100, .remove () 7 100] ()
    set.elements = (∅ : Finset Nat) ∧ set.prune.2.elements = {7} := by
  decide

end SetEvent

end DistLLM.Crdt
