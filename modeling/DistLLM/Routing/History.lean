import DistLLM.Routing.ConsistentHash

/-!
# Owners and histories

Two routers with the same nodes and weights have the same virtual nodes, but those with one hash
stand in the order in which their nodes were added. The owner of a key does not depend on the
history as long as no two nodes share the hash on which the key lands.
-/
namespace DistLLM.Routing

open DistLLM.Library DistLLM.Library.Clockwise

variable {ω : Type} {env : Env ω}

namespace ConsistentHashRouter

variable {r r' : ConsistentHashRouter ω} {key : String}

def SameNodes (r r' : ConsistentHashRouter ω) : Prop :=
  ∀ nodeId, r'.nodes.get? nodeId = r.nodes.get? nodeId

/-- The node has a virtual node at the hash on which the key lands. -/
def Contends (env : Env ω) (r : ConsistentHashRouter ω) (key nodeId : String) : Prop :=
  ∃ v, (v, nodeId) ∈ r.entries env ∧ Lands Prod.fst (env.hash key) (r.entries env) v

theorem lands_congr {xs ys : List (Nat × String)} {h v : Nat}
    (same : ∀ entry, entry ∈ xs ↔ entry ∈ ys) (lands : Lands Prod.fst h xs v) : Lands Prod.fst h ys v := by
  simpa only [Lands, same] using lands

theorem SameNodes.mem_entries (same : SameNodes r r') (entry : Nat × String) :
    entry ∈ r'.entries env ↔ entry ∈ r.entries env := by
  rw [ConsistentHashRouter.mem_entries, ConsistentHashRouter.mem_entries, same]

theorem owner_spec (sound : r.Sound env) {owner : String} (owned : r.getNode env key = .ok owner) :
    ∃ v, Lands Prod.fst (env.hash key) (r.entries env) v ∧
      ((r.entries env).filter fun entry => decide (entry.1 = v)).head? = some (v, owner) := by
  rw [getNode_eq sound.sorted] at owned
  split at owned
  next => cases owned
  next entry head =>
    cases owned
    obtain ⟨lands, first⟩ := sound.sorted.clockwise_head head
    rw [sound.tied] at first
    exact ⟨entry.1, lands_congr (fun _ => sound.mem_ring) lands, first⟩

variable {nodeId : String}

theorem owner_of_contends (sound : r.Sound env)
    (contends : r.Contends env key nodeId) : ∃ owner, r.getNode env key = .ok owner := by
  obtain ⟨v, member, _⟩ := contends
  rw [getNode_eq sound.sorted]
  cases around : (clockwise Prod.fst (env.hash key) r.ring).head? with
  | none =>
    have inside : (v, nodeId) ∈ clockwise Prod.fst (env.hash key) r.ring :=
      mem_clockwise.mpr (sound.mem_ring.mpr member)
    rw [List.head?_eq_none_iff.mp around] at inside
    cases inside
  | some entry => exact ⟨_, rfl⟩

theorem contends_owner (sound : r.Sound env) {owner : String}
    (owned : r.getNode env key = .ok owner) : r.Contends env key owner := by
  obtain ⟨v, lands, first⟩ := owner_spec sound owned
  obtain ⟨rest, same⟩ := List.head?_eq_some_iff.mp first
  have member : (v, owner) ∈ (r.entries env).filter fun entry => decide (entry.1 = v) := by
    simp [same]
  exact ⟨v, (List.mem_filter.mp member).1, lands⟩

theorem readded_loses (sound : r'.Sound env) {other : String} {weight : ω}
    {before : List (Nat × String)} (different : other ≠ nodeId)
    (entries : r'.entries env = before ++ virtualNodes env nodeId weight)
    (apart : ∀ entry ∈ before, entry.2 ≠ nodeId) (contends : r'.Contends env key other) :
    r'.getNode env key ≠ .ok nodeId := by
  intro owned
  obtain ⟨v, lands, first⟩ := owner_spec sound owned
  obtain ⟨v', member, lands'⟩ := contends
  obtain rfl := lands.unique lands'
  rw [entries, List.mem_append] at member
  have inside : (v, other) ∈ before := member.resolve_right fun late =>
    different (snd_of_mem_virtualNodes late)
  rw [entries, List.filter_append, List.head?_append] at first
  cases found : (before.filter fun entry => decide (entry.1 = v)).head? with
  | none =>
    have empty := List.filter_eq_nil_iff.mp (List.head?_eq_none_iff.mp found) _ inside
    simp at empty
  | some entry =>
    rw [found] at first
    cases first
    obtain ⟨rest, same⟩ := List.head?_eq_some_iff.mp found
    have early : (v, nodeId) ∈ before.filter fun entry => decide (entry.1 = v) := by simp [same]
    exact apart _ (List.mem_filter.mp early).1 rfl

theorem SameNodes.contends (same : SameNodes r r') :
    r'.Contends env key nodeId ↔ r.Contends env key nodeId := by
  simp only [Contends, Lands, same.mem_entries]

theorem getNode_error (sound : r.Sound env) (none : ∀ nodeId, ¬ r.Contends env key nodeId) :
    r.getNode env key = .error .noNodes := by
  cases owned : r.getNode env key with
  | ok owner => exact absurd (contends_owner sound owned) (none owner)
  | error raised =>
    rw [getNode] at owned
    split at owned <;> cases owned
    rfl

theorem exists_readded (reached : (machine env).Reachable r) {weight : ω}
    (found : r.nodes.get? nodeId = some weight) :
    ∃ r' before, (machine env).Reachable r' ∧ SameNodes r r' ∧
      r'.entries env = before ++ virtualNodes env nodeId weight ∧
        ∀ entry ∈ before, entry.2 ≠ nodeId := by
  have positive := (sound_of_reachable reached).positive nodeId weight found
  have removed : ∃ mid, r.removeNode nodeId = .ok mid := ⟨_, by simp [removeNode, found]; rfl⟩
  obtain ⟨mid, removed⟩ := removed
  have absent : mid.nodes.get? nodeId = none := by
    rw [removeNode_ok removed, Dict.get?_filterKeys]
    simp
  have added : ∃ r', mid.addNode env nodeId weight = .ok r' := by
    simp [addNode, absent, positive]
  obtain ⟨r', added⟩ := added
  have path : (machine env).Reachable r' := by
    have first := reached.step (.removeNode nodeId) trivial trivial
    have second := first.step (.addNode nodeId weight) trivial trivial
    simpa [machine, exec, removed, added, Except.toOption] using second
  obtain ⟨_, rfl⟩ := addNode_ok added
  refine ⟨_, mid.entries env, path, fun other => ?_, ?_, fun entry member => ?_⟩
  · rw [Dict.get?_set, removeNode_ok removed, Dict.get?_filterKeys]
    by_cases here : nodeId = other
    · simp [← here, found]
    · simp [here, Ne.symm here]
  · simp [entries, Dict.entries_set_of_absent _ _ _ absent]
  · rintro rfl
    obtain ⟨_, found', _⟩ := mem_entries.mp member
    rw [absent] at found'
    cases found'

/-- **Owners and ties.** All histories that leave the nodes and weights of a ring reached agree on
the owner of every key if and only if no two nodes contend for a key. -/
theorem owner_determined (reached : (machine env).Reachable r) :
    (∀ r', (machine env).Reachable r' → SameNodes r r' → ∀ key,
      r'.getNode env key = r.getNode env key) ↔
    ∀ key nodeId nodeId', r.Contends env key nodeId → r.Contends env key nodeId' →
      nodeId = nodeId' := by
  have sound := sound_of_reachable reached
  constructor
  · intro agree key
    -- another contender than the owner would win if the owner came last
    have only (owner : String) (owned : r.getNode env key = .ok owner) (other : String)
        (contends : r.Contends env key other) : other = owner := by
      by_contra different
      obtain ⟨v, member, _⟩ := contends_owner sound owned
      obtain ⟨weight, found, _⟩ := mem_entries.mp member
      obtain ⟨r', before, reached', same, entries, apart⟩ := exists_readded reached found
      exact readded_loses (sound_of_reachable reached') different entries apart
        (same.contends.mpr contends) ((agree r' reached' same key).trans owned)
    intro nodeId nodeId' contends contends'
    obtain ⟨owner, owned⟩ := owner_of_contends sound contends
    rw [only owner owned nodeId contends, only owner owned nodeId' contends']
  · intro alone r' reached' same key
    have sound' := sound_of_reachable reached'
    by_cases some : ∃ nodeId, r.Contends env key nodeId
    · obtain ⟨nodeId, contends⟩ := some
      obtain ⟨owner, owned⟩ := owner_of_contends sound contends
      obtain ⟨owner', owned'⟩ := owner_of_contends sound' (same.contends.mpr contends)
      rw [owned, owned', alone key owner' owner (same.contends.mp (contends_owner sound' owned'))
        (contends_owner sound owned)]
    · have none := not_exists.mp some
      rw [getNode_error sound none, getNode_error sound' fun nodeId contends =>
        none nodeId (same.contends.mp contends)]

/-- Two nodes with virtual nodes at different hashes. -/
theorem owner_determined_two : ∃ r : ConsistentHashRouter Nat, r.nodes.keys = ["a", "b"] ∧
      ∀ r', (machine threeHashes).Reachable r' → SameNodes r r' → ∀ key,
        r'.getNode threeHashes key = r.getNode threeHashes key := by
  have reached : (machine threeHashes).Reachable _ :=
    .of_follows (.init rfl) [.addNode "a" 1, .addNode "b" 1]
      ⟨trivial, trivial, trivial, trivial, trivial⟩
  refine ⟨_, by decide, (owner_determined reached).mpr
    fun key nodeId nodeId' contends contends' => ?_⟩
  obtain ⟨v, member, lands⟩ := contends
  obtain ⟨v', member', lands'⟩ := contends'
  obtain rfl := lands.unique lands'
  rcases List.mem_pair.mp member with same | same <;>
    rcases List.mem_pair.mp member' with same' | same' <;> cases same <;> cases same' <;> rfl

/-- Two nodes with one virtual node each, both at the hash that the texts "n47651:0" and "n73991:0"
share: the node added first owns every key. -/
theorem order_decides :
    ∃ env : Env Nat, ¬ ∀ r r' : ConsistentHashRouter Nat, (machine env).Reachable r →
      (machine env).Reachable r' → SameNodes r r' → ∀ key,
        r'.getNode env key = r.getNode env key := by
  refine ⟨⟨fun _ => 2843627079, fun weight => decide (0 < weight), fun weight => weight⟩,
    fun all => ?_⟩
  have first := all _ _
    (.of_follows (.init rfl) [.addNode "n47651" 1, .addNode "n73991" 1]
      ⟨trivial, trivial, trivial, trivial, trivial⟩)
    (.of_follows (.init rfl) [.addNode "n73991" 1, .addNode "n47651" 1]
      ⟨trivial, trivial, trivial, trivial, trivial⟩)
    (fun nodeId => by
      show Dict.lookupEntries nodeId [("n73991", 1), ("n47651", 1)] =
        Dict.lookupEntries nodeId [("n47651", 1), ("n73991", 1)]
      simp only [Dict.lookupEntries]
      split <;> split <;> rfl) "k"
  exact absurd first (by decide)

end ConsistentHashRouter

end DistLLM.Routing
