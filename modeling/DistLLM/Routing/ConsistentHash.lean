import DistLLM.Library.Clockwise
import DistLLM.Library.Dict
import DistLLM.Library.Machine

/-!
# Consistent hashing

The router of keys to nodes over a ring of virtual nodes: adding and removing nodes, and the nodes
of a key. The ring is a list sorted by hash, searched by halving.
-/
namespace DistLLM.Routing

open DistLLM.Library DistLLM.Library.Clockwise

/-- `ω` are the weights. `hash` is the first four bytes of the MD5 digest of a text, `scaled` is
`int(virtual_node_count * weight)` in floating point, of finite weights: for others `int` raises,
when the node is in `_nodes` already. -/
structure Env (ω : Type) where
  hash : String → Nat
  positive : ω → Bool
  scaled : ω → Int

inductive Raised
  /-- `ValueError`: Node {node_id!r} already exists -/
  | alreadyExists (nodeId : String)
  /-- `ValueError`: Weight must be positive, got {weight} -/
  | notPositive
  /-- `ValueError`: Node {node_id!r} not found -/
  | notFound (nodeId : String)
  /-- `RuntimeError`: No nodes registered in the hash ring -/
  | noNodes
  deriving DecidableEq

structure ConsistentHashRouter (ω : Type) where
  ring : List (Nat × String) := []
  nodes : Dict String ω := ∅

variable {ω : Type} (env : Env ω)

def virtualNodes (nodeId : String) (weight : ω) : List (Nat × String) :=
  (List.range (max 1 (env.scaled weight)).toNat).map fun i =>
    (env.hash (nodeId ++ ":" ++ toString i), nodeId)

namespace ConsistentHashRouter

variable (r : ConsistentHashRouter ω)

def addNode (nodeId : String) (weight : ω) : Except Raised (ConsistentHashRouter ω) :=
  if (r.nodes.get? nodeId).isSome then .error (.alreadyExists nodeId)
  else if !env.positive weight then .error .notPositive
  else .ok
    { nodes := r.nodes.set nodeId weight
      ring := sort Prod.fst (r.ring ++ virtualNodes env nodeId weight) }

def removeNode (nodeId : String) : Except Raised (ConsistentHashRouter ω) :=
  if (r.nodes.get? nodeId).isNone then .error (.notFound nodeId)
  else .ok
    { nodes := r.nodes.filterKeys fun n => decide (n ≠ nodeId)
      ring := r.ring.filter fun entry => decide (entry.2 ≠ nodeId) }

/-- The loop of `_find_ge`; the fuel bounds its rounds. -/
def findGeLoop (ring : List (Nat × String)) (h : Nat) : Nat → (lo hi : Nat) → Nat
  | 0, lo, _ => lo
  | fuel + 1, lo, hi =>
    if lo < hi then
      let mid := (lo + hi) / 2
      match ring[mid]? with
      | none => lo
      | some entry =>
        if entry.1 < h then findGeLoop ring h fuel (mid + 1) hi else findGeLoop ring h fuel lo mid
    else lo

def findGe (h : Nat) : Nat := findGeLoop r.ring h r.ring.length 0 r.ring.length % r.ring.length

def getNode (key : String) : Except Raised String :=
  match r.ring[r.findGe (env.hash key)]? with
  | none => .error .noNodes
  | some entry => .ok entry.2

/-- The walk of `get_nodes` over node ids; `result` are those seen. -/
def walk (count : Int) : (result : List String) → List String → List String
  | result, [] => result
  | result, nodeId :: rest =>
    if nodeId ∈ result then walk count result rest
    else if count ≤ (result ++ [nodeId]).length then result ++ [nodeId]
    else walk count (result ++ [nodeId]) rest

def getNodes (key : String) (count : Int) : Except Raised (List String) :=
  if r.ring = [] then .error .noNodes
  else .ok (walk count [] ((r.ring.rotate (r.findGe (env.hash key))).map Prod.snd))

end ConsistentHashRouter

inductive Action (ω : Type)
  | addNode (nodeId : String) (weight : ω)
  | removeNode (nodeId : String)

/-- A call that raises leaves the router as it is. -/
def exec (r : ConsistentHashRouter ω) : Action ω → ConsistentHashRouter ω
  | .addNode nodeId weight => (r.addNode env nodeId weight).toOption.getD r
  | .removeNode nodeId => (r.removeNode nodeId).toOption.getD r

def machine : Machine (ConsistentHashRouter ω) (Action ω) where
  init r := r = {}
  enabled _ _ := True
  exec := exec env

/-! ### Rings that are well formed -/

namespace ConsistentHashRouter

/-- The virtual nodes of the nodes registered, in the order of registration. -/
def entries (r : ConsistentHashRouter ω) : List (Nat × String) :=
  r.nodes.entries.flatMap fun node => virtualNodes env node.1 node.2

/-- The ring is sorted, and entries with one hash are in the order of registration. -/
structure Sound (r : ConsistentHashRouter ω) : Prop where
  sorted : Sorted Prod.fst r.ring
  tied : ∀ v, (r.ring.filter fun entry => decide (entry.1 = v)) =
    (r.entries env).filter fun entry => decide (entry.1 = v)
  positive : ∀ nodeId weight, r.nodes.get? nodeId = some weight → env.positive weight = true

variable {env} {r r' : ConsistentHashRouter ω} {nodeId : String} {entry : Nat × String} {weight : ω}

theorem snd_of_mem_virtualNodes
    (member : entry ∈ virtualNodes env nodeId weight) : entry.2 = nodeId := by
  obtain ⟨i, _, rfl⟩ := List.mem_map.mp member
  rfl

theorem Sound.mem_ring (sound : r.Sound env) :
    entry ∈ r.ring ↔ entry ∈ r.entries env := by
  have same := congrArg (entry ∈ ·) (sound.tied entry.1)
  simpa using same

theorem mem_entries : entry ∈ r.entries env ↔
      ∃ weight, r.nodes.get? entry.2 = some weight ∧ entry ∈ virtualNodes env entry.2 weight := by
  simp only [entries, List.mem_flatMap, Prod.exists, Dict.mem_entries_iff]
  constructor
  · rintro ⟨nodeId, weight, found, member⟩
    obtain rfl := snd_of_mem_virtualNodes member
    exact ⟨weight, found, member⟩
  · rintro ⟨weight, found, member⟩
    exact ⟨_, weight, found, member⟩

theorem registered_iff (sound : r.Sound env) :
    nodeId ∈ r.ring.map Prod.snd ↔ nodeId ∈ r.nodes.keys := by
  simp only [List.mem_map, sound.mem_ring, mem_entries, Dict.mem_keys_iff]
  constructor
  · rintro ⟨entry, ⟨weight, found, _⟩, rfl⟩
    exact ⟨weight, found⟩
  · rintro ⟨weight, found⟩
    refine ⟨(env.hash (nodeId ++ ":" ++ toString 0), nodeId), ⟨weight, found, ?_⟩, rfl⟩
    exact List.mem_map.mpr ⟨0, List.mem_range.mpr (by omega), rfl⟩

theorem addNode_ok (added : r.addNode env nodeId weight = .ok r') :
    (r.nodes.get? nodeId = none ∧ env.positive weight = true) ∧
      r' = { nodes := r.nodes.set nodeId weight
             ring := sort Prod.fst (r.ring ++ virtualNodes env nodeId weight) } := by
  simp only [addNode] at added
  split at added
  next => cases added
  next absent =>
    split at added <;> cases added
    next positive => exact ⟨⟨by simpa using absent, by simpa using positive⟩, rfl⟩

theorem removeNode_ok (removed : r.removeNode nodeId = .ok r') :
    r' = { nodes := r.nodes.filterKeys fun n => decide (n ≠ nodeId)
           ring := r.ring.filter fun entry => decide (entry.2 ≠ nodeId) } := by
  simp only [removeNode] at removed
  split at removed <;> cases removed
  rfl

theorem Sound.addNode (sound : r.Sound env)
    (added : r.addNode env nodeId weight = .ok r') : r'.Sound env := by
  obtain ⟨⟨absent, positive⟩, rfl⟩ := addNode_ok added
  refine ⟨sort_sorted, fun v => ?_, fun other weight' found => ?_⟩
  case refine_2 =>
    rw [Dict.get?_set] at found
    split at found
    · cases found
      exact positive
    · exact sound.positive other weight' found
  have equal : Sorted Prod.fst ((r.ring ++ virtualNodes env nodeId weight).filter fun entry =>
      decide (entry.1 = v)) :=
    sorted_of_eq fun entry member => by simpa using (List.mem_filter.mp member).2
  rw [sort_filter equal, List.filter_append, sound.tied v]
  simp [entries, Dict.entries_set_of_absent _ _ _ absent]

theorem Sound.ring_of_addNode (sound : r.Sound env) (added : r.addNode env nodeId weight = .ok r') :
    r.ring = r'.ring.filter fun entry => decide (entry.2 ≠ nodeId) := by
  obtain ⟨⟨absent, _⟩, rfl⟩ := addNode_ok added
  have old : r.ring.filter (fun entry => decide (entry.2 ≠ nodeId)) = r.ring := by
    refine List.filter_eq_self.mpr fun entry member => ?_
    obtain ⟨weight', found, _⟩ := mem_entries.mp (sound.mem_ring.mp member)
    have other : entry.2 ≠ nodeId := by
      rintro rfl
      rw [absent] at found
      cases found
    simpa using other
  have new : (virtualNodes env nodeId weight).filter
      (fun entry => decide (entry.2 ≠ nodeId)) = [] :=
    List.filter_eq_nil_iff.mpr fun entry member => by simp [snd_of_mem_virtualNodes member]
  have kept : (r.ring ++ virtualNodes env nodeId weight).filter
      (fun entry => decide (entry.2 ≠ nodeId)) = r.ring := by
    rw [List.filter_append, old, new, List.append_nil]
  rw [sort_filter (by rw [kept]; exact sound.sorted), kept]

theorem entries_filter (nodeId : String) :
    (r.entries env).filter (fun entry => decide (entry.2 ≠ nodeId)) =
      (r.nodes.filterKeys fun n => decide (n ≠ nodeId)).entries.flatMap fun node =>
        virtualNodes env node.1 node.2 := by
  simp only [entries, Dict.filterKeys]
  induction r.nodes.entries with
  | nil => rfl
  | cons node rest ih =>
    rw [List.flatMap_cons, List.filter_append, ih]
    by_cases here : node.1 = nodeId
    · rw [List.filter_cons_of_neg (by simp [here]), List.filter_eq_nil_iff.mpr, List.nil_append]
      intro entry member
      simp [snd_of_mem_virtualNodes member, here]
    · rw [List.filter_cons_of_pos (by simp [here]), List.flatMap_cons, List.filter_eq_self.mpr]
      intro entry member
      simp [snd_of_mem_virtualNodes member, here]

theorem Sound.removeNode (sound : r.Sound env)
    (removed : r.removeNode nodeId = .ok r') : r'.Sound env := by
  obtain rfl := removeNode_ok removed
  refine ⟨List.Pairwise.filter _ sound.sorted, fun v => ?_, fun other weight' found => ?_⟩
  case refine_2 =>
    rw [Dict.get?_filterKeys] at found
    split at found
    · exact sound.positive other weight' found
    · cases found
  have tied := congrArg (List.filter fun entry => decide (entry.2 ≠ nodeId)) (sound.tied v)
  simp only [List.filter_filter, Bool.and_comm] at tied
  rw [entries, ← entries_filter, List.filter_filter, List.filter_filter]
  simpa only [Bool.and_comm] using tied

theorem sound_of_reachable (reached : (machine env).Reachable r) : r.Sound env := by
  apply Machine.Reaches.invariant (I := fun r => r.Sound env) _ _ reached
  · rintro r rfl
    exact ⟨List.Pairwise.nil, fun _ => rfl, fun _ _ found => by cases found⟩
  · intro r act sound _ _
    cases act with
    | addNode nodeId weight =>
      show Sound env ((r.addNode env nodeId weight).toOption.getD r)
      cases added : r.addNode env nodeId weight with
      | error _ => exact sound
      | ok r' => exact sound.addNode added
    | removeNode nodeId =>
      show Sound env ((r.removeNode nodeId).toOption.getD r)
      cases removed : r.removeNode nodeId with
      | error _ => exact sound
      | ok r' => exact sound.removeNode removed

variable {ring : List (Nat × String)} {h : Nat} {key : String}

theorem lt_iff_of_getElem? (sorted : Sorted Prod.fst ring) {i : Nat}
    (found : ring[i]? = some entry) :
    entry.1 < h ↔ i < (ring.filter fun e => decide (e.1 < h)).length := by
  rw [← sorted.split (h := h), List.getElem?_append] at found
  split at found
  next inside =>
    have member := List.mem_filter.mp (List.mem_of_getElem? found)
    exact iff_of_true (by simpa using member.2) inside
  next outside =>
    have member := List.mem_filter.mp (List.mem_of_getElem? found)
    exact iff_of_false (by simpa using member.2) outside

theorem findGeLoop_eq (sorted : Sorted Prod.fst ring) {fuel lo hi : Nat} (enough : hi - lo ≤ fuel)
    (from_lo : lo ≤ (ring.filter fun e => decide (e.1 < h)).length)
    (to_hi : (ring.filter fun e => decide (e.1 < h)).length ≤ hi) (inside : hi ≤ ring.length) :
    findGeLoop ring h fuel lo hi = (ring.filter fun e => decide (e.1 < h)).length := by
  induction fuel generalizing lo hi with
  | zero =>
    rw [findGeLoop]
    omega
  | succ fuel ih =>
    rw [findGeLoop]
    split
    next some =>
      have valid : (lo + hi) / 2 < ring.length := by omega
      have half := lt_iff_of_getElem? (h := h) sorted (List.getElem?_eq_getElem valid)
      simp only [List.getElem?_eq_getElem valid]
      split
      next before => exact ih (by omega) (by omega) to_hi inside
      next after => exact ih (by omega) from_lo (by omega) (by omega)
    next => omega

theorem rotate_findGe (sorted : Sorted Prod.fst r.ring) :
    r.ring.rotate (r.findGe h) = clockwise Prod.fst h r.ring := by
  have split := sorted.split (h := h)
  rw [findGe, findGeLoop_eq sorted (by omega) (Nat.zero_le _) (List.length_filter_le ..) le_rfl,
    List.rotate_mod]
  nth_rewrite 1 [← split]
  exact List.rotate_append_length_eq ..

theorem getNode_eq (sorted : Sorted Prod.fst r.ring) :
    r.getNode env key = match (clockwise Prod.fst (env.hash key) r.ring).head? with
      | none => .error .noNodes
      | some entry => .ok entry.2 := by
  rw [← rotate_findGe sorted, getNode]
  by_cases empty : r.ring = []
  · simp [empty]
  · have inside : r.findGe (env.hash key) < r.ring.length :=
      Nat.mod_lt _ (List.length_pos_of_ne_nil empty)
    rw [List.head?_rotate inside]

theorem getNode_filter (sorted : Sorted Prod.fst r.ring)
    (fewer : r'.ring = r.ring.filter fun entry => decide (entry.2 ≠ nodeId)) :
    r.getNode env key = .ok nodeId ∨ r'.getNode env key = r.getNode env key := by
  have sorted' : Sorted Prod.fst r'.ring := fewer ▸ List.Pairwise.filter _ sorted
  rw [getNode_eq sorted, getNode_eq sorted', fewer, clockwise_filter]
  cases clockwise Prod.fst (env.hash key) r.ring with
  | nil => exact .inr rfl
  | cons entry rest =>
    by_cases here : entry.2 = nodeId
    · exact .inl (by simp [here])
    · exact .inr (by rw [List.filter_cons_of_pos (by simp [here])]; rfl)

/-- The walk without a bound. -/
def distinct : (result : List String) → List String → List String
  | result, [] => result
  | result, nodeId :: rest =>
    if nodeId ∈ result then distinct result rest else distinct (result ++ [nodeId]) rest

theorem prefix_distinct (result ids : List String) : result <+: distinct result ids := by
  induction ids generalizing result with
  | nil => exact List.prefix_refl _
  | cons nodeId rest ih =>
    rw [distinct]
    split
    · exact ih result
    · exact (List.prefix_append _ _).trans (ih _)

variable {result ids : List String}

theorem mem_distinct :
    nodeId ∈ distinct result ids ↔ nodeId ∈ result ∨ nodeId ∈ ids := by
  induction ids generalizing result with
  | nil => simp [distinct]
  | cons first rest ih =>
    rw [distinct]
    split
    next seen =>
      rw [ih, List.mem_cons]
      exact ⟨fun either => either.imp_right .inr, fun either => either.elim .inl fun later =>
        later.elim (fun here => .inl (here ▸ seen)) .inr⟩
    next => rw [ih, List.mem_append, List.mem_singleton, List.mem_cons, or_assoc]

theorem nodup_distinct (once : result.Nodup) :
    (distinct result ids).Nodup := by
  induction ids generalizing result with
  | nil => exact once
  | cons nodeId rest ih =>
    rw [distinct]
    split
    next => exact ih once
    next new => exact ih (once.append (List.nodup_singleton _) (by simpa using new))

theorem walk_eq {count : Nat} (short : result.length < count) :
    walk count result ids = (distinct result ids).take count := by
  induction ids generalizing result with
  | nil => exact (List.take_of_length_le short.le).symm
  | cons nodeId rest ih =>
    rw [walk, distinct]
    split
    next => exact ih short
    next new =>
      split
      next full =>
        -- the list has just reached its length
        have length : (result ++ [nodeId]).length = count := by
          simp only [List.length_append, List.length_singleton] at full ⊢
          omega
        have first := prefix_distinct (result ++ [nodeId]) rest
        rw [List.prefix_iff_eq_take, length] at first
        exact first
      next more => exact ih (by omega)

theorem getNodes_eq (sorted : Sorted Prod.fst r.ring) (some : r.ring ≠ []) (key : String)
    {count : Nat} (positive : 0 < count) : r.getNodes env key count =
      .ok ((distinct [] ((clockwise Prod.fst (env.hash key) r.ring).map Prod.snd)).take count) := by
  rw [getNodes, if_neg some, rotate_findGe sorted, walk_eq positive]

/-- The first of the nodes is the node of the key, they are distinct, as many as asked for or all,
and fewer nodes are a prefix of them. -/
def Replicas (env : Env ω) (r : ConsistentHashRouter ω) (key : String) (count : Nat) : Prop :=
  ∃ ids, r.getNodes env key count = .ok ids ∧ ids.Nodup ∧ (∀ id ∈ ids, id ∈ r.nodes.keys) ∧
    ids.length = min count r.nodes.size ∧ (∃ first, r.getNode env key = .ok first ∧
      ids.head? = some first) ∧
    ∀ fewer, 0 < fewer → fewer < count → ∃ ids', r.getNodes env key fewer = .ok ids' ∧ ids' <+: ids

theorem replicas (sound : r.Sound env) (some : r.ring ≠ []) (key : String) {count : Nat}
    (positive : 0 < count) : r.Replicas env key count := by
  have lookup (n : Nat) (positive : 0 < n) : r.getNodes env key n = _ :=
    getNodes_eq sound.sorted some key positive
  have node : r.getNode env key = _ := getNode_eq sound.sorted
  have members (id : String) :
      id ∈ (clockwise Prod.fst (env.hash key) r.ring).map Prod.snd ↔ id ∈ r.nodes.keys := by
    rw [← registered_iff sound]
    simp only [List.mem_map, mem_clockwise]
  generalize clockwise Prod.fst (env.hash key) r.ring = around at lookup node members
  have once : (distinct [] (around.map Prod.snd)).Nodup := nodup_distinct List.nodup_nil
  have all (id : String) : id ∈ distinct [] (around.map Prod.snd) ↔ id ∈ r.nodes.keys := by
    rw [mem_distinct, members]
    simp
  have size : (distinct [] (around.map Prod.snd)).length = r.nodes.size := by
    rw [((List.perm_ext_iff_of_nodup once r.nodes.distinct).mpr all).length_eq]
    exact List.length_map ..
  refine ⟨_, lookup count positive, once.sublist (List.take_sublist ..),
    fun id member => (all id).mp (List.mem_of_mem_take member), by rw [List.length_take, size], ?_,
    fun fewer some more => ⟨_, lookup fewer some, List.take_prefix_take_left more.le⟩⟩
  cases around with
  | nil =>
    obtain ⟨entry, member⟩ := List.exists_mem_of_ne_nil _ some
    have inside := (registered_iff sound).mp (List.mem_map_of_mem (f := Prod.snd) member)
    exact absurd ((members _).mpr inside) (by simp)
  | cons entry rest =>
    refine ⟨entry.2, node, ?_⟩
    obtain ⟨more, same⟩ := prefix_distinct [entry.2] (rest.map Prod.snd)
    have begins : distinct [] ((entry :: rest).map Prod.snd) = entry.2 :: more := same.symm
    rw [begins, List.head?_take, if_neg positive.ne']
    rfl

/-- **Minimal movement.** On every ring reached: a node added takes keys only for itself, a node
removed gives up only its own keys. On a ring with nodes the nodes of a key are the first ones
clockwise from it; without nodes both lookups raise. -/
theorem moves_little (reached : (machine env).Reachable r) (key : String) :
    (∀ nodeId weight r', r.addNode env nodeId weight = .ok r' →
      r'.getNode env key = .ok nodeId ∨ r'.getNode env key = r.getNode env key) ∧
    (∀ nodeId r', r.removeNode nodeId = .ok r' →
      r.getNode env key = .ok nodeId ∨ r'.getNode env key = r.getNode env key) ∧
    (r.nodes.size ≠ 0 → ∀ count, 0 < count → r.Replicas env key count) ∧
    (r.nodes.size = 0 → r.getNode env key = .error .noNodes ∧
      ∀ count, r.getNodes env key count = .error .noNodes) := by
  have sound := sound_of_reachable reached
  have empty : r.ring = [] ↔ r.nodes.size = 0 := by
    have same : r.ring.map Prod.snd = [] ↔ r.nodes.keys = [] := by
      simp only [List.eq_nil_iff_forall_not_mem, registered_iff sound]
    simpa [Dict.keys, Dict.size] using same
  refine ⟨fun nodeId weight r' added => ?_, fun nodeId r' removed => ?_, fun some count positive =>
    replicas sound (mt empty.mp some) key positive, fun none => ?_⟩
  · exact (getNode_filter (sound.addNode added).sorted
      (sound.ring_of_addNode added)).imp_right Eq.symm
  · exact getNode_filter sound.sorted (by rw [removeNode_ok removed])
  · simp [getNode, getNodes, empty.mpr none]

/-- A hash that tells three virtual nodes apart. -/
def threeHashes : Env Nat where
  hash text := if text = "a:0" then 10 else if text = "b:0" then 20 else 15
  positive weight := decide (0 < weight)
  scaled weight := weight

theorem moves_little_two : ∃ r : ConsistentHashRouter Nat, r.nodes.keys = ["a", "b"] ∧
      r.Replicas threeHashes "k" 2 := by
  have reached : (machine threeHashes).Reachable _ :=
    .of_follows (.init rfl) [.addNode "a" 1, .addNode "b" 1]
      ⟨trivial, trivial, trivial, trivial, trivial⟩
  exact ⟨_, by decide, (moves_little reached "k").2.2.1 (by decide) 2 Nat.two_pos⟩

/-- A ring without nodes has no list of no nodes either. -/
theorem getNodes_empty_raises :
    ¬ ∀ r : ConsistentHashRouter Nat, (machine threeHashes).Reachable r → ∀ key count,
      ∃ ids, r.getNodes threeHashes key count = .ok ids ∧ ids.length = min count r.nodes.size := by
  intro all
  obtain ⟨ids, returned, _⟩ := all _ (.init rfl) "k" 1
  cases returned

end ConsistentHashRouter

end DistLLM.Routing
