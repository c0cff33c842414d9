import DistLLM.Crdt.PrefixGossip

/-!
# Clusters that gossip

Whatever the clusters do, a stamp tells which value was written, and a message tells of nothing that
its builder does not hold, or something later, ever after. While there is gossip only, nothing new
is written.
-/
namespace DistLLM.Crdt

open DistLLM.Library CRDTCacheMap

variable {ν : Type}

namespace Clusters

abbrev mapOf (s : Clusters ν) (i : ν) : CRDTCacheMap PrefixKey (CacheDigest ν) ν :=
  (s.cluster i).index

def Occurs (s : Clusters ν) (key : PrefixKey) (reg : DigestRegister ν) : Prop :=
  (∃ i, (s.mapOf i).values key = some reg) ∨ ∃ p ∈ s.sent, p.2.Carries key reg

variable [LinearOrder ν] {s t : Clusters ν}

/-- Clocks are past all stamps of their nodes, a stamp tells the value up to its reference, and what
a message carries is covered at its builder and where it has been received. -/
structure Coherent (s : Clusters ν) : Prop where
  sound : ∀ i, (s.mapOf i).Sound
  node : ∀ i, (s.mapOf i).clock.nodeId = i
  keyed : ∀ i key reg, (s.mapOf i).values key = some reg → Keyed key reg.value
  issued : ∀ key reg, s.Occurs key reg →
    reg.timestamp < (s.mapOf reg.timestamp.nodeId).clock.next
  agree : ∀ key reg reg', s.Occurs key reg → s.Occurs key reg' → reg.timestamp = reg'.timestamp →
    reg.value.map CacheDigest.withoutRef = reg'.value.map CacheDigest.withoutRef
  stamped : ∀ p ∈ s.sent, p.2.Stamped
  single : ∀ p ∈ s.sent, ∀ key reg reg', p.2.Carries key reg → p.2.Carries key reg' → reg = reg'
  covered : ∀ p ∈ s.sent, ∀ key reg, p.2.Carries key reg → (s.mapOf p.1).Covers key reg.timestamp
  heard : ∀ j n, (j, n) ∈ s.received → ∃ p, s.sent[n]? = some p ∧
    ∀ key reg, p.2.Carries key reg → (s.mapOf j).Covers key reg.timestamp

variable {reg : DigestRegister ν} {key : PrefixKey}

theorem Coherent.keyed_of_occurs (coherent : s.Coherent)
    (occurs : s.Occurs key reg) : Keyed key reg.value := by
  rcases occurs with ⟨i, held⟩ | ⟨p, -, carries⟩
  · exact coherent.keyed i key reg held
  · obtain ⟨digest, held, key_eq⟩ := carries.valued
    intro other valued
    obtain rfl : digest = other := by simpa [held] using valued
    exact key_eq

/-! ### One cluster changes -/

def withCluster (s : Clusters ν) (i : ν) (index : CrossClusterPrefixIndex ν) : Clusters ν :=
  { s with cluster := Function.update s.cluster i index }

@[simp] theorem mapOf_withCluster_self (i : ν) (index : CrossClusterPrefixIndex ν) :
    (s.withCluster i index).mapOf i = index.index := by
  simp [mapOf, withCluster]

theorem mapOf_withCluster_of_ne {i j : ν} (other : j ≠ i) (index : CrossClusterPrefixIndex ν) :
    (s.withCluster i index).mapOf j = s.mapOf j := by
  simp [mapOf, withCluster, other]

section Advance

variable {i : ν} {index : CrossClusterPrefixIndex ν} {writes : PrefixKey → Option (CacheDigest ν) → Prop}
  {admits : PrefixKey → DigestRegister ν → Prop}
  (advances : Advances writes admits (s.mapOf i) index.index)

include advances

theorem grows_withCluster (j : ν) (key : PrefixKey) :
    Grows ((s.mapOf j).values key) (((s.withCluster i index).mapOf j).values key) := by
  by_cases here : j = i
  · subst here
    rw [mapOf_withCluster_self]
    exact advances.grows key
  · rw [mapOf_withCluster_of_ne here]
    exact Or.inl rfl

theorem rises_withCluster (j : ν) :
    (s.mapOf j).clock.next ≤ ((s.withCluster i index).mapOf j).clock.next := by
  by_cases here : j = i
  · subst here
    rw [mapOf_withCluster_self]
    exact advances.rises
  · rw [mapOf_withCluster_of_ne here]

theorem occurs_withCluster (occurs : (s.withCluster i index).Occurs key reg) :
    s.Occurs key reg ∨ admits key reg ∨ index.index.values key = some reg ∧ writes key reg.value ∧
      Issued (s.mapOf i).clock index.index.clock reg.timestamp := by
  rcases occurs with ⟨j, held⟩ | sent
  · by_cases here : j = i
    · subst here
      rw [mapOf_withCluster_self] at held
      rcases advances.comes key reg held with old | admitted | written
      · exact Or.inl (Or.inl ⟨j, old⟩)
      · exact Or.inr (Or.inl admitted)
      · exact Or.inr (Or.inr ⟨held, written⟩)
    · rw [mapOf_withCluster_of_ne here] at held
      exact Or.inl (Or.inl ⟨j, held⟩)
  · exact Or.inl (Or.inr sent)

end Advance

theorem Coherent.advance (coherent : s.Coherent) {i : ν} {index : CrossClusterPrefixIndex ν}
    (sound : index.index.Sound) (advances : Advances Keyed s.Occurs (s.mapOf i) index.index) :
    (s.withCluster i index).Coherent := by
  have grows := grows_withCluster advances
  have rises := rises_withCluster advances
  -- what occurs afterwards occurred before, or has a new stamp of the cluster
  have origin : ∀ {key reg}, (s.withCluster i index).Occurs key reg → s.Occurs key reg ∨
      index.index.values key = some reg ∧ Keyed key reg.value ∧
        Issued (s.mapOf i).clock index.index.clock reg.timestamp := by
    intro key reg occurs
    rcases occurs_withCluster advances occurs with old | old | new
    · exact Or.inl old
    · exact Or.inl old
    · exact Or.inr new
  -- and a new stamp occurred nowhere
  have apart : ∀ {key} {reg reg' : DigestRegister ν}, s.Occurs key reg →
      Issued (s.mapOf i).clock index.index.clock reg'.timestamp → reg.timestamp ≠ reg'.timestamp := by
    rintro key reg reg' occurs ⟨node, after, -⟩ same
    have before := coherent.issued key reg occurs
    rw [same, node, coherent.node i] at before
    exact absurd (before.trans_le after) (lt_irrefl _)
  constructor
  case sound =>
    intro j
    by_cases here : j = i
    · subst here
      simpa using sound
    · simpa [mapOf_withCluster_of_ne here] using coherent.sound j
  case node =>
    intro j
    by_cases here : j = i
    · subst here
      rw [mapOf_withCluster_self, advances.node, coherent.node]
    · rw [mapOf_withCluster_of_ne here, coherent.node]
  case keyed =>
    intro j key reg held
    rcases origin (Or.inl ⟨j, held⟩) with old | ⟨-, keyed, -⟩
    · exact coherent.keyed_of_occurs old
    · exact keyed
  case issued =>
    intro key reg occurs
    rcases origin occurs with old | ⟨-, -, node, -, before⟩
    · exact (coherent.issued key reg old).trans_le (rises _)
    · rw [node, coherent.node, mapOf_withCluster_self]
      exact before
  case agree =>
    intro key reg reg' occurs occurs' same
    rcases origin occurs with old | ⟨held, -, new⟩ <;>
      rcases origin occurs' with old' | ⟨held', -, new'⟩
    · exact coherent.agree key reg reg' old old' same
    · exact absurd same (apart old new')
    · exact absurd same.symm (apart old' new)
    · rw [held] at held'
      rw [Option.some.inj held']
  case stamped => exact coherent.stamped
  case single => exact coherent.single
  case covered =>
    intro p member key reg carries
    exact (coherent.covered p member key reg carries).grows (grows _ _)
  case heard =>
    intro j n received
    obtain ⟨p, found, covers⟩ := coherent.heard j n received
    exact ⟨p, found, fun key reg carries => (covers key reg carries).grows (grows _ _)⟩

/-! ### Gossip -/

def withSent (s : Clusters ν) (i : ν) (msg : GossipMessage ν) : Clusters ν :=
  { s with sent := s.sent ++ [(i, msg)] }

variable {order : List PrefixKey} {compact : Bool}

section

variable {i : ν} (coherent : s.Coherent) (lists : (s.cluster i).Lists order)
  (occurs : (s.withSent i ((s.cluster i).buildGossipMessage compact order)).Occurs key reg)

include coherent lists occurs

theorem occurs_withSent :
    s.Occurs key reg ∨ ∃ digest ts, (s.mapOf i).values key = some ⟨some digest, ts⟩ ∧
      reg = ⟨some (digest.told compact), ts⟩ := by
  rcases occurs with held | ⟨p, member, carries⟩
  · exact Or.inl (Or.inl held)
  · rcases List.mem_append.mp member with old | new
    · exact Or.inl (Or.inr ⟨p, old, carries⟩)
    · obtain rfl := List.mem_singleton.mp new
      exact Or.inr ((CrossClusterPrefixIndex.carries_build_iff (coherent.sound i)
        (coherent.keyed i) lists compact key reg).mp carries)

theorem told_withSent :
    ∃ reg', s.Occurs key reg' ∧ reg'.timestamp = reg.timestamp ∧
      (reg.value = reg'.value ∨ reg.value = reg'.value.map CacheDigest.withoutRef) := by
  rcases occurs_withSent coherent lists occurs with old | ⟨digest, ts, held, rfl⟩
  · exact ⟨reg, old, rfl, Or.inl rfl⟩
  · refine ⟨_, Or.inl ⟨i, held⟩, rfl, ?_⟩
    cases compact
    · exact Or.inl rfl
    · exact Or.inr rfl

end

theorem Coherent.build (coherent : s.Coherent) {i : ν} (lists : (s.cluster i).Lists order) :
    (s.withSent i ((s.cluster i).buildGossipMessage compact order)).Coherent := by
  have carries_iff := CrossClusterPrefixIndex.carries_build_iff (coherent.sound i)
    (coherent.keyed i) lists compact
  have member : ∀ p ∈ (s.withSent i ((s.cluster i).buildGossipMessage compact order)).sent,
      p ∈ s.sent ∨ p = (i, (s.cluster i).buildGossipMessage compact order) := by
    intro p inside
    simpa [withSent] using inside
  constructor
  case sound => exact coherent.sound
  case node => exact coherent.node
  case keyed => exact coherent.keyed
  case issued =>
    intro key reg occurs
    obtain ⟨reg', occurs', same, -⟩ := told_withSent coherent lists occurs
    rw [← same]
    exact coherent.issued key reg' occurs'
  case agree =>
    have up_to_ref : ∀ {value value' : Option (CacheDigest ν)},
        value = value' ∨ value = value'.map CacheDigest.withoutRef →
        value.map CacheDigest.withoutRef = value'.map CacheDigest.withoutRef := by
      rintro value value' (rfl | rfl)
      · rfl
      · cases value' <;> rfl
    intro key reg other occurs occurs' same
    obtain ⟨first, held, stamp, value⟩ := told_withSent coherent lists occurs
    obtain ⟨second, held', stamp', value'⟩ := told_withSent coherent lists occurs'
    rw [up_to_ref value, up_to_ref value']
    exact coherent.agree key first second held held' (stamp.trans (same.trans stamp'.symm))
  case stamped =>
    intro p inside
    rcases member p inside with old | rfl
    · exact coherent.stamped p old
    · exact CrossClusterPrefixIndex.build_stamped (coherent.sound i) (coherent.keyed i) lists compact
  case single =>
    intro p inside key reg reg' carries carries'
    rcases member p inside with old | rfl
    · exact coherent.single p old key reg reg' carries carries'
    · obtain ⟨digest, ts, held, rfl⟩ := (carries_iff key reg).mp carries
      obtain ⟨digest', ts', held', rfl⟩ := (carries_iff key reg').mp carries'
      rw [held] at held'
      cases held'
      rfl
  case covered =>
    intro p inside key reg carries
    rcases member p inside with old | rfl
    · exact coherent.covered p old key reg carries
    · obtain ⟨digest, ts, held, rfl⟩ := (carries_iff key reg).mp carries
      exact ⟨_, held, le_rfl⟩
  case heard =>
    intro j n received
    obtain ⟨p, found, covers⟩ := coherent.heard j n received
    refine ⟨p, ?_, covers⟩
    simp only [withSent]
    rw [List.getElem?_append_left (List.getElem?_eq_some_iff.mp found).1, found]

def withReceived (s : Clusters ν) (j : ν) (n : Nat) (index : CrossClusterPrefixIndex ν) :
    Clusters ν :=
  { s.withCluster j index with received := s.received ++ [(j, n)] }

theorem Coherent.deliver (coherent : s.Coherent) {j source : ν} {n : Nat} {msg : GossipMessage ν}
    (found : s.sent[n]? = some (source, msg)) (readings : Nat → Int × Int) :
    (s.withReceived j n ((s.cluster j).processGossipMessage msg readings).2).Coherent := by
  have member := List.mem_of_getElem? found
  obtain ⟨sound, advances, covers⟩ :=
    CrossClusterPrefixIndex.process_spec (coherent.stamped _ member) readings (coherent.sound j)
  have kept := coherent.advance sound (advances.mono (fun _ _ => False.elim)
    fun key reg carries => Or.inr ⟨_, member, carries⟩)
  refine { kept with heard := ?_ }
  intro l m received
  rcases List.mem_append.mp received with old | new
  · exact kept.heard l m old
  · obtain ⟨rfl, rfl⟩ : l = j ∧ m = n := by simpa using new
    refine ⟨_, found, ?_⟩
    intro key reg carries
    have here := covers key reg carries
    rwa [← mapOf_withCluster_self (s := s) l] at here

theorem coherent_exec {init : Clusters ν → Prop} {act : Action ν} (coherent : s.Coherent)
    (enabled : (machine ν init).enabled s act) : (s.exec act).Coherent := by
  cases act with
  | announce i prefixHash modelId kvBlockRef ttl now ns =>
    obtain ⟨sound, advances⟩ := CrossClusterPrefixIndex.announce_spec (coherent.sound i)
      prefixHash modelId kvBlockRef ttl now ns
    exact coherent.advance sound advances
  | lookup i prefixHash modelId now now' ns ns' =>
    obtain ⟨sound, advances⟩ := CrossClusterPrefixIndex.lookup_spec (coherent.sound i)
      (coherent.keyed i) prefixHash modelId now now' ns ns'
    exact coherent.advance sound advances
  | evictExpired i order now readings =>
    obtain ⟨sound, advances⟩ := CrossClusterPrefixIndex.evictExpired_spec (coherent.sound i)
      order now readings
    exact coherent.advance sound advances
  | build i compact order => exact coherent.build enabled
  | deliver j n readings =>
    simp only [exec]
    split
    next => exact coherent
    next source msg found => exact coherent.deliver found readings

theorem coherent_starts (starts : s.Starts) : s.Coherent := by
  obtain ⟨readings, rfl⟩ := starts
  have nothing : ∀ key reg,
      ¬ Occurs ({ cluster := fun i => .create i (readings i) } : Clusters ν) key reg := by
    rintro key reg (⟨i, held⟩ | ⟨p, member, -⟩)
    · cases held
    · cases member
  constructor
  case sound => exact fun i => create_sound i (readings i)
  case node => exact fun i => rfl
  case keyed => exact fun i key reg held => absurd (Or.inl ⟨i, held⟩) (nothing key reg)
  case issued => exact fun key reg occurs => absurd occurs (nothing key reg)
  case agree => exact fun key reg reg' occurs => absurd occurs (nothing key reg)
  all_goals simp

theorem coherent_of_reachable (reached : s.Reachable) : s.Coherent := by
  apply Machine.Reaches.invariant (I := Coherent) _ _ reached
  · exact fun _ => coherent_starts
  · exact fun _ _ coherent enabled _ => coherent_exec coherent enabled

/-! ### Gossip only -/

/-- What gossip has changed since: registers have given way to values that occurred before, or that
differ from them in their references at most, and the messages built tell of all values that there
were. -/
structure Since (s t : Clusters ν) : Prop where
  coherent : t.Coherent
  sent : s.sent <+: t.sent
  received : s.received ⊆ t.received
  grows : ∀ i key, Grows ((s.mapOf i).values key) ((t.mapOf i).values key)
  news : ∀ i key reg, (t.mapOf i).values key = some reg →
    (s.mapOf i).values key = some reg ∨ ∃ digest, reg.value = some digest
  base : ∀ key reg, t.Occurs key reg → ∃ reg', s.Occurs key reg' ∧
    reg'.timestamp = reg.timestamp ∧
    (reg.value = reg'.value ∨ reg.value = reg'.value.map CacheDigest.withoutRef)
  built : ∀ n p, s.sent.length ≤ n → t.sent[n]? = some p → ∀ key digest ts,
    (s.mapOf p.1).values key = some ⟨some digest, ts⟩ →
      ∃ reg, p.2.Carries key reg ∧ ts ≤ reg.timestamp

theorem Since.refl (coherent : s.Coherent) : Since s s where
  coherent := coherent
  sent := List.prefix_refl _
  received := List.Subset.refl _
  grows _ _ := Or.inl rfl
  news _ _ _ held := Or.inl held
  base _ reg occurs := ⟨reg, occurs, rfl, Or.inl rfl⟩
  built := by
    intro n p beyond found
    rw [List.getElem?_eq_none beyond] at found
    cases found

theorem Since.valued (since : Since s t) {i : ν} {digest : CacheDigest ν} {ts : Timestamp ν}
    (held : (s.mapOf i).values key = some ⟨some digest, ts⟩) :
    ∃ digest' ts', (t.mapOf i).values key = some ⟨some digest', ts'⟩ ∧ ts ≤ ts' := by
  obtain ⟨reg, now, after⟩ := (since.grows i key).le held
  rcases since.news i key reg now with old | ⟨digest', valued⟩
  · obtain rfl : ⟨some digest, ts⟩ = reg := by simpa [held] using old
    exact ⟨digest, ts, now, le_rfl⟩
  · exact ⟨digest', reg.timestamp, by rw [now, ← valued], after⟩

theorem Since.build (since : Since s t) {i : ν} (lists : (t.cluster i).Lists order) :
    Since s (t.withSent i ((t.cluster i).buildGossipMessage compact order)) where
  coherent := since.coherent.build lists
  sent := since.sent.trans (List.prefix_append _ _)
  received := since.received
  grows := since.grows
  news := since.news
  base := by
    intro key reg occurs
    obtain ⟨mid, occurs', same, value⟩ := told_withSent since.coherent lists occurs
    obtain ⟨reg', occurs'', same', value'⟩ := since.base key mid occurs'
    refine ⟨reg', occurs'', same'.trans same, ?_⟩
    rcases value with value | value <;> rcases value' with value' | value' <;> rw [value, value']
    · exact Or.inl rfl
    · exact Or.inr rfl
    · exact Or.inr rfl
    · refine Or.inr ?_
      cases reg'.value <;> rfl
  built := by
    intro n p beyond found key digest ts held
    simp only [withSent] at found
    by_cases old : n < t.sent.length
    · rw [List.getElem?_append_left old] at found
      exact since.built n p beyond found key digest ts held
    · rw [List.getElem?_append_right (not_lt.mp old), List.getElem?_singleton] at found
      split at found
      · obtain rfl := Option.some.inj found
        -- the new message tells of all that its builder holds now
        obtain ⟨digest', ts', now, after⟩ := since.valued held
        exact ⟨_, (CrossClusterPrefixIndex.carries_build_iff (since.coherent.sound i)
          (since.coherent.keyed i) lists compact key _).mpr ⟨digest', ts', now, rfl⟩, after⟩
      · cases found

theorem Since.deliver (since : Since s t) {j source : ν} {n : Nat} {msg : GossipMessage ν}
    (found : t.sent[n]? = some (source, msg)) (readings : Nat → Int × Int) :
    Since s (t.withReceived j n ((t.cluster j).processGossipMessage msg readings).2) := by
  have member := List.mem_of_getElem? found
  obtain ⟨-, advances, -⟩ := CrossClusterPrefixIndex.process_spec
    (since.coherent.stamped _ member) readings (since.coherent.sound j)
  have mapOf_eq : ∀ i, (t.withReceived j n
      ((t.cluster j).processGossipMessage msg readings).2).mapOf i =
      (t.withCluster j ((t.cluster j).processGossipMessage msg readings).2).mapOf i :=
    fun _ => rfl
  -- nothing occurs that has not occurred before
  have origin : ∀ {key reg}, (t.withReceived j n
      ((t.cluster j).processGossipMessage msg readings).2).Occurs key reg → t.Occurs key reg := by
    intro key reg occurs
    rcases occurs_withCluster advances occurs with old | carries | ⟨-, nothing, -⟩
    · exact old
    · exact Or.inr ⟨_, member, carries⟩
    · exact nothing.elim
  constructor
  case coherent => exact since.coherent.deliver found readings
  case sent => exact since.sent
  case received => exact fun e inside => List.mem_append_left _ (since.received inside)
  case grows =>
    intro i key
    rw [mapOf_eq]
    exact (since.grows i key).trans (grows_withCluster advances i key)
  case news =>
    intro i key reg held
    rw [mapOf_eq] at held
    by_cases here : i = j
    · subst here
      rw [mapOf_withCluster_self] at held
      rcases advances.comes key reg held with old | carries | ⟨nothing, -⟩
      · exact since.news i key reg old
      · obtain ⟨digest, valued, -⟩ := carries.valued
        exact Or.inr ⟨digest, valued⟩
      · exact nothing.elim
    · rw [mapOf_withCluster_of_ne here] at held
      exact since.news i key reg held
  case base => exact fun key reg occurs => since.base key reg (origin occurs)
  case built => exact since.built

theorem since_of_gossipsTo (coherent : s.Coherent) (gossips : s.GossipsTo t) : Since s t := by
  apply Machine.Reaches.invariant (I := Since s) _ _ gossips
  · rintro _ rfl
    exact .refl coherent
  · intro t act since enabled gossip
    cases act with
    | build i compact order => exact since.build enabled
    | deliver j n readings =>
      simp only [machine, exec]
      split
      next => exact since
      next source msg found => exact since.deliver found readings
    | announce | lookup | evictExpired => simp [Action.isGossip] at gossip

end Clusters

end DistLLM.Crdt
