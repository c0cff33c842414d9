import DistLLM.Gossip.Protocol

/-!
# Who is listed for a prefix

What each operation does to the nodes that an index lists for a prefix, and which of its entries a
node advertises.
-/
namespace DistLLM.Gossip

open DistLLM.Library

variable {ν κ K S : Type} [DecidableEq κ]

namespace GossipState

variable (s : GossipState ν κ) {k k' : κ} {n : ν}

def Lists (s : GossipState ν κ) (k : κ) (n : ν) : Prop :=
  ∃ r ∈ s.cacheIndex.getD k [], r.nodeId = n

instance [DecidableEq ν] (s : GossipState ν κ) (k : κ) (n : ν) : Decidable (s.Lists k n) :=
  inferInstanceAs (Decidable (∃ r ∈ s.cacheIndex.getD k [], r.nodeId = n))

def Holds (s : GossipState ν κ) (k : κ) : Prop := (s.localEntries.get? k).isSome = true

instance (s : GossipState ν κ) (k : κ) : Decidable (s.Holds k) :=
  inferInstanceAs (Decidable (_ = true))

/-- Not under a tombstone, and in a delta registered after the last exchange with anybody. -/
def Selected (s : GossipState ν κ) (deltaOnly : Bool) (k : κ) : Prop :=
  s.tombstones.get? k = none ∧ (deltaOnly = true → 0 < s.lastExchangeTime →
    ∃ reg, s.entryMetadata.get? k = some reg ∧ s.lastExchangeTime < reg.timestamp)

theorem changedSince_iff (cutoff : Rat) : s.changedSince cutoff k = true ↔
    s.tombstones.get? k = none ∧
      ∃ reg, s.entryMetadata.get? k = some reg ∧ cutoff < reg.timestamp := by
  simp [changedSince, Option.any_eq_true]

theorem mem_cachePrefixes_iff (deltaOnly : Bool) (now : Rat) (held : s.Holds k) :
    k ∈ (s.advertise deltaOnly now).1.cachePrefixes ↔ s.Selected deltaOnly k := by
  by_cases delta : deltaOnly = true ∧ 0 < s.lastExchangeTime
  · obtain ⟨flag, before⟩ := delta
    have changed := s.changedSince_iff s.lastExchangeTime (k := k)
    have registered : (∃ reg, (s.entryMetadata.filterKeys
        (s.changedSince s.lastExchangeTime)).get? k = some reg) ↔
        s.changedSince s.lastExchangeTime k = true := by
      rw [Dict.get?_filterKeys]
      constructor
      · rintro ⟨reg, found⟩
        by_contra unchanged
        simp [unchanged] at found
      · intro now
        obtain ⟨-, reg, found, -⟩ := changed.mp now
        exact ⟨reg, by rw [if_pos now, found]⟩
    simp only [advertise, flag, before, decide_true, Bool.and_self, if_true]
    rw [Dict.mem_keys_iff, registered, changed, Selected]
    simp [before]
  · have full : (deltaOnly && decide (0 < s.lastExchangeTime)) = false := by
      simpa using delta
    obtain ⟨ref, found⟩ := Option.isSome_iff_exists.mp held
    have key : k ∈ s.localEntries.keys := s.localEntries.mem_keys_iff.mpr ⟨ref, found⟩
    have always : deltaOnly = true → ¬ 0 < s.lastExchangeTime := fun flag before =>
      delta ⟨flag, before⟩
    simp only [advertise, full, if_false, Bool.false_eq_true]
    rw [List.mem_filter, Option.isNone_iff_eq_none, Selected]
    exact ⟨fun there => ⟨there.2, fun flag before => absurd before (always flag)⟩,
      fun selected => ⟨key, selected.1⟩⟩

theorem advertise_tombstones (deltaOnly : Bool) (now : Rat) (unburied : s.tombstones.get? k = none) :
    (s.advertise deltaOnly now).1.tombstones.get? k = none := by
  simp only [advertise]
  split
  · rw [Dict.get?_filterKeys, unburied]
    simp
  · exact unburied

/-! ### Operations on the index -/

section

variable [DecidableEq ν]

theorem lists_storeLocal (now : Rat) (ref : String) :
    (s.storeLocal now k ref).Lists k' n ↔ s.Lists k' n ∨ (k = k' ∧ s.nodeId = n) := by
  simp only [Lists, storeLocal, Dict.getD_set]
  by_cases same : k = k'
  · subst same
    simp only [if_true, List.mem_append, List.mem_filter, List.mem_singleton, decide_eq_true_eq,
      true_and]
    constructor
    · rintro ⟨r, ⟨member, -⟩ | rfl, listed⟩
      · exact .inl ⟨r, member, listed⟩
      · exact .inr listed
    · rintro (⟨r, member, listed⟩ | own)
      · -- the references of the node itself are written anew
        by_cases own : r.nodeId = s.nodeId
        · exact ⟨_, .inr rfl, own.symm.trans listed⟩
        · exact ⟨r, .inl ⟨member, own⟩, listed⟩
      · exact ⟨_, .inr rfl, own⟩
  · simp [same]

theorem lists_listPeer (peerId : ν) (now : Rat) : (s.listPeer peerId now k).Lists k' n ↔
      s.Lists k' n ∨ (k = k' ∧ s.tombstones.get? k = none ∧ peerId = n) := by
  unfold listPeer
  split
  next buried => simp [Option.isSome_iff_ne_none.mp buried]
  next unburied =>
    have unburied : s.tombstones.get? k = none := by simpa using unburied
    simp only [Lists, Dict.getD_set, unburied, true_and]
    by_cases same : k = k'
    · subst same
      simp only [if_true, true_and]
      split
      next known =>
        -- the peer is listed already
        obtain ⟨r, member, peer⟩ := List.any_eq_true.mp known
        constructor
        · exact .inl
        · rintro (listed | rfl)
          · exact listed
          · exact ⟨r, member, by simpa using peer⟩
      next => simp [or_and_right, exists_or]
    · simp [same]

omit [DecidableEq κ] in
theorem listPeer_tombstones [DecidableEq κ] (peerId : ν) (now : Rat) :
    (s.listPeer peerId now k).tombstones = s.tombstones := by
  unfold listPeer
  split <;> rfl

theorem lists_foldl_listPeer (peerId : ν) (now : Rat) (prefixes : List κ) :
    (prefixes.foldl (fun s k => s.listPeer peerId now k) s).Lists k n ↔
      s.Lists k n ∨ (k ∈ prefixes ∧ s.tombstones.get? k = none ∧ peerId = n) := by
  induction prefixes generalizing s with
  | nil => simp
  | cons k' rest ih =>
    rw [List.foldl_cons, ih, lists_listPeer, listPeer_tombstones, List.mem_cons]
    by_cases same : k' = k
    · subst same
      tauto
    · have other : ¬ k = k' := fun equal => same equal.symm
      simp [same, other]

theorem lists_cleanupCacheIndex (cacheTtl now : Rat) :
    (s.cleanupCacheIndex cacheTtl now).Lists k n ↔ s.Lists k n ∧ n ∈ s.knownPeers := by
  simp only [Lists, cleanupCacheIndex, Dict.getD, Dict.get?_filterKeys, Dict.get?_mapValues]
  cases found : s.cacheIndex.get? k with
  | none => simp
  | some refs =>
    by_cases gone : s.stale cacheTtl now k = true
    · -- nobody was listed for a prefix that goes
      have empty : refs = [] := by
        simp only [stale, found, Bool.and_eq_true, beq_iff_eq, Option.some.injEq] at gone
        exact gone.1
      simp [gone, empty]
    · simp only [gone, Bool.not_false, if_true, Option.map_some, Option.getD_some, List.mem_filter,
        decide_eq_true_eq]
      constructor
      · rintro ⟨r, ⟨member, known⟩, rfl⟩
        exact ⟨⟨r, member, rfl⟩, known⟩
      · rintro ⟨⟨r, member, rfl⟩, known⟩
        exact ⟨r, ⟨member, known⟩, rfl⟩

end

theorem cleanupExpired_refs (cacheTtl now : Rat) :
    (s.cleanupExpired cacheTtl now).2.cacheIndex.getD k [] =
      freshRefs (now - cacheTtl) (s.cacheIndex.getD k []) := by
  simp only [cleanupExpired, Dict.getD, Dict.get?_filterKeys, Dict.get?_mapValues]
  cases s.cacheIndex.get? k with
  | none => simp [freshRefs]
  | some refs =>
    simp only [Option.getD_some, Option.map_some]
    cases freshRefs (now - cacheTtl) refs <;> rfl

theorem lists_cleanupExpired (cacheTtl now : Rat) : (s.cleanupExpired cacheTtl now).2.Lists k n ↔
      ∃ r ∈ s.cacheIndex.getD k [], r.nodeId = n ∧ now - cacheTtl ≤ r.timestamp := by
  simp only [Lists, cleanupExpired_refs, freshRefs, List.mem_filter, decide_eq_true_eq]
  constructor
  · rintro ⟨r, ⟨member, recent⟩, listed⟩
    exact ⟨r, member, listed, recent⟩
  · rintro ⟨r, member, listed, recent⟩
    exact ⟨r, ⟨member, recent⟩, listed⟩

omit [DecidableEq κ] in
theorem mem_sortRefs {refs : List (CacheRef ν)} {r : CacheRef ν} : r ∈ sortRefs refs ↔ r ∈ refs :=
  List.mem_mergeSort

theorem lists_lookup (asked : κ) : (s.lookup asked).2.Lists k n ↔ s.Lists k n := by
  unfold lookup
  split
  · rfl
  · rfl
  next refs found =>
    simp only [Lists, Dict.getD_set]
    by_cases same : asked = k
    · subst same
      simp [mem_sortRefs, Dict.getD, found]
    · simp [same]

omit [DecidableEq κ] in
theorem sortRefs_eq_nil {refs : List (CacheRef ν)} : sortRefs refs = [] ↔ refs = [] := by
  rw [← List.length_eq_zero_iff, sortRefs, List.length_mergeSort, List.length_eq_zero_iff]

theorem lookup_isSome_iff : (s.lookup k).1.isSome = true ↔ ∃ n, s.Lists k n := by
  have answer : (s.lookup k).1 =
      (sortRefs (s.cacheIndex.getD k [])).head?.map CacheRef.nodeId := by
    unfold lookup Dict.getD
    split
    next absent => simp [absent, sortRefs]
    next empty => simp [empty, sortRefs]
    next found => simp [found]
  rw [answer, Option.isSome_map, List.isSome_head?, ne_eq, sortRefs_eq_nil]
  constructor
  · intro nonempty
    obtain ⟨r, member⟩ := List.exists_mem_of_ne_nil _ nonempty
    exact ⟨r.nodeId, r, member, rfl⟩
  · rintro ⟨n, r, member, -⟩
    exact List.ne_nil_of_mem member

end GossipState

namespace GossipProtocol

open GossipState

/-- The tombstones after those of a peer: the newer one of each. -/
def newerTombstones (own : Dict κ Rat) (es : List (κ × Rat)) : Dict κ Rat :=
  es.foldl (fun own e => if own.getD e.1 0 < e.2 then own.set e.1 e.2 else own) own

theorem mergeTombstones_frame (es : List (κ × Rat)) (s : GossipState ν κ) :
    (es.foldl (fun s e => s.mergeTombstone e) s).cacheIndex = s.cacheIndex ∧
      (es.foldl (fun s e => s.mergeTombstone e) s).knownPeers = s.knownPeers ∧
      (es.foldl (fun s e => s.mergeTombstone e) s).tombstones =
        newerTombstones s.tombstones es := by
  induction es generalizing s with
  | nil => exact ⟨rfl, rfl, rfl⟩
  | cons e rest ih =>
    obtain ⟨index, peers, tombstones⟩ := ih (s.mergeTombstone e)
    rw [List.foldl_cons, index, peers, tombstones, newerTombstones, newerTombstones, List.foldl_cons]
    unfold mergeTombstone
    split <;> exact ⟨rfl, rfl, rfl⟩

theorem newerTombstones_of_absent (own : Dict κ Rat) {d : Dict κ Rat} {k : κ}
    (absent : d.get? k = none) : (newerTombstones own d.entries).get? k = own.get? k := by
  have others : ∀ e ∈ d.entries, e.1 ≠ k := by
    rintro ⟨_, ts⟩ member rfl
    rw [(d.mem_entries_iff _ ts).mp member] at absent
    cases absent
  generalize d.entries = es at others
  unfold newerTombstones
  induction es generalizing own with
  | nil => rfl
  | cons e rest ih =>
    rw [List.foldl_cons, ih _ fun e' later => others e' (List.mem_cons_of_mem _ later)]
    split
    · rw [Dict.get?_set, if_neg (others e List.mem_cons_self)]
    · rfl

theorem mergeMetadata_frame [LinearOrder ν] (es : List (κ × LWWRegister ν)) (s : GossipState ν κ) :
    (es.foldl (fun s e => s.mergeMetadata e) s).cacheIndex = s.cacheIndex ∧
      (es.foldl (fun s e => s.mergeMetadata e) s).knownPeers = s.knownPeers ∧
      (es.foldl (fun s e => s.mergeMetadata e) s).tombstones = s.tombstones := by
  induction es generalizing s with
  | nil => exact ⟨rfl, rfl, rfl⟩
  | cons e rest ih => exact ih (s.mergeMetadata e)

theorem foldl_listPeer_knownPeers [DecidableEq ν] (peerId : ν) (now : Rat) (prefixes : List κ)
    (s : GossipState ν κ) :
    (prefixes.foldl (fun s k => s.listPeer peerId now k) s).knownPeers = s.knownPeers := by
  induction prefixes generalizing s with
  | nil => rfl
  | cons k rest ih =>
    rw [List.foldl_cons, ih]
    unfold listPeer
    split <;> rfl

variable [LinearOrder ν]

def peersAfter (node : GossipProtocol ν κ K) (peerId : ν) (draws : Draws ν) : Finset ν :=
  (node.state.addPeer node.maxPeers draws.sample peerId).knownPeers

/-- The sender is listed for what it advertises, where no tombstone is in the way. A cleanup of the
index leaves the peers that are still known. -/
theorem lists_takeIn (node : GossipProtocol ν κ K) (ad : Advertisement ν κ) (draws : Draws ν)
    {k : κ} {n : ν} : (node.takeIn ad draws).Lists k n ↔
      (node.state.Lists k n ∨ (k ∈ ad.cachePrefixes ∧
        (newerTombstones node.state.tombstones ad.tombstones.entries).get? k = none ∧
          ad.nodeId = n)) ∧
      (draws.cleanup.isSome = true → n ∈ node.peersAfter ad.nodeId draws) := by
  obtain ⟨index, peers, tombstones⟩ := mergeTombstones_frame ad.tombstones.entries
    { node.state with vectorClock := node.state.vectorClock.merge ad.vectorClock }
  unfold takeIn
  dsimp only
  generalize ad.tombstones.entries.foldl _ _ = buried at index peers tombstones
  obtain ⟨index', peers', tombstones'⟩ := mergeMetadata_frame ad.entryMetadata.entries buried
  generalize ad.entryMetadata.entries.foldl _ _ = registered at index' peers' tombstones'
  have listed := lists_foldl_listPeer registered (k := k) (n := n) ad.nodeId draws.now
    ad.cachePrefixes
  have known := foldl_listPeer_knownPeers ad.nodeId draws.now ad.cachePrefixes registered
  generalize ad.cachePrefixes.foldl _ _ = final at listed known
  have before : registered.Lists k n ↔ node.state.Lists k n := by
    unfold GossipState.Lists
    rw [index', index]
  rw [tombstones', tombstones, before] at listed
  -- the peers are those of the node before, and the new one
  have added : (final.addPeer node.maxPeers draws.sample ad.nodeId).knownPeers =
      node.peersAfter ad.nodeId draws := by
    simp only [peersAfter, addPeer]
    rw [known, peers', peers]
  cases draws.cleanup with
  | none =>
    simp only [Option.isSome_none, Bool.false_eq_true, false_implies, and_true]
    exact listed
  | some now =>
    simp only [Option.isSome_some, true_implies]
    rw [lists_cleanupCacheIndex, added]
    exact and_congr_left' listed

end GossipProtocol

end DistLLM.Gossip
