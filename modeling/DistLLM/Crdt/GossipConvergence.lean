import DistLLM.Crdt.PrefixClusters
import Mathlib.Data.Finset.Max
import Mathlib.Data.Fintype.Prod

/-!
# When gossip converges

The latest register of a key spreads if it holds a value, for messages tell of values only. A
tombstone stays where it is, and so do the values elsewhere that it is later than.
-/
namespace DistLLM.Crdt

open DistLLM.Library CRDTCacheMap

variable {ν : Type}

namespace Clusters

/-- The latest register of the key that a cluster holds has a value, and all clusters hold just it,
or no copy of it has a reference. -/
def Spreads [LinearOrder ν] (s : Clusters ν) (key : PrefixKey) : Prop :=
  ∃ i digest ts, (s.mapOf i).values key = some ⟨some digest, ts⟩ ∧
    (∀ j reg, (s.mapOf j).values key = some reg → reg.timestamp ≤ ts) ∧
    ((∀ j, (s.mapOf j).values key = some ⟨some digest, ts⟩) ∨
      ∀ copy, s.Occurs key ⟨some copy, ts⟩ → copy.kvBlockRef = "")

/-- No cluster holds a value, and no message carries one that would come back anywhere. -/
def Gone [LinearOrder ν] (s : Clusters ν) (key : PrefixKey) : Prop :=
  (∀ j reg, (s.mapOf j).values key = some reg → reg.value = none) ∧
    ∀ p ∈ s.sent, ∀ reg, p.2.Carries key reg → ∀ j, (s.mapOf j).Covers key reg.timestamp

/-- Each prefix spreads or is gone. A removal is told to nobody, so a prefix is neither if it has been
removed where it is still held elsewhere, and no cluster has written it later. -/
def Settled [LinearOrder ν] (s : Clusters ν) : Prop := ∀ key, s.Spreads key ∨ s.Gone key

variable [LinearOrder ν] {s t u : Clusters ν} {key : PrefixKey}

variable {ts : Timestamp ν} {reg : DigestRegister ν}

theorem Coherent.bounded (coherent : s.Coherent)
    (latest : ∀ j reg, (s.mapOf j).values key = some reg → reg.timestamp ≤ ts)
    (occurs : s.Occurs key reg) : reg.timestamp ≤ ts := by
  rcases occurs with ⟨j, held⟩ | ⟨p, member, carries⟩
  · exact latest j reg held
  · obtain ⟨mine, held, before⟩ := coherent.covered p member key reg carries
    exact before.trans (latest p.1 mine held)

variable {digest : CacheDigest ν} {i : ν}

namespace Since

variable (since : Since s t) (coherent : s.Coherent)

include since coherent

theorem bounded (latest : ∀ j reg, (s.mapOf j).values key = some reg → reg.timestamp ≤ ts)
    (occurs : t.Occurs key reg) : reg.timestamp ≤ ts := by
  obtain ⟨reg', occurs', same, -⟩ := since.base key reg occurs
  rw [← same]
  exact coherent.bounded latest occurs'

theorem stays
    (latest : ∀ j reg', (s.mapOf j).values key = some reg' → reg'.timestamp ≤ reg.timestamp)
    (held : (s.mapOf i).values key = some reg) : (t.mapOf i).values key = some reg := by
  rcases since.grows i key with same | ⟨reg', now, later⟩
  · exact same.trans held
  · have within := since.bounded coherent latest (Or.inl ⟨i, now⟩)
    exact absurd (later reg held) (not_lt.mpr within)

theorem reaches (held : (s.mapOf i).values key = some ⟨some digest, ts⟩)
    (latest : ∀ j reg, (s.mapOf j).values key = some reg → reg.timestamp ≤ ts)
    (heard : s.AllHeard t) (j : ν) : ∃ copy, (t.mapOf j).values key = some ⟨some copy, ts⟩ ∧
      copy.withoutRef = digest.withoutRef := by
  have stays := since.stays coherent latest held
  -- a cluster has heard of the register, and of nothing later
  have covers : (t.mapOf j).Covers key ts := by
    by_cases here : i = j
    · subst here
      exact ⟨_, stays, le_rfl⟩
    · obtain ⟨n, beyond, received, source⟩ := heard i j here
      obtain ⟨p, found, covers⟩ := since.coherent.heard j n received
      obtain rfl : p.1 = i := by simpa [found] using source
      obtain ⟨reg, carries, before⟩ := since.built n p beyond found key digest ts held
      obtain ⟨mine, now, after⟩ := covers key reg carries
      exact ⟨mine, now, before.trans after⟩
  obtain ⟨mine, now, after⟩ := covers
  have same : mine.timestamp = ts :=
    le_antisymm (since.bounded coherent latest (Or.inl ⟨j, now⟩)) after
  -- the stamp tells the value
  have agree := since.coherent.agree key mine ⟨some digest, ts⟩ (Or.inl ⟨j, now⟩)
    (Or.inl ⟨i, stays⟩) same
  obtain ⟨copy, valued, alike⟩ := Option.map_eq_some_iff.mp agree
  exact ⟨copy, by rw [now, ← valued, ← same], alike⟩

end Since

theorem get_of_values (coherent : s.Coherent)
    (held : (s.mapOf i).values key = some ⟨some digest, ts⟩) :
    (s.mapOf i).get key = some digest := by
  rw [(coherent.sound i).get_eq, held]
  rfl

theorem Spreads.converges (spreads : s.Spreads key) (coherent : s.Coherent) (since : Since s t)
    (heard : s.AllHeard t) (i j : ν) : (t.mapOf i).get key = (t.mapOf j).get key := by
  obtain ⟨l, digest, ts, held, latest, copies⟩ := spreads
  have shows : ∀ j, (t.mapOf j).get key = some digest := by
    intro j
    rcases copies with everywhere | plain
    · exact get_of_values since.coherent (since.stays coherent latest (everywhere j))
    · obtain ⟨copy, now, alike⟩ := since.reaches coherent held latest heard j
      -- the copy is one of those without a reference
      obtain ⟨reg, occurs, same, value⟩ := since.base key _ (Or.inl ⟨j, now⟩)
      obtain ⟨kept, stamp⟩ := reg
      obtain rfl : stamp = ts := same
      have copy_plain : copy.kvBlockRef = "" := by
        rcases value with value | value
        · obtain rfl : some copy = kept := value
          exact plain copy occurs
        · obtain ⟨first, -, rfl⟩ := Option.map_eq_some_iff.mp value.symm
          rfl
      have digest_plain := plain digest (Or.inl ⟨l, held⟩)
      rw [CacheDigest.withoutRef_of_empty copy_plain,
        CacheDigest.withoutRef_of_empty digest_plain] at alike
      rw [get_of_values since.coherent now, alike]
  rw [shows i, shows j]

theorem Gone.converges (gone : s.Gone key) (since : Since s t) (i j : ν) :
    (t.mapOf i).get key = (t.mapOf j).get key := by
  obtain ⟨nowhere, covered⟩ := gone
  have hidden : ∀ j, (t.mapOf j).get key = none := by
    intro j
    rw [(since.coherent.sound j).get_eq, Option.bind_eq_none_iff]
    intro reg now
    by_contra valued
    have new : (t.mapOf j).values key ≠ (s.mapOf j).values key := by
      intro same
      exact valued (nowhere j reg (same.symm.trans now))
    -- the value occurred before, so a message carries it
    obtain ⟨reg', occurs, same, value⟩ := since.base key reg (Or.inl ⟨j, now⟩)
    have valued' : reg'.value ≠ none := by
      intro nothing
      rcases value with value | value <;> simp [value, nothing] at valued
    rcases occurs with ⟨l, held⟩ | ⟨p, member, carries⟩
    · exact valued' (nowhere l reg' held)
    · obtain ⟨mine, held, after⟩ := covered p member reg' carries j
      rcases since.grows j key with old | ⟨late, now', later⟩
      · exact new old
      · obtain rfl : reg = late := by simpa [now] using now'
        rw [same] at after
        exact absurd (later mine held) (not_lt.mpr after)
  rw [hidden i, hidden j]

theorem Settled.converges (settled : s.Settled) (coherent : s.Coherent) (since : Since s t)
    (heard : s.AllHeard t) : t.Converged := by
  intro i j key
  rcases settled key with spreads | gone
  · exact spreads.converges coherent since heard i j
  · exact gone.converges since i j

theorem GossipsTo.trans (first : s.GossipsTo t) (second : t.GossipsTo u) : s.GossipsTo u := by
  induction second with
  | init start =>
    obtain rfl := start
    exact first
  | step act _ enabled gossip ih => exact .step act ih enabled gossip

theorem gossipsTo_refl (s : Clusters ν) : s.GossipsTo s := .init rfl

theorem exists_lists (self : CrossClusterPrefixIndex ν) : ∃ order, self.Lists order :=
  ⟨self.index.keys.toList, self.index.keys.nodup_toList, self.index.keys.toList_toFinset⟩

theorem gossipsTo_build (compact : Bool) {order : List PrefixKey}
    (lists : (t.cluster i).Lists order) : t.GossipsTo (t.exec (.build i compact order)) := by
  have enabled : (machine ν fun start => start = t).enabled t (.build i compact order) := lists
  exact .step _ (gossipsTo_refl t) enabled rfl

theorem gossipsTo_deliver (j : ν) {n : Nat} (inside : n < t.sent.length) :
    t.GossipsTo (t.exec (.deliver j n fun _ => (0, 0))) := by
  have enabled : (machine ν fun start => start = t).enabled t (.deliver j n fun _ => (0, 0)) :=
    inside
  exact .step _ (gossipsTo_refl t) enabled rfl

theorem exists_told (t : Clusters ν) (i j : ν) : ∃ u, t.GossipsTo u ∧ ∃ n, t.sent.length ≤ n ∧
    (j, n) ∈ u.received ∧ u.sent[n]?.map Prod.fst = some i := by
  obtain ⟨order, lists⟩ := exists_lists (t.cluster i)
  have found : (t.exec (.build i false order)).sent[t.sent.length]? =
      some (i, (t.cluster i).buildGossipMessage false order) := by
    simp [exec]
  have told := (gossipsTo_build false lists).trans
    (gossipsTo_deliver j (List.getElem?_eq_some_iff.mp found).1)
  refine ⟨_, told, t.sent.length, le_rfl, ?_, ?_⟩
  · simp [exec]
  · simp [exec]

theorem exists_all_told (coherent : t.Coherent) (pairs : List (ν × ν)) :
    ∃ u, t.GossipsTo u ∧ ∀ p ∈ pairs, ∃ n, t.sent.length ≤ n ∧
      (p.2, n) ∈ u.received ∧ u.sent[n]?.map Prod.fst = some p.1 := by
  induction pairs with
  | nil => exact ⟨t, gossipsTo_refl t, by simp⟩
  | cons pair pairs ih =>
    obtain ⟨u, gossips, told⟩ := ih
    obtain ⟨v, onward, n, beyond, received, source⟩ := exists_told u pair.1 pair.2
    have since := since_of_gossipsTo coherent gossips
    have since' := since_of_gossipsTo since.coherent onward
    refine ⟨v, gossips.trans onward, ?_⟩
    intro p member
    rcases List.mem_cons.mp member with rfl | later
    · exact ⟨n, since.sent.length_le.trans beyond, received, source⟩
    · obtain ⟨m, beyond', received', source'⟩ := told p later
      refine ⟨m, beyond', since'.received received', ?_⟩
      obtain ⟨q, found, -⟩ := since.coherent.heard p.2 m received'
      obtain ⟨more, appended⟩ := since'.sent
      rw [← appended, List.getElem?_append_left (List.getElem?_eq_some_iff.mp found).1]
      exact source'

theorem exists_allHeard [Fintype ν] (coherent : s.Coherent) (gossips : s.GossipsTo t) :
    ∃ u, t.GossipsTo u ∧ s.AllHeard u := by
  have since := since_of_gossipsTo coherent gossips
  obtain ⟨u, onward, told⟩ :=
    exists_all_told since.coherent (Finset.univ : Finset (ν × ν)).toList
  refine ⟨u, onward, ?_⟩
  intro i j other
  obtain ⟨n, beyond, received, source⟩ := told (i, j) (by simp)
  exact ⟨n, since.sent.length_le.trans beyond, received, source⟩

/-- A message that carries something later than what a cluster holds can still be delivered. -/
theorem exists_delivered (coherent : t.Coherent) {p : ν × GossipMessage ν} {n : Nat}
    (found : t.sent[n]? = some p) (carries : p.2.Carries key reg) {j : ν}
    (lacks : ¬ (t.mapOf j).Covers key reg.timestamp) :
    ∃ u, t.GossipsTo u ∧ (u.mapOf j).values key = some reg := by
  obtain ⟨source, msg⟩ := p
  have member := List.mem_of_getElem? found
  obtain ⟨-, advances, covers⟩ := CrossClusterPrefixIndex.process_spec
    (coherent.stamped _ member) (fun _ => (0, 0)) (coherent.sound j)
  obtain ⟨mine, now, after⟩ := covers key reg carries
  refine ⟨_, gossipsTo_deliver j (List.getElem?_eq_some_iff.mp found).1, ?_⟩
  rcases advances.comes key mine now with old | carries' | ⟨nothing, -⟩
  · exact absurd ⟨mine, old, after⟩ lacks
  · rw [coherent.single _ member key reg mine carries carries']
    simpa [exec, found, mapOf] using now
  · exact nothing.elim

/-! ### What converges is settled -/

theorem exists_latest [Fintype ν] (s : Clusters ν) (key : PrefixKey) :
    (∀ j, (s.mapOf j).values key = none) ∨ ∃ i reg, (s.mapOf i).values key = some reg ∧
      ∀ j reg', (s.mapOf j).values key = some reg' → reg'.timestamp ≤ reg.timestamp := by
  by_cases nothing : ∀ j, (s.mapOf j).values key = none
  · exact Or.inl nothing
  · obtain ⟨i, held⟩ := not_forall.mp nothing
    obtain ⟨reg, held⟩ := Option.ne_none_iff_exists'.mp held
    -- clusters without a register count as this one
    obtain ⟨l, -, latest⟩ := Finset.exists_max_image Finset.univ
      (fun j => ((s.mapOf j).values key).elim reg.timestamp LWWRegister.timestamp)
      ⟨i, Finset.mem_univ i⟩
    have bound : ∀ j reg', (s.mapOf j).values key = some reg' → reg'.timestamp ≤
        ((s.mapOf l).values key).elim reg.timestamp LWWRegister.timestamp := by
      intro j reg' held'
      simpa [held'] using latest j (Finset.mem_univ j)
    right
    cases found : (s.mapOf l).values key with
    | none => exact ⟨i, reg, held, by simpa [found] using bound⟩
    | some top => exact ⟨l, top, found, by simpa [found] using bound⟩

section Necessity

variable [Fintype ν] (coherent : s.Coherent)
  (all : ∀ t, s.GossipsTo t → s.AllHeard t → t.Converged)

include coherent all

theorem exists_converged (gossips : s.GossipsTo t) : ∃ u, Since s u ∧ Since t u ∧ u.Converged := by
  obtain ⟨u, onward, heard⟩ := exists_allHeard coherent gossips
  have since := since_of_gossipsTo coherent gossips
  have total := gossips.trans onward
  exact ⟨u, since_of_gossipsTo coherent total, since_of_gossipsTo since.coherent onward,
    all u total heard⟩

theorem gone_of_tombstone (held : (s.mapOf i).values key = some ⟨none, ts⟩)
    (latest : ∀ j reg, (s.mapOf j).values key = some reg → reg.timestamp ≤ ts) : s.Gone key := by
  -- a value, once held by a cluster, would stay visible there and nowhere else
  have never : ∀ {t j digest stamp}, s.GossipsTo t →
      (t.mapOf j).values key ≠ some ⟨some digest, stamp⟩ := by
    intro t j digest stamp gossips value
    obtain ⟨u, since, since', converged⟩ := exists_converged coherent all gossips
    obtain ⟨digest', stamp', now, -⟩ := since'.valued value
    have hidden : (u.mapOf i).get key = none := by
      rw [(since.coherent.sound i).get_eq, since.stays coherent latest held]
      rfl
    have shown := get_of_values since.coherent now
    rw [converged j i key, hidden] at shown
    cases shown
  constructor
  · intro j reg found
    by_contra valued
    obtain ⟨digest, value⟩ := Option.ne_none_iff_exists'.mp valued
    exact never (gossipsTo_refl s) (by rw [found, ← value])
  · intro p member reg carries j
    by_contra lacks
    obtain ⟨n, inside, found⟩ := List.getElem_of_mem member
    obtain ⟨t, gossips, value⟩ :=
      exists_delivered coherent (List.getElem?_eq_some_iff.mpr ⟨inside, found⟩) carries lacks
    obtain ⟨digest, valued, -⟩ := carries.valued
    exact never gossips (by rw [value, ← valued])

theorem spreads_of_value (held : (s.mapOf i).values key = some ⟨some digest, ts⟩)
    (latest : ∀ j reg, (s.mapOf j).values key = some reg → reg.timestamp ≤ ts) : s.Spreads key := by
  refine ⟨i, digest, ts, held, latest, ?_⟩
  -- what a cluster holds under the stamp stays, so it is the same everywhere
  have same : ∀ {t j copy}, s.GossipsTo t →
      (t.mapOf j).values key = some ⟨some copy, ts⟩ → copy = digest := by
    intro t j copy gossips value
    obtain ⟨u, since, since', converged⟩ := exists_converged coherent all gossips
    have latest' : ∀ j reg, (t.mapOf j).values key = some reg → reg.timestamp ≤ ts := by
      intro j reg found
      exact (since_of_gossipsTo coherent gossips).bounded coherent latest (Or.inl ⟨j, found⟩)
    have mid := (since_of_gossipsTo coherent gossips).coherent
    have here := get_of_values since.coherent (since.stays coherent latest held)
    have there := get_of_values since.coherent (since'.stays mid latest' value)
    rw [converged j i key, here] at there
    exact (Option.some.inj there).symm
  by_contra neither
  obtain ⟨elsewhere, referenced⟩ := not_or.mp neither
  obtain ⟨j, other⟩ := not_forall.mp elsewhere
  -- a cluster that does not hold it holds nothing as late
  have lacks : ¬ (s.mapOf j).Covers key ts := by
    rintro ⟨mine, found, after⟩
    have stamp : mine.timestamp = ts := le_antisymm (latest j mine found) after
    have agree := coherent.agree key mine ⟨some digest, ts⟩ (Or.inl ⟨j, found⟩)
      (Or.inl ⟨i, held⟩) stamp
    obtain ⟨copy, valued, -⟩ := Option.map_eq_some_iff.mp agree
    have found' : (s.mapOf j).values key = some ⟨some copy, ts⟩ := by rw [found, ← valued, ← stamp]
    rw [same (gossipsTo_refl s) found'] at found'
    exact other found'
  -- so every copy is the digest, and the one of a compact message is, too
  have copies : ∀ copy, s.Occurs key ⟨some copy, ts⟩ → copy = digest := by
    rintro copy (⟨l, found⟩ | ⟨p, member, carries⟩)
    · exact same (gossipsTo_refl s) found
    · obtain ⟨n, inside, found⟩ := List.getElem_of_mem member
      obtain ⟨t, gossips, value⟩ :=
        exists_delivered coherent (List.getElem?_eq_some_iff.mpr ⟨inside, found⟩) carries lacks
      exact same gossips value
  have plain : digest.withoutRef = digest := by
    obtain ⟨order, lists⟩ := exists_lists (s.cluster i)
    have built := gossipsTo_build true lists
    have found : (s.exec (.build i true order)).sent[s.sent.length]? =
        some (i, (s.cluster i).buildGossipMessage true order) := by
      simp [exec]
    have carries := (CrossClusterPrefixIndex.carries_build_iff (coherent.sound i)
      (coherent.keyed i) lists true key _).mpr ⟨digest, ts, held, rfl⟩
    obtain ⟨t, gossips, value⟩ :=
      exists_delivered (since_of_gossipsTo coherent built).coherent found carries lacks
    exact same (built.trans gossips) value
  apply referenced
  intro copy occurs
  rw [copies copy occurs, ← plain]
  rfl

theorem settled_of_converges : s.Settled := by
  intro key
  rcases exists_latest s key with nothing | ⟨i, ⟨value, ts⟩, held, latest⟩
  · refine Or.inr ⟨?_, ?_⟩
    · intro j reg found
      rw [nothing j] at found
      cases found
    · intro p member reg carries
      obtain ⟨mine, found, -⟩ := coherent.covered p member key reg carries
      rw [nothing p.1] at found
      cases found
  · cases value with
    | none => exact Or.inr (gone_of_tombstone coherent all held latest)
    | some digest => exact Or.inl (spreads_of_value coherent all held latest)

end Necessity

/-- **When gossip converges.** Whatever the clusters have done, gossip makes all that have heard of
each other show the same prefixes with the same digests if and only if each prefix spreads or is
gone when the last local operation has been done. -/
theorem gossip_converges_iff [Fintype ν] (reached : s.Reachable) :
    (∀ t, s.GossipsTo t → s.AllHeard t → t.Converged) ↔ s.Settled := by
  have coherent := coherent_of_reachable reached
  constructor
  · exact fun all => settled_of_converges coherent all
  · exact fun settled t gossips heard =>
      settled.converges coherent (since_of_gossipsTo coherent gossips) heard

def twoClusters : Clusters (Fin 2) := { cluster := fun i => .create i 0 }

theorem twoClusters_starts : twoClusters.Starts := ⟨fun _ => 0, rfl⟩

def registration : List (Action (Fin 2)) := [.announce 0 "h" "m" "" 300 0 10]

def registered : Clusters (Fin 2) := registration.foldl exec twoClusters

/-- A prefix registered without a reference reaches the other cluster. -/
theorem registration_spreads : (∃ digest, (registered.cluster 0).index.get ("h", "m") = some digest) ∧
    (registered.cluster 1).index.get ("h", "m") = none ∧
    ∀ t, registered.GossipsTo t → registered.AllHeard t → t.Converged := by
  have reached : registered.Reachable :=
    .of_follows (.init twoClusters_starts) registration (by decide +kernel)
  have first : (registered.mapOf 0).values = Function.update (fun _ => none) ("h", "m")
      (some ⟨some ⟨0, "h", "m", 300, 0, 1, ""⟩, ⟨10, 0, 0⟩⟩) := rfl
  have second : (registered.mapOf 1).values = fun _ => none := rfl
  have registers : ∀ {j key reg}, (registered.mapOf j).values key = some reg →
      key = ("h", "m") ∧ reg = ⟨some ⟨0, "h", "m", 300, 0, 1, ""⟩, ⟨10, 0, 0⟩⟩ := by
    intro j key reg held
    have either : ∀ j : Fin 2, j = 0 ∨ j = 1 := by decide
    rcases either j with rfl | rfl
    · rw [first] at held
      by_cases here : key = ("h", "m")
      · subst here
        exact ⟨rfl, by simpa using held.symm⟩
      · simp [here] at held
    · rw [second] at held
      cases held
  refine ⟨⟨⟨0, "h", "m", 300, 0, 1, ""⟩, by decide +kernel⟩, by decide +kernel,
    (gossip_converges_iff reached).mpr ?_⟩
  intro key
  by_cases here : key = ("h", "m")
  · subst here
    refine Or.inl ⟨0, ⟨0, "h", "m", 300, 0, 1, ""⟩, ⟨10, 0, 0⟩, by simp [first], ?_, Or.inr ?_⟩
    · intro j reg held
      rw [(registers held).2]
    · rintro copy (⟨j, held⟩ | ⟨p, member, -⟩)
      · cases (registers held).2
        rfl
      · cases member
  · refine Or.inr ⟨?_, fun p member => by cases member⟩
    exact fun j reg held => absurd (registers held).1 here

/-- A prefix is registered at cluster 0, told to cluster 1, and evicted where it was registered. -/
def removal : List (Action (Fin 2)) :=
  [.announce 0 "h" "m" "ref" 300 0 10, .build 0 false [("h", "m")],
    .deliver 1 0 fun _ => (20, 20), .evictExpired 0 [("h", "m")] 1000 fun _ => (1000, 1000)]

def exchange : List (Action (Fin 2)) :=
  [.build 0 true [], .build 1 true [("h", "m")], .deliver 1 1 fun _ => (2000, 2000),
    .deliver 0 2 fun _ => (2000, 2000)]

/-- A prefix that has been removed stays visible where it has been told. -/
theorem removal_not_told : ¬ ∀ s : Clusters (Fin 2), s.Reachable →
    ∀ t, s.GossipsTo t → s.AllHeard t → t.Converged := by
  intro all
  have reached : Reachable (removal.foldl exec twoClusters) :=
    .of_follows (.init twoClusters_starts) removal (by decide +kernel)
  have gossips : GossipsTo (removal.foldl exec twoClusters)
      (exchange.foldl exec (removal.foldl exec twoClusters)) :=
    .of_follows (.init rfl) exchange (by decide +kernel)
  have heard : AllHeard (removal.foldl exec twoClusters)
      (exchange.foldl exec (removal.foldl exec twoClusters)) := by
    intro i j other
    have either : ∀ i j : Fin 2, i ≠ j → (i = 0 ∧ j = 1) ∨ (i = 1 ∧ j = 0) := by decide
    obtain ⟨rfl, rfl⟩ | ⟨rfl, rfl⟩ := either i j other
    · exact ⟨1, by decide +kernel, by decide +kernel, by decide +kernel⟩
    · exact ⟨2, by decide +kernel, by decide +kernel, by decide +kernel⟩
  exact absurd (all _ reached _ gossips heard 0 1 ("h", "m")) (by decide +kernel)

end Clusters

end DistLLM.Crdt
