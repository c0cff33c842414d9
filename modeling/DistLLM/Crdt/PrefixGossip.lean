import DistLLM.Crdt.PrefixIndex
import DistLLM.Crdt.Writes

/-!
# What messages carry

The operations of an index write registers of its own, a message carries the registers with a value
that its builder holds, and the receiver takes them in. So a stamp tells which value was written,
up to the reference that a compact message leaves out.
-/
namespace DistLLM.Crdt

open DistLLM.Library CRDTCacheMap CacheGossipProtocol

variable {ν : Type}

abbrev DigestRegister (ν : Type) := LWWRegister (CacheDigest ν) ν

namespace CacheDigest

def withoutRef (digest : CacheDigest ν) : CacheDigest ν := { digest with kvBlockRef := "" }

def told (compact : Bool) (digest : CacheDigest ν) : CacheDigest ν :=
  if compact then digest.withoutRef else digest

@[simp] theorem key_told (compact : Bool) (digest : CacheDigest ν) :
    (digest.told compact).key = digest.key := by
  cases compact <;> rfl

theorem withoutRef_of_empty {digest : CacheDigest ν} (empty : digest.kvBlockRef = "") :
    digest.withoutRef = digest := by
  cases digest
  simp_all [withoutRef]

end CacheDigest

def Keyed (key : PrefixKey) (value : Option (CacheDigest ν)) : Prop :=
  ∀ digest, value = some digest → digest.key = key

theorem deserialize_serialize (compact : Bool) (hlc : PrefixKey → Option (Timestamp ν))
    (digest : CacheDigest ν) :
    deserializeEntry (serializeEntry compact hlc digest) compact = digest.told compact := by
  cases compact <;> rfl

/-! ### Messages -/

def Carried (compact : Bool) (entries : List (RawEntry ν)) (key : PrefixKey)
    (reg : DigestRegister ν) : Prop :=
  ∃ raw ∈ entries, ∃ ts, raw.ts = some ts ∧ key = (deserializeEntry raw compact).key ∧
    reg = ⟨some (deserializeEntry raw compact), ts⟩

namespace GossipMessage

def Carries (msg : GossipMessage ν) : PrefixKey → DigestRegister ν → Prop :=
  Carried msg.compact msg.entries

/-- The message is one of digests that all have stamps. -/
structure Stamped (msg : GossipMessage ν) : Prop where
  type : msg.type = "cache_digest"
  stamps : ∀ raw ∈ msg.entries, raw.ts ≠ none

theorem Carries.valued {msg : GossipMessage ν} {key : PrefixKey} {reg : DigestRegister ν}
    (carries : msg.Carries key reg) : ∃ digest, reg.value = some digest ∧ digest.key = key := by
  obtain ⟨raw, -, ts, -, key_eq, rfl⟩ := carries
  exact ⟨_, rfl, key_eq.symm⟩

end GossipMessage

variable [LinearOrder ν] {map : CRDTCacheMap PrefixKey (CacheDigest ν) ν}

theorem mergeDigest_spec (compact : Bool) {entries : List (RawEntry ν)}
    (stamps : ∀ raw ∈ entries, raw.ts ≠ none) (readings : Nat → Int × Int) (sound : map.Sound) :
    (mergeDigest compact entries readings map).Sound ∧
      Advances (fun _ _ => False) (Carried compact entries) map
        (mergeDigest compact entries readings map) ∧ ∀ key reg, Carried compact entries key reg →
        (mergeDigest compact entries readings map).Covers key reg.timestamp := by
  induction entries generalizing map readings with
  | nil =>
    refine ⟨sound, .refl map, ?_⟩
    rintro key reg ⟨raw, member, -⟩
    cases member
  | cons raw entries ih =>
    obtain ⟨ts, stamp⟩ := Option.ne_none_iff_exists'.mp (stamps raw (by simp))
    have merged : mergeEntry map compact raw (readings 0) =
        map.ingest (deserializeEntry raw compact).key (some (deserializeEntry raw compact)) ts
          (readings 0).1 (readings 0).2 := by
      simp only [mergeEntry, stamp]
    have first : Advances (fun _ _ => False) (Carried compact (raw :: entries)) map
        (mergeEntry map compact raw (readings 0)) := by
      rw [merged]
      exact advances_ingest sound _ _ _ ⟨raw, by simp, ts, stamp, rfl, rfl⟩ _ _
    have sound' : (mergeEntry map compact raw (readings 0)).Sound := by
      rw [merged]
      exact sound.ingest _ _ _ _ _
    obtain ⟨sound'', rest, covers⟩ :=
      ih (fun raw member => stamps raw (by simp [member])) (fun i => readings (i + 1)) sound'
    refine ⟨sound'', first.trans (rest.mono (fun _ _ => id) ?_), ?_⟩
    · rintro key reg ⟨raw', member, carried⟩
      exact ⟨raw', by simp [member], carried⟩
    · rintro key reg ⟨raw', member, ts', stamp', key_eq, rfl⟩
      rcases List.mem_cons.mp member with rfl | later
      · -- what has been taken in only gives way to what is later
        obtain rfl : ts = ts' := by simpa [stamp] using stamp'
        have taken : (mergeEntry map compact raw' (readings 0)).Covers key ts := by
          rw [merged, key_eq]
          exact ingest_covers _ _ _ _ _
        exact taken.grows (rest.grows _)
      · exact covers key _ ⟨raw', later, ts', stamp', key_eq, rfl⟩

namespace CrossClusterPrefixIndex

variable {self : CrossClusterPrefixIndex ν}

theorem process_spec {msg : GossipMessage ν} (stamped : msg.Stamped)
    (readings : Nat → Int × Int) (sound : self.index.Sound) :
    (self.processGossipMessage msg readings).2.index.Sound ∧
      Advances (fun _ _ => False) msg.Carries self.index
        (self.processGossipMessage msg readings).2.index ∧ ∀ key reg, msg.Carries key reg →
        (self.processGossipMessage msg readings).2.index.Covers key reg.timestamp := by
  simp only [processGossipMessage, stamped.type, ne_eq, not_true_eq_false, if_false]
  exact mergeDigest_spec msg.compact stamped.stamps readings sound

theorem carries_build_iff (sound : self.index.Sound)
    (keyed : ∀ key reg, self.index.values key = some reg → Keyed key reg.value)
    {order : List PrefixKey} (lists : self.Lists order) (compact : Bool) (key : PrefixKey)
    (reg : DigestRegister ν) : (self.buildGossipMessage compact order).Carries key reg ↔
      ∃ digest ts, self.index.values key = some ⟨some digest, ts⟩ ∧
        reg = ⟨some (digest.told compact), ts⟩ := by
  -- a key that is listed has a register, whose stamp is that of the key
  have listed : ∀ key, key ∈ order ↔ ∃ digest ts, self.index.values key = some ⟨some digest, ts⟩ := by
    intro key
    rw [← List.mem_toFinset, lists.2, keys, Finset.mem_filter, sound.get_eq]
    constructor
    · rintro ⟨-, visible⟩
      obtain ⟨digest, held⟩ := Option.isSome_iff_exists.mp visible
      obtain ⟨reg, found, valued⟩ := Option.bind_eq_some_iff.mp held
      exact ⟨digest, reg.timestamp, by rw [found, ← valued]⟩
    · rintro ⟨digest, ts, found⟩
      exact ⟨sound.shown key _ found (by simp), by simp [found]⟩
  have reads : ∀ {key digest ts}, self.index.values key = some ⟨some digest, ts⟩ →
      self.index.get key = some digest ∧ digest.key = key ∧ self.index.timestampOf key = some ts := by
    intro key digest ts found
    refine ⟨by simp [sound.get_eq, found], keyed key _ found digest rfl, ?_⟩
    simp [timestampOf, found]
  have member : ∀ {key}, key ∈ order → key ∈ self.index.keys := by
    intro key inside
    rw [← lists.2]
    exact List.mem_toFinset.mpr inside
  simp only [GossipMessage.Carries, Carried, buildGossipMessage, buildDigestMessage, List.mem_map,
    List.mem_filterMap]
  constructor
  · rintro ⟨_, ⟨digest, ⟨key', inside, held⟩, rfl⟩, ts, stamp, key_eq, rfl⟩
    obtain ⟨digest', ts', found⟩ := (listed key').mp inside
    obtain ⟨held', key_eq', stamp'⟩ := reads found
    obtain rfl : digest' = digest := by simpa [held] using held'.symm
    rw [deserialize_serialize, CacheDigest.key_told, key_eq'] at key_eq
    obtain rfl : ts' = ts := by
      have there : (digest'.prefixHash, digest'.modelId) = key' := key_eq'
      simpa [serializeEntry, there, member inside, stamp'] using stamp
    exact ⟨digest', ts', key_eq ▸ found, by rw [deserialize_serialize]⟩
  · rintro ⟨digest, ts, found, rfl⟩
    obtain ⟨held, key_eq, stamp⟩ := reads found
    have inside := (listed key).mpr ⟨digest, ts, found⟩
    have there : (digest.prefixHash, digest.modelId) = key := key_eq
    refine ⟨_, ⟨digest, ⟨key, inside, held⟩, rfl⟩, ts, ?_, ?_, ?_⟩
    · simp [serializeEntry, there, member inside, stamp]
    · rw [deserialize_serialize, CacheDigest.key_told, key_eq]
    · rw [deserialize_serialize]

theorem build_stamped (sound : self.index.Sound)
    (keyed : ∀ key reg, self.index.values key = some reg → Keyed key reg.value)
    {order : List PrefixKey} (lists : self.Lists order) (compact : Bool) :
    (self.buildGossipMessage compact order).Stamped := by
  refine ⟨rfl, ?_⟩
  simp only [buildGossipMessage, buildDigestMessage, List.mem_map, List.mem_filterMap]
  rintro _ ⟨digest, ⟨key, inside, held⟩, rfl⟩
  have member : key ∈ self.index.keys := by
    rw [← lists.2]
    exact List.mem_toFinset.mpr inside
  rw [sound.get_eq, Option.bind_eq_some_iff] at held
  obtain ⟨reg, found, valued⟩ := held
  have there : (digest.prefixHash, digest.modelId) = key := keyed key reg found digest valued
  simp [serializeEntry, there, member, timestampOf, found, valued]

variable {admits : PrefixKey → DigestRegister ν → Prop}

theorem announce_spec (sound : self.index.Sound) (prefixHash modelId kvBlockRef : String)
    (ttl now : ℚ) (ns : Int) :
    (self.announce prefixHash modelId kvBlockRef ttl now ns).2.index.Sound ∧
      Advances Keyed admits self.index
        (self.announce prefixHash modelId kvBlockRef ttl now ns).2.index := by
  refine ⟨sound.put _ _ _, advances_put _ ?_ _⟩
  rintro digest ⟨⟩
  rfl

theorem lookup_spec (sound : self.index.Sound)
    (keyed : ∀ key reg, self.index.values key = some reg → Keyed key reg.value)
    (prefixHash modelId : String) (now now' : ℚ) (ns ns' : Int) :
    (self.lookup prefixHash modelId now now' ns ns').2.index.Sound ∧
      Advances Keyed admits self.index
        (self.lookup prefixHash modelId now now' ns ns').2.index := by
  simp only [lookup]
  split
  next absent => exact ⟨sound, .refl _⟩
  next entry held =>
    split
    next expired =>
      refine ⟨sound.remove _ _ _, advances_remove _ ?_ _ _⟩
      intro digest nothing
      cases nothing
    next live =>
      -- the digest is read from the register of its key
      rw [sound.get_eq, Option.bind_eq_some_iff] at held
      obtain ⟨reg, found, valued⟩ := held
      have written : Keyed (prefixHash, modelId)
          (some { entry with lastAccess := now', reuseCount := entry.reuseCount + 1 }) := by
        rintro digest ⟨⟩
        exact keyed _ reg found entry valued
      split
      next => exact ⟨sound.put _ _ _, advances_put _ written _⟩
      next existing _ =>
        -- the clock folds in the stamp of the register before the write
        have folded : self.index.clock.next ≤
            (self.index.clock.update ns existing.physicalNs existing.counter).2.next :=
          HybridLogicalClock.next_le_observe_next
        have ahead : Sound { self.index with membership := { self.index.membership with
            clock := (self.index.clock.update ns existing.physicalNs existing.counter).2 } } :=
          sound.withClock rfl folded
        have moved : Advances Keyed admits self.index { self.index with
            membership := { self.index.membership with
              clock := (self.index.clock.update ns existing.physicalNs existing.counter).2 } } :=
          advances_withClock rfl folded
        split
        next after => exact ⟨ahead.put _ _ _, moved.trans (advances_put _ written _)⟩
        next before => exact ⟨ahead, moved⟩

theorem removeAll_spec (keys : List PrefixKey) (readings : Nat → Int × Int) (sound : map.Sound) :
    (removeAll keys readings map).Sound ∧ Advances Keyed admits map (removeAll keys readings map) := by
  induction keys generalizing map readings with
  | nil => exact ⟨sound, .refl map⟩
  | cons key keys ih =>
    have nothing : Keyed key (none : Option (CacheDigest ν)) := by
      intro digest held
      cases held
    obtain ⟨sound', rest⟩ := ih (fun i => readings (i + 1)) (sound.remove key _ _)
    exact ⟨sound', (advances_remove key nothing _ _).trans rest⟩

theorem evictExpired_spec (sound : self.index.Sound) (order : List PrefixKey) (now : ℚ)
    (readings : Nat → Int × Int) : (self.evictExpired order now readings).2.index.Sound ∧
      Advances Keyed admits self.index (self.evictExpired order now readings).2.index :=
  removeAll_spec _ readings sound

end CrossClusterPrefixIndex

end DistLLM.Crdt
