import DistLLM.Gossip.Spreading

/-!
# Entries under a tombstone

Nodes store and delete entries, advertise them, and take in any advertisement that was ever sent,
also again. An entry that a node has deleted later than anything it heard of being stored should
not be found there until it hears of a later store.
-/
namespace DistLLM.Gossip

open DistLLM.Library

variable {ν κ K S : Type}

/-- What a node has heard of an entry: when it was stored, and since when it is deleted, if no
later store is known. -/
structure Heard where
  stores : List Rat := []
  deleted : Option Rat := none

namespace Heard

def store (h : Heard) (time : Rat) : Heard where
  stores := time :: h.stores
  deleted := h.deleted.filter fun since => !decide (since < time)

def tombstone (h : Heard) (time : Rat) : Heard :=
  if ∀ stored ∈ h.stores, stored < time then
    { h with deleted := some (max time (h.deleted.getD time)) }
  else h

/-- A tombstone of an advertisement is applied before its registers are read, and only if it is
newer than the one there is. -/
def advertisement [DecidableEq κ] (h : Heard) (own : Dict κ Rat) (ad : Advertisement ν κ) (k : κ) :
    Heard :=
  let buried :=
    match ad.tombstones.get? k with
    | some time => if own.getD k 0 < time then h.tombstone time else h
    | none => h
  match ad.entryMetadata.get? k with
  | some reg => buried.store reg.timestamp
  | none => buried

theorem deleted_store {h : Heard} {time : Rat} :
    (h.store time).deleted.isSome = true ↔ ∃ since, h.deleted = some since ∧ ¬ since < time := by
  rw [store]
  cases h.deleted with
  | none => simp
  | some since => simp [Option.filter_some]

theorem deleted_tombstone {h : Heard} {time : Rat} : (h.tombstone time).deleted.isSome = true ↔
      h.deleted.isSome = true ∨ ∀ stored ∈ h.stores, stored < time := by
  unfold tombstone
  split
  next newest => exact iff_of_true rfl (.inr newest)
  next other => exact ⟨.inl, fun either => either.resolve_right other⟩

end Heard

/-- The nodes, with all advertisements that were sent and what each node has heard. -/
structure Deletions (ν κ K S : Type) where
  node : ν → GossipProtocol ν κ K
  sent : List (Advertisement ν κ × S) := []
  heard : ν → κ → Heard := fun _ _ => {}

/-- `process n i`: a node takes in the advertisement that was sent at that place. -/
inductive DeletionAction (ν κ : Type)
  | storeLocal (n : ν) (now : Rat) (prefixHash : κ) (entryRef : String)
  | tombstoneEntry (n : ν) (now : Rat) (prefixHash : κ)
  | lookup (n : ν) (prefixHash : κ)
  | cleanupCacheIndex (n : ν) (now : Rat)
  | cleanupExpired (n : ν) (now : Rat)
  | advertise (n : ν) (deltaOnly : Bool) (now : Rat)
  | process (n : ν) (i : Nat) (draws : GossipProtocol.Draws ν)

namespace Deletions

variable [LinearOrder ν] [DecidableEq κ]

def stateOf (s : Deletions ν κ K S) (n : ν) : GossipState ν κ := (s.node n).state

def withNode (s : Deletions ν κ K S) (n : ν) (state : GossipState ν κ) (heard : κ → Heard) :
    Deletions ν κ K S :=
  { s with
    node := Function.update s.node n { s.node n with state }
    heard := Function.update s.heard n heard }

variable (mac : K → Advertisement ν κ → S) [DecidableEq S]

def exec (s : Deletions ν κ K S) : DeletionAction ν κ → Deletions ν κ K S
  | .storeLocal n now k ref =>
    s.withNode n ((s.stateOf n).storeLocal now k ref)
      (Function.update (s.heard n) k ((s.heard n k).store now))
  | .tombstoneEntry n now k =>
    s.withNode n ((s.stateOf n).tombstoneEntry now k)
      (if (s.stateOf n).tombstones.getD k 0 < now then
        Function.update (s.heard n) k ((s.heard n k).tombstone now)
      else s.heard n)
  | .lookup n k => s.withNode n ((s.stateOf n).lookup k).2 (s.heard n)
  | .cleanupCacheIndex n now =>
    s.withNode n ((s.stateOf n).cleanupCacheIndex (s.node n).cacheTtl now) (s.heard n)
  | .cleanupExpired n now =>
    s.withNode n ((s.stateOf n).cleanupExpired (s.node n).cacheTtl now).2 (s.heard n)
  | .advertise n deltaOnly now =>
    let r := (s.stateOf n).advertise deltaOnly now
    { s.withNode n r.2 (s.heard n) with sent := s.sent ++ [(r.1, mac (s.node n).hmacKey r.1)] }
  | .process n i draws =>
    match s.sent[i]? with
    | none => s
    | some (ad, hmac) =>
      s.withNode n ((s.node n).processAdvertisement mac ad hmac draws).2.state
        (if (s.node n).verifyMessage mac ad hmac then
          fun k => (s.heard n k).advertisement (s.stateOf n).tombstones ad k
        else s.heard n)

def Hidden (s : Deletions ν κ K S) : Prop :=
  ∀ n k, (s.heard n k).deleted.isSome = true → ((s.stateOf n).lookup k).1 = none

/-- The advertisement comes with a cleanup of the index that drops the peer. -/
def Drops (s : Deletions ν κ K S) (n : ν) (ad : Advertisement ν κ)
    (draws : GossipProtocol.Draws ν) (peer : ν) : Prop :=
  draws.cleanup.isSome = true ∧ peer ∉ (s.node n).peersAfter ad.nodeId draws

/-- The condition on a step. What gets deleted is not listed, or the listed peers are dropped at
once; what is deleted is stored later than it was deleted, and advertised only while there is a
tombstone. -/
def Buries (s : Deletions ν κ K S) : DeletionAction ν κ → Prop
  | .storeLocal n now k _ => ∀ since, (s.heard n k).deleted = some since → since < now
  | .tombstoneEntry n now k => (s.stateOf n).tombstones.getD k 0 < now →
      (∀ stored ∈ (s.heard n k).stores, stored < now) → ∀ peer, ¬ (s.stateOf n).Lists k peer
  | .process n i draws => ∀ ad hmac, s.sent[i]? = some (ad, hmac) →
      (s.node n).verifyMessage mac ad hmac = true → ∀ k,
        ((s.heard n k).advertisement (s.stateOf n).tombstones ad k).deleted.isSome = true →
          (∀ peer, (s.stateOf n).Lists k peer → s.Drops n ad draws peer) ∧
          (k ∈ ad.cachePrefixes → (GossipProtocol.newerTombstones (s.stateOf n).tombstones
            ad.tombstones.entries).get? k = none → s.Drops n ad draws ad.nodeId)
  | _ => True

end Deletions

/-- Nodes start empty, under their own ids, each with a configuration and a key. -/
def deleting [LinearOrder ν] [DecidableEq κ] [DecidableEq S] (mac : K → Advertisement ν κ → S) :
    Machine (Deletions ν κ K S) (DeletionAction ν κ) where
  init s := (∀ n, (s.node n).state = { nodeId := n }) ∧ s.sent = [] ∧ ∀ n k, s.heard n k = {}
  enabled _ _ := True
  exec := Deletions.exec mac

variable {state : GossipState ν κ}

namespace Deletions

variable [LinearOrder ν] [DecidableEq κ] {s : Deletions ν κ K S} {n : ν}

omit [LinearOrder ν] in
theorem lookup_eq_none_iff {k : κ} : (state.lookup k).1 = none ↔ ∀ peer, ¬ state.Lists k peer := by
  rw [← Option.not_isSome_iff_eq_none, state.lookup_isSome_iff, not_exists]

theorem Hidden.withNode_iff (hidden : s.Hidden) {heard : κ → Heard} :
    (s.withNode n state heard).Hidden ↔
      ∀ k, (heard k).deleted.isSome = true → ∀ peer, ¬ state.Lists k peer := by
  constructor
  · intro after k deleted
    have gone := after n k (by simpa [withNode] using deleted)
    rw [show (s.withNode n state heard).stateOf n = state by simp [stateOf, withNode]] at gone
    exact lookup_eq_none_iff.mp gone
  · intro all other k deleted
    by_cases same : other = n
    · subst same
      rw [show (s.withNode other state heard).stateOf other = state by simp [stateOf, withNode]]
      exact lookup_eq_none_iff.mpr (all k (by simpa [withNode] using deleted))
    · have before := hidden other k (by simpa [withNode, same] using deleted)
      simpa [stateOf, withNode, same] using before

theorem Hidden.withNode (hidden : s.Hidden) {state : GossipState ν κ}
    (fewer : ∀ k peer, state.Lists k peer → (s.stateOf n).Lists k peer) :
    (s.withNode n state (s.heard n)).Hidden := by
  refine hidden.withNode_iff.mpr fun k deleted peer listed => ?_
  exact lookup_eq_none_iff.mp (hidden n k deleted) peer (fewer k peer listed)

variable (mac : K → Advertisement ν κ → S) [DecidableEq S] (hidden : s.Hidden)

include hidden

theorem Hidden.storeLocal_iff (now : Rat) (k : κ) (ref : String) :
    (s.exec mac (.storeLocal n now k ref)).Hidden ↔ s.Buries mac (.storeLocal n now k ref) := by
  rw [exec, hidden.withNode_iff]
  simp only [Buries, GossipState.lists_storeLocal]
  constructor
  · intro all since deleted
    by_contra earlier
    have still : ((s.heard n k).store now).deleted.isSome = true :=
      Heard.deleted_store.mpr ⟨since, deleted, earlier⟩
    exact all k (by rwa [Function.update_self]) _ (.inr ⟨rfl, rfl⟩)
  · intro later k' deleted peer listed
    by_cases same : k' = k
    · subst same
      rw [Function.update_self] at deleted
      obtain ⟨since, before, earlier⟩ := Heard.deleted_store.mp deleted
      exact earlier (later since before)
    · rw [Function.update_of_ne same] at deleted
      rcases listed with before | ⟨equal, -⟩
      · exact lookup_eq_none_iff.mp (hidden n k' deleted) peer before
      · exact same equal.symm

theorem Hidden.tombstoneEntry_iff (now : Rat) (k : κ) :
    (s.exec mac (.tombstoneEntry n now k)).Hidden ↔ s.Buries mac (.tombstoneEntry n now k) := by
  have unlisted : ∀ k', (s.heard n k').deleted.isSome = true →
      ∀ peer, ¬ ((s.stateOf n).tombstoneEntry now k).Lists k' peer := by
    intro k' deleted
    have unlisted := lookup_eq_none_iff.mp (hidden n k' deleted)
    exact unlisted
  rw [exec, hidden.withNode_iff]
  by_cases newer : (s.stateOf n).tombstones.getD k 0 < now
  · simp only [newer, if_true, Buries, true_implies]
    constructor
    · intro all newest
      have deleted : ((s.heard n k).tombstone now).deleted.isSome = true :=
        Heard.deleted_tombstone.mpr (.inr newest)
      -- nobody is listed in the state with the tombstone, which has the index of the one before
      exact all k (by rwa [Function.update_self])
    · intro buries k' deleted
      by_cases same : k' = k
      · subst same
        rw [Function.update_self] at deleted
        rcases Heard.deleted_tombstone.mp deleted with before | newest
        · exact unlisted k' before
        · exact buries newest
      · rw [Function.update_of_ne same] at deleted
        exact unlisted k' deleted
  · simp only [newer, if_false]
    exact iff_of_true unlisted fun applied => absurd applied newer

theorem Hidden.process_iff (i : Nat) (draws : GossipProtocol.Draws ν) :
    (s.exec mac (.process n i draws)).Hidden ↔ s.Buries mac (.process n i draws) := by
  cases there : s.sent[i]? with
  | none =>
    simp only [exec, Buries, there]
    exact iff_of_true hidden fun _ _ sent => by cases sent
  | some message =>
    obtain ⟨ad, hmac⟩ := message
    simp only [exec, Buries, there, Option.some.injEq, Prod.mk.injEq]
    rw [hidden.withNode_iff]
    by_cases verified : (s.node n).verifyMessage mac ad hmac = true
    · simp only [GossipProtocol.processAdvertisement, verified, if_true,
        GossipProtocol.lists_takeIn]
      constructor
      · rintro all ad hmac ⟨rfl, rfl⟩ - k deleted
        refine ⟨fun peer listed => ?_, fun advertised free => ?_⟩
        · have dropped := not_and.mp (all k deleted peer) (.inl listed)
          exact Classical.not_imp.mp dropped
        · have dropped := not_and.mp (all k deleted ad.nodeId) (.inr ⟨advertised, free, rfl⟩)
          exact Classical.not_imp.mp dropped
      · rintro buries k deleted peer ⟨listed, kept⟩
        obtain ⟨before, now⟩ := buries ad hmac ⟨rfl, rfl⟩ verified k deleted
        have dropped : s.Drops n ad draws peer := by
          rcases listed with earlier | ⟨advertised, free, rfl⟩
          · exact before peer earlier
          · exact now advertised free
        exact dropped.2 (kept dropped.1)
    · -- the advertisement is ignored
      simp only [GossipProtocol.processAdvertisement, verified, if_false, Bool.false_eq_true]
      refine iff_of_true (fun k deleted => lookup_eq_none_iff.mp (hidden n k deleted)) ?_
      rintro ad' hmac' ⟨rfl, rfl⟩ accepted
      exact absurd accepted verified

theorem Hidden.exec_iff (act : DeletionAction ν κ) :
    (s.exec mac act).Hidden ↔ s.Buries mac act := by
  cases act with
  | storeLocal n now k ref => exact hidden.storeLocal_iff mac now k ref
  | tombstoneEntry n now k => exact hidden.tombstoneEntry_iff mac now k
  | process n i draws => exact hidden.process_iff mac i draws
  | lookup n k =>
    exact iff_of_true (hidden.withNode fun k' peer => (GossipState.lists_lookup _ k).mp) trivial
  | cleanupCacheIndex n now =>
    refine iff_of_true (hidden.withNode fun k peer listed => ?_) trivial
    exact ((GossipState.lists_cleanupCacheIndex _ _ now).mp listed).1
  | cleanupExpired n now =>
    refine iff_of_true (hidden.withNode fun k peer listed => ?_) trivial
    obtain ⟨r, member, same, -⟩ := (GossipState.lists_cleanupExpired _ _ now).mp listed
    exact ⟨r, member, same⟩
  | advertise n deltaOnly now =>
    have told : (s.withNode n ((s.stateOf n).advertise deltaOnly now).2 (s.heard n)).Hidden :=
      hidden.withNode fun _ _ => id
    exact iff_of_true told trivial

end Deletions

open Deletions

/-- **Tombstones.** In every run whose steps meet the condition, an entry that a node has deleted
later than anything it heard of being stored is not found there by a lookup until it hears of a
later store, whatever tombstones are cleaned up and whatever advertisements come again. The
condition is exact: a step leaves what is deleted hidden if and only if it meets it. -/
theorem tombstoned_stay_hidden {mac : K → Advertisement ν κ → S} [LinearOrder ν] [DecidableEq κ]
    [DecidableEq S] {s : Deletions ν κ K S} (reached : (deleting mac).Reaches (Buries mac) s) :
    s.Hidden ∧ ∀ act, (s.exec mac act).Hidden ↔ s.Buries mac act := by
  have hidden : s.Hidden := by
    apply Machine.Reaches.invariant (I := Hidden) _ _ reached
    · rintro s ⟨-, -, nothing⟩ n k deleted
      rw [nothing] at deleted
      cases deleted
    · intro s act hidden _ buries
      exact (hidden.exec_iff mac act).mpr buries
  exact ⟨hidden, hidden.exec_iff mac⟩

/-- All nodes have the key of the deployment, and nothing was heard. -/
def emptyNodes : Deletions String String String (String × String) where
  node n := { state := { nodeId := n }, hmacKey := "deployment" }

theorem emptyNodes_init : (deleting keyedMac).init emptyNodes :=
  ⟨fun _ => rfl, rfl, fun _ _ => rfl⟩

/-- An entry is deleted by a node before the advertisement with it arrives. -/
def deletedBefore : List (DeletionAction String String) :=
  [.storeLocal "a" 1 "h" "block", .advertise "a" false 2, .tombstoneEntry "b" 3 "h",
    .process "b" 0 (plainDraws 4)]

theorem tombstoned_stay_hidden_deletedBefore :
    let s := deletedBefore.foldl (deleting keyedMac).exec emptyNodes
    (s.heard "b" "h").deleted = some 3 ∧ ((s.stateOf "b").lookup "h").1 = none := by
  have follows : (deleting keyedMac).Follows (Buries keyedMac) emptyNodes deletedBefore := by
    refine ⟨trivial, fun _ => nofun, trivial, trivial, trivial, fun _ _ peer => ?_, trivial, ?_,
      trivial⟩
    · rintro ⟨_, member, -⟩
      cases member
    · rintro ad hmac sent - k -
      cases sent
      refine ⟨?_, fun advertised free => ?_⟩
      · rintro peer ⟨_, member, -⟩
        cases member
      · obtain rfl : k = "h" := List.mem_singleton.mp advertised
        refine absurd free ?_
        decide +kernel
  have sound := tombstoned_stay_hidden (.of_follows (.init emptyNodes_init) _ follows)
  have deleted : ((deletedBefore.foldl (deleting keyedMac).exec emptyNodes).heard "b" "h").deleted =
      some 3 := by
    decide +kernel
  exact ⟨deleted, sound.1 "b" "h" (by rw [deleted]; rfl)⟩

def storedAndDeleted : List (DeletionAction String String) :=
  [.storeLocal "a" 1 "h" "block", .tombstoneEntry "a" 2 "h"]

/-- The advertisement comes again when the tombstone is gone. -/
def replayed : List (DeletionAction String String) :=
  deletedBefore ++ [.cleanupExpired "b" 1000, .process "b" 0 (plainDraws 1001)]

theorem deleting_reachable (acts : List (DeletionAction String String)) :
    (deleting keyedMac).Reachable (acts.foldl (deleting keyedMac).exec emptyNodes) := by
  refine .of_follows (.init emptyNodes_init) acts ?_
  generalize emptyNodes = s
  induction acts generalizing s with
  | nil => exact trivial
  | cons act rest ih => exact ⟨trivial, trivial, ih _⟩

/-- The entry is found by a lookup of its own node, and found again after the tombstone. -/
theorem deleted_found_again :
    ((deleting keyedMac).Reachable (storedAndDeleted.foldl (deleting keyedMac).exec emptyNodes) ∧
      ¬ (storedAndDeleted.foldl (deleting keyedMac).exec emptyNodes).Hidden) ∧
    (deleting keyedMac).Reachable (replayed.foldl (deleting keyedMac).exec emptyNodes) ∧
      ¬ (replayed.foldl (deleting keyedMac).exec emptyNodes).Hidden := by
  refine ⟨⟨deleting_reachable _, fun hidden => ?_⟩, deleting_reachable _, fun hidden => ?_⟩
  · have found := hidden "a" "h" (by decide +kernel)
    revert found
    decide +kernel
  · have found := hidden "b" "h" (by decide +kernel)
    revert found
    decide +kernel

end DistLLM.Gossip
