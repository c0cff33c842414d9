import DistLLM.Scheduler.PagedAttention
import Mathlib.Data.List.Perm.Subperm

/-!
# Blocks are shared out

What keeps the block manager sound: every block of the pool is either free or held by exactly one
registered sequence, with one reference. Allocation keeps this for a sequence that is not
registered; for one that is, the blocks it holds would be lost.
-/
namespace DistLLM.Scheduler.PagedAttentionManager

open DistLLM.Library

variable {ρ : Type} [DecidableEq ρ] {mgr mgr' : PagedAttentionManager ρ}

def held (mgr : PagedAttentionManager ρ) : List Nat :=
  mgr.seqBlocks.values.flatMap SequenceBlocks.blockIds

def Registered (mgr : PagedAttentionManager ρ) (rid : ρ) : Prop :=
  (mgr.seqBlocks.get? rid).isSome = true

structure Sound (mgr : PagedAttentionManager ρ) : Prop where
  partition : (mgr.freeBlocks ++ mgr.held).Perm (List.range mgr.numBlocks)
  referenced : ∀ b ∈ mgr.held, (mgr.blocks b).refCount = 1

omit [DecidableEq ρ] in
theorem init_sound (numBlocks blockSize : Nat) :
    (init numBlocks blockSize : PagedAttentionManager ρ).Sound where
  partition := by simp [init, held, Dict.values, EmptyCollection.emptyCollection, Dict.empty]
  referenced := by simp [init, held, Dict.values, EmptyCollection.emptyCollection, Dict.empty]

theorem Sound.free (sound : mgr.Sound) (nobody : ∀ rid, ¬ mgr.Registered rid) :
    mgr.freeBlocks.Perm (List.range mgr.numBlocks) := by
  have none : mgr.held = [] := by
    refine List.flatMap_eq_nil_iff.mpr fun seq member => ?_
    obtain ⟨rid, found⟩ := (mgr.seqBlocks.mem_values_iff seq).mp member
    exact absurd (Option.isSome_iff_exists.mpr ⟨seq, found⟩) (nobody rid)
  simpa [none] using sound.partition

omit [DecidableEq ρ] in
theorem Sound.nodup (sound : mgr.Sound) : (mgr.freeBlocks ++ mgr.held).Nodup :=
  sound.partition.nodup_iff.mpr List.nodup_range

/-! ### Allocation -/

section

omit [DecidableEq ρ]

theorem splitFragmented_subperm (count : Nat) (free fragmented other : List Nat) :
    let split := mgr.splitFragmented count free fragmented other
    (split.1 ++ split.2).Subperm (fragmented ++ other ++ free) := by
  induction free generalizing fragmented other with
  | nil =>
    rw [List.append_nil]
    exact List.Subperm.refl _
  | cons bid rest ih =>
    -- the block goes to one of the lists
    have next (fragmented' other' : List Nat)
        (moved : (fragmented' ++ other').Perm (fragmented ++ other ++ [bid])) :
        let split := if count ≤ fragmented'.length then (fragmented', other')
          else mgr.splitFragmented count rest fragmented' other'
        (split.1 ++ split.2).Subperm (fragmented ++ other ++ bid :: rest) := by
      have whole : (fragmented' ++ other' ++ rest).Perm (fragmented ++ other ++ bid :: rest) := by
        simpa using moved.append_right rest
      split
      · exact (List.sublist_append_left _ rest).subperm.trans whole.subperm
      · exact (ih fragmented' other').trans whole.subperm
    unfold splitFragmented
    dsimp only
    split
    · refine next (fragmented ++ [bid]) other ?_
      have swap : ([bid] ++ other).Perm (other ++ [bid]) := List.perm_append_comm
      simpa using swap.append_left fragmented
    · exact next fragmented (other ++ [bid]) (by simp)

theorem findFragmentedBlocks_subperm (count : Nat) :
    (mgr.findFragmentedBlocks count).Subperm mgr.freeBlocks := by
  have split := mgr.splitFragmented_subperm count mgr.freeBlocks [] []
  unfold findFragmentedBlocks
  dsimp only at *
  refine List.Subperm.trans ?_ split
  split
  · refine List.Sublist.subperm (List.Sublist.append (List.take_sublist _ _) ?_)
    exact (List.take_sublist _ _).trans List.filter_sublist
  · exact ((List.take_sublist _ _).trans (List.sublist_append_left _ _)).subperm

theorem findFragmentedBlocks_perm (distinct : mgr.freeBlocks.Nodup) (count : Nat) :
    mgr.freeBlocks.Perm (mgr.findFragmentedBlocks count ++
      mgr.freeBlocks.filter fun b => decide (b ∉ mgr.findFragmentedBlocks count)) := by
  have found := mgr.findFragmentedBlocks_subperm count
  -- the blocks found are among the free ones, each once
  have once : (mgr.findFragmentedBlocks count).Nodup := by
    obtain ⟨blocks, perm, sub⟩ := found
    exact perm.nodup_iff.mp (distinct.sublist sub)
  have taken : (mgr.freeBlocks.filter fun b => decide (b ∈ mgr.findFragmentedBlocks count)).Perm
      (mgr.findFragmentedBlocks count) := by
    refine (List.perm_ext_iff_of_nodup (distinct.filter _) once).mpr fun b => ?_
    rw [List.mem_filter, decide_eq_true_eq]
    exact ⟨And.right, fun member => ⟨found.subset member, member⟩⟩
  have parts := List.filter_append_perm
    (fun b => decide (b ∈ mgr.findFragmentedBlocks count)) mgr.freeBlocks
  simp only [← decide_not] at parts
  exact parts.symm.trans (taken.append_right _)

theorem splitFragmented_all (count : Nat) (free fragmented other : List Nat) :
    let split := mgr.splitFragmented count free fragmented other
    count ≤ split.1.length ∨ (split.1 ++ split.2).Perm (fragmented ++ other ++ free) := by
  induction free generalizing fragmented other with
  | nil => simp [splitFragmented]
  | cons bid rest ih =>
    have next (fragmented' other' : List Nat)
        (moved : (fragmented' ++ other').Perm (fragmented ++ other ++ [bid])) :
        let split := if count ≤ fragmented'.length then (fragmented', other')
          else mgr.splitFragmented count rest fragmented' other'
        count ≤ split.1.length ∨ (split.1 ++ split.2).Perm (fragmented ++ other ++ bid :: rest) := by
      split
      next enough => exact .inl enough
      next =>
        have whole := moved.append_right rest
        rw [List.append_assoc _ [bid], List.singleton_append] at whole
        exact (ih fragmented' other').imp_right fun perm => perm.trans whole
    simp only [splitFragmented]
    split
    · apply next (fragmented ++ [bid]) other
      have swap : ([bid] ++ other).Perm (other ++ [bid]) := List.perm_append_comm
      simpa using swap.append_left fragmented
    · exact next fragmented (other ++ [bid]) (by simp)

theorem findFragmentedBlocks_length (distinct : mgr.freeBlocks.Nodup) {count : Nat}
    (enough : count ≤ mgr.freeBlocks.length) : (mgr.findFragmentedBlocks count).length = count := by
  have split := mgr.splitFragmented_all count mgr.freeBlocks [] []
  simp only [findFragmentedBlocks, List.nil_append] at *
  generalize mgr.splitFragmented count mgr.freeBlocks [] [] = parts at *
  obtain ⟨fragmented, other⟩ := parts
  by_cases found : count ≤ fragmented.length
  · simp [found]
  · -- all free blocks are in one of the two lists
    have perm := split.resolve_left found
    have short : fragmented.take count = fragmented := List.take_of_length_le (by omega)
    have apart : (other.filter fun b => decide (b ∉ fragmented)) = other := by
      have once := List.nodup_append'.mp (perm.nodup_iff.mpr distinct)
      exact List.filter_eq_self.mpr fun b member => by
        simpa using fun taken => once.2.2 taken member
    have total : fragmented.length + other.length = mgr.freeBlocks.length := by
      simpa using perm.length_eq
    rw [short, if_pos (by omega), apart]
    simp
    omega

end

theorem Sound.allocate (sound : mgr.Sound) {rid : ρ} {numTokens : Nat}
    (new : ¬ mgr.Registered rid) (done : mgr.allocateSequence rid numTokens = some mgr') :
    mgr'.Sound ∧ mgr'.numBlocks = mgr.numBlocks ∧
      ∀ other, mgr'.Registered other ↔ mgr.Registered other ∨ other = rid := by
  unfold allocateSequence at done
  dsimp only at done
  split at done
  · cases done
  cases done
  have distinct := (List.nodup_append'.mp sound.nodup)
  have parts := mgr.findFragmentedBlocks_perm distinct.1 (mgr.blocksNeeded numTokens)
  have found := mgr.findFragmentedBlocks_subperm (mgr.blocksNeeded numTokens)
  generalize mgr.findFragmentedBlocks (mgr.blocksNeeded numTokens) = candidates at *
  -- no blocks are held under this id, so none are lost when it is set
  have absent : mgr.seqBlocks.get? rid = none := by
    simpa [Registered] using new
  have values : (mgr.seqBlocks.set rid { blockIds := candidates, numTokens }).values =
      mgr.seqBlocks.values ++ [{ blockIds := candidates, numTokens }] := by
    simp [Dict.values, mgr.seqBlocks.entries_set_of_absent rid _ absent]
  refine ⟨⟨?_, ?_⟩, rfl, fun other => ?_⟩
  · refine List.Perm.trans ?_ sound.partition
    simp only [held, values, List.flatMap_append, List.flatMap_singleton]
    refine List.Perm.trans ?_ (parts.symm.append_right mgr.held)
    rw [List.append_assoc]
    exact (List.Perm.of_eq (List.append_assoc ..).symm).trans List.perm_append_comm
  · intro b member
    simp only [held, values, List.flatMap_append, List.flatMap_singleton, List.mem_append] at member
    dsimp only
    rcases member with old | taken
    · rw [if_neg fun taken => distinct.2.2 (found.subset taken) old]
      exact sound.referenced b old
    · rw [if_pos taken]
  · unfold Registered
    rw [Dict.get?_set]
    by_cases same : rid = other
    · simp [same]
    · simp [same, Ne.symm same]

omit [DecidableEq ρ] in
theorem foldl_releaseBlock (bids : List Nat) (mgr : PagedAttentionManager ρ)
    (distinct : bids.Nodup) (single : ∀ b ∈ bids, (mgr.blocks b).refCount = 1) :
    let mgr' := bids.foldl releaseBlock mgr
    mgr' = { mgr with blocks := mgr'.blocks, freeBlocks := mgr.freeBlocks ++ bids } ∧
      ∀ b, b ∉ bids → mgr'.blocks b = mgr.blocks b := by
  induction bids generalizing mgr with
  | nil => simp
  | cons bid rest ih =>
    rw [List.nodup_cons] at distinct
    have one : mgr.releaseBlock bid = { mgr with
        blocks := Function.update mgr.blocks bid {}
        freeBlocks := mgr.freeBlocks ++ [bid] } := by
      unfold releaseBlock
      rw [single bid (List.mem_cons_self ..)]
      rfl
    have others : ∀ b, b ≠ bid → (mgr.releaseBlock bid).blocks b = mgr.blocks b := by
      intro b apart
      rw [one]
      exact Function.update_of_ne apart _ _
    obtain ⟨frame, kept⟩ := ih (mgr.releaseBlock bid) distinct.2 fun b member => by
      rw [others b fun same => distinct.1 (same ▸ member)]
      exact single b (List.mem_cons_of_mem _ member)
    rw [List.foldl_cons]
    refine ⟨?_, fun b absent => ?_⟩
    · rw [frame, one, List.append_assoc]
      rfl
    · rw [List.mem_cons, not_or] at absent
      rw [kept b absent.2, others b absent.1]

theorem Sound.freeSequence (sound : mgr.Sound) (rid : ρ) :
    (mgr.freeSequence rid).Sound ∧ (mgr.freeSequence rid).numBlocks = mgr.numBlocks ∧
      ∀ other, (mgr.freeSequence rid).Registered other ↔ mgr.Registered other ∧ other ≠ rid := by
  unfold PagedAttentionManager.freeSequence
  cases found : mgr.seqBlocks.get? rid with
  | none =>
    refine ⟨sound, rfl, fun other => ⟨fun held => ⟨held, ?_⟩, And.left⟩⟩
    rintro rfl
    simp [Registered, found] at held
  | some seq =>
    have values : mgr.held.Perm (seq.blockIds ++ (mgr.seqBlocks.filterKeys fun k =>
        decide (k ≠ rid)).values.flatMap SequenceBlocks.blockIds) := by
      have entries := mgr.seqBlocks.entries_perm_filterKeys rid seq found
      exact (entries.map Prod.snd).flatMap_right _
    have distinct := List.nodup_append'.mp sound.nodup
    have inside := values.nodup_iff.mp distinct.2.1
    obtain ⟨ids, others, apart⟩ := List.nodup_append'.mp inside
    -- each of its blocks has one reference, so all of them become free
    obtain ⟨frame, kept⟩ := foldl_releaseBlock seq.blockIds
      { mgr with seqBlocks := mgr.seqBlocks.filterKeys fun k => decide (k ≠ rid) } ids
      fun b member => sound.referenced b (values.mem_iff.mpr (List.mem_append_left _ member))
    dsimp only at *
    refine ⟨⟨?_, ?_⟩, ?_, fun other => ?_⟩
    · rw [frame]
      refine List.Perm.trans ?_ sound.partition
      rw [List.append_assoc]
      exact values.symm.append_left _
    · intro b member
      have stays : b ∈ (mgr.seqBlocks.filterKeys fun k =>
          decide (k ≠ rid)).values.flatMap SequenceBlocks.blockIds := by
        rw [frame] at member
        exact member
      rw [kept b fun freed => apart freed stays]
      exact sound.referenced b (values.mem_iff.mpr (List.mem_append_right _ stays))
    · rw [frame]
    · rw [frame]
      unfold Registered
      rw [Dict.get?_filterKeys]
      by_cases same : other = rid
      · simp [same]
      · simp [same]

theorem Sound.freeSequences (sound : mgr.Sound) (rids : List ρ) :
    (rids.foldl PagedAttentionManager.freeSequence mgr).Sound ∧
      (rids.foldl PagedAttentionManager.freeSequence mgr).numBlocks = mgr.numBlocks ∧
      ∀ other, (rids.foldl PagedAttentionManager.freeSequence mgr).Registered other ↔
        mgr.Registered other ∧ other ∉ rids := by
  induction rids generalizing mgr with
  | nil => simp [sound]
  | cons rid rest ih =>
    obtain ⟨one, size, left⟩ := sound.freeSequence rid
    obtain ⟨all, size', left'⟩ := ih one
    refine ⟨all, size'.trans size, fun other => ?_⟩
    rw [List.foldl_cons, left', left, List.mem_cons, not_or, and_assoc]

end DistLLM.Scheduler.PagedAttentionManager
