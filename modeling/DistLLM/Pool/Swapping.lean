import DistLLM.Pool.Partition

/-!
# What an allocation swaps out

An allocation may swap out a block to make room, and one more when it crosses the watermark. All
other blocks in use stay in use, with what they hold.
-/
namespace DistLLM.Pool

open DistLLM.Library

variable {τ δ : Type} [LinearOrder τ] {pool pool' : BlockPool τ δ}

namespace BlockPool

/-- Except for `c`, which is accessed now, `b` is the least recently used block. -/
def OldestBut (pool : BlockPool τ δ) (c : Nat) (now : τ) (b : Nat) : Prop :=
  ∃ t, (t, b) ∈ pool.lruHeap ∧ pool.isLive (t, b) = true ∧ toLex (t, b) ≤ toLex (now, c) ∧
    ∀ e ∈ pool.lruHeap, pool.isLive e = true → e.2 ≠ c → toLex (t, b) ≤ toLex e

/-- An allocation with this reading swaps out `b`, and does not return it: to make room, or since
the block that it returns fills the pool beyond the watermark. -/
def SwapsOut (pool : BlockPool τ δ) (reading : Reading τ) (b : Nat) : Prop :=
  pool.config.swapToCpu = true ∧ pool.hasRoom = true ∧
    (pool.freeBlocks = [] ∧ (pool.config.autoExpand && reading.memory) = false ∧
        pool.LeastRecent b ∨
      pool.config.aboveWatermark pool.numBlocks pool.numBlocks = true ∧
        pool.config.restoreTarget pool.numBlocks < pool.numBlocks ∧
        ∃ c, c ≠ b ∧ pool.Fills reading c ∧ pool.OldestBut c reading.now b)

theorem oldestBut_of_take {b c : Nat} {now : τ} (other : b ≠ c)
    (least : (pool.take c now).LeastRecent b) : pool.OldestBut c now b := by
  obtain ⟨t, member, live, least⟩ := least
  have heap : ∀ e, e ∈ (pool.take c now).lruHeap ↔ e = (now, c) ∨ e ∈ pool.lruHeap :=
    fun e => Heap.mem_push
  refine ⟨t, ?_, by simpa [isLive_take, other] using live, ?_, fun e old alive apart => ?_⟩
  · rcases (heap _).mp member with here | old
    · exact absurd (congrArg Prod.snd here) other
    · exact old
  · exact least _ ((heap _).mpr (.inl rfl)) (by simp [isLive_take])
  · exact least e ((heap e).mpr (.inr old)) (by simpa [isLive_take, apart] using alive)

theorem oldestBut_of_swapped {b c : Nat} {now : τ} (ordered : Heap.Ordered toLex pool.lruHeap)
    (swapped : pool.swapLruBlock.1 = some c) (other : b ≠ c)
    (oldest : pool.swapLruBlock.2.OldestBut c now b) : pool.OldestBut c now b := by
  obtain ⟨rest, _, fewer, spec⟩ := swapLruBlock_spec ordered
  split at spec
  next pool' same => simp [same] at swapped
  next d pool' same =>
    obtain ⟨left, _, t', _, _, least⟩ := spec
    have here : d = c := by simpa [same] using swapped
    subst here
    have heap : pool'.lruHeap = rest := by simp [left, BlockPool.swapOut]
    have alive : ∀ e : τ × Nat, e.2 ≠ d → pool'.isLive e = pool.isLive e := by
      intro e apart
      simp [left, isLive, BlockPool.swapOut, apart]
    rw [same] at oldest
    obtain ⟨t, member, live, before, first⟩ := oldest
    rw [heap] at member first
    refine ⟨t, fewer _ member, by rwa [← alive _ other], before, fun e old ok apart => ?_⟩
    have kept : e ∈ rest := (least e old ok).2.resolve_left fun equal =>
      apart (congrArg Prod.snd equal)
    exact first e kept (by rwa [alive e apart]) apart

theorem swapLruBlock_usage {b : Nat} (other : pool.swapLruBlock.1 ≠ some b) :
    pool.swapLruBlock.2.blockUsage b = pool.blockUsage b := by
  obtain ⟨rest, same | ⟨c, same⟩⟩ := pool.swapLruBlock_cases
  · rw [same]
  · rw [same] at other ⊢
    have apart : b ≠ c := fun here => other (by rw [here])
    simp [BlockPool.swapOut, apart]

theorem relieve_config : pool.relieve.2.config = pool.config := by
  rw [relieve_eq]
  split
  · obtain ⟨rest, same | ⟨b, same⟩⟩ := pool.swapLruBlock_cases <;>
      simp [same, BlockPool.swapOut]
  · rfl

variable [Inhabited δ]

omit [LinearOrder τ] in
theorem expandPool_usage (memory : Bool) :
    (pool.expandPool memory).2.blockUsage = pool.blockUsage := by
  simp only [expandPool]
  split
  · rfl
  · split <;> rfl

theorem makeRoom_usage (ordered : Heap.Ordered toLex pool.lruHeap) {reading : Reading τ} {b : Nat}
    (kept : ¬ pool.SwapsOut reading b) :
    (pool.makeRoom reading.memory).2.2.blockUsage b = pool.blockUsage b := by
  obtain ⟨_, made⟩ | ⟨_, _, made⟩ | ⟨empty, stuck, swap, made⟩ | ⟨_, _, _, made⟩ :=
    pool.makeRoom_cases reading.memory <;> rw [made]
  · rw [expandPool_usage]
  · apply swapLruBlock_usage
    intro swapped
    obtain ⟨room, least⟩ := (swapLruBlock_victim ordered b).mp swapped
    exact kept ⟨swap, room, .inl ⟨empty, stuck, least⟩⟩

theorem allocateBlock_config (pool : BlockPool τ δ) (reading : Reading τ) :
    (pool.allocateBlock reading).2.config = pool.config := by
  have made : (pool.makeRoom reading.memory).2.2.config = pool.config := by
    obtain ⟨_, made⟩ | ⟨_, _, made⟩ | ⟨_, _, _, made⟩ | ⟨_, _, _, made⟩ :=
      pool.makeRoom_cases reading.memory <;> rw [made]
    · simp only [expandPool]
      split
      · rfl
      · split <;> rfl
    · obtain ⟨rest, same | ⟨b, same⟩⟩ := pool.swapLruBlock_cases <;>
        simp [same, BlockPool.swapOut]
  obtain ⟨pool', failed, same⟩ | ⟨victim, mid, front, c, room, last, allocated⟩ :=
    pool.allocateBlock_spec reading
  · rw [failed, same]
    exact made
  · rw [room] at made
    rw [allocated, relieve_config]
    exact made

theorem allocateBlock_usage (sound : pool.Sound) {reading : Reading τ} {b : Nat}
    (kept : ¬ pool.SwapsOut reading b) (other : (pool.allocateBlock reading).1 ≠ some b) :
    (pool.allocateBlock reading).2.blockUsage b = pool.blockUsage b := by
  have before := makeRoom_usage sound.ordered kept
  obtain ⟨pool', failed, same⟩ | ⟨victim, mid, front, c, made, last, allocated⟩ :=
    pool.allocateBlock_spec reading
  · rw [failed, same]
    exact before
  -- making room has left the block alone, and another one is taken
  have inside : mid.Sound := by simpa [made] using sound.makeRoom reading.memory
  rw [allocated] at other ⊢
  rw [made] at before
  have apart : b ≠ c := fun here => other (by rw [here])
  have taken : (mid.take c reading.now).blockUsage b = pool.blockUsage b := by
    rw [← before]
    simp [BlockPool.take, apart]
  rw [relieve_eq]
  split
  next crossed =>
    rw [← taken]
    apply swapLruBlock_usage
    intro swapped
    -- a victim after that would be the oldest but the block taken
    obtain ⟨room, least⟩ :=
      (swapLruBlock_victim (inside.take last reading.now).ordered b).mp swapped
    have oldest := oldestBut_of_take apart least
    have none : front = [] := by simpa [BlockPool.take, last] using crossed.2.2.2
    rw [none] at last
    obtain ⟨space, filled⟩ := (sound.fills_iff made c).mp ⟨last, room⟩
    have full : (mid.take c reading.now).usedCount = mid.numBlocks := by
      simp [usedCount, BlockPool.take, last]
    obtain ⟨swap, above, target, _⟩ := crossed
    rw [full] at above target
    obtain ⟨_, rfl⟩ | ⟨_, _, _, first⟩ := makeRoom_last made last
    · exact kept ⟨swap, space, .inr ⟨above, target, c, apart.symm, filled, oldest⟩⟩
    · obtain ⟨_, config, size⟩ := hasRoom_of_swapLruBlock first
      have before : pool.OldestBut c reading.now b :=
        oldestBut_of_swapped sound.ordered (by rw [first]) apart (by rwa [first])
      simp only [BlockPool.take, config, size] at swap above target
      exact kept ⟨swap, space, .inr ⟨above, target, c, apart.symm, filled, before⟩⟩
  · exact taken

end BlockPool

end DistLLM.Pool
