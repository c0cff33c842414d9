import DistLLM.Pool.BlockPool

/-!
# Free blocks and blocks in use

Every block of the pool is free or in use, and never both. Allocation keeps this, but the block
that it returns may be the one that it swaps out on crossing the watermark: the blocks restored
from the swap space are not in the heap, and a block that was just allocated is.
-/
namespace DistLLM.Pool

open DistLLM.Library

variable {τ δ : Type} [LinearOrder τ] {pool pool' : BlockPool τ δ}

namespace BlockPool

def InUse (pool : BlockPool τ δ) (b : Nat) : Prop := (pool.blockUsage b).isSome = true

instance (b : Nat) : Decidable (pool.InUse b) := inferInstanceAs (Decidable (_ = true))

/-- Free blocks and blocks in use share out the pool. -/
structure Partition (pool : BlockPool τ δ) : Prop where
  distinct : pool.freeBlocks.Nodup
  apart : ∀ b ∈ pool.freeBlocks, ¬ pool.InUse b
  covered : ∀ b < pool.numBlocks, b ∈ pool.freeBlocks ∨ pool.InUse b

/-- What the operations need to keep the partition. -/
structure Sound (pool : BlockPool τ δ) : Prop extends Partition pool where
  free_lt : ∀ b ∈ pool.freeBlocks, b < pool.numBlocks
  used_lt : ∀ b, pool.InUse b → b < pool.numBlocks
  swapped_lt : ∀ b entry, pool.swapSpace.get? b = some entry → b < pool.numBlocks
  ordered : Heap.Ordered toLex pool.lruHeap

omit [LinearOrder τ] in
theorem inUse_update (usage : Nat → Option (Block τ)) (b c : Nat) (block : Option (Block τ)) :
    (Function.update usage b block c).isSome = true ↔
      if c = b then block.isSome = true else (usage c).isSome = true := by
  by_cases here : c = b <;> simp [here]

omit [LinearOrder τ] in
theorem inUse_swapOut (b c : Nat) : (pool.swapOut b).InUse c ↔ c ≠ b ∧ pool.InUse c := by
  simp only [InUse, BlockPool.swapOut, inUse_update]
  split
  next here => simp [here]
  next other => simp [other]

/-! ### Single changes -/

omit [LinearOrder τ] in
theorem create_fresh [Inhabited δ] {config : Config} {numBlocks : Int}
    (created : create config numBlocks = .ok pool) :
    pool.config = config ∧ (∀ b, ¬ pool.InUse b) ∧ (∀ b, pool.swapSpace.get? b = none) ∧
      pool.contents = fun _ => default := by
  simp only [create] at created
  split at created
  · cases created
  split at created
  · cases created
  cases created
  exact ⟨rfl, fun b => by simp [InUse], fun b => by simp, rfl⟩

theorem create_sound [Inhabited δ] {config : Config} {numBlocks : Int}
    (created : create config numBlocks = .ok pool) : pool.Sound := by
  simp only [create] at created
  split at created
  · cases created
  split at created
  · cases created
  cases created
  constructor
  case toPartition =>
    exact ⟨List.nodup_range, by simp [InUse], fun b inside => .inl (List.mem_range.mpr inside)⟩
  case free_lt => simp
  case used_lt => simp [InUse]
  case swapped_lt => simp
  case ordered => exact fun i _ _ => by simp [Heap.Edge, Heap.rank]

theorem Sound.withHeap (sound : pool.Sound) {rest : Array (τ × Nat)}
    (ordered : Heap.Ordered toLex rest) : { pool with lruHeap := rest }.Sound :=
  { sound with ordered }

variable {usage : Nat → Option (Block τ)}

omit [LinearOrder τ] in
theorem Partition.withUsage (parts : pool.Partition)
    (same : ∀ b, (usage b).isSome = true ↔ pool.InUse b) :
    { pool with blockUsage := usage }.Partition where
  distinct := parts.distinct
  apart b member := fun inUse => parts.apart b member ((same b).mp inUse)
  covered b inside := (parts.covered b inside).imp_right (same b).mpr

theorem Sound.withUsage (sound : pool.Sound) (same : ∀ b, (usage b).isSome = true ↔ pool.InUse b) :
    { pool with blockUsage := usage }.Sound where
  toPartition := sound.toPartition.withUsage same
  free_lt := sound.free_lt
  used_lt b inUse := sound.used_lt b ((same b).mp inUse)
  swapped_lt := sound.swapped_lt
  ordered := sound.ordered

variable {b : Nat}

section

variable (sound : pool.Sound)

include sound

theorem Sound.swapOut (used : pool.InUse b) :
    (pool.swapOut b).Sound := by
  -- a block in use is not free, so the free list gets it once
  have taken : b ∉ pool.freeBlocks := fun free => sound.apart b free used
  constructor
  case toPartition =>
    refine ⟨sound.distinct.append (List.nodup_singleton b) (by simpa using taken), ?_, ?_⟩
    · intro c member
      simp only [BlockPool.swapOut, List.mem_append, List.mem_singleton] at member
      rw [inUse_swapOut]
      rintro ⟨other, inUse⟩
      exact sound.apart c (member.resolve_right other) inUse
    · intro c inside
      rw [inUse_swapOut]
      simp only [BlockPool.swapOut, List.mem_append, List.mem_singleton]
      by_cases here : c = b
      · simp [here]
      · simpa [here] using sound.covered c inside
  case free_lt =>
    intro c member
    rcases List.mem_append.mp member with old | new
    · exact sound.free_lt c old
    · exact List.mem_singleton.mp new ▸ sound.used_lt b used
  case used_lt =>
    exact fun c inUse => sound.used_lt c ((inUse_swapOut b c).mp inUse).2
  case swapped_lt =>
    intro c entry found
    simp only [BlockPool.swapOut, Dict.get?_set] at found
    split at found
    next here => exact here ▸ sound.used_lt b used
    next => exact sound.swapped_lt c entry found
  case ordered => exact sound.ordered

theorem Sound.take {front : List Nat} (last : pool.freeBlocks = front ++ [b])
    (now : τ) : (pool.take b now).Sound := by
  have front_eq : (pool.take b now).freeBlocks = front := by simp [BlockPool.take, last]
  -- the block taken is in the free list once
  have distinct := sound.distinct
  rw [last, List.nodup_append] at distinct
  have apart : b ∉ front := fun member => distinct.2.2 b member b (by simp) rfl
  constructor
  case toPartition =>
    refine ⟨front_eq ▸ distinct.1, ?_, ?_⟩
    · intro c member
      rw [front_eq] at member
      simp only [InUse, BlockPool.take, inUse_update]
      rw [if_neg fun here : c = b => apart (here ▸ member)]
      exact sound.apart c (by simp [last, member])
    · intro c inside
      rw [front_eq]
      simp only [InUse, BlockPool.take, inUse_update]
      have cover := sound.covered c inside
      rw [last, List.mem_append, List.mem_singleton] at cover
      by_cases here : c = b
      · simp [here]
      · simpa [here, InUse] using cover
  case free_lt =>
    intro c member
    rw [front_eq] at member
    exact sound.free_lt c (by simp [last, member])
  case used_lt =>
    intro c inUse
    simp only [InUse, BlockPool.take, inUse_update] at inUse
    by_cases here : c = b
    · rw [here]
      exact sound.free_lt b (by simp [last])
    · rw [if_neg here] at inUse
      exact sound.used_lt c inUse
  case swapped_lt => exact sound.swapped_lt
  case ordered => exact Heap.push_ordered sound.ordered _

theorem Sound.expandPool [Inhabited δ] (memory : Bool) :
    (pool.expandPool memory).2.Sound := by
  simp only [BlockPool.expandPool]
  split
  · exact sound
  split
  · exact sound
  -- the new ids start where the old ones end
  have new : ∀ b, b ∈ List.range' pool.numBlocks (max pool.numBlocks 64) ↔
      pool.numBlocks ≤ b ∧ b < pool.numBlocks + max pool.numBlocks 64 := by
    simp [List.mem_range'_1]
  constructor
  case toPartition =>
    refine ⟨sound.distinct.append List.nodup_range' ?_, ?_, ?_⟩
    · intro b old added
      have := sound.free_lt b old
      have := (new b).mp added
      omega
    · intro b member
      rcases List.mem_append.mp member with old | added
      · exact sound.apart b old
      · intro inUse
        have := sound.used_lt b inUse
        have := (new b).mp added
        omega
    · intro b inside
      rw [List.mem_append, new]
      by_cases old : b < pool.numBlocks
      · exact (sound.covered b old).imp_left .inl
      · exact .inl (.inr ⟨by omega, inside⟩)
  case free_lt =>
    intro b member
    rcases List.mem_append.mp member with old | added
    · exact (sound.free_lt b old).trans_le (Nat.le_add_right ..)
    · exact ((new b).mp added).2
  case used_lt => exact fun b inUse => (sound.used_lt b inUse).trans_le (Nat.le_add_right ..)
  case swapped_lt =>
    exact fun b entry found => (sound.swapped_lt b entry found).trans_le (Nat.le_add_right ..)
  case ordered => exact sound.ordered

theorem Sound.freeBlock (b : Nat) : (pool.freeBlock b).Sound := by
  simp only [BlockPool.freeBlock]
  cases found : pool.blockUsage b with
  | none => exact sound
  | some block =>
    have used : pool.InUse b := by simp [InUse, found]
    dsimp only
    split
    · -- what swapping out does, without the entry in the swap space
      have swapped := sound.swapOut used
      exact { swapped with swapped_lt := sound.swapped_lt }
    · apply sound.withUsage
      intro c
      by_cases here : c = b
      · simp [here, used]
      · simp [here, InUse]

theorem Sound.restoreBlock (b : Nat) (now : τ) :
    (pool.restoreBlock b now).2.Sound := by
  simp only [BlockPool.restoreBlock]
  cases found : pool.swapSpace.get? b with
  | none => exact sound
  | some entry =>
    constructor
    -- the id leaves the free list when its block is in use again
    case toPartition =>
      refine ⟨sound.distinct.erase b, ?_, ?_⟩
      · intro c member
        obtain ⟨apart, old⟩ := (sound.distinct.mem_erase_iff).mp member
        simpa [InUse, inUse_update, apart] using sound.apart c old
      · intro c inside
        simp only [InUse, inUse_update, sound.distinct.mem_erase_iff]
        by_cases here : c = b
        · simp [here]
        · simpa [here, InUse] using sound.covered c inside
    case free_lt => exact fun c member => sound.free_lt c (List.mem_of_mem_erase member)
    case used_lt =>
      intro c inUse
      simp only [InUse, inUse_update] at inUse
      split at inUse
      next here => exact here ▸ sound.swapped_lt b entry found
      next => exact sound.used_lt c inUse
    case swapped_lt =>
      intro c entry' kept
      simp only [Dict.get?_filterKeys] at kept
      split at kept
      · exact sound.swapped_lt c entry' kept
      · cases kept
    case ordered => exact sound.ordered

end

/-! ### Swapping out the least recently used block -/

theorem swapLruBlock_spec (ordered : Heap.Ordered toLex pool.lruHeap) :
    ∃ rest, Heap.Ordered toLex rest ∧ (∀ e ∈ rest, e ∈ pool.lruHeap) ∧
      match pool.swapLruBlock with
      | (none, pool') => pool' = { pool with lruHeap := rest } ∧
          (pool.hasRoom = true → ∀ e ∈ pool.lruHeap, pool.isLive e = false)
      | (some b, pool') => pool' = { pool with lruHeap := rest }.swapOut b ∧
          pool.hasRoom = true ∧ ∃ t, (t, b) ∈ pool.lruHeap ∧ pool.isLive (t, b) = true ∧
            ∀ e ∈ pool.lruHeap, pool.isLive e = true →
              toLex (t, b) ≤ toLex e ∧ (e = (t, b) ∨ e ∈ rest) := by
  simp only [swapLruBlock]
  cases popped : Heap.popValid toLex pool.isLive pool.lruHeap with
  | mk found rest =>
    cases found with
    | none =>
      obtain ⟨empty, stale⟩ := Heap.popValid_none ordered popped
      refine ⟨rest, ?_, by simp [empty], rfl, fun _ => stale⟩
      rw [empty]
      exact fun i _ _ => by simp [Heap.Edge, Heap.rank]
    | some entry =>
      obtain ⟨t, b⟩ := entry
      obtain ⟨known, live, better, fewer, least⟩ := Heap.popValid_some ordered popped
      refine ⟨rest, better, fewer, ?_⟩
      by_cases room : pool.hasRoom = true
      · simp only [room, if_true, true_and]
        exact ⟨t, known, live, least⟩
      · simp [room]

theorem swapLruBlock_cases (pool : BlockPool τ δ) :
    ∃ rest, pool.swapLruBlock = (none, { pool with lruHeap := rest }) ∨
      ∃ b, pool.swapLruBlock = (some b, { pool with lruHeap := rest }.swapOut b) := by
  simp only [swapLruBlock]
  split
  next rest _ => exact ⟨rest, .inl rfl⟩
  next b rest _ =>
    refine ⟨rest, ?_⟩
    split
    · exact .inr ⟨b, rfl⟩
    · exact .inl rfl

theorem inUse_of_isLive {e : τ × Nat} (live : pool.isLive e = true) : pool.InUse e.2 := by
  simp only [isLive] at live
  simp only [InUse]
  split at live
  next block found => simp [found]
  next => cases live

theorem Sound.swapLruBlock (sound : pool.Sound) : pool.swapLruBlock.2.Sound := by
  obtain ⟨rest, better, _, spec⟩ := swapLruBlock_spec sound.ordered
  split at spec
  next pool' same =>
    rw [same, spec.1]
    exact sound.withHeap better
  next b pool' same =>
    obtain ⟨swapped, _, t, _, live, _⟩ := spec
    rw [same, swapped]
    exact (sound.withHeap better).swapOut (inUse_of_isLive live)

/-- One round of the loop after an allocation: a block swapped out is a free block, which ends it. -/
theorem relieve_eq : pool.relieve =
    if pool.config.swapToCpu = true ∧
        pool.config.aboveWatermark pool.usedCount pool.numBlocks = true ∧
        pool.config.restoreTarget pool.numBlocks < pool.usedCount ∧ pool.freeBlocks = [] then
      (pool.swapLruBlock.1.toList, pool.swapLruBlock.2)
    else ([], pool) := by
  simp only [relieve]
  by_cases crossed : pool.config.swapToCpu = true ∧
      pool.config.aboveWatermark pool.usedCount pool.numBlocks = true
  · rw [if_pos crossed]
    simp only [evictLoop, crossed.1, crossed.2, true_and]
    by_cases full : pool.config.restoreTarget pool.numBlocks < pool.usedCount ∧
        pool.freeBlocks = []
    · rw [if_pos full, if_pos full]
      obtain ⟨rest, same | ⟨b, same⟩⟩ := pool.swapLruBlock_cases
      · simp [same]
      · have freed : ({ pool with lruHeap := rest }.swapOut b).freeBlocks ≠ [] := by
          simp [BlockPool.swapOut]
        cases fuel : pool.numBlocks <;> simp [evictLoop, same, freed]
    · rw [if_neg full, if_neg full]
  · rw [if_neg crossed, if_neg fun all => crossed ⟨all.1, all.2.1⟩]

/-- A block of least last access among those in use that the heap knows. -/
def LeastRecent (pool : BlockPool τ δ) (b : Nat) : Prop :=
  ∃ t, (t, b) ∈ pool.lruHeap ∧ pool.isLive (t, b) = true ∧
    ∀ e ∈ pool.lruHeap, pool.isLive e = true → toLex (t, b) ≤ toLex e

theorem swapLruBlock_victim (ordered : Heap.Ordered toLex pool.lruHeap) (b : Nat) :
    pool.swapLruBlock.1 = some b ↔ pool.hasRoom = true ∧ pool.LeastRecent b := by
  obtain ⟨rest, _, _, spec⟩ := swapLruBlock_spec ordered
  split at spec
  next pool' same =>
    rw [same]
    simp only [reduceCtorEq, false_iff]
    rintro ⟨room, t, member, live, _⟩
    simp [spec.2 room _ member] at live
  next c pool' same =>
    obtain ⟨_, room, t, known, live, least⟩ := spec
    rw [same]
    constructor
    · intro here
      cases here
      exact ⟨room, t, known, live, fun e member ok => (least e member ok).1⟩
    · rintro ⟨_, t', member, live', least'⟩
      -- the least entry is unique, as the keys are compared with their blocks
      have equal : toLex (t, c) = toLex (t', b) :=
        le_antisymm (least _ member live').1 (least' _ known live)
      simpa using congrArg (fun e => (ofLex e).2) equal

theorem makeRoom_cases [Inhabited δ] (pool : BlockPool τ δ) (memory : Bool) :
    (pool.freeBlocks ≠ [] ∧ pool.makeRoom memory = (true, none, pool)) ∨
    (pool.freeBlocks = [] ∧ (pool.config.autoExpand && memory) = true ∧
      pool.makeRoom memory = (true, none, (pool.expandPool memory).2)) ∨
    (pool.freeBlocks = [] ∧ (pool.config.autoExpand && memory) = false ∧
      pool.config.swapToCpu = true ∧ pool.makeRoom memory =
        (pool.swapLruBlock.1.isSome, pool.swapLruBlock.1, pool.swapLruBlock.2)) ∨
    (pool.freeBlocks = [] ∧ (pool.config.autoExpand && memory) = false ∧
      pool.config.swapToCpu = false ∧ pool.makeRoom memory = (false, none, pool)) := by
  simp only [makeRoom]
  cases free : pool.freeBlocks with
  | cons b rest => simp
  | nil =>
    cases expand : pool.config.autoExpand <;> cases memory <;>
      cases swap : pool.config.swapToCpu <;> simp [BlockPool.expandPool, expand]

theorem Sound.makeRoom [Inhabited δ] (sound : pool.Sound) (memory : Bool) :
    (pool.makeRoom memory).2.2.Sound := by
  obtain ⟨_, made⟩ | ⟨_, _, made⟩ | ⟨_, _, _, made⟩ | ⟨_, _, _, made⟩ :=
    pool.makeRoom_cases memory <;> rw [made]
  · exact sound
  · exact sound.expandPool memory
  · exact sound.swapLruBlock
  · exact sound

theorem Sound.relieve (sound : pool.Sound) : pool.relieve.2.Sound := by
  rw [relieve_eq]
  split
  · exact sound.swapLruBlock
  · exact sound

theorem allocateBlock_spec [Inhabited δ] (pool : BlockPool τ δ) (reading : Reading τ) :
    (∃ pool', pool.allocateBlock reading = (none, pool') ∧
      pool' = (pool.makeRoom reading.memory).2.2) ∨
    ∃ victim mid front b, pool.makeRoom reading.memory = (true, victim, mid) ∧
      mid.freeBlocks = front ++ [b] ∧
      pool.allocateBlock reading = (some b, (mid.take b reading.now).relieve.2) := by
  simp only [allocateBlock]
  split
  next victim mid made => exact .inl ⟨mid, rfl, by simp [made]⟩
  next victim mid made =>
    split
    next empty => exact .inl ⟨mid, rfl, by simp [made]⟩
    next b last =>
      obtain ⟨front, split⟩ := List.getLast?_eq_some_iff.mp last
      exact .inr ⟨victim, mid, front, b, made, split, rfl⟩

theorem Sound.allocateBlock [Inhabited δ] (sound : pool.Sound) (reading : Reading τ) :
    (pool.allocateBlock reading).2.Sound := by
  have made := sound.makeRoom reading.memory
  obtain ⟨pool', failed, same⟩ | ⟨victim, mid, front, b, room, last, allocated⟩ :=
    pool.allocateBlock_spec reading
  · rw [failed, same]
    exact made
  · rw [room] at made
    rw [allocated]
    exact (made.take last reading.now).relieve

theorem Sound.freeAll (sound : pool.Sound) (blockIds : List Nat) :
    (pool.freeAll blockIds).Sound := by
  induction blockIds generalizing pool with
  | nil => exact sound
  | cons b rest ih => exact ih (sound.freeBlock b)

theorem Sound.setContents (sound : pool.Sound) (b : Nat) (change : δ → δ) :
    (pool.setContents b change).Sound := by
  simp only [BlockPool.setContents]
  split
  · exact { sound with }
  · exact sound

theorem Sound.exec [Inhabited δ] (sound : pool.Sound) (act : Action τ δ) :
    (exec pool act).Sound := by
  cases act with
  | allocateBlock reading => exact sound.allocateBlock reading
  | freeBlock b => exact sound.freeBlock b
  | freeBlocks blockIds => exact sound.freeAll blockIds
  | swapLruBlock => exact sound.swapLruBlock
  | restoreBlock b now => exact sound.restoreBlock b now
  | expandPool memory => exact sound.expandPool memory
  | setContents b change => exact sound.setContents b change

theorem sound_of_reachable [Inhabited δ] (reached : (machine τ δ).Reachable pool) : pool.Sound := by
  apply Machine.Reaches.invariant (I := fun pool : BlockPool τ δ => pool.Sound) _ _ reached
  · rintro pool ⟨config, numBlocks, created⟩
    exact create_sound created
  · exact fun pool act sound _ _ => sound.exec act

/-! ### The block returned -/

/-- All other blocks in use that the heap knows come after an access to `b` now. -/
def Oldest (pool : BlockPool τ δ) (b : Nat) (now : τ) : Prop :=
  ∀ e ∈ pool.lruHeap, pool.isLive e = true → e.2 ≠ b → toLex (now, b) ≤ toLex e

/-- An allocation with this reading takes `c`, and no free block is left. It is the only free
block, or the least recently used one, swapped out since there is none. -/
def Fills (pool : BlockPool τ δ) (reading : Reading τ) (c : Nat) : Prop :=
  pool.freeBlocks = [c] ∨ pool.freeBlocks = [] ∧
    (pool.config.autoExpand && reading.memory) = false ∧ pool.LeastRecent c ∧
      (pool.swapOut c).hasRoom = true

/-- An allocation with this reading swaps out the block that it returns: the block fills the pool
beyond the watermark, and it is the oldest one in use. -/
def EvictsOwn (pool : BlockPool τ δ) (reading : Reading τ) : Prop :=
  pool.config.swapToCpu = true ∧ pool.hasRoom = true ∧
    pool.config.aboveWatermark pool.numBlocks pool.numBlocks = true ∧
    pool.config.restoreTarget pool.numBlocks < pool.numBlocks ∧
    ∃ c, pool.Fills reading c ∧ pool.Oldest c reading.now

theorem isLive_take (b : Nat) (now : τ) (e : τ × Nat) :
    (pool.take b now).isLive e = if e.2 = b then decide (now = e.1) else pool.isLive e := by
  by_cases here : e.2 = b
  · simp [isLive, BlockPool.take, here]
  · simp [isLive, BlockPool.take, here]

theorem leastRecent_take (b : Nat) (now : τ) :
    (pool.take b now).LeastRecent b ↔ pool.Oldest b now := by
  have heap : ∀ e, e ∈ (pool.take b now).lruHeap ↔ e = (now, b) ∨ e ∈ pool.lruHeap :=
    fun e => Heap.mem_push
  constructor
  · rintro ⟨t, _, live, least⟩ e member alive other
    have here : now = t := by simpa [isLive_take] using live
    rw [here]
    exact least e ((heap e).mpr (.inr member)) (by simpa [isLive_take, other] using alive)
  · intro oldest
    refine ⟨now, (heap _).mpr (.inl rfl), by simp [isLive_take], fun e member alive => ?_⟩
    rcases (heap e).mp member with rfl | old
    · exact le_rfl
    · by_cases here : e.2 = b
      · have same : now = e.1 := by simpa [isLive_take, here] using alive
        rw [same, ← here]
      · exact oldest e old (by simpa [isLive_take, here] using alive) here

theorem inUse_relieve {front : List Nat} (sound : pool.Sound)
    (last : pool.freeBlocks = front ++ [b]) (now : τ) : (pool.take b now).relieve.2.InUse b ↔
      ¬ (pool.config.swapToCpu = true ∧
        pool.config.aboveWatermark pool.numBlocks pool.numBlocks = true ∧
        pool.config.restoreTarget pool.numBlocks < pool.numBlocks ∧ front = [] ∧
        pool.hasRoom = true ∧ pool.Oldest b now) := by
  have taken := sound.take last now
  have used : (pool.take b now).InUse b := by simp [InUse, BlockPool.take]
  have free : (pool.take b now).freeBlocks = front := by simp [BlockPool.take, last]
  have victim := swapLruBlock_victim taken.ordered b
  rw [leastRecent_take, show (pool.take b now).hasRoom = pool.hasRoom from rfl] at victim
  rw [relieve_eq, free]
  by_cases empty : front = []
  · have full : (pool.take b now).usedCount = pool.numBlocks := by
      rw [usedCount, free, empty]
      rfl
    rw [full]
    by_cases crossed : pool.config.swapToCpu = true ∧
        pool.config.aboveWatermark pool.numBlocks pool.numBlocks = true ∧
        pool.config.restoreTarget pool.numBlocks < pool.numBlocks
    · rw [if_pos ⟨crossed.1, crossed.2.1, crossed.2.2, empty⟩]
      simp only [crossed, empty, true_and, ← victim]
      -- the loop swaps out one block, which may be this one
      obtain ⟨rest, _, _, spec⟩ := swapLruBlock_spec taken.ordered
      split at spec
      next pool' same =>
        rw [same, spec.1]
        exact iff_of_true used (by simp)
      next c pool' same =>
        rw [same, spec.1]
        rw [inUse_swapOut]
        exact ⟨fun kept here => kept.1 (by simpa using here.symm),
          fun other => ⟨fun here => other (by rw [here]), used⟩⟩
    · rw [if_neg fun all => crossed ⟨all.1, all.2.1, all.2.2.1⟩]
      exact iff_of_true used fun all => crossed ⟨all.1, all.2.1, all.2.2.1⟩
  · rw [if_neg fun all => empty all.2.2.2]
    exact iff_of_true used fun all => empty all.2.2.2.1

/-- After a block is swapped out to be allocated again, it is the oldest one if it was before. -/
theorem oldest_swapLruBlock (ordered : Heap.Ordered toLex pool.lruHeap)
    (swapped : pool.swapLruBlock.1 = some b) (now : τ) :
    pool.swapLruBlock.2.Oldest b now ↔ pool.Oldest b now := by
  obtain ⟨rest, _, fewer, spec⟩ := swapLruBlock_spec ordered
  split at spec
  next pool' same => simp [same] at swapped
  next c pool' same =>
    obtain ⟨left, _, t, _, _, least⟩ := spec
    have here : c = b := by simpa [same] using swapped
    subst here
    have heap : pool'.lruHeap = rest := by simp [left, BlockPool.swapOut]
    have alive : ∀ e : τ × Nat, e.2 ≠ c → pool'.isLive e = pool.isLive e := by
      intro e other
      simp [left, isLive, BlockPool.swapOut, other]
    simp only [same, Oldest, heap]
    constructor
    · intro oldest e member live other
      have kept : e ∈ rest := (least e member live).2.resolve_left fun equal =>
        other (congrArg Prod.snd equal)
      exact oldest e kept (by rwa [alive e other]) other
    · intro oldest e member live other
      exact oldest e (fewer e member) (by rwa [← alive e other]) other

theorem makeRoom_last [Inhabited δ] {memory : Bool} {victim : Option Nat} {mid : BlockPool τ δ}
    {c : Nat} (made : pool.makeRoom memory = (true, victim, mid)) (last : mid.freeBlocks = [c]) :
    pool.freeBlocks = [c] ∧ mid = pool ∨ pool.freeBlocks = [] ∧
      (pool.config.autoExpand && memory) = false ∧ pool.config.swapToCpu = true ∧
        pool.swapLruBlock = (some c, mid) := by
  obtain ⟨some, room⟩ | ⟨empty, grown, room⟩ | ⟨empty, stuck, swap, room⟩ | ⟨_, _, _, room⟩ :=
    pool.makeRoom_cases memory <;> rw [made] at room
  · cases room
    exact .inl ⟨last, rfl⟩
  · -- a pool that has grown has many free blocks
    cases room
    obtain ⟨auto, memory⟩ := Bool.and_eq_true_iff.mp grown
    have size := congrArg List.length last
    simp [BlockPool.expandPool, auto, memory, empty] at size
    omega
  · obtain ⟨rest, same | ⟨b, same⟩⟩ := pool.swapLruBlock_cases
    · simp [same] at room
    · rw [same] at room ⊢
      cases room
      obtain rfl : b = c := by simpa [BlockPool.swapOut, empty] using last
      exact .inr ⟨empty, stuck, swap, rfl⟩
  · cases room

theorem hasRoom_of_swapLruBlock {c : Nat} (swapped : pool.swapLruBlock = (some c, pool')) :
    pool'.hasRoom = (pool.swapOut c).hasRoom ∧ pool'.config = pool.config ∧
      pool'.numBlocks = pool.numBlocks := by
  obtain ⟨rest, same | ⟨b, same⟩⟩ := pool.swapLruBlock_cases
  · rw [same] at swapped
    cases swapped
  · rw [same] at swapped
    cases swapped
    exact ⟨rfl, rfl, rfl⟩

theorem Sound.fills_iff [Inhabited δ] (sound : pool.Sound) {reading : Reading τ}
    {victim : Option Nat} {mid : BlockPool τ δ}
    (made : pool.makeRoom reading.memory = (true, victim, mid)) (c : Nat) :
    mid.freeBlocks = [c] ∧ mid.hasRoom = true ↔ pool.hasRoom = true ∧ pool.Fills reading c := by
  constructor
  · rintro ⟨last, room⟩
    obtain ⟨only, rfl⟩ | ⟨empty, stuck, _, swapped⟩ := makeRoom_last made last
    · exact ⟨room, .inl only⟩
    · obtain ⟨space, recent⟩ := (swapLruBlock_victim sound.ordered c).mp (by rw [swapped])
      rw [(hasRoom_of_swapLruBlock swapped).1] at room
      exact ⟨space, .inr ⟨empty, stuck, recent, room⟩⟩
  · rintro ⟨space, only | ⟨empty, stuck, recent, room⟩⟩
    · have same : pool.makeRoom reading.memory = (true, none, pool) := by
        simp only [BlockPool.makeRoom]
        rw [only]
      cases made.symm.trans same
      exact ⟨only, space⟩
    · have swapped := (swapLruBlock_victim sound.ordered c).mpr ⟨space, recent⟩
      obtain ⟨some, _⟩ | ⟨_, grown, _⟩ | ⟨_, _, _, same⟩ | ⟨_, _, _, same⟩ :=
        pool.makeRoom_cases reading.memory
      · exact absurd empty some
      · simp [stuck] at grown
      · rw [made] at same
        obtain ⟨rest, kept | ⟨b, kept⟩⟩ := pool.swapLruBlock_cases <;>
          rw [kept] at swapped same
        · cases swapped
        · cases swapped
          cases same
          exact ⟨by simp [BlockPool.swapOut, empty], room⟩
      · cases made.symm.trans same

theorem Sound.allocated_iff [Inhabited δ] (sound : pool.Sound) {reading : Reading τ}
    (allocated : pool.allocateBlock reading = (some b, pool')) :
    (pool'.InUse b ∧ b ∉ pool'.freeBlocks) ↔ ¬ pool.EvictsOwn reading := by
  have after : pool'.Sound := by simpa [allocated] using sound.allocateBlock reading
  have apart : (pool'.InUse b ∧ b ∉ pool'.freeBlocks) ↔ pool'.InUse b :=
    ⟨fun both => both.1, fun used => ⟨used, fun free => after.apart b free used⟩⟩
  rw [apart]
  obtain ⟨_, failed, _⟩ | ⟨victim, mid, front, b', made, last, result⟩ :=
    pool.allocateBlock_spec reading
  · rw [failed] at allocated
    cases allocated
  rw [result] at allocated
  cases allocated
  have inside : mid.Sound := by simpa [made] using sound.makeRoom reading.memory
  rw [inUse_relieve inside last, not_iff_not]
  -- the pool to be filled is the pool before the call, up to the block swapped out to make room
  have same : front = [] → mid.config = pool.config ∧ mid.numBlocks = pool.numBlocks ∧
      (mid.Oldest b reading.now ↔ pool.Oldest b reading.now) := by
    intro none
    rw [none] at last
    obtain ⟨_, rfl⟩ | ⟨_, _, _, swapped⟩ := makeRoom_last made last
    · exact ⟨rfl, rfl, .rfl⟩
    · obtain ⟨_, config, size⟩ := hasRoom_of_swapLruBlock swapped
      have oldest := oldest_swapLruBlock sound.ordered (by rw [swapped]) reading.now
      rw [swapped] at oldest
      exact ⟨config, size, oldest⟩
  constructor
  · rintro ⟨swap, crossed, target, none, room, oldest⟩
    obtain ⟨config, size, before⟩ := same none
    rw [config] at swap
    rw [config, size] at crossed target
    have filled := (sound.fills_iff made b).mp ⟨by rw [last, none]; rfl, room⟩
    exact ⟨swap, filled.1, crossed, target, b, filled.2, before.mp oldest⟩
  · rintro ⟨swap, space, crossed, target, c, filled, oldest⟩
    obtain ⟨only, room⟩ := (sound.fills_iff made c).mpr ⟨space, filled⟩
    rw [last] at only
    obtain ⟨none, here⟩ := List.append_eq_singleton_iff.mp only |>.resolve_right (by simp)
    cases here
    obtain ⟨config, size, before⟩ := same none
    rw [config, size]
    exact ⟨swap, crossed, target, none, room, before.mpr oldest⟩

end BlockPool

/-- **The partition of the pool.** In every state that a run reaches, the free list has no
duplicates and the blocks are either free or in use. A block that an allocation returns is in use
and not free, if and only if the allocation does not swap it out again. -/
theorem pool_partition [Inhabited δ] (reached : (machine τ δ).Reachable pool) :
    pool.Partition ∧ ∀ reading b pool', pool.allocateBlock reading = (some b, pool') →
      ((pool'.InUse b ∧ b ∉ pool'.freeBlocks) ↔ ¬ pool.EvictsOwn reading) :=
  have sound := BlockPool.sound_of_reachable reached
  ⟨sound.toPartition, fun _ _ _ allocated => sound.allocated_iff allocated⟩

/-- Two blocks of sixteen tokens with swapping, a watermark of 85% and a target of 70%. -/
def twoBlocks : Config where
  blockSize := 16
  swapToCpu := true
  maxSwapBlocks := 0
  autoExpand := true
  aboveWatermark used total := decide (85 * total < 100 * used)
  restoreTarget total := 70 * total / 100

/-- The second of two blocks is allocated: it crosses the watermark, but the first is older. -/
theorem pool_partition_second : ∃ pool : BlockPool Nat Unit, pool.Partition ∧
      (pool.allocateBlock ⟨2, true⟩).1 = some 0 ∧ (pool.allocateBlock ⟨2, true⟩).2.InUse 0 ∧
      0 ∉ (pool.allocateBlock ⟨2, true⟩).2.freeBlocks := by
  obtain ⟨start, created⟩ : ∃ start : BlockPool Nat Unit,
      BlockPool.create twoBlocks 2 = .ok start := ⟨_, rfl⟩
  have fresh : (machine Nat Unit).init start := ⟨twoBlocks, 2, created⟩
  have reached : (machine Nat Unit).Reachable _ := .of_follows (.init fresh)
    [.allocateBlock ⟨1, true⟩] ⟨trivial, trivial, trivial⟩
  cases created
  obtain ⟨shared, allocated⟩ := pool_partition reached
  refine ⟨_, shared, rfl, (allocated ⟨2, true⟩ 0 _ rfl).mpr ?_⟩
  rintro ⟨_, _, _, _, b, only | ⟨none, _⟩, oldest⟩
  · cases only
    exact absurd (oldest (1, 1) ⟨.head _⟩ (by decide) (by decide)) (by decide)
  · cases none

/-- One block with swapping: the block that the allocation returns is a free block. -/
theorem allocation_evicts_itself :
    ¬ ∀ (pool : BlockPool Nat Unit), (machine Nat Unit).Reachable pool →
      ∀ reading b pool', pool.allocateBlock reading = (some b, pool') →
        pool'.InUse b ∧ b ∉ pool'.freeBlocks := by
  intro all
  obtain ⟨start, created⟩ : ∃ start : BlockPool Nat Unit,
      BlockPool.create twoBlocks 1 = .ok start := ⟨_, rfl⟩
  have fresh : (machine Nat Unit).init start := ⟨twoBlocks, 1, created⟩
  cases created
  have kept := all _ (.init fresh) ⟨1, false⟩ 0 _ rfl
  exact absurd kept.1 (by decide)

end DistLLM.Pool
