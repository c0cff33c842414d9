import DistLLM.Library.Dict
import DistLLM.Library.LazyHeap
import DistLLM.Library.Machine
import Mathlib.Data.Prod.Lex

/-!
# The block pool

Physical blocks with their contents, the free list, the blocks in use, the swap space and the heap
of last accesses. Blocks are swapped out when the pool is full and when an allocation crosses the
watermark. Storage as FP8 and compressed swapping, both off unless enabled, are left out, and so
are the counters of the statistics and the locks.
-/
namespace DistLLM.Pool

open DistLLM.Library

variable {τ δ : Type}

/-- `τ` are the readings of `time.time()`, of which only the order matters. -/
structure Block (τ : Type) where
  numTokens : Nat := 0
  refCount : Int := 1
  lastAccess : τ

/-- The two decisions that the code makes in floating point are functions of the counts:
`aboveWatermark used total` is `utilization > eviction_watermark`, and `restoreTarget total` is
`int(num_blocks * restore_watermark)`. -/
structure Config where
  blockSize : Nat
  swapToCpu : Bool
  maxSwapBlocks : Int
  autoExpand : Bool
  aboveWatermark : Nat → Nat → Bool
  restoreTarget : Nat → Nat

/-- `contents b` are the keys and values stored in block `b`, over all layers. -/
structure BlockPool (τ δ : Type) where
  config : Config
  numBlocks : Nat
  freeBlocks : List Nat
  blockUsage : Nat → Option (Block τ)
  swapSpace : Dict Nat δ
  lruHeap : Array (τ × Nat)
  contents : Nat → δ

/-- What an allocation reads from outside: the clock, and whether there is memory to expand. -/
structure Reading (τ : Type) where
  now : τ
  memory : Bool

namespace BlockPool

section Operations

variable [LinearOrder τ] [Inhabited δ] (pool : BlockPool τ δ)

/-- The constructor, and the checks of its arguments. Blocks start as zeros. -/
def create (config : Config) (numBlocks : Int) : Except String (BlockPool τ δ) :=
  if numBlocks ≤ 0 then .error s!"num_blocks must be positive, got {numBlocks}"
  else if config.blockSize = 0 ∨ config.blockSize &&& (config.blockSize - 1) ≠ 0 then
    .error s!"block_size must be a positive power of 2, got {config.blockSize}"
  else
    let initial := max 1 (min numBlocks.toNat 64)
    .ok { config, numBlocks := initial, freeBlocks := List.range initial
          blockUsage := fun _ => none, swapSpace := ∅, lruHeap := #[], contents := fun _ => default }

def usedCount : Nat := pool.numBlocks - pool.freeBlocks.length

/-- `_expand_pool`, also where there is no memory. -/
def expandPool (memory : Bool) : Bool × BlockPool τ δ :=
  if !pool.config.autoExpand then (false, pool)
  else if !memory then (false, pool)
  else
    let grow := max pool.numBlocks 64
    (true, { pool with
      freeBlocks := pool.freeBlocks ++ List.range' pool.numBlocks grow
      numBlocks := pool.numBlocks + grow
      contents := fun b => if pool.numBlocks ≤ b then default else pool.contents b })

/-- The test of `_swap_lru_block`: the entry is the last access to a block in use. -/
def isLive (entry : τ × Nat) : Bool :=
  match pool.blockUsage entry.2 with
  | some block => decide (block.lastAccess = entry.1)
  | none => false

def hasRoom : Bool :=
  !(decide (0 < pool.config.maxSwapBlocks) &&
    decide (pool.config.maxSwapBlocks ≤ pool.swapSpace.size))

/-- Move the contents of a block to the swap space and free the block. -/
def swapOut (blockId : Nat) : BlockPool τ δ :=
  { pool with
    swapSpace := pool.swapSpace.set blockId (pool.contents blockId)
    blockUsage := Function.update pool.blockUsage blockId none
    freeBlocks := pool.freeBlocks ++ [blockId] }

/-- `_swap_lru_block`: the block swapped out, where the code returns whether there is one. Entries
popped from the heap are lost even if the swap space is full. -/
def swapLruBlock : Option Nat × BlockPool τ δ :=
  match Heap.popValid toLex pool.isLive pool.lruHeap with
  | (none, rest) => (none, { pool with lruHeap := rest })
  | (some (_, lruId), rest) =>
    let pool' := { pool with lruHeap := rest }
    if pool.hasRoom then (some lruId, pool'.swapOut lruId) else (none, pool')

/-- The beginning of `allocate_block`: whether there is a free block, and the block swapped out
to get one. -/
def makeRoom (memory : Bool) : Bool × Option Nat × BlockPool τ δ :=
  match pool.freeBlocks with
  | _ :: _ => (true, none, pool)
  | [] =>
    match if pool.config.autoExpand then pool.expandPool memory else (false, pool) with
    | (true, grown) => (true, none, grown)
    | (false, same) =>
      if pool.config.swapToCpu then
        let (victim, left) := same.swapLruBlock
        (victim.isSome, victim, left)
      else (false, none, same)

/-- The block at the end of the free list is in use from now on. -/
def take (blockId : Nat) (now : τ) : BlockPool τ δ :=
  { pool with
    freeBlocks := pool.freeBlocks.dropLast
    blockUsage := Function.update pool.blockUsage blockId (some { lastAccess := now })
    lruHeap := Heap.push toLex pool.lruHeap (now, blockId) }

/-- The loop after an allocation that crosses the watermark, and the blocks swapped out in it. -/
def evictLoop (target : Nat) : Nat → BlockPool τ δ → List Nat × BlockPool τ δ
  | 0, pool => ([], pool)
  | fuel + 1, pool =>
    if target < pool.usedCount ∧ pool.freeBlocks = [] then
      match pool.swapLruBlock with
      | (none, pool') => ([], pool')
      | (some victim, pool') =>
        let (more, pool'') := evictLoop target fuel pool'
        (victim :: more, pool'')
    else ([], pool)

def relieve : List Nat × BlockPool τ δ :=
  if pool.config.swapToCpu ∧ pool.config.aboveWatermark pool.usedCount pool.numBlocks then
    evictLoop (pool.config.restoreTarget pool.numBlocks) (pool.numBlocks + 1) pool
  else ([], pool)

def allocateBlock (reading : Reading τ) : Option Nat × BlockPool τ δ :=
  match pool.makeRoom reading.memory with
  | (false, _, pool') => (none, pool')
  | (true, _, pool') =>
    match pool'.freeBlocks.getLast? with
    | none => (none, pool')
    | some blockId => (some blockId, (pool'.take blockId reading.now).relieve.2)

def freeBlock (pool : BlockPool τ δ) (blockId : Nat) : BlockPool τ δ :=
  match pool.blockUsage blockId with
  | none => pool
  | some block =>
    if block.refCount - 1 = 0 then
      { pool with
        blockUsage := Function.update pool.blockUsage blockId none
        freeBlocks := pool.freeBlocks ++ [blockId] }
    else
      { pool with
        blockUsage := Function.update pool.blockUsage blockId
          (some { block with refCount := block.refCount - 1 }) }

def freeAll (blockIds : List Nat) : BlockPool τ δ := blockIds.foldl freeBlock pool

/-- `restore_block`. The block restored counts no tokens and is not put into the heap. -/
def restoreBlock (blockId : Nat) (now : τ) : Bool × BlockPool τ δ :=
  match pool.swapSpace.get? blockId with
  | none => (false, pool)
  | some entry =>
    (true, { pool with
      swapSpace := pool.swapSpace.filterKeys fun k => decide (k ≠ blockId)
      contents := Function.update pool.contents blockId entry
      blockUsage := Function.update pool.blockUsage blockId (some { lastAccess := now })
      freeBlocks := pool.freeBlocks.erase blockId })

/-- `set_kv_slice`, for any change of the contents; an id outside the pool raises. -/
def setContents (blockId : Nat) (change : δ → δ) : BlockPool τ δ :=
  if blockId < pool.numBlocks then
    { pool with contents := Function.update pool.contents blockId (change (pool.contents blockId)) }
  else pool

end Operations

end BlockPool

inductive Action (τ δ : Type)
  | allocateBlock (reading : Reading τ)
  | freeBlock (blockId : Nat)
  | freeBlocks (blockIds : List Nat)
  | swapLruBlock
  | restoreBlock (blockId : Nat) (now : τ)
  | expandPool (memory : Bool)
  | setContents (blockId : Nat) (change : δ → δ)

variable [LinearOrder τ] [Inhabited δ]

def exec (pool : BlockPool τ δ) : Action τ δ → BlockPool τ δ
  | .allocateBlock reading => (pool.allocateBlock reading).2
  | .freeBlock blockId => pool.freeBlock blockId
  | .freeBlocks blockIds => pool.freeAll blockIds
  | .swapLruBlock => pool.swapLruBlock.2
  | .restoreBlock blockId now => (pool.restoreBlock blockId now).2
  | .expandPool memory => (pool.expandPool memory).2
  | .setContents blockId change => pool.setContents blockId change

def machine (τ δ : Type) [LinearOrder τ] [Inhabited δ] : Machine (BlockPool τ δ) (Action τ δ) where
  init pool := ∃ config numBlocks, BlockPool.create config numBlocks = .ok pool
  enabled _ _ := True
  exec := exec

end DistLLM.Pool
