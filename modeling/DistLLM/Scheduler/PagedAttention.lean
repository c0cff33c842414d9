import DistLLM.Scheduler.Sequence

/-!
# Paged attention blocks

The block manager of a single node: a pool of blocks, the free list, and for each registered
sequence the blocks it holds. Device memory and the token counts inside the blocks are left out.
-/
namespace DistLLM.Scheduler

open DistLLM.Library

variable {ρ : Type} [DecidableEq ρ]

/-- `KVCacheBlock`, as far as allocating and freeing read it. -/
structure KVCacheBlock where
  isAllocated : Bool := false
  refCount : Int := 0
  deriving DecidableEq

structure SequenceBlocks where
  blockIds : List Nat
  numTokens : Nat
  deriving DecidableEq

/-- `poolBlocks` is the `total_blocks` of a `pool` attribute. The manager of a single node has no
such attribute, and the admission test of the scheduler is off. -/
structure PagedAttentionManager (ρ : Type) where
  numBlocks : Nat
  blockSize : Nat
  blocks : Nat → KVCacheBlock
  freeBlocks : List Nat
  seqBlocks : Dict ρ SequenceBlocks
  poolBlocks : Option Nat

namespace PagedAttentionManager

variable (mgr : PagedAttentionManager ρ)

def init (numBlocks blockSize : Nat) : PagedAttentionManager ρ :=
  { numBlocks, blockSize, blocks := fun _ => {}, freeBlocks := List.range numBlocks,
    seqBlocks := ∅, poolBlocks := none }

/-- The loop of `_find_fragmented_blocks`: free blocks between two allocated ones, and the other
ones met on the way. -/
def splitFragmented (count : Nat) : List Nat → List Nat → List Nat → List Nat × List Nat
  | [], fragmented, other => (fragmented, other)
  | bid :: rest, fragmented, other =>
    let hasLeft := 0 < bid && bid - 1 < mgr.numBlocks && (mgr.blocks (bid - 1)).isAllocated
    let hasRight := bid + 1 < mgr.numBlocks && (mgr.blocks (bid + 1)).isAllocated
    let (fragmented, other) :=
      if hasLeft && hasRight then (fragmented ++ [bid], other) else (fragmented, other ++ [bid])
    if count ≤ fragmented.length then (fragmented, other)
    else splitFragmented count rest fragmented other

def findFragmentedBlocks (count : Nat) : List Nat :=
  let (fragmented, other) := mgr.splitFragmented count mgr.freeBlocks [] []
  let result := fragmented.take count
  if result.length < count then
    result ++ (other.filter fun b => decide (b ∉ result)).take (count - result.length)
  else result

/-- `math.ceil(num_tokens / block_size)`. -/
def blocksNeeded (numTokens : Nat) : Nat := (numTokens + mgr.blockSize - 1) / mgr.blockSize

/-- `allocate_sequence`: `none` where it raises because too few blocks are free. -/
def allocateSequence (sequenceId : ρ) (numTokens : Nat) : Option (PagedAttentionManager ρ) :=
  let needed := mgr.blocksNeeded numTokens
  if mgr.freeBlocks.length < needed then none
  else
    let candidates := mgr.findFragmentedBlocks needed
    -- the blocks that the id held before are neither freed nor held any more
    some { mgr with
      freeBlocks := mgr.freeBlocks.filter fun b => decide (b ∉ candidates)
      blocks := fun b =>
        if b ∈ candidates then { isAllocated := true, refCount := 1 } else mgr.blocks b
      seqBlocks := mgr.seqBlocks.set sequenceId { blockIds := candidates, numTokens } }

/-- Drop one reference; without any left the block is free. -/
def releaseBlock (mgr : PagedAttentionManager ρ) (bid : Nat) : PagedAttentionManager ρ :=
  let refCount := (mgr.blocks bid).refCount - 1
  if refCount ≤ 0 then
    { mgr with
      blocks := Function.update mgr.blocks bid {}
      freeBlocks := mgr.freeBlocks ++ [bid] }
  else
    { mgr with blocks := Function.update mgr.blocks bid { mgr.blocks bid with refCount } }

def freeSequence (sequenceId : ρ) : PagedAttentionManager ρ :=
  match mgr.seqBlocks.get? sequenceId with
  | none => mgr
  | some seq =>
    seq.blockIds.foldl releaseBlock
      { mgr with seqBlocks := mgr.seqBlocks.filterKeys fun k => decide (k ≠ sequenceId) }

end PagedAttentionManager

end DistLLM.Scheduler
