import DistLLM.Pool.BlockPool
import Mathlib.Algebra.GroupWithZero.Nat
import Mathlib.Data.List.Induction

/-!
# The manager of block tables

Sequences over one block pool: creating, appending tokens and their keys and values, gathering
them for attention, swapping a sequence out, rolling back rejected draft tokens, and freeing. Blocks
shared with peers over the network are left out, and so are the locks.
-/
namespace DistLLM.Pool

open DistLLM.Library

variable {ρ τ α : Type}

structure BlockTable where
  physicalBlocks : List Nat := []
  logicalToPhysical : Dict Nat Nat := ∅
  numLogicalBlocks : Nat := 0

namespace BlockTable

def appendBlock (table : BlockTable) (physicalBlockId : Nat) : BlockTable where
  physicalBlocks := table.physicalBlocks ++ [physicalBlockId]
  logicalToPhysical := table.logicalToPhysical.set table.numLogicalBlocks physicalBlockId
  numLogicalBlocks := table.numLogicalBlocks + 1

/-- One round of the loop of `accept_speculative_tokens`, for the table. -/
def popBlock (table : BlockTable) : BlockTable :=
  { table with
    physicalBlocks := table.physicalBlocks.dropLast
    logicalToPhysical := table.logicalToPhysical.filterKeys fun k =>
      decide (k ≠ table.physicalBlocks.length - 1) }

end BlockTable

/-- Exceptions, with the data in their texts. -/
inductive Raised (ρ : Type)
  /-- `KeyError`: Sequence {request_id} not found -/
  | notFound (requestId : ρ)
  /-- `RuntimeError`: No free blocks available for new sequence -/
  | noFreeBlocks
  /-- `RuntimeError`: Block pool exhausted: need {remaining} more tokens but no free blocks -/
  | exhausted (remaining : Nat)
  /-- `KeyError`: the block allocated is not in use -/
  | notInUse (blockId : Nat)
  /-- `IndexError`: a layer out of range -/
  | layerOutOfRange

/-- `α` are the keys and values of one token in one layer, over all heads. A block stores them by
layer and position. -/
structure PagedAttentionManager (ρ τ α : Type) where
  blockSize : Nat
  numLayers : Nat
  pool : BlockPool τ (Nat → Nat → α)
  tables : ρ → Option BlockTable

namespace PagedAttentionManager

def recommendedBlockSize (maxSeqLen : Int) : Nat :=
  if maxSeqLen ≤ 4096 then 16 else if maxSeqLen ≤ 32768 then 32 else 64

section Operations

variable [DecidableEq ρ] [LinearOrder τ] [Inhabited α] (mgr : PagedAttentionManager ρ τ α)

/-- The constructor. The pool grows by itself, and block size 0 asks for the recommended one. -/
def create (config : Config) (numBlocks : Int) (numLayers : Nat) (maxSeqLen : Int) :
    Except String (PagedAttentionManager ρ τ α) :=
  let blockSize :=
    if config.blockSize = 0 then recommendedBlockSize maxSeqLen else config.blockSize
  (BlockPool.create { config with blockSize, autoExpand := true } numBlocks).map fun pool =>
    { blockSize, numLayers, pool, tables := fun _ => none }

/-- The physical blocks of a sequence, `get_physical_blocks`. -/
def blocks (requestId : ρ) : List Nat :=
  match mgr.tables requestId with
  | none => []
  | some table => table.physicalBlocks

def setTable (requestId : ρ) (table : BlockTable) : PagedAttentionManager ρ τ α :=
  { mgr with tables := Function.update mgr.tables requestId (some table) }

def setTokens (blockId numTokens : Nat) : PagedAttentionManager ρ τ α :=
  { mgr with pool := { mgr.pool with
      blockUsage := Function.update mgr.pool.blockUsage blockId
        ((mgr.pool.blockUsage blockId).map fun block => { block with numTokens }) } }

def createSequence (requestId : ρ) (reading : Reading τ) :
    Except (Raised ρ) BlockTable × PagedAttentionManager ρ τ α :=
  match mgr.pool.allocateBlock reading with
  | (none, pool) => (.error .noFreeBlocks, { mgr with pool })
  | (some blockId, pool) =>
    let table := ({} : BlockTable).appendBlock blockId
    (.ok table, { mgr with pool }.setTable requestId table)

/-! ### Appending -/

/-- The beginning of `append_tokens`: what goes into the last block, and what remains. -/
def fillLast (table : BlockTable) (numTokens : Nat) :
    List (Nat × Nat × Nat) × Nat × PagedAttentionManager ρ τ α :=
  match table.physicalBlocks.getLast? with
  | none => ([], numTokens, mgr)
  | some lastPhys =>
    match mgr.pool.blockUsage lastPhys with
    | none => ([], numTokens, mgr)
    | some block =>
      if mgr.blockSize ≤ block.numTokens then ([], numTokens, mgr)
      else
        let take := min (mgr.blockSize - block.numTokens) numTokens
        ([(lastPhys, block.numTokens, take)], numTokens - take,
          mgr.setTokens lastPhys (block.numTokens + take))

/-- A round of the loop of `append_tokens`: a new block, with the first of `remaining` tokens. -/
def openBlock (requestId : ρ) (table : BlockTable) (remaining : Nat) (reading : Reading τ) :
    Except (Raised ρ) (Nat × BlockTable) × PagedAttentionManager ρ τ α :=
  match mgr.pool.allocateBlock reading with
  | (none, pool) => (.error (.exhausted remaining), { mgr with pool })
  | (some blockId, pool) =>
    let table := table.appendBlock blockId
    let mgr := { mgr with pool }.setTable requestId table
    match pool.blockUsage blockId with
    | none => (.error (.notInUse blockId), mgr)
    | some _ => (.ok (blockId, table), mgr.setTokens blockId (min mgr.blockSize remaining))

/-- The loop of `append_tokens`. Each round places at least one token, so the tokens bound the
rounds; `readings` are those of the rounds to come. -/
def openBlocks (requestId : ρ) : Nat → (readings : Nat → Reading τ) → BlockTable →
    (remaining : Nat) → PagedAttentionManager ρ τ α →
      Except (Raised ρ) (List (Nat × Nat × Nat)) × PagedAttentionManager ρ τ α
  | 0, _, _, _, mgr => (.ok [], mgr)
  | fuel + 1, readings, table, remaining, mgr =>
    if remaining = 0 then (.ok [], mgr)
    else
      match mgr.openBlock requestId table remaining (readings 0) with
      | (.error raised, mgr) => (.error raised, mgr)
      | (.ok (blockId, table), mgr) =>
        let take := min mgr.blockSize remaining
        match openBlocks requestId fuel (fun i => readings (i + 1)) table (remaining - take) mgr with
        | (.error raised, mgr) => (.error raised, mgr)
        | (.ok allocations, mgr) => (.ok ((blockId, 0, take) :: allocations), mgr)

/-- `append_tokens`: the block, the offset and the number of tokens of each allocation. -/
def appendTokens (requestId : ρ) (numTokens : Nat) (readings : Nat → Reading τ) :
    Except (Raised ρ) (List (Nat × Nat × Nat)) × PagedAttentionManager ρ τ α :=
  match mgr.tables requestId with
  | none => (.error (.notFound requestId), mgr)
  | some table =>
    let (first, remaining, mgr) := mgr.fillLast table numTokens
    match openBlocks requestId numTokens readings table remaining mgr with
    | (.error raised, mgr) => (.error raised, mgr)
    | (.ok allocations, mgr) => (.ok (first ++ allocations), mgr)

/-- `set_kv_slice`: rows of one layer, from an offset on. -/
def setKvSlice (blockId layer : Nat) (rows : List α) (offset : Nat) :
    PagedAttentionManager ρ τ α :=
  { mgr with pool := mgr.pool.setContents blockId fun data l position =>
      if l = layer ∧ offset ≤ position then rows.getD (position - offset) (data l position)
      else data l position }

/-- The loop of `append_layer_kv`. The offset in the block is not used: each slice is written from
the beginning of its block. -/
def writeSlices (layer : Nat) : List (Nat × Nat × Nat) → List α →
    PagedAttentionManager ρ τ α → PagedAttentionManager ρ τ α
  | [], _, mgr => mgr
  | (blockId, _blockOffset, blockTokens) :: rest, rows, mgr =>
    writeSlices layer rest (rows.drop blockTokens)
      (mgr.setKvSlice blockId layer (rows.take blockTokens) 0)

/-- `append_layer_kv`. The tokens are appended before the layer is looked up. -/
def appendLayerKv (requestId : ρ) (layer : Nat) (chunk : List α) (readings : Nat → Reading τ) :
    Except (Raised ρ) (List (Nat × Nat × Nat) × Bool) × PagedAttentionManager ρ τ α :=
  match mgr.appendTokens requestId chunk.length readings with
  | (.error raised, mgr) => (.error raised, mgr)
  | (.ok allocations, mgr) =>
    if allocations ≠ [] ∧ mgr.numLayers ≤ layer then (.error .layerOutOfRange, mgr)
    else
      let placed := (allocations.map fun allocation => allocation.2.2).sum
      (.ok (allocations, decide (chunk.length ≤ placed)), writeSlices layer allocations chunk mgr)

/-- The loop of `gather_kv_for_attention`, from a position on. A swapped block is restored. -/
def gatherFrom (layer seqLen : Nat) : (nows : Nat → τ) → List Nat → (position : Nat) →
    PagedAttentionManager ρ τ α → Except (Raised ρ) (List α) × PagedAttentionManager ρ τ α
  | _, [], _, mgr => (.ok [], mgr)
  | nows, physId :: rest, position, mgr =>
    let mgr := { mgr with pool := (mgr.pool.restoreBlock physId (nows 0)).2 }
    let tokens :=
      match mgr.pool.blockUsage physId with
      | some block => block.numTokens
      | none => mgr.blockSize
    let take := min tokens (seqLen - position)
    if take = 0 then (.ok [], mgr)
    else if mgr.numLayers ≤ layer then (.error .layerOutOfRange, mgr)
    else
      let rows := (List.range take).map (mgr.pool.contents physId layer)
      match gatherFrom layer seqLen (fun i => nows (i + 1)) rest (position + take) mgr with
      | (.error raised, mgr) => (.error raised, mgr)
      | (.ok more, mgr) => (.ok (rows ++ more), mgr)

def gather (requestId : ρ) (layer seqLen : Nat) (nows : Nat → τ) :
    Except (Raised ρ) (List α) × PagedAttentionManager ρ τ α :=
  match mgr.tables requestId with
  | none => (.error (.notFound requestId), mgr)
  | some table => gatherFrom layer seqLen nows table.physicalBlocks 0 mgr

/-- `_swap_block_to_cpu`. Whether the pool swaps at all is not asked. -/
def swapBlockToCpu (mgr : PagedAttentionManager ρ τ α) (physId : Nat) :
    PagedAttentionManager ρ τ α :=
  if mgr.pool.hasRoom then
    { mgr with pool := { mgr.pool with
        swapSpace := mgr.pool.swapSpace.set physId (mgr.pool.contents physId)
        blockUsage := Function.update mgr.pool.blockUsage physId none
        freeBlocks := if physId ∈ mgr.pool.freeBlocks then mgr.pool.freeBlocks
          else mgr.pool.freeBlocks ++ [physId] } }
  else mgr

/-- `swap_out_sequence`. The table stays as it is. -/
def swapOutSequence (requestId : ρ) : PagedAttentionManager ρ τ α :=
  (mgr.blocks requestId).foldl swapBlockToCpu mgr

def freeSequence (requestId : ρ) : PagedAttentionManager ρ τ α :=
  match mgr.tables requestId with
  | none => mgr
  | some table =>
    { mgr with
      tables := Function.update mgr.tables requestId none
      pool := mgr.pool.freeAll table.physicalBlocks }

def tokensIn (blockId : Nat) : Nat :=
  match mgr.pool.blockUsage blockId with
  | some block => block.numTokens
  | none => 0

def totalTokens (table : BlockTable) : Nat := (table.physicalBlocks.map mgr.tokensIn).sum

/-- The loop of `accept_speculative_tokens`: free so many blocks from the end of the table. -/
def popBlocks : Nat → BlockTable → BlockPool τ (Nat → Nat → α) →
    BlockTable × BlockPool τ (Nat → Nat → α)
  | 0, table, pool => (table, pool)
  | count + 1, table, pool =>
    match table.physicalBlocks.getLast? with
    | none => (table, pool)
    | some blockId => popBlocks count table.popBlock (pool.freeBlock blockId)

def blocksNeeded (acceptedTotal : Int) : Nat :=
  (max 1 ((acceptedTotal + mgr.blockSize - 1) / mgr.blockSize)).toNat

/-- The second half of `accept_speculative_tokens`: cut a table to the tokens accepted. -/
def trim (requestId : ρ) (table : BlockTable) (acceptedTotal : Int) :
    Nat × PagedAttentionManager ρ τ α :=
  let needed := mgr.blocksNeeded acceptedTotal
  let freed := table.physicalBlocks.length - needed
  let (table, pool) := popBlocks freed table mgr.pool
  let mgr := { mgr with pool }.setTable requestId
    { table with numLogicalBlocks := table.physicalBlocks.length }
  match table.physicalBlocks.getLast? with
  | none => (freed, mgr)
  | some lastBid =>
    let tokensInLast := acceptedTotal - ((needed - 1) * mgr.blockSize : Nat)
    (freed, mgr.setTokens lastBid (max 1 (min tokensInLast mgr.blockSize)).toNat)

/-- `accept_speculative_tokens`: the number of blocks freed. -/
def acceptSpeculativeTokens (requestId : ρ) (numAccepted numSpeculated : Nat) :
    Nat × PagedAttentionManager ρ τ α :=
  if numSpeculated ≤ numAccepted then (0, mgr)
  else
    match mgr.tables requestId with
    | none => (0, mgr)
    | some table =>
      mgr.trim requestId table (mgr.totalTokens table - (numSpeculated - numAccepted : Nat))

end Operations

/-! ### Tables -/

variable {mgr : PagedAttentionManager ρ τ α} {requestId : ρ}

theorem blocks_of_table {table : BlockTable} (found : mgr.tables requestId = some table) :
    mgr.blocks requestId = table.physicalBlocks := by
  simp [blocks, found]

@[simp] theorem blocks_setTokens (b n : Nat) (r : ρ) :
    (mgr.setTokens b n).blocks r = mgr.blocks r := rfl

theorem fillLast_cases (mgr : PagedAttentionManager ρ τ α) (table : BlockTable) (numTokens : Nat) :
    (mgr.fillLast table numTokens = ([], numTokens, mgr) ∧
      ∀ b block, table.physicalBlocks.getLast? = some b → mgr.pool.blockUsage b = some block →
        mgr.blockSize ≤ block.numTokens) ∨
    ∃ b block, table.physicalBlocks.getLast? = some b ∧ mgr.pool.blockUsage b = some block ∧
      block.numTokens < mgr.blockSize ∧
      mgr.fillLast table numTokens =
        let take := min (mgr.blockSize - block.numTokens) numTokens
        ([(b, block.numTokens, take)], numTokens - take,
          mgr.setTokens b (block.numTokens + take)) := by
  simp only [fillLast]
  cases last : table.physicalBlocks.getLast? with
  | none => simp
  | some b =>
    cases used : mgr.pool.blockUsage b with
    | none =>
      refine .inl ⟨by simp [used], fun c block here found => ?_⟩
      cases here
      simp [used] at found
    | some block =>
      by_cases full : mgr.blockSize ≤ block.numTokens
      · refine .inl ⟨by simp [used, full], fun c block' here found => ?_⟩
        cases here
        cases used.symm.trans found
        exact full
      · exact .inr ⟨b, block, rfl, used, Nat.lt_of_not_le full, by simp [used, full]⟩

section

variable {b : Nat} {block : Block τ} (found : mgr.pool.blockUsage b = some block)

include found

theorem tokensIn_of_usage : mgr.tokensIn b = block.numTokens := by
  simp [tokensIn, found]

theorem tokensIn_setTokens (n c : Nat) :
    (mgr.setTokens b n).tokensIn c = if c = b then n else mgr.tokensIn c := by
  by_cases here : c = b
  · subst here
    simp [tokensIn, setTokens, found]
  · simp [tokensIn, setTokens, here]

end

theorem swapBlockToCpu_full (full : mgr.pool.hasRoom = false) (b : Nat) :
    mgr.swapBlockToCpu b = mgr := by
  simp [swapBlockToCpu, full]

theorem swapOutSequence_nothing (nothing : mgr.blocks requestId = [] ∨ mgr.pool.hasRoom = false) :
    mgr.swapOutSequence requestId = mgr := by
  simp only [swapOutSequence]
  rcases nothing with empty | full
  · rw [empty]
    rfl
  · induction mgr.blocks requestId with
    | nil => rfl
    | cons b rest ih => rwa [List.foldl_cons, swapBlockToCpu_full full]

theorem popBlocks_spec {table : BlockTable} {front tail : List Nat}
    (pool : BlockPool τ (Nat → Nat → α)) (split : table.physicalBlocks = front ++ tail) :
    (popBlocks tail.length table pool).1.physicalBlocks = front ∧
      (popBlocks tail.length table pool).2 = pool.freeAll tail.reverse := by
  induction tail using List.reverseRecOn generalizing table pool with
  | nil => simpa [popBlocks, BlockPool.freeAll] using split
  | append_singleton tail b ih =>
    have last : table.physicalBlocks.getLast? = some b := by simp [split]
    have popped : table.popBlock.physicalBlocks = front ++ tail := by
      simp [BlockTable.popBlock, split, ← List.append_assoc]
    simpa [popBlocks, last, BlockPool.freeAll] using ih (pool.freeBlock b) popped

@[simp] theorem blocks_setTable [DecidableEq ρ] (table : BlockTable) (r : ρ) :
    (mgr.setTable requestId table).blocks r =
      if r = requestId then table.physicalBlocks else mgr.blocks r := by
  by_cases here : r = requestId
  · subst here
    simp [blocks, setTable]
  · simp [blocks, setTable, here]

end PagedAttentionManager

namespace Manager

inductive Action (ρ τ α : Type)
  | createSequence (requestId : ρ) (reading : Reading τ)
  | appendTokens (requestId : ρ) (numTokens : Nat) (readings : Nat → Reading τ)
  | appendLayerKv (requestId : ρ) (layer : Nat) (chunk : List α) (readings : Nat → Reading τ)
  | gather (requestId : ρ) (layer seqLen : Nat) (nows : Nat → τ)
  | acceptSpeculativeTokens (requestId : ρ) (numAccepted numSpeculated : Nat)
  | swapOutSequence (requestId : ρ)
  | freeSequence (requestId : ρ)

variable [DecidableEq ρ] [LinearOrder τ] [Inhabited α]

def exec (mgr : PagedAttentionManager ρ τ α) : Action ρ τ α → PagedAttentionManager ρ τ α
  | .createSequence requestId reading => (mgr.createSequence requestId reading).2
  | .appendTokens requestId numTokens readings => (mgr.appendTokens requestId numTokens readings).2
  | .appendLayerKv requestId layer chunk readings =>
    (mgr.appendLayerKv requestId layer chunk readings).2
  | .gather requestId layer seqLen nows => (mgr.gather requestId layer seqLen nows).2
  | .acceptSpeculativeTokens requestId numAccepted numSpeculated =>
    (mgr.acceptSpeculativeTokens requestId numAccepted numSpeculated).2
  | .swapOutSequence requestId => mgr.swapOutSequence requestId
  | .freeSequence requestId => mgr.freeSequence requestId

/-- Any sequence of calls on a new manager. -/
def machine (ρ τ α : Type) [DecidableEq ρ] [LinearOrder τ] [Inhabited α] :
    Machine (PagedAttentionManager ρ τ α) (Action ρ τ α) where
  init mgr := ∃ config numBlocks numLayers maxSeqLen,
    PagedAttentionManager.create config numBlocks numLayers maxSeqLen = .ok mgr
  enabled _ _ := True
  exec := exec

end Manager

end DistLLM.Pool
