import DistLLM.Library.Machine
import DistLLM.Scheduler.PagedAttention

/-!
# The block manager with its token counters

The block manager of a single node together with what the admission model leaves out: the token
counter of each block, appending a token, sharing blocks between sequences, and the exceptions.
Device memory and the statistics are left out, and the locks, since calls come one after another.
-/
namespace DistLLM.Paged

open DistLLM.Library DistLLM.Scheduler

variable {ρ : Type} [DecidableEq ρ]

/-- What the manager raises, with the text of the exception. -/
inductive Raised
  | valueError (text : String)
  | runtimeError (text : String)
  | indexError (text : String)
  deriving DecidableEq

/-- `numTokens` is the `num_tokens` of each block. The `max_tokens` of all blocks is `blockSize`. -/
structure PagedAttentionManager (ρ : Type) extends Scheduler.PagedAttentionManager ρ where
  numTokens : Nat → Nat

namespace PagedAttentionManager

variable (mgr : PagedAttentionManager ρ)

def create (numBlocks blockSize : Int) : Except Raised (PagedAttentionManager ρ) :=
  if numBlocks ≤ 0 then
    .error (.valueError s!"num_blocks must be positive, got {numBlocks}")
  else if blockSize ≤ 0 ∨ blockSize.toNat &&& (blockSize.toNat - 1) ≠ 0 then
    .error (.valueError s!"block_size must be a positive power of 2, got {blockSize}")
  else
    .ok { Scheduler.PagedAttentionManager.init numBlocks.toNat blockSize.toNat with
      numTokens := fun _ => 0 }

def setSequence (sequenceId : ρ) (seq : SequenceBlocks) : PagedAttentionManager ρ :=
  { mgr with seqBlocks := mgr.seqBlocks.set sequenceId seq }

/-- `allocate_sequence`: the block ids, or the exception. -/
def allocateSequence (sequenceId : ρ) (numTokens : Nat) :
    Except Raised (List Nat) × PagedAttentionManager ρ :=
  let needed := mgr.blocksNeeded numTokens
  let candidates := mgr.findFragmentedBlocks needed
  match mgr.toPagedAttentionManager.allocateSequence sequenceId numTokens with
  | none =>
    let have_ := mgr.freeBlocks.length
    (.error (.runtimeError s!"Not enough KV cache blocks: need {needed}, have {have_} free"), mgr)
  | some base =>
    -- `allocate` resets the counter of a block, whatever the prompt puts into it
    (.ok candidates, { base with
      numTokens := fun b =>
        if b ∈ candidates ∧ (mgr.blocks b).isAllocated = false then 0 else mgr.numTokens b })

def releaseBlock (mgr : PagedAttentionManager ρ) (bid : Nat) : PagedAttentionManager ρ :=
  { mgr.toPagedAttentionManager.releaseBlock bid with
    numTokens :=
      if (mgr.blocks bid).refCount - 1 ≤ 0 then Function.update mgr.numTokens bid 0
      else mgr.numTokens }

def freeSequence (mgr : PagedAttentionManager ρ) (sequenceId : ρ) : PagedAttentionManager ρ :=
  match mgr.seqBlocks.get? sequenceId with
  | none => mgr
  | some seq =>
    seq.blockIds.foldl releaseBlock
      { mgr with seqBlocks := mgr.seqBlocks.filterKeys fun k => decide (k ≠ sequenceId) }

/-- `_unshare_block`: a copy of a block with more than one reference, for a writer of its own. -/
def unshareBlock (bid : Nat) : Except Raised Nat × PagedAttentionManager ρ :=
  if (mgr.blocks bid).refCount ≤ 1 then (.ok bid, mgr)
  else
    match mgr.freeBlocks.getLast? with
    | none => (.error (.runtimeError "No free KV cache blocks available for COW copy"), mgr)
    | some newBid =>
      let blocks := Function.update mgr.blocks newBid { isAllocated := true, refCount := 1 }
      (.ok newBid, { mgr with
        freeBlocks := mgr.freeBlocks.dropLast
        blocks := Function.update blocks bid
          { blocks bid with refCount := (blocks bid).refCount - 1 }
        numTokens := Function.update mgr.numTokens newBid (mgr.numTokens bid) })

/-- The second half of `append_token`: one token more in the last block, or a new block. -/
def placeToken (sequenceId : ρ) (seq : SequenceBlocks) (lastBid : Nat) :
    Except Raised Nat × PagedAttentionManager ρ :=
  if mgr.numTokens lastBid < mgr.blockSize then
    (.ok lastBid, { mgr with
      numTokens := Function.update mgr.numTokens lastBid (mgr.numTokens lastBid + 1) })
  else
    match mgr.freeBlocks.getLast? with
    | none => (.error (.runtimeError "No free KV cache blocks available"), mgr)
    | some newBid =>
      (.ok newBid, { mgr with
        freeBlocks := mgr.freeBlocks.dropLast
        blocks := Function.update mgr.blocks newBid { isAllocated := true, refCount := 1 }
        numTokens := Function.update mgr.numTokens newBid 1
        seqBlocks := mgr.seqBlocks.set sequenceId
          { seq with blockIds := seq.blockIds ++ [newBid] } })

/-- `append_token`: the block for the next token. The sequence counts the token first, and keeps
it where the rest raises. -/
def appendToken [ToString ρ] (sequenceId : ρ) : Except Raised Nat × PagedAttentionManager ρ :=
  match mgr.seqBlocks.get? sequenceId with
  | none => (.error (.valueError s!"Unknown sequence: {sequenceId}"), mgr)
  | some found =>
    let seq := { found with numTokens := found.numTokens + 1 }
    let counted := mgr.setSequence sequenceId seq
    match seq.blockIds.getLast? with
    | none => (.error (.indexError "list index out of range"), counted)
    | some lastBid =>
      if 1 < (mgr.blocks lastBid).refCount then
        match counted.unshareBlock lastBid with
        | (.error raised, mgr') => (.error raised, mgr')
        | (.ok newBid, mgr') =>
          let seq := { seq with blockIds := seq.blockIds.dropLast ++ [newBid] }
          (mgr'.setSequence sequenceId seq).placeToken sequenceId seq newBid
      else counted.placeToken sequenceId seq lastBid

def retainBlock (mgr : PagedAttentionManager ρ) (bid : Nat) : PagedAttentionManager ρ :=
  { mgr with
    blocks := Function.update mgr.blocks bid
      { mgr.blocks bid with refCount := (mgr.blocks bid).refCount + 1 } }

/-- `copy_on_write`: the destination gets the blocks of the source. -/
def copyOnWrite (sourceId destId : ρ) : PagedAttentionManager ρ :=
  match mgr.seqBlocks.get? sourceId with
  | none => mgr
  | some source =>
    -- the blocks that the destination held before are neither freed nor held any more
    source.blockIds.foldl retainBlock (mgr.setSequence destId source)

end PagedAttentionManager

inductive Action (ρ : Type)
  | allocateSequence (sequenceId : ρ) (numTokens : Nat)
  | appendToken (sequenceId : ρ)
  | copyOnWrite (sourceId destId : ρ)
  | freeSequence (sequenceId : ρ)

variable [ToString ρ]

/-- What a call leaves, whether it returns or raises. -/
def exec (mgr : PagedAttentionManager ρ) : Action ρ → PagedAttentionManager ρ
  | .allocateSequence sequenceId numTokens => (mgr.allocateSequence sequenceId numTokens).2
  | .appendToken sequenceId => (mgr.appendToken sequenceId).2
  | .copyOnWrite sourceId destId => mgr.copyOnWrite sourceId destId
  | .freeSequence sequenceId => mgr.freeSequence sequenceId

def machine (ρ : Type) [DecidableEq ρ] [ToString ρ] :
    Machine (PagedAttentionManager ρ) (Action ρ) where
  init mgr := ∃ numBlocks blockSize, PagedAttentionManager.create numBlocks blockSize = .ok mgr
  enabled _ _ := True
  exec := exec

end DistLLM.Paged
