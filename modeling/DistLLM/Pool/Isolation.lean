import DistLLM.Pool.Manager
import DistLLM.Pool.Swapping

/-!
# Sequences share no blocks

The blocks that the tables of live sequences list are in use, and each is listed once. Allocation
keeps this as long as it swaps out no listed block, nor the block that it returns: tables keep the
ids of blocks that have been swapped out, while the pool hands these ids out again.
-/
namespace DistLLM.Pool

open DistLLM.Library

variable {ρ τ α : Type}

/-! ### Blocks handed out and blocks freed -/

variable {b : Nat}

namespace BlockPool

variable {δ : Type} {pool pool' : BlockPool τ δ} {reading : Reading τ}

theorem freeBlock_usage {c : Nat} (other : c ≠ b) :
    (pool.freeBlock b).blockUsage c = pool.blockUsage c := by
  simp only [freeBlock]
  split
  · rfl
  · split <;> simp [other]

theorem freeAll_usage {bs : List Nat} {c : Nat} (other : c ∉ bs) :
    (pool.freeAll bs).blockUsage c = pool.blockUsage c := by
  induction bs generalizing pool with
  | nil => rfl
  | cons b rest ih =>
    rw [List.mem_cons, not_or] at other
    calc ((pool.freeBlock b).freeAll rest).blockUsage c
      _ = (pool.freeBlock b).blockUsage c := ih other.2
      _ = pool.blockUsage c := freeBlock_usage other.1

theorem freeAll_config (bs : List Nat) : (pool.freeAll bs).config = pool.config := by
  induction bs generalizing pool with
  | nil => rfl
  | cons b rest ih =>
    apply Eq.trans ih
    simp only [freeBlock]
    split
    · rfl
    · split <;> rfl

theorem inUse_restoreBlock {c : Nat} (now : τ) (used : pool.InUse c) :
    (pool.restoreBlock b now).2.InUse c := by
  simp only [restoreBlock]
  split
  · exact used
  · rw [InUse, inUse_update]
    split
    · rfl
    · exact used

variable [LinearOrder τ]

/-- The allocation swaps out none of the blocks listed, nor the block that it returns. -/
def Spares (pool : BlockPool τ δ) (reading : Reading τ) (listed : Nat → Prop) : Prop :=
  ¬ pool.EvictsOwn reading ∧ ∀ b, listed b → ¬ pool.SwapsOut reading b

theorem spares_of_off (off : pool.config.swapToCpu = false) (reading : Reading τ)
    (listed : Nat → Prop) : pool.Spares reading listed := by
  simp [Spares, EvictsOwn, SwapsOut, off]

theorem not_fills {c : Nat} (more : 2 ≤ pool.freeBlocks.length) : ¬ pool.Fills reading c := by
  rintro (only | ⟨none, -⟩)
  · rw [only] at more
    exact absurd more (by simp)
  · rw [none] at more
    exact absurd more (by simp)

/-- An allocation that leaves a block free swaps out nothing. -/
theorem spares_of_more (more : 2 ≤ pool.freeBlocks.length) (reading : Reading τ)
    (listed : Nat → Prop) : pool.Spares reading listed := by
  refine ⟨?_, fun b _ => ?_⟩
  · rintro ⟨-, -, -, -, c, fills, -⟩
    exact not_fills more fills
  · rintro ⟨-, -, ⟨none, -⟩ | ⟨-, -, c, -, fills, -⟩⟩
    · rw [none] at more
      exact absurd more (by simp)
    · exact not_fills more fills

variable [Inhabited δ]

theorem allocateBlock_none (failed : pool.allocateBlock reading = (none, pool')) :
    ∃ rest, pool' = { pool with lruHeap := rest } := by
  simp only [allocateBlock] at failed
  obtain ⟨some, made⟩ | ⟨empty, grown, made⟩ | ⟨empty, _, _, made⟩ | ⟨_, _, _, made⟩ :=
    pool.makeRoom_cases reading.memory <;> rw [made] at failed
  · simp [List.getLast?_eq_some_getLast some] at failed
  · obtain ⟨auto, memory⟩ := Bool.and_eq_true_iff.mp grown
    cases last : (pool.expandPool reading.memory).2.freeBlocks.getLast? with
    | none =>
      simp [BlockPool.expandPool, auto, memory] at last
    | some b => simp [last] at failed
  · obtain ⟨rest, same | ⟨b, same⟩⟩ := pool.swapLruBlock_cases
    · rw [same] at failed
      cases failed
      exact ⟨rest, rfl⟩
    · rw [same] at failed
      simp [BlockPool.swapOut] at failed
  · cases failed
    exact ⟨pool.lruHeap, rfl⟩

theorem Sound.fresh (sound : pool.Sound) (allocated : (pool.allocateBlock reading).1 = some b)
    (kept : ¬ pool.SwapsOut reading b) :
    ¬ pool.InUse b := by
  obtain ⟨_, failed, _⟩ | ⟨victim, mid, front, c, made, last, result⟩ :=
    pool.allocateBlock_spec reading
  · simp [failed] at allocated
  have here : c = b := by simpa [result] using allocated
  have inside : mid.Sound := by simpa [made] using sound.makeRoom reading.memory
  have same := makeRoom_usage sound.ordered kept
  rw [made] at same
  rw [InUse, ← same]
  exact inside.apart b (by simp [last, here])

end BlockPool

namespace PagedAttentionManager

variable {mgr mgr' : PagedAttentionManager ρ τ α} {requestId : ρ}

def ListedByOther (mgr : PagedAttentionManager ρ τ α) (requestId : ρ) (b : Nat) : Prop :=
  ∃ r, r ≠ requestId ∧ b ∈ mgr.blocks r

def Listed (mgr : PagedAttentionManager ρ τ α) (b : Nat) : Prop := ∃ r, b ∈ mgr.blocks r

theorem inUse_setTokens (b n c : Nat) : (mgr.setTokens b n).pool.InUse c ↔ mgr.pool.InUse c := by
  simp only [BlockPool.InUse, setTokens, BlockPool.inUse_update]
  split
  next here => simp [here]
  next => rfl

variable [LinearOrder τ]

/-- The blocks that tables list are in use, each listed once. -/
structure Owned (mgr : PagedAttentionManager ρ τ α) : Prop where
  sound : mgr.pool.Sound
  used : ∀ r, ∀ b ∈ mgr.blocks r, mgr.pool.InUse b
  once : ∀ r, (mgr.blocks r).Nodup
  apart : ∀ r r', r ≠ r' → ∀ b ∈ mgr.blocks r, b ∉ mgr.blocks r'

section

variable (owned : mgr.Owned)

include owned

theorem Owned.frame (sound : mgr'.pool.Sound) (same : ∀ r, mgr'.blocks r = mgr.blocks r)
    (used : ∀ b, mgr.Listed b → mgr.pool.InUse b → mgr'.pool.InUse b) : mgr'.Owned where
  sound := sound
  used r b member := by
    rw [same] at member
    exact used b ⟨r, member⟩ (owned.used r b member)
  once r := same r ▸ owned.once r
  apart r r' other b := by
    rw [same, same]
    exact owned.apart r r' other b

theorem Owned.setTokens (b n : Nat) : (mgr.setTokens b n).Owned := by
  apply owned.frame
  · exact owned.sound.withUsage fun c => inUse_setTokens b n c
  · exact fun r => blocks_setTokens b n r
  · exact fun c _ used => (inUse_setTokens b n c).mpr used

theorem Owned.fillLast (table : BlockTable) (numTokens : Nat) :
    (mgr.fillLast table numTokens).2.2.Owned := by
  obtain ⟨same, _⟩ | ⟨b, block, _, _, _, same⟩ := mgr.fillLast_cases table numTokens
  · rwa [same]
  · rw [same]
    exact owned.setTokens _ _

theorem Owned.setContents (b : Nat) (change : (Nat → Nat → α) → Nat → Nat → α) :
    { mgr with pool := mgr.pool.setContents b change }.Owned := by
  apply owned.frame (owned.sound.setContents b change)
  · exact fun r => rfl
  · intro c _ used
    simp only [BlockPool.setContents]
    split <;> exact used

theorem Owned.gatherFrom {layer seqLen : Nat} {nows : Nat → τ} {blockIds : List Nat}
    {position : Nat} :
    (gatherFrom (ρ := ρ) layer seqLen nows blockIds position mgr).2.Owned := by
  induction blockIds generalizing mgr nows position with
  | nil => exact owned
  | cons b rest ih =>
    have restored : { mgr with pool := (mgr.pool.restoreBlock b (nows 0)).2 }.Owned := by
      apply Owned.frame owned
      · exact owned.sound.restoreBlock b (nows 0)
      · exact fun r => rfl
      · exact fun c _ used => BlockPool.inUse_restoreBlock (nows 0) used
    unfold PagedAttentionManager.gatherFrom
    dsimp only
    split
    · exact restored
    · split
      · exact restored
      · split
        next _ _ same => exact (congrArg (fun result => result.2.Owned) same).mp (ih restored)
        next _ _ same => exact (congrArg (fun result => result.2.Owned) same).mp (ih restored)

end

variable [Inhabited α]

theorem create_owned {config : Config} {numBlocks maxSeqLen : Int} {numLayers : Nat}
    (created : create config numBlocks numLayers maxSeqLen = .ok mgr) : mgr.Owned := by
  simp only [create, Except.map] at created
  split at created
  · cases created
  next pool made =>
    cases created
    constructor
    case sound => exact BlockPool.create_sound made
    case used => simp [blocks]
    case once => simp [blocks]
    case apart => simp [blocks]

omit [LinearOrder τ] in
theorem create_spec {config : Config} {numBlocks maxSeqLen : Int} {numLayers : Nat}
    (created : create config numBlocks numLayers maxSeqLen = .ok mgr) :
    0 < mgr.blockSize ∧ mgr.pool.config.swapToCpu = config.swapToCpu ∧
      ∀ r, mgr.tables r = none := by
  simp only [create, Except.map] at created
  split at created
  · cases created
  next pool made =>
    cases created
    refine ⟨?_, ?_, fun _ => rfl⟩
    · dsimp only [recommendedBlockSize]
      split
      · split
        · decide
        · split <;> decide
      · omega
    · have config := (BlockPool.create_fresh made).1
      simp [config]

variable {reading : Reading τ} {pool' : BlockPool τ (Nat → Nat → α)}

theorem Owned.withHeap (owned : mgr.Owned)
    (failed : mgr.pool.allocateBlock reading = (none, pool')) :
    { mgr with pool := pool' }.Owned := by
  have sound := owned.sound.allocateBlock reading
  rw [failed] at sound
  apply owned.frame sound
  · exact fun r => rfl
  · intro b _ used
    obtain ⟨rest, same⟩ := BlockPool.allocateBlock_none failed
    rw [same]
    exact used

variable [DecidableEq ρ]

theorem Owned.handOut (owned : mgr.Owned) (table : BlockTable) {old : List Nat}
    (allocated : mgr.pool.allocateBlock reading = (some b, pool'))
    (some_old : old.Sublist (mgr.blocks requestId)) (placed : table.physicalBlocks = old ++ [b])
    (spared : mgr.pool.Spares reading fun c => mgr.ListedByOther requestId c ∨ c ∈ old) :
    ({ mgr with pool := pool' }.setTable requestId table).Owned ∧ pool'.InUse b := by
  obtain ⟨stays, kept⟩ := spared
  have sound : pool'.Sound := by simpa [allocated] using owned.sound.allocateBlock reading
  have returned := ((owned.sound.allocated_iff allocated).mpr stays).1
  -- what is spared stays in use, so it is not the block handed out
  have fresh : ∀ c, (mgr.ListedByOther requestId c ∨ c ∈ old) → c ≠ b ∧ pool'.InUse c := by
    intro c listed
    have before : mgr.pool.InUse c := by
      rcases listed with ⟨r, _, member⟩ | member
      · exact owned.used r c member
      · exact owned.used requestId c (some_old.subset member)
    have other : c ≠ b := fun here => owned.sound.fresh (by rw [allocated, here]) (kept c listed)
      before
    have same := BlockPool.allocateBlock_usage owned.sound (kept c listed)
      (by simp [allocated, other.symm])
    rw [allocated] at same
    exact ⟨other, by rwa [BlockPool.InUse, same]⟩
  refine ⟨?_, returned⟩
  have blocks : ∀ r, ({ mgr with pool := pool' }.setTable requestId table).blocks r =
      if r = requestId then old ++ [b] else mgr.blocks r := by
    intro r
    rw [blocks_setTable, placed]
    rfl
  -- the other tables list nothing of the new one
  have elsewhere : ∀ r, r ≠ requestId → ∀ c ∈ mgr.blocks r, c ∉ old ++ [b] := by
    intro r other c member
    rw [List.mem_append, List.mem_singleton, not_or]
    exact ⟨fun inside => owned.apart r requestId other c member (some_old.subset inside),
      (fresh c (.inl ⟨r, other, member⟩)).1⟩
  constructor
  case sound => exact sound
  case used =>
    intro r c member
    rw [blocks] at member
    split at member
    · rcases List.mem_append.mp member with inside | new
      · exact (fresh c (.inr inside)).2
      · exact List.mem_singleton.mp new ▸ returned
    next other => exact (fresh c (.inl ⟨r, other, member⟩)).2
  case once =>
    intro r
    rw [blocks]
    split
    · refine (some_old.nodup (owned.once requestId)).append (List.nodup_singleton b) ?_
      intro c inside new
      exact (fresh c (.inr inside)).1 (List.mem_singleton.mp new)
    · exact owned.once r
  case apart =>
    intro r r' different c
    rw [blocks, blocks]
    split
    next here =>
      rw [if_neg fun there => different (here.trans there.symm)]
      exact fun inside member => elsewhere r' (fun there => different (here.trans there.symm))
        c member inside
    next other =>
      split
      · exact fun member => elsewhere r other c member
      · exact owned.apart r r' different c

/-! ### Appending -/

/-- Each allocation that `append_tokens` makes for the tokens that remain spares the blocks that are
to be spared at that point. -/
def RoundsSpare (spared : PagedAttentionManager ρ τ α → Nat → Prop) (requestId : ρ) : Nat → (Nat → Reading τ) → BlockTable → (remaining : Nat) →
    PagedAttentionManager ρ τ α → Prop
  | 0, _, _, _, _ => True
  | fuel + 1, readings, table, remaining, mgr =>
    remaining = 0 ∨ mgr.pool.Spares (readings 0) (spared mgr) ∧
      ∀ b table' mgr', mgr.openBlock requestId table remaining (readings 0) =
          (.ok (b, table'), mgr') →
        RoundsSpare spared requestId fuel (fun i => readings (i + 1)) table'
          (remaining - min mgr'.blockSize remaining) mgr'

variable {table : BlockTable}

theorem Owned.openBlock (owned : mgr.Owned) (remaining : Nat)
    (found : mgr.tables requestId = some table) (spared : mgr.pool.Spares reading mgr.Listed) :
    (mgr.openBlock requestId table remaining reading).2.Owned ∧
      ∀ b table', (mgr.openBlock requestId table remaining reading).1 = .ok (b, table') →
        (mgr.openBlock requestId table remaining reading).2.tables requestId = some table' := by
  simp only [PagedAttentionManager.openBlock]
  cases allocated : mgr.pool.allocateBlock reading with
  | mk found' pool' =>
    cases found' with
    | none => exact ⟨owned.withHeap allocated, fun _ _ done => nomatch done⟩
    | some b =>
      have listed : mgr.blocks requestId = table.physicalBlocks := blocks_of_table found
      -- the table of the sequence is among those that are spared
      obtain ⟨after, used⟩ := owned.handOut (table.appendBlock b) allocated
        (List.Sublist.refl _) (by rw [listed]; rfl) ⟨spared.1, fun c => by
          rintro (⟨r, _, member⟩ | member)
          · exact spared.2 c ⟨r, member⟩
          · exact spared.2 c ⟨requestId, member⟩⟩
      dsimp only
      split
      next missing => simp [BlockPool.InUse, missing] at used
      next =>
        refine ⟨after.setTokens _ _, fun b' table' done => ?_⟩
        cases done
        simp [PagedAttentionManager.setTokens, setTable]

variable {readings : Nat → Reading τ}

theorem Owned.openBlocks (owned : mgr.Owned) {fuel : Nat} {remaining : Nat}
    (found : mgr.tables requestId = some table)
    (spared : RoundsSpare Listed requestId fuel readings table remaining mgr) :
    (openBlocks requestId fuel readings table remaining mgr).2.Owned := by
  induction fuel generalizing readings table remaining mgr with
  | zero => exact owned
  | succ fuel ih =>
    simp only [PagedAttentionManager.openBlocks]
    by_cases done : remaining = 0
    · rw [if_pos done]
      exact owned
    rw [if_neg done]
    -- a round leaves the table that the next one starts from
    obtain ⟨allocation, later⟩ := spared.resolve_left done
    obtain ⟨after, kept⟩ := owned.openBlock remaining found allocation
    cases opened : mgr.openBlock requestId table remaining (readings 0) with
    | mk result mgr' =>
      rw [opened] at after kept
      cases result with
      | error raised => exact after
      | ok placed =>
        have rest := ih after (kept _ _ rfl) (later _ _ _ opened)
        dsimp only
        split
        next _ _ same => rwa [same] at rest
        next _ _ same => rwa [same] at rest

def AppendSpares (mgr : PagedAttentionManager ρ τ α) (requestId : ρ) (numTokens : Nat)
    (readings : Nat → Reading τ) : Prop :=
  ∀ table, mgr.tables requestId = some table →
    RoundsSpare Listed requestId numTokens readings table (mgr.fillLast table numTokens).2.1
      (mgr.fillLast table numTokens).2.2

theorem Owned.appendTokens (owned : mgr.Owned) {numTokens : Nat}
    (spared : mgr.AppendSpares requestId numTokens readings) :
    (mgr.appendTokens requestId numTokens readings).2.Owned := by
  simp only [PagedAttentionManager.appendTokens]
  cases found : mgr.tables requestId with
  | none => exact owned
  | some table =>
    have kept : (mgr.fillLast table numTokens).2.2.tables requestId = some table := by
      obtain ⟨same, _⟩ | ⟨_, _, _, _, _, same⟩ := mgr.fillLast_cases table numTokens <;>
        rw [same] <;> exact found
    have after := (owned.fillLast table numTokens).openBlocks kept (spared table found)
    dsimp only
    split
    next _ _ same => rwa [same] at after
    next _ _ same => rwa [same] at after

theorem config_openBlock (mgr : PagedAttentionManager ρ τ α) (requestId : ρ) (table : BlockTable)
    (remaining : Nat) (reading : Reading τ) :
    (mgr.openBlock requestId table remaining reading).2.pool.config = mgr.pool.config := by
  have config := mgr.pool.allocateBlock_config reading
  unfold openBlock
  split
  next _ same => rwa [same] at config
  next _ _ same =>
    rw [same] at config
    dsimp only
    split <;> exact config

theorem roundsSpare_of_off (spared : PagedAttentionManager ρ τ α → Nat → Prop)
    (off : mgr.pool.config.swapToCpu = false) (fuel : Nat)
    (readings : Nat → Reading τ) (table : BlockTable) (remaining : Nat) :
    RoundsSpare spared requestId fuel readings table remaining mgr := by
  induction fuel generalizing readings table remaining mgr with
  | zero => trivial
  | succ fuel ih =>
    refine .inr ⟨BlockPool.spares_of_off off _ _, fun b table' mgr' opened => ?_⟩
    apply ih
    have config := mgr.config_openBlock requestId table remaining (readings 0)
    rw [opened] at config
    exact (congrArg Config.swapToCpu config).trans off

theorem appendSpares_of_off (off : mgr.pool.config.swapToCpu = false) (numTokens : Nat)
    (readings : Nat → Reading τ) : mgr.AppendSpares requestId numTokens readings := by
  intro table _
  apply roundsSpare_of_off
  obtain ⟨same, _⟩ | ⟨_, _, _, _, _, same⟩ := mgr.fillLast_cases table numTokens <;>
    rw [same] <;> exact off

omit [Inhabited α] [DecidableEq ρ] in
theorem Owned.writeSlices (owned : mgr.Owned) (layer : Nat) (allocations : List (Nat × Nat × Nat))
    (rows : List α) : (writeSlices layer allocations rows mgr).Owned := by
  induction allocations generalizing mgr rows with
  | nil => exact owned
  | cons allocation rest ih => exact ih (owned.setContents _ _) _

theorem Owned.appendLayerKv (owned : mgr.Owned) {layer : Nat} {chunk : List α}
    (spared : mgr.AppendSpares requestId chunk.length readings) :
    (mgr.appendLayerKv requestId layer chunk readings).2.Owned := by
  have appended := owned.appendTokens spared
  simp only [PagedAttentionManager.appendLayerKv]
  split
  next _ _ same => rwa [same] at appended
  next allocations mgr' same =>
    rw [same] at appended
    split
    · exact appended
    · exact appended.writeSlices layer allocations chunk

/-! ### The other calls -/

theorem Owned.createSequence (owned : mgr.Owned)
    (spared : mgr.pool.Spares reading (mgr.ListedByOther requestId)) :
    (mgr.createSequence requestId reading).2.Owned := by
  simp only [PagedAttentionManager.createSequence]
  cases allocated : mgr.pool.allocateBlock reading with
  | mk found pool' =>
    cases found with
    | none => exact owned.withHeap allocated
    | some b =>
      apply (owned.handOut _ allocated (List.nil_sublist _) (List.nil_append [b]).symm _).1
      exact ⟨spared.1, fun c listed => spared.2 c (listed.resolve_right List.not_mem_nil)⟩

omit [Inhabited α] in
theorem Owned.release (owned : mgr.Owned) (requestId : ρ) (freed kept : List Nat)
    (sub : ∀ b ∈ freed, b ∈ mgr.blocks requestId) (rest : kept.Sublist (mgr.blocks requestId))
    (apart : ∀ b ∈ kept, b ∉ freed) (pool : mgr'.pool = mgr.pool.freeAll freed)
    (blocks : ∀ r, mgr'.blocks r = if r = requestId then kept else mgr.blocks r) :
    mgr'.Owned := by
  -- a block that is not freed stays in use
  have stays : ∀ b, b ∉ freed → mgr.pool.InUse b → mgr'.pool.InUse b := by
    intro b other used
    rwa [pool, BlockPool.InUse, BlockPool.freeAll_usage other]
  constructor
  case sound => exact pool ▸ owned.sound.freeAll freed
  case used =>
    intro r b member
    rw [blocks] at member
    split at member
    · exact stays b (apart b member) (owned.used requestId b (rest.subset member))
    next other =>
      exact stays b (fun inside => owned.apart r requestId other b member (sub b inside))
        (owned.used r b member)
  case once =>
    intro r
    rw [blocks]
    split
    · exact rest.nodup (owned.once requestId)
    · exact owned.once r
  case apart =>
    intro r r' different b
    rw [blocks, blocks]
    split
    next here =>
      rw [if_neg fun there => different (here.trans there.symm)]
      intro member
      apply owned.apart requestId r' fun there => different (here.trans there)
      exact rest.subset member
    next other =>
      split
      · exact fun member inside => owned.apart r requestId other b member (rest.subset inside)
      · exact owned.apart r r' different b

omit [Inhabited α] in
theorem Owned.freeSequence (owned : mgr.Owned) (requestId : ρ) :
    (mgr.freeSequence requestId).Owned := by
  simp only [PagedAttentionManager.freeSequence]
  cases found : mgr.tables requestId with
  | none => exact owned
  | some table =>
    have listed := blocks_of_table found
    apply owned.release requestId table.physicalBlocks []
    · exact fun b member => listed ▸ member
    · exact List.nil_sublist _
    · simp
    · rfl
    · intro r
      by_cases here : r = requestId <;> simp [blocks, here]

omit [Inhabited α] in
theorem Owned.trim (owned : mgr.Owned) (acceptedTotal : Int)
    (found : mgr.tables requestId = some table) :
    (mgr.trim requestId table acceptedTotal).2.Owned := by
  unfold PagedAttentionManager.trim
  generalize mgr.blocksNeeded acceptedTotal = needed
  dsimp only
  -- the blocks freed are the last ones of the table
  obtain ⟨front, tail, split, length⟩ : ∃ front tail, table.physicalBlocks = front ++ tail ∧
      tail.length = table.physicalBlocks.length - needed :=
    ⟨_, _, (List.take_append_drop needed _).symm, List.length_drop⟩
  rw [← length]
  obtain ⟨rest, pool⟩ := popBlocks_spec mgr.pool split
  generalize popBlocks tail.length table mgr.pool = popped at rest pool ⊢
  obtain ⟨table', pool'⟩ := popped
  have listed : mgr.blocks requestId = front ++ tail := (blocks_of_table found).trans split
  have once := owned.once requestId
  rw [listed] at once
  have after : ({ mgr with pool := pool' }.setTable requestId
      { table' with numLogicalBlocks := table'.physicalBlocks.length }).Owned := by
    apply owned.release requestId tail.reverse front
    · simp +contextual [listed]
    · simp [listed]
    · intro b member inside
      exact (List.nodup_append.mp once).2.2 b member b (List.mem_reverse.mp inside) rfl
    · exact pool
    · intro r
      rw [blocks_setTable]
      simp only [← rest]
      rfl
  split
  · exact after
  · exact after.setTokens _ _

omit [Inhabited α] in
theorem Owned.acceptSpeculativeTokens (owned : mgr.Owned) {numAccepted numSpeculated : Nat} :
    (mgr.acceptSpeculativeTokens requestId numAccepted numSpeculated).2.Owned := by
  simp only [PagedAttentionManager.acceptSpeculativeTokens]
  split
  · exact owned
  · cases found : mgr.tables requestId with
    | none => exact owned
    | some table => exact owned.trim _ found

end PagedAttentionManager

namespace Manager

open PagedAttentionManager

variable [DecidableEq ρ] [LinearOrder τ] [Inhabited α] {mgr : PagedAttentionManager ρ τ α}

/-- The call swaps out no block that the table of a live sequence lists. A call that creates a
sequence replaces the table of that id. -/
def KeepsListed (mgr : PagedAttentionManager ρ τ α) : Action ρ τ α → Prop
  | .createSequence requestId reading => mgr.pool.Spares reading (mgr.ListedByOther requestId)
  | .appendTokens requestId numTokens readings => mgr.AppendSpares requestId numTokens readings
  | .appendLayerKv requestId _ chunk readings => mgr.AppendSpares requestId chunk.length readings
  | .swapOutSequence requestId => mgr.blocks requestId = [] ∨ mgr.pool.hasRoom = false
  | _ => True

theorem owned_step (owned : mgr.Owned) (act : Action ρ τ α) (kept : KeepsListed mgr act) :
    (exec mgr act).Owned := by
  cases act with
  | createSequence requestId reading => exact owned.createSequence kept
  | appendTokens requestId numTokens readings => exact owned.appendTokens kept
  | appendLayerKv requestId layer chunk readings => exact owned.appendLayerKv kept
  | gather requestId layer seqLen nows =>
    simp only [exec, gather]
    split
    · exact owned
    · exact owned.gatherFrom
  | acceptSpeculativeTokens requestId numAccepted numSpeculated =>
    exact owned.acceptSpeculativeTokens
  | swapOutSequence requestId =>
    simp only [exec, swapOutSequence_nothing kept]
    exact owned
  | freeSequence requestId => exact owned.freeSequence requestId

theorem owned_of_reaches (reached : (machine ρ τ α).Reaches KeepsListed mgr) : mgr.Owned := by
  apply Machine.Reaches.invariant (I := fun mgr : PagedAttentionManager ρ τ α => mgr.Owned)
    _ _ reached
  · rintro mgr ⟨config, numBlocks, numLayers, maxSeqLen, created⟩
    exact create_owned created
  · exact fun mgr act owned _ kept => owned_step owned act kept

/-- No two live sequences list one block, and freeing one does not free a block of another. -/
def Isolated (mgr : PagedAttentionManager ρ τ α) : Prop :=
  ∀ r r' table table', r ≠ r' → mgr.tables r = some table → mgr.tables r' = some table' →
    ∀ b ∈ table'.physicalBlocks,
      b ∉ table.physicalBlocks ∧ b ∉ (mgr.freeSequence r).pool.freeBlocks

/-- **Isolation of sequences.** In every run whose calls swap out no block that a live sequence
lists, no block is in the tables of two sequences, and freeing a sequence puts no block of another
one on the free list. -/
theorem sequences_isolated (reached : (machine ρ τ α).Reaches KeepsListed mgr) : Isolated mgr := by
  have owned := owned_of_reaches reached
  intro r r' table table' different found found' b member
  rw [← blocks_of_table found'] at member
  rw [← blocks_of_table found]
  refine ⟨owned.apart r' r different.symm b member, ?_⟩
  -- after the call the block is still listed, and listed blocks are in use
  have after := owned.freeSequence r
  have still : b ∈ (mgr.freeSequence r).blocks r' := by
    simpa [freeSequence, found, blocks, different.symm] using member
  exact fun free => after.sound.apart b free (after.used r' b still)

/-- Three blocks with swapping: the second sequence `"a"` takes the last block, and the block of the
first one, which no table lists any more, is swapped out. -/
theorem sequences_isolated_swapped :
    ∃ mgr : PagedAttentionManager String Nat Nat, mgr.blocks "a" = [0] ∧ mgr.blocks "b" = [1] ∧
      mgr.pool.swapSpace.keys = [2] ∧ Isolated mgr := by
  obtain ⟨start, created⟩ : ∃ start : PagedAttentionManager String Nat Nat,
      create twoBlocks 3 1 0 = .ok start := ⟨_, rfl⟩
  have fresh : (machine String Nat Nat).init start := ⟨_, 3, 1, 0, created⟩
  cases created
  have pair : (machine String Nat Nat).Reaches KeepsListed _ := .of_follows (.init fresh)
    [.createSequence "a" ⟨1, true⟩, .createSequence "b" ⟨2, true⟩]
    ⟨trivial, BlockPool.spares_of_more (by decide) _ _, trivial,
      BlockPool.spares_of_more (by decide) _ _, trivial⟩
  refine ⟨_, ?_, ?_, ?_, sequences_isolated (pair.step (.createSequence "a" ⟨3, true⟩) trivial ?_)⟩
  · decide
  · decide
  · decide
  -- block 2 was accessed before the others
  refine ⟨?_, fun b listed => ?_⟩
  · rintro ⟨-, -, -, -, c, only | ⟨none, -⟩, oldest⟩
    · cases only
      exact absurd (oldest (1, 2) (Array.mem_toList_iff.mp (by decide)) (by decide) (by decide))
        (by decide)
    · cases none
  · rintro ⟨-, -, ⟨none, -⟩ | ⟨-, -, c, -, only | ⟨none, -⟩, oldest⟩⟩
    · cases none
    · cases only
      obtain ⟨t, member, -, -, least⟩ := oldest
      have first := least (1, 2) (Array.mem_toList_iff.mp (by decide)) (by decide) (by decide)
      obtain ⟨r, other, listed⟩ := listed
      have entries : (t, b) ∈ [(1, 2), (2, 1)] := Array.mem_toList_iff.mpr member
      have second : b = 2 := by
        rcases List.mem_pair.mp entries with same | same <;> cases same
        · rfl
        · exact absurd first (by decide)
      subst second
      exact (owned_of_reaches pair).apart r "a" other 2 listed (by decide)
    · cases none

/-- Two blocks with swapping: `"c"` gets the block that was swapped out for `"b"`, which `"a"` still
lists. -/
theorem swapped_block_shared : ¬ ∀ mgr : PagedAttentionManager String Nat Nat,
      (machine String Nat Nat).Reachable mgr → Isolated mgr := by
  intro all
  obtain ⟨start, created⟩ : ∃ start : PagedAttentionManager String Nat Nat,
      create twoBlocks 2 1 0 = .ok start := ⟨_, rfl⟩
  have fresh : (machine String Nat Nat).init start := ⟨_, 2, 1, 0, created⟩
  have reached : (machine String Nat Nat).Reachable _ := .of_follows (.init fresh)
    [.createSequence "a" ⟨1, true⟩, .createSequence "b" ⟨2, true⟩, .createSequence "c" ⟨3, true⟩]
    ⟨trivial, trivial, trivial, trivial, trivial, trivial, trivial⟩
  cases created
  have shared := all _ reached "c" "a" _ _ (by decide) rfl rfl 1 (by decide)
  exact shared.1 (by decide)

end Manager

end DistLLM.Pool
