import DistLLM.Pool.Slices

/-!
# Calls that swap nothing out

A call for one sequence may hand out blocks, write to them, and free them again. As long as nothing
is swapped out, it leaves the rows of all other sequences where they are.
-/
namespace DistLLM.Pool

open DistLLM.Library

variable {ρ τ α : Type}

variable {readings : Nat → Reading τ} {reading : Reading τ} {table : BlockTable}

namespace BlockPool

variable {δ : Type} [LinearOrder τ] [Inhabited δ] {pool pool' pool'' : BlockPool τ δ}

/-- Contents stay, new blocks are zeros, and nothing is swapped out. -/
structure Grows (pool pool' : BlockPool τ δ) : Prop where
  numBlocks : pool.numBlocks ≤ pool'.numBlocks
  swapSpace : pool'.swapSpace = pool.swapSpace
  contents : ∀ b, pool'.contents b = pool.contents b ∨
    pool.numBlocks ≤ b ∧ pool'.contents b = default

section

omit [LinearOrder τ]

theorem Grows.refl (pool : BlockPool τ δ) : pool.Grows pool :=
  ⟨le_rfl, rfl, fun _ => .inl rfl⟩

theorem Grows.trans (first : pool.Grows pool') (second : pool'.Grows pool'') :
    pool.Grows pool'' where
  numBlocks := first.numBlocks.trans second.numBlocks
  swapSpace := second.swapSpace.trans first.swapSpace
  contents b := by
    rcases second.contents b with same | ⟨new, zeros⟩
    · rw [same]
      exact first.contents b
    · exact .inr ⟨first.numBlocks.trans new, zeros⟩

theorem Grows.contents_of_lt (grows : pool.Grows pool') {b : Nat} (old : b < pool.numBlocks) :
    pool'.contents b = pool.contents b :=
  (grows.contents b).resolve_right fun new => absurd new.1 (by omega)

end

theorem makeRoom_grows (sound : pool.Sound)
    (still : ∀ b, ¬ pool.SwapsOut reading b) : pool.Grows (pool.makeRoom reading.memory).2.2 := by
  obtain ⟨_, made⟩ | ⟨_, _, made⟩ | ⟨empty, stuck, swap, made⟩ | ⟨_, _, _, made⟩ :=
    pool.makeRoom_cases reading.memory <;> rw [made]
  · exact .refl pool
  · simp only [BlockPool.expandPool]
    split
    · exact .refl pool
    · split
      · exact .refl pool
      · refine ⟨Nat.le_add_right _ _, rfl, fun b => ?_⟩
        by_cases new : pool.numBlocks ≤ b <;> simp [new]
  · obtain ⟨rest, same | ⟨b, same⟩⟩ := pool.swapLruBlock_cases
    · rw [same]
      exact ⟨le_rfl, rfl, fun _ => .inl rfl⟩
    · obtain ⟨room, least⟩ := (swapLruBlock_victim sound.ordered b).mp (by rw [same])
      exact absurd ⟨swap, room, .inl ⟨empty, stuck, least⟩⟩ (still b)
  · exact .refl pool

theorem allocateBlock_grows (sound : pool.Sound)
    (still : pool.Spares reading fun _ => True) : pool.Grows (pool.allocateBlock reading).2 := by
  have room := makeRoom_grows sound fun b => still.2 b trivial
  obtain ⟨pool', failed, same⟩ | ⟨victim, mid, front, b, made, last, allocated⟩ :=
    pool.allocateBlock_spec reading
  · rw [failed, same]
    exact room
  · obtain ⟨rest, same⟩ := relieve_still sound still made last allocated
    rw [made] at room
    rw [allocated, same]
    exact ⟨room.numBlocks, room.swapSpace, room.contents⟩

omit [LinearOrder τ] in
theorem freeBlock_grows (pool : BlockPool τ δ) (b : Nat) : pool.Grows (pool.freeBlock b) := by
  simp only [freeBlock]
  split
  · exact .refl pool
  · split <;> exact ⟨le_rfl, rfl, fun _ => .inl rfl⟩

omit [LinearOrder τ] in
theorem freeAll_grows (pool : BlockPool τ δ) (bs : List Nat) : pool.Grows (pool.freeAll bs) := by
  induction bs generalizing pool with
  | nil => exact .refl pool
  | cons b rest ih => exact (freeBlock_grows pool b).trans (ih (pool.freeBlock b))

end BlockPool

namespace PagedAttentionManager

variable {mgr mgr' mgr'' : PagedAttentionManager ρ τ α} {requestId : ρ} {layer : Nat}

/-! ### Calls for one sequence -/

section Kept

variable [LinearOrder τ]

/-- A call for one sequence that also leaves the rows of the others alone, and swaps nothing. -/
structure Kept (requestId : ρ) (mgr mgr' : PagedAttentionManager ρ τ α) : Prop
    extends Frame requestId mgr mgr' where
  numLayers : mgr'.numLayers = mgr.numLayers
  swapSpace : mgr'.pool.swapSpace = mgr.pool.swapSpace
  contents : ∀ r, r ≠ requestId → ∀ b ∈ mgr.blocks r, mgr'.pool.contents b = mgr.pool.contents b

theorem Kept.refl (owned : mgr.Owned) : Kept requestId mgr mgr :=
  ⟨.refl owned, rfl, rfl, fun _ _ _ _ => rfl⟩

variable [Inhabited α]

theorem Kept.of_grows (owned : mgr.Owned) (frame : Frame requestId mgr mgr')
    (layers : mgr'.numLayers = mgr.numLayers) (grows : mgr.pool.Grows mgr'.pool) :
    Kept requestId mgr mgr' where
  toFrame := frame
  numLayers := layers
  swapSpace := grows.swapSpace
  contents r _ b member := grows.contents_of_lt (owned.sound.used_lt b (owned.used r b member))

variable [DecidableEq ρ]

theorem openBlock_grows (sound : mgr.pool.Sound) (requestId : ρ) (table : BlockTable)
    (remaining : Nat) (still : mgr.pool.Spares reading fun _ => True) :
    mgr.pool.Grows (mgr.openBlock requestId table remaining reading).2.pool ∧
      (mgr.openBlock requestId table remaining reading).2.numLayers = mgr.numLayers := by
  have grows := BlockPool.allocateBlock_grows sound still
  simp only [openBlock]
  cases allocated : mgr.pool.allocateBlock reading with
  | mk result pool' =>
    rw [allocated] at grows
    cases result with
    | none => exact ⟨grows, rfl⟩
    | some b =>
      dsimp only
      split
      · exact ⟨grows, rfl⟩
      · exact ⟨⟨grows.numBlocks, grows.swapSpace, grows.contents⟩, rfl⟩

theorem openBlocks_grows {fuel remaining : Nat} (owned : mgr.Owned)
    (found : mgr.tables requestId = some table)
    (still : RoundsSpare (fun _ _ => True) requestId fuel readings table remaining mgr) :
    mgr.pool.Grows (openBlocks requestId fuel readings table remaining mgr).2.pool ∧
      (openBlocks requestId fuel readings table remaining mgr).2.numLayers = mgr.numLayers := by
  induction fuel generalizing mgr table remaining readings with
  | zero => exact ⟨.refl mgr.pool, rfl⟩
  | succ fuel ih =>
    simp only [openBlocks]
    by_cases done : remaining = 0
    · rw [if_pos done]
      exact ⟨.refl mgr.pool, rfl⟩
    rw [if_neg done]
    obtain ⟨allocation, rounds⟩ := still.resolve_left done
    obtain ⟨grows, layers⟩ :=
      openBlock_grows owned.sound requestId table remaining allocation
    obtain ⟨after, kept⟩ := owned.openBlock remaining found
      ⟨allocation.1, fun c _ => allocation.2 c trivial⟩
    -- the pool of each round grows from that of the round before
    cases opened : mgr.openBlock requestId table remaining (readings 0) with
    | mk result mid =>
      rw [opened] at grows layers after kept
      cases result with
      | error raised => exact ⟨grows, layers⟩
      | ok placed =>
        obtain ⟨grows', layers'⟩ := ih after (kept _ _ rfl) (rounds _ _ _ opened)
        dsimp only
        split
        next _ _ same =>
          rw [same] at grows' layers'
          exact ⟨grows.trans grows', layers'.trans layers⟩
        next _ _ same =>
          rw [same] at grows' layers'
          exact ⟨grows.trans grows', layers'.trans layers⟩

theorem appendTokens_grows (owned : mgr.Owned) {numTokens : Nat}
    (still : mgr.AppendStill requestId numTokens readings) :
    mgr.pool.Grows (mgr.appendTokens requestId numTokens readings).2.pool ∧
      (mgr.appendTokens requestId numTokens readings).2.numLayers = mgr.numLayers := by
  simp only [appendTokens]
  cases found : mgr.tables requestId with
  | none => exact ⟨.refl mgr.pool, rfl⟩
  | some table =>
    have filled : mgr.pool.Grows (mgr.fillLast table numTokens).2.2.pool ∧
        (mgr.fillLast table numTokens).2.2.numLayers = mgr.numLayers ∧
        (mgr.fillLast table numTokens).2.2.tables = mgr.tables := by
      obtain ⟨same, _⟩ | ⟨_, _, _, _, _, same⟩ := mgr.fillLast_cases table numTokens <;> rw [same]
      · exact ⟨.refl mgr.pool, rfl, rfl⟩
      · exact ⟨⟨le_rfl, rfl, fun _ => .inl rfl⟩, rfl, rfl⟩
    obtain ⟨grows, layers⟩ := openBlocks_grows (owned.fillLast table numTokens)
      (by rw [filled.2.2, found]) (still table found)
    dsimp only
    split
    next _ _ same =>
      rw [same] at grows layers
      exact ⟨filled.1.trans grows, layers.trans filled.2.1⟩
    next _ _ same =>
      rw [same] at grows layers
      exact ⟨filled.1.trans grows, layers.trans filled.2.1⟩

variable {n : Nat}

theorem appendTokens_kept (owned : mgr.Owned) (positive : 0 < mgr.blockSize)
    (held : mgr.Holds requestId n) {numTokens : Nat}
    (still : mgr.AppendStill requestId numTokens readings) :
    Kept requestId mgr (mgr.appendTokens requestId numTokens readings).2 ∧
      (mgr.appendTokens requestId numTokens readings).2.Holds requestId
        (n + placed numTokens (mgr.appendTokens requestId numTokens readings).1) := by
  obtain ⟨frame, held'⟩ := appendTokens_holds owned positive held still
  obtain ⟨grows, layers⟩ := appendTokens_grows owned still
  exact ⟨.of_grows owned frame layers grows, held'⟩

omit [Inhabited α] [DecidableEq ρ] in
theorem writeSlices_kept (kept : Kept requestId mgr mgr') {allocations : List (Nat × Nat × Nat)}
    {size start stop : Nat} (lays : Lays size (mgr'.blocks requestId) stop start allocations)
    (rows : List α) : Kept requestId mgr (writeSlices layer allocations rows mgr') := by
  have owned := kept.owned.writeSlices layer allocations rows
  have outside : ∀ r, r ≠ requestId → ∀ b ∈ mgr.blocks r,
      (writeSlices layer allocations rows mgr').pool.contents b = mgr.pool.contents b := by
    intro r other b member
    have listed : b ∈ mgr'.blocks r := by rwa [kept.same_blocks other]
    rw [writeSlices_others (kept.owned.apart r requestId other b listed) lays]
    exact kept.contents r other b member
  obtain ⟨contents, same⟩ : ∃ contents, writeSlices layer allocations rows mgr' =
      { mgr' with pool := { mgr'.pool with contents } } := writeSlices_pool rows
  rw [same] at owned outside ⊢
  exact ⟨⟨owned, kept.config, kept.blockSize, kept.tables, kept.tokens⟩, kept.numLayers,
    kept.swapSpace, outside⟩

omit [LinearOrder τ] [Inhabited α] [DecidableEq ρ] in
theorem writeSlices_holds (held : mgr.Holds requestId n) (allocations : List (Nat × Nat × Nat))
    (rows : List α) :
    (writeSlices layer allocations rows mgr).Holds requestId n := by
  obtain ⟨contents, same⟩ : ∃ contents, writeSlices layer allocations rows mgr =
      { mgr with pool := { mgr.pool with contents } } := writeSlices_pool rows
  rw [same]
  exact held

theorem appendLayerKv_kept (owned : mgr.Owned) (positive : 0 < mgr.blockSize)
    (held : mgr.Holds requestId n) {chunk : List α}
    (still : mgr.AppendStill requestId chunk.length readings) :
    Kept requestId mgr (mgr.appendLayerKv requestId layer chunk readings).2 ∧
      ∃ m, (mgr.appendLayerKv requestId layer chunk readings).2.Holds requestId m := by
  obtain ⟨kept, held'⟩ := appendTokens_kept owned positive held still
  simp only [appendLayerKv]
  split
  next _ _ same =>
    rw [same] at kept held'
    exact ⟨kept, _, held'⟩
  next allocations mid same =>
    obtain ⟨added, _, lays⟩ := appendTokens_lays owned positive held same
    rw [same] at kept held'
    split
    · exact ⟨kept, _, held'⟩
    · exact ⟨writeSlices_kept kept lays chunk, _, writeSlices_holds held' allocations chunk⟩

omit [LinearOrder τ] [DecidableEq ρ] in
theorem popBlocks_grows (count : Nat) (table : BlockTable)
    (pool : BlockPool τ (Nat → Nat → α)) : pool.Grows (popBlocks count table pool).2 := by
  induction count generalizing table pool with
  | zero => exact .refl pool
  | succ count ih =>
    simp only [popBlocks]
    split
    · exact .refl pool
    next b _ => exact (BlockPool.freeBlock_grows pool b).trans (ih _ _)

variable (owned : mgr.Owned)

include owned

theorem createSequence_kept (requestId : ρ) (still : mgr.pool.Spares reading fun _ => True) :
    Kept requestId mgr (mgr.createSequence requestId reading).2 := by
  have grows := BlockPool.allocateBlock_grows owned.sound still
  apply Kept.of_grows owned (createSequence_holds owned requestId still).1
  · simp only [createSequence]
    split <;> rfl
  · simp only [createSequence]
    split
    next _ same => rwa [same] at grows
    next _ _ same => rwa [same] at grows

theorem freeSequence_kept (requestId : ρ) :
    Kept requestId mgr (mgr.freeSequence requestId) := by
  apply Kept.of_grows owned (freeSequence_frame owned requestId).1
  · simp only [freeSequence]
    split <;> rfl
  · simp only [freeSequence]
    split
    · exact .refl mgr.pool
    · exact BlockPool.freeAll_grows mgr.pool _

theorem trim_kept {acceptedTotal : Int}
    (frame : Frame requestId mgr (mgr.trim requestId table acceptedTotal).2) :
    Kept requestId mgr (mgr.trim requestId table acceptedTotal).2 := by
  have grows : mgr.pool.Grows (mgr.trim requestId table acceptedTotal).2.pool ∧
      (mgr.trim requestId table acceptedTotal).2.numLayers = mgr.numLayers := by
    have popped := popBlocks_grows
      (table.physicalBlocks.length - mgr.blocksNeeded acceptedTotal) table mgr.pool
    unfold trim
    dsimp only
    split
    · exact ⟨popped, rfl⟩
    · exact ⟨⟨popped.numBlocks, popped.swapSpace, popped.contents⟩, rfl⟩
  exact .of_grows owned frame grows.2 grows.1

theorem trim_holds_some (positive : 0 < mgr.blockSize) (found : mgr.tables requestId = some table)
    (mapped : table.Mapped)
    (packed : Packed mgr.blockSize (table.physicalBlocks.map mgr.tokensIn) n) {acceptedTotal : Int}
    (less : acceptedTotal ≤ n) : Kept requestId mgr (mgr.trim requestId table acceptedTotal).2 ∧
      ∃ m, (mgr.trim requestId table acceptedTotal).2.Holds requestId m := by
  by_cases none : acceptedTotal ≤ 0
  · have nonempty : table.physicalBlocks ≠ [] := fun empty => packed.ne_nil (by rw [empty]; rfl)
    obtain ⟨frame, held⟩ := trim_keeps_one owned positive found mapped nonempty none
    exact ⟨trim_kept owned frame, _, held⟩
  · obtain ⟨m, rfl⟩ := Int.eq_ofNat_of_zero_le (by omega : 0 ≤ acceptedTotal)
    obtain ⟨frame, held⟩ := trim_holds owned positive found mapped packed (by omega : m ≤ n)
      (by omega)
    exact ⟨trim_kept owned frame, m, held⟩

end Kept

end PagedAttentionManager

end DistLLM.Pool
