import DistLLM.Pool.Growth

/-!
# Reading back the rows of a layer

As long as nothing is swapped out, the blocks of a sequence hold what the layout says, and gathering
a layer reads its cells in order. So the chunks of all layers can be read back exactly if they fit
into the layout.
-/
namespace DistLLM.Pool

open DistLLM.Library

variable {ρ τ α : Type}

namespace PagedAttentionManager

variable {mgr mgr' : PagedAttentionManager ρ τ α} {requestId : ρ} {layer : Nat}
  {blank : Prop} {shelf : Shelf α}

section Gathering

variable (empty : ∀ b, mgr.pool.swapSpace.get? b = none)

include empty

theorem restoreBlock_nothing (b : Nat) (now : τ) : (mgr.pool.restoreBlock b now).2 = mgr.pool := by
  simp [BlockPool.restoreBlock, empty]

theorem gatherFrom_unchanged {seqLen : Nat} {nows : Nat → τ} {blockIds : List Nat}
    {position : Nat} : (gatherFrom (ρ := ρ) layer seqLen nows blockIds position mgr).2 = mgr := by
  induction blockIds generalizing nows position with
  | nil => rfl
  | cons b rest ih =>
    simp only [gatherFrom, restoreBlock_nothing empty]
    split
    all_goals
      split
      · rfl
      · split
        · rfl
        · split
          next _ _ same => exact (congrArg Prod.snd same).symm.trans ih
          next _ _ same => exact (congrArg Prod.snd same).symm.trans ih

theorem gatherFrom_rows (known : layer < mgr.numLayers) (positive : 0 < mgr.blockSize)
    (seqLen : Nat) (nows : Nat → τ) (position : Nat) {blockIds : List Nat} {n : Nat}
    (used : ∀ b ∈ blockIds, mgr.pool.InUse b)
    (packed : Packed mgr.blockSize (blockIds.map mgr.tokensIn) n) (inside : seqLen - position ≤ n) :
    (gatherFrom (ρ := ρ) layer seqLen nows blockIds position mgr).1 =
      .ok ((List.range (seqLen - position)).map fun i =>
        mgr.pool.contents (blockIds.getD (i / mgr.blockSize) 0) layer (i % mgr.blockSize)) := by
  induction blockIds generalizing nows position n with
  | nil => exact absurd rfl packed.ne_nil
  | cons b rest ih =>
    obtain ⟨block, found⟩ := Option.isSome_iff_exists.mp (used b (by simp))
    have count := tokensIn_of_usage found
    -- a row of the first block is at its own position
    have read : ∀ i < mgr.blockSize, ∀ more : List Nat,
        mgr.pool.contents b layer i = mgr.pool.contents ((b :: more).getD (i / mgr.blockSize) 0)
          layer (i % mgr.blockSize) := by
      intro i small more
      rw [Nat.div_eq_of_lt small, Nat.mod_eq_of_lt small]
      rfl
    simp only [gatherFrom, restoreBlock_nothing empty, found]
    by_cases done : seqLen - position = 0
    · simp [done]
    rw [List.map_cons, count] at packed
    obtain ⟨last, rfl, fits⟩ | ⟨full, left, rfl, rest_packed⟩ := packed.uncons
    · -- the last block has all rows that are asked for
      rw [Nat.min_eq_right inside, if_neg done, if_neg (by omega)]
      have none : rest = [] := by simpa using last
      subst none
      simp only [gatherFrom, List.append_nil]
      congr 1
      refine List.map_congr_left fun i member => read i ?_ []
      have := List.mem_range.mp member
      omega
    · rw [full, if_neg (by omega), if_neg (by omega)]
      have rest_used : ∀ c ∈ rest, mgr.pool.InUse c := fun c member => used c (by simp [member])
      split
      next _ _ same =>
        have later := (congrArg Prod.fst same).symm.trans (ih _ _ rest_used rest_packed (by omega))
        cases later
      next more _ same =>
        have later := (congrArg Prod.fst same).symm.trans (ih _ _ rest_used rest_packed (by omega))
        cases later
        -- the rows of a full block, and those of the blocks after it
        have split : seqLen - position = min mgr.blockSize (seqLen - position) +
            (seqLen - (position + min mgr.blockSize (seqLen - position))) := by omega
        apply congrArg Except.ok
        conv_rhs => rw [split, List.range_add, List.map_append, List.map_map]
        congr 1
        · refine List.map_congr_left fun i member => read i ?_ rest
          have := List.mem_range.mp member
          omega
        · refine List.map_congr_left fun i member => ?_
          have some_left := List.mem_range.mp member
          have whole : min mgr.blockSize (seqLen - position) = mgr.blockSize := by omega
          simp [whole, Nat.add_div_left, positive]

end Gathering

/-! ### Blocks that hold the layout -/

/-- A cell shows the value written last. Where nothing is written, blank blocks show zeros. -/
def Shows [Inhabited α] (blank : Prop) : Option α → α → Prop
  | some value, row => row = value
  | none, row => blank → row = default

/-- The blocks of a sequence hold the tokens counted and the cells written. -/
structure Stores [Inhabited α] (blank : Prop) (mgr : PagedAttentionManager ρ τ α) (requestId : ρ)
    (shelf : Shelf α) : Prop where
  held : mgr.Holds requestId shelf.count
  bounded : ∀ l i value, shelf.cell l i = some value →
    i / mgr.blockSize < (mgr.blocks requestId).length
  shown : ∀ j b, (mgr.blocks requestId)[j]? = some b → ∀ l, ∀ offset < mgr.blockSize,
    Shows blank (shelf.cell l (j * mgr.blockSize + offset)) (mgr.pool.contents b l offset)

def Blank [Inhabited α] (mgr : PagedAttentionManager ρ τ α) : Prop :=
  ∀ b, ¬ mgr.Listed b → mgr.pool.contents b = default

section Storing

variable [LinearOrder τ] [Inhabited α]

omit [LinearOrder τ] in
theorem Stores.gather [DecidableEq ρ] (stores : mgr.Stores blank requestId shelf)
    (used : ∀ b ∈ mgr.blocks requestId, mgr.pool.InUse b) (positive : 0 < mgr.blockSize)
    (empty : ∀ b, mgr.pool.swapSpace.get? b = none) (known : layer < mgr.numLayers)
    {seqLen : Nat} (inside : seqLen ≤ shelf.count) (nows : Nat → τ) :
    ∃ rows, (mgr.gather requestId layer seqLen nows).1 = .ok rows ∧ rows.length = seqLen ∧
      ∀ i < seqLen, ∃ row, rows[i]? = some row ∧ Shows blank (shelf.cell layer i) row := by
  obtain ⟨table, found, _, packed⟩ := stores.held
  have listed := blocks_of_table found
  have shown := stores.shown
  rw [listed] at used shown
  have read := gatherFrom_rows empty known positive seqLen nows 0 used packed (by omega)
  refine ⟨_, by simpa only [PagedAttentionManager.gather, found] using read, by simp,
    fun i small => ?_⟩
  have enough := packed.total_le
  rw [List.length_map] at enough
  have block : i / mgr.blockSize < table.physicalBlocks.length :=
    Nat.div_lt_of_lt_mul (by rw [Nat.mul_comm]; omega)
  have here := shown (i / mgr.blockSize) _ (List.getElem?_eq_getElem block) layer
    (i % mgr.blockSize) (Nat.mod_lt i positive)
  rw [Nat.div_add_mod'] at here
  refine ⟨_, ?_, here⟩
  simp [small, block]

theorem Stores.kept (stores : mgr.Stores blank requestId shelf) {r : ρ} (kept : Kept r mgr mgr')
    (other : requestId ≠ r) : mgr'.Stores blank requestId shelf := by
  have same := kept.same_blocks other
  constructor
  case held => exact kept.toFrame.holds other stores.held
  case bounded => rw [same, kept.blockSize]; exact stores.bounded
  case shown =>
    rw [same, kept.blockSize]
    intro j b found
    rw [kept.contents requestId other b (List.mem_of_getElem? found)]
    exact stores.shown j b found

variable [DecidableEq ρ]

omit [LinearOrder τ] [DecidableEq ρ] in
theorem contents_of_blank (zeros : mgr.Blank)
    {pool' : BlockPool τ (Nat → Nat → α)} (grows : mgr.pool.Grows pool') {b : Nat}
    (unlisted : ¬ mgr.Listed b) : pool'.contents b = default := by
  rcases grows.contents b with same | ⟨_, new⟩
  · rw [same, zeros b unlisted]
  · exact new

theorem createSequence_stores (owned : mgr.Owned) {reading : Reading τ}
    (still : mgr.pool.Spares reading fun _ => True) (zeros : blank → mgr.Blank)
    {table : BlockTable} (created : mgr.createSequence requestId reading = (.ok table, mgr')) :
    mgr'.Stores blank requestId {} ∧ (mgr.tables requestId = none → blank → mgr'.Blank) := by
  obtain ⟨_, held⟩ := createSequence_holds owned requestId still
  rw [created] at held
  have grows := BlockPool.allocateBlock_grows owned.sound still
  simp only [createSequence] at created
  cases allocated : mgr.pool.allocateBlock reading with
  | mk result pool' =>
    rw [allocated] at created grows
    cases result with
    | none => cases created
    | some b =>
      cases created
      -- the block handed out is listed nowhere, so it is blank
      have fresh : ¬ mgr.pool.InUse b := owned.sound.fresh (by rw [allocated]) (still.2 b trivial)
      have unlisted : ¬ mgr.Listed b := by
        rintro ⟨r, member⟩
        exact fresh (owned.used r b member)
      constructor
      · refine ⟨held, by simp, fun j c found l offset _ => ?_⟩
        obtain rfl : b = c := by
          simpa [BlockTable.appendBlock, eq_comm] using List.mem_of_getElem? found
        intro blanks
        have same := contents_of_blank (zeros blanks) grows unlisted
        exact congrFun (congrFun same l) offset
      · intro absent blanks c outside
        apply contents_of_blank (zeros blanks) grows
        rintro ⟨r, member⟩
        refine outside ⟨r, ?_⟩
        rw [blocks_setTable, if_neg]
        · exact member
        · rintro rfl
          simp [blocks, absent] at member

omit [DecidableEq ρ] in
theorem Stores.grown (stores : mgr.Stores blank requestId shelf) (owned : mgr.Owned)
    (zeros : blank → mgr.Blank) (kept : Kept requestId mgr mgr') (grows : mgr.pool.Grows mgr'.pool)
    {added : List Nat} (more : mgr'.blocks requestId = mgr.blocks requestId ++ added) {j b : Nat}
    (found : (mgr'.blocks requestId)[j]? = some b) (l : Nat) {offset : Nat}
    (small : offset < mgr.blockSize) :
    Shows blank (shelf.cell l (j * mgr.blockSize + offset)) (mgr'.pool.contents b l offset) := by
  by_cases old : j < (mgr.blocks requestId).length
  · rw [more, List.getElem?_append_left old] at found
    have used := owned.used requestId b (List.mem_of_getElem? found)
    rw [grows.contents_of_lt (owned.sound.used_lt b used)]
    exact stores.shown j b found l offset small
  · -- an added block lies after all that is written
    have unwritten : shelf.cell l (j * mgr.blockSize + offset) = none := by
      rw [Option.eq_none_iff_forall_ne_some]
      intro value written
      apply old
      have inside := stores.bounded l _ value written
      rwa [Nat.mul_comm, Nat.mul_add_div (by omega), Nat.div_eq_of_lt small, Nat.add_zero] at inside
    rw [unwritten]
    intro blanks
    have unlisted : ¬ mgr.Listed b := by
      rintro ⟨r, member⟩
      by_cases here : r = requestId
      · have once := kept.owned.once requestId
        rw [more, List.getElem?_append_right (by omega)] at found
        rw [more, List.nodup_append] at once
        exact once.2.2 b (here ▸ member) b (List.mem_of_getElem? found) rfl
      · have still : b ∈ mgr'.blocks r := by simpa [blocks, kept.tables r here] using member
        exact kept.owned.apart r requestId here b still (List.mem_of_getElem? found)
    have same := contents_of_blank (zeros blanks) grows unlisted
    exact congrFun (congrFun same l) offset

omit [LinearOrder τ] [Inhabited α] [DecidableEq ρ] in
theorem writeSlices_blocks (allocations : List (Nat × Nat × Nat)) (rows : List α) :
    (writeSlices layer allocations rows mgr).blocks = mgr.blocks ∧
      (writeSlices layer allocations rows mgr).blockSize = mgr.blockSize := by
  obtain ⟨contents, same⟩ : ∃ contents, writeSlices layer allocations rows mgr =
      { mgr with pool := { mgr.pool with contents } } := writeSlices_pool rows
  rw [same]
  exact ⟨rfl, rfl⟩

section Chunk

variable {chunk : List α} {added : List Nat} {mid : PagedAttentionManager ρ τ α}

omit [LinearOrder τ] [Inhabited α] [DecidableEq ρ] in
theorem cell_append_bounded (positive : 0 < mgr.blockSize)
    (bounded : ∀ l i value, shelf.cell l i = some value →
      i / mgr.blockSize < (mgr.blocks requestId).length)
    (more : mid.blocks requestId = mgr.blocks requestId ++ added)
    (size : mid.blockSize = mgr.blockSize)
    (held : mid.Holds requestId (shelf.count + chunk.length)) {l i : Nat} {value : α}
    (written : (shelf.append mgr.blockSize (layer, chunk)).cell l i = some value) :
    i / mgr.blockSize < (mid.blocks requestId).length := by
  have old (before : shelf.cell l i = some value) :
      i / mgr.blockSize < (mid.blocks requestId).length := by
    have inside := bounded l i value before
    rw [more, List.length_append]
    omega
  by_cases here : l = layer
  · subst here
    have small := Nat.mod_lt i positive
    rw [← Nat.div_add_mod' i mgr.blockSize] at written
    simp only [Shelf.append, Function.update_self, writeChunk_block small] at written
    split at written
    next inside =>
      -- the slice lies in the blocks that hold the tokens
      obtain ⟨table, found, _, packed⟩ := held
      have enough := packed.total_le
      rw [List.length_map, ← blocks_of_table found, size] at enough
      apply Nat.lt_of_mul_lt_mul_right (a := mgr.blockSize)
      omega
    next =>
      rw [Nat.div_add_mod'] at written
      exact old written
  · exact old (by simpa [Shelf.append, here] using written)

omit [LinearOrder τ] [DecidableEq ρ] in
/-- The blocks show the chunk in the slices it was written to, and elsewhere what they did. -/
theorem writeSlices_shows {allocations : List (Nat × Nat × Nat)}
    (once : (mid.blocks requestId).Nodup) (lt : ∀ b ∈ mid.blocks requestId, b < mid.pool.numBlocks)
    (lays : Lays mgr.blockSize (mid.blocks requestId) (shelf.count + chunk.length) shelf.count
      allocations) {j b l offset : Nat}
    (found : (mid.blocks requestId)[j]? = some b) (small : offset < mgr.blockSize)
    (before : Shows blank (shelf.cell l (j * mgr.blockSize + offset))
      (mid.pool.contents b l offset)) :
    Shows blank ((shelf.append mgr.blockSize (layer, chunk)).cell l (j * mgr.blockSize + offset))
      ((writeSlices layer allocations chunk mid).pool.contents b l offset) := by
  by_cases here : l = layer
  · subst here
    rw [writeSlices_contents once lt lays rfl found small]
    simp only [Shelf.append, Function.update_self, writeChunk_block small]
    split
    next inside =>
      have some_row : max (j * mgr.blockSize) shelf.count - shelf.count + offset <
          chunk.length := by omega
      rw [List.getD_eq_getElem?_getD, List.getElem?_eq_getElem some_row]
      rfl
    next => exact before
  · rw [writeSlices_layers here]
    simpa [Shelf.append, here] using before

end Chunk

theorem appendLayerKv_stores (owned : mgr.Owned) (positive : 0 < mgr.blockSize)
    (stores : mgr.Stores blank requestId shelf) (zeros : blank → mgr.Blank) {chunk : List α}
    {readings : Nat → Reading τ} (still : mgr.AppendStill requestId chunk.length readings)
    {result : List (Nat × Nat × Nat) × Bool}
    (appended : mgr.appendLayerKv requestId layer chunk readings = (.ok result, mgr')) :
    mgr'.Stores blank requestId (shelf.append mgr.blockSize (layer, chunk)) ∧
      (blank → mgr'.Blank) := by
  obtain ⟨kept, held⟩ := appendTokens_kept owned positive stores.held still
  have grows := (appendTokens_grows owned still).1
  simp only [appendLayerKv] at appended
  split at appended
  · cases appended
  next allocations mid same =>
    obtain ⟨added, more, lays⟩ := appendTokens_lays owned positive stores.held same
    rw [same] at kept held grows
    -- `mid` has the blocks but not the values yet
    split at appended
    · cases appended
    cases appended
    obtain ⟨same_blocks, same_size⟩ :
        (writeSlices layer allocations chunk mid).blocks = mid.blocks ∧
          (writeSlices layer allocations chunk mid).blockSize = mid.blockSize :=
      writeSlices_blocks allocations chunk
    have lt : ∀ b ∈ mid.blocks requestId, b < mid.pool.numBlocks := fun b member =>
      kept.owned.sound.used_lt b (kept.owned.used requestId b member)
    constructor
    · constructor
      case held => exact writeSlices_holds held allocations chunk
      case bounded =>
        rw [same_blocks, same_size, kept.blockSize]
        intro l i value written
        exact cell_append_bounded positive stores.bounded more kept.blockSize held written
      case shown =>
        rw [same_blocks, same_size, kept.blockSize]
        intro j b found l offset small
        exact writeSlices_shows (kept.owned.once requestId) lt lays found small
          (stores.grown owned zeros kept grows more found l small)
    · -- a block that is listed nowhere was not written, and was blank before
      intro blanks b outside
      rw [Listed, same_blocks] at outside
      have apart : b ∉ mid.blocks requestId := fun member => outside ⟨requestId, member⟩
      rw [writeSlices_others apart lays]
      apply contents_of_blank (zeros blanks) grows
      rintro ⟨r, member⟩
      refine outside ⟨r, ?_⟩
      by_cases here : r = requestId
      · subst here
        simp [more, member]
      · rwa [kept.same_blocks here]

end Storing

end PagedAttentionManager

end DistLLM.Pool
