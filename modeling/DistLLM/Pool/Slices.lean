import DistLLM.Pool.Layout
import DistLLM.Pool.Speculation

/-!
# The slices of a chunk

The allocations of an append lie one after the other in the blocks of the sequence. Each slice of
the chunk is written into its block from the first cell on, which is how the layout says it.
-/
namespace DistLLM.Pool

open DistLLM.Library

variable {ρ τ α : Type}

/-- Allocations that take the tokens from `start` to `stop`, each up to the end of its block or of
the tokens. -/
def Lays (size : Nat) (blocks : List Nat) (stop : Nat) : (start : Nat) → List (Nat × Nat × Nat) → Prop
  | start, [] => start = stop
  | start, (b, _, count) :: rest =>
    (∃ j, blocks[j]? = some b ∧ j * size ≤ start ∧
      start + count = min (j * size + size) stop) ∧ Lays size blocks stop (start + count) rest

variable {size start stop : Nat} {blocks : List Nat} {allocations : List (Nat × Nat × Nat)}

variable {b : Nat}

theorem index_unique (once : blocks.Nodup) {j j' : Nat} (found : blocks[j]? = some b)
    (found' : blocks[j']? = some b) : j = j' := by
  obtain ⟨inside, here⟩ := List.getElem?_eq_some_iff.mp found
  obtain ⟨inside', here'⟩ := List.getElem?_eq_some_iff.mp found'
  exact (once.getElem_inj_iff).mp (here.trans here'.symm)

namespace PagedAttentionManager

variable {mgr mgr' : PagedAttentionManager ρ τ α} {requestId : ρ} {layer : Nat}

/-! ### Writing the slices -/

theorem writeSlices_pool (rows : List α) :
    ∃ contents, writeSlices layer allocations rows mgr =
      { mgr with pool := { mgr.pool with contents } } := by
  induction allocations generalizing mgr rows with
  | nil => exact ⟨mgr.pool.contents, rfl⟩
  | cons allocation rest ih =>
    obtain ⟨contents, same⟩ : ∃ contents, writeSlices layer rest (rows.drop allocation.2.2)
        (mgr.setKvSlice allocation.1 layer (rows.take allocation.2.2) 0) =
          { mgr.setKvSlice allocation.1 layer (rows.take allocation.2.2) 0 with
            pool := { (mgr.setKvSlice allocation.1 layer (rows.take allocation.2.2) 0).pool with
              contents } } := ih _
    refine ⟨contents, same.trans ?_⟩
    simp only [setKvSlice, BlockPool.setContents]
    split <;> rfl

variable {rows : List α}

theorem setKvSlice_contents {c : Nat} (inside : b < mgr.pool.numBlocks)
    (l offset : Nat) : (mgr.setKvSlice b layer rows 0).pool.contents c l offset =
      if c = b ∧ l = layer then rows.getD offset (mgr.pool.contents c l offset)
      else mgr.pool.contents c l offset := by
  simp only [setKvSlice, BlockPool.setContents, if_pos inside]
  by_cases here : c = b
  · subst here
    simp
  · simp [here]

theorem writeSlices_others {c : Nat} (outside : c ∉ blocks)
    (lays : Lays size blocks stop start allocations) :
    (writeSlices layer allocations rows mgr).pool.contents c = mgr.pool.contents c := by
  induction allocations generalizing mgr start rows with
  | nil => rfl
  | cons allocation rest ih =>
    obtain ⟨⟨j, found, _⟩, later⟩ := lays
    have other : c ≠ allocation.1 := by
      rintro rfl
      exact outside (List.mem_of_getElem? found)
    apply (ih later).trans
    simp only [setKvSlice, BlockPool.setContents]
    split <;> simp [other]

theorem writeSlices_layers {l : Nat} (other : l ≠ layer) (c offset : Nat) :
    (writeSlices layer allocations rows mgr).pool.contents c l offset =
      mgr.pool.contents c l offset := by
  induction allocations generalizing mgr rows with
  | nil => rfl
  | cons allocation rest ih =>
    apply ih.trans
    simp only [setKvSlice, BlockPool.setContents]
    split
    · by_cases here : c = allocation.1
      · subst here
        simp [other]
      · simp [here]
    · rfl

theorem writeSlices_contents (once : blocks.Nodup) (inside : ∀ b ∈ blocks, b < mgr.pool.numBlocks)
    (lays : Lays size blocks stop start allocations) (all : start + rows.length = stop)
    {j offset : Nat} (found : blocks[j]? = some b) (small : offset < size) :
    (writeSlices layer allocations rows mgr).pool.contents b layer offset =
      if max (j * size) start + offset < min (j * size + size) stop then
        rows.getD (max (j * size) start - start + offset) (mgr.pool.contents b layer offset)
      else mgr.pool.contents b layer offset := by
  induction allocations generalizing mgr start rows with
  | nil =>
    have none : ¬ max (j * size) start + offset < min (j * size + size) stop := by
      have ends : start = stop := lays
      omega
    rw [if_neg none]
    rfl
  | cons allocation rest ih =>
    obtain ⟨b', o, count⟩ := allocation
    obtain ⟨⟨j', found', begins, ends⟩, later⟩ := lays
    -- a slice changes the rows of its own block only
    have written : ∀ offset,
        (mgr.setKvSlice b' layer (rows.take count) 0).pool.contents b layer offset =
          if b = b' then (rows.take count).getD offset (mgr.pool.contents b layer offset)
          else mgr.pool.contents b layer offset := by
      intro offset
      rw [setKvSlice_contents (inside b' (List.mem_of_getElem? found'))]
      simp
    have inside' : ∀ c ∈ blocks,
        c < (mgr.setKvSlice b' layer (rows.take count) 0).pool.numBlocks := by
      intro c member
      have known := inside c member
      simp only [setKvSlice, BlockPool.setContents]
      split <;> exact known
    have left : start + count + (rows.drop count).length = stop := by
      rw [List.length_drop]
      omega
    have after := ih inside' later left
    simp only [writeSlices]
    rw [after, written]
    rcases lt_trichotomy j j' with before | rfl | beyond
    · -- a block that is full already
      have next : (j + 1) * size ≤ j' * size := Nat.mul_le_mul_right size before
      rw [Nat.add_mul, Nat.one_mul] at next
      have other : b ≠ b' := fun same => before.ne (index_unique once found (same ▸ found'))
      rw [if_neg other, if_neg (by omega), if_neg (by omega)]
    · -- the block of the first slice
      obtain rfl : b = b' := by simpa [found] using found'
      rw [if_neg (by omega), if_pos rfl]
      by_cases first : offset < count
      · rw [if_pos (by omega)]
        have index : max (j * size) start - start + offset = offset := by omega
        rw [index, List.getD_eq_getElem?_getD, List.getElem?_take_of_lt first,
          List.getD_eq_getElem?_getD]
      · rw [if_neg (by omega), List.getD_eq_getElem?_getD,
          List.getElem?_eq_none (by simp; omega), Option.getD_none]
    · -- the blocks after it
      have next : (j' + 1) * size ≤ j * size := Nat.mul_le_mul_right size beyond
      rw [Nat.add_mul, Nat.one_mul] at next
      have other : b ≠ b' := fun same => beyond.ne' (index_unique once found (same ▸ found'))
      rw [if_neg other, Nat.max_eq_left (by omega), Nat.max_eq_left (by omega)]
      have index : count + (j * size - (start + count) + offset) = j * size - start + offset := by
        omega
      simp only [List.getD_eq_getElem?_getD, List.getElem?_drop, index]

/-! ### The allocations of an append -/

variable [DecidableEq ρ] [LinearOrder τ] [Inhabited α] {table : BlockTable} {numTokens : Nat}

theorem openBlock_table {remaining : Nat} {reading : Reading τ} {table' : BlockTable}
    (opened : mgr.openBlock requestId table remaining reading = (.ok (b, table'), mgr')) :
    table' = table.appendBlock b ∧ mgr'.tables requestId = some table' ∧
      mgr'.blockSize = mgr.blockSize := by
  unfold openBlock at opened
  split at opened
  · cases opened
  · dsimp only at opened
    split at opened
    · cases opened
    · cases opened
      simp [setTokens, setTable]

theorem openBlocks_lays {fuel remaining : Nat} {readings : Nat → Reading τ}
    (positive : 0 < mgr.blockSize) (found : mgr.tables requestId = some table)
    (enough : remaining ≤ fuel)
    (full : remaining = 0 ∨ start = table.physicalBlocks.length * mgr.blockSize)
    (opened : openBlocks requestId fuel readings table remaining mgr = (.ok allocations, mgr')) :
    ∃ added, mgr'.blocks requestId = table.physicalBlocks ++ added ∧
      Lays mgr.blockSize (mgr'.blocks requestId) (start + remaining) start allocations := by
  induction fuel generalizing mgr table remaining readings start allocations with
  | zero =>
    cases opened
    refine ⟨[], by simp [blocks_of_table found], ?_⟩
    simp only [Lays]
    omega
  | succ fuel ih =>
    simp only [openBlocks] at opened
    by_cases done : remaining = 0
    · rw [if_pos done] at opened
      cases opened
      exact ⟨[], by simp [blocks_of_table found], by simp [Lays, done]⟩
    rw [if_neg done] at opened
    split at opened
    · cases opened
    next b table' mid same =>
      obtain ⟨rfl, found', size⟩ := openBlock_table same
      split at opened
      · cases opened
      next allocations' final later =>
        cases opened
        -- only the last round leaves its block partly filled
        have full' : remaining - min mid.blockSize remaining = 0 ∨
            start + min mid.blockSize remaining =
              (table.appendBlock b).physicalBlocks.length * mid.blockSize := by
          rw [size]
          by_cases fits : remaining ≤ mgr.blockSize
          · exact .inl (by omega)
          · right
            simp only [BlockTable.appendBlock, List.length_append, List.length_singleton]
            rw [Nat.add_mul]
            omega
        obtain ⟨added, blocks, lays⟩ :=
          ih (by rwa [size]) found' (by rw [size]; omega) full' later
        have total : start + min mid.blockSize remaining +
            (remaining - min mid.blockSize remaining) = start + remaining := by omega
        rw [total, size] at lays
        refine ⟨b :: added, by simp [blocks, BlockTable.appendBlock], ?_⟩
        rw [size]
        refine ⟨⟨table.physicalBlocks.length, ?_, by omega, by omega⟩, lays⟩
        simp [blocks, BlockTable.appendBlock]

omit [DecidableEq ρ] [LinearOrder τ] [Inhabited α] in
theorem fillLast_lays (packed : Packed mgr.blockSize (table.physicalBlocks.map mgr.tokensIn) start)
    (listed : ∀ b ∈ table.physicalBlocks, mgr.pool.InUse b) (numTokens : Nat) :
    ∃ first take mid, mgr.fillLast table numTokens = (first, numTokens - take, mid) ∧
      take ≤ numTokens ∧ mid.tables = mgr.tables ∧ mid.blockSize = mgr.blockSize ∧
      (numTokens - take = 0 ∨ start + take = table.physicalBlocks.length * mgr.blockSize) ∧
      ∀ more rest, Lays mgr.blockSize (table.physicalBlocks ++ more) (start + numTokens)
          (start + take) rest →
        Lays mgr.blockSize (table.physicalBlocks ++ more) (start + numTokens) start
          (first ++ rest) := by
  obtain ⟨full, last, counts, fits, rfl⟩ := packed
  obtain ⟨front, tail, split, front_counts, tail_counts⟩ := List.map_eq_append_iff.mp counts
  obtain ⟨b, rfl, count⟩ := List.map_eq_singleton_iff.mp tail_counts
  have size : front.length = full := by simpa using congrArg List.length front_counts
  -- the room of the full blocks and of the last one
  have blocks : table.physicalBlocks.length * mgr.blockSize =
      full * mgr.blockSize + mgr.blockSize := by
    rw [split, List.length_append, size, List.length_singleton, Nat.add_mul, Nat.one_mul]
  obtain ⟨block, known⟩ := Option.isSome_iff_exists.mp (listed b (by simp [split]))
  rw [tokensIn_of_usage known] at count
  obtain ⟨same, whole⟩ | ⟨b', block', ends, known', space, same⟩ :=
    mgr.fillLast_cases table numTokens
  · have here := whole b block (by simp [split]) known
    refine ⟨[], 0, mgr, same, Nat.zero_le _, rfl, rfl, .inr (by omega), fun _ _ lays => lays⟩
  · obtain rfl : b = b' := by simpa [split] using ends
    cases known.symm.trans known'
    refine ⟨_, _, _, same, Nat.min_le_right _ _, rfl, rfl, by omega, fun more rest lays => ?_⟩
    refine ⟨⟨full, ?_, by omega, by omega⟩, lays⟩
    rw [split, List.append_assoc, List.getElem?_append_right (by omega), size]
    simp

theorem appendTokens_lays {readings : Nat → Reading τ} (owned : mgr.Owned)
    (positive : 0 < mgr.blockSize) (held : mgr.Holds requestId start)
    (appended : mgr.appendTokens requestId numTokens readings = (.ok allocations, mgr')) :
    ∃ added, mgr'.blocks requestId = mgr.blocks requestId ++ added ∧
      Lays mgr.blockSize (mgr'.blocks requestId) (start + numTokens) start allocations := by
  obtain ⟨table, found, _, packed⟩ := held
  have listed := blocks_of_table found
  obtain ⟨first, take, mid, filled, fits, tables, size, full, front⟩ := fillLast_lays packed
    (fun b member => owned.used requestId b (by rwa [listed])) numTokens
  simp only [appendTokens, found, filled] at appended
  split at appended
  · cases appended
  next later final opened =>
    cases appended
    rw [← size] at positive full
    obtain ⟨added, blocks, lays⟩ := openBlocks_lays positive (by rw [tables, found])
      (Nat.sub_le numTokens take) full opened
    have total : start + take + (numTokens - take) = start + numTokens := by omega
    rw [size, total] at lays
    rw [blocks] at lays ⊢
    exact ⟨added, by rw [listed], front added later lays⟩

end PagedAttentionManager

end DistLLM.Pool
