import DistLLM.Library.Packing
import DistLLM.Pool.Isolation

/-!
# Rolling back draft tokens

Without swapping, the blocks of a sequence are packed: all but the last one are full, and their
tokens are those appended less those rejected. Rolling back keeps this unless no token is left:
the last block keeps one then.
-/
namespace DistLLM.Pool

open DistLLM.Library

variable {ρ τ α : Type} {table : BlockTable}

namespace BlockTable

def Mapped (table : BlockTable) : Prop :=
  table.numLogicalBlocks = table.physicalBlocks.length ∧
    ∀ i, table.logicalToPhysical.get? i = table.physicalBlocks[i]?

theorem Mapped.appendBlock (mapped : table.Mapped) (b : Nat) :
    (table.appendBlock b).Mapped := by
  obtain ⟨size, get⟩ := mapped
  refine ⟨by simp [BlockTable.appendBlock, size], fun i => ?_⟩
  simp only [BlockTable.appendBlock, Dict.get?_set, get, size]
  rcases lt_trichotomy i table.physicalBlocks.length with before | here | after
  · rw [if_neg (by omega), List.getElem?_append_left before]
  · simp [here]
  · rw [if_neg (by omega), List.getElem?_eq_none (by omega), List.getElem?_eq_none (by simp; omega)]

theorem Mapped.popBlock (get : ∀ i, table.logicalToPhysical.get? i = table.physicalBlocks[i]?)
    (i : Nat) :
    table.popBlock.logicalToPhysical.get? i = table.popBlock.physicalBlocks[i]? := by
  simp only [BlockTable.popBlock, Dict.get?_filterKeys, get, List.getElem?_dropLast]
  by_cases last : i = table.physicalBlocks.length - 1
  · simp [last]
  · by_cases before : i < table.physicalBlocks.length - 1
    · simp [last, before]
    · simp [last, before]
      omega

end BlockTable

variable {reading : Reading τ} {b : Nat}

namespace BlockPool

variable {δ : Type} [LinearOrder τ] [Inhabited δ] {pool pool' : BlockPool τ δ} (sound : pool.Sound)
  (still : pool.Spares reading fun _ => True)

include sound still

theorem relieve_still {victim : Option Nat} {mid : BlockPool τ δ} {front : List Nat}
    (made : pool.makeRoom reading.memory = (true, victim, mid))
    (last : mid.freeBlocks = front ++ [b])
    (allocated : pool.allocateBlock reading = (some b, (mid.take b reading.now).relieve.2)) :
    ∃ rest, (mid.take b reading.now).relieve.2 =
      { mid.take b reading.now with lruHeap := rest } := by
  have used := ((sound.allocated_iff allocated).mpr still.1).1
  have inside : mid.Sound := by simpa [made] using sound.makeRoom reading.memory
  have ordered := (inside.take last reading.now).ordered
  by_cases crossed : (mid.take b reading.now).config.swapToCpu = true ∧
      (mid.take b reading.now).config.aboveWatermark (mid.take b reading.now).usedCount
        (mid.take b reading.now).numBlocks = true ∧
      (mid.take b reading.now).config.restoreTarget (mid.take b reading.now).numBlocks <
        (mid.take b reading.now).usedCount ∧ (mid.take b reading.now).freeBlocks = []
  · obtain ⟨rest, same | ⟨c, same⟩⟩ := (mid.take b reading.now).swapLruBlock_cases
    · exact ⟨rest, by rw [relieve_eq, if_pos crossed, same]⟩
    · -- a victim would be another block in use, or the block that is returned
      exfalso
      have gone : (mid.take b reading.now).relieve.2.blockUsage c = none := by
        rw [relieve_eq, if_pos crossed, same]
        simp [BlockPool.swapOut]
      by_cases here : c = b
      · rw [here] at gone
        simp [InUse, gone] at used
      · have other : (pool.allocateBlock reading).1 ≠ some c := by simp [allocated, Ne.symm here]
        have kept := allocateBlock_usage sound (still.2 c trivial) other
        have before := makeRoom_usage sound.ordered (still.2 c trivial)
        rw [allocated, gone] at kept
        rw [made, ← kept] at before
        have before : mid.blockUsage c = none := before
        obtain ⟨_, t, _, live, _⟩ := (swapLruBlock_victim ordered c).mp (by rw [same])
        have alive := inUse_of_isLive live
        simp [InUse, BlockPool.take, here, before] at alive
  · exact ⟨_, by rw [relieve_eq, if_neg crossed]⟩

theorem allocateBlock_still (allocated : pool.allocateBlock reading = (some b, pool')) :
    pool'.blockUsage b = some { lastAccess := reading.now } ∧
      ∀ c, c ≠ b → pool'.blockUsage c = pool.blockUsage c := by
  constructor
  · obtain ⟨_, failed, _⟩ | ⟨victim, mid, front, b', made, last, result⟩ :=
      pool.allocateBlock_spec reading
    · simp [failed] at allocated
    · obtain rfl : b' = b := by simpa [result] using congrArg Prod.fst allocated
      obtain ⟨rest, same⟩ := relieve_still sound still made last result
      rw [result, same] at allocated
      cases allocated
      simp [BlockPool.take]
  · intro c other
    have kept := allocateBlock_usage sound (still.2 c trivial) (by simp [allocated, other.symm])
    rwa [allocated] at kept

end BlockPool

namespace PagedAttentionManager

variable [LinearOrder τ] {mgr mgr' mgr'' : PagedAttentionManager ρ τ α} {requestId : ρ} {n : Nat}

/-- The table of the sequence is well formed, and its blocks are packed with `n` tokens. -/
def Holds (mgr : PagedAttentionManager ρ τ α) (requestId : ρ) (n : Nat) : Prop :=
  ∃ table, mgr.tables requestId = some table ∧ table.Mapped ∧
    Packed mgr.blockSize (table.physicalBlocks.map mgr.tokensIn) n

/-- A call for one sequence leaves the others alone. -/
structure Frame (requestId : ρ) (mgr mgr' : PagedAttentionManager ρ τ α) : Prop where
  owned : mgr'.Owned
  config : mgr'.pool.config = mgr.pool.config
  blockSize : mgr'.blockSize = mgr.blockSize
  tables : ∀ r, r ≠ requestId → mgr'.tables r = mgr.tables r
  tokens : ∀ r, r ≠ requestId → ∀ b ∈ mgr.blocks r, mgr'.tokensIn b = mgr.tokensIn b

theorem Frame.refl (owned : mgr.Owned) : Frame requestId mgr mgr :=
  ⟨owned, rfl, rfl, fun _ _ => rfl, fun _ _ _ _ => rfl⟩

theorem Frame.trans (first : Frame requestId mgr mgr') (second : Frame requestId mgr' mgr'') :
    Frame requestId mgr mgr'' where
  owned := second.owned
  config := second.config.trans first.config
  blockSize := second.blockSize.trans first.blockSize
  tables r other := (second.tables r other).trans (first.tables r other)
  tokens r other b member := by
    have still : b ∈ mgr'.blocks r := by
      rw [blocks, first.tables r other]
      exact member
    exact (second.tokens r other b still).trans (first.tokens r other b member)

theorem Frame.same_blocks (frame : Frame requestId mgr mgr') {r : ρ} (other : r ≠ requestId) :
    mgr'.blocks r = mgr.blocks r := by
  simp [blocks, frame.tables r other]

theorem Frame.holds (frame : Frame requestId mgr mgr') {r : ρ} (other : r ≠ requestId)
    (held : mgr.Holds r n) : mgr'.Holds r n := by
  obtain ⟨table, found, mapped, packed⟩ := held
  refine ⟨table, (frame.tables r other).trans found, mapped, ?_⟩
  have same : table.physicalBlocks.map mgr'.tokensIn = table.physicalBlocks.map mgr.tokensIn :=
    List.map_congr_left fun b member =>
      frame.tokens r other b (by rwa [blocks_of_table found])
  rwa [frame.blockSize, same]

theorem Frame.of_blocks (owned : mgr.Owned) (owned' : mgr'.Owned)
    (config : mgr'.pool.config = mgr.pool.config) (blockSize : mgr'.blockSize = mgr.blockSize)
    (tables : ∀ r, r ≠ requestId → mgr'.tables r = mgr.tables r)
    (tokens : ∀ b, b ∉ mgr.blocks requestId → b ∉ mgr'.blocks requestId →
      mgr'.tokensIn b = mgr.tokensIn b) : Frame requestId mgr mgr' := by
  refine ⟨owned', config, blockSize, tables, fun r other b member => tokens b ?_ ?_⟩
  · exact owned.apart r requestId other b member
  · apply owned'.apart r requestId other b
    simpa [blocks, tables r other] using member

theorem Frame.setTokens (owned : mgr.Owned) (member : b ∈ mgr.blocks requestId)
    (m : Nat) : Frame requestId mgr (mgr.setTokens b m) := by
  obtain ⟨block, found⟩ := Option.isSome_iff_exists.mp (owned.used requestId b member)
  apply Frame.of_blocks owned (owned.setTokens b m) rfl rfl fun _ _ => rfl
  intro c outside _
  rw [tokensIn_setTokens found, if_neg]
  rintro rfl
  exact outside member

variable [DecidableEq ρ] [Inhabited α]

omit [DecidableEq ρ] in
/-- An allocation that fails only drops entries of the queue. -/
theorem Frame.of_exhausted (owned : mgr.Owned) {pool'}
    (owned' : PagedAttentionManager.Owned { mgr with pool := pool' })
    (config : pool'.config = mgr.pool.config)
    (failed : mgr.pool.allocateBlock reading = (none, pool')) :
    Frame requestId mgr { mgr with pool := pool' } ∧
      PagedAttentionManager.tokensIn { mgr with pool := pool' } = mgr.tokensIn := by
  obtain ⟨rest, same⟩ := BlockPool.allocateBlock_none failed
  have tokens : PagedAttentionManager.tokensIn { mgr with pool := pool' } = mgr.tokensIn := by
    rw [same]
    rfl
  exact ⟨.of_blocks owned owned' config rfl (fun _ _ => rfl) fun b _ _ => congrFun tokens b, tokens⟩

/-! ### Appending -/

/-- The allocations that `append_tokens` makes swap nothing out. -/
def AppendStill (mgr : PagedAttentionManager ρ τ α) (requestId : ρ) (numTokens : Nat)
    (readings : Nat → Reading τ) : Prop :=
  ∀ table, mgr.tables requestId = some table →
    RoundsSpare (fun _ _ => True) requestId numTokens readings table (mgr.fillLast table numTokens).2.1
      (mgr.fillLast table numTokens).2.2

theorem appendStill_of_off (off : mgr.pool.config.swapToCpu = false) (numTokens : Nat)
    (readings : Nat → Reading τ) : mgr.AppendStill requestId numTokens readings := by
  intro table _
  apply roundsSpare_of_off
  obtain ⟨same, _⟩ | ⟨_, _, _, _, _, same⟩ := mgr.fillLast_cases table numTokens <;>
    rw [same] <;> exact off

theorem openBlock_still (owned : mgr.Owned) (found : mgr.tables requestId = some table)
    (remaining : Nat) (still : mgr.pool.Spares reading fun _ => True) :
    (∃ mgr', mgr.openBlock requestId table remaining reading =
        (.error (.exhausted remaining), mgr') ∧ Frame requestId mgr mgr' ∧
          mgr'.tables = mgr.tables ∧ mgr'.tokensIn = mgr.tokensIn) ∨
    ∃ b mgr', mgr.openBlock requestId table remaining reading =
        (.ok (b, table.appendBlock b), mgr') ∧ Frame requestId mgr mgr' ∧
          mgr'.tables requestId = some (table.appendBlock b) ∧ b ∉ table.physicalBlocks ∧
            mgr'.tokensIn b = min mgr.blockSize remaining ∧
              ∀ c, c ≠ b → mgr'.tokensIn c = mgr.tokensIn c := by
  have after := (owned.openBlock remaining found
    ⟨still.1, fun c _ => still.2 c trivial⟩).1
  have config := mgr.config_openBlock requestId table remaining reading
  simp only [openBlock] at after config ⊢
  cases allocated : mgr.pool.allocateBlock reading with
  | mk result pool' =>
    rw [allocated] at after config
    cases result with
    | none =>
      obtain ⟨frame, tokens⟩ := Frame.of_exhausted owned after config allocated
      exact .inl ⟨_, rfl, frame, rfl, tokens⟩
    | some b =>
      obtain ⟨new, others⟩ := BlockPool.allocateBlock_still owned.sound still allocated
      have fresh := owned.sound.fresh (by rw [allocated]) (still.2 b trivial)
      dsimp only at after config ⊢
      rw [new] at after config ⊢
      -- only the new block has another count
      have tokens : ∀ c, (({ mgr with pool := pool' }.setTable requestId
          (table.appendBlock b)).setTokens b (min mgr.blockSize remaining)).tokensIn c =
            if c = b then min mgr.blockSize remaining else mgr.tokensIn c := by
        intro c
        rw [tokensIn_setTokens (b := b) new]
        by_cases here : c = b
        · simp [here]
        · simp [here, tokensIn, setTable, others c here]
      have listed : table.physicalBlocks = mgr.blocks requestId := (blocks_of_table found).symm
      refine .inr ⟨b, _, rfl, ?_, by simp [setTokens, setTable], fun member => ?_, ?_, ?_⟩
      · apply Frame.of_blocks owned after config rfl
        · exact fun r other => by simp [setTokens, setTable, other]
        · intro c _ outside
          apply (tokens c).trans (if_neg _)
          rintro rfl
          simp [BlockTable.appendBlock] at outside
      · exact fresh (owned.used requestId b (listed ▸ member))
      · exact (tokens b).trans (if_pos rfl)
      · exact fun c other => (tokens c).trans (if_neg other)

def placed {β : Type} (numTokens : Nat) : Except (Raised ρ) β → Nat
  | .ok _ => numTokens
  | .error (.exhausted remaining) => numTokens - remaining
  | .error _ => 0

theorem openBlocks_holds {fuel : Nat} (readings : Nat → Reading τ) {remaining : Nat}
    (owned : mgr.Owned) (still : RoundsSpare (fun _ _ => True) requestId fuel readings table remaining mgr)
    (positive : 0 < mgr.blockSize) (found : mgr.tables requestId = some table)
    (mapped : table.Mapped)
    (packed : Packed mgr.blockSize (table.physicalBlocks.map mgr.tokensIn) n)
    (full : remaining = 0 ∨ ∃ front, table.physicalBlocks.map mgr.tokensIn =
      front ++ [mgr.blockSize]) (enough : remaining ≤ fuel) :
    Frame requestId mgr (openBlocks requestId fuel readings table remaining mgr).2 ∧
      (openBlocks requestId fuel readings table remaining mgr).2.Holds requestId
        (n + placed remaining (openBlocks requestId fuel readings table remaining mgr).1) ∧
      ∀ raised, (openBlocks requestId fuel readings table remaining mgr).1 = .error raised →
        ∃ left ≤ remaining, raised = .exhausted left := by
  induction fuel generalizing mgr n readings table remaining with
  | zero =>
    have none : remaining = 0 := by omega
    subst none
    exact ⟨.refl owned, ⟨table, found, mapped, packed⟩, fun _ raised => by cases raised⟩
  | succ fuel ih =>
    simp only [openBlocks]
    by_cases done : remaining = 0
    · subst done
      exact ⟨.refl owned, ⟨table, found, mapped, packed⟩, fun _ raised => by cases raised⟩
    rw [if_neg done]
    obtain ⟨front, last⟩ := full.resolve_left done
    obtain ⟨allocation, rounds⟩ := still.resolve_left done
    obtain ⟨mgr', opened, frame, same, tokens⟩ | ⟨b, mgr', opened, frame, found', new, here, others⟩ :=
      openBlock_still owned found remaining allocation <;> rw [opened]
    · -- the pool is exhausted
      refine ⟨frame, ⟨table, by rw [same, found], mapped, ?_⟩, fun left raised => ?_⟩
      · simpa [placed, tokens, frame.blockSize] using packed
      · cases raised
        exact ⟨remaining, le_rfl, rfl⟩
    · have old : table.physicalBlocks.map mgr'.tokensIn = table.physicalBlocks.map mgr.tokensIn :=
        List.map_congr_left fun c member => others c fun same => new (same ▸ member)
      have counts : (table.appendBlock b).physicalBlocks.map mgr'.tokensIn =
          front ++ [mgr.blockSize] ++ [min mgr.blockSize remaining] := by
        simp [BlockTable.appendBlock, old, last, here]
      rw [last] at packed
      have grown := packed.extend (Nat.min_le_left mgr.blockSize remaining)
      rw [← counts, ← frame.blockSize] at grown
      rw [← frame.blockSize] at counts positive
      -- if tokens remain, the new block is full, too
      have full' : remaining - min mgr'.blockSize remaining = 0 ∨ ∃ front,
          (table.appendBlock b).physicalBlocks.map mgr'.tokensIn = front ++ [mgr'.blockSize] := by
        by_cases fits : remaining ≤ mgr'.blockSize
        · exact .inl (by omega)
        · refine .inr ⟨front ++ [mgr'.blockSize], ?_⟩
          rw [counts, Nat.min_eq_left (by omega)]
      have later := ih (fun i => readings (i + 1)) frame.owned (rounds _ _ _ opened) positive
        found' (mapped.appendBlock b) grown full' (by omega)
      dsimp only
      generalize openBlocks requestId fuel (fun i => readings (i + 1)) (table.appendBlock b)
        (remaining - min mgr'.blockSize remaining) mgr' = result at later ⊢
      obtain ⟨outcome, final⟩ := result
      obtain ⟨frame', held, only⟩ := later
      -- the tokens of this round, and those of the rounds after it
      have split : min mgr'.blockSize remaining + (remaining - min mgr'.blockSize remaining) =
        remaining := by omega
      cases outcome with
      | ok allocations =>
        refine ⟨frame.trans frame', ?_, fun _ raised => by cases raised⟩
        simpa only [placed, ← frame.blockSize, Nat.add_assoc, split] using held
      | error raised =>
        obtain ⟨left, some, rfl⟩ := only raised rfl
        refine ⟨frame.trans frame', ?_, fun _ same => ?_⟩
        · have rest : min mgr'.blockSize remaining +
              (remaining - min mgr'.blockSize remaining - left) = remaining - left := by omega
          simpa only [placed, ← frame.blockSize, Nat.add_assoc, rest] using held
        · cases same
          exact ⟨left, by omega, rfl⟩

omit [DecidableEq ρ] [Inhabited α] in
theorem fillLast_holds (owned : mgr.Owned) (found : mgr.tables requestId = some table)
    (packed : Packed mgr.blockSize (table.physicalBlocks.map mgr.tokensIn) n) (numTokens : Nat) :
    ∃ take mgr', (mgr.fillLast table numTokens).2 = (numTokens - take, mgr') ∧
      take ≤ numTokens ∧ Frame requestId mgr mgr' ∧ mgr'.tables = mgr.tables ∧
        Packed mgr.blockSize (table.physicalBlocks.map mgr'.tokensIn) (n + take) ∧
          (numTokens - take = 0 ∨ ∃ front, table.physicalBlocks.map mgr'.tokensIn =
            front ++ [mgr.blockSize]) := by
  have some : table.physicalBlocks ≠ [] := fun none => packed.ne_nil (by rw [none]; rfl)
  obtain ⟨front, b, split⟩ := List.eq_nil_or_concat' table.physicalBlocks |>.resolve_left some
  have listed : mgr.blocks requestId = front ++ [b] := (blocks_of_table found).trans split
  obtain ⟨block, used⟩ := Option.isSome_iff_exists.mp (owned.used requestId b (by simp [listed]))
  have count := tokensIn_of_usage used
  have counts : table.physicalBlocks.map mgr.tokensIn =
      front.map mgr.tokensIn ++ [block.numTokens] := by simp [split, count]
  rw [counts] at packed
  obtain ⟨same, full⟩ | ⟨b', block', last, used', space, same⟩ :=
    mgr.fillLast_cases table numTokens
  · -- the last block is full
    have here : block.numTokens = mgr.blockSize :=
      le_antisymm packed.last_le (full b block (by simp [split]) used)
    refine ⟨0, mgr, by rw [same]; rfl, Nat.zero_le _, .refl owned, rfl, by rwa [counts], .inr ?_⟩
    exact ⟨front.map mgr.tokensIn, by rw [counts, here]⟩
  · obtain rfl : b = b' := by simpa [split] using last
    cases used.symm.trans used'
    have once := owned.once requestId
    rw [listed, List.nodup_append] at once
    -- the count of the last block is the only one to change
    have counts' : ∀ m, table.physicalBlocks.map (mgr.setTokens b m).tokensIn =
        front.map mgr.tokensIn ++ [m] := by
      intro m
      rw [split, List.map_append, List.map_singleton, tokensIn_setTokens used, if_pos rfl]
      congr 1
      refine List.map_congr_left fun c member => ?_
      rw [tokensIn_setTokens used, if_neg (once.2.2 c member b (by simp))]
    refine ⟨_, _, congrArg Prod.snd same, Nat.min_le_right _ _,
      .setTokens owned (by simp [listed]) _, rfl, ?_, ?_⟩
    · rw [counts']
      exact packed.fill (by omega)
    · rw [counts']
      by_cases fits : numTokens ≤ mgr.blockSize - block.numTokens
      · exact .inl (by omega)
      · refine .inr ⟨front.map mgr.tokensIn, ?_⟩
        congr 2
        omega

theorem appendTokens_holds (owned : mgr.Owned) (positive : 0 < mgr.blockSize)
    (held : mgr.Holds requestId n) {numTokens : Nat} {readings : Nat → Reading τ}
    (still : mgr.AppendStill requestId numTokens readings) :
    Frame requestId mgr (mgr.appendTokens requestId numTokens readings).2 ∧
      (mgr.appendTokens requestId numTokens readings).2.Holds requestId
        (n + placed numTokens (mgr.appendTokens requestId numTokens readings).1) := by
  obtain ⟨table, found, mapped, packed⟩ := held
  obtain ⟨take, mgr₁, filled, fits, frame, tables, packed₁, full⟩ :=
    fillLast_holds owned found packed numTokens
  rw [← frame.blockSize] at packed₁ full positive
  have rounds := still table found
  rw [filled] at rounds
  have later := openBlocks_holds readings frame.owned rounds positive (by rw [tables, found])
    mapped packed₁ full (Nat.sub_le numTokens take)
  simp only [appendTokens, found, filled]
  generalize openBlocks requestId numTokens readings table (numTokens - take) mgr₁ = result
    at later ⊢
  obtain ⟨outcome, final⟩ := result
  obtain ⟨frame', held, only⟩ := later
  cases outcome with
  | ok allocations =>
    refine ⟨frame.trans frame', ?_⟩
    have sum : n + take + (numTokens - take) = n + numTokens := by omega
    simpa only [placed, sum] using held
  | error raised =>
    obtain ⟨left, _, rfl⟩ := only raised rfl
    refine ⟨frame.trans frame', ?_⟩
    have sum : n + take + (numTokens - take - left) = n + (numTokens - left) := by omega
    simpa only [placed, sum] using held

theorem createSequence_holds (owned : mgr.Owned) (requestId : ρ)
    (still : mgr.pool.Spares reading fun _ => True) :
    Frame requestId mgr (mgr.createSequence requestId reading).2 ∧
      match (mgr.createSequence requestId reading).1 with
      | .ok _ => (mgr.createSequence requestId reading).2.Holds requestId 0
      | .error _ => (mgr.createSequence requestId reading).2.tables = mgr.tables ∧
          (mgr.createSequence requestId reading).2.tokensIn = mgr.tokensIn := by
  have after : (mgr.createSequence requestId reading).2.Owned :=
    owned.createSequence ⟨still.1, fun c _ => still.2 c trivial⟩
  have config := mgr.pool.allocateBlock_config reading
  simp only [createSequence] at after ⊢
  cases allocated : mgr.pool.allocateBlock reading with
  | mk result pool' =>
    rw [allocated] at after config
    cases result with
    | none =>
      obtain ⟨frame, tokens⟩ := Frame.of_exhausted owned after config allocated
      exact ⟨frame, rfl, tokens⟩
    | some b =>
      obtain ⟨new, others⟩ := BlockPool.allocateBlock_still owned.sound still allocated
      refine ⟨?_, ({} : BlockTable).appendBlock b, by simp [setTable], ?_, ?_⟩
      · apply Frame.of_blocks owned after config rfl
        · exact fun r other => by simp [setTable, other]
        · intro c _ outside
          have other : c ≠ b := by simpa [BlockTable.appendBlock] using outside
          simp [tokensIn, setTable, others c other]
      · exact BlockTable.Mapped.appendBlock ⟨rfl, fun i => by simp⟩ b
      · have none : ∀ tables,
            ({ mgr with pool := pool', tables } : PagedAttentionManager ρ τ α).tokensIn b = 0 := by
          simp [tokensIn, new]
        simpa [BlockTable.appendBlock, setTable, none] using Packed.empty mgr.blockSize

omit [Inhabited α] in
theorem freeSequence_frame (owned : mgr.Owned) (requestId : ρ) :
    Frame requestId mgr (mgr.freeSequence requestId) ∧
      (mgr.freeSequence requestId).tables requestId = none := by
  have after := owned.freeSequence requestId
  simp only [freeSequence] at after ⊢
  cases found : mgr.tables requestId with
  | none => exact ⟨.refl owned, found⟩
  | some table =>
    rw [found] at after
    refine ⟨?_, by simp⟩
    apply Frame.of_blocks owned after (BlockPool.freeAll_config _) rfl
    · exact fun r other => by simp [other]
    · intro c outside _
      rw [blocks_of_table found] at outside
      simp [tokensIn, BlockPool.freeAll_usage outside]

/-! ### Rolling back -/

omit [LinearOrder τ] [DecidableEq ρ] [Inhabited α] in
theorem popBlocks_get (count : Nat) (pool : BlockPool τ (Nat → Nat → α))
    (get : ∀ i, table.logicalToPhysical.get? i = table.physicalBlocks[i]?) (i : Nat) :
    (popBlocks count table pool).1.logicalToPhysical.get? i =
      (popBlocks count table pool).1.physicalBlocks[i]? := by
  induction count generalizing table pool with
  | zero => exact get i
  | succ count ih =>
    simp only [popBlocks]
    split
    · exact get i
    · exact ih _ (BlockTable.Mapped.popBlock get)

variable {acceptedTotal : Int}

omit [Inhabited α] in
theorem trim_spec (owned : mgr.Owned) (mapped : table.Mapped)
    (found : mgr.tables requestId = some table) {front : List Nat}
    (kept : table.physicalBlocks.take (mgr.blocksNeeded acceptedTotal) = front ++ [b]) :
    Frame requestId mgr (mgr.trim requestId table acceptedTotal).2 ∧
      ∃ table', (mgr.trim requestId table acceptedTotal).2.tables requestId = some table' ∧
        table'.Mapped ∧ table'.physicalBlocks = front ++ [b] ∧
        table'.physicalBlocks.map (mgr.trim requestId table acceptedTotal).2.tokensIn =
          front.map mgr.tokensIn ++ [(max 1 (min (acceptedTotal -
            ((mgr.blocksNeeded acceptedTotal - 1) * mgr.blockSize : Nat)) mgr.blockSize)).toNat] := by
  have after := owned.trim acceptedTotal found
  have listed : mgr.blocks requestId = table.physicalBlocks := blocks_of_table found
  have once := owned.once requestId
  rw [listed] at once
  unfold trim at after ⊢
  generalize mgr.blocksNeeded acceptedTotal = needed at kept after ⊢
  dsimp only at after ⊢
  have split : table.physicalBlocks = front ++ [b] ++ table.physicalBlocks.drop needed := by
    rw [← kept, List.take_append_drop]
  have length : table.physicalBlocks.length - needed =
    (table.physicalBlocks.drop needed).length := List.length_drop.symm
  generalize table.physicalBlocks.drop needed = tail at split length
  rw [length] at after ⊢
  obtain ⟨rest, pool⟩ := popBlocks_spec mgr.pool split
  have get := popBlocks_get tail.length mgr.pool mapped.2
  generalize popBlocks tail.length table mgr.pool = popped at rest pool get after ⊢
  obtain ⟨table', pool'⟩ := popped
  dsimp only at rest pool get after ⊢
  rw [rest] at after get ⊢
  simp only [List.getLast?_concat] at after ⊢
  rw [split, List.nodup_append, List.nodup_append] at once
  obtain ⟨⟨_, _, new⟩, _, apart⟩ := once
  -- the blocks that stay are not freed
  have usage : ∀ c, c ∉ tail → pool'.blockUsage c = mgr.pool.blockUsage c := by
    intro c outside
    rw [pool, BlockPool.freeAll_usage (by simpa using outside)]
  have stays : ∀ c ∈ front ++ [b], c ∉ tail := fun c inside freed => apart c inside c freed rfl
  obtain ⟨block, used⟩ := Option.isSome_iff_exists.mp
    (owned.used requestId b (by simp [listed, split]))
  have used' : pool'.blockUsage b = some block := by rw [usage b (stays b (by simp)), used]
  have tokens : ∀ left c, c ∉ tail → (({ mgr with pool := pool' }.setTable requestId
      { table' with physicalBlocks := front ++ [b], numLogicalBlocks := (front ++ [b]).length
        }).setTokens b left).tokensIn c = if c = b then left else mgr.tokensIn c := by
    intro left c outside
    rw [tokensIn_setTokens (b := b) used']
    simp only [tokensIn, setTable, usage c outside]
  refine ⟨?_, { table' with
    physicalBlocks := front ++ [b], numLogicalBlocks := (front ++ [b]).length },
    Function.update_self .., ⟨rfl, get⟩, rfl, ?_⟩
  · apply Frame.of_blocks owned after
    · exact pool ▸ BlockPool.freeAll_config _
    · rfl
    · exact fun r other => by simp [setTokens, setTable, other]
    · intro c outside _
      rw [listed, split, List.mem_append, not_or] at outside
      apply (tokens _ c outside.2).trans (if_neg _)
      rintro rfl
      simp at outside
  · rw [List.map_append, List.map_singleton]
    congr 1
    · refine List.map_congr_left fun c member => ?_
      exact (tokens _ c (stays c (by simp [member]))).trans (if_neg (new c member b (by simp)))
    · congr 1
      exact (tokens _ b (stays b (by simp))).trans (if_pos rfl)

section

omit [LinearOrder τ] [DecidableEq ρ] [Inhabited α]

theorem blocksNeeded_pos (positive : 0 < mgr.blockSize) {m : Nat} (some : 0 < m) :
    mgr.blocksNeeded m = (m + mgr.blockSize - 1) / mgr.blockSize := by
  have cast : (m + mgr.blockSize - 1 : Int) / mgr.blockSize =
      ((m + mgr.blockSize - 1) / mgr.blockSize : Nat) := by
    rw [Int.natCast_ediv]
    congr 1
    omega
  have one : 1 ≤ (m + mgr.blockSize - 1) / mgr.blockSize := Nat.div_pos (by omega) positive
  rw [blocksNeeded, cast]
  omega

theorem blocksNeeded_nonpos (positive : 0 < mgr.blockSize)
    (none : acceptedTotal ≤ 0) : mgr.blocksNeeded acceptedTotal = 1 := by
  have below : (acceptedTotal + mgr.blockSize - 1) / mgr.blockSize < 1 :=
    Int.ediv_lt_of_lt_mul (by omega) (by omega)
  rw [blocksNeeded]
  omega

theorem totalTokens_of_packed
    (packed : Packed mgr.blockSize (table.physicalBlocks.map mgr.tokensIn) n) :
    mgr.totalTokens table = n :=
  packed.sum_eq

end

omit [Inhabited α] in
theorem trim_holds (owned : mgr.Owned) (positive : 0 < mgr.blockSize)
    (found : mgr.tables requestId = some table) (mapped : table.Mapped)
    (packed : Packed mgr.blockSize (table.physicalBlocks.map mgr.tokensIn) n) {m : Nat}
    (less : m ≤ n) (some : 0 < m) : Frame requestId mgr (mgr.trim requestId table m).2 ∧
      (mgr.trim requestId table m).2.Holds requestId m := by
  obtain ⟨first, enough, fits, left, cut⟩ := packed.cut some less positive
  rw [← blocksNeeded_pos positive some] at first enough fits left cut
  rw [List.length_map] at enough
  obtain ⟨before, here⟩ : ∃ before, mgr.blocksNeeded m = before + 1 :=
    ⟨mgr.blocksNeeded m - 1, by omega⟩
  have kept : table.physicalBlocks.take (mgr.blocksNeeded m) =
      table.physicalBlocks.take before ++ [table.physicalBlocks[before]] := by
    rw [here, List.take_succ_eq_append_getElem]
  obtain ⟨frame, table', found', mapped', _, counts⟩ := trim_spec owned mapped found kept
  refine ⟨frame, table', found', mapped', ?_⟩
  have last : (max 1 (min ((m : Int) - ((mgr.blocksNeeded m - 1) * mgr.blockSize : Nat))
      mgr.blockSize)).toNat = m - (mgr.blocksNeeded m - 1) * mgr.blockSize := by
    omega
  rw [counts, last, frame.blockSize, here, Nat.add_sub_cancel, List.map_take]
  rwa [here, Nat.add_sub_cancel] at cut

omit [Inhabited α] in
theorem trim_keeps_one (owned : mgr.Owned) (positive : 0 < mgr.blockSize)
    (found : mgr.tables requestId = some table) (mapped : table.Mapped)
    (some : table.physicalBlocks ≠ []) (none : acceptedTotal ≤ 0) :
    Frame requestId mgr (mgr.trim requestId table acceptedTotal).2 ∧
      (mgr.trim requestId table acceptedTotal).2.Holds requestId 1 := by
  have needed := blocksNeeded_nonpos positive none
  obtain ⟨b, rest, split⟩ := List.exists_cons_of_ne_nil some
  have kept : table.physicalBlocks.take (mgr.blocksNeeded acceptedTotal) = [] ++ [b] := by
    simp [needed, split]
  obtain ⟨frame, table', found', mapped', _, counts⟩ := trim_spec owned mapped found kept
  refine ⟨frame, table', found', mapped', ?_⟩
  have one : (max 1 (min (acceptedTotal - ((1 - 1) * mgr.blockSize : Nat))
      mgr.blockSize)).toNat = 1 := by
    omega
  rw [counts, needed, one, frame.blockSize]
  have start : Packed mgr.blockSize ([] ++ [0]) 0 := Packed.empty mgr.blockSize
  have filled : Packed mgr.blockSize ([] ++ [0 + 1]) (0 + 1) := start.fill (by omega)
  simpa using filled

end PagedAttentionManager

/-! ### Runs -/

/-- A manager, with the tokens appended to each sequence and those rejected since it was created. -/
structure Counted (ρ τ α : Type) where
  mgr : PagedAttentionManager ρ τ α
  appended : ρ → Nat
  rejected : ρ → Nat

namespace Counted

open PagedAttentionManager

inductive Action (ρ τ : Type)
  | createSequence (requestId : ρ) (reading : Reading τ)
  | appendTokens (requestId : ρ) (numTokens : Nat) (readings : Nat → Reading τ)
  | acceptSpeculativeTokens (requestId : ρ) (numAccepted numSpeculated : Nat)
  | freeSequence (requestId : ρ)

variable [DecidableEq ρ] [LinearOrder τ] [Inhabited α]

/-- A call, and what it adds to the counts. An append that raises has placed some tokens. -/
def exec (s : Counted ρ τ α) : Action ρ τ → Counted ρ τ α
  | .createSequence requestId reading =>
    match s.mgr.createSequence requestId reading with
    | (.error _, mgr) => { s with mgr }
    | (.ok _, mgr) =>
      { mgr
        appended := Function.update s.appended requestId 0
        rejected := Function.update s.rejected requestId 0 }
  | .appendTokens requestId numTokens readings =>
    let (result, mgr) := s.mgr.appendTokens requestId numTokens readings
    { s with
      mgr
      appended := Function.update s.appended requestId
        (s.appended requestId + placed numTokens result) }
  | .acceptSpeculativeTokens requestId numAccepted numSpeculated =>
    { s with
      mgr := (s.mgr.acceptSpeculativeTokens requestId numAccepted numSpeculated).2
      rejected := Function.update s.rejected requestId
        (s.rejected requestId + (numSpeculated - numAccepted)) }
  | .freeSequence requestId => { s with mgr := s.mgr.freeSequence requestId }

def machine (ρ τ α : Type) [DecidableEq ρ] [LinearOrder τ] [Inhabited α] :
    Machine (Counted ρ τ α) (Action ρ τ) where
  init s := ∃ config numBlocks numLayers maxSeqLen, config.swapToCpu = false ∧
    create config numBlocks numLayers maxSeqLen = .ok s.mgr ∧
      s.appended = (fun _ => 0) ∧ s.rejected = fun _ => 0
  enabled _ _ := True
  exec := exec

variable {s : Counted ρ τ α}

/-- The tables of live sequences are well formed, all blocks but the last are full, and the tokens
are those appended less those rejected. -/
def WellFormed (s : Counted ρ τ α) : Prop :=
  ∀ requestId table, s.mgr.tables requestId = some table →
    table.Mapped ∧ (∀ b ∈ table.physicalBlocks.dropLast, s.mgr.tokensIn b = s.mgr.blockSize) ∧
      (s.mgr.totalTokens table : Int) = s.appended requestId - s.rejected requestId

/-- The call does not reject all tokens of a live sequence. -/
def KeepsCount (s : Counted ρ τ α) : Action ρ τ → Prop
  | .acceptSpeculativeTokens requestId numAccepted numSpeculated =>
    numSpeculated ≤ numAccepted ∨ ∀ table, s.mgr.tables requestId = some table →
      numSpeculated - numAccepted < s.mgr.totalTokens table
  | _ => True

structure Steady (s : Counted ρ τ α) : Prop where
  owned : s.mgr.Owned
  off : s.mgr.pool.config.swapToCpu = false
  positive : 0 < s.mgr.blockSize
  holds : ∀ r, s.mgr.tables r ≠ none → ∃ n : Nat, (n : Int) = s.appended r - s.rejected r ∧
    s.mgr.Holds r n

omit [DecidableEq ρ] [Inhabited α] in
theorem Steady.wellFormed (steady : s.Steady) : s.WellFormed := by
  intro requestId table found
  obtain ⟨n, count, table', found', mapped, packed⟩ := steady.holds requestId (by simp [found])
  cases found.symm.trans found'
  refine ⟨mapped, fun b member => packed.full_of_mem_dropLast ?_, ?_⟩
  · rw [← List.map_dropLast]
    exact List.mem_map_of_mem member
  · rw [totalTokens_of_packed packed, count]

omit [Inhabited α] in
theorem Steady.of_frame (steady : s.Steady) {s' : Counted ρ τ α} {requestId : ρ}
    (frame : Frame requestId s.mgr s'.mgr)
    (others : ∀ r, r ≠ requestId → s'.appended r = s.appended r ∧ s'.rejected r = s.rejected r)
    (here : s'.mgr.tables requestId ≠ none → ∃ n : Nat,
      (n : Int) = s'.appended requestId - s'.rejected requestId ∧ s'.mgr.Holds requestId n) :
    s'.Steady where
  owned := frame.owned
  off := by rw [frame.config, steady.off]
  positive := by rw [frame.blockSize]; exact steady.positive
  holds r live := by
    by_cases same : r = requestId
    · subst same
      exact here live
    · rw [frame.tables r same] at live
      obtain ⟨n, count, held⟩ := steady.holds r live
      rw [(others r same).1, (others r same).2]
      exact ⟨n, count, frame.holds same held⟩

theorem Steady.createSequence (steady : s.Steady) (requestId : ρ) (reading : Reading τ) :
    (exec s (.createSequence requestId reading)).Steady := by
  obtain ⟨frame, held⟩ :=
    createSequence_holds steady.owned requestId (BlockPool.spares_of_off steady.off reading _)
  simp only [exec]
  split
  next raised mgr' same =>
    rw [same] at frame held
    refine Steady.of_frame steady frame (fun _ _ => ⟨rfl, rfl⟩) fun live => ?_
    rw [held.1] at live
    obtain ⟨n, count, table, found, mapped, packed⟩ := steady.holds requestId live
    refine ⟨n, count, table, by rw [held.1, found], mapped, ?_⟩
    rwa [held.2, frame.blockSize]
  next table mgr' same =>
    rw [same] at frame held
    apply steady.of_frame frame
    · exact fun r other => by simp [other]
    · exact fun _ => ⟨0, by simp, held⟩

theorem Steady.appendTokens (steady : s.Steady) (requestId : ρ) (numTokens : Nat)
    (readings : Nat → Reading τ) :
    (exec s (.appendTokens requestId numTokens readings)).Steady := by
  simp only [exec]
  cases found : s.mgr.tables requestId with
  | none =>
    simp only [PagedAttentionManager.appendTokens, found]
    refine Steady.of_frame steady (.refl steady.owned) (fun r other => ?_) (absurd found)
    simp [show r ≠ requestId from other]
  | some table =>
    obtain ⟨n, count, held⟩ := steady.holds requestId (by simp [found])
    obtain ⟨frame, held'⟩ :=
      appendTokens_holds steady.owned steady.positive held
        (appendStill_of_off steady.off numTokens readings)
    apply steady.of_frame frame
    · exact fun r other => by simp [other]
    · refine fun _ => ⟨_, ?_, held'⟩
      simp only [Function.update_self]
      omega

theorem Steady.acceptSpeculativeTokens (steady : s.Steady) (requestId : ρ)
    (numAccepted numSpeculated : Nat)
    (kept : s.KeepsCount (.acceptSpeculativeTokens requestId numAccepted numSpeculated)) :
    (exec s (.acceptSpeculativeTokens requestId numAccepted numSpeculated)).Steady := by
  simp only [exec, PagedAttentionManager.acceptSpeculativeTokens]
  by_cases all : numSpeculated ≤ numAccepted
  · rw [if_pos all, Nat.sub_eq_zero_of_le all]
    simpa using steady
  rw [if_neg all]
  cases found : s.mgr.tables requestId with
  | none =>
    refine Steady.of_frame steady (.refl steady.owned) (fun r other => ?_) (absurd found)
    simp [show r ≠ requestId from other]
  | some table =>
    obtain ⟨n, count, table', found', mapped, packed⟩ := steady.holds requestId (by simp [found])
    cases found.symm.trans found'
    have less := (kept.resolve_left all) table found
    dsimp only
    rw [totalTokens_of_packed packed] at less ⊢
    obtain ⟨m, here⟩ : ∃ m : Nat, (m : Int) = n - (numSpeculated - numAccepted : Nat) :=
      ⟨n - (numSpeculated - numAccepted), by omega⟩
    rw [← here]
    obtain ⟨frame, held⟩ := trim_holds (m := m) steady.owned steady.positive found mapped packed
      (by omega) (by omega)
    apply steady.of_frame frame
    · exact fun r other => by simp [other]
    · refine fun _ => ⟨m, ?_, held⟩
      simp only [Function.update_self]
      omega

theorem Steady.exec (steady : s.Steady) (act : Action ρ τ) (kept : s.KeepsCount act) :
    (exec s act).Steady := by
  cases act with
  | createSequence requestId reading => exact steady.createSequence requestId reading
  | appendTokens requestId numTokens readings =>
    exact steady.appendTokens requestId numTokens readings
  | acceptSpeculativeTokens requestId numAccepted numSpeculated =>
    exact steady.acceptSpeculativeTokens requestId numAccepted numSpeculated kept
  | freeSequence requestId =>
    obtain ⟨frame, freed⟩ := freeSequence_frame steady.owned requestId
    exact steady.of_frame frame (fun _ _ => ⟨rfl, rfl⟩) fun live => absurd freed live

theorem steady_of_reaches (reached : (machine ρ τ α).Reaches KeepsCount s) : s.Steady := by
  apply Machine.Reaches.invariant (I := fun s : Counted ρ τ α => s.Steady) _ _ reached
  · rintro s ⟨config, numBlocks, numLayers, maxSeqLen, off, created, appended, rejected⟩
    obtain ⟨positive, same, fresh⟩ := create_spec created
    exact ⟨create_owned created, by rw [same, off], positive, fun r live => absurd (fresh r) live⟩
  · exact fun s act steady _ kept => steady.exec act kept

/-- **Block tables under speculation.** In every run without swapping whose calls reject not all
tokens of a sequence, the tables are well formed, all blocks but the last are full, and the tokens
are those appended less those rejected. The condition is exact. -/
theorem blocks_packed (reached : (machine ρ τ α).Reaches KeepsCount s) :
    s.WellFormed ∧ ∀ act, (Counted.exec s act).WellFormed ↔ s.KeepsCount act := by
  have steady := steady_of_reaches reached
  refine ⟨steady.wellFormed, fun act => ⟨fun formed => ?_, fun kept =>
    (steady.exec act kept).wellFormed⟩⟩
  cases act with
  | acceptSpeculativeTokens requestId numAccepted numSpeculated =>
    -- otherwise one token stays in the table
    by_contra lost
    simp only [KeepsCount, not_or, not_forall] at lost
    obtain ⟨some, table, found, less⟩ := lost
    obtain ⟨n, count, table', found', mapped, packed⟩ := steady.holds requestId (by simp [found])
    cases found.symm.trans found'
    rw [totalTokens_of_packed packed] at less
    have nonempty : table.physicalBlocks ≠ [] := fun none => packed.ne_nil (by rw [none]; rfl)
    have none : (n : Int) - (numSpeculated - numAccepted : Nat) ≤ 0 := by omega
    obtain ⟨_, table', found', _, one⟩ :=
      trim_keeps_one steady.owned steady.positive found mapped nonempty none
    simp only [Counted.exec, PagedAttentionManager.acceptSpeculativeTokens, if_neg some, found,
      totalTokens_of_packed packed] at formed
    have wrong := (formed requestId table' found').2.2
    simp only [Function.update_self] at wrong
    rw [totalTokens_of_packed one] at wrong
    omega
  | createSequence requestId reading => trivial
  | appendTokens requestId numTokens readings => trivial
  | freeSequence requestId => trivial

/-- Blocks of sixteen tokens: after a prompt of 30 tokens, four drafts open a third block, and
rejecting three of them leaves 31 tokens in two blocks. -/
theorem blocks_packed_rollback :
    ∃ s : Counted String Nat Nat, s.mgr.blocks "a" = [3, 2] ∧ s.appended "a" = 34 ∧
      s.rejected "a" = 3 ∧ s.WellFormed := by
  obtain ⟨start, created⟩ : ∃ start : PagedAttentionManager String Nat Nat,
      create { twoBlocks with swapToCpu := false } 4 1 0 = .ok start := ⟨_, rfl⟩
  have fresh : (machine String Nat Nat).init
      { mgr := start, appended := fun _ => 0, rejected := fun _ => 0 } :=
    ⟨_, 4, 1, 0, rfl, created, rfl, rfl⟩
  have reached : (machine String Nat Nat).Reaches KeepsCount _ := .of_follows (.init fresh)
    [.createSequence "a" ⟨1, true⟩, .appendTokens "a" 30 fun i => ⟨2 + i, true⟩,
      .appendTokens "a" 4 fun i => ⟨4 + i, true⟩, .acceptSpeculativeTokens "a" 1 4]
    (by
      cases created
      refine ⟨trivial, trivial, trivial, trivial, trivial, trivial, trivial, .inr ?_, trivial⟩
      intro table found
      cases found
      decide)
  cases created
  exact ⟨_, by decide, by decide, by decide, (blocks_packed reached).1⟩

/-- All tokens of a sequence are drafts and all are rejected: one of them stays. -/
theorem rejected_token_stays :
    ¬ ∀ s : Counted String Nat Nat, (machine String Nat Nat).Reachable s → s.WellFormed := by
  intro all
  obtain ⟨start, created⟩ : ∃ start : PagedAttentionManager String Nat Nat,
      create { twoBlocks with swapToCpu := false } 4 1 0 = .ok start := ⟨_, rfl⟩
  have fresh : (machine String Nat Nat).init
      { mgr := start, appended := fun _ => 0, rejected := fun _ => 0 } :=
    ⟨_, 4, 1, 0, rfl, created, rfl, rfl⟩
  have reached : (machine String Nat Nat).Reachable _ := .of_follows (.init fresh)
    [.createSequence "a" ⟨1, true⟩, .appendTokens "a" 3 fun i => ⟨2 + i, true⟩,
      .acceptSpeculativeTokens "a" 0 3]
    ⟨trivial, trivial, trivial, trivial, trivial, trivial, trivial⟩
  cases created
  exact absurd (all _ reached "a" _ rfl).2.2 (by decide)

end Counted

end DistLLM.Pool
