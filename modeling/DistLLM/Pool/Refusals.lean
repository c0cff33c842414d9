import DistLLM.Pool.Isolation

/-!
# What a refusal leaves behind

A swap that is refused has already popped its victim from the heap, and an append that runs out of
blocks keeps the blocks of the rounds before. Both are undone by nobody. The theorems say when
nothing is left to undo.
-/
namespace DistLLM.Pool

open DistLLM.Library

/-! ### Swaps refused -/

namespace BlockPool

variable {τ δ : Type} [LinearOrder τ] {pool pool' : BlockPool τ δ}

/-- The entry makes its block a candidate for being swapped out. Stale entries do not count. -/
def Candidate (pool : BlockPool τ δ) (entry : τ × Nat) : Prop :=
  entry ∈ pool.lruHeap ∧ pool.isLive entry = true

def NextOut (pool : BlockPool τ δ) (entry : τ × Nat) : Prop :=
  pool.Candidate entry ∧ ∀ other, pool.Candidate other → toLex entry ≤ toLex other

/-- The order of the candidates, the free list, the blocks in use and the swap space are the
same. -/
structure SameState (pool pool' : BlockPool τ δ) : Prop where
  candidates : ∀ entry, pool'.Candidate entry ↔ pool.Candidate entry
  freeBlocks : pool'.freeBlocks = pool.freeBlocks
  blockUsage : pool'.blockUsage = pool.blockUsage
  swapSpace : pool'.swapSpace = pool.swapSpace

theorem candidate_withHeap {rest : Array (τ × Nat)} {entry : τ × Nat} :
    ({ pool with lruHeap := rest } : BlockPool τ δ).Candidate entry ↔
      entry ∈ rest ∧ pool.isLive entry = true := Iff.rfl

/-- A refused swap changes nothing exactly if the entry popped was in the heap a second time, or
if there was none. -/
theorem swapLruBlock_refused (ordered : Heap.Ordered toLex pool.lruHeap)
    (refused : pool.swapLruBlock.1 = none) : pool.SameState pool.swapLruBlock.2 ↔
      ∀ entry, pool.NextOut entry → 2 ≤ pool.lruHeap.toList.count entry := by
  simp only [swapLruBlock] at refused ⊢
  cases popped : Heap.popValid toLex pool.isLive pool.lruHeap with
  | mk found rest =>
    rw [popped] at refused
    cases found with
    | none =>
      -- there is no candidate before, nor after
      obtain ⟨rfl, stale⟩ := Heap.popValid_none ordered popped
      have no : ∀ entry, ¬ pool.Candidate entry := fun entry here => by
        simpa [stale entry here.1] using here.2
      refine iff_of_true ⟨fun entry => ?_, rfl, rfl, rfl⟩ fun entry next => absurd next.1 (no entry)
      rw [candidate_withHeap]
      exact iff_of_false (by simp) (no entry)
    | some first =>
      obtain ⟨member, live, _, fewer, least⟩ := Heap.popValid_some ordered popped
      have full : pool.hasRoom = false := by
        cases room : pool.hasRoom with
        | false => rfl
        | true => simp [room] at refused
      simp only [full, Bool.false_eq_true, if_false]
      have again : first ∈ rest ↔ 2 ≤ pool.lruHeap.toList.count first := by
        rw [Heap.popValid_count ordered popped, ← Array.mem_toList_iff, ← List.count_pos_iff]
        omega
      have next : pool.NextOut first :=
        ⟨⟨member, live⟩, fun other candidate => (least other candidate.1 candidate.2).1⟩
      constructor
      · intro same entry next'
        obtain rfl : entry = first :=
          toLex.injective (le_antisymm (next'.2 first next.1) (next.2 entry next'.1))
        exact again.mp ((same.candidates entry).mpr next.1).1
      · intro twice
        refine ⟨fun entry => ⟨fun here => ⟨fewer entry here.1, here.2⟩, fun here => ?_⟩,
          rfl, rfl, rfl⟩
        obtain rfl | later := (least entry here.1 here.2).2
        · exact ⟨again.mpr (twice entry next), live⟩
        · exact ⟨later, here.2⟩

/-- Block 0 is freed and allocated again in no time, so its entry is there twice, and a swap that a
full swap space refuses leaves one. -/
theorem swapLruBlock_refused_twice :
    ∃ pool : BlockPool Nat Nat, (machine Nat Nat).Reachable pool ∧ pool.Candidate (2, 0) ∧
      pool.swapLruBlock.1 = none ∧ pool.SameState pool.swapLruBlock.2 := by
  obtain ⟨start, created⟩ : ∃ start : BlockPool Nat Nat,
      BlockPool.create { twoBlocks with maxSwapBlocks := 1 } 2 = .ok start := ⟨_, rfl⟩
  have fresh : (machine Nat Nat).init start := ⟨_, 2, created⟩
  have reached : (machine Nat Nat).Reachable _ := .of_follows (.init fresh)
    [.allocateBlock ⟨1, false⟩, .allocateBlock ⟨2, false⟩, .freeBlock 0, .allocateBlock ⟨2, false⟩]
    ⟨trivial, trivial, trivial, trivial, trivial, trivial, trivial, trivial, trivial⟩
  have ordered := (sound_of_reachable reached).ordered
  cases created
  refine ⟨_, reached, ⟨Array.mem_toList_iff.mp (by decide), by decide⟩, by decide,
    (swapLruBlock_refused ordered (by decide)).mpr fun entry next => ?_⟩
  have entries : entry ∈ [(2, 0), (2, 0)] := Array.mem_toList_iff.mpr next.1.1
  obtain rfl : entry = (2, 0) := by simpa using entries
  decide

/-- The second allocation swaps out block 1, which fills the swap space. The swap refused after it
loses the entry of block 0. -/
theorem candidate_lost : ¬ ∀ pool : BlockPool Nat Nat, (machine Nat Nat).Reachable pool →
      pool.swapLruBlock.1 = none → pool.SameState pool.swapLruBlock.2 := by
  intro all
  obtain ⟨start, created⟩ : ∃ start : BlockPool Nat Nat,
      BlockPool.create { twoBlocks with maxSwapBlocks := 1 } 2 = .ok start := ⟨_, rfl⟩
  have fresh : (machine Nat Nat).init start := ⟨_, 2, created⟩
  have reached : (machine Nat Nat).Reachable _ := .of_follows (.init fresh)
    [.allocateBlock ⟨1, false⟩, .allocateBlock ⟨2, false⟩]
    ⟨trivial, trivial, trivial, trivial, trivial⟩
  cases created
  have same := (all _ reached (by decide)).candidates (2, 0)
  have left := same.mpr ⟨Array.mem_toList_iff.mp (by decide), by decide⟩
  exact absurd (Array.mem_toList_iff.mpr left.1) (by decide)

/-- No block is free, the pool cannot grow, and it has no block to swap out, or no room for it. -/
def Exhausted (pool : BlockPool τ δ) (memory : Bool) : Prop :=
  pool.freeBlocks = [] ∧ (pool.config.autoExpand && memory) = false ∧
    (pool.config.swapToCpu = true → pool.hasRoom = true → ∀ b, ¬ pool.LeastRecent b)

theorem swapLruBlock_eq_none (ordered : Heap.Ordered toLex pool.lruHeap) :
    pool.swapLruBlock.1 = none ↔ (pool.hasRoom = true → ∀ b, ¬ pool.LeastRecent b) := by
  simp only [Option.eq_none_iff_forall_ne_some, ne_eq, swapLruBlock_victim ordered, not_and]
  exact forall_comm

theorem allocateBlock_eq_none [Inhabited δ] (ordered : Heap.Ordered toLex pool.lruHeap)
    (reading : Reading τ) :
    (pool.allocateBlock reading).1 = none ↔ pool.Exhausted reading.memory := by
  rw [Exhausted, ← swapLruBlock_eq_none ordered]
  simp only [allocateBlock]
  obtain ⟨some, made⟩ | ⟨_, grown, made⟩ | ⟨empty, still, on, made⟩ | ⟨empty, still, off, made⟩ :=
    pool.makeRoom_cases reading.memory <;> rw [made]
  · simp [List.getLast?_eq_some_getLast some, some]
  · obtain ⟨auto, memory⟩ := Bool.and_eq_true_iff.mp grown
    cases last : (pool.expandPool reading.memory).2.freeBlocks.getLast? with
    | none => simp [BlockPool.expandPool, auto, memory] at last
    | some b => simp [last, grown]
  · obtain ⟨rest, same | ⟨b, same⟩⟩ := pool.swapLruBlock_cases
    · simp [same, empty, still]
    · simp [same, on, BlockPool.swapOut]
  · simp [empty, still, off]

end BlockPool

/-! ### Appends that run out of blocks -/

namespace PagedAttentionManager

variable {ρ τ α : Type} [LinearOrder τ] {mgr mgr' : PagedAttentionManager ρ τ α}
  {requestId : ρ}

/-- The table of the sequence, the tokens in its blocks and the free list are as before. -/
def AsBefore (requestId : ρ) (mgr mgr' : PagedAttentionManager ρ τ α) : Prop :=
  mgr'.tables requestId = mgr.tables requestId ∧
    (∀ b ∈ mgr.blocks requestId, mgr'.tokensIn b = mgr.tokensIn b) ∧
      mgr'.pool.freeBlocks = mgr.pool.freeBlocks

/-- The sequence has no block, or its last one is not in use, or it is full. -/
def TakesNone (requestId : ρ) (mgr : PagedAttentionManager ρ τ α) : Prop :=
  ∀ b block, (mgr.blocks requestId).getLast? = some b → mgr.pool.blockUsage b = some block →
    mgr.blockSize ≤ block.numTokens

variable [DecidableEq ρ] [Inhabited α] {readings : Nat → Reading τ} {raised : Raised ρ}

omit [LinearOrder τ] [Inhabited α] in
theorem tables_setTable (table : BlockTable) :
    (mgr.setTable requestId table).tables requestId = some table :=
  Function.update_self ..

theorem openBlocks_round (fuel : Nat) (table : BlockTable) {remaining : Nat}
    (some : remaining ≠ 0) : (∃ pool, mgr.pool.allocateBlock (readings 0) = (none, pool) ∧
      (openBlocks requestId (fuel + 1) readings table remaining mgr).2 = { mgr with pool }) ∨
    (mgr.pool.allocateBlock (readings 0)).1 ≠ none ∧
      ∃ b mid, mid.tables requestId = Option.some (table.appendBlock b) ∧
        ((openBlocks requestId (fuel + 1) readings table remaining mgr).2 = mid ∨
          ∃ rest, (openBlocks requestId (fuel + 1) readings table remaining mgr).2 =
            (openBlocks requestId fuel (fun i => readings (i + 1)) (table.appendBlock b) rest
              mid).2) := by
  rw [openBlocks, if_neg some]
  simp only [openBlock]
  cases mgr.pool.allocateBlock (readings 0) with
  | mk found pool =>
    cases found with
    | none => exact .inl ⟨pool, rfl, rfl⟩
    | some b =>
      refine .inr ⟨by simp, b, ?_⟩
      dsimp only
      cases pool.blockUsage b with
      | none => exact ⟨_, tables_setTable _, .inl rfl⟩
      | some block =>
        have opened : ∃ mid, mid = ({ mgr with pool } : PagedAttentionManager ρ τ α).setTable
            requestId (table.appendBlock b) := ⟨_, rfl⟩
        obtain ⟨mid, same⟩ := opened
        refine ⟨mid.setTokens b (min mid.blockSize remaining), same ▸ tables_setTable _,
          .inr ⟨remaining - min mgr.blockSize remaining, ?_⟩⟩
        subst same
        dsimp only
        split <;> next same => exact (congrArg Prod.snd same).symm

theorem appendBlock_longer (table : BlockTable) (b : Nat) :
    table.physicalBlocks.length < (table.appendBlock b).physicalBlocks.length := by
  simp [BlockTable.appendBlock]

theorem openBlocks_longer {fuel remaining : Nat} {table : BlockTable}
    (found : mgr.tables requestId = some table) :
    ∃ table', (openBlocks requestId fuel readings table remaining mgr).2.tables requestId =
        some table' ∧ table.physicalBlocks.length ≤ table'.physicalBlocks.length := by
  induction fuel generalizing mgr table readings remaining with
  | zero => exact ⟨table, found, le_rfl⟩
  | succ fuel ih =>
    by_cases none : remaining = 0
    · rw [openBlocks, if_pos none]
      exact ⟨table, found, le_rfl⟩
    obtain ⟨pool, _, same⟩ | ⟨_, b, mid, grown, same | ⟨rest, same⟩⟩ :=
      mgr.openBlocks_round fuel table none <;> rw [same]
    · exact ⟨table, found, le_rfl⟩
    · exact ⟨_, grown, (appendBlock_longer table b).le⟩
    · obtain ⟨table', found', longer⟩ := ih grown
      exact ⟨table', found', (appendBlock_longer table b).le.trans longer⟩

theorem openBlocks_failed {fuel remaining : Nat} {table : BlockTable}
    (failed : openBlocks requestId fuel readings table remaining mgr = (.error raised, mgr')) :
    (mgr.pool.allocateBlock (readings 0)).1 = none ∧
        (∃ rest, mgr' = { mgr with pool := { mgr.pool with lruHeap := rest } }) ∨
      (mgr.pool.allocateBlock (readings 0)).1 ≠ none ∧ ∃ table', mgr'.tables requestId =
        some table' ∧ table.physicalBlocks.length < table'.physicalBlocks.length := by
  have after : (openBlocks requestId fuel readings table remaining mgr).2 = mgr' := by rw [failed]
  cases fuel with
  | zero => cases failed
  | succ fuel =>
    have some : remaining ≠ 0 := by
      rintro none
      rw [openBlocks, if_pos none] at failed
      cases failed
    obtain ⟨pool, none, same⟩ | ⟨taken, b, mid, grown, same | ⟨rest, same⟩⟩ :=
      mgr.openBlocks_round fuel table some <;> rw [same] at after
    · obtain ⟨rest, rfl⟩ := BlockPool.allocateBlock_none none
      exact .inl ⟨by rw [none], rest, after.symm⟩
    · exact .inr ⟨taken, _, by rw [← after, grown], appendBlock_longer table b⟩
    · obtain ⟨table', found', longer⟩ := openBlocks_longer grown
      exact .inr ⟨taken, table', by rw [← after, found'],
        (appendBlock_longer table b).trans_le longer⟩

/-- **An append that runs out of blocks** leaves the sequence and the free list as they were if and
only if the last block takes no token and the first allocation already fails. -/
theorem appendTokens_asBefore (ordered : Heap.Ordered toLex mgr.pool.lruHeap) (requestId : ρ)
    (numTokens : Nat) (readings : Nat → Reading τ) {left : Nat}
    (failed : mgr.appendTokens requestId numTokens readings = (.error (.exhausted left), mgr')) :
    AsBefore requestId mgr mgr' ↔
      mgr.TakesNone requestId ∧ mgr.pool.Exhausted (readings 0).memory := by
  rw [← BlockPool.allocateBlock_eq_none ordered (readings 0)]
  simp only [appendTokens] at failed
  split at failed
  next => cases failed
  next table found =>
    have grown : (∃ table', mgr'.tables requestId = some table' ∧
        table.physicalBlocks.length < table'.physicalBlocks.length) →
          ¬ AsBefore requestId mgr mgr' := by
      rintro ⟨table', found', longer⟩ ⟨same, _⟩
      rw [found', found] at same
      cases same
      exact lt_irrefl _ longer
    rw [TakesNone, blocks_of_table found]
    obtain ⟨same, full⟩ | ⟨b, block, last, used, space, same⟩ := mgr.fillLast_cases table numTokens
    · rw [same] at failed
      dsimp only at failed
      split at failed <;> cases failed
      next stopped =>
        obtain ⟨none, rest, rfl⟩ | ⟨some, longer⟩ := openBlocks_failed stopped
        · exact iff_of_true ⟨rfl, fun _ _ => rfl, rfl⟩ ⟨full, none⟩
        · exact iff_of_false (grown longer) fun both => some both.2
    · refine iff_of_false (fun before => ?_) fun both =>
        absurd (both.1 b block last used) (by omega)
      rw [same] at failed
      split at failed <;> cases failed
      next stopped =>
        obtain ⟨none, rest, rfl⟩ | ⟨some, longer⟩ := openBlocks_failed stopped
        · -- what the last block took stays in it
          have kept := before.2.1 b (by
            rw [blocks_of_table found]
            exact List.mem_of_getLast? last)
          have taken := tokensIn_setTokens used
            (block.numTokens + min (mgr.blockSize - block.numTokens) numTokens) b
          rw [if_pos rfl] at taken
          rw [tokensIn_of_usage used] at kept
          have all : min (mgr.blockSize - block.numTokens) numTokens = 0 := by
            have := taken.symm.trans kept
            omega
          obtain rfl : numTokens = 0 := by omega
          cases stopped
        · exact grown longer before

/-- One block of two tokens, both filled by the first append. -/
theorem appendTokens_asBefore_full :
    ∃ mgr mgr' : PagedAttentionManager String Nat Nat, mgr.blocks "a" = [0] ∧
      mgr.appendTokens "a" 1 (fun _ => ⟨3, false⟩) = (.error (.exhausted 1), mgr') ∧
        AsBefore "a" mgr mgr' := by
  obtain ⟨start, created⟩ : ∃ start : PagedAttentionManager String Nat Nat,
      create { twoBlocks with blockSize := 2, swapToCpu := false } 1 1 0 = .ok start := ⟨_, rfl⟩
  have fresh : (Manager.machine String Nat Nat).init start := ⟨_, 1, 1, 0, created⟩
  have reached : (Manager.machine String Nat Nat).Reaches Manager.KeepsListed _ :=
    .of_follows (.init fresh)
      [.createSequence "a" ⟨1, false⟩, .appendTokens "a" 2 fun _ => ⟨2, false⟩]
      (by
        cases created
        exact ⟨trivial, BlockPool.spares_of_off rfl _ _, trivial, appendSpares_of_off rfl _ _,
          trivial⟩)
  have ordered := (Manager.owned_of_reaches reached).sound.ordered
  cases created
  refine ⟨_, _, ?_, ?_, (appendTokens_asBefore ordered "a" 1 (fun _ => ⟨3, false⟩) rfl).mpr
    ⟨fun b block last used => ?_, ?_, ?_, fun on => absurd on (by decide)⟩⟩
  · decide
  · rfl
  · obtain rfl : 0 = b := Option.some.inj last
    cases used
    decide
  · rfl
  · rfl

/-- One block of two tokens: three tokens do not fit, but two of them stay. -/
theorem tokens_left_behind :
    ¬ ∀ mgr : PagedAttentionManager String Nat Nat, (Manager.machine String Nat Nat).Reachable mgr →
      ∀ requestId numTokens readings left mgr',
        mgr.appendTokens requestId numTokens readings = (.error (.exhausted left), mgr') →
          AsBefore requestId mgr mgr' := by
  intro all
  obtain ⟨start, created⟩ : ∃ start : PagedAttentionManager String Nat Nat,
      create { twoBlocks with blockSize := 2, swapToCpu := false } 1 1 0 = .ok start := ⟨_, rfl⟩
  have fresh : (Manager.machine String Nat Nat).init start := ⟨_, 1, 1, 0, created⟩
  have reached : (Manager.machine String Nat Nat).Reachable _ := .of_follows (.init fresh)
    [.createSequence "a" ⟨1, false⟩] ⟨trivial, trivial, trivial⟩
  cases created
  have before := all _ reached "a" 3 (fun _ => ⟨2, false⟩) 1 _ rfl
  exact absurd (before.2.1 0 (by decide)) (by decide)

end PagedAttentionManager

end DistLLM.Pool
