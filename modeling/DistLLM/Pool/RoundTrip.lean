import DistLLM.Pool.LayerKV

/-!
# Round trips of layers

Runs of a manager beside the chunks that have been appended to each sequence. What the chunks of a
layer are after a run is read back by gathering, exactly if the chunks fit into the layout: one
layer with chunks that begin with a block, or a single chunk with room in one block for all layers.
-/
namespace DistLLM.Pool

open DistLLM.Library

variable {ρ τ α : Type} {readings : Nat → Reading τ} {numBlocks maxSeqLen : Int}
  {reading : Reading τ}

namespace BlockPool

variable {δ : Type} [LinearOrder τ] [Inhabited δ] {pool : BlockPool τ δ}

theorem allocateBlock_ok (auto : pool.config.autoExpand = true) (memory : reading.memory = true) :
    ∃ b pool', pool.allocateBlock reading = (some b, pool') := by
  simp only [allocateBlock]
  obtain ⟨some_free, made⟩ | ⟨_, _, made⟩ | ⟨_, stuck, _⟩ | ⟨_, stuck, _⟩ :=
    pool.makeRoom_cases reading.memory
  · rw [made]
    simp [List.getLast?_eq_some_getLast some_free]
  · have some_free : (pool.expandPool reading.memory).2.freeBlocks ≠ [] := by
      simp [BlockPool.expandPool, auto, memory]
    rw [made]
    simp [List.getLast?_eq_some_getLast some_free]
  · simp [auto, memory] at stuck
  · simp [auto, memory] at stuck

end BlockPool

variable {config : Config}

namespace PagedAttentionManager

variable {mgr : PagedAttentionManager ρ τ α} {requestId : ρ}

/-! ### Calls that do not raise -/

/-- Without swapping but with memory, the pool always has a block. -/
structure Roomy (mgr : PagedAttentionManager ρ τ α) : Prop where
  off : mgr.pool.config.swapToCpu = false
  auto : mgr.pool.config.autoExpand = true

section Succeeding

variable [Inhabited α]

theorem create_starts {numLayers : Nat}
    (created : create config numBlocks numLayers maxSeqLen = .ok mgr) :
    (∀ b, mgr.pool.swapSpace.get? b = none) ∧ mgr.Blank ∧ mgr.pool.config.autoExpand = true ∧
      mgr.numLayers = numLayers ∧ (config.blockSize ≠ 0 → mgr.blockSize = config.blockSize) := by
  simp only [create, Except.map] at created
  split at created
  · cases created
  next pool made =>
    cases created
    obtain ⟨same, _, unswapped, zeros⟩ := BlockPool.create_fresh made
    exact ⟨unswapped, fun b _ => by rw [zeros], by rw [same], rfl, fun some => by simp [some]⟩

variable [DecidableEq ρ] [LinearOrder τ] (owned : mgr.Owned) (roomy : mgr.Roomy)

include owned roomy

theorem openBlock_ok (requestId : ρ) (table : BlockTable) (remaining : Nat)
    (memory : reading.memory = true) :
    ∃ b, (mgr.openBlock requestId table remaining reading).1 = .ok (b, table.appendBlock b) := by
  obtain ⟨b, pool', allocated⟩ := BlockPool.allocateBlock_ok roomy.auto memory
  obtain ⟨new, _⟩ := BlockPool.allocateBlock_still owned.sound
    (BlockPool.spares_of_off roomy.off reading _) allocated
  exact ⟨b, by simp [openBlock, allocated, new]⟩

theorem openBlocks_ok {table : BlockTable} (found : mgr.tables requestId = some table)
    (memory : ∀ i, (readings i).memory = true) (fuel remaining : Nat) : ∃ allocations,
      (openBlocks requestId fuel readings table remaining mgr).1 = .ok allocations := by
  induction fuel generalizing mgr table remaining readings with
  | zero => exact ⟨[], rfl⟩
  | succ fuel ih =>
    simp only [openBlocks]
    by_cases done : remaining = 0
    · exact ⟨[], by rw [if_pos done]⟩
    rw [if_neg done]
    obtain ⟨b, result⟩ := openBlock_ok owned roomy requestId table remaining (memory 0)
    obtain ⟨after, kept⟩ := owned.openBlock remaining found
      (BlockPool.spares_of_off roomy.off (readings 0) _)
    have config := mgr.config_openBlock requestId table remaining (readings 0)
    cases opened : mgr.openBlock requestId table remaining (readings 0) with
    | mk outcome mid =>
      rw [opened] at after kept config result
      cases result
      have roomy' : mid.Roomy := ⟨by rw [config, roomy.off], by rw [config, roomy.auto]⟩
      -- the state after a round has room for the next one
      obtain ⟨allocations, later⟩ := ih after roomy' (kept _ _ rfl) (fun i => memory (i + 1))
        (remaining - min mid.blockSize remaining)
      dsimp only
      split
      next _ _ same => simp [same] at later
      next => exact ⟨_, rfl⟩

theorem appendTokens_ok (live : mgr.tables requestId ≠ none) (numTokens : Nat)
    (memory : ∀ i, (readings i).memory = true) :
    ∃ allocations, (mgr.appendTokens requestId numTokens readings).1 = .ok allocations := by
  obtain ⟨table, found⟩ := Option.ne_none_iff_exists'.mp live
  have filled : (mgr.fillLast table numTokens).2.2.Roomy ∧
      (mgr.fillLast table numTokens).2.2.tables = mgr.tables := by
    obtain ⟨same, _⟩ | ⟨_, _, _, _, _, same⟩ := mgr.fillLast_cases table numTokens <;> rw [same]
    · exact ⟨roomy, rfl⟩
    · exact ⟨⟨roomy.off, roomy.auto⟩, rfl⟩
  obtain ⟨allocations, opened⟩ := openBlocks_ok (owned.fillLast table numTokens) filled.1
    (by rw [filled.2, found]) memory numTokens (mgr.fillLast table numTokens).2.1
  simp only [appendTokens, found]
  split
  next _ _ same => simp [same] at opened
  next => exact ⟨_, rfl⟩

theorem appendLayerKv_ok (live : mgr.tables requestId ≠ none) {layer : Nat}
    (known : layer < mgr.numLayers) (chunk : List α) (memory : ∀ i, (readings i).memory = true) :
    ∃ result, (mgr.appendLayerKv requestId layer chunk readings).1 = .ok result := by
  obtain ⟨allocations, appended⟩ := appendTokens_ok owned roomy live chunk.length memory
  have still : mgr.AppendStill requestId chunk.length readings :=
    appendStill_of_off roomy.off chunk.length readings
  have layers := (appendTokens_grows owned still).2
  simp only [appendLayerKv]
  split
  next _ _ same => simp [same] at appended
  next _ mid same =>
    rw [same] at layers
    have inside : mid.numLayers = mgr.numLayers := layers
    rw [if_neg (by omega)]
    exact ⟨_, rfl⟩

end Succeeding

end PagedAttentionManager

/-- The manager, and the calls of `append_layer_kv` that have filled a sequence, unless other calls
have changed its tokens. -/
structure Shelved (ρ τ α : Type) where
  mgr : PagedAttentionManager ρ τ α
  written : ρ → Option (List (Nat × List α))

namespace Shelved

open PagedAttentionManager

section Runs

variable [DecidableEq ρ] [LinearOrder τ] [Inhabited α]

def exec (s : Shelved ρ τ α) (act : Manager.Action ρ τ α) : Shelved ρ τ α where
  mgr := Manager.exec s.mgr act
  written :=
    match act with
    | .createSequence requestId reading =>
      match (s.mgr.createSequence requestId reading).1 with
      | .ok _ => Function.update s.written requestId (some [])
      | .error _ => s.written
    | .appendTokens requestId _ _ => Function.update s.written requestId none
    | .appendLayerKv requestId layer chunk readings =>
      Function.update s.written requestId
        (match (s.mgr.appendLayerKv requestId layer chunk readings).1 with
          | .ok _ => (s.written requestId).map (· ++ [(layer, chunk)])
          | .error _ => none)
    | .acceptSpeculativeTokens requestId numAccepted numSpeculated =>
      if numSpeculated ≤ numAccepted then s.written
      else Function.update s.written requestId none
    | .freeSequence requestId => Function.update s.written requestId none
    | .gather _ _ _ _ => s.written
    | .swapOutSequence _ => s.written

def machine (ρ τ α : Type) [DecidableEq ρ] [LinearOrder τ] [Inhabited α] :
    Machine (Shelved ρ τ α) (Manager.Action ρ τ α) where
  init s := (Manager.machine ρ τ α).init s.mgr ∧ s.written = fun _ => none
  enabled _ _ := True
  exec := exec

def SwapsNothing (s : Shelved ρ τ α) : Manager.Action ρ τ α → Prop
  | .createSequence _ reading => s.mgr.pool.Spares reading fun _ => True
  | .appendTokens requestId numTokens readings => s.mgr.AppendStill requestId numTokens readings
  | .appendLayerKv requestId _ chunk readings =>
    s.mgr.AppendStill requestId chunk.length readings
  | .swapOutSequence requestId => s.mgr.blocks requestId = [] ∨ s.mgr.pool.hasRoom = false
  | _ => True

structure Steady (s : Shelved ρ τ α) : Prop where
  owned : s.mgr.Owned
  positive : 0 < s.mgr.blockSize
  unswapped : ∀ b, s.mgr.pool.swapSpace.get? b = none
  held : ∀ r, s.mgr.tables r ≠ none → ∃ n, s.mgr.Holds r n
  stored : ∀ r history, s.written r = some history →
    s.mgr.Stores False r (shelve s.mgr.blockSize history)

variable {s : Shelved ρ τ α}

omit [DecidableEq ρ] in
theorem Steady.of_kept (steady : s.Steady) {s' : Shelved ρ τ α} {requestId : ρ}
    (kept : Kept requestId s.mgr s'.mgr) (others : ∀ r, r ≠ requestId → s'.written r = s.written r)
    (here : s'.mgr.tables requestId ≠ none → ∃ n, s'.mgr.Holds requestId n)
    (stored : ∀ history, s'.written requestId = some history →
      s'.mgr.Stores False requestId (shelve s'.mgr.blockSize history)) : s'.Steady where
  owned := kept.owned
  positive := by rw [kept.blockSize]; exact steady.positive
  unswapped := by rw [kept.swapSpace]; exact steady.unswapped
  held r live := by
    by_cases same : r = requestId
    · subst same
      exact here live
    · rw [kept.tables r same] at live
      obtain ⟨n, held⟩ := steady.held r live
      exact ⟨n, kept.toFrame.holds same held⟩
  stored r history written := by
    by_cases same : r = requestId
    · subst same
      exact stored history written
    · rw [others r same] at written
      rw [kept.blockSize]
      exact (steady.stored r history written).kept kept same

section

variable (steady : s.Steady) (requestId : ρ)

include steady requestId

theorem Steady.createSequence {reading : Reading τ}
    (still : s.mgr.pool.Spares reading fun _ => True) :
    (exec s (.createSequence requestId reading)).Steady := by
  cases created : s.mgr.createSequence requestId reading with
  | mk result mgr' =>
    cases result with
    | ok table =>
      have kept := createSequence_kept steady.owned requestId still
      have stores : mgr'.Stores False requestId {} :=
        (createSequence_stores steady.owned still False.elim created).1
      rw [created] at kept
      have same : exec s (.createSequence requestId reading) =
          ⟨mgr', Function.update s.written requestId (some [])⟩ := by
        simp [Shelved.exec, Manager.exec, created]
      rw [same]
      apply steady.of_kept kept
      · exact fun r other => by simp [other]
      · exact fun _ => ⟨_, stores.held⟩
      · intro history written
        obtain rfl : [] = history := by simpa using written
        exact stores
    | error raised =>
      -- only entries of the heap are lost
      have same : exec s (.createSequence requestId reading) = ⟨mgr', s.written⟩ := by
        simp [Shelved.exec, Manager.exec, created]
      rw [same]
      simp only [PagedAttentionManager.createSequence] at created
      split at created
      next pool' failed =>
        cases created
        have owned := steady.owned.withHeap failed
        obtain ⟨rest, rfl⟩ := BlockPool.allocateBlock_none failed
        refine ⟨owned, steady.positive, steady.unswapped, steady.held, fun r history written => ?_⟩
        obtain ⟨held, bounded, shown⟩ := steady.stored r history written
        exact ⟨held, bounded, shown⟩
      · cases created

theorem Steady.appendTokens {numTokens : Nat} {readings : Nat → Reading τ}
    (still : s.mgr.AppendStill requestId numTokens readings) :
    (exec s (.appendTokens requestId numTokens readings)).Steady := by
  by_cases absent : s.mgr.tables requestId = none
  · have same : (s.mgr.appendTokens requestId numTokens readings).2 = s.mgr := by
      simp [PagedAttentionManager.appendTokens, absent]
    have kept : Kept requestId s.mgr (s.mgr.appendTokens requestId numTokens readings).2 := by
      rw [same]
      exact .refl steady.owned
    apply steady.of_kept kept
    · exact fun r other => by simp [Shelved.exec, other]
    · intro live
      simp [Shelved.exec, Manager.exec, same, absent] at live
    · simp [Shelved.exec]
  · obtain ⟨n, held⟩ := steady.held requestId absent
    obtain ⟨kept, held'⟩ := appendTokens_kept steady.owned steady.positive held still
    apply steady.of_kept kept
    · exact fun r other => by simp [Shelved.exec, other]
    · exact fun _ => ⟨_, held'⟩
    · simp [Shelved.exec]

theorem Steady.appendLayerKv (layer : Nat) {chunk : List α} {readings : Nat → Reading τ}
    (still : s.mgr.AppendStill requestId chunk.length readings) :
    (exec s (.appendLayerKv requestId layer chunk readings)).Steady := by
  by_cases absent : s.mgr.tables requestId = none
  · have same : s.mgr.appendLayerKv requestId layer chunk readings =
        (.error (.notFound requestId), s.mgr) := by
      simp [PagedAttentionManager.appendLayerKv, PagedAttentionManager.appendTokens, absent]
    have kept : Kept requestId s.mgr (s.mgr.appendLayerKv requestId layer chunk readings).2 := by
      rw [same]
      exact .refl steady.owned
    apply steady.of_kept kept
    · exact fun r other => by simp [Shelved.exec, other]
    · intro live
      simp [Shelved.exec, Manager.exec, same, absent] at live
    · simp [Shelved.exec, same]
  · obtain ⟨n, held⟩ := steady.held requestId absent
    obtain ⟨kept, held'⟩ := appendLayerKv_kept steady.owned steady.positive held still
    apply steady.of_kept kept
    · exact fun r other => by simp [Shelved.exec, other]
    · exact fun _ => held'
    · intro history written
      cases appended : s.mgr.appendLayerKv requestId layer chunk readings with
      | mk result mgr' =>
        simp only [Shelved.exec, Function.update_self, appended] at written
        cases result with
        | error raised => cases written
        | ok placed =>
          obtain ⟨before, known, rfl⟩ := Option.map_eq_some_iff.mp written
          have stores := (appendLayerKv_stores steady.owned steady.positive
            (steady.stored requestId before known) False.elim still appended).1
          rw [appended] at kept
          simp only [Shelved.exec, Manager.exec, appended]
          rw [kept.blockSize, shelve_concat]
          exact stores

theorem Steady.acceptSpeculativeTokens (numAccepted numSpeculated : Nat) :
    (exec s (.acceptSpeculativeTokens requestId numAccepted numSpeculated)).Steady := by
  by_cases all : numSpeculated ≤ numAccepted
  · have same : exec s (.acceptSpeculativeTokens requestId numAccepted numSpeculated) = s := by
      simp [Shelved.exec, Manager.exec, PagedAttentionManager.acceptSpeculativeTokens, all]
    rwa [same]
  have cleared : ∀ r,
      (exec s (.acceptSpeculativeTokens requestId numAccepted numSpeculated)).written r =
        if r = requestId then none else s.written r := by
    intro r
    simp [Shelved.exec, all, Function.update_apply]
  cases found : s.mgr.tables requestId with
  | none =>
    have same : (exec s (.acceptSpeculativeTokens requestId numAccepted numSpeculated)).mgr =
        s.mgr := by
      simp [Shelved.exec, Manager.exec, PagedAttentionManager.acceptSpeculativeTokens, all, found]
    have kept : Kept requestId s.mgr
        (exec s (.acceptSpeculativeTokens requestId numAccepted numSpeculated)).mgr := by
      rw [same]
      exact .refl steady.owned
    apply steady.of_kept kept
    · exact fun r other => by rw [cleared, if_neg other]
    · rw [same]
      exact fun live => absurd found live
    · simp [cleared]
  | some table =>
    obtain ⟨n, table', found', mapped, packed⟩ := steady.held requestId (by simp [found])
    cases found.symm.trans found'
    -- the total that the code computes is the number of tokens
    have less : (s.mgr.totalTokens table : Int) - (numSpeculated - numAccepted : Nat) ≤ n := by
      rw [totalTokens_of_packed packed]
      omega
    obtain ⟨kept, held⟩ :=
      trim_holds_some steady.owned steady.positive found mapped packed less
    have same : (exec s (.acceptSpeculativeTokens requestId numAccepted numSpeculated)).mgr =
        (s.mgr.trim requestId table
          (s.mgr.totalTokens table - (numSpeculated - numAccepted : Nat))).2 := by
      simp [Shelved.exec, Manager.exec, PagedAttentionManager.acceptSpeculativeTokens, all, found]
    rw [← same] at kept
    apply steady.of_kept kept
    · exact fun r other => by rw [cleared, if_neg other]
    · rw [same]
      exact fun _ => held
    · simp [cleared]

end

theorem Steady.step (steady : s.Steady) (act : Manager.Action ρ τ α) (still : s.SwapsNothing act) :
    (exec s act).Steady := by
  cases act with
  | createSequence requestId reading => exact steady.createSequence requestId still
  | appendTokens requestId numTokens readings => exact steady.appendTokens requestId still
  | appendLayerKv requestId layer chunk readings =>
    exact steady.appendLayerKv requestId layer still
  | gather requestId layer seqLen nows =>
    have same : (s.mgr.gather requestId layer seqLen nows).2 = s.mgr := by
      simp only [PagedAttentionManager.gather]
      split
      · rfl
      · exact gatherFrom_unchanged steady.unswapped
    simp only [Shelved.exec, Manager.exec, same]
    exact steady
  | acceptSpeculativeTokens requestId numAccepted numSpeculated =>
    exact steady.acceptSpeculativeTokens requestId numAccepted numSpeculated
  | swapOutSequence requestId =>
    simp only [Shelved.exec, Manager.exec, swapOutSequence_nothing still]
    exact steady
  | freeSequence requestId =>
    apply steady.of_kept (freeSequence_kept steady.owned requestId)
    · exact fun r other => by simp [Shelved.exec, other]
    · exact fun live => absurd (freeSequence_frame steady.owned requestId).2 live
    · simp [Shelved.exec]

theorem steady_of_reaches (reached : (machine ρ τ α).Reaches SwapsNothing s) : s.Steady := by
  apply Machine.Reaches.invariant (I := fun s : Shelved ρ τ α => s.Steady) _ _ reached
  · rintro s ⟨⟨config, numBlocks, numLayers, maxSeqLen, created⟩, fresh⟩
    obtain ⟨positive, _, absent⟩ := create_spec created
    constructor
    case owned => exact create_owned created
    case positive => exact positive
    case unswapped => exact (create_starts created).1
    case held => exact fun r live => absurd (absent r) live
    case stored => simp [fresh]
  · exact fun s act steady _ still => steady.step act still

/-- The state after a run that has created one sequence and appended the history to it. -/
structure Filled (ρ : Type) [Inhabited ρ] [DecidableEq ρ] (blockSize numLayers : Nat)
    (history : List (Nat × List α)) (s : Shelved ρ τ α) : Prop where
  reached : (machine ρ τ α).Reaches SwapsNothing s
  written : s.written default = some history
  size : s.mgr.blockSize = blockSize
  layers : s.mgr.numLayers = numLayers
  roomy : s.mgr.Roomy
  zeros : s.mgr.Blank
  stores : s.mgr.Stores True default (shelve blockSize history)

variable {history : List (Nat × List α)}

section Filling

variable [Inhabited ρ] [Inhabited τ] {numLayers : Nat} {start : PagedAttentionManager ρ τ α}

theorem exists_filled_nil (created : create config numBlocks numLayers maxSeqLen = .ok start)
    (off : config.swapToCpu = false) :
    ∃ s : Shelved ρ τ α, Filled ρ start.blockSize numLayers [] s := by
  obtain ⟨_, swap, absent⟩ := create_spec created
  obtain ⟨_, blank, auto, layers, _⟩ := create_starts created
  have roomy : start.Roomy := ⟨by rw [swap, off], auto⟩
  have owned := create_owned created
  have fresh : (machine ρ τ α).Reaches SwapsNothing ⟨start, fun _ => none⟩ :=
    .init ⟨⟨config, numBlocks, numLayers, maxSeqLen, created⟩, rfl⟩
  -- memory for a block, so that the call cannot fail
  let reading : Reading τ := ⟨default, true⟩
  have still : start.pool.Spares reading fun _ => True :=
    BlockPool.spares_of_off roomy.off reading _
  obtain ⟨b, pool', allocated⟩ : ∃ b pool', start.pool.allocateBlock reading = (some b, pool') :=
    BlockPool.allocateBlock_ok roomy.auto rfl
  have kept := createSequence_kept owned (default : ρ) still
  cases made : start.createSequence (default : ρ) reading with
  | mk result mgr' =>
    rw [made] at kept
    cases result with
    | error raised => simp [PagedAttentionManager.createSequence, allocated] at made
    | ok table =>
      obtain ⟨stores, zeros⟩ := createSequence_stores owned still (fun _ : True => blank) made
      have reached : (machine ρ τ α).Reaches SwapsNothing ((machine ρ τ α).exec
          ⟨start, fun _ => none⟩ (.createSequence default reading)) :=
        .step _ fresh trivial still
      refine ⟨_, reached, ?_, ?_, ?_, ?_, ?_, ?_⟩ <;>
        simp only [machine, Shelved.exec, Manager.exec, made, Function.update_self]
      · exact kept.blockSize
      · rw [kept.numLayers, layers]
      · exact ⟨by rw [kept.config, roomy.off], by rw [kept.config, roomy.auto]⟩
      · exact zeros (absent default) trivial
      · exact stores

theorem Filled.append {blockSize : Nat} (filled : Filled ρ blockSize numLayers history s)
    {call : Nat × List α} (known : call.1 < numLayers) :
    ∃ s' : Shelved ρ τ α, Filled ρ blockSize numLayers (history ++ [call]) s' := by
  obtain ⟨reached, written, rfl, rfl, roomy, zeros, stores⟩ := filled
  have steady := steady_of_reaches reached
  let readings : Nat → Reading τ := fun _ => ⟨default, true⟩
  have still : s.mgr.AppendStill default call.2.length readings :=
    appendStill_of_off roomy.off call.2.length readings
  obtain ⟨table, found, _⟩ := stores.held
  have live : s.mgr.tables default ≠ none := by simp [found]
  obtain ⟨result, ok⟩ : ∃ result,
      (s.mgr.appendLayerKv default call.1 call.2 readings).1 = .ok result :=
    appendLayerKv_ok steady.owned roomy live known call.2 fun _ => rfl
  have kept : Kept default s.mgr (s.mgr.appendLayerKv default call.1 call.2 readings).2 :=
    (appendLayerKv_kept steady.owned steady.positive stores.held still).1
  cases appended : s.mgr.appendLayerKv default call.1 call.2 readings with
  | mk result' mgr' =>
    rw [appended] at ok kept
    cases ok
    obtain ⟨stores', zeros'⟩ := appendLayerKv_stores steady.owned steady.positive stores
      (fun _ => zeros) still appended
    have reached' : (machine ρ τ α).Reaches SwapsNothing ((machine ρ τ α).exec s
        (.appendLayerKv default call.1 call.2 readings)) := .step _ reached trivial still
    refine ⟨_, reached', ?_, ?_, ?_, ?_, ?_, ?_⟩ <;>
      simp only [machine, Shelved.exec, Manager.exec, appended, Function.update_self, written]
    · rfl
    · exact kept.blockSize
    · exact kept.numLayers
    · exact ⟨by rw [kept.config, roomy.off], by rw [kept.config, roomy.auto]⟩
    · exact zeros' trivial
    · rw [shelve_concat]
      exact stores'

theorem exists_filled (created : create config numBlocks numLayers maxSeqLen = .ok start)
    (off : config.swapToCpu = false) (history : List (Nat × List α))
    (known : ∀ call ∈ history, call.1 < numLayers) :
    ∃ s : Shelved ρ τ α, Filled ρ start.blockSize numLayers history s := by
  induction history using List.reverseRecOn with
  | nil => exact exists_filled_nil created off
  | append_singleton history call ih =>
    obtain ⟨s, filled⟩ := ih fun call member => known call (by simp [member])
    exact filled.append (known call (by simp))

end Filling

/-- Chunks of these lengths, each appended once to every layer by a run in which nothing is swapped
out, can be read back from every layer. -/
def RoundTrips (ρ τ α : Type) [DecidableEq ρ] [LinearOrder τ] [Inhabited α]
    (blockSize numLayers : Nat) (lengths : List Nat) : Prop :=
  ∀ (s : Shelved ρ τ α) requestId history chunks, (machine ρ τ α).Reaches SwapsNothing s →
    s.mgr.blockSize = blockSize → s.mgr.numLayers = numLayers →
    s.written requestId = some history → EachLayer numLayers history chunks →
    chunks.map List.length = lengths → ∀ layer < numLayers, ∀ nows,
      (s.mgr.gather requestId layer chunks.flatten.length nows).1 = .ok chunks.flatten

theorem Steady.gather (steady : s.Steady) {requestId : ρ} {chunks : List (List α)}
    (written : s.written requestId = some history) (each : EachLayer s.mgr.numLayers history chunks)
    (fits : Fits s.mgr.blockSize s.mgr.numLayers (chunks.map List.length)) {layer : Nat}
    (known : layer < s.mgr.numLayers) (nows : Nat → τ) :
    (s.mgr.gather requestId layer chunks.flatten.length nows).1 = .ok chunks.flatten := by
  have stores := steady.stored requestId history written
  have enough : chunks.flatten.length ≤ (shelve s.mgr.blockSize history).count := by
    rw [count_of_each _ each, List.length_flatten]
    exact Nat.le_mul_of_pos_left _ (by omega)
  obtain ⟨rows, read, length, shown⟩ := stores.gather (steady.owned.used requestId)
    steady.positive steady.unswapped known enough nows
  rw [read]
  apply congrArg Except.ok
  apply List.ext_getElem?
  intro i
  by_cases inside : i < chunks.flatten.length
  · obtain ⟨row, here, shows⟩ := shown i inside
    have cell := cell_of_fits steady.positive each fits known inside
    rw [cell, List.getElem?_eq_getElem inside] at shows
    rw [here, List.getElem?_eq_getElem inside, shows]
  · rw [List.getElem?_eq_none (by omega), List.getElem?_eq_none (by omega)]

/-- **Round trips of layers.** For a block size that the constructor accepts, the chunks of every
layer can be read back after every run in which nothing is swapped out, if and only if they fit. -/
theorem layers_round_trip [Inhabited ρ] [Inhabited τ] [Nontrivial α] {blockSize : Nat}
    (accepted : blockSize ≠ 0 ∧ blockSize &&& (blockSize - 1) = 0) (numLayers : Nat)
    (lengths : List Nat) :
    RoundTrips ρ τ α blockSize numLayers lengths ↔ Fits blockSize numLayers lengths := by
  constructor
  · intro trips
    by_contra misfit
    obtain ⟨value, other⟩ := exists_ne (default : α)
    obtain ⟨last, rfl, chunks, shape, i, inside, cell, row⟩ :=
      exists_lost (Nat.pos_of_ne_zero accepted.1) value default misfit
    -- a run that appends all chunks to one layer after the other
    let config : Config := ⟨blockSize, false, 0, true, fun _ _ => false, fun _ => 0⟩
    obtain ⟨start, created⟩ : ∃ start : PagedAttentionManager ρ τ α,
        create config 1 (last + 1) 0 = .ok start := by
      cases made : (create config 1 (last + 1) 0 : Except _ (PagedAttentionManager ρ τ α)) with
      | ok start => exact ⟨start, rfl⟩
      | error text => simp [create, BlockPool.create, config, accepted, Except.map] at made
    have size : start.blockSize = blockSize := (create_starts created).2.2.2.2 accepted.1
    obtain ⟨s, reached, written, same_size, layers, _, _, stores⟩ := exists_filled created rfl
      (layerMajor (last + 1) chunks) fun call member => lt_of_mem_layerMajor member
    have each := each_layerMajor (last + 1) chunks
    have steady := steady_of_reaches reached
    have read := trips s default _ chunks reached (same_size.trans size) layers written each shape
      last (Nat.lt_succ_self last) fun _ => default
    have enough : chunks.flatten.length ≤
        (shelve start.blockSize (layerMajor (last + 1) chunks)).count := by
      rw [count_of_each _ each, List.length_flatten]
      exact Nat.le_mul_of_pos_left _ (Nat.succ_pos last)
    obtain ⟨rows, read', _, shown⟩ := stores.gather (steady.owned.used default) steady.positive
      steady.unswapped (by rw [layers]; exact Nat.lt_succ_self last) enough fun _ => default
    obtain rfl : rows = chunks.flatten := by
      rw [read] at read'
      exact (Except.ok.inj read').symm
    obtain ⟨row', here, shows⟩ := shown i inside
    obtain rfl : value = row' := by
      rw [row] at here
      exact Option.some.inj here
    rw [size] at shows
    rcases cell with none | filler
    · rw [none] at shows
      exact other (shows trivial)
    · rw [filler] at shows
      exact other shows
  · rintro fits s requestId history chunks reached rfl rfl written each rfl layer known nows
    exact (steady_of_reaches reached).gather written each fits known nows

/-- One layer, a full block and then three tokens more. -/
theorem layers_round_trip_blocks : RoundTrips String Nat Nat 16 1 [16, 3] :=
  (layers_round_trip (by decide) 1 [16, 3]).mpr (by decide)

/-- Blocks of sixteen tokens and one layer: the fourth token overwrites the first one. -/
theorem decoded_token_overwrites :
    ¬ ∀ blockSize numLayers lengths, RoundTrips String Nat Nat blockSize numLayers lengths := by
  intro all
  obtain ⟨start, created⟩ : ∃ start : PagedAttentionManager String Nat Nat,
      create { twoBlocks with swapToCpu := false } 4 1 0 = .ok start := ⟨_, rfl⟩
  have fresh : (machine String Nat Nat).init ⟨start, fun _ => none⟩ := ⟨⟨_, 4, 1, 0, created⟩, rfl⟩
  have reached : (machine String Nat Nat).Reaches SwapsNothing _ := .of_follows (.init fresh)
    [.createSequence "a" ⟨1, true⟩, .appendLayerKv "a" 0 [7, 8, 9] fun i => ⟨2 + i, true⟩,
      .appendLayerKv "a" 0 [5] fun i => ⟨3 + i, true⟩]
    (by
      cases created
      exact ⟨trivial, BlockPool.spares_of_off rfl _ _, trivial, appendStill_of_off rfl _ _, trivial,
        appendStill_of_off rfl _ _, trivial⟩)
  cases created
  have each : EachLayer 1 [(0, [7, 8, 9]), (0, [5])] [[7, 8, 9], [5]] := by
    refine ⟨by simp, fun layer known => ?_⟩
    obtain rfl : layer = 0 := by omega
    rfl
  have read := all 16 1 [3, 1] _ "a" _ _ reached rfl rfl rfl each rfl 0 (by decide) fun _ => 0
  have gathered : (Except.ok [5, 8, 9, 0] : Except (Raised String) (List Nat)) =
      .ok [7, 8, 9, 5] := read
  cases gathered

end Runs

end Shelved

end DistLLM.Pool
