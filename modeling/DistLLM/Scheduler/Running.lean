import DistLLM.Scheduler.Feeding

/-!
# What the distributed pipeline runs

The runner builds its inputs from the sequences and not from the batch: for every prompt step the
whole prompt after the matched prefix, for every other step the last token. The inputs are those
that the scheduler placed exactly where a prompt is not cut into chunks and not matched to its end;
the asynchronous pipeline pads them and passes no node KV caches.
-/
namespace DistLLM.Scheduler

open DistLLM.Library

variable (c : RequestPipeline) {ρ : Type} [LinearOrder ρ]

/-- What is passed through the nodes for one sequence of a batch, and whose node KV caches go with
it. -/
structure NodeInput (ρ : Type) where
  requestId : ρ
  isPrefill : Bool
  inputIds : List Int
  nodeKvCaches : Option ρ
  deriving DecidableEq

def prefixCacheKvReuseWired : Bool := false

/-- What the runner reads of the coordinator. -/
structure RequestPipeline where
  lookupPrefix : Option (List Int → Nat)
  hasAsyncPipeline : Bool
  pipelineScheduleType : String

/-- The tokens of a sequence, as both runners build them. -/
def Sequence.runTokens (seq : Sequence) (isPrefill : Bool) : List Int :=
  if isPrefill then seq.promptTokens.drop seq.prefixMatchLen else [seq.decodeInputToken]

def Sequence.adoptPrefix (lookup : List Int → Nat) (seq : Sequence) : Sequence :=
  if seq.prefixMatchLen = 0 ∧ seq.generatedTokens = [] ∧ 0 < lookup seq.promptTokens then
    { seq with prefixMatchLen := lookup seq.promptTokens }
  else seq

namespace RequestPipeline

def adoptPrefixes (c : RequestPipeline) (sequences : ρ → Sequence) (batch : ScheduledBatch ρ) :
    ρ → Sequence :=
  match prefixCacheKvReuseWired, c.lookupPrefix with
  | true, some lookup => fun rid =>
    if rid ∈ batch.requestIds then (sequences rid).adoptPrefix lookup else sequences rid
  | _, _ => sequences

def usesAsync : Bool :=
  c.hasAsyncPipeline &&
    (decide (c.pipelineScheduleType = "1f1b") || decide (c.pipelineScheduleType = "interleaved"))

/-- `_run_async_pipeline_batch`: all rows are padded to the longest one and run together. -/
def runAsyncPipelineBatch (sequences : ρ → Sequence) (batch : ScheduledBatch ρ) :
    List (NodeInput ρ) :=
  let tokens := batch.map fun row => (sequences row.requestId).runTokens row.isPrefill
  let maxLen := (tokens.map List.length).foldl max 0
  batch.map fun row =>
    let tokens := (sequences row.requestId).runTokens row.isPrefill
    ⟨row.requestId, row.isPrefill, tokens ++ List.replicate (maxLen - tokens.length) 0, none⟩

/-- `_run_distributed_pipeline_batch`. Speculation changes only what is done with the logits. -/
def runDistributedPipelineBatch (c : RequestPipeline) (sequences : ρ → Sequence)
    (batch : ScheduledBatch ρ) : List (NodeInput ρ) :=
  let sequences := c.adoptPrefixes sequences batch
  if c.usesAsync then runAsyncPipelineBatch sequences batch
  else
    batch.map fun row =>
      ⟨row.requestId, row.isPrefill, (sequences row.requestId).runTokens row.isPrefill,
        some row.requestId⟩

end RequestPipeline

/-- Each sequence's tokens are those of its row, and enter its own node KV caches. -/
def RunsPlaced (inputs : List (NodeInput ρ)) (batch : ScheduledBatch ρ) : Prop :=
  inputs.map (fun input => (input.requestId, input.inputIds, input.nodeKvCaches)) =
    batch.map fun row => (row.requestId, row.tokens, some row.requestId)

/-! ### When the tokens agree -/

variable (s : BatchScheduler ρ) (sequences : ρ → Sequence) {rids : List ρ}

namespace BatchScheduler

variable {s : BatchScheduler ρ} {budget : IterationBudget}

/-- A chunk is the first and the last of its prompt, and a prompt is not matched to its end. -/
def runsAsPlaced (s : BatchScheduler ρ) (budget : IterationBudget) (rid : ρ) : Bool :=
  let seq := s.sequences rid
  let promptLen := seq.promptTokens.length
  match s.chunkedPrefill.get? rid with
  | some info =>
    decide (promptLen ≤ seq.prefixMatchLen) ||
      decide (info.tokensProcessed = 0) &&
        decide (promptLen ≤ seq.prefixMatchLen + s.maxChunk budget seq.priority)
  | none =>
    decide (seq.generatedTokens ≠ []) || decide (promptLen = 0) ||
      decide (seq.prefixMatchLen < promptLen)

theorem slice_eq_drop_iff (tokens : List Int) (start skip count : Nat) :
    (tokens.drop (start + skip)).take count = tokens.drop start ↔
      tokens.length ≤ start ∨ skip = 0 ∧ tokens.length ≤ start + count := by
  constructor
  · intro same
    have lengths := congrArg List.length same
    rw [List.length_take, List.length_drop, List.length_drop] at lengths
    omega
  · rintro (past | ⟨rfl, covered⟩)
    · rw [List.drop_eq_nil_of_le past, List.drop_eq_nil_of_le (by omega), List.take_nil]
    · rw [Nat.add_zero]
      exact List.take_of_length_le (by rw [List.length_drop]; omega)

theorem runTokens_row (budget : IterationBudget) (rid : ρ) :
    (s.sequences rid).runTokens (s.row budget rid).isPrefill = (s.row budget rid).tokens ↔
      s.runsAsPlaced budget rid = true := by
  unfold row buildSeqTokens runsAsPlaced
  dsimp only
  cases s.chunkedPrefill.get? rid with
  | some info =>
    dsimp only
    -- the row is the same whether or not the chunk is the last one
    have slice := slice_eq_drop_iff (s.sequences rid).promptTokens
      (s.sequences rid).prefixMatchLen info.tokensProcessed
      (min ((s.sequences rid).prefixMatchLen + info.tokensProcessed +
        s.maxChunk budget (s.sequences rid).priority) (s.sequences rid).promptTokens.length -
          ((s.sequences rid).prefixMatchLen + info.tokensProcessed))
    simp only [Bool.or_eq_true, Bool.and_eq_true, decide_eq_true_eq]
    split <;>
    · simp only [Sequence.runTokens, if_true]
      rw [eq_comm, slice]
      omega
  | none =>
    dsimp only
    by_cases fresh : (s.sequences rid).generatedTokens = []
    · rw [if_pos fresh]
      by_cases empty : (s.sequences rid).promptTokens.length = 0
      · have nothing := List.length_eq_zero_iff.mp empty
        rw [if_pos empty]
        simp [Sequence.runTokens, nothing]
      · rw [if_neg empty]
        simp only [Sequence.runTokens, if_true, fresh, empty, ne_eq, not_true_eq_false,
          decide_false, Bool.false_or, decide_eq_true_eq]
        split
        next matched =>
          -- the scheduler replays the last token, the runner runs nothing
          have lengths : ((s.sequences rid).promptTokens.drop
              ((s.sequences rid).promptTokens.length - 1)).length = 1 := by
            rw [List.length_drop]
            omega
          constructor
          · intro same
            rw [← same, List.length_drop] at lengths
            omega
          · intro short
            omega
        next unmatched => simpa using unmatched
    · rw [if_neg fresh]
      simp [Sequence.runTokens, fresh]

theorem runTokens_congr {seq seq' : Sequence} (same : seq.SameTokens seq') (isPrefill : Bool) :
    seq'.runTokens isPrefill = seq.runTokens isPrefill := by
  simp only [Sequence.runTokens, Sequence.decodeInputToken, same.promptTokens, same.prefixMatchLen,
    same.generatedTokens]

end BatchScheduler

namespace RequestPipeline

open BatchScheduler

variable (c : RequestPipeline) {budget : IterationBudget}

theorem adoptPrefixes_eq (batch : ScheduledBatch ρ) :
    c.adoptPrefixes sequences batch = sequences := rfl

theorem runsPlaced_sync (distinct : rids.Nodup) (s : BatchScheduler ρ)
    (sync : c.usesAsync = false) :
    RunsPlaced (c.runDistributedPipelineBatch (buildBatchTensors budget rids s).2.sequences
        (buildBatchTensors budget rids s).1) (buildBatchTensors budget rids s).1 ↔
      ∀ rid ∈ rids, s.runsAsPlaced budget rid = true := by
  obtain ⟨-, same, -, -⟩ := buildBatchTensors_frame budget rids s
  rw [RunsPlaced, runDistributedPipelineBatch, adoptPrefixes_eq, buildBatchTensors_rows budget
    distinct]
  simp only [sync, Bool.false_eq_true, if_false, List.map_map]
  rw [List.map_inj_left]
  apply forall₂_congr
  intro rid _
  simp only [Function.comp, row_requestId, Prod.mk.injEq, true_and, and_true,
    runTokens_congr (same rid), runTokens_row]

theorem runsPlaced_async (distinct : rids.Nodup) (s : BatchScheduler ρ)
    (async : c.usesAsync = true) :
    RunsPlaced (c.runDistributedPipelineBatch (buildBatchTensors budget rids s).2.sequences
        (buildBatchTensors budget rids s).1) (buildBatchTensors budget rids s).1 ↔ rids = [] := by
  rw [RunsPlaced, runDistributedPipelineBatch, adoptPrefixes_eq, buildBatchTensors_rows budget
    distinct]
  simp only [async, if_true, runAsyncPipelineBatch, List.map_map]
  rw [List.map_inj_left]
  constructor
  · intro all
    apply List.eq_nil_iff_forall_not_mem.mpr
    intro rid inside
    -- no caches are passed
    have none_passed := all rid inside
    simp at none_passed
  · rintro rfl rid inside
    cases inside

end RequestPipeline

/-- A slice that starts at the matched prefix and ends with the prompt, or an empty one where the
whole prompt is matched. -/
def BatchRow.Whole (row : BatchRow ρ) (seq : Sequence) : Prop :=
  row.positionOffset = seq.prefixMatchLen ∧
      seq.promptTokens.length ≤ seq.prefixMatchLen + row.tokens.length ∨
    seq.promptTokens.length ≤ seq.prefixMatchLen ∧ row.tokens = []

instance (row : BatchRow ρ) (seq : Sequence) : Decidable (row.Whole seq) :=
  inferInstanceAs (Decidable (_ ∨ _))

/-- The scheduler with the tokens that entered the node KV caches of a request as prompt tokens. -/
structure Execution (ρ : Type) where
  system : System ρ
  prefilled : ρ → List Int

namespace Execution

/-- The batch that an action builds, with the sequences as they are then. -/
def built (e : Execution ρ) : Action ρ → Option ((ρ → Sequence) × ScheduledBatch ρ)
  | .schedule budget policy shouldPreempt =>
    (e.system.scheduler.scheduleWithBudget budget policy shouldPreempt).toOption.bind fun out =>
      out.batch.map fun batch => (out.scheduler.sequences, batch)
  | _ => none

/-- What enters the node KV caches of a request as part of its prompt. -/
def promptInput (inputs : List (NodeInput ρ)) (rid : ρ) : List Int :=
  (inputs.filter fun input => decide (input.nodeKvCaches = some rid ∧ input.isPrefill)).flatMap
    NodeInput.inputIds

/-- Every batch is run as soon as it is scheduled. -/
def exec (c : RequestPipeline) (e : Execution ρ) (a : Action ρ) : Execution ρ where
  system := (batching Initial).exec e.system a
  prefilled := match e.built a with
    | none => e.prefilled
    | some (sequences, batch) => fun rid =>
      e.prefilled rid ++ promptInput (c.runDistributedPipelineBatch sequences batch) rid

/-- The runs keep feeding, and prompts are placed whole and before the first token. -/
def KeepsPrompts (c : RequestPipeline) (e : Execution ρ) (a : Action ρ) : Prop :=
  e.system.KeepsFeeding a ∧ c.usesAsync = false ∧ ∀ out ∈ e.built a, ∀ row ∈ out.2,
    row.isPrefill = true → (e.system.scheduler.sequences row.requestId).generatedTokens = [] ∧
      row.Whole (out.1 row.requestId)

instance (c : RequestPipeline) (e : Execution ρ) (a : Action ρ) : Decidable (e.KeepsPrompts c a) :=
  inferInstanceAs (Decidable (_ ∧ _ ∧ ∀ out ∈ e.built a, _))

/-- Of every added sequence whose prompt is not matched to the end, each token enters once. -/
def PromptsOnce (e : Execution ρ) : Prop :=
  ∀ rid ∈ e.system.added,
    let seq := e.system.scheduler.sequences rid
    seq.prefixMatchLen < seq.promptTokens.length →
      (seq.generatedTokens = [] → e.prefilled rid <+: seq.promptTokens.drop seq.prefixMatchLen) ∧
      (seq.generatedTokens ≠ [] → e.prefilled rid = seq.promptTokens.drop seq.prefixMatchLen)

end Execution

/-- The runs of the scheduler in which each batch goes through the nodes. -/
def executing (c : RequestPipeline) : Machine (Execution ρ) (Action ρ) where
  init e := (batching Initial).init e.system ∧ e.prefilled = fun _ => []
  enabled e a := (batching Initial).enabled e.system a
  exec e a := e.exec c a

instance (c : RequestPipeline) (e : Execution ρ) (a : Action ρ) :
    Decidable ((executing c).enabled e a) :=
  inferInstanceAs (Decidable ((batching Initial).enabled e.system a))

/-! ### What enters the caches -/

namespace BatchScheduler

variable {s : BatchScheduler ρ} {budget : IterationBudget}

theorem take_length_take (tokens : List Int) (count : Nat) :
    tokens.take (tokens.take count).length = tokens.take count := by
  rw [List.length_take]
  rcases Nat.le_total count tokens.length with within | past
  · rw [Nat.min_eq_left within]
  · rw [Nat.min_eq_right past, List.take_length, List.take_of_length_le past]

theorem row_slice (budget : IterationBudget) (rid : ρ)
    (prompt : (s.row budget rid).isPrefill = true) :
    (s.row budget rid).tokens = ((s.sequences rid).promptTokens.drop
      (s.row budget rid).positionOffset).take (s.row budget rid).tokens.length := by
  unfold row buildSeqTokens at *
  dsimp only at *
  cases found : s.chunkedPrefill.get? rid with
  | some info =>
    dsimp only
    split <;> exact (take_length_take _ _).symm
  | none =>
    rw [found] at prompt
    dsimp only at prompt ⊢
    by_cases fresh : (s.sequences rid).generatedTokens = []
    · rw [if_pos fresh]
      split
      next empty => simp
      next some => rw [List.take_length]
    · rw [if_neg fresh] at prompt
      cases prompt

variable {s : BatchScheduler ρ} {row : BatchRow ρ}
  (inside : row ∈ (buildBatchTensors budget rids s).1)

include inside

theorem built_row :
    ∃ s' : BatchScheduler ρ, s.SameTokens s' ∧ row = s'.row budget row.requestId := by
  induction rids generalizing s with
  | nil => cases inside
  | cons rid rest ih =>
    obtain ⟨-, same, own, -⟩ := buildSeqTokens_frame budget s rid
    simp only [buildBatchTensors, List.mem_cons] at inside
    rcases inside with rfl | later
    · refine ⟨s, SameTokens.refl s, ?_⟩
      rw [own]
      rfl
    · obtain ⟨s', same', row_eq⟩ := ih later
      exact ⟨s', same.trans same', row_eq⟩

theorem runTokens_whole (prompt : row.isPrefill = true)
    (whole : row.Whole ((buildBatchTensors budget rids s).2.sequences row.requestId)) :
    ((buildBatchTensors budget rids s).2.sequences row.requestId).runTokens true = row.tokens := by
  obtain ⟨s', same, row_eq⟩ := built_row inside
  obtain ⟨-, after, -, -⟩ := buildBatchTensors_frame budget rids s
  rw [row_eq] at prompt
  have slice := s'.row_slice budget row.requestId prompt
  rw [← row_eq, (same row.requestId).promptTokens] at slice
  simp only [BatchRow.Whole, Sequence.runTokens, if_true, (after row.requestId).promptTokens,
    (after row.requestId).prefixMatchLen] at whole ⊢
  rcases whole with ⟨start, covered⟩ | ⟨matched, nothing⟩
  · rw [slice, start]
    symm
    apply List.take_of_length_le
    rw [List.length_drop]
    omega
  · rw [nothing]
    exact List.drop_eq_nil_of_le matched

end BatchScheduler

namespace Execution

open BatchScheduler

variable {c : RequestPipeline} {e : Execution ρ} {a : Action ρ}
  {out : (ρ → Sequence) × ScheduledBatch ρ}

theorem built_tensors (built : e.built a = some out) :
    ∃ budget policy shouldPreempt scheduled, a = .schedule budget policy shouldPreempt ∧
      e.system.scheduler.scheduleWithBudget budget policy shouldPreempt = .ok scheduled ∧
      scheduled.batch = some out.2 ∧ ∃ adjusted rids s',
        out.2 = (buildBatchTensors adjusted rids s').1 ∧
        out.1 = (buildBatchTensors adjusted rids s').2.sequences := by
  cases a with
  | schedule budget policy shouldPreempt =>
    obtain ⟨scheduled, ok, placed⟩ := Option.bind_eq_some_iff.mp built
    obtain ⟨batch, some_batch, rfl⟩ := Option.map_eq_some_iff.mp placed
    have ok := System.mem_toOption.mp ok
    obtain ⟨victim, s1, -, builds⟩ := scheduleWithBudget_ok ok
    obtain ⟨ids, s2, -, -, -, result⟩ := buildBatch_ok builds
    refine ⟨budget, policy, shouldPreempt, scheduled, rfl, ok, some_batch, ?_⟩
    rcases result with ⟨-, none_batch, -⟩ | ⟨-, rids, -, placed, after⟩
    · rw [none_batch] at some_batch
      cases some_batch
    · rw [placed] at some_batch
      exact ⟨_, rids, s2, (Option.some.inj some_batch).symm,
        congrArg BatchScheduler.sequences after⟩
  | _ => cases built

theorem promptInput_whole (built : e.built a = some out) (sync : c.usesAsync = false)
    (whole : ∀ row ∈ out.2, row.isPrefill = true → row.Whole (out.1 row.requestId)) (rid : ρ) :
    promptInput (c.runDistributedPipelineBatch out.1 out.2) rid =
      fedTokens (out.2.filter fun row => decide (row.requestId = rid ∧ row.isPrefill)) := by
  obtain ⟨-, -, -, -, -, -, -, adjusted, rids, s', batch, after⟩ := built_tensors built
  rw [batch, after] at whole
  rw [batch, after]
  rw [RequestPipeline.runDistributedPipelineBatch, RequestPipeline.adoptPrefixes_eq]
  simp only [sync, Bool.false_eq_true, if_false, promptInput, List.filter_map, List.flatMap_map,
    fedTokens]
  have rows : ∀ row ∈ (buildBatchTensors adjusted rids s').1.filter
      (fun row => decide (row.requestId = rid ∧ row.isPrefill)),
      ((buildBatchTensors adjusted rids s').2.sequences row.requestId).runTokens row.isPrefill =
        row.tokens := by
    intro row inside
    obtain ⟨placed, own⟩ := List.mem_filter.mp inside
    have prompt : row.isPrefill = true := by
      simp only [decide_eq_true_eq] at own
      exact own.2
    rw [prompt]
    exact runTokens_whole placed prompt (whole row placed prompt)
  simp only [Function.comp_def, Option.some.injEq, BatchRow.slice]
  exact List.flatMap_congr rows

theorem slices_unbuilt {s s' : System ρ} (done : s.run a = .ok s')
    (none_built : (⟨s, fun _ => []⟩ : Execution ρ).built a = none) : s'.slices = s.slices := by
  cases a with
  | add rid seq =>
    obtain ⟨scheduler, -, rfl⟩ := System.map_ok done
    simp
  | schedule budget policy shouldPreempt =>
    obtain ⟨out, scheduled, -, -, -, -, slices, -⟩ := System.run_schedule done
    have none_batch : out.batch = none := by
      simpa [built, scheduled, Except.toOption] using none_built
    rw [slices, none_batch]
    rfl
  | step batch nextTokens => exact (System.run_step done).2.2.2
  | promoteRequest rid newPriority =>
    obtain ⟨out, -, rfl⟩ := System.map_ok done
    rfl
  | preemptLowest minPriority kvCacheState =>
    obtain ⟨out, -, rfl⟩ := System.map_ok done
    simp
  | restorePreempted kvCacheState =>
    obtain ⟨out, -, rfl⟩ := System.map_ok done
    simp

/-- The caches hold the slices that the scheduler placed. -/
structure Prefilling (e : Execution ρ) : Prop where
  feeding : (batching Initial).Reaches System.KeepsFeeding e.system
  caches : ∀ rid, e.prefilled rid = fedTokens (e.system.slices rid)

theorem Prefilling.exec (prefilling : Prefilling e)
    (enabled : (batching Initial).enabled e.system a) (keeps : e.KeepsPrompts c a) :
    Prefilling (e.exec c a) := by
  obtain ⟨feeds, sync, whole⟩ := keeps
  obtain ⟨possible, done⟩ := batching_exec enabled
  constructor
  case feeding => exact .step a prefilling.feeding enabled feeds
  case caches =>
    intro rid
    simp only [Execution.exec]
    cases built : e.built a with
    | none =>
      rw [slices_unbuilt done built]
      exact prefilling.caches rid
    | some out =>
      have rows := whole out built
      obtain ⟨budget, policy, shouldPreempt, scheduled, rfl, ok, batch, -⟩ := built_tensors built
      obtain ⟨out', again, -, -, -, -, slices, -⟩ := System.run_schedule done
      obtain rfl := Except.ok.inj (ok.symm.trans again)
      rw [slices, batch]
      dsimp only [Option.elim, System.issue]
      rw [promptInput_whole built sync (fun row inside prompt => (rows row inside prompt).2),
        prefilling.caches rid]
      split
      · rw [fedTokens_append]
      · -- a sequence with a token gets no prompt slice
        next started =>
        have nothing : out.2.filter (fun row => decide (row.requestId = rid ∧ row.isPrefill)) =
            [] := by
          apply List.filter_eq_nil_iff.mpr
          intro row inside
          simp only [decide_eq_true_eq, not_and]
          intro own prompt
          exact started (own ▸ (rows row inside prompt).1)
        rw [nothing]
        simp [fedTokens]

theorem prefilling_of_reaches (reached : (executing c).Reaches (KeepsPrompts c) e) :
    Prefilling e := by
  apply reached.invariant
  · rintro e ⟨initial, empty⟩
    constructor
    · exact .init initial
    · intro rid
      obtain ⟨-, -, -, -, slices, -⟩ := initial
      rw [empty, slices]
      rfl
  · intro e a prefilling enabled keeps
    exact prefilling.exec enabled keeps

theorem Prefilling.once (prefilling : Prefilling e) : PromptsOnce e := by
  intro rid added seq unmatched
  obtain ⟨-, before, after⟩ :=
    (System.feeding_of_reaches prefilling.feeding).soFar.fed rid unmatched
  rw [prefilling.caches rid]
  exact ⟨before, after⟩

end Execution

/-- Without the asynchronous pipeline, a batch runs what was placed exactly if no prompt is cut or
matched to its end; with it, only the empty batch does. In runs whose batches place prompts whole,
each prompt token enters the node KV caches once. -/
theorem pipelineBatch_runsPlaced (c : RequestPipeline) :
    (∀ (s : BatchScheduler ρ) (budget : IterationBudget) (rids : List ρ), rids.Nodup →
      (RunsPlaced (c.runDistributedPipelineBatch
          (BatchScheduler.buildBatchTensors budget rids s).2.sequences
          (BatchScheduler.buildBatchTensors budget rids s).1)
          (BatchScheduler.buildBatchTensors budget rids s).1 ↔
        if c.usesAsync then rids = [] else ∀ rid ∈ rids, s.runsAsPlaced budget rid = true)) ∧
    ∀ e : Execution ρ, (executing c).Reaches (Execution.KeepsPrompts c) e → e.PromptsOnce := by
  constructor
  · intro s budget rids distinct
    cases path : c.usesAsync with
    | true => exact c.runsPlaced_async distinct s path
    | false => simpa using c.runsPlaced_sync distinct s path
  · intro e reached
    exact (Execution.prefilling_of_reaches reached).once

/-- A pipeline without prefix cache and without the asynchronous path. -/
def plainPipeline : RequestPipeline := ⟨none, false, "gpipe"⟩

/-- A prompt that is placed whole, a token for it, and a decode. -/
def wholePrompt : List (Action Nat) :=
  [.add 0 { promptTokens := [1, 2, 3, 4], priority := 3 },
    .schedule {} .unchanged false,
    .step [{ requestId := 0, tokens := [1, 2, 3, 4], isPrefill := true, positionOffset := 0 }] [7],
    .schedule {} .unchanged false]

def Execution.fresh : Execution Nat := ⟨System.fresh none, fun _ => []⟩

theorem Execution.fresh_init : (executing plainPipeline).init Execution.fresh :=
  ⟨System.fresh_init none (System.fresh_initial none), rfl⟩

theorem pipelineBatch_runsPlaced_whole :
    let s := ((wholePrompt.take 1).foldl (batching Initial).exec (System.fresh none)).scheduler
    RunsPlaced (plainPipeline.runDistributedPipelineBatch
        (BatchScheduler.buildBatchTensors {} [0] s).2.sequences
        (BatchScheduler.buildBatchTensors {} [0] s).1)
        (BatchScheduler.buildBatchTensors {} [0] s).1 ∧
      (wholePrompt.foldl (executing plainPipeline).exec Execution.fresh).PromptsOnce := by
  obtain ⟨batch, run⟩ := pipelineBatch_runsPlaced (ρ := Nat) plainPipeline
  constructor
  · exact (batch _ {} [0] (by decide)).mpr (by decide +kernel)
  · exact run _ (.of_follows (.init Execution.fresh_init) wholePrompt (by decide +kernel))

/-- The second chunk of a prompt: the runner passes the whole prompt again. -/
theorem pipelineBatch_rerunsPrompt : ¬ ∀ s : BatchScheduler Nat, ∀ budget rid,
      RunsPlaced (plainPipeline.runDistributedPipelineBatch
        (BatchScheduler.buildBatchTensors budget [rid] s).2.sequences
        (BatchScheduler.buildBatchTensors budget [rid] s).1)
        (BatchScheduler.buildBatchTensors budget [rid] s).1 := by
  intro all
  have placed := all (firstChunk.foldl (batching Initial).exec (System.fresh none)).scheduler
    { maxPrefillTokens := 2 } 0
  revert placed
  unfold RunsPlaced
  decide +kernel

end DistLLM.Scheduler
