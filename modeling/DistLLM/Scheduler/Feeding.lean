import DistLLM.Scheduler.Prompts

/-!
# How prompts are fed

Every sequence is fed its prompt exactly in runs that leave out three things. `step` keeps the token
of a sequence whose prompt is not through. A sequence whose last slice is not stepped yet is fed
its whole prompt once more. A promotion starts the chunks of a preempted sequence again from the
beginning.
-/
namespace DistLLM.Scheduler

open DistLLM.Library

variable {ρ : Type} [LinearOrder ρ]

namespace System

/-! ### Runs -/

/-- Every added sequence whose prompt is not matched to the end is fed exactly. -/
def FedExactly (s : System ρ) : Prop :=
  ∀ rid ∈ s.added,
    (s.scheduler.sequences rid).prefixMatchLen < (s.scheduler.sequences rid).promptTokens.length →
      (s.scheduler.sequences rid).FedExactly (s.slices rid)

instance (s : System ρ) : Decidable s.FedExactly :=
  inferInstanceAs (Decidable (∀ rid ∈ s.added, _))

/-- Scheduling feeds every prompt from where it was fed before, and the slices that are stepped end
their prompts. -/
def KeepsFeeding (s : System ρ) : Action ρ → Prop
  | .schedule budget policy shouldPreempt =>
    ∀ out ∈ (s.scheduler.preemptIfNeeded shouldPreempt).toOption,
      out.2.FeedsOn (s.scheduler.adjust budget policy) s.slices
  | .step batch _ =>
    ∀ row ∈ batch, (s.scheduler.sequences row.requestId).Prompting →
      row.positionOffset + row.tokens.length =
        (s.scheduler.sequences row.requestId).promptTokens.length
  | _ => True

instance (s : System ρ) : DecidablePred s.KeepsFeeding
  | .schedule _ _ shouldPreempt =>
    inferInstanceAs (Decidable (∀ out ∈ (s.scheduler.preemptIfNeeded shouldPreempt).toOption, _))
  | .step batch _ => inferInstanceAs (Decidable (∀ row ∈ batch, _))
  | .add _ _ | .promoteRequest _ _ | .preemptLowest _ _ | .restorePreempted _ => .isTrue trivial

/-- The invariant: besides, the prompt slices in the batches that are not stepped yet are noted. -/
structure Feeding (s : System ρ) : Prop where
  known : s.Known
  soFar : s.scheduler.FedSoFar s.added s.slices
  noted : ∀ batch ∈ s.issued, ∀ row ∈ batch,
    (s.scheduler.sequences row.requestId).Prompting → row ∈ s.slices row.requestId

variable {s s' : System ρ} {a : Action ρ}

theorem Feeding.frame (feeding : Feeding s) (known : s'.Known)
    (same : ∀ rid, (s.scheduler.sequences rid).SamePrompt (s'.scheduler.sequences rid))
    (cursors : s'.scheduler.Cursors s.added s.slices) (added : s'.added = s.added)
    (issued : s'.issued = s.issued) (slices : s'.slices = s.slices) : Feeding s' := by
  constructor
  case known => exact known
  case soFar =>
    rw [added, slices]
    exact feeding.soFar.congr same cursors
  case noted =>
    intro batch member row listed prompting
    rw [issued] at member
    rw [slices]
    exact feeding.noted batch member row listed ((same _).prompting.mp prompting)

theorem Feeding.add {rid : ρ} {seq : Sequence} (feeding : Feeding s)
    (possible : s.Possible (.add rid seq)) (done : s.run (.add rid seq) = .ok s') : Feeding s' := by
  have known := feeding.known.run possible done
  obtain ⟨scheduler, accepted, rfl⟩ := map_ok done
  obtain ⟨heap, -, rfl⟩ := BatchScheduler.add_ok accepted
  obtain ⟨new, fresh, -⟩ := possible
  obtain ⟨unknown, cursors, fed⟩ := feeding.soFar
  -- cursors belong to added requests, so the new one has none
  have noCursor : s.scheduler.chunkedPrefill.get? rid = none := by
    cases found : s.scheduler.chunkedPrefill.get? rid with
    | none => rfl
    | some info => exact absurd (cursors.known rid (by rw [found]; rfl)) new
  have others {other : ρ} (apart : other ≠ rid) :
      Function.update s.scheduler.sequences rid seq other = s.scheduler.sequences other :=
    Function.update_of_ne apart _ _
  constructor
  case known => exact known
  case soFar =>
    simp only [arrive_added, arrive_slices, arrive_scheduler]
    constructor
    case unknown =>
      intro other absent
      rw [List.mem_append, not_or] at absent
      exact unknown other absent.1
    case cursors =>
      constructor
      · exact fun other chunked => List.mem_append_left _ (cursors.known other chunked)
      · intro other prompting
        by_cases same : other = rid
        · subst same
          intro info found
          rw [noCursor] at found
          cases found
        · dsimp only at prompting ⊢
          rw [others same] at prompting ⊢
          exact cursors.stand other prompting
    case fed =>
      intro other unmatched
      by_cases same : other = rid
      · subst same
        dsimp only
        rw [unknown other new, Function.update_self]
        exact ⟨trivial, fun _ => List.nil_prefix, fun started => absurd fresh started⟩
      · dsimp only at unmatched ⊢
        rw [others same] at unmatched ⊢
        exact fed other unmatched
  case noted =>
    intro batch member row listed
    simp only [arrive_issued, arrive_slices, arrive_scheduler] at member ⊢
    have apart : row.requestId ≠ rid := by
      rintro rfl
      exact new ((feeding.known.issued batch member).2 _ (List.mem_map_of_mem listed))
    rw [others apart]
    exact feeding.noted batch member row listed

theorem Feeding.schedule {budget : IterationBudget} {policy : BudgetPolicy}
    {shouldPreempt : Bool} (feeding : Feeding s)
    (possible : s.Possible (.schedule budget policy shouldPreempt))
    (keeps : s.KeepsFeeding (.schedule budget policy shouldPreempt))
    (done : s.run (.schedule budget policy shouldPreempt) = .ok s') : Feeding s' := by
  have known := feeding.known.run possible done
  obtain ⟨out, scheduled, scheduler, added, issued, -, slices, -⟩ := run_schedule done
  obtain ⟨victim, s1, preempts, builds⟩ := BatchScheduler.scheduleWithBudget_ok scheduled
  obtain ⟨tokens, chunked⟩ := BatchScheduler.preemptIfNeeded_prompts preempts
  obtain ⟨s2, promoted, cursors, result⟩ :=
    (feeding.soFar.cursors.congr (fun rid => (tokens rid).samePrompt) chunked).build
      (feeding.known.ids.preemptIfNeeded preempts)
      (keeps (victim, s1) (mem_toOption.mpr preempts)) builds
  have before : ∀ rid, (s.scheduler.sequences rid).SamePrompt (s2.sequences rid) :=
    fun rid => (tokens.trans promoted rid).samePrompt
  rcases result with ⟨none, same⟩ | ⟨rids, distinct, ready, some, same⟩
  · -- no batch
    rw [none] at issued slices
    apply feeding.frame known ?_ ?_ added ?_ slices
    · rw [scheduler, same]
      exact before
    · rw [scheduler, same]
      exact cursors
    · rw [issued]
      exact List.append_nil _
  obtain ⟨-, rowTokens, -, -⟩ :=
    BatchScheduler.buildBatchTensors_frame (s.scheduler.adjust budget policy) rids s2
  obtain ⟨soFar, noted⟩ := (feeding.soFar.congr before cursors).tensors
    (s.scheduler.adjust budget policy) distinct ready
  -- promotions leave who has a token, so the notes are the same
  have notes : s'.slices = s2.noteSlices s.slices (BatchScheduler.buildBatchTensors
      (s.scheduler.adjust budget policy) rids s2).1 := by
    rw [slices, some]
    funext rid
    unfold BatchScheduler.noteSlices
    rw [(before rid).generated]
    rfl
  -- the rows change statuses only
  have whole : ∀ rid, (s2.sequences rid).SamePrompt (s'.scheduler.sequences rid) := by
    rw [scheduler, same]
    exact fun rid => (rowTokens rid).samePrompt
  constructor
  case known => exact known
  case soFar =>
    rw [notes, added, scheduler, same]
    exact soFar
  case noted =>
    intro batch member row listed prompting
    have still := (whole row.requestId).prompting.mp prompting
    rw [issued, some, List.mem_append, Option.mem_toList] at member
    rw [notes]
    rcases member with old | new
    · have first := feeding.noted batch old row listed ((before _).prompting.mp still)
      unfold BatchScheduler.noteSlices
      rw [if_pos still.2]
      exact List.mem_append_left _ first
    · cases new
      exact noted row listed still

/-- A token for each request of the batch; the others stay as they are. -/
theorem step_cases {batch : ScheduledBatch ρ} {nextTokens : List Int} (known : Known s)
    (possible : s.Possible (.step batch nextTokens)) (rid : ρ) :
    (s.scheduler.step batch nextTokens).2.sequences rid = s.scheduler.sequences rid ∨
      rid ∈ batch.requestIds ∧ ∃ token, (s.scheduler.step batch nextTokens).2.sequences rid =
        (s.scheduler.sequences rid).sampled token := by
  by_cases member : rid ∈ batch.requestIds
  · obtain ⟨once, -⟩ := known.issued batch possible.1
    obtain ⟨token, paired⟩ := BatchScheduler.exists_token possible.2 member
    exact Or.inr ⟨member, token, BatchScheduler.step_sampled once possible.2 paired⟩
  · exact Or.inl (BatchScheduler.step_others member)

/-- A step feeds nothing: what it samples has to come after the prompt. -/
theorem Feeding.step {batch : ScheduledBatch ρ} {nextTokens : List Int} (feeding : Feeding s)
    (possible : s.Possible (.step batch nextTokens))
    (keeps : s.KeepsFeeding (.step batch nextTokens))
    (done : s.run (.step batch nextTokens) = .ok s') : Feeding s' := by
  have known := feeding.known.run possible done
  obtain ⟨scheduler, added, issued, slices⟩ := run_step done
  have frame := BatchScheduler.step_frame s.scheduler batch nextTokens
  dsimp only at frame
  rw [← scheduler] at frame
  have sequences := step_cases feeding.known possible
  rw [← scheduler] at sequences
  -- a sequence without a token afterwards was not stepped
  have untouched : ∀ rid, (s'.scheduler.sequences rid).Prompting →
      s'.scheduler.sequences rid = s.scheduler.sequences rid := by
    intro rid prompting
    rcases sequences rid with same | ⟨-, token, sampled⟩
    · exact same
    · rw [sampled] at prompting
      exact absurd prompting.2 (by simp)
  -- a step drops the cursors of completed sequences and moves none
  have cursor : ∀ rid info, s'.scheduler.chunkedPrefill.get? rid = some info →
      s.scheduler.chunkedPrefill.get? rid = some info := by
    intro rid info found
    rw [frame] at found
    simp only [Dict.get?_filterKeys] at found
    split at found
    · exact found
    · cases found
  constructor
  case known => exact known
  case soFar =>
    rw [added, slices]
    constructor
    case unknown => exact feeding.soFar.unknown
    case cursors =>
      constructor
      · intro rid chunked
        obtain ⟨info, found⟩ := Option.isSome_iff_exists.mp chunked
        apply feeding.soFar.cursors.known rid
        rw [cursor rid info found]
        rfl
      · intro rid prompting info found
        have same := untouched rid prompting
        rw [same] at prompting ⊢
        exact feeding.soFar.cursors.stand rid prompting info (cursor rid info found)
    case fed =>
      intro rid unmatched
      rcases sequences rid with same | ⟨member, token, sampled⟩
      · rw [same] at unmatched ⊢
        exact feeding.soFar.fed rid unmatched
      · rw [sampled] at unmatched ⊢
        obtain ⟨so, -, through⟩ := feeding.soFar.fed rid unmatched
        refine ⟨so, fun fresh => absurd fresh (by simp), fun _ => ?_⟩
        by_cases fresh : (s.scheduler.sequences rid).generatedTokens = []
        · -- its first token, for a slice that ends the prompt
          obtain ⟨row, listed, rfl⟩ := List.mem_map.mp member
          have noted := feeding.noted batch possible.1 row listed ⟨unmatched, fresh⟩
          exact so.flatMap_eq (List.mem_map_of_mem noted) (keeps row listed ⟨unmatched, fresh⟩)
        · exact through fresh
  case noted =>
    intro other member row listed prompting
    rw [issued] at member
    rw [untouched _ prompting] at prompting
    rw [slices]
    exact feeding.noted other (List.mem_of_mem_erase member) row listed prompting

theorem Feeding.run (feeding : Feeding s) (possible : s.Possible a) (keeps : s.KeepsFeeding a)
    (done : s.run a = .ok s') : Feeding s' := by
  cases a with
  | add rid seq => exact feeding.add possible done
  | schedule budget policy shouldPreempt => exact feeding.schedule possible keeps done
  | step batch nextTokens => exact feeding.step possible keeps done
  | promoteRequest rid newPriority =>
    have known := feeding.known.run possible done
    obtain ⟨out, promoted, rfl⟩ := map_ok done
    obtain ⟨same, chunked⟩ := BatchScheduler.promoteRequest_prompts promoted
    exact feeding.frame known same (feeding.soFar.cursors.congr same chunked) rfl rfl rfl
  | preemptLowest minPriority kvCacheState =>
    have known := feeding.known.run possible done
    obtain ⟨out, preempted, rfl⟩ := map_ok done
    obtain ⟨tokens, chunked⟩ := BatchScheduler.preemptLowest_prompts preempted
    apply feeding.frame known
    · simpa using fun rid => (tokens rid).samePrompt
    · simpa using feeding.soFar.cursors.congr (fun rid => (tokens rid).samePrompt) chunked
    · simp
    · simp
    · simp
  | restorePreempted kvCacheState =>
    have known := feeding.known.run possible done
    obtain ⟨out, restored, rfl⟩ := map_ok done
    obtain ⟨tokens, chunked⟩ := BatchScheduler.restorePreempted_prompts restored
    apply feeding.frame known
    · simpa using fun rid => (tokens rid).samePrompt
    · simpa using feeding.soFar.cursors.congr (fun rid => (tokens rid).samePrompt) chunked
    · simp
    · simp
    · simp

theorem feeding_initial (init : (batching Initial).init s) : Feeding s := by
  have known : Known s := known_initial (fun _ => initial_ids) init
  obtain ⟨⟨chunked, weights, grouping, bucket, floats, paged, limit, start⟩, -, issued, -,
    slices, -⟩ := init
  constructor
  case known => exact known
  case soFar =>
    rw [start, slices]
    constructor
    case unknown => exact fun _ _ => rfl
    case cursors =>
      constructor
      · intro rid chunked
        cases chunked
      · intro rid _ info found
        cases found
    case fed =>
      intro rid unmatched
      cases unmatched
  case noted => simp [issued]

theorem feeding_of_reaches (run : (batching Initial).Reaches KeepsFeeding s) : s.Feeding :=
  batching_invariant (fun _ init => feeding_initial init)
    (fun _ _ _ feeding possible keeps done => feeding.run possible keeps done) run

end System

/-- In a run that feeds every prompt from where it was fed before, and steps no batch with a slice
that ends before its prompt, every sequence is fed its prompt exactly. -/
theorem prompts_fed_exactly {s : System ρ}
    (run : (batching Initial).Reaches System.KeepsFeeding s) : s.FedExactly :=
  fun rid _ => (System.feeding_of_reaches run).soFar.fed rid

/-- A prompt of four tokens, and a batch with the first two of them. -/
def firstChunk : List (Action Nat) :=
  [.add 0 { promptTokens := [1, 2, 3, 4] },
    .schedule { maxPrefillTokens := 2 } .unchanged false]

/-- It is preempted then, and goes on with the other two. -/
def resumedPrompt : List (Action Nat) := firstChunk ++ [
  .preemptLowest 2 none,
  .schedule {} .unchanged false,
  .step [{ requestId := 0, tokens := [3, 4], isPrefill := true, positionOffset := 2 }] [7]]

theorem prompts_fed_exactly_example :
    (resumedPrompt.foldl (batching Initial).exec (System.fresh none)).FedExactly := by
  have run := (System.fresh_reaches System.KeepsFeeding none).of_follows resumedPrompt
    (by decide +kernel)
  exact prompts_fed_exactly run

/-- The step of the first batch keeps a token that was sampled after half of the prompt. -/
theorem token_within_prompt :
    ¬ ∀ s, (batching (Initial (ρ := Nat))).Reachable s → s.FedExactly := by
  intro fed
  have run := (System.fresh_reaches (fun _ _ => True) none).of_follows (firstChunk ++ [
      .step [{ requestId := 0, tokens := [1, 2], isPrefill := true, positionOffset := 0 }] [7]])
    (by decide +kernel)
  exact absurd (fed _ run) (by decide +kernel)

end DistLLM.Scheduler
