import DistLLM.Library.Slices
import DistLLM.Scheduler.Requests

/-!
# The slices of a prompt

Until a sequence has a token, the batches should give it its prompt after the matched prefix, slice
by slice. What one call puts into a batch for such a sequence goes on where the earlier slices
end, if the sequence was never fed or has its chunk cursor, and the promotions leave the cursor
where it is.
-/
namespace DistLLM.Scheduler

open DistLLM.Library

variable {ρ : Type} [LinearOrder ρ]

def BatchRow.slice (row : BatchRow ρ) : Nat × List Int := (row.positionOffset, row.tokens)

def fedTokens (rows : List (BatchRow ρ)) : List Int := (rows.map BatchRow.slice).flatMap Prod.snd

omit [LinearOrder ρ] in
theorem fedTokens_append (rows rows' : List (BatchRow ρ)) :
    fedTokens (rows ++ rows') = fedTokens rows ++ fedTokens rows' := by
  simp [fedTokens]

omit [LinearOrder ρ] in
theorem fedTokens_singleton (row : BatchRow ρ) : fedTokens [row] = row.tokens := by
  simp [fedTokens, BatchRow.slice]

structure Sequence.SamePrompt (seq seq' : Sequence) : Prop where
  prompt : seq'.promptTokens = seq.promptTokens
  matched : seq'.prefixMatchLen = seq.prefixMatchLen
  generated : seq'.generatedTokens = seq.generatedTokens

variable {seq seq' : Sequence}

theorem Sequence.SameTokens.samePrompt (same : seq.SameTokens seq') : seq.SamePrompt seq' :=
  ⟨same.promptTokens, same.prefixMatchLen, same.generatedTokens⟩

/-- Some of the prompt is not matched, and there is no token yet. -/
def Sequence.Prompting (seq : Sequence) : Prop :=
  seq.prefixMatchLen < seq.promptTokens.length ∧ seq.generatedTokens = []

instance (seq : Sequence) : Decidable seq.Prompting := inferInstanceAs (Decidable (_ ∧ _))

theorem Sequence.SamePrompt.prompting (same : seq.SamePrompt seq') :
    seq'.Prompting ↔ seq.Prompting := by
  unfold Sequence.Prompting
  rw [same.prompt, same.matched, same.generated]

/-- The slices lie one after the other from the matched prefix on. Without a token they are the
beginning of what is to be fed, and with one they are all of it. -/
def Sequence.FedExactly (seq : Sequence) (rows : List (BatchRow ρ)) : Prop :=
  let suffix := seq.promptTokens.drop seq.prefixMatchLen
  Consecutive seq.promptTokens seq.prefixMatchLen (rows.map BatchRow.slice) ∧
    (seq.generatedTokens = [] → fedTokens rows <+: suffix) ∧
    (seq.generatedTokens ≠ [] → fedTokens rows = suffix)

instance (seq : Sequence) (rows : List (BatchRow ρ)) : Decidable (seq.FedExactly rows) :=
  inferInstanceAs (Decidable (_ ∧ _ ∧ _))

variable {rows : List (BatchRow ρ)}

omit [LinearOrder ρ] in
theorem Sequence.FedExactly.congr (fed : seq.FedExactly rows)
    (same : seq.SamePrompt seq') : seq'.FedExactly rows := by
  unfold Sequence.FedExactly
  rw [same.prompt, same.matched, same.generated]
  exact fed

/-- What is left of a cursor when some more tokens are fed. -/
def ChunkedPrefillInfo.advance (info : ChunkedPrefillInfo) (tokens : Nat) :
    Option ChunkedPrefillInfo :=
  let info := { info with
    tokensProcessed := info.tokensProcessed + tokens
    chunksRemaining := max 0 (info.chunksRemaining - 1) }
  if info.isComplete then none else some info

/-- A cursor stands where the rows so far end, and the prompt is not through. -/
def Sequence.CursorAt (seq : Sequence) (cursor : Option ChunkedPrefillInfo)
    (rows : List (BatchRow ρ)) : Prop :=
  ∀ info ∈ cursor, info.tokensProcessed = (fedTokens rows).length ∧
    info.totalPromptTokens = (seq.promptTokens.length : Int) - seq.prefixMatchLen ∧
    seq.prefixMatchLen + (fedTokens rows).length < seq.promptTokens.length

omit [LinearOrder ρ] in
theorem Sequence.CursorAt.congr {cursor : Option ChunkedPrefillInfo}
    (stands : seq.CursorAt cursor rows) (same : seq.SamePrompt seq') :
    seq'.CursorAt cursor rows := by
  unfold Sequence.CursorAt
  rw [same.prompt, same.matched]
  exact stands

namespace BatchScheduler

variable {s s' : BatchScheduler ρ} {budget : IterationBudget} {rid : ρ}

theorem buildSeqTokens_cursor (s : BatchScheduler ρ) (budget : IterationBudget) (rid : ρ) :
    (s.buildSeqTokens budget rid).2.chunkedPrefill.get? rid =
      (s.chunkedPrefill.get? rid).bind fun info =>
        info.advance (s.row budget rid).tokens.length := by
  unfold row buildSeqTokens
  dsimp only
  cases found : s.chunkedPrefill.get? rid with
  | some info =>
    dsimp only [Option.bind_some, ChunkedPrefillInfo.advance]
    split
    · simp [Dict.get?_filterKeys]
    · simp
  | none =>
    dsimp only [Option.bind_none]
    split
    · split
      · exact found
      · by_cases complete : (s.sequences rid).isComplete = true
        · rw [if_pos complete]
          exact found
        · rw [if_neg complete]
          exact found
    · exact found

theorem buildBatchTensors_cursor {batch : List ρ} (distinct : batch.Nodup)
    (s : BatchScheduler ρ) (member : rid ∈ batch) :
    (buildBatchTensors budget batch s).2.chunkedPrefill.get? rid =
      (s.chunkedPrefill.get? rid).bind fun info =>
        info.advance (s.row budget rid).tokens.length := by
  induction batch generalizing s with
  | nil => cases member
  | cons first rest ih =>
    rw [List.nodup_cons] at distinct
    simp only [buildBatchTensors]
    rcases List.mem_cons.mp member with rfl | later
    · obtain ⟨-, -, -, others⟩ :=
        buildBatchTensors_frame budget rest (s.buildSeqTokens budget rid).2
      rw [(others rid distinct.1).2, buildSeqTokens_cursor]
    · -- the rows before it leave its cursor and its own row
      have apart : rid ≠ first := fun same => distinct.1 (same ▸ later)
      obtain ⟨frame, same, -, others⟩ := buildSeqTokens_frame budget s first
      rw [ih distinct.2 _ later, (others rid apart).2,
        row_congr (same rid) (others rid apart).2 (by rw [frame]; rfl)]

/-- It has not been fed, or there is a cursor that says how far. -/
def Ready (s : BatchScheduler ρ) (rows : List (BatchRow ρ)) (rid : ρ) : Prop :=
  (s.sequences rid).Prompting → rows = [] ∨ (s.chunkedPrefill.get? rid).isSome = true

instance (rows : List (BatchRow ρ)) : Decidable (s.Ready rows rid) :=
  inferInstanceAs (Decidable (_ → _))

theorem Ready.next (budget : IterationBudget) (ready : s.Ready rows rid)
    (prompting : (s.sequences rid).Prompting)
    (cursor : (s.sequences rid).CursorAt (s.chunkedPrefill.get? rid) rows) :
    let row := s.row budget rid
    row.isPrefill = true ∧
      row.positionOffset = (s.sequences rid).prefixMatchLen + (fedTokens rows).length ∧
      row.tokens <+: (s.sequences rid).promptTokens.drop row.positionOffset ∧
      (s.sequences rid).CursorAt ((s.chunkedPrefill.get? rid).bind fun info =>
        info.advance row.tokens.length) (rows ++ [row]) := by
  obtain ⟨unmatched, fresh⟩ := prompting
  dsimp only
  unfold Sequence.CursorAt
  rw [fedTokens_append, fedTokens_singleton, List.length_append]
  cases found : s.chunkedPrefill.get? rid with
  | none =>
    -- the prompt goes in one slice
    have first : rows = [] := by
      rcases ready ⟨unmatched, fresh⟩ with first | chunked
      · exact first
      · rw [found] at chunked
        cases chunked
    have whole : s.row budget rid =
        { requestId := rid
          tokens := (s.sequences rid).promptTokens.drop (s.sequences rid).prefixMatchLen
          isPrefill := true
          positionOffset := (s.sequences rid).prefixMatchLen } := by
      unfold row buildSeqTokens
      dsimp only
      rw [found]
      dsimp only
      rw [if_pos fresh, if_neg (by omega), if_neg (by omega)]
    rw [whole, first]
    refine ⟨rfl, rfl, List.prefix_refl _, ?_⟩
    intro info after
    cases after
  | some info =>
    obtain ⟨processed, total, inside⟩ := cursor info found
    -- the next chunk starts at the cursor, whatever its length
    have piece : (s.row budget rid).isPrefill = true ∧
        (s.row budget rid).positionOffset =
          (s.sequences rid).prefixMatchLen + info.tokensProcessed ∧
        (s.row budget rid).tokens <+: (s.sequences rid).promptTokens.drop
          ((s.sequences rid).prefixMatchLen + info.tokensProcessed) := by
      unfold row buildSeqTokens
      dsimp only
      rw [found]
      dsimp only
      split <;> exact ⟨rfl, rfl, List.take_prefix _ _⟩
    obtain ⟨prefill, offset, tokens⟩ := piece
    refine ⟨prefill, by rw [offset, processed], by rw [offset]; exact tokens, ?_⟩
    intro later after
    simp only [Option.bind_some, ChunkedPrefillInfo.advance, Option.mem_def] at after
    split at after
    · cases after
    next running =>
    cases after
    -- a cursor that is kept has not reached the end of the prompt
    simp only [ChunkedPrefillInfo.isComplete, decide_eq_true_eq, not_le] at running
    refine ⟨by rw [processed], total, ?_⟩
    rw [total, processed] at running
    push_cast at running
    omega

/-! ### Choosing the sequences -/

/-- Only added requests have cursors, and those stand where their rows end. -/
structure Cursors (added : List ρ) (slices : ρ → List (BatchRow ρ)) (s : BatchScheduler ρ) :
    Prop where
  known : ∀ rid, (s.chunkedPrefill.get? rid).isSome = true → rid ∈ added
  stand : ∀ rid, (s.sequences rid).Prompting →
    (s.sequences rid).CursorAt (s.chunkedPrefill.get? rid) (slices rid)

theorem Cursors.congr {added : List ρ} {slices : ρ → List (BatchRow ρ)}
    (cursors : s.Cursors added slices)
    (same : ∀ rid, (s.sequences rid).SamePrompt (s'.sequences rid))
    (chunked : s'.chunkedPrefill = s.chunkedPrefill) : s'.Cursors added slices := by
  constructor
  · rw [chunked]
    exact cursors.known
  · intro rid prompting
    rw [chunked]
    apply Sequence.CursorAt.congr ?_ (same rid)
    exact cursors.stand rid ((same rid).prompting.mp prompting)

/-- A candidate that was fed before goes on with its cursor, since its prompt is not cut into chunks
again. -/
def Resumes (budget : IterationBudget) (slices : ρ → List (BatchRow ρ)) (st : Promotion ρ)
    (rid : ρ) (_ : Int) : Prop :=
  (st.scheduler.sequences rid).Prompting → slices rid = [] ∨
    (st.scheduler.chunkedPrefill.get? rid).isSome = true ∧
      st.scheduler.chunks budget (st.scheduler.totalLen rid) = false

instance (slices : ρ → List (BatchRow ρ)) (st : Promotion ρ) (rid : ρ) (chunk : Int) :
    Decidable (Resumes budget slices st rid chunk) :=
  inferInstanceAs (Decidable (_ → _))

structure Feeds (added : List ρ) (slices : ρ → List (BatchRow ρ)) (st : Promotion ρ) : Prop where
  waiting : ∀ rid ∈ st.scheduler.pendingIds, rid ∈ added
  cursors : st.scheduler.Cursors added slices
  ready : ∀ rid ∈ st.batch, st.scheduler.Ready (slices rid) rid

variable {added : List ρ} {slices : ρ → List (BatchRow ρ)}

theorem Feeds.withHeap {st : Promotion ρ} {entry : PendingEntry ρ}
    {heap : Array (PendingEntry ρ)} (feeds : Feeds added slices st)
    (popped : Heap.heappop PendingEntry.lt st.scheduler.pendingHeap = .ok (some (entry, heap))) :
    Feeds added slices (st.withHeap heap) ∧ entry.requestId ∈ added := by
  have perm := (Heap.heappop_perm popped).map PendingEntry.requestId
  constructor
  · refine ⟨fun rid member => feeds.waiting rid ?_, ⟨feeds.cursors.known, feeds.cursors.stand⟩,
      feeds.ready⟩
    exact perm.mem_iff.mpr (List.mem_cons_of_mem _ member)
  · exact feeds.waiting _ (perm.mem_iff.mpr (List.mem_cons_self ..))

theorem activate_sequences (s : BatchScheduler ρ) (budget : IterationBudget) (rid : ρ) :
    s.SameTokens (s.activate budget rid) :=
  setStatus_sameTokens s rid .prefilling

theorem activate_cursor (s : BatchScheduler ρ) (budget : IterationBudget) (rid other : ρ) :
    (s.activate budget rid).chunkedPrefill.get? other = s.chunkedPrefill.get? other ∨
      other = rid ∧ s.chunks budget (s.totalLen rid) = true ∧
        ∃ info, (s.activate budget rid).chunkedPrefill.get? rid = some info ∧
          info.tokensProcessed = 0 ∧
          info.totalPromptTokens = (s.totalLen rid : Int) - (s.sequences rid).prefixMatchLen := by
  change (s.startChunks budget rid).get? other = _ ∨ other = rid ∧ _ ∧
    ∃ info, (s.startChunks budget rid).get? rid = some info ∧ _
  unfold startChunks
  dsimp only
  split
  · next cut =>
    by_cases same : other = rid
    · exact Or.inr ⟨same, cut.1, _, by rw [Dict.get?_set_self], rfl, rfl⟩
    · left
      rw [Dict.get?_set, if_neg (Ne.symm same)]
  · exact Or.inl rfl

theorem consider_sameTokens (budget : IterationBudget) (decodeAdded : Nat) (st : Promotion ρ)
    (entry : PendingEntry ρ) :
    st.scheduler.SameTokens (st.consider budget decodeAdded entry).scheduler := by
  rcases consider_cases budget decodeAdded st entry with
    ⟨-, same⟩ | ⟨-, same⟩ | ⟨chunk, -, -, same⟩
  · rw [same]
    exact SameTokens.refl _
  · rw [same]
    exact SameTokens.refl _
  · rw [same]
    exact activate_sequences _ budget _

theorem Feeds.round {decodeAdded : Nat} {st : Promotion ρ} {entry : PendingEntry ρ}
    (feeds : Feeds added slices st) (known : entry.requestId ∈ added)
    (resumes : entry.requestId ∉ st.scheduler.active →
      ∀ chunk ∈ st.charge budget decodeAdded (st.scheduler.totalLen entry.requestId),
        Resumes budget slices st entry.requestId chunk) :
    Feeds added slices (st.consider budget decodeAdded entry) := by
  rcases consider_cases budget decodeAdded st entry with
    ⟨-, same⟩ | ⟨-, same⟩ | ⟨chunk, absent, charged, same⟩
  · rwa [same]
  · rw [same]
    exact ⟨feeds.waiting, feeds.cursors, feeds.ready⟩
  -- promoted: its cursor is kept or new, and the others keep theirs
  have goesOn := resumes absent chunk charged
  have tokens := st.scheduler.activate_sequences budget entry.requestId
  rw [same]
  constructor
  case waiting => exact feeds.waiting
  case cursors =>
    constructor
    case known =>
      intro rid chunked
      rcases st.scheduler.activate_cursor budget entry.requestId rid with kept | ⟨rfl, -⟩
      · rw [kept] at chunked
        exact feeds.cursors.known rid chunked
      · exact known
    case stand =>
      intro rid prompting
      have before := (tokens rid).samePrompt.prompting.mp prompting
      apply Sequence.CursorAt.congr ?_ (tokens rid).samePrompt
      rcases st.scheduler.activate_cursor budget entry.requestId rid with
        kept | ⟨rfl, cut, info, new, zero, total⟩
      · rw [kept]
        exact feeds.cursors.stand rid before
      · -- the prompt was not fed before, so the new cursor is at its start
        have unfed : slices entry.requestId = [] := by
          rcases goesOn before with unfed | ⟨-, whole⟩
          · exact unfed
          · rw [cut] at whole
            cases whole
        obtain ⟨unmatched, fresh⟩ := before
        intro info' found
        rw [new] at found
        cases found
        rw [unfed, zero, total]
        unfold totalLen Sequence.totalLen
        rw [fresh]
        exact ⟨rfl, by simp, unmatched⟩
  case ready =>
    intro rid member prompting
    have before := (tokens rid).samePrompt.prompting.mp prompting
    rcases st.scheduler.activate_cursor budget entry.requestId rid with
      kept | ⟨rfl, -, info, new, -⟩
    · rw [kept]
      rcases List.mem_append.mp member with old | new
      · exact feeds.ready rid old before
      · cases List.mem_singleton.mp new
        exact (goesOn before).imp_right And.left
    · right
      rw [new]
      rfl

/-! ### Building the batch -/

theorem row_requestId (s : BatchScheduler ρ) (budget : IterationBudget) (rid : ρ) :
    (s.row budget rid).requestId = rid :=
  (buildSeqTokens_frame budget s rid).2.2.1

variable {rids : List ρ}

theorem filter_rows (distinct : rids.Nodup) (rid : ρ) :
    (rids.map (s.row budget)).filter (fun row => decide (row.requestId = rid ∧ row.isPrefill)) =
      if rid ∈ rids ∧ (s.row budget rid).isPrefill then [s.row budget rid] else [] := by
  induction rids with
  | nil => simp
  | cons first rest ih =>
    rw [List.nodup_cons] at distinct
    rw [List.map_cons, List.filter_cons, ih distinct.2, row_requestId]
    by_cases same : first = rid
    · subst same
      simp [distinct.1]
    · simp [same, Ne.symm same]

theorem rows_feed (budget : IterationBudget) (distinct : rids.Nodup)
    (ready : ∀ rid ∈ rids, s.Ready (slices rid) rid) (cursors : s.Cursors added slices)
    (prompting : (s.sequences rid).Prompting)
    (so : Consecutive (s.sequences rid).promptTokens (s.sequences rid).prefixMatchLen
      ((slices rid).map BatchRow.slice)) :
    let out := buildBatchTensors budget rids s
    let rows := slices rid ++
      out.1.filter fun row => decide (row.requestId = rid ∧ row.isPrefill)
    Consecutive (s.sequences rid).promptTokens (s.sequences rid).prefixMatchLen
        (rows.map BatchRow.slice) ∧
      (s.sequences rid).CursorAt (out.2.chunkedPrefill.get? rid) rows ∧
      ∀ row ∈ out.1, row.requestId = rid → row ∈ rows := by
  dsimp only
  rw [buildBatchTensors_rows budget distinct, filter_rows distinct]
  by_cases member : rid ∈ rids
  · obtain ⟨prefill, offset, tokens, cursor⟩ :=
      (ready rid member).next budget prompting (cursors.stand rid prompting)
    rw [if_pos ⟨member, prefill⟩, List.map_append]
    refine ⟨so.append_one offset tokens, ?_, ?_⟩
    · rw [buildBatchTensors_cursor distinct s member]
      exact cursor
    · rintro _ listed rfl
      obtain ⟨other, -, rfl⟩ := List.mem_map.mp listed
      rw [row_requestId]
      exact List.mem_append_right _ (List.mem_singleton_self _)
  · rw [if_neg fun listed => member listed.1, List.append_nil]
    refine ⟨so, ?_, ?_⟩
    · obtain ⟨-, -, -, others⟩ := buildBatchTensors_frame budget rids s
      rw [(others rid member).2]
      exact cursors.stand rid prompting
    · rintro _ listed rfl
      obtain ⟨other, inside, rfl⟩ := List.mem_map.mp listed
      rw [row_requestId] at member
      exact absurd inside member

/-- The notes after a batch, as `issue` takes them. -/
def noteSlices (s : BatchScheduler ρ) (slices : ρ → List (BatchRow ρ))
    (batch : ScheduledBatch ρ) (rid : ρ) : List (BatchRow ρ) :=
  if (s.sequences rid).generatedTokens = [] then
    slices rid ++ batch.filter fun row => decide (row.requestId = rid ∧ row.isPrefill)
  else slices rid

/-- Every sequence was fed exactly up to now. -/
structure FedSoFar (added : List ρ) (slices : ρ → List (BatchRow ρ)) (s : BatchScheduler ρ) :
    Prop where
  unknown : ∀ rid, rid ∉ added → slices rid = []
  cursors : s.Cursors added slices
  fed : ∀ rid, (s.sequences rid).prefixMatchLen < (s.sequences rid).promptTokens.length →
    (s.sequences rid).FedExactly (slices rid)

theorem FedSoFar.congr (soFar : s.FedSoFar added slices)
    (same : ∀ rid, (s.sequences rid).SamePrompt (s'.sequences rid))
    (cursors : s'.Cursors added slices) : s'.FedSoFar added slices := by
  constructor
  case unknown => exact soFar.unknown
  case cursors => exact cursors
  case fed =>
    intro rid unmatched
    rw [(same rid).prompt, (same rid).matched] at unmatched
    exact (soFar.fed rid unmatched).congr (same rid)

theorem FedSoFar.tensors (budget : IterationBudget) (soFar : s.FedSoFar added slices)
    (distinct : rids.Nodup) (ready : ∀ rid ∈ rids, rid ∈ added ∧ s.Ready (slices rid) rid) :
    let out := buildBatchTensors budget rids s
    out.2.FedSoFar added (s.noteSlices slices out.1) ∧ ∀ row ∈ out.1,
      (s.sequences row.requestId).Prompting → row ∈ s.noteSlices slices out.1 row.requestId := by
  obtain ⟨-, tokens, ids, others⟩ := buildBatchTensors_frame budget rids s
  dsimp only at *
  have same := fun rid => (tokens rid).samePrompt
  -- the rows go on with the notes, and only a sequence without a token has its rows noted
  have fed := fun rid (prompting : (s.sequences rid).Prompting) =>
    rows_feed budget distinct (fun rid member => (ready rid member).2) soFar.cursors prompting
      (soFar.fed rid prompting.1).1
  have more : ∀ rid, (s.sequences rid).Prompting →
      s.noteSlices slices (buildBatchTensors budget rids s).1 rid = slices rid ++
        (buildBatchTensors budget rids s).1.filter
          fun row => decide (row.requestId = rid ∧ row.isPrefill) :=
    fun rid prompting => if_pos prompting.2
  refine ⟨?_, ?_⟩
  · constructor
    case unknown =>
      intro rid absent
      have nobody : (buildBatchTensors budget rids s).1.filter
          (fun row => decide (row.requestId = rid ∧ row.isPrefill)) = [] := by
        rw [List.filter_eq_nil_iff]
        intro row listed own
        rw [decide_eq_true_eq] at own
        have member : row.requestId ∈ rids := ids ▸ List.mem_map_of_mem listed
        exact absent (own.1 ▸ (ready row.requestId member).1)
      unfold noteSlices
      rw [nobody, soFar.unknown rid absent]
      exact ite_self []
    case cursors =>
      constructor
      · intro rid chunked
        by_cases member : rid ∈ rids
        · exact (ready rid member).1
        · rw [(others rid member).2] at chunked
          exact soFar.cursors.known rid chunked
      · intro rid prompting
        have before := (same rid).prompting.mp prompting
        rw [more rid before]
        exact (fed rid before).2.1.congr (same rid)
    case fed =>
      intro rid unmatched
      rw [(same rid).prompt, (same rid).matched] at unmatched
      refine Sequence.FedExactly.congr ?_ (same rid)
      by_cases fresh : (s.sequences rid).generatedTokens = []
      · rw [more rid ⟨unmatched, fresh⟩]
        have so := (fed rid ⟨unmatched, fresh⟩).1
        exact ⟨so, fun _ => so.flatMap_beginning, fun started => absurd fresh started⟩
      · have still : s.noteSlices slices (buildBatchTensors budget rids s).1 rid = slices rid :=
          if_neg fresh
        rw [still]
        exact soFar.fed rid unmatched
  · intro row listed prompting
    rw [more _ prompting]
    exact (fed _ prompting).2.2 row listed rfl

/-! ### The call -/

/-- The call feeds each sequence it chooses from where the sequence was fed before. -/
def FeedsOn (s : BatchScheduler ρ) (budget : IterationBudget) (slices : ρ → List (BatchRow ρ)) :
    Prop :=
  (∀ rid ∈ s.evictCompleted.2.decodes budget, s.evictCompleted.2.Ready (slices rid) rid) ∧
    EachPromoted (Resumes budget slices) s budget

instance (slices : ρ → List (BatchRow ρ)) : Decidable (s.FeedsOn budget slices) :=
  inferInstanceAs (Decidable (_ ∧ _))

theorem Cursors.build {victim : Option ρ} {out : Scheduled ρ} (known : s.KnownIds added)
    (cursors : s.Cursors added slices) (feedsOn : s.FeedsOn budget slices)
    (done : s.buildBatch budget victim = .ok out) :
    ∃ s', s.SameTokens s' ∧ s'.Cursors added slices ∧
      (out.batch = none ∧ out.scheduler = s' ∨ ∃ rids, rids.Nodup ∧
        (∀ rid ∈ rids, rid ∈ added ∧ s'.Ready (slices rid) rid) ∧
        out.batch = some (buildBatchTensors budget rids s').1 ∧
        out.scheduler = (buildBatchTensors budget rids s').2) := by
  have evicted : s.evictCompleted.2.Cursors added slices := by
    constructor
    case known =>
      intro rid chunked
      apply cursors.known rid
      simp only [evictCompleted, Dict.get?_filterKeys] at chunked
      split at chunked
      · exact chunked
      · cases chunked
    case stand =>
      intro rid prompting info found
      apply cursors.stand rid prompting info
      simp only [evictCompleted, Dict.get?_filterKeys] at found
      split at found
      · exact found
      · cases found
  -- before the promotions the batch has decodes, which are ready, and running chunks
  have start : Feeds added slices (s.promotionStart budget) ∧
      s.SameTokens (s.promotionStart budget).scheduler := by
    refine ⟨⟨known.pending, evicted, fun rid member => ?_⟩, SameTokens.refl s⟩
    rcases mem_buildActiveBatch.mp member with decode | chunk
    · exact feedsOn.1 rid decode
    · obtain ⟨-, info, found, -⟩ := mem_chunkCharges chunk
      intro _
      right
      change (s.evictCompleted.2.chunkedPrefill.get? rid).isSome = true
      rw [found]
      rfl
  obtain ⟨promoted, gone, built⟩ := buildBatch_built done
  obtain ⟨st, s', ⟨feeds, same⟩, after, -, result⟩ := buildBatch_rule
    (I := fun st => Feeds added slices st ∧ s.SameTokens st.scheduler) start
    (fun st entry heap so popped resumes => by
      obtain ⟨feeds, member⟩ := so.1.withHeap popped
      exact ⟨feeds.round member resumes,
        so.2.trans (consider_sameTokens budget _ (st.withHeap heap) entry)⟩)
    feedsOn.2 done
  have tokens : s.SameTokens s' := by
    rw [after]
    exact same
  have now : s'.Cursors added slices := by
    rw [after]
    exact ⟨feeds.cursors.known, feeds.cursors.stand⟩
  refine ⟨s', tokens, now, ?_⟩
  rcases result with ⟨-, none, scheduler⟩ | ⟨-, rids, perm, some, scheduler⟩
  · exact Or.inl ⟨none, scheduler⟩
  · obtain ⟨distinct, inside⟩ := built.batch_ids known.active some
    obtain ⟨-, -, ids, -⟩ := buildBatchTensors_frame budget rids s'
    rw [ids] at distinct inside
    refine Or.inr ⟨rids, distinct, fun rid member => ⟨?_, ?_⟩, some, scheduler⟩
    · exact (known.build built).activeAdded rid (inside rid member)
    · rw [after]
      exact feeds.ready rid (perm.mem_iff.mp member)

variable {out : Option ρ × BatchScheduler ρ} {kvCacheState : Option (List ρ)}

theorem preemptLowest_prompts {minPriority : Int}
    (done : s.preemptLowest minPriority kvCacheState = .ok out) :
    s.SameTokens out.2 ∧ out.2.chunkedPrefill = s.chunkedPrefill := by
  rcases preemptLowest_ok done with rfl | ⟨rid, heap, saved, member, pushed, rfl⟩
  · exact ⟨SameTokens.refl s, rfl⟩
  · exact ⟨setStatus_sameTokens s rid .pending, rfl⟩

theorem preemptIfNeeded_prompts {shouldPreempt : Bool}
    (done : s.preemptIfNeeded shouldPreempt = .ok out) :
    s.SameTokens out.2 ∧ out.2.chunkedPrefill = s.chunkedPrefill := by
  rcases preemptIfNeeded_ok done with rfl | preempted
  · exact ⟨SameTokens.refl s, rfl⟩
  · exact preemptLowest_prompts preempted

theorem promoteRequest_prompts {newPriority : Int} {out : Bool × BatchScheduler ρ}
    (done : s.promoteRequest rid newPriority = .ok out) :
    (∀ rid, (s.sequences rid).SamePrompt (out.2.sequences rid)) ∧
      out.2.chunkedPrefill = s.chunkedPrefill := by
  rcases promoteRequest_ok done with ⟨index, same⟩ | ⟨idx, inside, heap, -, same⟩
  · rw [same]
    exact ⟨fun _ => ⟨rfl, rfl, rfl⟩, rfl⟩
  · rw [same]
    refine ⟨fun other => ?_, rfl⟩
    by_cases own : other = (s.pendingHeap[idx]).requestId
    · rw [own]
      dsimp only
      rw [Function.update_self]
      exact ⟨rfl, rfl, rfl⟩
    · dsimp only
      rw [Function.update_of_ne own]
      exact ⟨rfl, rfl, rfl⟩

theorem restorePreempted_prompts {out : List ρ × BatchScheduler ρ}
    (done : s.restorePreempted kvCacheState = .ok out) :
    s.SameTokens out.2 ∧ out.2.chunkedPrefill = s.chunkedPrefill := by
  rcases restorePreempted_ok done with ⟨-, rfl⟩ | ⟨heap, saved, -, -, s', pushed, same⟩
  · exact ⟨SameTokens.refl s, rfl⟩
  · obtain ⟨frame, -⟩ := pushAll_ok pushed
    obtain ⟨restored, tokens, -, -⟩ :=
      foldl_restoreOne (s.restorable kvCacheState) s.preempted s
    rw [same, frame]
    refine ⟨tokens, ?_⟩
    dsimp only
    rw [restored]

end BatchScheduler

end DistLLM.Scheduler
