import DistLLM.Scheduler.Effects

/-!
# Building a batch

The two passes that choose the sequences of a batch, in closed form where they have one. The pass
over the active sequences takes the first decodes and then the running chunks until the prefill
budget is used up. The promotions move entries of the heap to the active set.
-/
namespace DistLLM.Scheduler

open DistLLM.Library

variable {ρ : Type} [LinearOrder ρ] (budget : IterationBudget) (items : List ρ) {rids keys : List ρ}
  {rid : ρ} (decodeAdded : Nat)

namespace BatchScheduler

variable {s s' : BatchScheduler ρ}

/-! ### The active sequences -/

theorem activeItems_perm (s : BatchScheduler ρ) : s.activeItems.Perm s.active :=
  List.perm_insertionSort _ _

variable (acc : ActiveBatch ρ)

omit [LinearOrder ρ] in
theorem foldl_takeDecode :
    let taken := (items.filter fun rid => (s.sequences rid).inFlight).take
      (min (budget.decodeSlots - acc.decodeAdded) acc.remainT).toNat
    items.foldl (s.takeDecode budget) acc =
      { acc with
        batch := acc.batch ++ taken
        decodeAdded := acc.decodeAdded + taken.length
        remainT := acc.remainT - taken.length } := by
  induction items generalizing acc with
  | nil => simp
  | cons rid rest ih =>
    rw [List.foldl_cons, ih]
    by_cases flying : (s.sequences rid).inFlight = true
    · have kept : (rid :: rest).filter (fun rid => (s.sequences rid).inFlight) =
          rid :: rest.filter fun rid => (s.sequences rid).inFlight := by
        simp [flying]
      -- both bounds count down with each decode, so the lesser of them says how many there are
      by_cases room : acc.decodeAdded < budget.decodeSlots ∧ 1 ≤ acc.remainT
      · have more : (min (budget.decodeSlots - acc.decodeAdded) acc.remainT).toNat =
            (min (budget.decodeSlots - (acc.decodeAdded + 1 : Nat))
              (acc.remainT - 1)).toNat + 1 := by
          omega
        have one : s.takeDecode budget acc rid = { acc with
            batch := acc.batch ++ [rid]
            decodeAdded := acc.decodeAdded + 1
            remainT := acc.remainT - 1 } := if_pos ⟨flying, room⟩
        simp only [one, kept, more, List.take_succ_cons, List.length_cons, List.append_assoc,
          List.singleton_append]
        congr 1
        · push_cast
          omega
        · omega
      · have nothing : (min (budget.decodeSlots - acc.decodeAdded) acc.remainT).toNat = 0 := by
          omega
        have one : s.takeDecode budget acc rid = acc := if_neg fun taken => room taken.2
        simp [one, nothing]
    · have one : s.takeDecode budget acc rid = acc := if_neg fun taken => flying taken.1
      simp [one, flying]

def decodes (s : BatchScheduler ρ) (budget : IterationBudget) : List ρ :=
  (s.activeItems.filter fun rid => (s.sequences rid).inFlight).take
    (min budget.decodeSlots budget.maxTotalTokens).toNat

/-- The running chunks that are taken, with what each is charged. -/
def chargeChunks (s : BatchScheduler ρ) (budget : IterationBudget) :
    List ρ → Int → List (ρ × Int)
  | [], _ => []
  | rid :: rest, remainP =>
    match s.chunkedPrefill.get? rid with
    | none => chargeChunks s budget rest remainP
    | some info =>
      if info.isComplete then chargeChunks s budget rest remainP
      else
        let chunk := min (min info.remaining budget.maxPrefillTokens) remainP
        (rid, chunk) ::
          if remainP - chunk ≤ 0 then [] else chargeChunks s budget rest (remainP - chunk)

def chunkCharges (s : BatchScheduler ρ) (budget : IterationBudget) : List (ρ × Int) :=
  if s.enableChunkedPrefill then s.chargeChunks budget s.activeItems budget.maxPrefillTokens
  else []

def charged (charges : List (ρ × Int)) : Int := (charges.map Prod.snd).sum

theorem takeChunks_eq :
    let charges := s.chargeChunks budget items acc.remainP
    s.takeChunks budget items acc =
      { acc with
        batch := (charges.map Prod.fst).foldl (fun batch rid => insertKey rid batch) acc.batch
        remainP := acc.remainP - charged charges
        remainT := acc.remainT - charged charges } := by
  induction items generalizing acc with
  | nil => simp [takeChunks, chargeChunks, charged]
  | cons rid rest ih =>
    unfold takeChunks chargeChunks
    cases s.chunkedPrefill.get? rid with
    | none => exact ih acc
    | some info =>
      dsimp only
      by_cases finished : info.isComplete = true
      · rw [if_pos finished, if_pos finished]
        exact ih acc
      · rw [if_neg finished, if_neg finished]
        -- the pass stops with the chunk that uses up the prefill budget
        split
        · simp [charged]
        · rw [ih]
          simp only [charged, List.map_cons, List.sum_cons, List.foldl_cons, sub_sub]

theorem buildActiveBatch_eq :
    s.buildActiveBatch budget =
      { batch := ((s.chunkCharges budget).map Prod.fst).foldl
          (fun batch rid => insertKey rid batch) (s.decodes budget)
        remainP := budget.maxPrefillTokens - charged (s.chunkCharges budget)
        remainT := budget.maxTotalTokens - (s.decodes budget).length -
          charged (s.chunkCharges budget)
        decodeAdded := (s.decodes budget).length } := by
  unfold buildActiveBatch chunkCharges
  dsimp only
  rw [foldl_takeDecode]
  split
  · rw [takeChunks_eq]
    simp [decodes]
  · simp [decodes, charged]

theorem nodup_foldl_insertKey (distinct : keys.Nodup) :
    (rids.foldl (fun keys rid => insertKey rid keys) keys).Nodup := by
  induction rids generalizing keys with
  | nil => exact distinct
  | cons rid rest ih => exact ih (nodup_insertKey distinct)

theorem mem_foldl_insertKey :
    rid ∈ rids.foldl (fun keys rid => insertKey rid keys) keys ↔ rid ∈ keys ∨ rid ∈ rids := by
  induction rids generalizing keys with
  | nil => simp
  | cons first rest ih =>
    rw [List.foldl_cons, ih, mem_insertKey, List.mem_cons, or_assoc]

theorem foldl_insertKey_perm (distinct : keys.Nodup) (once : rids.Nodup) :
    (rids.foldl (fun keys rid => insertKey rid keys) keys).Perm
      (keys.filter (fun rid => decide (rid ∉ rids)) ++ rids) := by
  -- neither side has a key twice, so it is enough that both have the same keys
  have apart : (keys.filter fun rid => decide (rid ∉ rids)).Disjoint rids := by
    intro rid kept listed
    simpa [listed] using (List.mem_filter.mp kept).2
  refine (List.perm_ext_iff_of_nodup (nodup_foldl_insertKey distinct)
    (List.nodup_append'.mpr ⟨distinct.filter _, once, apart⟩)).mpr fun rid => ?_
  rw [mem_foldl_insertKey, List.mem_append, List.mem_filter, decide_eq_true_eq]
  by_cases listed : rid ∈ rids <;> simp [listed]

theorem chargeChunks_sublist (remainP : Int) :
    ((s.chargeChunks budget items remainP).map Prod.fst).Sublist items := by
  induction items generalizing remainP with
  | nil => exact List.Sublist.refl _
  | cons rid rest ih =>
    unfold chargeChunks
    split
    · exact (ih remainP).cons rid
    · split
      · exact (ih remainP).cons rid
      · rw [List.map_cons]
        refine List.Sublist.cons_cons rid ?_
        split
        · exact List.nil_sublist rest
        · exact ih _

theorem charged_chargeChunks_le {remainP : Int}
    (nonneg : 0 ≤ remainP) : charged (s.chargeChunks budget items remainP) ≤ remainP := by
  induction items generalizing remainP with
  | nil => exact nonneg
  | cons rid rest ih =>
    unfold chargeChunks
    split
    · exact ih nonneg
    next info found =>
      dsimp only
      split
      · exact ih nonneg
      · simp only [charged, List.map_cons, List.sum_cons]
        split
        · simp
        -- what the later chunks are charged is left over by this one
        · next left =>
          have tail := ih (not_le.mp left).le
          unfold charged at tail
          omega

theorem mem_chargeChunks {budget : IterationBudget} {items : List ρ} {remainP : Int}
    (member : rid ∈ (s.chargeChunks budget items remainP).map Prod.fst) :
    rid ∈ items ∧ ∃ info, s.chunkedPrefill.get? rid = some info ∧ info.isComplete = false := by
  induction items generalizing remainP with
  | nil => cases member
  | cons first rest ih =>
    unfold chargeChunks at member
    cases found : s.chunkedPrefill.get? first with
    | none =>
      rw [found] at member
      exact (ih member).imp_left (List.mem_cons_of_mem _)
    | some info =>
      rw [found] at member
      dsimp only at member
      split at member
      · exact (ih member).imp_left (List.mem_cons_of_mem _)
      next running =>
      rw [List.map_cons, List.mem_cons] at member
      rcases member with rfl | later
      · exact ⟨List.mem_cons_self .., info, found, Bool.eq_false_iff.mpr running⟩
      · split at later
        · cases later
        · exact (ih later).imp_left (List.mem_cons_of_mem _)

theorem mem_chunkCharges {budget : IterationBudget}
    (member : rid ∈ (s.chunkCharges budget).map Prod.fst) :
    rid ∈ s.active ∧ ∃ info, s.chunkedPrefill.get? rid = some info ∧ info.isComplete = false := by
  unfold chunkCharges at member
  split at member
  · exact (mem_chargeChunks member).imp_left (s.activeItems_perm.mem_iff).mp
  · cases member

theorem mem_decodes {budget : IterationBudget} (member : rid ∈ s.decodes budget) :
    rid ∈ s.active ∧ (s.sequences rid).inFlight = true := by
  have kept := List.mem_filter.mp (List.mem_of_mem_take member)
  exact ⟨s.activeItems_perm.mem_iff.mp kept.1, kept.2⟩

theorem mem_buildActiveBatch {budget : IterationBudget} : rid ∈ (s.buildActiveBatch budget).batch ↔
      rid ∈ s.decodes budget ∨ rid ∈ (s.chunkCharges budget).map Prod.fst := by
  rw [buildActiveBatch_eq]
  exact mem_foldl_insertKey

theorem buildActiveBatch_ids (distinct : s.active.Nodup) : (s.buildActiveBatch budget).batch.Nodup ∧
      ∀ rid ∈ (s.buildActiveBatch budget).batch, rid ∈ s.active := by
  constructor
  · rw [buildActiveBatch_eq]
    apply nodup_foldl_insertKey
    exact ((s.activeItems_perm.nodup_iff.mpr distinct).filter _).sublist (List.take_sublist _ _)
  · intro rid member
    rcases mem_buildActiveBatch.mp member with decode | chunk
    · exact (mem_decodes decode).1
    · exact (mem_chunkCharges chunk).1

/-! ### The promotions -/

/-- The candidate of the next round, and the state without it in the heap. -/
def Promotion.next (maxExamine : Int) (st : Promotion ρ) :
    Option (PendingEntry ρ × Promotion ρ) :=
  if ((st.batch.length + st.rejected.length : Nat) : Int) < maxExamine then
    match Heap.heappop PendingEntry.lt st.scheduler.pendingHeap with
    | .ok (some (entry, heap)) => some (entry, st.withHeap heap)
    | _ => none
  else none

/-- Every candidate that the loop promotes satisfies `ok`, with the state in which it is taken
and its charge. -/
def EachPromotion (ok : Promotion ρ → ρ → Int → Prop) (budget : IterationBudget)
    (decodeAdded : Nat) (maxExamine : Int) : Nat → Promotion ρ → Prop
  | 0, _ => True
  | rounds + 1, st => ∀ next ∈ st.next maxExamine,
    (next.1.requestId ∉ next.2.scheduler.active →
      ∀ chunk ∈ next.2.charge budget decodeAdded (next.2.scheduler.totalLen next.1.requestId),
        ok next.2 next.1.requestId chunk) ∧
    EachPromotion ok budget decodeAdded maxExamine rounds
      (next.2.consider budget decodeAdded next.1)

instance EachPromotion.decidable {ok : Promotion ρ → ρ → Int → Prop}
    [∀ st rid chunk, Decidable (ok st rid chunk)] (budget : IterationBudget) (decodeAdded : Nat)
    (maxExamine : Int) :
    ∀ rounds st, Decidable (EachPromotion ok budget decodeAdded maxExamine rounds st)
  | 0, _ => .isTrue trivial
  | rounds + 1, st =>
    have : ∀ st, Decidable (EachPromotion ok budget decodeAdded maxExamine rounds st) :=
      EachPromotion.decidable budget decodeAdded maxExamine rounds
    inferInstanceAs (Decidable (∀ next ∈ st.next maxExamine, _ ∧ _))

theorem eachPromotion_true (maxExamine : Int) (rounds : Nat) (st : Promotion ρ) :
    EachPromotion (fun _ _ _ => True) budget decodeAdded maxExamine rounds st := by
  induction rounds generalizing st with
  | zero => trivial
  | succ rounds ih => exact fun next _ => ⟨fun _ _ _ => trivial, ih _⟩

variable {ok : Promotion ρ → ρ → Int → Prop}

theorem promoteLoop_rule {budget : IterationBudget} {decodeAdded : Nat} {maxExamine : Int}
    {I : Promotion ρ → Prop}
    (round : ∀ st entry heap, I st →
      Heap.heappop PendingEntry.lt st.scheduler.pendingHeap = .ok (some (entry, heap)) →
      (entry.requestId ∉ st.scheduler.active →
        ∀ chunk ∈ (st.withHeap heap).charge budget decodeAdded
          (st.scheduler.totalLen entry.requestId), ok (st.withHeap heap) entry.requestId chunk) →
      I ((st.withHeap heap).consider budget decodeAdded entry)) {rounds : Nat}
    {st st' : Promotion ρ} (start : I st)
    (allowed : EachPromotion ok budget decodeAdded maxExamine rounds st)
    (done : promoteLoop budget decodeAdded maxExamine rounds st = .ok st') : I st' := by
  induction rounds generalizing st with
  | zero =>
    cases done
    exact start
  | succ rounds ih =>
    unfold promoteLoop at done
    split at done
    next room =>
      split at done
      · cases done
      · cases done
        exact start
      · next entry heap popped =>
        -- the round that the condition speaks of is the one the loop makes
        have next : st.next maxExamine = some (entry, st.withHeap heap) := by
          unfold Promotion.next
          rw [if_pos room, popped]
        obtain ⟨taken, later⟩ := allowed _ next
        exact ih (round st entry heap start popped taken) later done
    next =>
      cases done
      exact start

/-- How far the loop has come: `promoted` are active now, `gone` are the entries that left the
heap for good, because their sequence was promoted or was active before. -/
structure Promoting (s : BatchScheduler ρ) (chosen promoted : List ρ)
    (gone : List (PendingEntry ρ)) (st : Promotion ρ) : Prop where
  batch : st.batch = chosen ++ promoted
  active : st.scheduler.active = s.active ++ promoted
  distinct : promoted.Nodup
  fresh : ∀ rid ∈ promoted, rid ∉ s.active
  heap : s.pendingHeap.toList.Perm (gone ++ (st.rejected ++ st.scheduler.pendingHeap.toList))
  goneActive : ∀ e ∈ gone, e.requestId ∈ st.scheduler.active
  promotedGone : ∀ rid ∈ promoted, ∃ e ∈ gone, e.requestId = rid
  sameTokens : s.SameTokens st.scheduler
  totalTokens : st.scheduler.totalTokens = s.totalTokens + (promoted.map s.totalLen).sum
  frame : st.scheduler = { s with
    sequences := st.scheduler.sequences
    pendingHeap := st.scheduler.pendingHeap
    active := st.scheduler.active
    totalTokens := st.scheduler.totalTokens
    pagedAttention := st.scheduler.pagedAttention
    chunkedPrefill := st.scheduler.chunkedPrefill }

omit [LinearOrder ρ] in
theorem promoting_start (s : BatchScheduler ρ) (budget : IterationBudget) (acc : ActiveBatch ρ) :
    Promoting s acc.batch [] [] (Promotion.start s budget acc) where
  batch := (List.append_nil _).symm
  active := (List.append_nil _).symm
  distinct := List.nodup_nil
  fresh _ member := by cases member
  heap := List.Perm.refl _
  goneActive _ member := by cases member
  promotedGone _ member := by cases member
  sameTokens := SameTokens.refl s
  totalTokens := by simp [Promotion.start]
  frame := rfl

theorem Promoting.round {budget : IterationBudget} {decodeAdded : Nat} {chosen promoted : List ρ}
    {gone : List (PendingEntry ρ)} {st : Promotion ρ} {entry : PendingEntry ρ}
    {heap : Array (PendingEntry ρ)} (so : Promoting s chosen promoted gone st)
    (popped : Heap.heappop PendingEntry.lt st.scheduler.pendingHeap = .ok (some (entry, heap))) :
    ∃ promoted' gone', Promoting s chosen promoted' gone'
      ((st.withHeap heap).consider budget decodeAdded entry) := by
  have taken := Heap.heappop_perm popped
  -- the entry has left the heap, and is not yet anywhere else
  -- without the entry
  have left : s.pendingHeap.toList.Perm (gone ++ (st.rejected ++ entry :: heap.toList)) :=
    so.heap.trans ((taken.append_left _).append_left _)
  have frame : (st.withHeap heap).scheduler = { s with
      sequences := st.scheduler.sequences
      pendingHeap := heap
      active := st.scheduler.active
      totalTokens := st.scheduler.totalTokens
      pagedAttention := st.scheduler.pagedAttention
      chunkedPrefill := st.scheduler.chunkedPrefill } := by
    rw [Promotion.withHeap, so.frame]
  rcases consider_cases budget decodeAdded (st.withHeap heap) entry with
    ⟨present, same⟩ | ⟨absent, same⟩ | ⟨chunk, absent, charged, same⟩
  · -- it was active before
    refine ⟨promoted, entry :: gone, ?_⟩
    rw [same]
    refine { so with heap := ?_, goneActive := ?_, promotedGone := ?_, frame := frame }
    · refine left.trans ?_
      rw [List.cons_append]
      exact (List.perm_middle.append_left gone).trans List.perm_middle
    · intro e member
      rcases List.mem_cons.mp member with rfl | before
      · exact present
      · exact so.goneActive e before
    · intro rid member
      obtain ⟨e, before, own⟩ := so.promotedGone rid member
      exact ⟨e, List.mem_cons_of_mem _ before, own⟩
  · -- it is rejected
    refine ⟨promoted, gone, ?_⟩
    rw [same]
    refine { so with heap := ?_, frame := frame }
    refine left.trans (List.Perm.append_left gone ?_)
    rw [List.append_assoc]
    rfl
  · -- it is promoted
    refine ⟨promoted ++ [entry.requestId], entry :: gone, ?_⟩
    rw [same]
    -- it was not active, so it was not promoted in an earlier round either
    have absent' : entry.requestId ∉ st.scheduler.active := absent
    have notBefore := so.active ▸ absent'
    rw [List.mem_append, not_or] at notBefore
    have active : ((st.withHeap heap).scheduler.activate budget entry.requestId).active =
        st.scheduler.active ++ [entry.requestId] := insertKey_of_notMem absent'
    refine ⟨?_, ?_, ?_, ?_, ?_, ?_, ?_, ?_, ?_, ?_⟩
    · dsimp only
      rw [← List.append_assoc, ← so.batch]
      rfl
    · dsimp only
      rw [active, so.active, List.append_assoc]
    · exact so.distinct.append (List.nodup_singleton _) (by simpa using notBefore.2)
    · intro rid member
      rcases List.mem_append.mp member with before | new
      · exact so.fresh rid before
      · exact List.mem_singleton.mp new ▸ notBefore.1
    · refine left.trans ?_
      rw [List.cons_append]
      exact (List.perm_middle.append_left gone).trans List.perm_middle
    · intro e member
      dsimp only
      rw [active, List.mem_append, List.mem_singleton]
      rcases List.mem_cons.mp member with rfl | before
      · exact Or.inr rfl
      · exact Or.inl (so.goneActive e before)
    · intro rid member
      rcases List.mem_append.mp member with before | new
      · obtain ⟨e, known, own⟩ := so.promotedGone rid before
        exact ⟨e, List.mem_cons_of_mem _ known, own⟩
      · exact ⟨entry, List.mem_cons_self .., (List.mem_singleton.mp new).symm⟩
    · exact so.sameTokens.trans
        (setStatus_sameTokens (st.withHeap heap).scheduler entry.requestId .prefilling)
    · have len : st.scheduler.totalLen entry.requestId = s.totalLen entry.requestId :=
        so.sameTokens.totalLen entry.requestId
      have total : ((st.withHeap heap).scheduler.activate budget entry.requestId).totalTokens =
          st.scheduler.totalTokens + st.scheduler.totalLen entry.requestId := rfl
      dsimp only
      rw [total, so.totalTokens, len, List.map_append, List.sum_append]
      simp [add_assoc]
    · dsimp only [activate, setStatus]
      rw [frame]

/-! ### The call -/

/-- What a call did, from the eviction on. -/
structure Built (s : BatchScheduler ρ) (budget : IterationBudget) (promoted : List ρ)
    (gone : List (PendingEntry ρ)) (out : Scheduled ρ) : Prop where
  evicted : out.evicted = s.active.filter s.isComplete
  active : out.scheduler.active = (s.active.filter fun rid => !s.isComplete rid) ++ promoted
  distinct : promoted.Nodup
  fresh : ∀ rid ∈ promoted, rid ∉ s.active.filter fun rid => !s.isComplete rid
  heap : s.pendingHeap.toList.Perm (gone ++ out.scheduler.pendingHeap.toList)
  goneActive : ∀ e ∈ gone, e.requestId ∈ out.scheduler.active
  promotedGone : ∀ rid ∈ promoted, ∃ e ∈ gone, e.requestId = rid
  sameTokens : s.SameTokens out.scheduler
  totalTokens : out.scheduler.totalTokens =
    s.totalTokens - ((s.active.filter s.isComplete).map s.totalLen).sum +
      (promoted.map s.totalLen).sum
  frame : out.scheduler = { s with
    sequences := out.scheduler.sequences
    pendingHeap := out.scheduler.pendingHeap
    pendingIndex := out.scheduler.pendingIndex
    active := out.scheduler.active
    totalTokens := out.scheduler.totalTokens
    chunkedPrefill := out.scheduler.chunkedPrefill
    latencyTracker := out.scheduler.latencyTracker
    pagedAttention := out.scheduler.pagedAttention }
  ids : ∀ batch ∈ out.batch, batch.requestIds.Perm
    ((s.evictCompleted.2.buildActiveBatch budget).batch ++ promoted)

/-- The state in which the promotions of a call start. -/
def promotionStart (s : BatchScheduler ρ) (budget : IterationBudget) : Promotion ρ :=
  Promotion.start s.evictCompleted.2 budget (s.evictCompleted.2.buildActiveBatch budget)

def EachPromoted (ok : Promotion ρ → ρ → Int → Prop) (s : BatchScheduler ρ)
    (budget : IterationBudget) : Prop :=
  let acc := s.evictCompleted.2.buildActiveBatch budget
  EachPromotion ok budget acc.decodeAdded
    (max ((budget.maxBatchSize - acc.batch.length) * 2) 10) s.pendingHeap.size
    (s.promotionStart budget)

instance EachPromoted.decidable {ok : Promotion ρ → ρ → Int → Prop}
    [∀ st rid chunk, Decidable (ok st rid chunk)] (s : BatchScheduler ρ)
    (budget : IterationBudget) : Decidable (EachPromoted ok s budget) :=
  EachPromotion.decidable ..

theorem eachPromoted_true (s : BatchScheduler ρ) (budget : IterationBudget) :
    EachPromoted (fun _ _ _ => True) s budget :=
  eachPromotion_true ..

theorem buildBatch_rule {I : Promotion ρ → Prop} {budget : IterationBudget} {victim : Option ρ}
    {out : Scheduled ρ} (start : I (s.promotionStart budget))
    (round : ∀ st entry heap, I st →
      Heap.heappop PendingEntry.lt st.scheduler.pendingHeap = .ok (some (entry, heap)) →
      (entry.requestId ∉ st.scheduler.active →
        ∀ chunk ∈ (st.withHeap heap).charge budget
            (s.evictCompleted.2.buildActiveBatch budget).decodeAdded
            (st.scheduler.totalLen entry.requestId),
          ok (st.withHeap heap) entry.requestId chunk) →
      I ((st.withHeap heap).consider budget
        (s.evictCompleted.2.buildActiveBatch budget).decodeAdded entry))
    (allowed : EachPromoted ok s budget) (done : s.buildBatch budget victim = .ok out) :
    ∃ st s', I st ∧
      s' = { st.scheduler with pendingHeap := s'.pendingHeap, pendingIndex := none } ∧
      s'.pendingHeap.toList.Perm (st.rejected ++ st.scheduler.pendingHeap.toList) ∧
      (st.batch = [] ∧ out.batch = none ∧ out.scheduler = s' ∨
        st.batch ≠ [] ∧ ∃ batch, batch.Perm st.batch ∧
          out.batch = some (buildBatchTensors budget batch s').1 ∧
          out.scheduler = (buildBatchTensors budget batch s').2) := by
  obtain ⟨ids, s', promotes, -, -, result⟩ := buildBatch_ok done
  obtain ⟨st, looped, ids_eq, s1, pushed, after⟩ := promotePending_ok promotes
  obtain ⟨frame, perm⟩ := pushAll_ok pushed
  dsimp only at ids_eq after
  refine ⟨st, s', promoteLoop_rule round start allowed looped, ?_, ?_, ids_eq ▸ result⟩
  · rw [after, frame]
  · rw [after]
    exact perm

theorem buildBatch_built {budget : IterationBudget} {victim : Option ρ} {out : Scheduled ρ}
    (done : s.buildBatch budget victim = .ok out) :
    ∃ promoted gone, Built s budget promoted gone out := by
  obtain ⟨-, -, -, evicted, -, -⟩ := buildBatch_ok done
  obtain ⟨st, s', ⟨promoted, gone, promoting⟩, after, perm, result⟩ :=
    buildBatch_rule
      (I := fun st => ∃ promoted gone, Promoting s.evictCompleted.2
        (s.evictCompleted.2.buildActiveBatch budget).batch promoted gone st)
      ⟨[], [], promoting_start ..⟩
      (fun st entry heap so popped _ => by
        obtain ⟨promoted, gone, promoting⟩ := so
        exact promoting.round popped)
      (eachPromoted_true s budget) done
  -- the rows change statuses and chunk cursors only
  have rows : out.scheduler = { s' with
        sequences := out.scheduler.sequences
        chunkedPrefill := out.scheduler.chunkedPrefill } ∧
      s'.SameTokens out.scheduler ∧
      ∀ batch ∈ out.batch, batch.requestIds.Perm st.batch := by
    rcases result with ⟨empty, none, same⟩ | ⟨-, batch, grouped, some, same⟩
    · rw [same, none]
      exact ⟨rfl, SameTokens.refl s', fun _ absurd => by cases absurd⟩
    · obtain ⟨frame, sameTokens, own, -⟩ := buildBatchTensors_frame budget batch s'
      rw [same, some]
      refine ⟨frame, sameTokens, ?_⟩
      rintro _ ⟨⟩
      rw [own]
      exact grouped
  obtain ⟨frame, sameTokens, requestIds⟩ := rows
  -- nor does the return of the rejected entries touch what the promotions left
  have active : out.scheduler.active = st.scheduler.active := by rw [frame, after]
  have heap : out.scheduler.pendingHeap = s'.pendingHeap := by rw [frame]
  have promotedTokens : st.scheduler.SameTokens s' := by
    rw [after]
    exact SameTokens.refl _
  refine ⟨promoted, gone, ?_⟩
  constructor
  case evicted => exact evicted
  case active => rw [active, promoting.active]; rfl
  case distinct => exact promoting.distinct
  case fresh => exact promoting.fresh
  case heap =>
    rw [heap]
    exact promoting.heap.trans (perm.symm.append_left gone)
  case goneActive =>
    rw [active]
    exact promoting.goneActive
  case promotedGone => exact promoting.promotedGone
  case sameTokens => exact (promoting.sameTokens.trans promotedTokens).trans sameTokens
  case totalTokens =>
    have total : out.scheduler.totalTokens = st.scheduler.totalTokens := by rw [frame, after]
    rw [total, promoting.totalTokens]
    rfl
  case frame =>
    rw [frame, after, promoting.frame]
    rfl
  case ids =>
    intro batch member
    rw [← promoting.batch]
    exact requestIds batch member

end BatchScheduler

end DistLLM.Scheduler
