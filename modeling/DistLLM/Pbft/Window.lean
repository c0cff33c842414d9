import DistLLM.Pbft.Order
import DistLLM.Pbft.Quiescence

/-!
# The sequence window

The low watermark is the lowest number ever committed, which is the first one, so it goes to one
and stays there: the window is over once its 128 numbers above the first are used. A new primary
counts its requests from its own counter, which knows nothing of the requests of others. So the
next request gets a number of its own exactly as long as one node proposes all requests and they
are not too many.
-/
namespace DistLLM.Pbft

open DistLLM.Library PBFTNode

variable {ι Op PK SK Sig : Type}

section Specification

variable [LinearOrder ι]

variable (c : Cluster ι Op PK SK Sig) (s : Network ι Op PK SK Sig)

def CommittedByAll (r : PBFTMessage ι Op Sig) : Prop :=
  ∀ i ∈ c.members, i ∉ c.byzantine →
    ∃ rec ∈ (s.nodes i).commits, rec.sequence = r.sequence ∧ rec.digest = r.digest

instance (c : Cluster ι Op PK SK Sig) (s : Network ι Op PK SK Sig) (r : PBFTMessage ι Op Sig) :
    Decidable (CommittedByAll c s r) :=
  inferInstanceAs (Decidable (∀ i ∈ c.members, i ∉ c.byzantine → _))

/-- A request is taken up only after all earlier ones are committed by everybody. -/
def Sequential :
    NetAction ι Op Sig → Prop
  | .request i _ => (s.nodes i).TakesRequest → ∀ r ∈ s.requests, CommittedByAll c s r
  | _ => True

instance (c : Cluster ι Op PK SK Sig) (s : Network ι Op PK SK Sig) : DecidablePred (Sequential c s)
  | .request _ _ => inferInstanceAs (Decidable (_ → _))
  | .startViewChange _ | .deliver _ _ => .isTrue trivial

/-- No live node has signed a message with the number. -/
def Unused (q : Int) : Prop :=
  ∀ i, c.Honest i → ∀ view digest, .message i view q digest ∉ (s.nodes i).signed

/-- The next request is accepted, under a number never used before. -/
def AcceptsNext (i : ι) (operation : Op) : Prop :=
  ∃ msg, ((s.nodes i).handleRequest c.primitives operation).1 = some msg ∧
    Unused c s msg.sequence

/-- The watermark of a live node has not passed a request that the node has not committed. -/
def PassesOnlyCommitted : Prop :=
  ∀ i, c.Honest i → ∀ r ∈ s.requests, r.sequence < (s.nodes i).lowWatermark →
    r.sequence ∈ (s.nodes i).committedSequences

/-- An operation that a live node committed is still listed, if it counts as true. -/
def ListsCommitted : Prop :=
  ∀ i, c.Honest i → ∀ rec ∈ (s.nodes i).commits, ∀ op, rec.operation = some op →
    ((rec.sequence, op) ∈ (s.nodes i).getCommittedOperations c.primitives ↔
      c.primitives.truthy op = true)

def WatermarksRise (s s' : Network ι Op PK SK Sig) : Prop :=
  ∀ i, c.Honest i → (s.nodes i).lowWatermark ≤ (s'.nodes i).lowWatermark

/-- The node that takes up a request has proposed all the earlier ones. -/
def SameProposer : NetAction ι Op Sig → Prop
  | .request i _ => (s.nodes i).TakesRequest → ∀ r ∈ s.requests, r.sender = i
  | _ => True

instance (s : Network ι Op PK SK Sig) : DecidablePred (SameProposer s)
  | .request _ _ => inferInstanceAs (Decidable (_ → _))
  | .startViewChange _ | .deliver _ _ => .isTrue trivial

end Specification

def InUse (K q : Int) : Prop := 1 ≤ q ∧ q ≤ K

/-- The entries of a view-change log or a checkpoint are about their own numbers, all in use. -/
def LogInUse (K : Int) (log : List (Int × PBFTMessage ι Op Sig)) : Prop :=
  ∀ e ∈ log, e.2.sequence = e.1 ∧ InUse K e.1

/-- A message mentions only numbers in use. -/
def Input.InUse (K : Int) : Input ι Op Sig → Prop
  | .prePrepare x | .prepare x | .commit x => Pbft.InUse K x.sequence
  | .viewChange message => LogInUse K message.prePrepareLog
  | .newView message => LogInUse K message.checkpoint.prePrepareLog
  | .request _ | .startViewChange => False

/-- A node mentions only numbers in use, its watermark stands at the first of them once it has
committed any, and it still has the operations it committed. -/
structure Windowed (K : Int) (n : PBFTNode ι Op PK SK Sig) : Prop where
  entries : ∀ q pp, n.prePrepareLog.get? q = some pp → pp.sequence = q ∧ InUse K q
  prepares : ∀ q, ∀ x ∈ n.prepareLog.getD q [], x.sequence = q ∧ InUse K q
  commits : ∀ q, ∀ x ∈ n.commitLog.getD q [], x.sequence = q ∧ InUse K q
  committed : ∀ q ∈ n.committedSequences, InUse K q
  signed : ∀ j view q digest, .message j view q digest ∈ n.signed → InUse K q
  piles : ∀ view, ∀ x ∈ n.viewChangeMessages.getD view [], LogInUse K x.prePrepareLog
  views : ∀ view x, n.newViewMessages.get? view = some x → LogInUse K x.checkpoint.prePrepareLog
  low : n.lowWatermark = if n.committedSequences = ∅ then 0 else 1
  first : n.committedSequences.Nonempty → 1 ∈ n.committedSequences
  records : ∀ rec ∈ n.commits, rec.sequence ∈ n.committedSequences
  retained : ∀ rec ∈ n.commits, ∀ op, rec.operation = some op →
    ∃ pp, n.prePrepareLog.get? rec.sequence = some pp ∧ pp.operation = some op

theorem InUse.mono {K K' q : Int} (more : K ≤ K') (used : InUse K q) : InUse K' q :=
  ⟨used.1, used.2.trans more⟩

theorem LogInUse.mono {K K' : Int} (more : K ≤ K') {log : List (Int × PBFTMessage ι Op Sig)}
    (used : LogInUse K log) : LogInUse K' log :=
  fun e member => ⟨(used e member).1, (used e member).2.mono more⟩

theorem Input.InUse.mono {K K' : Int} (more : K ≤ K') {x : Input ι Op Sig} (used : x.InUse K) :
    x.InUse K' := by
  cases x with
  | prePrepare x => exact Pbft.InUse.mono more used
  | prepare x => exact Pbft.InUse.mono more used
  | commit x => exact Pbft.InUse.mono more used
  | viewChange x => exact LogInUse.mono more used
  | newView x => exact LogInUse.mono more used
  | _ => exact used.elim

namespace Windowed

variable {K K' : Int} {n : PBFTNode ι Op PK SK Sig}

theorem mono (inv : Windowed K n) (more : K ≤ K') : Windowed K' n :=
  { inv with
    entries := fun q pp found => (inv.entries q pp found).imp_right (·.mono more)
    prepares := fun q x logged => (inv.prepares q x logged).imp_right (·.mono more)
    commits := fun q x logged => (inv.commits q x logged).imp_right (·.mono more)
    committed := fun q done => (inv.committed q done).mono more
    signed := fun j view q digest made => (inv.signed j view q digest made).mono more
    piles := fun view x member => (inv.piles view x member).mono more
    views := fun view x found => (inv.views view x found).mono more }

theorem of_fresh (fresh : n.Fresh) : Windowed 0 n := by
  constructor
  case entries =>
    intro q pp found
    rw [fresh.prePrepareLog] at found
    cases found
  case prepares =>
    intro q x logged
    rw [fresh.prepareLog] at logged
    cases logged
  case commits =>
    intro q x logged
    rw [fresh.commitLog] at logged
    cases logged
  case committed => simp [fresh.committedSequences]
  case signed => simp [fresh.signed]
  case piles =>
    intro view x member
    rw [fresh.viewChangeMessages] at member
    cases member
  case views =>
    intro view x found
    rw [fresh.newViewMessages] at found
    cases found
  case low => simp [fresh.lowWatermark, fresh.committedSequences]
  case first => simp [fresh.committedSequences]
  case records => simp [fresh.commits]
  case retained => simp [fresh.commits]

theorem inUse_of_posts (inv : Windowed K n) {x : Input ι Op Sig} (posts : n.Posts x) :
    x.InUse K := by
  cases x with
  | prePrepare x =>
    obtain ⟨_, q, found⟩ := posts
    obtain ⟨same, used⟩ := inv.entries q x found
    subst same
    exact used
  | prepare x =>
    obtain ⟨_, q, logged⟩ := posts
    obtain ⟨same, used⟩ := inv.prepares q x logged
    subst same
    exact used
  | commit x =>
    obtain ⟨_, q, logged⟩ := posts
    obtain ⟨same, used⟩ := inv.commits q x logged
    subst same
    exact used
  | viewChange x =>
    obtain ⟨_, view, member⟩ := posts
    exact inv.piles view x member
  | newView x =>
    obtain ⟨_, view, found⟩ := posts
    exact inv.views view x found
  | _ => exact posts.elim

/-! ### Changes that the handlers share -/

section

variable (inv : Windowed K n)

include inv

theorem signing (payload : Payload ι)
    (used : ∀ j view q digest, payload = .message j view q digest → InUse K q) :
    Windowed K (n.signing payload) := by
  refine { inv with signed := ?_ }
  intro j view q digest made
  rcases List.mem_append.mp made with old | new
  · exact inv.signed j view q digest old
  · exact used j view q digest (List.mem_singleton.mp new).symm

theorem accepting (view q : Int) (pp : PBFTMessage ι Op Sig) (own : pp.sequence = q)
    (used : InUse K q) (fresh : n.prePrepareLog.get? q = none ∨ q ∉ n.committedSequences) :
    Windowed K (n.accepting view q pp) := by
  have lookup : ∀ q', (n.accepting view q pp).prePrepareLog.get? q' =
      if q = q' then some pp else n.prePrepareLog.get? q' := fun q' => Dict.get?_set ..
  refine { inv with entries := ?_, signed := ?_, retained := ?_ }
  · intro q' pp' found
    rw [lookup] at found
    split at found
    · next same =>
      subst same
      cases found
      exact ⟨own, used⟩
    · exact inv.entries q' pp' found
  · intro j view' q' digest made
    rcases List.mem_append.mp made with old | new
    · exact inv.signed j view' q' digest old
    · cases List.mem_singleton.mp new
      exact used
  · intro rec member op operation
    obtain ⟨pp', found, kept⟩ := inv.retained rec member op operation
    refine ⟨pp', ?_, kept⟩
    rw [lookup, if_neg]
    · exact found
    · rintro rfl
      rcases fresh with absent | uncommitted
      · rw [absent] at found
        cases found
      · exact uncommitted (inv.records rec member)

section

variable (q : Int) (x : PBFTMessage ι Op Sig) (own : x.sequence = q) (used : InUse K q)

include q x own used

theorem logPrepare : Windowed K (n.logPrepare q x) := by
  refine { inv with prepares := ?_ }
  intro q' x' logged
  rcases mem_logPrepare.mp logged with old | ⟨rfl, rfl⟩
  · exact inv.prepares q' x' old
  · exact ⟨own, used⟩

theorem logCommit : Windowed K (n.logCommit q x) := by
  refine { inv with commits := ?_ }
  intro q' x' logged
  rcases mem_logCommit.mp logged with old | ⟨rfl, rfl⟩
  · exact inv.commits q' x' old
  · exact ⟨own, used⟩

end

theorem finalize (q : Int) (digest : String) (used : InUse K q)
    (alone : n.committedSequences = ∅ → K ≤ 1) :
    Windowed K (n.finalize q digest).advanceWatermark := by
  -- the first number is committed now or was before, as only one was in use until then
  have one : 1 ∈ (n.finalize q digest).committedSequences := by
    rcases n.committedSequences.eq_empty_or_nonempty with none | before
    · have : q = 1 := by
        have few := alone none
        unfold InUse at used
        omega
      subst this
      exact Finset.mem_insert_self _ _
    · exact Finset.mem_insert_of_mem (inv.first before)
  have positive : ∀ k ∈ (n.finalize q digest).committedSequences, InUse K k := by
    intro k member
    rcases Finset.mem_insert.mp member with rfl | old
    · exact used
    · exact inv.committed k old
  have some : (n.finalize q digest).committedSequences.Nonempty := ⟨1, one⟩
  -- so the lowest committed number is 1, for good
  have least : (n.finalize q digest).committedSequences.min' some = 1 :=
    le_antisymm (Finset.min'_le _ 1 one) (Finset.le_min' _ some 1 fun k member =>
      (positive k member).1)
  have entries : ∀ q' pp, n.prePrepareLog.get? q' = Option.some pp →
      (n.prePrepareLog.filterKeys fun seq => decide (1 ≤ seq)).get? q' = Option.some pp := by
    intro q' pp found
    rw [Dict.get?_filterKeys, if_pos (decide_eq_true (inv.entries q' pp found).2.1), found]
  have lookup : ∀ q' pp, (n.prePrepareLog.filterKeys fun seq => decide (1 ≤ seq)).get? q' =
      Option.some pp → n.prePrepareLog.get? q' = Option.some pp := by
    intro q' pp found
    rw [Dict.get?_filterKeys] at found
    split at found
    · exact found
    · cases found
  have lists : ∀ (d : Dict Int (List (PBFTMessage ι Op Sig))) q' x,
      x ∈ (d.filterKeys fun seq => decide (1 ≤ seq)).getD q' [] → x ∈ d.getD q' [] := by
    intro d q' x logged
    rw [Dict.getD_filterKeys] at logged
    split at logged
    · exact logged
    · cases logged
  have pruned : (n.finalize q digest).advanceWatermark =
      { n.finalize q digest with
        prePrepareLog := n.prePrepareLog.filterKeys fun seq => decide (1 ≤ seq)
        prepareLog := n.prepareLog.filterKeys fun seq => decide (1 ≤ seq)
        commitLog := n.commitLog.filterKeys fun seq => decide (1 ≤ seq)
        lowWatermark := 1 } := by
    unfold PBFTNode.advanceWatermark
    rw [dif_pos some, least]
    rfl
  rw [pruned]
  refine { inv with
    entries := ?_, prepares := ?_, commits := ?_, committed := positive, low := ?_,
    first := fun _ => one, records := ?_, retained := ?_ }
  · exact fun q' pp found => inv.entries q' pp (lookup q' pp found)
  · exact fun q' x logged => inv.prepares q' x (lists _ q' x logged)
  · exact fun q' x logged => inv.commits q' x (lists _ q' x logged)
  · exact (if_neg some.ne_empty).symm
  · intro rec member
    rcases List.mem_append.mp member with old | new
    · exact Finset.mem_insert_of_mem (inv.records rec old)
    · rw [List.mem_singleton.mp new]
      exact Finset.mem_insert_self _ _
  · intro rec member op operation
    rcases List.mem_append.mp member with old | new
    · obtain ⟨pp, found, kept⟩ := inv.retained rec old op operation
      exact ⟨pp, entries _ pp found, kept⟩
    · cases List.mem_singleton.mp new
      obtain ⟨pp, found, kept⟩ := Option.bind_eq_some_iff.mp operation
      exact ⟨pp, entries _ pp found, kept⟩

theorem collecting (message : ViewChange ι Op Sig)
    (used : LogInUse K message.prePrepareLog) : Windowed K (n.collecting message) := by
  refine { inv with piles := ?_ }
  intro view x member
  simp only [PBFTNode.collecting, Dict.getD_set] at member
  split at member
  · rcases List.mem_append.mp member with old | new
    · exact inv.piles _ x old
    · rw [List.mem_singleton.mp new]
      exact used
  · exact inv.piles view x member

end

theorem chooseCheckpoint_inUse (messages : List (ViewChange ι Op Sig))
    (used : ∀ x ∈ messages, LogInUse K x.prePrepareLog) :
    LogInUse K (chooseCheckpoint messages).prePrepareLog := by
  unfold chooseCheckpoint
  dsimp only
  generalize (messages.map ViewChange.lastCommitted).foldl max _ = lastCommitted
  -- the loop replaces its candidate, so the induction is for any candidate
  have general : ∀ (l : List (ViewChange ι Op Sig)) (checkpoint : Checkpoint ι Op Sig),
      (∀ x ∈ l, LogInUse K x.prePrepareLog) → LogInUse K checkpoint.prePrepareLog →
      LogInUse K (l.foldl (fun checkpoint m =>
        if m.lastCommitted ≥ lastCommitted then
          { prePrepareLog := m.prePrepareLog, prepareLog := m.prepareLog }
        else checkpoint) checkpoint).prePrepareLog := by
    intro l
    induction l with
    | nil => exact fun _ _ known => known
    | cons x rest ih =>
      intro checkpoint all known
      refine ih _ (fun x member => all x (List.mem_cons_of_mem _ member)) ?_
      dsimp only
      split
      · exact all x (List.mem_cons_self ..)
      · exact known
  exact general messages {} used (fun e member => by cases member)

theorem replay (inv : Windowed K n) (p : Primitives ι Op PK SK Sig) (newView : Int)
    (items : List (Int × PBFTMessage ι Op Sig)) (used : LogInUse K items) :
    Windowed K (items.foldl (replayEntry p newView) n) := by
  induction items generalizing n with
  | nil => exact inv
  | cons item rest ih =>
    rw [List.foldl_cons]
    have later : LogInUse K rest := fun e member => used e (List.mem_cons_of_mem _ member)
    rcases n.replayEntry_cases p newView item with same | ⟨absent, out⟩
    · rw [same]
      exact ih inv later
    · rw [out]
      obtain ⟨own, inUse⟩ := used item (List.mem_cons_self ..)
      exact ih ((inv.accepting newView item.1 { item.2 with view := newView } own inUse
        (Or.inl absent)).logPrepare item.1 _ rfl inUse) later

/-! ### The handlers -/

variable [LinearOrder ι]

theorem tryCommitQuorum (inv : Windowed K n) (q : Int) (digest : String) (used : InUse K q)
    (alone : n.committedSequences = ∅ → K ≤ 1) : Windowed K (n.tryCommitQuorum q digest) := by
  rw [tryCommitQuorum_eq]
  split
  · exact inv.finalize q digest used alone
  · exact inv

section

variable (inv : Windowed K n) (p : Primitives ι Op PK SK Sig)

include inv p

theorem tryPrepareQuorum (q : Int) (digest : String) (used : InUse K q)
    (alone : n.committedSequences = ∅ → K ≤ 1) : Windowed K (n.tryPrepareQuorum p q digest) := by
  rw [tryPrepareQuorum_eq]
  split
  · have signed := inv.signing (.message n.nodeId n.view q digest) (by
      intro j view q' digest' same
      cases same
      exact used)
    exact (signed.logCommit q _ rfl used).tryCommitQuorum q digest used alone
  · exact inv

variable (x : PBFTMessage ι Op Sig) (used : InUse K x.sequence)
  (alone : n.committedSequences = ∅ → K ≤ 1)

include x used alone

theorem handlePrePrepare : Windowed K (n.handlePrePrepare p x).2 := by
  rcases n.handlePrePrepare_cases p x with same | ⟨_, _, _, _, _, absent, out⟩
  · rw [same]
    exact inv
  · rw [out]
    have accepted := inv.accepting n.view x.sequence x rfl used (Or.inl absent)
    exact (accepted.logPrepare x.sequence (n.ownMessage p .prepare n.view x.sequence x.digest) rfl
      used).tryPrepareQuorum p _ _ used alone

theorem handlePrepare : Windowed K (n.handlePrepare p x).2 := by
  rcases n.handlePrepare_cases p x with same | ⟨_, _, _, out⟩
  · rw [same]
    exact inv
  · rw [out]
    exact (inv.logPrepare x.sequence x rfl used).tryPrepareQuorum p _ _ used alone

theorem handleCommit : Windowed K (n.handleCommit p x).2 := by
  rcases n.handleCommit_cases p x with same | ⟨_, _, out⟩
  · rw [same]
    exact inv
  · rw [out]
    exact (inv.logCommit x.sequence x rfl used).tryCommitQuorum _ _ used alone

end

omit [LinearOrder ι] in
theorem startViewChange (inv : Windowed K n) (p : Primitives ι Op PK SK Sig) :
    Windowed K (n.startViewChange p) := by
  rcases n.startViewChange_collects p with same | out
  · rw [same]
    exact inv
  · rw [out]
    have signed := inv.signing (.viewChange n.nodeId (n.view + 1)
      (n.ownViewChange p).lastCommitted) (fun j view q digest same => by cases same)
    -- the message carries part of the own log
    exact { signed.collecting (n.ownViewChange p) fun e member => by
      have entry := (Dict.mem_entries_iff _ _ _).mp (List.mem_filter.mp member).1
      exact inv.entries e.1 e.2 entry with }

variable (inv : Windowed K n) (p : Primitives ι Op PK SK Sig)

include inv p

theorem handleViewChange (message : ViewChange ι Op Sig) (used : LogInUse K message.prePrepareLog) :
    Windowed K (n.handleViewChange p message) := by
  rcases n.handleViewChange_collects p message with same | ⟨_, _, out | ⟨_, _, out⟩⟩
  · rw [same]
    exact inv
  · rw [out]
    exact inv.collecting message used
  · rw [out]
    have collected := inv.collecting message used
    have signed := collected.signing (.newView (n.collecting message).nodeId message.newView)
      (fun j view q digest same => by cases same)
    unfold broadcastNewView
    dsimp only
    unfold PBFTNode.handleNewView
    rw [if_pos le_rfl]
    refine { signed with views := ?_ }
    intro view x found
    rw [Dict.get?_set] at found
    split at found
    · cases found
      exact chooseCheckpoint_inUse _ (collected.piles message.newView)
    · exact collected.views view x found

theorem handleNewView (message : NewView ι Op Sig)
    (used : LogInUse K message.checkpoint.prePrepareLog) :
    Windowed K (n.handleNewView p message) := by
  rcases n.handleNewView_cases p message with same | ⟨_, _, out⟩
  · rw [same]
    exact inv
  · rw [out]
    have entered : Windowed K (n.steering message.newView n.lastSequence false
        n.viewChangeMessages n.newViewMessages) := { inv with }
    exact entered.replay p message.newView _ used

theorem receive {x : Input ι Op Sig} (used : x.InUse K) (alone : n.committedSequences = ∅ → K ≤ 1) :
    Windowed K (n.receive p x) := by
  cases x with
  | prePrepare x => exact inv.handlePrePrepare p x used alone
  | prepare x => exact inv.handlePrepare p x used alone
  | commit x => exact inv.handleCommit p x used alone
  | viewChange message => exact inv.handleViewChange p message used
  | newView message => exact inv.handleNewView p message used
  | _ => exact used.elim

end Windowed

/-! ### Runs -/

variable (p : Primitives ι Op PK SK Sig) (n : PBFTNode ι Op PK SK Sig) {a : NetAction ι Op Sig}

section Runs

variable [LinearOrder ι]

theorem counters_receive {x : Input ι Op Sig} {K : Int} (used : x.InUse K) :
    (n.receive p x).lastSequence = n.lastSequence ∧
      n.committedSequences ⊆ (n.receive p x).committedSequences := by
  -- a message of the phases records one number at most
  have phases : ∀ {k}, x.number = some k →
      n.committedSequences ⊆ (n.receive p x).committedSequences := by
    intro k number
    rcases receive_records p n number with ⟨_, same⟩ | ⟨_, rec, _, _, _, inserted⟩
    · rw [same]
    · rw [inserted]
      exact Finset.subset_insert _ _
  cases x with
  | prePrepare x =>
    refine ⟨?_, phases rfl⟩
    rcases n.handlePrePrepare_cases p x with same | ⟨_, _, _, _, _, _, out⟩
    · rw [PBFTNode.receive, same]
    · rw [PBFTNode.receive, out]
      exact (Quiet.tryPrepareQuorum p _ x.sequence x.digest).lastSequence
  | prepare x => exact ⟨(Quiet.handlePrepare p n x).lastSequence, phases rfl⟩
  | commit x => exact ⟨(Quiet.handleCommit p n x).lastSequence, phases rfl⟩
  | viewChange message =>
    rcases n.handleViewChange_cases p message with same | ⟨_, out⟩ | ⟨_, _, _, out⟩
    · rw [PBFTNode.receive, same]
      exact ⟨rfl, Finset.Subset.refl _⟩
    · rw [PBFTNode.receive, out]
      exact ⟨rfl, Finset.Subset.refl _⟩
    · rw [PBFTNode.receive, out]
      exact ⟨rfl, Finset.Subset.refl _⟩
  | newView message =>
    -- the replay logs and signs, it neither counts nor commits
    have replayed : ∀ (items : List (Int × PBFTMessage ι Op Sig)) (n : PBFTNode ι Op PK SK Sig),
        (items.foldl (replayEntry p message.newView) n).lastSequence = n.lastSequence ∧
          (items.foldl (replayEntry p message.newView) n).committedSequences =
            n.committedSequences := by
      intro items
      induction items with
      | nil => exact fun n => ⟨rfl, rfl⟩
      | cons item rest ih =>
        intro n
        rw [List.foldl_cons]
        rcases n.replayEntry_cases p message.newView item with same | ⟨_, out⟩
        · rw [same]
          exact ih n
        · rw [out]
          exact ih _
    rcases n.handleNewView_cases p message with same | ⟨_, _, out⟩
    · rw [PBFTNode.receive, same]
      exact ⟨rfl, Finset.Subset.refl _⟩
    · rw [PBFTNode.receive, out]
      obtain ⟨counter, committed⟩ := replayed message.checkpoint.prePrepareLog
        (n.steering message.newView n.lastSequence false n.viewChangeMessages n.newViewMessages)
      exact ⟨counter, committed ▸ Finset.Subset.refl _⟩
  | _ => exact used.elim

omit [LinearOrder ι] in
theorem counters_startViewChange : (n.startViewChange p).lastSequence = n.lastSequence ∧
      n.committedSequences ⊆ (n.startViewChange p).committedSequences := by
  rcases n.startViewChange_collects p with same | out
  · rw [same]
    exact ⟨rfl, Finset.Subset.refl _⟩
  · rw [out]
    exact ⟨rfl, Finset.Subset.refl _⟩

/-- The requests of a run, all of one proposer, have the numbers from one on, all others have
counted nothing, and every node has committed all requests but the last. -/
structure OneProposer (c : Cluster ι Op PK SK Sig) (s : Network ι Op PK SK Sig) : Prop where
  configured : ∀ i, c.Honest i → Configured c i (s.nodes i)
  nodes : ∀ i, c.Honest i → Windowed s.requests.length (s.nodes i)
  behind : ∀ i, c.Honest i → ∀ q : Int, 1 ≤ q → q < s.requests.length →
    q ∈ (s.nodes i).committedSequences
  traffic : ∀ x ∈ s.sent, x.InUse s.requests.length
  numbers : s.requests.map PBFTMessage.sequence =
    (List.range s.requests.length).map fun k : Nat => 1 + (k : Int)
  mine : ∀ i, c.Honest i → (∀ r ∈ s.requests, r.sender = i) →
    (s.nodes i).lastSequence = s.requests.length
  others : ∀ i, c.Honest i → ∀ r ∈ s.requests, r.sender ≠ i → (s.nodes i).lastSequence = 0
  named : ∀ r ∈ s.requests, c.Honest r.sender ∧
    ∃ view digest, .message r.sender view r.sequence digest ∈ (s.nodes r.sender).signed

namespace OneProposer

variable {c : Cluster ι Op PK SK Sig} {s : Network ι Op PK SK Sig}

theorem alone (inv : OneProposer c s) {i : ι} (honest : c.Honest i)
    (none : (s.nodes i).committedSequences = ∅) : (s.requests.length : Int) ≤ 1 := by
  by_contra more
  have done := inv.behind i honest 1 le_rfl (not_le.mp more)
  rw [none] at done
  cases done

theorem getElem_sequence (inv : OneProposer c s) (k : Nat) (inside : k < s.requests.length) :
    s.requests[k].sequence = 1 + k := by
  have here := congrArg (fun l => l[k]?) inv.numbers
  simpa [inside] using here

theorem committed_of_all (inv : OneProposer c s)
    (settled : ∀ r ∈ s.requests, CommittedByAll c s r) {i : ι} (honest : c.Honest i) {q : Int}
    (used : InUse s.requests.length q) : q ∈ (s.nodes i).committedSequences := by
  obtain ⟨first, last⟩ := used
  have inside : (q - 1).toNat < s.requests.length := by omega
  have number := inv.getElem_sequence _ inside
  -- the number is that of a request, and every node has a record of it
  obtain ⟨rec, member, same, _⟩ := settled _ (List.getElem_mem inside) i honest.1 honest.2
  have done := (inv.nodes i honest).records rec member
  rw [same, number] at done
  have : (1 : Int) + ((q - 1).toNat : Nat) = q := by omega
  rw [this] at done
  exact done

variable [DecidableEq Op] [DecidableEq Sig]

theorem initial (init : (network c (Initial c)).init s) : OneProposer c s := by
  obtain ⟨start, sent, _, requests⟩ := init
  have fresh : ∀ i, c.Honest i → Windowed 0 (s.nodes i) ∧ (s.nodes i).lastSequence = 0 := by
    intro i honest
    obtain ⟨keys, _, built⟩ := start
    have fresh := init_fresh c.primitives (built i honest.1)
    exact ⟨Windowed.of_fresh fresh, fresh.lastSequence⟩
  have counted : (s.requests.length : Int) = 0 := by
    rw [requests]
    rfl
  refine ⟨fun i honest => configured_initial start honest, ?_, ?_, ?_, ?_, ?_, ?_, ?_⟩
  · intro i honest
    rw [counted]
    exact (fresh i honest).1
  · intro i honest q first last
    omega
  · intro x member
    rw [sent] at member
    cases member
  · rw [requests]
    rfl
  · intro i honest _
    rw [counted]
    exact (fresh i honest).2
  · intro i honest r member
    rw [requests] at member
    cases member
  · intro r member
    rw [requests] at member
    cases member

section

variable (inv : OneProposer c s) {i : ι} (honest : c.Honest i)

include inv honest

theorem put {n : PBFTNode ι Op PK SK Sig} {delivered : List (ι × Input ι Op Sig)}
    (config : (s.nodes i).SameConfig n) (windowed : Windowed s.requests.length n)
    (counter : n.lastSequence = (s.nodes i).lastSequence)
    (committed : (s.nodes i).committedSequences ⊆ n.committedSequences)
    (signed : (s.nodes i).signed ⊆ n.signed) :
    OneProposer c { s.put i n with delivered } := by
  refine ⟨?_, ?_, ?_, ?_, inv.numbers, ?_, ?_, ?_⟩
  · intro j live
    refine s.put_elim (fun _ => inv.configured j live) ?_
    rintro rfl
    exact (inv.configured j live).of_sameConfig config
  · exact fun j live => s.put_elim (fun _ => inv.nodes j live) fun _ => windowed
  · intro j live q first last
    have before := inv.behind j live q first last
    refine s.put_elim (P := fun n => q ∈ n.committedSequences) (fun _ => before) ?_
    rintro rfl
    exact committed before
  · intro x sent
    rcases (s.mem_sent_put i n x).mp sent with old | ⟨posts, _⟩
    · exact inv.traffic x old
    · exact windowed.inUse_of_posts posts
  · intro j live all
    have before := inv.mine j live all
    refine s.put_elim (P := fun n => n.lastSequence = _) (fun _ => before) ?_
    rintro rfl
    exact counter.trans before
  · intro j live r member other
    have before := inv.others j live r member other
    refine s.put_elim (P := fun n => n.lastSequence = 0) (fun _ => before) ?_
    rintro rfl
    exact counter.trans before
  · intro r member
    obtain ⟨live, view, digest, made⟩ := inv.named r member
    refine ⟨live, view, digest, s.put_elim (P := fun n => _ ∈ n.signed) (fun _ => made) ?_⟩
    rintro same
    rw [same] at made ⊢
    exact signed made

theorem startViewChange : OneProposer c (Network.exec c.primitives s (.startViewChange i)) := by
  obtain ⟨counter, committed⟩ := counters_startViewChange c.primitives (s.nodes i)
  exact inv.put honest (SameConfig.receive c.primitives _ .startViewChange)
    ((inv.nodes i honest).startViewChange c.primitives) counter committed
    (signed_subset_receive c.primitives _ .startViewChange)

theorem deliver {x : Input ι Op Sig}
    (sent : x ∈ s.sent) : OneProposer c (Network.exec c.primitives s (.deliver i x)) := by
  have used := inv.traffic x sent
  obtain ⟨counter, committed⟩ := counters_receive c.primitives (s.nodes i) used
  exact inv.put honest (SameConfig.receive c.primitives _ x)
    ((inv.nodes i honest).receive c.primitives used (inv.alone honest)) counter committed
    (signed_subset_receive c.primitives _ x)

theorem requestTaken (operation : Op) (settled : ∀ r ∈ s.requests, CommittedByAll c s r)
    (own : ∀ r ∈ s.requests, r.sender = i) :
    let n := s.nodes i
    let msg := n.requestMessage c.primitives operation
    let n' := { n with lastSequence := n.lastSequence + 1 }.accepting n.view (n.lastSequence + 1)
      msg
    OneProposer c { s.put i n' with requests := s.requests ++ [msg] } := by
  intro n msg n'
  have counter : n.lastSequence = s.requests.length := inv.mine i honest own
  have number : msg.sequence = s.requests.length + 1 := by
    rw [← counter]
    rfl
  have length : (((s.requests ++ [msg]).length : Nat) : Int) = s.requests.length + 1 := by simp
  have more : (s.requests.length : Int) ≤ ((s.requests ++ [msg]).length : Nat) := by omega
  have name : msg.sender = i := (inv.configured i honest).nodeId
  have windowed : Windowed (s.requests ++ [msg]).length n' := by
    have before : Windowed (s.requests ++ [msg]).length
        { n with lastSequence := n.lastSequence + 1 } :=
      { (inv.nodes i honest).mono more with }
    refine before.accepting n.view (n.lastSequence + 1) msg rfl ?_ (Or.inr fun done => ?_)
    · unfold InUse
      omega
    · have used := (inv.nodes i honest).committed _ done
      unfold InUse at used
      omega
  refine ⟨?_, ?_, ?_, ?_, ?_, ?_, ?_, ?_⟩
  · intro j live
    refine s.put_elim (fun _ => inv.configured j live) ?_
    rintro rfl
    exact (inv.configured j live).of_sameConfig ⟨rfl, rfl, rfl, rfl, rfl, rfl⟩
  · exact fun j live => s.put_elim (fun _ => (inv.nodes j live).mono more) fun _ => windowed
  · intro j live q first last
    rw [length] at last
    have used : InUse s.requests.length q := ⟨first, by omega⟩
    have done := inv.committed_of_all settled live used
    refine s.put_elim (P := fun n => q ∈ n.committedSequences) (fun _ => done) ?_
    rintro rfl
    exact done
  · intro x sent
    rcases (s.mem_sent_put i n' x).mp sent with old | ⟨posts, _⟩
    · exact (inv.traffic x old).mono more
    · exact windowed.inUse_of_posts posts
  · rw [List.map_append, inv.numbers, List.length_append, List.length_singleton,
      List.range_succ, List.map_append]
    simp [number]
    omega
  · intro j live all
    have : j = i := (all msg (List.mem_append_right _ (List.mem_singleton_self _))).symm.trans name
    subst this
    rw [Network.put_nodes_self, length, ← counter]
    rfl
  · intro j live r member other
    have others : j ≠ i := by
      rintro rfl
      rcases List.mem_append.mp member with old | new
      · exact other (own r old)
      · exact other (List.mem_singleton.mp new ▸ name)
    rw [Network.put_nodes_of_ne _ _ others]
    -- an earlier request is of the same proposer, and without any nobody has counted
    by_cases none : s.requests = []
    · have idle := inv.mine j live (by simp [none])
      simpa [none] using idle
    · obtain ⟨r₀, earlier⟩ := List.exists_mem_of_ne_nil _ none
      exact inv.others j live r₀ earlier ((own r₀ earlier).trans_ne others.symm)
  · intro r member
    rcases List.mem_append.mp member with old | new
    · obtain ⟨live, view, digest, made⟩ := inv.named r old
      refine ⟨live, view, digest, ?_⟩
      rw [own r old] at made ⊢
      rw [Network.put_nodes_self]
      exact List.mem_append_left _ made
    · rw [List.mem_singleton.mp new, name]
      refine ⟨honest, n.view, msg.digest, ?_⟩
      rw [Network.put_nodes_self, ← name]
      exact List.mem_append_right _ (List.mem_singleton_self _)

theorem request (operation : Op) (settled : Sequential c s (.request i operation))
    (own : SameProposer s (.request i operation)) :
    OneProposer c (Network.exec c.primitives s (.request i operation)) := by
  simp only [Network.exec, handleRequest_eq]
  split
  · next takes => exact inv.requestTaken honest operation (settled takes) (own takes)
  · simp only [Option.toList_none, List.append_nil]
    exact inv.put honest (n := s.nodes i) ⟨rfl, rfl, rfl, rfl, rfl, rfl⟩ (inv.nodes i honest) rfl
      (Finset.Subset.refl _) (List.Subset.refl _)

end

theorem step (inv : OneProposer c s) (possible : NetEnabled c s a) (sequential : Sequential c s a)
    (own : SameProposer s a) : OneProposer c (Network.exec c.primitives s a) := by
  cases a with
  | request i operation => exact inv.request possible operation sequential own
  | startViewChange i => exact inv.startViewChange possible
  | deliver i x => exact inv.deliver possible.1 possible.2.1

theorem committed_subset (inv : OneProposer c s) (possible : NetEnabled c s a) (j : ι) :
    (s.nodes j).committedSequences ⊆
      ((Network.exec c.primitives s a).nodes j).committedSequences := by
  have moving {i : ι} {n : PBFTNode ι Op PK SK Sig}
      (more : (s.nodes i).committedSequences ⊆ n.committedSequences) :
      (s.nodes j).committedSequences ⊆ ((s.put i n).nodes j).committedSequences := by
    refine s.put_elim (P := fun n => _ ⊆ n.committedSequences)
      (fun _ => Finset.Subset.refl _) ?_
    rintro rfl
    exact more
  cases a with
  | request i operation =>
    have same : ((s.nodes i).handleRequest c.primitives operation).2.committedSequences =
        (s.nodes i).committedSequences := by
      rw [handleRequest_eq]
      split <;> rfl
    exact moving same.ge
  | startViewChange i => exact moving (counters_startViewChange c.primitives _).2
  | deliver i x =>
    exact moving (counters_receive c.primitives _ (inv.traffic x possible.2.1)).2

/-! ### What holds along the runs -/

section

omit [DecidableEq Op] [DecidableEq Sig]

theorem passesOnlyCommitted (inv : OneProposer c s) : PassesOnlyCommitted c s := by
  intro i honest r member passed
  exfalso
  have windowed := inv.nodes i honest
  have here : r.sequence ∈ s.requests.map PBFTMessage.sequence := List.mem_map_of_mem member
  rw [inv.numbers, List.mem_map] at here
  obtain ⟨k, _, number⟩ := here
  -- numbers start at 1, and the watermark is 1 at most
  have low := windowed.low
  split at low <;> omega

theorem listsCommitted (inv : OneProposer c s) : ListsCommitted c s := by
  intro i honest rec member op operation
  have windowed := inv.nodes i honest
  rw [mem_getCommittedOperations]
  constructor
  · exact fun listed => listed.2.1
  · exact fun truthy =>
      ⟨windowed.records rec member, truthy, windowed.retained rec member op operation⟩

theorem acceptsNext_iff (inv : OneProposer c s) {i : ι} (honest : c.Honest i)
    (isPrimary : some i = (s.nodes i).primary) (stable : (s.nodes i).viewChangeInProgress = false)
    (settled : ∀ r ∈ s.requests, CommittedByAll c s r) (operation : Op) :
    AcceptsNext c s i operation ↔ s.requests.length ≤ 128 ∧ ∀ r ∈ s.requests, r.sender = i := by
  have conf := inv.configured i honest
  have windowed := inv.nodes i honest
  have low : (s.nodes i).lowWatermark = if s.requests.length = 0 then 0 else 1 := by
    rw [windowed.low]
    by_cases none : s.requests.length = 0
    · have nothing : (s.nodes i).committedSequences = ∅ := by
        rw [Finset.eq_empty_iff_forall_notMem]
        intro q done
        have used := windowed.committed q done
        unfold InUse at used
        omega
      rw [if_pos none, if_pos nothing]
    · have one : 1 ∈ (s.nodes i).committedSequences :=
        inv.committed_of_all settled honest ⟨le_rfl, by omega⟩
      rw [if_neg none, if_neg (Finset.ne_empty_of_mem one)]
  constructor
  · rintro ⟨msg, accepted, unused⟩
    rw [handleRequest_eq] at accepted
    split at accepted
    · next takes =>
      obtain rfl := Option.some.inj accepted
      have own : ∀ r ∈ s.requests, r.sender = i := by
        intro r member
        by_contra other
        -- the counter stands at zero, so the number is that of the first request
        have zero := inv.others i honest r member other
        have some : 0 < s.requests.length := List.length_pos_of_mem member
        obtain ⟨live, view, digest, made⟩ := inv.named _ (List.getElem_mem some)
        have same : s.requests[0].sequence = (s.nodes i).lastSequence + 1 := by
          rw [inv.getElem_sequence 0 some, zero]
          rfl
        rw [same] at made
        exact unused _ live view digest made
      -- the window reaches 128 above the watermark, which is 1 from the first request on
      have counter := inv.mine i honest own
      have inside := takes.2.2.2
      rw [low, conf.window, counter] at inside
      refine ⟨?_, own⟩
      split at inside <;> omega
    · cases accepted
  · rintro ⟨few, own⟩
    have counter := inv.mine i honest own
    have takes : (s.nodes i).TakesRequest := by
      refine ⟨by rw [conf.nodeId]; exact isPrimary, stable, ?_⟩
      unfold checkSequenceWatermark
      rw [low, conf.window, counter]
      split <;> omega
    refine ⟨(s.nodes i).requestMessage c.primitives operation, ?_, ?_⟩
    · rw [handleRequest_eq, if_pos takes]
    · intro j live view digest made
      have used := (inv.nodes j live).signed j view _ digest made
      unfold InUse at used
      have number : ((s.nodes i).requestMessage c.primitives operation).sequence =
          (s.nodes i).lastSequence + 1 := rfl
      omega

end

theorem watermarksRise (inv : OneProposer c s) (possible : NetEnabled c s a)
    (sequential : Sequential c s a) (own : SameProposer s a) :
    WatermarksRise c s (Network.exec c.primitives s a) := by
  intro i honest
  have after := inv.step possible sequential own
  have kept := inv.committed_subset possible i
  rw [(inv.nodes i honest).low, (after.nodes i honest).low]
  by_cases none : (s.nodes i).committedSequences = ∅
  · rw [if_pos none]
    split <;> decide
  · have some : ((Network.exec c.primitives s a).nodes i).committedSequences ≠ ∅ := by
      intro nothing
      rw [nothing, Finset.subset_empty] at kept
      exact none kept
    rw [if_neg none, if_neg some]

end OneProposer

/-- In every run in which each request is submitted after all earlier ones are committed, and to
the node that proposed these: no watermark goes down or passes an uncommitted request, all
committed operations that count as true are listed, and when all requests are committed the
primary accepts the next one exactly if there were at most 128, all of them its own. -/
theorem window_advances_iff [DecidableEq Op] [DecidableEq Sig] (c : Cluster ι Op PK SK Sig)
    {s : Network ι Op PK SK Sig}
    (run : (network c (Initial c)).Reaches (fun s a => Sequential c s a ∧ SameProposer s a) s) :
    PassesOnlyCommitted c s ∧ ListsCommitted c s ∧
      (∀ a, NetEnabled c s a → Sequential c s a → SameProposer s a →
        WatermarksRise c s (Network.exec c.primitives s a)) ∧
      ∀ i, c.Honest i → some i = (s.nodes i).primary → (s.nodes i).viewChangeInProgress = false →
        (∀ r ∈ s.requests, CommittedByAll c s r) → ∀ operation, (AcceptsNext c s i operation ↔
            s.requests.length ≤ 128 ∧ ∀ r ∈ s.requests, r.sender = i) := by
  have inv : OneProposer c s := by
    apply run.invariant (I := OneProposer c)
    · exact fun s init => OneProposer.initial init
    · exact fun s a inv possible allowed => inv.step possible allowed.1 allowed.2
  exact ⟨inv.passesOnlyCommitted, inv.listsCommitted,
    fun a possible sequential own => inv.watermarksRise possible sequential own,
    fun i honest isPrimary stable settled => inv.acceptsNext_iff honest isPrimary stable settled⟩

end Runs

def settledOne : Network (Fin 4) String (Fin 4) (Fin 4) (IdealSignature 4) :=
  (round [0, 1, 2, 3] [0, 1, 2, 3]).foldl (Network.exec (ideal 4)) (idealNetwork 4 1)

theorem window_advances_example : AcceptsNext fourHonest settledOne 0 "B" := by
  have start : (network fourHonest (Initial fourHonest)).init (idealNetwork 4 1) :=
    ⟨idealStart_initial 4 1 (by decide) ∅ (by decide), rfl, rfl, rfl⟩
  exact ((window_advances_iff fourHonest ((Machine.Reaches.init start).of_follows
    (round [0, 1, 2, 3] [0, 1, 2, 3]) (by decide +kernel))).2.2.2 0 (by decide +kernel)
    (by decide +kernel) (by decide +kernel) (by decide +kernel) "B").mpr (by decide +kernel)

/-- The other nodes give node 0 up and tell node 1, the primary of the next view. -/
def givenUp : List (NetAction (Fin 4) String (IdealSignature 4)) :=
  let asked := [.startViewChange 2, .startViewChange 3, .startViewChange 0]
  asked ++ ((asked.foldl (Network.exec (ideal 4)) settledOne).sent.filter fun x =>
    decide (x.number = none)).map (.deliver 1)

/-- After one request, settled by all, a view change makes node 1 the primary. It takes up the
next request under the number of the first, which it then no longer lists. -/
theorem new_primary_reuses_number :
    ∃ s, (network fourHonest (Initial fourHonest)).Reaches (Sequential fourHonest) s ∧
      some 1 = (s.nodes 1).primary ∧ (s.nodes 1).viewChangeInProgress = false ∧
      (∀ r ∈ s.requests, CommittedByAll fourHonest s r) ∧ ¬ AcceptsNext fourHonest s 1 "B" ∧
      ¬ ListsCommitted fourHonest (Network.exec (ideal 4) s (.request 1 "B")) := by
  refine ⟨givenUp.foldl (Network.exec (ideal 4)) settledOne, ?_, ?_, ?_, ?_, ?_, ?_⟩
  · have start : (network fourHonest (Initial fourHonest)).init (idealNetwork 4 1) :=
      ⟨idealStart_initial 4 1 (by decide) ∅ (by decide), rfl, rfl, rfl⟩
    exact ((Machine.Reaches.init start).of_follows (round [0, 1, 2, 3] [0, 1, 2, 3])
      (by decide +kernel)).of_follows givenUp (by decide +kernel)
  · decide +kernel
  · decide +kernel
  · decide +kernel
  · rintro ⟨msg, accepted, unused⟩
    have number : (((givenUp.foldl (Network.exec (ideal 4)) settledOne).nodes 1).handleRequest
        fourHonest.primitives "B").1.map PBFTMessage.sequence = some 1 := by decide +kernel
    have same : msg.sequence = 1 := by
      rw [accepted] at number
      exact Option.some.inj number
    rw [same] at unused
    exact absurd (by decide +kernel) (unused 0 (by decide +kernel) 0 "A")
  · intro lists
    exact absurd ((lists 1 (by decide +kernel) ⟨1, "A", some "A"⟩ (by decide +kernel) "A" rfl).mpr
      (by decide +kernel)) (by decide +kernel)

end DistLLM.Pbft
