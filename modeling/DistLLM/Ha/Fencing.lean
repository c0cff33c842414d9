import DistLLM.Ha.Election

/-!
# Fencing of the replicated state

Which heartbeats write to the replicated state of a coordinator. The handler looks at neither
the role of the sender nor, once the term is stored, at its term: every follower takes the state
of whoever probes it.
-/
namespace DistLLM.Ha

open DistLLM.Library RayFaultTolerance

variable {ι K V : Type} [LinearOrder ι] [DecidableEq K]

/-- State is installed only from the leader of a term that is not behind the receiver's. -/
def Fenced (c : RayFaultTolerance ι K V) (senderId : ι) (term : Int) (state : Option (Dict K V))
    (senderLeads : Prop) (now : ℚ) : Prop :=
  (c.handleHeartbeatRequest senderId term state now).applied.isSome = true →
    senderLeads ∧ c.currentTerm ≤ term

/-- The heartbeat comes from such a leader, or carries no state, or the receiver is no follower
and nothing in the heartbeat makes it one. -/
def HarmlessHeartbeat (c : RayFaultTolerance ι K V) (senderId : ι) (term : Int)
    (state : Option (Dict K V)) (senderLeads : Prop) : Prop :=
  (senderLeads ∧ c.currentTerm ≤ term) ∨ (∀ st ∈ state, st.entries = []) ∨
    (term ≤ c.currentTerm ∧ c.state ≠ .follower ∧ ¬ (c.state = .leader ∧ senderId < c.id))

instance (c : RayFaultTolerance ι K V) (senderId : ι) (term : Int) (state : Option (Dict K V))
    (senderLeads : Prop) [Decidable senderLeads] :
    Decidable (HarmlessHeartbeat c senderId term state senderLeads) :=
  inferInstanceAs (Decidable (_ ∨ _ ∨ _))

variable (c : RayFaultTolerance ι K V) (senderId : ι) (s : HaState ι K V) (term : Int)
  (a : HaAction ι K V) (state : Option (Dict K V))

theorem applied_isSome_iff (now : ℚ) :
    (c.handleHeartbeatRequest senderId term state now).applied.isSome = true ↔
      (∃ st, state = some st ∧ st.entries ≠ []) ∧
        (c.currentTerm < term ∨ c.state = .follower ∨ (c.state = .leader ∧ senderId < c.id)) := by
  rw [Option.isSome_iff_exists, ← handleHeartbeatRequest_follower_iff c senderId term state now]
  constructor
  · rintro ⟨st, applied⟩
    obtain ⟨carried, nonempty, follower⟩ :=
      (handleHeartbeatRequest_applied_iff c senderId term state now st).mp applied
    exact ⟨⟨st, carried, nonempty⟩, follower⟩
  · rintro ⟨⟨st, carried, nonempty⟩, follower⟩
    exact ⟨st, (handleHeartbeatRequest_applied_iff c senderId term state now st).mpr
      ⟨carried, nonempty, follower⟩⟩

theorem fenced_iff (senderLeads : Prop) (now : ℚ) : Fenced c senderId term state senderLeads now ↔
      HarmlessHeartbeat c senderId term state senderLeads := by
  unfold Fenced HarmlessHeartbeat
  rw [applied_isSome_iff]
  constructor
  · intro fenced
    -- with some state and a receiver that follows, the fence itself is left
    by_cases empty : ∀ st ∈ state, st.entries = []
    · exact Or.inr (Or.inl empty)
    · push Not at empty
      obtain ⟨st, carried, nonempty⟩ := empty
      by_cases follows : c.currentTerm < term ∨ c.state = .follower ∨
          (c.state = .leader ∧ senderId < c.id)
      · exact Or.inl (fenced ⟨⟨st, carried, nonempty⟩, follows⟩)
      · obtain ⟨notHigher, notFollower, notLower⟩ :
            ¬ c.currentTerm < term ∧ c.state ≠ .follower ∧
              ¬ (c.state = .leader ∧ senderId < c.id) :=
          ⟨fun h => follows (Or.inl h), fun h => follows (Or.inr (Or.inl h)),
            fun h => follows (Or.inr (Or.inr h))⟩
        exact Or.inr (Or.inr ⟨not_lt.mp notHigher, notFollower, notLower⟩)
  · rintro (leader | empty | ⟨notHigher, notFollower, notLower⟩) ⟨⟨st, carried, nonempty⟩, follows⟩
    · exact leader
    · exact absurd (empty st carried) nonempty
    · rcases follows with higher | follower | lower
      · exact absurd higher (not_lt.mpr notHigher)
      · exact absurd follower notFollower
      · exact absurd lower notLower

/-! ### Runs -/

def HarmlessDeliveries (s : HaState ι K V) : HaAction ι K V → Prop
  | .deliver k _ _ => ∀ h ∈ s.heartbeats[k]?, HarmlessHeartbeat (s.coordinators h.receiver)
      h.payload.coordinatorId h.payload.term (some h.payload.state) (h.fromLeader = true)
  | _ => True

instance (s : HaState ι K V) : ∀ a, Decidable (HarmlessDeliveries s a)
  | .deliver k _ _ => inferInstanceAs (Decidable (∀ h ∈ s.heartbeats[k]?,
      HarmlessHeartbeat (s.coordinators h.receiver) h.payload.coordinatorId h.payload.term
        (some h.payload.state) (h.fromLeader = true)))
  | .addPeer .. | .removePeer .. | .replicate .. | .startRound _ | .sendProbe _
  | .receiveReply .. | .loseProbe _ | .finishRound .. => .isTrue trivial

/-- The writes to a coordinator's state are in order of their terms, none of them ahead of the
term the coordinator is in. -/
structure WritesInOrder (s : HaState ι K V) : Prop where
  sorted : ∀ i, (s.writes i).Pairwise (· ≤ ·)
  past : ∀ i t, t ∈ s.writes i → t ≤ (s.coordinators i).currentTerm

theorem currentTerm_mono (i : ι) :
    (s.coordinators i).currentTerm ≤ ((s.exec a).coordinators i).currentTerm := by
  rcases coordinator_step s a i with ⟨_, mono⟩ | ⟨_, _, _, raised⟩
  · exact mono
  · omega

theorem replicatedState_of_unwritten (i : ι) (unwritten : (s.exec a).writes i = s.writes i) :
    ((s.exec a).coordinators i).replicatedState = (s.coordinators i).replicatedState := by
  -- a call on coordinator `j` concerns `i` only if they are the same
  have move : ∀ (j : ι) (d : RayFaultTolerance ι K V),
      (i = j → d.replicatedState = (s.coordinators j).replicatedState) →
      (Function.update s.coordinators j d i).replicatedState =
        (s.coordinators i).replicatedState := by
    intro j d kept
    by_cases same : i = j
    · subst same
      rw [Function.update_self]
      exact kept rfl
    · rw [Function.update_of_ne same]
  cases a with
  | replicate j key value =>
    refine move j _ fun same => ?_
    subst same
    simp [HaState.exec, HaState.replicate] at unwritten
  | deliver k nested now =>
    cases found : s.heartbeats[k]? with
    | none => simp only [HaState.exec, found]
    | some h =>
      have delivered : s.exec (.deliver k nested now) = s.deliver h nested now := by
        simp only [HaState.exec, found]
      rw [delivered] at unwritten ⊢
      refine move h.receiver _ fun same => ?_
      subst same
      rw [handleHeartbeatRequest_replicatedState]
      split
      · next st applied => simp [HaState.deliver, applied] at unwritten
      · rfl
  | receiveReply j k now =>
    simp only [HaState.exec]
    split
    · exact move j _ fun _ => processProbeReply_replicatedState _ _ _ _
    · rfl
  | finishRound j now => exact move j _ fun _ => finishRound_replicatedState _ _
  | addPeer j peerId host port now => exact move j _ fun _ => rfl
  | removePeer j peerId => exact move j _ fun _ => rfl
  | sendProbe j =>
    simp only [HaState.exec, HaState.sendProbe]
    split <;> rfl
  | startRound j => rfl
  | loseProbe j => rfl

theorem WritesInOrder.quiet {s : HaState ι K V} (inv : WritesInOrder s) (a : HaAction ι K V)
    (same : (s.exec a).writes = s.writes) : WritesInOrder (s.exec a) := by
  refine ⟨fun i => ?_, fun i t written => ?_⟩
  · rw [same]
    exact inv.sorted i
  · rw [same] at written
    exact (inv.past i t written).trans (currentTerm_mono s a i)

theorem WritesInOrder.write {s : HaState ι K V} (inv : WritesInOrder s) (a : HaAction ι K V)
    (j : ι) (term : Int)
    (written : (s.exec a).writes = Function.update s.writes j (s.writes j ++ [term]))
    (current : (s.coordinators j).currentTerm ≤ term)
    (reached : term ≤ ((s.exec a).coordinators j).currentTerm) : WritesInOrder (s.exec a) := by
  refine ⟨fun i => ?_, fun i t member => ?_⟩
  · rw [written]
    by_cases same : i = j
    · subst same
      rw [Function.update_self, List.pairwise_append]
      refine ⟨inv.sorted i, List.pairwise_singleton .., fun t old t' new => ?_⟩
      rw [List.mem_singleton.mp new]
      exact (inv.past i t old).trans current
    · rw [Function.update_of_ne same]
      exact inv.sorted i
  · rw [written] at member
    by_cases same : i = j
    · subst same
      rw [Function.update_self] at member
      rcases List.mem_append.mp member with old | new
      · exact (inv.past i t old).trans (currentTerm_mono s a i)
      · rw [List.mem_singleton.mp new]
        exact reached
    · rw [Function.update_of_ne same] at member
      exact (inv.past i t member).trans (currentTerm_mono s a i)

theorem WritesInOrder.step (inv : WritesInOrder s)
    (harmless : HarmlessDeliveries s a) : WritesInOrder (s.exec a) := by
  cases a with
  | replicate j key value =>
    exact inv.write (.replicate j key value) j _ rfl le_rfl (currentTerm_mono s _ j)
  | deliver k nested now =>
    cases found : s.heartbeats[k]? with
    | none => exact inv.quiet (.deliver k nested now) (by simp only [HaState.exec, found])
    | some h =>
      have delivered : s.exec (.deliver k nested now) = s.deliver h nested now := by
        simp only [HaState.exec, found]
      have term : ((s.exec (.deliver k nested now)).coordinators h.receiver).currentTerm =
          max (s.coordinators h.receiver).currentTerm h.payload.term := by
        rw [delivered, ← handleHeartbeatRequest_term (s.coordinators h.receiver)
          h.payload.coordinatorId h.payload.term (some h.payload.state) now]
        simp only [HaState.deliver, HaState.setCoordinator, Function.update_self]
      -- only an installed state is written, and then the heartbeat was fenced
      by_cases installs : ((s.coordinators h.receiver).handleHeartbeatRequest
          h.payload.coordinatorId h.payload.term (some h.payload.state) now).applied.isSome = true
      · obtain ⟨_, current⟩ := (fenced_iff _ _ _ _ _ now).mpr (harmless h found) installs
        apply inv.write (.deliver k nested now) h.receiver h.payload.term ?_ current
        · rw [term]
          exact le_max_right _ _
        · rw [delivered]
          simp only [HaState.deliver, installs, if_true]
      · apply inv.quiet
        rw [delivered]
        simp only [HaState.deliver, installs, Bool.false_eq_true, if_false, List.append_nil,
          Function.update_eq_self]
  | sendProbe j =>
    apply inv.quiet
    simp only [HaState.exec, HaState.sendProbe]
    split <;> rfl
  | receiveReply j k now =>
    apply inv.quiet
    simp only [HaState.exec]
    split <;> rfl
  | addPeer j peerId host port now => exact inv.quiet (.addPeer j peerId host port now) rfl
  | removePeer j peerId => exact inv.quiet (.removePeer j peerId) rfl
  | startRound j => exact inv.quiet (.startRound j) rfl
  | loseProbe j => exact inv.quiet (.loseProbe j) rfl
  | finishRound j now => exact inv.quiet (.finishRound j now) rfl

/-- A heartbeat is fenced exactly when it is harmless, in every state of the receiver; and in
every run of harmless deliveries no write of an older term follows one of a newer term, where
the replicated state changes by such writes alone. -/
theorem replicated_state_fenced (s : HaState ι K V)
    (reached : (haElection ι K V).Reaches HarmlessDeliveries s) :
    (∀ (c : RayFaultTolerance ι K V) (senderId : ι) (term : Int) (state : Option (Dict K V))
      (senderLeads : Prop) (now : ℚ), Fenced c senderId term state senderLeads now ↔
        HarmlessHeartbeat c senderId term state senderLeads) ∧
    (∀ i, (s.writes i).Pairwise (· ≤ ·)) ∧ (∀ a i, (s.exec a).writes i = s.writes i →
      ((s.exec a).coordinators i).replicatedState = (s.coordinators i).replicatedState) := by
  have inv : WritesInOrder s := by
    apply reached.invariant (I := WritesInOrder)
    · intro s initial
      have none : ∀ i, s.writes i = [] := initial.2.2.2.2
      refine ⟨fun i => by rw [none]; exact .nil, fun i t written => ?_⟩
      rw [none] at written
      cases written
    · intro s a inv _ harmless
      exact WritesInOrder.step s a inv harmless
  exact ⟨fenced_iff, inv.sorted, replicatedState_of_unwritten s⟩

/-- "b" leads term 1 and brings its state to "c". -/
def bLeads : List (HaAction String String String) :=
  [.addPeer "b" "c" "10.0.0.3" 50051 0, .addPeer "a" "c" "10.0.0.3" 50051 0,
    .startRound "b", .loseProbe "b", .finishRound "b" 1, .replicate "b" "k" "old",
    .startRound "b", .sendProbe "b", .deliver 0 false 2, .receiveReply "b" 0 2,
    .finishRound "b" 2]

/-- Its next probe is delayed. Meanwhile "a" learns of term 1 from "c", leads term 2 and brings
its own state to "c". -/
def aTakesOver : List (HaAction String String String) :=
  [.startRound "b", .sendProbe "b",
    .startRound "a", .sendProbe "a", .deliver 2 false 3, .receiveReply "a" 1 3,
    .finishRound "a" 3, .replicate "a" "k" "new",
    .startRound "a", .sendProbe "a", .deliver 3 false 4]

theorem replicated_state_fenced_example :
    let s := bLeads.foldl (haElection String String String).exec coordinatorsStart
    s.writes "c" = [1] ∧ (s.writes "c").Pairwise (· ≤ ·) := by
  intro s
  have reached : (haElection String String String).Reaches HarmlessDeliveries s :=
    (Machine.Reaches.init coordinatorsStart_initial).of_follows bLeads (by decide +kernel)
  exact ⟨by decide +kernel, (replicated_state_fenced s reached).2.1 "c"⟩

/-- The delayed probe of term 1 overwrites the state of the leader of term 2. -/
theorem delayed_heartbeat_overwrites : ∃ s, (haElection String String String).Reachable s ∧
      (s.coordinators "c").currentTerm = 2 ∧
      (s.coordinators "c").replicatedState.get? "k" = some "new" ∧
      s.heartbeats[1]?.map (fun h => h.payload.term) = some 1 ∧
      ((s.exec (.deliver 1 false 5)).coordinators "c").replicatedState.get? "k" = some "old" ∧
      (s.exec (.deliver 1 false 5)).writes "c" = [1, 2, 1] := by
  refine ⟨(bLeads ++ aTakesOver).foldl (haElection String String String).exec coordinatorsStart,
    ?_, ?_⟩
  · exact (Machine.Reaches.init coordinatorsStart_initial).of_follows (bLeads ++ aTakesOver)
      (by decide +kernel)
  · decide +kernel

end DistLLM.Ha
