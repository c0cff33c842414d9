import DistLLM.Reconfig.Versions
import Mathlib.Data.Finset.Basic

/-!
# The request selector

`RequestPipelineSelector`: which topology version each request in flight is bound to, which versions
are active, and the version that new requests get. Deactivating looks at the requests in flight but
not at the version of new requests; migrating looks at the version map but not at the active
versions.
-/
namespace DistLLM.Reconfig

open Library

variable {κ ρ : Type}

structure RequestRoute (ρ : Type) where
  requestId : ρ
  topologyVersion : Int
  topologyId : String
  deriving DecidableEq, Repr

structure SelectorMetrics where
  totalAssignments : Nat := 0
  totalCompletions : Nat := 0
  migrations : Nat := 0

structure RequestPipelineSelector (κ ρ : Type) where
  versions : Versions κ
  activeVersions : Finset Int
  currentVersion : Int
  routes : Dict ρ (RequestRoute ρ) := ∅
  migrationBatchSize : Int := 1
  metrics : SelectorMetrics := {}

def sliceTo {α : Type} (n : Int) (xs : List α) : List α :=
  if 0 ≤ n then xs.take n.toNat else xs.take (xs.length - (-n).toNat)

theorem mem_of_mem_sliceTo {α : Type} {n : Int} {xs : List α} {a : α} (member : a ∈ sliceTo n xs) :
    a ∈ xs := by
  unfold sliceTo at member
  split at member <;> exact List.mem_of_mem_take member

namespace RequestPipelineSelector

def create (versions : Versions κ) (initialVersion : Int) (migrationBatchSize : Int := 1) :
    RequestPipelineSelector κ ρ :=
  { versions
    activeVersions := if (versions.get? initialVersion).isSome then {initialVersion} else ∅
    currentVersion := if (versions.get? initialVersion).isSome then initialVersion
      else Versions.current versions
    migrationBatchSize }

variable [DecidableEq ρ] (sel : RequestPipelineSelector κ ρ)

def assignRequest (requestId : ρ) : RequestRoute ρ × RequestPipelineSelector κ ρ :=
  let version := sel.currentVersion
  let topologyId := match sel.versions.get? version with
    | some topo => topo.topologyId
    | none => s!"v{version}"
  let route := { requestId, topologyVersion := version, topologyId }
  (route, { sel with
    routes := sel.routes.set requestId route
    metrics := { sel.metrics with totalAssignments := sel.metrics.totalAssignments + 1 } })

def completeRequest (requestId : ρ) : RequestPipelineSelector κ ρ :=
  { sel with
    routes := sel.routes.filterKeys fun r => decide (r ≠ requestId)
    metrics := { sel.metrics with totalCompletions := sel.metrics.totalCompletions + 1 } }

def getRequestTopology (requestId : ρ) : Option Int :=
  (sel.routes.get? requestId).map RequestRoute.topologyVersion

section

omit [DecidableEq ρ]

/-- `activate_version`: new requests get this version if it is above the one they got so far. -/
def activateVersion (version : Int) : Bool × RequestPipelineSelector κ ρ :=
  match sel.versions.get? version with
  | none => (false, sel)
  | some _ =>
    (true, { sel with
      activeVersions := insert version sel.activeVersions
      currentVersion := if version > sel.currentVersion then version else sel.currentVersion })

def inFlightOnTopology (version : Int) : List ρ :=
  (sel.routes.entries.filter fun e => decide (e.2.topologyVersion = version)).map Prod.fst

/-- `deactivate_version`: only without requests in flight on the version. -/
def deactivateVersion (version : Int) : Bool × RequestPipelineSelector κ ρ :=
  if version ∉ sel.activeVersions then (true, sel)
  else if sel.inFlightOnTopology version ≠ [] then (false, sel)
  else (true, { sel with activeVersions := sel.activeVersions.erase version })

end

def migrateRequest (requestId : ρ) (targetVersion : Int) :
    Bool × RequestPipelineSelector κ ρ :=
  match sel.versions.get? targetVersion, sel.routes.get? requestId with
  | some topo, some _ =>
    (true, { sel with
      routes := sel.routes.set requestId
        { requestId, topologyVersion := targetVersion, topologyId := topo.topologyId }
      metrics := { sel.metrics with migrations := sel.metrics.migrations + 1 } })
  | _, _ => (false, sel)

omit [DecidableEq ρ] in
def inFlightRequests : List ρ := sel.routes.keys

omit [DecidableEq ρ] in
def inFlightCount : Dict Int Nat :=
  sel.routes.values.foldl (fun counts route =>
    counts.set route.topologyVersion (counts.getD route.topologyVersion 0 + 1)) ∅

end RequestPipelineSelector

/-- The variables of a running `gradual_migrate`. It pauses after each round, and other calls come
in between. -/
structure Migration where
  targetVersion : Int
  batchSize : Int
  migrated : Nat := 0
  skipped : Nat := 0

namespace Migration

section

variable (sel : RequestPipelineSelector κ ρ) (m : Migration)

/-- The start of `gradual_migrate`; without the version there is only an error. -/
def start (targetVersion : Int) (batchSize : Option Int) : Except String Migration :=
  match sel.versions.get? targetVersion with
  | none => .error s!"Version {targetVersion} not found"
  | some _ =>
    .ok { targetVersion
          batchSize := ((batchSize.filter fun n => decide (n ≠ 0)).getD sel.migrationBatchSize) }

def candidates : List ρ :=
  sliceTo m.batchSize
    ((sel.routes.entries.filter fun e => decide (e.2.topologyVersion ≠ m.targetVersion)).map
      Prod.fst)

/-- What `gradual_migrate` returns once there are no candidates: migrated, skipped, remaining. -/
def result : Nat × Nat × Nat :=
  (m.migrated, m.skipped, sel.routes.size - m.migrated - m.skipped)

end

variable [DecidableEq ρ] (sel : RequestPipelineSelector κ ρ) (m : Migration)

def round : Migration × RequestPipelineSelector κ ρ :=
  (m.candidates sel).foldl (fun (m, sel) rid =>
    match sel.migrateRequest rid m.targetVersion with
    | (true, sel) => ({ m with migrated := m.migrated + 1 }, sel)
    | (false, sel) => ({ m with skipped := m.skipped + 1 }, sel)) (m, sel)

end Migration

/-- The version map is shared with the reconfigurator, which stores and drops versions. -/
inductive SelectorAction (κ ρ : Type)
  | assign (requestId : ρ)
  | complete (requestId : ρ)
  | activate (version : Int)
  | deactivate (version : Int)
  | migrate (requestId : ρ) (targetVersion : Int)
  | migrationRound (m : Migration)
  | store (version : Int) (topo : TopologyVersion κ)
  | drop (version : Int)

namespace RequestPipelineSelector

variable [DecidableEq ρ]

def exec (sel : RequestPipelineSelector κ ρ) : SelectorAction κ ρ → RequestPipelineSelector κ ρ
  | .assign requestId => (sel.assignRequest requestId).2
  | .complete requestId => sel.completeRequest requestId
  | .activate version => (sel.activateVersion version).2
  | .deactivate version => (sel.deactivateVersion version).2
  | .migrate requestId targetVersion => (sel.migrateRequest requestId targetVersion).2
  | .migrationRound m => (m.round sel).2
  | .store version topo => { sel with versions := sel.versions.set version topo }
  | .drop version =>
    { sel with versions := sel.versions.filterKeys fun v => decide (v ≠ version) }

end RequestPipelineSelector

/-- The selector is constructed with an initial version that the map has. -/
def selecting (κ ρ : Type) [DecidableEq ρ] :
    Machine (RequestPipelineSelector κ ρ) (SelectorAction κ ρ) where
  init sel := ∃ versions initialVersion migrationBatchSize,
    (Dict.get? versions initialVersion).isSome = true ∧
      sel = .create versions initialVersion migrationBatchSize
  enabled _ _ := True
  exec := RequestPipelineSelector.exec

/-- Requests in flight and new requests have an active version, and nobody is counted twice. -/
structure LivePipelines [DecidableEq ρ] (sel : RequestPipelineSelector κ ρ) : Prop where
  routed : ∀ r route, sel.routes.get? r = some route →
    route.topologyVersion ∈ sel.activeVersions
  counted : ∀ r ∈ sel.inFlightRequests, ∃! v, r ∈ sel.inFlightOnTopology v
  once : ∀ v, (sel.inFlightOnTopology v).Nodup ∧
    sel.inFlightCount.getD v 0 = (sel.inFlightOnTopology v).length
  assigned : ∀ r, (sel.assignRequest r).1.topologyVersion ∈ sel.activeVersions

/-- A call deactivates the version of new requests only where it has no effect, and migrates only
to active versions. -/
def KeepsLive [DecidableEq ρ] (sel : RequestPipelineSelector κ ρ) : SelectorAction κ ρ → Prop
  | .deactivate version =>
    version ≠ sel.currentVersion ∨ version ∉ sel.activeVersions ∨
      sel.inFlightOnTopology version ≠ []
  | .migrate requestId targetVersion =>
    targetVersion ∈ sel.activeVersions ∨ sel.versions.get? targetVersion = none ∨
      sel.routes.get? requestId = none
  | .migrationRound m =>
    m.targetVersion ∈ sel.activeVersions ∨ sel.versions.get? m.targetVersion = none ∨
      m.candidates sel = []
  | _ => True

section

variable [DecidableEq ρ] {sel : RequestPipelineSelector κ ρ}

omit [DecidableEq ρ] in
theorem count_foldl (routes : List (RequestRoute ρ)) (counts : Dict Int Nat) (v : Int) :
    (routes.foldl (fun counts route => counts.set route.topologyVersion
      (counts.getD route.topologyVersion 0 + 1)) counts).getD v 0 = counts.getD v 0 +
          (routes.filter fun route => decide (route.topologyVersion = v)).length := by
  induction routes generalizing counts with
  | nil => simp
  | cons route rest ih =>
    rw [List.foldl_cons, ih, Dict.getD_set]
    by_cases here : route.topologyVersion = v
    · subst here
      simp
      omega
    · simp [here]

omit [DecidableEq ρ] in
theorem inFlightCount_eq (sel : RequestPipelineSelector κ ρ) (v : Int) :
    sel.inFlightCount.getD v 0 = (sel.inFlightOnTopology v).length := by
  rw [RequestPipelineSelector.inFlightCount, count_foldl]
  simp only [Dict.getD, Dict.get?_empty, Option.getD_none, Nat.zero_add,
    RequestPipelineSelector.inFlightOnTopology, List.length_map, Dict.values, List.filter_map]
  rfl

theorem mem_inFlightOnTopology (r : ρ) (v : Int) : r ∈ sel.inFlightOnTopology v ↔
      ∃ route, sel.routes.get? r = some route ∧ route.topologyVersion = v := by
  simp only [RequestPipelineSelector.inFlightOnTopology, List.mem_map, List.mem_filter,
    decide_eq_true_eq, Prod.exists, Dict.mem_entries_iff]
  constructor
  · rintro ⟨_, route, found, rfl⟩
    exact ⟨route, found⟩
  · rintro ⟨route, found⟩
    exact ⟨r, route, found, rfl⟩

omit [DecidableEq ρ] in
theorem nodup_inFlightOnTopology (v : Int) : (sel.inFlightOnTopology v).Nodup :=
  sel.routes.distinct.sublist (List.filter_sublist.map Prod.fst)

/-- The versions of requests in flight and of new requests are active. -/
structure Active (sel : RequestPipelineSelector κ ρ) : Prop where
  routed : ∀ r route, sel.routes.get? r = some route →
    route.topologyVersion ∈ sel.activeVersions
  current : sel.currentVersion ∈ sel.activeVersions

theorem Active.live (active : Active sel) : LivePipelines sel where
  routed := active.routed
  counted r member := by
    obtain ⟨route, found⟩ := (Dict.mem_keys_iff _).mp member
    refine ⟨route.topologyVersion, (mem_inFlightOnTopology r _).mpr ⟨route, found, rfl⟩, ?_⟩
    intro v counted
    obtain ⟨route', found', version⟩ := (mem_inFlightOnTopology r v).mp counted
    rw [found] at found'
    cases found'
    exact version.symm
  once v := ⟨nodup_inFlightOnTopology v, inFlightCount_eq sel v⟩
  assigned _ := active.current

theorem LivePipelines.active [Nonempty ρ] (live : LivePipelines sel) : Active sel :=
  ⟨live.routed, live.assigned (Classical.arbitrary ρ)⟩

/-! ### Calls -/

theorem Active.setRoute (active : Active sel) {v : Int} (target : v ∈ sel.activeVersions)
    {r : ρ} {topologyId : String} {metrics : SelectorMetrics} :
    Active { sel with
      routes := sel.routes.set r { requestId := r, topologyVersion := v, topologyId }
      metrics } where
  routed r' route found := by
    rw [Dict.get?_set] at found
    split at found
    next =>
      cases found
      exact target
    next => exact active.routed r' route found
  current := active.current

theorem migrateRequest_cases (sel : RequestPipelineSelector κ ρ) (r : ρ) (v : Int) :
    (sel.versions.get? v = none ∨ sel.routes.get? r = none) ∧
        sel.migrateRequest r v = (false, sel) ∨
      ∃ topo old, sel.versions.get? v = some topo ∧ sel.routes.get? r = some old ∧
        sel.migrateRequest r v = (true, { sel with
          routes := sel.routes.set r
            { requestId := r, topologyVersion := v, topologyId := topo.topologyId }
          metrics := { sel.metrics with migrations := sel.metrics.migrations + 1 } }) := by
  unfold RequestPipelineSelector.migrateRequest
  cases known : sel.versions.get? v with
  | none => simp
  | some topo =>
    cases present : sel.routes.get? r with
    | none => simp
    | some old => simp

theorem round_spec (rids : List ρ) (m : Migration) (sel : RequestPipelineSelector κ ρ) :
    let after := (rids.foldl (fun (m, sel) rid =>
      match sel.migrateRequest rid m.targetVersion with
      | (true, sel) => ({ m with migrated := m.migrated + 1 }, sel)
      | (false, sel) => ({ m with skipped := m.skipped + 1 }, sel)) (m, sel)).2
    after.versions = sel.versions ∧ after.activeVersions = sel.activeVersions ∧
      after.currentVersion = sel.currentVersion ∧
      ∀ r, after.getRequestTopology r =
        if r ∈ rids ∧ (sel.versions.get? m.targetVersion).isSome then
          (sel.routes.get? r).map fun _ => m.targetVersion
        else sel.getRequestTopology r := by
  induction rids generalizing m sel with
  | nil => simp
  | cons rid rest ih =>
    rcases migrateRequest_cases sel rid m.targetVersion with
      ⟨nothing, same⟩ | ⟨topo, old, known, present, moved⟩
    · obtain ⟨versions, active, current, routes⟩ :=
        ih { m with skipped := m.skipped + 1 } sel
      simp only [List.foldl_cons, same]
      refine ⟨versions, active, current, fun r => (routes r).trans ?_⟩
      by_cases first : r = rid
      · subst first
        rcases nothing with unknown | absent
        · simp [unknown]
        · simp [absent, RequestPipelineSelector.getRequestTopology]
      · simp [first]
    · obtain ⟨versions, active, current, routes⟩ :=
        ih { m with migrated := m.migrated + 1 } { sel with
          routes := sel.routes.set rid { requestId := rid, topologyVersion := m.targetVersion,
                                         topologyId := topo.topologyId }
          metrics := { sel.metrics with migrations := sel.metrics.migrations + 1 } }
      simp only [List.foldl_cons, moved]
      refine ⟨versions, active, current, fun r => (routes r).trans ?_⟩
      by_cases first : r = rid
      · subst first
        simp [RequestPipelineSelector.getRequestTopology, known, present]
      · simp [RequestPipelineSelector.getRequestTopology, known, first, Dict.get?_set,
          Ne.symm first]

theorem mem_candidates {m : Migration} {r : ρ} (member : r ∈ m.candidates sel) :
    ∃ route, sel.routes.get? r = some route := by
  obtain ⟨e, inside, rfl⟩ := List.mem_map.mp (mem_of_mem_sliceTo member)
  exact ⟨e.2, (Dict.mem_entries_iff _ _ _).mp (List.mem_filter.mp inside).1⟩

section

variable (active : Active sel)

include active

theorem Active.of_topology {sel' : RequestPipelineSelector κ ρ}
    (grows : sel.activeVersions ⊆ sel'.activeVersions)
    (current : sel'.currentVersion ∈ sel'.activeVersions)
    (routes : ∀ r v, sel'.getRequestTopology r = some v →
      v ∈ sel'.activeVersions ∨ sel.getRequestTopology r = some v) : Active sel' := by
  refine ⟨fun r route found => ?_, current⟩
  have topology : sel'.getRequestTopology r = some route.topologyVersion := by
    simp [RequestPipelineSelector.getRequestTopology, found]
  rcases routes r _ topology with there | before
  · exact there
  · obtain ⟨old, present, version⟩ := Option.map_eq_some_iff.mp before
    exact grows (version ▸ active.routed r old present)

theorem Active.complete (r : ρ) : Active (sel.completeRequest r) := by
  refine active.of_topology (fun _ => id) active.current fun r' v found => .inr ?_
  simp only [RequestPipelineSelector.completeRequest, RequestPipelineSelector.getRequestTopology,
    Dict.get?_filterKeys] at found ⊢
  split at found
  · exact found
  · cases found

theorem Active.activate (v : Int) : Active (sel.activateVersion v).2 := by
  unfold RequestPipelineSelector.activateVersion
  split
  · exact active
  · refine active.of_topology (Finset.subset_insert _ _) ?_ fun _ _ found => .inr found
    dsimp only
    split
    · exact Finset.mem_insert_self _ _
    · exact Finset.mem_insert_of_mem active.current

theorem Active.deactivate_iff (v : Int) :
    Active (sel.deactivateVersion v).2 ↔ KeepsLive sel (.deactivate v) := by
  simp only [RequestPipelineSelector.deactivateVersion, KeepsLive]
  by_cases inactive : v ∉ sel.activeVersions
  · simp [inactive, active]
  by_cases busy : sel.inFlightOnTopology v ≠ []
  · simp [inactive, busy, active]
  -- the version goes
  rw [if_neg inactive, if_neg busy]
  constructor
  · intro after
    exact .inl (Finset.ne_of_mem_erase after.current).symm
  · intro keeps
    have other : v ≠ sel.currentVersion := by tauto
    refine ⟨fun r route found => ?_, Finset.mem_erase.mpr ⟨other.symm, active.current⟩⟩
    refine Finset.mem_erase.mpr ⟨fun here => busy ?_, active.routed r route found⟩
    exact List.ne_nil_of_mem ((mem_inFlightOnTopology r v).mpr ⟨route, found, here⟩)

theorem Active.migrate_iff (r : ρ) (v : Int) :
    Active (sel.migrateRequest r v).2 ↔ KeepsLive sel (.migrate r v) := by
  rw [KeepsLive]
  rcases migrateRequest_cases sel r v with ⟨nothing, same⟩ | ⟨topo, old, known, present, moved⟩
  · rw [same]
    exact iff_of_true active (.inr nothing)
  · rw [moved]
    simp only [known, present, reduceCtorEq, or_false]
    constructor
    · intro after
      exact after.routed r _ (Dict.get?_set_self _ _ _)
    · exact fun target => active.setRoute target

/-- A round with something to migrate puts requests on the target version. -/
theorem Active.round_iff (m : Migration) :
    Active (m.round sel).2 ↔ KeepsLive sel (.migrationRound m) := by
  obtain ⟨versions, actives, current, routes⟩ := round_spec (m.candidates sel) m sel
  simp only [KeepsLive, Migration.round]
  constructor
  · intro after
    by_contra wrong
    push Not at wrong
    obtain ⟨inactive, known, some⟩ := wrong
    obtain ⟨r, member⟩ := List.exists_mem_of_ne_nil _ some
    obtain ⟨route, present⟩ := mem_candidates member
    have moved := routes r
    rw [if_pos ⟨member, Option.isSome_iff_ne_none.mpr known⟩, present] at moved
    obtain ⟨route', found, version⟩ := Option.map_eq_some_iff.mp moved
    have there := after.routed r route' found
    rw [version, actives] at there
    exact inactive there
  · intro keeps
    refine active.of_topology (fun v there => actives ▸ there) (by
      rw [current, actives]
      exact active.current) fun r v found => ?_
    rw [routes r] at found
    split at found
    next moved =>
      left
      obtain ⟨_, _, rfl⟩ := Option.map_eq_some_iff.mp found
      rcases keeps with target | unknown | none
      · exact actives ▸ target
      · simp [unknown] at moved
      · simp [none] at moved
    next => exact .inr found

theorem Active.exec_iff (act : SelectorAction κ ρ) :
    Active (sel.exec act) ↔ KeepsLive sel act := by
  cases act with
  | assign r => exact iff_of_true (active.setRoute active.current) trivial
  | complete r => exact iff_of_true (active.complete r) trivial
  | activate v => exact iff_of_true (active.activate v) trivial
  | deactivate v => exact active.deactivate_iff v
  | migrate r v => exact active.migrate_iff r v
  | migrationRound m => exact active.round_iff m
  | store v topo => exact iff_of_true ⟨active.routed, active.current⟩ trivial
  | drop v => exact iff_of_true ⟨active.routed, active.current⟩ trivial

end

theorem create_active_iff {versions : Versions κ} {v n : Int} :
    Active (.create versions v n : RequestPipelineSelector κ ρ) ↔
      (Dict.get? versions v).isSome = true := by
  constructor
  · intro active
    by_contra unknown
    simpa [RequestPipelineSelector.create, unknown] using active.current
  · intro known
    refine ⟨fun r route found => ?_, ?_⟩
    · simp [RequestPipelineSelector.create] at found
    · simp [RequestPipelineSelector.create, known]

/-- **Live pipelines.** Constructed with an initial version that the map has, and in a run that
deactivates no version new requests get and migrates to active versions only, the selector has
every request in flight on an active version, counts nobody twice, and assigns new requests to an
active version. The condition is exact: a call keeps this so if and only if it meets it, and the
constructor brings it about if and only if the map has the version. -/
theorem pipelines_live (reached : (selecting κ ρ).Reaches KeepsLive sel) : LivePipelines sel ∧
      ∀ [Nonempty ρ], (∀ act, LivePipelines (sel.exec act) ↔ KeepsLive sel act) ∧
        ∀ (versions : Versions κ) v n,
          LivePipelines (.create versions v n : RequestPipelineSelector κ ρ) ↔
            (versions.get? v).isSome = true := by
  have active : Active sel := by
    apply Machine.Reaches.invariant _ _ reached
    · rintro sel ⟨versions, v, n, known, rfl⟩
      exact create_active_iff.mpr known
    · intro sel act active _ keeps
      exact (active.exec_iff act).mpr keeps
  refine ⟨active.live, fun act => ?_, fun versions v n => ?_⟩
  · rw [← active.exec_iff act]
    exact ⟨LivePipelines.active, Active.live⟩
  · rw [← create_active_iff (ρ := ρ) (n := n)]
    exact ⟨LivePipelines.active, Active.live⟩

end

def twoVersions : RequestPipelineSelector String String :=
  .create ⟨[(1, ⟨1, "v1", []⟩), (2, ⟨2, "v2", []⟩)], by decide⟩ 1

theorem twoVersions_init : (selecting String String).init twoVersions :=
  ⟨_, 1, 1, by decide, rfl⟩

/-- A request moves to the second version, which is active, and the first one goes. -/
theorem pipelines_live_moved :
    LivePipelines ([SelectorAction.assign "r", .activate 2, .migrate "r" 2, .deactivate 1].foldl
      (selecting String String).exec twoVersions) := by
  refine (pipelines_live (.of_follows (.init twoVersions_init) _ ?_)).1
  exact ⟨trivial, trivial, trivial, trivial, trivial, .inl (by decide), trivial, .inl (by decide),
    trivial⟩

/-- Without a request in flight the version that new requests get can be deactivated. -/
theorem deactivated_version_assigned :
    ¬ ∀ sel, (selecting String String).Reachable sel → LivePipelines sel := by
  intro all
  have reached : (selecting String String).Reachable _ :=
    .of_follows (.init twoVersions_init) [.deactivate 1] ⟨trivial, trivial, trivial⟩
  have assigned := (all _ reached).assigned "r"
  revert assigned
  decide

end DistLLM.Reconfig
