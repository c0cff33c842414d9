import DistLLM.Library.Machine
import DistLLM.Usage.Meter

/-!
# Metering across restarts

Beside the process and its store runs the same process on a store of its own and is never
restarted. What the two show agrees up to the record ids while no id repeats in the table and
quotas are stored as they are set; the JSONL file gives back the records only, so there nothing may
have been recorded or set before a restart. The ids agree too while every record that a process has
is its own.
-/
namespace DistLLM.Usage

open Library

/-- A process with its store, and the same run without the restarts. -/
structure Run where
  process : Metering
  uninterrupted : Metering

inductive Action
  | recordRequest (request : Request) (clock : Clock)
  | setQuota (tenantId : String) (quota : QuotaLimit)
  | restart

/-- The run without restarts numbers its records with its own counter. -/
def exec (prices : Prices) (r : Run) : Action → Run
  | .recordRequest request clock =>
    { process := r.process.recordRequest prices request clock
      uninterrupted := r.uninterrupted.recordRequest prices request clock }
  | .setQuota tenantId quota =>
    { process := r.process.setQuota tenantId quota
      uninterrupted := r.uninterrupted.setQuota tenantId quota }
  | .restart => { r with process := r.process.restart }

def emptyDatabase : Database := ⟨∅, ∅, ∅⟩

def Run.start (storage : Storage) : Run := ⟨⟨.init storage, storage⟩, ⟨.init storage, storage⟩⟩

def metering (prices : Prices) : Machine Run Action where
  init r := r = .start (.sqlite emptyDatabase) ∨ r = .start (.jsonl [])
  enabled _ _ := True
  exec := exec prices

/-- A record with its id as it is shown. -/
def showId (shown : String → String) (record : UsageRecord) : UsageRecord :=
  { record with recordId := shown record.recordId }

/-- The ids left out. -/
def withoutId (_ : String) : String := ""

/-- What is seen is what is seen without the restarts, the ids as they are shown. -/
structure Survives (shown : String → String) (r : Run) : Prop where
  once : (r.process.meter.inMemoryRecords.map (showId shown)).Perm
    (r.uninterrupted.meter.inMemoryRecords.map (showId shown))
  records : ∀ query, (r.process.records query).map (showId shown) =
    (r.uninterrupted.records query).map (showId shown)
  invoices : ∀ clock tenantId periodStart periodEnd,
    r.process.meter.generateInvoice clock tenantId periodStart periodEnd =
      r.uninterrupted.meter.generateInvoice clock tenantId periodStart periodEnd
  totals : ∀ tenantId,
    r.process.meter.tenantUsage tenantId = r.uninterrupted.meter.tenantUsage tenantId
  verdicts : ∀ clock tenantId requestedTokens,
    r.process.meter.checkQuota clock tenantId requestedTokens =
      r.uninterrupted.meter.checkQuota clock tenantId requestedTokens

/-! ### Records up to what is shown of their ids -/

variable {shown : String → String}

theorem queryRows_showId {rows rows' : List UsageRecord}
    (same : rows.map (showId shown) = rows'.map (showId shown)) (query : RecordQuery) :
    (queryRows rows query).map (showId shown) = (queryRows rows' query).map (showId shown) := by
  have queried : ∀ rows, (queryRows rows query).map (showId shown) =
      queryRows (rows.map (showId shown)) query := by
    intro rows
    have filtered : (rows.filter query.accepts).map (showId shown) =
        (rows.map (showId shown)).filter query.accepts := by
      rw [List.filter_map]
      rfl
    have sorted := (rows.filter query.accepts).map_insertionSort (showId shown)
      (r := fun r r' => r'.timestamp ≤ r.timestamp) (s := fun r r' => r'.timestamp ≤ r.timestamp)
      fun _ _ _ _ => Iff.rfl
    simp only [queryRows, ← filtered, ← sorted, ← List.map_drop, ← List.map_take, List.map_map]
    rfl
  rw [queried, queried, same]

/-- The same quotas and totals, and the same records in some order, the ids as they are shown. -/
structure SameMemory (shown : String → String) (m m' : UsageMeter) : Prop where
  records : (m.inMemoryRecords.map (showId shown)).Perm (m'.inMemoryRecords.map (showId shown))
  quotas : m.quotas = m'.quotas
  tenants : m.tenants = m'.tenants

namespace SameMemory

variable {m m' : UsageMeter} (same : SameMemory shown m m')

include same

theorem invoices (clock : Clock) (tenantId : String)
    (periodStart periodEnd : Option ℚ) : m.generateInvoice clock tenantId periodStart periodEnd =
      m'.generateInvoice clock tenantId periodStart periodEnd := by
  have billed : ∀ start stop, ((m.billed tenantId start stop).map (showId shown)).Perm
      ((m'.billed tenantId start stop).map (showId shown)) := by
    intro start stop
    have filtered := same.records.filter fun r =>
      decide (r.tenantId = tenantId ∧ start ≤ r.timestamp ∧ r.timestamp ≤ stop)
    rwa [List.filter_map, List.filter_map] at filtered
  have overage : ∀ totalCost,
      m.overageCost tenantId totalCost = m'.overageCost tenantId totalCost := by
    intro totalCost
    rw [UsageMeter.overageCost, same.quotas]
    rfl
  have billed := billed (orElse periodStart clock.periodStart) (orElse periodEnd clock.periodEnd)
  have length := billed.length_eq
  have cost := (billed.map UsageRecord.cost).sum_eq
  have inputTokens := (billed.map UsageRecord.inputTokens).sum_eq
  have outputTokens := (billed.map UsageRecord.outputTokens).sum_eq
  simp only [List.length_map, List.map_map] at length cost inputTokens outputTokens
  change (List.map UsageRecord.cost _).sum = (List.map UsageRecord.cost _).sum at cost
  change (List.map UsageRecord.inputTokens _).sum = (List.map UsageRecord.inputTokens _).sum
    at inputTokens
  change (List.map UsageRecord.outputTokens _).sum = (List.map UsageRecord.outputTokens _).sum
    at outputTokens
  simp only [UsageMeter.generateInvoice, length, cost, inputTokens, outputTokens, overage]

theorem verdicts (clock : Clock) (tenantId : String) (requestedTokens : Option Int) :
    m.checkQuota clock tenantId requestedTokens = m'.checkQuota clock tenantId requestedTokens := by
  rw [UsageMeter.checkQuota, same.quotas, same.tenants]
  rfl

theorem charged (prices : Prices) (request : Request) (clock : Clock) :
    m.charged prices request clock = m'.charged prices request clock := by
  rw [UsageMeter.charged, same.tenants]
  rfl

theorem remember (prices : Prices) {record record' : UsageRecord}
    (made : showId shown record = showId shown record') (request : Request)
    (clock : Clock) : SameMemory shown (m.remember prices record request clock)
      (m'.remember prices record' request clock) := by
  constructor
  · simp only [UsageMeter.remember, List.map_append, List.map_cons, List.map_nil, made]
    exact same.records.append_right _
  · exact same.quotas
  · simp only [UsageMeter.remember, same.tenants, same.charged]

end SameMemory

/-- No id is taken and quotas are stored as they are; the JSONL file restarts with nothing. -/
def LosslessOn (prices : Prices) (m : UsageMeter) : Storage → Action → Prop
  | .sqlite db, .recordRequest request clock =>
    db.usageRecords.get? (makeRecord prices m.recordCounter request clock).recordId = none
  | .sqlite _, .setQuota tenantId quota =>
    quota.tenantId = tenantId ∧ quota.overageMultiplier ≠ 0
  | .jsonl _, .restart => m.inMemoryRecords = [] ∧ m.quotas.size = 0
  | _, _ => True

instance (prices : Prices) (m : UsageMeter) :
    ∀ storage a, Decidable (LosslessOn prices m storage a)
  | .sqlite _, .recordRequest _ _ => inferInstanceAs (Decidable (_ = none))
  | .sqlite _, .setQuota _ _ => inferInstanceAs (Decidable (_ ∧ _))
  | .sqlite _, .restart => .isTrue trivial
  | .jsonl _, .recordRequest _ _ => .isTrue trivial
  | .jsonl _, .setQuota _ _ => .isTrue trivial
  | .jsonl _, .restart => inferInstanceAs (Decidable (_ ∧ _))

def Lossless (prices : Prices) (r : Run) (a : Action) : Prop :=
  LosslessOn prices r.process.meter r.process.storage a

instance (prices : Prices) (r : Run) (a : Action) : Decidable (Lossless prices r a) :=
  inferInstanceAs (Decidable (LosslessOn ..))

/-- A request is recorded while every record in memory is the process's own. -/
def OwnRecords (r : Run) : Action → Prop
  | .recordRequest _ _ => r.process.meter.inMemoryRecords.length = r.process.meter.recordCounter
  | _ => True

instance (r : Run) : ∀ a, Decidable (OwnRecords r a)
  | .recordRequest _ _ => inferInstanceAs (Decidable (_ = _))
  | .setQuota _ _ => .isTrue trivial
  | .restart => .isTrue trivial

/-- The tables hold the memory that is not restarted. -/
structure Backed (shown : String → String) (db : Database) (m : UsageMeter) : Prop where
  rows : db.usageRecords.values.map (showId shown) = m.inMemoryRecords.map (showId shown)
  quotas : db.quotas = m.quotas
  tenants : db.tenantUsage = m.tenants
  loads : ∀ tenantId quota, m.quotas.get? tenantId = some quota → quota.loaded tenantId = quota
  own : ∀ tenantId tenant, m.tenants.get? tenantId = some tenant → tenant.tenantId = tenantId

namespace Backed

variable {db : Database} {m : UsageMeter} (backed : Backed shown db m)

include backed

theorem loaded : SameMemory shown (.init (.sqlite db)) m := by
  constructor
  · have sorted : (byTimestamp db.usageRecords.values).Perm db.usageRecords.values :=
      List.perm_insertionSort _ _
    have shown_sorted := sorted.map (showId shown)
    rwa [backed.rows] at shown_sorted
  · rw [← backed.quotas]
    apply Dict.mapValues_eq_self
    rw [backed.quotas]
    exact backed.loads
  · have same : db.tenantUsage.mapValues (fun tenantId row => { row with tenantId := tenantId }) =
        db.tenantUsage := by
      apply Dict.mapValues_eq_self
      intro tenantId tenant found
      rw [backed.tenants] at found
      obtain rfl := backed.own tenantId tenant found
      rfl
    exact same.trans backed.tenants

theorem charged_own (prices : Prices) (request : Request) (clock : Clock) :
    (m.charged prices request clock).tenantId = request.tenantId := by
  cases found : m.tenants.get? request.tenantId with
  | none => simp [UsageMeter.charged, found, TenantUsage.add, newTenant]
  | some tenant => simp [UsageMeter.charged, found, TenantUsage.add, backed.own _ _ found]

theorem upsertTenant_charged (prices : Prices) (request : Request) (clock : Clock) :
    db.upsertTenant (m.charged prices request clock) =
      { db with
        tenantUsage := db.tenantUsage.set request.tenantId (m.charged prices request clock) } := by
  have own := backed.charged_own prices request clock
  rw [Database.upsertTenant, own, backed.tenants]
  cases found : m.tenants.get? request.tenantId with
  | none => rfl
  | some tenant => simp [UsageMeter.charged, found, TenantUsage.add, backed.own _ _ found]

/-- A row whose id is free is inserted, whichever of the two counters numbered it. -/
theorem recordRequest (prices : Prices) {record record' : UsageRecord}
    (fresh : db.usageRecords.get? record.recordId = none)
    (made : showId shown record = showId shown record') (request : Request) (clock : Clock) :
    Backed shown ((db.insertRecord record).upsertTenant (m.charged prices request clock))
      (m.remember prices record' request clock) := by
  have inserted : db.insertRecord record =
      { db with usageRecords := db.usageRecords.set record.recordId record } := by
    rw [Database.insertRecord, fresh]
  have kept : Backed shown (db.insertRecord record)
      { m with inMemoryRecords := m.inMemoryRecords ++ [record'] } := by
    rw [inserted]
    constructor
    · have rows := backed.rows
      simp only [Dict.values, db.usageRecords.entries_set_of_absent record.recordId record fresh,
        List.map_append, List.map_cons, List.map_nil, made] at rows ⊢
      rw [rows]
    · exact backed.quotas
    · exact backed.tenants
    · exact backed.loads
    · exact backed.own
  have upserted := kept.upsertTenant_charged prices request clock
  change (db.insertRecord record).upsertTenant (m.charged prices request clock) = _ at upserted
  rw [upserted]
  constructor
  · exact kept.rows
  · exact kept.quotas
  · simp only [UsageMeter.remember, kept.tenants]
    rfl
  · exact kept.loads
  · intro tenantId tenant found
    simp only [UsageMeter.remember, Dict.get?_set] at found
    split at found
    next here =>
      obtain rfl := Option.some.inj found
      rw [← here]
      exact backed.charged_own prices request clock
    next => exact backed.own tenantId tenant found

theorem setQuota {tenantId : String} {quota : QuotaLimit} (named : quota.tenantId = tenantId)
    (multiplier : quota.overageMultiplier ≠ 0) :
    Backed shown (db.upsertQuota quota) { m with quotas := m.quotas.set tenantId quota } := by
  subst named
  constructor
  · exact backed.rows
  · simp only [Database.upsertQuota, backed.quotas]
  · exact backed.tenants
  · intro tenantId other found
    rw [Dict.get?_set] at found
    split at found
    next here =>
      obtain rfl := Option.some.inj found
      simp [QuotaLimit.loaded, ← here, multiplier]
    next => exact backed.loads tenantId other found
  · exact backed.own

end Backed

/-! ### The ids of one counter -/

theorem after_last_dash {a a' c c' : List Char} (plain : '-' ∉ c) (plain' : '-' ∉ c')
    (same : a ++ '-' :: c = a' ++ '-' :: c') : c = c' := by
  rcases List.append_eq_append_iff.mp same with ⟨b, -, split⟩ | ⟨b, -, split⟩
  · cases b with
    | nil => exact (List.cons.inj split).2
    | cons _ b =>
      have inner := (List.cons.inj split).2
      exact absurd (inner ▸ List.mem_append_right b List.mem_cons_self) plain
  · cases b with
    | nil => exact (List.cons.inj split).2.symm
    | cons _ b =>
      have inner := (List.cons.inj split).2
      exact absurd (inner ▸ List.mem_append_right b List.mem_cons_self) plain'

theorem dash_notMem_toDigits (n : Nat) : '-' ∉ Nat.toDigits 10 n := by
  intro found
  have digit := Nat.isDigit_of_mem_toDigits (by decide) (by decide) found
  revert digit
  decide

/-- The ids of two counter values differ, whatever the clock shows. -/
theorem counter_of_id {seconds seconds' : Int} {n n' : Nat}
    (same : "usage-" ++ toString seconds ++ "-" ++ toString n =
      "usage-" ++ toString seconds' ++ "-" ++ toString n') : n = n' := by
  have chars := congrArg String.toList same
  simp only [String.toList_append, Nat.toString_eq_repr, Nat.toList_repr] at chars
  have dash : "-".toList = ['-'] := rfl
  simp only [dash, List.append_assoc, List.singleton_append] at chars
  rw [← List.append_assoc, ← List.append_assoc] at chars
  have digits := after_last_dash (dash_notMem_toDigits n) (dash_notMem_toDigits n') chars
  have numbers := congrArg (Nat.ofDigitChars 10 · 0) digits
  simpa only [Nat.ofDigitChars_toDigits (by decide : 1 < 10) (by decide : 10 ≤ 10)] using numbers

/-- The rows of a process that was never restarted are numbered up to its counter. -/
structure Numbered (db : Database) (m : UsageMeter) : Prop where
  ids : ∀ id record, db.usageRecords.get? id = some record →
    ∃ (seconds : Int) (n : Nat), n ≤ m.recordCounter ∧
      id = "usage-" ++ toString seconds ++ "-" ++ toString n
  counter : m.inMemoryRecords.length = m.recordCounter

namespace Numbered

variable {db : Database} {m : UsageMeter} (numbered : Numbered db m)

include numbered

theorem fresh (prices : Prices) (request : Request) (clock : Clock) :
    db.usageRecords.get? (makeRecord prices m.recordCounter request clock).recordId = none := by
  rw [Option.eq_none_iff_forall_ne_some]
  intro record found
  obtain ⟨seconds, n, bound, same⟩ := numbered.ids _ record found
  have := counter_of_id same
  omega

theorem recordRequest (prices : Prices) (request : Request) (clock : Clock)
    (tenant : TenantUsage) :
    Numbered ((db.insertRecord (makeRecord prices m.recordCounter request clock)).upsertTenant
        tenant)
      (m.remember prices (makeRecord prices m.recordCounter request clock) request clock) := by
  constructor
  · intro id record found
    simp only [Database.upsertTenant, Database.insertRecord, numbered.fresh, Dict.get?_set] at found
    split at found
    next here => exact ⟨clock.seconds, m.recordCounter + 1, Nat.le_refl _, here.symm⟩
    next =>
      obtain ⟨seconds, n, bound, same⟩ := numbered.ids id record found
      exact ⟨seconds, n, Nat.le_succ_of_le bound, same⟩
  · simp [UsageMeter.remember, numbered.counter]

end Numbered

/-! ### The invariant -/

/-- What the two processes and their stores hold, by the backend: through the JSONL file nothing
was ever restarted that differs from a process just started. -/
inductive Kept (shown : String → String) : Run → Prop
  | sqlite {m m' : UsageMeter} {db db' : Database} (same : SameMemory shown m m')
    (backed : Backed shown db m') (backed' : Backed shown db' m') (numbered : Numbered db' m') :
    Kept shown ⟨⟨m, .sqlite db⟩, ⟨m', .sqlite db'⟩⟩
  | jsonl {m : UsageMeter} {lines : List UsageRecord}
    (unused : m.inMemoryRecords = [] →
      m = { UsageMeter.init (.jsonl []) with quotas := m.quotas } ∧ lines = []) :
    Kept shown ⟨⟨m, .jsonl lines⟩, ⟨m, .jsonl lines⟩⟩

theorem kept_start (storage : Storage)
    (empty : storage = .sqlite emptyDatabase ∨ storage = .jsonl []) :
    Kept shown (.start storage) := by
  rcases empty with rfl | rfl
  · have backed : Backed shown emptyDatabase (.init (.sqlite emptyDatabase)) := by
      constructor
      · rfl
      · rfl
      · rfl
      · intro tenantId quota found
        cases found
      · intro tenantId tenant found
        cases found
    refine .sqlite backed.loaded backed backed ⟨?_, rfl⟩
    intro id record found
    cases found
  · exact .jsonl fun _ => ⟨rfl, rfl⟩

/-- The two processes give a record ids that are shown alike. -/
def ShownAlike (shown : String → String) (prices : Prices) (r : Run) : Action → Prop
  | .recordRequest request clock =>
    shown (makeRecord prices r.process.meter.recordCounter request clock).recordId =
      shown (makeRecord prices r.uninterrupted.meter.recordCounter request clock).recordId
  | _ => True

theorem Kept.exec {prices : Prices} {r : Run} {a : Action} (kept : Kept shown r)
    (lossless : Lossless prices r a) (alike : ShownAlike shown prices r a) :
    Kept shown (exec prices r a) := by
  cases kept with
  | @sqlite m m' db db' same backed backed' numbered =>
    cases a with
    | recordRequest request clock =>
      have made : showId shown (makeRecord prices m.recordCounter request clock) =
          showId shown (makeRecord prices m'.recordCounter request clock) := by
        simp only [showId, ShownAlike] at alike ⊢
        rw [alike]
        rfl
      have charged := same.charged prices request clock
      refine .sqlite (same.remember prices made request clock) ?_
        (backed'.recordRequest prices (numbered.fresh prices request clock) rfl request clock)
        (numbered.recordRequest prices request clock _)
      rw [charged]
      exact backed.recordRequest prices lossless made request clock
    | setQuota tenantId quota =>
      refine .sqlite ⟨same.records, ?_, same.tenants⟩ (backed.setQuota lossless.1 lossless.2)
        (backed'.setQuota lossless.1 lossless.2) ⟨numbered.ids, numbered.counter⟩
      simp only [same.quotas]
    | restart => exact .sqlite backed.loaded backed backed' numbered
  | @jsonl m lines unused =>
    cases a with
    | recordRequest request clock =>
      refine .jsonl ?_
      intro empty
      simp [UsageMeter.remember] at empty
    | setQuota tenantId quota =>
      refine .jsonl ?_
      intro empty
      obtain ⟨fresh, nothing⟩ := unused empty
      exact ⟨by rw [fresh], nothing⟩
    | restart =>
      -- nothing was recorded and no quota set, so there is nothing to lose
      obtain ⟨empty, unset⟩ := lossless
      obtain ⟨fresh, rfl⟩ := unused empty
      have no_quotas : m.quotas = ∅ := Dict.eq_empty_of_size unset
      rw [no_quotas] at fresh
      have restarted : UsageMeter.init (.jsonl []) = m := fresh.symm
      simp only [Usage.exec, Metering.restart, restarted]
      exact .jsonl unused

theorem Kept.survives {r : Run} (kept : Kept shown r) : Survives shown r := by
  cases kept with
  | sqlite same backed backed' numbered =>
    constructor
    · exact same.records
    · intro query
      exact queryRows_showId (backed.rows.trans backed'.rows.symm) query
    · exact same.invoices
    · intro tenantId
      exact congrArg (Dict.get? · tenantId) same.tenants
    · exact same.verdicts
  | jsonl =>
    constructor
    · exact List.Perm.refl _
    · intro query
      rfl
    · intro clock tenantId periodStart periodEnd
      rfl
    · intro tenantId
      rfl
    · intro clock tenantId requestedTokens
      rfl

/-- A process whose records are all its own counts as the one that was not restarted. -/
theorem Kept.shownAlike {prices : Prices} {r : Run} {a : Action} (kept : Kept shown r)
    (own : OwnRecords r a) : ShownAlike shown prices r a := by
  cases kept with
  | @sqlite m m' db db' same backed backed' numbered =>
    cases a with
    | recordRequest request clock =>
      have lengths : m.inMemoryRecords.length = m'.inMemoryRecords.length := by
        simpa using same.records.length_eq
      have counters : m.recordCounter = m'.recordCounter :=
        own.symm.trans (lengths.trans numbered.counter)
      simp only [ShownAlike, counters]
    | setQuota tenantId quota => trivial
    | restart => trivial
  | jsonl =>
    cases a with
    | recordRequest request clock => rfl
    | setQuota tenantId quota => trivial
    | restart => trivial

theorem start_kept {prices : Prices} {r : Run} (start : (metering prices).init r) :
    Kept shown r := by
  rcases start with rfl | rfl
  · exact kept_start _ (.inl rfl)
  · exact kept_start _ (.inr rfl)

def defaultPrices : Prices := ⟨1 / 100, 3 / 100⟩

def requestAt (seconds : Int) : Action :=
  .recordRequest
    { tenantId := "acme", modelName := "llama", inputTokens := 1000, outputTokens := 0 }
    ⟨seconds, seconds, "2024-01-01", 0, 1000⟩

/-- A quota, and requests in two processes, in different seconds. -/
def laterSecond : List Action :=
  [.setQuota "acme" { tenantId := "acme", maxTokensPerDay := 1500 }, requestAt 100, .restart,
    requestAt 101, .restart]

/-- All requests in the process between two restarts. -/
def oneProcess : List Action :=
  [.setQuota "acme" { tenantId := "acme", maxTokensPerDay := 1500 }, .restart, requestAt 100,
    requestAt 100, .restart]

theorem metering_init (prices : Prices) :
    (metering prices).init (.start (.sqlite emptyDatabase)) := Or.inl rfl

/-- The second process starts its counter over in the same second. -/
def sameSecond : List Action := [requestAt 100, .restart, requestAt 100, .restart]

end DistLLM.Usage
