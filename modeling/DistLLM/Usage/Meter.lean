import DistLLM.Library.Dict
import DistLLM.Speculative.Decoders
import Mathlib.Data.List.Sort

/-!
# The usage meter

`UsageMeter` keeps its records, the totals of the tenants and their quotas in memory, writes each
change to its store, and rebuilds the memory from the store when a process starts. Money and times
are exact.
-/
namespace DistLLM.Usage

open Library

inductive UsageRecordStatus
  | pending
  | billed
  | void
  | error
  deriving DecidableEq, Repr

structure UsageRecord where
  recordId : String
  tenantId : String
  modelName : String
  inputTokens : Int := 0
  outputTokens : Int := 0
  totalTokens : Int := 0
  requestDurationMs : ℚ := 0
  timestamp : ℚ := 0
  cost : ℚ := 0
  status : UsageRecordStatus := .pending
  labels : List (String × String) := []
  endpoint : String := ""
  keyId : String := ""
  gpuTimeSeconds : ℚ := 0
  gpuType : String := ""
  costUsd : ℚ := 0
  tokensPerSecond : ℚ := 0
  ttftMs : ℚ := 0
  deriving DecidableEq

structure QuotaLimit where
  tenantId : String
  maxTokensPerDay : Int := 0
  maxRequestsPerMinute : Int := 0
  maxTokensPerRequest : Int := 0
  maxConcurrentRequests : Int := 0
  costBudgetPerMonth : ℚ := 0
  overageAllowed : Bool := false
  overageMultiplier : ℚ := 2
  deriving DecidableEq

structure TenantUsage where
  tenantId : String
  totalInputTokens : Int := 0
  totalOutputTokens : Int := 0
  totalRequests : Int := 0
  totalCost : ℚ := 0
  currentBillingPeriodStart : ℚ := 0
  currentBillingPeriodEnd : ℚ := 0
  dailyTokens : Dict String Int := ∅

structure Request where
  tenantId : String
  modelName : String
  inputTokens : Int
  outputTokens : Int
  durationMs : ℚ := 0
  endpoint : String := ""
  labels : List (String × String) := []
  keyId : String := ""
  gpuTimeSeconds : ℚ := 0
  gpuType : String := ""
  costUsd : ℚ := 0
  tokensPerSecond : ℚ := 0
  ttftMs : ℚ := 0

/-- The clock readings of one call: the whole seconds in the id, the record's own time, the day and
the billing period. -/
structure Clock where
  seconds : Int
  time : ℚ
  dayKey : String
  periodStart : ℚ
  periodEnd : ℚ

structure Prices where
  inputPrice : ℚ
  outputPrice : ℚ

def roundTo (digits : Nat) (x : ℚ) : ℚ := Speculative.roundHalfEven (x * 10 ^ digits) / 10 ^ digits

/-- The actual cost if there is one, else the cost of the tokens. -/
def Prices.cost (prices : Prices) (request : Request) : ℚ :=
  if 0 < request.costUsd then request.costUsd
  else request.inputTokens / 1000 * prices.inputPrice +
    request.outputTokens / 1000 * prices.outputPrice

structure UsageMeter where
  inMemoryRecords : List UsageRecord
  quotas : Dict String QuotaLimit
  tenants : Dict String TenantUsage
  recordCounter : Nat

def makeRecord (prices : Prices) (recordCounter : Nat) (request : Request) (clock : Clock) :
    UsageRecord where
  recordId := "usage-" ++ toString clock.seconds ++ "-" ++ toString (recordCounter + 1)
  tenantId := request.tenantId
  modelName := request.modelName
  inputTokens := request.inputTokens
  outputTokens := request.outputTokens
  totalTokens := request.inputTokens + request.outputTokens
  requestDurationMs := request.durationMs
  timestamp := clock.time
  cost := roundTo 6 (prices.cost request)
  labels := request.labels
  endpoint := request.endpoint
  keyId := request.keyId
  gpuTimeSeconds := request.gpuTimeSeconds
  gpuType := request.gpuType
  costUsd := roundTo 8 (prices.cost request)
  tokensPerSecond := request.tokensPerSecond
  ttftMs := request.ttftMs

def newTenant (tenantId : String) (clock : Clock) : TenantUsage where
  tenantId := tenantId
  currentBillingPeriodStart := clock.periodStart
  currentBillingPeriodEnd := clock.periodEnd

def TenantUsage.add (tenant : TenantUsage) (prices : Prices) (request : Request) (clock : Clock) :
    TenantUsage :=
  { tenant with
    totalInputTokens := tenant.totalInputTokens + request.inputTokens
    totalOutputTokens := tenant.totalOutputTokens + request.outputTokens
    totalRequests := tenant.totalRequests + 1
    totalCost := roundTo 6 (tenant.totalCost + prices.cost request)
    dailyTokens := tenant.dailyTokens.set clock.dayKey
      (tenant.dailyTokens.getD clock.dayKey 0 + (request.inputTokens + request.outputTokens)) }

namespace UsageMeter

def charged (m : UsageMeter) (prices : Prices) (request : Request) (clock : Clock) : TenantUsage :=
  ((m.tenants.get? request.tenantId).getD (newTenant request.tenantId clock)).add prices request
    clock

def remember (m : UsageMeter) (prices : Prices) (record : UsageRecord) (request : Request)
    (clock : Clock) : UsageMeter :=
  { m with
    inMemoryRecords := m.inMemoryRecords ++ [record]
    tenants := m.tenants.set request.tenantId (m.charged prices request clock)
    recordCounter := m.recordCounter + 1 }

end UsageMeter

/-- The SQLite tables, each with its rows by primary key in the order of their insertion. -/
structure Database where
  usageRecords : Dict String UsageRecord
  quotas : Dict String QuotaLimit
  tenantUsage : Dict String TenantUsage

/-- The store of a backend: the tables, or the lines of the JSONL file. -/
inductive Storage
  | sqlite (db : Database)
  | jsonl (lines : List UsageRecord)

namespace Database

/-- `_sqlite_insert_record`: a key that is taken is an error, which is only logged. -/
def insertRecord (db : Database) (record : UsageRecord) : Database :=
  match db.usageRecords.get? record.recordId with
  | some _ => db
  | none => { db with usageRecords := db.usageRecords.set record.recordId record }

/-- `_sqlite_upsert_tenant`: the billing period of a row that is there stays. -/
def upsertTenant (db : Database) (tenant : TenantUsage) : Database :=
  let row := match db.tenantUsage.get? tenant.tenantId with
    | none => tenant
    | some row => { tenant with
        currentBillingPeriodStart := row.currentBillingPeriodStart
        currentBillingPeriodEnd := row.currentBillingPeriodEnd }
  { db with tenantUsage := db.tenantUsage.set tenant.tenantId row }

/-- `_sqlite_upsert_quota`, under the tenant that the quota names. -/
def upsertQuota (db : Database) (quota : QuotaLimit) : Database :=
  { db with quotas := db.quotas.set quota.tenantId quota }

end Database

/-- The fields of a record that its JSONL line has. -/
def UsageRecord.persisted (record : UsageRecord) : UsageRecord :=
  { record with
    status := .pending
    gpuTimeSeconds := 0
    gpuType := ""
    costUsd := 0
    tokensPerSecond := 0
    ttftMs := 0 }

/-- A quota row as it is read: `overage_multiplier or 2.0`. Of the other columns `or` keeps every
value. -/
def QuotaLimit.loaded (tenantId : String) (quota : QuotaLimit) : QuotaLimit :=
  { quota with
    tenantId := tenantId
    overageMultiplier := if quota.overageMultiplier = 0 then 2 else quota.overageMultiplier }

/-- `ORDER BY timestamp ASC`; SQL leaves the order of equal times open. -/
def byTimestamp (records : List UsageRecord) : List UsageRecord :=
  records.insertionSort fun r r' => r.timestamp ≤ r'.timestamp

/-- The constructor: `_load_from_sqlite` or `_load_records`. -/
def UsageMeter.init : Storage → UsageMeter
  | .sqlite db => {
      inMemoryRecords := byTimestamp db.usageRecords.values
      quotas := db.quotas.mapValues QuotaLimit.loaded
      tenants := db.tenantUsage.mapValues fun tenantId row => { row with tenantId := tenantId }
      recordCounter := 0 }
  | .jsonl lines => { inMemoryRecords := lines, quotas := ∅, tenants := ∅, recordCounter := 0 }

structure Metering where
  meter : UsageMeter
  storage : Storage

namespace Metering

def recordRequest (w : Metering) (prices : Prices) (request : Request) (clock : Clock) :
    Metering :=
  let record := makeRecord prices w.meter.recordCounter request clock
  { meter := w.meter.remember prices record request clock
    storage := match w.storage with
      | .sqlite db => .sqlite
          ((db.insertRecord record).upsertTenant (w.meter.charged prices request clock))
      | .jsonl lines => .jsonl (lines ++ [record.persisted]) }

def setQuota (w : Metering) (tenantId : String) (quota : QuotaLimit) : Metering where
  meter := { w.meter with quotas := w.meter.quotas.set tenantId quota }
  storage := match w.storage with
    | .sqlite db => .sqlite (db.upsertQuota quota)
    | .jsonl lines => .jsonl lines

/-- The process ends and another one starts on the same store. -/
def restart (w : Metering) : Metering := { w with meter := .init w.storage }

end Metering

/-! ### What is seen -/

structure RecordQuery where
  tenantId : Option String := none
  keyId : Option String := none
  modelName : Option String := none
  limit : Nat := 100
  offset : Nat := 0

/-- A filter that is None or empty lets every record pass. -/
def passes (wanted : Option String) (value : String) : Bool :=
  match wanted with
  | none | some "" => true
  | some wanted => decide (value = wanted)

def RecordQuery.accepts (query : RecordQuery) (record : UsageRecord) : Bool :=
  passes query.tenantId record.tenantId && passes query.keyId record.keyId &&
    passes query.modelName record.modelName

/-- A record as `_sqlite_query_records` builds it from a row. -/
def UsageRecord.queried (record : UsageRecord) : UsageRecord :=
  { record with gpuTimeSeconds := 0, gpuType := "", costUsd := 0, tokensPerSecond := 0, ttftMs := 0 }

/-- `_sqlite_query_records`, over the rows of the table. -/
def queryRows (rows : List UsageRecord) (query : RecordQuery) : List UsageRecord :=
  ((((rows.filter query.accepts).insertionSort fun r r' => r'.timestamp ≤ r.timestamp).drop
    query.offset).take query.limit).map UsageRecord.queried

/-- `result[-limit:]` of the records in memory, which is all of them for the limit 0. -/
def queryMemory (records : List UsageRecord) (query : RecordQuery) : List UsageRecord :=
  let result := records.filter query.accepts
  if query.limit = 0 then result else result.drop (result.length - query.limit)

def Metering.records (w : Metering) : RecordQuery → List UsageRecord :=
  match w.storage with
  | .sqlite db => queryRows db.usageRecords.values
  | .jsonl _ => queryMemory w.meter.inMemoryRecords

structure Invoice where
  tenantId : String
  periodStart : ℚ
  periodEnd : ℚ
  totalRequests : Nat
  totalInputTokens : Int
  totalOutputTokens : Int
  totalCost : ℚ
  overageCost : ℚ
  grandTotal : ℚ
  recordsGenerated : Nat
  deriving DecidableEq

/-- `period_start or self._billing_period_start()`. -/
def orElse (given : Option ℚ) (default : ℚ) : ℚ :=
  match given with
  | none => default
  | some value => if value = 0 then default else value

namespace UsageMeter

variable (m : UsageMeter)

def billed (tenantId : String) (start stop : ℚ) : List UsageRecord :=
  m.inMemoryRecords.filter fun r =>
    decide (r.tenantId = tenantId ∧ start ≤ r.timestamp ∧ r.timestamp ≤ stop)

def overageCost (tenantId : String) (totalCost : ℚ) : ℚ :=
  match m.quotas.get? tenantId with
  | none => 0
  | some quota =>
    if quota.overageAllowed ∧ 0 < quota.costBudgetPerMonth ∧ quota.costBudgetPerMonth < totalCost
    then (totalCost - quota.costBudgetPerMonth) * (quota.overageMultiplier - 1)
    else 0

def generateInvoice (clock : Clock) (tenantId : String) (periodStart periodEnd : Option ℚ) :
    Invoice :=
  let start := orElse periodStart clock.periodStart
  let stop := orElse periodEnd clock.periodEnd
  let records := m.billed tenantId start stop
  let totalCost := (records.map UsageRecord.cost).sum
  let overageCost := m.overageCost tenantId totalCost
  { tenantId := tenantId
    periodStart := start
    periodEnd := stop
    totalRequests := records.length
    totalInputTokens := (records.map UsageRecord.inputTokens).sum
    totalOutputTokens := (records.map UsageRecord.outputTokens).sum
    totalCost := roundTo 4 totalCost
    overageCost := roundTo 4 overageCost
    grandTotal := roundTo 4 (totalCost + overageCost)
    recordsGenerated := records.length }

def tenantUsage (tenantId : String) : Option TenantUsage := m.tenants.get? tenantId

inductive Verdict
  | noQuotaSet
  | perRequestLimitExceeded (limit : Int)
  | noUsageYet
  | overageAllowed
  | dailyLimitExceeded (limit : Int)
  | monthlyBudgetExceeded (budget : ℚ)
  deriving DecidableEq

/-- `check_quota` up to the cost budget; `none` where it goes on to the requests of the last minute
and those under way, which belong to the process. -/
def checkQuota (clock : Clock) (tenantId : String) (requestedTokens : Option Int) :
    Option Verdict :=
  match m.quotas.get? tenantId with
  | none => some .noQuotaSet
  | some quota =>
    if 0 < quota.maxTokensPerRequest ∧
        requestedTokens.any (fun requested => decide (quota.maxTokensPerRequest < requested)) then
      some (.perRequestLimitExceeded quota.maxTokensPerRequest)
    else
      match m.tenants.get? tenantId with
      | none => some .noUsageYet
      | some tenant =>
        if 0 < quota.maxTokensPerDay ∧
            quota.maxTokensPerDay ≤ tenant.dailyTokens.getD clock.dayKey 0 then
          some (if quota.overageAllowed then .overageAllowed
            else .dailyLimitExceeded quota.maxTokensPerDay)
        else if 0 < quota.costBudgetPerMonth ∧ quota.costBudgetPerMonth ≤ tenant.totalCost then
          some (if quota.overageAllowed then .overageAllowed
            else .monthlyBudgetExceeded quota.costBudgetPerMonth)
        else none

end UsageMeter

end DistLLM.Usage
