import Ims.States
import Ims.Library.Tables

namespace Ims.PostgresRepo

open Library.Text Library.Tables Time Models States

/-- The four tables. A sequence holds the last id it handed out; rolled back
inserts leave gaps. -/
structure Postgres where
  workItems : List WorkItem
  workItemsSeq : Int
  rca : List RCA
  rcaSeq : Int
  signalLinks : List SignalLink
  signalMetrics : List SignalMetric

def empty : Postgres := ⟨[], 0, [], 0, [], []⟩

def createWorkItem (pg : Postgres) (componentId : String) (componentType : ComponentType)
    (severity : Severity) (startTime : Datetime) (summary : Option String) (now : Int) :
    Postgres × Int :=
  let wi : WorkItem := {
    id := pg.workItemsSeq + 1, componentId, componentType, severity, state := .OPEN
    startTime := startTime.instant, endTime := none, mttrSeconds := none, signalCount := 1
    summary, createdAt := now, updatedAt := now }
  ({ pg with workItems := pg.workItems ++ [wi], workItemsSeq := pg.workItemsSeq + 1 }, wi.id)

/-- The trigger touch_updated_at stamps the row with now(), which Postgres reads
at the start of the transaction. -/
def updateWorkItem (pg : Postgres) (workItemId : Int) (f : WorkItem → WorkItem) (now : Int) :
    Postgres :=
  let workItems :=
    updateWhere (fun wi => wi.id = workItemId) (fun wi => { f wi with updatedAt := now }) pg.workItems
  { pg with workItems }

def incrementSignalCount (pg : Postgres) (workItemId now : Int) : Postgres :=
  updateWorkItem pg workItemId (fun wi => { wi with signalCount := wi.signalCount + 1 }) now

def addSignalLink (pg : Postgres) (workItemId : Int) (mongoSignalId componentId : String)
    (severity : Severity) (signalTimestamp : Datetime) : Postgres :=
  { pg with signalLinks := pg.signalLinks ++
      [⟨workItemId, mongoSignalId, componentId, severity, signalTimestamp.instant⟩] }

def hasMetricKey (bucket : Int) (componentId : String) (severity : Severity)
    (m : SignalMetric) : Bool :=
  m.bucket = bucket ∧ m.componentId = componentId ∧ m.severity = severity

/-- The statement INSERT … ON CONFLICT DO UPDATE SET count = count + 1. -/
def upsertMetricBucket (pg : Postgres) (bucket : Datetime) (componentId : String)
    (severity : Severity) : Postgres :=
  let key := hasMetricKey bucket.instant componentId severity
  { pg with signalMetrics :=
      if pg.signalMetrics.any key then
        updateWhere key (fun m => { m with count := m.count + 1 }) pg.signalMetrics
      else pg.signalMetrics ++ [⟨bucket.instant, componentId, severity, 1⟩] }

def getWorkItem (pg : Postgres) (workItemId : Int) : Option WorkItem :=
  pg.workItems.find? fun wi => wi.id = workItemId

def updateState (pg : Postgres) (workItemId : Int) (newState : WorkItemState)
    (endTime mttrSeconds : Option Int) (now : Int) : Postgres :=
  updateWorkItem pg workItemId (fun wi => { wi with
    state := newState
    endTime := endTime.or wi.endTime
    mttrSeconds := mttrSeconds.or wi.mttrSeconds }) now

def getRca (pg : Postgres) (workItemId : Int) : Option RCA :=
  pg.rca.find? fun row => row.workItemId = workItemId

def isBlankSql (s : String) : Bool := trim (· = ' ') s = ""

def rcaCheck (row : RCA) : Bool :=
  !isBlankSql row.fixApplied && !isBlankSql row.prevention && !isBlankSql row.rootCauseCategory &&
    decide (row.rcaStartTime ≤ row.rcaEndTime)

def newRca (pg : Postgres) (workItemId : Int) (body : RCAIn) (now : Int) : RCA where
  id := pg.rcaSeq + 1
  workItemId := workItemId
  rootCauseCategory := body.rootCauseCategory.value
  fixApplied := body.fixApplied
  prevention := body.prevention
  rcaStartTime := body.rcaStartTime.instant
  rcaEndTime := body.rcaEndTime.instant
  submittedAt := now

/-- The UPDATE that the flush of a loaded row issues: it sets the columns whose
new value differs from the loaded one, in the row as it is by then. -/
def overwriteRca (loaded : RCA) (body : RCAIn) (row : RCA) : RCA where
  id := row.id
  workItemId := row.workItemId
  rootCauseCategory :=
    if body.rootCauseCategory.value = loaded.rootCauseCategory then row.rootCauseCategory
    else body.rootCauseCategory.value
  fixApplied := if body.fixApplied = loaded.fixApplied then row.fixApplied else body.fixApplied
  prevention := if body.prevention = loaded.prevention then row.prevention else body.prevention
  rcaStartTime :=
    if body.rcaStartTime.eq (.utc loaded.rcaStartTime) then row.rcaStartTime
    else body.rcaStartTime.instant
  rcaEndTime :=
    if body.rcaEndTime.eq (.utc loaded.rcaEndTime) then row.rcaEndTime
    else body.rcaEndTime.instant
  submittedAt := row.submittedAt

/-- Flush, refresh and commit of upsert_rca, after the SELECT that gave loaded.
The UNIQUE column and the CHECKs are enforced here. -/
def flushRca (pg : Postgres) (workItemId : Int) (loaded : Option RCA) (body : RCAIn) (now : Int) :
    Except Exc (Postgres × RCA) :=
  match loaded with
  | none =>
      let row := newRca pg workItemId body now
      if (getRca pg workItemId).isSome || !rcaCheck row then .error .integrityError
      else .ok ({ pg with rca := pg.rca ++ [row], rcaSeq := pg.rcaSeq + 1 }, row)
  | some loaded =>
      let rca := updateWhere (fun row => row.id = loaded.id) (overwriteRca loaded body) pg.rca
      match rca.find? fun row => row.id = loaded.id with
      | none => .error .storeError
      | some row => if rcaCheck row then .ok ({ pg with rca }, row) else .error .integrityError

theorem hasMetricKey_iff {bucket : Int} {componentId : String} {severity : Severity}
    {m : SignalMetric} :
    hasMetricKey bucket componentId severity m = true ↔ m.key = (bucket, componentId, severity) := by
  simp [hasMetricKey, SignalMetric.key]

theorem flushRca_ok {pg pg' : Postgres} {w now : Int} {loaded : Option RCA} {body : RCAIn} {row : RCA}
    (h : flushRca pg w loaded body now = .ok (pg', row)) :
    rcaCheck row = true ∧
      (loaded = none ∧ getRca pg w = none ∧ row = newRca pg w body now ∧
          pg' = { pg with rca := pg.rca ++ [row], rcaSeq := pg.rcaSeq + 1 } ∨
        ∃ old, loaded = some old ∧ (pg'.rca.find? fun row => row.id = old.id) = some row ∧
          pg' = { pg with
            rca := updateWhere (fun row => row.id = old.id) (overwriteRca old body) pg.rca }) := by
  cases loaded with
  | none =>
      simp only [flushRca] at h
      split at h
      · cases h
      · next hcond =>
        simp only [Bool.or_eq_true, not_or, Bool.not_eq_true, Option.isSome_eq_false_iff,
          Option.isNone_iff_eq_none, Bool.not_eq_false'] at hcond
        cases h
        exact ⟨hcond.2, .inl ⟨rfl, hcond.1, rfl, rfl⟩⟩
  | some old =>
      simp only [flushRca] at h
      split at h
      · cases h
      · next found hfind =>
        split at h
        · next hcheck =>
          cases h
          exact ⟨hcheck, .inr ⟨old, rfl, hfind, rfl⟩⟩
        · cases h

theorem flushRca_insert {pg : Postgres} {w : Int} {body : RCAIn} {now : Int}
    (hnone : getRca pg w = none) (hcheck : rcaCheck (newRca pg w body now) = true) :
    flushRca pg w none body now = .ok ({ pg with
      rca := pg.rca ++ [newRca pg w body now], rcaSeq := pg.rcaSeq + 1 }, newRca pg w body now) := by
  simp only [flushRca, hnone, hcheck, Option.isSome_none, Bool.not_true, Bool.or_self]
  rfl

theorem flushRca_update {pg : Postgres} (hids : (pg.rca.map RCA.id).Nodup) {old row : RCA}
    (hrow : row ∈ pg.rca) (hid : row.id = old.id) {body : RCAIn}
    (hcheck : rcaCheck (overwriteRca old body row) = true) (w now : Int) :
    flushRca pg w (some old) body now = .ok ({ pg with
      rca := updateWhere (fun row => row.id = old.id) (overwriteRca old body) pg.rca },
      overwriteRca old body row) := by
  have hfind : (updateWhere (fun row => row.id = old.id) (overwriteRca old body) pg.rca).find?
      (fun row => row.id = old.id) = some (overwriteRca old body row) := by
    rw [find?_updateWhere (f := overwriteRca old body) fun _ => rfl, ← hid, find?_key hids hrow]
    simp [hid]
  simp only [flushRca, hfind, hcheck, if_true]

end Ims.PostgresRepo
