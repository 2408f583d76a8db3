import Ims.Library.Text
import Ims.Time

namespace Ims.Models

open Library.Text Time

inductive ComponentType
  | CACHE | RDBMS | API | MCP | QUEUE | NOSQL
  deriving DecidableEq, Repr

def ComponentType.value : ComponentType → String
  | .CACHE => "CACHE"
  | .RDBMS => "RDBMS"
  | .API => "API"
  | .MCP => "MCP"
  | .QUEUE => "QUEUE"
  | .NOSQL => "NOSQL"

inductive Severity
  | INFO | WARN | ERROR | CRITICAL
  deriving DecidableEq, Repr

def Severity.value : Severity → String
  | .INFO => "INFO"
  | .WARN => "WARN"
  | .ERROR => "ERROR"
  | .CRITICAL => "CRITICAL"

inductive WorkItemState
  | OPEN | INVESTIGATING | RESOLVED | CLOSED
  deriving DecidableEq, Repr

def WorkItemState.value : WorkItemState → String
  | .OPEN => "OPEN"
  | .INVESTIGATING => "INVESTIGATING"
  | .RESOLVED => "RESOLVED"
  | .CLOSED => "CLOSED"

inductive RootCauseCategory
  | INFRASTRUCTURE | NETWORK | CODE_DEFECT | CONFIG | CAPACITY | DEPENDENCY | HUMAN_ERROR
  | SECURITY | UNKNOWN
  deriving DecidableEq, Repr

def RootCauseCategory.value : RootCauseCategory → String
  | .INFRASTRUCTURE => "INFRASTRUCTURE"
  | .NETWORK => "NETWORK"
  | .CODE_DEFECT => "CODE_DEFECT"
  | .CONFIG => "CONFIG"
  | .CAPACITY => "CAPACITY"
  | .DEPENDENCY => "DEPENDENCY"
  | .HUMAN_ERROR => "HUMAN_ERROR"
  | .SECURITY => "SECURITY"
  | .UNKNOWN => "UNKNOWN"

/-- A row of work_items. The instants are microseconds, and so is the value of
mttrSeconds, which the column holds as a float. -/
structure WorkItem where
  id : Int
  componentId : String
  componentType : ComponentType
  severity : Severity
  state : WorkItemState
  startTime : Int
  endTime : Option Int
  mttrSeconds : Option Int
  signalCount : Int
  summary : Option String
  createdAt : Int
  updatedAt : Int
  deriving DecidableEq, Repr

structure RCA where
  id : Int
  workItemId : Int
  rootCauseCategory : String
  fixApplied : String
  prevention : String
  rcaStartTime : Int
  rcaEndTime : Int
  submittedAt : Int
  deriving DecidableEq, Repr

structure SignalLink where
  workItemId : Int
  mongoSignalId : String
  componentId : String
  severity : Severity
  signalTimestamp : Int
  deriving DecidableEq, Repr

structure SignalMetric where
  bucket : Int
  componentId : String
  severity : Severity
  count : Int
  deriving DecidableEq, Repr

def SignalMetric.key (m : SignalMetric) : Int × String × Severity :=
  (m.bucket, m.componentId, m.severity)

/-- A signal that the schema let through. The payload is kept as its JSON text. -/
structure SignalIn where
  componentId : String
  componentType : ComponentType
  severity : Severity
  timestamp : Datetime
  payload : String
  deriving DecidableEq, Repr

/-- An RCA body that the schema let through: not_blank leaves stripped,
non-empty texts. -/
structure RCAIn where
  rootCauseCategory : RootCauseCategory
  fixApplied : String
  prevention : String
  rcaStartTime : Datetime
  rcaEndTime : Datetime
  fixApplied_not_blank : strip fixApplied ≠ ""
  prevention_not_blank : strip prevention ≠ ""
  deriving DecidableEq

structure RCABody where
  rootCauseCategory : String
  fixApplied : String
  prevention : String
  rcaStartTime : Datetime
  rcaEndTime : Datetime

def RootCauseCategory.ofValue (v : String) : Option RootCauseCategory :=
  [.INFRASTRUCTURE, .NETWORK, .CODE_DEFECT, .CONFIG, .CAPACITY, .DEPENDENCY, .HUMAN_ERROR, .SECURITY,
    .UNKNOWN].find? fun c => RootCauseCategory.value c = v

/-- A text field of RCAIn: the constraint min_length and the validator not_blank. -/
def notBlank (v : String) : Option String :=
  if v.length < 1 then none else if strip v = "" then none else some (strip v)

theorem notBlank_ne {v text : String} (h : notBlank v = some text) : strip text ≠ "" := by
  unfold notBlank at h
  split at h
  · cases h
  · split at h
    · cases h
    · next hblank =>
      cases h
      exact trim_trim_ne_empty hblank

structure SignalBody where
  componentId : String
  componentType : String
  severity : String
  timestamp : Datetime
  payload : Option String := none
  deriving DecidableEq, Repr

def ComponentType.ofValue (v : String) : Option ComponentType :=
  [.CACHE, .RDBMS, .API, .MCP, .QUEUE, .NOSQL].find? fun c => ComponentType.value c = v

def Severity.ofValue (v : String) : Option Severity :=
  [.INFO, .WARN, .ERROR, .CRITICAL].find? fun c => Severity.value c = v

/-- The field component_id: the constraint on its length, and after that the
validator strip_component. -/
def stripComponent (v : String) : Option String :=
  if v.length < 1 ∨ 128 < v.length then none else some (strip v)

def signalIn (raw : SignalBody) : Option SignalIn :=
  match stripComponent raw.componentId, ComponentType.ofValue raw.componentType,
      Severity.ofValue raw.severity with
  | some componentId, some componentType, some severity => some {
      componentId, componentType, severity
      timestamp := raw.timestamp
      payload := raw.payload.getD "\x7b\x7d" }
  | _, _, _ => none

def rcaIn (raw : RCABody) : Option RCAIn :=
  match RootCauseCategory.ofValue raw.rootCauseCategory, hfix : notBlank raw.fixApplied,
      hprevention : notBlank raw.prevention with
  | some rootCauseCategory, some fixApplied, some prevention => some {
      rootCauseCategory, fixApplied, prevention
      rcaStartTime := raw.rcaStartTime
      rcaEndTime := raw.rcaEndTime
      fixApplied_not_blank := notBlank_ne hfix
      prevention_not_blank := notBlank_ne hprevention }
  | _, _, _ => none

theorem rcaIn_times {raw : RCABody} {body : RCAIn} (h : rcaIn raw = some body) :
    body.rcaStartTime = raw.rcaStartTime ∧ body.rcaEndTime = raw.rcaEndTime := by
  unfold rcaIn at h
  split at h
  · cases h
    exact ⟨rfl, rfl⟩
  · cases h

inductive Exc
  | operationalError
  | integrityError
  | duplicateKeyError
  | valueError
  | typeError
  | storeError
  deriving DecidableEq, Repr

end Ims.Models
