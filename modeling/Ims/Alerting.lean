import Ims.Models

namespace Ims.Alerting

open Time Models

structure AlertContext where
  workItemId : Int
  componentId : String
  componentType : ComponentType
  severity : Severity
  timestamp : Datetime
  summary : Option String := none
  deriving DecidableEq, Repr

inductive Alerter
  | P0Alerter | P1Alerter | P2Alerter
  deriving DecidableEq, Repr

def Alerter.tier : Alerter → String
  | .P0Alerter => "P0"
  | .P1Alerter => "P1"
  | .P2Alerter => "P2"

def Alerter.channel : Alerter → String
  | .P0Alerter => "pagerduty+slack#sev0"
  | .P1Alerter => "slack#alerts"
  | .P2Alerter => "slack#noise"

def Alerter.level : Alerter → String
  | .P0Alerter => "warning"
  | .P1Alerter => "info"
  | .P2Alerter => "info"

structure Alert where
  level : String
  tier : String
  channel : String
  context : AlertContext
  deriving DecidableEq, Repr

def Alerter.dispatch (a : Alerter) (ctx : AlertContext) : Alert :=
  ⟨a.level, a.tier, a.channel, ctx⟩

def alerterFor : ComponentType → Alerter
  | .RDBMS => .P0Alerter
  | .MCP => .P0Alerter
  | .API => .P1Alerter
  | .QUEUE => .P1Alerter
  | .CACHE => .P2Alerter
  | .NOSQL => .P2Alerter

end Ims.Alerting
