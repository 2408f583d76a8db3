import Ims.Workers

namespace Ims.IncidentsApi

open Library.Text Library.SortedSet Time Models RcaValidator States PostgresRepo RedisCache Retry
open Workers (Stores Outcome)

inductive Detail
  | text (s : String)
  | names (l : List String)
  | record (fields : List (String × Detail))

structure HTTPException where
  statusCode : Nat
  detail : Detail

/-- The schema WorkItemOut has the columns of work_items, and RCAOut those of rca. -/
abbrev WorkItemOut := WorkItem

abbrev RCAOut := RCA

structure IncidentDetailOut where
  workItem : WorkItemOut
  rca : Option RCAOut
  deriving DecidableEq, Repr

inductive Response
  | workItem (out : WorkItemOut)
  | rca (out : RCAOut)
  | incident (out : IncidentDetailOut)
  | http (e : HTTPException)

def notFound (workItemId : Int) : HTTPException :=
  ⟨404, .text ("work item " ++ str workItemId ++ " not found")⟩

/-- The except clauses of transition_incident; an error of no clause escapes. -/
def transitionException : TransitionError → Except Exc HTTPException
  | .rca .required => .ok ⟨400, .record [("error", .text "rca_required"),
      ("message", .text RcaError.required.message)]⟩
  | .rca (.incomplete missing) => .ok ⟨400, .record [("error", .text "rca_incomplete"),
      ("missing", .names missing), ("message", .text (RcaError.incomplete missing).message)]⟩
  | .rca .typeError => .error .typeError
  | .illegal source target => .ok ⟨409, .record [("error", .text "illegal_transition"),
      ("from", .text source.value), ("to", .text target.value)]⟩

def invalidTimeRange : HTTPException :=
  ⟨400, .record [("error", .text "invalid_time_range"), ("message", .text "end must be >= start")]⟩

/-- The awaits of the handlers transition_incident, submit_rca and get_incident,
with the local variables that are live at each. -/
inductive Pc
  | transitionItem (workItemId : Int) (target : WorkItemState)
  | transitionRca (workItemId : Int) (target : WorkItemState) (wi : WorkItem)
  | updateState (workItemId : Int) (wi : WorkItem) (result : TransitionResult)
  | feedMembers (workItemId : Int) (wi : WorkItem) (result : TransitionResult)
  | zremMember (workItemId : Int) (wi : WorkItem) (result : TransitionResult) (member : String)
      (rest : List String)
  | clearDedup (workItemId : Int) (wi : WorkItem) (result : TransitionResult)
  | fresh (workItemId : Int) (result : TransitionResult)
  | submitItem (workItemId : Int) (body : RCAIn)
  | selectRca (workItemId : Int) (body : RCAIn)
  | flushRca (workItemId : Int) (body : RCAIn) (loaded : Option RCA)
  | incidentItem (workItemId : Int)
  | incidentRca (workItemId : Int) (wi : WorkItem)

inductive Call
  | transitionIncident (workItemId : Int) (target : WorkItemState)
  | closeIncident (workItemId : Int)
  | submitRca (workItemId : Int) (body : RCAIn)
  | getIncident (workItemId : Int)

def Call.workItemId : Call → Int
  | .transitionIncident workItemId _ => workItemId
  | .closeIncident workItemId => workItemId
  | .submitRca workItemId _ => workItemId
  | .getIncident workItemId => workItemId

def Call.entry : Call → Pc
  | .transitionIncident workItemId target => .transitionItem workItemId target
  | .closeIncident workItemId => .transitionItem workItemId .CLOSED
  | .submitRca workItemId body => .submitItem workItemId body
  | .getIncident workItemId => .incidentItem workItemId

/-- A request that raised is answered with status 500. -/
inductive Status
  | running
  | responded (r : Response)
  | raised (e : Exc)
  | aborted

/-- A request in its handler; attempts counts the failed attempts of the one
tenacity loop that a handler has. -/
structure Request where
  pc : Pc
  attempts : Nat := 0
  status : Status := .running

inductive Next
  | pc (pc : Pc)
  | respond (r : Response)

def entriesOf (workItemId : Int) (members : List String) : List String :=
  members.filter (isEntryOf workItemId)

def zremNext (workItemId : Int) (wi : WorkItem) (result : TransitionResult) : List String → Next
  | [] => .pc (.clearDedup workItemId wi result)
  | member :: rest => .pc (.zremMember workItemId wi result member rest)

/-- What the operation a request awaits does to the stores when it takes effect,
and where the handler goes on from its reply. -/
def Request.perform (q : Request) (now : Int) (st : Stores) : Stores × Except Exc Next :=
  match q.pc with
  -- transition_incident
  | .transitionItem workItemId target => match getWorkItem st.postgres workItemId with
    | none => (st, .ok (.respond (.http (notFound workItemId))))
    | some wi => (st, .ok (.pc (.transitionRca workItemId target wi)))
  | .transitionRca workItemId target wi =>
      let rca := getRca st.postgres workItemId
      match transition ⟨wi.state, .utc wi.startTime⟩ target (rca.map ofRow) now with
      | .ok result => (st, .ok (.pc (.updateState workItemId wi result)))
      | .error e => (st, (transitionException e).map fun e => .respond (.http e))
  | .updateState workItemId wi result =>
      let postgres := updateState st.postgres workItemId result.newState result.endTime
        result.mttrSeconds now
      ({ st with postgres }, .ok (.pc (
        if result.newState = .CLOSED then .feedMembers workItemId wi result
        else .fresh workItemId result)))
  | .feedMembers workItemId wi result =>
      (st, .ok (zremNext workItemId wi result (entriesOf workItemId (zrange st.redis.liveFeed))))
  | .zremMember workItemId wi result member rest =>
      let redis := { st.redis with liveFeed := zrem member st.redis.liveFeed }
      ({ st with redis }, .ok (zremNext workItemId wi result rest))
  | .clearDedup workItemId wi result =>
      ({ st with redis := clearDedup st.redis wi.componentId }, .ok (.pc (.fresh workItemId result)))
  | .fresh workItemId _ => match getWorkItem st.postgres workItemId with
    | none => (st, .error .storeError)
    | some wi => (st, .ok (.respond (.workItem wi)))
  -- submit_rca
  | .submitItem workItemId body => match getWorkItem st.postgres workItemId with
    | none => (st, .ok (.respond (.http (notFound workItemId))))
    | some _ => match body.rcaEndTime.lt body.rcaStartTime with
      | none => (st, .error .typeError)
      | some true => (st, .ok (.respond (.http invalidTimeRange)))
      | some false => (st, .ok (.pc (.selectRca workItemId body)))
  | .selectRca workItemId body =>
      (st, .ok (.pc (.flushRca workItemId body (getRca st.postgres workItemId))))
  | .flushRca workItemId body loaded =>
      match flushRca st.postgres workItemId loaded body now with
      | .error e => (st, .error e)
      | .ok (postgres, row) => ({ st with postgres }, .ok (.respond (.rca row)))
  -- get_incident
  | .incidentItem workItemId => match getWorkItem st.postgres workItemId with
    | none => (st, .ok (.respond (.http (notFound workItemId))))
    | some wi => (st, .ok (.pc (.incidentRca workItemId wi)))
  | .incidentRca workItemId wi =>
      (st, .ok (.respond (.incident ⟨wi, getRca st.postgres workItemId⟩)))

def Request.goOn (q : Request) : Next → Request
  | .pc pc => { q with pc }
  | .respond r => { q with status := .responded r }

def Request.retryOr (q : Request) (e : Exc) (pc : Pc) : Request :=
  match retryPolicy e q.attempts with
  | some attempts => { q with pc, attempts }
  | none => { q with status := .raised e }

def Request.handle (q : Request) (e : Exc) : Request :=
  match q.pc with
  | .updateState .. => q.retryOr e q.pc
  | .selectRca .. => q.retryOr e q.pc
  | .flushRca workItemId body _ => q.retryOr e (.selectRca workItemId body)
  -- the cleanup of Redis is tried once and its failure logged
  | .feedMembers workItemId _ result => q.goOn (.pc (.fresh workItemId result))
  | .zremMember workItemId _ result _ _ => q.goOn (.pc (.fresh workItemId result))
  | .clearDedup workItemId _ result => q.goOn (.pc (.fresh workItemId result))
  | .transitionItem .. | .transitionRca .. | .fresh .. | .submitItem .. | .incidentItem ..
  | .incidentRca .. => { q with status := .raised e }

def Request.resume (q : Request) (reply : Except Exc Next) : Request :=
  match reply with
  | .ok next => q.goOn next
  | .error e => q.handle e

def Request.attempt (q : Request) (o : Outcome) (now : Int) (st : Stores) : Stores × Request :=
  match o with
  | .ok => ((q.perform now st).1, q.resume (q.perform now st).2)
  | .fail e => (st, q.handle e)
  | .lost e => ((q.perform now st).1, q.handle e)

structure LiveEntry where
  workItemId : Int
  componentId : String
  severityScore : Int
  deriving DecidableEq, Repr

def liveEntry (entry : String × Int) : Except Exc LiveEntry :=
  let (wid, _, comp) := partition '|' entry.1
  match int wid with
  | none => .error .valueError
  | some workItemId => .ok ⟨workItemId, comp, entry.2⟩

def liveFeed (r : Redis) (limit : Nat) : Except Exc (List LiveEntry) :=
  ((getLiveFeed r limit).filter fun entry => '|' ∈ entry.1.toList).mapM liveEntry

theorem liveEntry_feedMember (workItemId : Int) (componentId : String) (score : Int) :
    liveEntry (feedMember workItemId componentId, score) = .ok ⟨workItemId, componentId, score⟩ := by
  simp only [liveEntry, partition_feedMember, int_str]

end Ims.IncidentsApi
