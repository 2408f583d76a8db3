import Ims.Alerting
import Ims.Mongo
import Ims.PostgresRepo
import Ims.RedisCache
import Ims.Retry

namespace Ims.Workers

open Library.Text Time Models Alerting Mongo PostgresRepo RedisCache Retry

structure Stores where
  mongo : RawSignals
  redis : Redis
  postgres : Postgres
  alerts : List Alert

def bucketFor (ts : Datetime) : Datetime :=
  let ts := if ts.utcoffset = none then { ts with utcoffset := some 0 } else ts
  ts.replaceSecond

/-- The awaits of _process_one, and its two local effects, in program order.
The flag won parts the branch of the winner from the branch that found the key
expired; increment is the branch of the loser that read an id. -/
inductive Pc
  | insertSignal
  | claim
  | create (won : Bool)
  | publish (won : Bool) (workItemId : Int)
  | pushLiveFeed (workItemId : Int)
  | dispatch (workItemId : Int)
  | getOpenWorkItem
  | increment (workItemId : Int)
  | addLink (workItemId : Int)
  | backfill (workItemId : Int)
  | upsertMetric (workItemId : Int)
  | finish (workItemId : Int)
  deriving DecidableEq, Repr

inductive Status
  | running
  | returned
  | raised (e : Exc)
  | cancelled
  deriving DecidableEq, Repr

/-- A run of _process_one. An ended run keeps the place where it ended. -/
structure Run where
  sig : SignalIn
  rawDoc : Document
  pc : Pc := .insertSignal
  budget : Budget := {}
  status : Status := .running
  deriving DecidableEq, Repr

def Run.mongoId (r : Run) : String := r.rawDoc.id

/-- The document that a run builds first; oid is the ObjectId that the driver
will put into it. -/
def rawDoc (sig : SignalIn) (oid : String) (now : Int) : Document where
  id := oid
  componentId := sig.componentId
  componentType := sig.componentType.value
  severity := sig.severity.value
  timestamp := sig.timestamp
  payload := sig.payload
  ingestedAt := now

def placeholder (mongoId : String) : String := "pending:" ++ mongoId

def isPlaceholder (val : String) : Bool := "pending:".toList.isPrefixOf val.toList

def alertContext (sig : SignalIn) (workItemId : Int) : AlertContext where
  workItemId := workItemId
  componentId := sig.componentId
  componentType := sig.componentType
  severity := sig.severity
  timestamp := sig.timestamp
  summary := some ("new " ++ sig.componentType.value ++ " incident")

/-- What the operation a run awaits does to the stores when it takes effect, and
where the run goes on from its reply. -/
def Run.perform (r : Run) (now : Int) (st : Stores) : Stores × Except Exc Pc :=
  let sig := r.sig
  let key := dedupKey sig.componentId
  match r.pc with
  | .insertSignal => match insertSignal st.mongo r.rawDoc with
    | .error e => (st, .error e)
    | .ok mongo => ({ st with mongo }, .ok .claim)
  | .claim =>
      let (redis, won) := st.redis.setNx key (placeholder r.mongoId)
      ({ st with redis }, .ok (if won then .create true else .getOpenWorkItem))
  | .create won =>
      let (postgres, workItemId) := createWorkItem st.postgres sig.componentId sig.componentType
        sig.severity sig.timestamp
        (some (sig.componentType.value ++ " signal: " ++ sig.severity.value)) now
      ({ st with postgres }, .ok (.publish won workItemId))
  | .publish true workItemId =>
      ({ st with redis := st.redis.setXx key (str workItemId) }, .ok (.pushLiveFeed workItemId))
  | .publish false workItemId =>
      ({ st with redis := st.redis.set key (str workItemId) }, .ok (.addLink workItemId))
  | .pushLiveFeed workItemId =>
      ({ st with redis := pushLiveFeed st.redis workItemId sig.severity.value sig.componentId },
        .ok (.dispatch workItemId))
  | .dispatch workItemId =>
      let alert := (alerterFor sig.componentType).dispatch (alertContext sig workItemId)
      ({ st with alerts := st.alerts ++ [alert] }, .ok (.addLink workItemId))
  -- the reply is an int or None, so the last else of the source is never taken
  | .getOpenWorkItem => match getOpenWorkItem st.redis sig.componentId with
    | .error e => (st, .error e)
    | .ok none => (st, .ok (.create false))
    | .ok (some existing) => (st, .ok (.increment existing))
  | .increment workItemId =>
      ({ st with postgres := incrementSignalCount st.postgres workItemId now },
        .ok (.addLink workItemId))
  | .addLink workItemId =>
      let postgres := addSignalLink st.postgres workItemId r.mongoId sig.componentId sig.severity
        sig.timestamp
      ({ st with postgres }, .ok (.backfill workItemId))
  | .backfill workItemId =>
      ({ st with mongo := setWorkItemId st.mongo r.mongoId workItemId },
        .ok (.upsertMetric workItemId))
  | .upsertMetric workItemId =>
      let postgres := upsertMetricBucket st.postgres (bucketFor sig.timestamp) sig.componentId
        sig.severity
      ({ st with postgres }, .ok (.finish workItemId))
  | .finish workItemId => (st, .ok (.finish workItemId))

def Run.goOn (r : Run) (pc : Pc) : Run := { r with pc, budget := {} }

def Run.retryOr (r : Run) (e : Exc) (budget : Option Budget) : Run :=
  match budget with
  | some budget => { r with budget }
  | none => { r with status := .raised e }

def Run.handle (r : Run) (e : Exc) : Run :=
  match r.pc with
  | .insertSignal | .pushLiveFeed _ => r.retryOr e r.budget.plain
  | .create _ | .increment _ | .addLink _ | .upsertMetric _ => r.retryOr e (r.budget.nested e)
  | .claim | .publish _ _ | .getOpenWorkItem | .finish _ => { r with status := .raised e }
  | .dispatch workItemId => r.goOn (.addLink workItemId)
  | .backfill workItemId => r.goOn (.upsertMetric workItemId)

/-- How an awaited operation ends: with its reply; with an exception and no
effect; or with its effect, which an exception hides from the caller. -/
inductive Outcome
  | ok
  | fail (e : Exc)
  | lost (e : Exc)
  deriving DecidableEq, Repr

def Run.resume (r : Run) (reply : Except Exc Pc) : Run :=
  match reply with
  | .ok pc => r.goOn pc
  | .error e => r.handle e

def Run.attempt (r : Run) (o : Outcome) (now : Int) (st : Stores) : Stores × Run :=
  match o with
  | .ok => ((r.perform now st).1, r.resume (r.perform now st).2)
  | .fail e => (st, r.handle e)
  | .lost e => ((r.perform now st).1, r.handle e)

theorem placeholder_injective {m n : String} (h : placeholder m = placeholder n) : m = n :=
  (String.append_right_inj "pending:").mp h

theorem int_placeholder (m : String) : int (placeholder m) = none :=
  int_letter (c := 'p') (by rw [placeholder, String.toList_append]; rfl) (by decide) (by decide)
    (by decide) (by decide)

theorem placeholder_ne_str (m : String) (w : Int) : placeholder m ≠ str w := by
  intro h
  have := int_placeholder m
  rw [h, int_str] at this
  cases this

theorem placeholder_ne_empty (m : String) : placeholder m ≠ "" := by
  intro h
  have := congrArg String.toList h
  rw [placeholder, String.toList_append] at this
  cases this

theorem isPlaceholder_placeholder (m : String) : isPlaceholder (placeholder m) = true := by
  rw [isPlaceholder, List.isPrefixOf_iff_prefix, placeholder, String.toList_append]
  exact List.prefix_append _ _

theorem not_isPlaceholder_str (w : Int) : isPlaceholder (str w) = false := by
  rw [Bool.eq_false_iff]
  intro h
  obtain ⟨rest, hrest⟩ := List.isPrefixOf_iff_prefix.mp h
  refine placeholder_ne_str (String.ofList rest) w (String.toList_inj.mp ?_)
  rw [placeholder, String.toList_append]
  exact (congrArg ("pending:".toList ++ ·) String.toList_ofList).trans hrest

/-- A loser that reads a placeholder ends in the ValueError of int(val). -/
theorem getOpenWorkItem_placeholder {r : Redis} {c m : String}
    (h : r.strings (dedupKey c) = some (placeholder m)) :
    getOpenWorkItem r c = .error .valueError := by
  simp only [getOpenWorkItem, h, placeholder_ne_empty, if_false, int_placeholder]

end Ims.Workers
