import Ims.Ingestion
import Ims.IncidentsApi
import Ims.Library.Runs

namespace Ims.Service

open Time Models RedisCache Ingestion
open Workers (Stores Run Outcome rawDoc)
open IncidentsApi (Request Call)

/-- The service: the stores with the clock, the ingest queue with its workers,
and every run of _process_one and every request so far, in the order of start. -/
structure World where
  stores : Stores
  clock : Int
  ingest : IngestQueueState
  idle : Nat
  runs : List Run
  requests : List Request

def Stores.empty : Stores := ⟨[], RedisCache.empty, PostgresRepo.empty, []⟩

def init (workerCount : Nat) : World where
  stores := Stores.empty
  clock := 0
  ingest := {}
  idle := workerCount
  runs := []
  requests := []

inductive Event
  -- POST /signals, after validation
  | offer (sig : SignalIn)
  -- queue.get of an idle worker; its run draws oid for its document
  | get (oid : String)
  | getTimeout
  | cancelIdle
  -- the operation that a run or a request awaits ends
  | run (k : Nat) (o : Outcome)
  | request (k : Nat) (o : Outcome)
  | cancelRun (k : Nat)
  | abortRequest (k : Nat)
  | call (c : Call)
  -- a key reaches the end of its time to live
  | expire (key : String)
  -- a rolled-back insert leaves a gap in a sequence
  | burnWorkItemId
  | burnRcaId
  -- also back: the now() of a statement is that of the start of its transaction
  | setClock (now : Int)

/-- The end of the loop body of _worker_loop: the finally clause, and the worker
back at the queue unless it was cancelled or task_done raised. -/
def release (s : World) (cancelled : Bool) : World :=
  match taskDone s.ingest with
  | none => s
  | some ingest => { s with ingest, idle := if cancelled then s.idle else s.idle + 1 }

def settle (s : World) (k : Nat) (r : Run) : World :=
  let s := { s with runs := s.runs.set k r }
  match r.status with
  | .running => s
  | .cancelled => release s true
  | .returned | .raised _ => release s false

def stepRun (s : World) (k : Nat) (r : Run) (o : Outcome) : Option World :=
  match r.pc, o with
  | .finish _, .ok =>
      let s := { s with ingest := { s.ingest with processed := s.ingest.processed + 1 } }
      some (settle s k { r with status := .returned })
  | .finish _, _ => none
  | _, o =>
      let (stores, r) := r.attempt o s.clock s.stores
      some (settle { s with stores } k r)

def step (cfg : Settings) (s : World) : Event → Option World
  | .offer sig => some { s with ingest := (offer cfg s.ingest sig).1 }
  | .get oid =>
      match s.ingest.queue with
      | [] => none
      | sig :: queue =>
          if s.idle = 0 ∨ oid ∈ s.runs.map Run.mongoId then none
          else some { s with
            ingest := { s.ingest with queue }
            idle := s.idle - 1
            runs := s.runs ++ [{ sig, rawDoc := rawDoc sig oid s.clock }] }
  | .getTimeout => if s.idle = 0 then none else some s
  | .cancelIdle => if s.idle = 0 then none else some { s with idle := s.idle - 1 }
  | .run k o => do
      let r ← s.runs[k]?
      if r.status = .running then stepRun s k r o else none
  | .request k o => do
      let q ← s.requests[k]?
      match q.status with
      | .running =>
          let (stores, q) := q.attempt o s.clock s.stores
          some { s with stores, requests := s.requests.set k q }
      | _ => none
  | .cancelRun k => do
      let r ← s.runs[k]?
      if r.status = .running then some (settle s k { r with status := .cancelled }) else none
  | .abortRequest k => do
      let q ← s.requests[k]?
      match q.status with
      | .running => some { s with requests := s.requests.set k { q with status := .aborted } }
      | _ => none
  | .call c =>
      if c.workItemId < 1 then none else some { s with requests := s.requests ++ [{ pc := c.entry }] }
  | .expire key =>
      some { s with stores := { s.stores with redis := s.stores.redis.delete key } }
  | .burnWorkItemId =>
      let postgres := { s.stores.postgres with workItemsSeq := s.stores.postgres.workItemsSeq + 1 }
      some { s with stores := { s.stores with postgres } }
  | .burnRcaId =>
      let postgres := { s.stores.postgres with rcaSeq := s.stores.postgres.rcaSeq + 1 }
      some { s with stores := { s.stores with postgres } }
  | .setClock now => some { s with clock := now }

def errorSignal (componentId : String) : SignalIn :=
  ⟨componentId, .CACHE, .ERROR, .utc 0, "\x7b\x7d"⟩

def rollbackRca : RCAIn where
  rootCauseCategory := .CONFIG
  fixApplied := "rollback"
  prevention := "review"
  rcaStartTime := .utc 0
  rcaEndTime := .utc 1
  fixApplied_not_blank := by decide
  prevention_not_blank := by decide

def runOn (k operations : Nat) : List Event := List.replicate operations (.run k .ok)

def requestOn (k operations : Nat) : List Event := List.replicate operations (.request k .ok)

end Ims.Service
