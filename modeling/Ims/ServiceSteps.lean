import Ims.Service
import Ims.WorkerSteps
import Ims.ApiSteps

namespace Ims.ServiceSteps

open Models RedisCache Ingestion Service WorkerSteps
open Workers (Stores Run Outcome rawDoc)
open IncidentsApi (Request Call)

def Event.Quiet : Event → Prop
  | .offer _ | .getTimeout | .cancelIdle | .setClock _ => True
  | .get _ | .run _ _ | .request _ _ | .cancelRun _ | .abortRequest _ | .call _ | .expire _
  | .burnWorkItemId | .burnRcaId => False

inductive Move (s : World) : Event → Stores → List Run → List Request → Prop
  | quiet (e) (he : Event.Quiet e) : Move s e s.stores s.runs s.requests
  | get (oid sig) (hoid : oid ∉ s.runs.map Run.mongoId) :
      Move s (.get oid) s.stores (s.runs ++ [{ sig, rawDoc := rawDoc sig oid s.clock }]) s.requests
  | run {k r} (o) (hk : s.runs[k]? = some r) (hr : r.status = .running) (hpc : ∀ w, r.pc ≠ .finish w) :
      Move s (.run k o) (r.attempt o s.clock s.stores).1
        (s.runs.set k (r.attempt o s.clock s.stores).2) s.requests
  | finish {k r} (w) (hk : s.runs[k]? = some r) (hr : r.status = .running) (hpc : r.pc = .finish w) :
      Move s (.run k .ok) s.stores (s.runs.set k { r with status := .returned }) s.requests
  | cancelRun {k r} (hk : s.runs[k]? = some r) (hr : r.status = .running) :
      Move s (.cancelRun k) s.stores (s.runs.set k { r with status := .cancelled }) s.requests
  | request {k q} (o) (hk : s.requests[k]? = some q) (hq : q.status = .running) :
      Move s (.request k o) (q.attempt o s.clock s.stores).1 s.runs
        (s.requests.set k (q.attempt o s.clock s.stores).2)
  | abortRequest {k q} (hk : s.requests[k]? = some q) (hq : q.status = .running) :
      Move s (.abortRequest k) s.stores s.runs (s.requests.set k { q with status := .aborted })
  | call (c : Call) : Move s (.call c) s.stores s.runs (s.requests ++ [{ pc := c.entry }])
  | expire (key) :
      Move s (.expire key) { s.stores with redis := s.stores.redis.delete key } s.runs s.requests
  | burnWorkItemId :
      Move s .burnWorkItemId { s.stores with postgres := { s.stores.postgres with
        workItemsSeq := s.stores.postgres.workItemsSeq + 1 } } s.runs s.requests
  | burnRcaId :
      Move s .burnRcaId { s.stores with postgres := { s.stores.postgres with
        rcaSeq := s.stores.postgres.rcaSeq + 1 } } s.runs s.requests

theorem release_eq (s : World) (cancelled : Bool) :
    (release s cancelled).stores = s.stores ∧ (release s cancelled).runs = s.runs ∧
      (release s cancelled).requests = s.requests := by
  unfold release
  split <;> exact ⟨rfl, rfl, rfl⟩

theorem settle_eq (s : World) (k : Nat) (r : Run) :
    (settle s k r).stores = s.stores ∧ (settle s k r).runs = s.runs.set k r ∧
      (settle s k r).requests = s.requests := by
  unfold settle
  split
  · exact ⟨rfl, rfl, rfl⟩
  · exact release_eq _ _
  · exact release_eq _ _
  · exact release_eq _ _

theorem stepRun_cases {s t : World} {k : Nat} {r : Run} {o : Outcome} (h : stepRun s k r o = some t) :
    (∃ w, r.pc = .finish w ∧ o = .ok ∧
        t = settle { s with ingest := { s.ingest with processed := s.ingest.processed + 1 } } k
          { r with status := .returned }) ∨
      (∀ w, r.pc ≠ .finish w) ∧ t = settle { s with stores := (r.attempt o s.clock s.stores).1 } k
        (r.attempt o s.clock s.stores).2 := by
  unfold stepRun at h
  split at h
  · next w hpc =>
    cases h
    exact .inl ⟨w, hpc, rfl, rfl⟩
  · cases h
  · next hpc _ =>
    cases h
    exact .inr ⟨hpc, rfl⟩

/-- What step does at one event, with the guards it has passed. -/
inductive Taken (cfg : Settings) (s : World) : Event → World → Prop
  | offer (sig) : Taken cfg s (.offer sig) { s with ingest := (offer cfg s.ingest sig).1 }
  | get (oid sig queue) (hqueue : s.ingest.queue = sig :: queue) (hidle : s.idle ≠ 0)
      (hoid : oid ∉ s.runs.map Run.mongoId) :
      Taken cfg s (.get oid) { s with
        ingest := { s.ingest with queue }
        idle := s.idle - 1
        runs := s.runs ++ [{ sig, rawDoc := rawDoc sig oid s.clock }] }
  | getTimeout (hidle : s.idle ≠ 0) : Taken cfg s .getTimeout s
  | cancelIdle (hidle : s.idle ≠ 0) : Taken cfg s .cancelIdle { s with idle := s.idle - 1 }
  | run {k r} (o) (hk : s.runs[k]? = some r) (hr : r.status = .running) (hpc : ∀ w, r.pc ≠ .finish w) :
      Taken cfg s (.run k o) (settle { s with stores := (r.attempt o s.clock s.stores).1 } k
        (r.attempt o s.clock s.stores).2)
  | finish {k r} (w) (hk : s.runs[k]? = some r) (hr : r.status = .running) (hpc : r.pc = .finish w) :
      Taken cfg s (.run k .ok) (settle
        { s with ingest := { s.ingest with processed := s.ingest.processed + 1 } } k
        { r with status := .returned })
  | cancelRun {k r} (hk : s.runs[k]? = some r) (hr : r.status = .running) :
      Taken cfg s (.cancelRun k) (settle s k { r with status := .cancelled })
  | request {k q} (o) (hk : s.requests[k]? = some q) (hq : q.status = .running) :
      Taken cfg s (.request k o) { s with
        stores := (q.attempt o s.clock s.stores).1
        requests := s.requests.set k (q.attempt o s.clock s.stores).2 }
  | abortRequest {k q} (hk : s.requests[k]? = some q) (hq : q.status = .running) :
      Taken cfg s (.abortRequest k) { s with
        requests := s.requests.set k { q with status := .aborted } }
  | call (c) : Taken cfg s (.call c) { s with requests := s.requests ++ [{ pc := c.entry }] }
  | expire (key) :
      Taken cfg s (.expire key) { s with
        stores := { s.stores with redis := s.stores.redis.delete key } }
  | burnWorkItemId :
      Taken cfg s .burnWorkItemId { s with stores := { s.stores with postgres :=
        { s.stores.postgres with workItemsSeq := s.stores.postgres.workItemsSeq + 1 } } }
  | burnRcaId :
      Taken cfg s .burnRcaId { s with stores := { s.stores with postgres :=
        { s.stores.postgres with rcaSeq := s.stores.postgres.rcaSeq + 1 } } }
  | setClock (now) : Taken cfg s (.setClock now) { s with clock := now }

theorem step_taken {cfg : Settings} {s t : World} {e : Event} (h : step cfg s e = some t) :
    Taken cfg s e t := by
  cases e with
  | offer sig =>
      cases h
      exact .offer sig
  | get oid =>
      simp only [step] at h
      split at h
      · cases h
      · next sig queue hqueue =>
        split at h
        · cases h
        · next hcond =>
          cases h
          exact .get oid sig queue hqueue (not_or.mp hcond).1 (not_or.mp hcond).2
  | getTimeout =>
      simp only [step] at h
      split at h
      · cases h
      · next hidle =>
        cases h
        exact .getTimeout hidle
  | cancelIdle =>
      simp only [step] at h
      split at h
      · cases h
      · next hidle =>
        cases h
        exact .cancelIdle hidle
  | run k o =>
      simp only [step, Option.bind_eq_bind, Option.bind_eq_some_iff] at h
      obtain ⟨r, hk, h⟩ := h
      split at h
      · next hr =>
        rcases stepRun_cases h with ⟨w, hpc, rfl, rfl⟩ | ⟨hpc, rfl⟩
        · exact .finish w hk hr hpc
        · exact .run o hk hr hpc
      · cases h
  | request k o =>
      simp only [step, Option.bind_eq_bind, Option.bind_eq_some_iff] at h
      obtain ⟨q, hk, h⟩ := h
      split at h
      · next hq =>
        cases h
        exact .request o hk hq
      · cases h
  | cancelRun k =>
      simp only [step, Option.bind_eq_bind, Option.bind_eq_some_iff] at h
      obtain ⟨r, hk, h⟩ := h
      split at h
      · next hr =>
        cases h
        exact .cancelRun hk hr
      · cases h
  | abortRequest k =>
      simp only [step, Option.bind_eq_bind, Option.bind_eq_some_iff] at h
      obtain ⟨q, hk, h⟩ := h
      split at h
      · next hq =>
        cases h
        exact .abortRequest hk hq
      · cases h
  | call c =>
      simp only [step] at h
      split at h
      · cases h
      · cases h
        exact .call c
  | expire key =>
      cases h
      exact .expire key
  | burnWorkItemId =>
      cases h
      exact .burnWorkItemId
  | burnRcaId =>
      cases h
      exact .burnRcaId
  | setClock now =>
      cases h
      exact .setClock now

theorem step_move {cfg : Settings} {s t : World} {e : Event} (h : step cfg s e = some t) :
    Move s e t.stores t.runs t.requests := by
  have hsettle (s' : World) (k : Nat) (r : Run) : Move s e s'.stores (s'.runs.set k r) s'.requests →
      Move s e (settle s' k r).stores (settle s' k r).runs (settle s' k r).requests := by
    obtain ⟨hst, hruns, hreq⟩ := settle_eq s' k r
    rw [hst, hruns, hreq]
    exact id
  cases step_taken h with
  | offer | getTimeout | cancelIdle | setClock => exact .quiet _ trivial
  | get oid sig queue _ _ hoid => exact .get oid sig hoid
  | run o hk hr hpc => exact hsettle _ _ _ (.run o hk hr hpc)
  | finish w hk hr hpc => exact hsettle _ _ _ (.finish w hk hr hpc)
  | cancelRun hk hr => exact hsettle _ _ _ (.cancelRun hk hr)
  | request o hk hq => exact .request o hk hq
  | abortRequest hk hq => exact .abortRequest hk hq
  | call c => exact .call c
  | expire key => exact .expire key
  | burnWorkItemId => exact .burnWorkItemId
  | burnRcaId => exact .burnRcaId

def clockAfter (s : World) : Event → Int
  | .setClock now => now
  | _ => s.clock

theorem settle_clock (s : World) (k : Nat) (r : Run) : (settle s k r).clock = s.clock := by
  have hrelease (s : World) (cancelled : Bool) : (release s cancelled).clock = s.clock := by
    unfold release
    split <;> rfl
  unfold settle
  split
  · rfl
  · exact hrelease _ _
  · exact hrelease _ _
  · exact hrelease _ _

theorem step_clock {cfg : Settings} {s t : World} {e : Event} (h : step cfg s e = some t) :
    t.clock = clockAfter s e := by
  cases step_taken h with
  | run | finish | cancelRun => exact settle_clock _ _ _
  | offer | get | getTimeout | cancelIdle | request | abortRequest | call | expire | burnWorkItemId
  | burnRcaId | setClock => rfl

end Ims.ServiceSteps
