import Ims.CrossStore
import Ims.SignalCounts
import Ims.RcaGate
import Ims.LiveFeed
import Ims.IngestSteps

namespace Ims.Restarts

open Library.Runs Library.Slots Models PostgresRepo RedisCache RcaValidator IncidentsApi Ingestion
  Service WorkerSteps ServiceSteps WorkerMoves WorkerFrames IngestSteps Integrity CrossStore SignalCounts
  RcaGate LiveFeed
open Workers (Run)

/-- The process dies, with its queue and its tasks, and a new one starts its
workers over the same stores. An operation in flight has taken effect by then,
as its step before the restart, or has not. -/
inductive LifeEvent
  | service (e : Event)
  | restart (workerCount : Nat)

def killRun (r : Run) : Run :=
  match r.status with
  | .running => { r with status := .cancelled }
  | .returned | .raised _ | .cancelled => r

def killRequest (q : Request) : Request :=
  match q.status with
  | .running => { q with status := .aborted }
  | .responded _ | .raised _ | .aborted => q

def restart (workerCount : Nat) (s : World) : World :=
  { s with
    ingest := {}
    idle := workerCount
    runs := s.runs.map killRun
    requests := s.requests.map killRequest }

def lifeStep (cfg : Settings) (s : World) : LifeEvent → Option World
  | .service e => step cfg s e
  | .restart workerCount => some (restart workerCount s)

def CleanLife : LifeEvent → Prop
  | .service e => Clean e
  | .restart _ => True

instance : DecidablePred CleanLife
  | .service e => inferInstanceAs (Decidable (Clean e))
  | .restart _ => .isTrue trivial

variable {cfg : Settings} {s t : World} {n : Nat} {es : List LifeEvent}

structure Lasting (cfg : Settings) (I : World → Prop) : Prop where
  init : ∀ n, I (init n)
  step : ∀ s e t, I s → Clean e → Service.step cfg s e = some t → I t
  forget : ∀ s ingest idle, I s → I { s with ingest, idle }

variable {I : World → Prop}

/-- A dying process cancels its runs, as far as the stores can tell. -/
theorem Lasting.kill_run (h : Lasting cfg I) (hI : I s) {k : Nat} {r : Run} (hk : s.runs[k]? = some r) :
    I { s with runs := s.runs.set k (killRun r) } := by
  unfold killRun
  split
  · next hr =>
    have hs : Service.step cfg s (.cancelRun k) = some (settle s k { r with status := .cancelled }) := by
      simp [Service.step, hk, hr]
    have hclean : Clean (.cancelRun k) := trivial
    have hcancelled := h.forget _ s.ingest s.idle (h.step s _ _ hI hclean hs)
    obtain ⟨hstores, hruns, hrequests⟩ := settle_eq s k { r with status := .cancelled }
    rwa [hstores, hruns, hrequests, settle_clock] at hcancelled
  all_goals
    rwa [set_self hk]

theorem Lasting.kill_request (h : Lasting cfg I) (hI : I s) {k : Nat} {q : Request}
    (hk : s.requests[k]? = some q) :
    I { s with requests := s.requests.set k (killRequest q) } := by
  unfold killRequest
  split
  · next hq =>
    have hs : Service.step cfg s (.abortRequest k) =
        some { s with requests := s.requests.set k { q with status := .aborted } } := by
      simp [Service.step, hk, hq]
    have hclean : Clean (.abortRequest k) := trivial
    exact h.step s _ _ hI hclean hs
  all_goals
    rwa [set_self hk]

theorem Lasting.restart (h : Lasting cfg I) (hI : I s) (n : Nat) : I (restart n s) := by
  have hruns : I { s with runs := s.runs.map killRun } := by
    refine map_of_slots (P := fun runs => I { s with runs }) hI fun runs k r hI hk => ?_
    exact h.kill_run (s := { s with runs }) hI hk
  have hrequests : I { s with runs := s.runs.map killRun, requests := s.requests.map killRequest } := by
    refine map_of_slots (P := fun requests => I { s with runs := s.runs.map killRun, requests }) hruns
      fun requests k q hI hk => ?_
    exact h.kill_request (s := { s with runs := s.runs.map killRun, requests }) hI hk
  exact h.forget _ {} n hrequests

/-- What lasts over the steps of the service lasts over its lives. -/
theorem Lasting.lives (h : Lasting cfg I)
    (htrace : Trace (lifeStep cfg) (fun _ e => CleanLife e) (Service.init n) es s) : I s := by
  refine htrace.invariant I (h.init n) fun s e t hI he hs => ?_
  cases e with
  | service e => exact h.step s e t hI he hs
  | restart n =>
      cases hs
      exact h.restart hI n

theorem wf_forget (h : Wf s) (ingest : IngestQueueState) (idle : Nat) : Wf { s with ingest, idle } :=
  ⟨h.rows, h.docs, h.items, h.keys, h.links, h.backfill⟩

theorem gate_lasting : Lasting cfg GateWf :=
  ⟨gateWf_init, fun _ _ _ hwf _ hs => gateWf_step hwf hs,
    fun _ _ _ h => ⟨h.rows, h.rca, h.items, h.requests⟩⟩

theorem counts_lasting : Lasting cfg fun s => Wf s ∧ CountsWf s.stores s.runs := by
  refine ⟨fun n => ⟨wf_init n, fun wi hwi => absurd hwi List.not_mem_nil⟩,
    fun s e t hI he hs => ?_, fun s ingest idle hI => ⟨wf_forget hI.1 ingest idle, hI.2⟩⟩
  exact ⟨wf_step hI.1 hs he, countsWf_move hI.2 hI.1 (step_workerMove hs he)⟩

theorem feed_lasting : Lasting cfg fun s => Wf s ∧ FeedWf s := by
  refine ⟨fun n => ⟨wf_init n, feedWf_init n⟩, fun s e t hI he hs => ?_,
    fun s ingest idle ⟨hwf, hfeed⟩ => ⟨wf_forget hwf ingest idle, ?_⟩⟩
  · exact ⟨wf_step hI.1 hs he, feedWf_step hI.2 hI.1 hs he⟩
  · exact ⟨hfeed.once, hfeed.entries, hfeed.own, hfeed.alone, hfeed.absent⟩

def acceptedIn (cfg : Settings) (s : World) : LifeEvent → List SignalIn
  | .service e => acceptedBy cfg s e
  | .restart _ => []

def droppedIn (s : World) : LifeEvent → List SignalIn
  | .service _ => []
  | .restart _ => s.ingest.queue

def accepted (cfg : Settings) (n : Nat) (es : List LifeEvent) : List SignalIn :=
  gather (lifeStep cfg) (acceptedIn cfg) (init n) es

def lost (cfg : Settings) (n : Nat) (es : List LifeEvent) : List SignalIn :=
  gather (lifeStep cfg) droppedIn (init n) es

theorem sig_killRun (r : Run) : (killRun r).sig = r.sig := by
  unfold killRun
  split <;> rfl

theorem signals_restart (n : Nat) (s : World) : signals (restart n s) = s.runs.map Run.sig := by
  rw [signals, restart, List.map_map, List.append_nil]
  exact List.map_congr_left fun r _ => sig_killRun r

/-- An accepted signal has a run, or waits, or has gone with a process that left
it waiting. -/
theorem accepted_perm {ok : World → LifeEvent → Prop}
    (h : Trace (lifeStep cfg) ok (init n) es s) :
    (accepted cfg n es).Perm (signals s ++ lost cfg n es) := by
  refine h.invariant_past (fun es s => (accepted cfg n es).Perm (signals s ++ lost cfg n es))
    (.refl []) ?_
  rintro es s e t htrace hperm _ hs
  rw [accepted, lost, htrace.gather_next hs, htrace.gather_next hs]
  cases e with
  | service e =>
      have hline : signals t = signals s ++ acceptedBy cfg s e := (step_ingest hs).1
      rw [hline, droppedIn, List.append_nil]
      refine (hperm.append_right _).trans ?_
      rw [List.append_assoc, List.append_assoc]
      exact List.perm_append_comm.append_left _
  | restart m =>
      cases hs
      rw [signals_restart, acceptedIn, List.append_nil]
      refine hperm.trans ?_
      rw [signals, List.append_assoc]
      exact List.perm_append_comm.append_left _

structure Survives (s : World) : Prop where
  consistent : Consistent s
  documents : ∀ r ∈ s.runs, stored r.pc = true → ∃ d ∈ s.stores.mongo,
    d.id = r.mongoId ∧ d.componentId = r.sig.componentId ∧ d.severity = r.sig.severity.value
  counts : ∀ wi ∈ s.stores.postgres.workItems,
    (wi.signalCount : Int) = linksOf s.stores wi.id + inFlight s wi.id + cutShort s wi.id
  rca : ∀ wi ∈ s.stores.postgres.workItems, wi.state = .CLOSED →
    ∃ row, getRca s.stores.postgres wi.id = some row ∧ validate (some (ofRow row)) = .ok ()
  feed : ∀ e ∈ s.stores.redis.liveFeed, ∃ wi ∈ s.stores.postgres.workItems,
    liveEntry e = .ok ⟨wi.id, wi.componentId, severityScore wi.severity.value⟩

/-- Any number of crashes, at any moments and in the middle of any operations,
leave the stores consistent; and they cost no signal but those still queued. -/
theorem stores_survive_restarts (h : Trace (lifeStep cfg) (fun _ e => CleanLife e) (init n) es s) :
    Survives s ∧ (accepted cfg n es).Perm (s.runs.map Run.sig ++ s.ingest.queue ++ lost cfg n es) := by
  have hgate := gate_lasting.lives h
  obtain ⟨hwf, hcounts⟩ := counts_lasting.lives h
  obtain ⟨_, hfeed⟩ := feed_lasting.lives h
  refine ⟨⟨consistent_of_wf hwf, fun r hr hstored => document_of_run hwf.docs hr hstored,
    fun wi hwi => ?_, fun wi hwi hclosed => ?_, fun e he => ?_⟩, accepted_perm h⟩
  · have heq : wi.signalCount = linksOf s.stores wi.id + s.runs.countP (owes wi.id) :=
      hcounts (counted wi) (List.mem_map_of_mem hwi)
    have hsplit := owes_split s wi.id
    omega
  · obtain ⟨row, hrow⟩ := Requests.getRca_of_hasRca (closed_hasRca hgate wi hwi hclosed)
    exact ⟨row, hrow, hgate.rca.valid row (List.mem_of_find?_eq_some hrow)⟩
  · obtain ⟨_, horigin, rfl⟩ := hfeed.entries e he
    obtain ⟨wi, hwi, rfl⟩ := List.mem_map.mp horigin
    exact ⟨wi, hwi, liveEntry_feedMember _ _ _⟩

def firstLife : List Event :=
  List.replicate 3 (.offer (errorSignal "db")) ++ [.get "a"] ++ runOn 0 10 ++ [.get "b"] ++ runOn 1 4

def secondLife : List Event := [.offer (errorSignal "db"), .get "c"] ++ runOn 2 8

def twoLives : List LifeEvent :=
  firstLife.map .service ++ .restart 1 :: secondLife.map .service

theorem stores_survive_restarts_two_lives : ∃ s, s.runs.length = 3 ∧
    (lost {} 1 twoLives).length = 1 ∧ Survives s ∧ (accepted {} 1 twoLives).Perm
      (s.runs.map Run.sig ++ s.ingest.queue ++ lost {} 1 twoLives) := by
  obtain ⟨s, hs, hp⟩ := trace_of_replay (lifeStep {}) (fun _ e => CleanLife e) (init 1) twoLives
    (fun s => decide (s.runs.length = 3)) (by decide +kernel)
  exact ⟨s, of_decide_eq_true hp, by decide +kernel, stores_survive_restarts hs⟩

end Ims.Restarts
