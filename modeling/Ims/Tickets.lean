import Ims.Draining

namespace Ims.Tickets

open Library.Runs Models Ingestion Service ServiceSteps IngestSteps QueueConservation Draining
open Workers (Run)

structure SignalAccepted where
  accepted : Bool
  queueDepth : Nat
  queuePctFull : Rat

/-- The answer with status 503, its content and the header Retry-After. -/
structure Backpressure where
  statusCode : Nat
  error : String
  detail : String
  queuePctFull : Rat
  retryAfter : String

def backpressure (queuePctFull : Rat) : Backpressure where
  statusCode := 503
  error := "backpressure"
  detail := "ingest queue at or above backpressure threshold"
  queuePctFull := queuePctFull
  retryAfter := "5"

/-- The handler of POST /signals behind its rate limit. It awaits only offer,
which never waits, so nothing comes between the put and the snapshot. -/
def postSignal (cfg : Settings) (s : IngestQueueState) (signal : SignalIn) :
    IngestQueueState × (SignalAccepted ⊕ Backpressure) :=
  let (s, accepted) := offer cfg s signal
  if accepted then
    let snap := snapshot cfg s
    (s, .inl ⟨true, snap.queueDepth, snap.queuePctFull⟩)
  else (s, .inr (backpressure (queuePctFull cfg s)))

def isGet : Event → Bool
  | .get _ => true
  | _ => false

variable {cfg : Settings} {s t u : World} {e : Event} {es es' : List Event} {n : Nat}
  {signal : SignalIn} {out : SignalAccepted}

/-- The signals taken up and waiting form one line, of which the runs are the front. -/
theorem line_step (h : step cfg s e = some t) :
    signals t = signals s ++ acceptedBy cfg s e ∧
      t.runs.length = s.runs.length + (isGet e).toNat := by
  refine ⟨(step_ingest h).1, ?_⟩
  have hset {s' : World} {k : Nat} {r : Run} (hruns : s'.runs = s.runs) :
      (settle s' k r).runs.length = s.runs.length := by
    rw [(settle_eq s' k r).2.1, hruns, List.length_set]
  cases step_taken h with
  | get => exact List.length_append
  | run | finish | cancelRun => exact hset rfl
  | offer | getTimeout | cancelIdle | request | abortRequest | call | expire | burnWorkItemId
  | burnRcaId | setClock => rfl

/-- What an answer of acceptance in s is worth in u, when the events es have
followed. -/
structure Ticket (cfg : Settings) (signal : SignalIn) (out : SignalAccepted) (s u : World)
    (es : List Event) : Prop where
  positive : 1 ≤ out.queueDepth
  bounded : out.queueDepth ≤ capacity cfg
  waiting : es.countP isGet < out.queueDepth →
    u.ingest.queue[out.queueDepth - 1 - es.countP isGet]? = some signal
  taken : out.queueDepth ≤ es.countP isGet →
    (u.runs[s.runs.length + (out.queueDepth - 1)]?).map Run.sig = some signal
  served : u.idle ≠ 0 → Stuck cfg u → out.queueDepth ≤ es.countP isGet

theorem line_trace {ok : World → Event → Prop} (h : Trace (step cfg) ok t es u) :
    signals t <+: signals u ∧ u.runs.length = t.runs.length + es.countP isGet := by
  refine h.invariant_past (fun es u => signals t <+: signals u ∧
    u.runs.length = t.runs.length + es.countP isGet) ⟨List.prefix_rfl, rfl⟩ ?_
  rintro es u e v _ ⟨hstart, hlength⟩ _ hs
  obtain ⟨hline, hruns⟩ := line_step hs
  refine ⟨hstart.trans ⟨_, hline.symm⟩, ?_⟩
  rw [hruns, hlength, List.countP_append, List.countP_singleton]
  cases isGet e <;> rfl

theorem postSignal_accepted (h : (postSignal cfg s.ingest signal).2 = .inl out)
    (hs : step cfg s (.offer signal) = some t) :
    (offer cfg s.ingest signal).2 = true ∧ out.queueDepth = s.ingest.queue.length + 1 ∧
      t.ingest.queue = s.ingest.queue ++ [signal] ∧ t.runs = s.runs := by
  cases hs
  unfold postSignal at h
  cases hok : (offer cfg s.ingest signal).2 with
  | false => simp [hok] at h
  | true =>
      simp only [hok, if_true, Sum.inl.injEq] at h
      cases h
      refine ⟨rfl, ?_, ?_, rfl⟩
      · simp [snapshot, offer_accepted hok]
      · rw [offer_accepted hok]

/-- The depth of an accepted answer is the place of the signal in the line: that
many signals later it is in a run, and it is when the workers have come to rest. -/
theorem accepted_taken_in_turn {ok : World → Event → Prop} (hcap : 0 < cfg.queueMaxsize)
    (hpost : (postSignal cfg s.ingest signal).2 = .inl out) (hs : step cfg s (.offer signal) = some t)
    (h : Trace (step cfg) ok t es u) : Ticket cfg signal out s u es := by
  obtain ⟨hok, hdepth, hqueue, hruns⟩ := postSignal_accepted hpost hs
  obtain ⟨⟨rest, hstart⟩, hlength⟩ := line_trace h
  rw [hruns] at hlength
  have hplace : (signals u)[s.runs.length + (out.queueDepth - 1)]? = some signal := by
    rw [← hstart, signals, hruns, hqueue, hdepth, Nat.add_sub_cancel]
    simp
  have hwaiting (hwait : es.countP isGet < out.queueDepth) :
      u.ingest.queue[out.queueDepth - 1 - es.countP isGet]? = some signal := by
    have hle : (u.runs.map Run.sig).length ≤ s.runs.length + (out.queueDepth - 1) := by
      rw [List.length_map]
      omega
    rw [signals, List.getElem?_append_right hle, List.length_map, hlength] at hplace
    rwa [Nat.add_sub_add_left] at hplace
  refine ⟨by omega, hdepth ▸ room_of_accepted hcap hok, hwaiting, fun htaken => ?_,
    fun hidle hstuck => ?_⟩
  · have hlt : s.runs.length + (out.queueDepth - 1) < (u.runs.map Run.sig).length := by
      rw [List.length_map]
      omega
    rwa [signals, List.getElem?_append_left hlt, List.getElem?_map] at hplace
  · by_contra hwait
    have hin := hwaiting (Nat.lt_of_not_le hwait)
    rw [stuck_queue hstuck hidle] at hin
    cases hin

def inLine : World :=
  { init 2 with ingest := {
      queue := [errorSignal "api", errorSignal "cache"], unfinished := 2, accepted := 2 } }

def offered : World := { inLine with ingest := (offer {} inLine.ingest (errorSignal "db")).1 }

def thirdTaken : List Event := .get "a" :: .get "b" :: runOn 0 10 ++ [.get "c"]

theorem accepted_taken_in_turn_third : ∃ u out, out.queueDepth = 3 ∧
    (u.runs[2]?).map Run.sig = some (errorSignal "db") ∧
    Ticket {} (errorSignal "db") out inLine u thirdTaken := by
  obtain ⟨out, hpost⟩ : ∃ out, (postSignal {} inLine.ingest (errorSignal "db")).2 = .inl out :=
    Sum.isLeft_iff.mp (by decide +kernel)
  obtain ⟨u, hu, hp⟩ := trace_of_replay (step {}) (fun _ _ => True) offered thirdTaken
    (fun u => decide ((u.runs[2]?).map Run.sig = some (errorSignal "db"))) (by decide +kernel)
  exact ⟨u, out, (postSignal_accepted hpost rfl).2.1, of_decide_eq_true hp,
    accepted_taken_in_turn (by decide) hpost rfl hu⟩

end Ims.Tickets
