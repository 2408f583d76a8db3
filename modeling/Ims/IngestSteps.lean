import Ims.WorkerFrames

namespace Ims.IngestSteps

open Library.Runs Library.Slots Models Ingestion Service WorkerSteps ServiceSteps WorkerMoves
  WorkerFrames
open Workers (Stores Run Pc Outcome rawDoc)

def acceptedBy (cfg : Settings) (s : World) : Event → List SignalIn
  | .offer sig => if (offer cfg s.ingest sig).2 then [sig] else []
  | _ => []

def isOffer : Event → Bool
  | .offer _ => true
  | _ => false

def returned (r : Run) : Bool := decide (r.status = .returned)

def leave (ingest : IngestQueueState) (r : Run) : IngestQueueState :=
  { ingest with
    unfinished := ingest.unfinished - 1
    processed := ingest.processed + (returned r).toNat }

inductive IngestMove (cfg : Settings) (s : World) : Event → IngestQueueState → List Run → Prop
  | offer (sig) : IngestMove cfg s (.offer sig) (offer cfg s.ingest sig).1 s.runs
  | get (oid sig queue r) (hqueue : s.ingest.queue = sig :: queue) (hsig : r.sig = sig)
      (hr : r.status = .running) :
      IngestMove cfg s (.get oid) { s.ingest with queue } (s.runs ++ [r])
  | keep (e) (hoffer : isOffer e = false) : IngestMove cfg s e s.ingest s.runs
  | goOn {k r} (e r') (he : runIndex e = some k) (hk : s.runs[k]? = some r)
      (hr : r.status = .running) (hsig : r'.sig = r.sig) (hr' : r'.status = .running) :
      IngestMove cfg s e s.ingest (s.runs.set k r')
  | ended {k r} (e r') (he : runIndex e = some k) (hk : s.runs[k]? = some r)
      (hr : r.status = .running) (hsig : r'.sig = r.sig) (hr' : r'.status ≠ .running) :
      IngestMove cfg s e (leave s.ingest r') (s.runs.set k r')

theorem offer_queue (cfg : Settings) (s : IngestQueueState) (sig : SignalIn) :
    let accepted := if (offer cfg s sig).2 then [sig] else []
    (offer cfg s sig).1.queue = s.queue ++ accepted ∧
      (offer cfg s sig).1.accepted = s.accepted + accepted.length ∧
        (offer cfg s sig).1.processed = s.processed := by
  unfold offer
  split
  · simp
  · unfold putNowait
    split
    · split <;> simp_all
    · next hput =>
      split at hput
      · cases hput
      · cases hput
        simp

theorem release_ingest (s : World) (cancelled : Bool) :
    (release s cancelled).ingest = { s.ingest with unfinished := s.ingest.unfinished - 1 } := by
  unfold release taskDone
  by_cases hzero : s.ingest.unfinished = 0
  · rw [if_pos hzero, hzero, Nat.zero_sub, ← hzero]
  · rw [if_neg hzero]

theorem settle_ingest (s : World) (k : Nat) (r : Run) :
    (settle s k r).ingest =
      if r.status = .running then s.ingest
      else { s.ingest with unfinished := s.ingest.unfinished - 1 } := by
  unfold settle
  cases hr : r.status with
  | running => rw [if_pos rfl]
  | cancelled | returned | raised => exact release_ingest _ _

theorem attempt_not_returned {r : Run} (o : Outcome) (now : Int) (st : Stores)
    (hr : r.status = .running) : returned (r.attempt o now st).2 = false := by
  rcases attempt_status r o now st with hstatus | ⟨e, hstatus⟩
  · simp [returned, hstatus, hr]
  · simp [returned, hstatus]

variable {cfg : Settings} {s t : World} {e : Event}

theorem settle_ingestMove {s' : World} {k : Nat} {r r' : Run} (he : runIndex e = some k)
    (hk : s.runs[k]? = some r) (hr : r.status = .running) (hsig : r'.sig = r.sig)
    (hruns : s'.runs = s.runs)
    (hingest : s'.ingest =
      { s.ingest with processed := s.ingest.processed + (returned r').toNat }) :
    IngestMove cfg s e (settle s' k r').ingest (settle s' k r').runs := by
  rw [settle_ingest, (settle_eq s' k r').2.1, hruns]
  by_cases hrun : r'.status = .running
  · have hnot : returned r' = false := by simp [returned, hrun]
    rw [if_pos hrun, hingest, hnot]
    exact .goOn e r' he hk hr hsig hrun
  · rw [if_neg hrun, hingest]
    exact .ended e r' he hk hr hsig hrun

theorem acceptedBy_nil (h : isOffer e = false) : acceptedBy cfg s e = [] := by
  cases e with
  | offer => cases h
  | _ => rfl

theorem not_offer_of_run {k : Nat} (h : runIndex e = some k) : isOffer e = false := by
  cases e with
  | run | cancelRun => rfl
  | _ => cases h

theorem step_ingestMove (h : step cfg s e = some t) : IngestMove cfg s e t.ingest t.runs := by
  cases step_taken h with
  | offer sig => exact .offer sig
  | get oid sig queue hqueue _ _ => exact .get oid sig queue _ hqueue rfl rfl
  | run o hk hr _ =>
      refine settle_ingestMove rfl hk hr (attempt_sig _ o _ _).1 rfl ?_
      rw [attempt_not_returned o _ _ hr]
      rfl
  | finish w hk hr _ => exact settle_ingestMove rfl hk hr rfl rfl rfl
  | cancelRun hk hr => exact settle_ingestMove rfl hk hr rfl rfl rfl
  | getTimeout | cancelIdle | request | abortRequest | call | expire | burnWorkItemId | burnRcaId
  | setClock => exact .keep _ rfl

/-- What one step does to the queue and its counters: an accepted signal goes
to the queue and from there into one run, and a run that returns is processed. -/
theorem step_ingest (h : step cfg s e = some t) :
    t.runs.map Run.sig ++ t.ingest.queue =
        s.runs.map Run.sig ++ s.ingest.queue ++ acceptedBy cfg s e ∧
      t.ingest.accepted = s.ingest.accepted + (acceptedBy cfg s e).length ∧
        t.ingest.processed + s.runs.countP returned = s.ingest.processed + t.runs.countP returned := by
  have hmove := step_ingestMove h
  generalize t.ingest = ingest, t.runs = runs at hmove
  cases hmove with
  | offer sig =>
      obtain ⟨hqueue, haccepted, hprocessed⟩ := offer_queue cfg s.ingest sig
      simp only [acceptedBy]
      exact ⟨by rw [hqueue, List.append_assoc], haccepted, by rw [hprocessed]⟩
  | get oid sig queue r hqueue hsig hr =>
      have hnot : returned r = false := by simp [returned, hr]
      simp [hqueue, hsig, hnot, acceptedBy, List.countP_append]
  | keep e hoffer =>
      simp [acceptedBy_nil hoffer]
  | @goOn k r e r' he hk hr hsig hr' =>
      have hsame : returned r' = returned r := by rw [returned, returned, hr, hr']
      rw [map_set hk hsig, acceptedBy_nil (not_offer_of_run he), countP_keep hk hsame]
      exact ⟨(List.append_nil _).symm, rfl, rfl⟩
  | @ended k r e r' he hk hr hsig hr' =>
      have hcount := countP_set hk returned r'
      have hnot : returned r = false := by simp [returned, hr]
      rw [hnot, Bool.toNat_false, Nat.add_zero] at hcount
      rw [map_set hk hsig, acceptedBy_nil (not_offer_of_run he)]
      refine ⟨(List.append_nil _).symm, rfl, ?_⟩
      rw [hcount]
      simp only [leave]
      omega

def signals (s : World) : List SignalIn := s.runs.map Run.sig ++ s.ingest.queue

theorem forall_signals_step {P : SignalIn → Prop} (h : ∀ sig ∈ signals s, P sig)
    (hnew : ∀ sig ∈ acceptedBy cfg s e, P sig) (hs : step cfg s e = some t) :
    ∀ sig ∈ signals t, P sig := by
  have hqueue : signals t = signals s ++ acceptedBy cfg s e := (step_ingest hs).1
  rw [hqueue]
  intro sig hsig
  rcases List.mem_append.mp hsig with hsig | hsig
  · exact h sig hsig
  · exact hnew sig hsig

theorem offer_of_accepted {sig : SignalIn} (h : sig ∈ acceptedBy cfg s e) : e = .offer sig := by
  cases e with
  | offer other =>
      simp only [acceptedBy] at h
      split at h
      · rw [List.mem_singleton.mp h]
      · cases h
  | _ => cases h

end Ims.IngestSteps
