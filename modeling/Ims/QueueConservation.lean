import Ims.IngestSteps
import Mathlib.Algebra.Order.Floor.Semiring
import Mathlib.Data.Rat.Floor
import Mathlib.Tactic.Positivity

namespace Ims.QueueConservation

open Library.Runs Library.Slots Models Ingestion Service WorkerSteps WorkerMoves WorkerFrames IngestSteps
open Workers (Stores Run)

def running (r : Run) : Bool := decide (r.status = .running)

def gaveUp (r : Run) : Bool := !running r && !returned r

def capacity (cfg : Settings) : Nat :=
  min cfg.queueMaxsize ⌈cfg.queueBackpressureThreshold * cfg.queueMaxsize⌉₊

variable {cfg : Settings} {s t : World} {e : Event}

theorem offer_accepts_iff (hcap : 0 < cfg.queueMaxsize) (q : IngestQueueState) (sig : SignalIn) :
    (offer cfg q sig).2 = true ↔ q.queue.length < cfg.queueMaxsize ∧
      (q.queue.length : Rat) / cfg.queueMaxsize < cfg.queueBackpressureThreshold := by
  have hpressed : isBackpressured cfg q = true ↔
      ¬ (q.queue.length : Rat) / cfg.queueMaxsize < cfg.queueBackpressureThreshold := by
    simp [isBackpressured, queuePctFull, Nat.ne_of_gt hcap]
  by_cases hfull : (q.queue.length : Rat) / cfg.queueMaxsize < cfg.queueBackpressureThreshold
  · have hnot : isBackpressured cfg q = false := by
      rw [Bool.eq_false_iff]
      exact fun h => hpressed.mp h hfull
    by_cases hlen : q.queue.length < cfg.queueMaxsize
    · simp [offer, hnot, putNowait, hcap, Nat.not_le.mpr hlen, hfull, hlen]
    · simp [offer, hnot, putNowait, hcap, Nat.not_lt.mp hlen, hlen]
  · simp [offer, hpressed.mpr hfull, hfull]

theorem offer_refused {q : IngestQueueState} {sig : SignalIn} (h : (offer cfg q sig).2 = false) :
    (offer cfg q sig).1 = { q with dropped := q.dropped + 1 } := by
  unfold offer at h ⊢
  split
  · rfl
  · next hpressed =>
    rw [if_neg hpressed] at h
    split
    · rfl
    · next hput =>
      rw [hput] at h
      cases h

theorem offer_accepted {q : IngestQueueState} {sig : SignalIn} (h : (offer cfg q sig).2 = true) :
    (offer cfg q sig).1 = { q with
      queue := q.queue ++ [sig], unfinished := q.unfinished + 1, accepted := q.accepted + 1 } := by
  unfold offer at h ⊢
  split
  · next hpressed =>
    rw [if_pos hpressed] at h
    cases h
  · next hpressed =>
    rw [if_neg hpressed] at h
    split
    · next hput =>
      rw [hput] at h
      cases h
    · next hput =>
      simp only [putNowait] at hput
      split at hput
      · cases hput
      · cases hput
        rfl

theorem room_of_accepted (hcap : 0 < cfg.queueMaxsize) {q : IngestQueueState} {sig : SignalIn}
    (h : (offer cfg q sig).2 = true) : q.queue.length + 1 ≤ capacity cfg := by
  obtain ⟨hlen, hratio⟩ := (offer_accepts_iff hcap q sig).mp h
  have hpos : (0 : Rat) < cfg.queueMaxsize := by exact_mod_cast hcap
  have hlt : (q.queue.length : Rat) < cfg.queueBackpressureThreshold * cfg.queueMaxsize :=
    (div_lt_iff₀ hpos).mp hratio
  exact le_min hlen (Nat.succ_le_of_lt (Nat.lt_ceil.mpr hlt))

/-- Every signal is somewhere: in the queue, in a run, or accounted for by an
ended run; and every unfinished task is one of the first two. -/
structure QueueWf (cfg : Settings) (s : World) : Prop where
  bounded : s.ingest.queue.length ≤ capacity cfg
  accounted : s.ingest.accepted =
    s.ingest.queue.length + s.runs.countP running + s.ingest.processed + s.runs.countP gaveUp
  unfinished : s.ingest.unfinished = s.ingest.queue.length + s.runs.countP running

theorem queueWf_init (n : Nat) : QueueWf cfg (init n) := ⟨Nat.zero_le _, rfl, rfl⟩

theorem queueWf_step (hcap : 0 < cfg.queueMaxsize) (h : QueueWf cfg s) (hs : step cfg s e = some t) :
    QueueWf cfg t := by
  obtain ⟨hbounded, haccounted, hunfinished⟩ := h
  have hmove := step_ingestMove hs
  generalize ht : t.ingest = ingest, hr : t.runs = runs at hmove
  suffices hgoal : ingest.queue.length ≤ capacity cfg ∧
      ingest.accepted =
        ingest.queue.length + runs.countP running + ingest.processed + runs.countP gaveUp ∧
      ingest.unfinished = ingest.queue.length + runs.countP running by
    rw [← ht, ← hr] at hgoal
    exact ⟨hgoal.1, hgoal.2.1, hgoal.2.2⟩
  cases hmove with
  | offer sig =>
      by_cases hok : (offer cfg s.ingest sig).2 = true
      · have hroom := room_of_accepted hcap hok
        rw [offer_accepted hok]
        simp only [List.length_append, List.length_singleton]
        omega
      · rw [offer_refused (Bool.not_eq_true _ ▸ hok)]
        exact ⟨hbounded, haccounted, hunfinished⟩
  | get oid sig queue r hqueue _ hrun =>
      have hrunning : running r = true := by simp [running, hrun]
      have hup : gaveUp r = false := by simp [gaveUp, hrunning]
      rw [hqueue, List.length_cons] at hbounded haccounted hunfinished
      simp only [List.countP_append, List.countP_singleton, hrunning, hup, if_true]
      simp only [Bool.false_eq_true, if_false]
      omega
  | keep => exact ⟨hbounded, haccounted, hunfinished⟩
  | @goOn k r e r' _ hk hrun _ hrun' =>
      have hyes : running r = true := by simp [running, hrun]
      have hyes' : running r' = true := by simp [running, hrun']
      have hup : gaveUp r' = gaveUp r := by simp [gaveUp, hyes, hyes']
      rw [countP_keep hk (hyes'.trans hyes.symm), countP_keep hk hup]
      exact ⟨hbounded, haccounted, hunfinished⟩
  | @ended k r e r' _ hk hrun _ hrun' =>
      have hrunning := countP_set hk running r'
      have hup := countP_set hk gaveUp r'
      have hnot : running r' = false := by simp [running, hrun']
      have hyes : running r = true := by simp [running, hrun]
      have hup' : gaveUp r' = !returned r' := by simp [gaveUp, hnot]
      have hup₀ : gaveUp r = false := by simp [gaveUp, hyes]
      rw [hyes, hnot] at hrunning
      rw [hup', hup₀] at hup
      simp only [leave]
      cases hret : returned r' <;> rw [hret] at hup <;>
        simp only [Bool.toNat_true, Bool.toNat_false, Bool.not_true, Bool.not_false] at hrunning hup ⊢ <;>
        omega

theorem offers_step (hs : step cfg s e = some t) :
    t.ingest.accepted + t.ingest.dropped =
      s.ingest.accepted + s.ingest.dropped + (isOffer e).toNat := by
  have hmove := step_ingestMove hs
  generalize t.ingest = ingest, t.runs = runs at hmove
  cases hmove with
  | offer sig =>
      by_cases hok : (offer cfg s.ingest sig).2 = true
      · rw [offer_accepted hok]
        simp only [isOffer, Bool.toNat_true]
        omega
      · rw [offer_refused (Bool.not_eq_true _ ▸ hok)]
        simp only [isOffer, Bool.toNat_true]
        omega
  | get => rfl
  | keep e hoffer =>
      rw [hoffer]
      rfl
  | goOn e r' he | ended e r' he =>
      rw [not_offer_of_run he]
      rfl

structure Conserved (cfg : Settings) (n : Nat) (es : List Event) (s : World) : Prop where
  bounded : s.ingest.queue.length ≤ capacity cfg
  accepts : ∀ sig, (offer cfg s.ingest sig).2 = true ↔ s.ingest.queue.length < cfg.queueMaxsize ∧
    (s.ingest.queue.length : Rat) / cfg.queueMaxsize < cfg.queueBackpressureThreshold
  refuses : ∀ sig, (offer cfg s.ingest sig).2 = false →
    (offer cfg s.ingest sig).1.queue = s.ingest.queue
  offers : es.countP isOffer = s.ingest.accepted + s.ingest.dropped
  accounted : s.ingest.accepted =
    s.ingest.queue.length + s.runs.countP running + s.ingest.processed + s.runs.countP gaveUp
  unfinished : s.ingest.unfinished = s.ingest.queue.length + s.runs.countP running
  taskDone : ∀ r ∈ s.runs, r.status = .running → taskDone s.ingest ≠ none
  handed : s.runs.map Run.sig <+: gather (step cfg) (acceptedBy cfg) (init n) es

/-- The ingest queue is bounded and conserves the signals, whatever is offered
and however the runs end. -/
theorem queue_bounded_and_conserving {ok : World → Event → Prop} {n : Nat} {es : List Event}
    (hcap : 0 < cfg.queueMaxsize) (h : Trace (step cfg) ok (init n) es s) : Conserved cfg n es s := by
  obtain ⟨hbounded, haccounted, hunfinished⟩ : QueueWf cfg s :=
    h.invariant (QueueWf cfg) (queueWf_init n) fun _ _ _ hwf _ hs => queueWf_step hcap hwf hs
  have hoffers : es.countP isOffer = s.ingest.accepted + s.ingest.dropped := by
    induction h with
    | start => rfl
    | next h _ hs ih =>
        have hwf := h.invariant (QueueWf cfg) (queueWf_init n)
          fun _ _ _ hwf _ hs => queueWf_step hcap hwf hs
        have := offers_step hs
        have := ih hwf.bounded hwf.accounted hwf.unfinished
        rw [List.countP_append, List.countP_singleton]
        cases he : isOffer _ <;> simp_all
  have hqueue := h.gather_eq (acceptedBy cfg) (fun s => s.runs.map Run.sig ++ s.ingest.queue)
    fun s e t _ hs => (step_ingest hs).1
  refine ⟨hbounded, offer_accepts_iff hcap s.ingest, fun sig hrefused => ?_, hoffers, haccounted,
    hunfinished, fun r hr hrun => ?_, s.ingest.queue, hqueue⟩
  · rw [offer_refused hrefused]
  · have hpos : 0 < s.runs.countP running :=
      List.countP_pos_iff.mpr ⟨r, hr, by simp [running, hrun]⟩
    have hne : s.ingest.unfinished ≠ 0 := by omega
    simp [taskDone, hne]

def halfFull : Settings := { queueMaxsize := 4, queueBackpressureThreshold := 1 / 2 }

def sixOffers : List Event :=
  List.replicate 3 (.offer (errorSignal "db")) ++ [.get "a"] ++ runOn 0 10 ++
    [.get "b", .cancelRun 1] ++ List.replicate 3 (.offer (errorSignal "db"))

theorem queue_bounded_and_conserving_six_offers :
    ∃ s : World, (s.ingest.accepted, s.ingest.dropped, s.ingest.processed) = (4, 2, 1) ∧
      Conserved halfFull 2 sixOffers s := by
  obtain ⟨s, hs, hp⟩ := trace_of_replay (step halfFull) (fun _ _ => True) (init 2) sixOffers
    (fun s => decide ((s.ingest.accepted, s.ingest.dropped, s.ingest.processed) = (4, 2, 1)))
    (by decide +kernel)
  exact ⟨s, of_decide_eq_true hp, queue_bounded_and_conserving (by decide) hs⟩

end Ims.QueueConservation
