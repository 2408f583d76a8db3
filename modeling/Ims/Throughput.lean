import Ims.Draining

namespace Ims.Throughput

open Library.Runs Library.Slots Library.Rounding Models Ingestion Service IngestSteps
open Workers (Outcome)
open Retry (retryAsync retries)

/-- The mapping that _throughput_loop publishes, before set_metrics makes texts
of its values. -/
structure Metrics where
  signalsInPerSec : Rat
  signalsProcessedPerSec : Rat
  queueDepth : Nat
  queuePctFull : Rat
  droppedTotal : Nat
  acceptedTotal : Nat
  processedTotal : Nat
  updatedAt : Int
  deriving DecidableEq, Repr

inductive LoopPc
  | wait
  | setMetrics (metrics : Metrics) (attempt : Nat)
  | ended

/-- The service with its throughput task, and the hash under METRICS_KEY. -/
structure Monitored where
  world : World
  lastAcceptedWindow : Nat := 0
  lastProcessedWindow : Nat := 0
  pc : LoopPc := .wait
  metrics : Option Metrics := none

def start (workerCount : Nat) : Monitored := { world := init workerCount }

inductive MonitorEvent
  | service (e : Event)
  -- the wait times out
  | tick
  -- an attempt of set_metrics ends
  | setMetrics (o : Outcome)
  | cancel

def acceptedWindow (s : Monitored) : Int := s.world.ingest.accepted - s.lastAcceptedWindow

def processedWindow (s : Monitored) : Int := s.world.ingest.processed - s.lastProcessedWindow

def perSec (interval window : Int) : Rat := roundDigits 2 (window / interval)

def report (cfg : Settings) (interval : Int) (s : Monitored) : Metrics :=
  let snap := snapshot cfg s.world.ingest
  { signalsInPerSec := perSec interval (acceptedWindow s)
    signalsProcessedPerSec := perSec interval (processedWindow s)
    queueDepth := snap.queueDepth
    queuePctFull := snap.queuePctFull
    droppedTotal := snap.droppedTotal
    acceptedTotal := snap.acceptedTotal
    processedTotal := snap.processedTotal
    updatedAt := s.world.clock }

/-- The body of the loop up to its await. Dividing by an interval of 0 ends the
task, after the windows have been moved. -/
def tick (cfg : Settings) (interval : Int) (s : Monitored) : Monitored :=
  { s with
    lastAcceptedWindow := s.world.ingest.accepted
    lastProcessedWindow := s.world.ingest.processed
    pc := if interval = 0 then .ended else .setMetrics (report cfg interval s) 0 }

def retryMetrics (metrics : Metrics) (attempt : Nat) : LoopPc :=
  match retryAsync retries attempt with
  | some attempt => .setMetrics metrics attempt
  | none => .wait

def monitoredStep (cfg : Settings) (interval : Int) (s : Monitored) : MonitorEvent → Option Monitored
  | .service e => (step cfg s.world e).map fun world => { s with world }
  | .tick => match s.pc with
    | .wait => some (tick cfg interval s)
    | .setMetrics .. | .ended => none
  | .setMetrics o => match s.pc, o with
    | .setMetrics m _, .ok => some { s with pc := .wait, metrics := some m }
    | .setMetrics m attempt, .fail _ => some { s with pc := retryMetrics m attempt }
    | .setMetrics m attempt, .lost _ =>
        some { s with pc := retryMetrics m attempt, metrics := some m }
    | .wait, _ | .ended, _ => none
  | .cancel => some { s with pc := .ended }

def turn (s : Monitored) : MonitorEvent → List Monitored
  | .tick => [s]
  | .service _ | .setMetrics _ | .cancel => []

def turns (cfg : Settings) (interval : Int) (n : Nat) (es : List MonitorEvent) : List Monitored :=
  gather (monitoredStep cfg interval) turn (start n) es

structure Totals where
  accepted : Nat
  dropped : Nat
  processed : Nat

structure Totals.Le (a b : Totals) : Prop where
  accepted : a.accepted ≤ b.accepted
  dropped : a.dropped ≤ b.dropped
  processed : a.processed ≤ b.processed

def Metrics.totals (m : Metrics) : Totals := ⟨m.acceptedTotal, m.droppedTotal, m.processedTotal⟩

def live (s : World) : Totals := ⟨s.ingest.accepted, s.ingest.dropped, s.ingest.processed⟩

def pending : LoopPc → Option Metrics
  | .setMetrics m _ => some m
  | .wait | .ended => none

variable {cfg : Settings} {interval : Int} {n : Nat} {s t : Monitored} {e : MonitorEvent}
  {es : List MonitorEvent}

theorem Totals.Le.refl (a : Totals) : a.Le a := ⟨Nat.le_refl _, Nat.le_refl _, Nat.le_refl _⟩

theorem Totals.Le.trans {a b c : Totals} (h : a.Le b) (h' : b.Le c) : a.Le c :=
  ⟨h.accepted.trans h'.accepted, h.dropped.trans h'.dropped, h.processed.trans h'.processed⟩

theorem live_step {s t : World} {e : Event} (h : step cfg s e = some t) : (live s).Le (live t) := by
  have hmove := step_ingestMove h
  unfold live
  generalize t.ingest = ingest, t.runs = runs at hmove
  cases hmove with
  | offer sig =>
      by_cases hok : (offer cfg s.ingest sig).2 = true
      · rw [QueueConservation.offer_accepted hok]
        exact ⟨Nat.le_succ _, Nat.le_refl _, Nat.le_refl _⟩
      · rw [QueueConservation.offer_refused (Bool.not_eq_true _ ▸ hok)]
        exact ⟨Nat.le_refl _, Nat.le_succ _, Nat.le_refl _⟩
  | get | keep | goOn => exact Totals.Le.refl _
  | ended => exact ⟨Nat.le_refl _, Nat.le_refl _, Nat.le_add_right _ _⟩

inductive Moved (cfg : Settings) (interval : Int) (s : Monitored) : MonitorEvent → Monitored → Prop
  | service {e world} (h : step cfg s.world e = some world) :
      Moved cfg interval s (.service e) { s with world }
  | tick (hpc : s.pc = .wait) : Moved cfg interval s .tick (tick cfg interval s)
  | published {m attempt o pc} (hpc : s.pc = .setMetrics m attempt)
      (hnext : ∀ m', pending pc = some m' → m' = m) :
      Moved cfg interval s (.setMetrics o) { s with pc, metrics := some m }
  | failed {m attempt o pc} (hpc : s.pc = .setMetrics m attempt)
      (hnext : ∀ m', pending pc = some m' → m' = m) :
      Moved cfg interval s (.setMetrics o) { s with pc }
  | cancel : Moved cfg interval s .cancel { s with pc := .ended }

theorem pending_retryMetrics {m m' : Metrics} {attempt : Nat}
    (h : pending (retryMetrics m attempt) = some m') : m' = m := by
  unfold retryMetrics at h
  split at h
  · exact (Option.some.inj h).symm
  · cases h

theorem moved (h : monitoredStep cfg interval s e = some t) : Moved cfg interval s e t := by
  cases e with
  | service e =>
      obtain ⟨world, hworld, rfl⟩ := Option.map_eq_some_iff.mp h
      exact .service hworld
  | tick =>
      simp only [monitoredStep] at h
      split at h
      · next hpc =>
        cases h
        exact .tick hpc
      · cases h
      · cases h
  | setMetrics o =>
      simp only [monitoredStep] at h
      split at h
      · next hpc =>
        cases h
        exact .published hpc fun _ hm => by cases hm
      · next hpc =>
        cases h
        exact .failed hpc fun _ => pending_retryMetrics
      · next hpc =>
        cases h
        exact .published hpc fun _ => pending_retryMetrics
      · cases h
      · cases h
  | cancel =>
      cases h
      exact .cancel

structure Ordered (s : Monitored) : Prop where
  hash : ∀ m, s.metrics = some m → m.totals.Le (live s.world)
  pending : ∀ m, pending s.pc = some m → m.totals.Le (live s.world)
  between : ∀ m m', s.metrics = some m → Throughput.pending s.pc = some m' → m.totals.Le m'.totals

theorem ordered_step (h : Ordered s) (hs : monitoredStep cfg interval s e = some t) :
    Ordered t ∧ ∀ m, s.metrics = some m → ∃ m', t.metrics = some m' ∧ m.totals.Le m'.totals := by
  have hkeep (m : Metrics) (hm : s.metrics = some m) :
      ∃ m', s.metrics = some m' ∧ m.totals.Le m'.totals := ⟨m, hm, Totals.Le.refl _⟩
  cases moved hs with
  | service hworld =>
      have hlive := live_step hworld
      exact ⟨⟨fun m hm => (h.hash m hm).trans hlive, fun m hm => (h.pending m hm).trans hlive,
        h.between⟩, hkeep⟩
  | tick =>
      refine ⟨⟨h.hash, fun m hm => ?_, fun m m' hm hm' => ?_⟩, hkeep⟩
      · simp only [tick] at hm ⊢
        split at hm
        · cases hm
        · rw [← Option.some.inj hm]
          exact Totals.Le.refl _
      · simp only [tick] at hm'
        split at hm'
        · cases hm'
        · rw [← Option.some.inj hm']
          exact h.hash m hm
  | @published m attempt o pc hpc hnext =>
      have hpending : Throughput.pending s.pc = some m := by rw [hpc]; rfl
      refine ⟨⟨fun b hb => ?_, fun b hb => ?_, fun b d hb hd => ?_⟩, fun b hb =>
        ⟨m, rfl, h.between b m hb hpending⟩⟩
      · cases hb
        exact h.pending m hpending
      · rw [hnext b hb]
        exact h.pending m hpending
      · cases hb
        rw [hnext d hd]
        exact Totals.Le.refl _
  | @failed m attempt o pc hpc hnext =>
      have hpending : Throughput.pending s.pc = some m := by rw [hpc]; rfl
      refine ⟨⟨h.hash, fun b hb => ?_, fun b d hb hd => ?_⟩, hkeep⟩
      · rw [hnext b hb]
        exact h.pending m hpending
      · rw [hnext d hd]
        exact h.between b m hb hpending
  | cancel =>
      refine ⟨⟨h.hash, fun m hm => ?_, fun m m' _ hm' => ?_⟩, hkeep⟩
      · cases hm
      · cases hm'

structure Turned (cfg : Settings) (interval : Int) (turns : List Monitored) (s : Monitored) : Prop where
  accepted : (turns.map acceptedWindow).sum = s.lastAcceptedWindow
  processed : (turns.map processedWindow).sum = s.lastProcessedWindow
  acceptedLe : s.lastAcceptedWindow ≤ s.world.ingest.accepted
  processedLe : s.lastProcessedWindow ≤ s.world.ingest.processed
  windows : ∀ u ∈ turns, 0 ≤ acceptedWindow u ∧ 0 ≤ processedWindow u
  earlier : ∀ u ∈ turns, u.world.ingest.accepted ≤ s.lastAcceptedWindow ∧
    u.world.ingest.processed ≤ s.lastProcessedWindow
  pending : ∀ m, pending s.pc = some m → ∃ u ∈ turns, m = report cfg interval u
  published : ∀ m, s.metrics = some m → ∃ u ∈ turns, m = report cfg interval u

theorem turned_tick {turns : List Monitored} (h : Turned cfg interval turns s) :
    Turned cfg interval (turns ++ [s]) (tick cfg interval s) := by
  obtain ⟨haccepted, hprocessed, haccepted', hprocessed', hwindows, hearlier, _, hpublished⟩ := h
  refine ⟨?_, ?_, Nat.le_refl _, Nat.le_refl _, ?_, ?_, fun m hm => ?_, fun m hm => ?_⟩
  · rw [List.map_append, List.sum_append, haccepted, List.map_singleton, List.sum_singleton,
      acceptedWindow]
    exact add_sub_cancel _ _
  · rw [List.map_append, List.sum_append, hprocessed, List.map_singleton, List.sum_singleton,
      processedWindow]
    exact add_sub_cancel _ _
  · refine forall_push hwindows ⟨?_, ?_⟩
    · exact Int.sub_nonneg_of_le (Int.ofNat_le.mpr haccepted')
    · exact Int.sub_nonneg_of_le (Int.ofNat_le.mpr hprocessed')
  · refine forall_push (fun u hu => ?_) ⟨Nat.le_refl _, Nat.le_refl _⟩
    obtain ⟨hle, hle'⟩ := hearlier u hu
    exact ⟨hle.trans haccepted', hle'.trans hprocessed'⟩
  · simp only [tick] at hm
    split at hm
    · cases hm
    · exact ⟨s, List.mem_append_right _ List.mem_cons_self, (Option.some.inj hm).symm⟩
  · obtain ⟨u, hu, rfl⟩ := hpublished m hm
    exact ⟨u, List.mem_append_left _ hu, rfl⟩

theorem turned_step {turns : List Monitored} (h : Turned cfg interval turns s)
    (hs : monitoredStep cfg interval s e = some t) :
    Turned cfg interval (turns ++ turn s e) t := by
  have hturned := h
  obtain ⟨haccepted, hprocessed, haccepted', hprocessed', hwindows, hearlier, hpending, hpublished⟩ := h
  cases moved hs with
  | service hworld =>
      obtain ⟨hle, _, hle'⟩ := live_step hworld
      rw [turn, List.append_nil]
      exact ⟨haccepted, hprocessed, haccepted'.trans hle, hprocessed'.trans hle', hwindows, hearlier,
        hpending, hpublished⟩
  | tick => exact turned_tick hturned
  | @published m attempt o pc hpc hnext =>
      obtain hreport := hpending m (by rw [hpc]; rfl)
      rw [turn, List.append_nil]
      refine ⟨haccepted, hprocessed, haccepted', hprocessed', hwindows, hearlier, fun b hb => ?_,
        fun b hb => ?_⟩
      · rw [hnext b hb]
        exact hreport
      · cases hb
        exact hreport
  | @failed m attempt o pc hpc hnext =>
      obtain hreport := hpending m (by rw [hpc]; rfl)
      rw [turn, List.append_nil]
      refine ⟨haccepted, hprocessed, haccepted', hprocessed', hwindows, hearlier, fun b hb => ?_,
        hpublished⟩
      rw [hnext b hb]
      exact hreport
  | cancel =>
      rw [turn, List.append_nil]
      refine ⟨haccepted, hprocessed, haccepted', hprocessed', hwindows, hearlier, fun m hm => ?_,
        hpublished⟩
      cases hm

theorem turned_start : Turned cfg interval [] (start n) := by
  refine ⟨rfl, rfl, Nat.le_refl _, Nat.le_refl _, ?_, ?_, fun m hm => ?_, fun m hm => ?_⟩
  · exact fun _ hu => absurd hu List.not_mem_nil
  · exact fun _ hu => absurd hu List.not_mem_nil
  · cases hm
  · cases hm

theorem mem_turn {u : Monitored} (h : u ∈ turn s e) : u = s := by
  cases e with
  | tick => exact List.mem_singleton.mp h
  | service | setMetrics | cancel => cases h

def serviceEvent : MonitorEvent → Option Event
  | .service e => some e
  | .tick | .setMetrics _ | .cancel => none

theorem monitored_world {ok : Monitored → MonitorEvent → Prop}
    (h : Trace (monitoredStep cfg interval) ok (start n) es s) :
    Trace (step cfg) (fun _ _ => True) (init n) (es.filterMap serviceEvent) s.world := by
  refine h.project Monitored.world serviceEvent fun s e t _ hs => ?_
  cases moved hs with
  | service hworld => exact ⟨trivial, hworld⟩
  | tick | published | failed | cancel => rfl

structure Sound (m : Metrics) : Prop where
  accounted : m.processedTotal + m.queueDepth ≤ m.acceptedTotal
  nonneg : 0 ≤ m.queuePctFull
  le_one : m.queuePctFull ≤ 1

theorem sound_report {ok : Monitored → MonitorEvent → Prop}
    (h : Trace (monitoredStep cfg interval) ok (start n) es s) : Sound (report cfg interval s) := by
  have hworld := monitored_world h
  obtain ⟨haccepted, hprocessed⟩ := Draining.accounted_trace hworld
  have hle := List.countP_le_length (l := s.world.runs) (p := returned)
  have hpct : 0 ≤ queuePctFull cfg s.world.ingest ∧ queuePctFull cfg s.world.ingest ≤ 1 := by
    unfold queuePctFull
    split
    · exact ⟨le_refl _, zero_le_one⟩
    · next hcap =>
      have hcap := Nat.pos_of_ne_zero hcap
      have hbounded := (hworld.invariant (QueueConservation.QueueWf cfg)
        (QueueConservation.queueWf_init n)
        fun _ _ _ hwf _ hs => QueueConservation.queueWf_step hcap hwf hs).bounded
      have hroom : (s.world.ingest.queue.length : Rat) ≤ cfg.queueMaxsize :=
        Nat.cast_le.mpr (hbounded.trans (Nat.min_le_left _ _))
      exact ⟨by positivity, div_le_one_of_le₀ hroom (Nat.cast_nonneg _)⟩
  refine ⟨?_, ?_, ?_⟩
  · simp only [report, snapshot]
    omega
  · exact le_of_eq_of_le (roundDigits_intCast 4 0).symm (roundDigits_mono 4 hpct.1)
  · exact le_of_le_of_eq (roundDigits_mono 4 hpct.2) (roundDigits_intCast 4 1)

structure Reported (cfg : Settings) (interval : Int) (turns : List Monitored) (s : Monitored) :
    Prop where
  turned : Turned cfg interval turns s
  ratesIn : interval ≠ 0 →
    |(turns.map fun u => interval * (report cfg interval u).signalsInPerSec).sum -
      s.lastAcceptedWindow| ≤ turns.length * (|(interval : Rat)| * (1 / (2 * 10 ^ 2)))
  ratesOut : interval ≠ 0 →
    |(turns.map fun u => interval * (report cfg interval u).signalsProcessedPerSec).sum -
      s.lastProcessedWindow| ≤ turns.length * (|(interval : Rat)| * (1 / (2 * 10 ^ 2)))
  sound : ∀ m, s.metrics = some m → Sound m

/-- The windows of the loop make up the counters, each signal in one of them,
and so do the published rates up to their rounding; and what is published are
figures of one moment, however the attempts to publish them end. The bound on the
rounding is also that of Python's round of a float, which may take the other
neighbour of a decimal tie; an interval of 5 seconds gives none. -/
theorem reports_add_up {ok : Monitored → MonitorEvent → Prop}
    (h : Trace (monitoredStep cfg interval) ok (start n) es s) :
    Reported cfg interval (turns cfg interval n es) s := by
  have hturns : Turned cfg interval (turns cfg interval n es) s ∧
      ∀ u ∈ turns cfg interval n es, Sound (report cfg interval u) := by
    refine h.invariant_past (fun es s => Turned cfg interval (turns cfg interval n es) s ∧
      ∀ u ∈ turns cfg interval n es, Sound (report cfg interval u)) ⟨turned_start, ?_⟩ ?_
    · exact fun _ hu => absurd hu List.not_mem_nil
    · rintro es s e t htrace ⟨hturned, hsound⟩ _ hs
      rw [turns, htrace.gather_next hs]
      refine ⟨turned_step hturned hs, fun u hu => ?_⟩
      rcases List.mem_append.mp hu with hu | hu
      · exact hsound u hu
      · rw [mem_turn hu]
        exact sound_report htrace
  obtain ⟨hturned, hsound⟩ := hturns
  have hrates (f : Monitored → Int) (last : Nat)
      (hsum : ((turns cfg interval n es).map f).sum = last) (hinterval : interval ≠ 0) :
      |((turns cfg interval n es).map fun u => interval * perSec interval (f u)).sum - last| ≤
        (turns cfg interval n es).length * (|(interval : Rat)| * (1 / (2 * 10 ^ 2))) := by
    have := abs_sum_rates_sub (Int.cast_ne_zero.mpr hinterval) 2 ((turns cfg interval n es).map f)
    rw [List.map_map, List.length_map, hsum, Int.cast_natCast] at this
    exact this
  refine ⟨hturned, hrates acceptedWindow _ hturned.accepted,
    hrates processedWindow _ hturned.processed, fun m hm => ?_⟩
  obtain ⟨u, hu, rfl⟩ := hturned.published m hm
  exact hsound u hu

def threeTurns : List MonitorEvent :=
  [.service (.offer (errorSignal "db")), .tick, .setMetrics (.fail .storeError),
    .setMetrics (.lost .storeError), .setMetrics .ok, .service (.get "a")] ++
    (runOn 0 10).map .service ++ [.tick] ++
    List.replicate 3 (.setMetrics (.fail .storeError))

def nextTurn : List MonitorEvent :=
  [.service (.offer (errorSignal "db")), .tick, .setMetrics .ok]

theorem reports_add_up_three_turns : ∃ s, (turns {} 5 1 threeTurns).map processedWindow = [0, 1] ∧
    s.metrics.map Metrics.processedTotal = some 0 ∧
    Reported {} 5 (turns {} 5 1 threeTurns) s := by
  obtain ⟨s, hs, hp⟩ := trace_of_replay (monitoredStep {} 5) (fun _ _ => True) (start 1) threeTurns
    (fun s => decide (s.metrics.map Metrics.processedTotal = some 0)) (by decide +kernel)
  exact ⟨s, by decide +kernel, of_decide_eq_true hp, reports_add_up hs⟩

/-- A reader of the hash sees no total go back, and none above the counters. -/
theorem metrics_never_go_back {ok : Monitored → MonitorEvent → Prop} {es' : List MonitorEvent}
    (h : Trace (monitoredStep cfg interval) ok (start n) es s)
    (h' : Trace (monitoredStep cfg interval) ok s es' t) :
    (∀ m, s.metrics = some m → ∃ m', t.metrics = some m' ∧ m.totals.Le m'.totals) ∧
      ∀ m, t.metrics = some m → m.totals.Le (live t.world) := by
  have hordered : Ordered s := by
    refine h.invariant Ordered ⟨fun m hm => ?_, fun m hm => ?_, fun m m' hm => ?_⟩
      fun _ _ _ hordered _ hs => (ordered_step hordered hs).1
    · cases hm
    · cases hm
    · cases hm
  have hlater := h'.invariant (fun t => Ordered t ∧ ∀ m, s.metrics = some m →
    ∃ m', t.metrics = some m' ∧ m.totals.Le m'.totals)
    ⟨hordered, fun m hm => ⟨m, hm, Totals.Le.refl _⟩⟩ ?_
  · exact ⟨hlater.2, hlater.1.hash⟩
  · rintro t e u ⟨hordered, hlater⟩ _ hs
    obtain ⟨hordered', hstep⟩ := ordered_step hordered hs
    refine ⟨hordered', fun m hm => ?_⟩
    obtain ⟨m', hm', hle⟩ := hlater m hm
    obtain ⟨m'', hm'', hle'⟩ := hstep m' hm'
    exact ⟨m'', hm'', hle.trans hle'⟩

theorem metrics_never_go_back_next_turn : ∃ s t : Monitored,
    s.metrics.map Metrics.processedTotal = some 0 ∧ t.metrics.map Metrics.processedTotal = some 1 ∧
      (∀ m, s.metrics = some m → ∃ m', t.metrics = some m' ∧ m.totals.Le m'.totals) ∧
      ∀ m, t.metrics = some m → m.totals.Le (live t.world) := by
  obtain ⟨s, hs, hp⟩ := trace_of_replay (monitoredStep {} 5) (fun _ _ => True) (start 1) threeTurns
    (fun s => decide (s.metrics.map Metrics.processedTotal = some 0)) (by decide +kernel)
  obtain ⟨t, ht, hq⟩ := trace_of_replay (monitoredStep {} 5) (fun _ _ => True) (start 1)
    (threeTurns ++ nextTurn)
    (fun s => decide (s.metrics.map Metrics.processedTotal = some 1)) (by decide +kernel)
  obtain ⟨hs, hlast⟩ := ht.split_at hs
  exact ⟨s, t, of_decide_eq_true hp, of_decide_eq_true hq, metrics_never_go_back hs hlast⟩

end Ims.Throughput
