import Ims.Delivery
import Ims.LifeCycle

namespace Ims.MetricBuckets

open Library.Runs Library.Tables Library.Slots Library.Counters Time Models PostgresRepo Ingestion Service
  WorkerSteps ServiceSteps WorkerMoves WorkerFrames Rows LifeCycle Effects Retries IngestSteps Delivery
open Workers (Stores Run Pc Outcome bucketFor)

/-- The offset of the zone is a whole number of minutes; a naive time is UTC. -/
def WholeMinutes (ts : Datetime) : Prop := ts.utcoffset.getD 0 % minute = 0

instance : DecidablePred WholeMinutes := fun ts =>
  inferInstanceAs (Decidable (ts.utcoffset.getD 0 % minute = 0))

def Aligned : Event → Prop
  | .offer sig => WholeMinutes sig.timestamp
  | _ => True

instance : DecidablePred Aligned
  | .offer sig => inferInstanceAs (Decidable (WholeMinutes sig.timestamp))
  | .get _ | .getTimeout | .cancelIdle | .run _ _ | .request _ _ | .cancelRun _ | .abortRequest _
  | .call _ | .expire _ | .burnWorkItemId | .burnRcaId | .setClock _ => .isTrue trivial

def metering : Pc → Bool
  | .upsertMetric _ => true
  | .insertSignal | .claim | .create _ | .publish _ _ | .pushLiveFeed _ | .dispatch _
  | .getOpenWorkItem | .increment _ | .addLink _ | .backfill _ | .finish _ => false

def upserts (s : World) : Event → List SignalIn
  | .run k o => match s.runs[k]? with
    | none => []
    | some r => if takesEffect o && metering r.pc then [r.sig] else []
  | _ => []

def committed (cfg : Settings) (n : Nat) (es : List Event) : List SignalIn :=
  gather (step cfg) upserts (init n) es

def inBucket (b : Int) (c : String) (sev : Severity) (sig : SignalIn) : Bool :=
  sig.componentId = c ∧ sig.severity = sev ∧ b ≤ sig.timestamp.instant ∧
    sig.timestamp.instant < b + minute

def countAt (pg : Postgres) (b : Int) (c : String) (sev : Severity) : Int :=
  ((pg.signalMetrics.find? (hasMetricKey b c sev)).map SignalMetric.count).getD 0

def completed (s : World) : List SignalIn := (s.runs.filter returned).map Run.sig

/-- No run is between the commit of its metric upsert and its end, and none has
been cancelled there. -/
def Settled (s : World) : Prop := ∀ r ∈ s.runs, metricDone r.pc = true → returned r = true

structure CountsByInstant (cfg : Settings) (n : Nat) (es : List Event) (s : World) : Prop where
  counts : ∀ b c sev, b % minute = 0 →
    countAt s.stores.postgres b c sev = (committed cfg n es).countP (inBucket b c sev)
  minutes : ∀ m ∈ s.stores.postgres.signalMetrics, m.bucket % minute = 0
  total : s.ingest.processed ≤ metricTotal s.stores ∧
    metricTotal s.stores ≤ s.ingest.processed + s.runs.countP fun r => !returned r
  commits : ∀ cfg' n' es' s',
    Trace (step cfg') (fun _ e => Clean e ∧ Aligned e) (init n') es' s' →
    (committed cfg n es).Perm (committed cfg' n' es') →
    s.stores.postgres.signalMetrics.Perm s'.stores.postgres.signalMetrics
  final : ∀ cfg' n' es' s',
    Trace (step cfg') (fun _ e => Clean e ∧ Aligned e) (init n') es' s' →
    Settled s → Settled s' → (completed s).Perm (completed s') →
    s.stores.postgres.signalMetrics.Perm s'.stores.postgres.signalMetrics

theorem bucketFor_instant {ts : Datetime} (h : WholeMinutes ts) :
    (bucketFor ts).instant = ts.instant - ts.instant % minute := by
  rcases ts with ⟨wall, _ | off⟩
  · simp [bucketFor, Datetime.replaceSecond, Datetime.instant]
  · simp only [WholeMinutes, Option.getD_some] at h
    have hmod : (wall - off) % minute = wall % minute := by
      rw [Int.sub_emod, h, Int.sub_zero, Int.emod_emod]
    simp only [bucketFor, reduceCtorEq, if_false, Datetime.replaceSecond, Datetime.instant,
      Option.getD_some, hmod]
    omega

theorem bucketFor_minute {ts : Datetime} (h : WholeMinutes ts) :
    (bucketFor ts).instant % minute = 0 := by
  rw [bucketFor_instant h]
  exact Int.emod_eq_zero_of_dvd (Int.dvd_self_sub_emod)

/-- Equal minutes in different zones meet in one bucket. -/
theorem bucketFor_iff {ts : Datetime} (h : WholeMinutes ts) {b : Int} (hb : b % minute = 0) :
    (bucketFor ts).instant = b ↔ b ≤ ts.instant ∧ ts.instant < b + minute := by
  rw [bucketFor_instant h]
  generalize ts.instant = i
  simp only [minute] at hb ⊢
  omega

theorem metricKey_iff {sig : SignalIn} (h : WholeMinutes sig.timestamp) {b : Int} (hb : b % minute = 0)
    (c : String) (sev : Severity) : metricKey sig = (b, c, sev) ↔ inBucket b c sev sig = true := by
  simp only [metricKey, Prod.mk.injEq, inBucket, decide_eq_true_iff, bucketFor_iff h hb]
  tauto

theorem countAt_eq (pg : Postgres) (b : Int) (c : String) (sev : Severity) :
    countAt pg b c sev = metricCounter.countOf pg.signalMetrics (b, c, sev) := by
  rw [Counter.countOf, has_metricKey]
  rfl

variable {cfg : Settings} {n : Nat} {es : List Event} {s t : World} {e : Event}

theorem metering_iff {pc : Pc} : metering pc = true ↔ ∃ w, pc = .upsertMetric w := by
  constructor
  · intro h
    cases pc with
    | upsertMetric w => exact ⟨w, rfl⟩
    | _ => cases h
  · rintro ⟨w, rfl⟩
    rfl

theorem attempt_upserts {r : Run} {o : Outcome} (now : Int) (st : Stores) (ho : Outcome.Clean o) :
    (takesEffect o && metering r.pc) = true ∧ metricDone r.pc = false ∧
        metricDone (r.attempt o now st).2.pc = true ∧
        (r.attempt o now st).1.postgres.signalMetrics =
          metricCounter.upsert (metricKey r.sig) st.postgres.signalMetrics ∨
      (takesEffect o && metering r.pc) = false ∧
        metricDone (r.attempt o now st).2.pc = metricDone r.pc ∧
        (r.attempt o now st).1.postgres.signalMetrics = st.postgres.signalMetrics := by
  cases hmetering : metering r.pc with
  | false =>
      refine .inr ⟨Bool.and_false _, ?_⟩
      rcases runStep_metrics (attempt_runStep now st r ho) with ⟨hpc, _⟩ | hsame
      · cases hmetering.symm.trans (metering_iff.mpr hpc)
      · exact hsame
  | true =>
      obtain ⟨w, hpc⟩ := metering_iff.mp hmetering
      cases o with
      | ok =>
          refine .inl ⟨rfl, by rw [hpc]; rfl, ?_⟩
          simp only [Run.attempt, Run.perform, hpc, Run.resume]
          exact ⟨rfl, metrics_upsert ..⟩
      | fail exc =>
          refine .inr ⟨rfl, ?_, rfl⟩
          rcases handle_pc r exc with hsame | hswallows
          · exact congrArg metricDone hsame
          · rw [hpc] at hswallows
            cases hswallows
      | lost exc => cases ho

/-- A commit adds its signal to the table and to the runs that are done with it. -/
theorem step_upserts (hs : step cfg s e = some t) (he : Clean e) :
    t.stores.postgres.signalMetrics = ((upserts s e).map metricKey).foldl
        (fun rows key => metricCounter.upsert key rows) s.stores.postgres.signalMetrics ∧
      ∀ p : SignalIn → Bool, t.runs.countP (fun r => metricDone r.pc && p r.sig) =
        s.runs.countP (fun r => metricDone r.pc && p r.sig) + (upserts s e).countP p := by
  have hmove := step_move hs
  generalize t.stores = st, t.runs = runs, t.requests = requests at hmove
  cases hmove with
  | quiet _ hquiet =>
      cases e with
      | offer | getTimeout | cancelIdle | setClock => exact ⟨rfl, fun p => rfl⟩
      | _ => cases hquiet
  | get oid sig _ => exact ⟨rfl, fun p => by rw [List.countP_append]; rfl⟩
  | @run k r o hk _ _ =>
      have hups : upserts s (.run k o) = if takesEffect o && metering r.pc then [r.sig] else [] := by
        simp only [upserts, hk]
      have hsig := (attempt_sig r o s.clock s.stores).1
      rcases attempt_upserts s.clock s.stores he with ⟨hhit, hdone, hdone', hmetrics⟩ |
        ⟨hmiss, hdone, hmetrics⟩
      · rw [hups, hhit]
        refine ⟨hmetrics, fun p => ?_⟩
        have hcount := countP_set hk (fun r => metricDone r.pc && p r.sig)
          (r.attempt o s.clock s.stores).2
        rw [hdone, hdone', hsig, Bool.false_and, Bool.toNat_false, Nat.add_zero, Bool.true_and] at hcount
        rw [hcount, if_pos rfl, List.countP_singleton]
        cases p r.sig <;> rfl
      · rw [hups, hmiss]
        exact ⟨hmetrics, fun p => countP_keep hk (by rw [hdone, hsig])⟩
  | @finish k r w hk _ hpc =>
      have hups : upserts s (.run k .ok) = [] := by
        simp [upserts, hk, hpc, metering]
      rw [hups]
      exact ⟨rfl, fun p => countP_keep hk rfl⟩
  | cancelRun hk _ => exact ⟨rfl, fun p => countP_keep hk rfl⟩
  | request o _ _ => exact ⟨(tame_of_effect (ApiSteps.attempt_effect _ _ _ o)).metrics, fun p => rfl⟩
  | abortRequest | call | expire | burnWorkItemId | burnRcaId => exact ⟨rfl, fun p => rfl⟩

structure Metered (log : List SignalIn) (s : World) : Prop where
  aligned : ∀ sig ∈ signals s, WholeMinutes sig.timestamp
  table : s.stores.postgres.signalMetrics = metricCounter.table (log.map metricKey)
  commits : ∀ p : SignalIn → Bool,
    log.countP p = s.runs.countP fun r => metricDone r.pc && p r.sig
  ended : ∀ r ∈ s.runs, returned r = true → metricDone r.pc = true
  processed : s.ingest.processed = s.runs.countP returned

theorem returned_step (h : ∀ r ∈ s.runs, returned r = true → metricDone r.pc = true)
    (hs : step cfg s e = some t) : ∀ r ∈ t.runs, returned r = true → metricDone r.pc = true := by
  have hmove := step_move hs
  generalize t.stores = st, t.runs = runs, t.requests = requests at hmove
  cases hmove with
  | quiet | request | abortRequest | call | expire | burnWorkItemId | burnRcaId => exact h
  | get => exact forall_push h fun hr => by cases hr
  | run o _ hrun _ =>
      refine forall_set h fun hr => ?_
      rw [attempt_not_returned o _ _ hrun] at hr
      cases hr
  | finish w _ _ hpc => exact forall_set h fun _ => by rw [hpc]; rfl
  | cancelRun => exact forall_set h fun hr => by cases hr

theorem metered_trace (h : Trace (step cfg) (fun _ e => Clean e ∧ Aligned e) (init n) es s) :
    Metered (committed cfg n es) s := by
  refine h.invariant_past (fun es s => Metered (committed cfg n es) s) ?_ ?_
  · exact ⟨fun _ hsig => absurd hsig List.not_mem_nil, rfl, fun p => rfl,
      fun _ hr => absurd hr List.not_mem_nil, rfl⟩
  · intro es s e t htrace h ⟨hclean, haligned⟩ hs
    obtain ⟨hmetrics, hcount⟩ := step_upserts hs hclean
    have hlog : committed cfg n (es ++ [e]) = committed cfg n es ++ upserts s e :=
      htrace.gather_next hs upserts
    rw [hlog]
    refine ⟨forall_signals_step h.aligned ?_ hs, ?_, fun p => ?_, returned_step h.ended hs, ?_⟩
    · intro sig hsig
      rw [offer_of_accepted hsig] at haligned
      exact haligned
    · rw [hmetrics, h.table, List.map_append, Counter.table, Counter.table, List.foldl_append]
    · rw [List.countP_append, h.commits, hcount]
    · have hprocessed := (step_ingest hs).2.2
      rw [h.processed] at hprocessed
      omega

variable {log log' : List SignalIn}

theorem Metered.whole (h : Metered log s) {sig : SignalIn} (hsig : sig ∈ log) :
    WholeMinutes sig.timestamp := by
  have hpos : 0 < log.countP (· = sig) := List.countP_pos_iff.mpr ⟨sig, hsig, decide_eq_true rfl⟩
  rw [h.commits] at hpos
  obtain ⟨r, hr, hsame⟩ := List.countP_pos_iff.mp hpos
  rw [Bool.and_eq_true, decide_eq_true_iff] at hsame
  rw [← hsame.2]
  exact h.aligned r.sig (List.mem_append_left _ (List.mem_map_of_mem hr))

theorem Metered.counts (h : Metered log s) {b : Int} (hb : b % minute = 0) (c : String)
    (sev : Severity) : countAt s.stores.postgres b c sev = log.countP (inBucket b c sev) := by
  rw [countAt_eq, h.table, countOf_table, List.countP_map]
  refine congrArg Nat.cast (List.countP_congr fun sig hsig => ?_)
  rw [Function.comp_apply, decide_eq_true_iff]
  exact metricKey_iff (h.whole hsig) hb c sev

theorem Metered.minutes (h : Metered log s) :
    ∀ m ∈ s.stores.postgres.signalMetrics, m.bucket % minute = 0 := by
  intro m hm
  rw [h.table] at hm
  obtain ⟨sig, hsig, hkey⟩ := List.mem_map.mp (mem_table.mp hm).1
  have hbucket : (bucketFor sig.timestamp).instant = m.bucket := congrArg Prod.fst hkey
  rw [← hbucket]
  exact bucketFor_minute (h.whole hsig)

theorem Metered.sum (h : Metered log s) :
    metricTotal s.stores = s.runs.countP fun r => metricDone r.pc := by
  have hlen := h.commits fun _ => true
  simp only [List.countP_true, Bool.and_true] at hlen
  rw [← hlen, metricTotal, h.table, ← List.length_map metricKey]
  exact sum_table (c := metricCounter) _

theorem Metered.total (h : Metered log s) : s.ingest.processed ≤ metricTotal s.stores ∧
    metricTotal s.stores ≤ s.ingest.processed + s.runs.countP fun r => !returned r := by
  have hle : s.runs.countP returned ≤ s.runs.countP fun r => metricDone r.pc :=
    List.countP_mono_left h.ended
  have hsplit : s.runs.length = s.runs.countP returned + s.runs.countP fun r => !returned r := by
    rw [List.length_eq_countP_add_countP returned]
    simp
  have hlen := List.countP_le_length (l := s.runs) (p := fun r => metricDone r.pc)
  rw [h.sum, h.processed]
  omega

theorem Metered.order (h : Metered log s) (h' : Metered log' t) (hperm : log.Perm log') :
    s.stores.postgres.signalMetrics.Perm t.stores.postgres.signalMetrics := by
  rw [h.table, h'.table]
  exact table_perm (hperm.map metricKey)

theorem Metered.count_completed (h : Metered log s) (hsettled : Settled s) (sig : SignalIn) :
    log.count sig = (completed s).count sig := by
  rw [List.count_eq_countP, List.count_eq_countP, h.commits, completed, List.countP_map,
    List.countP_filter]
  refine List.countP_congr fun r hr => ?_
  have hdone : metricDone r.pc = returned r :=
    Bool.eq_iff_iff.mpr ⟨hsettled r hr, h.ended r hr⟩
  rw [hdone, Bool.and_comm, Function.comp_apply]

theorem Metered.final (h : Metered log s) (h' : Metered log' t) (hs : Settled s) (ht : Settled t)
    (hperm : (completed s).Perm (completed t)) :
    s.stores.postgres.signalMetrics.Perm t.stores.postgres.signalMetrics := by
  refine h.order h' (List.perm_iff_count.mpr fun sig => ?_)
  rw [h.count_completed hs, h'.count_completed ht, hperm.count_eq]

/-- The buckets count the commits by instant, whatever the zones of the signals,
the interleaving of the runs and the order of the commits. -/
theorem metric_buckets_by_instant
    (h : Trace (step cfg) (fun _ e => Clean e ∧ Aligned e) (init n) es s) :
    CountsByInstant cfg n es s where
  counts _ c sev hb := (metered_trace h).counts hb c sev
  minutes := (metered_trace h).minutes
  total := (metered_trace h).total
  commits _ _ _ _ h' hperm := (metered_trace h).order (metered_trace h') hperm
  final _ _ _ _ h' hs hs' hperm := (metered_trace h).final (metered_trace h') hs hs' hperm

def eastern : SignalIn := { errorSignal "db" with timestamp := ⟨19830000000, some 19800000000⟩ }

def western : SignalIn := { errorSignal "db" with timestamp := ⟨-28740000001, some (-28800000000)⟩ }

def twoZones : List Event :=
  [.offer eastern, .offer western, .get "a", .get "b"] ++ runOn 0 4 ++ runOn 1 6 ++
    [.run 1 (.fail .storeError)] ++ runOn 0 4 ++ runOn 1 2 ++ runOn 0 2

theorem metric_buckets_by_instant_two_zones : ∃ s,
    Trace (step {}) (fun _ e => Clean e ∧ Aligned e) (init 2) twoZones s ∧
      CountsByInstant {} 2 twoZones s ∧
      s.stores.postgres.signalMetrics = [⟨0, "db", .ERROR, 2⟩] := by
  obtain ⟨s, hs, hp⟩ := trace_of_replay (step {}) (fun _ e => Clean e ∧ Aligned e) (init 2) twoZones
    (fun s => decide (s.stores.postgres.signalMetrics = [⟨0, "db", .ERROR, 2⟩]))
    (by decide +kernel)
  exact ⟨s, hs, metric_buckets_by_instant hs, of_decide_eq_true hp⟩

end Ims.MetricBuckets
