import Ims.CrossStore
import Ims.IngestSteps

namespace Ims.Delivery

open Library.Text Library.Runs Library.Tables Library.Slots Library.Counters Models Mongo PostgresRepo
  RedisCache Ingestion Service WorkerSteps ServiceSteps WorkerMoves WorkerFrames Rows Integrity Effects
  Retries CrossStore IngestSteps
open Workers (Stores Run Pc Outcome rawDoc placeholder isPlaceholder bucketFor)

/-- Every operation of a run succeeds, and no run is cancelled. -/
def Smooth : Event → Prop
  | .run _ o => o = .ok
  | .cancelRun _ => False
  | _ => True

instance : DecidablePred Smooth
  | .run _ o => inferInstanceAs (Decidable (o = .ok))
  | .cancelRun _ => .isFalse id
  | .offer _ | .get _ | .getTimeout | .cancelIdle | .request _ _ | .abortRequest _
  | .call _ | .expire _ | .burnWorkItemId | .burnRcaId | .setClock _ => .isTrue trivial

def readsPlaceholder (s : World) : Event → Bool
  | .run k .ok => (s.runs[k]?).any fun r =>
      decide (r.pc = .getOpenWorkItem) && (s.stores.redis.strings (keyOf r)).any isPlaceholder
  | _ => false

theorem clean_of_smooth {e : Event} (h : Smooth e) : Clean e := by
  refine clean_of_run fun k o he => ?_
  subst he
  cases show o = .ok from h
  trivial

theorem fresh_mongoId {st : Stores} {runs : List Run} (h : DocsWf st runs) {r : Run} (hr : r ∈ runs)
    (hstored : stored r.pc = false) : r.mongoId ∉ st.mongo.map Document.id := by
  intro hin
  rw [← ids_sources] at hin
  obtain ⟨d, hd, hid⟩ := List.mem_map.mp hin
  obtain ⟨b, hb, hbstored, rfl⟩ := h.ofDoc d hd
  rw [eq_of_nodup h.oids hb hr hid, hstored] at hbstored
  cases hbstored

theorem perform_reply {s : World} (h : Wf s) {r : Run} (hr : r ∈ s.runs)
    (hread : r.pc = .getOpenWorkItem →
      (s.stores.redis.strings (keyOf r)).any isPlaceholder = false) (now : Int) :
    ∃ pc, (r.perform now s.stores).2 = .ok pc := by
  cases hpc : r.pc with
  | insertSignal =>
      have hfresh : r.rawDoc.id ∉ s.stores.mongo.map Document.id :=
        fresh_mongoId h.docs hr (by rw [hpc]; rfl)
      simp only [Run.perform, hpc, insertSignal, if_neg hfresh]
      exact ⟨_, rfl⟩
  | getOpenWorkItem =>
      have hplace := hread hpc
      cases hkey : s.stores.redis.strings (keyOf r) with
      | none =>
          simp only [Run.perform, hpc, getOpenWorkItem_none hkey]
          exact ⟨_, rfl⟩
      | some v =>
          rw [hkey, Option.any_some] at hplace
          rcases h.keys r.sig.componentId v hkey with ⟨b, _, _, _, rfl⟩ | ⟨wi, _, _, rfl⟩
          · rw [Workers.isPlaceholder_placeholder] at hplace
            cases hplace
          · simp only [Run.perform, hpc, getOpenWorkItem_str hkey]
            exact ⟨_, rfl⟩
  | publish won w => cases won <;> exact ⟨_, by simp only [Run.perform, hpc]; rfl⟩
  | _ => exact ⟨_, by simp only [Run.perform, hpc]; rfl⟩

theorem smooth_run {cfg : Settings} {s t : World} {k : Nat} (hs : step cfg s (.run k .ok) = some t)
    (hwf : Wf s) (hread : ∀ r, s.runs[k]? = some r → r.pc = .getOpenWorkItem →
      (s.stores.redis.strings (keyOf r)).any isPlaceholder = false) :
    ∃ r, s.runs[k]? = some r ∧ r.status = .running ∧
      ((∃ w, r.pc = .finish w ∧ t.stores = s.stores ∧
          t.runs = s.runs.set k { r with status := .returned }) ∨
        (∀ w, r.pc ≠ .finish w) ∧ ∃ pc, (r.perform s.clock s.stores).2 = .ok pc ∧
          t.stores = (r.perform s.clock s.stores).1 ∧ t.runs = s.runs.set k (r.goOn pc)) := by
  have hmove := step_move hs
  generalize t.stores = st, t.runs = runs, t.requests = requests at hmove
  cases hmove with
  | quiet _ he => cases he
  | finish w hk hr hpc => exact ⟨_, hk, hr, .inl ⟨w, hpc, rfl, rfl⟩⟩
  | @run _ r _ hk hr hfinish =>
      obtain ⟨pc, hpc⟩ := perform_reply hwf (List.mem_of_getElem? hk) (hread r hk) s.clock
      exact ⟨r, hk, hr, .inr ⟨hfinish, pc, hpc, rfl, by simp only [Run.attempt, hpc, Run.resume]⟩⟩

theorem reads_none {s : World} {k : Nat} (hread : readsPlaceholder s (.run k .ok) = false) (r : Run)
    (hk : s.runs[k]? = some r) (hpc : r.pc = .getOpenWorkItem) :
    (s.stores.redis.strings (keyOf r)).any isPlaceholder = false := by
  simpa [readsPlaceholder, hk, hpc] using hread

def Going (r : Run) : Prop :=
  r.status = .running ∨ r.status = .returned ∧ ∃ w, r.pc = .finish w

theorem going_step {cfg : Settings} {s t : World} {e : Event} (hgoing : ∀ r ∈ s.runs, Going r)
    (hwf : Wf s) (he : Smooth e) (hread : readsPlaceholder s e = false)
    (hs : step cfg s e = some t) : ∀ r ∈ t.runs, Going r := by
  have hmove := step_workerMove hs (clean_of_smooth he)
  cases e with
  | run k o =>
      cases show o = .ok from he
      obtain ⟨r, hk, hr, ⟨w, hpc, _, hruns⟩ | ⟨_, pc, _, _, hruns⟩⟩ :=
        smooth_run hs hwf (reads_none hread)
      · rw [hruns]
        exact forall_set hgoing (.inr ⟨rfl, w, hpc⟩)
      · rw [hruns]
        exact forall_set hgoing (.inl hr)
  | cancelRun => exact absurd he id
  | _ =>
      generalize t.stores = st, t.runs = runs at hmove
      cases hmove with
      | env => exact hgoing
      | get oid sig _ => exact forall_push hgoing (.inl rfl)
      | run hk => cases hk

def backfilledTo : Pc → Option Int
  | .upsertMetric w | .finish w => some w
  | .insertSignal | .claim | .create _ | .publish _ _ | .pushLiveFeed _ | .dispatch _
  | .getOpenWorkItem | .increment _ | .addLink _ | .backfill _ => none

def FilledWf (st : Stores) (runs : List Run) : Prop :=
  ∀ r ∈ runs, ∀ w, backfilledTo r.pc = some w →
    ∃ d ∈ st.mongo, d.id = r.mongoId ∧ d.workItemId = some w

theorem runStep_fill {now : Int} {st st' : Stores} {r r' : Run} (h : RunStep now st r st' r') :
    (∃ w, r.pc = .backfill w) ∨
      (backfilledTo r'.pc = backfilledTo r.pc ∧ ∀ d ∈ st.mongo, d ∈ st'.mongo) := by
  cases h with
  | stay _ _ _ hpc => exact .inr ⟨by rw [hpc], fun _ hd => hd⟩
  | insert hpc => exact .inr ⟨by rw [hpc]; rfl, fun _ hd => List.mem_append_left _ hd⟩
  | backfill w hpc | skipBackfill w hpc => exact .inl ⟨w, hpc⟩
  | win hpc | lose hpc | create _ hpc | publishGone _ hpc | publishOver _ _ hpc
  | publishAnyway _ hpc | push _ hpc | dispatch _ _ hpc | findGone hpc | findItem _ hpc
  | increment _ hpc | link _ hpc | meter _ hpc =>
      exact .inr ⟨by rw [hpc]; rfl, fun _ hd => hd⟩

theorem filledWf_backfill {st : Stores} {runs : List Run} (h : FilledWf st runs)
    (hdocs : DocsWf st runs) {k : Nat} {r : Run} {w : Int} (hk : runs[k]? = some r)
    (hpc : r.pc = .backfill w) :
    FilledWf { st with mongo := setWorkItemId st.mongo r.mongoId w }
      (runs.set k (r.goOn (.upsertMetric w))) := by
  have hr := List.mem_of_getElem? hk
  intro b hb v hv
  by_cases hid : b.mongoId = r.mongoId
  · obtain ⟨d, hd, hdid, _⟩ := document_of_run hdocs hr (by rw [hpc]; rfl)
    have hv : v = w := by
      rcases List.mem_or_eq_of_mem_set hb with hb | rfl
      · rw [eq_of_nodup hdocs.oids hb hr hid, hpc] at hv
        cases hv
      · exact (Option.some.inj hv).symm
    refine ⟨{ d with workItemId := some w }, ?_, by rw [hid]; exact hdid, by rw [hv]⟩
    exact mem_updateWhere.mpr ⟨d, hd, by rw [if_pos (decide_eq_true hdid)]⟩
  · rcases List.mem_or_eq_of_mem_set hb with hb | rfl
    · obtain ⟨d, hd, hdid, hdw⟩ := h b hb v hv
      refine ⟨d, mem_updateWhere.mpr ⟨d, hd, ?_⟩, hdid, hdw⟩
      rw [if_neg (by rw [decide_eq_true_iff, hdid]; exact hid)]
    · exact absurd rfl hid

theorem filledWf_step {cfg : Settings} {s t : World} {e : Event} (h : FilledWf s.stores s.runs)
    (hwf : Wf s) (he : Smooth e) (hread : readsPlaceholder s e = false)
    (hs : step cfg s e = some t) : FilledWf t.stores t.runs := by
  have hmove := step_workerMove hs (clean_of_smooth he)
  cases e with
  | run k o =>
      cases show o = .ok from he
      obtain ⟨r, hk, hr, ⟨w, hpc, hst, hruns⟩ | ⟨_, pc, hreply, hst, hruns⟩⟩ :=
        smooth_run hs hwf (reads_none hread)
      · rw [hst, hruns]
        exact forall_set h (h r (List.mem_of_getElem? hk))
      · have hstep := perform_runStep s.clock s.stores r
        rw [hst, hruns]
        rw [hreply] at hstep
        rcases runStep_fill hstep with ⟨w, hpc⟩ | ⟨hsame, hgrow⟩
        · have hperform : r.perform s.clock s.stores = ({ s.stores with
              mongo := setWorkItemId s.stores.mongo r.mongoId w }, .ok (.upsertMetric w)) := by
            simp only [Run.perform, hpc]
          rw [hperform] at hreply ⊢
          cases hreply
          exact filledWf_backfill h hwf.docs hk hpc
        · refine forall_set (fun b hb v hv => ?_) (fun v hv => ?_)
          · obtain ⟨d, hd, hrest⟩ := h b hb v hv
            exact ⟨d, hgrow d hd, hrest⟩
          · obtain ⟨d, hd, hrest⟩ := h r (List.mem_of_getElem? hk) v (hsame ▸ hv)
            exact ⟨d, hgrow d hd, hrest⟩
  | cancelRun => exact absurd he id
  | _ =>
      generalize t.stores = st, t.runs = runs at hmove
      cases hmove with
      | env st htame =>
          intro r hr w hw
          rw [htame.mongo]
          exact h r hr w hw
      | get oid sig _ => exact forall_push h fun w hw => by cases hw
      | run hk => cases hk

def metricKey (sig : SignalIn) : Int × String × Severity :=
  ((bucketFor sig.timestamp).instant, sig.componentId, sig.severity)

def metricCount (st : Stores) (key : Int × String × Severity) : Int :=
  (st.postgres.signalMetrics.map fun m => if m.key = key then m.count else 0).sum

def metered (key : Int × String × Severity) (r : Run) : Bool :=
  metricDone r.pc && decide (metricKey r.sig = key)

def MetricsWf (st : Stores) (runs : List Run) : Prop :=
  ∀ key, metricCount st key = runs.countP (metered key)

theorem runStep_metrics {now : Int} {st st' : Stores} {r r' : Run} (h : RunStep now st r st' r') :
    ((∃ w, r.pc = .upsertMetric w) ∧ metricDone r'.pc = true ∧ st'.postgres =
        upsertMetricBucket st.postgres (bucketFor r.sig.timestamp) r.sig.componentId r.sig.severity) ∨
      (metricDone r'.pc = metricDone r.pc ∧
        st'.postgres.signalMetrics = st.postgres.signalMetrics) := by
  cases h with
  | stay _ _ _ hpc => exact .inr ⟨by rw [hpc], rfl⟩
  | meter w hpc => exact .inl ⟨⟨w, hpc⟩, rfl, rfl⟩
  | insert hpc | win hpc | lose hpc | create _ hpc | publishGone _ hpc | publishOver _ _ hpc
  | publishAnyway _ hpc | push _ hpc | dispatch _ _ hpc | findGone hpc | findItem _ hpc
  | increment _ hpc | link _ hpc | backfill _ hpc | skipBackfill _ hpc =>
      exact .inr ⟨by rw [hpc]; rfl, rfl⟩

theorem metricCount_upsert {st : Stores} (sig : SignalIn) (h : RowsWf st)
    (key : Int × String × Severity) :
    metricCount
        { st with postgres :=
          upsertMetricBucket st.postgres (bucketFor sig.timestamp) sig.componentId sig.severity } key =
      metricCount st key + if metricKey sig = key then 1 else 0 := by
  simp only [metricCount, metrics_upsert]
  refine sum_upsert (c := metricCounter) h.metrics _ _ (fun m hm => ?_) rfl
  have hkey : metricKey sig = m.key := hm.symm
  rw [hkey]
  change (if m.key = key then m.count + 1 else 0) = _
  by_cases h : m.key = key <;> simp [h]

theorem metricsWf_move {s : World} {e : Event} {st : Stores} {runs : List Run}
    (h : MetricsWf s.stores s.runs) (hrows : RowsWf s.stores) (hmove : WorkerMove s e st runs) :
    MetricsWf st runs := by
  intro key
  cases hmove with
  | env st htame =>
      rw [metricCount, htame.metrics]
      exact h key
  | get oid sig hoid =>
      rw [List.countP_append]
      exact h key
  | @run k r st r' _ hk _ _ hstep =>
      have hold := h key
      have hcount := countP_set hk (metered key) r'
      have hsig := (runStep_sig hstep).1
      rcases runStep_metrics hstep with ⟨⟨w, hpc⟩, hdone', hpg⟩ | ⟨hdone, hmetrics⟩
      · have hdone : metricDone r.pc = false := by rw [hpc]; rfl
        have hsum : metricCount st key =
            metricCount s.stores key + if metricKey r.sig = key then 1 else 0 := by
          rw [← metricCount_upsert r.sig hrows key, metricCount, metricCount, hpg]
        rw [hsum]
        simp only [metered, hdone, hdone', hsig] at hcount
        split_ifs with hkey <;> simp [hkey] at hcount <;> omega
      · have hsame : metered key r' = metered key r := by rw [metered, metered, hdone, hsig]
        rw [countP_keep hk hsame, metricCount, hmetrics]
        exact hold

def Delivered (s : World) (r : Run) : Prop :=
  ∃ w, (∃ d, s.stores.mongo.filter (fun d => d.id = r.mongoId) = [d] ∧
      d.componentId = r.sig.componentId ∧ d.severity = r.sig.severity.value ∧ d.workItemId = some w) ∧
    s.stores.postgres.signalLinks.filter (fun l => l.mongoSignalId = r.mongoId) = [linkOf r w] ∧
      ∃ wi ∈ s.stores.postgres.workItems, wi.id = w ∧ wi.componentId = r.sig.componentId

structure Accounted (s : World) (sigs : List SignalIn) : Prop where
  processed : s.ingest.processed = s.ingest.accepted
  accepted : s.ingest.accepted = sigs.length
  runs : s.runs.map Run.sig = sigs
  documents : (s.stores.mongo.map Document.id).Perm (s.runs.map Run.mongoId)
  links : (s.stores.postgres.signalLinks.map SignalLink.mongoSignalId).Perm (s.runs.map Run.mongoId)
  delivered : ∀ r ∈ s.runs, Delivered s r
  metrics : ∀ key, metricCount s.stores key = sigs.countP fun sig => decide (metricKey sig = key)

def acceptedSignals (cfg : Settings) (n : Nat) (es : List Event) : List SignalIn :=
  gather (step cfg) (acceptedBy cfg) (init n) es

/-- No run has raised, and with the queue empty and no run in flight every
accepted signal is accounted for. -/
structure NoneLost (cfg : Settings) (n : Nat) (es : List Event) (s : World) : Prop where
  raised : ∀ r ∈ s.runs, ∀ e, r.status ≠ .raised e
  settled : s.ingest.queue = [] → (∀ r ∈ s.runs, r.status ≠ .running) →
    Accounted s (acceptedSignals cfg n es)

structure DeliveryWf (s : World) : Prop where
  wf : Wf s
  going : ∀ r ∈ s.runs, Going r
  filled : FilledWf s.stores s.runs
  metrics : MetricsWf s.stores s.runs
  processed : s.ingest.processed = s.runs.countP returned
  accepted : s.ingest.accepted = s.runs.length + s.ingest.queue.length

theorem deliveryWf_trace {cfg : Settings} {n : Nat} {es : List Event} {s : World}
    (h : Trace (step cfg) (fun s e => Smooth e ∧ readsPlaceholder s e = false) (init n) es s) :
    DeliveryWf s := by
  refine h.invariant DeliveryWf ⟨wf_init n, ?_, ?_, ?_, rfl, rfl⟩ ?_
  · exact fun r hr => absurd hr List.not_mem_nil
  · exact fun r hr => absurd hr List.not_mem_nil
  · exact fun _ => rfl
  · rintro s e t h ⟨he, hread⟩ hs
    have hmove := step_workerMove hs (clean_of_smooth he)
    obtain ⟨hqueue, haccepted, hprocessed⟩ := step_ingest hs
    have hlen := congrArg List.length hqueue
    simp only [List.length_append, List.length_map] at hlen
    refine ⟨wf_step h.wf hs (clean_of_smooth he), going_step h.going h.wf he hread hs,
      filledWf_step h.filled h.wf he hread hs, metricsWf_move h.metrics h.wf.rows hmove, ?_, ?_⟩
    · have := h.processed
      omega
    · have := h.accepted
      omega

theorem delivered_of_finish {s : World} (hwf : Wf s) (hfilled : FilledWf s.stores s.runs) {r : Run}
    (hr : r ∈ s.runs) {w : Int} (hpc : r.pc = .finish w) : Delivered s r := by
  have hlink := hwf.links.ofRun r hr w (by rw [hpc]; rfl)
  obtain ⟨d, hd, hdid, hdw⟩ := hfilled r hr w (by rw [hpc]; rfl)
  obtain ⟨d', hd', hdid', hdcomp, hdsev⟩ := document_of_run hwf.docs hr (by rw [hpc]; rfl)
  have hdd : d' = d := eq_of_nodup hwf.docs.ids hd' hd (hdid'.trans hdid.symm)
  refine ⟨w, ⟨d, ?_, hdd ▸ hdcomp, hdd ▸ hdsev, hdw⟩, ?_, item_of_run hwf.items hr (by rw [hpc]; rfl)⟩
  · have := filter_key hwf.docs.ids hd
    rwa [hdid] at this
  · exact filter_key hwf.links.ids hlink

theorem accounted {cfg : Settings} {n : Nat} {es : List Event} {s : World}
    (h : Trace (step cfg) (fun s e => Smooth e ∧ readsPlaceholder s e = false) (init n) es s)
    (hqueue : s.ingest.queue = []) (hidle : ∀ r ∈ s.runs, r.status ≠ .running) :
    Accounted s (acceptedSignals cfg n es) := by
  have hwf := deliveryWf_trace h
  have hfinish : ∀ r ∈ s.runs, r.status = .returned ∧ ∃ w, r.pc = .finish w := fun r hr =>
    (hwf.going r hr).resolve_left (hidle r hr)
  have hruns : s.runs.map Run.sig = acceptedSignals cfg n es := by
    have hgather := h.gather_eq (acceptedBy cfg) (fun s => s.runs.map Run.sig ++ s.ingest.queue)
      fun s e t _ hs => (step_ingest hs).1
    rw [hqueue, List.append_nil] at hgather
    exact hgather
  have haccepted : s.ingest.accepted = s.runs.length := by
    simpa [hqueue] using hwf.accepted
  refine ⟨?_, ?_, hruns, ?_, ?_, ?_, ?_⟩
  · rw [hwf.processed, haccepted, List.countP_eq_length]
    exact fun r hr => decide_eq_true (hfinish r hr).1
  · rw [haccepted, ← hruns, List.length_map]
  · refine (List.perm_ext_iff_of_nodup hwf.wf.docs.ids hwf.wf.docs.oids).mpr fun m => ?_
    constructor
    · intro hm
      rw [← ids_sources] at hm
      obtain ⟨_, hd, rfl⟩ := List.mem_map.mp hm
      obtain ⟨r, hr, _, rfl⟩ := hwf.wf.docs.ofDoc _ hd
      exact List.mem_map_of_mem hr
    · intro hm
      obtain ⟨r, hr, rfl⟩ := List.mem_map.mp hm
      obtain ⟨w, hpc⟩ := (hfinish r hr).2
      obtain ⟨d, hd, hid, _⟩ := document_of_run hwf.wf.docs hr (by rw [hpc]; rfl)
      exact List.mem_map.mpr ⟨d, hd, hid⟩
  · refine (List.perm_ext_iff_of_nodup hwf.wf.links.ids hwf.wf.docs.oids).mpr fun m => ?_
    constructor
    · intro hm
      obtain ⟨l, hl, rfl⟩ := List.mem_map.mp hm
      obtain ⟨r, hr, _, hlr⟩ := hwf.wf.links.ofLink l hl
      rw [hlr]
      exact List.mem_map_of_mem hr
    · intro hm
      obtain ⟨r, hr, rfl⟩ := List.mem_map.mp hm
      obtain ⟨w, hpc⟩ := (hfinish r hr).2
      exact List.mem_map.mpr ⟨_, hwf.wf.links.ofRun r hr w (by rw [hpc]; rfl), rfl⟩
  · intro r hr
    obtain ⟨w, hpc⟩ := (hfinish r hr).2
    exact delivered_of_finish hwf.wf hwf.filled hr hpc
  · intro key
    rw [hwf.metrics key, ← hruns, List.countP_map]
    congr 1
    refine List.countP_congr fun r hr => ?_
    obtain ⟨w, hpc⟩ := (hfinish r hr).2
    simp [metered, hpc, metricDone]

theorem raised_stays {cfg : Settings} {s t : World} {e : Event} (hs : step cfg s e = some t) {r : Run}
    (hr : r ∈ s.runs) {exc : Exc} (hraised : r.status = .raised exc) : r ∈ t.runs := by
  obtain ⟨k, hk⟩ := List.mem_iff_getElem?.mp hr
  by_cases he : runIndex e = some k
  · obtain ⟨b, _, hb, hrun, _⟩ := own_step hs he
    rw [Option.some.inj (hk.symm.trans hb), hrun] at hraised
    cases hraised
  · exact List.mem_of_getElem? (other_step hs he hk)

theorem attempt_reads {s : World} (hwf : Wf s) {r : Run} (hpc : r.pc = .getOpenWorkItem)
    (hplace : (s.stores.redis.strings (keyOf r)).any isPlaceholder = true) (now : Int) :
    (r.attempt .ok now s.stores).2.status = .raised .valueError := by
  cases hkey : s.stores.redis.strings (keyOf r) with
  | none =>
      rw [hkey] at hplace
      cases hplace
  | some v =>
      rw [hkey, Option.any_some] at hplace
      have hget : getOpenWorkItem s.stores.redis r.sig.componentId = .error .valueError := by
        rcases hwf.keys r.sig.componentId v hkey with ⟨b, _, _, _, rfl⟩ | ⟨wi, _, _, rfl⟩
        · exact Workers.getOpenWorkItem_placeholder hkey
        · rw [Workers.not_isPlaceholder_str] at hplace
          cases hplace
      simp only [Run.attempt, Run.perform, hpc, hget, Run.resume, Run.handle]

theorem reading_raises {cfg : Settings} {s t : World} {e : Event} (hwf : Wf s)
    (hread : readsPlaceholder s e = true) (hs : step cfg s e = some t) :
    ∃ r ∈ t.runs, r.status = .raised .valueError := by
  have hmove := step_move hs
  unfold readsPlaceholder at hread
  split at hread
  · next k =>
    obtain ⟨r, hk, hplace⟩ := (Option.any_eq_true _ _).mp hread
    simp only [Bool.and_eq_true, decide_eq_true_iff] at hplace
    generalize t.stores = st, t.runs = runs, t.requests = requests at hmove
    cases hmove with
    | quiet _ he => cases he
    | run o hk' _ _ =>
        cases Option.some.inj (hk.symm.trans hk')
        exact ⟨_, mem_set_self hk, attempt_reads hwf hplace.1 hplace.2 _⟩
    | finish w hk' _ hpc =>
        cases Option.some.inj (hk.symm.trans hk')
        rw [hplace.1] at hpc
        cases hpc
  · cases hread

theorem quiet_of_not_raised {cfg : Settings} {n : Nat} {es : List Event} {s : World}
    (h : Trace (step cfg) (fun _ e => Smooth e) (init n) es s)
    (hraised : ∀ r ∈ s.runs, ∀ e, r.status ≠ .raised e) :
    Trace (step cfg) (fun s e => Smooth e ∧ readsPlaceholder s e = false) (init n) es s := by
  induction h with
  | start => exact .start
  | @next es s e t h he hs ih =>
      have hwf : Wf s := wf_trace h fun _ _ => clean_of_smooth
      refine .next (ih fun r hr exc hexc => hraised r (raised_stays hs hr hexc) exc hexc) ⟨he, ?_⟩ hs
      rw [Bool.eq_false_iff]
      intro hread
      obtain ⟨r, hr, hexc⟩ := reading_raises hwf hread hs
      exact hraised r hr _ hexc

/-- No accepted signal is lost, exactly when no run reads the dedup key of its
component while it holds a placeholder. -/
theorem no_accepted_signal_lost {cfg : Settings} {n : Nat} {es : List Event} {s : World}
    (h : Trace (step cfg) (fun _ e => Smooth e) (init n) es s) :
    NoneLost cfg n es s ↔
      Trace (step cfg) (fun s e => Smooth e ∧ readsPlaceholder s e = false) (init n) es s := by
  constructor
  · exact fun hlost => quiet_of_not_raised h hlost.raised
  · intro hquiet
    refine ⟨fun r hr e hraised => ?_, accounted hquiet⟩
    rcases (deliveryWf_trace hquiet).going r hr with hrun | ⟨hreturned, _⟩
    · rw [hrun] at hraised
      cases hraised
    · rw [hreturned] at hraised
      cases hraised

def oneAfterOther : List Event :=
  List.replicate 2 (.offer (errorSignal "db")) ++ [.get "a", .get "b"] ++ runOn 0 4 ++ runOn 1 8 ++
    runOn 0 6

theorem no_accepted_signal_lost_one_after_other :
    ∃ s : World, s.ingest.processed = 2 ∧ NoneLost {} 2 oneAfterOther s := by
  obtain ⟨s, hs, hp⟩ := trace_of_replay (step {})
    (fun s e => Smooth e ∧ readsPlaceholder s e = false) (init 2) oneAfterOther
    (fun s => decide (s.ingest.processed = 2)) (by decide +kernel)
  exact ⟨s, of_decide_eq_true hp, (no_accepted_signal_lost (hs.mono fun _ _ h => h.1)).mpr hs⟩

def readInBetween : List Event :=
  List.replicate 2 (.offer (errorSignal "db")) ++ [.get "a", .get "b"] ++ runOn 0 2 ++ runOn 1 3

theorem read_in_between_loses_signal :
    ∃ s, Trace (step {}) (fun _ e => Smooth e) (init 2) readInBetween s ∧
      ¬ NoneLost {} 2 readInBetween s := by
  obtain ⟨s, hs, hp⟩ := trace_of_replay (step {}) (fun _ e => Smooth e) (init 2) readInBetween
    (fun s => s.runs.any fun r => decide (r.status = .raised .valueError)) (by decide +kernel)
  obtain ⟨r, hr, hraised⟩ := List.any_eq_true.mp hp
  exact ⟨s, hs, fun hlost => hlost.raised r hr _ (of_decide_eq_true hraised)⟩

end Ims.Delivery
