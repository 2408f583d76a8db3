import Ims.Closing
import Ims.LiveFeed

namespace Ims.Components

open Library.Text Library.Runs Library.SortedSet Library.Tables Library.Slots Models Mongo PostgresRepo
  RedisCache Ingestion Service WorkerSteps ApiSteps ServiceSteps WorkerMoves WorkerFrames Rows
  Integrity Effects CrossStore LifeCycle Requests RcaGate Closing RequestMoves LiveFeed
open Workers (Stores Run Outcome)
open IncidentsApi (Request)

@[ext] structure View where
  workItems : List WorkItem
  rca : List RCA
  signalLinks : List SignalLink
  signalMetrics : List SignalMetric
  documents : RawSignals
  window : Option String
  liveFeed : ZSet

def itemsOf (d : String) (st : Stores) : List WorkItem :=
  st.postgres.workItems.filter fun wi => wi.componentId = d

def listed (items : List WorkItem) (w : Int) : Bool := items.any fun wi => wi.id = w

def view (d : String) (st : Stores) : View where
  workItems := itemsOf d st
  rca := st.postgres.rca.filter fun row => listed (itemsOf d st) row.workItemId
  signalLinks := st.postgres.signalLinks.filter fun l => l.componentId = d
  signalMetrics := st.postgres.signalMetrics.filter fun m => m.componentId = d
  documents := st.mongo.filter fun doc => doc.componentId = d
  window := windowOf st d
  liveFeed := st.redis.liveFeed.filter fun e => (decodedId e.1).any (listed (itemsOf d st))

/-- The event is the start or a step of a run for a signal of the component or of
a request on an item of it, or the end of its window. -/
def concerns (c : String) (s : World) : Event → Bool
  | .run k _ | .cancelRun k => (s.runs[k]?).any fun r => r.sig.componentId = c
  | .request k _ | .abortRequest k => (s.requests[k]?).any fun q =>
      s.stores.postgres.workItems.any fun wi => wi.id = itemOf q.pc ∧ wi.componentId = c
  | .get _ => (s.ingest.queue.head?).any fun sig => sig.componentId = c
  | .call call => s.stores.postgres.workItems.any fun wi =>
      wi.id = call.workItemId ∧ wi.componentId = c
  | .expire key => key = dedupKey c
  | _ => false

def LoadedWf (s : World) : Prop :=
  ∀ q ∈ s.requests, ∀ w body old, q.pc = .flushRca w body (some old) →
    ∃ row ∈ s.stores.postgres.rca, row.id = old.id ∧ row.workItemId = w

variable {cfg : Settings} {s t : World} {e : Event} {st st' : Stores} {c d : String} {w : Int}

theorem rca_stays (hs : step cfg s e = some t) {i : Int}
    (h : ∃ row ∈ s.stores.postgres.rca, row.id = i ∧ row.workItemId = w) :
    ∃ row ∈ t.stores.postgres.rca, row.id = i ∧ row.workItemId = w := by
  obtain ⟨row, hrow, hid, hw⟩ := h
  cases step_rcaMove hs with
  | keep hrca => exact ⟨row, hrca ▸ hrow, hid, hw⟩
  | flush k o q v body loaded new _ _ _ hflush =>
      rcases (flushRca_ok hflush).2 with ⟨_, _, _, hpg⟩ | ⟨old, _, _, hpg⟩
      · rw [hpg]
        exact ⟨row, List.mem_append_left _ hrow, hid, hw⟩
      · rw [hpg]
        refine ⟨_, mem_updateWhere.mpr ⟨row, hrow, rfl⟩, ?_⟩
        split
        · exact ⟨hid, hw⟩
        · exact ⟨hid, hw⟩

theorem loadedWf_step (h : LoadedWf s) (hs : step cfg s e = some t) : LoadedWf t := by
  intro q hq w body old hpc
  obtain ⟨k, hslot⟩ := List.mem_iff_getElem?.mp hq
  apply rca_stays hs
  cases step_requestMove hs hslot with
  | new c => cases c <;> cases hpc
  | other _ hk => exact h q (List.mem_of_getElem? hk) w body old hpc
  | attempt p o hk =>
      rcases attempt_flushRca hpc with hpc | ⟨_, hget⟩
      · exact h p (List.mem_of_getElem? hk) w body old hpc
      · have hfind := hget.symm
        unfold getRca at hfind
        exact ⟨old, List.mem_of_find?_eq_some hfind, rfl, by simpa using List.find?_some hfind⟩
  | abort p hk => exact h p (List.mem_of_getElem? hk) w body old hpc

/-- An item of one component is not listed among those of another. -/
theorem not_listed (hrows : RowsWf st) (hd : d ≠ c)
    (h : ∃ wi ∈ st.postgres.workItems, wi.id = w ∧ wi.componentId = c) :
    listed (itemsOf d st) w = false := by
  obtain ⟨wi, hwi, hid, hcomp⟩ := h
  rw [Bool.eq_false_iff]
  intro hlisted
  obtain ⟨other, hother, hw⟩ := List.any_eq_true.mp hlisted
  obtain ⟨hmem, hd'⟩ := List.mem_filter.mp hother
  rw [eq_of_nodup hrows.ids hmem hwi ((of_decide_eq_true hw).trans hid.symm), hcomp] at hd'
  exact hd (of_decide_eq_true hd').symm

/-- A write to the row of an item of another component. -/
theorem itemsOf_update (hrows : RowsWf st) (hd : d ≠ c)
    (h : ∃ wi ∈ st.postgres.workItems, wi.id = w ∧ wi.componentId = c) {f : WorkItem → WorkItem}
    (hf : ∀ wi, (f wi).componentId = wi.componentId) (now : Int) :
    itemsOf d { st with postgres := updateWorkItem st.postgres w f now } = itemsOf d st := by
  obtain ⟨wi, hwi, hid, hcomp⟩ := h
  apply filter_updateWhere
  intro row hrow hw
  have hrow : row = wi := eq_of_nodup hrows.ids hrow hwi ((of_decide_eq_true hw).trans hid.symm)
  subst hrow
  simp [hf, hcomp, Ne.symm hd]

theorem view_items {postgres : Postgres} (hitems : itemsOf d { st with postgres } = itemsOf d st)
    (hrca : postgres.rca = st.postgres.rca) (hlinks : postgres.signalLinks = st.postgres.signalLinks)
    (hmetrics : postgres.signalMetrics = st.postgres.signalMetrics) :
    view d { st with postgres } = view d st := by
  simp only [view, hitems, hrca, hlinks, hmetrics]
  rfl

theorem view_key {v : Option String} (hd : d ≠ c) :
    view d { st with redis := { st.redis with
      strings := Function.update st.redis.strings (dedupKey c) v } } = view d st := by
  apply View.ext
  case window => exact Function.update_of_ne (dedupKey_ne hd) _ _
  all_goals rfl

theorem metrics_other (pg : Postgres) (bucket : Time.Datetime) (sev : Severity) (hd : d ≠ c) :
    (upsertMetricBucket pg bucket c sev).signalMetrics.filter (fun m => m.componentId = d) =
      pg.signalMetrics.filter fun m => m.componentId = d := by
  simp only [upsertMetricBucket]
  split
  · apply filter_updateWhere
    intro m _ hkey
    have hcomp : m.componentId = c := congrArg (·.2.1) (hasMetricKey_iff.mp hkey)
    simp [hcomp, Ne.symm hd]
  · simp [Ne.symm hd]

theorem document_component (hwf : Wf s) {r : Run} (hr : r ∈ s.runs) {doc : Document}
    (hdoc : doc ∈ s.stores.mongo) (hid : doc.id = r.mongoId) :
    doc.componentId = r.sig.componentId := by
  obtain ⟨b, hb, hstored, hsource⟩ := hwf.docs.ofDoc (source doc) (List.mem_map_of_mem hdoc)
  have hbr : b = r := eq_of_nodup hwf.docs.oids hb hr ((congrArg Document.id hsource).trans hid)
  obtain ⟨now, hbuilt⟩ := hwf.docs.built r hr
  have hcomp := congrArg Document.componentId hsource
  rw [hbr, hbuilt] at hcomp
  exact hcomp.symm

theorem runStep_view (hwf : Wf s) {r r' : Run} (hr : r ∈ s.runs) {now : Int}
    (h : RunStep now s.stores r st' r') (hd : d ≠ r.sig.componentId) :
    view d st' = view d s.stores := by
  have hitem {v : Int} (hv : workItemOf r.pc = some v) := item_of_run hwf.items hr hv
  cases h with
  | insert hpc hnew =>
      obtain ⟨now', hbuilt⟩ := hwf.docs.built r hr
      have hcomp : r.rawDoc.componentId = r.sig.componentId := by rw [hbuilt]; rfl
      apply View.ext
      case documents => simp [view, hcomp, Ne.symm hd]
      all_goals rfl
  | win => exact view_key hd
  | publishOver | publishAnyway => exact view_key hd
  | create won hpc =>
      apply view_items
      case hitems => simp [itemsOf, newWorkItem, Ne.symm hd]
      all_goals rfl
  | push v hpc =>
      have hother := not_listed hwf.rows hd (hitem (by rw [hpc]; rfl))
      apply View.ext
      case liveFeed =>
        refine filter_zadd fun e he => ?_
        rw [he, decodedId_feedMember]
        exact hother
      all_goals rfl
  | increment v hpc =>
      have hitems := itemsOf_update hwf.rows hd (hitem (by rw [hpc]; rfl))
        (f := fun wi => { wi with signalCount := wi.signalCount + 1 }) (fun _ => rfl) now
      exact view_items hitems rfl rfl rfl
  | link v hpc =>
      apply View.ext
      case signalLinks => simp [view, linkOf, Ne.symm hd]
      all_goals rfl
  | backfill v hpc =>
      apply View.ext
      case documents =>
        apply filter_updateWhere
        intro doc hdoc hid
        simp [document_component hwf hr hdoc (of_decide_eq_true hid), Ne.symm hd]
      all_goals rfl
  | meter v hpc =>
      apply View.ext
      case signalMetrics => exact metrics_other _ _ _ hd
      all_goals rfl
  | stay | lose | publishGone | dispatch | findGone | findItem | skipBackfill => rfl

theorem rca_other (hgate : GateWf s) (hloaded : LoadedWf s) {q : Request} (hq : q ∈ s.requests)
    {body : RCAIn} {loaded : Option RCA} {now : Int} {pg : Postgres} {row : RCA}
    (hpc : q.pc = .flushRca w body loaded)
    (hflush : flushRca s.stores.postgres w loaded body now = .ok (pg, row)) {p : Int → Bool}
    (hp : p w = false) :
    pg.rca.filter (fun row => p row.workItemId) =
      s.stores.postgres.rca.filter fun row => p row.workItemId := by
  rcases (flushRca_ok hflush).2 with ⟨_, _, rfl, rfl⟩ | ⟨old, rfl, _, rfl⟩
  · have hnew : p (newRca s.stores.postgres w body now).workItemId = false := hp
    simp [hnew]
  · obtain ⟨target, htarget, hid, hw⟩ := hloaded q hq w body old hpc
    apply filter_updateWhere
    intro other hother hsame
    have heq : other = target :=
      eq_of_nodup hgate.rca.ids hother htarget ((of_decide_eq_true hsame).trans hid.symm)
    subst heq
    exact ⟨by rw [hw, hp], by rw [overwriteRca, hw, hp]⟩

theorem effect_view (hgate : GateWf s) (hloaded : LoadedWf s) (hremoval : RemovalWf s) {q : Request}
    (hq : q ∈ s.requests) {now : Int} (h : RequestEffect now s.stores q st') (hd : d ≠ c)
    (hitem : ∃ wi ∈ s.stores.postgres.workItems, wi.id = itemOf q.pc ∧ wi.componentId = c) :
    view d st' = view d s.stores := by
  have hother := not_listed hgate.rows hd hitem
  cases h with
  | none => rfl
  | updateState v wi result hpc =>
      rw [hpc] at hitem
      have hitems := itemsOf_update hgate.rows hd hitem (f := fun wi => { wi with
        state := result.newState
        endTime := result.endTime.or wi.endTime
        mttrSeconds := result.mttrSeconds.or wi.mttrSeconds }) (fun _ => rfl) now
      exact view_items hitems rfl rfl rfl
  | zrem v wi result member rest hpc =>
      rw [hpc] at hother
      have hentry := hremoval q hq v wi result member rest hpc member List.mem_cons_self
      apply View.ext
      case liveFeed =>
        refine filter_zrem fun e _ he => ?_
        rw [he, decodedId_of_isEntryOf hentry]
        exact hother
      all_goals rfl
  | clearDedup v wi result hpc =>
      have hpcWf := (hgate.requests q hq).1
      rw [hpc] at hpcWf hitem
      obtain ⟨row, hrow, hid, hcomp⟩ := hitem
      have hsnap := origin_of_snapshot hgate.rows.ids hpcWf.1 hrow hid
      have hwi : wi.componentId = c := by
        rw [← hcomp]
        exact (congrArg WorkItem.componentId hsnap).symm
      subst hwi
      exact view_key hd
  | flushRca v body loaded postgres row hpc hflush =>
      rw [hpc] at hother
      obtain ⟨hitems, _, hlinks, hmetrics⟩ := flushRca_tables hflush
      have hsame : itemsOf d { s.stores with postgres } = itemsOf d s.stores := by
        simp only [itemsOf, hitems]
      apply View.ext
      case rca =>
        simp only [view, hsame]
        exact rca_other hgate hloaded hq hpc hflush hother
      case workItems => exact hsame
      case signalLinks => simp only [view, hlinks]
      case signalMetrics => simp only [view, hmetrics]
      case liveFeed => simp only [view, hsame]
      all_goals rfl

theorem step_view (hwf : Wf s) (hgate : GateWf s) (hloaded : LoadedWf s) (hremoval : RemovalWf s)
    (hs : step cfg s e = some t) (he : Clean e) (hc : concerns c s e = true) (hd : d ≠ c) :
    view d t.stores = view d s.stores := by
  have hmove := step_move hs
  generalize t.stores = st, t.runs = runs, t.requests = requests at hmove
  cases hmove with
  | @run k r o hk _ _ =>
      simp only [concerns, hk, Option.any_some, decide_eq_true_iff] at hc
      subst hc
      exact runStep_view hwf (List.mem_of_getElem? hk) (attempt_runStep _ _ _ he) hd
  | @request k q o hk _ =>
      simp only [concerns, hk, Option.any_some] at hc
      obtain ⟨wi, hwi, hitem⟩ := List.any_eq_true.mp hc
      exact effect_view hgate hloaded hremoval (List.mem_of_getElem? hk) (attempt_effect _ _ q o) hd
        ⟨wi, hwi, of_decide_eq_true hitem⟩
  | expire key =>
      obtain rfl := of_decide_eq_true hc
      exact view_key hd
  | quiet | get | finish | cancelRun | abortRequest | call => rfl
  | burnWorkItemId | burnRcaId => cases hc

/-- Components do not interfere: a step for one of them leaves what the stores
hold of any other as it was. -/
theorem components_do_not_interfere {n : Nat} {es : List Event}
    (h : Trace (step cfg) (fun _ e => Clean e) (init n) es s) (hs : step cfg s e = some t)
    (he : Clean e) (hc : concerns c s e = true) (hd : d ≠ c) :
    view d t.stores = view d s.stores := by
  obtain ⟨hwf, hgate, hloaded, hremoval⟩ := h.invariant
    (fun s => Wf s ∧ GateWf s ∧ LoadedWf s ∧ RemovalWf s)
    ⟨wf_init n, gateWf_init n, fun _ hq => absurd hq List.not_mem_nil, removalWf_init n⟩
    fun s e t hI he hs => ⟨wf_step hI.1 hs he, gateWf_step hI.2.1 hs, loadedWf_step hI.2.2.1 hs,
      removalWf_step hI.2.2.2 hs⟩
  exact step_view hwf hgate hloaded hremoval hs he hc hd

/-- The close of the first item is before the removal of its member, next to the
member of a component whose id starts like it. -/
def removalAmongLookalikes : List Event := scanAmongLookalikes ++ requestOn 3 1

theorem components_do_not_interfere_among_lookalikes :
    ∃ s t, step {} s (.request 3 .ok) = some t ∧ zrange t.stores.redis.liveFeed = ["2|1|db"] ∧
      view "1|db" t.stores = view "1|db" s.stores := by
  obtain ⟨s, hs, hp⟩ := trace_of_replay (step {}) (fun _ e => Clean e) (init 2) removalAmongLookalikes
    (fun s => concerns "db" s (.request 3 .ok) && (step {} s (.request 3 .ok)).any fun t =>
      decide (zrange t.stores.redis.liveFeed = ["2|1|db"])) (by decide +kernel)
  obtain ⟨hc, hp⟩ := Bool.and_eq_true_iff.mp hp
  obtain ⟨t, ht, hfeed⟩ := (Option.any_eq_true _ _).mp hp
  exact ⟨s, t, ht, of_decide_eq_true hfeed,
    components_do_not_interfere hs ht trivial hc (by decide)⟩

end Ims.Components
