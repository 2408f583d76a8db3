import Ims.Delivery
import Ims.Library.TopRows
import Ims.RcaGate
import Ims.SignalCounts

namespace Ims.Reads

open Library.Runs Library.Tables Library.Slots Library.TopRows Time Models RcaValidator Mongo
  PostgresRepo Ingestion Service WorkerSteps ServiceSteps WorkerMoves WorkerFrames Rows Integrity Effects Retries
  CrossStore Requests RcaGate SignalCounts Delivery
open Workers (Stores Run)
open IncidentsApi (HTTPException WorkItemOut notFound)

structure Limit where
  rows : Nat
  ge : 1 ≤ rows
  le : rows ≤ 1000

def selected (state : Option WorkItemState) (severity : Option Severity) (wi : WorkItem) : Bool :=
  state.all (fun v => wi.state = v) && severity.all fun v => wi.severity = v

/-- An answer of list_work_items, and of list_incidents, which passes it on. -/
def ListWorkItems (pg : Postgres) (state : Option WorkItemState) (severity : Option Severity)
    (limit : Limit) (out : List WorkItemOut) : Prop :=
  IsTop WorkItem.startTime limit.rows (pg.workItems.filter (selected state severity)) out

/-- The date that Mongo sorts by: a BSON date has milliseconds. -/
def bsonDate (ts : Datetime) : Int := ts.instant / 1000

def ofWorkItem (workItemId : Int) (doc : Document) : Bool := doc.workItemId = some workItemId

def FindSignalsByWorkItem (signals : RawSignals) (workItemId : Int) (limit : Limit)
    (docs : List Document) : Prop :=
  IsTop (fun doc => bsonDate doc.timestamp) limit.rows (signals.filter (ofWorkItem workItemId)) docs

structure IncidentSignals where
  workItemId : Int
  count : Nat
  signals : List Document

/-- The answers of get_incident_signals, which reads the work item in st and the
documents in st'. -/
inductive GetIncidentSignals (st st' : Stores) (workItemId : Int) (limit : Limit) :
    Except HTTPException IncidentSignals → Prop
  | missing (h : getWorkItem st.postgres workItemId = none) :
      GetIncidentSignals st st' workItemId limit (.error (notFound workItemId))
  | found {wi docs} (h : getWorkItem st.postgres workItemId = some wi)
      (hdocs : FindSignalsByWorkItem st'.mongo workItemId limit docs) :
      GetIncidentSignals st st' workItemId limit (.ok ⟨workItemId, docs.length, docs⟩)

variable {cfg : Settings} {n : Nat} {es es' es'' : List Event} {s t u : World} {st st' : Stores}
  {w : Int} {limit limit' : Limit}

theorem grows_trace {ok : World → Event → Prop} (h : Trace (step cfg) ok s es t) :
    Grows s.stores t.stores := by
  refine h.invariant (fun t => Grows s.stores t.stores) (.refl _) fun _ _ _ hgrow _ hs => ?_
  have hstep := step_grows hs
  exact ⟨fun wi hwi => hstep.items wi (hgrow.items wi hwi), fun w hw => hstep.rca w (hgrow.rca w hw)⟩

theorem getWorkItem_of_mem (hids : (st.postgres.workItems.map WorkItem.id).Nodup) {wi : WorkItem}
    (hwi : wi ∈ st.postgres.workItems) : getWorkItem st.postgres wi.id = some wi :=
  find?_key hids hwi

/-- The item is found again later, with the columns that no update writes. -/
theorem getWorkItem_grow (hgrow : Grows st st')
    (hids : (st'.postgres.workItems.map WorkItem.id).Nodup) {wi : WorkItem}
    (hwi : wi ∈ st.postgres.workItems) :
    ∃ wi', getWorkItem st'.postgres wi.id = some wi' ∧ origin wi' = origin wi := by
  obtain ⟨wi', hwi', horigin⟩ := List.mem_map.mp (hgrow.items (origin wi) (List.mem_map_of_mem hwi))
  have hid := congrArg WorkItem.id horigin
  have hid : wi'.id = wi.id := hid
  exact ⟨wi', hid ▸ getWorkItem_of_mem hids hwi', horigin⟩

/-- Every document of an item has its link, and no two have one link. -/
theorem documents_le_links (hwf : Wf s) (w : Int) :
    (s.stores.mongo.filter (ofWorkItem w)).length ≤ linksOf s.stores w := by
  rw [linksOf, List.countP_eq_length_filter, ← List.length_map (f := Document.id),
    ← List.length_map (f := SignalLink.mongoSignalId)]
  refine List.Subperm.length_le (List.subperm_of_subset (nodup_where hwf.docs.ids _) ?_)
  intro m hm
  obtain ⟨d, hd, rfl⟩ := List.mem_map.mp hm
  obtain ⟨hd, hw⟩ := List.mem_filter.mp hd
  obtain ⟨l, hl, hlw, hlm⟩ := hwf.backfill d hd w (of_decide_eq_true hw)
  exact List.mem_map.mpr ⟨l, List.mem_filter.mpr ⟨hl, decide_eq_true hlw⟩, hlm⟩

theorem document_component (hwf : Wf s) {wi : WorkItem} (hwi : wi ∈ s.stores.postgres.workItems)
    {d : Document} (hd : d ∈ s.stores.mongo) (hw : d.workItemId = some wi.id) :
    d.componentId = wi.componentId := by
  have hcross := consistent_of_wf hwf
  obtain ⟨l, hl, hlw, hlm⟩ := hcross.backfilled d hd wi.id hw
  obtain ⟨wi', hwi', hid, hcomp⟩ := hcross.linkedItem l hl
  obtain ⟨d', hd', hid', hcomp', _⟩ := hcross.linkedDocument l hl
  cases eq_of_nodup hwf.docs.ids hd' hd (hid'.trans hlm)
  cases eq_of_nodup hwf.rows.ids hwi' hwi (hid.trans hlw)
  rw [hcomp', hcomp]

structure Listed (s t : World) (state : Option WorkItemState) (severity : Option Severity)
    (limit : Limit) (out : List WorkItemOut) : Prop where
  once : (out.map WorkItem.id).Nodup
  asked : ∀ wi ∈ out, wi ∈ s.stores.postgres.workItems ∧ selected state severity wi = true
  behind : ∀ wi ∈ s.stores.postgres.workItems, selected state severity wi = true → wi ∉ out →
    out.length = limit.rows ∧ ∀ shown ∈ out, wi.startTime ≤ shown.startTime
  opens : ∀ wi ∈ out, ∃ wi', getWorkItem t.stores.postgres wi.id = some wi' ∧ origin wi' = origin wi
  closed : ∀ wi ∈ out, wi.state = .CLOSED →
    (∃ stop, wi.endTime = some stop ∧ wi.mttrSeconds = some (stop - wi.startTime)) ∧
      ∃ row, getRca t.stores.postgres wi.id = some row ∧ validate (some (ofRow row)) = .ok ()

theorem closed_times {wi : WorkItem} (h : ItemWf st wi) (hclosed : wi.state = .CLOSED) :
    ∃ stop, wi.endTime = some stop ∧ wi.mttrSeconds = some (stop - wi.startTime) :=
  h.1.resolve_left fun hnone => (h.2 hclosed).1 hnone.1

theorem valid_of_get (h : RcaWf st.postgres) {row : RCA} (hget : getRca st.postgres w = some row) :
    validate (some (ofRow row)) = .ok () :=
  h.valid row (List.mem_of_find?_eq_some hget)

/-- Whatever fails or is cut short in between, the incidents on a list are there
for every later request, and those listed as closed have a valid RCA. -/
theorem listed_incidents_open {ok : World → Event → Prop} (h : Trace (step cfg) ok (init n) es s)
    (h' : Trace (step cfg) ok s es' t) {state : Option WorkItemState} {severity : Option Severity}
    {out : List WorkItemOut} (hlist : ListWorkItems s.stores.postgres state severity limit out) :
    Listed s t state severity limit out := by
  have hgate := gateWf_trace h
  have hgate' := gateWf_trace (h.trans h')
  have hgrow := grows_trace h'
  have hrows : ∀ wi ∈ out, wi ∈ s.stores.postgres.workItems ∧ selected state severity wi = true :=
    fun wi hwi => List.mem_filter.mp (hlist.subset hwi)
  refine ⟨hlist.nodup ?_, hrows, fun wi hwi hsel hout => ?_, fun wi hwi => ?_, fun wi hwi hclosed => ?_⟩
  · exact nodup_where hgate.rows.ids _
  · exact hlist.behind (List.mem_filter.mpr ⟨hwi, hsel⟩) hout
  · exact getWorkItem_grow hgrow hgate'.rows.ids (hrows wi hwi).1
  · have hitem := hgate.items wi (hrows wi hwi).1
    refine ⟨closed_times hitem hclosed, ?_⟩
    obtain ⟨row, hget⟩ := getRca_of_hasRca (hgrow.rca _ (hitem.2 hclosed).2)
    exact ⟨row, hget, valid_of_get hgate'.rca hget⟩

def closedOnce : List Event := LifeCycle.resolved ++ [.call (.closeIncident 1)] ++ requestOn 3 7

def explainedAgain : List Event := [.call (.submitRca 1 rollbackRca)] ++ requestOn 4 3

theorem listed_incidents_open_explained_again : ∃ (s t : World) (out : List WorkItemOut),
    out.map WorkItem.state = [.CLOSED] ∧
      t.stores.postgres.rca.map RCA.workItemId = [1] ∧
        Listed s t (some .CLOSED) none ⟨1, by decide, by decide⟩ out := by
  obtain ⟨s, hs, hp⟩ := trace_of_replay (step {}) (fun _ _ => True) (init 1) closedOnce
    (fun s => decide ((s.stores.postgres.workItems.filter (selected (some .CLOSED) none)).map
      WorkItem.state = [.CLOSED])) (by decide +kernel)
  obtain ⟨t, ht, hq⟩ := trace_of_replay (step {}) (fun _ _ => True) (init 1)
    (closedOnce ++ explainedAgain)
    (fun t => decide (t.stores.postgres.rca.map RCA.workItemId = [1])) (by decide +kernel)
  have hp := of_decide_eq_true hp
  obtain ⟨hs, hlast⟩ := ht.split_at hs
  obtain ⟨wi, hrows⟩ :=
    List.length_eq_one_iff.mp ((List.length_map _).symm.trans (congrArg List.length hp))
  refine ⟨s, t, [wi], hrows ▸ hp, of_decide_eq_true hq, listed_incidents_open hs hlast ?_⟩
  exact isTop_take (.of_eq hrows.symm) (List.pairwise_singleton _ _)

structure Shown (u : World) (wi : WorkItem) (limit : Limit) (out : IncidentSignals) : Prop where
  item : out.workItemId = wi.id
  once : (out.signals.map Document.id).Nodup
  newest : out.signals.Pairwise fun a b => bsonDate b.timestamp ≤ bsonDate a.timestamp
  own : ∀ d ∈ out.signals, d.componentId = wi.componentId ∧
    ∃ l ∈ u.stores.postgres.signalLinks, l.workItemId = wi.id ∧ l.mongoSignalId = d.id
  counted : out.count = out.signals.length ∧ out.count ≤ limit.rows ∧
    ∃ wi', getWorkItem u.stores.postgres wi.id = some wi' ∧ (out.count : Int) ≤ wi'.signalCount

theorem shown_of_find (hwf : Wf s) (hcounts : CountsWf s.stores s.runs) {wi wi' : WorkItem}
    (hget : getWorkItem s.stores.postgres wi.id = some wi') (horigin : origin wi' = origin wi)
    {docs : List Document} (hdocs : FindSignalsByWorkItem s.stores.mongo wi.id limit docs) :
    Shown s wi limit ⟨wi.id, docs.length, docs⟩ := by
  obtain ⟨hwi', hid⟩ := item_of_get hget
  have hcomp : wi'.componentId = wi.componentId := by
    have := congrArg WorkItem.componentId horigin
    exact this
  refine ⟨rfl, hdocs.nodup (nodup_where hwf.docs.ids _), hdocs.sorted, fun d hd => ?_, rfl, ?_,
    wi', hget, ?_⟩
  · obtain ⟨hd, hw⟩ := List.mem_filter.mp (hdocs.subset hd)
    have hw := of_decide_eq_true hw
    exact ⟨(document_component hwf hwi' hd (by rw [hw, hid])).trans hcomp, hwf.backfill d hd wi.id hw⟩
  · exact hdocs.length ▸ Nat.min_le_left _ _
  · have hle := documents_le_links hwf wi.id
    have hcount : wi'.signalCount = linksOf s.stores wi'.id + s.runs.countP (owes wi'.id) :=
      hcounts (counted wi') (List.mem_map_of_mem hwi')
    have hlength := hdocs.length
    rw [hid] at hcount
    change ((docs.length : Nat) : Int) ≤ _
    omega

/-- The signals of a listed incident can be asked for ever after: each answer
has documents of the incident's component only, each with its link and none
twice, and no more of them than are counted. -/
theorem listed_signals_shown (h : Trace (step cfg) (fun _ e => Clean e) (init n) es s)
    (h' : Trace (step cfg) (fun _ e => Clean e) s es' t)
    (h'' : Trace (step cfg) (fun _ e => Clean e) t es'' u) {state : Option WorkItemState}
    {severity : Option Severity} {rows : List WorkItemOut}
    (hlist : ListWorkItems s.stores.postgres state severity limit rows) {wi : WorkItem}
    (hwi : wi ∈ rows) {answer : Except HTTPException IncidentSignals}
    (hanswer : GetIncidentSignals t.stores u.stores wi.id limit' answer) :
    ∃ out, answer = .ok out ∧ Shown u wi limit' out := by
  have hu := (h.trans h').trans h''
  have hwf : Wf u := wf_trace hu fun _ _ he => he
  have hrow := (List.mem_filter.mp (hlist.subset hwi)).1
  have hopens {v : World} {es : List Event} (hv : Trace (step cfg) (fun _ e => Clean e) s es v) :
      ∃ wi', getWorkItem v.stores.postgres wi.id = some wi' ∧ origin wi' = origin wi :=
    getWorkItem_grow (grows_trace hv) (gateWf_trace (h.trans hv)).rows.ids hrow
  cases hanswer with
  | missing hnone =>
      obtain ⟨wi', hget, _⟩ := hopens h'
      rw [hnone] at hget
      cases hget
  | found _ hdocs =>
      obtain ⟨wi', hget, horigin⟩ := hopens (h'.trans h'')
      exact ⟨_, rfl, shown_of_find hwf (countsWf_trace hu) hget horigin hdocs⟩

def lateSignal : SignalIn := { errorSignal "db" with timestamp := .utc 5000 }

def opened : List Event := [.offer (errorSignal "db"), .get "a"] ++ runOn 0 10

def joined : List Event := [.offer lateSignal, .get "b"] ++ runOn 1 8

def bothFound (s : World) : Bool :=
  let docs := s.stores.mongo.filter (ofWorkItem 1)
  decide (docs.map Document.id = ["a", "b"]) &&
    decide (docs.Pairwise fun a b => bsonDate a.timestamp ≤ bsonDate b.timestamp)

theorem answer_of_bothFound {wi : WorkItem} (hget : getWorkItem st.postgres 1 = some wi)
    (h : bothFound t = true) : ∃ out,
    GetIncidentSignals st t.stores 1 ⟨1, by decide, by decide⟩ (.ok out) ∧
      out.signals.map Document.id = ["b"] := by
  simp only [bothFound, Bool.and_eq_true, decide_eq_true_eq] at h
  obtain ⟨hids, hsorted⟩ := h
  obtain ⟨a, rest, hdocs, _, hrest⟩ := List.map_eq_cons_iff.mp hids
  obtain ⟨b, rest, rfl, hb, hrest⟩ := List.map_eq_cons_iff.mp hrest
  cases List.map_eq_nil_iff.mp hrest
  rw [hdocs] at hsorted
  have hle := List.rel_of_pairwise_cons hsorted (List.mem_singleton.mpr rfl)
  have htop : IsTop (fun doc : Document => bsonDate doc.timestamp) 1 [a, b] [b] :=
    isTop_take (List.Perm.swap a b []) (by simpa using hle)
  have hfind : FindSignalsByWorkItem t.stores.mongo 1 ⟨1, by decide, by decide⟩ [b] := by
    rw [← hdocs] at htop
    exact htop
  exact ⟨_, .found hget hfind, congrArg (fun id => [id]) hb⟩

theorem listed_signals_shown_newest : ∃ (s u : World) (wi : WorkItem) (out : IncidentSignals),
    ListWorkItems s.stores.postgres (some .OPEN) none ⟨200, by decide, by decide⟩ [wi] ∧
      out.signals.map Document.id = ["b"] ∧ Shown u wi ⟨1, by decide, by decide⟩ out := by
  obtain ⟨s, hs, hp⟩ := trace_of_replay (step {}) (fun _ e => Clean e) (init 1) opened
    (fun s => decide ((s.stores.postgres.workItems.filter (selected (some .OPEN) none)).map
      WorkItem.id = [1])) (by decide +kernel)
  obtain ⟨u, hu, hq⟩ := trace_of_replay (step {}) (fun _ e => Clean e) (init 1) (opened ++ joined)
    bothFound (by decide +kernel)
  obtain ⟨hs, hlast⟩ := hu.split_at hs
  obtain ⟨wi, rest, hrows, hid, hrest⟩ := List.map_eq_cons_iff.mp (of_decide_eq_true hp)
  cases List.map_eq_nil_iff.mp hrest
  have hlist : ListWorkItems s.stores.postgres (some .OPEN) none ⟨200, by decide, by decide⟩ [wi] :=
    isTop_take (.of_eq hrows.symm) (List.pairwise_singleton _ _)
  have hwi := (List.mem_filter.mp (hrows ▸ List.mem_singleton.mpr rfl)).1
  have hget := getWorkItem_of_mem (gateWf_trace hs).rows.ids hwi
  obtain ⟨out, hanswer, hout⟩ := answer_of_bothFound (hid ▸ hget) hq
  rw [← hid] at hanswer
  obtain ⟨_, hok, hshown⟩ :=
    listed_signals_shown hs .start hlast hlist (List.mem_singleton.mpr rfl) hanswer
  cases hok
  exact ⟨s, u, wi, out, hlist, hout, hshown⟩

/-- The answer for item w has its newest signals, all of them if there is room. -/
structure Complete (t : World) (w : Int) (limit : Limit) (out : IncidentSignals) : Prop where
  count : ∃ wi, getWorkItem t.stores.postgres w = some wi ∧
    (out.count : Int) = min (limit.rows : Int) wi.signalCount
  newest : ∀ r ∈ t.runs, workItemOf r.pc = some w → (∃ d ∈ out.signals, d.id = r.mongoId) ∨
    out.count = limit.rows ∧
      ∀ d ∈ out.signals, bsonDate r.sig.timestamp ≤ bsonDate d.timestamp

/-- With no run on its way with an item, those that have been there are at their end. -/
theorem finished_of_idle (hgoing : ∀ r ∈ s.runs, Going r)
    (hidle : ∀ r ∈ s.runs, workItemOf r.pc = some w → r.status ≠ .running) {r : Run}
    (hr : r ∈ s.runs) (hw : workItemOf r.pc = some w) : r.pc = .finish w := by
  obtain hrun | ⟨_, v, hpc⟩ := hgoing r hr
  · exact absurd hrun (hidle r hr hw)
  · rw [hpc] at hw ⊢
    cases hw
    rfl

theorem document_of_finished (hwf : DeliveryWf s) {r : Run} (hr : r ∈ s.runs)
    (hpc : r.pc = .finish w) :
    ∃ d ∈ s.stores.mongo.filter (ofWorkItem w), d.id = r.mongoId ∧ d.timestamp = r.sig.timestamp := by
  obtain ⟨d, hd, hid, hw⟩ := hwf.filled r hr w (by rw [hpc]; rfl)
  refine ⟨d, List.mem_filter.mpr ⟨hd, decide_eq_true hw⟩, hid, ?_⟩
  obtain ⟨d', hd', hsource⟩ := List.mem_map.mp (hwf.wf.docs.ofRun r hr (by rw [hpc]; rfl))
  have hid' := congrArg Document.id hsource
  cases eq_of_nodup hwf.wf.docs.ids hd' hd (Eq.trans hid' hid.symm)
  obtain ⟨now, hbuilt⟩ := hwf.wf.docs.built r hr
  rw [hbuilt] at hsource
  exact congrArg Document.timestamp hsource

theorem links_le_documents (hwf : DeliveryWf s)
    (hidle : ∀ r ∈ s.runs, workItemOf r.pc = some w → r.status ≠ .running) :
    linksOf s.stores w ≤ (s.stores.mongo.filter (ofWorkItem w)).length := by
  rw [linksOf, List.countP_eq_length_filter, ← List.length_map (f := Document.id),
    ← List.length_map (f := SignalLink.mongoSignalId)]
  refine List.Subperm.length_le (List.subperm_of_subset ?_ ?_)
  · exact nodup_where hwf.wf.links.ids _
  intro m hm
  obtain ⟨l, hl, rfl⟩ := List.mem_map.mp hm
  obtain ⟨hl, hw⟩ := List.mem_filter.mp hl
  obtain ⟨r, hr, hlinked, hof⟩ := hwf.wf.links.ofLink l hl
  rw [of_decide_eq_true hw] at hlinked
  have hpc := finished_of_idle hwf.going hidle hr (stored_of_linked hlinked).2
  obtain ⟨d, hd, hid, _⟩ := document_of_finished hwf hr hpc
  refine List.mem_map.mpr ⟨d, hd, ?_⟩
  rw [hid, hof]
  rfl

/-- If no run fails and none has met a placeholder, and no run is on its way with the
item, then its answer leaves out no signal for another reason than the limit. -/
theorem incident_signals_complete
    (h : Trace (step cfg) (fun s e => Smooth e ∧ readsPlaceholder s e = false) (init n) es s)
    (h' : Trace (step cfg) (fun s e => Smooth e ∧ readsPlaceholder s e = false) s es' t)
    (hidle : ∀ r ∈ t.runs, workItemOf r.pc = some w → r.status ≠ .running)
    {out : IncidentSignals} (hanswer : GetIncidentSignals s.stores t.stores w limit (.ok out)) :
    Complete t w limit out := by
  have ht := h.trans h'
  have hwf := deliveryWf_trace ht
  cases hanswer with
  | @found wi docs hget hdocs =>
      obtain ⟨hwi, rfl⟩ := item_of_get hget
      obtain ⟨wi', hget', horigin⟩ := getWorkItem_grow (grows_trace h') hwf.wf.rows.ids hwi
      obtain ⟨hwi', hid⟩ := item_of_get hget'
      refine ⟨⟨wi', hget', ?_⟩, fun r hr hw => ?_⟩
      · have hcount : wi'.signalCount = linksOf t.stores wi'.id + t.runs.countP (owes wi'.id) :=
          countsWf_trace (ht.mono fun _ _ he => clean_of_smooth he.1) (counted wi')
            (List.mem_map_of_mem hwi')
        have hzero : t.runs.countP (owes wi'.id) = 0 := by
          refine List.countP_eq_zero.mpr fun r hr howes => ?_
          have howing := of_decide_eq_true howes
          have hpc := finished_of_idle hwf.going hidle hr (hid ▸ workItemOf_of_owing howing)
          rw [hpc] at howing
          cases howing
        have hle := documents_le_links hwf.wf wi.id
        have hge := links_le_documents hwf hidle
        have hlength := hdocs.length
        rw [hid] at hcount hzero
        change ((docs.length : Nat) : Int) = _
        omega
      · obtain ⟨d, hd, hdid, hdate⟩ :=
          document_of_finished hwf hr (finished_of_idle hwf.going hidle hr hw)
        by_cases hout : d ∈ docs
        · exact .inl ⟨d, hout, hdid⟩
        · exact .inr (hdate ▸ hdocs.behind hd hout)

theorem incident_signals_complete_newest : ∃ (t : World) (out : IncidentSignals),
    out.signals.map Document.id = ["b"] ∧ (t.runs.map Run.mongoId = ["a", "b"]) ∧
      Complete t 1 ⟨1, by decide, by decide⟩ out := by
  obtain ⟨s, hs, hp⟩ := trace_of_replay (step {})
    (fun s e => Smooth e ∧ readsPlaceholder s e = false) (init 1) opened
    (fun s => (getWorkItem s.stores.postgres 1).isSome) (by decide +kernel)
  obtain ⟨t, ht, hq⟩ := trace_of_replay (step {})
    (fun s e => Smooth e ∧ readsPlaceholder s e = false) (init 1) (opened ++ joined)
    (fun t => bothFound t && decide (t.runs.map Run.mongoId = ["a", "b"]) &&
      decide (∀ r ∈ t.runs, r.status ≠ .running)) (by decide +kernel)
  simp only [Bool.and_eq_true, decide_eq_true_eq] at hq
  obtain ⟨⟨hboth, hruns⟩, hidle⟩ := hq
  obtain ⟨hs, hlast⟩ := ht.split_at hs
  obtain ⟨wi, hget⟩ := Option.isSome_iff_exists.mp hp
  obtain ⟨out, hanswer, hout⟩ := answer_of_bothFound hget hboth
  exact ⟨t, out, hout, hruns, incident_signals_complete hs hlast (fun r hr _ => hidle r hr) hanswer⟩

end Ims.Reads
