import Ims.Requests

namespace Ims.RcaGate

open Library.Text Library.Runs Library.Tables Library.Slots Time Models RcaValidator States PostgresRepo
  RedisCache Ingestion Service WorkerSteps ApiSteps ServiceSteps WorkerMoves WorkerFrames Rows LifeCycle
  Requests
open Workers (Stores Run Outcome)
open IncidentsApi (Request Response)

structure RcaWf (pg : Postgres) : Prop where
  ids : (pg.rca.map RCA.id).Nodup
  seq : ∀ id ∈ pg.rca.map RCA.id, id ≤ pg.rcaSeq
  valid : ∀ row ∈ pg.rca, validate (some (ofRow row)) = .ok ()

def TimesWf (wi : WorkItem) : Prop :=
  wi.endTime = none ∧ wi.mttrSeconds = none ∨
    ∃ stop, wi.endTime = some stop ∧ wi.mttrSeconds = some (stop - wi.startTime)

def ItemWf (st : Stores) (wi : WorkItem) : Prop :=
  TimesWf wi ∧ (wi.state = .CLOSED → wi.endTime ≠ none ∧ HasRca st wi.id)

variable {cfg : Settings} {s t : World} {e : Event} {st st' : Stores}

theorem category_not_blank (c : RootCauseCategory) : strip c.value ≠ "" := by
  cases c <;> decide

theorem rcaCheck_times {row : RCA} (h : rcaCheck row = true) : row.rcaStartTime ≤ row.rcaEndTime := by
  simp only [rcaCheck, Bool.and_eq_true, decide_eq_true_iff] at h
  exact h.2

theorem overwrite_not_blank (loaded row : RCA) (body : RCAIn)
    (h : validate (some (ofRow row)) = .ok ()) :
    strip (overwriteRca loaded body row).rootCauseCategory ≠ "" ∧
      strip (overwriteRca loaded body row).fixApplied ≠ "" ∧
        strip (overwriteRca loaded body row).prevention ≠ "" := by
  obtain ⟨hcategory, hfix, hprevention, _⟩ := (validate_ofRow row).mp h
  refine ⟨?_, ?_, ?_⟩
  · simp only [overwriteRca]
    split
    · exact hcategory
    · exact category_not_blank _
  · simp only [overwriteRca]
    split
    · exact hfix
    · exact body.fixApplied_not_blank
  · simp only [overwriteRca]
    split
    · exact hprevention
    · exact body.prevention_not_blank

theorem rcaWf_flush {pg pg' : Postgres} {w now : Int} {loaded : Option RCA} {body : RCAIn} {row : RCA}
    (h : RcaWf pg) (hflush : flushRca pg w loaded body now = .ok (pg', row)) : RcaWf pg' := by
  obtain ⟨hcheck, ⟨_, _, rfl, rfl⟩ | ⟨old, _, hfind, rfl⟩⟩ := flushRca_ok hflush
  · obtain ⟨hids, hseq⟩ := insert_next (newRca pg w body now) h.ids h.seq rfl
    refine ⟨hids, hseq, forall_push h.valid ?_⟩
    rw [validate_ofRow]
    exact ⟨category_not_blank _, body.fixApplied_not_blank, body.prevention_not_blank,
      rcaCheck_times hcheck⟩
  · have hids : (updateWhere (fun row => row.id = old.id) (overwriteRca old body) pg.rca).map RCA.id =
        pg.rca.map RCA.id := map_updateWhere RCA.id _ _ (by intro; rfl) _
    refine ⟨hids ▸ h.ids, hids ▸ h.seq, fun new hnew => ?_⟩
    obtain ⟨prior, hprior, hwrite⟩ := mem_updateWhere.mp hnew
    split at hwrite
    · next hid =>
      -- the CHECK was made on the row of this id, of which there is one
      have hrow : new = row := by
        refine eq_of_nodup (hids ▸ h.ids) hnew (List.mem_of_find?_eq_some hfind) ?_
        rw [show row.id = old.id by simpa using List.find?_some hfind, hwrite]
        exact of_decide_eq_true hid
      obtain ⟨hcategory, hfix, hprevention⟩ := overwrite_not_blank old prior body (h.valid prior hprior)
      have htimes := rcaCheck_times hcheck
      rw [← hrow, hwrite] at htimes
      rw [validate_ofRow, hwrite]
      exact ⟨hcategory, hfix, hprevention, htimes⟩
    · rw [hwrite]
      exact h.valid prior hprior

theorem rcaWf_step (h : RcaWf s.stores.postgres) (hs : step cfg s e = some t) :
    RcaWf t.stores.postgres := by
  cases step_rcaMove hs with
  | keep hrca hseq =>
      refine ⟨hrca ▸ h.ids, fun id hid => ?_, hrca ▸ h.valid⟩
      rw [hrca] at hid
      exact (h.seq id hid).trans hseq
  | flush k o q w body loaded row _ _ _ hflush => exact rcaWf_flush h hflush

theorem ItemWf.grow {wi : WorkItem} (h : ItemWf st wi) (hgrow : Grows st st') : ItemWf st' wi :=
  ⟨h.1, fun hclosed => ⟨(h.2 hclosed).1, hgrow.rca _ (h.2 hclosed).2⟩⟩

theorem itemWf_new (st : Stores) (sig : SignalIn) (w now : Int) : ItemWf st (newWorkItem sig w now) :=
  ⟨.inl ⟨rfl, rfl⟩, nofun⟩

theorem itemWf_applied {w : Int} {wi row : WorkItem} {result : TransitionResult}
    (hrow : ItemWf st row) (hid : row.id = w) (hstart : row.startTime = wi.startTime)
    (h : Decided st w wi result) : ItemWf st (applied result row) := by
  obtain ⟨_, ⟨hopen, hend, hmttr⟩ | ⟨_, hrca, stop, hend, hmttr⟩⟩ := h
  · refine ⟨?_, fun hclosed => absurd hclosed hopen⟩
    simpa only [TimesWf, applied, hend, hmttr, Option.none_or] using hrow.1
  · refine ⟨.inr ⟨stop, ?_, ?_⟩, fun _ => ⟨?_, hid ▸ hrca⟩⟩
    · rw [applied, hend, Option.some_or]
    · rw [applied, hmttr, Option.some_or, hstart]
    · rw [applied, hend, Option.some_or]
      exact Option.some_ne_none stop

theorem origin_of_snapshot (hids : (st.postgres.workItems.map WorkItem.id).Nodup) {w : Int}
    {wi row : WorkItem} (h : Snapshot st w wi) (hrow : row ∈ st.postgres.workItems) (hid : row.id = w) :
    origin row = origin wi := by
  rw [← ids_origins] at hids
  exact eq_of_nodup hids (List.mem_map_of_mem hrow) h.2 (hid.trans h.1.symm)

structure GateWf (s : World) : Prop where
  rows : RowsWf s.stores
  rca : RcaWf s.stores.postgres
  items : ∀ wi ∈ s.stores.postgres.workItems, ItemWf s.stores wi
  requests : ∀ q ∈ s.requests, RequestWf s.stores q

theorem itemWf_life (wi : WorkItem) : ItemWf st (life wi) ↔ ItemWf st wi := Iff.rfl

theorem forall_lives {P : WorkItem → Prop} (hP : ∀ wi, P (life wi) ↔ P wi) :
    (∀ wi ∈ st.postgres.workItems, P wi) ↔ ∀ wi ∈ lives st, P wi := by
  simp only [lives, List.forall_mem_map, hP]

theorem itemWf_step (h : GateWf s) (hs : step cfg s e = some t) :
    ∀ wi ∈ t.stores.postgres.workItems, ItemWf t.stores wi := by
  have hgrow := step_grows hs
  have hold : ∀ wi ∈ lives s.stores, ItemWf t.stores wi :=
    fun wi hwi => ((forall_lives itemWf_life).mp h.items wi hwi).grow hgrow
  rw [forall_lives itemWf_life]
  have hmove := step_lifeMove hs
  generalize lives t.stores = rows at hmove
  cases hmove with
  | keep => exact hold
  | create _ => exact forall_push hold (itemWf_new _ _ _ _)
  | update w wi result hk _ hpc =>
      have hq := (h.requests _ (List.mem_of_getElem? hk)).1
      rw [hpc] at hq
      intro new hnew
      obtain ⟨row, hrow, rfl⟩ := mem_updateWhere.mp hnew
      split
      · next hid =>
        have hid := of_decide_eq_true hid
        obtain ⟨prior, hprior, rfl⟩ := List.mem_map.mp hrow
        have horigin := origin_of_snapshot h.rows.ids hq.1 hprior hid
        have hstart : prior.startTime = wi.startTime := by
          simpa [origin, counted] using congrArg WorkItem.startTime horigin
        have hpcWf : PcWf t.stores (.updateState w wi result) := PcWf.grow hq hgrow
        exact itemWf_applied (hold _ hrow) hid hstart hpcWf.2
      · exact hold row hrow

theorem closed_hasRca (h : GateWf s) :
    ∀ wi ∈ s.stores.postgres.workItems, wi.state = .CLOSED → HasRca s.stores wi.id :=
  fun wi hwi hclosed => ((h.items wi hwi).2 hclosed).2

theorem gateWf_init (n : Nat) : GateWf (init n) :=
  ⟨rowsWf_init n, ⟨List.nodup_nil, fun _ hid => absurd hid List.not_mem_nil,
    fun _ hrow => absurd hrow List.not_mem_nil⟩, fun _ hwi => absurd hwi List.not_mem_nil,
    fun _ hq => absurd hq List.not_mem_nil⟩

theorem gateWf_step (h : GateWf s) (hs : step cfg s e = some t) : GateWf t :=
  ⟨rowsWf_step h.rows hs, rcaWf_step h.rca hs, itemWf_step h hs,
    requestWf_step h.requests (closed_hasRca h) hs⟩

theorem gateWf_trace {ok : World → Event → Prop} {n : Nat} {es : List Event}
    (h : Trace (step cfg) ok (init n) es s) : GateWf s :=
  h.invariant GateWf (gateWf_init n) fun _ _ _ hwf _ hs => gateWf_step hwf hs

structure PastWf (cfg : Settings) (n : Nat) (es : List Event) (s : World) : Prop where
  read : ∀ q ∈ s.requests, ∀ wi, readItem q.pc = some wi →
    Once (step cfg) (init n) es fun s₁ => wi ∈ s₁.stores.postgres.workItems
  resolved : ∀ wi ∈ lives s.stores, wi.state = .CLOSED →
    Once (step cfg) (init n) es fun s₁ =>
      ∃ old ∈ s₁.stores.postgres.workItems, old.id = wi.id ∧ old.state = .RESOLVED

theorem edge_closed {state : WorkItemState} (h : Edge state .CLOSED) : state = .RESOLVED := by
  cases h
  rfl

theorem read_step {ok : World → Event → Prop} {n : Nat} {es : List Event}
    (htrace : Trace (step cfg) ok (init n) es s) (h : PastWf cfg n es s) (hs : step cfg s e = some t) :
    ∀ q ∈ t.requests, ∀ wi, readItem q.pc = some wi →
      Once (step cfg) (init n) (es ++ [e]) fun s₁ => wi ∈ s₁.stores.postgres.workItems := by
  have hold : ∀ q ∈ s.requests, ∀ wi, readItem q.pc = some wi →
      Once (step cfg) (init n) (es ++ [e]) fun s₁ => wi ∈ s₁.stores.postgres.workItems :=
    fun q hq wi hwi => (h.read q hq wi hwi).later
  have hmove := step_move hs
  generalize t.stores = st, t.runs = runs, t.requests = requests at hmove
  cases hmove with
  | request o hk _ =>
      refine forall_set hold fun wi hwi => ?_
      rcases attempt_readItem hwi with hwi | hwi
      · exact hold _ (List.mem_of_getElem? hk) wi hwi
      · exact (Once.now htrace hwi).later
  | @abortRequest k q hk _ => exact forall_set hold (hold q (List.mem_of_getElem? hk))
  | call c =>
      refine forall_push hold fun wi hwi => ?_
      cases c <;> cases hwi
  | _ => exact hold

theorem resolved_step {n : Nat} {es : List Event} (hgate : GateWf s) (h : PastWf cfg n es s)
    (hs : step cfg s e = some t) :
    ∀ wi ∈ lives t.stores, wi.state = .CLOSED →
      Once (step cfg) (init n) (es ++ [e]) fun s₁ =>
        ∃ old ∈ s₁.stores.postgres.workItems, old.id = wi.id ∧ old.state = .RESOLVED := by
  have hold : ∀ wi ∈ lives s.stores, wi.state = .CLOSED →
      Once (step cfg) (init n) (es ++ [e]) fun s₁ =>
        ∃ old ∈ s₁.stores.postgres.workItems, old.id = wi.id ∧ old.state = .RESOLVED :=
    fun wi hwi hclosed => (h.resolved wi hwi hclosed).later
  have hmove := step_lifeMove hs
  generalize lives t.stores = rows at hmove
  cases hmove with
  | keep => exact hold
  | create _ => exact forall_push hold fun hclosed => by cases hclosed
  | update w wi result hk _ hpc =>
      intro new hnew hclosed
      have hq := List.mem_of_getElem? hk
      have hread := h.read _ hq wi (by rw [hpc]; rfl)
      obtain ⟨hpcWf, _⟩ := hgate.requests _ hq
      rw [hpc] at hpcWf
      obtain ⟨⟨hid, _⟩, hedge, _⟩ := hpcWf
      obtain ⟨row, hrow, rfl⟩ := mem_updateWhere.mp hnew
      split at hclosed
      · next hw =>
        -- the row that was read is the moment at which the item was resolved
        obtain ⟨es₁, es₂, s₁, hes, htrace, hwi⟩ := hread.later
        rw [show result.newState = .CLOSED from hclosed] at hedge
        refine ⟨es₁, es₂, s₁, hes, htrace, wi, hwi, ?_, edge_closed hedge⟩
        rw [if_pos hw, hid]
        exact (of_decide_eq_true hw).symm
      · next hw =>
        rw [if_neg hw]
        exact hold row hrow hclosed

/-- Every closed item has an RCA that the validator accepts, was resolved
before, and has its times, which agree in every item; and no response shows a
closed item without its RCA. -/
structure Gated (cfg : Settings) (n : Nat) (es : List Event) (s : World) : Prop where
  rca : ∀ wi ∈ s.stores.postgres.workItems, wi.state = .CLOSED →
    ∃ row, getRca s.stores.postgres wi.id = some row ∧ validate (some (ofRow row)) = .ok ()
  resolved : ∀ wi ∈ s.stores.postgres.workItems, wi.state = .CLOSED →
    Once (step cfg) (init n) es fun s₁ =>
      ∃ old ∈ s₁.stores.postgres.workItems, old.id = wi.id ∧ old.state = .RESOLVED
  closedTimes : ∀ wi ∈ s.stores.postgres.workItems, wi.state = .CLOSED →
    wi.endTime ≠ none ∧ wi.mttrSeconds ≠ none
  times : ∀ wi ∈ s.stores.postgres.workItems, TimesWf wi
  responses : ∀ q ∈ s.requests, ∀ out, q.status = .responded (.incident out) →
    out.workItem.state = .CLOSED → out.rca ≠ none

/-- No interleaving of requests and runs gets an item past the RCA gate,
whatever operations fail. -/
theorem rca_gate_unavoidable {ok : World → Event → Prop} {n : Nat} {es : List Event}
    (h : Trace (step cfg) ok (init n) es s) : Gated cfg n es s := by
  have hgate := h.with_invariant GateWf (gateWf_init n) fun _ _ _ hwf _ hs => gateWf_step hwf hs
  have hwf := gateWf_trace h
  have hpast : PastWf cfg n es s := by
    refine hgate.invariant_past (PastWf cfg n)
      ⟨fun _ hq => absurd hq List.not_mem_nil, fun _ hwi => absurd hwi List.not_mem_nil⟩ ?_
    intro es s e t htrace hpast he hs
    exact ⟨read_step htrace hpast hs, resolved_step he.1 hpast hs⟩
  refine ⟨fun wi hwi hclosed => ?_, fun wi hwi hclosed => ?_, fun wi hwi hclosed => ?_,
    fun wi hwi => (hwf.items wi hwi).1, fun q hq out hout => (hwf.requests q hq).2 _ hout⟩
  · obtain ⟨row, hrow⟩ := getRca_of_hasRca (closed_hasRca hwf wi hwi hclosed)
    exact ⟨row, hrow, hwf.rca.valid row (List.mem_of_find?_eq_some hrow)⟩
  · exact hpast.resolved (life wi) (List.mem_map_of_mem hwi) hclosed
  · have hend := ((hwf.items wi hwi).2 hclosed).1
    rcases (hwf.items wi hwi).1 with ⟨hnone, _⟩ | ⟨stop, _, hmttr⟩
    · exact absurd hnone hend
    · exact ⟨hend, by rw [hmttr]; nofun⟩

def closedTwice : List Event :=
  resolved ++ [.call (.closeIncident 1), .call (.closeIncident 1)] ++ requestOn 3 2 ++
    [.setClock 7] ++ requestOn 4 2 ++ requestOn 3 1 ++ requestOn 4 1 ++ [.call (.getIncident 1)] ++
    requestOn 5 2

theorem rca_gate_unavoidable_closed_twice :
    ∃ s : World,
      s.stores.postgres.workItems.map (fun wi => (wi.state, wi.endTime)) = [(.CLOSED, some 7)] ∧
        Gated {} 2 closedTwice s := by
  obtain ⟨s, hs, hp⟩ := trace_of_replay (step {}) (fun _ _ => True) (init 2) closedTwice
    (fun s => decide (s.stores.postgres.workItems.map (fun wi => (wi.state, wi.endTime)) =
      [(.CLOSED, some 7)])) (by decide +kernel)
  exact ⟨s, of_decide_eq_true hp, rca_gate_unavoidable hs⟩

end Ims.RcaGate
