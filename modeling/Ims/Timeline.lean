import Ims.Effects
import Ims.Transactions

namespace Ims.Timeline

open Library.Text Library.Runs Library.Tables Library.Slots Time Models RcaValidator States PostgresRepo
  RedisCache Ingestion Service WorkerSteps ApiSteps ServiceSteps RequestMoves WorkerMoves WorkerFrames Rows
  Effects Requests RcaGate Mttr Transactions
open Workers (Stores Run Outcome placeholder int_placeholder)
open IncidentsApi (Request Pc)

def Known (st : Stores) (w : Int) : Prop := ∃ wi ∈ st.postgres.workItems, wi.id = w

def Before (st : Stores) (w time : Int) : Prop :=
  ∃ wi ∈ st.postgres.workItems, wi.id = w ∧ wi.createdAt ≤ time

def named : Workers.Pc → Option Int
  | .publish _ w | .increment w => some w
  | .insertSignal | .claim | .create _ | .pushLiveFeed _ | .dispatch _ | .getOpenWorkItem | .addLink _
  | .backfill _ | .upsertMetric _ | .finish _ => none

def KeysKnown (st : Stores) : Prop :=
  ∀ c v w, st.redis.strings (dedupKey c) = some v → int v = some w → Known st w

/-- An id that a key holds, or that a run is about to publish or to count on, is
that of a row. -/
structure KnownWf (s : World) : Prop where
  keys : KeysKnown s.stores
  runs : ∀ r ∈ s.runs, ∀ w, named r.pc = some w → Known s.stores w

/-- Item w can be closed at the time stop: it was there by then, and so was its RCA. -/
structure ClosesAt (st : Stores) (w stop : Int) : Prop where
  item : Before st w stop
  rca : HasRca st w
  submitted : ∀ row ∈ st.postgres.rca, row.workItemId = w → row.submittedAt ≤ stop

def ItemDated (lag : Nat) (st : Stores) (now : Int) (wi : WorkItem) : Prop :=
  wi.createdAt ≤ wi.updatedAt ∧ wi.updatedAt ≤ now ∧
    ∀ stop, wi.endTime = some stop → stop ≤ now ∧ stop ≤ wi.updatedAt + lag ∧ ClosesAt st wi.id stop

def RcaDated (st : Stores) (now : Int) (row : RCA) : Prop :=
  row.submittedAt ≤ now ∧ Before st row.workItemId row.submittedAt

/-- What a request relies on that has been at its place since then. -/
def PcDated (st : Stores) (since : Int) : Pc → Prop
  | .transitionRca w _ _ => Known st w
  | .selectRca w _ | .flushRca w _ _ => Before st w since
  | .updateState w _ result =>
      Before st w since ∧ ∀ stop, result.endTime = some stop → stop ≤ since ∧ ClosesAt st w stop
  | .transitionItem _ _ | .feedMembers _ _ _ | .zremMember _ _ _ _ _ | .clearDedup _ _ _ | .fresh _ _
  | .submitItem _ _ | .incidentItem _ | .incidentRca _ _ => True

structure Timely (lag : Nat) (s : Dated) : Prop where
  items : ∀ wi ∈ s.world.stores.postgres.workItems, ItemDated lag s.world.stores s.world.clock wi
  rca : ∀ row ∈ s.world.stores.postgres.rca, RcaDated s.world.stores s.world.clock row
  runs : ∀ k r, s.world.runs[k]? = some r → ∀ w, r.pc = .increment w →
    Before s.world.stores w (s.runSince k)
  requests : ∀ k q, s.world.requests[k]? = some q → PcDated s.world.stores (s.requestSince k) q.pc

inductive RowsMove (s : World) : Event → List WorkItem → Prop
  | keep (e) : RowsMove s e s.stores.postgres.workItems
  | create (e sig id) : RowsMove s e (s.stores.postgres.workItems ++ [newWorkItem sig id s.clock])
  | increment {k o r} (w) (hk : s.runs[k]? = some r) (hpc : r.pc = .increment w) :
      RowsMove s (.run k o) (incrementSignalCount s.stores.postgres w s.clock).workItems
  | updateState {k o q} (w wi result) (hk : s.requests[k]? = some q)
      (hpc : q.pc = .updateState w wi result) :
      RowsMove s (.request k o) (updateState s.stores.postgres w result.newState result.endTime
        result.mttrSeconds s.clock).workItems

section Service

variable {cfg : Settings} {s t : World} {e : Event} {st st' : Stores} {r r' : Run} {w stop now : Int}

theorem step_rowsMove (h : step cfg s e = some t) : RowsMove s e t.stores.postgres.workItems := by
  have hmove := step_move h
  generalize t.stores = st, t.runs = runs, t.requests = requests at hmove
  cases hmove with
  | @run k r o hk _ _ =>
      obtain ⟨_, hstep⟩ := attempt_stores s.clock s.stores r o
      generalize (r.attempt o s.clock s.stores).1 = st at hstep
      cases hstep with
      | create => exact .create _ _ _
      | increment w hpc => exact .increment w hk hpc
      | _ => exact .keep _
  | @request k q o hk _ =>
      have heffect := attempt_effect s.clock s.stores q o
      generalize (q.attempt o s.clock s.stores).1 = st at heffect
      cases heffect with
      | updateState w wi result hpc => exact .updateState w wi result hk hpc
      | flushRca w body loaded postgres row _ hflush =>
          rw [(flushRca_tables hflush).1]
          exact .keep _
      | none | zrem | clearDedup => exact .keep _
  | quiet | get | finish | cancelRun | abortRequest | call | expire | burnWorkItemId | burnRcaId =>
      exact .keep _

theorem created_grow (h : Grows st st') {wi : WorkItem} (hwi : wi ∈ st.postgres.workItems) :
    ∃ wi' ∈ st'.postgres.workItems, wi'.id = wi.id ∧ wi'.createdAt = wi.createdAt := by
  obtain ⟨wi', hwi', horigin⟩ := List.mem_map.mp (h.items (origin wi) (List.mem_map_of_mem hwi))
  have hid := congrArg WorkItem.id horigin
  have hcreated := congrArg WorkItem.createdAt horigin
  exact ⟨wi', hwi', hid, hcreated⟩

theorem Known.grow (h : Known st w) (hgrow : Grows st st') : Known st' w := by
  obtain ⟨wi, hwi, rfl⟩ := h
  obtain ⟨wi', hwi', hid, _⟩ := created_grow hgrow hwi
  exact ⟨wi', hwi', hid⟩

theorem Before.grow (h : Before st w stop) (hgrow : Grows st st') (hle : stop ≤ now) :
    Before st' w now := by
  obtain ⟨wi, hwi, rfl, hcreated⟩ := h
  obtain ⟨wi', hwi', hid, hcreated'⟩ := created_grow hgrow hwi
  exact ⟨wi', hwi', hid, hcreated' ▸ hcreated.trans hle⟩

theorem Before.row (h : Before st w stop) (hrows : RowsWf st) {wi : WorkItem}
    (hwi : wi ∈ st.postgres.workItems) (hid : wi.id = w) : wi.createdAt ≤ stop := by
  obtain ⟨old, hold, hid', hcreated⟩ := h
  rwa [eq_of_nodup hrows.ids hwi hold (hid.trans hid'.symm)]

theorem attempt_named {o : Outcome} (hkeys : KeysKnown st)
    (hw : named (r.attempt o now st).2.pc = some w) :
    named r.pc = some w ∨ Known (r.attempt o now st).1 w := by
  have hhandle (e : Exc) (hw : named (r.handle e).pc = some w) : named r.pc = some w := by
    cases hpc : r.pc with
    | dispatch | backfill =>
        simp only [Run.handle, hpc] at hw
        cases hw
    | _ =>
        rcases handle_pc r e with hsame | hswallow
        · rwa [hsame, hpc] at hw
        · rw [hpc] at hswallow
          cases hswallow
  cases o with
  | fail e | lost e => exact .inl (hhandle e hw)
  | ok =>
      simp only [Run.attempt] at hw ⊢
      have hstep := perform_runStep now st r
      generalize (r.perform now st).1 = st', r.resume (r.perform now st).2 = r' at hstep hw ⊢
      cases hstep with
      | stay _ _ _ hpc => exact .inl (hpc ▸ hw)
      | create won hpc =>
          cases hw
          exact .inr ⟨_, List.mem_append_right _ (List.mem_singleton.mpr rfl), rfl⟩
      | findItem v hpc hkey =>
          cases hw
          obtain ⟨value, hvalue, hint⟩ := getOpenWorkItem_some hkey
          exact .inr (hkeys _ value _ hvalue hint)
      | _ => cases hw

theorem keysKnown_set (h : KeysKnown st) (hgrow : Grows st st') {key value : String}
    (hstrings : st'.redis.strings = Function.update st.redis.strings key (some value))
    (hvalue : ∀ w, int value = some w → Known st w) : KeysKnown st' := by
  intro c v w hv hint
  refine Known.grow ?_ hgrow
  rw [hstrings, Function.update_apply] at hv
  split at hv
  · cases hv
    exact hvalue w hint
  · exact h c v w hv hint

theorem knownWf_init (n : Nat) : KnownWf (init n) := by
  refine ⟨fun c v w hv => ?_, fun r hr => ?_⟩
  · cases hv
  · cases hr

theorem keysKnown_step (h : KnownWf s) (hs : step cfg s e = some t) : KeysKnown t.stores := by
  have hgrow := step_grows hs
  rcases step_stores hs with htame | ⟨k, r, r', _, hk, hstep⟩
  · intro c v w hv hint
    rcases htame.keys (dedupKey c) with hsame | hgone
    · exact (h.keys c v w (hsame ▸ hv) hint).grow hgrow
    · rw [hgone] at hv
      cases hv
  · rcases runStep_keys hstep with ⟨_, _, _, hstrings⟩ | ⟨won, v, hpc, _, _, _, hstrings⟩ |
      ⟨hstrings, _⟩
    · refine keysKnown_set h.keys hgrow hstrings fun w hw => ?_
      rw [int_placeholder] at hw
      cases hw
    · refine keysKnown_set h.keys hgrow hstrings fun w hw => ?_
      rw [int_str] at hw
      exact h.runs r (List.mem_of_getElem? hk) w (by rw [hpc]; exact hw)
    · intro c v w hv hint
      exact (h.keys c v w (hstrings ▸ hv) hint).grow hgrow

theorem knownWf_step (h : KnownWf s) (hs : step cfg s e = some t) : KnownWf t := by
  have hgrow := step_grows hs
  refine ⟨keysKnown_step h hs, fun r hr w hw => ?_⟩
  obtain ⟨k, hslot⟩ := List.mem_iff_getElem?.mp hr
  cases step_runMove hs hslot with
  | new _ _ _ hpc =>
      rw [hpc] at hw
      cases hw
  | other _ hk => exact (h.runs r (List.mem_of_getElem? hk) w hw).grow hgrow
  | attempt b o hk _ _ hst =>
      rcases attempt_named h.keys hw with hold | hknown
      · exact (h.runs b (List.mem_of_getElem? hk) w hold).grow hgrow
      · exact hst ▸ hknown
  | finish b _ hk _ | cancel b hk _ => exact (h.runs b (List.mem_of_getElem? hk) w hw).grow hgrow

theorem ClosesAt.step (h : ClosesAt s.stores w stop) (hs : step cfg s e = some t) :
    ClosesAt t.stores w stop := by
  have hgrow := step_grows hs
  obtain ⟨hitem, hrca, hsubmitted⟩ := h
  refine ⟨hitem.grow hgrow (Int.le_refl _), hgrow.rca w hrca, ?_⟩
  cases step_rcaMove hs with
  | keep hrows => rwa [hrows]
  | flush k o q v body loaded row _ _ _ hflush =>
      rcases (flushRca_ok hflush).2 with ⟨_, hnone, rfl, hpg⟩ | ⟨old, _, _, hpg⟩
      · rw [hpg]
        refine forall_push hsubmitted fun hw => ?_
        have hw : v = w := hw
        exact absurd (hw ▸ hrca) (getRca_none.mp hnone)
      · rw [hpg]
        exact forall_updateWhere hsubmitted fun _ hrow => hrow

theorem known_of_get {wi : WorkItem} (h : getWorkItem st.postgres w = some wi) : Known st w :=
  ⟨wi, item_of_get h⟩

/-- A submission goes on only for an item that it has found. -/
theorem known_of_checked {q : Request} {o : Outcome} {body : RCAIn} (hpc : q.pc = .submitItem w body)
    (hnext : (q.attempt o now st).2.pc ≠ q.pc) : Known st w := by
  cases hget : getWorkItem st.postgres w with
  | some wi => exact known_of_get hget
  | none =>
      refine absurd ?_ hnext
      cases o <;>
        simp [Request.attempt, Request.perform, Request.resume, Request.goOn, Request.handle, hpc, hget]

/-- A request decides on what it has read at the present time. -/
theorem closesAt_of_decided {wi : WorkItem} {target : WorkItemState} {result : TransitionResult}
    (hitem : Before st w now) (hsubmitted : ∀ row ∈ st.postgres.rca, row.submittedAt ≤ now)
    (hresult : transition ⟨wi.state, .utc wi.startTime⟩ target ((getRca st.postgres w).map ofRow) now =
      .ok result) (hstop : result.endTime = some stop) : stop ≤ now ∧ ClosesAt st w stop := by
  obtain ⟨_, ⟨_, hnone, _⟩ | ⟨_, hrca, _⟩⟩ := decided_of_transition hresult
  · rw [hnone] at hstop
    cases hstop
  · obtain ⟨_, _, ⟨_, hnone, _⟩ | ⟨_, _, hend, _⟩⟩ := transition_ok hresult
    · rw [hnone] at hstop
      cases hstop
    · rw [hend] at hstop
      cases hstop
      exact ⟨Int.le_refl _, hitem, hrca, fun row hrow _ => hsubmitted row hrow⟩

variable {lag : Nat} {since since' now' : Int} {wi new : WorkItem}

theorem itemDated_step (h : ItemDated lag s.stores now wi) (hs : step cfg s e = some t)
    (hnow : now ≤ now') : ItemDated lag t.stores now' wi := by
  obtain ⟨hcreated, hupdated, hclosed⟩ := h
  refine ⟨hcreated, hupdated.trans hnow, fun stop hstop => ?_⟩
  obtain ⟨hle, hlate, hcloses⟩ := hclosed stop hstop
  exact ⟨hle.trans hnow, hlate, hcloses.step hs⟩

/-- The row that an update leaves is dated by the update, which no transaction
keeps for longer than lag. -/
theorem itemDated_touch (h : ItemDated lag st now wi) (hid : new.id = wi.id)
    (hcreated : new.createdAt = wi.createdAt) (hbefore : wi.createdAt ≤ new.updatedAt)
    (hupdated : new.updatedAt ≤ now) (hlag : now ≤ new.updatedAt + lag)
    (hend : ∀ stop, new.endTime = some stop →
      wi.endTime = some stop ∨ stop ≤ now ∧ ClosesAt st wi.id stop) : ItemDated lag st now new := by
  refine ⟨hcreated ▸ hbefore, hupdated, fun stop hstop => ?_⟩
  rw [hid]
  rcases hend stop hstop with hold | ⟨hle, hcloses⟩
  · obtain ⟨hle, _, hcloses⟩ := h.2.2 stop hold
    exact ⟨hle, hle.trans hlag, hcloses⟩
  · exact ⟨hle, hle.trans hlag, hcloses⟩

theorem PcDated.step {pc : Pc} (h : PcDated s.stores since pc) (hs : step cfg s e = some t)
    (hle : since ≤ since') : PcDated t.stores since' pc := by
  have hgrow := step_grows hs
  cases pc with
  | transitionRca => exact Known.grow h hgrow
  | selectRca | flushRca => exact Before.grow h hgrow hle
  | updateState w wi result =>
      obtain ⟨hitem, hstop⟩ := h
      refine ⟨hitem.grow hgrow hle, fun stop hend => ?_⟩
      obtain ⟨hstop, hcloses⟩ := hstop stop hend
      exact ⟨hstop.trans hle, hcloses.step hs⟩
  | transitionItem | feedMembers | zremMember | clearDedup | fresh | submitItem | incidentItem
  | incidentRca => trivial

end Service

variable {cfg : Settings} {lag : Nat} {n : Nat} {s t : Dated} {e : DatedEvent} {es es' : List DatedEvent}

theorem before_of_known (h : Timely lag s) {w : Int} (hknown : Known s.world.stores w) :
    Before s.world.stores w s.world.clock := by
  obtain ⟨wi, hwi, hid⟩ := hknown
  obtain ⟨hcreated, hupdated, _⟩ := h.items wi hwi
  exact ⟨wi, hwi, hid, hcreated.trans hupdated⟩

theorem items_step (h : Timely lag s) (hrows : RowsWf s.world.stores) (he : punctual lag s e)
    (hs : datedStep cfg s e = some t) :
    ∀ wi ∈ t.world.stores.postgres.workItems, ItemDated lag t.world.stores t.world.clock wi := by
  obtain ⟨hsince, hbegun, w, hw, rfl⟩ := datedStep_cases hs
  obtain ⟨hnow, hlag⟩ := nowOf_bounds hbegun he
  have hclock := le_clockAfter he.1
  have hmove := step_rowsMove hw
  show ∀ wi ∈ w.stores.postgres.workItems, ItemDated lag w.stores (clockAfter s.world e.event) wi
  generalize clockAfter s.world e.event = clock at hclock
  have hstep {wi : WorkItem} (hwi : ItemDated lag s.world.stores s.world.clock wi) :
      ItemDated lag w.stores clock wi :=
    itemDated_step (s := { s.world with clock := nowOf s e }) hwi hw hclock
  have hkeep : ∀ wi ∈ s.world.stores.postgres.workItems, ItemDated lag w.stores clock wi :=
    fun wi hwi => hstep (h.items wi hwi)
  generalize hevent : e.event = event, w.stores.postgres.workItems = rows at hmove
  cases hmove with
  | keep => exact hkeep
  | create _ sig id =>
      exact forall_push hkeep (hstep ⟨Int.le_refl _, hnow, fun _ hstop => by cases hstop⟩)
  | @increment k o r v hk hpc =>
      have hitem := h.runs k r hk v hpc
      rw [hevent] at hsince
      have hbegin : nowOf s e = e.begun := by rw [nowOf, hevent]
      intro wi hwi
      obtain ⟨old, hold, rfl⟩ := mem_updateWhere.mp hwi
      split
      · next hv =>
        have hcreated := hitem.row hrows hold (of_decide_eq_true hv)
        refine hstep (itemDated_touch (h.items old hold) rfl rfl ?_ hnow hlag fun _ hstop => .inl hstop)
        exact hcreated.trans (hbegin ▸ hsince)
      · exact hkeep old hold
  | @updateState k o q v _ result hk hpc =>
      have hdecided := h.requests k q hk
      have hbegin := nowOf_request hevent hk
      rw [hpc] at hdecided hbegin
      rw [hevent] at hsince
      obtain ⟨hitem, hcloses⟩ := hdecided
      have hsince : s.requestSince k ≤ nowOf s e := hbegin ▸ hsince
      intro wi hwi
      obtain ⟨old, hold, rfl⟩ := mem_updateWhere.mp hwi
      split
      · next hv =>
        have hid := of_decide_eq_true hv
        refine hstep (itemDated_touch (h.items old hold) rfl rfl
          ((hitem.row hrows hold hid).trans hsince) hnow hlag fun stop hstop => ?_)
        rcases Option.or_eq_some_iff.mp hstop with hresult | ⟨_, hold⟩
        · obtain ⟨hle, hcloses⟩ := hcloses stop hresult
          rw [hid]
          exact .inr ⟨(hle.trans hsince).trans hnow, hcloses⟩
        · exact .inl hold
      · exact hkeep old hold

theorem rca_step (h : Timely lag s) (he : punctual lag s e) (hs : datedStep cfg s e = some t) :
    ∀ row ∈ t.world.stores.postgres.rca, RcaDated t.world.stores t.world.clock row := by
  obtain ⟨hsince, hbegun, w, hw, rfl⟩ := datedStep_cases hs
  have hgrow := step_grows hw
  have hclock := le_clockAfter he.1
  have hkeep : ∀ row ∈ s.world.stores.postgres.rca,
      RcaDated w.stores (clockAfter s.world e.event) row := by
    intro row hrow
    obtain ⟨hle, hitem⟩ := h.rca row hrow
    exact ⟨hle.trans hclock, hitem.grow hgrow (Int.le_refl _)⟩
  show ∀ row ∈ w.stores.postgres.rca, _
  cases step_rcaMove hw with
  | keep hrows => rwa [hrows]
  | flush k o q v body loaded row hevent hk hpc hflush =>
      rcases (flushRca_ok hflush).2 with ⟨_, _, rfl, hpg⟩ | ⟨old, _, _, hpg⟩
      · have hitem := h.requests k q hk
        have hbegin := nowOf_request hevent hk
        rw [hpc] at hitem hbegin
        rw [hevent] at hsince
        rw [hpg]
        refine forall_push hkeep ⟨(nowOf_bounds hbegun he).1.trans hclock, ?_⟩
        exact Before.grow hitem hgrow (hbegin ▸ hsince)
      · rw [hpg]
        exact forall_updateWhere hkeep fun _ hrow => hrow

/-- What an attempt leaves a request relying on holds since it came there, or
since now if it goes to an operation with a transaction of its own. -/
theorem attempt_pcDated (h : Timely lag s) {k : Nat} {o : Outcome} {q : Request}
    (he : e.event = .request k o) (hk : s.world.requests[k]? = some q) :
    PcDated s.world.stores (s.requestSince k) (q.attempt o (nowOf s e) s.world.stores).2.pc ∨
      flushes (q.attempt o (nowOf s e) s.world.stores).2.pc = false ∧
        PcDated s.world.stores s.world.clock (q.attempt o (nowOf s e) s.world.stores).2.pc := by
  have hpc := h.requests k q hk
  have hbegin := nowOf_request he hk
  have hmove := attempt_pcMove q o (nowOf s e) s.world.stores
  generalize hq : q.pc = pc, hq' : (q.attempt o (nowOf s e) s.world.stores).2.pc = pc' at *
  cases hmove with
  | stay | selected | retried => exact .inl hpc
  | readItem w target wi hget => exact .inl (known_of_get hget)
  | decided w target wi result hresult =>
      have hitem := before_of_known h hpc
      refine .inr ⟨rfl, hitem, fun stop hstop => ?_⟩
      rw [show nowOf s e = s.world.clock from hbegin] at hresult
      exact closesAt_of_decided hitem (fun row hrow => (h.rca row hrow).1) hresult hstop
  | checked w body =>
      have hknown := known_of_checked hq (by rw [hq, hq']; exact fun he => by cases he)
      exact .inr ⟨rfl, before_of_known h hknown⟩
  | closed | moved | scanned | scannedNone | removed | removedLast | cleared | leftScan | leftRemoval
  | readIncident => exact .inl trivial

theorem requests_step (h : Timely lag s) (hs : datedStep cfg s e = some t) :
    ∀ k q, t.world.requests[k]? = some q → PcDated t.world.stores (t.requestSince k) q.pc := by
  obtain ⟨hsince, hbegun, w, hw, rfl⟩ := datedStep_cases hs
  show ∀ k q, w.requests[k]? = some q → PcDated w.stores (requestSinceAfter s w e.event k) q.pc
  have hstep {pc : Pc} {since since' : Int} (hpc : PcDated s.world.stores since pc)
      (hle : since ≤ since') : PcDated w.stores since' pc :=
    PcDated.step (s := { s.world with clock := nowOf s e }) hpc hw hle
  have hlater {k : Nat} {q : Request} (hk : s.world.requests[k]? = some q) :
      s.requestSince k ≤ requestSinceAfter s w e.event k :=
    requestSince_le (hsince.trans hbegun) w k (lt_of_slot hk)
  intro k q hslot
  cases step_requestMove hw hslot with
  | new c => cases c <;> trivial
  | other _ hk => exact hstep (h.requests k q hk) (hlater hk)
  | abort p hk => exact hstep (h.requests k p hk) (hlater hk)
  | attempt p o hk _ he =>
      rcases attempt_pcDated h he hk with hsame | ⟨hflush, hnow⟩
      · exact hstep hsame (hlater hk)
      · refine hstep hnow (Int.le_of_eq ?_)
        rw [requestSince_own he hslot]
        exact (if_neg (by rw [hflush]; exact Bool.false_ne_true)).symm

theorem runs_step (h : Timely lag s) (hknown : KnownWf t.world)
    (hitems : ∀ wi ∈ t.world.stores.postgres.workItems,
      ItemDated lag t.world.stores t.world.clock wi) (hs : datedStep cfg s e = some t) :
    ∀ k r, t.world.runs[k]? = some r → ∀ v, r.pc = .increment v →
      Before t.world.stores v (t.runSince k) := by
  obtain ⟨hsince, hbegun, w, hw, rfl⟩ := datedStep_cases hs
  have hgrow := step_grows hw
  intro k r hslot v hpc
  have hold {b : Run} (hk : s.world.runs[k]? = some b) (hpc : b.pc = .increment v) :
      Before w.stores v (runSinceAfter s e.event k) :=
    (h.runs k b hk v hpc).grow hgrow (runSince_le (hsince.trans hbegun) k (lt_of_slot hk))
  cases step_runMove hw hslot with
  | new _ _ _ hpc' =>
      rw [hpc'] at hpc
      cases hpc
  | other _ hk => exact hold hk hpc
  | finish b _ hk _ | cancel b hk _ => exact hold hk hpc
  | attempt b o hk _ hevent _ =>
      obtain ⟨wi, hwi, hid⟩ := hknown.runs _ (List.mem_of_getElem? hslot) v (by rw [hpc]; rfl)
      obtain ⟨hcreated, hupdated, _⟩ := hitems wi hwi
      refine ⟨wi, hwi, hid, hcreated.trans (hupdated.trans (Int.le_of_eq ?_))⟩
      show clockAfter s.world e.event = runSinceAfter s e.event k
      rw [hevent, runSinceAfter, Function.update_self]
      rfl

theorem timely_init (lag : Nat) (n : Nat) : Timely lag (start n) := by
  refine ⟨fun wi hwi => ?_, fun row hrow => ?_, fun k r hk => ?_, fun k q hk => ?_⟩
  · cases hwi
  · cases hrow
  · cases hk
  · cases hk

theorem timely_step (h : Timely lag s) (hrows : RowsWf s.world.stores) (hknown : KnownWf t.world)
    (he : punctual lag s e) (hs : datedStep cfg s e = some t) : Timely lag t := by
  have hitems := items_step h hrows he hs
  exact ⟨hitems, rca_step h he hs, runs_step h hknown hitems hs, requests_step h hs⟩

theorem rows_known {ok : Dated → DatedEvent → Prop} (h : Trace (datedStep cfg) ok (start n) es s) :
    RowsWf s.world.stores ∧ KnownWf s.world := by
  obtain ⟨es', htrace⟩ := service_trace h
  constructor
  · exact htrace.invariant (fun s => RowsWf s.stores) (rowsWf_init n)
      fun _ _ _ hrows _ hs => rowsWf_step hrows hs
  · exact htrace.invariant KnownWf (knownWf_init n) fun _ _ _ hknown _ hs => knownWf_step hknown hs

theorem timely_trace (h : Trace (datedStep cfg) (punctual lag) (start n) es s) : Timely lag s :=
  h.invariant_past (fun _ s => Timely lag s) (timely_init lag n)
    fun _ _ _ _ htrace htimely he hs =>
      timely_step htimely (rows_known htrace).1 (rows_known (htrace.next he hs)).2 he hs

def Later (lag : Nat) (wi : WorkItem) (st : Stores) : Prop :=
  ∃ wi' ∈ st.postgres.workItems, wi'.id = wi.id ∧ wi'.createdAt = wi.createdAt ∧
    wi.updatedAt ≤ wi'.updatedAt + lag

theorem later_step {wi : WorkItem} (h : Later lag wi s.world.stores)
    (hnow : wi.updatedAt ≤ s.world.clock) (he : punctual lag s e) (hs : datedStep cfg s e = some t) :
    Later lag wi t.world.stores := by
  obtain ⟨_, hbegun, w, hw, rfl⟩ := datedStep_cases hs
  have hlate := hnow.trans (nowOf_bounds hbegun he).2
  obtain ⟨old, hold, hid, hcreated, hle⟩ := h
  have hmove := step_rowsMove hw
  show ∃ wi' ∈ w.stores.postgres.workItems, _
  generalize e.event = event, w.stores.postgres.workItems = rows at hmove
  cases hmove with
  | keep => exact ⟨old, hold, hid, hcreated, hle⟩
  | create => exact ⟨old, List.mem_append_left _ hold, hid, hcreated, hle⟩
  | increment | updateState =>
      refine ⟨_, mem_updateWhere.mpr ⟨old, hold, rfl⟩, ?_⟩
      split
      · exact ⟨hid, hcreated, hlate⟩
      · exact ⟨hid, hcreated, hle⟩

theorem later_trace {wi : WorkItem} (hwi : wi ∈ s.world.stores.postgres.workItems)
    (hnow : wi.updatedAt ≤ s.world.clock) (h : Trace (datedStep cfg) (punctual lag) s es t) :
    Later lag wi t.world.stores := by
  refine (h.invariant (fun t => wi.updatedAt ≤ t.world.clock ∧ Later lag wi t.world.stores)
    ⟨hnow, wi, hwi, rfl, rfl, Int.le_add_of_nonneg_right lag.cast_nonneg⟩ ?_).2
  rintro s e t ⟨hnow, hlater⟩ he hs
  refine ⟨?_, later_step hlater hnow he hs⟩
  obtain ⟨_, _, w, _, rfl⟩ := datedStep_cases hs
  exact hnow.trans (le_clockAfter he.1)

structure Chain (lag : Nat) (s : World) (wi : WorkItem) : Prop where
  created : wi.createdAt ≤ wi.updatedAt
  updated : wi.updatedAt ≤ s.clock
  submitted : ∀ row, getRca s.stores.postgres wi.id = some row →
    wi.createdAt ≤ row.submittedAt ∧ row.submittedAt ≤ s.clock
  closed : ∀ stop, wi.endTime = some stop → stop ≤ s.clock ∧ stop ≤ wi.updatedAt + lag ∧
    ∃ row, getRca s.stores.postgres wi.id = some row ∧ row.submittedAt ≤ stop

theorem chain_of_timely (h : Timely lag s) (hrows : RowsWf s.world.stores) {wi : WorkItem}
    (hwi : wi ∈ s.world.stores.postgres.workItems) : Chain lag s.world wi := by
  have hrow {row : RCA} (hget : getRca s.world.stores.postgres wi.id = some row) :
      row ∈ s.world.stores.postgres.rca ∧ row.workItemId = wi.id := by
    unfold getRca at hget
    exact ⟨List.mem_of_find?_eq_some hget, by simpa using List.find?_some hget⟩
  obtain ⟨hcreated, hupdated, hclosed⟩ := h.items wi hwi
  refine ⟨hcreated, hupdated, fun row hget => ?_, fun stop hstop => ?_⟩
  · obtain ⟨hmem, hid⟩ := hrow hget
    obtain ⟨hle, hitem⟩ := h.rca row hmem
    exact ⟨hitem.row hrows hwi hid.symm, hle⟩
  · obtain ⟨hle, hlate, hcloses⟩ := hclosed stop hstop
    obtain ⟨row, hget⟩ := getRca_of_hasRca hcloses.rca
    obtain ⟨hmem, hid⟩ := hrow hget
    exact ⟨hle, hlate, row, hget, hcloses.submitted row hmem hid⟩

/-- With a clock that never goes back the times of an item stand in their order:
created, its RCA submitted, closed. The time of its last update, which is that of
the beginning of a transaction, is behind its close, or behind the time of an
earlier update, by no more than a transaction takes. -/
theorem times_in_order (h : Trace (datedStep cfg) (punctual lag) (start n) es s)
    (h' : Trace (datedStep cfg) (punctual lag) s es' t) :
    ∀ wi ∈ s.world.stores.postgres.workItems,
      Chain lag s.world wi ∧ Later lag wi t.world.stores := by
  have htimely := timely_trace h
  intro wi hwi
  have hupdated := (htimely.items wi hwi).2.1
  exact ⟨chain_of_timely htimely (rows_known h).1 hwi, later_trace hwi hupdated h'⟩

def begunAt (now : Int) (es : List Event) : List DatedEvent := es.map fun e => ⟨e, now⟩

/-- The item is closed at 9, while a run is about to count a signal on it. -/
def closedLate : List DatedEvent :=
  begunAt 0 [.setClock 3] ++
    begunAt 3 (LifeCycle.resolved ++ [.offer (errorSignal "db"), .get "b"] ++ runOn 1 3 ++
      [.setClock 9]) ++
    begunAt 9 (.call (.closeIncident 1) :: requestOn 3 6)

/-- The transaction of the count has begun at 8. -/
def countedLater : List DatedEvent := begunAt 9 [.setClock 12] ++ begunAt 8 [.run 1 .ok]

theorem times_in_order_counted_later : ∃ s t : Dated,
    s.world.stores.postgres.workItems.map (fun wi => (wi.createdAt, wi.endTime, wi.updatedAt)) =
        [(3, some 9, 9)] ∧
      t.world.stores.postgres.workItems.map WorkItem.updatedAt = [8] ∧
        ∀ wi ∈ s.world.stores.postgres.workItems,
          Chain 4 s.world wi ∧ Later 4 wi t.world.stores := by
  obtain ⟨s, hs, hp⟩ := trace_of_replay (datedStep {}) (punctual 4) (start 2) closedLate
    (fun s => decide (s.world.stores.postgres.workItems.map
      (fun wi => (wi.createdAt, wi.endTime, wi.updatedAt)) = [(3, some 9, 9)])) (by decide +kernel)
  obtain ⟨t, ht, hq⟩ := trace_of_replay (datedStep {}) (punctual 4) (start 2)
    (closedLate ++ countedLater)
    (fun t => decide (t.world.stores.postgres.workItems.map WorkItem.updatedAt = [8]))
    (by decide +kernel)
  obtain ⟨hs, hlast⟩ := ht.split_at hs
  exact ⟨s, t, of_decide_eq_true hp, of_decide_eq_true hq, times_in_order hs hlast⟩

end Ims.Timeline
