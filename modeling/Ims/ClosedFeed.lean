import Ims.Incidents
import Ims.ClosedItems
import Ims.LiveFeed

namespace Ims.ClosedFeed

open Library.Text Library.Runs Library.SortedSet Library.Tables Library.Slots Time Models RcaValidator
  States PostgresRepo RedisCache Ingestion Service WorkerSteps ApiSteps ServiceSteps WorkerMoves
  WorkerFrames Rows Effects LifeCycle Requests RcaGate RequestMoves LiveFeed Incidents
open Workers (Stores Run Outcome)
open IncidentsApi (Request Pc Next Call zremNext entriesOf)

/-- All operations succeed, and requests are carried to their end. -/
def Completes : Event → Prop
  | .run _ o | .request _ o => o = .ok
  | .abortRequest _ => False
  | _ => True

instance : DecidablePred Completes
  | .run _ o | .request _ o => inferInstanceAs (Decidable (o = .ok))
  | .abortRequest _ => .isFalse id
  | .offer _ | .get _ | .getTimeout | .cancelIdle | .cancelRun _ | .call _ | .expire _
  | .burnWorkItemId | .burnRcaId | .setClock _ => .isTrue trivial

def closedAt (w : Int) (st : Stores) : Bool := (incidents st w).any fun i => i.state = .CLOSED

def attends (w : Int) (m : String) : Pc → Bool
  | .transitionRca v target wi => decide (v = w ∧ Edge wi.state target)
  | .updateState v _ _ | .feedMembers v _ _ => decide (v = w)
  | .zremMember v _ _ member rest => decide (v = w ∧ m ∈ member :: rest)
  | .transitionItem _ _ | .clearDedup _ _ _ | .fresh _ _ | .submitItem _ _ | .selectRca _ _
  | .flushRca _ _ _ | .incidentItem _ | .incidentRca _ _ => false

def attended (w : Int) (m : String) (s : World) : Bool :=
  s.requests.any fun q => !ended q.status && attends w m q.pc

/-- A run pushes an item that is closed, and no request is on its way to write
the state of the item or to remove the member. -/
def pushesClosed (s : World) : Event → Bool
  | .run k _ => (s.runs[k]?).any fun r => match r.pc with
      | .pushLiveFeed w =>
          closedAt w s.stores && !attended w (feedMember w r.sig.componentId) s
      | _ => false
  | _ => false

def FeedClean (st : Stores) : Prop :=
  ∀ wi ∈ st.postgres.workItems, wi.state = .CLOSED → ∀ m ∈ zrange st.redis.liveFeed,
    isEntryOf wi.id m = false

instance : DecidablePred FeedClean := fun st => inferInstanceAs
  (Decidable (∀ wi ∈ st.postgres.workItems, wi.state = .CLOSED → ∀ m ∈ zrange st.redis.liveFeed,
    isEntryOf wi.id m = false))

structure Loose (w : Int) (m : String) (s : World) : Prop where
  closed : closedAt w s.stores = true
  listed : m ∈ zrange s.stores.redis.liveFeed
  entry : isEntryOf w m = true
  unattended : attended w m s = false

variable {cfg : Settings} {s t : World} {e : Event} {st : Stores} {w v now : Int} {m : String}
  {q : Request} {k : Nat}

theorem attended_iff : attended w m s = true ↔
    ∃ (k : Nat) (q : Request), s.requests[k]? = some q ∧ q.status = .running ∧
      attends w m q.pc = true := by
  have hrunning : ∀ q : Request, (!ended q.status) = true ↔ q.status = .running := by
    intro q
    cases q.status <;> simp [ended]
  simp only [attended, List.any_eq_true, Bool.and_eq_true, hrunning]
  constructor
  · rintro ⟨q, hq, hrun, hattends⟩
    obtain ⟨k, hk⟩ := List.mem_iff_getElem?.mp hq
    exact ⟨k, q, hk, hrun, hattends⟩
  · rintro ⟨k, q, hk, hrun, hattends⟩
    exact ⟨q, List.mem_of_getElem? hk, hrun, hattends⟩

theorem not_attends (h : attended w m s = false) (hk : s.requests[k]? = some q)
    (hrun : q.status = .running) : attends w m q.pc = false := by
  rw [Bool.eq_false_iff] at h ⊢
  exact fun hattends => h (attended_iff.mpr ⟨k, q, hk, hrun, hattends⟩)

theorem closedAt_iff : closedAt w st = true ↔ ∃ i, incidents st w = some i ∧ i.state = .CLOSED := by
  simp [closedAt, Option.any_eq_true]

theorem entry_injective (hv : isEntryOf v m = true) (hw : isEntryOf w m = true) : v = w := by
  have hid := decodedId_of_isEntryOf hv
  rw [decodedId_of_isEntryOf hw] at hid
  exact (Option.some.inj hid).symm

/-- A request comes to attend to an item by a read of its row only. -/
theorem attends_attempt {o : Outcome} (h : attends w m (q.attempt o now st).2.pc = true) :
    attends w m q.pc = true ∨ ∃ target wi, getWorkItem st.postgres w = some wi ∧ Edge wi.state target := by
  have hmove := attempt_pcMove q o now st
  generalize q.pc = pc, (q.attempt o now st).2.pc = pc' at hmove h ⊢
  cases hmove with
  | stay => exact .inl h
  | readItem v target wi hget =>
      obtain ⟨rfl, hedge⟩ := of_decide_eq_true h
      exact .inr ⟨target, wi, hget, hedge⟩
  | decided v target wi result hresult =>
      have hv : v = w := of_decide_eq_true h
      exact .inl (decide_eq_true ⟨hv, (transition_ok hresult).1⟩)
  | closed => exact .inl h
  | scanned => exact .inl (decide_eq_true (of_decide_eq_true h).1)
  | removed v wi result member next rest =>
      obtain ⟨hv, hm⟩ := of_decide_eq_true h
      exact .inl (decide_eq_true ⟨hv, List.mem_cons_of_mem member hm⟩)
  | moved | scannedNone | removedLast | cleared | leftScan | leftRemoval | checked | selected | retried
  | readIncident => cases h

/-- A request that attends to an item goes on to do so, until the item is not
closed or the member is gone. -/
theorem attends_stays (hrun : q.status = .running) (h : attends w m q.pc = true)
    (hentry : isEntryOf w m = true) (hvalid : ValidRca st w)
    (hclosed : closedAt w (q.attempt .ok now st).1 = true)
    (hlisted : m ∈ zrange (q.attempt .ok now st).1.redis.liveFeed) :
    (q.attempt .ok now st).2.status = .running ∧ attends w m (q.attempt .ok now st).2.pc = true := by
  have hnext (members : List String) (hm : m ∈ members) (wi : WorkItem) (result : TransitionResult) :
      (q.goOn (zremNext w wi result members)).status = .running ∧
        attends w m (q.goOn (zremNext w wi result members)).pc = true := by
    cases members with
    | nil => cases hm
    | cons member rest => exact ⟨hrun, decide_eq_true ⟨rfl, hm⟩⟩
  cases hpc : q.pc with
  | transitionRca v target wi =>
      rw [hpc] at h
      obtain ⟨rfl, hedge⟩ := of_decide_eq_true h
      have hedge : Edge (WorkItemLike.mk wi.state (.utc wi.startTime)).state target := hedge
      obtain ⟨result, hresult⟩ := transition_of_edge hedge (fun _ => hvalid) now
      simp only [Request.attempt, Request.perform, hpc, hresult]
      exact ⟨hrun, decide_eq_true rfl⟩
  | updateState v wi result =>
      rw [hpc] at h
      have hv : v = w := of_decide_eq_true h
      subst hv
      obtain ⟨hstores, hq⟩ := attempt_updateState hpc now st
      rw [hstores, closedAt, incidents_written, Option.any_map] at hclosed
      obtain ⟨i, _, hstate⟩ := (Option.any_eq_true _ _).mp hclosed
      rw [hq, if_pos (show result.newState = .CLOSED from of_decide_eq_true hstate)]
      exact ⟨hrun, decide_eq_true rfl⟩
  | feedMembers v wi result =>
      rw [hpc] at h
      have hv : v = w := of_decide_eq_true h
      subst hv
      simp only [Request.attempt, Request.perform, hpc] at hlisted ⊢
      exact hnext _ (List.mem_filter.mpr ⟨hlisted, hentry⟩) wi result
  | zremMember v wi result member rest =>
      rw [hpc] at h
      obtain ⟨rfl, hm⟩ := of_decide_eq_true h
      simp only [Request.attempt, Request.perform, hpc] at hlisted ⊢
      rcases List.mem_cons.mp hm with rfl | hm
      · exact absurd rfl (zrange_zrem.mp hlisted).2
      · exact hnext rest hm wi result
  | _ =>
      rw [hpc] at h
      cases h

theorem validRca_of_closed (hgate : GateWf s) (h : closedAt w s.stores = true) : ValidRca s.stores w := by
  obtain ⟨i, hi, hstate⟩ := closedAt_iff.mp h
  obtain ⟨wi, hget, rfl⟩ := getWorkItem_of_incident hi
  obtain ⟨hwi, rfl⟩ := item_of_get hget
  obtain ⟨row, hrow⟩ := getRca_of_hasRca (closed_hasRca hgate wi hwi hstate)
  rw [ValidRca, hrow]
  have hmem : row ∈ s.stores.postgres.rca := by
    unfold getRca at hrow
    exact List.mem_of_find?_eq_some hrow
  exact hgate.rca.valid row hmem

theorem state_of_closed (h : closedAt w st = true) {wi : WorkItem}
    (hget : getWorkItem st.postgres w = some wi) : wi.state = .CLOSED := by
  obtain ⟨i, hi, hstate⟩ := closedAt_iff.mp h
  rw [incidents, hget] at hi
  cases hi
  exact hstate

theorem closedAt_update {result : TransitionResult} {wi : WorkItem} (hpc : q.pc = .updateState v wi result)
    (hv : v ≠ w) : closedAt w (q.attempt .ok now st).1 = closedAt w st := by
  rw [(attempt_updateState hpc now st).1, closedAt, incidents_unwritten st (Ne.symm hv), closedAt]

/-- A closed item stays closed unless a request attends to it. -/
theorem closedAt_stays (hs : step cfg s e = some t) (he : Completes e) (h : closedAt w s.stores = true)
    (hun : attended w m s = false) : closedAt w t.stores = true := by
  rcases update_or_keep hs with ⟨k, o, q, v, wi, result, rfl, hk, hrun, hpc, hst⟩ | hkeep
  · cases (he : o = .ok)
    have hnot := not_attends hun hk hrun
    rw [hpc] at hnot
    have hv : v ≠ w := of_decide_eq_false hnot
    rw [hst, closedAt_update hpc hv]
    exact h
  · obtain ⟨i, hi, hstate⟩ := closedAt_iff.mp h
    exact closedAt_iff.mpr ⟨i, hkeep.kept w i hi, hstate⟩

/-- An item is closed by a request, which attends to it then. -/
theorem closedAt_back (hgate : GateWf t) (hs : step cfg s e = some t) (he : Completes e)
    (h : closedAt w t.stores = true) (hun : attended w m t = false) : closedAt w s.stores = true := by
  rcases update_or_keep hs with ⟨k, o, q, v, wi, result, rfl, hk, hrun, hpc, hst⟩ | hkeep
  · cases (he : o = .ok)
    by_cases hv : v = w
    · subst hv
      obtain ⟨hstores, hq⟩ := attempt_updateState hpc s.clock s.stores
      rw [hst, hstores, closedAt, incidents_written, Option.any_map] at h
      obtain ⟨i, _, hstate⟩ := (Option.any_eq_true _ _).mp h
      have hscan : (q.attempt .ok s.clock s.stores).2 = { q with pc := .feedMembers v wi result } := by
        rw [hq, if_pos (show result.newState = .CLOSED from of_decide_eq_true hstate)]
      obtain ⟨_, rfl⟩ := own_request hs hk
      have hnot := not_attends hun (List.getElem?_set_self (lt_of_slot hk)) (by rw [hscan]; exact hrun)
      rw [hscan] at hnot
      exact absurd rfl (of_decide_eq_false hnot)
    · rwa [hst, closedAt_update hpc hv] at h
  · obtain ⟨i, hi, hstate⟩ := closedAt_iff.mp h
    rcases hkeep.fresh w i hi with hold | hnone
    · exact closedAt_iff.mpr ⟨i, hold, hstate⟩
    · obtain ⟨wi, hget, rfl⟩ := getWorkItem_of_incident hi
      exact absurd hnone ((hgate.items wi (item_of_get hget).1).2 hstate).1

theorem unattended_step (hclosed : closedAt w s.stores = true) (hs : step cfg s e = some t)
    (h : attended w m s = false) : attended w m t = false := by
  rw [Bool.eq_false_iff] at h ⊢
  intro hattended
  apply h
  obtain ⟨k, q, hk, hrun, hattends⟩ := attended_iff.mp hattended
  cases step_requestMove hs hk with
  | new c => cases c <;> cases hattends
  | other _ hsame => exact attended_iff.mpr ⟨k, q, hsame, hrun, hattends⟩
  | attempt p o hsame hp =>
      rcases attends_attempt hattends with hattends | ⟨target, wi, hget, hedge⟩
      · exact attended_iff.mpr ⟨k, p, hsame, hp, hattends⟩
      · rw [state_of_closed hclosed hget] at hedge
        cases hedge
  | abort => cases hrun

theorem attended_stays (hgate : GateWf s) (hs : step cfg s e = some t) (he : Completes e)
    (hold : closedAt w s.stores = true) (hnew : closedAt w t.stores = true)
    (hentry : isEntryOf w m = true) (hlisted : m ∈ zrange t.stores.redis.liveFeed)
    (h : attended w m s = true) : attended w m t = true := by
  obtain ⟨k, q, hk, hrun, hattends⟩ := attended_iff.mp h
  obtain ⟨q', hk', hnext⟩ := step_requestNext hs hk
  cases hnext with
  | other => exact attended_iff.mpr ⟨k, q, hk', hrun, hattends⟩
  | attempt o _ hevent hst =>
      subst hevent
      cases (he : o = .ok)
      rw [hst] at hnew hlisted
      obtain ⟨hrun', hattends'⟩ :=
        attends_stays hrun hattends hentry (validRca_of_closed hgate hold) hnew hlisted
      exact attended_iff.mpr ⟨k, _, hk', hrun', hattends'⟩
  | abort _ hevent =>
      subst hevent
      cases he

theorem clean_of_completes (he : Completes e) : Clean e := by
  apply clean_of_run
  rintro k o rfl
  cases (he : o = .ok)
  trivial

/-- A member that nothing attends to is removed by nothing. -/
theorem Loose.step (h : Loose w m s) (hremoval : RemovalWf s) (hs : step cfg s e = some t)
    (he : Completes e) : Loose w m t := by
  refine ⟨closedAt_stays hs he h.closed h.unattended, ?_, h.entry, ?_⟩
  · have hmove := step_feedMove hs (clean_of_completes he)
    generalize t.stores.redis.liveFeed = feed at hmove
    cases hmove with
    | keep => exact h.listed
    | push => exact zrange_zadd_of (.inr h.listed)
    | @remove k o q v wi result member rest hk _ hpc =>
        refine zrange_zrem.mpr ⟨h.listed, ?_⟩
        rintro rfl
        have hentry := hremoval q (List.mem_of_getElem? hk) v wi result m rest hpc m List.mem_cons_self
        have hnot := not_attends h.unattended hk (own_request hs hk).1
        rw [hpc] at hnot
        exact of_decide_eq_false hnot ⟨entry_injective hentry h.entry, List.mem_cons_self⟩
  · exact unattended_step h.closed hs h.unattended

/-- The push of a closed item that nothing attends to leaves its member behind. -/
theorem loose_of_push (hs : step cfg s e = some t) (he : Completes e) (h : pushesClosed s e = true) :
    ∃ w m, Loose w m t := by
  cases e with
  | run k o =>
      have ho : o = .ok := he
      subst ho
      obtain ⟨r, hk, h⟩ := (Option.any_eq_true _ _).mp h
      split at h
      · next w hpc =>
        obtain ⟨hclosed, hun⟩ := Bool.and_eq_true_iff.mp h
        rw [Bool.not_eq_true'] at hun
        refine ⟨w, feedMember w r.sig.componentId, closedAt_stays hs he hclosed hun, ?_,
          isEntryOf_feedMember.mpr rfl, unattended_step hclosed hs hun⟩
        rw [(own_run hs hk (by simp [hpc])).2.1]
        simp only [Run.attempt, Run.perform, hpc]
        exact zrange_zadd_of (.inl rfl)
      · cases h
  | _ => cases h

theorem loose_back (hgate : GateWf s) (hs : step cfg s e = some t) (he : Completes e) (h : Loose w m t) :
    Loose w m s ∨ pushesClosed s e = true := by
  have hclosed : closedAt w s.stores = true :=
    closedAt_back (gateWf_step hgate hs) hs he h.closed h.unattended
  have hun : attended w m s = false := by
    have hstill := h.unattended
    rw [Bool.eq_false_iff] at hstill ⊢
    exact fun hattended => hstill (attended_stays hgate hs he hclosed h.closed h.entry h.listed hattended)
  have hmove := step_feedMove hs (clean_of_completes he)
  have hlisted := h.listed
  generalize t.stores.redis.liveFeed = feed at hmove hlisted
  cases hmove with
  | keep => exact .inl ⟨hclosed, hlisted, h.entry, hun⟩
  | @push k r v hk hpc =>
      rcases zrange_zadd hlisted with rfl | hlisted
      · have hv : w = v := isEntryOf_feedMember.mp h.entry
        subst hv
        refine .inr ((Option.any_eq_true _ _).mpr ⟨r, hk, ?_⟩)
        simp only [hpc, hclosed, hun, Bool.not_false, Bool.and_self]
      · exact .inl ⟨hclosed, hlisted, h.entry, hun⟩
  | remove => exact .inl ⟨hclosed, (zrange_zrem.mp hlisted).1, h.entry, hun⟩

theorem loose_step_iff (hgate : GateWf s) (hremoval : RemovalWf s) (he : Completes e)
    (hs : step cfg s e = some t) :
    (∀ w m, ¬ Loose w m t) ↔ (∀ w m, ¬ Loose w m s) ∧ pushesClosed s e = false := by
  constructor
  · intro hnone
    refine ⟨fun w m h => hnone w m (h.step hremoval hs he), ?_⟩
    rw [Bool.eq_false_iff]
    intro hpush
    obtain ⟨w, m, h⟩ := loose_of_push hs he hpush
    exact hnone w m h
  · rintro ⟨hnone, hpush⟩ w m h
    rcases loose_back hgate hs he h with hold | hpush'
    · exact hnone w m hold
    · rw [hpush] at hpush'
      cases hpush'

/-- With no request in flight, a closed item in the feed is one that nothing
attends to. -/
theorem feedClean_iff (hgate : GateWf s) (hidle : ∀ q ∈ s.requests, q.status ≠ .running) :
    FeedClean s.stores ↔ ∀ w m, ¬ Loose w m s := by
  constructor
  · intro hclean w m h
    obtain ⟨i, hi, hstate⟩ := closedAt_iff.mp h.closed
    obtain ⟨wi, hget, rfl⟩ := getWorkItem_of_incident hi
    obtain ⟨hwi, rfl⟩ := item_of_get hget
    have hentry := hclean wi hwi hstate m h.listed
    rw [h.entry] at hentry
    cases hentry
  · intro hnone wi hwi hstate m hm
    rw [Bool.eq_false_iff]
    intro hentry
    refine hnone wi.id m ⟨?_, hm, hentry, ?_⟩
    · exact closedAt_iff.mpr ⟨incident wi, incidents_of_mem hgate.rows.ids hwi, hstate⟩
    · rw [Bool.eq_false_iff]
      intro hattended
      obtain ⟨k, q, hk, hrun, _⟩ := attended_iff.mp hattended
      exact hidle q (List.mem_of_getElem? hk) hrun

/-- Where all operations succeed, closed items are gone from the feed at rest
exactly if no run has pushed one that no request in flight attended to. -/
theorem closed_items_leave_feed {n : Nat} {es : List Event}
    (h : Trace (step cfg) (fun _ e => Completes e) (init n) es s)
    (hidle : ∀ q ∈ s.requests, q.status ≠ .running) :
    FeedClean s.stores ↔
      Trace (step cfg) (fun s e => Completes e ∧ pushesClosed s e = false) (init n) es s := by
  have hwf := h.with_invariant (fun s => GateWf s ∧ RemovalWf s) ⟨gateWf_init n, removalWf_init n⟩
    fun _ _ _ hwf _ hs => ⟨gateWf_step hwf.1 hs, removalWf_step hwf.2 hs⟩
  have hgood := hwf.good_iff (fun s => ∀ w m, ¬ Loose w m s) (fun s e => pushesClosed s e = false)
    (fun w m hloose => absurd hloose.listed List.not_mem_nil)
    fun s e t hok hs => loose_step_iff hok.1.1 hok.1.2 hok.2 hs
  rw [feedClean_iff (gateWf_trace h) hidle, hgood]
  constructor
  · exact fun htrace => htrace.mono fun s e hok => ⟨hok.1.2, hok.2⟩
  · exact fun htrace => (hwf.and htrace).mono fun s e hok => ⟨hok.1, hok.2.2⟩

theorem closed_items_leave_feed_after_close :
    ∃ s : World, s.stores.postgres.workItems.map WorkItem.state = [.CLOSED] ∧ FeedClean s.stores := by
  obtain ⟨s, hs, hp⟩ := trace_of_replay (step {}) (fun s e => Completes e ∧ pushesClosed s e = false)
    (init 1) (resolved ++ [.call (.closeIncident 1)] ++ requestOn 3 7)
    (fun s => decide (s.stores.postgres.workItems.map WorkItem.state = [.CLOSED] ∧
      ∀ q ∈ s.requests, q.status ≠ .running)) (by decide +kernel)
  obtain ⟨hstates, hidle⟩ := of_decide_eq_true hp
  exact ⟨s, hstates, (closed_items_leave_feed (hs.mono fun _ _ he => he.1) hidle).mpr hs⟩

def pushedAfterClose : List Event :=
  [.offer (errorSignal "db"), .get "a"] ++ runOn 0 3 ++
    [.call (.transitionIncident 1 .INVESTIGATING)] ++ requestOn 0 4 ++
    [.call (.transitionIncident 1 .RESOLVED)] ++ requestOn 1 4 ++
    [.call (.submitRca 1 rollbackRca)] ++ requestOn 2 3 ++ [.call (.closeIncident 1)] ++
    requestOn 3 6 ++ runOn 0 7

theorem closed_item_stays_in_feed :
    ∃ s, Trace (step {}) (fun _ e => Completes e) (init 1) pushedAfterClose s ∧
      (∀ r ∈ s.runs, r.status ≠ .running) ∧ (∀ q ∈ s.requests, q.status ≠ .running) ∧
        ¬ FeedClean s.stores := by
  obtain ⟨s, hs, hp⟩ := trace_of_replay (step {}) (fun _ e => Completes e) (init 1) pushedAfterClose
    (fun s => decide ((∀ r ∈ s.runs, r.status ≠ .running) ∧ (∀ q ∈ s.requests, q.status ≠ .running) ∧
      ¬ FeedClean s.stores)) (by decide +kernel)
  exact ⟨s, hs, of_decide_eq_true hp⟩

end Ims.ClosedFeed
