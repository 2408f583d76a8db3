import Ims.LifeCycle

namespace Ims.Requests

open Library.Text Library.Runs Library.Tables Library.Slots Time Models RcaValidator States PostgresRepo
  RedisCache Ingestion Service WorkerSteps ApiSteps ServiceSteps WorkerMoves WorkerFrames Rows LifeCycle
open Workers (Stores Run Outcome)
open IncidentsApi (Request Pc Next Response Call zremNext entriesOf)

def HasRca (st : Stores) (w : Int) : Prop := ∃ row ∈ st.postgres.rca, row.workItemId = w

/-- Rows are never deleted, and keep the columns that no update writes. -/
structure Grows (st st' : Stores) : Prop where
  items : ∀ wi ∈ origins st, wi ∈ origins st'
  rca : ∀ w, HasRca st w → HasRca st' w

theorem getRca_none {st : Stores} {w : Int} : getRca st.postgres w = none ↔ ¬ HasRca st w := by
  simp [getRca, HasRca, List.find?_eq_none]

theorem hasRca_of_get {st : Stores} {w : Int} {row : RCA} (h : getRca st.postgres w = some row) :
    HasRca st w := by
  unfold getRca at h
  exact ⟨row, List.mem_of_find?_eq_some h, by simpa using List.find?_some h⟩

theorem getRca_of_hasRca {st : Stores} {w : Int} (h : HasRca st w) :
    ∃ row, getRca st.postgres w = some row := by
  cases hget : getRca st.postgres w with
  | none => exact absurd h (getRca_none.mp hget)
  | some row => exact ⟨row, rfl⟩

theorem item_of_get {st : Stores} {w : Int} {wi : WorkItem} (h : getWorkItem st.postgres w = some wi) :
    wi ∈ st.postgres.workItems ∧ wi.id = w := by
  unfold getWorkItem at h
  exact ⟨List.mem_of_find?_eq_some h, by simpa using List.find?_some h⟩

theorem hasRca_flush {st : Stores} {w now : Int} {loaded : Option RCA} {body : RCAIn} {pg : Postgres}
    {row : RCA} (h : flushRca st.postgres w loaded body now = .ok (pg, row)) (v : Int)
    (hv : HasRca st v) : HasRca { st with postgres := pg } v := by
  obtain ⟨old, hold, hid⟩ := hv
  rcases (flushRca_ok h).2 with ⟨_, _, _, rfl⟩ | ⟨found, _, _, rfl⟩
  · exact ⟨old, List.mem_append_left _ hold, hid⟩
  · refine ⟨_, mem_updateWhere.mpr ⟨old, hold, rfl⟩, ?_⟩
    split
    · exact hid
    · exact hid

theorem runStep_rca {now : Int} {st st' : Stores} {r r' : Run} (h : RunStep now st r st' r') :
    st'.postgres.rca = st.postgres.rca ∧ st'.postgres.rcaSeq = st.postgres.rcaSeq := by
  cases h <;> exact ⟨rfl, rfl⟩

theorem Grows.refl (st : Stores) : Grows st st := ⟨fun _ h => h, fun _ h => h⟩

theorem grows_effect {now : Int} {st st' : Stores} {q : Request} (h : RequestEffect now st q st') :
    Grows st st' := by
  refine ⟨fun wi hwi => by rwa [(tame_of_effect h).origins], fun w hw => ?_⟩
  cases h with
  | flushRca v body loaded postgres row _ hflush => exact hasRca_flush hflush w hw
  | _ => exact hw

theorem step_grows {cfg : Settings} {s t : World} {e : Event} (h : step cfg s e = some t) :
    Grows s.stores t.stores := by
  have hmove := step_move h
  generalize t.stores = st, t.runs = runs, t.requests = requests at hmove
  cases hmove with
  | run o hk _ _ =>
      obtain ⟨r', hstep⟩ := attempt_stores s.clock s.stores _ o
      refine ⟨fun wi hwi => ?_, fun w hw => ?_⟩
      · rcases runStep_items hstep with ⟨_, _, _, hitems, _⟩ | ⟨horigins, _⟩
        · rw [origins, hitems, List.map_append]
          exact List.mem_append_left _ hwi
        · rwa [horigins]
      · rwa [HasRca, (runStep_rca hstep).1]
  | request o _ _ => exact grows_effect (attempt_effect _ _ _ o)
  | quiet | get | finish | cancelRun | abortRequest | call => exact .refl _
  | expire | burnWorkItemId | burnRcaId => exact ⟨fun _ h => h, fun _ h => h⟩

inductive RcaMove (s : World) (e : Event) (pg : Postgres) : Prop
  | keep (hrca : pg.rca = s.stores.postgres.rca) (hseq : s.stores.postgres.rcaSeq ≤ pg.rcaSeq)
  | flush (k o q w body loaded row) (he : e = .request k o) (hk : s.requests[k]? = some q)
      (hpc : q.pc = .flushRca w body loaded)
      (hflush : flushRca s.stores.postgres w loaded body s.clock = .ok (pg, row))

theorem step_rcaMove {cfg : Settings} {s t : World} {e : Event} (h : step cfg s e = some t) :
    RcaMove s e t.stores.postgres := by
  have hmove := step_move h
  generalize t.stores = st, t.runs = runs, t.requests = requests at hmove
  cases hmove with
  | run o _ _ _ =>
      obtain ⟨_, hstep⟩ := attempt_stores s.clock s.stores _ o
      exact .keep (runStep_rca hstep).1 (le_of_eq (runStep_rca hstep).2.symm)
  | @request k q o hk _ =>
      have heffect := attempt_effect s.clock s.stores q o
      generalize (q.attempt o s.clock s.stores).1 = st' at heffect
      cases heffect with
      | flushRca w body loaded postgres row hpc hflush =>
          exact .flush k o q w body loaded row rfl hk hpc hflush
      | none | updateState | zrem | clearDedup => exact .keep rfl (le_refl _)
  | burnRcaId => exact .keep rfl (by simp)
  | quiet | get | finish | cancelRun | abortRequest | call | expire | burnWorkItemId =>
      exact .keep rfl (le_refl _)

def Snapshot (st : Stores) (w : Int) (wi : WorkItem) : Prop := wi.id = w ∧ origin wi ∈ origins st

def Decided (st : Stores) (w : Int) (wi : WorkItem) (result : TransitionResult) : Prop :=
  Edge wi.state result.newState ∧
    (result.newState ≠ .CLOSED ∧ result.endTime = none ∧ result.mttrSeconds = none ∨
      result.newState = .CLOSED ∧ HasRca st w ∧ ∃ stop, result.endTime = some stop ∧
        result.mttrSeconds = some (stop - wi.startTime))

def PcWf (st : Stores) : Pc → Prop
  | .transitionRca w _ wi => Snapshot st w wi
  | .updateState w wi result => Snapshot st w wi ∧ Decided st w wi result
  | .feedMembers w wi result | .zremMember w wi result _ _ | .clearDedup w wi result =>
      Snapshot st w wi ∧ result.newState = .CLOSED
  | .incidentRca w wi => Snapshot st w wi ∧ (wi.state = .CLOSED → HasRca st w)
  | .transitionItem _ _ | .fresh _ _ | .submitItem _ _ | .selectRca _ _ | .flushRca _ _ _
  | .incidentItem _ => True

def ResponseWf : Response → Prop
  | .incident out => out.workItem.state = .CLOSED → out.rca ≠ none
  | .workItem _ | .rca _ | .http _ => True

def RequestWf (st : Stores) (q : Request) : Prop :=
  PcWf st q.pc ∧ ∀ r, q.status = .responded r → ResponseWf r

def NextWf (st : Stores) : Next → Prop
  | .pc pc => PcWf st pc
  | .respond r => ResponseWf r

variable {st st' : Stores} {w : Int} {wi : WorkItem} {q : Request}

theorem Snapshot.grow (h : Snapshot st w wi) (hgrow : Grows st st') : Snapshot st' w wi :=
  ⟨h.1, hgrow.items _ h.2⟩

theorem snapshot_of_get (h : getWorkItem st.postgres w = some wi) : Snapshot st w wi :=
  ⟨(item_of_get h).2, List.mem_map_of_mem (item_of_get h).1⟩

theorem PcWf.grow {pc : Pc} (h : PcWf st pc) (hgrow : Grows st st') : PcWf st' pc := by
  cases pc with
  | transitionRca w target wi => exact Snapshot.grow h hgrow
  | updateState w wi result =>
      obtain ⟨hsnap, hedge, hplain | ⟨hclosed, hrca, htimes⟩⟩ := h
      · exact ⟨hsnap.grow hgrow, hedge, .inl hplain⟩
      · exact ⟨hsnap.grow hgrow, hedge, .inr ⟨hclosed, hgrow.rca _ hrca, htimes⟩⟩
  | feedMembers | zremMember | clearDedup => exact ⟨h.1.grow hgrow, h.2⟩
  | incidentRca w wi => exact ⟨h.1.grow hgrow, fun hclosed => hgrow.rca _ (h.2 hclosed)⟩
  | transitionItem | fresh | submitItem | selectRca | flushRca | incidentItem => trivial

theorem decided_of_transition {target : WorkItemState} {result : TransitionResult} {now : Int}
    (h : transition ⟨wi.state, .utc wi.startTime⟩ target ((getRca st.postgres w).map ofRow) now =
      .ok result) : Decided st w wi result := by
  obtain ⟨hedge, rfl, ⟨hopen, hend, hmttr⟩ | ⟨hclosed, hvalid, hend, hmttr⟩⟩ := transition_ok h
  · exact ⟨hedge, .inl ⟨hopen, hend, hmttr⟩⟩
  · refine ⟨hedge, .inr ⟨hclosed, ?_, now, hend, by rw [hmttr, instant_utc]⟩⟩
    cases hget : getRca st.postgres w with
    | none =>
        rw [hget] at hvalid
        cases hvalid
    | some row => exact hasRca_of_get hget

theorem zremNext_wf (hsnap : Snapshot st w wi) {result : TransitionResult}
    (hclosed : result.newState = .CLOSED) (members : List String) :
    NextWf st (zremNext w wi result members) := by
  cases members with
  | nil => exact ⟨hsnap, hclosed⟩
  | cons member rest => exact ⟨hsnap, hclosed⟩

theorem perform_nextWf (hq : PcWf st q.pc)
    (hitems : ∀ wi ∈ st.postgres.workItems, wi.state = .CLOSED → HasRca st wi.id) {now : Int}
    {next : Next} (h : (q.perform now st).2 = .ok next) : NextWf st next := by
  have hgo := perform_goesOn h
  generalize q.pc = pc at hq hgo
  cases hgo with
  | readItem w target wi hget => exact snapshot_of_get hget
  | decided w target wi result hresult => exact ⟨hq, decided_of_transition hresult⟩
  | closed w wi result hstate => exact ⟨hq.1, hstate⟩
  | scanned w wi result members => exact zremNext_wf hq.1 hq.2 members
  | removed w wi result member rest => exact zremNext_wf hq.1 hq.2 rest
  | readIncident w wi hget =>
      obtain ⟨hmem, hid⟩ := item_of_get hget
      exact ⟨snapshot_of_get hget, fun hclosed => hid ▸ hitems wi hmem hclosed⟩
  | shown w wi =>
      intro hclosed hnone
      exact getRca_none.mp hnone (hq.2 hclosed)
  | answered pc r hr =>
      cases r with
      | incident out => exact absurd rfl (hr out)
      | workItem | rca | http => trivial
  | moved | cleared | checked | selected => trivial

theorem handle_cases (q : Request) (e : Exc) :
    ((q.handle e).pc = q.pc ∨ (∃ w result, (q.handle e).pc = .fresh w result) ∨
        ∃ w body, (q.handle e).pc = .selectRca w body) ∧
      ((q.handle e).status = q.status ∨ (q.handle e).status = .raised e) := by
  cases hpc : q.pc with
  | updateState | selectRca | flushRca =>
      simp only [Request.handle, hpc, Request.retryOr]
      split <;> simp
  | feedMembers | zremMember | clearDedup => simp [Request.handle, hpc, Request.goOn]
  | transitionItem | transitionRca | fresh | submitItem | incidentItem | incidentRca =>
      simp [Request.handle, hpc]

theorem handle_requestWf (hq : PcWf st q.pc) (hrun : q.status = .running) (e : Exc) :
    RequestWf st (q.handle e) := by
  obtain ⟨hpc, hstatus⟩ := handle_cases q e
  refine ⟨?_, fun r hr => ?_⟩
  · rcases hpc with hpc | ⟨w, result, hpc⟩ | ⟨w, body, hpc⟩
    · rwa [hpc]
    · rw [hpc]
      trivial
    · rw [hpc]
      trivial
  · rcases hstatus with hstatus | hstatus
    · rw [hstatus, hrun] at hr
      cases hr
    · rw [hstatus] at hr
      cases hr

theorem goOn_requestWf (hrun : q.status = .running) (hq : PcWf st q.pc) {next : Next}
    (h : NextWf st next) : RequestWf st (q.goOn next) := by
  cases next with
  | pc pc =>
      refine ⟨h, fun r hr => ?_⟩
      simp only [Request.goOn, hrun] at hr
      cases hr
  | respond r =>
      refine ⟨hq, fun r' hr => ?_⟩
      cases hr
      exact h

theorem attempt_requestWf (hq : PcWf st q.pc) (hrun : q.status = .running)
    (hitems : ∀ wi ∈ st.postgres.workItems, wi.state = .CLOSED → HasRca st wi.id) (now : Int)
    (o : Outcome) : RequestWf (q.attempt o now st).1 (q.attempt o now st).2 := by
  have hgrow := grows_effect (attempt_effect now st q o)
  cases o with
  | fail e => exact handle_requestWf hq hrun e
  | lost e => exact handle_requestWf (hq.grow hgrow) hrun e
  | ok =>
      simp only [Request.attempt] at hgrow ⊢
      cases hreply : (q.perform now st).2 with
      | error e => exact handle_requestWf (hq.grow hgrow) hrun e
      | ok next =>
          refine goOn_requestWf hrun (hq.grow hgrow) ?_
          have hnext := perform_nextWf hq hitems hreply
          cases next with
          | pc pc => exact PcWf.grow hnext hgrow
          | respond r => exact hnext

theorem RequestWf.grow (h : RequestWf st q) (hgrow : Grows st st') : RequestWf st' q :=
  ⟨h.1.grow hgrow, h.2⟩

theorem entry_wf (st : Stores) (c : Call) : RequestWf st { pc := c.entry } := by
  refine ⟨?_, fun r hr => by cases hr⟩
  cases c <;> trivial

variable {cfg : Settings} {s t : World} {e : Event}

theorem requestWf_step (h : ∀ q ∈ s.requests, RequestWf s.stores q)
    (hitems : ∀ wi ∈ s.stores.postgres.workItems, wi.state = .CLOSED → HasRca s.stores wi.id)
    (hs : step cfg s e = some t) : ∀ q ∈ t.requests, RequestWf t.stores q := by
  have hgrow := step_grows hs
  have hmove := step_move hs
  generalize t.stores = st, t.runs = runs, t.requests = requests at hgrow hmove
  have hold : ∀ q ∈ s.requests, RequestWf st q := fun q hq => (h q hq).grow hgrow
  cases hmove with
  | request o hk hrun =>
      exact forall_set hold (attempt_requestWf (h _ (List.mem_of_getElem? hk)).1 hrun hitems _ o)
  | abortRequest hk hrun =>
      have hq := (hold _ (List.mem_of_getElem? hk)).1
      exact forall_set hold ⟨hq, fun r hr => by cases hr⟩
  | call c =>
      exact forall_push hold (entry_wf _ c)
  | _ => exact hold

def readItem : Pc → Option WorkItem
  | .transitionRca _ _ wi | .updateState _ wi _ => some wi
  | .transitionItem _ _ | .feedMembers _ _ _ | .zremMember _ _ _ _ _ | .clearDedup _ _ _ | .fresh _ _
  | .submitItem _ _ | .selectRca _ _ | .flushRca _ _ _ | .incidentItem _ | .incidentRca _ _ => none

theorem attempt_readItem {now : Int} {o : Outcome} (h : readItem (q.attempt o now st).2.pc = some wi) :
    readItem q.pc = some wi ∨ wi ∈ st.postgres.workItems := by
  have hmove := attempt_pcMove q o now st
  generalize q.pc = pc, (q.attempt o now st).2.pc = pc' at hmove h ⊢
  cases hmove with
  | stay => exact .inl h
  | readItem w target old hget =>
      cases h
      exact .inr (item_of_get hget).1
  | decided => exact .inl h
  | closed | moved | scanned | scannedNone | removed | removedLast | cleared | leftScan | leftRemoval
  | checked | selected | retried | readIncident => cases h

end Ims.Requests
