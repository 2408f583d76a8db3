import Ims.RcaGate
import Ims.RequestMoves

namespace Ims.Incidents

open Library.Tables Library.Slots Time Models RcaValidator States PostgresRepo Ingestion Service WorkerSteps
  ApiSteps ServiceSteps WorkerMoves Rows LifeCycle RequestMoves
open Workers (Stores Run Outcome)
open IncidentsApi (Request Pc transitionException HTTPException)

structure Incident where
  state : WorkItemState
  startTime : Int
  endTime : Option Int
  mttrSeconds : Option Int

/-- The life cycle of an incident. Only the edge to CLOSED asks for an RCA and
sets the times. -/
inductive Advances (valid : Prop) (i : Incident) : WorkItemState → Incident → Prop
  | move (target) (hedge : Edge i.state target) (hopen : target ≠ .CLOSED) :
      Advances valid i target { i with state := target }
  | close (stop) (hedge : Edge i.state .CLOSED) (hvalid : valid) :
      Advances valid i .CLOSED { i with
        state := .CLOSED, endTime := some stop, mttrSeconds := some (stop - i.startTime) }

def incident (wi : WorkItem) : Incident := ⟨wi.state, wi.startTime, wi.endTime, wi.mttrSeconds⟩

def incidents (st : Stores) (w : Int) : Option Incident := (getWorkItem st.postgres w).map incident

def ValidRca (st : Stores) (w : Int) : Prop := validate ((getRca st.postgres w).map ofRow) = .ok ()

def Legal (st : Stores) (w : Int) (target : WorkItemState) : Prop :=
  ∃ i, incidents st w = some i ∧ Edge i.state target ∧ (target = .CLOSED → ValidRca st w)

variable {cfg : Settings} {s t : World} {e : Event} {st st' : Stores} {w v now : Int}
  {target : WorkItemState} {wi : WorkItem} {result : TransitionResult} {q : Request}

theorem incidents_lives (st : Stores) (v : Int) :
    incidents st v = ((lives st).find? fun wi => wi.id = v).map incident := by
  rw [lives, List.find?_map, Option.map_map, incidents, getWorkItem]
  rfl

theorem incidents_of_mem (hids : (st.postgres.workItems.map WorkItem.id).Nodup)
    (hwi : wi ∈ st.postgres.workItems) : incidents st wi.id = some (incident wi) := by
  rw [incidents, getWorkItem, find?_key hids hwi]
  rfl

structure KeepsIncidents (st st' : Stores) : Prop where
  kept : ∀ v i, incidents st v = some i → incidents st' v = some i
  fresh : ∀ v i, incidents st' v = some i → incidents st v = some i ∨ i.endTime = none

theorem KeepsIncidents.of_lives (h : lives st' = lives st) : KeepsIncidents st st' := by
  have heq : incidents st' = incidents st := by
    funext v
    rw [incidents_lives, incidents_lives, h]
  exact ⟨fun v i hi => by rwa [heq], fun v i hi => .inl (by rwa [heq] at hi)⟩

theorem KeepsIncidents.of_create {sig : SignalIn} {id now : Int}
    (h : lives st' = lives st ++ [newWorkItem sig id now]) : KeepsIncidents st st' := by
  constructor
  · intro v i hi
    rw [incidents_lives] at hi
    obtain ⟨wi, hfind, hwi⟩ := Option.map_eq_some_iff.mp hi
    rw [incidents_lives, h, List.find?_append, hfind]
    exact congrArg some hwi
  · intro v i hi
    rw [incidents_lives, h, List.find?_append] at hi
    rw [incidents_lives]
    cases hfind : (lives st).find? fun wi => wi.id = v with
    | some wi =>
        rw [hfind] at hi
        exact .inl hi
    | none =>
        rw [hfind, Option.none_or] at hi
        obtain ⟨wi, hnew, rfl⟩ := Option.map_eq_some_iff.mp hi
        cases List.mem_singleton.mp (List.mem_of_find?_eq_some hnew)
        exact .inr rfl

theorem step_keepsIncidents (hs : step cfg s e = some t)
    (he : ∀ k o q w wi result, e = .request k o → s.requests[k]? = some q →
      q.pc ≠ .updateState w wi result) : KeepsIncidents s.stores t.stores := by
  have hmove := step_lifeMove hs
  generalize hrows : lives t.stores = rows at hmove
  cases hmove with
  | keep => exact .of_lives hrows
  | create _ => exact .of_create hrows
  | update w wi result hk _ hpc => exact absurd hpc (he _ _ _ w wi result rfl hk)

theorem attempt_updateState (hpc : q.pc = .updateState w wi result) (now : Int) (st : Stores) :
    (q.attempt .ok now st).1 = { st with
      postgres := updateState st.postgres w result.newState result.endTime result.mttrSeconds now } ∧
      (q.attempt .ok now st).2 = { q with
        pc := if result.newState = .CLOSED then .feedMembers w wi result else .fresh w result } := by
  simp only [Request.attempt, Request.perform, hpc]
  exact ⟨trivial, rfl⟩

/-- A step updates the item of a request, or it leaves all incidents as they are. -/
theorem update_or_keep (hs : step cfg s e = some t) :
    (∃ k o q w wi result, e = .request k o ∧ s.requests[k]? = some q ∧ q.status = .running ∧
        q.pc = .updateState w wi result ∧ t.stores = (q.attempt o s.clock s.stores).1) ∨
      KeepsIncidents s.stores t.stores := by
  by_cases hupdate : ∃ k o q w wi result, e = .request k o ∧ s.requests[k]? = some q ∧
      q.pc = .updateState w wi result
  · obtain ⟨k, o, q, w, wi, result, rfl, hk, hpc⟩ := hupdate
    obtain ⟨hrun, rfl⟩ := own_request hs hk
    exact .inl ⟨k, o, q, w, wi, result, rfl, hk, hrun, hpc, rfl⟩
  · refine .inr (step_keepsIncidents hs fun k o q w wi result hevent hk hpc => ?_)
    exact hupdate ⟨k, o, q, w, wi, result, hevent, hk, hpc⟩

def write (result : TransitionResult) (i : Incident) : Incident :=
  { i with
    state := result.newState
    endTime := result.endTime.or i.endTime
    mttrSeconds := result.mttrSeconds.or i.mttrSeconds }

theorem incidents_updateState (st : Stores) (w : Int) (result : TransitionResult) (now : Int) :
    incidents { st with
      postgres := updateState st.postgres w result.newState result.endTime result.mttrSeconds now } =
      fun v => if v = w then (incidents st w).map (write result) else incidents st v := by
  funext v
  have hkey : ∀ row : WorkItem, decide ((applied result row).id = v) = decide (row.id = v) :=
    fun _ => rfl
  rw [incidents_lives, lives_updateState, find?_updateWhere hkey, Option.map_map]
  by_cases hv : v = w
  · subst hv
    rw [if_pos rfl, incidents_lives, Option.map_map]
    cases hfind : (lives st).find? fun wi => wi.id = v with
    | none => rfl
    | some wi =>
        have hid : wi.id = v := by simpa using List.find?_some hfind
        simp only [Option.map_some, Function.comp_apply, hid, decide_true, if_true]
        rfl
  · rw [if_neg hv, incidents_lives]
    cases hfind : (lives st).find? fun wi => wi.id = v with
    | none => rfl
    | some wi =>
        have hid : wi.id = v := by simpa using List.find?_some hfind
        simp [hid, hv]

theorem incidents_written (st : Stores) (w : Int) (result : TransitionResult) (now : Int) :
    incidents { st with
      postgres := updateState st.postgres w result.newState result.endTime result.mttrSeconds now } w =
      (incidents st w).map (write result) := by
  rw [incidents_updateState]
  exact if_pos rfl

theorem incidents_unwritten (st : Stores) (hv : v ≠ w) (result : TransitionResult) (now : Int) :
    incidents { st with
      postgres := updateState st.postgres w result.newState result.endTime result.mttrSeconds now } v =
      incidents st v := by
  rw [incidents_updateState]
  exact if_neg hv

theorem getWorkItem_of_incident {i : Incident} (h : incidents st w = some i) :
    ∃ wi, getWorkItem st.postgres w = some wi ∧ incident wi = i :=
  Option.map_eq_some_iff.mp h

def Advanced (st st' : Stores) (w : Int) (target : WorkItemState) : Prop :=
  ∃ i i', incidents st w = some i ∧ incidents st' w = some i' ∧ Advances (ValidRca st w) i target i'

theorem Advanced.legal (h : Advanced st st' w target) : Legal st w target := by
  obtain ⟨i, i', hold, _, hadvances⟩ := h
  cases hadvances with
  | move _ hedge hopen => exact ⟨i, hold, hedge, fun hclosed => absurd hclosed hopen⟩
  | close stop hedge hvalid => exact ⟨i, hold, hedge, fun _ => hvalid⟩

theorem Advanced.keep {st'' : Stores} (h : Advanced st st' w target) (hkeep : KeepsIncidents st' st'') :
    Advanced st st'' w target := by
  obtain ⟨i, i', hold, hnow, hadvances⟩ := h
  exact ⟨i, i', hold, hkeep.kept w i' hnow, hadvances⟩

/-- What the state objects decide is what the life cycle says. -/
theorem advances_of_transition {valid : Prop} {rca : Option RCALike} (hvalid : validate rca = .ok () → valid)
    (h : transition ⟨wi.state, .utc wi.startTime⟩ target rca now = .ok result) :
    Advances valid (incident wi) target (write result (incident wi)) := by
  obtain ⟨hedge, hstate, ⟨hopen, hend, hmttr⟩ | ⟨rfl, hok, hend, hmttr⟩⟩ := transition_ok h
  · have hwrite : write result (incident wi) = { incident wi with state := target } := by
      simp [write, hstate, hend, hmttr]
    rw [hwrite]
    exact .move target hedge hopen
  · have hwrite : write result (incident wi) = { incident wi with
        state := .CLOSED, endTime := some now, mttrSeconds := some (now - (incident wi).startTime) } := by
      simp [write, hstate, hend, hmttr, instant_utc, incident]
    rw [hwrite]
    exact .close now hedge (hvalid hok)

theorem rejects_of_transition {e : TransitionError}
    (h : transition ⟨wi.state, .utc wi.startTime⟩ target ((getRca st.postgres w).map ofRow) now =
      .error e) (hold : incidents st w = some (incident wi)) :
    ¬ Legal st w target ∧ ∃ http : HTTPException, transitionException e = .ok http ∧
      (http.statusCode = 400 ∨ http.statusCode = 404 ∨ http.statusCode = 409) := by
  rcases transition_error h with ⟨hedge, rfl⟩ | ⟨err, rfl, rfl, herr⟩
  · refine ⟨?_, _, rfl, .inr (.inr rfl)⟩
    rintro ⟨i, hi, hi', _⟩
    cases hold.symm.trans hi
    exact hedge hi'
  · constructor
    · rintro ⟨i, _, _, hvalid⟩
      cases herr.symm.trans (hvalid rfl)
    · cases err with
      | required | incomplete => exact ⟨_, rfl, .inl rfl⟩
      | typeError =>
          cases hget : getRca st.postgres w with
          | none =>
              rw [hget] at herr
              cases herr
          | some row =>
              rw [hget] at herr
              exact absurd herr (validate_ofRow_ne row)

end Ims.Incidents
