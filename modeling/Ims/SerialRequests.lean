import Ims.Incidents
import Ims.RcaSubmission
import Ims.RequestEnds

namespace Ims.SerialRequests

open Library.Text Library.Runs Library.Tables Library.Slots Time Models RcaValidator States PostgresRepo
  Retry Ingestion Service WorkerSteps ApiSteps ServiceSteps WorkerMoves WorkerFrames Rows LifeCycle Requests
  RcaGate RequestMoves RcaSubmission Incidents RequestEnds
open Workers (Stores Run Outcome)
open IncidentsApi (Request Pc Status Response Next Call zremNext transitionException HTTPException)

def idle (s : World) : Bool := s.requests.all fun q => ended q.status

/-- Requests come one after the other, and of their operations only those of the
cleanup may fail. Nothing is asked of the workers. -/
def Serial (s : World) : Event → Prop
  | .call _ => idle s = true
  | .request k o => o = .ok ∨ (s.requests[k]?).any (fun q => cleans q.pc) = true
  | .abortRequest _ => False
  | _ => True

instance (s : World) : DecidablePred (Serial s)
  | .call _ => inferInstanceAs (Decidable (_ = _))
  | .request _ _ => inferInstanceAs (Decidable (_ ∨ _))
  | .abortRequest _ => .isFalse id
  | .offer _ | .get _ | .getTimeout | .cancelIdle | .run _ _ | .cancelRun _ | .expire _
  | .burnWorkItemId | .burnRcaId | .setClock _ => .isTrue trivial

/-- The answer to a transition of item w, of which the first operation was made
in s and which ended with this status by t. -/
structure Verdict (s t : World) (w : Int) (target : WorkItemState) (status : Status) : Prop where
  accepted : (∃ out, status = .responded (.workItem out)) ↔ Legal s.stores w target
  rejected : ¬ Legal s.stores w target → ∃ e : HTTPException, status = .responded (.http e) ∧
    (e.statusCode = 400 ∨ e.statusCode = 404 ∨ e.statusCode = 409)
  advanced : Legal s.stores w target → ∃ i i', incidents s.stores w = some i ∧
    incidents t.stores w = some i' ∧ Advances (ValidRca s.stores w) i target i'
  others : ∀ v i, v ≠ w ∨ ¬ Legal s.stores w target → incidents s.stores v = some i →
    incidents t.stores v = some i

variable {cfg : Settings} {s t u : World} {e : Event} {st st' : Stores} {w v now : Int} {q : Request}
  {k n : Nat} {target : WorkItemState} {wi : WorkItem} {result : TransitionResult} {es : List Event}

def Current (st : Stores) : Pc → Prop
  | .transitionRca w _ wi | .updateState w wi _ => incidents st w = some (incident wi)
  | .transitionItem _ _ | .feedMembers _ _ _ | .zremMember _ _ _ _ _ | .clearDedup _ _ _ | .fresh _ _
  | .submitItem _ _ | .selectRca _ _ | .flushRca _ _ _ | .incidentItem _ | .incidentRca _ _ => True

structure SerialWf (s : World) : Prop where
  alone : ∀ (j k : Nat) (p q : Request), s.requests[j]? = some p → s.requests[k]? = some q →
    p.status = .running → q.status = .running → j = k
  current : ∀ q ∈ s.requests, q.status = .running → Current s.stores q.pc
  times : ∀ v i, incidents s.stores v = some i → i.endTime ≠ none → i.state = .CLOSED

theorem Current.keep {pc : Pc} (h : Current st pc) (hkeep : KeepsIncidents st st') : Current st' pc := by
  cases pc with
  | transitionRca | updateState => exact hkeep.kept _ _ h
  | _ => trivial

theorem attempt_current (h : Current st q.pc) (o : Outcome) (now : Int) :
    Current st (q.attempt o now st).2.pc := by
  have hmove := attempt_pcMove q o now st
  generalize q.pc = pc, (q.attempt o now st).2.pc = pc' at hmove h ⊢
  cases hmove with
  | stay => exact h
  | readItem w target wi hget => exact congrArg (Option.map incident) hget
  | decided => exact h
  | closed | moved | scanned | scannedNone | removed | removedLast | cleared | leftScan | leftRemoval
  | checked | selected | retried | readIncident => trivial

theorem running_back (hs : step cfg s e = some t) (hk : t.requests[k]? = some q)
    (hq : q.status = .running) :
    (∃ p, s.requests[k]? = some p ∧ p.status = .running) ∨
      s.requests[k]? = none ∧ ∃ c, e = .call c := by
  cases step_requestMove hs hk with
  | new c hnone he => exact .inr ⟨hnone, c, he⟩
  | other _ hsame => exact .inl ⟨q, hsame, hq⟩
  | attempt p o hsame hrun => exact .inl ⟨p, hsame, hrun⟩
  | abort p hsame hrun => exact .inl ⟨p, hsame, hrun⟩

theorem not_running_of_idle (h : idle s = true) (hk : s.requests[k]? = some q) : q.status ≠ .running := by
  intro hrun
  have := List.all_eq_true.mp h q (List.mem_of_getElem? hk)
  rw [hrun] at this
  cases this

theorem alone_step (h : SerialWf s) (he : Serial s e) (hs : step cfg s e = some t) :
    ∀ (j k : Nat) (p q : Request), t.requests[j]? = some p → t.requests[k]? = some q →
      p.status = .running → q.status = .running → j = k := by
  intro j k p q hj hk hp hq
  rcases running_back hs hj hp with ⟨p₀, hj₀, hp₀⟩ | ⟨hj₀, c, rfl⟩
  · rcases running_back hs hk hq with ⟨q₀, hk₀, hq₀⟩ | ⟨_, c, rfl⟩
    · exact h.alone j k p₀ q₀ hj₀ hk₀ hp₀ hq₀
    · exact absurd hp₀ (not_running_of_idle he hj₀)
  · rcases running_back hs hk hq with ⟨q₀, hk₀, hq₀⟩ | ⟨hk₀, _, _⟩
    · exact absurd hq₀ (not_running_of_idle he hk₀)
    · rw [new_index hs hj₀ hj, new_index hs hk₀ hk]

/-- In a serial run the event of a request is a step of the one that runs, and
its update takes effect. -/
theorem update_succeeds {o : Outcome} (he : Serial s (.request k o)) (hk : s.requests[k]? = some q)
    (hpc : q.pc = .updateState w wi result) : o = .ok := by
  rcases he with rfl | hcleans
  · rfl
  · rw [hk, Option.any_some, hpc] at hcleans
    cases hcleans

/-- A step of a serial run updates the item of the request that runs, or it
leaves all incidents as they are. -/
theorem serial_cases (he : Serial s e) (hs : step cfg s e = some t) :
    (∃ k q w wi result, e = .request k .ok ∧ s.requests[k]? = some q ∧ q.status = .running ∧
        q.pc = .updateState w wi result ∧ t.stores = (q.attempt .ok s.clock s.stores).1) ∨
      KeepsIncidents s.stores t.stores := by
  rcases update_or_keep hs with ⟨k, o, q, w, wi, result, rfl, hk, hrun, hpc, hst⟩ | hkeep
  · cases update_succeeds he hk hpc
    exact .inl ⟨k, q, w, wi, result, rfl, hk, hrun, hpc, hst⟩
  · exact .inr hkeep

theorem current_step (h : SerialWf s) (he : Serial s e) (hs : step cfg s e = some t) :
    ∀ q ∈ t.requests, q.status = .running → Current t.stores q.pc := by
  intro q hq hrun
  obtain ⟨k, hk⟩ := List.mem_iff_getElem?.mp hq
  rcases serial_cases he hs with ⟨j, p, w, wi, result, rfl, hj, hp, hpc, hst⟩ | hkeep
  · cases step_requestMove hs hk with
    | new c _ hevent => cases hevent
    | other _ hsame hother =>
        cases h.alone j k p q hj hsame hp hrun
        exact absurd rfl hother
    | attempt p' o hsame _ hevent =>
        cases hevent
        cases hj.symm.trans hsame
        rw [(attempt_updateState hpc s.clock s.stores).2]
        simp only
        split <;> trivial
    | abort p' _ _ hevent => cases hevent
  · cases step_requestMove hs hk with
    | new c => cases c <;> trivial
    | other _ hsame => exact (h.current q (List.mem_of_getElem? hsame) hrun).keep hkeep
    | attempt p o hsame hp =>
        exact (attempt_current (h.current p (List.mem_of_getElem? hsame) hp) o s.clock).keep hkeep
    | abort p _ _ hevent =>
        subst hevent
        cases he

theorem times_step (hgate : GateWf s) (h : SerialWf s) (he : Serial s e) (hs : step cfg s e = some t) :
    ∀ v i, incidents t.stores v = some i → i.endTime ≠ none → i.state = .CLOSED := by
  intro v i hi hend
  rcases serial_cases he hs with ⟨k, q, w, wi, result, rfl, hk, hrun, hpc, hst⟩ | hkeep
  · have hq := List.mem_of_getElem? hk
    have hcurrent := h.current q hq hrun
    have hwf := (hgate.requests q hq).1
    rw [hpc] at hcurrent hwf
    rw [hst, (attempt_updateState hpc s.clock s.stores).1] at hi
    by_cases hv : v = w
    · subst hv
      rw [incidents_written, (hcurrent : incidents s.stores v = some (incident wi))] at hi
      cases hi
      obtain ⟨_, hedge, ⟨_, hnone, _⟩ | ⟨hclosed, _⟩⟩ := hwf
      · simp only [write, hnone, Option.none_or] at hend
        rw [show wi.state = .CLOSED from h.times v _ hcurrent hend] at hedge
        cases hedge
      · exact hclosed
    · rw [incidents_unwritten _ hv] at hi
      exact h.times v i hi hend
  · rcases hkeep.fresh v i hi with hi | hnone
    · exact h.times v i hi hend
    · exact absurd hnone hend

theorem serialWf_init (n : Nat) : SerialWf (init n) where
  alone := fun j _ _ _ hj => absurd (List.mem_of_getElem? hj) List.not_mem_nil
  current := fun _ hq => absurd hq List.not_mem_nil
  times := fun _ _ hi => by cases hi

theorem serialWf_step (hgate : GateWf s) (h : SerialWf s) (he : Serial s e)
    (hs : step cfg s e = some t) : SerialWf t :=
  ⟨alone_step h he hs, current_step h he hs, times_step hgate h he hs⟩

inductive Handling (st st' : Stores) (w : Int) (target : WorkItemState) (q : Request) : Prop
  | read (wi : WorkItem) (hpc : q.pc = .transitionRca w target wi) (hrun : q.status = .running)
      (hold : incidents st w = some (incident wi)) (hnow : incidents st' w = some (incident wi))
  | decided (wi : WorkItem) (result : TransitionResult) (hpc : q.pc = .updateState w wi result)
      (hrun : q.status = .running) (hold : incidents st w = some (incident wi))
      (hnow : incidents st' w = some (incident wi))
      (hadvances : Advances (ValidRca st w) (incident wi) target (write result (incident wi)))
  | moved (hpc : cleans q.pc = true ∧ itemOf q.pc = w ∨ ∃ result, q.pc = .fresh w result)
      (hrun : q.status = .running) (hadvanced : Advanced st st' w target)
  | accepted (out) (hstatus : q.status = .responded (.workItem out))
      (hadvanced : Advanced st st' w target)
  | rejected (e : HTTPException) (hstatus : q.status = .responded (.http e))
      (hcode : e.statusCode = 400 ∨ e.statusCode = 404 ∨ e.statusCode = 409)
      (hillegal : ¬ Legal st w target)
      (hkept : ∀ i, incidents st w = some i → incidents st' w = some i)

theorem Handling.keep {st'' : Stores} (h : Handling st st' w target q) (hkeep : KeepsIncidents st' st'') :
    Handling st st'' w target q := by
  cases h with
  | read wi hpc hrun hold hnow => exact .read wi hpc hrun hold (hkeep.kept _ _ hnow)
  | decided wi result hpc hrun hold hnow hadvances =>
      exact .decided wi result hpc hrun hold (hkeep.kept _ _ hnow) hadvances
  | moved hpc hrun hadvanced => exact .moved hpc hrun (hadvanced.keep hkeep)
  | accepted out hstatus hadvanced => exact .accepted out hstatus (hadvanced.keep hkeep)
  | rejected e hstatus hcode hillegal hkept =>
      exact .rejected e hstatus hcode hillegal fun i hi => hkeep.kept w i (hkept i hi)

/-- The cleanup goes on to its end, whether its operations fail or not. -/
theorem attempt_cleans (h : cleans q.pc = true) (o : Outcome) (now : Int) (st : Stores) :
    lives (q.attempt o now st).1 = lives st ∧ ∃ pc, (q.attempt o now st).2 = { q with pc } ∧
      (cleans pc = true ∧ itemOf pc = itemOf q.pc ∨ ∃ result, pc = .fresh (itemOf q.pc) result) := by
  constructor
  · refine effect_lives (attempt_effect now st q o) fun w wi result hpc => ?_
    rw [hpc] at h
    cases h
  · cases hpc : q.pc with
    | feedMembers w wi result | zremMember w wi result =>
        cases o with
        | ok =>
            simp only [Request.attempt, Request.perform, hpc, Request.resume]
            obtain ⟨pc, hnext, hcleans, hw⟩ := cleans_zremNext w wi result _
            rw [hnext]
            exact ⟨pc, rfl, .inl ⟨hcleans, hw⟩⟩
        | fail e | lost e =>
            simp only [Request.attempt, Request.handle, hpc]
            exact ⟨_, rfl, .inr ⟨_, rfl⟩⟩
    | clearDedup w wi result =>
        cases o <;> simp only [Request.attempt, Request.perform, Request.handle, hpc, Request.resume] <;>
          exact ⟨_, rfl, .inr ⟨_, rfl⟩⟩
    | _ =>
        rw [hpc] at h
        cases h

/-- A step of the request itself. -/
theorem handling_attempt (h : Handling st st' w target q) (hrun : q.status = .running)
    (hrca : getRca st'.postgres w = getRca st.postgres w) {o : Outcome}
    (ho : o = .ok ∨ cleans q.pc = true) (now : Int) :
    Handling st (q.attempt o now st').1 w target (q.attempt o now st').2 := by
  have hok (hpc : cleans q.pc = false) : o = .ok := by
    rcases ho with ho | ho
    · exact ho
    · rw [hpc] at ho
      cases ho
  cases h with
  | read wi hpc _ hold hnow =>
      cases hok (by rw [hpc]; rfl)
      simp only [Request.attempt, Request.perform, hpc, hrca]
      cases hresult : transition ⟨wi.state, .utc wi.startTime⟩ target ((getRca st.postgres w).map ofRow)
          now with
      | ok result =>
          exact .decided wi result rfl hrun hold hnow (advances_of_transition id hresult)
      | error e =>
          obtain ⟨hillegal, http, hhttp, hcode⟩ := rejects_of_transition hresult hold
          simp only [hhttp]
          exact .rejected http rfl hcode hillegal fun i hi => hnow.trans (hold.symm.trans hi)
  | decided wi result hpc _ hold hnow hadvances =>
      cases hok (by rw [hpc]; rfl)
      obtain ⟨hstores, hq⟩ := attempt_updateState hpc now st'
      rw [hstores, hq]
      refine .moved ?_ hrun ⟨_, _, hold, ?_, hadvances⟩
      · simp only
        split
        · exact .inl ⟨rfl, rfl⟩
        · exact .inr ⟨result, rfl⟩
      · rw [incidents_written, hnow]
        rfl
  | moved hpc _ hadvanced =>
      rcases hpc with ⟨hcleans, rfl⟩ | ⟨result, hpc⟩
      · obtain ⟨hlives, pc, hq, hpc⟩ := attempt_cleans hcleans o now st'
        rw [hq]
        exact .moved hpc hrun (hadvanced.keep (.of_lives hlives))
      · cases hok (by rw [hpc]; rfl)
        obtain ⟨i, i', hold, hnow, hadvances⟩ := hadvanced
        obtain ⟨wi, hget, rfl⟩ := getWorkItem_of_incident hnow
        simp only [Request.attempt, Request.perform, hpc, hget]
        exact .accepted wi rfl ⟨i, _, hold, hnow, hadvances⟩
  | accepted out hstatus =>
      rw [hrun] at hstatus
      cases hstatus
  | rejected e hstatus =>
      rw [hrun] at hstatus
      cases hstatus

theorem Handling.item (h : Handling st st' w target q) (hrun : q.status = .running) :
    itemOf q.pc = w ∧ ∀ v body loaded, q.pc ≠ .flushRca v body loaded := by
  cases h with
  | read wi hpc | decided wi result hpc =>
      rw [hpc]
      exact ⟨rfl, fun _ _ _ hflush => by cases hflush⟩
  | moved hpc =>
      rcases hpc with ⟨hcleans, hw⟩ | ⟨result, hpc⟩
      · refine ⟨hw, fun v body loaded hpc => ?_⟩
        rw [hpc] at hcleans
        cases hcleans
      · rw [hpc]
        exact ⟨rfl, fun _ _ _ hflush => by cases hflush⟩
  | accepted _ hstatus | rejected _ hstatus =>
      rw [hrun] at hstatus
      cases hstatus

/-- A step of a request writes to no other item, and to rca in a flush only. -/
theorem attempt_others (o : Outcome) (hitem : itemOf q.pc = w)
    (hflush : ∀ v body loaded, q.pc ≠ .flushRca v body loaded) (now : Int) (st : Stores) :
    (q.attempt o now st).1.postgres.rca = st.postgres.rca ∧
      ∀ v, v ≠ w → incidents (q.attempt o now st).1 v = incidents st v := by
  have heffect := attempt_effect now st q o
  generalize (q.attempt o now st).1 = st' at heffect
  cases heffect with
  | flushRca v body loaded _ _ hpc => exact absurd hpc (hflush v body loaded)
  | updateState v wi result hpc =>
      rw [hpc] at hitem
      cases hitem
      exact ⟨rfl, fun v hv => incidents_unwritten st hv result now⟩
  | none | zrem | clearDedup => exact ⟨rfl, fun _ _ => rfl⟩

structure Serving (s t : World) (k : Nat) (w : Int) (target : WorkItemState) : Prop where
  rca : t.stores.postgres.rca = s.stores.postgres.rca
  others : ∀ v i, v ≠ w → incidents s.stores v = some i → incidents t.stores v = some i
  request : ∃ q, t.requests[k]? = some q ∧ Handling s.stores t.stores w target q
  alone : ∀ (j : Nat) (q : Request), j ≠ k → t.requests[j]? = some q → q.status ≠ .running

theorem serving_start (h : SerialWf s) (hk : s.requests[k]? = some q) (hrun : q.status = .running)
    (hpc : q.pc = .transitionItem w target) (hs : step cfg s (.request k .ok) = some t) :
    Serving s t k w target := by
  simp only [step, hk, Option.bind_eq_bind, Option.bind_some, hrun, Request.attempt, Request.perform,
    hpc] at hs
  have hhandling : ∃ p, t = { s with requests := s.requests.set k p } ∧
      Handling s.stores s.stores w target p := by
    cases hget : getWorkItem s.stores.postgres w with
    | none =>
        simp only [hget] at hs
        refine ⟨_, (Option.some.inj hs).symm, .rejected _ rfl (.inr (.inl rfl)) ?_ fun i hi => hi⟩
        rintro ⟨i, hi, _⟩
        rw [incidents, hget] at hi
        cases hi
    | some wi =>
        simp only [hget] at hs
        have hold : incidents s.stores w = some (incident wi) := by rw [incidents, hget]; rfl
        exact ⟨_, (Option.some.inj hs).symm, .read wi rfl hrun hold hold⟩
  obtain ⟨p, rfl, hp⟩ := hhandling
  refine ⟨rfl, fun _ _ _ hi => hi, ⟨p, List.getElem?_set_self (lt_of_slot hk), hp⟩, ?_⟩
  intro j q' hjk hj hrunning
  rw [List.getElem?_set_ne (Ne.symm hjk)] at hj
  exact hjk (h.alone j k q' q hj hk hrunning hrun)

theorem serving_step (h : Serving s t k w target) (he : Serial t e) (hcall : ∀ c, e ≠ .call c)
    (hs : step cfg t e = some u) : Serving s u k w target := by
  obtain ⟨q, hk, hq⟩ := h.request
  have hbelow : ∀ (j : Nat) (p : Request), u.requests[j]? = some p → p.status = .running →
      ∃ p₀, t.requests[j]? = some p₀ ∧ p₀.status = .running := by
    intro j p hj hp
    rcases running_back hs hj hp with hback | ⟨_, c, hevent⟩
    · exact hback
    · exact absurd hevent (hcall c)
  have halone : ∀ (j : Nat) (p : Request), j ≠ k → u.requests[j]? = some p → p.status ≠ .running := by
    intro j p hjk hj hp
    obtain ⟨p₀, hj₀, hp₀⟩ := hbelow j p hj hp
    exact h.alone j p₀ hjk hj₀ hp₀
  obtain ⟨q', hk', hnext⟩ := step_requestNext hs hk
  cases hnext with
  | abort _ hevent =>
      subst hevent
      cases he
  | attempt o hrun hevent hst =>
      subst hevent
      obtain ⟨hitem, hflush⟩ := hq.item hrun
      obtain ⟨hrca, hothers⟩ := attempt_others o hitem hflush t.clock t.stores
      have ho : o = .ok ∨ cleans q.pc = true := by
        rcases he with ho | hcleans
        · exact .inl ho
        · rw [hk] at hcleans
          exact .inr hcleans
      have hget : getRca t.stores.postgres w = getRca s.stores.postgres w := by
        rw [getRca, getRca, h.rca]
      have hnext := handling_attempt hq hrun hget ho t.clock
      rw [← hst] at hrca hothers hnext
      exact ⟨hrca.trans h.rca, fun v i hv hi => (hothers v hv).trans (h.others v i hv hi),
        ⟨_, hk', hnext⟩, halone⟩
  | other hother =>
      have hnone : ∀ j o, e ≠ .request j o := by
        rintro j o rfl
        have hjk : j ≠ k := fun hjk => hother (congrArg some hjk)
        obtain ⟨p, hp⟩ := slot_of_index hs rfl
        exact h.alone j p hjk hp (own_request hs hp).1
      have hkeep : KeepsIncidents t.stores u.stores :=
        step_keepsIncidents hs fun j o _ _ _ _ hevent => absurd hevent (hnone j o)
      exact ⟨(rca_kept hs hnone).trans h.rca, fun v i hv hi => hkeep.kept v i (h.others v i hv hi),
        ⟨q, hk', hq.keep hkeep⟩, halone⟩

theorem verdict_of_serving (h : Serving s t k w target) (hk : t.requests[k]? = some q)
    (hended : q.status ≠ .running) : Verdict s t w target q.status := by
  obtain ⟨q', hk', hq⟩ := h.request
  cases hk.symm.trans hk'
  cases hq with
  | read _ _ hrun | decided _ _ _ hrun | moved _ hrun => exact absurd hrun hended
  | accepted out hstatus hadvanced =>
      have hlegal := hadvanced.legal
      refine ⟨iff_of_true ⟨out, hstatus⟩ hlegal, fun hnot => absurd hlegal hnot, fun _ => hadvanced,
        fun v i hv hi => ?_⟩
      rcases hv with hv | hnot
      · exact h.others v i hv hi
      · exact absurd hlegal hnot
  | rejected e hstatus hcode hillegal hkept =>
      refine ⟨iff_of_false ?_ hillegal, fun _ => ⟨e, hstatus, hcode⟩, fun hlegal => absurd hlegal hillegal,
        fun v i _ hi => ?_⟩
      · rintro ⟨out, hout⟩
        rw [hstatus] at hout
        cases hout
      · by_cases hv : v = w
        · subst hv
          exact hkept i hi
        · exact h.others v i hv hi

/-- After every step of a serial run: transitions are answered by the life cycle,
requests come to their end, rejected ones have written nothing, and the times of
an item are set if and only if it is closed. -/
structure ImplementsLifeCycle (cfg : Settings) (n : Nat) (es : List Event) (s : World) : Prop where
  transitions : ∀ (k : Nat) q w target, s.requests[k]? = some q → q.status = .running →
    q.pc = .transitionItem w target → ∀ es' t q',
      Trace (step cfg) (fun s e => Serial s e ∧ ∀ c, e ≠ .call c) s (.request k .ok :: es') t →
        t.requests[k]? = some q' → q'.status ≠ .running → Verdict s t w target q'.status
  returns : ∀ (k : Nat) q, s.requests[k]? = some q → q.status = .running →
    ∃ m t q', Trace (step cfg) Serial s (requestOn k m) t ∧ t.requests[k]? = some q' ∧
      q'.status ≠ .running
  rejections : ∀ (k : Nat) q e, s.requests[k]? = some q → q.status = .responded (.http e) →
    Untouched cfg n es k
  times : ∀ wi ∈ s.stores.postgres.workItems, (wi.endTime ≠ none ↔ wi.state = .CLOSED) ∧
    (wi.mttrSeconds ≠ none ↔ wi.state = .CLOSED)

theorem transition_verdict (h : SerialWf s) (hk : s.requests[k]? = some q) (hrun : q.status = .running)
    (hpc : q.pc = .transitionItem w target) {q' : Request}
    (htrace : Trace (step cfg) (fun s e => Serial s e ∧ ∀ c, e ≠ .call c) s (.request k .ok :: es) t)
    (hk' : t.requests[k]? = some q') (hended : q'.status ≠ .running) : Verdict s t w target q'.status := by
  have hsplit : Trace (step cfg) (fun s e => Serial s e ∧ ∀ c, e ≠ .call c) s
      (([] ++ [.request k .ok]) ++ es) t := htrace
  obtain ⟨u, hfirst, hrest⟩ := hsplit.split
  obtain ⟨s', hnil, _, hstep⟩ := hfirst.last
  cases hnil.nil_eq
  have hserving : Serving s t k w target := by
    apply hrest.invariant (Serving s · k w target) (serving_start h hk hrun hpc hstep)
    exact fun u e v hserving he hs => serving_step hserving he.1 he.2 hs
  exact verdict_of_serving hserving hk' hended

theorem times_of_wf (hgate : GateWf s) (h : SerialWf s) {wi : WorkItem}
    (hwi : wi ∈ s.stores.postgres.workItems) :
    (wi.endTime ≠ none ↔ wi.state = .CLOSED) ∧ (wi.mttrSeconds ≠ none ↔ wi.state = .CLOSED) := by
  have hget : incidents s.stores wi.id = some (incident wi) := incidents_of_mem hgate.rows.ids hwi
  have hend : wi.endTime ≠ none ↔ wi.state = .CLOSED :=
    ⟨h.times wi.id _ hget, fun hclosed => ((hgate.items wi hwi).2 hclosed).1⟩
  refine ⟨hend, ?_⟩
  rw [← hend]
  rcases (hgate.items wi hwi).1 with ⟨hnone, hmttr⟩ | ⟨stop, hstop, hmttr⟩
  · rw [hnone, hmttr]
  · simp [hstop, hmttr]

/-- Serial requests implement the life cycle, with the workers interleaved
anywhere and the cleanup of Redis failing or not. -/
theorem serial_requests_implement_life_cycle (h : Trace (step cfg) Serial (init n) es s) :
    ImplementsLifeCycle cfg n es s := by
  obtain ⟨hgate, hserial⟩ : GateWf s ∧ SerialWf s := by
    apply h.invariant (fun s => GateWf s ∧ SerialWf s) ⟨gateWf_init n, serialWf_init n⟩
    exact fun s e t hwf he hs => ⟨gateWf_step hwf.1 hs, serialWf_step hwf.1 hwf.2 he hs⟩
  have hearly : ∀ q ∈ s.requests, ∀ e, q.status = .responded (.http e) → early q.pc = true :=
    h.invariant (fun s => ∀ q ∈ s.requests, ∀ e, q.status = .responded (.http e) → early q.pc = true)
      (fun _ hq => absurd hq List.not_mem_nil) fun _ _ _ hwf _ hs => http_step hwf hs
  have huntouched : ∀ k, (∀ q, s.requests[k]? = some q → early q.pc = true) → Untouched cfg n es k := by
    apply h.invariant_past fun es s => ∀ k, (∀ q, s.requests[k]? = some q → early q.pc = true) →
      Untouched cfg n es k
    · intro k _ es₁ o es₂ _ _ hes
      simp at hes
    · exact fun es s e t htrace hwf _ hs => untouched_step htrace hwf hs
  refine ⟨fun k q w target hk hrun hpc es' t q' => transition_verdict hserial hk hrun hpc,
    fun k q hk hrun => request_returns cfg (fun _ => .inl rfl) _ s q hk hrun rfl,
    fun k q e hk hstatus => huntouched k fun q' hk' => ?_,
    fun wi hwi => times_of_wf hgate hserial hwi⟩
  cases hk.symm.trans hk'
  exact hearly q (List.mem_of_getElem? hk) e hstatus

def cleanupFails : List Event :=
  resolved ++ [.call (.closeIncident 1)] ++ requestOn 3 3 ++ [.request 3 (.fail .storeError)] ++
    requestOn 3 1 ++ [.call (.transitionIncident 1 .INVESTIGATING)] ++ requestOn 4 2

theorem serial_requests_implement_life_cycle_cleanup_fails :
    ∃ s : World, s.stores.postgres.workItems.map WorkItem.state = [.CLOSED] ∧ s.requests.length = 5 ∧
      ImplementsLifeCycle {} 1 cleanupFails s := by
  obtain ⟨s, hs, hp⟩ := trace_of_replay (step {}) Serial (init 1) cleanupFails
    (fun s => decide (s.stores.postgres.workItems.map WorkItem.state = [.CLOSED] ∧
      s.requests.length = 5)) (by decide +kernel)
  obtain ⟨hstates, hlength⟩ := of_decide_eq_true hp
  exact ⟨s, hstates, hlength, serial_requests_implement_life_cycle hs⟩

end Ims.SerialRequests
