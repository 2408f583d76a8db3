import Ims.RcaSubmission

namespace Ims.SubmissionRaces

open Library.Text Library.Runs Library.Tables Library.Slots Time Models RcaValidator PostgresRepo Ingestion
  Service WorkerSteps ApiSteps ServiceSteps WorkerMoves WorkerFrames Rows Requests RcaGate RequestMoves
  Components RcaSubmission
open Workers (Stores Run Outcome)
open IncidentsApi (Request Pc Status Response Next Call zremNext)

def submission : Pc → Option (Int × RCAIn)
  | .submitItem w body | .selectRca w body | .flushRca w body _ => some (w, body)
  | .transitionItem _ _ | .transitionRca _ _ _ | .updateState _ _ _ | .feedMembers _ _ _
  | .zremMember _ _ _ _ _ | .clearDedup _ _ _ | .fresh _ _ | .incidentItem _ | .incidentRca _ _ => none

def submitsTo (w : Int) (q : Request) : Bool := (submission q.pc).any fun p => p.1 = w

/-- The submissions to item w have valid bodies and their operations succeed;
nothing is asked of the rest. -/
def Submitting (w : Int) (s : World) : Event → Prop
  | .call (.submitRca v body) => v = w → body.rcaEndTime.lt body.rcaStartTime = some false
  | .request k o => (s.requests[k]?).any (submitsTo w) = true → o = .ok
  | .abortRequest k => (s.requests[k]?).any (submitsTo w) = false
  | _ => True

instance (w : Int) (s : World) : DecidablePred (Submitting w s)
  | .call (.submitRca _ _) => inferInstanceAs (Decidable (_ → _))
  | .request _ _ => inferInstanceAs (Decidable (_ → _))
  | .abortRequest _ => inferInstanceAs (Decidable (_ = _))
  | .call (.transitionIncident _ _) | .call (.closeIncident _) | .call (.getIncident _) | .offer _
  | .get _ | .getTimeout | .cancelIdle | .run _ _ | .cancelRun _ | .expire _ | .burnWorkItemId
  | .burnRcaId | .setClock _ => .isTrue trivial

/-- The row has not appeared since the SELECT that found none; and if there was
one, either all columns that the UPDATE leaves out have the new values by now or
all that it writes have them already. -/
def fits (pg : Postgres) (w : Int) (body : RCAIn) : Option RCA → Bool
  | none => (getRca pg w).isNone
  | some old => (getRca pg w).all fun row =>
      columns.all (fun c => !c.leftOut old body || c.holds body row) ||
        columns.all fun c => c.leftOut old body || c.holds body row

def fitting (w : Int) (s : World) : Event → Bool
  | .request k _ => (s.requests[k]?).all fun q => match q.pc with
      | .flushRca v body loaded => !decide (v = w) || fits s.stores.postgres w body loaded
      | _ => true
  | _ => true

/-- The submissions to item w made since s₀, at work in the state t: each is
under way or has succeeded, and once one has, item w has one row, which has the
columns of one of their bodies. -/
structure Atomic (cfg : Settings) (s₀ : World) (w : Int) (es : List Event) (t : World) : Prop where
  succeed : ∀ k q body, s₀.requests.length ≤ k → t.requests[k]? = some q →
    submission q.pc = some (w, body) →
      (q.status = .running ∧ ownSteps k es < 3 ∧ (step cfg t (.request k .ok)).isSome = true) ∨
        ∃ row, q.status = .responded (.rca row)
  one : (∃ k q body r, s₀.requests.length ≤ k ∧ t.requests[k]? = some q ∧
      submission q.pc = some (w, body) ∧ q.status = .responded r) →
    ∃ row, t.stores.postgres.rca.filter (fun row => row.workItemId = w) = [row] ∧
      ∃ k q body, s₀.requests.length ≤ k ∧ t.requests[k]? = some q ∧
        submission q.pc = some (w, body) ∧ Carries body row

variable {cfg : Settings} {s₀ s t u : World} {e : Event} {w v now : Int} {body : RCAIn} {row : RCA}
  {pg : Postgres} {st : Stores} {q : Request} {k own : Nat} {es : List Event}

/-- A request keeps its item and its body. -/
theorem submission_attempt (q : Request) (o : Outcome) (now : Int) (st : Stores) :
    submission (q.attempt o now st).2.pc = submission q.pc := by
  have hmove := attempt_pcMove q o now st
  generalize q.pc = pc, (q.attempt o now st).2.pc = pc' at hmove ⊢
  cases hmove <;> rfl

theorem getRca_eq_none : getRca pg w = none ↔ w ∉ pg.rca.map RCA.workItemId := by
  simp [getRca, List.find?_eq_none]

def UniqueWf (pg : Postgres) : Prop := (pg.rca.map RCA.workItemId).Nodup

theorem uniqueWf_flush {pg' : Postgres} {loaded : Option RCA} (h : UniqueWf pg)
    (hflush : flushRca pg w loaded body now = .ok (pg', row)) : UniqueWf pg' := by
  rcases (flushRca_ok hflush).2 with ⟨_, hnone, rfl, rfl⟩ | ⟨old, _, _, rfl⟩
  · exact nodup_push h (getRca_eq_none.mp hnone)
  · have hkeys : (updateWhere (fun row => row.id = old.id) (overwriteRca old body) pg.rca).map
        RCA.workItemId = pg.rca.map RCA.workItemId := map_updateWhere _ _ _ (by intro; rfl) _
    rw [UniqueWf, hkeys]
    exact h

theorem uniqueWf_step (h : UniqueWf s.stores.postgres) (hs : step cfg s e = some t) :
    UniqueWf t.stores.postgres := by
  cases step_rcaMove hs with
  | keep hrca =>
      rw [UniqueWf, hrca]
      exact h
  | flush k o q v body loaded row _ _ _ hflush => exact uniqueWf_flush h hflush

/-- A flush for another item leaves the row of item w. -/
theorem getRca_flush (hids : (pg.rca.map RCA.id).Nodup) (hv : v ≠ w) {loaded : Option RCA}
    (hloaded : ∀ old, loaded = some old → ∃ row ∈ pg.rca, row.id = old.id ∧ row.workItemId = v)
    {pg' : Postgres} (hflush : flushRca pg v loaded body now = .ok (pg', row)) :
    getRca pg' w = getRca pg w := by
  rcases (flushRca_ok hflush).2 with ⟨_, _, rfl, rfl⟩ | ⟨old, hold, _, rfl⟩
  · rw [getRca, List.find?_append, ← getRca]
    simp [newRca, hv]
  · obtain ⟨target, htarget, hid, hitem⟩ := hloaded old hold
    have hkey : ∀ other : RCA, decide ((overwriteRca old body other).workItemId = w) =
        decide (other.workItemId = w) := fun _ => rfl
    rw [getRca, find?_updateWhere hkey, ← getRca]
    cases hget : getRca pg w with
    | none => rfl
    | some found =>
        unfold getRca at hget
        have hfound : found.workItemId = w := by simpa using List.find?_some hget
        have hne : found.id ≠ old.id := by
          intro hsame
          have := eq_of_nodup hids (List.mem_of_find?_eq_some hget) htarget (hsame.trans hid.symm)
          rw [this, hitem] at hfound
          exact hv hfound
        simp [hne]

def Flushes (w : Int) (s : World) (e : Event) : Prop :=
  ∃ k o q body loaded, e = .request k o ∧ s.requests[k]? = some q ∧ q.pc = .flushRca w body loaded

theorem getRca_kept (hgate : GateWf s) (hloaded : LoadedWf s) (hs : step cfg s e = some t)
    (he : ¬ Flushes w s e) : getRca t.stores.postgres w = getRca s.stores.postgres w := by
  cases step_rcaMove hs with
  | keep hrca => rw [getRca, getRca, hrca]
  | flush k o q v body loaded row hevent hk hpc hflush =>
      have hv : v ≠ w := by
        rintro rfl
        exact he ⟨k, o, q, body, loaded, hevent, hk, hpc⟩
      refine getRca_flush hgate.rca.ids hv (fun old hold => ?_) hflush
      rw [hold] at hpc
      exact hloaded q (List.mem_of_getElem? hk) v body old hpc

theorem mem_columns (c : Column) : c ∈ columns := by
  cases c <;> simp [columns]

/-- An UPDATE whose columns have their new values already. -/
theorem overwrite_eq {old : RCA} (h : ∀ c : Column, c.leftOut old body = false → c.holds body row = true) :
    overwriteRca old body row = row := by
  have hcolumn {α : Type} {P : Prop} [Decidable P] {a b : α} (h : ¬ P → a = b) :
      (if P then a else b) = a := ite_eq_left_iff.mpr fun hp => (h hp).symm
  rcases row with ⟨id, item, category, fix, prevention, start, stop, submitted⟩
  simp only [overwriteRca, RCA.mk.injEq, true_and, and_true]
  refine ⟨hcolumn fun hp => ?_, hcolumn fun hp => ?_, hcolumn fun hp => ?_, hcolumn fun hp => ?_,
    hcolumn fun hp => ?_⟩
  · exact of_decide_eq_true (h .rootCauseCategory (decide_eq_false hp))
  · exact of_decide_eq_true (h .fixApplied (decide_eq_false hp))
  · exact of_decide_eq_true (h .prevention (decide_eq_false hp))
  · exact of_decide_eq_true (h .rcaStartTime (Bool.not_eq_true _ ▸ hp))
  · exact of_decide_eq_true (h .rcaEndTime (Bool.not_eq_true _ ▸ hp))

theorem order_of_lt {a b : Datetime} (h : a.lt b = some false) : b.instant ≤ a.instant := by
  by_cases hkind : a.utcoffset.isSome = b.utcoffset.isSome
  · rw [lt_sameKind hkind] at h
    exact Int.not_lt.mp (of_decide_eq_false (Option.some.inj h))
  · rw [lt_none_iff.mpr hkind] at h
    cases h

/-- A flush that fits stores the body, or it leaves a row that has changed since
its SELECT as it is. -/
theorem flushRca_fits (hrca : RcaWf pg) (hunique : UniqueWf pg) {loaded : Option RCA}
    (hfits : fits pg w body loaded = true)
    (hloaded : ∀ old, loaded = some old → ∃ row ∈ pg.rca, row.id = old.id ∧ row.workItemId = w)
    (horder : body.rcaStartTime.instant ≤ body.rcaEndTime.instant) (now : Int) :
    ∃ pg' row, flushRca pg w loaded body now = .ok (pg', row) ∧ getRca pg' w = some row ∧
      (Carries body row ∨ getRca pg w = some row ∧ loaded ≠ getRca pg w) := by
  by_cases hsame : loaded = getRca pg w
  · obtain ⟨pg', row, hflush, hget, hcarries⟩ := flushRca_selected hrca.ids horder w now
    exact ⟨pg', row, hsame ▸ hflush, hget, .inl hcarries⟩
  · cases loaded with
    | none => exact absurd (Option.isNone_iff_eq_none.mp hfits).symm hsame
    | some old =>
        obtain ⟨row, hrow, hid, hw⟩ := hloaded old rfl
        have hget : getRca pg w = some row := by
          rw [getRca, ← hw]
          exact find?_key hunique hrow
        simp only [fits, hget, Option.all_some, Bool.or_eq_true, List.all_eq_true] at hfits
        have hvalid : validate (some (ofRow row)) = .ok () := hrca.valid row hrow
        rcases hfits with hout | hwritten
        · have hcarries : Carries body (overwriteRca old body row) := carries_overwrite fun c hc => by
            simpa [hc] using hout c (mem_columns c)
          exact ⟨_, _, flushRca_update hrca.ids hrow hid (rcaCheck_of_valid (hcarries.valid horder)) w now,
            getRca_updated hget hid, .inl hcarries⟩
        · have heq : overwriteRca old body row = row := overwrite_eq fun c hc => by
            simpa [hc] using hwritten c (mem_columns c)
          refine ⟨_, _, flushRca_update hrca.ids hrow hid ?_ w now, getRca_updated hget hid, .inr ?_⟩
          · rw [heq]
            exact rcaCheck_of_valid hvalid
          · rw [heq]
            exact ⟨hget, hsame⟩

inductive Stage (w : Int) (body : RCAIn) : Nat → Request → Prop
  | item : Stage w body 0 { pc := .submitItem w body }
  | select : Stage w body 1 { pc := .selectRca w body }
  | flush (loaded) : Stage w body 2 { pc := .flushRca w body loaded }
  | answered (n p row) (h : p.status = .responded (.rca row)) : Stage w body n p

def Sent (s₀ : World) (w : Int) (body : RCAIn) (t : World) (k : Nat) (q : Request) : Prop :=
  s₀.requests.length ≤ k ∧ t.requests[k]? = some q ∧ submission q.pc = some (w, body)

def Landed (s₀ : World) (w : Int) (t : World) : Prop :=
  ∃ k q body r, Sent s₀ w body t k q ∧ q.status = .responded r

structure Racing (s₀ : World) (w : Int) (es : List Event) (t : World) : Prop where
  item : ∃ wi ∈ origins t.stores, wi.id = w
  unique : UniqueWf t.stores.postgres
  length : s₀.requests.length ≤ t.requests.length
  count : ∀ k, t.requests[k]? = none → ownSteps k es = 0
  old : ∀ k q, k < s₀.requests.length → t.requests[k]? = some q → submitsTo w q = true →
    q.status ≠ .running
  stage : ∀ k q body, Sent s₀ w body t k q →
    body.rcaEndTime.lt body.rcaStartTime = some false ∧ Stage w body (ownSteps k es) q
  current : ∀ k q body loaded, Sent s₀ w body t k q → q.pc = .flushRca w body loaded →
    loaded = getRca t.stores.postgres w ∨ Landed s₀ w t
  stored : Landed s₀ w t → ∃ row, getRca t.stores.postgres w = some row ∧
    ∃ k q body, Sent s₀ w body t k q ∧ Carries body row

theorem submitsTo_iff : submitsTo w q = true ↔ ∃ body, submission q.pc = some (w, body) := by
  simp [submitsTo, Option.any_eq_true]

theorem ownSteps_snoc (k : Nat) (es : List Event) (e : Event) :
    ownSteps k (es ++ [e]) = ownSteps k es + if requestIndex e = some k then 1 else 0 := by
  rw [ownSteps, List.countP_append, List.countP_singleton]
  simp only [decide_eq_true_eq]
  rfl

theorem count_step (h : ∀ k, t.requests[k]? = none → ownSteps k es = 0) (hs : step cfg t e = some u) :
    ∀ k, u.requests[k]? = none → ownSteps k (es ++ [e]) = 0 := by
  intro k hnone
  cases hk : t.requests[k]? with
  | some q =>
      obtain ⟨q', hk'⟩ := request_stays hs hk
      rw [hnone] at hk'
      cases hk'
  | none =>
      have hne : requestIndex e ≠ some k := by
        intro hindex
        obtain ⟨q, hq⟩ := slot_of_index hs hindex
        rw [hk] at hq
        cases hq
      rw [ownSteps_snoc, if_neg hne, h k hk]

/-- A submission of a state after the step was there before it, unless it is new. -/
theorem sent_step (hs : step cfg t e = some u) {q : Request} (h : Sent s₀ w body u k q) :
    (t.requests[k]? = none ∧ e = .call (.submitRca w body) ∧ q = { pc := .submitItem w body }) ∨
      ∃ q₀, Sent s₀ w body t k q₀ ∧ (requestIndex e ≠ some k ∧ q = q₀ ∨
        q₀.status = .running ∧ ((∃ o, e = .request k o ∧ q = (q₀.attempt o t.clock t.stores).2 ∧
          u.stores = (q₀.attempt o t.clock t.stores).1) ∨ e = .abortRequest k)) := by
  obtain ⟨hle, hk, hsub⟩ := h
  cases step_requestMove hs hk with
  | new c hnone he =>
      cases c with
      | submitRca v b =>
          cases hsub
          exact .inl ⟨hnone, he, rfl⟩
      | transitionIncident | closeIncident | getIncident => cases hsub
  | other _ hk₀ hother => exact .inr ⟨q, ⟨hle, hk₀, hsub⟩, .inl ⟨hother, rfl⟩⟩
  | attempt q₀ o hk₀ hrun he hst =>
      rw [submission_attempt] at hsub
      exact .inr ⟨q₀, ⟨hle, hk₀, hsub⟩, .inr ⟨hrun, .inl ⟨o, he, rfl, hst⟩⟩⟩
  | abort q₀ hk₀ hrun he hst => exact .inr ⟨q₀, ⟨hle, hk₀, hsub⟩, .inr ⟨hrun, .inr he⟩⟩

theorem old_step (h : ∀ k q, k < s₀.requests.length → t.requests[k]? = some q → submitsTo w q = true →
      q.status ≠ .running) (hlen : s₀.requests.length ≤ t.requests.length)
    (hs : step cfg t e = some u) {k : Nat} {q : Request} (hlt : k < s₀.requests.length)
    (hk : u.requests[k]? = some q) (hsub : submitsTo w q = true) : q.status ≠ .running := by
  cases step_requestMove hs hk with
  | new c hnone =>
      have := List.getElem?_eq_none_iff.mp hnone
      omega
  | other _ hk₀ => exact h k q hlt hk₀ hsub
  | attempt q₀ o hk₀ hrun =>
      rw [submitsTo, submission_attempt] at hsub
      exact absurd hrun (h k q₀ hlt hk₀ hsub)
  | abort q₀ hk₀ hrun => exact absurd hrun (h k q₀ hlt hk₀ hsub)

theorem Sent.keep (h : Sent s₀ w body t k q) (hs : step cfg t e = some u) : ∃ q', Sent s₀ w body u k q' := by
  obtain ⟨hle, hk, hsub⟩ := h
  obtain ⟨q', hk', hnext⟩ := step_requestNext hs hk
  refine ⟨q', hle, hk', ?_⟩
  cases hnext with
  | other | abort => exact hsub
  | attempt o => rw [submission_attempt, hsub]

theorem Stage.attempt (h : Stage w body own q) (hitem : ∃ wi ∈ origins st, wi.id = w)
    (hvalid : body.rcaEndTime.lt body.rcaStartTime = some false) (hrun : q.status = .running)
    (hno : ∀ loaded, q.pc ≠ .flushRca w body loaded) (now : Int) :
    Stage w body (own + 1) (q.attempt .ok now st).2 ∧ (q.attempt .ok now st).2.status = .running ∧
      ∀ loaded, (q.attempt .ok now st).2.pc = .flushRca w body loaded →
        loaded = getRca st.postgres w := by
  cases h with
  | item =>
      obtain ⟨wi, hget⟩ := getWorkItem_of_origin hitem
      simp only [Request.attempt, Request.perform, hget, hvalid]
      exact ⟨.select, rfl, fun loaded hpc => by cases hpc⟩
  | select =>
      simp only [Request.attempt, Request.perform]
      refine ⟨.flush _, rfl, fun loaded hpc => ?_⟩
      cases hpc
      rfl
  | flush loaded => exact absurd rfl (hno loaded)
  | answered n p row hstatus =>
      rw [hrun] at hstatus
      cases hstatus

section Steps

variable (h : Racing s₀ w es t) (he : Submitting w t e) (hs : step cfg t e = some u)

include h he hs

/-- What a step that is no flush for item w makes of a submission to it. -/
theorem stage_step (hno : ¬ Flushes w t e) (hq : Sent s₀ w body u k q) :
    (body.rcaEndTime.lt body.rcaStartTime = some false ∧ Stage w body (ownSteps k (es ++ [e])) q) ∧
      (Sent s₀ w body t k q ∨ q.status = .running ∧
        ∀ loaded, q.pc = .flushRca w body loaded → loaded = getRca t.stores.postgres w) := by
  rw [ownSteps_snoc]
  rcases sent_step hs hq with ⟨hnone, rfl, rfl⟩ | ⟨q₀, hq₀, ⟨hother, rfl⟩ | ⟨hrun, hown⟩⟩
  · rw [h.count k hnone]
    exact ⟨⟨he rfl, .item⟩, .inr ⟨rfl, fun loaded hpc => by cases hpc⟩⟩
  · rw [if_neg hother]
    exact ⟨h.stage k q body hq₀, .inl hq₀⟩
  · have hany : (t.requests[k]?).any (submitsTo w) = true := by
      rw [hq₀.2.1]
      exact submitsTo_iff.mpr ⟨body, hq₀.2.2⟩
    rcases hown with ⟨o, rfl, rfl, _⟩ | rfl
    · obtain ⟨hvalid, hstage⟩ := h.stage k q₀ body hq₀
      cases (he hany : o = .ok)
      have hpc : ∀ loaded, q₀.pc ≠ .flushRca w body loaded := fun loaded hpc =>
        hno ⟨k, .ok, q₀, body, loaded, rfl, hq₀.2.1, hpc⟩
      obtain ⟨hnext, hrunning, hloaded⟩ := hstage.attempt h.item hvalid hrun hpc t.clock
      rw [if_pos (show requestIndex (.request k .ok) = some k from rfl)]
      exact ⟨⟨hvalid, hnext⟩, .inr ⟨hrunning, hloaded⟩⟩
    · rw [(he : (t.requests[k]?).any (submitsTo w) = false)] at hany
      cases hany

theorem landed_back (hno : ¬ Flushes w t e) (hlanded : Landed s₀ w u) : Landed s₀ w t := by
  obtain ⟨k, q, body, r, hq, hstatus⟩ := hlanded
  rcases (stage_step h he hs hno hq).2 with hq | ⟨hrun, _⟩
  · exact ⟨k, q, body, r, hq, hstatus⟩
  · rw [hstatus] at hrun
    cases hrun

/-- A flush that fits answers its request, and item w has a row with the columns
of a body that was sent. -/
theorem flush_step (hgate : GateWf t) (hloaded : LoadedWf t) (hfitting : fitting w t e = true)
    (hflushes : Flushes w t e) :
    ∃ k q body row, e = .request k .ok ∧ Sent s₀ w body t k q ∧
      u.requests = t.requests.set k { q with status := .responded (.rca row) } ∧
        getRca u.stores.postgres w = some row ∧
          ∃ j p body', Sent s₀ w body' t j p ∧ Carries body' row := by
  obtain ⟨k, o, q, body, loaded, rfl, hk, hpc⟩ := hflushes
  have hsub : submission q.pc = some (w, body) := by rw [hpc, submission]
  have hsubmits : submitsTo w q = true := submitsTo_iff.mpr ⟨body, hsub⟩
  cases (he (by rw [hk]; exact hsubmits) : o = .ok)
  obtain ⟨hrun, rfl⟩ := own_request hs hk
  have hle : s₀.requests.length ≤ k := by
    by_contra hlt
    exact h.old k q (Nat.not_le.mp hlt) hk hsubmits hrun
  have hsent : Sent s₀ w body t k q := ⟨hle, hk, hsub⟩
  have hfits : fits t.stores.postgres w body loaded = true := by
    simpa [fitting, hk, hpc] using hfitting
  have hrow : ∀ old, loaded = some old →
      ∃ row ∈ t.stores.postgres.rca, row.id = old.id ∧ row.workItemId = w := by
    rintro old rfl
    exact hloaded q (List.mem_of_getElem? hk) w body old hpc
  obtain ⟨pg, row, hflush, hget, hcarries⟩ := flushRca_fits hgate.rca h.unique hfits hrow
    (order_of_lt (h.stage k q body hsent).1) t.clock
  have hattempt : q.attempt .ok t.clock t.stores =
      ({ t.stores with postgres := pg }, { q with status := .responded (.rca row) }) := by
    simp only [Request.attempt, Request.perform, hpc, hflush]
    rw [← hpc]
    rfl
  rw [hattempt]
  refine ⟨k, q, body, row, rfl, hsent, rfl, hget, ?_⟩
  rcases hcarries with hcarries | ⟨hsame, hstale⟩
  · exact ⟨k, q, body, hsent, hcarries⟩
  · -- the row has changed since the SELECT, by a submission that landed
    rcases h.current k q body loaded hsent hpc with hcurrent | hlanded
    · exact absurd hcurrent hstale
    · obtain ⟨row', hget', j, p, body', hp, hcarries⟩ := h.stored hlanded
      cases hsame.symm.trans hget'
      exact ⟨j, p, body', hp, hcarries⟩

theorem racing_step (hgate : GateWf t) (hloaded : LoadedWf t) (hfitting : fitting w t e = true) :
    Racing s₀ w (es ++ [e]) u := by
  obtain ⟨wi, hwi, hid⟩ := h.item
  have hitem : ∃ wi ∈ origins u.stores, wi.id = w := ⟨wi, (step_grows hs).items wi hwi, hid⟩
  have hunique := uniqueWf_step h.unique hs
  have hlength := h.length.trans (requests_length hs)
  have hcount := count_step h.count hs
  have hold : ∀ k q, k < s₀.requests.length → u.requests[k]? = some q → submitsTo w q = true →
      q.status ≠ .running := fun k q hlt => old_step h.old h.length hs hlt
  by_cases hflushes : Flushes w t e
  · obtain ⟨k, q, body, row, rfl, hsent, hrequests, hget, j, p, body', hp, hcarries⟩ :=
      flush_step h he hs hgate hloaded hfitting hflushes
    have hslot : u.requests[k]? = some { q with status := .responded (.rca row) } := by
      rw [hrequests]
      exact List.getElem?_set_self (lt_of_slot hsent.2.1)
    have hlanded : Landed s₀ w u := ⟨k, _, body, _, ⟨hsent.1, hslot, hsent.2.2⟩, rfl⟩
    refine ⟨hitem, hunique, hlength, hcount, hold, ?_, fun _ _ _ _ _ _ => .inr hlanded, fun _ => ?_⟩
    · rintro i q' b ⟨hle, hi, hsub⟩
      by_cases hik : i = k
      · subst hik
        cases hslot.symm.trans hi
        cases hsub.symm.trans hsent.2.2
        exact ⟨(h.stage i q body hsent).1, .answered _ _ row rfl⟩
      · rw [hrequests, List.getElem?_set_ne (Ne.symm hik)] at hi
        have hother : requestIndex (.request k .ok) ≠ some i := by
          simpa [requestIndex] using Ne.symm hik
        rw [ownSteps_snoc, if_neg hother]
        exact h.stage i q' b ⟨hle, hi, hsub⟩
    · obtain ⟨p', hp'⟩ := hp.keep hs
      exact ⟨row, hget, j, p', body', hp', hcarries⟩
  · have hkept := getRca_kept hgate hloaded hs hflushes
    refine ⟨hitem, hunique, hlength, hcount, hold, fun k q body hq => (stage_step h he hs hflushes hq).1,
      fun k q body loaded hq hpc => ?_, fun hlanded => ?_⟩
    · rw [hkept]
      rcases (stage_step h he hs hflushes hq).2 with hq | ⟨_, hselected⟩
      · rcases h.current k q body loaded hq hpc with hcurrent | ⟨j, p, b, r, hp, hr⟩
        · exact .inl hcurrent
        · have hended := ended_stays hs hp.2.1 (by simp [hr])
          exact .inr ⟨j, p, b, r, ⟨hp.1, hended, hp.2.2⟩, hr⟩
      · exact .inl (hselected loaded hpc)
    · obtain ⟨row, hget, j, p, body, hp, hcarries⟩ := h.stored (landed_back h he hs hflushes hlanded)
      obtain ⟨p', hp'⟩ := hp.keep hs
      exact ⟨row, by rw [hkept, hget], j, p', body, hp', hcarries⟩

end Steps

theorem unique_init (n : Nat) : UniqueWf (init n).stores.postgres := List.nodup_nil

theorem racing_start {wi : WorkItem} (hitem : getWorkItem s₀.stores.postgres w = some wi)
    (hunique : UniqueWf s₀.stores.postgres)
    (hidle : ∀ q ∈ s₀.requests, submitsTo w q = true → q.status ≠ .running) : Racing s₀ w [] s₀ := by
  have hnone (body : RCAIn) (k : Nat) (q : Request) (hq : Sent s₀ w body s₀ k q) : False :=
    absurd (lt_of_slot hq.2.1) (Nat.not_lt.mpr hq.1)
  refine ⟨⟨origin wi, List.mem_map_of_mem (item_of_get hitem).1, (item_of_get hitem).2⟩, hunique,
    le_refl _, fun _ _ => rfl, fun k q _ hk => hidle q (List.mem_of_getElem? hk), ?_, ?_, ?_⟩
  · exact fun k q body hq => (hnone body k q hq).elim
  · exact fun k q body loaded hq => (hnone body k q hq).elim
  · rintro ⟨k, q, body, r, hq, _⟩
    exact (hnone body k q hq).elim

theorem atomic_of_racing (h : Racing s₀ w es t) : Atomic cfg s₀ w es t := by
  constructor
  · intro k q body hle hk hsub
    have hstage := (h.stage k q body ⟨hle, hk, hsub⟩).2
    generalize ownSteps k es = own at hstage
    cases hstage with
    | answered _ _ row hstatus => exact .inr ⟨row, hstatus⟩
    | item | select | flush => exact .inl ⟨rfl, by decide, by simp [step, hk]⟩
  · rintro ⟨k, q, body, r, hle, hk, hsub, hr⟩
    obtain ⟨row, hget, j, p, body', hp, hcarries⟩ := h.stored ⟨k, q, body, r, ⟨hle, hk, hsub⟩, hr⟩
    unfold getRca at hget
    have hw : row.workItemId = w := by simpa using List.find?_some hget
    refine ⟨row, ?_, j, p, body', hp.1, hp.2.1, hp.2.2, hcarries⟩
    rw [← hw]
    exact filter_key h.unique (List.mem_of_find?_eq_some hget)

/-- Submissions that race are atomic as long as every flush fits the row that it
meets, from any state in which no other submission to the item is under way. -/
theorem submissions_atomic {ok : World → Event → Prop} {n : Nat} {es₀ : List Event}
    (h : Trace (step cfg) ok (init n) es₀ s₀) {wi : WorkItem}
    (hitem : getWorkItem s₀.stores.postgres w = some wi)
    (hidle : ∀ q ∈ s₀.requests, submitsTo w q = true → q.status ≠ .running)
    (hrace : Trace (step cfg) (fun s e => Submitting w s e ∧ fitting w s e = true) s₀ es t) :
    Atomic cfg s₀ w es t := by
  have hwf : (GateWf s₀ ∧ LoadedWf s₀) ∧ UniqueWf s₀.stores.postgres := by
    refine h.invariant (fun s => (GateWf s ∧ LoadedWf s) ∧ UniqueWf s.stores.postgres)
      ⟨⟨gateWf_init n, fun _ hq => absurd hq List.not_mem_nil⟩, unique_init n⟩ ?_
    rintro s e t ⟨⟨hgate, hloaded⟩, hunique⟩ _ hs
    exact ⟨⟨gateWf_step hgate hs, loadedWf_step hloaded hs⟩, uniqueWf_step hunique hs⟩
  have hraces := hrace.with_invariant (fun s => GateWf s ∧ LoadedWf s) hwf.1
    fun _ _ _ hwf _ hs => ⟨gateWf_step hwf.1 hs, loadedWf_step hwf.2 hs⟩
  apply atomic_of_racing
  apply hraces.invariant_past (Racing s₀ w) (racing_start hitem hwf.2 hidle)
  rintro es s e t _ hracing ⟨⟨hgate, hloaded⟩, hsubmitting, hfitting⟩ hs
  exact racing_step hracing hsubmitting hs hgate hloaded hfitting

def restartRca : RCAIn :=
  { rollbackRca with fixApplied := "restart", fixApplied_not_blank := by decide }

def monitorRca : RCAIn :=
  { rollbackRca with prevention := "monitor", prevention_not_blank := by decide }

def scaleRca : RCAIn where
  rootCauseCategory := .CAPACITY
  fixApplied := "scale up"
  prevention := "autoscale"
  rcaStartTime := .utc 2
  rcaEndTime := .utc 5
  fixApplied_not_blank := by decide
  prevention_not_blank := by decide

def submitted : List Event := created ++ [.call (.submitRca 1 rollbackRca)] ++ requestOn 0 3

structure Start (es₀ : List Event) (s₀ : World) : Prop where
  trace : Trace (step {}) (fun _ _ => True) (init 1) es₀ s₀
  item : ∃ wi, getWorkItem s₀.stores.postgres 1 = some wi
  idle : ∀ q ∈ s₀.requests, submitsTo 1 q = true → q.status ≠ .running

theorem race_of_replay (ok : World → Event → Prop) [∀ s e, Decidable (ok s e)] (es₀ es : List Event)
    (p : World → World → Bool) (h : (replay (step {}) (fun _ _ => True) (init 1) es₀).any (fun s =>
      (getWorkItem s.stores.postgres 1).isSome && s.requests.all (fun q => ended q.status) &&
        (replay (step {}) ok s es).any (p s)) = true) :
    ∃ s₀ t, Start es₀ s₀ ∧ Trace (step {}) ok s₀ es t ∧ p s₀ t = true := by
  obtain ⟨s₀, h₀, hp₀⟩ := trace_of_replay _ _ _ _ _ h
  simp only [Bool.and_eq_true, List.all_eq_true] at hp₀
  obtain ⟨t, ht, hp⟩ := trace_of_replay _ _ _ _ _ hp₀.2
  refine ⟨s₀, t, ⟨h₀, Option.isSome_iff_exists.mp hp₀.1.1, fun q hq _ hrun => ?_⟩, ht, hp⟩
  have := hp₀.1.2 q hq
  rw [hrun] at this
  cases this

def overwriting : List Event :=
  [.call (.submitRca 1 restartRca), .call (.submitRca 1 scaleRca)] ++ requestOn 1 2 ++ requestOn 2 2 ++
    requestOn 1 1 ++ requestOn 2 1

theorem submissions_atomic_overwriting :
    ∃ s₀ t : World, t.stores.postgres.rca.map RCA.fixApplied = ["scale up"] ∧
      Atomic {} s₀ 1 overwriting t := by
  obtain ⟨s₀, t, ⟨h₀, ⟨wi, hwi⟩, hidle⟩, ht, hp⟩ := race_of_replay
    (fun s e => Submitting 1 s e ∧ fitting 1 s e = true) submitted overwriting
    (fun _ t => decide (t.stores.postgres.rca.map RCA.fixApplied = ["scale up"])) (by decide +kernel)
  exact ⟨s₀, t, of_decide_eq_true hp, submissions_atomic h₀ hwi hidle ht⟩

def firstRace : List Event :=
  [.call (.submitRca 1 restartRca), .call (.submitRca 1 monitorRca)] ++ requestOn 0 2 ++ requestOn 1 2 ++
    requestOn 0 1 ++ requestOn 1 1

def merging : List Event :=
  [.call (.submitRca 1 restartRca), .call (.submitRca 1 monitorRca)] ++ requestOn 1 2 ++ requestOn 2 2 ++
    requestOn 1 1 ++ requestOn 2 1

def NotAtomic (es₀ es : List Event) : Prop :=
  ∃ s₀ t, Start es₀ s₀ ∧ Trace (step {}) (Submitting 1) s₀ es t ∧ ¬ Atomic {} s₀ 1 es t

def raisedAt (k : Nat) (s₀ t : World) : Bool :=
  decide (s₀.requests.length ≤ k) && (t.requests[k]?).any fun q => submitsTo 1 q && match q.status with
    | .raised _ => true
    | _ => false

theorem not_atomic_of_raised (h : raisedAt k s₀ t = true) : ¬ Atomic {} s₀ 1 es t := by
  intro hatomic
  obtain ⟨hk, h⟩ := Bool.and_eq_true_iff.mp h
  obtain ⟨q, hq, h⟩ := (Option.any_eq_true _ _).mp h
  rw [Bool.and_eq_true] at h
  obtain ⟨body, hbody⟩ := submitsTo_iff.mp h.1
  rcases hatomic.succeed k q body (of_decide_eq_true hk) hq hbody with ⟨hrun, _⟩ | ⟨row, hresponded⟩
  · simp [hrun] at h
  · simp [hresponded] at h

/-- The row that is stored has the columns of no body that was sent. -/
def mergedBy (k : Nat) (s₀ t : World) : Bool :=
  decide (s₀.requests.length ≤ k) && ((t.requests[k]?).any fun q => submitsTo 1 q && match q.status with
    | .responded _ => true
    | _ => false) &&
  t.stores.postgres.rca.all fun row => (t.requests.drop s₀.requests.length).all fun q =>
    (submission q.pc).all fun sent => !columns.all fun c => c.holds sent.2 row

theorem not_atomic_of_merged (h : mergedBy k s₀ t = true) : ¬ Atomic {} s₀ 1 es t := by
  intro hatomic
  simp only [mergedBy, Bool.and_eq_true] at h
  obtain ⟨⟨hk, hlanded⟩, hmerged⟩ := h
  obtain ⟨q, hq, hlanded⟩ := (Option.any_eq_true _ _).mp hlanded
  rw [Bool.and_eq_true] at hlanded
  obtain ⟨body, hbody⟩ := submitsTo_iff.mp hlanded.1
  obtain ⟨r, hr⟩ : ∃ r, q.status = .responded r := by
    cases hstatus : q.status with
    | responded r => exact ⟨r, rfl⟩
    | running | raised | aborted => simp [hstatus] at hlanded
  obtain ⟨row, hrow, j, p, sent, hj, hp, hsent, hcarries⟩ :=
    hatomic.one ⟨k, q, body, r, of_decide_eq_true hk, hq, hbody, hr⟩
  have hmem : row ∈ t.stores.postgres.rca := by
    have : row ∈ t.stores.postgres.rca.filter fun row => row.workItemId = 1 := by rw [hrow]; simp
    exact List.mem_of_mem_filter this
  have hdrop : p ∈ t.requests.drop s₀.requests.length := by
    apply List.mem_of_getElem? (i := j - s₀.requests.length)
    rw [List.getElem?_drop, Nat.add_sub_cancel' hj]
    exact hp
  have hnot := List.all_eq_true.mp (List.all_eq_true.mp hmerged row hmem) p hdrop
  rw [hsent, Option.all_some, Bool.not_eq_true', List.all_eq_false] at hnot
  obtain ⟨c, _, hc⟩ := hnot
  exact hc (hcarries c)

theorem submissions_not_atomic : NotAtomic created firstRace ∧ NotAtomic submitted merging := by
  constructor
  · obtain ⟨s₀, t, hstart, ht, hp⟩ := race_of_replay (Submitting 1) created firstRace (raisedAt 1)
      (by decide +kernel)
    exact ⟨s₀, t, hstart, ht, not_atomic_of_raised hp⟩
  · obtain ⟨s₀, t, hstart, ht, hp⟩ := race_of_replay (Submitting 1) submitted merging (mergedBy 2)
      (by decide +kernel)
    exact ⟨s₀, t, hstart, ht, not_atomic_of_merged hp⟩

end Ims.SubmissionRaces
