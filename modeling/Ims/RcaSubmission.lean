import Ims.Components

namespace Ims.RcaSubmission

open Library.Text Library.Runs Library.Tables Library.Slots Time Models RcaValidator PostgresRepo Ingestion
  Service WorkerSteps ApiSteps ServiceSteps WorkerMoves WorkerFrames Rows Requests RcaGate RequestMoves
open Workers (Stores Run Outcome)
open IncidentsApi (Request Pc Status Response Next Call)

inductive Column
  | rootCauseCategory | fixApplied | prevention | rcaStartTime | rcaEndTime

def columns : List Column :=
  [.rootCauseCategory, .fixApplied, .prevention, .rcaStartTime, .rcaEndTime]

/-- The session finds the new value equal to the loaded one, and leaves the
column out of the UPDATE. -/
def Column.leftOut (old : RCA) (body : RCAIn) : Column → Bool
  | .rootCauseCategory => body.rootCauseCategory.value = old.rootCauseCategory
  | .fixApplied => body.fixApplied = old.fixApplied
  | .prevention => body.prevention = old.prevention
  | .rcaStartTime => body.rcaStartTime.eq (.utc old.rcaStartTime)
  | .rcaEndTime => body.rcaEndTime.eq (.utc old.rcaEndTime)

def Column.holds (body : RCAIn) (row : RCA) : Column → Bool
  | .rootCauseCategory => row.rootCauseCategory = body.rootCauseCategory.value
  | .fixApplied => row.fixApplied = body.fixApplied
  | .prevention => row.prevention = body.prevention
  | .rcaStartTime => row.rcaStartTime = body.rcaStartTime.instant
  | .rcaEndTime => row.rcaEndTime = body.rcaEndTime.instant

def Carries (body : RCAIn) (row : RCA) : Prop := ∀ c : Column, c.holds body row = true

def Alone (k : Nat) : Event → Prop
  | .request j o => j = k ∧ o = .ok
  | .abortRequest _ => False
  | _ => True

instance (k : Nat) : DecidablePred (Alone k)
  | .request j o => inferInstanceAs (Decidable (j = k ∧ o = .ok))
  | .abortRequest _ => .isFalse id
  | .offer _ | .get _ | .getTimeout | .cancelIdle | .run _ _ | .cancelRun _ | .call _ | .expire _
  | .burnWorkItemId | .burnRcaId | .setClock _ => .isTrue trivial

def ownSteps (k : Nat) (es : List Event) : Nat := es.countP fun e => requestIndex e = some k

/-- The two answers of submit_rca: the times are refused and no row of rca has
changed since s, or the row that is stored passes the CHECKs and the validator. -/
inductive Answered (s t : World) (w : Int) (body : RCAIn) : Status → Prop
  | refused (horder : body.rcaEndTime.instant < body.rcaStartTime.instant)
      (hrca : t.stores.postgres.rca = s.stores.postgres.rca) :
      Answered s t w body (.responded (.http IncidentsApi.invalidTimeRange))
  | stored (row) (horder : body.rcaStartTime.instant ≤ body.rcaEndTime.instant)
      (hget : getRca t.stores.postgres w = some row) (hcarries : Carries body row)
      (hcheck : rcaCheck row = true) (hvalid : validate (some (ofRow row)) = .ok ()) :
      Answered s t w body (.responded (.rca row))

/-- However the other parts of the service go on meanwhile, the submission made
in s answers after at most three operations, in one of its two ways. -/
def Settles (cfg : Settings) (s : World) (w : Int) (body : RCAIn) : Prop :=
  ∀ s₁ es t q, step cfg s (.call (.submitRca w body)) = some s₁ →
    Trace (step cfg) (fun _ e => Alone s.requests.length e) s₁ es t →
      t.requests[s.requests.length]? = some q →
        (q.status = .running ∧ ownSteps s.requests.length es < 3 ∧
            (step cfg t (.request s.requests.length .ok)).isSome = true) ∨
          Answered s t w body q.status

def Comparable (a b : Datetime) : Prop := a.utcoffset.isSome = b.utcoffset.isSome

variable {cfg : Settings} {s t u : World} {e : Event} {w now : Int} {body : RCAIn} {row : RCA}
  {pg : Postgres} {q : Request} {k own : Nat}

theorem isBlankSql_false {text : String} (h : strip text ≠ "") : isBlankSql text = false := by
  have htrim : trim (· = ' ') text ≠ "" := by
    apply trim_ne_empty_of_imp (p := isSpace) _ h
    intro c hc
    rw [of_decide_eq_true hc]
    rfl
  simpa [isBlankSql] using htrim

theorem carries_iff : Carries body row ↔
    row.rootCauseCategory = body.rootCauseCategory.value ∧ row.fixApplied = body.fixApplied ∧
      row.prevention = body.prevention ∧ row.rcaStartTime = body.rcaStartTime.instant ∧
        row.rcaEndTime = body.rcaEndTime.instant := by
  constructor
  · intro h
    exact ⟨of_decide_eq_true (h .rootCauseCategory), of_decide_eq_true (h .fixApplied),
      of_decide_eq_true (h .prevention), of_decide_eq_true (h .rcaStartTime),
      of_decide_eq_true (h .rcaEndTime)⟩
  · rintro ⟨hcategory, hfix, hprevention, hstart, hstop⟩ c
    cases c with
    | rootCauseCategory => exact decide_eq_true hcategory
    | fixApplied => exact decide_eq_true hfix
    | prevention => exact decide_eq_true hprevention
    | rcaStartTime => exact decide_eq_true hstart
    | rcaEndTime => exact decide_eq_true hstop

/-- A row that the validator accepts passes the CHECKs, which trim spaces only. -/
theorem rcaCheck_of_valid (h : validate (some (ofRow row)) = .ok ()) : rcaCheck row = true := by
  obtain ⟨hcategory, hfix, hprevention, horder⟩ := (validate_ofRow row).mp h
  rw [rcaCheck, isBlankSql_false hcategory, isBlankSql_false hfix, isBlankSql_false hprevention]
  simpa using horder

theorem Carries.valid (h : Carries body row)
    (horder : body.rcaStartTime.instant ≤ body.rcaEndTime.instant) :
    validate (some (ofRow row)) = .ok () := by
  obtain ⟨hcategory, hfix, hprevention, hstart, hstop⟩ := carries_iff.mp h
  rw [validate_ofRow, hcategory, hfix, hprevention, hstart, hstop]
  exact ⟨category_not_blank _, body.fixApplied_not_blank, body.prevention_not_blank, horder⟩

theorem carries_new (pg : Postgres) (w : Int) (body : RCAIn) (now : Int) :
    Carries body (newRca pg w body now) := carries_iff.mpr ⟨rfl, rfl, rfl, rfl, rfl⟩

/-- A column that the UPDATE leaves out keeps the value that the row has by then. -/
theorem holds_overwrite (old row : RCA) (body : RCAIn) (c : Column) :
    c.holds body (overwriteRca old body row) = (!c.leftOut old body || c.holds body row) := by
  cases c with
  | rootCauseCategory | fixApplied | prevention | rcaStartTime | rcaEndTime =>
      simp only [Column.holds, Column.leftOut, overwriteRca]
      split <;> simp [*]

theorem leftOut_holds (body : RCAIn) (row : RCA) (c : Column) (h : c.leftOut row body = true) :
    c.holds body row = true := by
  cases c with
  | rootCauseCategory | fixApplied | prevention =>
      exact decide_eq_true (of_decide_eq_true h).symm
  | rcaStartTime | rcaEndTime => exact decide_eq_true (instant_of_eq h).symm

theorem carries_overwrite {old : RCA}
    (h : ∀ c : Column, c.leftOut old body = true → c.holds body row = true) :
    Carries body (overwriteRca old body row) := by
  intro c
  rw [holds_overwrite]
  cases hout : c.leftOut old body with
  | false => rfl
  | true => exact h c hout

theorem getRca_updated {old : RCA} (hget : getRca pg w = some row) (hid : row.id = old.id) :
    getRca { pg with
      rca := updateWhere (fun other => other.id = old.id) (overwriteRca old body) pg.rca } w =
      some (overwriteRca old body row) := by
  have hkey : ∀ other : RCA, decide ((overwriteRca old body other).workItemId = w) =
      decide (other.workItemId = w) := fun _ => rfl
  rw [getRca, find?_updateWhere hkey, ← getRca, hget]
  simp [hid]

/-- A flush right after its own SELECT stores the body. -/
theorem flushRca_selected (hids : (pg.rca.map RCA.id).Nodup)
    (horder : body.rcaStartTime.instant ≤ body.rcaEndTime.instant) (w now : Int) :
    ∃ pg' row, flushRca pg w (getRca pg w) body now = .ok (pg', row) ∧
      getRca pg' w = some row ∧ Carries body row := by
  cases hget : getRca pg w with
  | none =>
      have hcarries := carries_new pg w body now
      refine ⟨_, _, flushRca_insert hget (rcaCheck_of_valid (hcarries.valid horder)), ?_, hcarries⟩
      rw [getRca, List.find?_append, ← getRca, hget]
      simp [newRca]
  | some row =>
      have hcarries : Carries body (overwriteRca row body row) := carries_overwrite (leftOut_holds body row)
      have hrow : row ∈ pg.rca := by
        unfold getRca at hget
        exact List.mem_of_find?_eq_some hget
      exact ⟨_, _, flushRca_update hids hrow rfl (rcaCheck_of_valid (hcarries.valid horder)) w now,
        getRca_updated hget rfl, hcarries⟩

inductive Submission (s t : World) (w : Int) (body : RCAIn) : Nat → Request → Prop
  | item (hrca : t.stores.postgres.rca = s.stores.postgres.rca) (hitem : ∃ wi ∈ origins t.stores, wi.id = w) :
      Submission s t w body 0 { pc := .submitItem w body }
  | select (hrca : t.stores.postgres.rca = s.stores.postgres.rca)
      (horder : body.rcaStartTime.instant ≤ body.rcaEndTime.instant) :
      Submission s t w body 1 { pc := .selectRca w body }
  | flush (horder : body.rcaStartTime.instant ≤ body.rcaEndTime.instant) :
      Submission s t w body 2 { pc := .flushRca w body (getRca t.stores.postgres w) }
  | answered (n p) (h : Answered s t w body p.status) : Submission s t w body n p

theorem Answered.keep {status : Status} (h : Answered s t w body status)
    (hrca : u.stores.postgres.rca = t.stores.postgres.rca) : Answered s u w body status := by
  cases h with
  | refused horder hold => exact .refused horder (hrca.trans hold)
  | stored row horder hget hcarries hcheck hvalid =>
      refine .stored row horder ?_ hcarries hcheck hvalid
      rwa [getRca, hrca]

theorem Submission.keep (h : Submission s t w body own q)
    (hrca : u.stores.postgres.rca = t.stores.postgres.rca) (hgrow : Grows t.stores u.stores) :
    Submission s u w body own q := by
  cases h with
  | item hold hitem =>
      obtain ⟨wi, hwi, hid⟩ := hitem
      exact .item (hrca.trans hold) ⟨wi, hgrow.items wi hwi, hid⟩
  | select hold horder => exact .select (hrca.trans hold) horder
  | flush horder =>
      have hget : getRca t.stores.postgres w = getRca u.stores.postgres w := by rw [getRca, getRca, hrca]
      rw [hget]
      exact .flush horder
  | answered _ _ h => exact .answered _ _ (h.keep hrca)

/-- Only requests write to rca. -/
theorem rca_kept (hs : step cfg t e = some u) (he : ∀ j o, e ≠ .request j o) :
    u.stores.postgres.rca = t.stores.postgres.rca := by
  cases step_rcaMove hs with
  | keep hrca => exact hrca
  | flush k o _ _ _ _ _ hevent => exact absurd hevent (he k o)

theorem getWorkItem_of_origin {st : Stores} (h : ∃ wi ∈ origins st, wi.id = w) :
    ∃ wi, getWorkItem st.postgres w = some wi := by
  obtain ⟨_, hwi, hid⟩ := h
  obtain ⟨wi, hmem, rfl⟩ := List.mem_map.mp hwi
  have hid : wi.id = w := hid
  cases hget : getWorkItem st.postgres w with
  | none => exact absurd hid (by simpa using List.find?_eq_none.mp hget wi hmem)
  | some row => exact ⟨row, rfl⟩

theorem lt_order (hkind : Comparable body.rcaEndTime body.rcaStartTime) :
    body.rcaEndTime.lt body.rcaStartTime =
      some (decide (body.rcaEndTime.instant < body.rcaStartTime.instant)) := lt_sameKind hkind

theorem Answered.not_running (h : Answered s t w body q.status) : q.status ≠ .running := by
  generalize q.status = status at h
  cases h <;> exact nofun

theorem submission_attempt (hids : (t.stores.postgres.rca.map RCA.id).Nodup)
    (hkind : Comparable body.rcaEndTime body.rcaStartTime) (h : Submission s t w body own q)
    (hrun : q.status = .running) (hst : u.stores = (q.attempt .ok t.clock t.stores).1) :
    Submission s u w body (own + 1) (q.attempt .ok t.clock t.stores).2 := by
  cases h with
  | item hrca hitem =>
      obtain ⟨wi, hget⟩ := getWorkItem_of_origin hitem
      by_cases horder : body.rcaEndTime.instant < body.rcaStartTime.instant
      · simp only [Request.attempt, Request.perform, hget, lt_order hkind, horder, decide_true] at hst ⊢
        refine .answered 1 _ (.refused horder ?_)
        rw [hst, hrca]
      · simp only [Request.attempt, Request.perform, hget, lt_order hkind, horder, decide_false] at hst ⊢
        refine .select ?_ (Int.not_lt.mp horder)
        rw [hst, hrca]
  | select hrca horder =>
      simp only [Request.attempt, Request.perform] at hst ⊢
      rw [← hst]
      exact .flush horder
  | flush horder =>
      obtain ⟨pg, row, hflush, hget, hcarries⟩ := flushRca_selected hids horder w t.clock
      simp only [Request.attempt, Request.perform, hflush] at hst ⊢
      refine .answered 3 _ (.stored row horder ?_ hcarries
        (rcaCheck_of_valid (hcarries.valid horder)) (hcarries.valid horder))
      rw [hst, hget]
  | answered _ _ h => exact absurd hrun h.not_running

theorem submission_step (hgate : GateWf t) (hkind : Comparable body.rcaEndTime body.rcaStartTime)
    (h : ∃ q, t.requests[k]? = some q ∧ Submission s t w body own q) (he : Alone k e)
    (hs : step cfg t e = some u) :
    ∃ q, u.requests[k]? = some q ∧ Submission s u w body (own + ownSteps k [e]) q := by
  obtain ⟨q, hk, hq⟩ := h
  obtain ⟨q', hk', hnext⟩ := step_requestNext hs hk
  refine ⟨q', hk', ?_⟩
  cases hnext with
  | other hother =>
      have hrca : u.stores.postgres.rca = t.stores.postgres.rca := by
        apply rca_kept hs
        rintro j o rfl
        exact hother (congrArg some he.1)
      have hown : ownSteps k [e] = 0 := by simp [ownSteps, hother]
      rw [hown]
      exact hq.keep hrca (step_grows hs)
  | attempt o hrun hevent hst =>
      subst hevent
      obtain ⟨_, rfl⟩ := he
      have hown : ownSteps k [Event.request k .ok] = 1 := by simp [ownSteps, requestIndex]
      rw [hown]
      exact submission_attempt hgate.rca.ids hkind hq hrun hst
  | abort _ hevent =>
      subst hevent
      cases he

theorem step_call {c : Call} (hw : 1 ≤ c.workItemId) :
    step cfg s (.call c) = some { s with requests := s.requests ++ [{ pc := c.entry }] } := by
  simp only [step]
  exact if_neg (Int.not_lt.mpr hw)

theorem Submission.settles (h : Submission s t w body own q) :
    q.status = .running ∧ own < 3 ∨ Answered s t w body q.status := by
  cases h with
  | item | select | flush => exact .inl ⟨rfl, by decide⟩
  | answered _ _ h => exact .inr h

theorem raises_typeError (hkind : ¬ Comparable body.rcaEndTime body.rcaStartTime) {wi : WorkItem}
    (hget : getWorkItem t.stores.postgres w = some wi)
    (hk : t.requests[k]? = some { pc := .submitItem w body }) :
    step cfg t (.request k .ok) = some { t with
      requests := t.requests.set k { pc := .submitItem w body, status := .raised .typeError } } := by
  have hlt : body.rcaEndTime.lt body.rcaStartTime = none := lt_none_iff.mpr hkind
  simp only [step, hk, Option.bind_eq_bind, Option.bind_some, Request.attempt, Request.perform, hget, hlt]
  rfl

/-- Times of different kinds are compared, which raises. -/
theorem comparable_of_settles (hw : 1 ≤ w) {wi : WorkItem}
    (hitem : getWorkItem s.stores.postgres w = some wi) (h : Settles cfg s w body) :
    Comparable body.rcaEndTime body.rcaStartTime := by
  by_contra hkind
  have hcall : step cfg s (.call (.submitRca w body)) = some { s with
      requests := s.requests ++ [{ pc := .submitItem w body }] } := step_call hw
  have hk : (s.requests ++ [{ pc := .submitItem w body }])[s.requests.length]? =
      some ({ pc := .submitItem w body } : Request) := List.getElem?_concat_length
  have hraise : step cfg { s with requests := s.requests ++ [{ pc := .submitItem w body }] }
      (.request s.requests.length .ok) = some _ := raises_typeError hkind hitem hk
  have halone : Alone s.requests.length (.request s.requests.length .ok) := ⟨rfl, rfl⟩
  rcases h _ _ _ _ hcall (.next .start halone hraise) (List.getElem?_set_self (lt_of_slot hk)) with
    ⟨hrun, _⟩ | hanswered
  · cases hrun
  · cases hanswered

theorem settles_of_comparable (hgate : GateWf s) (hw : 1 ≤ w) {wi : WorkItem}
    (hitem : getWorkItem s.stores.postgres w = some wi) (hkind : Comparable body.rcaEndTime body.rcaStartTime) :
    Settles cfg s w body := by
  intro s₁ es t q hcall htrace hk
  have hgates := htrace.with_invariant GateWf (gateWf_step hgate hcall) fun _ _ _ hwf _ hs =>
    gateWf_step hwf hs
  cases (step_call (c := .submitRca w body) hw).symm.trans hcall
  have hsub : ∃ q, t.requests[s.requests.length]? = some q ∧
      Submission s t w body (ownSteps s.requests.length es) q := by
    apply hgates.invariant_past fun es t => ∃ q, t.requests[s.requests.length]? = some q ∧
      Submission s t w body (ownSteps s.requests.length es) q
    · refine ⟨_, List.getElem?_concat_length, .item rfl ⟨origin wi, ?_, (item_of_get hitem).2⟩⟩
      exact List.mem_map_of_mem (item_of_get hitem).1
    · intro es t e u _ hsub he hs
      rw [ownSteps, List.countP_append]
      exact submission_step he.1 hkind hsub he.2 hs
  obtain ⟨q', hk', hq'⟩ := hsub
  cases hk.symm.trans hk'
  rcases hq'.settles with ⟨hrun, hlt⟩ | hanswered
  · exact .inl ⟨hrun, hlt, by simp [step, hk, hrun]⟩
  · exact .inr hanswered

/-- What a submission stores passes the CHECKs and the validator, if and only if
the times of its body are both naive or both aware. -/
theorem submitted_rca_passes_gate {ok : World → Event → Prop} {n : Nat} {es : List Event}
    (h : Trace (step cfg) ok (init n) es s) (hw : 1 ≤ w) {wi : WorkItem}
    (hitem : getWorkItem s.stores.postgres w = some wi) {raw : RCABody} (hraw : rcaIn raw = some body) :
    Settles cfg s w body ↔ Comparable raw.rcaEndTime raw.rcaStartTime := by
  have hgate := gateWf_trace h
  obtain ⟨hstart, hstop⟩ := rcaIn_times hraw
  rw [← hstart, ← hstop]
  exact ⟨comparable_of_settles hw hitem, settles_of_comparable hgate hw hitem⟩

def naiveBody : RCABody where
  rootCauseCategory := "CONFIG"
  fixApplied := " rollback\n"
  prevention := " review "
  rcaStartTime := ⟨0, none⟩
  rcaEndTime := ⟨1, none⟩

def mixedBody : RCABody := { naiveBody with rcaEndTime := ⟨1, some 0⟩ }

def created : List Event := [.offer (errorSignal "db"), .get "a"] ++ runOn 0 10

theorem submitted_rca_passes_gate_naive_body :
    ∃ s body, rcaIn naiveBody = some body ∧ body.fixApplied = "rollback" ∧
      (getWorkItem s.stores.postgres 1).isSome = true ∧ Settles {} s 1 body := by
  obtain ⟨s, hs, hp⟩ := trace_of_replay (step {}) (fun _ _ => True) (init 1) created
    (fun s => (getWorkItem s.stores.postgres 1).isSome) (by decide +kernel)
  obtain ⟨wi, hwi⟩ := Option.isSome_iff_exists.mp hp
  obtain ⟨body, hbody, hfix⟩ := (Option.any_eq_true (fun body => decide (body.fixApplied = "rollback"))
    (rcaIn naiveBody)).mp (by decide +kernel)
  exact ⟨s, body, hbody, of_decide_eq_true hfix, hp,
    (submitted_rca_passes_gate hs (le_refl 1) hwi hbody).mpr rfl⟩

/-- The comparison of a naive time with an aware one raises TypeError. -/
theorem mixed_times_raise :
    ∃ s body, Trace (step {}) (fun _ _ => True) (init 1) created s ∧
      (getWorkItem s.stores.postgres 1).isSome = true ∧ rcaIn mixedBody = some body ∧
        ¬ Settles {} s 1 body := by
  obtain ⟨s, hs, hp⟩ := trace_of_replay (step {}) (fun _ _ => True) (init 1) created
    (fun s => (getWorkItem s.stores.postgres 1).isSome) (by decide +kernel)
  obtain ⟨wi, hwi⟩ := Option.isSome_iff_exists.mp hp
  obtain ⟨body, hbody⟩ := Option.isSome_iff_exists.mp
    (show (rcaIn mixedBody).isSome = true by decide +kernel)
  refine ⟨s, body, hs, hp, hbody, fun hsettles => ?_⟩
  obtain ⟨hstart, hstop⟩ := rcaIn_times hbody
  have hkind := comparable_of_settles (le_refl 1) hwi hsettles
  rw [Comparable, hstart, hstop] at hkind
  cases hkind

end Ims.RcaSubmission
