import Ims.RequestMoves
import Ims.Requests
import Mathlib.Data.Prod.Lex
import Mathlib.Order.WellFounded

namespace Ims.RequestEnds

open Library.Runs Library.Slots Models States PostgresRepo Retry Ingestion Service ApiSteps Requests
  RequestMoves
open Workers (Stores Run Outcome)
open IncidentsApi (Request Pc Next Response Call zremNext HTTPException)

variable {cfg : Settings} {s t : World} {e : Event} {st st' : Stores} {w now : Int} {q : Request}
  {k n : Nat} {wi : WorkItem} {result : TransitionResult} {es : List Event}

/-- The cleanup of Redis, whose failure the handler logs. -/
def cleans : Pc → Bool
  | .feedMembers _ _ _ | .zremMember _ _ _ _ _ | .clearDedup _ _ _ => true
  | .transitionItem _ _ | .transitionRca _ _ _ | .updateState _ _ _ | .fresh _ _ | .submitItem _ _
  | .selectRca _ _ | .flushRca _ _ _ | .incidentItem _ | .incidentRca _ _ => false

def early : Pc → Bool
  | .transitionItem _ _ | .transitionRca _ _ _ | .submitItem _ _ | .incidentItem _ => true
  | .updateState _ _ _ | .feedMembers _ _ _ | .zremMember _ _ _ _ _ | .clearDedup _ _ _ | .fresh _ _
  | .selectRca _ _ | .flushRca _ _ _ | .incidentRca _ _ => false

def Untouched (cfg : Settings) (n : Nat) (es : List Event) (k : Nat) : Prop :=
  ∀ es₁ o es₂ s₁ s₂, es = es₁ ++ .request k o :: es₂ →
    Trace (step cfg) (fun _ _ => True) (init n) es₁ s₁ → step cfg s₁ (.request k o) = some s₂ →
      s₂.stores = s₁.stores

theorem attempt_stores_early (h : early q.pc = true) (o : Outcome) (now : Int) (st : Stores) :
    (q.attempt o now st).1 = st := by
  have heffect := attempt_effect now st q o
  generalize (q.attempt o now st).1 = st' at heffect
  cases heffect with
  | none => rfl
  | updateState _ _ _ hpc | zrem _ _ _ _ _ hpc | clearDedup _ _ _ hpc | flushRca _ _ _ _ _ hpc =>
      rw [hpc] at h
      cases h

theorem early_of_attempt {o : Outcome} (h : early (q.attempt o now st).2.pc = true) :
    early q.pc = true := by
  have hmove := attempt_pcMove q o now st
  generalize q.pc = pc, (q.attempt o now st).2.pc = pc' at hmove h ⊢
  cases hmove with
  | stay => exact h
  | readItem | decided | checked | readIncident => rfl
  | closed | moved | scanned | scannedNone | removed | removedLast | cleared | leftScan | leftRemoval
  | selected | retried => cases h

theorem Untouched.next (h : Untouched cfg n es k) {ok : World → Event → Prop}
    (htrace : Trace (step cfg) ok (init n) es s) (hs : step cfg s e = some t)
    (hown : ∀ o, e = .request k o → t.stores = s.stores) : Untouched cfg n (es ++ [e]) k := by
  intro es₁ o es₂ s₁ s₂ hes htrace₁ hs₁
  rcases List.eq_nil_or_concat es₂ with rfl | ⟨es₂, e', rfl⟩
  · obtain ⟨rfl, hlast⟩ := List.append_inj' hes rfl
    cases hlast
    cases htrace.det htrace₁
    cases hs.symm.trans hs₁
    exact hown o rfl
  · rw [List.concat_eq_append, ← List.cons_append, ← List.append_assoc] at hes
    obtain ⟨rfl, _⟩ := List.append_inj' hes rfl
    exact h es₁ o es₂ s₁ s₂ rfl htrace₁ hs₁

theorem untouched_step {ok : World → Event → Prop}
    (htrace : Trace (step cfg) ok (init n) es s)
    (h : ∀ k, (∀ q, s.requests[k]? = some q → early q.pc = true) → Untouched cfg n es k)
    (hs : step cfg s e = some t) :
    ∀ k, (∀ q, t.requests[k]? = some q → early q.pc = true) → Untouched cfg n (es ++ [e]) k := by
  intro k hearly
  have hbefore : ∀ q, s.requests[k]? = some q → early q.pc = true := by
    intro q hk
    obtain ⟨q', hk', hnext⟩ := step_requestNext hs hk
    have hq' := hearly q' hk'
    cases hnext with
    | other | abort => exact hq'
    | attempt o => exact early_of_attempt hq'
  refine (h k hbefore).next htrace hs fun o hevent => ?_
  subst hevent
  obtain ⟨q, hk⟩ := slot_of_index hs rfl
  obtain ⟨_, rfl⟩ := own_request hs hk
  exact attempt_stores_early (hbefore q hk) o s.clock s.stores

theorem cleans_zremNext (w : Int) (wi : WorkItem) (result : TransitionResult) (members : List String) :
    ∃ pc, zremNext w wi result members = .pc pc ∧ cleans pc = true ∧ itemOf pc = w := by
  cases members with
  | nil => exact ⟨_, rfl, rfl, rfl⟩
  | cons member rest => exact ⟨_, rfl, rfl, rfl⟩

theorem perform_http {e : HTTPException} (h : (q.perform now st).2 = .ok (.respond (.http e))) :
    early q.pc = true := by
  cases hpc : q.pc with
  | transitionItem | transitionRca | submitItem | incidentItem => rfl
  | updateState | clearDedup | selectRca | incidentRca =>
      simp only [Request.perform, hpc] at h
      cases h
  | feedMembers w wi result | zremMember w wi result =>
      simp only [Request.perform, hpc] at h
      obtain ⟨pc, hnext, _⟩ := cleans_zremNext w wi result _
      rw [hnext] at h
      cases h
  | fresh | flushRca =>
      simp only [Request.perform, hpc] at h
      split at h <;> cases h

theorem http_step (h : ∀ q ∈ s.requests, ∀ e, q.status = .responded (.http e) → early q.pc = true)
    (hs : step cfg s e = some t) :
    ∀ q ∈ t.requests, ∀ e, q.status = .responded (.http e) → early q.pc = true := by
  intro q hq e hstatus
  obtain ⟨k, hk⟩ := List.mem_iff_getElem?.mp hq
  cases step_requestMove hs hk with
  | new c => cases hstatus
  | other _ hsame => exact h q (List.mem_of_getElem? hsame) e hstatus
  | abort => cases hstatus
  | attempt p o _ hrun =>
      rcases attempt_cases p o s.clock s.stores with ⟨next, _, hreply, hnext⟩ | ⟨err, hnext, _⟩
      · rw [hnext] at hstatus ⊢
        cases next with
        | respond r =>
            cases hstatus
            exact perform_http hreply
        | pc pc =>
            rw [Request.goOn, hrun] at hstatus
            cases hstatus
      · rw [hnext] at hstatus
        rcases (handle_cases p err).2 with hsame | hraised
        · rw [hsame, hrun] at hstatus
          cases hstatus
        · rw [hraised] at hstatus
          cases hstatus

/-- The operations that a request has before it, those of the cleanup apart, and
the members that it has yet to remove. -/
def remaining : Pc → Nat ×ₗ Nat
  | .transitionItem _ _ => toLex (5, 0)
  | .transitionRca _ _ _ => toLex (4, 0)
  | .updateState _ _ _ => toLex (3, 0)
  | .feedMembers _ _ _ => toLex (2, 0)
  | .zremMember _ _ _ _ rest => toLex (1, rest.length + 1)
  | .clearDedup _ _ _ => toLex (1, 0)
  | .fresh _ _ => toLex (0, 0)
  | .submitItem _ _ => toLex (2, 0)
  | .selectRca _ _ => toLex (1, 0)
  | .flushRca _ _ _ => toLex (0, 0)
  | .incidentItem _ => toLex (1, 0)
  | .incidentRca _ _ => toLex (0, 0)

theorem remaining_zremNext {members : List String} {pc : Pc} (h : zremNext w wi result members = .pc pc) :
    remaining pc = toLex (1, members.length) := by
  cases members with
  | nil | cons =>
      cases h
      rfl

theorem goesOn_remaining {pc pc' : Pc} (h : GoesOn now st pc (.pc pc')) : remaining pc' < remaining pc := by
  generalize hn : Next.pc pc' = next at h
  cases h with
  | scanned w wi result members | removed w wi result member members =>
      rw [remaining_zremNext hn.symm, remaining, Prod.Lex.toLex_lt_toLex]
      simp
  | shown | answered => cases hn
  | readItem | decided | closed | moved | cleared | checked | selected | readIncident =>
      cases hn
      simp [remaining, Prod.Lex.toLex_lt_toLex]

theorem retryOr_raised (q : Request) {e : Exc} (he : e ≠ .operationalError) (pc : Pc) :
    (q.retryOr e pc).status = .raised e := by
  simp [Request.retryOr, retryPolicy, he]

theorem flushRca_error {pg : Postgres} {loaded : Option RCA} {body : RCAIn} {e : Exc}
    (h : flushRca pg w loaded body now = .error e) : e ≠ .operationalError := by
  rintro rfl
  unfold flushRca at h
  split at h
  · simp only at h
    split at h <;> cases h
  · simp only at h
    split at h
    · cases h
    · split at h <;> cases h

theorem perform_error {e : Exc} (h : (q.perform now st).2 = .error e) :
    (q.handle e).status = .raised e := by
  cases hpc : q.pc with
  | transitionItem | submitItem | incidentItem | transitionRca | fresh | incidentRca =>
      simp only [Request.handle, hpc]
  | updateState | feedMembers | zremMember | clearDedup | selectRca =>
      simp only [Request.perform, hpc] at h
      cases h
  | flushRca w body loaded =>
      simp only [Request.perform, hpc] at h
      simp only [Request.handle, hpc]
      split at h
      · next herror =>
        cases h
        exact retryOr_raised q (flushRca_error herror) _
      · cases h

theorem attempt_progress (q : Request) (now : Int) (st : Stores) :
    (q.attempt .ok now st).2.status ≠ .running ∨
      remaining (q.attempt .ok now st).2.pc < remaining q.pc := by
  rcases attempt_cases q .ok now st with ⟨next, _, hreply, hnext⟩ | ⟨e, hnext, hreply⟩
  · rw [hnext]
    cases next with
    | respond r => exact .inl fun hrun => by cases hrun
    | pc pc => exact .inr (goesOn_remaining (perform_goesOn hreply))
  · rw [hnext, perform_error (hreply rfl)]
    exact .inl fun hrun => by cases hrun

/-- A request whose operations succeed comes to its end. -/
theorem request_returns (cfg : Settings) {ok : World → Event → Prop} (hok : ∀ s, ok s (.request k .ok))
    (x : Nat ×ₗ Nat) : ∀ s q, s.requests[k]? = some q → q.status = .running → remaining q.pc = x →
      ∃ m t q', Trace (step cfg) ok s (requestOn k m) t ∧ t.requests[k]? = some q' ∧
        q'.status ≠ .running := by
  induction x using WellFoundedLT.induction with
  | ind x ih =>
      intro s q hk hrun hx
      have hstep : step cfg s (.request k .ok) = some { s with
          stores := (q.attempt .ok s.clock s.stores).1
          requests := s.requests.set k (q.attempt .ok s.clock s.stores).2 } := by
        simp only [step, hk, Option.bind_eq_bind, Option.bind_some, hrun]
      have hk' := List.getElem?_set_self (a := (q.attempt .ok s.clock s.stores).2) (lt_of_slot hk)
      by_cases hended : (q.attempt .ok s.clock s.stores).2.status = .running
      · have hless := (attempt_progress q s.clock s.stores).resolve_left (not_not.mpr hended)
        obtain ⟨m, t, q', htrace, hslot, hnot⟩ := ih _ (hx ▸ hless)
          { s with
            stores := (q.attempt .ok s.clock s.stores).1
            requests := s.requests.set k (q.attempt .ok s.clock s.stores).2 } _ hk' hended rfl
        exact ⟨m + 1, t, q', .cons (hok s) hstep htrace, hslot, hnot⟩
      · exact ⟨1, _, _, .next .start (hok s) hstep, hk', hended⟩

end Ims.RequestEnds
