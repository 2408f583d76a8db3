import Ims.Incidents
import Ims.IngestSteps

namespace Ims.Mttr

open Library.Runs Library.Tables Library.Slots Time Models RcaValidator States PostgresRepo Ingestion
  Service WorkerSteps ApiSteps ServiceSteps WorkerMoves WorkerFrames Rows LifeCycle Requests RcaGate
  RequestMoves Incidents IngestSteps
open Workers (Stores Run Outcome)
open IncidentsApi (Request Pc)

def Sound (wi : WorkItem) : Prop :=
  ∀ stop, wi.endTime = some stop →
    wi.startTime ≤ stop ∧ ∃ mttr, wi.mttrSeconds = some mttr ∧ 0 ≤ mttr

def NeverNegative (cfg : Settings) (n : Nat) (es : List Event) : Prop :=
  ∀ es₁ es₂ s, es = es₁ ++ es₂ → Trace (step cfg) (fun _ _ => True) (init n) es₁ s →
    ∀ wi ∈ s.stores.postgres.workItems, Sound wi

structure PassesGate (s : World) (k : Nat) (w : Int) (wi : WorkItem) : Prop where
  place : ∃ q, s.requests[k]? = some q ∧ q.pc = .transitionRca w .CLOSED wi
  resolved : wi.state = .RESOLVED
  valid : ValidRca s.stores w

def Writes (s : World) (k : Nat) : Prop :=
  ∃ q w wi result, s.requests[k]? = some q ∧ q.status = .running ∧ q.pc = .updateState w wi result

/-- Whenever a request that has passed the gate writes, the clock had reached
the start of the item when it passed. -/
def NoEarlyClose (cfg : Settings) (n : Nat) (es : List Event) : Prop :=
  ∀ a k b o c s₀ s w wi, es = a ++ .request k .ok :: b ++ .request k o :: c →
    Trace (step cfg) (fun _ _ => True) (init n) a s₀ → PassesGate s₀ k w wi →
    Trace (step cfg) (fun _ _ => True) (init n) (a ++ .request k .ok :: b) s → Writes s k →
    takesEffect o = true → wi.startTime ≤ s₀.clock

variable {cfg : Settings} {s t : World} {e : Event}

def closeAt (now : Int) (wi : WorkItem) : TransitionResult where
  newState := .CLOSED
  endTime := some now
  mttrSeconds := some (now - wi.startTime)

theorem transition_closed {wi : WorkItem} {rca : Option RCALike} {now : Int} {result : TransitionResult}
    (h : transition ⟨wi.state, .utc wi.startTime⟩ .CLOSED rca now = .ok result) :
    wi.state = .RESOLVED ∧ validate rca = .ok () ∧ result = closeAt now wi := by
  obtain ⟨hedge, hstate, ⟨hopen, _⟩ | ⟨_, hvalid, hend, hmttr⟩⟩ := transition_ok h
  · exact absurd rfl hopen
  · refine ⟨edge_closed hedge, hvalid, ?_⟩
    rw [instant_utc] at hmttr
    rcases result with ⟨newState, endTime, mttrSeconds⟩
    simp only at hstate hend hmttr
    rw [closeAt, hstate, hend, hmttr]

theorem transition_resolved {wi : WorkItem} {rca : Option RCALike} (now : Int)
    (hstate : wi.state = .RESOLVED) (hvalid : validate rca = .ok ()) :
    transition ⟨wi.state, .utc wi.startTime⟩ .CLOSED rca now = .ok (closeAt now wi) := by
  have hedge : Edge (⟨wi.state, .utc wi.startTime⟩ : WorkItemLike).state .CLOSED := hstate ▸ Edge.close
  obtain ⟨result, hresult⟩ := transition_of_edge hedge (fun _ => hvalid) now
  rw [hresult, (transition_closed hresult).2.2]

def written : Pc → Bool
  | .feedMembers _ _ _ | .zremMember _ _ _ _ _ | .clearDedup _ _ _ | .fresh _ _ => true
  | _ => false

def Committed (k : Nat) (w : Int) (wi : WorkItem) (result : TransitionResult) (s : World) : Prop :=
  ∃ q, s.requests[k]? = some q ∧ (q.pc = .updateState w wi result ∨ written q.pc = true)

theorem committed_step {k : Nat} {w : Int} {wi : WorkItem} {result : TransitionResult}
    (h : Committed k w wi result s) (hs : step cfg s e = some t) : Committed k w wi result t := by
  obtain ⟨q, hk, hplace⟩ := h
  obtain ⟨q', hk', hnext⟩ := step_requestNext hs hk
  refine ⟨q', hk', ?_⟩
  cases hnext with
  | other => exact hplace
  | abort => exact hplace
  | attempt o _ _ _ =>
      have hmove := attempt_pcMove q o s.clock s.stores
      generalize q.pc = pc, (q.attempt o s.clock s.stores).2.pc = pc' at hmove hplace ⊢
      cases hmove with
      | stay => exact hplace
      | closed | moved | scanned | scannedNone | removed | removedLast | cleared | leftScan
      | leftRemoval => exact .inr rfl
      | readItem | decided | checked | selected | retried | readIncident =>
          rcases hplace with hplace | hplace <;> cases hplace

theorem committed_gate {k : Nat} {w : Int} {wi : WorkItem} (h : PassesGate s k w wi)
    (hs : step cfg s (.request k .ok) = some t) : Committed k w wi (closeAt s.clock wi) t := by
  obtain ⟨q, hk, hpc⟩ := h.place
  obtain ⟨_, rfl⟩ := own_request hs hk
  refine ⟨_, List.getElem?_set_self (lt_of_slot hk), .inl ?_⟩
  simp only [Request.attempt, Request.perform, hpc,
    transition_resolved s.clock h.resolved h.valid]
  rfl

def DecidedAtGate (cfg : Settings) (n : Nat) (es : List Event) (k : Nat) (w : Int) (wi : WorkItem)
    (result : TransitionResult) : Prop :=
  ∃ a b s₀, es = a ++ .request k .ok :: b ∧ Trace (step cfg) (fun _ _ => True) (init n) a s₀ ∧
    PassesGate s₀ k w wi ∧ result = closeAt s₀.clock wi

theorem DecidedAtGate.later {n k : Nat} {es : List Event} {w : Int} {wi : WorkItem}
    {result : TransitionResult} (h : DecidedAtGate cfg n es k w wi result) (e : Event) :
    DecidedAtGate cfg n (es ++ [e]) k w wi result := by
  obtain ⟨a, b, s₀, rfl, hrest⟩ := h
  exact ⟨a, b ++ [e], s₀, by simp, hrest⟩

/-- A close that is about to be written was decided at the gate. -/
theorem decided_at_gate {n : Nat} {es : List Event}
    (h : Trace (step cfg) (fun _ _ => True) (init n) es s) {k : Nat} {q : Request} {w : Int}
    {wi : WorkItem} {result : TransitionResult} (hk : s.requests[k]? = some q)
    (hpc : q.pc = .updateState w wi result) (hclosed : result.newState = .CLOSED) :
    DecidedAtGate cfg n es k w wi result := by
  refine h.invariant_past (fun es s => ∀ q w wi result, s.requests[k]? = some q →
    q.pc = .updateState w wi result → result.newState = .CLOSED →
    DecidedAtGate cfg n es k w wi result) (fun _ _ _ _ hk => by cases hk) ?_ q w wi result hk hpc hclosed
  intro es s e t htrace hpast _ hs q w wi result hk hpc hclosed
  have hlater {p : Request} (hp : s.requests[k]? = some p) (hpc : p.pc = .updateState w wi result) :
      DecidedAtGate cfg n (es ++ [e]) k w wi result :=
    (hpast p w wi result hp hpc hclosed).later e
  have hmove := step_requestMove hs hk
  generalize t.stores = st at hmove
  cases hmove with
  | new c _ _ => cases c <;> cases hpc
  | other _ hp _ => exact hlater hp hpc
  | abort p hp _ _ _ => exact hlater hp hpc
  | attempt p o hp _ he _ =>
      subst he
      rcases attempt_cases p o s.clock s.stores with ⟨_, rfl, _, _⟩ | ⟨exc, hhandle, _⟩
      · have hmove := attempt_pcMove p .ok s.clock s.stores
        generalize hplace : p.pc = place, (p.attempt .ok s.clock s.stores).2.pc = pc at hmove hpc
        cases hmove with
        | stay => exact hlater hp (hplace.trans hpc)
        | decided _ target _ _ hresult =>
            cases hpc
            obtain ⟨_, hstate, _⟩ := transition_ok hresult
            obtain rfl : target = .CLOSED := hstate.symm.trans hclosed
            obtain ⟨hresolved, hvalid, hclose⟩ := transition_closed hresult
            exact ⟨es, [], s, rfl, htrace, ⟨⟨p, hp, hplace⟩, hresolved, hvalid⟩, hclose⟩
        | _ => cases hpc
      · rw [hhandle] at hpc
        rcases (handle_cases p exc).1 with hsame | ⟨_, _, hfresh⟩ | ⟨_, _, hselect⟩
        · exact hlater hp (hsame ▸ hpc)
        · cases hfresh.symm.trans hpc
        · cases hselect.symm.trans hpc

theorem sound_life (wi : WorkItem) : Sound (life wi) ↔ Sound wi := Iff.rfl

theorem sound_applied_close {wi row : WorkItem} {now : Int} (hstart : row.startTime = wi.startTime) :
    Sound (applied (closeAt now wi) row) ↔ wi.startTime ≤ now := by
  constructor
  · intro h
    rw [← hstart]
    exact (h now rfl).1
  · rintro hle stop hstop
    cases hstop
    refine ⟨?_, now - wi.startTime, rfl, by omega⟩
    rw [show (applied (closeAt now wi) row).startTime = row.startTime from rfl, hstart]
    exact hle

theorem start_of_origin {wi row : WorkItem} (h : origin row = origin wi) : row.startTime = wi.startTime := by
  simpa [origin, counted] using congrArg WorkItem.startTime h

/-- The row that a request has read is still there, with its start. -/
theorem row_of_snapshot {st : Stores} {w : Int} {wi : WorkItem} (h : Snapshot st w wi) :
    ∃ row ∈ st.postgres.workItems, row.id = w ∧ row.startTime = wi.startTime := by
  obtain ⟨row, hrow, heq⟩ := List.mem_map.mp h.2
  have hid : row.id = wi.id := by simpa [origin, counted] using congrArg WorkItem.id heq
  exact ⟨row, hrow, hid.trans h.1, start_of_origin heq⟩

theorem sound_step {es : List Event} {n : Nat} (htrace : Trace (step cfg) (fun _ _ => True) (init n) es s)
    (hs : step cfg s e = some t)
    (hearly : ∀ a k b o s₀ w wi, e = .request k o → es = a ++ .request k .ok :: b →
      Trace (step cfg) (fun _ _ => True) (init n) a s₀ → PassesGate s₀ k w wi → Writes s k →
      takesEffect o = true → wi.startTime ≤ s₀.clock)
    (h : ∀ wi ∈ s.stores.postgres.workItems, Sound wi) :
    ∀ wi ∈ t.stores.postgres.workItems, Sound wi := by
  rw [forall_lives sound_life] at h ⊢
  have hgate := gateWf_trace htrace
  have hmove := step_lifeMove hs
  generalize lives t.stores = rows at hmove
  cases hmove with
  | keep => exact h
  | create _ => exact forall_push h fun stop hstop => by cases hstop
  | @update k o q w wi result hk ho hpc =>
      obtain ⟨hrun, _⟩ := own_request hs hk
      have hq := (hgate.requests q (List.mem_of_getElem? hk)).1
      rw [hpc] at hq
      obtain ⟨hsnap, hdecided⟩ := hq
      intro new hnew
      obtain ⟨row, hrow, rfl⟩ := mem_updateWhere.mp hnew
      split
      · rename_i hid
        obtain ⟨prior, hprior, rfl⟩ := List.mem_map.mp hrow
        have hstart : prior.startTime = wi.startTime :=
          start_of_origin (origin_of_snapshot hgate.rows.ids hsnap hprior (of_decide_eq_true hid))
        rcases hdecided with ⟨_, ⟨_, hend, hmttr⟩ | ⟨hclosed, _⟩⟩
        · have hold := h _ hrow
          simpa only [Sound, applied, hend, hmttr, Option.none_or] using hold
        · obtain ⟨a, b, s₀, hes, ha, hpasses, rfl⟩ := decided_at_gate htrace hk hpc hclosed
          refine (sound_applied_close hstart).mpr ?_
          exact hearly a k b o s₀ w wi rfl hes ha hpasses ⟨q, w, wi, _, hk, hrun, hpc⟩ ho
      · exact h row hrow

theorem Writes.enabled {k : Nat} (h : Writes s k) (o : Outcome) :
    ∃ t, step cfg s (.request k o) = some t := by
  obtain ⟨q, _, _, _, hk, hrun, _⟩ := h
  simp only [step, hk, Option.bind_eq_bind, Option.bind_some, hrun]
  exact ⟨_, rfl⟩

/-- The write of a close sets the times that were taken at the gate. -/
theorem close_written {n : Nat} {es : List Event} {k : Nat} {o : Outcome} {w : Int} {wi : WorkItem}
    {now : Int} (htrace : Trace (step cfg) (fun _ _ => True) (init n) es s)
    (hcommitted : Committed k w wi (closeAt now wi) s) (hwrites : Writes s k)
    (hs : step cfg s (.request k o) = some t) (ho : takesEffect o = true) :
    ∃ row ∈ lives s.stores, row.startTime = wi.startTime ∧
      applied (closeAt now wi) row ∈ lives t.stores := by
  obtain ⟨q, v, old, result, hk, _, hpc⟩ := hwrites
  obtain ⟨q', hk', hplace⟩ := hcommitted
  cases Option.some.inj (hk.symm.trans hk')
  have hsame : v = w ∧ old = wi ∧ result = closeAt now wi := by
    rw [hpc] at hplace
    rcases hplace with hplace | hplace
    · cases hplace
      exact ⟨rfl, rfl, rfl⟩
    · cases hplace
  obtain ⟨rfl, rfl, rfl⟩ := hsame
  have hq := ((gateWf_trace htrace).requests q (List.mem_of_getElem? hk)).1
  rw [hpc] at hq
  obtain ⟨row, hrow, hrowid, hstart⟩ := row_of_snapshot hq.1
  refine ⟨life row, List.mem_map_of_mem hrow, hstart, ?_⟩
  have hmove := step_lifeMove hs
  generalize hrows : lives t.stores = rows at hmove
  cases hmove with
  | keep _ hno =>
      rw [hno k o q v old _ rfl hk hpc] at ho
      cases ho
  | @update _ _ q' w' wi' result' hk' _ hpc' =>
      cases Option.some.inj (hk.symm.trans hk')
      cases hpc.symm.trans hpc'
      refine mem_updateWhere.mpr ⟨life row, List.mem_map_of_mem hrow, ?_⟩
      rw [if_pos (decide_eq_true (show (life row).id = v from hrowid))]

/-- An MTTR is negative exactly where a close takes effect that was decided
before the time at which the client says the incident began. -/
theorem mttr_never_negative_iff (cfg : Settings) (n : Nat) (es : List Event) :
    NeverNegative cfg n es ↔ NoEarlyClose cfg n es := by
  constructor
  · intro hsound a k b o c s₀ s w wi hes ha hpasses htrace hwrites ho
    have hcommitted : Committed k w wi (closeAt s₀.clock wi) s := by
      rw [show a ++ Event.request k .ok :: b = (a ++ [.request k .ok]) ++ b by simp] at htrace
      obtain ⟨s₁, hgate, hb⟩ := htrace.split
      obtain ⟨s₀', ha', _, hs⟩ := hgate.last
      cases ha.det ha'
      exact hb.invariant (Committed k w wi (closeAt s₀.clock wi)) (committed_gate hpasses hs)
        fun _ _ _ h _ hs => committed_step h hs
    obtain ⟨t, ht⟩ : ∃ t, step cfg s (.request k o) = some t := hwrites.enabled o
    obtain ⟨row, _, hstart, hmem⟩ := close_written htrace hcommitted hwrites ht ho
    have hrows := hsound _ c t (by rw [hes]; simp) (htrace.next trivial ht)
    rw [forall_lives sound_life] at hrows
    exact (sound_applied_close hstart).mp (hrows _ hmem)
  · rintro hearly es₁ es₂ s rfl htrace
    refine htrace.invariant_past (fun prior s => ∀ rest, es₁ ++ es₂ = prior ++ rest →
      ∀ wi ∈ s.stores.postgres.workItems, Sound wi)
      (fun _ _ _ hwi => absurd hwi List.not_mem_nil) ?_ es₂ rfl
    intro prior s e t hprior h _ hs rest hrest
    refine sound_step hprior hs ?_ (h (e :: rest) (by rw [hrest]; simp))
    rintro a k b o s₀ w wi rfl rfl ha hpasses hwrites ho
    exact hearly a k b o rest s₀ s w wi (by rw [hrest]; simp) ha hpasses hprior hwrites ho

def forward (s : World) : Event → Prop
  | .setClock now => s.clock ≤ now
  | _ => True

instance (s : World) : DecidablePred (forward s)
  | .setClock now => inferInstanceAs (Decidable (s.clock ≤ now))
  | .offer _ | .get _ | .getTimeout | .cancelIdle | .run _ _ | .request _ _ | .cancelRun _
  | .abortRequest _ | .call _ | .expire _ | .burnWorkItemId | .burnRcaId => .isTrue trivial

def datedInPast (s : World) : Event → Prop
  | .offer sig => sig.timestamp.instant ≤ s.clock
  | _ => True

structure Arrived (s : World) : Prop where
  signals : ∀ sig ∈ signals s, sig.timestamp.instant ≤ s.clock
  items : ∀ wi ∈ s.stores.postgres.workItems, wi.startTime ≤ s.clock

theorem clock_le (he : forward s e) (hs : step cfg s e = some t) : s.clock ≤ t.clock := by
  rw [step_clock hs]
  cases e with
  | setClock now => exact he
  | _ => exact le_refl _

theorem starts_life {now : Int} (wi : WorkItem) : (life wi).startTime ≤ now ↔ wi.startTime ≤ now :=
  Iff.rfl

theorem arrived_step (h : Arrived s) (hforward : forward s e) (hpast : datedInPast s e)
    (hs : step cfg s e = some t) : Arrived t := by
  have hclock := clock_le hforward hs
  constructor
  · refine forall_signals_step (fun sig hsig => le_trans (h.signals sig hsig) hclock) ?_ hs
    intro sig hsig
    rw [offer_of_accepted hsig] at hpast
    exact le_trans hpast hclock
  · have hold : ∀ wi ∈ s.stores.postgres.workItems, wi.startTime ≤ t.clock :=
      fun wi hwi => le_trans (h.items wi hwi) hclock
    rw [forall_lives starts_life] at hold ⊢
    have hmove := step_lifeMove hs
    generalize lives t.stores = rows at hmove
    cases hmove with
    | keep => exact hold
    | create hk =>
        refine forall_push hold ?_
        have hsig := List.mem_map_of_mem (f := Run.sig) (List.mem_of_getElem? hk)
        exact le_trans (h.signals _ (List.mem_append_left _ hsig)) hclock
    | update => exact forall_updateWhere hold fun _ hrow => hrow

/-- With a clock that never goes back and no signal dated ahead of it no MTTR is
negative. -/
theorem sound_of_past_signals {n : Nat} {es : List Event}
    (h : Trace (step cfg) (fun s e => forward s e ∧ datedInPast s e) (init n) es s) :
    ∀ wi ∈ s.stores.postgres.workItems, Sound wi := by
  have harrived {es : List Event} {s : World}
      (h : Trace (step cfg) (fun s e => forward s e ∧ datedInPast s e) (init n) es s) : Arrived s := by
    refine h.invariant Arrived ⟨fun _ hsig => absurd hsig List.not_mem_nil,
      fun _ hwi => absurd hwi List.not_mem_nil⟩ ?_
    intro s e t h ⟨hforward, hpast⟩ hs
    exact arrived_step h hforward hpast hs
  refine h.invariant_past (fun _ s => ∀ wi ∈ s.stores.postgres.workItems, Sound wi)
    (fun _ hwi => absurd hwi List.not_mem_nil) ?_
  intro es s e t htrace hsound _ hs
  refine sound_step (htrace.mono fun _ _ _ => trivial) hs ?_ hsound
  rintro a k b o s₀ w wi rfl rfl ha hpasses _ _
  obtain ⟨q, hk, hpc⟩ := hpasses.place
  have hq := ((gateWf_trace ha).requests q (List.mem_of_getElem? hk)).1
  rw [hpc] at hq
  obtain ⟨row, hrow, _, hstart⟩ := row_of_snapshot hq
  rw [← hstart]
  exact (harrived (htrace.split_at ha).1).items row hrow

def aheadSignal : SignalIn := { errorSignal "db" with timestamp := .utc 3600000000 }

def closedAhead : List Event :=
  [.offer aheadSignal, .get "a"] ++ runOn 0 10 ++ [.call (.transitionIncident 1 .INVESTIGATING)] ++
    requestOn 0 4 ++ [.call (.transitionIncident 1 .RESOLVED)] ++ requestOn 1 4 ++
    [.call (.submitRca 1 rollbackRca)] ++ requestOn 2 3 ++ [.setClock 1000000] ++
    [.call (.closeIncident 1)] ++ requestOn 3 3

theorem mttr_negative :
    ∃ s, Trace (step {}) forward (init 1) closedAhead s ∧
      s.stores.postgres.workItems.map WorkItem.mttrSeconds = [some (-3599000000)] ∧
      ¬ NeverNegative {} 1 closedAhead := by
  obtain ⟨s, hs, hp⟩ := trace_of_replay (step {}) forward (init 1) closedAhead
    (fun s => decide (s.stores.postgres.workItems.map WorkItem.mttrSeconds = [some (-3599000000)] ∧
      s.stores.postgres.workItems.map WorkItem.endTime = [some 1000000]))
    (by decide +kernel)
  obtain ⟨hmttr, hend⟩ := of_decide_eq_true hp
  refine ⟨s, hs, hmttr, fun hsound => ?_⟩
  have hall := hsound closedAhead [] s (List.append_nil _).symm (hs.mono fun _ _ _ => trivial)
  obtain ⟨wi, hwi, hnegative⟩ := List.mem_map.mp (hmttr ▸ List.mem_singleton.mpr rfl :
    some (-3599000000) ∈ s.stores.postgres.workItems.map WorkItem.mttrSeconds)
  have hstop := List.mem_map_of_mem (f := WorkItem.endTime) hwi
  rw [hend, List.mem_singleton] at hstop
  obtain ⟨_, mttr, hvalue, hle⟩ := hall wi hwi 1000000 hstop
  cases hnegative.symm.trans hvalue
  exact absurd hle (by decide)

end Ims.Mttr
