import Ims.Rows
import Ims.RequestMoves

namespace Ims.LifeCycle

open Library.Text Library.Runs Library.Tables Library.Slots Time Models States PostgresRepo RedisCache
  Ingestion Service WorkerSteps ApiSteps ServiceSteps RequestMoves WorkerMoves WorkerFrames Rows
open Workers (Stores Run Outcome)
open IncidentsApi (Request)

def life (wi : WorkItem) : WorkItem := { wi with signalCount := 1, updatedAt := wi.createdAt }

def lives (st : Stores) : List WorkItem := st.postgres.workItems.map life

def applied (result : TransitionResult) (wi : WorkItem) : WorkItem :=
  { wi with
    state := result.newState,
    endTime := result.endTime.or wi.endTime,
    mttrSeconds := result.mttrSeconds.or wi.mttrSeconds }

theorem lives_updateState (st : Stores) (w : Int) (result : TransitionResult) (now : Int) :
    lives { st with
      postgres := updateState st.postgres w result.newState result.endTime result.mttrSeconds now } =
      updateWhere (fun wi => wi.id = w) (applied result) (lives st) := by
  simp only [lives, updateState, updateWorkItem, updateWhere, List.map_map]
  apply List.map_congr_left
  intro wi _
  by_cases hw : wi.id = w <;> simp [life, applied, hw]

theorem lives_increment (st : Stores) (w now : Int) :
    lives { st with postgres := incrementSignalCount st.postgres w now } = lives st := by
  simp only [lives, incrementSignalCount, updateWorkItem]
  exact map_updateWhere life _ _ (by intro; rfl) _

def takesEffect : Outcome → Bool
  | .ok | .lost _ => true
  | .fail _ => false

inductive LifeMove (s : World) : Event → List WorkItem → Prop
  | keep (e) (hno : ∀ k o q w wi result, e = .request k o → s.requests[k]? = some q →
      q.pc = .updateState w wi result → takesEffect o = false) : LifeMove s e (lives s.stores)
  | create {k o r} (hk : s.runs[k]? = some r) :
      LifeMove s (.run k o)
        (lives s.stores ++ [newWorkItem r.sig (s.stores.postgres.workItemsSeq + 1) s.clock])
  | update {k o q} (w wi result) (hk : s.requests[k]? = some q) (ho : takesEffect o = true)
      (hpc : q.pc = .updateState w wi result) :
      LifeMove s (.request k o) (updateWhere (fun row => row.id = w) (applied result) (lives s.stores))

theorem runStep_lives {now : Int} {st st' : Stores} {r r' : Run} (h : RunStep now st r st' r') :
    lives st' = lives st ++ [newWorkItem r.sig (st.postgres.workItemsSeq + 1) now] ∨
      lives st' = lives st := by
  cases h with
  | create won hpc =>
      refine .inl ?_
      simp only [lives, List.map_append, List.map_cons, List.map_nil]
      rfl
  | increment w hpc => exact .inr (lives_increment st w now)
  | _ => exact .inr rfl

theorem effect_lives {now : Int} {st st' : Stores} {q : Request} (h : RequestEffect now st q st')
    (hno : ∀ w wi result, q.pc ≠ .updateState w wi result) : lives st' = lives st := by
  cases h with
  | updateState w wi result hpc => exact absurd hpc (hno w wi result)
  | flushRca w body loaded postgres row _ hflush => simp only [lives, (flushRca_tables hflush).1]
  | _ => rfl

theorem step_lifeMove {cfg : Settings} {s t : World} {e : Event} (h : step cfg s e = some t) :
    LifeMove s e (lives t.stores) := by
  have hmove := step_move h
  generalize t.stores = st, t.runs = runs, t.requests = requests at hmove
  cases hmove with
  | quiet _ he => exact .keep _ fun _ _ _ _ _ _ he' _ _ => by rw [he'] at he; cases he
  | run o hk _ _ =>
      obtain ⟨r', hstep⟩ := attempt_stores s.clock s.stores _ o
      rcases runStep_lives hstep with hlives | hlives
      · rw [hlives]
        exact .create hk
      · rw [hlives]
        exact .keep _ fun _ _ _ _ _ _ he _ _ => by cases he
  | @request k q o hk _ =>
      by_cases hpc : ∃ w wi result, q.pc = .updateState w wi result
      · obtain ⟨w, wi, result, hpc⟩ := hpc
        cases o with
        | fail e =>
            refine .keep _ fun k' o' _ _ _ _ he _ _ => ?_
            cases he
            rfl
        | ok | lost =>
            simp only [Request.attempt, Request.perform, hpc]
            rw [lives_updateState]
            exact .update w wi result hk rfl hpc
      · rw [effect_lives (attempt_effect s.clock s.stores q o) fun w wi result h =>
          hpc ⟨w, wi, result, h⟩]
        refine .keep _ fun k' o' q' w wi result he hk' hpc' => ?_
        cases he
        rw [Option.some.inj (hk'.symm.trans hk)] at hpc'
        exact absurd ⟨w, wi, result, hpc'⟩ hpc
  | _ => exact .keep _ fun _ _ _ _ _ _ he _ _ => by cases he

/-- A step changes the state of an item along an edge only, and leaves a closed
item with its state and its times. -/
def Respects (s t : World) : Prop :=
  ∀ old ∈ s.stores.postgres.workItems, ∀ new ∈ t.stores.postgres.workItems, old.id = new.id →
    (old.state = new.state ∨ Edge old.state new.state) ∧
      (old.state = .CLOSED → new.state = .CLOSED ∧ new.endTime = old.endTime ∧
        new.mttrSeconds = old.mttrSeconds)

/-- A write of a state that takes effect finds its row in the state in which the
request has read it. -/
def upToDate (s : World) : Event → Bool
  | .request k o => !takesEffect o || (s.requests[k]?).all fun q => match q.pc with
      | .updateState w wi _ =>
          s.stores.postgres.workItems.all fun row => !decide (row.id = w) || decide (row.state = wi.state)
      | _ => true
  | _ => true

def DecidedWf (s : World) : Prop :=
  ∀ q ∈ s.requests, ∀ w wi result, q.pc = .updateState w wi result →
    ∃ target rca now, transition ⟨wi.state, .utc wi.startTime⟩ target rca now = .ok result

theorem decidedWf_init (n : Nat) : DecidedWf (init n) := fun _ hq => absurd hq List.not_mem_nil

theorem decidedWf_step {cfg : Settings} {s t : World} {e : Event} (h : DecidedWf s)
    (hs : step cfg s e = some t) : DecidedWf t := by
  intro q hq w wi result hpc
  obtain ⟨k, hslot⟩ := List.mem_iff_getElem?.mp hq
  cases step_requestMove hs hslot with
  | new c => cases c <;> cases hpc
  | other _ hk => exact h q (List.mem_of_getElem? hk) w wi result hpc
  | attempt p o hk =>
      have hmove := attempt_pcMove p o s.clock s.stores
      generalize hpc₀ : p.pc = pc at hmove
      rw [hpc] at hmove
      cases hmove with
      | stay => exact h p (List.mem_of_getElem? hk) w wi result hpc₀
      | decided _ target _ _ hresult => exact ⟨target, _, s.clock, hresult⟩
  | abort p hk => exact h p (List.mem_of_getElem? hk) w wi result hpc

theorem ids_lives (st : Stores) :
    (lives st).map WorkItem.id = st.postgres.workItems.map WorkItem.id := by
  simp [lives, life, Function.comp_def]

/-- Accepted on the state in which the row still is, a write follows an edge, and
no edge leaves CLOSED. -/
theorem applied_respects {target : WorkItemState} {rca : Option RcaValidator.RCALike} {now : Int}
    {wi row : WorkItem} {result : TransitionResult}
    (hresult : transition ⟨wi.state, .utc wi.startTime⟩ target rca now = .ok result)
    (hread : row.state = wi.state) :
    Edge row.state (applied result row).state ∧ row.state ≠ .CLOSED := by
  obtain ⟨hedge, htarget, _⟩ := transition_ok hresult
  rw [applied, htarget, hread]
  refine ⟨hedge, fun hclosed => ?_⟩
  simp only [hclosed] at hedge
  cases hedge

theorem respects_lives (s t : World) :
    Respects s t ↔ ∀ old ∈ lives s.stores, ∀ new ∈ lives t.stores, old.id = new.id →
      (old.state = new.state ∨ Edge old.state new.state) ∧
        (old.state = .CLOSED → new.state = .CLOSED ∧ new.endTime = old.endTime ∧
          new.mttrSeconds = old.mttrSeconds) := by
  simp only [Respects, lives, List.forall_mem_map]
  rfl

theorem upToDate_update {s : World} {k : Nat} {o : Outcome} {q : Request} {w : Int} {wi row : WorkItem}
    {result : TransitionResult} (h : upToDate s (.request k o) = true) (hk : s.requests[k]? = some q)
    (ho : takesEffect o = true) (hpc : q.pc = .updateState w wi result) (hrow : row ∈ lives s.stores)
    (hid : row.id = w) : row.state = wi.state := by
  simp only [upToDate, ho, Bool.not_true, Bool.false_or, hk, Option.all_some, hpc, List.all_eq_true,
    Bool.or_eq_true, Bool.not_eq_true', decide_eq_false_iff_not, decide_eq_true_iff,
    ← imp_iff_not_or] at h
  obtain ⟨row, hmem, rfl⟩ := List.mem_map.mp hrow
  exact h row hmem hid

theorem respects_step {cfg : Settings} {s t : World} {e : Event} (hrows : RowsWf s.stores)
    (hdecided : DecidedWf s) (he : upToDate s e = true) (hs : step cfg s e = some t) : Respects s t := by
  have hids : ((lives s.stores).map WorkItem.id).Nodup := by
    rw [ids_lives]
    exact hrows.ids
  have hkeep {old new : WorkItem} (hold : old ∈ lives s.stores) (hnew : new ∈ lives s.stores)
      (hid : old.id = new.id) : (old.state = new.state ∨ Edge old.state new.state) ∧
        (old.state = .CLOSED → new.state = .CLOSED ∧ new.endTime = old.endTime ∧
          new.mttrSeconds = old.mttrSeconds) := by
    rw [eq_of_nodup hids hold hnew hid]
    exact ⟨.inl rfl, fun h => ⟨h, rfl, rfl⟩⟩
  have hmove := step_lifeMove hs
  rw [respects_lives]
  generalize lives t.stores = rows at hmove
  intro old hold new hnew hid
  cases hmove with
  | keep e => exact hkeep hold hnew hid
  | create hk =>
      rcases List.mem_append.mp hnew with hnew | hnew
      · exact hkeep hold hnew hid
      · have hle := hrows.seq old.id (by rw [← ids_lives]; exact List.mem_map_of_mem hold)
        rw [hid, List.mem_singleton.mp hnew] at hle
        simp only [newWorkItem] at hle
        omega
  | @update k o q w wi result hk ho hpc =>
      obtain ⟨row, hrow, rfl⟩ := mem_updateWhere.mp hnew
      split at hid
      · next hw =>
        obtain ⟨target, rca, now, hresult⟩ := hdecided q (List.mem_of_getElem? hk) w wi result hpc
        have hread := upToDate_update he hk ho hpc hrow (of_decide_eq_true hw)
        obtain ⟨hedge, hopen⟩ := applied_respects hresult hread
        rw [if_pos hw, eq_of_nodup hids hold hrow hid]
        exact ⟨.inr hedge, fun hclosed => absurd hclosed hopen⟩
      · next hw =>
        rw [if_neg hw]
        exact hkeep hold hrow hid

def ClosedStays (s₁ s : World) : Prop :=
  ∀ old ∈ s₁.stores.postgres.workItems, old.state = .CLOSED →
    ∃ new ∈ s.stores.postgres.workItems, new.id = old.id ∧ new.state = .CLOSED ∧
      new.endTime = old.endTime ∧ new.mttrSeconds = old.mttrSeconds

theorem ids_stay {cfg : Settings} {s t : World} {e : Event} (hs : step cfg s e = some t)
    {wi : WorkItem} (hwi : wi ∈ s.stores.postgres.workItems) :
    ∃ wi' ∈ t.stores.postgres.workItems, wi'.id = wi.id := by
  have hlife : life wi ∈ lives s.stores := List.mem_map_of_mem hwi
  have hmove := step_lifeMove hs
  obtain ⟨row, hrow, hid⟩ : ∃ row ∈ lives t.stores, row.id = wi.id := by
    generalize lives t.stores = rows at hmove
    cases hmove with
    | keep => exact ⟨_, hlife, rfl⟩
    | create => exact ⟨_, List.mem_append_left _ hlife, rfl⟩
    | update w snap result =>
        exact ⟨_, mem_updateWhere.mpr ⟨_, hlife, rfl⟩, by split <;> rfl⟩
  obtain ⟨wi', hwi', rfl⟩ := List.mem_map.mp hrow
  exact ⟨wi', hwi', hid⟩

theorem closedStays_trace {cfg : Settings} {es : List Event} {s₁ s : World}
    (h : Trace (step cfg) (fun s e => ∀ t, step cfg s e = some t → Respects s t) s₁ es s) :
    ClosedStays s₁ s := by
  refine h.invariant (ClosedStays s₁) (fun old hold hclosed => ⟨old, hold, rfl, hclosed, rfl, rfl⟩) ?_
  intro s e t h hrespects hs old hold hclosed
  obtain ⟨mid, hmid, hid, hstate, hend, hmttr⟩ := h old hold hclosed
  obtain ⟨new, hnew, hid'⟩ := ids_stay hs hmid
  obtain ⟨hstate', hend', hmttr'⟩ := (hrespects t hs mid hmid new hnew hid'.symm).2 hstate
  exact ⟨new, hnew, hid'.trans hid, hstate', hend'.trans hend, hmttr'.trans hmttr⟩

/-- Every change of a state in the run follows an edge, and what was closed at
any moment of it is closed at its end, with the same times. -/
structure LifeCycleKept (cfg : Settings) (n : Nat) (es : List Event) (s : World) : Prop where
  changes : Trace (step cfg) (fun s e => ∀ t, step cfg s e = some t → Respects s t) (init n) es s
  closed : ∀ es₁ es₂ s₁, es = es₁ ++ es₂ → Trace (step cfg) (fun _ _ => True) (init n) es₁ s₁ →
    ClosedStays s₁ s

/-- Concurrent requests respect the state machine in every run in which no state
is written over a row whose state has changed since its request read it. -/
theorem concurrent_requests_respect_states {cfg : Settings} {n : Nat} {es : List Event} {s : World}
    (h : Trace (step cfg) (fun s e => upToDate s e = true) (init n) es s) :
    LifeCycleKept cfg n es s := by
  have hwf := h.with_invariant (fun s => RowsWf s.stores ∧ DecidedWf s)
    ⟨rowsWf_init n, decidedWf_init n⟩ fun _ _ _ hwf _ hs =>
      ⟨rowsWf_step hwf.1 hs, decidedWf_step hwf.2 hs⟩
  have hchanges : Trace (step cfg) (fun s e => ∀ t, step cfg s e = some t → Respects s t)
      (init n) es s := hwf.mono fun s e ⟨⟨hrows, hdecided⟩, he⟩ t hs =>
    respects_step hrows hdecided he hs
  refine ⟨hchanges, ?_⟩
  rintro es₁ es₂ s₁ rfl h₁
  exact closedStays_trace (hchanges.split_at h₁).2

def resolved : List Event :=
  [.offer (errorSignal "db"), .get "a"] ++ runOn 0 10 ++
    [.call (.transitionIncident 1 .INVESTIGATING)] ++ requestOn 0 4 ++
    [.call (.transitionIncident 1 .RESOLVED)] ++ requestOn 1 4 ++
    [.call (.submitRca 1 rollbackRca)] ++ requestOn 2 3

def closedOnce : List Event :=
  resolved ++ [.call (.closeIncident 1)] ++ requestOn 3 6 ++
    [.call (.transitionIncident 1 .INVESTIGATING)] ++ requestOn 4 2

theorem concurrent_requests_respect_states_closed_once :
    ∃ s : World, s.stores.postgres.workItems.map WorkItem.state = [.CLOSED] ∧
      LifeCycleKept {} 2 closedOnce s := by
  obtain ⟨s, hs, hp⟩ := trace_of_replay (step {}) (fun s e => upToDate s e = true) (init 2) closedOnce
    (fun s => decide (s.stores.postgres.workItems.map WorkItem.state = [.CLOSED])) (by decide +kernel)
  exact ⟨s, of_decide_eq_true hp, concurrent_requests_respect_states hs⟩

def bothRead : List Event :=
  resolved ++ [.call (.closeIncident 1), .call (.transitionIncident 1 .INVESTIGATING)] ++
    requestOn 3 2 ++ requestOn 4 2 ++ requestOn 3 1

theorem closed_item_reopened :
    ∃ s, Trace (step {}) (fun _ _ => True) (init 2) (bothRead ++ requestOn 4 1) s ∧
      ¬ LifeCycleKept {} 2 (bothRead ++ requestOn 4 1) s := by
  obtain ⟨s₁, h₁, hp⟩ := trace_of_replay (step {}) (fun _ _ => True) (init 2) bothRead
    (fun s₁ => decide (s₁.stores.postgres.workItems.map WorkItem.state = [.CLOSED]) &&
      (replay (step {}) (fun _ _ => True) s₁ (requestOn 4 1)).any fun s : World =>
        decide (s.stores.postgres.workItems.map WorkItem.state = [.INVESTIGATING])) (by decide +kernel)
  obtain ⟨hclosed, hp⟩ := Bool.and_eq_true_iff.mp hp
  obtain ⟨s, h₂, hopen⟩ := trace_of_replay _ _ _ _ _ hp
  refine ⟨s, h₁.trans h₂, fun h => ?_⟩
  have hmem : WorkItemState.CLOSED ∈ s₁.stores.postgres.workItems.map WorkItem.state := by
    rw [of_decide_eq_true hclosed]
    exact List.mem_singleton.mpr rfl
  obtain ⟨old, hold, hstate⟩ := List.mem_map.mp hmem
  obtain ⟨new, hnew, _, hstate', _⟩ := h.closed bothRead (requestOn 4 1) s₁ rfl h₁ old hold hstate
  have hnew' := List.mem_map_of_mem (f := WorkItem.state) hnew
  rw [of_decide_eq_true hopen, hstate'] at hnew'
  cases List.mem_singleton.mp hnew'

end Ims.LifeCycle
