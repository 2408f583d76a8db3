import Ims.RcaGate

namespace Ims.Alerts

open Library.Runs Library.Tables Library.Slots Library.SortedSet Models Alerting PostgresRepo RedisCache
  Ingestion Service WorkerSteps ApiSteps ServiceSteps WorkerMoves WorkerFrames Rows Requests
open Workers (Stores Run Pc Outcome alertContext)
open IncidentsApi (Request)

def alertOf (sig : SignalIn) (w : Int) : Alert :=
  (alerterFor sig.componentType).dispatch (alertContext sig w)

def announcing : Pc → Option Int
  | .publish true w | .pushLiveFeed w | .dispatch w => some w
  | .insertSignal | .claim | .create _ | .publish false _ | .getOpenWorkItem | .increment _
  | .addLink _ | .backfill _ | .upsertMetric _ | .finish _ => none

def announces (w : Int) (r : Run) : Bool := announcing r.pc = some w

def Fed (w : Int) (sig : SignalIn) (s : World) : Prop :=
  feedMember w sig.componentId ∈ zrange s.stores.redis.liveFeed

inductive AlertMove (now : Int) (st : Stores) (r : Run) (st' : Stores) (r' : Run) : Prop
  | keep (halerts : st'.alerts = st.alerts) (hpc : announcing r'.pc = announcing r.pc)
      (hpush : ∀ w, r'.pc = .dispatch w → r.pc = .dispatch w)
  | create (hpc : announcing r.pc = none) (hpc' : r'.pc = .publish true (st.postgres.workItemsSeq + 1))
      (halerts : st'.alerts = st.alerts)
      (hitem : newWorkItem r.sig (st.postgres.workItemsSeq + 1) now ∈ origins st')
  | push (w) (hpc : r.pc = .pushLiveFeed w) (hpc' : r'.pc = .dispatch w)
      (halerts : st'.alerts = st.alerts)
      (hfed : feedMember w r.sig.componentId ∈ zrange st'.redis.liveFeed)
  | dispatch (w) (hpc : r.pc = .dispatch w) (hpc' : r'.pc = .addLink w)
      (halerts : st'.alerts = st.alerts ∨ st'.alerts = st.alerts ++ [alertOf r.sig w])

variable {cfg : Settings} {s t : World} {e : Event} {st st' : Stores} {r r' : Run} {now w : Int}

theorem alertMove_of_runStep (h : RunStep now st r st' r') (hno : ∀ w, r.pc ≠ .dispatch w) :
    AlertMove now st r st' r' := by
  cases h with
  | stay _ _ _ hpc => exact .keep rfl (by rw [hpc]) fun w hw => hpc ▸ hw
  | create won hpc =>
      cases won with
      | true =>
          refine .create (by rw [hpc]; rfl) rfl rfl ?_
          rw [origins, List.map_append]
          exact List.mem_append_right _ (List.mem_singleton.mpr rfl)
      | false => exact .keep rfl (by rw [hpc]; rfl) fun w hw => by cases hw
  | push w hpc => exact .push w hpc rfl rfl (zrange_zadd_of (.inl rfl))
  | dispatch w _ hpc => exact absurd hpc (hno w)
  | insert hpc | win hpc | lose hpc | publishGone _ hpc | publishOver _ _ hpc | publishAnyway _ hpc
  | findGone hpc | findItem _ hpc | increment _ hpc | link _ hpc | backfill _ hpc
  | skipBackfill _ hpc | meter _ hpc =>
      exact .keep rfl (by rw [hpc]; rfl) fun w hw => by cases hw

theorem alerts_of_runStep (h : RunStep now st r st' r') (hno : ∀ w, r.pc ≠ .dispatch w) :
    st'.alerts = st.alerts := by
  cases alertMove_of_runStep h hno with
  | keep halerts | create _ _ halerts | push _ _ _ halerts => exact halerts
  | dispatch w hpc => exact absurd hpc (hno w)

theorem handle_announcing {e : Exc} (hno : ∀ w, r.pc ≠ .dispatch w) :
    announcing (r.handle e).pc = announcing r.pc ∧
      ∀ w, (r.handle e).pc = .dispatch w → r.pc = .dispatch w := by
  rcases handle_pc r e with hstay | hswallow
  · rw [hstay]
    exact ⟨rfl, fun _ hw => hw⟩
  · cases hpc : r.pc with
    | dispatch w => exact absurd hpc (hno w)
    | backfill w =>
        simp only [Run.handle, hpc]
        exact ⟨rfl, fun w hw => by cases hw⟩
    | _ =>
        rw [hpc] at hswallow
        cases hswallow

theorem attempt_alertMove (r : Run) (o : Outcome) (now : Int) (st : Stores) :
    AlertMove now st r (r.attempt o now st).1 (r.attempt o now st).2 := by
  by_cases hdispatch : ∃ w, r.pc = .dispatch w
  · obtain ⟨w, hpc⟩ := hdispatch
    cases o with
    | ok =>
        simp only [Run.attempt, Run.perform, hpc]
        exact .dispatch w hpc rfl (.inr rfl)
    | fail e =>
        simp only [Run.attempt, Run.handle, hpc]
        exact .dispatch w hpc rfl (.inl rfl)
    | lost e =>
        simp only [Run.attempt, Run.perform, Run.handle, hpc]
        exact .dispatch w hpc rfl (.inr rfl)
  · have hno : ∀ w, r.pc ≠ .dispatch w := fun w hpc => hdispatch ⟨w, hpc⟩
    have hhandle (e : Exc) := handle_announcing (e := e) hno
    cases o with
    | ok => exact alertMove_of_runStep (perform_runStep now st r) hno
    | fail e => exact .keep rfl (hhandle e).1 (hhandle e).2
    | lost e =>
        exact .keep (alerts_of_runStep (perform_runStep now st r) hno) (hhandle e).1 (hhandle e).2

theorem alerts_of_effect {q : Request} (h : RequestEffect now st q st') : st'.alerts = st.alerts := by
  cases h <;> rfl

/-- A run moves, one starts, or the alerts and the runs are left alone. -/
theorem step_alertMove (hs : step cfg s e = some t) :
    (∃ k r r', s.runs[k]? = some r ∧ t.runs = s.runs.set k r' ∧ r'.sig = r.sig ∧
        AlertMove s.clock s.stores r t.stores r') ∨
      t.stores.alerts = s.stores.alerts ∧
        (t.runs = s.runs ∨ ∃ r, announcing r.pc = none ∧ t.runs = s.runs ++ [r]) := by
  have hmove := step_move hs
  generalize t.stores = st, t.runs = runs, t.requests = requests at hmove
  cases hmove with
  | run o hk _ _ =>
      exact .inl ⟨_, _, _, hk, rfl, (attempt_sig _ o _ _).1, attempt_alertMove _ o _ _⟩
  | finish w hk | cancelRun hk => exact .inl ⟨_, _, _, hk, rfl, rfl, .keep rfl rfl fun _ hw => hw⟩
  | get oid sig _ => exact .inr ⟨rfl, .inr ⟨_, rfl, rfl⟩⟩
  | @request k q o _ _ =>
      exact .inr ⟨alerts_of_effect (attempt_effect s.clock s.stores q o), .inl rfl⟩
  | quiet | abortRequest | call | expire | burnWorkItemId | burnRcaId => exact .inr ⟨rfl, .inl rfl⟩

structure Founded (cfg : Settings) (n : Nat) (es : List Event) (s : World) (sig : SignalIn) (w : Int) :
    Prop where
  item : ∃ now, newWorkItem sig w now ∈ origins s.stores
  fed : Once (step cfg) (init n) es (Fed w sig)

variable {n : Nat} {es : List Event} {ok : World → Event → Prop}

theorem Founded.next {sig : SignalIn} (h : Founded cfg n es s sig w) (hgrow : Grows s.stores t.stores) :
    Founded cfg n (es ++ [e]) t sig w := by
  obtain ⟨now, hitem⟩ := h.item
  exact ⟨⟨now, hgrow.items _ hitem⟩, h.fed.later⟩

theorem held_step (h : ∀ r ∈ s.runs, ∀ w, announcing r.pc = some w →
      ∃ now, newWorkItem r.sig w now ∈ origins s.stores) (hs : step cfg s e = some t) :
    ∀ r ∈ t.runs, ∀ w, announcing r.pc = some w → ∃ now, newWorkItem r.sig w now ∈ origins t.stores := by
  have hold : ∀ r ∈ s.runs, ∀ w, announcing r.pc = some w →
      ∃ now, newWorkItem r.sig w now ∈ origins t.stores := by
    intro r hr w hw
    obtain ⟨now, hitem⟩ := h r hr w hw
    exact ⟨now, (step_grows hs).items _ hitem⟩
  rcases step_alertMove hs with ⟨k, r, r', hk, hruns, hsig, hmove⟩ | ⟨_, hruns | ⟨r, hpc, hruns⟩⟩
  · have hr := List.mem_of_getElem? hk
    rw [hruns]
    refine forall_set hold fun w hw => ?_
    rw [hsig]
    cases hmove with
    | keep _ hpc _ => exact hold r hr w (hpc ▸ hw)
    | create _ hpc' _ hitem =>
        rw [hpc'] at hw
        cases hw
        exact ⟨s.clock, hitem⟩
    | push v hpc hpc' =>
        rw [hpc'] at hw
        exact hold r hr w (hpc ▸ hw)
    | dispatch v _ hpc' =>
        rw [hpc'] at hw
        cases hw
  · rwa [hruns]
  · rw [hruns]
    refine forall_push hold fun w hw => ?_
    rw [hpc] at hw
    cases hw

structure Announces (a : Alert) (wi : WorkItem) : Prop where
  id : a.context.workItemId = wi.id
  component : a.context.componentId = wi.componentId
  type : a.context.componentType = wi.componentType
  severity : a.context.severity = wi.severity
  start : a.context.timestamp.instant = wi.startTime
  summary : a.context.summary = some ("new " ++ wi.componentType.value ++ " incident")
  sent : a = (alerterFor wi.componentType).dispatch a.context

structure Sound (cfg : Settings) (n : Nat) (es : List Event) (s : World) : Prop where
  once : (s.stores.alerts.map fun a => a.context.workItemId).Nodup
  announces : ∀ a ∈ s.stores.alerts, ∃ wi ∈ s.stores.postgres.workItems, Announces a wi
  fed : ∀ a ∈ s.stores.alerts, Once (step cfg) (init n) es fun s₁ =>
    feedMember a.context.workItemId a.context.componentId ∈ zrange s₁.stores.redis.liveFeed

end Ims.Alerts
