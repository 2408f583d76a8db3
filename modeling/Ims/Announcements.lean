import Ims.Debouncing
import Ims.Delivery
import Ims.LiveFeed

namespace Ims.Announcements

open Library.Text Library.Runs Library.SortedSet Library.Slots Library.Tables Models Alerting PostgresRepo
  RedisCache Ingestion Service WorkerSteps ServiceSteps WorkerMoves WorkerFrames Rows Integrity Effects
  IngestSteps Requests LiveFeed Delivery Debouncing
open Workers (Stores Run Pc Outcome alertContext)
open DedupWindows (keyed keyed_of_gone)

/-- What a step of a run makes of a new incident: the stores have a work item, a
member of the live feed or an alert more, or the run gets no value for its key. -/
inductive Action
  | insertItem (workItemId : Int)
  | zadd (member : String) (score : Int)
  | dispatch (alert : Alert)
  | getNothing
  deriving DecidableEq

def Action.isZadd : Action → Bool
  | .zadd _ _ => true
  | .insertItem _ | .dispatch _ | .getNothing => false

def Action.isDispatch : Action → Bool
  | .dispatch _ => true
  | .insertItem _ | .zadd _ _ | .getNothing => false

def added (st st' : Stores) : List Action :=
  (st'.postgres.workItems.drop st.postgres.workItems.length).map (fun wi => .insertItem wi.id) ++
    (st'.redis.liveFeed.filter fun e => e ∉ st.redis.liveFeed).map (fun e => .zadd e.1 e.2) ++
    (st'.alerts.drop st.alerts.length).map .dispatch

def getsNothing (r : Run) (st : Stores) : List Action :=
  match r.pc with
  | .getOpenWorkItem => if keyed r.sig.componentId st then [] else [.getNothing]
  | .insertSignal | .claim | .create _ | .publish _ _ | .pushLiveFeed _ | .dispatch _ | .increment _
  | .addLink _ | .backfill _ | .upsertMetric _ | .finish _ => []

/-- What the stores show of the step that run k takes at this event. -/
def actions (cfg : Settings) (k : Nat) (s : World) (e : Event) : List Action :=
  if runIndex e = some k then
    (s.runs[k]?).elim [] (getsNothing · s.stores) ++
      (step cfg s e).elim [] fun t => added s.stores t.stores
  else []

/-- The same, read off the place of the run. -/
def actionOf (r : Run) (st : Stores) : List Action :=
  match r.pc with
  | .create _ => [.insertItem (st.postgres.workItemsSeq + 1)]
  | .pushLiveFeed w =>
      [.zadd (feedMember w r.sig.componentId) (severityScore r.sig.severity.value)]
  | .dispatch w => [.dispatch ((alerterFor r.sig.componentType).dispatch (alertContext r.sig w))]
  | .getOpenWorkItem => getsNothing r st
  | .insertSignal | .claim | .publish _ _ | .increment _ | .addLink _ | .backfill _
  | .upsertMetric _ | .finish _ => []

section Added

variable {st st' : Stores}

/-- A step that shows nothing has inserted no row, and leaves the feed without a
new entry and the alerts as they are. -/
theorem added_nil : added st st' = [] ↔
    st'.postgres.workItems.length ≤ st.postgres.workItems.length ∧
      (∀ e ∈ st'.redis.liveFeed, e ∈ st.redis.liveFeed) ∧ st'.alerts.length ≤ st.alerts.length := by
  simp only [added, List.append_eq_nil_iff, List.map_eq_nil_iff, List.drop_eq_nil_iff,
    List.filter_eq_nil_iff, decide_eq_true_iff, not_not, and_assoc]

theorem added_same (hitems : st'.postgres.workItems.length = st.postgres.workItems.length)
    (hfeed : st'.redis.liveFeed = st.redis.liveFeed) (halerts : st'.alerts = st.alerts) :
    added st st' = [] :=
  added_nil.mpr ⟨hitems.le, fun _ he => hfeed ▸ he, halerts ▸ Nat.le_refl _⟩

theorem added_item (wi : WorkItem) (hitems : st'.postgres.workItems = st.postgres.workItems ++ [wi])
    (hfeed : st'.redis.liveFeed = st.redis.liveFeed) (halerts : st'.alerts = st.alerts) :
    added st st' = [.insertItem wi.id] := by
  simp [added, hitems, hfeed, halerts]

theorem added_member {member : String} {score : Int} (hnew : member ∉ zrange st.redis.liveFeed)
    (hitems : st'.postgres.workItems = st.postgres.workItems)
    (hfeed : st'.redis.liveFeed = zadd member score st.redis.liveFeed)
    (halerts : st'.alerts = st.alerts) : added st st' = [.zadd member score] := by
  rw [added, hitems, hfeed, halerts, added_zadd hnew]
  simp

theorem added_alert {alert : Alert} (hitems : st'.postgres.workItems = st.postgres.workItems)
    (hfeed : st'.redis.liveFeed = st.redis.liveFeed) (halerts : st'.alerts = st.alerts ++ [alert]) :
    added st st' = [.dispatch alert] := by
  simp [added, hitems, hfeed, halerts]

end Added

theorem setNx_feed (r : Redis) (key value : String) : (r.setNx key value).1.liveFeed = r.liveFeed := by
  unfold Redis.setNx
  split <;> rfl

theorem setXx_feed (r : Redis) (key value : String) : (r.setXx key value).liveFeed = r.liveFeed := by
  unfold Redis.setXx
  split <;> rfl

/-- What the stores show of a step is what the place says. -/
theorem actionOf_eq (r : Run) (now : Int) (st : Stores)
    (hfresh : ∀ w, r.pc = .pushLiveFeed w →
      feedMember w r.sig.componentId ∉ zrange st.redis.liveFeed) :
    getsNothing r st ++ added st (r.perform now st).1 = actionOf r st := by
  cases hpc : r.pc with
  | create won =>
      simp only [getsNothing, actionOf, Run.perform, hpc, List.nil_append]
      exact added_item (newWorkItem r.sig (st.postgres.workItemsSeq + 1) now) rfl rfl rfl
  | pushLiveFeed w =>
      simp only [getsNothing, actionOf, Run.perform, hpc, List.nil_append]
      exact added_member (hfresh w hpc) rfl rfl rfl
  | dispatch w =>
      simp only [getsNothing, actionOf, Run.perform, hpc, List.nil_append]
      exact added_alert rfl rfl rfl
  | getOpenWorkItem =>
      have hsame : added st (r.perform now st).1 = [] := by
        simp only [Run.perform, hpc]
        split <;> exact added_same rfl rfl rfl
      simp only [hsame, actionOf, hpc, List.append_nil]
  | insertSignal =>
      simp only [getsNothing, actionOf, Run.perform, hpc, List.nil_append]
      split <;> exact added_same rfl rfl rfl
  | claim =>
      simp only [getsNothing, actionOf, Run.perform, hpc, List.nil_append]
      exact added_same rfl (setNx_feed _ _ _) rfl
  | publish won w =>
      cases won with
      | true =>
          simp only [getsNothing, actionOf, Run.perform, hpc, List.nil_append]
          exact added_same rfl (setXx_feed _ _ _) rfl
      | false =>
          simp only [getsNothing, actionOf, Run.perform, hpc, List.nil_append]
          exact added_same rfl rfl rfl
  | increment w =>
      simp only [getsNothing, actionOf, Run.perform, hpc, List.nil_append]
      exact added_same (List.length_map _) rfl rfl
  | addLink | backfill | upsertMetric | finish =>
      simp only [getsNothing, actionOf, Run.perform, hpc, List.nil_append]
      exact added_same rfl rfl rfl

def announcement (sig : SignalIn) (w : Int) : List Action :=
  [.insertItem w, .zadd (feedMember w sig.componentId) (severityScore sig.severity.value),
    .dispatch ((alerterFor sig.componentType).dispatch (alertContext sig w))]

def settled : Pc → Bool
  | .addLink _ | .backfill _ | .upsertMetric _ | .finish _ => true
  | .insertSignal | .claim | .create _ | .publish _ _ | .pushLiveFeed _ | .dispatch _
  | .getOpenWorkItem | .increment _ => false

def undecided : Pc → Bool
  | .insertSignal | .claim | .create true | .getOpenWorkItem | .increment _ => true
  | .create false | .publish _ _ | .pushLiveFeed _ | .dispatch _ | .addLink _ | .backfill _
  | .upsertMetric _ | .finish _ => false

inductive Story (sig : SignalIn) : Pc → List Action → Prop
  | undecided (pc) (hpc : undecided pc = true) : Story sig pc []
  | published (w) : Story sig (.publish true w) [.insertItem w]
  | pushing (w) : Story sig (.pushLiveFeed w) [.insertItem w]
  | alerting (w) : Story sig (.dispatch w)
      [.insertItem w, .zadd (feedMember w sig.componentId) (severityScore sig.severity.value)]
  | gone : Story sig (.create false) [.getNothing]
  | bare (w) : Story sig (.publish false w) [.getNothing, .insertItem w]
  | announced (w pc) (hpc : settled pc = true) : Story sig pc (announcement sig w)
  | silent (w pc) (hpc : settled pc = true) : Story sig pc [.getNothing, .insertItem w]
  | joined (pc) (hpc : settled pc = true) : Story sig pc []

theorem settled_attempt {r : Run} (now : Int) (st : Stores) (h : settled r.pc = true) :
    settled (r.attempt .ok now st).2.pc = true ∧ actionOf r st = [] := by
  cases hpc : r.pc with
  | addLink | backfill | upsertMetric | finish =>
      refine ⟨?_, by rw [actionOf, hpc]⟩
      simp only [Run.attempt, Run.perform, hpc, Run.resume]
      rfl
  | _ =>
      rw [hpc] at h
      cases h

theorem undecided_attempt {r : Run} {now : Int} {st : Stores} {runs : List Run}
    (hkeys : KeysWf st runs) (h : undecided r.pc = true) :
    Story r.sig (r.attempt .ok now st).2.pc (actionOf r st) := by
  cases hpc : r.pc with
  | insertSignal =>
      simp only [Run.attempt, Run.perform, hpc, actionOf]
      split
      · next e _ =>
        rcases handle_pc r e with hstay | hswallow
        · rw [Run.resume, hstay, hpc]
          exact .undecided _ rfl
        · rw [hpc] at hswallow
          cases hswallow
      · exact .undecided _ rfl
  | claim =>
      simp only [Run.attempt, Run.perform, hpc, actionOf, Run.resume]
      cases (st.redis.setNx (dedupKey r.sig.componentId) (Workers.placeholder r.mongoId)).2 with
      | true => exact .undecided _ rfl
      | false => exact .undecided _ rfl
  | create won =>
      cases won with
      | true =>
          simp only [Run.attempt, Run.perform, hpc, actionOf, Run.resume]
          exact .published _
      | false =>
          rw [hpc] at h
          cases h
  | getOpenWorkItem =>
      cases hkey : st.redis.strings (dedupKey r.sig.componentId) with
      | none =>
          simp only [Run.attempt, Run.perform, hpc, actionOf, getOpenWorkItem_none hkey, getsNothing,
            keyed, hkey, Run.resume]
          exact .gone
      | some v =>
          have hnothing : actionOf r st = [] := by
            simp [actionOf, getsNothing, hpc, keyed, hkey]
          rw [hnothing]
          rcases hkeys _ v hkey with ⟨b, _, _, _, rfl⟩ | ⟨wi, _, _, rfl⟩
          · simp only [Run.attempt, Run.perform, hpc, Workers.getOpenWorkItem_placeholder hkey,
              Run.resume, Run.handle]
            exact .undecided _ rfl
          · simp only [Run.attempt, Run.perform, hpc, getOpenWorkItem_str hkey, Run.resume]
            exact .undecided _ rfl
  | increment w =>
      simp only [Run.attempt, Run.perform, hpc, actionOf, Run.resume]
      exact .joined _ rfl
  | _ =>
      rw [hpc] at h
      cases h

theorem story_attempt {r : Run} {now : Int} {st : Stores} {runs : List Run} {history : List Action}
    (hkeys : KeysWf st runs) (h : Story r.sig r.pc history) :
    Story r.sig (r.attempt .ok now st).2.pc (history ++ actionOf r st) := by
  generalize hpc : r.pc = pc at h
  cases h with
  | undecided _ h => exact undecided_attempt hkeys (hpc ▸ h)
  | published w =>
      simp only [Run.attempt, Run.perform, hpc, actionOf, Run.resume]
      exact .pushing w
  | pushing w =>
      simp only [Run.attempt, Run.perform, hpc, actionOf, Run.resume]
      exact .alerting w
  | alerting w =>
      simp only [Run.attempt, Run.perform, hpc, actionOf, Run.resume]
      exact .announced w _ rfl
  | gone =>
      simp only [Run.attempt, Run.perform, hpc, actionOf, Run.resume]
      exact .bare _
  | bare w =>
      simp only [Run.attempt, Run.perform, hpc, actionOf, Run.resume]
      exact .silent w _ rfl
  | announced w _ h =>
      obtain ⟨hsettled, hnothing⟩ := settled_attempt now st (hpc ▸ h)
      rw [hnothing, List.append_nil]
      exact .announced w _ hsettled
  | silent w _ h =>
      obtain ⟨hsettled, hnothing⟩ := settled_attempt now st (hpc ▸ h)
      rw [hnothing, List.append_nil]
      exact .silent w _ hsettled
  | joined _ h =>
      obtain ⟨hsettled, hnothing⟩ := settled_attempt now st (hpc ▸ h)
      rw [hnothing]
      exact .joined _ hsettled

structure Told (k : Nat) (history : List Action) (s : World) : Prop where
  none : s.runs[k]? = none → history = []
  story : ∀ r, s.runs[k]? = some r → Story r.sig r.pc history
  inserted : ∀ r, s.runs[k]? = some r → ∀ w, .insertItem w ∈ history →
    ∃ now, newWorkItem r.sig w now ∈ origins s.stores
  returned : ∀ r, s.runs[k]? = some r → r.status = .returned → settled r.pc = true

variable {cfg : Settings} {s t : World} {e : Event} {k : Nat} {history : List Action}

theorem actions_other (h : runIndex e ≠ some k) : actions cfg k s e = [] := if_neg h

theorem actions_own {r : Run} (hr : s.runs[k]? = some r) (he : runIndex e = some k)
    (hs : step cfg s e = some t) :
    actions cfg k s e = getsNothing r s.stores ++ added s.stores t.stores := by
  rw [actions, if_pos he, hr, hs]
  rfl

/-- Before a run pushes its item the feed has no member of it. -/
theorem fresh_member (h : FeedWf s) {r : Run} (hr : s.runs[k]? = some r) (w : Int)
    (hpc : r.pc = .pushLiveFeed w) :
    feedMember w r.sig.componentId ∉ zrange s.stores.redis.liveFeed := fun hm =>
  h.absent r (List.mem_of_getElem? hr) w (by rw [hpc]; rfl) _ hm (decodedId_feedMember w _)

theorem inserted_row {r : Run} {st : Stores} {w : Int} (h : .insertItem w ∈ actionOf r st) (now : Int) :
    (r.perform now st).1.postgres.workItems = st.postgres.workItems ++ [newWorkItem r.sig w now] := by
  cases hpc : r.pc with
  | create won =>
      simp only [actionOf, hpc, List.mem_singleton, Action.insertItem.injEq] at h
      subst h
      simp only [Run.perform, hpc]
      rfl
  | getOpenWorkItem =>
      simp only [actionOf, getsNothing, hpc] at h
      split at h
      · cases h
      · cases List.mem_singleton.mp h
  | pushLiveFeed | dispatch =>
      simp only [actionOf, hpc] at h
      cases List.mem_singleton.mp h
  | insertSignal | claim | publish | increment | addLink | backfill | upsertMetric | finish =>
      simp only [actionOf, hpc] at h
      cases h

theorem told_attempt (h : Told k history s) (hwf : Wf s) (hfeed : FeedWf s) {r : Run}
    (hr : s.runs[k]? = some r) (hrun : r.status = .running) (hs : step cfg s (.run k .ok) = some t)
    (hst : t.stores = (r.attempt .ok s.clock s.stores).1)
    (hr' : t.runs[k]? = some (r.attempt .ok s.clock s.stores).2) :
    Told k (history ++ actions cfg k s (.run k .ok)) t := by
  have hactions : actions cfg k s (.run k .ok) = actionOf r s.stores := by
    rw [actions_own hr rfl hs, hst]
    exact actionOf_eq r s.clock s.stores (fresh_member hfeed hr)
  have hsig := (attempt_sig r .ok s.clock s.stores).1
  rw [hactions]
  refine ⟨fun hnone => ?_, fun b hb => ?_, fun b hb w hw => ?_, fun b hb hret => ?_⟩
  · cases hr'.symm.trans hnone
  · rw [Option.some.inj (hb.symm.trans hr'), hsig]
    exact story_attempt hwf.keys (h.story r hr)
  · rw [Option.some.inj (hb.symm.trans hr'), hsig]
    rcases List.mem_append.mp hw with hw | hw
    · obtain ⟨now, hnew⟩ := h.inserted r hr w hw
      exact ⟨now, (step_grows hs).items _ hnew⟩
    · have hitems : t.stores.postgres.workItems =
          s.stores.postgres.workItems ++ [newWorkItem r.sig w s.clock] := by
        rw [hst]
        exact inserted_row hw s.clock
      refine ⟨s.clock, ?_⟩
      rw [origins, hitems, List.map_append]
      exact List.mem_append_right _ (List.mem_singleton.mpr rfl)
  · rw [Option.some.inj (hb.symm.trans hr')] at hret
    have hnot := attempt_not_returned .ok s.clock s.stores hrun
    simp [returned, hret] at hnot

theorem told_step (h : Told k history s) (hwf : Wf s) (hfeed : FeedWf s) (he : Smooth e)
    (hs : step cfg s e = some t) : Told k (history ++ actions cfg k s e) t := by
  by_cases hk : runIndex e = some k
  · obtain ⟨r, r', hr, hrun, hr', ⟨o, rfl, hst, rfl⟩ | ⟨hst, _, rfl, ⟨rfl, w, hpc⟩ | ⟨_, rfl⟩⟩⟩ :=
      own_step hs hk
    · cases show o = .ok from he
      exact told_attempt h hwf hfeed hr hrun hs hst hr'
    · have hnothing : actions cfg k s e = [] := by
        rw [actions_own hr hk hs, hst, added_same rfl rfl rfl, getsNothing, hpc]
        rfl
      rw [hnothing, List.append_nil]
      refine ⟨fun hnone => ?_, fun b hb => ?_, fun b hb => ?_, fun b hb _ => ?_⟩
      · cases hr'.symm.trans hnone
      · rw [Option.some.inj (hb.symm.trans hr')]
        exact h.story r hr
      · rw [Option.some.inj (hb.symm.trans hr'), hst]
        exact h.inserted r hr
      · rw [Option.some.inj (hb.symm.trans hr')]
        exact (congrArg settled hpc).trans rfl
    · exact absurd he id
  · rw [actions_other hk, List.append_nil]
    have hold : ∀ b, t.runs[k]? = some b → s.runs[k]? = some b ∨
        history = [] ∧ b.pc = .insertSignal ∧ b.status = .running := by
      intro b hb
      exact (other_back hs hk hb).imp_right fun hnew => ⟨h.none hnew.1, hnew.2⟩
    refine ⟨fun hnone => ?_, fun b hb => ?_, fun b hb w hw => ?_, fun b hb hret => ?_⟩
    · cases hr : s.runs[k]? with
      | none => exact h.none hr
      | some r => cases (other_step hs hk hr).symm.trans hnone
    · rcases hold b hb with hr | ⟨rfl, hpc, _⟩
      · exact h.story b hr
      · rw [hpc]
        exact .undecided _ rfl
    · rcases hold b hb with hr | ⟨rfl, _⟩
      · obtain ⟨now, hnew⟩ := h.inserted b hr w hw
        exact ⟨now, (step_grows hs).items _ hnew⟩
      · cases hw
    · rcases hold b hb with hr | ⟨_, _, hrun⟩
      · exact h.returned b hr hret
      · cases hrun.symm.trans hret

def historyOf (cfg : Settings) (n : Nat) (es : List Event) (k : Nat) : List Action :=
  gather (step cfg) (actions cfg k) (init n) es

structure Announced (history : List Action) (wi : WorkItem) : Prop where
  pushed : history.filter Action.isZadd =
    [.zadd (feedMember wi.id wi.componentId) (severityScore wi.severity.value)]
  alerted : ∃ ctx, ctx.workItemId = wi.id ∧
    history.filter Action.isDispatch = [.dispatch ((alerterFor wi.componentType).dispatch ctx)]

def NewIncidentsAnnounced (cfg : Settings) (n : Nat) (es : List Event) (s : World) : Prop :=
  ∀ k r, s.runs[k]? = some r → r.status = .returned → ∀ w, .insertItem w ∈ historyOf cfg n es k →
    ∃ wi ∈ s.stores.postgres.workItems, wi.id = w ∧ Announced (historyOf cfg n es k) wi

theorem told_trace {n : Nat} {es : List Event} (h : Trace (step cfg) (fun _ e => Smooth e) (init n) es s)
    (k : Nat) : Told k (historyOf cfg n es k) s := by
  refine (h.with_invariant (fun s => Wf s ∧ FeedWf s) ⟨wf_init n, feedWf_init n⟩
    fun s e t ⟨hwf, hfeed⟩ he hs => ?_).invariant_past (fun es s => Told k (historyOf cfg n es k) s) ?_ ?_
  · exact ⟨wf_step hwf hs (clean_of_smooth he), feedWf_step hfeed hwf hs (clean_of_smooth he)⟩
  · have hruns (r : Run) : (init n).runs[k]? ≠ some r := by
      intro hr
      cases hr
    exact ⟨fun _ => rfl, fun r hr => absurd hr (hruns r), fun r hr => absurd hr (hruns r),
      fun r hr => absurd hr (hruns r)⟩
  · intro es s e t htrace htold he hs
    rw [historyOf, htrace.gather_next hs]
    exact told_step htold he.1.1 he.1.2 he.2 hs

theorem announced_iff {n : Nat} {es : List Event} {r : Run}
    (htold : Told k (historyOf cfg n es k) s) (hr : s.runs[k]? = some r) (hret : r.status = .returned) :
    (∀ w, .insertItem w ∈ historyOf cfg n es k →
        ∃ wi ∈ s.stores.postgres.workItems, wi.id = w ∧ Announced (historyOf cfg n es k) wi) ↔
      .getNothing ∉ historyOf cfg n es k := by
  have hstory := htold.story r hr
  have hinserted := htold.inserted r hr
  have hsettled := htold.returned r hr hret
  generalize historyOf cfg n es k = history at hstory hinserted
  generalize r.pc = pc at hstory hsettled
  cases hstory with
  | undecided _ h => cases pc <;> simp_all [settled, undecided]
  | published | pushing | alerting | gone | bare => cases hsettled
  | joined => exact iff_of_true nofun nofun
  | silent w =>
      refine iff_of_false (fun h => ?_) fun h => h List.mem_cons_self
      obtain ⟨wi, _, _, hannounced⟩ := h w (List.mem_cons_of_mem _ List.mem_cons_self)
      cases hannounced.pushed
  | announced w =>
      refine iff_of_true (fun v hv => ?_) (by simp [announcement])
      have hvw : v = w := by simpa [announcement] using hv
      subst hvw
      obtain ⟨now, hnew⟩ := hinserted v hv
      obtain ⟨wi, hwi, horigin⟩ := List.mem_map.mp hnew
      have hcopy {α : Type} (f : WorkItem → α) (hf : f (origin wi) = f wi) :
          f wi = f (newWorkItem r.sig v now) := by rw [← horigin, hf]
      have hid : wi.id = v := hcopy WorkItem.id rfl
      have hcomp : wi.componentId = r.sig.componentId := hcopy WorkItem.componentId rfl
      have htype : wi.componentType = r.sig.componentType := hcopy WorkItem.componentType rfl
      have hseverity : wi.severity = r.sig.severity := hcopy WorkItem.severity rfl
      refine ⟨wi, hwi, hid, ?_, alertContext r.sig v, hid.symm, ?_⟩
      · rw [hid, hcomp, hseverity]
        rfl
      · rw [htype]
        rfl

/-- Every new incident is announced exactly once, except by a run that gets no
value for its key after it has failed to claim it. -/
theorem new_incidents_announced {n : Nat} {es : List Event}
    (h : Trace (step cfg) (fun _ e => Smooth e) (init n) es s) :
    NewIncidentsAnnounced cfg n es s ↔
      ∀ k r, s.runs[k]? = some r → r.status = .returned → .getNothing ∉ historyOf cfg n es k := by
  constructor
  · exact fun hall k r hr hret => (announced_iff (told_trace h k) hr hret).mp (hall k r hr hret)
  · exact fun hall k r hr hret => (announced_iff (told_trace h k) hr hret).mpr (hall k r hr hret)

def twoIncidents : List Event :=
  [.offer (errorSignal "db"), .offer (errorSignal "api"), .get "a", .get "b"] ++ runOn 0 5 ++
    runOn 1 10 ++ runOn 0 5

theorem new_incidents_announced_two_incidents :
    ∃ s : World, s.runs.map Run.status = [.returned, .returned] ∧
      NewIncidentsAnnounced {} 2 twoIncidents s := by
  obtain ⟨s, hs, hp⟩ := trace_of_replay (step {}) (fun _ e => Smooth e) (init 2) twoIncidents
    (fun s => decide (s.runs.map Run.status = [.returned, .returned])) (by decide +kernel)
  have hstatus := of_decide_eq_true hp
  refine ⟨s, hstatus, (new_incidents_announced hs).mpr fun k r hr _ => ?_⟩
  have hlen : s.runs.length = 2 := by simpa using congrArg List.length hstatus
  have hlt := lt_of_slot hr
  rw [hlen] at hlt
  have hnone : ∀ k < 2, Action.getNothing ∉ historyOf {} 2 twoIncidents k := by decide +kernel
  exact hnone k hlt

/-- The key expires between the lost claim of the second run and its read. -/
def expiredBetween : List Event :=
  List.replicate 2 (.offer (errorSignal "db")) ++ [.get "a", .get "b"] ++ runOn 0 10 ++ runOn 1 2 ++
    [.expire (dedupKey "db")] ++ runOn 1 7

theorem second_incident_not_announced :
    ∃ s, Trace (step {}) (fun _ e => Smooth e) (init 2) expiredBetween s ∧
      ¬ NewIncidentsAnnounced {} 2 expiredBetween s := by
  obtain ⟨s, hs, hp⟩ := trace_of_replay (step {}) (fun _ e => Smooth e) (init 2) expiredBetween
    (fun s => (s.runs[1]?).any returned) (by decide +kernel)
  obtain ⟨r, hr, hret⟩ := (Option.any_eq_true _ _).mp hp
  have hhistory : historyOf {} 2 expiredBetween 1 = [.getNothing, .insertItem 2] := by decide +kernel
  refine ⟨s, hs, fun h => ?_⟩
  obtain ⟨_, _, _, hannounced⟩ := h 1 r hr (of_decide_eq_true hret) 2 (by rw [hhistory]; simp)
  have hpushed := hannounced.pushed
  rw [hhistory] at hpushed
  cases hpushed

end Ims.Announcements
