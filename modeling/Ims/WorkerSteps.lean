import Ims.Workers

namespace Ims.WorkerSteps

open Library.Text Library.Tables Time Models Alerting Mongo PostgresRepo RedisCache Retry Workers

def newWorkItem (sig : SignalIn) (id now : Int) : WorkItem where
  id := id
  componentId := sig.componentId
  componentType := sig.componentType
  severity := sig.severity
  state := .OPEN
  startTime := sig.timestamp.instant
  endTime := none
  mttrSeconds := none
  signalCount := 1
  summary := some (sig.componentType.value ++ " signal: " ++ sig.severity.value)
  createdAt := now
  updatedAt := now

def linkOf (r : Run) (workItemId : Int) : SignalLink where
  workItemId := workItemId
  mongoSignalId := r.mongoId
  componentId := r.sig.componentId
  severity := r.sig.severity
  signalTimestamp := r.sig.timestamp.instant

def keyOf (r : Run) : String := dedupKey r.sig.componentId

/-- All that a step of one run can do when no failed operation has an effect:
one constructor for each effect, and one for every step that leaves the stores
and the place of the run alone. -/
inductive RunStep (now : Int) (st : Stores) (r : Run) : Stores → Run → Prop
  | stay (r') (hsig : r'.sig = r.sig) (hdoc : r'.rawDoc = r.rawDoc) (hpc : r'.pc = r.pc) :
      RunStep now st r st r'
  | insert (hpc : r.pc = .insertSignal) (hnew : r.mongoId ∉ st.mongo.map Document.id) :
      RunStep now st r { st with mongo := st.mongo ++ [r.rawDoc] } (r.goOn .claim)
  | win (hpc : r.pc = .claim) (hkey : st.redis.strings (keyOf r) = none) :
      RunStep now st r { st with redis := st.redis.set (keyOf r) (placeholder r.mongoId) }
        (r.goOn (.create true))
  | lose (hpc : r.pc = .claim) (v) (hkey : st.redis.strings (keyOf r) = some v) :
      RunStep now st r st (r.goOn .getOpenWorkItem)
  | create (won) (hpc : r.pc = .create won) :
      RunStep now st r
        { st with postgres := { st.postgres with
          workItems := st.postgres.workItems ++
            [newWorkItem r.sig (st.postgres.workItemsSeq + 1) now]
          workItemsSeq := st.postgres.workItemsSeq + 1 } }
        (r.goOn (.publish won (st.postgres.workItemsSeq + 1)))
  | publishGone (w) (hpc : r.pc = .publish true w) (hkey : st.redis.strings (keyOf r) = none) :
      RunStep now st r st (r.goOn (.pushLiveFeed w))
  | publishOver (w v) (hpc : r.pc = .publish true w) (hkey : st.redis.strings (keyOf r) = some v) :
      RunStep now st r { st with redis := st.redis.set (keyOf r) (str w) } (r.goOn (.pushLiveFeed w))
  | publishAnyway (w) (hpc : r.pc = .publish false w) :
      RunStep now st r { st with redis := st.redis.set (keyOf r) (str w) } (r.goOn (.addLink w))
  | push (w) (hpc : r.pc = .pushLiveFeed w) :
      RunStep now st r
        { st with redis := pushLiveFeed st.redis w r.sig.severity.value r.sig.componentId }
        (r.goOn (.dispatch w))
  | dispatch (w alerts) (hpc : r.pc = .dispatch w) :
      RunStep now st r { st with alerts } (r.goOn (.addLink w))
  | findGone (hpc : r.pc = .getOpenWorkItem)
      (hkey : getOpenWorkItem st.redis r.sig.componentId = .ok none) :
      RunStep now st r st (r.goOn (.create false))
  | findItem (w) (hpc : r.pc = .getOpenWorkItem)
      (hkey : getOpenWorkItem st.redis r.sig.componentId = .ok (some w)) :
      RunStep now st r st (r.goOn (.increment w))
  | increment (w) (hpc : r.pc = .increment w) :
      RunStep now st r { st with postgres := incrementSignalCount st.postgres w now }
        (r.goOn (.addLink w))
  | link (w) (hpc : r.pc = .addLink w) :
      RunStep now st r
        { st with postgres := { st.postgres with
          signalLinks := st.postgres.signalLinks ++ [linkOf r w] } }
        (r.goOn (.backfill w))
  | backfill (w) (hpc : r.pc = .backfill w) :
      RunStep now st r { st with mongo := setWorkItemId st.mongo r.mongoId w }
        (r.goOn (.upsertMetric w))
  | skipBackfill (w) (hpc : r.pc = .backfill w) : RunStep now st r st (r.goOn (.upsertMetric w))
  | meter (w) (hpc : r.pc = .upsertMetric w) :
      RunStep now st r
        { st with postgres :=
          upsertMetricBucket st.postgres (bucketFor r.sig.timestamp) r.sig.componentId r.sig.severity }
        (r.goOn (.finish w))

@[simp] theorem goOn_sig (r : Run) (pc : Pc) : (r.goOn pc).sig = r.sig := rfl

@[simp] theorem goOn_pc (r : Run) (pc : Pc) : (r.goOn pc).pc = pc := rfl

@[simp] theorem goOn_status (r : Run) (pc : Pc) : (r.goOn pc).status = r.status := rfl

theorem retryOr_stays (r : Run) (e : Exc) (b : Option Budget) :
    (r.retryOr e b).sig = r.sig ∧ (r.retryOr e b).rawDoc = r.rawDoc ∧ (r.retryOr e b).pc = r.pc := by
  cases b <;> exact ⟨rfl, rfl, rfl⟩

theorem handle_runStep (now : Int) (st : Stores) (r : Run) (e : Exc) :
    RunStep now st r st (r.handle e) := by
  have hretry (b : Option Budget) : RunStep now st r st (r.retryOr e b) :=
    .stay _ (retryOr_stays r e b).1 (retryOr_stays r e b).2.1 (retryOr_stays r e b).2.2
  unfold Run.handle
  split
  · exact hretry _
  · exact hretry _
  · exact hretry _
  · exact hretry _
  · exact hretry _
  · exact hretry _
  · exact .stay _ rfl rfl rfl
  · exact .stay _ rfl rfl rfl
  · exact .stay _ rfl rfl rfl
  · exact .stay _ rfl rfl rfl
  · next w hpc => exact .dispatch w st.alerts hpc
  · next w hpc => exact .skipBackfill w hpc

def swallows : Pc → Bool
  | .dispatch _ | .backfill _ => true
  | .insertSignal | .claim | .create _ | .publish _ _ | .pushLiveFeed _ | .getOpenWorkItem
  | .increment _ | .addLink _ | .upsertMetric _ | .finish _ => false

theorem handle_pc (r : Run) (e : Exc) : (r.handle e).pc = r.pc ∨ swallows r.pc = true := by
  cases hpc : r.pc with
  | dispatch | backfill => exact .inr rfl
  | insertSignal | pushLiveFeed | create | increment | addLink | upsertMetric =>
      simp only [Run.handle, hpc]
      exact .inl ((retryOr_stays r e _).2.2.trans hpc)
  | claim | publish | getOpenWorkItem | finish =>
      simp only [Run.handle, hpc, true_or]

theorem handle_status (r : Run) (e : Exc) :
    (r.handle e).status = r.status ∨ (r.handle e).status = .raised e := by
  have hretry (b : Option Budget) :
      (r.retryOr e b).status = r.status ∨ (r.retryOr e b).status = .raised e := by
    cases b with
    | none => exact .inr rfl
    | some => exact .inl rfl
  cases hpc : r.pc with
  | insertSignal | pushLiveFeed | create | increment | addLink | upsertMetric =>
      simp only [Run.handle, hpc]
      exact hretry _
  | dispatch | backfill =>
      simp only [Run.handle, hpc]
      exact .inl rfl
  | claim | publish | getOpenWorkItem | finish => simp only [Run.handle, hpc, or_true]

theorem attempt_status (r : Run) (o : Outcome) (now : Int) (st : Stores) :
    (r.attempt o now st).2.status = r.status ∨ ∃ e, (r.attempt o now st).2.status = .raised e := by
  have hhandle (e : Exc) : (r.handle e).status = r.status ∨ ∃ e', (r.handle e).status = .raised e' :=
    (handle_status r e).imp_right fun h => ⟨e, h⟩
  cases o with
  | ok =>
      simp only [Run.attempt, Run.resume]
      split
      · exact .inl rfl
      · exact hhandle _
  | fail e => exact hhandle e
  | lost e => exact hhandle e

theorem perform_runStep (now : Int) (st : Stores) (r : Run) :
    RunStep now st r (r.perform now st).1 (r.resume (r.perform now st).2) := by
  cases hpc : r.pc with
  | insertSignal =>
      by_cases hnew : r.rawDoc.id ∈ st.mongo.map Document.id
      · have hp : r.perform now st = (st, .error .duplicateKeyError) := by
          simp only [Run.perform, hpc, insertSignal, if_pos hnew]
        rw [hp]
        exact handle_runStep now st r .duplicateKeyError
      · have hp : r.perform now st = ({ st with mongo := st.mongo ++ [r.rawDoc] }, .ok .claim) := by
          simp only [Run.perform, hpc, insertSignal, if_neg hnew]
        rw [hp]
        exact .insert hpc hnew
  | claim =>
      cases hkey : st.redis.strings (dedupKey r.sig.componentId) with
      | none =>
          simp only [Run.perform, hpc, setNx_none hkey]
          exact .win hpc hkey
      | some v =>
          simp only [Run.perform, hpc, setNx_some hkey]
          exact .lose hpc v hkey
  | create won =>
      simp only [Run.perform, hpc]
      exact .create won hpc
  | publish won w =>
      cases won with
      | true =>
          cases hkey : st.redis.strings (dedupKey r.sig.componentId) with
          | none =>
              simp only [Run.perform, hpc, setXx_none hkey]
              exact .publishGone w hpc hkey
          | some v =>
              simp only [Run.perform, hpc, setXx_some hkey]
              exact .publishOver w v hpc hkey
      | false =>
          simp only [Run.perform, hpc]
          exact .publishAnyway w hpc
  | pushLiveFeed w =>
      simp only [Run.perform, hpc]
      exact .push w hpc
  | dispatch w =>
      simp only [Run.perform, hpc]
      exact .dispatch w _ hpc
  | getOpenWorkItem =>
      cases hkey : getOpenWorkItem st.redis r.sig.componentId with
      | error e =>
          have hp : r.perform now st = (st, .error e) := by
            simp only [Run.perform, hpc, hkey]
          rw [hp]
          exact handle_runStep now st r e
      | ok existing =>
          cases existing with
          | none =>
              simp only [Run.perform, hpc, hkey]
              exact .findGone hpc hkey
          | some w =>
              simp only [Run.perform, hpc, hkey]
              exact .findItem w hpc hkey
  | increment w =>
      simp only [Run.perform, hpc]
      exact .increment w hpc
  | addLink w =>
      simp only [Run.perform, hpc]
      exact .link w hpc
  | backfill w =>
      simp only [Run.perform, hpc]
      exact .backfill w hpc
  | upsertMetric w =>
      simp only [Run.perform, hpc]
      exact .meter w hpc
  | finish w =>
      simp only [Run.perform, hpc]
      exact .stay _ rfl rfl hpc.symm

/-- A failure without effect is one that no caller can mistake. -/
def Outcome.Clean : Outcome → Prop
  | .lost _ => False
  | .ok | .fail _ => True

instance : DecidablePred Outcome.Clean
  | .ok | .fail _ => .isTrue trivial
  | .lost _ => .isFalse id

theorem attempt_runStep (now : Int) (st : Stores) (r : Run) {o : Outcome} (ho : Outcome.Clean o) :
    RunStep now st r (r.attempt o now st).1 (r.attempt o now st).2 := by
  cases o with
  | ok => exact perform_runStep now st r
  | fail e => exact handle_runStep now st r e
  | lost e => cases ho

end Ims.WorkerSteps
