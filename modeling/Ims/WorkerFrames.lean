import Ims.WorkerMoves

namespace Ims.WorkerFrames

open Library.Text Library.Tables Models Mongo PostgresRepo RedisCache WorkerSteps WorkerMoves
open Workers (Stores Run Pc Outcome placeholder)

def stored : Pc → Bool
  | .insertSignal => false
  | .claim | .create _ | .publish _ _ | .pushLiveFeed _ | .dispatch _ | .getOpenWorkItem
  | .increment _ | .addLink _ | .backfill _ | .upsertMetric _ | .finish _ => true

/-- The run holds the claim that it won, under its placeholder unless that expired. -/
def claiming : Pc → Bool
  | .create true | .publish true _ => true
  | .insertSignal | .claim | .create false | .publish false _ | .pushLiveFeed _ | .dispatch _
  | .getOpenWorkItem | .increment _ | .addLink _ | .backfill _ | .upsertMetric _ | .finish _ => false

def workItemOf : Pc → Option Int
  | .publish _ w | .pushLiveFeed w | .dispatch w | .increment w | .addLink w | .backfill w
  | .upsertMetric w | .finish w => some w
  | .insertSignal | .claim | .create _ | .getOpenWorkItem => none

def linkedTo : Pc → Option Int
  | .backfill w | .upsertMetric w | .finish w => some w
  | .insertSignal | .claim | .create _ | .publish _ _ | .pushLiveFeed _ | .dispatch _
  | .getOpenWorkItem | .increment _ | .addLink _ => none

variable {now : Int} {st st' : Stores} {r r' : Run}

theorem runStep_sig (h : RunStep now st r st' r') : r'.sig = r.sig ∧ r'.rawDoc = r.rawDoc := by
  cases h with
  | stay _ hsig hdoc _ => exact ⟨hsig, hdoc⟩
  | _ => exact ⟨rfl, rfl⟩

theorem runStep_mongoId (h : RunStep now st r st' r') : r'.mongoId = r.mongoId :=
  congrArg Document.id (runStep_sig h).2

theorem attempt_sig (r : Run) (o : Outcome) (now : Int) (st : Stores) :
    (r.attempt o now st).2.sig = r.sig ∧ (r.attempt o now st).2.rawDoc = r.rawDoc := by
  cases o with
  | ok => exact runStep_sig (perform_runStep now st r)
  | fail e => exact runStep_sig (handle_runStep now st r e)
  | lost e => exact runStep_sig (handle_runStep now st r e)

theorem attempt_mongoId (r : Run) (o : Outcome) (now : Int) (st : Stores) :
    (r.attempt o now st).2.mongoId = r.mongoId :=
  congrArg Document.id (attempt_sig r o now st).2

theorem sources_setWorkItemId (docs : RawSignals) (m : String) (w : Int) :
    (setWorkItemId docs m w).map source = docs.map source := by
  unfold setWorkItemId
  exact map_updateWhere source _ _ (by intro; rfl) _

theorem origins_increment (pg : Postgres) (w now : Int) :
    (incrementSignalCount pg w now).workItems.map origin = pg.workItems.map origin := by
  unfold incrementSignalCount updateWorkItem
  exact map_updateWhere origin _ _ (by intro; rfl) _

theorem runStep_docs (h : RunStep now st r st' r') :
    (r.pc = .insertSignal ∧ r'.pc = .claim ∧ r.mongoId ∉ st.mongo.map Document.id ∧
        st'.mongo = st.mongo ++ [r.rawDoc]) ∨
      (stored r'.pc = stored r.pc ∧ sources st' = sources st) := by
  cases h with
  | stay _ _ _ hpc => exact .inr ⟨by rw [hpc], rfl⟩
  | insert hpc hnew => exact .inl ⟨hpc, rfl, hnew, rfl⟩
  | backfill w hpc => exact .inr ⟨by rw [hpc]; rfl, sources_setWorkItemId _ _ _⟩
  | win hpc | lose hpc | create _ hpc | publishGone _ hpc | publishOver _ _ hpc
  | publishAnyway _ hpc | push _ hpc | dispatch _ _ hpc | findGone hpc | findItem _ hpc
  | increment _ hpc | link _ hpc | skipBackfill _ hpc | meter _ hpc =>
      exact .inr ⟨by rw [hpc]; rfl, rfl⟩

theorem runStep_mongo (h : RunStep now st r st' r') :
    (r.pc = .insertSignal ∧ st'.mongo = st.mongo ++ [r.rawDoc]) ∨
      (∃ w, r.pc = .backfill w ∧ st'.mongo = setWorkItemId st.mongo r.mongoId w) ∨
        st'.mongo = st.mongo := by
  cases h with
  | insert hpc _ => exact .inl ⟨hpc, rfl⟩
  | backfill w hpc => exact .inr (.inl ⟨w, hpc, rfl⟩)
  | _ => exact .inr (.inr rfl)

theorem runStep_items (h : RunStep now st r st' r') :
    (∃ won, r.pc = .create won ∧ r'.pc = .publish won (st.postgres.workItemsSeq + 1) ∧
        st'.postgres.workItems = st.postgres.workItems ++
          [newWorkItem r.sig (st.postgres.workItemsSeq + 1) now] ∧
        st'.postgres.workItemsSeq = st.postgres.workItemsSeq + 1) ∨
      (origins st' = origins st ∧ st'.postgres.workItemsSeq = st.postgres.workItemsSeq ∧
        (workItemOf r'.pc = workItemOf r.pc ∨
          ∃ w, r.pc = .getOpenWorkItem ∧ r'.pc = .increment w ∧
            getOpenWorkItem st.redis r.sig.componentId = .ok (some w))) := by
  cases h with
  | stay _ _ _ hpc => exact .inr ⟨rfl, rfl, .inl (by rw [hpc])⟩
  | create won hpc => exact .inl ⟨won, hpc, rfl, rfl, rfl⟩
  | findItem w hpc hkey => exact .inr ⟨rfl, rfl, .inr ⟨w, hpc, rfl, hkey⟩⟩
  | increment w hpc => exact .inr ⟨origins_increment _ _ _, rfl, .inl (by rw [hpc]; rfl)⟩
  | insert hpc | win hpc | lose hpc | publishGone _ hpc | publishOver _ _ hpc
  | publishAnyway _ hpc | push _ hpc | dispatch _ _ hpc | findGone hpc | link _ hpc
  | backfill _ hpc | skipBackfill _ hpc | meter _ hpc =>
      exact .inr ⟨rfl, rfl, .inl (by rw [hpc]; rfl)⟩

theorem runStep_links (h : RunStep now st r st' r') :
    (∃ w, r.pc = .addLink w ∧ r'.pc = .backfill w ∧
        st'.postgres.signalLinks = st.postgres.signalLinks ++ [linkOf r w]) ∨
      (linkedTo r'.pc = linkedTo r.pc ∧ st'.postgres.signalLinks = st.postgres.signalLinks) := by
  cases h with
  | stay _ _ _ hpc => exact .inr ⟨by rw [hpc], rfl⟩
  | link w hpc => exact .inl ⟨w, hpc, rfl, rfl⟩
  | insert hpc | win hpc | lose hpc | create _ hpc | publishGone _ hpc | publishOver _ _ hpc
  | publishAnyway _ hpc | push _ hpc | dispatch _ _ hpc | findGone hpc | findItem _ hpc
  | increment _ hpc | backfill _ hpc | skipBackfill _ hpc | meter _ hpc =>
      exact .inr ⟨by rw [hpc]; rfl, rfl⟩

/-- A step sets the key of its component to its placeholder or to the id of its
work item, or leaves the keys alone and gives up its claim only if that is gone. -/
theorem runStep_keys (h : RunStep now st r st' r') :
    (r.pc = .claim ∧ r'.pc = .create true ∧ st.redis.strings (keyOf r) = none ∧
        st'.redis.strings =
          Function.update st.redis.strings (keyOf r) (some (placeholder r.mongoId))) ∨
      (∃ won w, r.pc = .publish won w ∧ claiming r'.pc = false ∧ workItemOf r'.pc = some w ∧
        (won = true → ∃ v, st.redis.strings (keyOf r) = some v) ∧
        st'.redis.strings = Function.update st.redis.strings (keyOf r) (some (str w))) ∨
      (st'.redis.strings = st.redis.strings ∧
        (claiming r'.pc = claiming r.pc ∨
          claiming r.pc = true ∧ claiming r'.pc = false ∧ st.redis.strings (keyOf r) = none)) := by
  cases h with
  | stay _ _ _ hpc => exact .inr (.inr ⟨rfl, .inl (by rw [hpc])⟩)
  | win hpc hkey => exact .inl ⟨hpc, rfl, hkey, rfl⟩
  | publishOver w v hpc hkey => exact .inr (.inl ⟨true, w, hpc, rfl, rfl, fun _ => ⟨v, hkey⟩, rfl⟩)
  | publishAnyway w hpc => exact .inr (.inl ⟨false, w, hpc, rfl, rfl, nofun, rfl⟩)
  | publishGone w hpc hkey =>
      exact .inr (.inr ⟨rfl, .inr ⟨by rw [hpc]; rfl, rfl, hkey⟩⟩)
  | create won hpc => exact .inr (.inr ⟨rfl, .inl (by rw [hpc]; cases won <;> rfl)⟩)
  | insert hpc | lose hpc | push _ hpc | dispatch _ _ hpc | findGone hpc | findItem _ hpc
  | increment _ hpc | link _ hpc | backfill _ hpc | skipBackfill _ hpc | meter _ hpc =>
      exact .inr (.inr ⟨rfl, .inl (by rw [hpc]; rfl)⟩)

end Ims.WorkerFrames
