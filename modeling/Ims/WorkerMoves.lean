import Ims.ServiceSteps
import Ims.Library.Slots

namespace Ims.WorkerMoves

open Library.Tables Models Mongo PostgresRepo RedisCache Ingestion Service WorkerSteps ApiSteps
  ServiceSteps
open Workers (Stores Run Outcome Pc rawDoc)

def source (d : Document) : Document := { d with workItemId := none }

def counted (wi : WorkItem) : WorkItem :=
  { wi with state := .OPEN, endTime := none, mttrSeconds := none, updatedAt := wi.createdAt }

/-- A work item without the columns that any update writes. -/
def origin (wi : WorkItem) : WorkItem := { counted wi with signalCount := 1 }

def sources (st : Stores) : List Document := st.mongo.map source

def counts (st : Stores) : List WorkItem := st.postgres.workItems.map counted

def origins (st : Stores) : List WorkItem := st.postgres.workItems.map origin

theorem origins_eq (st : Stores) :
    origins st = (counts st).map fun wi => { wi with signalCount := 1 } := by
  simp [origins, counts, origin, Function.comp_def]

/-- What requests, expiries and gaps in the sequences can do to the stores, as
the workers see it. -/
structure Tame (st st' : Stores) : Prop where
  mongo : st'.mongo = st.mongo
  links : st'.postgres.signalLinks = st.postgres.signalLinks
  metrics : st'.postgres.signalMetrics = st.postgres.signalMetrics
  counts : counts st' = counts st
  seq : st.postgres.workItemsSeq ≤ st'.postgres.workItemsSeq
  keys : ∀ key, st'.redis.strings key = st.redis.strings key ∨ st'.redis.strings key = none

theorem Tame.refl (st : Stores) : Tame st st :=
  ⟨rfl, rfl, rfl, rfl, le_refl _, fun _ => .inl rfl⟩

theorem Tame.origins {st st' : Stores} (h : Tame st st') : origins st' = origins st := by
  rw [origins_eq, origins_eq, h.counts]

theorem delete_key (r : Redis) (key other : String) :
    (r.delete key).strings other = r.strings other ∨ (r.delete key).strings other = none := by
  by_cases h : other = key
  · exact .inr (by simp [Redis.delete, h])
  · exact .inl (by simp [Redis.delete, h])

theorem counts_updateState (st : Stores) (w : Int) (state : WorkItemState) (stop mttr : Option Int)
    (now : Int) :
    counts { st with postgres := updateState st.postgres w state stop mttr now } = counts st := by
  simp only [counts, updateState, updateWorkItem]
  exact map_updateWhere counted _ _ (by intro; rfl) _

theorem flushRca_tables {pg pg' : Postgres} {w now : Int} {loaded : Option RCA} {body : RCAIn}
    {row : RCA} (h : flushRca pg w loaded body now = .ok (pg', row)) :
    pg'.workItems = pg.workItems ∧ pg'.workItemsSeq = pg.workItemsSeq ∧
      pg'.signalLinks = pg.signalLinks ∧ pg'.signalMetrics = pg.signalMetrics := by
  rcases (flushRca_ok h).2 with ⟨_, _, _, rfl⟩ | ⟨_, _, _, rfl⟩ <;> exact ⟨rfl, rfl, rfl, rfl⟩

theorem tame_of_effect {now : Int} {st st' : Stores} {q : IncidentsApi.Request}
    (h : RequestEffect now st q st') : Tame st st' := by
  cases h with
  | none => exact .refl st
  | updateState w wi result _ =>
      exact ⟨rfl, rfl, rfl, counts_updateState .., le_refl _, fun _ => .inl rfl⟩
  | zrem => exact ⟨rfl, rfl, rfl, rfl, le_refl _, fun _ => .inl rfl⟩
  | clearDedup w wi result _ => exact ⟨rfl, rfl, rfl, rfl, le_refl _, delete_key _ _⟩
  | flushRca w body loaded postgres row _ hflush =>
      obtain ⟨hitems, hseq, hlinks, hmetrics⟩ := flushRca_tables hflush
      exact ⟨rfl, hlinks, hmetrics, by simp only [counts, hitems], le_of_eq hseq.symm,
        fun _ => .inl rfl⟩

theorem tame_expire (st : Stores) (key : String) :
    Tame st { st with redis := st.redis.delete key } :=
  ⟨rfl, rfl, rfl, rfl, le_refl _, delete_key _ key⟩

theorem tame_burnWorkItemId (st : Stores) :
    Tame st { st with postgres := { st.postgres with
      workItemsSeq := st.postgres.workItemsSeq + 1 } } :=
  ⟨rfl, rfl, rfl, rfl, by simp, fun _ => .inl rfl⟩

theorem tame_burnRcaId (st : Stores) :
    Tame st { st with postgres := { st.postgres with rcaSeq := st.postgres.rcaSeq + 1 } } :=
  ⟨rfl, rfl, rfl, rfl, le_refl _, fun _ => .inl rfl⟩

def runIndex : Event → Option Nat
  | .run k _ | .cancelRun k => some k
  | _ => none

inductive WorkerMove (s : World) (e : Event) : Stores → List Run → Prop
  | env (st) (h : Tame s.stores st) : WorkerMove s e st s.runs
  | get (oid sig) (hoid : oid ∉ s.runs.map Run.mongoId) :
      WorkerMove s e s.stores (s.runs ++ [{ sig, rawDoc := rawDoc sig oid s.clock }])
  | run {k r st r'} (he : runIndex e = some k) (hk : s.runs[k]? = some r) (hr : r.status = .running)
      (hok : e = .run k .ok ∨ r'.pc = r.pc ∨ swallows r.pc = true)
      (h : RunStep s.clock s.stores r st r') : WorkerMove s e st (s.runs.set k r')

def Clean : Event → Prop
  | .run _ o => Outcome.Clean o
  | _ => True

instance : DecidablePred Clean
  | .run _ o => inferInstanceAs (Decidable (Outcome.Clean o))
  | .offer _ | .get _ | .getTimeout | .cancelIdle | .request _ _ | .cancelRun _ | .abortRequest _
  | .call _ | .expire _ | .burnWorkItemId | .burnRcaId | .setClock _ => .isTrue trivial

theorem clean_of_run {e : Event} (h : ∀ k o, e = .run k o → Outcome.Clean o) : Clean e := by
  cases e with
  | run k o => exact h k o rfl
  | _ => trivial

theorem step_workerMove {cfg : Settings} {s t : World} {e : Event} (h : step cfg s e = some t)
    (he : Clean e) : WorkerMove s e t.stores t.runs := by
  have hmove := step_move h
  generalize t.stores = st, t.runs = runs, t.requests = requests at hmove
  cases hmove with
  | quiet => exact .env _ (.refl _)
  | get oid sig hoid => exact .get oid sig hoid
  | run o hk hr _ =>
      refine .run rfl hk hr ?_ (attempt_runStep _ _ _ he)
      cases o with
      | ok => exact .inl rfl
      | fail e => exact .inr (handle_pc _ e)
      | lost e => cases he
  | finish w hk hr _ => exact .run rfl hk hr (.inr (.inl rfl)) (.stay _ rfl rfl rfl)
  | cancelRun hk hr => exact .run rfl hk hr (.inr (.inl rfl)) (.stay _ rfl rfl rfl)
  | request o _ _ => exact .env _ (tame_of_effect (attempt_effect _ _ _ o))
  | abortRequest => exact .env _ (.refl _)
  | call => exact .env _ (.refl _)
  | expire key => exact .env _ (tame_expire _ key)
  | burnWorkItemId => exact .env _ (tame_burnWorkItemId _)
  | burnRcaId => exact .env _ (tame_burnRcaId _)

end Ims.WorkerMoves
