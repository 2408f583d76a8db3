import Ims.WorkerFrames
import Ims.Library.Counters

namespace Ims.Rows

open Library.Runs Library.Tables Library.Counters Models Mongo PostgresRepo RedisCache Ingestion Service
  WorkerSteps ServiceSteps ApiSteps WorkerMoves WorkerFrames
open Workers (Stores Run Pc Outcome)

theorem attempt_stores (now : Int) (st : Stores) (r : Run) (o : Outcome) :
    ∃ r', RunStep now st r (r.attempt o now st).1 r' := by
  cases o with
  | ok => exact ⟨_, perform_runStep now st r⟩
  | fail e => exact ⟨_, handle_runStep now st r e⟩
  | lost e => exact ⟨_, perform_runStep now st r⟩

theorem step_stores {cfg : Settings} {s t : World} {e : Event} (h : step cfg s e = some t) :
    Tame s.stores t.stores ∨
      ∃ k r r', runIndex e = some k ∧ s.runs[k]? = some r ∧ RunStep s.clock s.stores r t.stores r' := by
  have hmove := step_move h
  generalize t.stores = st, t.runs = runs, t.requests = requests at hmove
  cases hmove with
  | run o hk _ _ =>
      obtain ⟨r', hstep⟩ := attempt_stores s.clock s.stores _ o
      exact .inr ⟨_, _, r', rfl, hk, hstep⟩
  | quiet | get | finish | cancelRun | abortRequest | call => exact .inl (.refl _)
  | request o _ _ => exact .inl (tame_of_effect (attempt_effect _ _ _ o))
  | expire key => exact .inl (tame_expire _ key)
  | burnWorkItemId => exact .inl (tame_burnWorkItemId _)
  | burnRcaId => exact .inl (tame_burnRcaId _)

structure RowsWf (st : Stores) : Prop where
  ids : (st.postgres.workItems.map WorkItem.id).Nodup
  seq : ∀ id ∈ st.postgres.workItems.map WorkItem.id, id ≤ st.postgres.workItemsSeq
  metrics : (st.postgres.signalMetrics.map SignalMetric.key).Nodup

theorem ids_counts (st : Stores) :
    (counts st).map WorkItem.id = st.postgres.workItems.map WorkItem.id := by
  simp [counts, counted, Function.comp_def]

theorem ids_origins (st : Stores) :
    (origins st).map WorkItem.id = st.postgres.workItems.map WorkItem.id := by
  simp [origins, origin, counted, Function.comp_def]

def metricCounter : Counter SignalMetric (Int × String × Severity) where
  key := SignalMetric.key
  count := SignalMetric.count
  first k := ⟨k.1, k.2.1, k.2.2, 1⟩
  again m := { m with count := m.count + 1 }
  key_first _ := rfl
  count_first _ := rfl
  key_again _ := rfl
  count_again _ := rfl
  ext {m m'} hkey hcount := by
    rcases m with ⟨bucket, c, sev, count⟩
    rcases m' with ⟨bucket', c', sev', count'⟩
    simp only [SignalMetric.key, Prod.mk.injEq] at hkey
    obtain ⟨rfl, rfl, rfl⟩ := hkey
    cases (hcount : count = count')
    rfl

theorem has_metricKey (bucket : Int) (c : String) (sev : Severity) :
    metricCounter.has (bucket, c, sev) = hasMetricKey bucket c sev := by
  funext m
  rw [Bool.eq_iff_iff, has_iff, hasMetricKey_iff]
  rfl

theorem metrics_upsert (pg : Postgres) (bucket : Time.Datetime) (c : String) (sev : Severity) :
    (upsertMetricBucket pg bucket c sev).signalMetrics =
      metricCounter.upsert (bucket.instant, c, sev) pg.signalMetrics := by
  rw [Counter.upsert, has_metricKey]
  rfl

theorem metricKeys_upsert (pg : Postgres) (bucket : Time.Datetime) (c : String) (sev : Severity)
    (h : (pg.signalMetrics.map SignalMetric.key).Nodup) :
    ((upsertMetricBucket pg bucket c sev).signalMetrics.map SignalMetric.key).Nodup := by
  rw [metrics_upsert]
  exact nodup_upsert (c := metricCounter) h

variable {cfg : Settings} {s t : World} {e : Event} {st st' : Stores}

theorem rowsWf_tame (h : RowsWf st) (htame : Tame st st') : RowsWf st' := by
  have hids : st'.postgres.workItems.map WorkItem.id = st.postgres.workItems.map WorkItem.id := by
    rw [← ids_counts, htame.counts, ids_counts]
  refine ⟨hids ▸ h.ids, ?_, htame.metrics ▸ h.metrics⟩
  rw [hids]
  exact fun id hid => le_trans (h.seq id hid) htame.seq

theorem rowsWf_runStep {now : Int} {r r' : Run} (h : RowsWf st) (hstep : RunStep now st r st' r') :
    RowsWf st' := by
  cases hstep with
  | create won hpc =>
      obtain ⟨hids, hseq⟩ :=
        insert_next (newWorkItem r.sig (st.postgres.workItemsSeq + 1) now) h.ids h.seq rfl
      exact ⟨hids, hseq, h.metrics⟩
  | increment w hpc =>
      have hids : (incrementSignalCount st.postgres w now).workItems.map WorkItem.id =
          st.postgres.workItems.map WorkItem.id := by
        unfold incrementSignalCount updateWorkItem
        exact map_updateWhere WorkItem.id _ _ (by intro; rfl) _
      refine ⟨hids ▸ h.ids, ?_, h.metrics⟩
      rw [hids]
      exact h.seq
  | meter w hpc => exact ⟨h.ids, h.seq, metricKeys_upsert _ _ _ _ h.metrics⟩
  | _ => exact ⟨h.ids, h.seq, h.metrics⟩

theorem rowsWf_init (n : Nat) : RowsWf (init n).stores :=
  ⟨List.nodup_nil, fun _ hid => absurd hid List.not_mem_nil, List.nodup_nil⟩

theorem rowsWf_step (h : RowsWf s.stores) (hs : step cfg s e = some t) : RowsWf t.stores := by
  rcases step_stores hs with htame | ⟨_, _, _, _, _, hstep⟩
  · exact rowsWf_tame h htame
  · exact rowsWf_runStep h hstep

end Ims.Rows
