import Ims.Effects

namespace Ims.Retries

open Library.Runs Library.Tables Library.Slots Library.Counters Models Mongo PostgresRepo RedisCache
  Ingestion Retry Service WorkerSteps ServiceSteps WorkerMoves WorkerFrames Rows Integrity Effects
open Workers (Stores Run Pc Outcome)

def writesPostgres : Pc → Bool
  | .create _ | .increment _ | .addLink _ | .upsertMetric _ => true
  | .insertSignal | .claim | .publish _ _ | .pushLiveFeed _ | .dispatch _ | .getOpenWorkItem
  | .backfill _ | .finish _ => false

/-- A Postgres write of a run commits and yet reports an error, while the retry
loops still have an attempt left. -/
def lostWithRetryLeft (s : World) : Event → Bool
  | .run k (.lost e) => (s.runs[k]?).any fun r => writesPostgres r.pc && (r.budget.nested e).isSome
  | _ => false

def itemDone (pc : Pc) : Bool := (workItemOf pc).isSome

def countDone : Pc → Bool
  | .addLink _ | .backfill _ | .upsertMetric _ | .finish _ => true
  | .insertSignal | .claim | .create _ | .publish _ _ | .pushLiveFeed _ | .dispatch _
  | .getOpenWorkItem | .increment _ => false

def linkDone (pc : Pc) : Bool := (linkedTo pc).isSome

def metricDone : Pc → Bool
  | .finish _ => true
  | .insertSignal | .claim | .create _ | .publish _ _ | .pushLiveFeed _ | .dispatch _
  | .getOpenWorkItem | .increment _ | .addLink _ | .backfill _ | .upsertMetric _ => false

/-- The place of a write is left for good once the write has taken effect:
changed is its effect on the stores, done the places behind it. -/
structure WriteOnce (changed : Stores → Stores → Nat) (done : Pc → Bool) : Prop where
  refl : ∀ st, changed st st = 0
  mono : ∀ {now st r st' r'}, RunStep now st r st' r' → done r.pc = true → done r'.pc = true
  writes : ∀ {now st r st' r'}, RowsWf st → RunStep now st r st' r' → changed st st' ≠ 0 →
    changed st st' = 1 ∧ writesPostgres r.pc = true ∧ done r.pc = false ∧ done r'.pc = true

def behind (done : Pc → Bool) (r : Run) : Bool := done r.pc || decide (r.status ≠ .running)

theorem handle_raised {r : Run} {e : Exc} (hw : writesPostgres r.pc = true)
    (hb : r.budget.nested e = none) : (r.handle e).status = .raised e := by
  cases hpc : r.pc with
  | create | increment | addLink | upsertMetric =>
      simp only [Run.handle, hpc, Run.retryOr, hb]
  | _ =>
      rw [hpc] at hw
      cases hw

theorem WriteOnce.attempt {changed : Stores → Stores → Nat} {done : Pc → Bool}
    (h : WriteOnce changed done) {r : Run} {o : Outcome} {now : Int} {st : Stores}
    (hwf : RowsWf st) (hr : r.status = .running)
    (hlost : ∀ e, o = .lost e → writesPostgres r.pc = true → r.budget.nested e = none) :
    (behind done r).toNat + changed st (r.attempt o now st).1 ≤
      (behind done (r.attempt o now st).2).toNat := by
  have hbehind : behind done r = done r.pc := by simp [behind, hr]
  have hkeep {r' : Run} (hmono : done r.pc = true → done r'.pc = true) :
      (behind done r).toNat ≤ (behind done r').toNat := by
    rw [hbehind, behind]
    cases hd : done r.pc
    · exact Nat.zero_le _
    · simp [hmono hd]
  have hfail (e : Exc) := handle_runStep now st r e
  have hok := perform_runStep now st r
  cases o with
  | ok =>
      simp only [Run.attempt]
      by_cases hch : changed st (r.perform now st).1 = 0
      · simpa [hch] using hkeep (h.mono hok)
      · obtain ⟨hone, _, hnot, hdone⟩ := h.writes hwf hok hch
        rw [hbehind, hnot, hone]
        simp [behind, hdone]
  | fail e =>
      simp only [Run.attempt, h.refl]
      simpa using hkeep (h.mono (hfail e))
  | lost e =>
      simp only [Run.attempt]
      by_cases hch : changed st (r.perform now st).1 = 0
      · simpa [hch] using hkeep (h.mono (hfail e))
      · obtain ⟨hone, hw, hnot, _⟩ := h.writes hwf hok hch
        have hraised := handle_raised hw (hlost e rfl hw)
        rw [hbehind, hnot, hone]
        simp [behind, hraised]

theorem WriteOnce.tally {changed : Stores → Stores → Nat} {done : Pc → Bool}
    (h : WriteOnce changed done) {cfg : Settings} {n : Nat} {es : List Event} {s : World}
    (htrace : Trace (step cfg) (fun s e => lostWithRetryLeft s e = false) (init n) es s) (k : Nat) :
    tally (step cfg) (effectOf k changed) (init n) es ≤ 1 := by
  have hrows := htrace.with_invariant (fun s => RowsWf s.stores) (rowsWf_init n)
    fun _ _ _ hwf _ hs => rowsWf_step hwf hs
  refine tally_le_one hrows k changed (fun _ r => behind done r) ?_ ?_
  · rintro s e t r r' ⟨hwf, hok⟩ hs hk hr hr'
    obtain ⟨b, b', hb, hrun, hb', hmove⟩ := own_step hs hk
    cases Option.some.inj (hr.symm.trans hb)
    cases Option.some.inj (hr'.symm.trans hb')
    rcases hmove with ⟨o, rfl, hst, rfl⟩ | ⟨hst, status, rfl, hstatus⟩
    · rw [hst]
      refine h.attempt hwf hrun ?_
      rintro exc rfl hw
      simpa [lostWithRetryLeft, hr, hw] using hok
    · have hended : status ≠ .running := by
        rcases hstatus with ⟨rfl, _⟩ | ⟨rfl, _⟩ <;> exact fun he => by cases he
      rw [hst, h.refl]
      simpa [behind, hrun, hended] using Bool.toNat_le _
  · exact fun _ _ _ _ _ hp => hp

theorem length_origins (st : Stores) : (origins st).length = st.postgres.workItems.length := by
  simp [origins]

theorem item_writeOnce : WriteOnce itemsAdded itemDone where
  refl st := Nat.sub_self _
  mono {now st r st' r'} h hdone := by
    rcases runStep_items h with ⟨won, hpc, _⟩ | ⟨_, _, hwork | ⟨w, hpc, _⟩⟩
    · rw [hpc] at hdone
      cases hdone
    · rwa [itemDone, hwork]
    · rw [hpc] at hdone
      cases hdone
  writes {now st r st' r'} _ h hadded := by
    rcases runStep_items h with ⟨won, hpc, hpc', hitems, _⟩ | ⟨horigins, _⟩
    · rw [hpc, hpc']
      exact ⟨by simp [itemsAdded, hitems], rfl, rfl, rfl⟩
    · have := congrArg List.length horigins
      rw [length_origins, length_origins] at this
      exact absurd (by rw [itemsAdded, this, Nat.sub_self]) hadded

theorem link_writeOnce : WriteOnce linksAdded linkDone where
  refl st := Nat.sub_self _
  mono {now st r st' r'} h hdone := by
    rcases runStep_links h with ⟨w, hpc, _⟩ | ⟨hlinked, _⟩
    · rw [hpc] at hdone
      cases hdone
    · rwa [linkDone, hlinked]
  writes {now st r st' r'} _ h hadded := by
    rcases runStep_links h with ⟨w, hpc, hpc', hlinks⟩ | ⟨_, hlinks⟩
    · rw [hpc, hpc']
      exact ⟨by simp [linksAdded, hlinks], rfl, rfl, rfl⟩
    · exact absurd (by rw [linksAdded, hlinks, Nat.sub_self]) hadded

theorem countTotal_increment (st : Stores) (w now : Int) :
    countTotal { st with postgres := incrementSignalCount st.postgres w now } =
      countTotal st + st.postgres.workItems.countP (fun wi => decide (wi.id = w)) := by
  have hsum := sum_updateWhere (fun wi : WorkItem => wi.signalCount - 1) (fun wi => wi.id = w)
    (fun wi => { wi with signalCount := wi.signalCount + 1, updatedAt := now }) 1
    (fun wi _ => by simp only; omega) st.postgres.workItems
  rwa [one_mul] at hsum

theorem count_writeOnce : WriteOnce countRaised countDone where
  refl st := by rw [countRaised, Int.sub_self, Int.toNat_zero]
  mono {now st r st' r'} h hdone := by
    cases h with
    | stay _ _ _ hpc => rwa [hpc]
    | link | backfill | skipBackfill | meter | dispatch | increment | publishAnyway => rfl
    | insert hpc | win hpc | lose hpc | create _ hpc | publishGone _ hpc | publishOver _ _ hpc
    | push _ hpc | findGone hpc | findItem _ hpc =>
        rw [hpc] at hdone
        cases hdone
  writes {now st r st' r'} hwf h hraised := by
    cases h with
    | increment w hpc =>
        have htotal := countTotal_increment st w now
        have hone := countP_key_le hwf.ids (k := w) (fun wi => decide_eq_true_iff)
        rw [hpc]
        refine ⟨?_, rfl, rfl, rfl⟩
        rw [countRaised, htotal] at hraised ⊢
        omega
    | create won hpc =>
        refine absurd ?_ hraised
        simp [countRaised, countTotal, newWorkItem]
    | _ => exact absurd (by rw [countRaised]; exact congrArg Int.toNat (Int.sub_self _)) hraised

theorem metricTotal_upsert (st : Stores) (hwf : RowsWf st) (bucket : Time.Datetime) (c : String)
    (sev : Severity) :
    metricTotal { st with postgres := upsertMetricBucket st.postgres bucket c sev } =
      metricTotal st + 1 := by
  simp only [metricTotal, metrics_upsert]
  exact sum_upsert (c := metricCounter) hwf.metrics SignalMetric.count 1 (fun _ _ => rfl) rfl

theorem metric_writeOnce : WriteOnce metricRaised metricDone where
  refl st := by rw [metricRaised, Int.sub_self, Int.toNat_zero]
  mono {now st r st' r'} h hdone := by
    cases h with
    | stay _ _ _ hpc => rwa [hpc]
    | meter => rfl
    | insert hpc | win hpc | lose hpc | create _ hpc | publishGone _ hpc | publishOver _ _ hpc
    | publishAnyway _ hpc | push _ hpc | dispatch _ _ hpc | findGone hpc | findItem _ hpc
    | increment _ hpc | link _ hpc | backfill _ hpc | skipBackfill _ hpc =>
        rw [hpc] at hdone
        cases hdone
  writes {now st r st' r'} hwf h hraised := by
    cases h with
    | meter w hpc =>
        rw [hpc, metricRaised, metricTotal_upsert st hwf]
        exact ⟨by omega, rfl, rfl, rfl⟩
    | _ => exact absurd (by rw [metricRaised]; exact congrArg Int.toNat (Int.sub_self _)) hraised

theorem documents_grow {cfg : Settings} {s t : World} {e : Event} (h : step cfg s e = some t)
    {m : String} (hm : m ∈ s.stores.mongo.map Document.id) : m ∈ t.stores.mongo.map Document.id := by
  rcases step_stores h with htame | ⟨_, _, _, _, _, hstep⟩
  · rwa [htame.mongo]
  · rcases runStep_docs hstep with ⟨_, _, _, hmongo⟩ | ⟨_, hsources⟩
    · rw [hmongo, List.map_append]
      exact List.mem_append_left _ hm
    · rwa [← ids_sources, hsources, ids_sources]

/-- The driver keeps the _id in the document, so a repeated insert is refused. -/
theorem documents_at_most_once {cfg : Settings} {ok : World → Event → Prop} {n : Nat}
    {es : List Event} {s : World} (h : Trace (step cfg) ok (init n) es s) (k : Nat) :
    tally (step cfg) (effectOf k documentsAdded) (init n) es ≤ 1 := by
  refine tally_le_one h k documentsAdded
    (fun st r => decide (r.mongoId ∈ st.mongo.map Document.id)) ?_ ?_
  · intro s e t r r' _ hs hk hr hr'
    obtain ⟨b, b', hb, _, hb', hmove⟩ := own_step hs hk
    cases Option.some.inj (hr.symm.trans hb)
    cases Option.some.inj (hr'.symm.trans hb')
    rcases hmove with ⟨o, rfl, hst, rfl⟩ | ⟨hst, status, rfl, _⟩
    · rw [hst, attempt_mongoId]
      obtain ⟨_, hstep⟩ := attempt_stores s.clock s.stores r o
      rcases runStep_docs hstep with ⟨_, _, hnew, hmongo⟩ | ⟨_, hsources⟩
      · have hin : r.mongoId ∈ (s.stores.mongo ++ [r.rawDoc]).map Document.id := by
          simp [Run.mongoId]
        rw [documentsAdded, hmongo, decide_eq_false hnew, decide_eq_true hin]
        simp
      · have hids := congrArg (List.map Document.id) hsources
        rw [ids_sources, ids_sources] at hids
        have hlen := congrArg List.length hids
        simp only [List.length_map] at hlen
        rw [documentsAdded, hids, hlen, Nat.sub_self]
        exact le_refl _
    · rw [hst, documentsAdded, Nat.sub_self]
      exact le_refl _
  · intro s e t r hs hp
    exact decide_eq_true (documents_grow hs (of_decide_eq_true hp))

structure AtMostOnce (cfg : Settings) (n : Nat) (es : List Event) (k : Nat) : Prop where
  workItem : tally (step cfg) (effectOf k itemsAdded) (init n) es ≤ 1
  signalCount : tally (step cfg) (effectOf k countRaised) (init n) es ≤ 1
  signalLink : tally (step cfg) (effectOf k linksAdded) (init n) es ≤ 1
  signalMetric : tally (step cfg) (effectOf k metricRaised) (init n) es ≤ 1
  document : tally (step cfg) (effectOf k documentsAdded) (init n) es ≤ 1

/-- A signal has each of its effects at most once, when no Postgres write that
commits and yet reports an error is attempted again. -/
theorem effects_at_most_once {cfg : Settings} {n : Nat} {es : List Event} {s : World}
    (h : Trace (step cfg) (fun s e => lostWithRetryLeft s e = false) (init n) es s) (k : Nat) :
    AtMostOnce cfg n es k where
  workItem := item_writeOnce.tally h k
  signalCount := count_writeOnce.tally h k
  signalLink := link_writeOnce.tally h k
  signalMetric := metric_writeOnce.tally h k
  document := documents_at_most_once h k

def lostInsert : List Event :=
  [.offer (errorSignal "db"), .get "a", .run 0 (.lost .storeError), .run 0 .ok, .run 0 .ok]

theorem effects_at_most_once_lost_insert :
    ∃ s, Trace (step {}) (fun s e => lostWithRetryLeft s e = false) (init 1) lostInsert s ∧
      s.stores.mongo.length = 1 ∧ AtMostOnce {} 1 lostInsert 0 := by
  obtain ⟨s, hs, hp⟩ := trace_of_replay (step {}) (fun s e => lostWithRetryLeft s e = false) (init 1)
    lostInsert (fun s => decide (s.stores.mongo.length = 1)) (by decide +kernel)
  exact ⟨s, hs, of_decide_eq_true hp, effects_at_most_once hs 0⟩

def lostCreate : List Event :=
  [.offer (errorSignal "db"), .get "a"] ++ runOn 0 2 ++ [.run 0 (.lost .operationalError), .run 0 .ok]

theorem lost_create_repeated :
    ∃ s, Trace (step {}) (fun _ _ => True) (init 1) lostCreate s ∧ ¬ AtMostOnce {} 1 lostCreate 0 := by
  obtain ⟨s, hs, _⟩ := trace_of_replay (step {}) (fun _ _ => True) (init 1) lostCreate
    (fun s => decide (s.stores.postgres.workItems.length = 2)) (by decide +kernel)
  refine ⟨s, hs, fun h => ?_⟩
  have htwo : tally (step {}) (effectOf 0 itemsAdded) (init 1) lostCreate = 2 := by decide +kernel
  have := h.workItem
  omega

end Ims.Retries
