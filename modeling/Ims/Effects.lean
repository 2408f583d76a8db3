import Ims.Integrity

namespace Ims.Effects

open Library.Runs Library.Tables Library.Slots Models Mongo PostgresRepo RedisCache Ingestion Retry
  Service WorkerSteps ServiceSteps WorkerMoves WorkerFrames
open Workers (Stores Run Pc Outcome)

/-! How much a step adds to the stores. -/

def documentsAdded (st st' : Stores) : Nat := st'.mongo.length - st.mongo.length

def itemsAdded (st st' : Stores) : Nat := st'.postgres.workItems.length - st.postgres.workItems.length

def linksAdded (st st' : Stores) : Nat :=
  st'.postgres.signalLinks.length - st.postgres.signalLinks.length

def countTotal (st : Stores) : Int := (st.postgres.workItems.map fun wi => wi.signalCount - 1).sum

def countRaised (st st' : Stores) : Nat := (countTotal st' - countTotal st).toNat

def metricTotal (st : Stores) : Int := (st.postgres.signalMetrics.map SignalMetric.count).sum

def metricRaised (st st' : Stores) : Nat := (metricTotal st' - metricTotal st).toNat

def effectOf (k : Nat) (changed : Stores → Stores → Nat) (s : World) (e : Event) (t : World) : Nat :=
  if runIndex e = some k then changed s.stores t.stores else 0

theorem own_step {cfg : Settings} {s t : World} {e : Event} {k : Nat} (h : step cfg s e = some t)
    (hk : runIndex e = some k) :
    ∃ r r', s.runs[k]? = some r ∧ r.status = .running ∧ t.runs[k]? = some r' ∧
      ((∃ o, e = .run k o ∧ t.stores = (r.attempt o s.clock s.stores).1 ∧
          r' = (r.attempt o s.clock s.stores).2) ∨
        (t.stores = s.stores ∧ ∃ status, r' = { r with status } ∧
          (status = .returned ∧ (∃ w, r.pc = .finish w) ∨
            status = .cancelled ∧ e = .cancelRun k))) := by
  have hmove := step_move h
  generalize hst : t.stores = st, hruns : t.runs = runs, t.requests = requests at hmove
  have hset {r r' : Run} (hr : s.runs[k]? = some r) : (s.runs.set k r')[k]? = some r' :=
    List.getElem?_set_self (lt_of_slot hr)
  cases hmove with
  | run o hr hrun _ =>
      cases hk
      exact ⟨_, _, hr, hrun, hset hr, .inl ⟨o, rfl, rfl, rfl⟩⟩
  | finish w hr hrun hpc =>
      cases hk
      exact ⟨_, _, hr, hrun, hset hr, .inr ⟨rfl, .returned, rfl, .inl ⟨rfl, w, hpc⟩⟩⟩
  | cancelRun hr hrun =>
      cases hk
      exact ⟨_, _, hr, hrun, hset hr, .inr ⟨rfl, .cancelled, rfl, .inr ⟨rfl, rfl⟩⟩⟩
  | quiet e he =>
      cases e with
      | offer | getTimeout | cancelIdle | setClock => cases hk
      | _ => cases he
  | _ => cases hk

theorem new_step {cfg : Settings} {s t : World} {e : Event} {k : Nat} {r : Run}
    (h : step cfg s e = some t) (hk : s.runs[k]? = none) (hr : t.runs[k]? = some r) :
    r.status = .running ∧ r.pc = .insertSignal := by
  have hmove := step_move h
  generalize t.stores = st, t.runs = runs, t.requests = requests at hmove hr
  have hlen := List.getElem?_eq_none_iff.mp hk
  have hset {j : Nat} {r' : Run} (hr : (s.runs.set j r')[k]? = some r) : False := by
    rw [List.getElem?_eq_none (by rwa [List.length_set])] at hr
    cases hr
  cases hmove with
  | get oid sig _ =>
      rw [List.getElem?_append_right hlen] at hr
      rw [List.mem_singleton.mp (List.mem_of_getElem? hr)]
      exact ⟨rfl, rfl⟩
  | run | finish | cancelRun => exact absurd hr hset
  | _ =>
      rw [hk] at hr
      cases hr

theorem other_step {cfg : Settings} {s t : World} {e : Event} {k : Nat} {r : Run}
    (h : step cfg s e = some t) (hk : runIndex e ≠ some k) (hr : s.runs[k]? = some r) :
    t.runs[k]? = some r := by
  have hmove := step_move h
  generalize t.stores = st, t.runs = runs, t.requests = requests at hmove
  have hset {j : Nat} {r' : Run} (hj : some j ≠ some k) : (s.runs.set j r')[k]? = some r := by
    rw [List.getElem?_set_ne (fun hjk => hj (congrArg some hjk)), hr]
  cases hmove with
  | get => rw [List.getElem?_append_left (lt_of_slot hr), hr]
  | run | finish | cancelRun => exact hset hk
  | _ => exact hr

/-- The event of a run that has an operation to do is an attempt at it. -/
theorem own_run {cfg : Settings} {s t : World} {k : Nat} {o : Outcome} {r : Run}
    (h : step cfg s (.run k o) = some t) (hk : s.runs[k]? = some r) (hpc : ∀ w, r.pc ≠ .finish w) :
    r.status = .running ∧ t.stores = (r.attempt o s.clock s.stores).1 ∧
      t.runs[k]? = some (r.attempt o s.clock s.stores).2 := by
  obtain ⟨b, b', hb, hrun, hb', hmove⟩ := own_step h rfl
  cases Option.some.inj (hk.symm.trans hb)
  rcases hmove with ⟨o, he, hst, rfl⟩ | ⟨_, _, _, ⟨_, w, hw⟩ | ⟨_, he⟩⟩
  · cases he
    exact ⟨hrun, hst, hb'⟩
  · exact absurd hw (hpc w)
  · cases he

/-- After the event of another run, a run is the one before it or a new one. -/
theorem other_back {cfg : Settings} {s t : World} {e : Event} {k : Nat} {r : Run}
    (h : step cfg s e = some t) (hk : runIndex e ≠ some k) (hr : t.runs[k]? = some r) :
    s.runs[k]? = some r ∨ s.runs[k]? = none ∧ r.pc = .insertSignal ∧ r.status = .running := by
  cases hb : s.runs[k]? with
  | none => exact .inr ⟨rfl, (new_step h hb hr).2, (new_step h hb hr).1⟩
  | some b => exact .inl (congrArg some (Option.some.inj ((other_step h hk hb).symm.trans hr)))

inductive RunMove (s : World) (e : Event) (k : Nat) (st : Stores) : Run → Prop
  | new (r) (hk : s.runs[k]? = none) (hr : r.status = .running) (hpc : r.pc = .insertSignal) :
      RunMove s e k st r
  | other (r) (hk : s.runs[k]? = some r) : RunMove s e k st r
  | attempt (r o) (hk : s.runs[k]? = some r) (hr : r.status = .running) (he : e = .run k o)
      (hst : st = (r.attempt o s.clock s.stores).1) :
      RunMove s e k st (r.attempt o s.clock s.stores).2
  | finish (r w) (hk : s.runs[k]? = some r) (hpc : r.pc = .finish w) :
      RunMove s e k st { r with status := .returned }
  | cancel (r) (hk : s.runs[k]? = some r) (he : e = .cancelRun k) :
      RunMove s e k st { r with status := .cancelled }

theorem step_runMove {cfg : Settings} {s t : World} {e : Event} {k : Nat} {r : Run}
    (h : step cfg s e = some t) (hr : t.runs[k]? = some r) : RunMove s e k t.stores r := by
  by_cases hke : runIndex e = some k
  · obtain ⟨b, b', hb, hrun, hb', hmove⟩ := own_step h hke
    cases Option.some.inj (hr.symm.trans hb')
    rcases hmove with ⟨o, he, hst, rfl⟩ | ⟨_, status, rfl, ⟨rfl, w, hpc⟩ | ⟨rfl, he⟩⟩
    · exact .attempt b o hb hrun he hst
    · exact .finish b w hb hpc
    · exact .cancel b hb he
  · rcases other_back h hke hr with hb | ⟨hnone, hpc, hrun⟩
    · exact .other r hb
    · exact .new r hnone hrun hpc

/-- An effect that a run can have only once: p tells from the run and the stores
whether it may have had it. -/
theorem tally_le_one {cfg : Settings} {ok : World → Event → Prop} {n : Nat} {es : List Event}
    {s : World} (h : Trace (step cfg) ok (init n) es s) (k : Nat) (changed : Stores → Stores → Nat)
    (p : Stores → Run → Bool)
    (hown : ∀ s e t r r', ok s e → step cfg s e = some t → runIndex e = some k →
      s.runs[k]? = some r → t.runs[k]? = some r' →
      (p s.stores r).toNat + changed s.stores t.stores ≤ (p t.stores r').toNat)
    (hother : ∀ s e t r, step cfg s e = some t → p s.stores r = true → p t.stores r = true) :
    tally (step cfg) (effectOf k changed) (init n) es ≤ 1 := by
  let f (s : World) : Nat := (s.runs[k]?.elim false (p s.stores)).toNat
  have hbound : f s ≤ 1 := Bool.toNat_le _
  have htally := h.tally_le (effectOf k changed) f fun s e t hok hs => by
    by_cases hk : runIndex e = some k
    · obtain ⟨r, r', hr, _, hr', _⟩ := own_step hs hk
      have := hown s e t r r' hok hs hk hr hr'
      simpa only [f, effectOf, hr, hr', hk, if_true, Option.elim_some] using this
    · simp only [f, effectOf, hk, if_false, Nat.add_zero]
      cases hr : s.runs[k]? with
      | none => simp
      | some r =>
          rw [other_step hs hk hr]
          have := hother s e t r hs
          simp only [Option.elim_some]
          cases hp : p s.stores r
          · simp
          · rw [this hp]
  omega

end Ims.Effects
