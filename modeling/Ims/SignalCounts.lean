import Ims.Integrity

namespace Ims.SignalCounts

open Library.Runs Library.Tables Library.Slots Models PostgresRepo RedisCache Ingestion Service
  WorkerSteps WorkerMoves WorkerFrames Rows Integrity
open Workers (Stores Run Pc)

/-- The work item that counts the signal of a run without a link to it yet. -/
def owing : Pc → Option Int
  | .publish _ w | .pushLiveFeed w | .dispatch w | .addLink w => some w
  | .insertSignal | .claim | .create _ | .getOpenWorkItem | .increment _ | .backfill _
  | .upsertMetric _ | .finish _ => none

def owes (w : Int) (r : Run) : Bool := decide (owing r.pc = some w)

def linksOf (st : Stores) (w : Int) : Nat :=
  st.postgres.signalLinks.countP fun l => decide (l.workItemId = w)

def CountsWf (st : Stores) (runs : List Run) : Prop :=
  ∀ wi ∈ counts st, wi.signalCount = linksOf st wi.id + runs.countP (owes wi.id)

theorem workItemOf_of_owing {pc : Pc} {w : Int} (h : owing pc = some w) : workItemOf pc = some w := by
  cases pc with
  | publish | pushLiveFeed | dispatch | addLink => exact h
  | _ => cases h

theorem counts_increment (st : Stores) (w now : Int) :
    counts { st with postgres := incrementSignalCount st.postgres w now } =
      updateWhere (fun wi => wi.id = w) (fun wi => { wi with signalCount := wi.signalCount + 1 })
        (counts st) := by
  simp only [counts, incrementSignalCount, updateWorkItem, updateWhere, List.map_map]
  apply List.map_congr_left
  intro wi _
  by_cases hw : wi.id = w <;> simp [counted, hw]

theorem linksOf_append (st : Stores) (l : SignalLink) (w : Int) :
    linksOf { st with postgres := { st.postgres with
      signalLinks := st.postgres.signalLinks ++ [l] } } w =
        linksOf st w + (decide (l.workItemId = w)).toNat := by
  simp only [linksOf, List.countP_append, List.countP_singleton]
  cases decide (l.workItemId = w) <;> rfl

variable {now : Int} {st st' : Stores} {r r' : Run}

theorem runStep_counts (h : RunStep now st r st' r') :
    (owing r.pc = none ∧ owing r'.pc = some (st.postgres.workItemsSeq + 1) ∧
        counts st' = counts st ++
          [counted (newWorkItem r.sig (st.postgres.workItemsSeq + 1) now)] ∧
        ∀ w, linksOf st' w = linksOf st w) ∨
      (∃ w, owing r.pc = none ∧ owing r'.pc = some w ∧
        counts st' = updateWhere (fun wi => wi.id = w)
          (fun wi => { wi with signalCount := wi.signalCount + 1 }) (counts st) ∧
        ∀ w, linksOf st' w = linksOf st w) ∨
      (∃ w, owing r.pc = some w ∧ owing r'.pc = none ∧ counts st' = counts st ∧
        ∀ v, linksOf st' v = linksOf st v + (decide (w = v)).toNat) ∨
      (owing r'.pc = owing r.pc ∧ counts st' = counts st ∧ ∀ w, linksOf st' w = linksOf st w) := by
  cases h with
  | stay _ _ _ hpc => exact .inr (.inr (.inr ⟨by rw [hpc], rfl, fun _ => rfl⟩))
  | create won hpc =>
      refine .inl ⟨by rw [hpc]; rfl, rfl, ?_, fun _ => rfl⟩
      simp only [counts, List.map_append, List.map_cons, List.map_nil]
  | increment w hpc =>
      exact .inr (.inl ⟨w, by rw [hpc]; rfl, rfl, counts_increment _ _ _, fun _ => rfl⟩)
  | link w hpc =>
      exact .inr (.inr (.inl ⟨w, by rw [hpc]; rfl, rfl, rfl, linksOf_append st (linkOf r w)⟩))
  | insert hpc | win hpc | lose hpc | publishGone _ hpc | publishOver _ _ hpc
  | publishAnyway _ hpc | push _ hpc | dispatch _ _ hpc | findGone hpc | findItem _ hpc
  | backfill _ hpc | skipBackfill _ hpc | meter _ hpc =>
      exact .inr (.inr (.inr ⟨by rw [hpc]; rfl, rfl, fun _ => rfl⟩))

variable {s : World} {e : Event} {runs : List Run}

theorem fresh_id (h : Wf s) {w : Int} (hw : s.stores.postgres.workItemsSeq < w) :
    linksOf s.stores w = 0 ∧ s.runs.countP (owes w) = 0 := by
  have hrun : ∀ r ∈ s.runs, workItemOf r.pc ≠ some w := by
    intro r hr hitem
    obtain ⟨wi, hwi, hid, _⟩ := h.items.ofRun r hr w hitem
    have := h.rows.seq w (by rw [← ids_origins, ← hid]; exact List.mem_map_of_mem hwi)
    omega
  refine ⟨List.countP_eq_zero.mpr fun l hl hlw => ?_, List.countP_eq_zero.mpr fun r hr hrw => ?_⟩
  · obtain ⟨r, hr, hlinked, _⟩ := h.links.ofLink l hl
    rw [of_decide_eq_true hlw] at hlinked
    exact hrun r hr (stored_of_linked hlinked).2
  · exact hrun r hr (workItemOf_of_owing (of_decide_eq_true hrw))

theorem countsWf_move (h : CountsWf s.stores s.runs) (hwf : Wf s) (hmove : WorkerMove s e st runs) :
    CountsWf st runs := by
  cases hmove with
  | env st htame =>
      intro wi hwi
      rw [htame.counts] at hwi
      rw [linksOf, htame.links]
      exact h wi hwi
  | get oid sig hoid =>
      intro wi hwi
      rw [List.countP_append]
      exact h wi hwi
  | @run k r st r' _ hk _ _ hstep =>
      have hset (w : Int) : ((s.runs.set k r').countP (owes w) : Int) =
          s.runs.countP (owes w) - (owes w r).toNat + (owes w r').toNat := by
        have := countP_set hk (owes w) r'
        omega
      intro wi hwi
      rw [hset]
      rcases runStep_counts hstep with ⟨hpc, hpc', hcounts, hlinks⟩ |
        ⟨w, hpc, hpc', hcounts, hlinks⟩ | ⟨w, hpc, hpc', hcounts, hlinks⟩ | ⟨hpc, hcounts, hlinks⟩
      · rw [hlinks, owes, owes, hpc, hpc']
        rw [hcounts] at hwi
        rcases List.mem_append.mp hwi with hwi | hwi
        · have hle := hwf.rows.seq wi.id (by rw [← ids_counts]; exact List.mem_map_of_mem hwi)
          have hne : s.stores.postgres.workItemsSeq + 1 ≠ wi.id := by omega
          simpa [hne] using h wi hwi
        · obtain ⟨hnone, hzero⟩ := fresh_id hwf (lt_add_one s.stores.postgres.workItemsSeq)
          rw [List.mem_singleton.mp hwi]
          simp only [counted, newWorkItem]
          simp [hnone, hzero]
      · rw [hlinks, owes, owes, hpc, hpc']
        rw [hcounts] at hwi
        obtain ⟨old, hold, rfl⟩ := mem_updateWhere.mp hwi
        have := h old hold
        by_cases hid : old.id = w
        · simp [hid] at this ⊢
          omega
        · have hne : w ≠ old.id := fun hw => hid hw.symm
          simpa [hid, hne] using this
      · rw [hcounts] at hwi
        have := h wi hwi
        rw [hlinks, owes, owes, hpc, hpc']
        simp only [Option.some.injEq, reduceCtorEq, decide_false, Bool.toNat_false]
        omega
      · rw [hcounts] at hwi
        have := h wi hwi
        rw [hlinks, owes, owes, hpc]
        omega

theorem countsWf_trace {cfg : Settings} {n : Nat} {es : List Event}
    (h : Trace (step cfg) (fun _ e => Clean e) (init n) es s) : CountsWf s.stores s.runs := by
  refine (h.invariant (fun s => Wf s ∧ CountsWf s.stores s.runs) ⟨wf_init n, ?_⟩ ?_).2
  · exact fun wi hwi => absurd hwi List.not_mem_nil
  · exact fun s e t ⟨hwf, hcounts⟩ he hs =>
      ⟨wf_step hwf hs he, countsWf_move hcounts hwf (step_workerMove hs he)⟩

def inFlight (s : World) (w : Int) : Nat :=
  s.runs.countP fun r => owes w r && decide (r.status = .running)

def cutShort (s : World) (w : Int) : Nat :=
  s.runs.countP fun r => owes w r && !decide (r.status = .running)

theorem owes_split (s : World) (w : Int) : s.runs.countP (owes w) = inFlight s w + cutShort s w := by
  rw [List.countP_eq_countP_filter_add _ _ fun r => decide (r.status = .running), List.countP_filter,
    List.countP_filter]
  rfl

/-- In every reachable state the count of a work item is the number of its
links, of the runs in flight that have counted and not linked their signal, and
of the runs that ended between the two. -/
theorem signal_count_agrees {cfg : Settings} {n : Nat} {es : List Event}
    (h : Trace (step cfg) (fun _ e => Clean e) (init n) es s) :
    ∀ wi ∈ s.stores.postgres.workItems,
      (wi.signalCount : Int) = linksOf s.stores wi.id + inFlight s wi.id + cutShort s wi.id ∧
      (linksOf s.stores wi.id : Int) ≤ wi.signalCount ∧
      ((∀ r ∈ s.runs, r.status ≠ .running) →
        (∀ r ∈ s.runs, r.status ≠ .running → owing r.pc ≠ some wi.id) →
          wi.signalCount = (linksOf s.stores wi.id : Int)) := by
  intro wi hwi
  have heq : wi.signalCount = linksOf s.stores wi.id + s.runs.countP (owes wi.id) :=
    countsWf_trace h (counted wi) (List.mem_map_of_mem hwi)
  have hsplit := owes_split s wi.id
  refine ⟨by omega, by omega, fun hidle hlinked => ?_⟩
  have hzero : s.runs.countP (owes wi.id) = 0 :=
    List.countP_eq_zero.mpr fun r hr howes => hlinked r hr (hidle r hr) (of_decide_eq_true howes)
  omega

def threeSignals : List Event :=
  List.replicate 3 (.offer (errorSignal "db")) ++ [.get "a"] ++ runOn 0 10 ++
    [.get "b"] ++ runOn 1 4 ++ [.cancelRun 1, .get "c"] ++ runOn 2 4

theorem signal_count_agrees_three_signals : ∃ s : World, ∃ wi ∈ s.stores.postgres.workItems,
    wi.signalCount = 3 ∧ linksOf s.stores wi.id = 1 ∧ inFlight s wi.id = 1 ∧
      wi.signalCount = (linksOf s.stores wi.id + inFlight s wi.id + cutShort s wi.id : Int) := by
  obtain ⟨s, hs, hp⟩ := trace_of_replay (step {}) (fun _ e => Clean e) (init 2) threeSignals
    (fun s => s.stores.postgres.workItems.any fun wi =>
      decide (wi.signalCount = 3 ∧ linksOf s.stores wi.id = 1 ∧ inFlight s wi.id = 1))
    (by decide +kernel)
  obtain ⟨wi, hwi, hcounts⟩ := List.any_eq_true.mp hp
  obtain ⟨hcount, hlinks, hflight⟩ := of_decide_eq_true hcounts
  exact ⟨s, wi, hwi, hcount, hlinks, hflight, (signal_count_agrees hs wi hwi).1⟩

end Ims.SignalCounts
