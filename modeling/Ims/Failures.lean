import Ims.Delivery

namespace Ims.Failures

open Library.Text Library.Runs Library.Slots Models Mongo PostgresRepo RedisCache Ingestion Retry
  Service WorkerSteps ServiceSteps WorkerMoves WorkerFrames Rows Integrity Effects CrossStore Delivery
open Workers (Stores Run Pc Outcome placeholder isPlaceholder)

/-- Operations of runs may fail without effect; no run is cancelled. -/
def StoreFailures : Event → Prop
  | .run _ o => Outcome.Clean o
  | .cancelRun _ => False
  | _ => True

instance : DecidablePred StoreFailures
  | .run _ o => inferInstanceAs (Decidable (Outcome.Clean o))
  | .cancelRun _ => .isFalse id
  | .offer _ | .get _ | .getTimeout | .cancelIdle | .request _ _ | .abortRequest _
  | .call _ | .expire _ | .burnWorkItemId | .burnRcaId | .setClock _ => .isTrue trivial

def holdsOwn (st : Stores) (r : Run) : Bool :=
  decide (st.redis.strings (keyOf r) = some (placeholder r.mongoId))

theorem holdsOwn_congr {st : Stores} {r r' : Run} (hsig : r'.sig = r.sig)
    (hdoc : r'.rawDoc = r.rawDoc) : holdsOwn st r' = holdsOwn st r := by
  unfold holdsOwn keyOf Run.mongoId
  rw [hsig, hdoc]

/-- A failure of the operation that the run awaits now would end the run. -/
def lastAttempt (r : Run) (e : Exc) : Bool :=
  match r.pc with
  | .insertSignal | .pushLiveFeed _ => r.budget.plain.isNone
  | .create _ | .increment _ | .addLink _ | .upsertMetric _ => (r.budget.nested e).isNone
  | .claim | .publish _ _ | .getOpenWorkItem | .finish _ => true
  | .dispatch _ | .backfill _ => false

/-- A run fails for good between its claim and the publication of its work item,
while the key holds its placeholder. -/
def failsHolding (s : World) : Event → Bool
  | .run k (.fail e) =>
      (s.runs[k]?).any fun r => claiming r.pc && lastAttempt r e && holdsOwn s.stores r
  | _ => false

/-- A run from number n on reads the key while it holds the placeholder of a run
that is still in flight. -/
def readsInFlight (n : Nat) (s : World) : Event → Bool
  | .run k .ok => decide (n ≤ k) && (s.runs[k]?).any fun r =>
      decide (r.pc = .getOpenWorkItem) && s.runs.any fun b =>
        decide (b.status = .running) &&
          decide (s.stores.redis.strings (keyOf r) = some (placeholder b.mongoId))
  | _ => false

def Released (s : World) : Prop :=
  ∀ r ∈ s.runs, ∀ e, r.status = .raised e → holdsOwn s.stores r = false

theorem clean_of_storeFailures {e : Event} (h : StoreFailures e) : Clean e := by
  refine clean_of_run fun k o he => ?_
  subst he
  exact h

theorem lastAttempt_of_raised {r : Run} (hr : r.status = .running) {e exc : Exc}
    (h : (r.handle e).status = .raised exc) : lastAttempt r e = true := by
  have hretry {b : Option Budget} (hb : (r.retryOr e b).status = .raised exc) : b.isNone = true := by
    cases b with
    | none => rfl
    | some b =>
        rw [Run.retryOr, hr] at hb
        cases hb
  cases hpc : r.pc with
  | insertSignal | pushLiveFeed | create | increment | addLink | upsertMetric =>
      simp only [Run.handle, hpc] at h
      simp only [lastAttempt, hpc]
      exact hretry h
  | claim | publish | getOpenWorkItem | finish => simp only [lastAttempt, hpc]
  | dispatch | backfill =>
      simp only [Run.handle, hpc, goOn_status, hr] at h
      cases h

theorem claiming_of_holdsOwn {s : World} (h : Wf s) {r : Run} (hr : r ∈ s.runs)
    (hown : holdsOwn s.stores r = true) : claiming r.pc = true := by
  rcases h.keys r.sig.componentId _ (of_decide_eq_true hown) with
    ⟨b, hb, hclaim, _, hval⟩ | ⟨wi, _, _, hval⟩
  · rwa [eq_of_nodup h.docs.oids hr hb (Workers.placeholder_injective hval)]
  · exact absurd hval (Workers.placeholder_ne_str _ _)

theorem holdsOwn_move {s t : World} {e : Event} (hwf : Wf s)
    (hmove : WorkerMove s e t.stores t.runs) {b : Run} (hb : b ∈ s.runs)
    (hstatus : b.status ≠ .running) (hown : holdsOwn t.stores b = true) :
    holdsOwn s.stores b = true := by
  generalize t.stores = st, t.runs = runs at hmove hown
  have hval := of_decide_eq_true hown
  cases hmove with
  | env st htame =>
      rcases htame.keys (keyOf b) with hkey | hkey
      · rw [hkey] at hval
        exact decide_eq_true hval
      · rw [hkey] at hval
        cases hval
  | get => exact hown
  | @run k r st r' _ hk hr _ hstep =>
      by_cases hkey : keyOf b = keyOf r
      · rcases runStep_keys hstep with ⟨_, _, _, hstrings⟩ | ⟨_, w, _, _, _, _, hstrings⟩ |
          ⟨hstrings, _⟩
        · rw [hstrings, hkey, Function.update_self] at hval
          have hid := Workers.placeholder_injective (Option.some.inj hval)
          rw [eq_of_nodup hwf.docs.oids hb (List.mem_of_getElem? hk) hid.symm] at hstatus
          exact absurd hr hstatus
        · rw [hstrings, hkey, Function.update_self] at hval
          exact absurd (Option.some.inj hval).symm (Workers.placeholder_ne_str _ _)
        · rw [hstrings] at hval
          exact decide_eq_true hval
      · rcases runStep_keys hstep with ⟨_, _, _, hstrings⟩ | ⟨_, w, _, _, _, _, hstrings⟩ |
          ⟨hstrings, _⟩
        · rw [hstrings, Function.update_of_ne hkey] at hval
          exact decide_eq_true hval
        · rw [hstrings, Function.update_of_ne hkey] at hval
          exact decide_eq_true hval
        · rw [hstrings] at hval
          exact decide_eq_true hval

theorem released_step {cfg : Settings} {s t : World} {e : Event} (h : Released s) (hwf : Wf s)
    (he : StoreFailures e) (hfail : failsHolding s e = false) (hs : step cfg s e = some t) :
    Released t := by
  have hclean := clean_of_storeFailures he
  intro r hr exc hexc
  rw [Bool.eq_false_iff]
  intro hown
  obtain ⟨k, hk⟩ := List.mem_iff_getElem?.mp hr
  cases step_runMove hs hk with
  | new _ _ hrun _ =>
      rw [hrun] at hexc
      cases hexc
  | other _ hb =>
      have hmem := List.mem_of_getElem? hb
      have hnot : r.status ≠ .running := by rw [hexc]; simp
      have hold := holdsOwn_move hwf (step_workerMove hs hclean) hmem hnot hown
      rw [h r hmem exc hexc] at hold
      cases hold
  | finish => cases hexc
  | cancel => cases hexc
  | attempt b o hb hrun hrun' hst =>
      subst hrun'
      have hmem := List.mem_of_getElem? hb
      cases o with
      | ok =>
          cases hreply : (b.perform s.clock s.stores).2 with
          | ok pc =>
              simp only [Run.attempt, hreply, Run.resume, goOn_status, hrun] at hexc
              cases hexc
          | error e' =>
              -- only a read of the key can go wrong by itself, and it holds no claim
              have hpc : b.pc = .getOpenWorkItem := by
                by_contra hpc
                obtain ⟨pc, hok⟩ := perform_reply hwf hmem (fun h => absurd h hpc) s.clock
                rw [hok] at hreply
                cases hreply
              have hclaim := claiming_of_holdsOwn (wf_step hwf hs hclean) hr hown
              simp only [Run.attempt, hreply, Run.resume, Run.handle, hpc] at hclaim
              cases hclaim
      | fail e' =>
          have hsame := attempt_sig b (.fail e') s.clock s.stores
          have hold : holdsOwn s.stores b = true := by
            rw [← holdsOwn_congr hsame.1 hsame.2, ← hown, hst]
            rfl
          have hclaim := claiming_of_holdsOwn hwf hmem hold
          have hlast := lastAttempt_of_raised hrun hexc
          simp [failsHolding, hb, hclaim, hlast, hold] at hfail
      | lost => exact absurd he id

def Uncancelled (r : Run) : Prop := Going r ∨ ∃ e, r.status = .raised e

theorem uncancelled_step {cfg : Settings} {s t : World} {e : Event}
    (h : ∀ r ∈ s.runs, Uncancelled r) (he : StoreFailures e) (hs : step cfg s e = some t) :
    ∀ r ∈ t.runs, Uncancelled r := by
  intro r hr
  obtain ⟨k, hk⟩ := List.mem_iff_getElem?.mp hr
  cases step_runMove hs hk with
  | new _ _ hrun _ => exact .inl (.inl hrun)
  | other _ hb => exact h r (List.mem_of_getElem? hb)
  | attempt b o _ hrun _ _ =>
      rcases attempt_status b o s.clock s.stores with hstatus | hraised
      · exact .inl (.inl (hstatus.trans hrun))
      · exact .inr hraised
  | finish b w _ hpc => exact .inl (.inr ⟨rfl, w, hpc⟩)
  | cancel b _ hcancel =>
      rw [hcancel] at he
      exact absurd he id

structure FailureWf (s : World) : Prop where
  wf : Wf s
  uncancelled : ∀ r ∈ s.runs, Uncancelled r
  released : Released s

theorem failureWf_init (n : Nat) : FailureWf (init n) :=
  ⟨wf_init n, fun _ hr => absurd hr List.not_mem_nil, fun _ hr => absurd hr List.not_mem_nil⟩

theorem failureWf_step {cfg : Settings} {s t : World} {e : Event} (h : FailureWf s)
    (he : StoreFailures e) (hfail : failsHolding s e = false) (hs : step cfg s e = some t) :
    FailureWf t :=
  ⟨wf_step h.wf hs (clean_of_storeFailures he), uncancelled_step h.uncancelled he hs,
    released_step h.released h.wf he hfail hs⟩

theorem reads_no_placeholder {s : World} (h : FailureWf s) {n k : Nat} (hnk : n ≤ k)
    (hread : readsInFlight n s (.run k .ok) = false) (r : Run) (hk : s.runs[k]? = some r)
    (hpc : r.pc = .getOpenWorkItem) :
    (s.stores.redis.strings (keyOf r)).any isPlaceholder = false := by
  cases hkey : s.stores.redis.strings (keyOf r) with
  | none => rfl
  | some v =>
      rcases h.wf.keys r.sig.componentId v hkey with ⟨b, hb, hclaim, hcomp, rfl⟩ | ⟨wi, _, _, rfl⟩
      · have hown : holdsOwn s.stores b = true := by
          rw [holdsOwn, keyOf, hcomp]
          exact decide_eq_true hkey
        rcases h.uncancelled b hb with (hrun | ⟨_, w, hfinish⟩) | ⟨e, hraised⟩
        · simp only [readsInFlight, hnk, decide_true, Bool.true_and, hk, Option.any_some, hpc] at hread
          have := List.any_eq_false.mp hread b hb
          simp [hrun, hkey] at this
        · rw [hfinish] at hclaim
          cases hclaim
        · rw [h.released b hb e hraised] at hown
          cases hown
      · rw [Option.any_some, Workers.not_isPlaceholder_str]

def remaining : Pc → Nat
  | .insertSignal => 10
  | .claim => 9
  | .create true => 8
  | .publish true _ => 7
  | .pushLiveFeed _ => 6
  | .dispatch _ => 5
  | .getOpenWorkItem => 7
  | .create false => 6
  | .publish false _ => 5
  | .increment _ => 5
  | .addLink _ => 4
  | .backfill _ => 3
  | .upsertMetric _ => 2
  | .finish _ => 1

theorem perform_remaining {r : Run} {now : Int} {st : Stores} {pc : Pc}
    (h : (r.perform now st).2 = .ok pc) (hfinish : ∀ w, r.pc ≠ .finish w) :
    remaining pc < remaining r.pc := by
  cases hpc : r.pc with
  | insertSignal =>
      simp only [Run.perform, hpc] at h
      split at h
      · cases h
      · cases h
        simp [remaining]
  | claim =>
      simp only [Run.perform, hpc, Except.ok.injEq] at h
      rw [← h]
      split <;> simp [remaining]
  | getOpenWorkItem =>
      simp only [Run.perform, hpc] at h
      split at h
      · cases h
      · cases h
        simp [remaining]
      · cases h
        simp [remaining]
  | create won =>
      simp only [Run.perform, hpc, Except.ok.injEq] at h
      rw [← h]
      cases won <;> simp [remaining]
  | publish won w =>
      cases won with
      | true | false =>
          simp only [Run.perform, hpc, Except.ok.injEq] at h
          rw [← h]
          simp [remaining]
  | finish w => exact absurd hpc (hfinish w)
  | _ =>
      simp only [Run.perform, hpc, Except.ok.injEq] at h
      rw [← h]
      simp [remaining]

def toGo (k : Nat) (s : World) : Nat :=
  match s.runs[k]? with
  | none => remaining .insertSignal
  | some r => if r.status = .running then remaining r.pc else 0

def stepsOf (k : Nat) (_ : World) (e : Event) (_ : World) : Nat := if runIndex e = some k then 1 else 0

def ownSucceeds (k : Nat) : Event → Bool
  | .run j o => decide (j = k → o = .ok)
  | _ => true

def Undisturbed (n k : Nat) (s : World) (e : Event) : Prop :=
  StoreFailures e ∧ failsHolding s e = false ∧ readsInFlight n s e = false ∧ ownSucceeds k e = true

instance (n k : Nat) (s : World) (e : Event) : Decidable (Undisturbed n k s e) :=
  inferInstanceAs (Decidable (_ ∧ _ ∧ _ ∧ _))

theorem later_step {cfg : Settings} {s t : World} {e : Event} {n k : Nat} (hnk : n ≤ k)
    (h : FailureWf s) (hgoing : ∀ r, s.runs[k]? = some r → Going r) (he : Undisturbed n k s e)
    (hs : step cfg s e = some t) :
    (∀ r, t.runs[k]? = some r → Going r) ∧ toGo k t + stepsOf k s e t ≤ toGo k s := by
  obtain ⟨hstore, hfail, hread, hown⟩ := he
  by_cases hke : runIndex e = some k
  · have hok : e = .run k .ok := by
      cases e with
      | run j o =>
          cases hke
          rw [of_decide_eq_true hown rfl]
      | cancelRun => exact absurd hstore id
      | _ => cases hke
    subst hok
    obtain ⟨r, hk, hr, ⟨w, hpc, _, hruns⟩ | ⟨hfinish, pc, hreply, _, hruns⟩⟩ :=
      smooth_run hs h.wf (reads_no_placeholder h hnk hread)
    · have hk' : t.runs[k]? = some { r with status := .returned } := by
        rw [hruns, List.getElem?_set_self (lt_of_slot hk)]
      refine ⟨fun b hb => ?_, ?_⟩
      · cases Option.some.inj (hk'.symm.trans hb)
        exact .inr ⟨rfl, w, hpc⟩
      · simp [toGo, hk, hk', hr, hpc, stepsOf, hke, remaining]
    · have hk' : t.runs[k]? = some (r.goOn pc) := by
        rw [hruns, List.getElem?_set_self (lt_of_slot hk)]
      refine ⟨fun b hb => ?_, ?_⟩
      · cases Option.some.inj (hk'.symm.trans hb)
        exact .inl hr
      · have := perform_remaining hreply hfinish
        simp only [toGo, hk, hk', hr, goOn_status, goOn_pc, if_true, stepsOf, hke]
        omega
  · cases hk : s.runs[k]? with
    | none =>
        refine ⟨fun b hb => .inl (new_step hs hk hb).1, ?_⟩
        simp only [stepsOf, hke, if_false, Nat.add_zero]
        cases hk' : t.runs[k]? with
        | none => simp only [toGo, hk, hk', le_refl]
        | some b => simp [toGo, hk, hk', (new_step hs hk hk').1, (new_step hs hk hk').2]
    | some r =>
        have hk' := other_step hs hke hk
        refine ⟨fun b hb => ?_, by simp only [toGo, hk, hk', stepsOf, hke, if_false]; omega⟩
        cases Option.some.inj (hk'.symm.trans hb)
        exact hgoing r hk

def Linked (s : World) (r : Run) : Prop :=
  ∃ w, linkOf r w ∈ s.stores.postgres.signalLinks ∧
    ∃ wi ∈ s.stores.postgres.workItems, wi.id = w ∧ wi.componentId = r.sig.componentId

/-- Run k has not raised; it can go on while it has not returned, and takes at
most ten steps in all; when it has returned its signal is linked. -/
structure Completes (cfg : Settings) (s₁ : World) (es : List Event) (s : World) (k : Nat) : Prop where
  raised : ∀ r, s.runs[k]? = some r → ∀ e, r.status ≠ .raised e
  enabled : ∀ r, s.runs[k]? = some r → r.status = .running → (step cfg s (.run k .ok)).isSome = true
  steps : tally (step cfg) (stepsOf k) s₁ es + toGo k s ≤ 10
  linked : ∀ r, s.runs[k]? = some r → r.status = .returned → Linked s r

theorem run_enabled {cfg : Settings} {s : World} {k : Nat} {r : Run} (hk : s.runs[k]? = some r)
    (hr : r.status = .running) : (step cfg s (.run k .ok)).isSome = true := by
  simp only [step, hk, Option.bind_eq_bind, Option.bind_some, hr, if_true]
  unfold stepRun
  split
  · rfl
  · next hpc hnot => exact absurd rfl hnot
  · rfl

/-- A failed run does not poison its component. Let no run fail for good between
its claim and the publication of its work item while the key holds its
placeholder. Then the placeholder of a run that has raised is never in the key;
and a run that starts in or after s₁, that reads no placeholder of a run in
flight and whose own operations succeed, completes. -/
theorem failed_run_releases_key {cfg : Settings} {n : Nat} {es₁ es₂ : List Event} {s₁ s₂ : World}
    {k : Nat}
    (h₁ : Trace (step cfg) (fun s e => StoreFailures e ∧ failsHolding s e = false) (init n) es₁ s₁)
    (hk : s₁.runs.length ≤ k)
    (h₂ : Trace (step cfg) (Undisturbed s₁.runs.length k) s₁ es₂ s₂) :
    Released s₂ ∧ Completes cfg s₁ es₂ s₂ k := by
  have hwf₁ : FailureWf s₁ := h₁.invariant FailureWf (failureWf_init n)
    fun s e t h he hs => failureWf_step h he.1 he.2 hs
  have hnone : s₁.runs[k]? = none := List.getElem?_eq_none hk
  let I (s : World) : Prop := FailureWf s ∧ ∀ r, s.runs[k]? = some r → Going r
  have hinit : I s₁ := ⟨hwf₁, fun r hr => by rw [hnone] at hr; cases hr⟩
  have hstep : ∀ s e t, I s → Undisturbed s₁.runs.length k s e → step cfg s e = some t → I t :=
    fun s e t h he hs =>
      ⟨failureWf_step h.1 he.1 he.2.1 hs, (later_step hk h.1 h.2 he hs).1⟩
  obtain ⟨hwf₂, hgoing⟩ := h₂.invariant I hinit hstep
  have hsteps := (h₂.with_invariant I hinit hstep).tally_add_le (stepsOf k) (toGo k)
    fun s e t he hs => (later_step hk he.1.1 he.1.2 he.2 hs).2
  refine ⟨hwf₂.released, ?_, fun r hr hrun => run_enabled hr hrun, ?_, ?_⟩
  · intro r hr e hraised
    rcases hgoing r hr with hrun | ⟨hreturned, _⟩
    · rw [hrun] at hraised
      cases hraised
    · rw [hreturned] at hraised
      cases hraised
  · simp only [toGo, hnone, remaining] at hsteps ⊢
    omega
  · intro r hr hreturned
    have hmem := List.mem_of_getElem? hr
    rcases hgoing r hr with hrun | ⟨_, w, hpc⟩
    · rw [hrun] at hreturned
      cases hreturned
    · exact ⟨w, hwf₂.wf.links.ofRun r hmem w (by rw [hpc]; rfl),
        item_of_run hwf₂.wf.items hmem (by rw [hpc]; rfl)⟩

def failsAtPush : List Event :=
  [.offer (errorSignal "db"), .get "a"] ++ runOn 0 4 ++
    List.replicate 3 (.run 0 (.fail .storeError))

def nextSignal : List Event := [.offer (errorSignal "db"), .get "b"] ++ runOn 1 8

theorem failed_run_releases_key_at_push :
    ∃ s₁ s₂ : World, s₂.runs.map Run.status = [.raised .storeError, .returned] ∧
      Released s₂ ∧ Completes {} s₁ nextSignal s₂ 1 := by
  obtain ⟨s₁, h₁, hp⟩ := trace_of_replay (step {})
    (fun s e => StoreFailures e ∧ failsHolding s e = false) (init 2) failsAtPush
    (fun s₁ => decide (s₁.runs.length = 1) &&
      (replay (step {}) (Undisturbed 1 1) s₁ nextSignal).any fun s₂ : World =>
        decide (s₂.runs.map Run.status = [.raised .storeError, .returned])) (by decide +kernel)
  obtain ⟨hlen, hp⟩ := Bool.and_eq_true_iff.mp hp
  obtain ⟨s₂, h₂, hp⟩ := trace_of_replay _ _ _ _ _ hp
  have hlen : s₁.runs.length = 1 := of_decide_eq_true hlen
  exact ⟨s₁, s₂, of_decide_eq_true hp,
    failed_run_releases_key h₁ (le_of_eq hlen) (hlen.symm ▸ h₂)⟩

def failsAtCreate : List Event :=
  [.offer (errorSignal "db"), .get "a"] ++ runOn 0 2 ++
    List.replicate 3 (.run 0 (.fail .storeError))

def readsLeftOver : List Event := [.offer (errorSignal "db"), .get "b"] ++ runOn 1 3

theorem failed_run_keeps_key :
    ∃ s₁ s₂, Trace (step {}) (fun _ e => StoreFailures e) (init 2) failsAtCreate s₁ ∧
      Trace (step {}) (fun _ e => StoreFailures e ∧ ownSucceeds 1 e = true) s₁ readsLeftOver s₂ ∧
        ¬ Released s₁ ∧ ¬ Completes {} s₁ readsLeftOver s₂ 1 := by
  obtain ⟨s₁, h₁, hp⟩ := trace_of_replay (step {}) (fun _ e => StoreFailures e) (init 2) failsAtCreate
    (fun s₁ => (s₁.runs.any fun r => decide (r.status = .raised .storeError) && holdsOwn s₁.stores r) &&
      (replay (step {}) (fun _ e => StoreFailures e ∧ ownSucceeds 1 e = true) s₁ readsLeftOver).any
        fun s₂ : World => (s₂.runs[1]?).any fun r : Run => decide (r.status = .raised .valueError))
    (by decide +kernel)
  obtain ⟨hheld, hp⟩ := Bool.and_eq_true_iff.mp hp
  obtain ⟨r, hr, hheld⟩ := List.any_eq_true.mp hheld
  obtain ⟨hraised, hown⟩ := Bool.and_eq_true_iff.mp hheld
  obtain ⟨s₂, h₂, hp⟩ := trace_of_replay _ _ _ _ _ hp
  obtain ⟨r₂, hr₂, hraised₂⟩ := (Option.any_eq_true _ _).mp hp
  refine ⟨s₁, s₂, h₁, h₂, fun h => ?_, fun h => h.raised r₂ hr₂ _ (of_decide_eq_true hraised₂)⟩
  rw [h r hr _ (of_decide_eq_true hraised)] at hown
  cases hown

end Ims.Failures
