import Ims.Closing

namespace Ims.ClosedItems

open Library.Text Library.Runs Library.Tables Library.Slots Models States PostgresRepo RedisCache
  Ingestion Service WorkerSteps ApiSteps ServiceSteps WorkerMoves WorkerFrames Rows Integrity Effects
  LifeCycle Requests RcaGate Closing
open Workers (Stores Run Outcome placeholder)
open IncidentsApi (Request Pc Next zremNext)

def Succeeds : Event → Prop
  | .run _ o | .request _ o => o = .ok
  | _ => True

instance : DecidablePred Succeeds
  | .run _ o | .request _ o => inferInstanceAs (Decidable (o = .ok))
  | .offer _ | .get _ | .getTimeout | .cancelIdle | .cancelRun _ | .abortRequest _ | .call _
  | .expire _ | .burnWorkItemId | .burnRcaId | .setClock _ => .isTrue trivial

/-- A request that is or ended here has moved item w to CLOSED and cleaned up. -/
def closes (w : Int) : Pc → Bool
  | .fresh v result => decide (v = w ∧ result.newState = .CLOSED)
  | _ => false

def cleaned (w : Int) (s : World) : Bool := s.requests.any fun q => closes w q.pc

/-- A run writes an item into its key after the clean-up of that item. -/
def publishesCleaned (s : World) (e : Event) : Bool := (publishes s e).any fun (w, _) => cleaned w s

def returnedItem (q : Request) : Bool :=
  match q.status with
  | .responded (.workItem _) => true
  | _ => false

def returnedClosed (w : Int) (s : World) : Bool :=
  s.requests.any fun q => closes w q.pc && returnedItem q

def countOf (w : Int) (st : Stores) : Int :=
  ((st.postgres.workItems.filter fun wi => wi.id = w).map WorkItem.signalCount).sum

def linksTo (w : Int) (st : Stores) : Nat :=
  st.postgres.signalLinks.countP fun l => l.workItemId = w

def addedTo (n : Nat) (w : Int) (s : World) (e : Event) (t : World) : Nat :=
  if (runIndex e).any fun k => decide (n ≤ k) then
    (countOf w t.stores - countOf w s.stores).toNat + (linksTo w t.stores - linksTo w s.stores)
  else 0

variable {cfg : Settings} {s t : World} {e : Event} {st st' : Stores} {w : Int}

theorem clean_of_succeeds (h : Succeeds e) : Clean e := by
  refine clean_of_run fun k o he => ?_
  subst he
  cases show o = .ok from h
  trivial

theorem attempt_closes {q : Request} {now : Int} (h : closes w (q.attempt .ok now st).2.pc = true) :
    closes w q.pc = true ∨ ∃ wi result, q.pc = .clearDedup w wi result := by
  have hmove := attempt_pcMove q .ok now st
  generalize q.pc = pc, (q.attempt .ok now st).2.pc = pc' at hmove h ⊢
  cases hmove with
  | stay => exact .inl h
  | cleared v wi result =>
      obtain ⟨rfl, _⟩ := of_decide_eq_true h
      exact .inr ⟨wi, result, rfl⟩
  | moved v wi result hstate => exact absurd (of_decide_eq_true h).2 hstate
  -- the cleanup always gets its replies here, so it is not left by an exception
  | leftScan _ _ _ ho | leftRemoval _ _ _ _ _ ho => exact absurd rfl ho
  | readItem | decided | closed | scanned | scannedNone | removed | removedLast | checked | selected
  | retried | readIncident => cases h

theorem closes_attempt {q : Request} {now : Int} (h : closes w q.pc = true) :
    closes w (q.attempt .ok now st).2.pc = true := by
  cases hpc : q.pc with
  | fresh v result =>
      rw [hpc] at h
      simp only [Request.attempt, Request.perform, hpc]
      split <;> simpa only [Request.resume, Request.goOn, Request.handle, hpc] using h
  | _ =>
      rw [hpc] at h
      cases h

theorem cleaned_step (he : Succeeds e) (hs : step cfg s e = some t) :
    (cleaned w s = true → cleaned w t = true) ∧
      (cleaned w t = true → cleaned w s = true ∨ ∃ c, clears s e = some (w, c)) := by
  simp only [cleaned, List.any_eq_true]
  have hmove := step_move hs
  generalize t.stores = st, t.runs = runs, t.requests = requests at hmove
  cases hmove with
  | @request k q o hk _ =>
      obtain rfl : o = .ok := he
      refine ⟨exists_set hk closes_attempt, ?_⟩
      rintro ⟨b, hb, hclose⟩
      rcases List.mem_or_eq_of_mem_set hb with hb | rfl
      · exact .inl ⟨b, hb, hclose⟩
      · rcases attempt_closes hclose with hclose | ⟨wi, result, hpc⟩
        · exact .inl ⟨q, List.mem_of_getElem? hk, hclose⟩
        · exact .inr ⟨wi.componentId, by simp [clears, takesEffect, hk, hpc]⟩
  | @abortRequest k q hk _ =>
      refine ⟨exists_set hk id, ?_⟩
      rintro ⟨b, hb, hclose⟩
      rcases List.mem_or_eq_of_mem_set hb with hb | rfl
      · exact .inl ⟨b, hb, hclose⟩
      · exact .inl ⟨q, List.mem_of_getElem? hk, hclose⟩
  | call c =>
      constructor
      · rintro ⟨b, hb, hclose⟩
        exact ⟨b, List.mem_append_left _ hb, hclose⟩
      · rintro ⟨b, hb, hclose⟩
        rcases List.mem_append.mp hb with hb | hb
        · exact .inl ⟨b, hb, hclose⟩
        · rw [List.mem_singleton.mp hb] at hclose
          cases c <;> cases hclose
  | _ => exact ⟨id, .inl⟩

def Unkeyed (s : World) : Prop :=
  ∀ w, cleaned w s = true → (∃ wi ∈ s.stores.postgres.workItems, wi.id = w) ∧
    ∀ c, windowOf s.stores c ≠ some (str w)

theorem key_component (hwf : Wf s) (hgate : GateWf s) {c d : String}
    (hkey : windowOf s.stores c = some (str w)) (hclear : clears s e = some (w, d)) : c = d := by
  rcases hwf.keys c (str w) hkey with ⟨_, _, _, _, hval⟩ | ⟨row, hrow, hcomponent, hval⟩
  · exact absurd hval.symm (Workers.placeholder_ne_str _ _)
  · obtain ⟨wi, hwi, rfl⟩ := List.mem_map.mp hrow
    rw [← hcomponent]
    exact (clears_component hgate hclear).2 wi hwi (str_injective hval).symm

theorem unkeyed_step (h : Unkeyed s) (hwf : Wf s) (hgate : GateWf s) (he : Succeeds e)
    (hpublish : publishesCleaned s e = false) (hs : step cfg s e = some t) : Unkeyed t := by
  intro w hclean
  have hnew := (cleaned_step he hs).2 hclean
  have hitem : ∃ wi ∈ s.stores.postgres.workItems, wi.id = w := by
    rcases hnew with hold | ⟨c, hclear⟩
    · exact (h w hold).1
    · exact (clears_component hgate hclear).1
  refine ⟨?_, fun c hkey => ?_⟩
  · obtain ⟨wi, hwi, rfl⟩ := hitem
    exact ids_stay hs hwi
  · have hmove := step_keyMove hs (clean_of_succeeds he) c
    rw [hkey] at hmove
    generalize hval : some (str w) = v at hmove
    cases hmove with
    | keep =>
        rcases hnew with hold | ⟨d, hclear⟩
        · exact (h w hold).2 c hval.symm
        · have hgone := clears_key hclear hs
          rw [← key_component hwf hgate hval.symm hclear, hkey] at hgone
          cases hgone
    | expire | clear => cases hval
    | claim m => exact Workers.placeholder_ne_str m w (Option.some.inj hval).symm
    | publish v hpub =>
        -- the event is one of a run, so it cleaned up nothing
        obtain rfl := str_injective (Option.some.inj hval)
        rcases hnew with hold | ⟨d, hclear⟩
        · simp [publishesCleaned, hpub, hold] at hpublish
        · cases e with
          | run => cases hclear
          | _ => cases hpub

theorem runStep_adds_nothing {now : Int} {r r' : Run} (h : RunStep now st r st' r')
    (hitem : workItemOf r.pc ≠ some w) (hseq : w ≤ st.postgres.workItemsSeq) :
    countOf w st' = countOf w st ∧ linksTo w st' = linksTo w st := by
  cases h with
  | create won hpc =>
      refine ⟨?_, rfl⟩
      have hne : st.postgres.workItemsSeq + 1 ≠ w := by omega
      simp [countOf, newWorkItem, hne]
  | increment v hpc =>
      have hne : v ≠ w := fun hvw => hitem (by rw [hpc, hvw]; rfl)
      refine ⟨?_, rfl⟩
      simp only [countOf, incrementSignalCount, updateWorkItem]
      rw [filter_updateWhere]
      intro row _ hrow
      simp [of_decide_eq_true hrow, hne]
  | link v hpc =>
      have hne : v ≠ w := fun hvw => hitem (by rw [hpc, hvw]; rfl)
      refine ⟨rfl, ?_⟩
      simp [linksTo, linkOf, hne]
  | _ => exact ⟨rfl, rfl⟩

theorem runStep_workItemOf {now : Int} {r r' : Run} (h : RunStep now s.stores r st' r') (hwf : Wf s)
    (hitem : workItemOf r.pc ≠ some w) (hseq : w ≤ s.stores.postgres.workItemsSeq)
    (hkey : ∀ c, windowOf s.stores c ≠ some (str w)) : workItemOf r'.pc ≠ some w := by
  rcases runStep_items h with ⟨won, _, hpc, _, _⟩ | ⟨_, _, hsame | ⟨v, _, hpc, hget⟩⟩
  · rw [hpc]
    intro hw
    have := Option.some.inj hw
    omega
  · rwa [hsame]
  · rw [hpc]
    rintro ⟨⟩
    obtain ⟨val, hval, hint⟩ := getOpenWorkItem_some hget
    rcases hwf.keys r.sig.componentId val hval with ⟨b, _, _, _, rfl⟩ | ⟨wi, _, _, rfl⟩
    · rw [Workers.int_placeholder] at hint
      cases hint
    · rw [int_str] at hint
      exact hkey _ (Option.some.inj hint ▸ hval)

structure Retired (n : Nat) (w : Int) (s : World) : Prop where
  wf : Wf s
  gate : GateWf s
  unkeyed : Unkeyed s
  cleaned : cleaned w s = true
  later : ∀ k r, n ≤ k → s.runs[k]? = some r → workItemOf r.pc ≠ some w

theorem Retired.seq {n : Nat} (h : Retired n w s) : w ≤ s.stores.postgres.workItemsSeq := by
  obtain ⟨wi, hwi, rfl⟩ := (h.unkeyed w h.cleaned).1
  exact h.gate.rows.seq wi.id (List.mem_map_of_mem hwi)

theorem retired_step {n : Nat} (h : Retired n w s) (he : Succeeds e)
    (hpublish : publishesCleaned s e = false) (hs : step cfg s e = some t) :
    Retired n w t ∧ addedTo n w s e t = 0 := by
  have hclean := clean_of_succeeds he
  refine ⟨⟨wf_step h.wf hs hclean, gateWf_step h.gate hs,
    unkeyed_step h.unkeyed h.wf h.gate he hpublish hs, (cleaned_step he hs).1 h.cleaned, ?_⟩, ?_⟩
  · intro k r hnk hk
    cases step_runMove hs hk with
    | new _ _ _ hpc =>
        rw [hpc]
        nofun
    | other _ hb => exact h.later k r hnk hb
    | attempt b o hb _ hrun _ =>
        subst hrun
        exact runStep_workItemOf (attempt_runStep s.clock s.stores b hclean) h.wf (h.later k b hnk hb)
          h.seq (h.unkeyed w h.cleaned).2
    | finish b _ hb _ => exact h.later k b hnk hb
    | cancel b hb _ => exact h.later k b hnk hb
  · unfold addedTo
    split
    · next hrun =>
      obtain ⟨k, hke, hnk⟩ := (Option.any_eq_true _ _).mp hrun
      obtain ⟨b, b', hb, _, _, hmove⟩ := own_step hs hke
      rcases hmove with ⟨o, rfl, hst, _⟩ | ⟨hst, _⟩
      · have hnothing := runStep_adds_nothing (attempt_runStep s.clock s.stores b hclean)
          (h.later k b (of_decide_eq_true hnk) hb) h.seq
        rw [hst, hnothing.1, hnothing.2]
        simp
      · rw [hst]
        simp
    · rfl

/-- Whenever a request that moved an item to CLOSED has returned, the runs that
start after that add nothing to the count of the item and to its links. -/
def ClosedAttractsNothing (cfg : Settings) (n : Nat) (es : List Event) : Prop :=
  ∀ es₁ es₂ s₁ w, es = es₁ ++ es₂ → Trace (step cfg) (fun _ _ => True) (init n) es₁ s₁ →
    returnedClosed w s₁ = true → tally (step cfg) (addedTo s₁.runs.length w) s₁ es₂ = 0

/-- A closed incident attracts no new signals as long as no run that started
earlier writes its id into the key again after the clean-up. -/
theorem closed_item_attracts_no_signals {n : Nat} {es : List Event}
    (h : Trace (step cfg) (fun s e => Succeeds e ∧ publishesCleaned s e = false) (init n) es s) :
    ClosedAttractsNothing cfg n es := by
  rintro es₁ es₂ s₁ w rfl h₁ hreturned
  obtain ⟨q, hq, hclosed⟩ := List.any_eq_true.mp hreturned
  obtain ⟨hwf, hgate, hunkeyed⟩ := (h.split_at h₁).1.invariant (fun s => Wf s ∧ GateWf s ∧ Unkeyed s)
    ⟨wf_init n, gateWf_init n, fun _ hclean => by cases hclean⟩
    fun s e t hI he hs => ⟨wf_step hI.1 hs (clean_of_succeeds he.1), gateWf_step hI.2.1 hs,
      unkeyed_step hI.2.2 hI.1 hI.2.1 he.1 he.2 hs⟩
  have hretired : Retired s₁.runs.length w s₁ :=
    ⟨hwf, hgate, hunkeyed, List.any_eq_true.mpr ⟨q, hq, (Bool.and_eq_true_iff.mp hclosed).1⟩,
      fun k r hnk hk => by rw [List.getElem?_eq_none hnk] at hk; cases hk⟩
  have hrest := (h.split_at h₁).2.with_invariant (Retired s₁.runs.length w) hretired
    fun s e t hI he hs => (retired_step hI he.1 he.2 hs).1
  have hnone := hrest.tally_add_le (addedTo s₁.runs.length w) (fun _ => 0)
    fun s e t he hs => by rw [(retired_step he.1 he.2.1 he.2.2 hs).2]
  omega

def closedNow : List Event := resolved ++ [.call (.closeIncident 1)] ++ requestOn 3 7

def signalAfter : List Event := [.offer (errorSignal "db"), .get "b"] ++ runOn 1 10

theorem closed_item_attracts_no_signals_after_close :
    ∃ s₁ s : World, Trace (step {}) (fun _ _ => True) (init 2) closedNow s₁ ∧
      returnedClosed 1 s₁ = true ∧ s.stores.postgres.workItems.map WorkItem.signalCount = [1, 1] ∧
        ClosedAttractsNothing {} 2 (closedNow ++ signalAfter) := by
  obtain ⟨s₁, h₁, hp⟩ := trace_of_replay (step {})
    (fun s e => Succeeds e ∧ publishesCleaned s e = false) (init 2) closedNow
    (fun s₁ => returnedClosed 1 s₁ &&
      (replay (step {}) (fun s e => Succeeds e ∧ publishesCleaned s e = false) s₁ signalAfter).any
        fun s : World => decide (s.stores.postgres.workItems.map WorkItem.signalCount = [1, 1]))
    (by decide +kernel)
  obtain ⟨hreturned, hp⟩ := Bool.and_eq_true_iff.mp hp
  obtain ⟨s, h₂, hp⟩ := trace_of_replay _ _ _ _ _ hp
  exact ⟨s₁, s, h₁.mono fun _ _ _ => trivial, hreturned, of_decide_eq_true hp,
    closed_item_attracts_no_signals (h₁.trans h₂)⟩

def closedBeforePublished : List Event :=
  [.offer (errorSignal "db"), .get "a"] ++ runOn 0 3 ++ [.expire (dedupKey "db")] ++
    [.call (.transitionIncident 1 .INVESTIGATING)] ++ requestOn 0 4 ++
    [.call (.transitionIncident 1 .RESOLVED)] ++ requestOn 1 4 ++
    [.call (.submitRca 1 rollbackRca)] ++ requestOn 2 3 ++ [.call (.closeIncident 1)] ++ requestOn 3 6

/-- The first run publishes over the claim of a second; a third signal comes in. -/
def publishedOver : List Event :=
  [.offer (errorSignal "db"), .get "b"] ++ runOn 1 2 ++ runOn 0 1 ++
    [.offer (errorSignal "db"), .get "c"] ++ runOn 2 8

theorem closed_item_gains_signal :
    ∃ s, Trace (step {}) (fun _ e => Succeeds e) (init 3) (closedBeforePublished ++ publishedOver) s ∧
      ¬ ClosedAttractsNothing {} 3 (closedBeforePublished ++ publishedOver) := by
  obtain ⟨s₁, h₁, hp⟩ := trace_of_replay (step {}) (fun _ e => Succeeds e) (init 3)
    closedBeforePublished (fun s₁ => returnedClosed 1 s₁ &&
      decide (tally (step {}) (addedTo s₁.runs.length 1) s₁ publishedOver = 2) &&
        (replay (step {}) (fun _ e => Succeeds e) s₁ publishedOver).any fun _ => true)
    (by decide +kernel)
  obtain ⟨hp, hrest⟩ := Bool.and_eq_true_iff.mp hp
  obtain ⟨hreturned, htally⟩ := Bool.and_eq_true_iff.mp hp
  obtain ⟨s, h₂, _⟩ := trace_of_replay _ _ _ _ _ hrest
  refine ⟨s, h₁.trans h₂, fun h => ?_⟩
  have hnone := h _ _ s₁ 1 rfl (h₁.mono fun _ _ _ => trivial) hreturned
  rw [of_decide_eq_true htally] at hnone
  cases hnone

end Ims.ClosedItems
