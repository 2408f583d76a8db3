import Ims.QueueConservation
import Ims.RetryLoops
import Mathlib.Data.Fintype.EquivFin

namespace Ims.Draining

open Library.Runs Library.Slots Models Retry Ingestion Service WorkerSteps ServiceSteps WorkerMoves
  IngestSteps RetryLoops
open QueueConservation (running gaveUp)
open Workers (Stores Run Pc Outcome)

def patience : Pc → Nat
  | .insertSignal | .pushLiveFeed _ => retries
  | .create _ | .increment _ | .addLink _ | .upsertMetric _ => retries * stopAfterAttempt
  | .claim | .publish _ _ | .dispatch _ | .getOpenWorkItem | .backfill _ | .finish _ => 1

def ahead : Pc → Nat
  | .insertSignal => 53
  | .claim => 52
  | .create true => 37
  | .publish true _ => 36
  | .pushLiveFeed _ => 33
  | .dispatch _ => 32
  | .getOpenWorkItem => 48
  | .create false => 33
  | .publish false _ => 32
  | .increment _ => 32
  | .addLink _ => 17
  | .backfill _ => 16
  | .upsertMetric _ => 1
  | .finish _ => 0

def attemptsLeft (r : Run) : Nat :=
  match r.pc with
  | .insertSignal | .pushLiveFeed _ => retries - r.budget.attempt
  | .create _ | .increment _ | .addLink _ | .upsertMetric _ =>
      (retries - r.budget.attempt) * stopAfterAttempt - r.budget.inner
  | .claim | .publish _ _ | .dispatch _ | .getOpenWorkItem | .backfill _ | .finish _ => 1

def toDo (r : Run) : Nat := if running r then attemptsLeft r + ahead r.pc else 0

/-- The longest way of a signal from the queue: queue.get and 56 awaits. -/
def perSignal : Nat := 57

def workLeft (s : World) : Nat := (s.runs.map toDo).sum + perSignal * s.ingest.queue.length

def isWork : Event → Bool
  | .get _ | .run _ _ => true
  | .offer _ | .getTimeout | .cancelIdle | .request _ _ | .cancelRun _ | .abortRequest _ | .call _
  | .expire _ | .burnWorkItemId | .burnRcaId | .setClock _ => false

def dismisses : Event → Bool
  | .cancelIdle | .cancelRun _ => true
  | .offer _ | .get _ | .getTimeout | .run _ _ | .request _ _ | .abortRequest _ | .call _
  | .expire _ | .burnWorkItemId | .burnRcaId | .setClock _ => false

def Fits (r : Run) : Prop :=
  running r = true → r.budget.attempt < retries ∧ r.budget.inner < stopAfterAttempt

theorem running_iff {r : Run} : running r = true ↔ r.status = .running := decide_eq_true_iff

theorem attemptsLeft_goOn (r : Run) (pc : Pc) : attemptsLeft (r.goOn pc) = patience pc := by
  cases pc <;> rfl

theorem fits_goOn (r : Run) (pc : Pc) : Fits (r.goOn pc) :=
  fun _ => ⟨Nat.zero_lt_succ 2, Nat.zero_lt_succ 4⟩

theorem attemptsLeft_pos {r : Run} (h : Fits r) (hr : running r = true) : 1 ≤ attemptsLeft r := by
  obtain ⟨hattempt, hinner⟩ := h hr
  have hcalls : 1 ≤ retries - r.budget.attempt := Nat.sub_pos_of_lt hattempt
  have hmul := Nat.mul_le_mul_right stopAfterAttempt hcalls
  unfold attemptsLeft
  split <;> omega

inductive Follows : Pc → Pc → Prop
  | inserted : Follows .insertSignal .claim
  | won : Follows .claim (.create true)
  | lost : Follows .claim .getOpenWorkItem
  | created (won w) : Follows (.create won) (.publish won w)
  | published (w) : Follows (.publish true w) (.pushLiveFeed w)
  | publishedAnyway (w) : Follows (.publish false w) (.addLink w)
  | pushed (w) : Follows (.pushLiveFeed w) (.dispatch w)
  | dispatched (w) : Follows (.dispatch w) (.addLink w)
  | foundGone : Follows .getOpenWorkItem (.create false)
  | foundItem (w) : Follows .getOpenWorkItem (.increment w)
  | incremented (w) : Follows (.increment w) (.addLink w)
  | linked (w) : Follows (.addLink w) (.backfill w)
  | backfilled (w) : Follows (.backfill w) (.upsertMetric w)
  | metered (w) : Follows (.upsertMetric w) (.finish w)

theorem perform_follows {r : Run} {now : Int} {st : Stores} {pc : Pc}
    (h : (r.perform now st).2 = .ok pc) (hpc : ∀ w, r.pc ≠ .finish w) : Follows r.pc pc := by
  cases hr : r.pc with
  | insertSignal =>
      simp only [Run.perform, hr] at h
      split at h <;> cases h
      exact .inserted
  | claim =>
      simp only [Run.perform, hr, Except.ok.injEq] at h
      split at h <;> cases h
      · exact .won
      · exact .lost
  | getOpenWorkItem =>
      simp only [Run.perform, hr] at h
      split at h <;> cases h
      · exact .foundGone
      · exact .foundItem _
  | publish won w =>
      cases won with
      | true =>
          simp only [Run.perform, hr, Except.ok.injEq] at h
          exact h ▸ .published w
      | false =>
          simp only [Run.perform, hr, Except.ok.injEq] at h
          exact h ▸ .publishedAnyway w
  | finish w => exact absurd hr (hpc w)
  | create | pushLiveFeed | dispatch | increment | addLink | backfill | upsertMetric =>
      simp only [Run.perform, hr, Except.ok.injEq] at h
      subst h
      constructor

theorem ahead_of_follows {pc pc' : Pc} (h : Follows pc pc') : patience pc' + ahead pc' ≤ ahead pc := by
  cases h with
  | created won w => cases won <;> exact Nat.le_of_ble_eq_true rfl
  | _ => exact Nat.le_of_ble_eq_true rfl

theorem plain_some {b b' : Budget} (h : b.plain = some b') :
    b.attempt + 1 < retries ∧ b' = { attempt := b.attempt + 1 } := by
  obtain ⟨attempt, hattempt, rfl⟩ := Option.map_eq_some_iff.mp h
  obtain ⟨hlt, rfl⟩ := retryAsync_some hattempt
  exact ⟨hlt, rfl⟩

/-- A nested loop that goes on has one attempt fewer, and all of those of a new
call are still to come. -/
theorem nested_some {e : Exc} {b b' : Budget} (h : b.nested e = some b') (ha : b.attempt < retries)
    (hi : b.inner < stopAfterAttempt) :
    (b'.attempt < retries ∧ b'.inner < stopAfterAttempt) ∧
      (retries - b'.attempt) * stopAfterAttempt - b'.inner + 1 ≤
        (retries - b.attempt) * stopAfterAttempt - b.inner := by
  unfold Budget.nested at h
  split at h
  · next inner hinner =>
    obtain ⟨_, hlt, rfl⟩ := retryPolicy_some hinner
    cases h
    have hcalls : 1 ≤ retries - b.attempt := Nat.sub_pos_of_lt ha
    have hmul := Nat.mul_le_mul_right stopAfterAttempt hcalls
    refine ⟨⟨ha, hlt⟩, ?_⟩
    simp only
    omega
  · obtain ⟨hlt, rfl⟩ := plain_some h
    have hsucc : retries - b.attempt = retries - (b.attempt + 1) + 1 := by omega
    refine ⟨⟨hlt, Nat.zero_lt_succ 4⟩, ?_⟩
    simp only [hsucc, Nat.succ_mul]
    omega

theorem handle_toDo {r : Run} (e : Exc) (h : Fits r) (hr : running r = true)
    (hpc : ∀ w, r.pc ≠ .finish w) : toDo (r.handle e) + 1 ≤ toDo r ∧ Fits (r.handle e) := by
  obtain ⟨hattempt, hinner⟩ := h hr
  have hpos := attemptsLeft_pos h hr
  have hraised : toDo { r with status := .raised e } + 1 ≤ toDo r ∧
      Fits { r with status := .raised e } := by
    refine ⟨?_, fun hrun => by cases hrun⟩
    simp only [toDo, hr, if_true]
    simp only [running, reduceCtorEq, decide_false, Bool.false_eq_true, if_false]
    omega
  have hgoOn {pc : Pc} (hfollows : Follows r.pc pc) :
      toDo (r.goOn pc) + 1 ≤ toDo r ∧ Fits (r.goOn pc) := by
    have hahead := ahead_of_follows hfollows
    refine ⟨?_, fits_goOn r pc⟩
    have hrun : running (r.goOn pc) = true := hr
    simp only [toDo, hr, hrun, if_true, attemptsLeft_goOn, goOn_pc]
    omega
  have hretry {b : Option Budget} (hb : ∀ b', b = some b' →
      (b'.attempt < retries ∧ b'.inner < stopAfterAttempt) ∧
        attemptsLeft { r with budget := b' } + 1 ≤ attemptsLeft r) :
      toDo (r.retryOr e b) + 1 ≤ toDo r ∧ Fits (r.retryOr e b) := by
    cases b with
    | none => exact hraised
    | some b' =>
        obtain ⟨hfits, hleft⟩ := hb b' rfl
        refine ⟨?_, fun _ => hfits⟩
        have hrun : running { r with budget := b' } = true := hr
        simp only [Run.retryOr, toDo, hr, hrun, if_true]
        omega
  cases hp : r.pc with
  | insertSignal | pushLiveFeed =>
      simp only [Run.handle, hp]
      refine hretry fun b' hb => ?_
      obtain ⟨hlt, rfl⟩ := plain_some hb
      refine ⟨⟨hlt, Nat.zero_lt_succ 4⟩, ?_⟩
      simp only [attemptsLeft, hp]
      omega
  | create | increment | addLink | upsertMetric =>
      simp only [Run.handle, hp]
      refine hretry fun b' hb => ?_
      obtain ⟨hfits, hleft⟩ := nested_some hb hattempt hinner
      refine ⟨hfits, ?_⟩
      simp only [attemptsLeft, hp]
      exact hleft
  | claim | publish | getOpenWorkItem =>
      simp only [Run.handle, hp]
      exact hp ▸ hraised
  | dispatch w =>
      simp only [Run.handle, hp]
      exact hgoOn (hp ▸ .dispatched w)
  | backfill w =>
      simp only [Run.handle, hp]
      exact hgoOn (hp ▸ .backfilled w)
  | finish w => exact absurd hp (hpc w)

theorem attempt_toDo {r : Run} (o : Outcome) (now : Int) (st : Stores) (h : Fits r)
    (hr : running r = true) (hpc : ∀ w, r.pc ≠ .finish w) :
    toDo (r.attempt o now st).2 + 1 ≤ toDo r ∧ Fits (r.attempt o now st).2 := by
  cases o with
  | ok =>
      simp only [Run.attempt]
      cases hreply : (r.perform now st).2 with
      | error e => exact handle_toDo e h hr hpc
      | ok pc =>
          have hahead := ahead_of_follows (perform_follows hreply hpc)
          have hpos := attemptsLeft_pos h hr
          have hrun : running (r.goOn pc) = true := hr
          refine ⟨?_, fits_goOn r pc⟩
          simp only [Run.resume, toDo, hr, hrun, if_true, attemptsLeft_goOn, goOn_pc]
          omega
  | fail e => exact handle_toDo e h hr hpc
  | lost e => exact handle_toDo e h hr hpc

variable {cfg : Settings} {s t : World} {e : Event}

theorem settle_queue (s : World) (k : Nat) (r : Run) :
    (settle s k r).ingest.queue = s.ingest.queue := by
  rw [settle_ingest]
  split <;> rfl

theorem toDo_ended {r : Run} (h : r.status ≠ .running) : toDo r = 0 := by
  rw [toDo, if_neg fun hr => h (running_iff.mp hr)]

theorem workLeft_settle {k : Nat} {r b : Run} {u : World} (hk : s.runs[k]? = some r)
    (hruns : u.runs = s.runs) (hqueue : u.ingest.queue = s.ingest.queue) :
    workLeft (settle u k b) + toDo r = workLeft s + toDo b := by
  have hsum := sum_set hk toDo b
  rw [workLeft, workLeft, settle_queue, (settle_eq u k b).2.1, hruns, hqueue]
  omega

/-- A step of a worker uses up an attempt; only an accepted signal brings new ones. -/
theorem work_step (h : ∀ r ∈ s.runs, Fits r) (hs : step cfg s e = some t) :
    (∀ r ∈ t.runs, Fits r) ∧ workLeft t + (isWork e).toNat ≤
      workLeft s + perSignal * (acceptedBy cfg s e).length := by
  have hsettle {s' : World} {k : Nat} {r' : Run} (hruns : s'.runs = s.runs) (hr' : Fits r') :
      ∀ b ∈ (settle s' k r').runs, Fits b := by
    rw [(settle_eq s' k r').2.1, hruns]
    exact forall_set h hr'
  cases step_taken hs with
  | offer sig =>
      refine ⟨h, ?_⟩
      obtain ⟨hqueue, _, _⟩ := offer_queue cfg s.ingest sig
      simp only [workLeft, hqueue, isWork, acceptedBy, List.length_append, Bool.toNat_false]
      rw [Nat.mul_add]
      omega
  | get oid sig queue hqueue _ _ =>
      refine ⟨forall_push h fun _ => ⟨Nat.zero_lt_succ 2, Nat.zero_lt_succ 4⟩, ?_⟩
      simp only [workLeft, hqueue, isWork, List.map_append, List.sum_append, List.length_cons,
        List.map_singleton, List.sum_singleton, Bool.toNat_true]
      have hnew : toDo { sig, rawDoc := Workers.rawDoc sig oid s.clock } = 56 := rfl
      rw [hnew, perSignal]
      omega
  | @run k r o hk hr hpc =>
      have hrun := running_iff.mpr hr
      obtain ⟨htoDo, hfits⟩ :=
        attempt_toDo o s.clock s.stores (h _ (List.mem_of_getElem? hk)) hrun hpc
      have := workLeft_settle (b := (r.attempt o s.clock s.stores).2)
        (u := { s with stores := (r.attempt o s.clock s.stores).1 }) hk rfl rfl
      refine ⟨hsettle rfl hfits, ?_⟩
      simp only [isWork, Bool.toNat_true]
      omega
  | @finish k r w hk hr hpc =>
      have hzero : toDo { r with status := .returned } = 0 := toDo_ended fun hr => by cases hr
      have hone : toDo r = 1 := by
        simp only [toDo, running_iff.mpr hr, if_true, attemptsLeft, hpc, ahead]
      have := workLeft_settle (b := { r with status := .returned })
        (u := { s with ingest := { s.ingest with processed := s.ingest.processed + 1 } }) hk rfl rfl
      refine ⟨hsettle rfl (fun hr => by cases hr), ?_⟩
      dsimp only at this
      simp only [isWork, Bool.toNat_true]
      omega
  | @cancelRun k r hk hr =>
      have hzero : toDo { r with status := .cancelled } = 0 := toDo_ended fun hr => by cases hr
      have := workLeft_settle (b := { r with status := .cancelled }) (u := s) hk rfl rfl
      refine ⟨hsettle rfl (fun hr => by cases hr), ?_⟩
      simp only [isWork, Bool.toNat_false]
      omega
  | getTimeout | cancelIdle | request | abortRequest | call | expire | burnWorkItemId | burnRcaId
  | setClock => exact ⟨h, Nat.le_add_right _ _⟩

theorem unfinished_step (h : s.ingest.unfinished = s.ingest.queue.length + s.runs.countP running)
    (hs : step cfg s e = some t) :
    t.ingest.unfinished = t.ingest.queue.length + t.runs.countP running := by
  have hmove := step_ingestMove hs
  generalize t.ingest = ingest, t.runs = runs at hmove
  cases hmove with
  | offer sig =>
      by_cases hok : (offer cfg s.ingest sig).2 = true
      · rw [QueueConservation.offer_accepted hok]
        simp only [List.length_append, List.length_singleton]
        omega
      · rw [QueueConservation.offer_refused (Bool.not_eq_true _ ▸ hok)]
        exact h
  | get oid sig queue r hqueue _ hr =>
      rw [hqueue, List.length_cons] at h
      simp only [List.countP_append, List.countP_singleton, running_iff.mpr hr, if_true]
      omega
  | keep => exact h
  | goOn e r' _ hk hr _ hr' =>
      rw [countP_keep hk ((running_iff.mpr hr').trans (running_iff.mpr hr).symm)]
      exact h
  | ended e r' _ hk hr _ hr' =>
      have hcount := countP_set hk running r'
      rw [running_iff.mpr hr, Bool.eq_false_iff.mpr fun hrun => hr' (running_iff.mp hrun)] at hcount
      simp only [Bool.toNat_true, Bool.toNat_false] at hcount
      simp only [leave]
      omega

/-- A worker leaves its run for the queue, unless it was cancelled. -/
theorem settle_idle {s : World} (h : s.ingest.unfinished ≠ 0) (k : Nat) (r : Run) :
    (settle s k r).idle + (running r).toNat + (decide (r.status = .cancelled)).toNat = s.idle + 1 := by
  unfold settle release taskDone
  cases hr : r.status <;> simp [running, hr, h]

theorem staff_step (h : s.ingest.unfinished = s.ingest.queue.length + s.runs.countP running)
    (hs : step cfg s e = some t) :
    t.idle + t.runs.countP running + (dismisses e).toNat = s.idle + s.runs.countP running := by
  have hsettle {u : World} {k : Nat} {r b : Run} (hk : s.runs[k]? = some r)
      (hr : r.status = .running) (hruns : u.runs = s.runs) (hidle : u.idle = s.idle)
      (hunfinished : u.ingest.unfinished = s.ingest.unfinished) :
      (settle u k b).idle + (settle u k b).runs.countP running +
        (decide (b.status = .cancelled)).toNat = s.idle + s.runs.countP running := by
    have hcount := countP_set hk running b
    have hpos := countP_le_of_slot hk running
    rw [running_iff.mpr hr, Bool.toNat_true] at hcount hpos
    have hleft := settle_idle (s := u) (by omega) k b
    rw [(settle_eq u k b).2.1, hruns]
    omega
  cases step_taken hs with
  | get oid sig queue _ hidle _ =>
      have hpos := Nat.pos_of_ne_zero hidle
      have hnew : running { sig, rawDoc := Workers.rawDoc sig oid s.clock } = true := rfl
      simp only [dismisses, List.countP_append, List.countP_singleton, hnew, if_true,
        Bool.toNat_false]
      omega
  | cancelIdle hidle =>
      have hpos := Nat.pos_of_ne_zero hidle
      simp only [dismisses, Bool.toNat_true]
      omega
  | @run k r o hk hr _ =>
      have hnot : decide ((r.attempt o s.clock s.stores).2.status = .cancelled) = false := by
        rcases attempt_status r o s.clock s.stores with hstatus | ⟨e, hstatus⟩ <;>
          simp [hstatus, hr]
      have := hsettle (u := { s with stores := (r.attempt o s.clock s.stores).1 })
        (b := (r.attempt o s.clock s.stores).2) hk hr rfl rfl rfl
      rw [hnot] at this
      exact this
  | @finish k r w hk hr _ =>
      exact hsettle (b := { r with status := .returned })
        (u := { s with ingest := { s.ingest with processed := s.ingest.processed + 1 } })
        hk hr rfl rfl rfl
  | @cancelRun k r hk hr =>
      exact hsettle (b := { r with status := .cancelled }) (u := s) hk hr rfl rfl rfl
  | offer | getTimeout | request | abortRequest | call | expire | burnWorkItemId | burnRcaId
  | setClock => rfl

theorem exists_fresh (ids : List String) : ∃ oid, oid ∉ ids := by
  have hinj : Function.Injective Library.Text.str := fun v w h => by
    have := congrArg Library.Text.int h
    rw [Library.Text.int_str, Library.Text.int_str] at this
    exact Option.some.inj this
  have : Infinite String := Infinite.of_injective _ hinj
  obtain ⟨oid, hoid⟩ := Infinite.exists_notMem_finset ids.toFinset
  exact ⟨oid, fun h => hoid (List.mem_toFinset.mpr h)⟩

def Stuck (cfg : Settings) (s : World) : Prop := ∀ e, isWork e = true → step cfg s e = none

theorem stuck_queue (h : Stuck cfg s) (hidle : s.idle ≠ 0) : s.ingest.queue = [] := by
  cases hqueue : s.ingest.queue with
  | nil => rfl
  | cons sig queue =>
      obtain ⟨oid, hoid⟩ := exists_fresh (s.runs.map Run.mongoId)
      have hget := h (.get oid) rfl
      simp only [step, hqueue, if_neg (not_or.mpr ⟨hidle, hoid⟩)] at hget
      cases hget

theorem stuck_runs (h : Stuck cfg s) : ∀ r ∈ s.runs, r.status ≠ .running := by
  intro r hr hrun
  obtain ⟨k, hk⟩ := List.mem_iff_getElem?.mp hr
  have hstep := h (.run k .ok) rfl
  simp only [step, hk, Option.bind_eq_bind, Option.bind_some, hrun, if_true] at hstep
  unfold stepRun at hstep
  split at hstep
  · cases hstep
  · next hne => exact (hne rfl).elim
  · cases hstep

structure Drains (cfg : Settings) (n : Nat) (es : List Event) (s : World) : Prop where
  staffed : s.idle + s.runs.countP running + es.countP dismisses = n
  bounded : es.countP isWork + workLeft s ≤ perSignal * s.ingest.accepted
  drained : es.countP dismisses < n → Stuck cfg s →
    s.ingest.queue = [] ∧ (∀ r ∈ s.runs, r.status ≠ .running) ∧
      s.ingest.accepted = s.ingest.processed + s.runs.countP gaveUp

theorem accounted_trace {ok : World → Event → Prop} {n : Nat} {es : List Event}
    (h : Trace (step cfg) ok (init n) es s) :
    s.ingest.accepted = s.runs.length + s.ingest.queue.length ∧
      s.ingest.processed = s.runs.countP returned := by
  refine h.invariant (fun s => s.ingest.accepted = s.runs.length + s.ingest.queue.length ∧
    s.ingest.processed = s.runs.countP returned) ⟨rfl, rfl⟩ ?_
  rintro s e t ⟨haccepted, hprocessed⟩ _ hs
  obtain ⟨hqueue, haccepted', hprocessed'⟩ := step_ingest hs
  have hlen := congrArg List.length hqueue
  simp only [List.length_append, List.length_map] at hlen
  omega

theorem length_of_ended {runs : List Run} (h : ∀ r ∈ runs, r.status ≠ .running) :
    runs.length = runs.countP returned + runs.countP gaveUp := by
  rw [List.length_eq_countP_add_countP returned]
  congr 1
  refine List.countP_congr fun r hr => ?_
  have hnot : running r = false := Bool.eq_false_iff.mpr fun hrun => h r hr (running_iff.mp hrun)
  simp [gaveUp, hnot]

theorem staff_trace {ok : World → Event → Prop} {n : Nat} {es : List Event}
    (h : Trace (step cfg) ok (init n) es s) :
    s.idle + s.runs.countP running + es.countP dismisses = n := by
  refine (h.invariant_past (fun es s =>
    s.ingest.unfinished = s.ingest.queue.length + s.runs.countP running ∧
      s.idle + s.runs.countP running + es.countP dismisses = n) ⟨rfl, rfl⟩ ?_).2
  rintro es s e t _ ⟨hunfinished, hsum⟩ _ hs
  have hstep := staff_step hunfinished hs
  refine ⟨unfinished_step hunfinished hs, ?_⟩
  rw [List.countP_append, List.countP_singleton]
  cases he : dismisses e <;> simp only [he, Bool.toNat_true, Bool.toNat_false] at hstep ⊢ <;>
    simp only [if_true, Bool.false_eq_true, if_false] <;> omega

theorem work_trace {ok : World → Event → Prop} {n : Nat} {es : List Event}
    (h : Trace (step cfg) ok (init n) es s) :
    es.countP isWork + workLeft s ≤ perSignal * s.ingest.accepted := by
  refine (h.invariant_past (fun es s => (∀ r ∈ s.runs, Fits r) ∧
    es.countP isWork + workLeft s ≤ perSignal * s.ingest.accepted)
    ⟨fun r hr => absurd hr List.not_mem_nil, le_refl _⟩ ?_).2
  rintro es s e t _ ⟨hfits, hle⟩ _ hs
  obtain ⟨hfits', hstep⟩ := work_step hfits hs
  have haccepted := (step_ingest hs).2.1
  refine ⟨hfits', ?_⟩
  rw [List.countP_append, List.countP_singleton, haccepted, Nat.mul_add]
  cases he : isWork e <;> simp only [he, Bool.toNat_true, Bool.toNat_false] at hstep ⊢ <;>
    simp only [if_true, Bool.false_eq_true, if_false] <;> omega

/-- However the operations end and the events interleave, no worker is lost
without a cancellation, the retries of every signal come to an end, and when no
worker can take a step the queue is empty and every signal processed or given up. -/
theorem workers_drain {ok : World → Event → Prop} {n : Nat} {es : List Event}
    (h : Trace (step cfg) ok (init n) es s) : Drains cfg n es s := by
  have hstaff := staff_trace h
  refine ⟨hstaff, work_trace h, fun hleft hstuck => ?_⟩
  have hended := stuck_runs hstuck
  have hnone : s.runs.countP running = 0 :=
    List.countP_eq_zero.mpr fun r hr hrun => hended r hr (running_iff.mp hrun)
  have hqueue := stuck_queue hstuck (by omega)
  obtain ⟨haccepted, hprocessed⟩ := accounted_trace h
  have hlen := length_of_ended hended
  rw [hqueue, List.length_nil] at haccepted
  exact ⟨hqueue, hended, by omega⟩

def threeEnds : List Event :=
  List.replicate 3 (.offer (errorSignal "db")) ++ [.get "a", .run 0 (.fail .storeError)] ++
    runOn 0 10 ++ [.get "b", .run 1 .ok, .run 1 (.fail .storeError), .get "c", .cancelRun 2]

theorem workers_drain_three_ends : ∃ s, s.idle = 1 ∧ workLeft s = 0 ∧
    Drains {} 2 threeEnds s := by
  obtain ⟨s, hs, hp⟩ := trace_of_replay (step {}) (fun _ _ => True) (init 2) threeEnds
    (fun s => decide (s.idle = 1 ∧ workLeft s = 0)) (by decide +kernel)
  obtain ⟨hidle, hleft⟩ := of_decide_eq_true hp
  exact ⟨s, hidle, hleft, workers_drain hs⟩

end Ims.Draining
