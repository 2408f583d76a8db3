import Ims.Draining
import Mathlib.Algebra.BigOperators.Intervals

namespace Ims.Backoff

open Library.Retrying Library.Runs Library.Slots Models Retry Ingestion Service WorkerSteps ServiceSteps
  RetryLoops Draining
open QueueConservation (running)
open Workers (Stores Run Pc Outcome)
open IncidentsApi (Request)

/-- The sleep of retry_async between two calls, in milliseconds: delay=0.1, and
backoff=2.0 after each. -/
def retryDelay (attempt : Nat) : Nat := 100 * 2 ^ attempt

/-- wait_exponential(multiplier=0.1, min=0.1, max=2.0) after this attempt. -/
def waitExponential (attemptNumber : Nat) : Nat := max 100 (min (100 * 2 ^ (attemptNumber - 1)) 2000)

theorem sum_from {f : Nat → Nat} {i n : Nat} (h : i < n) :
    f i + (Finset.Ico (i + 1) n).sum f = (Finset.Ico i n).sum f :=
  (Finset.sum_eq_sum_Ico_succ_bot h f).symm

def retryWaits : Waits (retryCalls retries) where
  wait _ attempt := retryDelay attempt
  left attempt := (Finset.Ico attempt (retries - 1)).sum retryDelay
  pays h := by
    obtain ⟨hlt, rfl⟩ := retryAsync_some h
    exact (sum_from (Nat.lt_sub_of_add_lt hlt)).le

def tenacityWaits : Waits asyncRetrying where
  wait _ inner := waitExponential (inner + 1)
  left inner := (Finset.Ico inner (stopAfterAttempt - 1)).sum fun i => waitExponential (i + 1)
  pays h := by
    obtain ⟨_, hlt, rfl⟩ := retryPolicy_some h
    exact (sum_from (f := fun i => waitExponential (i + 1)) (Nat.lt_sub_of_add_lt hlt)).le

def nestedWaits : Waits ((retryCalls retries).nest asyncRetrying 0) :=
  retryWaits.nest tenacityWaits 0 (fun attempt => retries - 1 - attempt) fun h => by
    obtain ⟨hlt, rfl⟩ := retryAsync_some h
    omega

def plainSleep (b : Budget) : Nat := if b.plain.isSome then retryDelay b.attempt else 0

def nestedSleep (e : Exc) (b : Budget) : Nat :=
  if (retryPolicy e b.inner).isSome then waitExponential (b.inner + 1) else plainSleep b

def sleepAfter (r : Run) (e : Exc) : Nat :=
  match r.pc with
  | .insertSignal | .pushLiveFeed _ => plainSleep r.budget
  | .create _ | .increment _ | .addLink _ | .upsertMetric _ => nestedSleep e r.budget
  | .claim | .publish _ _ | .dispatch _ | .getOpenWorkItem | .backfill _ | .finish _ => 0

def sleepOf (r : Run) (o : Outcome) (now : Int) (st : Stores) : Nat :=
  match o with
  | .ok => match (r.perform now st).2 with
    | .ok _ => 0
    | .error e => sleepAfter r e
  | .fail e | .lost e => sleepAfter r e

def slept (counts : Pc → Bool) (k : Nat) (s : World) (e : Event) (_ : World) : Nat :=
  match e with
  | .run j o => if j = k then (s.runs[j]?).elim 0 fun r =>
      if counts r.pc then sleepOf r o s.clock s.stores else 0 else 0
  | _ => 0

def sleepsHere (pc : Pc) (b : Budget) : Nat :=
  match pc with
  | .insertSignal | .pushLiveFeed _ => retryWaits.left b.attempt
  | .create _ | .increment _ | .addLink _ | .upsertMetric _ => nestedWaits.left (b.attempt, b.inner)
  | .claim | .publish _ _ | .dispatch _ | .getOpenWorkItem | .backfill _ | .finish _ => 0

structure Places where
  counts : Pc → Bool
  ahead : Pc → Nat
  follows : ∀ {pc pc'}, Follows pc pc' →
    (if counts pc' then sleepsHere pc' {} else 0) + ahead pc' ≤ ahead pc

def Places.left (v : Places) (r : Run) : Nat :=
  if running r then (if v.counts r.pc then sleepsHere r.pc r.budget else 0) + v.ahead r.pc else 0

theorem plain_pays (b : Budget) :
    plainSleep b + (b.plain.elim 0 fun b' => retryWaits.left b'.attempt) ≤ retryWaits.left b.attempt := by
  cases hb : b.plain with
  | none =>
      rw [plainSleep, hb]
      exact Nat.zero_le _
  | some b' =>
      obtain ⟨attempt, hattempt, rfl⟩ := Option.map_eq_some_iff.mp hb
      rw [plainSleep, hb]
      exact retryWaits.pays (e := .storeError) hattempt

theorem plainSleep_le (b : Budget) : plainSleep b ≤ retryDelay b.attempt := by
  unfold plainSleep
  split <;> omega

theorem nestedSleep_le (e : Exc) (b : Budget) :
    nestedSleep e b ≤ nestedWaits.wait e (b.attempt, b.inner) := by
  change (if (retryPolicy e b.inner).isSome then waitExponential (b.inner + 1) else plainSleep b) ≤
    if (retryPolicy e b.inner).isSome then waitExponential (b.inner + 1) else retryDelay b.attempt
  split
  · exact Nat.le_refl _
  · exact plainSleep_le b

theorem nested_pays (e : Exc) (b : Budget) :
    nestedSleep e b + ((b.nested e).elim 0 fun b' => nestedWaits.left (b'.attempt, b'.inner)) ≤
      nestedWaits.left (b.attempt, b.inner) := by
  cases hb : b.nested e with
  | none =>
      have hpolicy : retryPolicy e b.inner = none ∧ b.plain = none := by
        unfold Budget.nested at hb
        split at hb
        · cases hb
        · next h => exact ⟨h, hb⟩
      rw [nestedSleep, plainSleep, hpolicy.1, hpolicy.2]
      exact Nat.zero_le _
  | some b' =>
      rw [nested_eq] at hb
      obtain ⟨c, hc, rfl⟩ := Option.map_eq_some_iff.mp hb
      exact (Nat.add_le_add_right (nestedSleep_le e b) _).trans (nestedWaits.pays hc)

variable (v : Places) {r : Run}

theorem left_goOn {pc : Pc} (hr : running r = true) (h : Follows r.pc pc) :
    v.left (r.goOn pc) ≤ v.ahead r.pc := by
  have hrun : running (r.goOn pc) = true := hr
  rw [Places.left, if_pos hrun]
  exact v.follows h

theorem left_running (hr : running r = true) :
    v.left r = (if v.counts r.pc then sleepsHere r.pc r.budget else 0) + v.ahead r.pc := if_pos hr

theorem left_ended (hr : running r = false) : v.left r = 0 :=
  if_neg (by rw [hr]; exact Bool.false_ne_true)

/-- The loop at a place pays for its sleep from what it may still sleep. -/
theorem left_retryOr (e : Exc) (b : Option Budget) (sleep : Nat) (hr : running r = true)
    (h : sleep + (b.elim 0 (sleepsHere r.pc)) ≤ sleepsHere r.pc r.budget) :
    (if v.counts r.pc then sleep else 0) + v.left (r.retryOr e b) ≤ v.left r := by
  rw [left_running v hr]
  cases b with
  | none =>
      have hended : running (r.retryOr e none) = false := rfl
      rw [left_ended v hended]
      split <;> simp only [Option.elim_none] at h <;> omega
  | some b' =>
      have hrun : running (r.retryOr e (some b')) = true := hr
      rw [left_running v hrun]
      change _ + ((if v.counts r.pc then sleepsHere r.pc b' else 0) + v.ahead r.pc) ≤ _
      split <;> simp only [Option.elim_some] at h <;> omega

theorem handle_left (e : Exc) (hr : running r = true) :
    (if v.counts r.pc then sleepAfter r e else 0) + v.left (r.handle e) ≤ v.left r := by
  cases hp : r.pc with
  | insertSignal | pushLiveFeed =>
      simp only [Run.handle, sleepAfter, hp]
      have h := left_retryOr v e r.budget.plain (plainSleep r.budget) hr
      simp only [hp] at h
      exact h (plain_pays r.budget)
  | create | increment | addLink | upsertMetric =>
      simp only [Run.handle, sleepAfter, hp]
      have h := left_retryOr v e (r.budget.nested e) (nestedSleep e r.budget) hr
      simp only [hp] at h
      exact h (nested_pays e r.budget)
  | claim | publish | getOpenWorkItem | finish =>
      have hended : running { r with status := .raised e } = false := rfl
      simp only [Run.handle, sleepAfter, hp, ite_self, Nat.zero_add]
      rw [← hp, left_ended v hended]
      exact Nat.zero_le _
  | dispatch w =>
      simp only [Run.handle, sleepAfter, hp, ite_self, Nat.zero_add]
      have hfollows : Follows r.pc (.addLink w) := hp ▸ .dispatched w
      have h := left_goOn v hr hfollows
      rw [left_running v hr]
      omega
  | backfill w =>
      simp only [Run.handle, sleepAfter, hp, ite_self, Nat.zero_add]
      have hfollows : Follows r.pc (.upsertMetric w) := hp ▸ .backfilled w
      have h := left_goOn v hr hfollows
      rw [left_running v hr]
      omega

theorem attempt_left (o : Outcome) (now : Int) (st : Stores) (hr : running r = true)
    (hpc : ∀ w, r.pc ≠ .finish w) :
    (if v.counts r.pc then sleepOf r o now st else 0) + v.left (r.attempt o now st).2 ≤ v.left r := by
  cases o with
  | ok =>
      simp only [Run.attempt, sleepOf]
      cases hreply : (r.perform now st).2 with
      | error e => exact handle_left v e hr
      | ok pc =>
          have h := left_goOn v hr (perform_follows hreply hpc)
          simp only [Run.resume, ite_self, Nat.zero_add]
          rw [left_running v hr]
          omega
  | fail e => exact handle_left v e hr
  | lost e => exact handle_left v e hr

def Places.total : Nat :=
  (if v.counts .insertSignal then sleepsHere .insertSignal {} else 0) + v.ahead .insertSignal

def leftOf (k : Nat) (s : World) : Nat := (s.runs[k]?).elim v.total v.left

variable {cfg : Settings} {s t : World} {e : Event} {n k : Nat} {es : List Event}

theorem leftOf_step (hs : step cfg s e = some t) :
    leftOf v k t + slept v.counts k s e t ≤ leftOf v k s := by
  have hmove := step_move hs
  unfold leftOf
  generalize t.stores = st, t.runs = runs, t.requests = requests at hmove ⊢
  cases hmove with
  | @run j r o hj hr hpc =>
      have hpays := attempt_left v o s.clock s.stores (running_iff.mpr hr) hpc
      rw [Nat.add_comm] at hpays
      simp only [slept, hj, Option.elim_some]
      exact elim_set_add_le hj hpays k
  | @finish j r w hj hr hpc =>
      have hzero : slept v.counts k s (.run j .ok) t = 0 := by
        simp [slept, hj, sleepOf, Run.perform, hpc]
      rw [hzero]
      have hended : v.left { r with status := .returned } + 0 ≤ v.left r := Nat.zero_le _
      exact (Nat.le_add_right _ _).trans (elim_set_add_le hj hended k)
  | @cancelRun j r hj hr =>
      have hended : v.left { r with status := .cancelled } + 0 ≤ v.left r := Nat.zero_le _
      exact (Nat.le_add_right _ _).trans (elim_set_add_le hj hended k)
  | get oid sig _ =>
      have hnew : v.left { sig, rawDoc := Workers.rawDoc sig oid s.clock } ≤ v.total := Nat.le_refl _
      exact elim_push_le hnew k
  | quiet e he =>
      cases e with
      | run => cases he
      | _ => exact Nat.le_refl _
  | request | abortRequest | call | expire | burnWorkItemId | burnRcaId => exact Nat.le_refl _

theorem slept_le {ok : World → Event → Prop} (h : Trace (step cfg) ok (init n) es s) (k : Nat) :
    tally (step cfg) (slept v.counts k) (init n) es ≤ v.total :=
  (Nat.le_add_left _ _).trans
    (h.tally_add_le (slept v.counts k) (leftOf v k) fun _ _ _ _ hs => leftOf_step v hs)

theorem retryWaits_left : retryWaits.left 0 = 300 := by decide

theorem nestedWaits_left : nestedWaits.left (0, 0) = 4800 := by decide

/-- 300 for a loop of retry_async, and 4800 for one around Postgres. -/
def freshSleep : Pc → Nat
  | .insertSignal | .pushLiveFeed _ => 300
  | .create _ | .increment _ | .addLink _ | .upsertMetric _ => 4800
  | .claim | .publish _ _ | .dispatch _ | .getOpenWorkItem | .backfill _ | .finish _ => 0

theorem sleepsHere_fresh (pc : Pc) : sleepsHere pc {} = freshSleep pc := by
  cases pc with
  | insertSignal | pushLiveFeed => exact retryWaits_left
  | create | increment | addLink | upsertMetric => exact nestedWaits_left
  | claim | publish | dispatch | getOpenWorkItem | backfill | finish => rfl

def everywhere : Places where
  counts _ := true
  ahead
    | .insertSignal => 14700
    | .claim => 14700
    | .create true => 9900
    | .publish true _ => 9900
    | .pushLiveFeed _ => 9600
    | .dispatch _ => 9600
    | .getOpenWorkItem => 14400
    | .create false => 9600
    | .publish false _ => 9600
    | .increment _ => 9600
    | .addLink _ => 4800
    | .backfill _ => 4800
    | .upsertMetric _ => 0
    | .finish _ => 0
  follows h := by
    rw [sleepsHere_fresh]
    cases h with
    | created won w => cases won <;> simp [freshSleep]
    | _ => simp [freshSleep]

def holdingClaim : Places where
  counts
    | .create won => won
    | _ => false
  ahead
    | .insertSignal | .claim => 4800
    | _ => 0
  follows h := by
    rw [sleepsHere_fresh]
    cases h with
    | created won w => cases won <;> simp
    | _ => simp [freshSleep]

theorem total_everywhere : everywhere.total = 15000 := by
  rw [Places.total, sleepsHere_fresh]
  rfl

theorem total_holdingClaim : holdingClaim.total = 4800 := by
  rw [Places.total, sleepsHere_fresh]
  rfl

def pauseAfter (q : Request) (e : Exc) : Nat :=
  match q.pc with
  | .updateState .. | .selectRca .. | .flushRca .. =>
      if (retryPolicy e q.attempts).isSome then waitExponential (q.attempts + 1) else 0
  | .transitionItem .. | .transitionRca .. | .feedMembers .. | .zremMember .. | .clearDedup ..
  | .fresh .. | .submitItem .. | .incidentItem .. | .incidentRca .. => 0

def pauseOf (q : Request) (o : Outcome) (now : Int) (st : Stores) : Nat :=
  match o with
  | .ok => match (q.perform now st).2 with
    | .ok _ => 0
    | .error e => pauseAfter q e
  | .fail e | .lost e => pauseAfter q e

def paused (k : Nat) (s : World) (e : Event) (_ : World) : Nat :=
  match e with
  | .request j o => if j = k then (s.requests[j]?).elim 0 fun q => pauseOf q o s.clock s.stores else 0
  | _ => 0

/-- The attempts of a handler are counted in one loop, from its first to its last await. -/
def pausesLeft (q : Request) : Nat :=
  match q.status with
  | .running => tenacityWaits.left q.attempts
  | .responded _ | .raised _ | .aborted => 0

theorem pausesLeft_le (q : Request) : pausesLeft q ≤ tenacityWaits.left q.attempts := by
  unfold pausesLeft
  split
  · exact Nat.le_refl _
  · exact Nat.zero_le _
  · exact Nat.zero_le _
  · exact Nat.zero_le _

theorem goOn_pauses (q : Request) (next : IncidentsApi.Next) :
    pausesLeft (q.goOn next) ≤ tenacityWaits.left q.attempts := by
  cases next <;> exact pausesLeft_le _

theorem handle_pauses (q : Request) (e : Exc) :
    pausesLeft (q.handle e) + pauseAfter q e ≤ tenacityWaits.left q.attempts := by
  have hretry (pc : IncidentsApi.Pc) : pausesLeft (q.retryOr e pc) +
      (if (retryPolicy e q.attempts).isSome then waitExponential (q.attempts + 1) else 0) ≤
        tenacityWaits.left q.attempts := by
    unfold Request.retryOr
    cases hpolicy : retryPolicy e q.attempts with
    | none => exact Nat.zero_le _
    | some attempts =>
        have hpays := tenacityWaits.pays hpolicy
        have hle : pausesLeft { q with pc, attempts } ≤ tenacityWaits.left attempts := pausesLeft_le _
        simp only [Option.isSome_some, if_true]
        change waitExponential (q.attempts + 1) + _ ≤ _ at hpays
        omega
  cases hpc : q.pc with
  | updateState | selectRca | flushRca =>
      simp only [Request.handle, pauseAfter, hpc]
      exact hretry _
  | feedMembers | zremMember | clearDedup =>
      simp only [Request.handle, pauseAfter, hpc]
      exact goOn_pauses q _
  | transitionItem | transitionRca | fresh | submitItem | incidentItem | incidentRca =>
      simp only [Request.handle, pauseAfter, hpc]
      exact Nat.zero_le _

theorem attempt_pauses (q : Request) (o : Outcome) (now : Int) (st : Stores) :
    pausesLeft (q.attempt o now st).2 + pauseOf q o now st ≤ tenacityWaits.left q.attempts := by
  cases o with
  | ok =>
      simp only [Request.attempt, pauseOf]
      cases (q.perform now st).2 with
      | error e => exact handle_pauses q e
      | ok next => exact goOn_pauses q next
  | fail e => exact handle_pauses q e
  | lost e => exact handle_pauses q e

def pausesOf (k : Nat) (s : World) : Nat := (s.requests[k]?).elim (tenacityWaits.left 0) pausesLeft

theorem pausesOf_step (hs : step cfg s e = some t) : pausesOf k t + paused k s e t ≤ pausesOf k s := by
  have hmove := step_move hs
  unfold pausesOf
  generalize t.stores = st, t.runs = runs, t.requests = requests at hmove ⊢
  cases hmove with
  | @request j q o hj hq =>
      have hleft : pausesLeft q = tenacityWaits.left q.attempts := by rw [pausesLeft, hq]
      simp only [paused, hj, Option.elim_some]
      exact elim_set_add_le hj (hleft ▸ attempt_pauses q o s.clock s.stores) k
  | @abortRequest j q hj _ =>
      have hended : pausesLeft { q with status := .aborted } + 0 ≤ pausesLeft q := Nat.zero_le _
      exact (Nat.le_add_right _ _).trans (elim_set_add_le hj hended k)
  | call c =>
      have hnew : pausesLeft { pc := c.entry } ≤ tenacityWaits.left 0 := Nat.le_refl _
      exact elim_push_le hnew k
  | quiet e he =>
      cases e with
      | request => cases he
      | _ => exact Nat.le_refl _
  | run | finish | cancelRun | get | expire | burnWorkItemId | burnRcaId => exact Nat.le_refl _

theorem tenacityWaits_left : tenacityWaits.left 0 = 1500 := by decide

theorem paused_le {ok : World → Event → Prop} (h : Trace (step cfg) ok (init n) es s) (k : Nat) :
    tally (step cfg) (paused k) (init n) es ≤ 1500 :=
  tenacityWaits_left ▸ (Nat.le_add_left _ _).trans
    (h.tally_add_le (paused k) (pausesOf k) fun _ _ _ _ hs => pausesOf_step hs)

structure Bounded (cfg : Settings) (n : Nat) (es : List Event) (k : Nat) : Prop where
  run : tally (step cfg) (slept everywhere.counts k) (init n) es ≤ 15000
  claim : tally (step cfg) (slept holdingClaim.counts k) (init n) es ≤ 4800
  request : tally (step cfg) (paused k) (init n) es ≤ 1500

/-- However the operations fail, a run sleeps 15 seconds at most, and 4.8 of
them while it holds a claim that it has not yet published; a request sleeps 1.5. -/
theorem backoff_bounded {ok : World → Event → Prop} (h : Trace (step cfg) ok (init n) es s) (k : Nat) :
    Bounded cfg n es k :=
  ⟨total_everywhere ▸ slept_le everywhere h k, total_holdingClaim ▸ slept_le holdingClaim h k,
    paused_le h k⟩

def lastAttempts : List Event :=
  let failing (e : Outcome → Event) (n : Nat) : List Event :=
    List.replicate n (e (.fail .operationalError)) ++ [e .ok]
  [.offer (errorSignal "db"), .get "a"] ++ failing (.run 0) 2 ++ [.run 0 .ok] ++ failing (.run 0) 14 ++
    [.run 0 .ok] ++ failing (.run 0) 2 ++ [.run 0 .ok] ++ failing (.run 0) 14 ++ [.run 0 .ok] ++
    failing (.run 0) 14 ++ [.run 0 .ok, .call (.transitionIncident 1 .INVESTIGATING)] ++ requestOn 0 2 ++
    failing (.request 0) 4 ++ [.request 0 .ok]

theorem backoff_bounded_last_attempts :
    tally (step {}) (slept everywhere.counts 0) (init 1) lastAttempts = 15000 ∧
      tally (step {}) (slept holdingClaim.counts 0) (init 1) lastAttempts = 4800 ∧
        tally (step {}) (paused 0) (init 1) lastAttempts = 1500 ∧ Bounded {} 1 lastAttempts 0 := by
  obtain ⟨s, hs, _⟩ := trace_of_replay (step {}) (fun _ _ => True) (init 1) lastAttempts
    (fun s => decide (s.stores.postgres.workItems.map WorkItem.state = [.INVESTIGATING]))
    (by decide +kernel)
  exact ⟨by decide +kernel, by decide +kernel, by decide +kernel, backoff_bounded hs 0⟩

end Ims.Backoff
