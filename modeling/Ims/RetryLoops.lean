import Ims.Library.Retrying
import Ims.Retries

namespace Ims.RetryLoops

open Library.Retrying Models Retry Retries
open Workers (Stores Run Pc Outcome)

variable {α σ : Type}

inductive AttemptOutcome
  | success
  | failure (e : Exc)
  deriving DecidableEq, Repr

structure Session (σ : Type) where
  store : σ
  made : Nat := 0
  deriving DecidableEq, Repr

/-- One attempt at an operation: a session that is left by an exception is
rolled back, and the exception raised again. -/
def sessionScope (outcomes : Nat → AttemptOutcome) (op : σ → α × σ) (s : Session σ) :
    Except Exc α × Session σ :=
  match outcomes s.made with
  | .success => (.ok (op s.store).1, { store := (op s.store).2, made := s.made + 1 })
  | .failure e => (.error e, { s with made := s.made + 1 })

theorem retryPolicy_some {e : Exc} {inner inner' : Nat} (h : retryPolicy e inner = some inner') :
    e = .operationalError ∧ inner + 1 < 5 ∧ inner' = inner + 1 := by
  unfold retryPolicy at h
  split at h
  · rename_i hgo
    cases h
    exact ⟨hgo.1, hgo.2, rfl⟩
  · cases h

theorem retryPolicy_none {e : Exc} {inner : Nat} (h : retryPolicy e inner = none)
    (he : e = .operationalError) : 5 ≤ inner + 1 := by
  unfold retryPolicy at h
  split at h
  · cases h
  · rename_i hstop
    exact Nat.le_of_not_lt fun hlt => hstop ⟨he, hlt⟩

theorem retryAsync_some {retries attempt attempt' : Nat}
    (h : retryAsync retries attempt = some attempt') :
    attempt + 1 < retries ∧ attempt' = attempt + 1 := by
  unfold retryAsync at h
  split at h
  · cases h
  · rename_i hgo
    cases h
    exact ⟨Nat.lt_of_not_le hgo, rfl⟩

theorem retryAsync_none {retries attempt : Nat} (h : retryAsync retries attempt = none) :
    retries ≤ attempt + 1 := by
  unfold retryAsync at h
  split at h
  · assumption
  · cases h

def asyncRetrying : Policy Exc Nat where
  next := retryPolicy
  rank inner := stopAfterAttempt - inner
  next_lt h := by
    obtain ⟨_, hlt, rfl⟩ := retryPolicy_some h
    exact Nat.sub_lt_sub_left (Nat.lt_of_succ_lt hlt) (Nat.lt_succ_self _)

def retryCalls (retries : Nat) : Policy Exc Nat where
  next _ := retryAsync retries
  rank attempt := retries - attempt
  next_lt h := by
    obtain ⟨hlt, rfl⟩ := retryAsync_some h
    exact Nat.sub_lt_sub_left (Nat.lt_of_succ_lt hlt) (Nat.lt_succ_self _)

def wrapped (outcomes : Nat → AttemptOutcome) (op : σ → α × σ) (s : Session σ) :
    Except Exc α × Session σ :=
  asyncRetrying.persist (sessionScope outcomes op) 0 s

def retryAsyncLoop (outcomes : Nat → AttemptOutcome) (op : σ → α × σ) (retries : Nat) (store : σ) :
    Except Exc α × Session σ :=
  (retryCalls retries).persist (wrapped outcomes op) 0 { store }

variable (outcomes : Nat → AttemptOutcome) (op : σ → α × σ)

def Operational (i j : Nat) : Prop :=
  ∀ k, i ≤ k → k < j → outcomes k = .failure .operationalError

/-- The call that begins with attempt i fails, and attempt j is the next one:
it ends at its first other exception or at its fifth OperationalError in a row. -/
inductive CallFails (i : Nat) : Nat → Prop
  | other {j e} (hij : i ≤ j) (hj : j < i + 5) (hop : Operational outcomes i j)
      (hfail : outcomes j = .failure e) (he : e ≠ .operationalError) : CallFails i (j + 1)
  | fifth (hop : Operational outcomes i (i + 5)) : CallFails i (i + 5)

inductive CallsFail : Nat → Nat → Prop
  | start : CallsFail 0 0
  | next {n i j} (h : CallsFail n i) (hcall : CallFails outcomes i j) : CallsFail (n + 1) j

structure CallSucceeds (i j : Nat) : Prop where
  from_first : i ≤ j
  in_time : j < i + 5
  before : Operational outcomes i j
  success : outcomes j = .success

def SucceedsInTime (retries : Nat) : Prop :=
  ∃ i, outcomes i = .success ∧ ∀ j ≤ i, ¬ CallsFail outcomes retries j

variable {outcomes op}

theorem Operational.cons {i j : Nat} (hi : outcomes i = .failure .operationalError)
    (h : Operational outcomes (i + 1) j) : Operational outcomes i j := by
  intro k hik hkj
  rcases Nat.eq_or_lt_of_le hik with rfl | hlt
  · exact hi
  · exact h k hlt hkj

theorem sessionScope_ok {s t : Session σ} {a : α} (h : sessionScope outcomes op s = (.ok a, t)) :
    outcomes s.made = .success ∧ op s.store = (a, t.store) ∧ t.made = s.made + 1 := by
  unfold sessionScope at h
  split at h
  · rename_i hs
    cases h
    exact ⟨hs, rfl, rfl⟩
  · cases h

theorem sessionScope_error {s t : Session σ} {e : Exc}
    (h : sessionScope outcomes op s = (.error e, t)) :
    outcomes s.made = .failure e ∧ t = { s with made := s.made + 1 } := by
  unfold sessionScope at h
  split at h
  · cases h
  · rename_i hs
    cases h
    exact ⟨hs, rfl⟩

/-- How a call ends that has this many of its attempts behind it: j is its last one. -/
def CallEnds (outcomes : Nat → AttemptOutcome) (op : σ → α × σ) (inner : Nat) (s : Session σ)
    (r : Except Exc α × Session σ) : Prop :=
  ∃ j, s.made ≤ j ∧ j + inner < s.made + 5 ∧ Operational outcomes s.made j ∧ r.2.made = j + 1 ∧
    match r.1 with
    | .ok a => outcomes j = .success ∧ op s.store = (a, r.2.store)
    | .error e => outcomes j = .failure e ∧ r.2.store = s.store ∧
        (e = .operationalError → j + inner + 1 = s.made + 5)

theorem asyncRetrying_ends (outcomes : Nat → AttemptOutcome) (op : σ → α × σ) (inner : Nat)
    (s : Session σ) :
    inner < 5 → CallEnds outcomes op inner s
      (asyncRetrying.persist (sessionScope outcomes op) inner s) := by
  refine persist_induction _ _ (motive := fun inner s r =>
    inner < 5 → CallEnds outcomes op inner s r) ?_ ?_ ?_ inner s
  · intro inner s a t h hinner
    obtain ⟨hs, hop, hmade⟩ := sessionScope_ok h
    exact ⟨s.made, le_refl _, by omega, fun k hik hkj => absurd hkj (by omega), hmade, hs, hop⟩
  · intro inner s e t inner' h hnext ih hinner
    obtain ⟨hs, rfl⟩ := sessionScope_error h
    obtain ⟨rfl, hlt, rfl⟩ := retryPolicy_some hnext
    obtain ⟨j, hle, hj, hop, hmade, hend⟩ := ih hlt
    simp only at hle hj hop hend
    refine ⟨j, by omega, by omega, hop.cons hs, hmade, ?_⟩
    split at hend
    · exact hend
    · obtain ⟨hfail, hstore, hlast⟩ := hend
      exact ⟨hfail, hstore, fun he => by have := hlast he; omega⟩
  · intro inner s e t h hnext hinner
    obtain ⟨hs, rfl⟩ := sessionScope_error h
    refine ⟨s.made, le_refl _, by omega, fun k hik hkj => absurd hkj (by omega), rfl, hs, rfl, ?_⟩
    intro he
    have := retryPolicy_none hnext he
    omega

theorem wrapped_ok {s t : Session σ} {a : α} (h : wrapped outcomes op s = (.ok a, t)) :
    ∃ j, CallSucceeds outcomes s.made j ∧ t.made = j + 1 ∧ op s.store = (a, t.store) := by
  have hends := asyncRetrying_ends outcomes op 0 s (by decide)
  rw [← wrapped, h] at hends
  obtain ⟨j, hle, hj, hop, hmade, hs, hstore⟩ := hends
  exact ⟨j, ⟨hle, hj, hop, hs⟩, hmade, hstore⟩

theorem wrapped_error {s t : Session σ} {e : Exc} (h : wrapped outcomes op s = (.error e, t)) :
    CallFails outcomes s.made t.made ∧ t.store = s.store ∧
      ∃ j, t.made = j + 1 ∧ outcomes j = .failure e := by
  have hends := asyncRetrying_ends outcomes op 0 s (by decide)
  rw [← wrapped, h] at hends
  obtain ⟨j, hle, hj, hop, hmade, hfail, hstore, hlast⟩ := hends
  simp only at hmade hstore
  refine ⟨?_, hstore, j, hmade, hfail⟩
  by_cases he : e = .operationalError
  · have hfive : t.made = s.made + 5 := hmade.trans (hlast he)
    rw [hfive]
    refine .fifth fun k hik hkj => ?_
    rcases Nat.lt_or_ge k j with hlt | hge
    · exact hop k hik hlt
    · rw [show k = j by omega, hfail, he]
  · rw [hmade]
    exact .other hle hj hop hfail he

theorem CallFails.bounds {i j : Nat} (h : CallFails outcomes i j) : i < j ∧ j ≤ i + 5 := by
  cases h <;> omega

theorem CallFails.failures {i j : Nat} (h : CallFails outcomes i j) {k : Nat} (hik : i ≤ k)
    (hkj : k < j) : outcomes k ≠ .success := by
  intro hk
  cases h with
  | @other j e _ _ hop hfail =>
      rcases Nat.eq_or_lt_of_le (Nat.le_of_lt_succ hkj) with rfl | hlt
      · cases hk.symm.trans hfail
      · cases hk.symm.trans (hop k hik hlt)
  | fifth hop => cases hk.symm.trans (hop k hik hkj)

theorem CallsFail.failures {n i : Nat} (h : CallsFail outcomes n i) :
    ∀ k < i, outcomes k ≠ .success := by
  induction h with
  | start => exact fun k hk => absurd hk (Nat.not_lt_zero k)
  | next _ hcall ih =>
      intro k hk
      rcases Nat.lt_or_ge k _ with hlt | hge
      · exact ih k hlt
      · exact hcall.failures hge hk

theorem CallsFail.le {n i : Nat} (h : CallsFail outcomes n i) : i ≤ 5 * n := by
  induction h with
  | start => exact le_refl _
  | next _ hcall ih =>
      have := hcall.bounds
      omega

/-- A call either succeeds or fails, and in one way only. -/
theorem CallFails.unique {i j k : Nat} (h : CallFails outcomes i j) (h' : CallFails outcomes i k) :
    j = k := by
  have hother {j m : Nat} {e : Exc} (hij : i ≤ j) (hjm : j < m) (hop : Operational outcomes i m)
      (hfail : outcomes j = .failure e) : e = .operationalError := by
    cases hfail.symm.trans (hop j hij hjm)
    rfl
  cases h with
  | @other j e hij hj hop hfail he =>
      cases h' with
      | @other k e' hik hk hop' hfail' he' =>
          rcases Nat.lt_trichotomy j k with hlt | rfl | hgt
          · exact absurd (hother hij hlt hop' hfail) he
          · rfl
          · exact absurd (hother hik hgt hop hfail') he'
      | fifth hop' => exact absurd (hother hij hj hop' hfail) he
  | fifth hop =>
      cases h' with
      | @other k e hik hk hop' hfail he => exact absurd (hother hik hk hop hfail) he
      | fifth _ => rfl

theorem CallSucceeds.not_fails {i j k : Nat} (h : CallSucceeds outcomes i j)
    (hfails : CallFails outcomes i k) : j < k := by
  cases hfails with
  | @other k e hik hk hop hfail he =>
      refine Nat.lt_succ_of_le (Nat.le_of_not_lt fun hlt => he ?_)
      cases hfail.symm.trans (h.before k hik hlt)
      rfl
  | fifth _ => exact h.in_time

theorem CallsFail.unique {n i : Nat} (h : CallsFail outcomes n i) :
    ∀ {j}, CallsFail outcomes n j → i = j := by
  induction h with
  | start =>
      intro j h'
      cases h'
      rfl
  | next _ hcall ih =>
      intro j h'
      cases h' with
      | next hn hcall' =>
          obtain rfl := ih hn
          exact hcall.unique hcall'

theorem CallsFail.earlier {m k : Nat} (h : CallsFail outcomes m k) {n i : Nat}
    (hn : CallsFail outcomes n i) (hnm : n < m) : ∃ j, CallFails outcomes i j ∧ j ≤ k := by
  induction h with
  | start => exact absurd hnm (Nat.not_lt_zero n)
  | @next m i' k h hcall ih =>
      rcases Nat.eq_or_lt_of_le (Nat.le_of_lt_succ hnm) with rfl | hlt
      · obtain rfl := h.unique hn
        exact ⟨k, hcall, le_refl _⟩
      · obtain ⟨j, hj, hle⟩ := ih hlt
        exact ⟨j, hj, hle.trans hcall.bounds.1.le⟩

def LoopEnds (outcomes : Nat → AttemptOutcome) (op : σ → α × σ) (retries : Nat) (store : σ)
    (r : Except Exc α × Session σ) : Prop :=
  match r.1 with
  | .ok a => op store = (a, r.2.store) ∧ ∃ n i j, n < retries ∧ CallsFail outcomes n i ∧
      CallSucceeds outcomes i j ∧ r.2.made = j + 1
  | .error e => r.2.store = store ∧ CallsFail outcomes retries r.2.made ∧
      ∃ j, r.2.made = j + 1 ∧ outcomes j = .failure e

theorem retryCalls_ends {retries : Nat} (store : σ) (attempt : Nat) (s : Session σ) :
    attempt < retries → CallsFail outcomes attempt s.made → s.store = store →
      LoopEnds outcomes op retries store
        ((retryCalls retries).persist (wrapped outcomes op) attempt s) := by
  refine persist_induction _ _ (motive := fun attempt s r => attempt < retries →
    CallsFail outcomes attempt s.made → s.store = store → LoopEnds outcomes op retries store r)
    ?_ ?_ ?_ attempt s
  · rintro attempt s a t h hlt hcalls rfl
    obtain ⟨j, hsucceeds, hmade, hop⟩ := wrapped_ok h
    exact ⟨hop, attempt, s.made, j, hlt, hcalls, hsucceeds, hmade⟩
  · rintro attempt s e t attempt' h hnext ih hlt hcalls rfl
    obtain ⟨hfails, hstore, _⟩ := wrapped_error h
    obtain ⟨hgo, rfl⟩ := retryAsync_some hnext
    exact ih hgo (hcalls.next hfails) hstore
  · rintro attempt s e t h hnext hlt hcalls rfl
    obtain ⟨hfails, hstore, hlast⟩ := wrapped_error h
    have hretries : retries = attempt + 1 := Nat.le_antisymm (retryAsync_none hnext) hlt
    rw [hretries]
    exact ⟨hstore, hcalls.next hfails, hlast⟩

theorem succeeds_in_time {retries n i j : Nat} (hn : n < retries) (hcalls : CallsFail outcomes n i)
    (h : CallSucceeds outcomes i j) : SucceedsInTime outcomes retries := by
  refine ⟨j, h.success, fun k hk hall => ?_⟩
  obtain ⟨m, hfails, hm⟩ := hall.earlier hcalls hn
  have := h.not_fails hfails
  omega

theorem not_in_time {retries i : Nat} (h : CallsFail outcomes retries i) :
    ¬ SucceedsInTime outcomes retries := by
  rintro ⟨j, hj, hnone⟩
  rcases Nat.lt_or_ge j i with hlt | hge
  · exact h.failures j hlt hj
  · exact hnone i hge h

structure Exact (outcomes : Nat → AttemptOutcome) (op : σ → α × σ) (retries : Nat) (store : σ)
    (r : Except Exc α × Session σ) : Prop where
  stops : ∀ i, i + 1 < r.2.made → outcomes i ≠ .success
  returns : (∃ a, r.1 = .ok a) ↔ SucceedsInTime outcomes retries
  raises : ∀ e, r.1 = .error e → outcomes (r.2.made - 1) = .failure e
  at_least : 1 ≤ r.2.made
  at_most : r.2.made ≤ 5 * retries
  applied : ∀ a, r.1 = .ok a → op store = (a, r.2.store)
  untouched : ∀ e, r.1 = .error e → r.2.store = store

theorem retry_async_exact (outcomes : Nat → AttemptOutcome) (op : σ → α × σ) {retries : Nat}
    (hretries : 1 ≤ retries) (store : σ) :
    Exact outcomes op retries store (retryAsyncLoop outcomes op retries store) := by
  have hends : LoopEnds outcomes op retries store (retryAsyncLoop outcomes op retries store) :=
    retryCalls_ends store 0 { store } hretries .start rfl
  revert hends
  generalize retryAsyncLoop outcomes op retries store = r
  obtain ⟨e | a, t⟩ := r
  · rintro ⟨hstore, hall, j, hmade, hfail⟩
    simp only at hstore hall hmade
    constructor
    · exact fun i hi => hall.failures i (Nat.lt_of_succ_lt hi)
    · refine ⟨?_, fun h => absurd h (not_in_time hall)⟩
      rintro ⟨a, ha⟩
      cases ha
    · intro e' he
      cases he
      rw [hmade]
      exact hfail
    · simp only
      omega
    · exact hall.le
    · exact fun a ha => by cases ha
    · exact fun _ _ => hstore
  · rintro ⟨hop, n, i, j, hn, hcalls, hsucceeds, hmade⟩
    simp only at hop hmade
    have hi := hcalls.le
    have hj := hsucceeds.in_time
    constructor
    · intro k hk hsuccess
      rcases Nat.lt_or_ge k i with hlt | hge
      · exact hcalls.failures k hlt hsuccess
      · simp only at hk
        cases hsuccess.symm.trans (hsucceeds.before k hge (by omega))
    · exact ⟨fun _ => succeeds_in_time hn hcalls hsucceeds, fun _ => ⟨a, rfl⟩⟩
    · exact fun e he => by cases he
    · simp only
      omega
    · simp only
      omega
    · intro b hb
      cases hb
      exact hop
    · exact fun e he => by cases he

def fivePlusOne (i : Nat) : AttemptOutcome :=
  if i < 5 then .failure .operationalError else if i = 5 then .failure .integrityError else .success

theorem retry_async_exact_third_call :
    Exact fivePlusOne (fun n : Nat => (n, n + 1)) 3 0 (.ok 0, { store := 1, made := 7 }) := by
  have hexact := retry_async_exact fivePlusOne (fun n : Nat => (n, n + 1))
    (by decide : 1 ≤ 3) 0
  have hloop : retryAsyncLoop fivePlusOne (fun n : Nat => (n, n + 1)) 3 0 =
      (.ok 0, { store := 1, made := 7 }) := by
    decide +kernel
  rwa [hloop] at hexact

def AttemptOutcome.outcome : AttemptOutcome → Outcome
  | .success => .ok
  | .failure e => .fail e

inductive Attempts (outcomes : Nat → AttemptOutcome) (now : Int) (s : Session Stores) (r : Run) :
    Session Stores → Run → Prop
  | none : Attempts outcomes now s r s r
  | more {t r'} (h : Attempts outcomes now s r t r') (hr : r'.status = .running) :
      Attempts outcomes now s r
        { store := (r'.attempt (outcomes t.made).outcome now t.store).1, made := t.made + 1 }
        (r'.attempt (outcomes t.made).outcome now t.store).2

def Leaves (r : Run) (reply : Except Exc Pc) (r' : Run) : Prop :=
  match reply with
  | .ok pc => r' = r.goOn pc
  | .error e => ∃ budget, r' = { r with status := .raised e, budget }

theorem nested_eq (e : Exc) (b : Budget) :
    b.nested e = (((retryCalls retries).nest asyncRetrying 0).next e (b.attempt, b.inner)).map
      fun c => { attempt := c.1, inner := c.2 } := by
  simp only [Policy.nest, nestNext, Budget.nested, Budget.plain, retryCalls, asyncRetrying]
  cases retryPolicy e b.inner with
  | some inner => rfl
  | none => rw [Option.map_map]; rfl

def withCounters (r : Run) (c : Nat × Nat) : Run :=
  { r with budget := { attempt := c.1, inner := c.2 } }

theorem handle_withCounters {r : Run} (e : Exc) (c : Nat × Nat) (hw : writesPostgres r.pc = true) :
    (withCounters r c).handle e =
      match ((retryCalls retries).nest asyncRetrying 0).next e c with
      | some d => withCounters r d
      | none => { withCounters r c with status := .raised e } := by
  have hhandle : (withCounters r c).handle e =
      (withCounters r c).retryOr e (Budget.nested e { attempt := c.1, inner := c.2 }) := by
    cases hpc : r.pc with
    | create | increment | addLink | upsertMetric => simp only [Run.handle, withCounters, hpc]
    | _ =>
        rw [hpc] at hw
        cases hw
  rw [hhandle, nested_eq]
  cases ((retryCalls retries).nest asyncRetrying 0).next e c <;> rfl

/-- The counters of a run are the two loops, taken one attempt at a time. -/
theorem attempts_loop (outcomes : Nat → AttemptOutcome) {now : Int} {op : Stores → Pc × Stores}
    {r : Run} (hw : writesPostgres r.pc = true) (hr : r.status = .running) (hb : r.budget = {})
    (hop : ∀ st, r.perform now st = ((op st).2, .ok (op st).1)) (st : Stores) :
    ∃ r', Attempts outcomes now { store := st } r (retryAsyncLoop outcomes op retries st).2 r' ∧
      Leaves r (retryAsyncLoop outcomes op retries st).1 r' := by
  have hnest : retryAsyncLoop outcomes op retries st =
      ((retryCalls retries).nest asyncRetrying 0).persist (sessionScope outcomes op) (0, 0)
        { store := st } := by
    rw [persist_nest]
    exact (resume_call (retryCalls retries) (wrapped outcomes op) 0 { store := st }).symm
  rw [hnest]
  have hloop := persist_induction ((retryCalls retries).nest asyncRetrying 0)
    (sessionScope outcomes op)
    (motive := fun c s w => Attempts outcomes now { store := st } r s
        (withCounters r c) →
      ∃ r', Attempts outcomes now { store := st } r w.2 r' ∧ Leaves r w.1 r')
    ?_ ?_ ?_ (0, 0) { store := st }
  · exact hloop (by rw [withCounters, ← hb]; exact .none)
  · intro c s a t h hat
    obtain ⟨hs, hstore, hmade⟩ := sessionScope_ok h
    have hmore := hat.more hr
    have hperform : (withCounters r c).perform now s.store = (t.store, .ok a) :=
      (hop s.store).trans (by rw [hstore])
    rw [hs, AttemptOutcome.outcome, Run.attempt, hperform] at hmore
    obtain ⟨store, made⟩ := t
    obtain rfl := hmade
    exact ⟨_, hmore, rfl⟩
  · intro c s e t d h hd ih hat
    obtain ⟨hs, rfl⟩ := sessionScope_error h
    have hmore := hat.more hr
    rw [hs, AttemptOutcome.outcome, Run.attempt, handle_withCounters e c hw, hd] at hmore
    exact ih hmore
  · intro c s e t h hd hat
    obtain ⟨hs, rfl⟩ := sessionScope_error h
    have hmore := hat.more hr
    rw [hs, AttemptOutcome.outcome, Run.attempt, handle_withCounters e c hw, hd] at hmore
    exact ⟨_, hmore, _, rfl⟩

end Ims.RetryLoops
