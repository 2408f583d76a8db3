import Ims.Mttr

namespace Ims.Transactions

open Library.Runs Ingestion Service ServiceSteps Mttr
open IncidentsApi (Request Pc)

/-- The service, and since when its runs and requests have been at the operation
that they await. -/
structure Dated where
  world : World
  runSince : Nat → Int
  requestSince : Nat → Int

def start (workerCount : Nat) : Dated where
  world := init workerCount
  runSince := fun _ => 0
  requestSince := fun _ => 0

structure DatedEvent where
  event : Event
  begun : Int

def since (s : Dated) : Event → Int
  | .run k _ => s.runSince k
  | .request k _ => s.requestSince k
  | _ => s.world.clock

def inTransaction : Pc → Bool
  | .updateState _ _ _ | .selectRca _ _ | .flushRca _ _ _ => true
  | .transitionItem _ _ | .transitionRca _ _ _ | .feedMembers _ _ _ | .zremMember _ _ _ _ _
  | .clearDedup _ _ _ | .fresh _ _ | .submitItem _ _ | .incidentItem _ | .incidentRca _ _ => false

/-- The now() of Postgres, that is the beginning of the transaction, for the
statements that read it; the clock for datetime.now. -/
def nowOf (s : Dated) (e : DatedEvent) : Int :=
  match e.event with
  | .run _ _ => e.begun
  | .request k _ =>
      if (s.world.requests[k]?).any fun q => inTransaction q.pc then e.begun else s.world.clock
  | _ => s.world.clock

def runSinceAfter (s : Dated) : Event → Nat → Int
  | .get _ => Function.update s.runSince s.world.runs.length s.world.clock
  | .run k _ => Function.update s.runSince k s.world.clock
  | _ => s.runSince

def flushes : Pc → Bool
  | .flushRca _ _ _ => true
  | .transitionItem _ _ | .transitionRca _ _ _ | .updateState _ _ _ | .feedMembers _ _ _
  | .zremMember _ _ _ _ _ | .clearDedup _ _ _ | .fresh _ _ | .submitItem _ _ | .selectRca _ _
  | .incidentItem _ | .incidentRca _ _ => false

/-- The flush of upsert_rca is in the transaction of its SELECT. -/
def requestSinceAfter (s : Dated) (t : World) : Event → Nat → Int
  | .call _ => Function.update s.requestSince s.world.requests.length s.world.clock
  | .request k _ =>
      if (t.requests[k]?).any fun q => flushes q.pc then s.requestSince
      else Function.update s.requestSince k s.world.clock
  | _ => s.requestSince

/-- A transaction begins after its party has come to the operation, and before
the operation takes effect. -/
def datedStep (cfg : Settings) (s : Dated) (e : DatedEvent) : Option Dated :=
  if since s e.event ≤ e.begun ∧ e.begun ≤ s.world.clock then
    (step cfg { s.world with clock := nowOf s e } e.event).map fun t => {
      world := { t with clock := clockAfter s.world e.event }
      runSince := runSinceAfter s e.event
      requestSince := requestSinceAfter s t e.event }
  else none

/-- The clock never goes back, and no transaction takes longer than lag. -/
def punctual (lag : Nat) (s : Dated) (e : DatedEvent) : Prop :=
  forward s.world e.event ∧ s.world.clock ≤ e.begun + lag

instance (lag : Nat) (s : Dated) (e : DatedEvent) : Decidable (punctual lag s e) :=
  inferInstanceAs (Decidable (_ ∧ _))

variable {cfg : Settings} {s t : Dated} {e : DatedEvent} {lag : Nat}

theorem datedStep_cases (h : datedStep cfg s e = some t) :
    since s e.event ≤ e.begun ∧ e.begun ≤ s.world.clock ∧
      ∃ w, step cfg { s.world with clock := nowOf s e } e.event = some w ∧
        t = ⟨{ w with clock := clockAfter s.world e.event }, runSinceAfter s e.event,
          requestSinceAfter s w e.event⟩ := by
  unfold datedStep at h
  split at h
  · next hbegun =>
    obtain ⟨w, hw, rfl⟩ := Option.map_eq_some_iff.mp h
    exact ⟨hbegun.1, hbegun.2, w, hw, rfl⟩
  · cases h

theorem nowOf_bounds (hbegun : e.begun ≤ s.world.clock) (he : punctual lag s e) :
    nowOf s e ≤ s.world.clock ∧ s.world.clock ≤ nowOf s e + lag := by
  obtain ⟨_, hlag⟩ := he
  have hpositive : s.world.clock ≤ s.world.clock + lag := by omega
  unfold nowOf
  split
  · exact ⟨hbegun, hlag⟩
  · split
    · exact ⟨hbegun, hlag⟩
    · exact ⟨Int.le_refl _, hpositive⟩
  · exact ⟨Int.le_refl _, hpositive⟩

theorem nowOf_request {k : Nat} {o : Workers.Outcome} {q : Request} (he : e.event = .request k o)
    (hk : s.world.requests[k]? = some q) :
    nowOf s e = if inTransaction q.pc then e.begun else s.world.clock := by
  rw [nowOf, he]
  simp only [hk, Option.any_some]

/-- The clock is put back to the beginning of the transaction for its effect:
three steps of the service. -/
theorem service_steps (h : datedStep cfg s e = some t) :
    ∃ s' w, step cfg s.world (.setClock (nowOf s e)) = some s' ∧ step cfg s' e.event = some w ∧
      step cfg w (.setClock (clockAfter s.world e.event)) = some t.world := by
  obtain ⟨_, _, w, hw, rfl⟩ := datedStep_cases h
  exact ⟨_, w, rfl, hw, rfl⟩

/-- What holds of the service with any clock holds of it with its transactions. -/
theorem service_trace {ok : Dated → DatedEvent → Prop} {n : Nat} {es : List DatedEvent}
    (h : Trace (datedStep cfg) ok (start n) es s) :
    ∃ es', Trace (step cfg) (fun _ _ => True) (init n) es' s.world := by
  induction h with
  | start => exact ⟨[], .start⟩
  | next _ _ hs ih =>
      obtain ⟨es', htrace⟩ := ih
      obtain ⟨s', w, hback, heffect, hforth⟩ := service_steps hs
      exact ⟨_, ((htrace.next trivial hback).next trivial heffect).next trivial hforth⟩

theorem le_clockAfter {s : World} {e : Event} (h : forward s e) : s.clock ≤ clockAfter s e := by
  cases e with
  | setClock now => exact h
  | _ => exact Int.le_refl _

/-- Time passes for the run whose operation ends, and for no other. -/
theorem runSince_le (hsince : since s e.event ≤ s.world.clock) (k : Nat)
    (hk : k < s.world.runs.length) : s.runSince k ≤ runSinceAfter s e.event k := by
  cases he : e.event with
  | get oid =>
      rw [runSinceAfter, Function.update_of_ne hk.ne]
  | run j o =>
      rw [he] at hsince
      rw [runSinceAfter]
      by_cases hj : k = j
      · subst hj
        rw [Function.update_self]
        exact hsince
      · rw [Function.update_of_ne hj]
  | _ => exact Int.le_refl _

theorem requestSince_le (hsince : since s e.event ≤ s.world.clock) (w : World) (k : Nat)
    (hk : k < s.world.requests.length) : s.requestSince k ≤ requestSinceAfter s w e.event k := by
  cases he : e.event with
  | call c =>
      rw [requestSinceAfter, Function.update_of_ne hk.ne]
  | request j o =>
      rw [he] at hsince
      rw [requestSinceAfter]
      split
      · exact Int.le_refl _
      · by_cases hj : k = j
        · subst hj
          rw [Function.update_self]
          exact hsince
        · rw [Function.update_of_ne hj]
  | _ => exact Int.le_refl _

theorem requestSince_own {w : World} {k : Nat} {o : Workers.Outcome} {q : Request}
    (he : e.event = .request k o) (hk : w.requests[k]? = some q) :
    requestSinceAfter s w e.event k = if flushes q.pc then s.requestSince k else s.world.clock := by
  rw [he, requestSinceAfter]
  simp only [hk, Option.any_some]
  split
  · rfl
  · rw [Function.update_self]

end Ims.Transactions
