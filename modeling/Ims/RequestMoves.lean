import Ims.ServiceSteps
import Ims.Library.Slots

namespace Ims.RequestMoves

open Library.SortedSet Library.Slots Models PostgresRepo RedisCache Retry Ingestion Service ApiSteps
  ServiceSteps
open Workers (Stores Run Outcome)
open IncidentsApi (Request Pc Status Next Response Call zremNext entriesOf)

def requestIndex : Event → Option Nat
  | .request k _ | .abortRequest k => some k
  | _ => none

def itemOf : Pc → Int
  | .transitionItem w _ | .transitionRca w _ _ | .updateState w _ _ | .feedMembers w _ _
  | .zremMember w _ _ _ _ | .clearDedup w _ _ | .fresh w _ | .submitItem w _ | .selectRca w _
  | .flushRca w _ _ | .incidentItem w | .incidentRca w _ => w

def ended : Status → Bool
  | .running => false
  | .responded _ | .raised _ | .aborted => true

instance : (status : Status) → Decidable (status = .running)
  | .running => .isTrue rfl
  | .responded _ | .raised _ | .aborted => .isFalse fun h => by cases h

inductive RequestMove (s : World) (e : Event) (k : Nat) (st : Stores) : Request → Prop
  | new (c) (hk : s.requests[k]? = none) (he : e = .call c) : RequestMove s e k st { pc := c.entry }
  | other (q) (hk : s.requests[k]? = some q) (he : requestIndex e ≠ some k) : RequestMove s e k st q
  | attempt (q o) (hk : s.requests[k]? = some q) (hq : q.status = .running) (he : e = .request k o)
      (hst : st = (q.attempt o s.clock s.stores).1) :
      RequestMove s e k st (q.attempt o s.clock s.stores).2
  | abort (q) (hk : s.requests[k]? = some q) (hq : q.status = .running) (he : e = .abortRequest k)
      (hst : st = s.stores) : RequestMove s e k st { q with status := .aborted }

theorem step_requestMove {cfg : Settings} {s t : World} {e : Event} {k : Nat} {q : Request}
    (h : step cfg s e = some t) (hq : t.requests[k]? = some q) : RequestMove s e k t.stores q := by
  have hmove := step_move h
  generalize t.stores = st, t.runs = runs, t.requests = requests at hmove hq
  cases hmove with
  | @request j p o hj hp =>
      by_cases hjk : j = k
      · subst hjk
        rw [List.getElem?_set_self (lt_of_slot hj)] at hq
        cases hq
        exact .attempt p o hj hp rfl rfl
      · rw [List.getElem?_set_ne hjk] at hq
        exact .other q hq (by simpa [requestIndex] using hjk)
  | @abortRequest j p hj hp =>
      by_cases hjk : j = k
      · subst hjk
        rw [List.getElem?_set_self (lt_of_slot hj)] at hq
        cases hq
        exact .abort p hj hp rfl rfl
      · rw [List.getElem?_set_ne hjk] at hq
        exact .other q hq (by simpa [requestIndex] using hjk)
  | call c =>
      by_cases hlt : k < s.requests.length
      · rw [List.getElem?_append_left hlt] at hq
        exact .other q hq nofun
      · have hlen := Nat.not_lt.mp hlt
        rw [List.getElem?_append_right hlen] at hq
        rw [List.mem_singleton.mp (List.mem_of_getElem? hq)]
        exact .new c (List.getElem?_eq_none hlen) rfl
  | quiet e he =>
      refine .other q hq ?_
      cases e with
      | offer | getTimeout | cancelIdle | setClock => exact nofun
      | _ => cases he
  | get | run | finish | cancelRun | expire | burnWorkItemId | burnRcaId => exact .other q hq nofun

/-- The list of requests only grows. -/
theorem request_stays {cfg : Settings} {s t : World} {e : Event} {k : Nat} {q : Request}
    (h : step cfg s e = some t) (hk : s.requests[k]? = some q) : ∃ q', t.requests[k]? = some q' := by
  have hlt := lt_of_slot hk
  have hmove := step_move h
  generalize t.stores = st, t.runs = runs, t.requests = requests at hmove
  cases hmove with
  | request | abortRequest => exact ⟨_, List.getElem?_eq_getElem (by rwa [List.length_set])⟩
  | call c => exact ⟨q, by rw [List.getElem?_append_left hlt, hk]⟩
  | _ => exact ⟨q, hk⟩

/-- The step of a request of its own. -/
theorem own_request {cfg : Settings} {s t : World} {k : Nat} {o : Outcome} {q : Request}
    (h : step cfg s (.request k o) = some t) (hk : s.requests[k]? = some q) :
    q.status = .running ∧ t = { s with
      stores := (q.attempt o s.clock s.stores).1
      requests := s.requests.set k (q.attempt o s.clock s.stores).2 } := by
  simp only [step, hk, Option.bind_eq_bind, Option.bind_some] at h
  split at h
  · next hrun =>
    cases h
    exact ⟨hrun, rfl⟩
  · cases h

theorem slot_of_index {cfg : Settings} {s t : World} {e : Event} {k : Nat} (h : step cfg s e = some t)
    (he : requestIndex e = some k) : ∃ q, s.requests[k]? = some q := by
  have hmove := step_move h
  generalize t.stores = st, t.runs = runs, t.requests = requests at hmove
  cases hmove with
  | request o hk _ | abortRequest hk _ =>
      cases he
      exact ⟨_, hk⟩
  | quiet e hquiet =>
      cases e with
      | request | abortRequest => cases hquiet
      | _ => cases he
  | _ => cases he

inductive RequestNext (s : World) (e : Event) (k : Nat) (st : Stores) (q : Request) : Request → Prop
  | other (he : requestIndex e ≠ some k) : RequestNext s e k st q q
  | attempt (o) (hq : q.status = .running) (he : e = .request k o)
      (hst : st = (q.attempt o s.clock s.stores).1) :
      RequestNext s e k st q (q.attempt o s.clock s.stores).2
  | abort (hq : q.status = .running) (he : e = .abortRequest k) (hst : st = s.stores) :
      RequestNext s e k st q { q with status := .aborted }

theorem step_requestNext {cfg : Settings} {s t : World} {e : Event} {k : Nat} {q : Request}
    (h : step cfg s e = some t) (hk : s.requests[k]? = some q) :
    ∃ q', t.requests[k]? = some q' ∧ RequestNext s e k t.stores q q' := by
  obtain ⟨q', hk'⟩ := request_stays h hk
  refine ⟨q', hk', ?_⟩
  cases step_requestMove h hk' with
  | new c hnone =>
      rw [hnone] at hk
      cases hk
  | other _ hsame he =>
      cases hk.symm.trans hsame
      exact .other he
  | attempt p o hsame hrun he hst =>
      cases hk.symm.trans hsame
      exact .attempt o hrun he hst
  | abort p hsame hrun he hst =>
      cases hk.symm.trans hsame
      exact .abort hrun he hst

/-- A request that has ended stays as it is. -/
theorem ended_stays {cfg : Settings} {s t : World} {e : Event} {k : Nat} {q : Request}
    (h : step cfg s e = some t) (hk : s.requests[k]? = some q) (hq : q.status ≠ .running) :
    t.requests[k]? = some q := by
  obtain ⟨q', hk', hnext⟩ := step_requestNext h hk
  rw [hk']
  cases hnext with
  | other => rfl
  | attempt o hrun | abort hrun => exact absurd hrun hq

theorem requests_length {cfg : Settings} {s t : World} {e : Event} (h : step cfg s e = some t) :
    s.requests.length ≤ t.requests.length := by
  have hmove := step_move h
  generalize t.stores = st, t.runs = runs, t.requests = requests at hmove
  cases hmove with
  | request | abortRequest => rw [List.length_set]
  | call c => simp
  | _ => exact le_refl _

theorem new_index {cfg : Settings} {s t : World} {e : Event} {k : Nat} {q : Request}
    (h : step cfg s e = some t) (hnone : s.requests[k]? = none) (hk : t.requests[k]? = some q) :
    k = s.requests.length := by
  have hlen := List.getElem?_eq_none_iff.mp hnone
  have hlt := lt_of_slot hk
  have hmove := step_move h
  generalize t.stores = st, t.runs = runs, t.requests = requests at hmove hlt
  cases hmove with
  | request | abortRequest =>
      rw [List.length_set] at hlt
      omega
  | call c =>
      rw [List.length_append, List.length_singleton] at hlt
      omega
  | _ => omega

/-- A request that stands before a removal of a member stood there, has just
scanned the feed, or has just removed the member before it in its list. -/
theorem attempt_zremMember {q : Request} {o : Outcome} {now : Int} {st : Stores} {w : Int}
    {wi : WorkItem} {result : States.TransitionResult} {member : String} {rest : List String}
    (h : (q.attempt o now st).2.pc = .zremMember w wi result member rest) :
    q.pc = .zremMember w wi result member rest ∨
      (q.pc = .feedMembers w wi result ∧ entriesOf w (zrange st.redis.liveFeed) = member :: rest) ∨
        ∃ removed, q.pc = .zremMember w wi result removed (member :: rest) := by
  have hmove := attempt_pcMove q o now st
  generalize q.pc = pc, (q.attempt o now st).2.pc = pc' at hmove h ⊢
  cases hmove with
  | stay => exact .inl h
  | scanned v old result' m ms hmembers =>
      cases h
      exact .inr (.inl ⟨rfl, hmembers⟩)
  | removed v old result' removed m ms =>
      cases h
      exact .inr (.inr ⟨removed, rfl⟩)
  | _ => cases h

/-- A flush that is not the same as before follows on a SELECT. -/
theorem attempt_flushRca {q : Request} {o : Outcome} {now : Int} {st : Stores} {w : Int} {body : RCAIn}
    {loaded : Option RCA} (h : (q.attempt o now st).2.pc = .flushRca w body loaded) :
    q.pc = .flushRca w body loaded ∨ q.pc = .selectRca w body ∧ loaded = getRca st.postgres w := by
  have hmove := attempt_pcMove q o now st
  generalize q.pc = pc, (q.attempt o now st).2.pc = pc' at hmove h ⊢
  cases hmove with
  | stay => exact .inl h
  | selected v body' =>
      cases h
      exact .inr ⟨rfl, rfl⟩
  | _ => cases h

def RemovalWf (s : World) : Prop :=
  ∀ q ∈ s.requests, ∀ w wi result member rest, q.pc = .zremMember w wi result member rest →
    ∀ m ∈ member :: rest, isEntryOf w m = true

theorem removalWf_init (n : Nat) : RemovalWf (init n) := fun _ hq => absurd hq List.not_mem_nil

theorem removalWf_step {cfg : Settings} {s t : World} {e : Event} (h : RemovalWf s)
    (hs : step cfg s e = some t) : RemovalWf t := by
  intro q hq w wi result member rest hpc m hm
  obtain ⟨k, hslot⟩ := List.mem_iff_getElem?.mp hq
  cases step_requestMove hs hslot with
  | new c => cases c <;> cases hpc
  | other _ hk => exact h q (List.mem_of_getElem? hk) w wi result member rest hpc m hm
  | attempt p o hk =>
      rcases attempt_zremMember hpc with hpc' | ⟨_, hmembers⟩ | ⟨removed, hpc'⟩
      · exact h p (List.mem_of_getElem? hk) w wi result member rest hpc' m hm
      · exact (List.mem_filter.mp (hmembers ▸ hm)).2
      · exact h p (List.mem_of_getElem? hk) w wi result removed (member :: rest) hpc' m
          (List.mem_cons_of_mem removed hm)
  | abort p hk => exact h p (List.mem_of_getElem? hk) w wi result member rest hpc m hm

end Ims.RequestMoves
