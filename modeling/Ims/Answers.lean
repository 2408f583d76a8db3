import Ims.Alerts
import Ims.RequestMoves
import Ims.RetryLoops

namespace Ims.Answers

open Library.Runs Library.Slots Library.SortedSet Models States PostgresRepo RedisCache Retry Ingestion
  Service WorkerSteps ApiSteps ServiceSteps WorkerMoves WorkerFrames Rows LifeCycle Requests RequestMoves
  RetryLoops Alerts
open Workers (Stores Run Outcome)
open IncidentsApi (Request Pc Next zremNext entriesOf)

def triesLeft (attempts : Nat) : Nat := stopAfterAttempt - 1 - attempts

/-- The awaits of a handler from a place on, when the live feed has one member
of its item at most. -/
def awaitsAhead (attempts : Nat) : Pc → Nat
  | .transitionItem _ _ => triesLeft attempts + 7
  | .transitionRca _ _ _ => triesLeft attempts + 6
  | .updateState _ _ _ => triesLeft attempts + 5
  | .feedMembers _ _ _ => 4
  | .zremMember _ _ _ _ rest => rest.length + 3
  | .clearDedup _ _ _ => 2
  | .fresh _ _ => 1
  | .submitItem _ _ => 2 * triesLeft attempts + 3
  | .selectRca _ _ => 2 * triesLeft attempts + 2
  | .flushRca _ _ _ => 2 * triesLeft attempts + 1
  | .incidentItem _ => 2
  | .incidentRca _ _ => 1

def awaitsLeft (q : Request) : Nat :=
  match q.status with
  | .running => awaitsAhead q.attempts q.pc
  | .responded _ | .raised _ | .aborted => 0

def mostAwaits : Nat := 11

def awaited (k : Nat) (_ : World) (e : Event) (_ : World) : Nat :=
  match e with
  | .request j _ => if j = k then 1 else 0
  | _ => 0

inductive FeedStep (s : World) : ZSet → Prop
  | keep : FeedStep s s.stores.redis.liveFeed
  | push (r w) (hr : r ∈ s.runs) (hpc : r.pc = .pushLiveFeed w) :
      FeedStep s (zadd (feedMember w r.sig.componentId) (severityScore r.sig.severity.value)
        s.stores.redis.liveFeed)
  | remove (member) : FeedStep s (zrem member s.stores.redis.liveFeed)

structure MembersWf (s : World) : Prop where
  rows : RowsWf s.stores
  held : ∀ r ∈ s.runs, ∀ w, announcing r.pc = some w →
    ∃ now, newWorkItem r.sig w now ∈ origins s.stores
  once : (zrange s.stores.redis.liveFeed).Nodup
  members : ∀ m ∈ zrange s.stores.redis.liveFeed, ∃ wi ∈ origins s.stores,
    m = feedMember wi.id wi.componentId

variable {cfg : Settings} {s t : World} {e : Event} {st : Stores} {q : Request} {now w : Int} {n k : Nat}
  {es : List Event} {ok : World → Event → Prop}

theorem step_feedStep (hs : step cfg s e = some t) : FeedStep s t.stores.redis.liveFeed := by
  have hmove := step_move hs
  generalize t.stores = st, t.runs = runs, t.requests = requests at hmove
  cases hmove with
  | @run k r o hk _ _ =>
      obtain ⟨r', hstep⟩ := attempt_stores s.clock s.stores r o
      generalize (r.attempt o s.clock s.stores).1 = st at hstep ⊢
      cases hstep with
      | push w hpc => exact .push r w (List.mem_of_getElem? hk) hpc
      | _ => exact .keep
  | @request k q o _ _ =>
      have heffect := attempt_effect s.clock s.stores q o
      generalize (q.attempt o s.clock s.stores).1 = st at heffect ⊢
      cases heffect with
      | zrem w wi result member => exact .remove member
      | none | updateState | clearDedup | flushRca => exact .keep
  | _ => exact .keep

theorem members_step (h : MembersWf s) (hs : step cfg s e = some t) :
    ∀ m ∈ zrange t.stores.redis.liveFeed, ∃ wi ∈ origins t.stores, m = feedMember wi.id wi.componentId := by
  intro m hm
  have hgrow := (step_grows hs).items
  have hold : m ∈ zrange s.stores.redis.liveFeed →
      ∃ wi ∈ origins t.stores, m = feedMember wi.id wi.componentId := by
    intro hm
    obtain ⟨wi, hwi, hmember⟩ := h.members m hm
    exact ⟨wi, hgrow wi hwi, hmember⟩
  have hfeed := step_feedStep hs
  generalize t.stores.redis.liveFeed = feed at hfeed hm
  cases hfeed with
  | keep => exact hold hm
  | push r w hr hpc =>
      rcases zrange_zadd hm with rfl | hm
      · obtain ⟨now, hitem⟩ := h.held r hr w (by rw [hpc]; rfl)
        exact ⟨_, hgrow _ hitem, rfl⟩
      · exact hold hm
  | remove member => exact hold (zrange_zrem.mp hm).1

theorem membersWf_init (n : Nat) : MembersWf (init n) :=
  ⟨rowsWf_init n, fun _ hr => absurd hr List.not_mem_nil, List.nodup_nil,
    fun _ hm => absurd hm List.not_mem_nil⟩

theorem membersWf_step (h : MembersWf s) (hs : step cfg s e = some t) : MembersWf t := by
  refine ⟨rowsWf_step h.rows hs, held_step h.held hs, ?_, members_step h hs⟩
  have hfeed := step_feedStep hs
  generalize t.stores.redis.liveFeed = feed at hfeed
  cases hfeed with
  | keep => exact h.once
  | push r w => exact nodup_zadd h.once
  | remove member => exact nodup_zrem h.once

/-- The scan of a closing request finds one member of its item at most. -/
theorem MembersWf.entries (h : MembersWf s) (w : Int) :
    (entriesOf w (zrange s.stores.redis.liveFeed)).length ≤ 1 := by
  have hids := h.rows.ids
  rw [← ids_origins] at hids
  have hone : ∀ m ∈ entriesOf w (zrange s.stores.redis.liveFeed), ∀ m' ∈ entriesOf w
      (zrange s.stores.redis.liveFeed), m = m' := by
    intro m hm m' hm'
    obtain ⟨hfeed, hentry⟩ := List.mem_filter.mp hm
    obtain ⟨hfeed', hentry'⟩ := List.mem_filter.mp hm'
    obtain ⟨wi, hwi, rfl⟩ := h.members m hfeed
    obtain ⟨wi', hwi', rfl⟩ := h.members m' hfeed'
    rw [isEntryOf_feedMember] at hentry hentry'
    rw [eq_of_nodup hids hwi hwi' (hentry.symm.trans hentry')]
  have hnodup : (entriesOf w (zrange s.stores.redis.liveFeed)).Nodup := h.once.filter _
  exact length_le_one hnodup hone

theorem awaitsAhead_pos (attempts : Nat) (pc : Pc) : 1 ≤ awaitsAhead attempts pc := by
  cases pc <;> simp only [awaitsAhead] <;> omega

theorem awaitsLeft_le (q : Request) : awaitsLeft q ≤ awaitsAhead q.attempts q.pc := by
  unfold awaitsLeft
  split
  · exact Nat.le_refl _
  · exact Nat.zero_le _
  · exact Nat.zero_le _
  · exact Nat.zero_le _

theorem zremNext_awaits {wi : WorkItem} {result : TransitionResult} {members : List String} {pc : Pc}
    (h : zremNext w wi result members = .pc pc) (attempts : Nat) :
    awaitsAhead attempts pc = members.length + 2 := by
  cases members <;> cases h <;> rfl

theorem perform_awaits (hentries : ∀ w, (entriesOf w (zrange st.redis.liveFeed)).length ≤ 1) {pc : Pc}
    (h : (q.perform now st).2 = .ok (.pc pc)) (attempts : Nat) :
    awaitsAhead attempts pc + 1 ≤ awaitsAhead attempts q.pc := by
  cases hpc : q.pc with
  | feedMembers w wi result =>
      rw [perform_feedMembers hpc] at h
      have hawaits := zremNext_awaits (Except.ok.inj h) attempts
      have hone := hentries w
      simp only [awaitsAhead] at hawaits ⊢
      omega
  | zremMember w wi result member rest =>
      simp only [Request.perform, hpc, Except.ok.injEq] at h
      rw [zremNext_awaits h attempts]
      exact Nat.le_refl _
  | _ =>
      have hgo := perform_goesOn h
      rw [hpc] at hgo
      cases hgo <;> simp only [awaitsAhead] <;> omega

theorem handle_awaits (q : Request) (e : Exc) :
    awaitsLeft (q.handle e) + 1 ≤ awaitsAhead q.attempts q.pc := by
  have hraised : awaitsLeft { q with status := .raised e } + 1 ≤ awaitsAhead q.attempts q.pc :=
    awaitsAhead_pos _ _
  have hretry (pc : Pc) (hless : ∀ attempts, q.attempts + 1 < stopAfterAttempt →
      attempts = q.attempts + 1 → awaitsAhead attempts pc + 1 ≤ awaitsAhead q.attempts q.pc) :
      awaitsLeft (q.retryOr e pc) + 1 ≤ awaitsAhead q.attempts q.pc := by
    unfold Request.retryOr
    cases hpolicy : retryPolicy e q.attempts with
    | none => exact hraised
    | some attempts =>
        obtain ⟨_, hlt, hsucc⟩ := retryPolicy_some hpolicy
        have hle : awaitsLeft { q with pc, attempts } ≤ awaitsAhead attempts pc := awaitsLeft_le _
        exact (Nat.succ_le_succ hle).trans (hless attempts hlt hsucc)
  have hfresh (w : Int) (result : TransitionResult) (h2 : 2 ≤ awaitsAhead q.attempts q.pc) :
      awaitsLeft (q.goOn (.pc (.fresh w result))) + 1 ≤ awaitsAhead q.attempts q.pc :=
    (Nat.succ_le_succ (awaitsLeft_le _)).trans h2
  cases hpc : q.pc with
  | updateState | selectRca | flushRca =>
      simp only [Request.handle, hpc]
      rw [hpc] at hretry
      refine hretry _ fun attempts hlt hsucc => ?_
      simp only [awaitsAhead, triesLeft, hsucc]
      omega
  | feedMembers | zremMember | clearDedup =>
      simp only [Request.handle, hpc]
      rw [hpc] at hfresh
      refine hfresh _ _ ?_
      simp only [awaitsAhead]
      omega
  | transitionItem | transitionRca | fresh | submitItem | incidentItem | incidentRca =>
      simp only [Request.handle, hpc]
      rw [← hpc]
      exact hraised

theorem attempt_awaits (hentries : ∀ w, (entriesOf w (zrange st.redis.liveFeed)).length ≤ 1)
    (o : Outcome) : awaitsLeft (q.attempt o now st).2 + 1 ≤ awaitsAhead q.attempts q.pc := by
  rcases attempt_cases q o now st with ⟨next, _, hreply, hnext⟩ | ⟨e, hnext, _⟩
  · rw [hnext]
    cases next with
    | respond r => exact awaitsAhead_pos _ _
    | pc pc =>
        have hless := perform_awaits hentries hreply q.attempts
        exact (Nat.succ_le_succ (awaitsLeft_le (q.goOn (.pc pc)))).trans hless
  · rw [hnext]
    exact handle_awaits q e

theorem entry_awaits (c : IncidentsApi.Call) : awaitsLeft { pc := c.entry } ≤ mostAwaits := by
  cases c with
  | transitionIncident | closeIncident | submitRca => exact Nat.le_refl 11
  | getIncident => exact Nat.le_add_left 2 9

def awaitsOf (k : Nat) (s : World) : Nat := (s.requests[k]?).elim mostAwaits awaitsLeft

theorem awaitsOf_step (h : MembersWf s) (hs : step cfg s e = some t) :
    awaitsOf k t + awaited k s e t ≤ awaitsOf k s := by
  have hmove := step_move hs
  unfold awaitsOf
  generalize t.stores = st, t.runs = runs, t.requests = requests at hmove ⊢
  cases hmove with
  | @request j q o hj hq =>
      have hleft : awaitsLeft q = awaitsAhead q.attempts q.pc := by rw [awaitsLeft, hq]
      exact elim_set_add_le hj (hleft ▸ attempt_awaits h.entries o) k
  | @abortRequest j q hj _ =>
      have hended : awaitsLeft { q with status := .aborted } + 0 ≤ awaitsLeft q := Nat.zero_le _
      exact (Nat.le_add_right _ _).trans (elim_set_add_le hj hended k)
  | call c => exact elim_push_le (entry_awaits c) k
  | quiet e he =>
      cases e with
      | request => cases he
      | _ => exact Nat.le_refl _
  | run | finish | cancelRun | get | expire | burnWorkItemId | burnRcaId => exact Nat.le_refl _

/-- Request k comes to its end within its awaits, and until then no store and no
other party can hold it up. -/
structure Ends (cfg : Settings) (n : Nat) (es : List Event) (s : World) (k : Nat) : Prop where
  awaits : tally (step cfg) (awaited k) (init n) es ≤ mostAwaits
  goesOn : ∀ q, s.requests[k]? = some q → q.status = .running →
    tally (step cfg) (awaited k) (init n) es < mostAwaits ∧
      ∀ o, ∃ t, step cfg s (.request k o) = some t

/-- Whatever its operations come to, and whoever writes to the stores between
them, a request is answered, raised or aborted after eleven awaits at most. -/
theorem requests_end (h : Trace (step cfg) ok (init n) es s) (k : Nat) : Ends cfg n es s k := by
  have hmembers := h.with_invariant MembersWf (membersWf_init n) fun _ _ _ hI _ => membersWf_step hI
  have hbound : awaitsOf k s + tally (step cfg) (awaited k) (init n) es ≤ mostAwaits :=
    hmembers.tally_add_le (awaited k) (awaitsOf k) fun _ _ _ he hs => awaitsOf_step he.1 hs
  refine ⟨(Nat.le_add_left _ _).trans hbound, fun q hk hrun => ⟨?_, fun o => ?_⟩⟩
  · have hpos : 1 ≤ awaitsOf k s := by
      rw [awaitsOf, hk, Option.elim_some, awaitsLeft, hrun]
      exact awaitsAhead_pos _ _
    omega
  · simp only [step, hk, Option.bind_eq_bind, Option.bind_some, hrun]
    exact ⟨_, rfl⟩

def lastAttemptClose : List Event :=
  resolved ++ [.call (.closeIncident 1)] ++ requestOn 3 2 ++
    List.replicate 4 (.request 3 (.fail .operationalError)) ++ requestOn 3 5

theorem requests_end_last_attempt_close :
    tally (step {}) (awaited 3) (init 1) lastAttemptClose = 11 ∧
      ∃ s, Ends {} 1 lastAttemptClose s 3 := by
  obtain ⟨s, hs, _⟩ := trace_of_replay (step {}) (fun _ _ => True) (init 1) lastAttemptClose
    (fun s => decide (s.requests.length = 4)) (by decide +kernel)
  exact ⟨by decide +kernel, s, requests_end hs 3⟩

end Ims.Answers
