import Ims.IncidentsApi

namespace Ims.ApiSteps

open Library.SortedSet Time Models RcaValidator States PostgresRepo RedisCache Retry IncidentsApi
open Workers (Stores Outcome)

/-- All that a step of one request can do to the stores, whatever its outcome. -/
inductive RequestEffect (now : Int) (st : Stores) (q : Request) : Stores → Prop
  | none : RequestEffect now st q st
  | updateState (w wi result) (hpc : q.pc = .updateState w wi result) :
      RequestEffect now st q { st with
        postgres := updateState st.postgres w result.newState result.endTime result.mttrSeconds now }
  | zrem (w wi result member rest) (hpc : q.pc = .zremMember w wi result member rest) :
      RequestEffect now st q { st with
        redis := { st.redis with liveFeed := zrem member st.redis.liveFeed } }
  | clearDedup (w wi result) (hpc : q.pc = .clearDedup w wi result) :
      RequestEffect now st q { st with redis := clearDedup st.redis wi.componentId }
  | flushRca (w body loaded postgres row) (hpc : q.pc = .flushRca w body loaded)
      (hflush : flushRca st.postgres w loaded body now = .ok (postgres, row)) :
      RequestEffect now st q { st with postgres }

theorem perform_effect (now : Int) (st : Stores) (q : Request) :
    RequestEffect now st q (q.perform now st).1 := by
  cases hpc : q.pc with
  | transitionItem w target =>
      simp only [Request.perform, hpc]
      split <;> exact .none
  | transitionRca w target wi =>
      simp only [Request.perform, hpc]
      split <;> exact .none
  | updateState w wi result =>
      simp only [Request.perform, hpc]
      exact .updateState w wi result hpc
  | feedMembers w wi result =>
      simp only [Request.perform, hpc]
      exact .none
  | zremMember w wi result member rest =>
      simp only [Request.perform, hpc]
      exact .zrem w wi result member rest hpc
  | clearDedup w wi result =>
      simp only [Request.perform, hpc]
      exact .clearDedup w wi result hpc
  | fresh w result =>
      simp only [Request.perform, hpc]
      split <;> exact .none
  | submitItem w body =>
      simp only [Request.perform, hpc]
      split
      · exact .none
      · split <;> exact .none
  | selectRca w body =>
      simp only [Request.perform, hpc]
      exact .none
  | flushRca w body loaded =>
      simp only [Request.perform, hpc]
      split
      · exact .none
      · next postgres row hflush => exact .flushRca w body loaded postgres row hpc hflush
  | incidentItem w =>
      simp only [Request.perform, hpc]
      split <;> exact .none
  | incidentRca w wi =>
      simp only [Request.perform, hpc]
      exact .none

inductive GoesOn (now : Int) (st : Stores) : Pc → Next → Prop
  | readItem (w target wi) (hget : getWorkItem st.postgres w = some wi) :
      GoesOn now st (.transitionItem w target) (.pc (.transitionRca w target wi))
  | decided (w target wi result)
      (hresult : transition ⟨wi.state, .utc wi.startTime⟩ target
        ((getRca st.postgres w).map ofRow) now = .ok result) :
      GoesOn now st (.transitionRca w target wi) (.pc (.updateState w wi result))
  | closed (w wi result) (hstate : result.newState = .CLOSED) :
      GoesOn now st (.updateState w wi result) (.pc (.feedMembers w wi result))
  | moved (w wi result) (hstate : result.newState ≠ .CLOSED) :
      GoesOn now st (.updateState w wi result) (.pc (.fresh w result))
  | scanned (w wi result members) :
      GoesOn now st (.feedMembers w wi result) (zremNext w wi result members)
  | removed (w wi result member rest) :
      GoesOn now st (.zremMember w wi result member rest) (zremNext w wi result rest)
  | cleared (w wi result) : GoesOn now st (.clearDedup w wi result) (.pc (.fresh w result))
  | checked (w body) : GoesOn now st (.submitItem w body) (.pc (.selectRca w body))
  | selected (w body) :
      GoesOn now st (.selectRca w body) (.pc (.flushRca w body (getRca st.postgres w)))
  | readIncident (w wi) (hget : getWorkItem st.postgres w = some wi) :
      GoesOn now st (.incidentItem w) (.pc (.incidentRca w wi))
  | shown (w wi) :
      GoesOn now st (.incidentRca w wi) (.respond (.incident ⟨wi, getRca st.postgres w⟩))
  | answered (pc r) (hr : ∀ out, r ≠ .incident out) : GoesOn now st pc (.respond r)

theorem perform_goesOn {now : Int} {st : Stores} {q : Request} {next : Next}
    (h : (q.perform now st).2 = .ok next) : GoesOn now st q.pc next := by
  cases hpc : q.pc with
  | transitionItem w target =>
      simp only [Request.perform, hpc] at h
      split at h
      · cases h
        exact .answered _ _ fun _ he => by cases he
      · next hget =>
        cases h
        exact .readItem w target _ hget
  | transitionRca w target wi =>
      simp only [Request.perform, hpc] at h
      split at h
      · next hresult =>
        cases h
        exact .decided w target wi _ hresult
      · next e _ =>
        cases hexc : transitionException e with
        | error => rw [hexc] at h; cases h
        | ok http =>
            rw [hexc] at h
            cases h
            exact .answered _ _ fun _ he => by cases he
  | updateState w wi result =>
      simp only [Request.perform, hpc, Except.ok.injEq] at h
      rw [← h]
      split
      · next hstate => exact .closed w wi result hstate
      · next hstate => exact .moved w wi result hstate
  | feedMembers w wi result =>
      simp only [Request.perform, hpc, Except.ok.injEq] at h
      rw [← h]
      exact .scanned w wi result _
  | zremMember w wi result member rest =>
      simp only [Request.perform, hpc, Except.ok.injEq] at h
      rw [← h]
      exact .removed w wi result member rest
  | clearDedup w wi result =>
      simp only [Request.perform, hpc, Except.ok.injEq] at h
      rw [← h]
      exact .cleared w wi result
  | fresh w result =>
      simp only [Request.perform, hpc] at h
      split at h
      · cases h
      · cases h
        exact .answered _ _ fun _ he => by cases he
  | submitItem w body =>
      simp only [Request.perform, hpc] at h
      split at h
      · cases h
        exact .answered _ _ fun _ he => by cases he
      · split at h
        · cases h
        · cases h
          exact .answered _ _ fun _ he => by cases he
        · cases h
          exact .checked w body
  | selectRca w body =>
      simp only [Request.perform, hpc, Except.ok.injEq] at h
      rw [← h]
      exact .selected w body
  | flushRca w body loaded =>
      simp only [Request.perform, hpc] at h
      split at h
      · cases h
      · cases h
        exact .answered _ _ fun _ he => by cases he
  | incidentItem w =>
      simp only [Request.perform, hpc] at h
      split at h
      · cases h
        exact .answered _ _ fun _ he => by cases he
      · next hget =>
        cases h
        exact .readIncident w _ hget
  | incidentRca w wi =>
      simp only [Request.perform, hpc, Except.ok.injEq] at h
      rw [← h]
      exact .shown w wi

theorem attempt_effect (now : Int) (st : Stores) (q : Request) (o : Outcome) :
    RequestEffect now st q (q.attempt o now st).1 := by
  cases o with
  | ok => exact perform_effect now st q
  | fail e => exact .none
  | lost e => exact perform_effect now st q

theorem attempt_cases (q : Request) (o : Outcome) (now : Int) (st : Stores) :
    (∃ next, o = .ok ∧ (q.perform now st).2 = .ok next ∧ (q.attempt o now st).2 = q.goOn next) ∨
      ∃ e, (q.attempt o now st).2 = q.handle e ∧
        (o = .ok → (q.perform now st).2 = .error e) := by
  cases o with
  | ok =>
      cases hreply : (q.perform now st).2 with
      | ok next => exact .inl ⟨next, rfl, rfl, by rw [Request.attempt, hreply]; rfl⟩
      | error e => exact .inr ⟨e, by rw [Request.attempt, hreply]; rfl, fun _ => rfl⟩
  | fail e => exact .inr ⟨e, rfl, nofun⟩
  | lost e => exact .inr ⟨e, rfl, nofun⟩

/-- The reply of the scan that removal starts with. -/
theorem perform_feedMembers {q : Request} {w : Int} {wi : WorkItem} {result : TransitionResult}
    (hpc : q.pc = .feedMembers w wi result) (now : Int) (st : Stores) :
    q.perform now st =
      (st, .ok (zremNext w wi result (entriesOf w (zrange st.redis.liveFeed)))) := by
  simp only [Request.perform, hpc]

/-- Where an attempt takes a request. A failed operation of the cleanup ends the
cleanup, and one of the flush starts its transaction again. -/
inductive PcMove (now : Int) (st : Stores) (o : Outcome) : Pc → Pc → Prop
  | stay (pc) : PcMove now st o pc pc
  | readItem (w target wi) (hget : getWorkItem st.postgres w = some wi) :
      PcMove now st o (.transitionItem w target) (.transitionRca w target wi)
  | decided (w target wi result)
      (hresult : transition ⟨wi.state, .utc wi.startTime⟩ target
        ((getRca st.postgres w).map ofRow) now = .ok result) :
      PcMove now st o (.transitionRca w target wi) (.updateState w wi result)
  | closed (w wi result) (hstate : result.newState = .CLOSED) :
      PcMove now st o (.updateState w wi result) (.feedMembers w wi result)
  | moved (w wi result) (hstate : result.newState ≠ .CLOSED) :
      PcMove now st o (.updateState w wi result) (.fresh w result)
  | scanned (w wi result member rest)
      (hmembers : entriesOf w (zrange st.redis.liveFeed) = member :: rest) :
      PcMove now st o (.feedMembers w wi result) (.zremMember w wi result member rest)
  | scannedNone (w wi result) : PcMove now st o (.feedMembers w wi result) (.clearDedup w wi result)
  | removed (w wi result member next rest) :
      PcMove now st o (.zremMember w wi result member (next :: rest)) (.zremMember w wi result next rest)
  | removedLast (w wi result member) :
      PcMove now st o (.zremMember w wi result member []) (.clearDedup w wi result)
  | cleared (w wi result) : PcMove now st o (.clearDedup w wi result) (.fresh w result)
  | leftScan (w wi result) (ho : o ≠ .ok) :
      PcMove now st o (.feedMembers w wi result) (.fresh w result)
  | leftRemoval (w wi result member rest) (ho : o ≠ .ok) :
      PcMove now st o (.zremMember w wi result member rest) (.fresh w result)
  | checked (w body) : PcMove now st o (.submitItem w body) (.selectRca w body)
  | selected (w body) :
      PcMove now st o (.selectRca w body) (.flushRca w body (getRca st.postgres w))
  | retried (w body loaded) : PcMove now st o (.flushRca w body loaded) (.selectRca w body)
  | readIncident (w wi) (hget : getWorkItem st.postgres w = some wi) :
      PcMove now st o (.incidentItem w) (.incidentRca w wi)

theorem goOn_pcMove {q : Request} {now : Int} {st : Stores} {next : Next}
    (h : (q.perform now st).2 = .ok next) (o : Outcome) :
    PcMove now st o q.pc (q.goOn next).pc := by
  cases next with
  | respond r => exact .stay _
  | pc pc =>
      show PcMove now st o q.pc pc
      have hgo := perform_goesOn h
      generalize hpc : q.pc = pc₀, hn : Next.pc pc = n at hgo
      cases hgo with
      | readItem w target wi hget =>
          cases hn
          exact .readItem w target wi hget
      | decided w target wi result hresult =>
          cases hn
          exact .decided w target wi result hresult
      | closed w wi result hstate =>
          cases hn
          exact .closed w wi result hstate
      | moved w wi result hstate =>
          cases hn
          exact .moved w wi result hstate
      | scanned w wi result =>
          rw [perform_feedMembers hpc] at h
          cases hmembers : entriesOf w (zrange st.redis.liveFeed) with
          | nil =>
              rw [hmembers] at h
              cases h
              exact .scannedNone w wi result
          | cons member rest =>
              rw [hmembers] at h
              cases h
              exact .scanned w wi result member rest hmembers
      | removed w wi result member rest =>
          cases rest with
          | nil =>
              cases hn
              exact .removedLast w wi result member
          | cons next rest =>
              cases hn
              exact .removed w wi result member next rest
      | cleared w wi result =>
          cases hn
          exact .cleared w wi result
      | checked w body =>
          cases hn
          exact .checked w body
      | selected w body =>
          cases hn
          exact .selected w body
      | readIncident w wi hget =>
          cases hn
          exact .readIncident w wi hget
      | shown | answered => cases hn

theorem handle_pcMove {q : Request} {o : Outcome} {now : Int} {st : Stores} {e : Exc}
    (h : o = .ok → (q.perform now st).2 = .error e) : PcMove now st o q.pc (q.handle e).pc := by
  cases hpc : q.pc with
  | updateState | selectRca =>
      simp only [Request.handle, hpc, Request.retryOr]
      split
      · exact .stay _
      · simpa only [hpc] using PcMove.stay _
  | flushRca w body loaded =>
      simp only [Request.handle, hpc, Request.retryOr]
      split
      · exact .retried w body loaded
      · simpa only [hpc] using PcMove.stay _
  | feedMembers w wi result =>
      simp only [Request.handle, hpc, Request.goOn]
      refine .leftScan w wi result fun ho => ?_
      have herror := h ho
      simp only [Request.perform, hpc] at herror
      cases herror
  | zremMember w wi result member rest =>
      simp only [Request.handle, hpc, Request.goOn]
      refine .leftRemoval w wi result member rest fun ho => ?_
      have herror := h ho
      simp only [Request.perform, hpc] at herror
      cases herror
  | clearDedup w wi result =>
      simp only [Request.handle, hpc, Request.goOn]
      exact .cleared w wi result
  | transitionItem | transitionRca | fresh | submitItem | incidentItem | incidentRca =>
      simpa only [Request.handle, hpc] using PcMove.stay _

theorem attempt_pcMove (q : Request) (o : Outcome) (now : Int) (st : Stores) :
    PcMove now st o q.pc (q.attempt o now st).2.pc := by
  rcases attempt_cases q o now st with ⟨next, _, hreply, hnext⟩ | ⟨e, hnext, hreply⟩
  · rw [hnext]
    exact goOn_pcMove hreply o
  · rw [hnext]
    exact handle_pcMove hreply

end Ims.ApiSteps
