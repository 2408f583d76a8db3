import Ims.RcaValidator

namespace Ims.States

open Time Models RcaValidator

structure WorkItemLike where
  state : WorkItemState
  startTime : Datetime
  deriving DecidableEq, Repr

structure TransitionResult where
  newState : WorkItemState
  endTime : Option Int := none
  mttrSeconds : Option Int := none
  deriving DecidableEq, Repr

inductive TransitionError
  | illegal (source target : WorkItemState)
  | rca (e : RcaError)
  deriving DecidableEq, Repr

abbrev Transition := Except TransitionError TransitionResult

/-- The class State: what each subclass does not override raises. -/
structure State where
  name : WorkItemState
  toOpen : WorkItemLike → Transition := fun _ => .error (.illegal name .OPEN)
  toInvestigating : WorkItemLike → Transition := fun _ => .error (.illegal name .INVESTIGATING)
  toResolved : WorkItemLike → Transition := fun _ => .error (.illegal name .RESOLVED)
  toClosed : WorkItemLike → Option RCALike → Int → Transition :=
    fun _ _ _ => .error (.illegal name .CLOSED)

def openState : State where
  name := .OPEN
  toInvestigating _ := .ok { newState := .INVESTIGATING }

def investigatingState : State where
  name := .INVESTIGATING
  toResolved _ := .ok { newState := .RESOLVED }
  toOpen _ := .ok { newState := .OPEN }

def resolvedState : State where
  name := .RESOLVED
  toClosed wi rca now := match validate rca with
    | .error e => .error (.rca e)
    | .ok () =>
        -- a naive start is given the zone UTC, which leaves its instant as it is
        let start := if wi.startTime.utcoffset = none then { wi.startTime with utcoffset := some 0 }
          else wi.startTime
        .ok { newState := .CLOSED, endTime := some now, mttrSeconds := some (now - start.instant) }
  toInvestigating _ := .ok { newState := .INVESTIGATING }

def closedState : State where
  name := .CLOSED

def stateFor : WorkItemState → State
  | .OPEN => openState
  | .INVESTIGATING => investigatingState
  | .RESOLVED => resolvedState
  | .CLOSED => closedState

/-- The entry point of all state changes. The argument now is the clock that
to_closed reads. -/
def transition (wi : WorkItemLike) (target : WorkItemState) (rca : Option RCALike) (now : Int) :
    Transition :=
  match target with
  | .OPEN => (stateFor wi.state).toOpen wi
  | .INVESTIGATING => (stateFor wi.state).toInvestigating wi
  | .RESOLVED => (stateFor wi.state).toResolved wi
  | .CLOSED => (stateFor wi.state).toClosed wi rca now

inductive Edge : WorkItemState → WorkItemState → Prop
  | claim : Edge .OPEN .INVESTIGATING
  | reopen : Edge .INVESTIGATING .OPEN
  | resolve : Edge .INVESTIGATING .RESOLVED
  | bounce : Edge .RESOLVED .INVESTIGATING
  | close : Edge .RESOLVED .CLOSED

instance (s t : WorkItemState) : Decidable (Edge s t) :=
  match s, t with
  | .OPEN, .INVESTIGATING => .isTrue .claim
  | .INVESTIGATING, .OPEN => .isTrue .reopen
  | .INVESTIGATING, .RESOLVED => .isTrue .resolve
  | .RESOLVED, .INVESTIGATING => .isTrue .bounce
  | .RESOLVED, .CLOSED => .isTrue .close
  | .OPEN, .OPEN | .OPEN, .RESOLVED | .OPEN, .CLOSED | .INVESTIGATING, .INVESTIGATING
  | .INVESTIGATING, .CLOSED | .RESOLVED, .OPEN | .RESOLVED, .RESOLVED | .CLOSED, .OPEN
  | .CLOSED, .INVESTIGATING | .CLOSED, .RESOLVED | .CLOSED, .CLOSED => .isFalse nofun

theorem transition_ok {wi : WorkItemLike} {target : WorkItemState} {rca : Option RCALike} {now : Int}
    {result : TransitionResult} (h : transition wi target rca now = .ok result) :
    Edge wi.state target ∧ result.newState = target ∧
      (target ≠ .CLOSED ∧ result.endTime = none ∧ result.mttrSeconds = none ∨
        target = .CLOSED ∧ validate rca = .ok () ∧ result.endTime = some now ∧
          result.mttrSeconds = some (now - wi.startTime.instant)) := by
  rcases wi with ⟨state, startTime⟩
  cases target <;> cases state <;>
    simp only [transition, stateFor, openState, investigatingState, resolvedState, closedState,
      reduceCtorEq, Except.ok.injEq] at h
  case INVESTIGATING.OPEN => subst h; exact ⟨.claim, rfl, .inl ⟨nofun, rfl, rfl⟩⟩
  case INVESTIGATING.RESOLVED => subst h; exact ⟨.bounce, rfl, .inl ⟨nofun, rfl, rfl⟩⟩
  case OPEN.INVESTIGATING => subst h; exact ⟨.reopen, rfl, .inl ⟨nofun, rfl, rfl⟩⟩
  case RESOLVED.INVESTIGATING => subst h; exact ⟨.resolve, rfl, .inl ⟨nofun, rfl, rfl⟩⟩
  case CLOSED.RESOLVED =>
    split at h
    · cases h
    · next hv =>
      cases h
      refine ⟨.close, rfl, .inr ⟨rfl, hv, rfl, ?_⟩⟩
      rcases startTime with ⟨wall, _ | offset⟩ <;> simp [Datetime.instant]

/-- The state objects accept exactly the edges, up to the RCA check on the one
to CLOSED. -/
theorem transition_illegal_iff (wi : WorkItemLike) (target : WorkItemState) (rca : Option RCALike)
    (now : Int) :
    transition wi target rca now = .error (.illegal wi.state target) ↔ ¬ Edge wi.state target := by
  rcases wi with ⟨state, startTime⟩
  cases target <;> cases state <;>
    simp only [transition, stateFor, openState, investigatingState, resolvedState, closedState,
      reduceCtorEq, true_iff, false_iff, not_not]
  case CLOSED.RESOLVED => cases validate rca <;> simp [Edge.close]
  all_goals first | constructor | exact nofun

theorem transition_of_edge {wi : WorkItemLike} {target : WorkItemState} {rca : Option RCALike}
    (hedge : Edge wi.state target) (hvalid : target = .CLOSED → validate rca = .ok ()) (now : Int) :
    ∃ result, transition wi target rca now = .ok result := by
  rcases wi with ⟨state, startTime⟩
  cases hedge with
  | claim | reopen | resolve | bounce => exact ⟨_, rfl⟩
  | close =>
      simp only [transition, stateFor, resolvedState, hvalid rfl]
      exact ⟨_, rfl⟩

theorem transition_error {wi : WorkItemLike} {target : WorkItemState} {rca : Option RCALike} {now : Int}
    {e : TransitionError} (h : transition wi target rca now = .error e) :
    ¬ Edge wi.state target ∧ e = .illegal wi.state target ∨
      ∃ err, e = .rca err ∧ target = .CLOSED ∧ validate rca = .error err := by
  by_cases hedge : Edge wi.state target
  · rcases wi with ⟨state, startTime⟩
    cases hedge with
    | claim | reopen | resolve | bounce => cases h
    | close =>
        simp only [transition, stateFor, resolvedState] at h
        split at h
        · next err hv =>
          cases h
          exact .inr ⟨err, rfl, rfl, hv⟩
        · cases h
  · rw [(transition_illegal_iff wi target rca now).mpr hedge] at h
    cases h
    exact .inl ⟨hedge, rfl⟩

end Ims.States
