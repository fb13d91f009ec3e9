import Mathlib.Data.List.Basic

/-! The phases of a Task (`workflow.py`): its lifecycle, without leases and pauses.

A phase changes by an event only, and an event says which phases it may come from
(`TRANSITIONS`). SUCCESS and ERROR are left by the retry events only (`terminal_final`). -/
namespace Galaris.Tasks

/-- `TaskStatus`. -/
inductive TaskStatus
  | create | pause | dispatch | exec | plan | success | error
  deriving DecidableEq, Repr

/-- `TaskEvent`. -/
inductive TaskEvent
  | routeToExecution | reassessOrganization | routeToPlan | startExecution | executionSucceeded | executionFailed
  | planSucceeded | planFailed | fail | interruptExecution | recoverExecution | retry | retryPlan
  | retryClosingAction | retryDelivery | retryRouting | revise | cancel | forceTerminate | activatePlanStep
  | resumeCollaboration | coordinationSucceeded | coordinationFailed
  deriving DecidableEq, Repr

structure TransitionRule where
  sources : List TaskStatus
  target : TaskStatus

/-- `_ACTIVE`. -/
def activePhases : List TaskStatus := [.create, .pause, .dispatch, .exec, .plan]

/-- `TRANSITIONS`. -/
def TRANSITIONS : TaskEvent → TransitionRule
  | .reassessOrganization => ⟨[.plan], .create⟩
  | .routeToExecution => ⟨[.create, .dispatch], .dispatch⟩
  | .routeToPlan => ⟨[.create, .dispatch, .plan], .plan⟩
  | .startExecution => ⟨[.dispatch], .exec⟩
  | .executionSucceeded => ⟨[.exec], .success⟩
  | .executionFailed => ⟨[.exec], .error⟩
  | .planSucceeded => ⟨[.plan], .success⟩
  | .planFailed => ⟨[.plan], .error⟩
  | .fail => ⟨activePhases, .error⟩
  | .interruptExecution => ⟨[.exec], .dispatch⟩
  | .recoverExecution => ⟨[.exec], .dispatch⟩
  | .retry => ⟨[.error], .dispatch⟩
  | .retryPlan => ⟨[.error], .plan⟩
  | .retryClosingAction => ⟨[.success], .dispatch⟩
  | .retryDelivery => ⟨[.success, .error], .dispatch⟩
  | .retryRouting => ⟨[.error], .create⟩
  | .revise => ⟨[.dispatch], .create⟩
  | .cancel => ⟨activePhases, .error⟩
  | .forceTerminate => ⟨activePhases, .error⟩
  | .activatePlanStep => ⟨[.plan, .dispatch], .dispatch⟩
  | .resumeCollaboration => ⟨[.dispatch], .dispatch⟩
  | .coordinationSucceeded => ⟨[.create, .pause, .dispatch], .success⟩
  | .coordinationFailed => ⟨[.create, .pause, .dispatch], .error⟩

/-- `transition`, on the phase; the source raises where this is `none`. -/
def transition (status : TaskStatus) (event : TaskEvent) : Option TaskStatus :=
  if status ∈ (TRANSITIONS event).sources then some (TRANSITIONS event).target else none

/-- `_TERMINAL_STATUSES`. -/
def TaskStatus.terminal (status : TaskStatus) : Bool := status == .success || status == .error

/-- The events that reopen a terminal Task. -/
def TaskEvent.retries : TaskEvent → Bool
  | .retry | .retryPlan | .retryClosingAction | .retryDelivery | .retryRouting => true
  | _ => false

theorem transition_eq_some {status target : TaskStatus} {event : TaskEvent} :
    transition status event = some target ↔ status ∈ (TRANSITIONS event).sources ∧
        target = (TRANSITIONS event).target := by
  unfold transition
  split
  · next hmem => simp [hmem, eq_comm]
  · next hmem => simp [hmem]

/-- No other event leaves SUCCESS or ERROR. -/
theorem terminal_final {status : TaskStatus} {event : TaskEvent} (hterminal : status.terminal = true)
    (hevent : event.retries = false) : transition status event = none := by
  cases event <;> cases hevent <;> cases status <;> cases hterminal <;> rfl

/-- EXEC is left for a terminal phase, or by an interruption or a recovery. -/
theorem leaves_exec {target : TaskStatus} {event : TaskEvent} (h : transition .exec event = some target) :
    target.terminal = true ∨ event = .interruptExecution ∨ event = .recoverExecution := by
  cases event <;> cases h <;> simp [TRANSITIONS, TaskStatus.terminal]

end Galaris.Tasks
