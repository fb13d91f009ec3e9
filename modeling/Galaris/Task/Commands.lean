import Galaris.Task.Scheduler

/-! What users and the executor do to a Task, each in one transaction.

The commands of users are those of `task_service.py`. Of the executor there are the
transactions of a run: it enters EXEC, activates the run, saves its progress, and applies
its result (`executor_service.py`, `agent_adapter.py`). A transaction that raises leaves
nothing, which is `none` here. -/
namespace Galaris.Tasks

/-! ### Commands of users -/

/-- `request_cancellation`. -/
def requestCancellation (C : Settings) (task : Task) : Option Task := do
  let task ← task.on .cancel
  let error := C.message "cancelled_by_user" []
  return {task with
    cancelRequested := task.lease.isSome
    lastError := some error
    feedback := some error
    nextAttemptAt := none}.clearPauses

/-- The transaction of `force_terminate`. -/
def forceTerminate (C : Settings) (now : Nat) (record : Record) : Option Record := do
  let reason := C.message "force_terminated_by_user" []
  let terminal := record.task.status.terminal
  let task ← if terminal then pure record.task else record.task.on .forceTerminate
  let attempts := match record.task.lease with
    | some lease => settle lease.token (fun attempt =>
        if attempt.finishedAt.isNone then
          {attempt with status := .cancelled, finishedAt := some now, retryable := false, error := some reason}
        else attempt) record.attempts
    | none => record.attempts
  let task := {task.clearLease with nextAttemptAt := none}
  let task := if terminal then task else {task with lastError := some reason, feedback := some reason}
  return ⟨task.clearPauses, attempts⟩

/-- `_interrupt_running_action`; `here` says that the action runs in this process. -/
def interruptRunningAction (here : Bool) (task : Task) : Option Task :=
  if !here && task.lease.isNone then some task
  else
    let task := if here then task else {task with cancelRequested := true}
    if task.status == .exec then do
      let task ← task.on .interruptExecution
      task.on .routeToExecution
    else some task

/-- `pause_tree`, on one Task of the tree. -/
def pauseTree (here : Bool) (task : Task) : Option Task :=
  if task.status.terminal then some task else interruptRunningAction here (task.suspend .user)

/-- `resume_tree`, on one Task of the tree; `childDone` says that the current step of its
plan is terminal. -/
def resumeTree (childDone : Bool) (task : Task) : Task :=
  let task := task.release .user
  if childDone && task.isPausedFor .plan then task.release .plan else task

/-- `preempt_running_agent_tasks`, on one of the running Tasks. -/
def preempt (here : Bool) (task : Task) : Option Task :=
  let task := if here then task else {task with cancelRequested := true}
  if task.status == .exec then do
    let task ← task.on .interruptExecution
    task.on .routeToExecution
  else some task

/-- `prepare_run_retry`. -/
def prepareRunRetry (C : Settings) (task : Task) : Task :=
  match task.checkpoint with
  | none => task
  | some checkpoint =>
    match C.prepareRetry checkpoint with
    | none => {task with checkpoint := none, identity := none}
    | some candidate => {task with checkpoint := some candidate}

/-- `retry`, on one Task: the event is that of its kind of Task. -/
def retryTask (C : Settings) (event : TaskEvent) (task : Task) : Option Task :=
  if !event.retries then none
  else do
    let task := if event == .retryRouting then task else prepareRunRetry C task
    let task ← task.on event
    let task ← if event == .retry then task.on .routeToExecution else pure task
    return {task.clearPauses with
      executionResult := none
      feedback := none
      lastError := none
      nextAttemptAt := none
      consecutiveFailures := 0
      cancelRequested := false}

/-! ### A run of the executor -/

/-- `_update_task_status`: the executor takes the Task that it loaded; a Task that changed
since is refused. -/
def startExecution (task : Task) : Option Task := if task.paused then none else task.on .startExecution

/-- `_persisted_request_run_id`, or a new one. -/
def requestRunId (fresh : Nat) (task : Task) : Nat :=
  ((task.checkpoint.map Checkpoint.runId).orElse fun _ => task.identity).getD fresh

/-- The claim of the token still owns the run. -/
def ownsRun (now token : Nat) (record : Record) : Bool :=
  record.task.lease.any (fun lease => lease.token == token && decide (now < lease.expires)) &&
    !record.task.status.terminal &&
    (record.attempts.any fun attempt => attempt.token == token && attempt.status == .claimed)

/-- `activate_agent_run`. -/
def activateAgentRun (now token fresh : Nat) (record : Record) : Option Record :=
  if ownsRun now token record && !record.task.paused && !record.task.cancelRequested then
    some {record with task := {record.task with identity := some (requestRunId fresh record.task)}}
  else none

/-- `persist_agent_run_state`: a partial result, and a checkpoint where the driver saves one. -/
def persistAgentRunState (now token : Nat) (checkpoint : Option Checkpoint) (result : Option ExecutionResult)
    (record : Record) : Option Record :=
  if ownsRun now token record then
    some {record with task := {record.task with
      checkpoint := checkpoint.orElse fun _ => record.task.checkpoint
      executionResult := result.orElse fun _ => record.task.executionResult}}
  else none

/-- The last 1000 events, and this one among them. -/
def noteEvent (event : AgentEvent) (attempt : Attempt) : Attempt :=
  {attempt with events := (attempt.events ++ [event]).drop (attempt.events.length + 1 - 1000)}

/-- `append_agent_run_event`: the worker's own attempt is found by its token, whatever the row and
the attempt have become. -/
def appendAgentRunEvent (token : Nat) (event : AgentEvent) (record : Record) : Record :=
  {record with attempts := settle token (noteEvent event) record.attempts}

/-- `_apply_run_result`. -/
def applyRunResult (result : ExecutionResult) (task : Task) : Task :=
  {task with
    executionResult := some result
    identity := none
    checkpoint := if result.success || result.disposition == .waitingForChildren then none else task.checkpoint}

/-- The run that asked is the one that ends, and its reply is not consumed. -/
def questionTurn (marker : InputRequest) (runId : Option Nat) : Bool :=
  marker.status == .delivered && !marker.consumed && marker.runId.isSome && marker.runId == runId

/-- `suspend_on_pending_input`, and whether the Task waits for input. -/
def suspendOnPendingInput (runId : Option Nat) (task : Task) : Option (Task × Bool) :=
  match task.input with
  | none => some (task, false)
  | some marker =>
    if marker.status == .delivered && !questionTurn marker runId then some (task, false)
    else do
      let task ← if task.status == .exec then task.on .interruptExecution else pure task
      if marker.status == .pending then return (task.suspend .input, true)
      else return ({task with input := some {marker with status := .delivered}}.release .input, true)

/-- `task_port.suspend(task, "approval")`. -/
def suspendForApproval (task : Task) : Option Task := do
  let task ← if task.status == .exec then task.on .interruptExecution else pure task
  return task.suspend .approval

/-- `suspend_on_pending_children`, given whether an await and a delegated child are still to
be folded, and whether the Task waits for them. -/
def suspendOnPendingChildren (awaits delegated : Bool) (task : Task) : Option (Task × Bool) :=
  if !awaits && !delegated then some (task, false)
  else do
    let task ← task.on .interruptExecution
    let task := if awaits then task.suspend .await else task
    return (if delegated then task.suspend .child else task, true)

/-- `_update_task_after_execution`; `blocked` says that the work plan declares a blocker. -/
def updateAfterExecution (result : ExecutionResult) (awaits delegated blocked : Bool) (feedback : Option String)
    (task : Task) : Option Task := do
  let authorization := result.disposition == .waitingForAuthorization
  let (task, input) ← suspendOnPendingInput result.runId task
  let task ← if authorization then suspendForApproval task
    else pure (if input then task else task.clearPauses)
  let (task, children) ← if input then pure (task, false) else suspendOnPendingChildren awaits delegated task
  let ends := !children && !authorization && !input
  let result := if ends && result.success && blocked then {result with success := false, failure := some .never}
    else result
  let task ← if ends then task.on (if result.success then .executionSucceeded else .executionFailed) else pure task
  return {task with executionResult := some result, feedback := feedback}

/-- The end of a run: the result is applied, and the Task is updated. -/
def finishRun (result : ExecutionResult) (awaits delegated blocked : Bool) (feedback : Option String) (task : Task) :
    Option Task :=
  updateAfterExecution result awaits delegated blocked feedback (applyRunResult result task)

end Galaris.Tasks
