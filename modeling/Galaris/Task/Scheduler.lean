import Galaris.Task.Row

/-! The transactions of the scheduler on one Task (`scheduler.py`).

A worker claims the row (`claim`, `claimInline`), renews its lease, and finalises its
claim: the action returned (`completeClaim`), raised (`failClaim`), or was cancelled
(`releaseCancelledClaim`). Every finalisation compares the token of the worker with the
one on the row. What no worker finalises is recovered once the lease has expired. -/
namespace Galaris.Tasks

/-! ### Attempts -/

/-- The attempt of a token, changed; tokens are unique. -/
def settle (token : Nat) (change : Attempt → Attempt) (attempts : List Attempt) : List Attempt :=
  attempts.map fun attempt => if attempt.token = token then change attempt else attempt

/-! ### Claims -/

/-- The phases that the scheduler has an action for. -/
def schedulerPhases : List TaskStatus := [.create, .dispatch, .plan]

/-- The filter of `_next_task` and of `_claim_specific`. -/
def claimable (now : Nat) (task : Task) : Bool :=
  schedulerPhases.contains task.status && !task.paused && !task.workflowOperation &&
    task.lease.all (fun lease => decide (lease.expires ≤ now)) &&
    task.nextAttemptAt.all (fun at' => decide (at' ≤ now)) && !task.deleted

/-- `_claim_locked_task`, once the agent and the budget admit the Task. -/
def claimLockedTask (C : Settings) (now token : Nat) (record : Record) : Record where
  task := {record.task with
    attemptCount := record.task.attemptCount + 1
    lease := some ⟨token, now + C.leaseSeconds⟩
    nextAttemptAt := none
    cancelRequested := false}
  attempts := record.attempts ++ [{number := record.task.attemptCount + 1, phase := record.task.status, token := token}]

/-- The claim of a scheduler. -/
def claim (C : Settings) (now token : Nat) (record : Record) : Record :=
  if claimable now record.task then claimLockedTask C now token record else record

/-- A claim that the budget refuses for now. -/
def deferClaim (now until' : Nat) (error : String) (record : Record) : Record :=
  if claimable now record.task then
    {record with task := {record.task with lastError := some error, nextAttemptAt := some until'}}
  else record

/-- `claim_inline_execution`. -/
def claimInline (C : Settings) (now token : Nat) (record : Record) : Record :=
  if record.task.status == .dispatch && record.task.lease.all (fun lease => decide (lease.expires ≤ now)) then
    let claimed := claimLockedTask C now token record
    {claimed with task := claimed.task.clearPauses}
  else record

/-- `_release_unstarted_claim`. -/
def releaseUnstartedClaim (C : Settings) (now token : Nat) (record : Record) : Record :=
  if record.task.leaseToken = some token then
    { task := record.task.clearLease
      attempts := settle token (fun attempt => {attempt with
        status := .cancelled
        finishedAt := some now
        error := some (C.message "interactive_slot_reserved" [])}) record.attempts }
  else record

/-- `_renew_lease`: the row it leaves, and whether the lease was renewed. -/
def renewLease (C : Settings) (now token : Nat) (record : Record) : Record × Bool :=
  match record.task.lease with
  | some lease =>
    if lease.token = token ∧ now < lease.expires ∧ record.task.deleted = false ∧ record.task.paused = false ∧
        record.task.cancelRequested = false then
      ({record with task := {record.task with lease := some ⟨token, now + C.leaseSeconds⟩}}, true)
    else (record, false)
  | none => (record, false)

/-! ### Finalisation -/

/-- The text of a failed result. -/
def failureText (result : Option ExecutionResult) : Option String :=
  result.bind fun result =>
    if !result.success && Texts.stripString result.result != ""
      then some (cut (Texts.stripString result.result)) else none

/-- The result is a failure. -/
def failedResult (result : Option ExecutionResult) : Bool := result.any fun result => !result.success

/-- How `_finalize_claim_outcome` closes the attempt. -/
def finalizeAttempt (C : Settings) (now : Nat) (task : Task) (attempt : Attempt) : Attempt :=
  let attempt := {attempt with finishedAt := some now}
  if task.status == .error then
    {attempt with status := .error, error := (failureText task.executionResult).orElse fun _ => attempt.error}
  else if task.isPausedFor .approval then {attempt with status := .waitingApproval}
  else if task.isPausedFor .await || task.isPausedFor .child then
    {attempt with
      status := .waitingChildren
      error := if failedResult task.executionResult then
          some ((failureText task.executionResult).getD (cut (C.message "interrupted_after_children" [])))
        else attempt.error}
  else {attempt with status := .success}

/-- The error that stays on the row: that of a failed result, or none. -/
def finalizedError (task : Task) : Option String :=
  if task.status == .error then (failureText task.executionResult).orElse fun _ => task.lastError else none

/-- `_finalize_claim_outcome`. -/
def finalizeClaimOutcome (C : Settings) (now token : Nat) (record : Record) : Record where
  task := {record.task with
    consecutiveFailures := 0
    nextAttemptAt := none
    lastError := finalizedError record.task}.clearLease
  attempts := settle token (finalizeAttempt C now record.task) record.attempts

/-- The phase a retry resumes at. -/
def retried (phase : TaskStatus) (task : Task) : Option Task :=
  if task.status == .error then
    if phase == .create then task.on .retryRouting
    else do
      let task ← task.on .retry
      if phase == .plan then task.on .routeToPlan else task.on .routeToExecution
  else if task.status == .exec then do
    let task ← task.on .interruptExecution
    task.on .routeToExecution
  else some task

/-- The result that a failed Task keeps. -/
def failedExecutionResult (feedback : String) : Option ExecutionResult → ExecutionResult
  | none => {success := false, result := feedback}
  | some result =>
    {result with success := false, result := if Texts.stripString result.result == "" then feedback else result.result}

/-- What becomes of the row where no retry is allowed. -/
def failedTask (C : Settings) (error : String) (task : Task) : Option Task := do
  let task ← if task.status == .error then pure task else task.on .fail
  let feedback := C.message "failed_after_attempts" [toString task.consecutiveFailures, error]
  return {task.clearPauses with
    nextAttemptAt := none
    feedback := some feedback
    executionResult := some (failedExecutionResult feedback task.executionResult)}

/-- `_fail_claim`. -/
def failClaim (C : Settings) (now token : Nat) (phase : TaskStatus) (exc : Raised) (record : Record) : Option Record :=
  if record.task.leaseToken ≠ some token then some record
  else if record.task.status == .success then some (finalizeClaimOutcome C now token record)
  else do
    let task := {record.task with consecutiveFailures := record.task.consecutiveFailures + 1}
    let again := C.canRetry task phase exc
    let attempts := settle token (fun attempt => {attempt with
      status := if again then .retry else .error
      retryable := again
      error := some exc.error
      finishedAt := some now}) record.attempts
    let task := {task with lastError := some exc.error}.clearLease
    if again then do
      let task ← retried phase task
      return ⟨{task with nextAttemptAt := some (now + (C.retryPolicy exc.error task.consecutiveFailures).2)}, attempts⟩
    else do
      let task ← failedTask C exc.error task
      return ⟨task, attempts⟩

/-- The error that `_complete_claim` reports of a failed action. -/
def outcomeError (C : Settings) (task : Task) : Raised where
  text := "RuntimeError: " ++ (match task.feedback with
    | some feedback => if feedback == "" then C.message "action_failed" [] else feedback
    | none => C.message "action_failed" [])

/-- The transaction of `_complete_claim`: the row it leaves, and the error that `_fail_claim`
is called with after it. -/
def closeClaim (C : Settings) (now token : Nat) (phase : TaskStatus) (record : Record) : Record × Option Raised :=
  if record.task.leaseToken ≠ some token then (record, none)
  else if record.task.status == .error && C.retryIsSafe record.task phase then
    (record, some (outcomeError C record.task))
  else (finalizeClaimOutcome C now token record, none)

/-- `_complete_claim`. -/
def completeClaim (C : Settings) (now token : Nat) (phase : TaskStatus) (record : Record) : Option Record :=
  match closeClaim C now token phase record with
  | (record, some error) => failClaim C now token phase error record
  | (record, none) => some record

/-- `_release_cancelled_claim`. -/
def releaseCancelledClaim (now token : Nat) (record : Record) : Option Record :=
  if record.task.leaseToken ≠ some token then some record
  else do
    let task ← if record.task.status == .exec then do
        let task ← record.task.on .interruptExecution
        task.on .routeToExecution
      else pure record.task
    return ⟨{task.clearLease with nextAttemptAt := none},
      settle token (fun attempt => {attempt with status := .cancelled, finishedAt := some now, stopped := true})
        record.attempts⟩

/-- `finish_inline_execution`; `error` is the text of a failure. -/
def finishInlineExecution (now token : Nat) (error : Option String) (cancelled : Bool) (record : Record) :
    Option Record :=
  if record.task.leaseToken ≠ some token then some record
  else do
    let task ← if !record.task.status.terminal && (cancelled || error.isSome) then do
        let task ← record.task.on (if cancelled then .cancel else .fail)
        pure task.clearPauses
      else pure record.task
    let task := match error with
      | some failure => {task with
          lastError := some failure, feedback := some failure, consecutiveFailures := task.consecutiveFailures + 1}
      | none => task
    return ⟨{task with nextAttemptAt := none}.clearLease,
      settle token (fun attempt => {attempt with
        status := if cancelled then .cancelled else if error.isSome || task.status == .error then .error else .success
        finishedAt := some now
        retryable := false
        error := error}) record.attempts⟩

/-! ### Recovery -/

/-- The error of an expired lease. -/
def leaseExpired : Raised := ⟨"TimeoutError: Scheduler lease expired before the action completed.", false, none⟩

/-- An EXEC row that no worker has a lease of. -/
def orphaned (task : Task) : Bool := task.status == .exec && task.lease.isNone && !task.paused && !task.deleted

/-- The orphan of `_recover_expired_leases`. -/
def recoverOrphan (C : Settings) (now : Nat) (record : Record) : Option Record :=
  if !orphaned record.task then some record
  else if C.retryIsSafe record.task .dispatch then do
    let task ← record.task.on .recoverExecution
    let task ← task.on .routeToExecution
    return {record with task := {task with
      nextAttemptAt := some now, lastError := some (C.message "orphan_recovered" [])}}
  else do
    let task ← record.task.on .fail
    return {record with task := {task.clearPauses with
      nextAttemptAt := none
      lastError := some (C.message "orphan_unsafe" [])
      feedback := some (C.message "orphan_unsafe" [])}}

/-- The attempt that the lease belongs to. -/
def Record.current (record : Record) : Option Attempt :=
  record.task.lease.bind fun lease => record.attempts.find? fun attempt => attempt.token == lease.token

/-- The row is among those whose lease has expired. -/
def expired (now : Nat) (task : Task) : Bool :=
    task.lease.any (fun lease => decide (lease.expires ≤ now)) && !task.deleted

/-- The expired lease of `_recover_expired_leases`, which fails the claim. -/
def recoverExpired (C : Settings) (now : Nat) (record : Record) : Option Record :=
  match record.current with
  | some attempt =>
    if expired now record.task then failClaim C now attempt.token attempt.phase leaseExpired record else some record
  | none => some record

end Galaris.Tasks
