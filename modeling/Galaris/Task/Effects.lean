import Galaris.Task.System

/-! What each transaction does to the row.

One lemma for each transaction whose definition branches: its result in normal form, with
the guards of the branch. The properties of runs are derived from these, and no later
proof unfolds a transaction of the scheduler or of the executor again. -/
namespace Galaris.Tasks

/-! ### Pauses and phases -/

theorem leaseToken_none {task : Task} (h : task.lease = none) : task.leaseToken = none := by simp [Task.leaseToken, h]

/-- The token is that of the lease. -/
theorem leaseToken_congr {task task' : Task} (h : task'.lease = task.lease) : task'.leaseToken = task.leaseToken := by
  simp [Task.leaseToken, h]

theorem Task.suspend_eq (task : Task) (reason : PauseReason) :
    task.suspend reason = {task with
      pauseReasons := if task.isPausedFor reason then task.pauseReasons else task.pauseReasons ++ [reason]} := by
  unfold Task.suspend
  split <;> rfl

/-- A suspension keeps the reasons there are. -/
theorem Task.mem_suspend {task : Task} {reason reason' : PauseReason} (h : reason' ∈ task.pauseReasons) :
    reason' ∈ (task.suspend reason).pauseReasons := by
  rw [Task.suspend_eq]
  dsimp only
  split
  · exact h
  · exact List.mem_append_left _ h

/-- A suspension adds no other reason. -/
theorem Task.of_mem_suspend {task : Task} {reason reason' : PauseReason}
    (h : reason' ∈ (task.suspend reason).pauseReasons) :
    reason' ∈ task.pauseReasons ∨ reason' = reason := by
  rw [Task.suspend_eq] at h
  dsimp only at h
  split at h
  · exact .inl h
  · exact (List.mem_append.mp h).imp_right List.mem_singleton.mp

/-- A release takes one reason away. -/
theorem Task.mem_release {task : Task} {reason reason' : PauseReason} :
    reason' ∈ (task.release reason).pauseReasons ↔ reason' ∈ task.pauseReasons ∧ reason' ≠ reason := by
  simp [Task.release]

theorem Task.isPausedFor_iff {task : Task} {reason : PauseReason} :
    task.isPausedFor reason = true ↔ reason ∈ task.pauseReasons := by
  simp [Task.isPausedFor]

/-- A held Task is paused. -/
theorem Task.paused_of_held {task : Task} (h : PauseReason.user ∈ task.pauseReasons) : task.paused = true := by
  cases hreasons : task.pauseReasons with
  | nil =>
    rw [hreasons] at h
    cases h
  | cons reason rest => simp [Task.paused, hreasons]

/-- The run of a Task is interrupted at EXEC only, and waits to be dispatched. -/
theorem Task.interrupt_eq_some {task task' : Task} :
    task.on .interruptExecution = some task' ↔ task.status = .exec ∧ task' = {task with status := .dispatch} := by
  rw [Task.on_eq_some]
  simp [TRANSITIONS]

/-- Interrupted and routed again. -/
theorem interrupted_eq {task : Task} (h : task.status = .exec) :
    (task.on .interruptExecution).bind (fun task => task.on .routeToExecution) =
    some {task with status := .dispatch} := by
  simp [Task.on, transition, TRANSITIONS, h]

/-! ### The end of a claim -/

/-- The phase that a failed claim resumes at. -/
def resumePhase (phase status : TaskStatus) : TaskStatus :=
  match status with
  | .error => match phase with
    | .create => .create
    | .plan => .plan
    | _ => .dispatch
  | .exec => .dispatch
  | status => status

theorem retried_eq (phase : TaskStatus) (task : Task) :
    retried phase task = some {task with status := resumePhase phase task.status} := by
  obtain ⟨status, reasons⟩ := task
  cases status with
  | error => cases phase <;> rfl
  | _ => rfl

/-- A Task is not reopened into a terminal phase, nor into EXEC. -/
theorem resumePhase_error (phase : TaskStatus) : resumePhase phase .error ≠ .error := by
  cases phase <;> decide

/-- The failure is counted. -/
def Task.counted (task : Task) : Task := {task with consecutiveFailures := task.consecutiveFailures + 1}

/-- The retry policy admits another attempt after this failure. -/
def admitsRetry (C : Settings) (phase : TaskStatus) (exc : Raised) (task : Task) : Bool :=
    C.canRetry task.counted phase exc

/-- The row of a claim that is retried. -/
def retriedTask (C : Settings) (now : Nat) (phase : TaskStatus) (exc : Raised) (task : Task) : Task :=
  {task.counted.clearLease with
    status := resumePhase phase task.status
    lastError := some exc.error
    nextAttemptAt := some (now + (C.retryPolicy exc.error (task.consecutiveFailures + 1)).2)}

/-- The row of a claim that fails for good. -/
def abandonedTask (C : Settings) (exc : Raised) (task : Task) : Task :=
  let feedback := C.message "failed_after_attempts" [toString (task.consecutiveFailures + 1), exc.error]
  {task.counted.clearLease.clearPauses with
    status := .error
    lastError := some exc.error
    nextAttemptAt := none
    feedback := some feedback
    executionResult := some (failedExecutionResult feedback task.executionResult)}

/-- How `_fail_claim` closes the attempt. -/
def failedAttempt (now : Nat) (exc : Raised) (again : Bool) (attempt : Attempt) : Attempt :=
  {attempt with
    status := if again then .retry else .error
    retryable := again
    error := some exc.error
    finishedAt := some now}

/-- A claim that fails under a lost token changes nothing. -/
theorem failClaim_stale {C : Settings} {now token : Nat} {phase : TaskStatus} {exc : Raised} {record : Record}
    (h : record.task.leaseToken ≠ some token) : failClaim C now token phase exc record = some record := by
  simp [failClaim, h]

/-- On a Task that has succeeded only the claim is closed. -/
theorem failClaim_success {C : Settings} {now token : Nat} {phase : TaskStatus} {exc : Raised} {record : Record}
    (h : record.task.leaseToken = some token) (hstatus : record.task.status = .success) :
    failClaim C now token phase exc record = some (finalizeClaimOutcome C now token record) := by
  simp [failClaim, h, hstatus]

/-- Where a retry is admitted, the Task waits for it. -/
theorem failClaim_retry {C : Settings} {now token : Nat} {phase : TaskStatus} {exc : Raised} {record : Record}
    (h : record.task.leaseToken = some token) (hstatus : record.task.status ≠ .success)
    (hretry : admitsRetry C phase exc record.task = true) :
    failClaim C now token phase exc record =
      some ⟨retriedTask C now phase exc record.task, settle token (failedAttempt now exc true) record.attempts⟩ := by
  have hagain : C.canRetry {record.task with
      consecutiveFailures := record.task.consecutiveFailures + 1} phase exc = true :=
    hretry
  simp only [failClaim, h, beq_eq_false_iff_ne.mpr hstatus, hagain, ne_eq, not_true_eq_false, if_true, if_false,
    Bool.false_eq_true, Option.bind_eq_bind, Option.pure_def, retried_eq, Option.bind_some]
  rfl

/-- Where none is, the Task has failed. -/
theorem failClaim_abandoned {C : Settings} {now token : Nat} {phase : TaskStatus} {exc : Raised} {record : Record}
    (h : record.task.leaseToken = some token) (hstatus : record.task.status ≠ .success)
    (hretry : admitsRetry C phase exc record.task = false) :
    failClaim C now token phase exc record =
      some ⟨abandonedTask C exc record.task, settle token (failedAttempt now exc false) record.attempts⟩ := by
  have hagain : C.canRetry {record.task with
      consecutiveFailures := record.task.consecutiveFailures + 1} phase exc = false :=
    hretry
  simp only [failClaim, h, beq_eq_false_iff_ne.mpr hstatus, hagain, ne_eq, not_true_eq_false, if_false,
    Bool.false_eq_true, Option.bind_eq_bind, Option.pure_def]
  obtain ⟨task, attempts⟩ := record
  obtain ⟨status, reasons⟩ := task
  cases status with
  | success => exact absurd rfl hstatus
  | _ => rfl

/-- The ways `_fail_claim` leaves a row. -/
inductive FailedClaim (C : Settings) (now token : Nat) (phase : TaskStatus) (exc : Raised)
    (record : Record) : Record → Prop
  | stale : record.task.leaseToken ≠ some token → FailedClaim C now token phase exc record record
  | success : record.task.leaseToken = some token → record.task.status = .success →
    FailedClaim C now token phase exc record (finalizeClaimOutcome C now token record)
  | retry : record.task.leaseToken = some token → record.task.status ≠ .success →
    admitsRetry C phase exc record.task = true →
    FailedClaim C now token phase exc record
      ⟨retriedTask C now phase exc record.task, settle token (failedAttempt now exc true) record.attempts⟩
  | abandon : record.task.leaseToken = some token → record.task.status ≠ .success →
    admitsRetry C phase exc record.task = false →
    FailedClaim C now token phase exc record
      ⟨abandonedTask C exc record.task, settle token (failedAttempt now exc false) record.attempts⟩

/-- What a claim that fails may do. -/
theorem failClaim_cases {C : Settings} {now token : Nat} {phase : TaskStatus} {exc : Raised} {record record' : Record}
    (h : failClaim C now token phase exc record = some record') : FailedClaim C now token phase exc record record' := by
  by_cases htoken : record.task.leaseToken = some token
  · by_cases hstatus : record.task.status = .success
    · rw [failClaim_success htoken hstatus] at h
      cases h
      exact .success htoken hstatus
    · cases hretry : admitsRetry C phase exc record.task with
      | true =>
        rw [failClaim_retry htoken hstatus hretry] at h
        cases h
        exact .retry htoken hstatus hretry
      | false =>
        rw [failClaim_abandoned htoken hstatus hretry] at h
        cases h
        exact .abandon htoken hstatus hretry
  · rw [failClaim_stale htoken] at h
    cases h
    exact .stale htoken

/-- A worker that fails its claim knows the phase of its attempt. -/
theorem fail_eq_some {C : Settings} {now token : Nat} {exc : Raised} {record record' : Record}
    (h : Command.apply C record (.fail now token exc) = some record') :
    ∃ attempt, record.attempt token = some attempt ∧ failClaim C now token attempt.phase exc record = some record' :=
  (Record.worker_eq_some (f := fun phase => failClaim C now token phase exc)).mp h

/-- A claim is closed under its own token only. -/
theorem closeClaim_cases (C : Settings) (now token : Nat) (phase : TaskStatus) (record : Record) :
    (closeClaim C now token phase record).1 = record ∨
      record.task.leaseToken = some token ∧
        (closeClaim C now token phase record).1 = finalizeClaimOutcome C now token record := by
  unfold closeClaim
  split
  · exact .inl rfl
  · next htoken =>
    split
    · exact .inl rfl
    · exact .inr ⟨by simpa using htoken, rfl⟩

/-- A claim is completed under its own token only. -/
theorem complete_cases {C : Settings} {now token : Nat} {record record' : Record}
    (h : Command.apply C record (.complete now token) = some record') :
    record' = record ∨ record.task.leaseToken = some token ∧ record' = finalizeClaimOutcome C now token record := by
  obtain ⟨attempt, _, hclosed⟩ :=
    (Record.worker_eq_some (f := fun phase record => some (closeClaim C now token phase record).1)).mp h
  cases hclosed
  exact closeClaim_cases C now token attempt.phase record

/-- The attempt of a cancelled claim. -/
def cancelledAttempt (now : Nat) (attempt : Attempt) : Attempt :=
  {attempt with status := .cancelled, finishedAt := some now, stopped := true}

/-- A claim is released after a cancellation under its own token only. -/
theorem releaseCancelledClaim_cases {now token : Nat} {record record' : Record}
    (h : releaseCancelledClaim now token record = some record') :
    (record.task.leaseToken ≠ some token ∧ record' = record) ∨
      record.task.leaseToken = some token ∧
        record' = ⟨{record.task.clearLease with
            status := if record.task.status = .exec then .dispatch else record.task.status
            nextAttemptAt := none},
          settle token (cancelledAttempt now) record.attempts⟩ := by
  by_cases htoken : record.task.leaseToken = some token
  · right
    refine ⟨htoken, ?_⟩
    simp only [releaseCancelledClaim, htoken, ne_eq, not_true_eq_false, if_false, Option.bind_eq_bind,
      Option.pure_def, beq_iff_eq] at h
    by_cases hexec : record.task.status = .exec
    · rw [if_pos hexec, Task.interrupt_eq_some.mpr ⟨hexec, rfl⟩] at h
      cases h
      rw [if_pos hexec]
      rfl
    · rw [if_neg hexec] at h
      cases h
      rw [if_neg hexec]
      rfl
  · left
    simp only [releaseCancelledClaim, htoken, ne_eq, not_false_eq_true, if_true, Option.some.injEq] at h
    exact ⟨htoken, h.symm⟩

/-- The attempt of an inline run that ended. -/
def inlineAttempt (now : Nat) (error : Option String) (cancelled failed : Bool) (attempt : Attempt) : Attempt :=
  {attempt with
    status := if cancelled then .cancelled else if failed then .error else .success
    finishedAt := some now
    retryable := false
    error := error}

/-- The inline run ends the Task: it was cancelled or it failed, and the Task is not terminal. -/
def endsInline (error : Option String) (cancelled : Bool) (task : Task) : Bool :=
  !task.status.terminal && (cancelled || error.isSome)

/-- An inline execution is ended under its own token only. -/
theorem finishInlineExecution_cases {now token : Nat} {error : Option String} {cancelled : Bool}
    {record record' : Record}
    (h : finishInlineExecution now token error cancelled record = some record') :
    (record.task.leaseToken ≠ some token ∧ record' = record) ∨
      record.task.leaseToken = some token ∧ ∃ failed,
        record'.attempts = settle token (inlineAttempt now error cancelled failed) record.attempts ∧
        record'.task.lease = none ∧ record'.task.nextAttemptAt = none ∧
        record'.task.attemptCount = record.task.attemptCount ∧ record'.task.identity = record.task.identity ∧
        record'.task.checkpoint = record.task.checkpoint ∧
        (endsInline error cancelled record.task = true ∧ record'.task.status = .error ∧ record'.task.pauseReasons = [] ∨
          endsInline error cancelled record.task = false ∧ record'.task.status = record.task.status ∧
            record'.task.pauseReasons = record.task.pauseReasons) := by
  by_cases htoken : record.task.leaseToken = some token
  · right
    refine ⟨htoken, ?_⟩
    simp only [finishInlineExecution, htoken, ne_eq, not_true_eq_false, if_false, Option.bind_eq_bind,
      Option.pure_def] at h
    by_cases hends : (!record.task.status.terminal && (cancelled || error.isSome)) = true
    · rw [if_pos hends] at h
      obtain ⟨ended, hended, h⟩ := Option.bind_eq_some_iff.mp h
      have hstatus : ended = {record.task with status := .error} := by
        cases cancelled with
        | true => exact (Task.on_eq_some.mp hended).2
        | false => exact (Task.on_eq_some.mp hended).2
      cases hstatus
      cases h
      cases error with
      | none => exact ⟨_, rfl, rfl, rfl, rfl, rfl, rfl, .inl ⟨hends, rfl, rfl⟩⟩
      | some failure => exact ⟨_, rfl, rfl, rfl, rfl, rfl, rfl, .inl ⟨hends, rfl, rfl⟩⟩
    · rw [if_neg hends] at h
      have hends := Bool.eq_false_iff.mpr hends
      cases h
      cases error with
      | none => exact ⟨_, rfl, rfl, rfl, rfl, rfl, rfl, .inr ⟨hends, rfl, rfl⟩⟩
      | some failure => exact ⟨_, rfl, rfl, rfl, rfl, rfl, rfl, .inr ⟨hends, rfl, rfl⟩⟩
  · left
    simp only [finishInlineExecution, htoken, ne_eq, not_false_eq_true, if_true, Option.some.injEq] at h
    exact ⟨htoken, h.symm⟩

theorem recoverOrphan_cases {C : Settings} {now : Nat} {record record' : Record}
    (h : recoverOrphan C now record = some record') :
    orphaned record.task = false ∧ record' = record ∨
      orphaned record.task = true ∧ record'.attempts = record.attempts ∧ record'.task.lease = none ∧
      record'.task.attemptCount = record.task.attemptCount ∧ record'.task.identity = record.task.identity ∧
      record'.task.checkpoint = record.task.checkpoint ∧ record'.task.pauseReasons = [] ∧
      record'.task.status = (if C.retryIsSafe record.task .dispatch then .dispatch else .error) := by
  by_cases horphan : orphaned record.task = true
  · right
    have hparts : record.task.status = .exec ∧ record.task.lease = none ∧ record.task.pauseReasons = [] := by
      simp only [orphaned, Task.paused, Bool.and_eq_true, beq_iff_eq, Option.isNone_iff_eq_none, Bool.not_not,
        List.isEmpty_iff] at horphan
      exact ⟨horphan.1.1.1, horphan.1.1.2, horphan.1.2⟩
    refine ⟨horphan, ?_⟩
    simp only [recoverOrphan, horphan, Bool.not_true, Bool.false_eq_true, if_false, Option.bind_eq_bind,
      Option.pure_def] at h
    by_cases hsafe : C.retryIsSafe record.task .dispatch = true
    · rw [if_pos hsafe, Task.on_eq_some.mpr ⟨by simp [TRANSITIONS, hparts.1], rfl⟩] at h
      cases h
      rw [if_pos hsafe]
      exact ⟨rfl, hparts.2.1, rfl, rfl, rfl, hparts.2.2, rfl⟩
    · rw [if_neg hsafe, Task.on_eq_some.mpr ⟨by simp [TRANSITIONS, activePhases, hparts.1], rfl⟩] at h
      cases h
      rw [if_neg hsafe]
      exact ⟨rfl, hparts.2.1, rfl, rfl, rfl, rfl, rfl⟩
  · left
    rw [recoverOrphan, if_pos (by simpa using horphan)] at h
    exact ⟨by simpa using horphan, (Option.some.inj h).symm⟩

/-! ### Commands of users -/

/-- A cancellation ends a Task that has not ended. -/
theorem requestCancellation_eq_some {C : Settings} {task task' : Task} (h : requestCancellation C task = some task') :
    task.status.terminal = false ∧ task'.status = .error ∧ task'.nextAttemptAt = none ∧ task'.lease = task.lease ∧
      task'.attemptCount = task.attemptCount ∧ task'.pauseReasons = [] := by
  obtain ⟨ended, hended, h⟩ := Option.bind_eq_some_iff.mp h
  obtain ⟨hactive, rfl⟩ := Task.on_eq_some.mp hended
  cases h
  refine ⟨?_, rfl, rfl, rfl, rfl, rfl⟩
  simp only [TRANSITIONS, activePhases, List.mem_cons, List.not_mem_nil, or_false] at hactive
  rcases hactive with hstatus | hstatus | hstatus | hstatus | hstatus <;> rw [hstatus] <;> rfl

/-- The attempt of a lease that a forced end frees. -/
def terminatedAttempt (now : Nat) (reason : String) (attempt : Attempt) : Attempt :=
  if attempt.finishedAt.isNone then
    {attempt with status := .cancelled, finishedAt := some now, retryable := false, error := some reason}
  else attempt

/-- A forced end leaves neither lease nor retry. -/
theorem forceTerminate_eq_some {C : Settings} {now : Nat} {record record' : Record}
    (h : forceTerminate C now record = some record') :
    record'.task.lease = none ∧ record'.task.nextAttemptAt = none ∧ record'.task.pauseReasons = [] ∧
      record'.task.attemptCount = record.task.attemptCount ∧
      record'.task.status = (if record.task.status.terminal then record.task.status else .error) ∧
      record'.attempts = (match record.task.lease with
        | some lease =>
          settle lease.token (terminatedAttempt now (C.message "force_terminated_by_user" [])) record.attempts
        | none => record.attempts) := by
  simp only [forceTerminate, Option.bind_eq_bind, Option.pure_def] at h
  by_cases hterminal : record.task.status.terminal = true
  · rw [if_pos hterminal] at h
    cases h
    rw [if_pos hterminal, if_pos hterminal]
    exact ⟨rfl, rfl, rfl, rfl, rfl, rfl⟩
  · rw [if_neg hterminal] at h
    obtain ⟨ended, hended, h⟩ := Option.bind_eq_some_iff.mp h
    obtain ⟨_, rfl⟩ := Task.on_eq_some.mp hended
    cases h
    rw [if_neg hterminal, if_neg hterminal]
    exact ⟨rfl, rfl, rfl, rfl, rfl, rfl⟩

/-- A running Task that is interrupted is routed again; any other keeps its phase. -/
def interrupted (task : Task) : Task := {task with status := if task.status = .exec then .dispatch else task.status}

theorem interrupted_ne_exec (task : Task) : (interrupted task).status ≠ .exec := by
  unfold interrupted
  dsimp only
  split
  · decide
  · next h => exact h

theorem interrupted_terminal (task : Task) : (interrupted task).status.terminal = task.status.terminal := by
  unfold interrupted
  dsimp only
  split
  · next h => rw [h]; rfl
  · rfl

theorem preempt_eq (here : Bool) (task : Task) :
    preempt here task = some (interrupted (if here then task else {task with cancelRequested := true})) := by
  unfold preempt interrupted
  generalize (if here then task else {task with cancelRequested := true}) = task
  by_cases hexec : task.status = .exec
  · rw [if_pos (beq_iff_eq.mpr hexec), if_pos hexec]
    exact interrupted_eq hexec
  · rw [if_neg (by simpa using hexec), if_neg hexec]

theorem interruptRunningAction_eq (here : Bool) (task : Task) :
    interruptRunningAction here task = if !here && task.lease.isNone then some task else preempt here task := rfl

/-- A pause writes the hold, the phase and the flag only. -/
theorem pauseTree_eq_some {here : Bool} {task task' : Task} (h : pauseTree here task = some task') :
    (task.status.terminal = true ∧ task' = task) ∨
      task.status.terminal = false ∧ (task' = task.suspend .user ∨
        ∃ flag, task' = interrupted {task.suspend .user with cancelRequested := flag}) := by
  unfold pauseTree at h
  by_cases hterminal : task.status.terminal = true
  · rw [if_pos hterminal] at h
    exact .inl ⟨hterminal, (Option.some.inj h).symm⟩
  · rw [if_neg hterminal, interruptRunningAction_eq, preempt_eq] at h
    refine .inr ⟨Bool.eq_false_iff.mpr hterminal, ?_⟩
    split at h
    · exact .inl (Option.some.inj h).symm
    · right
      cases here with
      | true => exact ⟨_, (Option.some.inj h).symm⟩
      | false => exact ⟨true, (Option.some.inj h).symm⟩

/-- A pause does not take the lease. -/
theorem pauseTree_lease {here : Bool} {task task' : Task} (h : pauseTree here task = some task') :
    task'.leaseToken = task.leaseToken := by
  obtain ⟨_, hsame⟩ | ⟨_, hheld | ⟨flag, hheld⟩⟩ := pauseTree_eq_some h
  · rw [hsame]
  · rw [hheld, Task.suspend_eq]
    rfl
  · rw [hheld, Task.suspend_eq]
    rfl

/-- A retry command neither claims nor counts. -/
theorem retryTask_frame {C : Settings} {event : TaskEvent} {task task' : Task}
    (h : retryTask C event task = some task') :
    task'.lease = task.lease ∧ task'.attemptCount = task.attemptCount := by
  have hprepared : (prepareRunRetry C task).lease = task.lease ∧
      (prepareRunRetry C task).attemptCount = task.attemptCount := by
    unfold prepareRunRetry
    split
    · exact ⟨rfl, rfl⟩
    · split <;> exact ⟨rfl, rfl⟩
  unfold retryTask at h
  split at h
  · cases h
  · simp only [Option.bind_eq_bind, Option.pure_def] at h
    obtain ⟨moved, hmoved, h⟩ := Option.bind_eq_some_iff.mp h
    have hframe : moved.lease = task.lease ∧ moved.attemptCount = task.attemptCount := by
      obtain ⟨_, rfl⟩ := Task.on_eq_some.mp hmoved
      split
      · exact ⟨rfl, rfl⟩
      · exact hprepared
    split at h
    · obtain ⟨routed, hrouted, h⟩ := Option.bind_eq_some_iff.mp h
      obtain ⟨_, rfl⟩ := Task.on_eq_some.mp hrouted
      cases h
      exact hframe
    · cases h
      exact hframe

/-- A resumption drops the hold, and the wait for a plan whose step is done, and nothing else. -/
theorem resume_eq_some {C : Settings} {childDone : Bool} {record record' : Record}
    (h : Command.apply C record (.resume childDone) = some record') :
    ∃ reasons, record' = {record with task := {record.task with pauseReasons := reasons}} ∧
      (∀ reason ∈ reasons, reason ∈ record.task.pauseReasons) ∧
      ∀ reason ∈ record.task.pauseReasons, reason ≠ .user → reason ≠ .plan → reason ∈ reasons := by
  cases h
  unfold resumeTree
  dsimp only
  split
  · refine ⟨_, rfl, fun reason hmem => ?_, fun reason hmem huser hplan => ?_⟩
    · exact (Task.mem_release.mp (Task.mem_release.mp hmem).1).1
    · exact Task.mem_release.mpr ⟨Task.mem_release.mpr ⟨hmem, huser⟩, hplan⟩
  · refine ⟨_, rfl, fun reason hmem => ?_, fun reason hmem huser _ => ?_⟩
    · exact (Task.mem_release.mp hmem).1
    · exact Task.mem_release.mpr ⟨hmem, huser⟩

/-- What another writer leaves to the scheduler and to the run. -/
structure WriteFrame (event : Option TaskEvent) (task task' : Task) : Prop where
  lease : task'.lease = task.lease
  nextAttemptAt : task'.nextAttemptAt = task.nextAttemptAt
  attemptCount : task'.attemptCount = task.attemptCount
  identity : task'.identity = task.identity
  checkpoint : task'.checkpoint = task.checkpoint
  status : event = none ∧ task'.status = task.status ∨
    ∃ moved, event = some moved ∧ moved.retries = false ∧ transition task.status moved = some task'.status

theorem write_frame {event : Option TaskEvent} {written task task' : Task}
    (h : Task.write event written task = some task') :
    WriteFrame event task task' := by
  unfold Task.write at h
  cases event with
  | none =>
    cases h
    exact ⟨rfl, rfl, rfl, rfl, rfl, .inl ⟨rfl, rfl⟩⟩
  | some moved =>
    simp only [Option.bind_eq_bind, Option.pure_def] at h
    split at h
    · cases h
    · next hretries =>
      obtain ⟨after, hafter, h⟩ := Option.bind_eq_some_iff.mp h
      obtain ⟨hmem, rfl⟩ := Task.on_eq_some.mp hafter
      cases h
      exact ⟨rfl, rfl, rfl, rfl, rfl, .inr ⟨moved, rfl, by simpa using hretries, transition_eq_some.mpr ⟨hmem, rfl⟩⟩⟩

/-! ### Claims -/

theorem dispatch_scheduled : TaskStatus.dispatch ∈ schedulerPhases := by decide

theorem scheduled_active {status : TaskStatus} (h : status ∈ schedulerPhases) :
    status ≠ .exec ∧ status.terminal = false := by
  revert h
  cases status <;> decide

/-- A claim takes a Task that may be claimed. -/
theorem claim_cases (C : Settings) (now token : Nat) (record : Record) :
    claim C now token record = record ∨
      claimable now record.task = true ∧ claim C now token record = claimLockedTask C now token record := by
  unfold claim
  split
  · next h => exact .inr ⟨h, rfl⟩
  · exact .inl rfl

/-- A Task that may be claimed is in a phase of the scheduler, and not paused. -/
theorem claimable_phase {now : Nat} {task : Task} (h : claimable now task = true) :
    task.status ∈ schedulerPhases ∧ task.paused = false := by
  simp only [claimable, Bool.and_eq_true, Bool.not_eq_true'] at h
  exact ⟨List.contains_iff_mem.mp h.1.1.1.1.1, h.1.1.1.1.2⟩

theorem claimInline_cases (C : Settings) (now token : Nat) (record : Record) :
    claimInline C now token record = record ∨
      (record.task.status = .dispatch ∧ record.task.lease.all (fun lease => decide (lease.expires ≤ now)) = true) ∧
        claimInline C now token record =
          {claimLockedTask C now token record with task := (claimLockedTask C now token record).task.clearPauses} := by
  unfold claimInline
  split
  · next h =>
    simp only [Bool.and_eq_true, beq_iff_eq] at h
    exact .inr ⟨h, rfl⟩
  · exact .inl rfl

theorem deferClaim_cases (now until' : Nat) (error : String) (record : Record) :
    deferClaim now until' error record = record ∨ claimable now record.task = true ∧
      deferClaim now until' error record =
        {record with task := {record.task with lastError := some error, nextAttemptAt := some until'}} := by
  unfold deferClaim
  split
  · next h => exact .inr ⟨h, rfl⟩
  · exact .inl rfl

/-- The attempt of a claim that did not start. -/
def unstartedAttempt (C : Settings) (now : Nat) (attempt : Attempt) : Attempt :=
  {attempt with
    status := .cancelled
    finishedAt := some now
    error := some (C.message "interactive_slot_reserved" [])}

theorem releaseUnstartedClaim_cases (C : Settings) (now token : Nat) (record : Record) :
    releaseUnstartedClaim C now token record = record ∨ record.task.leaseToken = some token ∧
      releaseUnstartedClaim C now token record =
        ⟨record.task.clearLease, settle token (unstartedAttempt C now) record.attempts⟩ := by
  unfold releaseUnstartedClaim
  split
  · next h => exact .inr ⟨h, rfl⟩
  · exact .inl rfl

/-- A renewal moves the expiry of the same lease. -/
theorem renewLease_cases (C : Settings) (now token : Nat) (record : Record) :
    (renewLease C now token record).1 = record ∨ record.task.leaseToken = some token ∧
      (renewLease C now token record).1 =
        {record with task := {record.task with lease := some ⟨token, now + C.leaseSeconds⟩}} := by
  unfold renewLease
  cases hlease : record.task.lease with
  | none => exact .inl rfl
  | some lease =>
    dsimp only
    split
    · next h => exact .inr ⟨by simp [Task.leaseToken, hlease, h.1], rfl⟩
    · exact .inl rfl

/-- The current attempt has the token of the lease. -/
theorem Record.current_token {record : Record} {attempt : Attempt} (h : record.current = some attempt) :
    record.task.leaseToken = some attempt.token ∧ record.attempt attempt.token = some attempt := by
  unfold Record.current at h
  obtain ⟨lease, hlease, hfind⟩ := Option.bind_eq_some_iff.mp h
  have htoken : attempt.token = lease.token := by simpa using List.find?_some hfind
  refine ⟨by simp [Task.leaseToken, hlease, htoken], ?_⟩
  rw [Record.attempt, htoken]
  exact hfind

/-- The expired lease of a row fails its claim. -/
theorem recoverExpired_cases {C : Settings} {now : Nat} {record record' : Record}
    (h : recoverExpired C now record = some record') :
    record' = record ∨ ∃ attempt, record.current = some attempt ∧ expired now record.task = true ∧
      failClaim C now attempt.token attempt.phase leaseExpired record = some record' := by
  unfold recoverExpired at h
  cases hcurrent : record.current with
  | none =>
    rw [hcurrent] at h
    exact .inl (Option.some.inj h).symm
  | some attempt =>
    rw [hcurrent] at h
    dsimp only at h
    split at h
    · next hexpired => exact .inr ⟨attempt, rfl, hexpired, h⟩
    · exact .inl (Option.some.inj h).symm

/-! ### The run -/

/-- An execution starts a dispatched Task that is not paused. -/
theorem startExecution_eq_some {task task' : Task} :
    startExecution task = some task' ↔
      task.paused = false ∧ task.status = .dispatch ∧ task' = {task with status := .exec} := by
  unfold startExecution
  cases task.paused with
  | true => simp
  | false => simp [Task.on_eq_some, TRANSITIONS]

/-- A run is activated by the worker that owns it. -/
theorem activateAgentRun_eq_some {now token fresh : Nat} {record record' : Record}
    (h : activateAgentRun now token fresh record = some record') :
    ownsRun now token record = true ∧ record.task.paused = false ∧
      record' = {record with task := {record.task with identity := some (requestRunId fresh record.task)}} := by
  unfold activateAgentRun at h
  split at h
  · next hguard =>
    simp only [Bool.and_eq_true, Bool.not_eq_true'] at hguard
    exact ⟨hguard.1.1, hguard.1.2, (Option.some.inj h).symm⟩
  · cases h

theorem persistAgentRunState_eq_some {now token : Nat} {checkpoint : Option Checkpoint}
    {result : Option ExecutionResult}
    {record record' : Record} (h : persistAgentRunState now token checkpoint result record = some record') :
    ownsRun now token record = true ∧ record' = {record with task := {record.task with
      checkpoint := checkpoint.orElse fun _ => record.task.checkpoint
      executionResult := result.orElse fun _ => record.task.executionResult}} := by
  unfold persistAgentRunState at h
  split at h
  · next hguard => exact ⟨hguard, (Option.some.inj h).symm⟩
  · cases h

/-- The worker that owns the run has the lease, on an active Task. -/
theorem ownsRun_lease {now token : Nat} {record : Record} (h : ownsRun now token record = true) :
    record.task.leaseToken = some token ∧ record.task.status.terminal = false := by
  simp only [ownsRun, Bool.and_eq_true, Bool.not_eq_true'] at h
  refine ⟨?_, h.1.2⟩
  cases hlease : record.task.lease with
  | none => simp [hlease] at h
  | some lease =>
    simp only [hlease, Option.any_some, Bool.and_eq_true, beq_iff_eq] at h
    simp [Task.leaseToken, hlease, h.1.1.1]

/-- What a run leaves to the claim that it is of. -/
structure ClaimKept (task task' : Task) : Prop where
  lease : task'.lease = task.lease
  nextAttemptAt : task'.nextAttemptAt = task.nextAttemptAt
  attemptCount : task'.attemptCount = task.attemptCount
  cancelRequested : task'.cancelRequested = task.cancelRequested

theorem ClaimKept.trans {task task' task'' : Task} (h : ClaimKept task task') (k : ClaimKept task' task'') :
    ClaimKept task task'' :=
  ⟨k.lease.trans h.lease, k.nextAttemptAt.trans h.nextAttemptAt, k.attemptCount.trans h.attemptCount,
    k.cancelRequested.trans h.cancelRequested⟩

theorem ClaimKept.dispatched (task : Task) : ClaimKept task {task with status := .dispatch} := ⟨rfl, rfl, rfl, rfl⟩

theorem ClaimKept.suspend {task task' : Task} (h : ClaimKept task task') (reason : PauseReason) :
    ClaimKept task (task'.suspend reason) := by
  rw [Task.suspend_eq]
  exact h.trans ⟨rfl, rfl, rfl, rfl⟩

/-- The Task stops and waits: its phase is the one to resume at, and no reason but `input` is dropped. -/
structure Waits (task task' : Task) : Prop where
  kept : ClaimKept task task'
  status : task'.status = (interrupted task).status
  reasons : ∀ reason ∈ task.pauseReasons, reason ≠ .input → reason ∈ task'.pauseReasons
  added : ∀ reason ∈ task'.pauseReasons, reason ∈ task.pauseReasons ∨ reason = .input ∨ reason = .approval

theorem interrupted_of_ne {task : Task} (h : task.status ≠ .exec) : (interrupted task).status = task.status := if_neg h

theorem interrupted_of_exec {task : Task} (h : task.status = .exec) : (interrupted task).status = .dispatch := if_pos h

/-- Waiting is waited on. -/
theorem Waits.trans {task task' task'' : Task} (h : Waits task task') (k : Waits task' task'') : Waits task task'' := by
  refine ⟨h.kept.trans k.kept, ?_, ?_, ?_⟩
  · have hstopped : task'.status ≠ .exec := h.status ▸ interrupted_ne_exec task
    rw [k.status, interrupted_of_ne hstopped, h.status]
  · exact fun reason hmem hne => k.reasons reason (h.reasons reason hmem hne) hne
  · intro reason hmem
    obtain hmem | hnew := k.added reason hmem
    · exact h.added reason hmem
    · exact .inr hnew

/-- The marker makes the end of the run wait for input, or run again. -/
def waitsForInput (runId : Option Nat) (task : Task) : Bool :=
  task.input.any fun marker => !(marker.status == .delivered && !questionTurn marker runId)

/-- The marker either lets the run end, or makes the Task wait. -/
theorem suspendOnPendingInput_cases {runId : Option Nat} {task task' : Task} {waits : Bool}
    (h : suspendOnPendingInput runId task = some (task', waits)) :
    (waits = false ∧ waitsForInput runId task = false ∧ task' = task) ∨
      (waits = true ∧ waitsForInput runId task = true ∧ Waits task task') := by
  unfold suspendOnPendingInput at h
  unfold waitsForInput
  cases hinput : task.input with
  | none =>
    rw [hinput] at h
    cases h
    exact .inl ⟨rfl, rfl, rfl⟩
  | some marker =>
    rw [hinput] at h
    simp only [Option.bind_eq_bind, Option.pure_def] at h
    rw [Option.any_some]
    split at h
    · next hdelivered =>
      cases h
      exact .inl ⟨rfl, by rw [hdelivered]; rfl, rfl⟩
    · next hdelivered =>
      have hwaits : (!(marker.status == .delivered && !questionTurn marker runId)) = true := by
        rw [Bool.eq_false_iff.mpr hdelivered]
        rfl
      refine .inr ?_
      by_cases hexec : task.status = .exec
      · rw [if_pos (beq_iff_eq.mpr hexec), Task.interrupt_eq_some.mpr ⟨hexec, rfl⟩, Option.bind_some] at h
        have hstatus := interrupted_of_exec hexec
        split at h
        · cases h
          refine ⟨rfl, hwaits, (ClaimKept.dispatched task).suspend _, ?_, fun reason hmem _ => Task.mem_suspend hmem,
            fun reason hmem => (Task.of_mem_suspend hmem).imp_right .inl⟩
          rw [Task.suspend_eq]
          exact hstatus.symm
        · cases h
          exact ⟨rfl, hwaits, ⟨rfl, rfl, rfl, rfl⟩, hstatus.symm,
            fun reason hmem hne => Task.mem_release.mpr ⟨hmem, hne⟩,
            fun reason hmem => .inl (Task.mem_release.mp hmem).1⟩
      · rw [if_neg (by simpa using hexec), Option.bind_some] at h
        have hstatus := interrupted_of_ne hexec
        split at h
        · cases h
          refine ⟨rfl, hwaits, .suspend ⟨rfl, rfl, rfl, rfl⟩ _, ?_, fun reason hmem _ => Task.mem_suspend hmem,
            fun reason hmem => (Task.of_mem_suspend hmem).imp_right .inl⟩
          rw [Task.suspend_eq]
          exact hstatus.symm
        · cases h
          exact ⟨rfl, hwaits, ⟨rfl, rfl, rfl, rfl⟩, hstatus.symm,
            fun reason hmem hne => Task.mem_release.mpr ⟨hmem, hne⟩,
            fun reason hmem => .inl (Task.mem_release.mp hmem).1⟩

theorem suspendForApproval_waits {task task' : Task} (h : suspendForApproval task = some task') : Waits task task' := by
  unfold suspendForApproval at h
  simp only [Option.bind_eq_bind, Option.pure_def] at h
  by_cases hexec : task.status = .exec
  · rw [if_pos (beq_iff_eq.mpr hexec), Task.interrupt_eq_some.mpr ⟨hexec, rfl⟩] at h
    cases h
    refine ⟨(ClaimKept.dispatched task).suspend _, ?_, fun reason hmem _ => Task.mem_suspend hmem,
      fun reason hmem => (Task.of_mem_suspend hmem).imp_right .inr⟩
    rw [Task.suspend_eq]
    exact (interrupted_of_exec hexec).symm
  · rw [if_neg (by simpa using hexec)] at h
    cases h
    refine ⟨.suspend ⟨rfl, rfl, rfl, rfl⟩ _, ?_, fun reason hmem _ => Task.mem_suspend hmem,
      fun reason hmem => (Task.of_mem_suspend hmem).imp_right .inr⟩
    rw [Task.suspend_eq]
    exact (interrupted_of_ne hexec).symm

/-- The phase that the outcome of a run is. -/
def runOutcome (result : ExecutionResult) (blocked : Bool) : TaskStatus :=
  if result.success && !blocked then .success else .error

theorem runOutcome_terminal (result : ExecutionResult) (blocked : Bool) :
    (runOutcome result blocked).terminal = true := by
  unfold runOutcome
  split <;> rfl

/-- The ways a run ends, by whether the Task waits for input or for an authorization. -/
inductive RunEnd (result : ExecutionResult) (awaits delegated blocked : Bool) (task task' : Task) : Prop
  | waits : (waitsForInput result.runId task || result.disposition == .waitingForAuthorization) =
    true → Waits task task' →
    RunEnd result awaits delegated blocked task task'
  | children : (awaits || delegated) = true →
    (waitsForInput result.runId task || result.disposition == .waitingForAuthorization) = false →
    task.status = .exec → ClaimKept task task' → task'.status = .dispatch →
    (∀ reason ∈ task'.pauseReasons, reason = .await ∨ reason = .child) →
    RunEnd result awaits delegated blocked task task'
  | outcome : (awaits || delegated) = false →
    (waitsForInput result.runId task || result.disposition == .waitingForAuthorization) = false →
    task.status = .exec → ClaimKept task task' → task'.status = runOutcome result blocked → task'.pauseReasons = [] →
    RunEnd result awaits delegated blocked task task'

/-- The children that a run waits for are its only reasons to wait. -/
theorem suspendOnPendingChildren_cases {awaits delegated : Bool} {task task' : Task} {waits : Bool}
    (h : suspendOnPendingChildren awaits delegated task.clearPauses = some (task', waits)) :
    (waits = false ∧ (awaits || delegated) = false ∧ task' = task.clearPauses) ∨
      (waits = true ∧ (awaits || delegated) = true ∧ task.status = .exec ∧ ∃ reasons,
        task' = {task with status := .dispatch, pauseReasons := reasons} ∧
        ∀ reason ∈ reasons, reason = .await ∨ reason = .child) := by
  unfold suspendOnPendingChildren at h
  split at h
  · next hnone =>
    cases h
    simp only [Bool.and_eq_true, Bool.not_eq_true'] at hnone
    exact .inl ⟨rfl, by rw [hnone.1, hnone.2]; rfl, rfl⟩
  · next hsome =>
    obtain ⟨stopped, hstopped, h⟩ := Option.bind_eq_some_iff.mp h
    obtain ⟨hexec, rfl⟩ := Task.interrupt_eq_some.mp hstopped
    cases h
    refine .inr ⟨rfl, ?_, hexec, ?_⟩
    · cases awaits <;> cases delegated <;> simp_all
    refine ⟨(if awaits then [.await] else []) ++ (if delegated then [.child] else []), ?_, ?_⟩
    · cases awaits <;> cases delegated <;> rfl
    · cases awaits <;> cases delegated <;> simp

/-- Only a run at EXEC waits for its children. -/
theorem suspendOnPendingChildren_stopped {awaits delegated : Bool} {task task' : Task} {waits : Bool}
    (hstopped : task.status ≠ .exec) (h : suspendOnPendingChildren awaits delegated task = some (task', waits)) :
    waits = false ∧ task' = task := by
  unfold suspendOnPendingChildren at h
  split at h
  · cases h
    exact ⟨rfl, rfl⟩
  · obtain ⟨stopped, hinterrupted, _⟩ := Option.bind_eq_some_iff.mp h
    exact absurd (Task.interrupt_eq_some.mp hinterrupted).1 hstopped

/-- Only a run at EXEC has an outcome. -/
theorem outcome_sources (success : Bool) :
    (TRANSITIONS (if success = true then .executionSucceeded else .executionFailed)).sources = [.exec] := by
  cases success <;> rfl

/-- The blocker of a work plan makes a failure of a success. -/
theorem outcome_target (result : ExecutionResult) (blocked : Bool) :
    (TRANSITIONS (if (if (result.success && blocked) = true then {result with success := false, failure := some .never}
      else result).success = true then .executionSucceeded
          else .executionFailed)).target = runOutcome result blocked := by
  unfold runOutcome
  cases hsuccess : result.success <;> cases blocked <;> simp [hsuccess, TRANSITIONS]

/-- The result and the feedback are noted. -/
theorem Waits.noting {task task' : Task} (h : Waits task task') {result : Option ExecutionResult}
    {feedback : Option String} : Waits task {task' with executionResult := result, feedback := feedback} :=
  ⟨h.kept.trans ⟨rfl, rfl, rfl, rfl⟩, h.status, h.reasons, h.added⟩

/-- What the end of an execution makes of the Task. -/
theorem updateAfterExecution_cases {result : ExecutionResult} {awaits delegated blocked : Bool}
    {feedback : Option String}
    {task task' : Task} (h : updateAfterExecution result awaits delegated blocked feedback task = some task') :
    RunEnd result awaits delegated blocked task task' := by
  unfold updateAfterExecution at h
  simp only [Option.bind_eq_bind, Option.pure_def] at h
  obtain ⟨⟨task₁, input⟩, hinput, hbody⟩ := Option.bind_eq_some_iff.mp h
  obtain ⟨rfl, hinput, rfl⟩ | ⟨rfl, hinput, hwaits⟩ := suspendOnPendingInput_cases hinput
  · simp only [Bool.false_eq_true, if_false, Bool.not_false, Bool.and_true] at hbody
    split at hbody
    · next hauthorization =>
      obtain ⟨task₂, happroved, hrest⟩ := Option.bind_eq_some_iff.mp hbody
      obtain ⟨⟨task₃, children⟩, hchildren, hend⟩ := Option.bind_eq_some_iff.mp hrest
      have hwaits := suspendForApproval_waits happroved
      have hstopped : task₂.status ≠ .exec := hwaits.status ▸ interrupted_ne_exec _
      obtain ⟨rfl, rfl⟩ := suspendOnPendingChildren_stopped hstopped hchildren
      simp only [hauthorization, Bool.not_true, Bool.and_false, Bool.false_and, Bool.false_eq_true, if_false,
        Option.bind_some] at hend
      cases hend
      exact .waits (by simp [hauthorization]) hwaits.noting
    · next hauthorization =>
      rw [Option.bind_some] at hbody
      obtain ⟨⟨task₃, children⟩, hchildren, hend⟩ := Option.bind_eq_some_iff.mp hbody
      have hnone : (waitsForInput result.runId task₁ || result.disposition == .waitingForAuthorization) = false := by
        rw [hinput, Bool.eq_false_iff.mpr hauthorization]
        rfl
      obtain ⟨rfl, hempty, rfl⟩ | ⟨rfl, hchild, hexec, reasons, rfl, hreasons⟩ :=
        suspendOnPendingChildren_cases hchildren
      · simp only [Bool.eq_false_iff.mpr hauthorization, Bool.not_false, Bool.and_self, Bool.true_and, if_true] at hend
        obtain ⟨ended, hended, hnoted⟩ := Option.bind_eq_some_iff.mp hend
        obtain ⟨hsources, rfl⟩ := Task.on_eq_some.mp hended
        rw [outcome_sources] at hsources
        cases hnoted
        exact .outcome hempty hnone (List.mem_singleton.mp hsources) ⟨rfl, rfl, rfl, rfl⟩
          (outcome_target result blocked) rfl
      · simp only [Bool.not_true, Bool.false_and, Bool.false_eq_true, if_false, Option.bind_some] at hend
        cases hend
        exact .children hchild hnone hexec ⟨rfl, rfl, rfl, rfl⟩ rfl hreasons
  · -- the Task waits for input: neither its children nor its outcome are looked at
    simp only [if_true, Bool.not_true, Bool.and_false, Bool.false_and, Bool.false_eq_true, if_false,
      Option.bind_some] at hbody
    have hwaiting : (waitsForInput result.runId task || result.disposition == .waitingForAuthorization) = true := by
      rw [hinput]
      rfl
    split at hbody
    · obtain ⟨task₂, happroved, hend⟩ := Option.bind_eq_some_iff.mp hbody
      cases hend
      exact .waits hwaiting (hwaits.trans (suspendForApproval_waits happroved)).noting
    · cases hbody
      exact .waits hwaiting hwaits.noting

/-- The end of a run suspends the Task, or ends it with its outcome. -/
theorem finishRun_cases {result : ExecutionResult} {awaits delegated blocked : Bool} {feedback : Option String}
    {task task' : Task} (h : finishRun result awaits delegated blocked feedback task = some task') :
    RunEnd result awaits delegated blocked task task' := by
  have happlied : ClaimKept task (applyRunResult result task) := ⟨rfl, rfl, rfl, rfl⟩
  cases updateAfterExecution_cases h with
  | waits hwaits h => exact .waits hwaits ⟨happlied.trans h.kept, h.status, h.reasons, h.added⟩
  | children hchild hnone hexec hkept hstatus hreasons =>
    exact .children hchild hnone hexec (happlied.trans hkept) hstatus hreasons
  | outcome hempty hnone hexec hkept hstatus hreasons =>
    exact .outcome hempty hnone hexec (happlied.trans hkept) hstatus hreasons

/-- What the end of a run keeps of the row. -/
structure RunFrame (task task' : Task) : Prop extends ClaimKept task task' where
  /-- The phase changes at EXEC only. -/
  exec : task.status = .exec ∨ task'.status = task.status

/-- Nothing else of the Task changes. -/
theorem finishRun_frame {result : ExecutionResult} {awaits delegated blocked : Bool} {feedback : Option String}
    {task task' : Task} (h : finishRun result awaits delegated blocked feedback task = some task') :
    RunFrame task task' := by
  cases finishRun_cases h with
  | waits _ h =>
    refine ⟨h.kept, ?_⟩
    by_cases hexec : task.status = .exec
    · exact .inl hexec
    · exact .inr (h.status.trans (interrupted_of_ne hexec))
  | children _ _ hexec hkept _ _ => exact ⟨hkept, .inl hexec⟩
  | outcome _ _ hexec hkept _ _ => exact ⟨hkept, .inl hexec⟩

end Galaris.Tasks
