import Galaris.Process.Values
import Galaris.Task.Phases
import Mathlib.Data.List.Infix

/-! The row of a Task and its attempts (`models.py`), its pauses, and the retry policy.

A suspended Task keeps the phase it resumes at; the reasons say who may resume it. The
lease belongs to one attempt, the one that carries its token. What is decided by the
settings, by the driver (whether a checkpoint can be resumed) or by the catalogue of
messages is in `Settings`. -/
namespace Galaris.Tasks

/-! ### The row -/

/-- A reason in `data["pause_reasons"]`. -/
inductive PauseReason
  | user | await | plan | clarify | child | approval | input | replacement | workflowOperation
  deriving DecidableEq, Repr

/-- `HarnessFailure.retry`. -/
inductive RetryAdvice
  | never | safe | reconcile
  deriving DecidableEq, Repr

/-- `ExecutionResult.disposition`. -/
inductive Disposition
  | completed | waitingForAuthorization | waitingForChildren
  deriving DecidableEq, Repr

/-- `ExecutionResult`; `failure` is the advice of its failure, `runId` the run it is of. -/
structure ExecutionResult where
  success : Bool
  result : String := ""
  failure : Option RetryAdvice := none
  toolsUsed : List String := []
  disposition : Disposition := .completed
  runId : Option Nat := none
  deriving DecidableEq, Repr

/-- `data["_agent_run_checkpoint"]`: what the driver saved, for the logical run it is of. -/
structure Checkpoint where
  runId : Nat
  payload : String
  deriving DecidableEq, Repr

inductive InputStatus
  | pending | answered | delivered
  deriving DecidableEq, Repr

/-- `data["input_request"]`. -/
structure InputRequest where
  key : String
  status : InputStatus
  runId : Option Nat := none
  response : Option String := none
  consumed : Bool := false
  deriving DecidableEq, Repr

/-- `lease_token` with `lease_expires_at`. -/
structure Lease where
  token : Nat
  expires : Nat
  deriving DecidableEq, Repr

structure Task where
  status : TaskStatus
  pauseReasons : List PauseReason := []
  lease : Option Lease := none
  nextAttemptAt : Option Nat := none
  attemptCount : Nat := 0
  consecutiveFailures : Nat := 0
  lastError : Option String := none
  feedback : Option String := none
  cancelRequested : Bool := false
  executionResult : Option ExecutionResult := none
  /-- `data["_agent_run_identity"]["request_run_id"]` -/
  identity : Option Nat := none
  checkpoint : Option Checkpoint := none
  /-- `data["_delivery_receipt"]["status"] == "started"` -/
  deliveryStarted : Bool := false
  workflowOperation : Bool := false
  input : Option InputRequest := none
  /-- `data["input_context"]` -/
  inputContext : String := ""
  deleted : Bool := false
  deriving DecidableEq, Repr

inductive AttemptStatus
  | claimed | success | error | retry | cancelled | waitingChildren | waitingApproval
  deriving DecidableEq, Repr

inductive EventKind
  | runCompleted | runFailed | other
  deriving DecidableEq, Repr

/-- What `_bounded_agent_event` keeps of an event of a run; `text` is the rest of it. -/
structure AgentEvent where
  kind : EventKind
  runId : Option Nat
  executionStopped : Bool
  text : String := ""
  deriving DecidableEq, Repr

/-- `TaskAttempt`; `stopped` is `data["local_execution_stopped"]`, `events` is `data["agent_events"]`. -/
structure Attempt where
  number : Nat
  phase : TaskStatus
  token : Nat
  status : AttemptStatus := .claimed
  finishedAt : Option Nat := none
  retryable : Bool := false
  error : Option String := none
  stopped : Bool := false
  events : List AgentEvent := []
  deriving DecidableEq, Repr

/-- A Task and the attempts of it. -/
structure Record where
  task : Task
  attempts : List Attempt := []
  deriving DecidableEq, Repr

namespace Task

/-- The token of the lease. -/
def leaseToken (task : Task) : Option Nat := task.lease.map Lease.token

/-- `_clear_lease`. -/
def clearLease (task : Task) : Task := {task with lease := none, cancelRequested := false}

/-- `transition(task, event)`. -/
def on (task : Task) (event : TaskEvent) : Option Task := do
  let status ← transition task.status event
  return {task with status := status}

/-! ### Pauses -/

/-- `paused`, which is written with the reasons. -/
def paused (task : Task) : Bool := !task.pauseReasons.isEmpty

def isPausedFor (task : Task) (reason : PauseReason) : Bool := task.pauseReasons.contains reason

def isHeldByUser (task : Task) : Bool := task.isPausedFor .user

def suspend (task : Task) (reason : PauseReason) : Task :=
  if task.isPausedFor reason then task else {task with pauseReasons := task.pauseReasons ++ [reason]}

def release (task : Task) (reason : PauseReason) : Task :=
  {task with pauseReasons := task.pauseReasons.filter (· ≠ reason)}

def clearPauses (task : Task) : Task := {task with pauseReasons := []}

/-- `has_terminal_outcome`: an error is provisional until its claim is settled. -/
def hasTerminalOutcome (task : Task) : Bool :=
  task.status == .success || (task.status == .error && task.lease.isNone)

end Task

/-! ### The retry policy -/

structure Settings where
  actionMaxAttempts : Nat
  actionRetryBase : Nat
  networkMaxAttempts : Nat
  networkRetryBase : Nat
  networkRetryMax : Nat
  leaseSeconds : Nat
  /-- `assess_checkpoint(checkpoint).resumable`, by the driver of the checkpoint -/
  resumable : Checkpoint → Bool
  /-- `prepare_retry_checkpoint`, by the driver of the checkpoint -/
  prepareRetry : Checkpoint → Option Checkpoint
  /-- why the objective of a checkpointed run cannot be amended (`rebase_checkpoint`), by its driver
  and that of the identity -/
  rebaseBlocker : Option Nat → Checkpoint → Option String
  /-- `_task_message`: the text of a key, with its values -/
  message : String → List String → String

/-- The parameters as shipped, for a driver that resumes what it saved as safe and texts that
are their keys. -/
def Settings.shipped : Settings where
  actionMaxAttempts := 3
  actionRetryBase := 2
  networkMaxAttempts := 8
  networkRetryBase := 30
  networkRetryMax := 300
  leaseSeconds := 120
  resumable checkpoint := checkpoint.payload == "safe"
  prepareRetry := some
  rebaseBlocker _ checkpoint :=
    if checkpoint.payload == "safe" then none
    else some "The driver cannot safely amend the current execution checkpoint."
  message key _ := key

/-- An exception of an action: its text, whether it is a `ReasoningDegenerationError`, and
the advice of a `HarnessExecutionError`. -/
structure Raised where
  text : String
  degeneration : Bool := false
  harness : Option RetryAdvice := none
  deriving DecidableEq, Repr

/-- `_NETWORK_ERROR_MARKERS`. -/
def networkErrorMarkers : List String :=
  ["temporary failure in name resolution", "name or service not known", "dns", "network is unreachable",
    "connection refused", "connection reset", "connection aborted", "client disconnected", "peer closed connection",
    "incomplete chunked read", "deconnect", "server disconnected", "connecterror", "connecttimeout",
    "remoteprotocolerror", "readerror", "readtimeout", "pooltimeout", "http 502", "http 503", "http 504",
    "status_code: 502", "status_code: 503", "status_code: 504", "status_code: 529",
    "servers are currently overloaded", "overloaded_error", "provider_overloaded"]

/-- `_RETRY_TRACE_ONLY_TOOLS`. -/
def retryTraceOnlyTools : List String := ["approval", "budget_guard", "final_result", "thinking"]

/-- `_is_network_failure`. -/
def isNetworkFailure (error : String) : Bool :=
  networkErrorMarkers.any fun marker => decide (marker.toList <:+: error.toLower.toList)

/-- `s[:4000]`. -/
def cut (s : String) : String := String.ofList (s.toList.take 4000)

/-- The error that is kept of an exception. -/
def Raised.error (exc : Raised) : String := cut (Texts.stripString exc.text)

namespace Settings
variable (C : Settings)

/-- The attempts allowed, and the delay before the next one, by `_retry_policy`. -/
def retryPolicy (error : String) (consecutiveFailures : Nat) : Nat × Nat :=
  if isNetworkFailure error then
    (C.networkMaxAttempts, min (C.networkRetryBase * 2 ^ (consecutiveFailures - 1)) C.networkRetryMax)
  else (C.actionMaxAttempts, min (C.actionRetryBase * 2 ^ (consecutiveFailures - 1)) 300)

/-- `has_resumable_run_checkpoint`. -/
def hasResumableRunCheckpoint (task : Task) : Bool := task.checkpoint.any C.resumable

/-- The result names a tool that leaves more than a trace. -/
def usedTools (result : Option ExecutionResult) : Bool :=
  result.any fun result => result.toolsUsed.any fun name => !retryTraceOnlyTools.contains name

/-- `_retry_is_safe`. -/
def retryIsSafe (task : Task) (phase : TaskStatus) : Bool :=
  if task.workflowOperation then false
  else if phase == .plan && task.executionResult.isSome then false
  else if phase != .dispatch then true
  else if task.deliveryStarted then false
  else
    match task.executionResult.bind ExecutionResult.failure with
    | some .never => false
    | some .reconcile => if C.hasResumableRunCheckpoint task then checkpointed task else false
    | _ => checkpointed task
where
  /-- The last part: a checkpoint decides, then an admitted run, then the tools used. -/
  checkpointed (task : Task) : Bool :=
    if task.checkpoint.isSome then C.hasResumableRunCheckpoint task
    else if task.identity.isSome then false
    else if usedTools task.executionResult then C.hasResumableRunCheckpoint task
    else true

/-- `can_retry`, once the failure is counted. -/
def canRetry (task : Task) (phase : TaskStatus) (exc : Raised) : Bool :=
  !exc.degeneration && exc.harness != some .never &&
    (C.retryIsSafe task phase && (exc.harness != some .reconcile || C.hasResumableRunCheckpoint task)) &&
    decide (task.consecutiveFailures < (C.retryPolicy exc.error task.consecutiveFailures).1) && !task.isHeldByUser

end Settings

end Galaris.Tasks
