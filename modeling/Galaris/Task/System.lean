import Galaris.Base.Transition
import Galaris.Task.Commands

/-! A Task under all its writers.

A `Command` is one committed transaction on the row: of a scheduler, of the worker that
holds a claim, of a user, or of another service. Any number of processes issue commands
in any order, so that a worker may crash (it issues no more), stall, or act on a lease it
has lost. A transaction that raises, or whose optimistic revision is refused, changes
nothing and is no command. -/
namespace Galaris.Tasks

open Transition

/-- One transaction. Times and tokens are the caller's. -/
inductive Command
  | claim (now token : Nat)
  | claimInline (now token : Nat)
  | deferClaim (now until' : Nat) (error : String)
  | releaseUnstarted (now token : Nat)
  | renew (now token : Nat)
  | complete (now token : Nat)
  | fail (now token : Nat) (exc : Raised)
  | release (now token : Nat)
  | finishInline (now token : Nat) (error : Option String) (cancelled : Bool)
  | recoverOrphan (now : Nat)
  | recoverExpired (now : Nat)
  | start
  | activate (now token fresh : Nat)
  | progress (now token : Nat) (checkpoint : Option Checkpoint) (result : Option ExecutionResult)
  | appendEvent (token : Nat) (entry : AgentEvent)
  | finishRun (result : ExecutionResult) (awaits delegated blocked : Bool) (feedback : Option String)
  | write (event : Option TaskEvent) (written : Task)
  | cancel
  | forceTerminate (now : Nat)
  | pause (here : Bool)
  | resume (childDone : Bool)
  | preempt (here : Bool)
  | retry (event : TaskEvent)
  deriving DecidableEq, Repr

/-- What the dispatcher, the planner, collaboration, an amendment, the delivery or the input
requests write: anything but the schedule, the lease and the run, and the phase by an event
that is no retry. -/
def Task.write (event : Option TaskEvent) (written task : Task) : Option Task := do
  let moved ← match event with
    | none => some task
    | some event => if event.retries then none else task.on event
  return {written with
    status := moved.status
    lease := task.lease
    nextAttemptAt := task.nextAttemptAt
    attemptCount := task.attemptCount
    consecutiveFailures := task.consecutiveFailures
    identity := task.identity
    checkpoint := task.checkpoint}

namespace Record

/-- The attempt of a token. -/
def attempt (record : Record) (token : Nat) : Option Attempt :=
    record.attempts.find? fun attempt => attempt.token == token

/-- A transaction on the row alone. -/
def onTask (f : Task → Option Task) (record : Record) : Option Record := do
  let task ← f record.task
  return {record with task := task}

/-- The unique index on the tokens of attempts. -/
def insert (token : Nat) (f : Record → Record) (record : Record) : Option Record :=
  if (record.attempt token).isNone then some (f record) else none

/-- A transaction of the worker of a token, which knows the phase that it claimed. -/
def worker (token : Nat) (f : TaskStatus → Record → Option Record) (record : Record) : Option Record := do
  let attempt ← record.attempt token
  f attempt.phase record

end Record

/-- The committed transaction of a command. -/
def Command.apply (C : Settings) (record : Record) : Command → Option Record
  | .claim now token => record.insert token (Tasks.claim C now token)
  | .claimInline now token => record.insert token (Tasks.claimInline C now token)
  | .deferClaim now until' error => some (Tasks.deferClaim now until' error record)
  | .releaseUnstarted now token => some (releaseUnstartedClaim C now token record)
  | .renew now token => some (renewLease C now token record).1
  | .complete now token => record.worker token fun phase record => some (closeClaim C now token phase record).1
  | .fail now token exc => record.worker token fun phase => failClaim C now token phase exc
  | .release now token => releaseCancelledClaim now token record
  | .finishInline now token error cancelled => finishInlineExecution now token error cancelled record
  | .recoverOrphan now => Tasks.recoverOrphan C now record
  | .recoverExpired now => Tasks.recoverExpired C now record
  | .start => record.onTask startExecution
  | .activate now token fresh => activateAgentRun now token fresh record
  | .progress now token checkpoint result => persistAgentRunState now token checkpoint result record
  | .appendEvent token entry => some (appendAgentRunEvent token entry record)
  | .finishRun result awaits delegated blocked feedback =>
    record.onTask (Tasks.finishRun result awaits delegated blocked feedback)
  | .write event written => record.onTask (Task.write event written)
  | .cancel => record.onTask (requestCancellation C)
  | .forceTerminate now => Tasks.forceTerminate C now record
  | .pause here => record.onTask (pauseTree here)
  | .resume childDone => record.onTask fun task => some (resumeTree childDone task)
  | .preempt here => record.onTask (Tasks.preempt here)
  | .retry event => record.onTask (retryTask C event)

/-- A run of the Task. -/
abbrev Runs (C : Settings) : Record → List Command → Record → Prop := Steps (Executes (Command.apply C))

/-- A run whose every step meets a condition on the state before it. -/
abbrev RunsWhile (C : Settings) (allowed : Record → Command → Prop) : Record → List Command → Record → Prop :=
  Steps (Guarded (Executes (Command.apply C)) allowed)

theorem Record.onTask_eq_some {f : Task → Option Task} {record record' : Record} :
    record.onTask f = some record' ↔ f record.task = some record'.task ∧ record'.attempts = record.attempts := by
  obtain ⟨task', attempts'⟩ := record'
  simp only [Record.onTask, Option.bind_eq_bind, Option.pure_def]
  cases f record.task with
  | none => simp
  | some task => simp [eq_comm]

theorem Record.insert_eq_some {token : Nat} {f : Record → Record} {record record' : Record} :
    record.insert token f = some record' ↔ record.attempt token = none ∧ record' = f record := by
  simp only [Record.insert, Option.isNone_iff_eq_none]
  split
  · next h => simp [h, eq_comm]
  · next h => simp [h]

theorem Record.worker_eq_some {token : Nat} {f : TaskStatus → Record → Option Record} {record record' : Record} :
    record.worker token f = some record' ↔
      ∃ attempt, record.attempt token = some attempt ∧ f attempt.phase record = some record' := by
  simp [Record.worker, Option.bind_eq_some_iff]

theorem Task.on_eq_some {task task' : Task} {event : TaskEvent} :
    task.on event = some task' ↔
      task.status ∈ (TRANSITIONS event).sources ∧ task' = {task with status := (TRANSITIONS event).target} := by
  simp only [Task.on, Option.bind_eq_bind, Option.pure_def, Option.bind_eq_some_iff,
    transition_eq_some, Option.some.injEq]
  constructor
  · rintro ⟨status, ⟨hmem, rfl⟩, rfl⟩
    exact ⟨hmem, rfl⟩
  · rintro ⟨hmem, rfl⟩
    exact ⟨_, ⟨hmem, rfl⟩, rfl⟩

end Galaris.Tasks
