import Galaris.Base.Ancestry
import Galaris.Base.Transition
import Mathlib.Algebra.Order.Ring.Int
import Mathlib.Algebra.Order.Ring.Nat
import Mathlib.Data.List.MinMax
import Mathlib.Order.Lattice.Nat

/-! Goals, their cycles and what wakes them (`goal/goal_service.py`, `runner.py`, `facade.py`, `referrer_wait.py`).

A cycle is a Task and the judgement of its result. Commands of people, the worker that prepares, judges and starts
cycles, the waits for a referrer and forced terminations are transactions on the rows, one step each; a session writes
the Goal that it has read, however long ago, and only if the row has that version still (`flush`). -/
namespace Galaris.Goals

open Transition Ancestry

abbrev GoalId := Nat
abbrev CycleId := Nat
abbrev TaskId := Nat

/-- The token of a lease is a `uuid4`. -/
abbrev Token := Nat

inductive GoalStatus
  | active
  | paused
  | completed
  | error
deriving DecidableEq, Repr

inductive CycleStatus
  | running
  | judging
  | decided
  | error
deriving DecidableEq, Repr

inductive Verdict
  | continues
  | stops
deriving DecidableEq, Repr

inductive TriggerKind
  | temporal
  | relational
  | manual
deriving DecidableEq, Repr

inductive PauseReason
  | manual
  | referrerNoResponse
deriving DecidableEq, Repr

/-- A row of `goals`; `content` stands for the columns that are only shown. The tracking document
(`memory_item_id`) is left out: bulk updates and the foreign key write it without a new version. -/
structure Goal where
  id : GoalId
  revision : Nat := 1
  agentId : Nat
  parentGoalId : Option GoalId
  cycleDelaySeconds : Option Nat
  scheduleEnabled : Bool
  content : Nat
  status : GoalStatus
  nextCycleAt : Option Int
  manualRunRequestedAt : Option Int := none
  completedAt : Option Int := none
  pauseReason : Option PauseReason
  lastError : Option String := none
  deleted : Bool := false
deriving DecidableEq, Repr

/-- A row of `goal_cycles`. -/
structure Cycle where
  id : CycleId
  goalId : GoalId
  sequence : Nat
  triggerKind : TriggerKind
  sourceCycleId : Option CycleId
  taskId : TaskId
  status : CycleStatus := .running
  verdict : Option Verdict := none
  reason : Option String := none
  progressChanged : Option Bool := none
  progressSummary : Option String := none
  evidence : List String := []
  taskFinishedAt : Option Int := none
  judgeAttemptCount : Nat := 0
  leaseToken : Option Token := none
  leaseExpiresAt : Option Int := none
  error : Option String := none
deriving DecidableEq, Repr

/-- A row of `goal_cycle_triggers`: a decided cycle wakes a child of its Goal. -/
structure Trigger where
  id : Nat
  goalId : GoalId
  sourceCycleId : CycleId
  createdAt : Int
  consumedCycleId : Option CycleId := none
deriving DecidableEq, Repr

/-- What the cycles know of their Tasks: whether one has ended, and whether it is kept for a judgement. -/
structure Task where
  id : TaskId
  terminal : Bool := false
  retained : Bool := true
deriving DecidableEq, Repr

/-- The rows, the Goals of requests that have not inserted them yet, and the tokens that have been drawn. -/
structure State where
  goals : List Goal := []
  drafts : List Goal := []
  cycles : List Cycle := []
  triggers : List Trigger := []
  tasks : List Task := []
  issued : List Token := []
deriving DecidableEq, Repr

/-! ### Rows -/

def row? (s : State) (id : GoalId) : Option Goal := s.goals.find? fun goal => goal.id = id

/-- A Goal that is not deleted. -/
def goal? (s : State) (id : GoalId) : Option Goal := s.goals.find? fun goal => goal.id = id && !goal.deleted

def cycle? (s : State) (id : CycleId) : Option Cycle := s.cycles.find? fun cycle => cycle.id = id

def cyclesOf (s : State) (goalId : GoalId) : List Cycle := s.cycles.filter fun cycle => cycle.goalId = goalId

/-- `_last_cycle`. -/
def lastCycle (s : State) (goalId : GoalId) : Option Cycle := (cyclesOf s goalId).argmax (·.sequence)

def hasOpenCycle (s : State) (goalId : GoalId) : Bool := (cyclesOf s goalId).any (·.verdict.isNone)

def childrenOf (s : State) (goalId : GoalId) : List GoalId :=
  (s.goals.filter fun goal => goal.parentGoalId = some goalId && !goal.deleted).map (·.id)

def Trigger.upTo (trigger other : Trigger) : Bool :=
  trigger.createdAt < other.createdAt || trigger.createdAt = other.createdAt && trigger.id ≤ other.id

def pendingTriggers (s : State) (goalId : GoalId) : List Trigger :=
    s.triggers.filter fun trigger => trigger.goalId = goalId && trigger.consumedCycleId.isNone

/-- The first of the wake-ups of a Goal that have started nothing. -/
def nextTrigger (s : State) (goalId : GoalId) : Option Trigger :=
    (pendingTriggers s goalId).find? fun trigger => (pendingTriggers s goalId).all trigger.upTo

def taskEnded (s : State) (taskId : TaskId) : Bool := s.tasks.any fun task => task.id = taskId && task.terminal

def putGoal (goal : Goal) (s : State) : State :=
    {s with goals := s.goals.map fun row => if row.id = goal.id then goal else row}

def putCycle (cycle : Cycle) (s : State) : State :=
    {s with cycles := s.cycles.map fun row => if row.id = cycle.id then cycle else row}

/-- The Goal that was read as `held` is written as `goal`, if the row has the version that was read. -/
def revise (held goal : Goal) (s : State) : Option State :=
  if (row? s held.id).any (·.revision = held.revision)
    then some (putGoal {goal with revision := held.revision + 1} s) else none

/-- Nothing is written where nothing has changed. -/
def flush (held goal : Goal) (s : State) : Option State := if goal = held then some s else revise held goal s

/-! ### The hierarchy -/

/-- The parent of a Goal, as far as neither is deleted. -/
def up (s : State) (id : GoalId) : Option GoalId := do
  let goal ← goal? s id
  let parent ← goal? s (← goal.parentGoalId)
  return parent.id

/-- `_assert_parent`. -/
def assertParent (s : State) (goalId : GoalId) : Option GoalId → Bool
  | none => true
  | some parent =>
    parent != goalId && (goal? s parent).isSome &&
      climbSeen (up s) (s.goals.length + 1) [goalId] parent == some true

/-- `_assert_automatic_trigger_configuration`. -/
def oneAutomaticTrigger (cycleDelaySeconds : Option Nat) (parentGoalId : Option GoalId)
    (scheduleEnabled : Bool) : Bool :=
  cycleDelaySeconds.isSome != parentGoalId.isSome && !(parentGoalId.isSome && scheduleEnabled)

/-! ### Verdicts -/

def Cycle.clearLease (cycle : Cycle) : Cycle := {cycle with leaseToken := none, leaseExpiresAt := none}

/-- `enqueue_child_triggers`; the identifiers of the new rows are drawn. -/
def enqueueChildTriggers (cycle : Cycle) (draw : GoalId → Nat) (now : Int) (s : State) : State :=
  {s with triggers := s.triggers ++ ((childrenOf s cycle.goalId).filter fun child =>
    !s.triggers.any fun trigger =>
      trigger.goalId = child && trigger.sourceCycleId = cycle.id).map fun child =>
      {id := draw child, goalId := child, sourceCycleId := cycle.id, createdAt := now}}

/-- `_release_cycle_task_retention`. -/
def releaseRetention (taskId : TaskId) (s : State) : State :=
  {s with tasks := s.tasks.map fun task => if task.id = taskId then {task with retained := false} else task}

/-- The cycle is written with its verdict, its Task is released, and the children of the Goal are woken. -/
def settle (cycle : Cycle) (draw : GoalId → Nat) (now : Int) (s : State) : State :=
  enqueueChildTriggers cycle draw now (releaseRetention cycle.taskId (putCycle cycle s))

/-- A cycle that a completed Goal leaves behind. -/
def Cycle.stopped (cycle : Cycle) (reason : String) : Cycle :=
  ({cycle with status := .decided, verdict := some .stops, reason := some reason}).clearLease

/-! ### The worker -/

def judgeLeaseSeconds : Int := 600

/-- `next_cycle_at`. -/
def nextCycleAt (finishedAt : Int) (delay : Nat) : Int := finishedAt + delay

/-- `_prepare_terminal_cycle`, for the cycle that it selects. -/
def prepareTerminalCycle (s : State) (cycleId : CycleId) (held : Goal) (finishedAt : Int)
    (draw : GoalId → Nat) (now : Int) : Option State := do
  let cycle ← cycle? s cycleId
  guard (cycle.verdict.isNone && cycle.status = .running && taskEnded s cycle.taskId)
  let cycle := {cycle with taskFinishedAt := some finishedAt, error := none}
  if held.status = .completed then
    return settle ({cycle with progressChanged := none}.stopped
      "The Goal was stopped manually before post-task evaluation.") draw now s
  else
    return putCycle {cycle with status := .judging} s

/-- `_claim_terminal_cycle`, for the cycle that it selects and the token that it draws. -/
def claimTerminalCycle (s : State) (cycleId : CycleId) (held : Goal) (token : Token)
    (finishedAt : Int) (draw : GoalId → Nat) (now : Int) : Option State := do
  let cycle ← cycle? s cycleId
  guard (cycle.verdict.isNone && (cycle.status = .running || cycle.status = .judging) && taskEnded s cycle.taskId &&
    (cycle.leaseToken.isNone || cycle.leaseExpiresAt.any (· ≤ now)))
  let cycle := {cycle with taskFinishedAt := some finishedAt}
  if held.status = .completed then
    return settle ({cycle with progressChanged := none}.stopped
      "The Goal was stopped manually before post-task evaluation.") draw now s
  else
    return {putCycle {cycle with
      status := .judging
      judgeAttemptCount := cycle.judgeAttemptCount + 1
      leaseToken := some token
      leaseExpiresAt := some (now + judgeLeaseSeconds)
      error := none} s with issued := token :: s.issued}

/-- `GoalJudgement`. -/
structure Judgement where
  action : Verdict
  reason : String
  changed : Bool
  summary : String
  evidence : List String
deriving DecidableEq, Repr

/-- The Goal after a verdict. -/
def Goal.judged (goal : Goal) (cycle : Cycle) (action : Verdict) (now : Int) : Goal :=
  match action with
  | .stops =>
    {goal with
      lastError := none, status := .completed, completedAt := some now, nextCycleAt := none
      manualRunRequestedAt := none, pauseReason := none}
  | .continues =>
    {goal with
      lastError := none
      completedAt := none
      nextCycleAt := if cycle.triggerKind = .relational then goal.nextCycleAt
        else goal.cycleDelaySeconds.map (Goals.nextCycleAt (cycle.taskFinishedAt.getD now))}

/-- `_finish_judgement`; the tracking document has the revision that was judged (`unchanged`) and is
`saved`, or the transaction is rolled back. -/
def finishJudgement (s : State) (cycleId : CycleId) (held : Goal) (token : Token)
    (judgement : Judgement) (expectedGoalRevision : Nat)
    (unchanged saved : Bool) (draw : GoalId → Nat) (now : Int) : Option State := do
  let cycle ← cycle? s cycleId
  if cycle.leaseToken ≠ some token then return s
  if held.status ≠ .completed ∧ (held.revision ≠ expectedGoalRevision ∨ !unchanged) then
    return putCycle {cycle with status := .running, error := none}.clearLease s
  let action := if held.status = .completed then .stops else judgement.action
  let reason := if held.status =
    .completed then "The Goal was stopped manually while its post-task evaluation was running."
    else judgement.reason
  guard saved
  flush held (held.judged cycle action now) (settle {cycle with
    status := .decided
    verdict := some action
    reason := some reason
    progressChanged := some judgement.changed
    progressSummary := some judgement.summary
    evidence := judgement.evidence
    error := none}.clearLease draw now s)

/-- `_fail_judgement`. -/
def failJudgement (s : State) (cycleId : CycleId) (held : Goal) (token : Token) (error : String)
    (draw : GoalId → Nat) (now : Int) : Option State := do
  let cycle ← cycle? s cycleId
  if cycle.leaseToken ≠ some token then return s
  if held.status = .completed then
    return settle ({cycle with error := some error}.stopped
      "The Goal was stopped manually while its evaluation was running.") draw now s
  else
    flush held {held with lastError := some error, nextCycleAt := none, status := if held.status = .paused then .paused else .error}
      (putCycle {cycle with status := .error, error := some error}.clearLease s)

/-- What `start_due_cycle` learns of the rest of the system. -/
structure Answers where
  processingAllowed : Bool
  agentAvailable : Bool
  modelConfigured : Bool
  /-- Why the referrer cannot be reached. -/
  referrerConflict : Option String
  /-- The agent is locked, and has no other work. -/
  agentFree : Bool
deriving DecidableEq, Repr

def temporalDue (goal : Goal) (now : Int) : Bool := goal.cycleDelaySeconds.isSome && goal.nextCycleAt.any (· ≤ now)

/-- The row is selected to start a cycle. -/
def selected (s : State) (goal : Goal) (manualOnly : Bool) (now : Int) : Bool :=
  goal.status = .active && !hasOpenCycle s goal.id && (goal.manualRunRequestedAt.isSome ||
    temporalDue goal now || !(pendingTriggers s goal.id).isEmpty) &&
    (!manualOnly || goal.manualRunRequestedAt.isSome)

/-- A Goal that cannot start. -/
def Goal.broken (goal : Goal) (error : String) : Goal :=
  {goal with status := .error, nextCycleAt := none, manualRunRequestedAt := none, lastError := some error}

/-- What starts the next cycle of a Goal. -/
def kindOf (held : Goal) (trigger : Option Trigger) : TriggerKind :=
  if held.manualRunRequestedAt.isSome then .manual else if trigger.isSome then .relational else .temporal

/-- The wake-up has started the cycle. -/
def consume (trigger : Trigger) (cycleId : CycleId) (rows : List Trigger) : List Trigger :=
  rows.map fun row => if row.goalId = trigger.goalId ∧ row.sourceCycleId = trigger.sourceCycleId
    then {row with consumedCycleId := some cycleId} else row

/-- The new cycle of a Goal with its Task. -/
def opened (s : State) (goalId : GoalId) (kind : TriggerKind) (trigger : Option Trigger)
    (cycleId : CycleId) (taskId : TaskId) : State :=
  {s with
    cycles := s.cycles ++ [{
      id := cycleId
      goalId
      sequence := (lastCycle s goalId).elim 0 (·.sequence) + 1
      triggerKind := kind
      sourceCycleId := trigger.map (·.sourceCycleId)
      taskId }]
    tasks := s.tasks ++ [⟨taskId, false, true⟩]
    triggers := trigger.elim s.triggers fun trigger => consume trigger cycleId s.triggers}

/-- `start_due_cycle`, for one of its candidates. -/
def startDueCycle (s : State) (held : Goal) (manualOnly : Bool) (answers : Answers)
    (cycleId : CycleId) (taskId : TaskId) (now : Int) : Option State := do
  let row ← goal? s held.id
  guard (selected s row manualOnly now)
  let isManual := held.manualRunRequestedAt.isSome
  let trigger := if isManual then none else nextTrigger s held.id
  guard (!manualOnly || isManual)
  guard (isManual || trigger.isSome || temporalDue held now)
  guard (isManual || answers.processingAllowed)
  if !answers.agentAvailable then
    flush held (held.broken ("Goal owner agent " ++ toString held.agentId ++ " is deleted or unavailable.")) s
  else
    guard answers.modelConfigured
    match answers.referrerConflict with
    | some message => flush held (held.broken message) s
    | none =>
      guard answers.agentFree
      flush held {held with
        nextCycleAt := if trigger.isSome then held.nextCycleAt else none
        manualRunRequestedAt := if isManual then none else held.manualRunRequestedAt
        lastError := none} (opened s held.id (kindOf held trigger) trigger cycleId taskId)

/-! ### Forced terminations -/

/-- `lock_cycle_for_forced_task`, `close_cycle_for_forced_task` and `enqueue_children_for_forced_task`. -/
def forceTermination (s : State) (taskId : TaskId) (held : Goal) (draw : GoalId → Nat)
    (finishedAt now : Int) : Option State := do
  let cycle ← s.cycles.find? fun cycle => cycle.taskId = taskId && cycle.verdict.isNone && cycle.status != .decided
  guard (cycle.goalId = held.id && taskEnded s taskId)
  let completed := held.status = .completed
  let closed := settle {cycle with
    status := .decided
    verdict := some (if completed then .stops else .continues)
    reason := some (if completed then "The Goal was already completed when its Task was force-terminated."
      else "The cycle was skipped because its Task was force-terminated by a user.")
    progressChanged := some false
    progressSummary := some "No progress was inferred from the force-terminated Task."
    evidence := []
    taskFinishedAt := some finishedAt
    error := none}.clearLease draw now s
  if completed then return closed
  else flush held {held with
    status := if held.status = .error then .active else held.status
    pauseReason := if held.status = .error then none else held.pauseReason
    completedAt := none
    lastError := none
    manualRunRequestedAt := none
    nextCycleAt := if cycle.triggerKind = .relational then held.nextCycleAt
      else held.cycleDelaySeconds.map (nextCycleAt finishedAt)} closed

/-! ### Commands -/

/-- `get_by_id` and `_assert_revision`. -/
def current (s : State) (held : Goal) (expectedRevision : Nat) : Bool :=
    (goal? s held.id).isSome && held.revision = expectedRevision

/-- `create`, up to the commit of the tracking document. -/
def create (s : State) (goal : Goal) (active : Bool) (now : Int) : Option State := do
  guard (oneAutomaticTrigger goal.cycleDelaySeconds goal.parentGoalId goal.scheduleEnabled)
  guard (assertParent s goal.id goal.parentGoalId)
  return {s with drafts := s.drafts ++ [{
    id := goal.id
    agentId := goal.agentId
    parentGoalId := goal.parentGoalId
    cycleDelaySeconds := goal.cycleDelaySeconds
    scheduleEnabled := goal.scheduleEnabled
    content := goal.content
    status := if active then .active else .paused
    pauseReason := if active then none else some .manual
    nextCycleAt := if active then goal.cycleDelaySeconds.map fun _ => now else none }]}

/-- The row that `create` inserts after that commit, under the keys of the table. -/
def insert (s : State) (draft : Goal) : Option State := do
  guard (s.drafts.contains draft)
  guard (s.goals.all (·.id ≠ draft.id) && draft.parentGoalId.all fun parent => (row? s parent).isSome)
  return {s with goals := s.goals ++ [draft], drafts := s.drafts.erase draft}

/-- `GoalUpdate`: the fields that are set. -/
structure Change where
  agentId : Option Nat := none
  parentGoalId : Option (Option GoalId) := none
  cycleDelaySeconds : Option (Option Nat) := none
  scheduleEnabled : Option Bool := none
  content : Option Nat := none
  /-- The description or the tracking content is set. -/
  documents : Bool := false
  /-- The windows, the new agent and the referrer are accepted. -/
  accepted : Bool := true
deriving DecidableEq, Repr

/-- When the next cycle is due after the delay has been changed. -/
def rescheduled (s : State) (goal : Goal) (now : Int) : Option Int :=
  match goal.cycleDelaySeconds with
  | none => none
  | some delay =>
    match lastCycle s goal.id with
    | none => if goal.status = .active then some now else goal.nextCycleAt
    | some cycle =>
      match cycle.verdict, cycle.taskFinishedAt with
      | some .continues, some finishedAt => some (nextCycleAt finishedAt delay)
      | _, _ => goal.nextCycleAt

def update (s : State) (held : Goal) (expectedRevision : Nat) (change : Change) (now : Int) : Option State := do
  guard (current s held expectedRevision && change.accepted)
  let goal := {held with
    agentId := change.agentId.getD held.agentId
    parentGoalId := change.parentGoalId.getD held.parentGoalId
    cycleDelaySeconds := change.cycleDelaySeconds.getD held.cycleDelaySeconds
    scheduleEnabled := change.scheduleEnabled.getD held.scheduleEnabled
    content := change.content.getD held.content}
  guard (oneAutomaticTrigger goal.cycleDelaySeconds goal.parentGoalId goal.scheduleEnabled)
  guard (goal.agentId = held.agentId || (cyclesOf s held.id).isEmpty)
  guard (change.parentGoalId.all (assertParent s held.id))
  let goal := if goal.cycleDelaySeconds ≠ held.cycleDelaySeconds ∧
    held.status ≠ .completed then {goal with nextCycleAt := rescheduled s goal now} else goal
  if change.documents then revise held goal s else flush held goal s

def pause (s : State) (held : Goal) (expectedRevision : Nat) : Option State := do
  guard (current s held expectedRevision && held.status != .completed)
  flush held {held with status := .paused, pauseReason := some .manual, manualRunRequestedAt := none} s

/-- `_reset_failed_judgement`. -/
def resetFailedJudgement (s : State) (goalId : GoalId) : State × Bool :=
  match lastCycle s goalId with
  | none => (s, false)
  | some cycle =>
    if cycle.status = .error then (putCycle
      {cycle with status := .running, error := none}.clearLease s, true) else (s, false)

/-- When the next cycle of a Goal that is resumed is due. -/
def resumedAt (s : State) (goal : Goal) (now : Int) : Option Int :=
  match goal.cycleDelaySeconds, lastCycle s goal.id with
  | some _, none => some now
  | some delay, some cycle =>
    match cycle.verdict, cycle.taskFinishedAt with
    | some .continues, some finishedAt => some (nextCycleAt finishedAt delay)
    | _, _ => goal.nextCycleAt
  | none, _ => goal.nextCycleAt

def resume (s : State) (held : Goal) (expectedRevision : Nat) (referrerAvailable : Bool)
    (now : Int) : Option State := do
  guard (current s held expectedRevision && referrerAvailable)
  let (reset, retried) := resetFailedJudgement s held.id
  let completed := held.status = .completed
  flush held {held with
    status := .active
    completedAt := none
    pauseReason := none
    lastError := none
    nextCycleAt := if completed then held.cycleDelaySeconds.map fun _ =>
      now else if retried then none else resumedAt reset held now
    manualRunRequestedAt := if completed then none else held.manualRunRequestedAt} reset

def complete (s : State) (held : Goal) (expectedRevision : Nat) (draw : GoalId → Nat) (now : Int) : Option State := do
  guard (current s held expectedRevision)
  let closed := match lastCycle s held.id with
    | none => s
    | some cycle =>
      if cycle.status = .error ∧ cycle.verdict = none then settle
        (cycle.stopped "The Goal was stopped manually after an evaluation error.") draw now s else s
  flush held {held with
    status := .completed
    completedAt := some now
    nextCycleAt := none
    manualRunRequestedAt := none
    pauseReason := none
    lastError := none} closed

def runNow (s : State) (held : Goal) (expectedRevision : Nat) (referrerAvailable : Bool)
    (now : Int) : Option State := do
  guard (current s held expectedRevision && held.status != .completed && referrerAvailable)
  guard ((lastCycle s held.id).all fun cycle => cycle.verdict.isSome || cycle.status = .error)
  let reset := if (lastCycle s held.id).any (·.verdict.isNone) then (resetFailedJudgement s held.id).1 else s
  flush held {held with
    nextCycleAt := some now, manualRunRequestedAt := some now, status := .active, pauseReason := none
    lastError := none} reset

def delete (s : State) (held : Goal) : Option State := do
  guard ((goal? s held.id).isSome && !hasOpenCycle s held.id && (childrenOf s held.id).isEmpty)
  flush held {held with deleted := true} s

/-- `handle_goal_document_change`. -/
def documentChanged (s : State) (goalId : GoalId) : Option State := do
  let goal ← goal? s goalId
  return putGoal {goal with revision := goal.revision + 1} s

/-! ### Waits for a referrer -/

/-- `_pause_for_no_response`. -/
def pauseForNoResponse (s : State) (held : Goal) : Option State := do
  guard ((goal? s held.id).isSome && held.status = .active)
  flush held {held with status := .paused, pauseReason := some .referrerNoResponse, nextCycleAt := none} s

/-- The answer resumes a Goal that was paused for the want of it. -/
def answered (s : State) (held : Goal) : Option State := do
  guard ((goal? s held.id).isSome && held.status = .paused && held.pauseReason = some .referrerNoResponse)
  flush held {held with status := .active, pauseReason := none, lastError := none} s

/-- The interaction with the referrer is gone. -/
def unreachable (s : State) (held : Goal) (error : String) : Option State := do
  guard ((goal? s held.id).isSome && held.status = .active)
  flush held {held with status := .error, nextCycleAt := none, lastError := some error} s

/-! ### Runs -/

inductive Event
  | create (goal : Goal) (active : Bool) (now : Int)
  | insert (draft : Goal)
  | update (held : Goal) (expectedRevision : Nat) (change : Change) (now : Int)
  | pause (held : Goal) (expectedRevision : Nat)
  | resume (held : Goal) (expectedRevision : Nat) (referrerAvailable : Bool) (now : Int)
  | complete (held : Goal) (expectedRevision : Nat) (draw : GoalId → Nat) (now : Int)
  | runNow (held : Goal) (expectedRevision : Nat) (referrerAvailable : Bool) (now : Int)
  | delete (held : Goal)
  | documentChanged (goalId : GoalId)
  | pauseForNoResponse (held : Goal)
  | answered (held : Goal)
  | unreachable (held : Goal) (error : String)
  | prepare (cycleId : CycleId) (held : Goal) (finishedAt : Int) (draw : GoalId → Nat) (now : Int)
  | claim (cycleId : CycleId) (held : Goal) (token : Token) (finishedAt : Int) (draw : GoalId → Nat) (now : Int)
  | finish (cycleId : CycleId) (held : Goal) (token : Token) (judgement : Judgement)
    (expectedGoalRevision : Nat) (unchanged saved : Bool)
      (draw : GoalId → Nat) (now : Int)
  | fail (cycleId : CycleId) (held : Goal) (token : Token) (error : String) (draw : GoalId → Nat) (now : Int)
  | start (held : Goal) (manualOnly : Bool) (answers : Answers) (cycleId : CycleId) (taskId : TaskId) (now : Int)
  | force (taskId : TaskId) (held : Goal) (draw : GoalId → Nat) (finishedAt now : Int)
  /-- A Task ends, or runs again. -/
  | task (taskId : TaskId) (terminal : Bool)

/-- What an operation leaves; `none` where it is refused or rolled back. -/
def perform (s : State) : Event → Option State
  | .create goal active now => create s goal active now
  | .insert draft => insert s draft
  | .update held expectedRevision change now => update s held expectedRevision change now
  | .pause held expectedRevision => pause s held expectedRevision
  | .resume held expectedRevision referrerAvailable now => resume s held expectedRevision referrerAvailable now
  | .complete held expectedRevision draw now => complete s held expectedRevision draw now
  | .runNow held expectedRevision referrerAvailable now => runNow s held expectedRevision referrerAvailable now
  | .delete held => delete s held
  | .documentChanged goalId => documentChanged s goalId
  | .pauseForNoResponse held => pauseForNoResponse s held
  | .answered held => answered s held
  | .unreachable held error => unreachable s held error
  | .prepare cycleId held finishedAt draw now => prepareTerminalCycle s cycleId held finishedAt draw now
  | .claim cycleId held token finishedAt draw now => claimTerminalCycle s cycleId held token finishedAt draw now
  | .finish cycleId held token judgement expectedGoalRevision unchanged saved draw now =>
    finishJudgement s cycleId held token judgement expectedGoalRevision unchanged saved draw now
  | .fail cycleId held token error draw now => failJudgement s cycleId held token error draw now
  | .start held manualOnly answers cycleId taskId now => startDueCycle s held manualOnly answers cycleId taskId now
  | .force taskId held draw finishedAt now => forceTermination s taskId held draw finishedAt now
  | .task taskId terminal =>
    some {s with
      tasks := s.tasks.map fun task => if task.id = taskId then {task with terminal} else task}

/-- A session holds the row as it is, or an older version of it. -/
def holds (s : State) (held : Goal) : Bool :=
    (row? s held.id).any fun row => row = held || decide (held.revision < row.revision)

/-- The cycle that is judged is one of the Goal that is held. -/
def holdsFor (s : State) (cycleId : CycleId) (held : Goal) : Bool :=
    holds s held && (cycle? s cycleId).all (·.goalId = held.id)

/-- The event can happen: what is held was read before, and no identifier is drawn twice. -/
def possible (s : State) : Event → Bool
  | .update held _ _ _ | .pause held _ | .resume held _ _ _ | .complete held _ _ _ | .runNow held _
    _ _ | .delete held | .pauseForNoResponse held
  | .answered held | .unreachable held _ | .force _ held _ _ _ => holds s held
  | .create _ _ _ | .insert _ | .documentChanged _ | .task _ _ => true
  | .prepare cycleId held _ _ _ | .finish cycleId held _ _ _ _ _ _ _ | .fail cycleId held _ _ _ _ =>
    holdsFor s cycleId held
  | .claim cycleId held token _ _ _ => holdsFor s cycleId held && !s.issued.contains token
  | .start held _ _ cycleId taskId _ => holds s held && s.cycles.all (·.id ≠ cycleId) && s.tasks.all (·.id ≠ taskId)

/-- What is refused or rolled back leaves the rows as they were. -/
def apply (s : State) (event : Event) : Option State :=
    if possible s event then some ((perform s event).getD s) else none

abbrev Happens : State → Event → State → Prop := Executes apply

end Galaris.Goals
