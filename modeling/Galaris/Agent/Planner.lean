import Galaris.Base.Rose
import Mathlib.Data.Rat.Defs
import Mathlib.Algebra.Order.Ring.Rat

/-! The planner (`planner_service.py`), and the explicit retry of a plan (`retry`, `task_service.py`).

A planned Task is a tree: a group has a plan with its steps, and one child for each step that has been
materialized. A pass of `advance` looks at the child at the cursor of the plan: it activates a leaf below it,
goes on to the next step, inserts a recovery for a leaf that reports that it is blocked, closes what depends on
a step that failed, or ends the plan (`finalize`). What the models and the database answer is given to the pass
(`Reply`). Leaves are executed by themselves (`apply`). -/
namespace Galaris.Agent.Planner

open Rose (node)

/-- `TaskStatus`. -/
inductive Status
  | create | dispatch | exec | plan | success | error
  deriving DecidableEq, Repr

def Status.isTerminal : Status → Bool
  | .success | .error => true
  | _ => false

/-- The reasons of a pause. -/
inductive Pause
  | plan | user | clarify | other (reason : String)
  deriving DecidableEq, Repr

/-- `PlanStep`: `item` is a step of a collection that has a key. -/
structure Step where
  runAfterFailure : Bool := false
  collection : Bool := false
  item : Bool := false
  steps : List Step := []

/-- The `plan` of a Task. `failureTaskId` names the child that the plan failed at; `inventory` is the number
of items of a collection, once they are frozen. -/
structure Plan where
  steps : List Step
  cursor : Nat := 0
  failureTaskId : Option Nat := none
  accountedChildCost : ℚ := 0
  collection : Bool := false
  inventory : Option Nat := none

/-- `delivery_recovery`, with the child it is for. -/
structure DeliveryRecovery where
  child : Nat
  ready : Bool
  deriving DecidableEq, Repr

/-- A Task. Its identity tells it from its siblings; `blocked` is whether its report says so, `attempt` the
cost that a running attempt began with, and `attempts` how many there were. `own` is what a planned Task has
been charged for itself, its planning, recoveries and syntheses: nothing reads it. -/
structure Task where
  id : Nat
  status : Status
  pauses : List Pause := []
  lease : Bool := false
  plan : Option Plan := none
  planStep : Nat := 0
  planDepth : Nat := 0
  blocked : Bool := false
  blockedRecovery : Bool := false
  blockedRecovered : Bool := false
  planSkipped : Bool := false
  delivery : Option DeliveryRecovery := none
  unclear : Bool := false
  cost : ℚ := 0
  own : ℚ := 0
  attempt : Option ℚ := none
  attempts : Nat := 0

abbrev Tree := Rose Task

namespace Task

def isPausedFor (task : Task) (reason : Pause) : Bool := task.pauses.contains reason

def isHeldByUser (task : Task) : Bool := task.isPausedFor .user

def suspend (task : Task) (reason : Pause) : Task :=
  {task with pauses := if task.pauses.contains reason then task.pauses else task.pauses ++ [reason]}

def release (task : Task) (reason : Pause) : Task := {task with pauses := task.pauses.filter (· != reason)}

/-- `has_terminal_outcome`. -/
def hasTerminalOutcome (task : Task) : Bool := task.status == .success || task.status == .error && !task.lease

/-- `_mark_plan_waiting`. -/
def markPlanWaiting (task : Task) : Task := {task with status := .plan}.suspend .plan

/-- A cost is added for the Task's own work. -/
def charge (task : Task) (cost : ℚ) : Task := {task with cost := task.cost + cost, own := task.own + cost}

end Task

/-! ### Children -/

/-- `child_for_step`, with its position. -/
def childForStep (children : List Tree) (step : Nat) : Option (Nat × Tree) :=
  match children.findIdx? fun child => child.value.planStep == step with
  | some i => children[i]?.map fun child => (i, child)
  | none => none

/-- An identity that no sibling has. -/
def freshId (children : List Tree) : Nat := (children.map fun child => child.value.id + 1).foldr max 0

/-- The plan that a step's child has. -/
def Step.plan (step : Step) : Option Plan :=
  if step.collection then some {steps := [], collection := true}
  else if step.steps.isEmpty then none
  else some {steps := step.steps}

/-- `_create_child`, without its children. -/
def Step.child (step : Step) (id index depth : Nat) : Task where
  id := id
  status := if step.plan.isSome then .plan else .dispatch
  pauses := [.plan]
  plan := step.plan
  planStep := index
  planDepth := depth + 1

mutual

/-- A child with what its own steps need. -/
def materialize : Step → Nat → Nat → Nat → Tree
  | ⟨closing, collection, item, steps⟩, id, index, depth =>
    node (Step.child ⟨closing, collection, item, steps⟩ id index depth)
      (if collection then [] else materializeAll steps 0 (depth + 1))

def materializeAll : List Step → Nat → Nat → List Tree
  | [], _, _ => []
  | step :: rest, index, depth => materialize step index index depth :: materializeAll rest (index + 1) depth

end

/-- The children that are missing. -/
def missing (children : List Tree) (steps : List Step) (depth : Nat) : List Tree :=
  steps.zipIdx.filterMap fun entry =>
    if children.any fun child => child.value.planStep == entry.2 then none
    else some (materialize entry.1 (freshId children + entry.2) entry.2 depth)

mutual

/-- `_ensure_children`. -/
def ensure : Tree → Tree
  | node task children =>
    match task.plan with
    | none => node task children
    | some plan => node task (ensureEach plan.steps.length [] children ++ missing children plan.steps task.planDepth)

/-- The groups among the children of the steps, but for collections. -/
def ensureEach (count : Nat) : List Nat → List Tree → List Tree
  | _, [] => []
  | seen, child :: rest =>
    let chosen := child.value.planStep < count && !seen.contains child.value.planStep &&
      child.value.plan.any (!·.collection)
    (if chosen then ensure child else child) :: ensureEach count (child.value.planStep :: seen) rest

end

/-- `_ensure_children`, as the list it returns. -/
def ensureChildren (task : Task) (children : List Tree) : List Tree := (ensure (node task children)).children

/-- `planner_collection.inventory_step`. -/
def inventoryStep : Step := {}

/-- A collection that has no steps yet begins with its inventory. -/
def Plan.begun (plan : Plan) : Plan :=
    if plan.collection && plan.steps.isEmpty then {plan with steps := [inventoryStep]} else plan

/-- `_activate_step`, of the child: what it becomes, and whether something raised on the way. -/
def activate : Nat → Tree → Tree × Bool
  | 0, tree => (tree, false)
  | fuel + 1, node task children =>
    if task.status.isTerminal || task.status == .exec || task.isHeldByUser ||
      (task.status == .dispatch && task.pauses.isEmpty) then
      (node task children, false)
    else
      match task.plan with
      | some plan =>
        let task := {task with plan := some plan.begun}.markPlanWaiting
        let nested := ensureChildren task children
        match childForStep nested plan.begun.cursor with
        | none => (node (task.release .plan) nested, false)
        | some (i, current) =>
          if current.value.status == .success then (node (task.release .plan) nested, false)
          else
            let (current, raised) := activate fuel current
            (node task (nested.set i current), raised)
      | none =>
        if task.status == .create then (node task children, true)
        else (node ({task with status := .dispatch}.release .plan) children, false)

mutual

/-- `_close_unfinished_children`, of one child. -/
def close : Tree → Tree
  | node task children =>
    if task.status.isTerminal then node task (closeAll children)
    else node {task with status := .error, pauses := [], planSkipped := true, blocked := false} (closeAll children)

def closeAll : List Tree → List Tree
  | [] => []
  | child :: rest => close child :: closeAll rest

end

/-! ### What the outside answers -/

/-- `_build_plan`. -/
inductive Building
  | raised
  /-- Questions are asked first. -/
  | clarify (cost : ℚ)
  /-- The plan is `refused` where it is too deep. -/
  | built (cost : ℚ) (steps : List Step) (refused : Bool)

/-- `_build_blocked_recovery`: no steps where the outcome is `FAIL`. A decision is `refused` where it
repeats the blocked action, was made for other tools or exceeds the bounds of a plan; one that is `tooDeep`
raises. -/
structure Recovery where
  cost : ℚ
  steps : Option (List Step)
  refused : Bool := false
  tooDeep : Bool := false

structure Reply where
  building : Building := .raised
  /-- The items that `freeze_inventory` reads; it raises where there are none. -/
  inventory : Option Nat := none
  /-- `none` where the decision raises. -/
  recovery : Option Recovery := none
  /-- `_working_set_completion_error`. -/
  completionError : Bool := false
  /-- `_record_delivery_recovery` finds a file to deliver. -/
  deliverable : Bool := false
  /-- The cost of the final text, where one is written. -/
  synthesis : Option ℚ := none
  /-- The final text begins with the marker of a blocked step. -/
  reportsBlocked : Bool := false
  /-- `TASK_PLAN_MAX_LEAVES`. -/
  wave : Nat := 1

/-- How a pass ends. -/
inductive Outcome
  | waiting (tree : Tree)
  | finalized (tree : Tree)
  | raised (tree : Tree)

def Outcome.tree : Outcome → Tree
  | waiting tree => tree
  | finalized tree => tree
  | raised tree => tree

/-! ### Passes -/

def childCosts (children : List Tree) : ℚ := (children.map fun child => child.value.cost).sum

/-- The flag of the step that a child is for. -/
def runsAfterFailure (steps : List Step) (child : Tree) : Bool := steps[child.value.planStep]?.any (·.runAfterFailure)

/-- `_finalize`. -/
def finalize (reply : Reply) (task : Task) (plan : Plan) (children : List Tree) (success : Bool) : Tree :=
  let total := childCosts children
  let owns := task.planDepth == 0
  let unmet := success && owns && reply.completionError
  let final := childForStep children (children.length - 1)
  let delivery := if unmet then
      match final with
      | some (_, child) =>
        if children.length - 1 < plan.steps.length &&
          reply.deliverable then some ⟨child.value.id, true⟩ else task.delivery
      | none => task.delivery
    else if success && owns then none
    else task.delivery
  let success := success && !unmet
  let closed := plan.failureTaskId.isSome && children.any fun child =>
    child.value.status == .success && runsAfterFailure plan.steps child
  let synthesis := if success || closed then reply.synthesis.getD 0 else 0
  node {task with
    cost := task.cost + (max 0 (total - plan.accountedChildCost) + synthesis)
    own := task.own + synthesis
    plan := some {plan with accountedChildCost := total}
    delivery := delivery
    blocked := reply.reportsBlocked
    status := if success then .success else .error
    pauses := []} children

/-- A step is activated and the plan waits for it. -/
def activateStep (task : Task) (children : List Tree) (step : Nat) : Outcome :=
  match childForStep children step with
  | none => .raised (node task children)
  | some (i, child) =>
    let (child, raised) := activate (child.height + 1) child
    if raised then .raised (node task (children.set i child))
      else .waiting (node task.markPlanWaiting (children.set i child))

/-- The children are materialized first. -/
def enter (task : Task) (plan : Plan) (children : List Tree) (step : Nat) : Outcome :=
  activateStep {task with plan := some plan} (ensureChildren {task with plan := some plan} children) step

/-- `_continue_after_failure`. -/
def continueAfterFailure (reply : Reply) (task : Task) (plan : Plan) (children : List Tree) (failed : Tree) : Outcome :=
  let closing := (plan.steps.zipIdx.filter fun entry => entry.1.runAfterFailure && plan.cursor < entry.2).map (·.2)
  let children := children.map fun child => if closing.contains child.value.planStep then child else close child
  let plan := {plan with failureTaskId := plan.failureTaskId.or (some failed.value.id)}
  match closing with
  | [] => .finalized (finalize reply task plan children false)
  | step :: _ => enter task {plan with cursor := step} children step

/-- The closing actions are the last steps. -/
def trailing (steps : List Step) : Bool := (steps.dropWhile fun step => !step.runAfterFailure).all (·.runAfterFailure)

/-- The children make room for steps that are inserted after the cursor. -/
def shift (cursor offset : Nat) (child : Tree) : Tree :=
  match child with
  | node task children =>
    if cursor < task.planStep then node {task with planStep := task.planStep + offset} children
      else node task children

/-- What comes of an attempt to recover. -/
inductive Attempt
  | none (task : Task)
  | inserted (task : Task) (plan : Plan) (children : List Tree)
  | raised (task : Task)

/-- The blocked child is marked. -/
def markRecovered (child : Tree) : Tree :=
  match child with
  | node task nested => node {task with blockedRecovered := true} nested

/-- `_try_recover_blocked_plan`. -/
def tryRecoverBlockedPlan (reply : Reply) (task : Task) (plan : Plan) (children : List Tree)
    (blocked : Nat) : Attempt :=
  if task.blockedRecovery then .none task
  else
    let task := {task with blockedRecovery := true}
    match reply.recovery with
    | .none => .none task
    | some recovery =>
      let task := task.charge recovery.cost
      match recovery.steps with
      | .none => .none task
      | some inserted =>
        let combined := plan.steps.take (plan.cursor + 1) ++ inserted ++ plan.steps.drop (plan.cursor + 1)
        if recovery.refused then .none task
        else if recovery.tooDeep then .raised task
        else if !trailing (if plan.collection then inserted else combined) then .none task
        else
          let shifted := children.map (shift plan.cursor inserted.length)
          .inserted task {plan with steps := combined, cursor := plan.cursor + 1} (shifted.modify blocked markRecovered)

/-- `planner_collection.append_item_wave`: the steps of the next items; it raises where the inventory is not frozen. -/
def appendItemWave (reply : Reply) (plan : Plan) : Option Plan :=
  plan.inventory.map fun count =>
    let allocated := plan.steps.countP (·.item)
    {plan with steps := plan.steps ++ List.replicate (min reply.wave (count - allocated)) {item := true}}

/-- The step after the cursor, or the end of the plan. -/
def goOn (reply : Reply) (task : Task) (plan : Plan) (children : List Tree) : Outcome :=
  let plan := {plan with cursor := plan.cursor + 1}
  if plan.steps.length ≤ plan.cursor && plan.collection then
    match appendItemWave reply plan with
    | none => .raised (node {task with plan := some plan} children)
    | some plan =>
      if plan.cursor < plan.steps.length then enter task plan children plan.cursor
      else .finalized (finalize reply task plan children plan.failureTaskId.isNone)
  else if plan.cursor < plan.steps.length then enter task plan children plan.cursor
  else .finalized (finalize reply task plan children plan.failureTaskId.isNone)

/-- The child at the cursor was blocked. -/
def afterBlocked (reply : Reply) (task : Task) (plan : Plan) (children : List Tree) (position : Nat)
    (current : Tree) : Outcome :=
  if plan.failureTaskId.isNone && !(plan.collection && plan.cursor == 0) then
    match tryRecoverBlockedPlan reply task plan children position with
    | .inserted task plan children => enter task plan children plan.cursor
    | .none task => continueAfterFailure reply task plan children current
    | .raised task => .raised (node {task with plan := some plan} children)
  else continueAfterFailure reply task plan children current

/-- The cursor is behind the last step: a collection may have more items. -/
def atEnd (reply : Reply) (task : Task) (plan : Plan) (children : List Tree) : Outcome :=
  if plan.collection then
    match appendItemWave reply plan with
    | none => .raised (node {task with plan := some plan} children)
    | some wave =>
      if plan.steps.length < wave.steps.length then enter task wave children plan.cursor
      else .finalized (finalize reply task wave children plan.failureTaskId.isNone)
  else .finalized (finalize reply task plan children plan.failureTaskId.isNone)

/-- `_advance_plan`. -/
def advancePlan (reply : Reply) (task : Task) (plan : Plan) (children : List Tree) : Outcome :=
  if plan.steps.length ≤ plan.cursor then atEnd reply task plan children
  else
    match childForStep children plan.cursor with
    | none => enter task plan children plan.cursor
    | some (position, current) =>
      match current.value.status with
      | .error =>
        if !current.value.hasTerminalOutcome then .waiting (node {task with plan := some plan}.markPlanWaiting children)
        else
          let task := if reply.deliverable then {task with delivery := some ⟨current.value.id, true⟩} else task
          continueAfterFailure reply task plan children current
      | .success =>
        if current.value.blocked then afterBlocked reply task plan children position current
        else if plan.collection && plan.cursor == 0 && plan.inventory.isNone then
          match reply.inventory with
          | none => .raised (node {task with plan := some plan} children)
          | some count => goOn reply task {plan with inventory := some count} children
        else goOn reply task plan children
      | _ =>
        if current.value.isPausedFor .plan && !current.value.isHeldByUser then activateStep
          {task with plan := some plan} children plan.cursor
        else .waiting (node {task with plan := some plan}.markPlanWaiting children)

/-- `_start_plan`. -/
def startPlan (reply : Reply) (task : Task) (children : List Tree) : Outcome :=
  match reply.building with
  | .raised => .waiting (node {task with status := .error, pauses := [], blocked := false} children)
  | .clarify cost => .waiting (node ((task.charge cost).suspend .clarify) children)
  | .built cost steps refused =>
    -- All that the Task was charged until it has a plan is its own.
    let task := {task with cost := task.cost + cost, own := task.cost + cost}
    if refused then .raised (node task children)
      else enter task {steps := if steps.isEmpty then [{}] else steps} children 0

/-- `_complete_planner_failure`. -/
def fail : Tree → Tree
  | node task children => node {task with status := .error, pauses := [], blocked := false} children

/-- `advance`, of a Task that is planning and that the user does not hold. -/
def advance (reply : Reply) : Tree → Outcome
  | node task children =>
    if task.status != .plan || task.isHeldByUser then .waiting (node task children)
    else
      match (match task.plan with
        | none => startPlan reply task children
        | some plan => advancePlan reply task plan.begun children) with
      | .raised tree => .raised (fail tree)
      | outcome => outcome

/-! ### Retry -/

mutual

/-- Every Task of the tree has ended, and none is leased. -/
def ended : Tree → Bool
  | node task children => task.status.isTerminal && !task.lease && endedAll children

def endedAll : List Tree → Bool
  | [] => true
  | child :: rest => ended child && endedAll rest

end

/-- The child is a closing action of a plan that failed. -/
def closes (plan : Plan) (child : Tree) : Bool := plan.failureTaskId.isSome && runsAfterFailure plan.steps child

/-- The steps of a plan that are to be done, or done again. -/
def unfinished (plan : Plan) (children : List Tree) : List Nat :=
  (children.filter fun child => child.value.status != .success || closes plan child ||
    plan.failureTaskId == some child.value.id).map (·.value.planStep) ++
    (List.range plan.steps.length).filter fun index => !children.any fun child => child.value.planStep == index

/-- The plan goes back to its first unfinished step. -/
def Plan.reopened (plan : Plan) (children : List Tree) : Plan :=
  {plan with failureTaskId := none, cursor := ((unfinished plan children).min?).getD plan.steps.length}

/-- A Task that did not end well starts again, suspended for the plan; a closing action too where the plan failed. -/
def restart (closing : Bool) (task : Task) : Task :=
  if task.status == .success && !closing then task
  else {task with
    status := if task.status == .success then .dispatch else if task.plan.isSome then .plan else .dispatch
    pauses := [.plan]
    planSkipped := false
    blocked := false}

mutual

def reopen (closing : Bool) : Tree → Tree
  | node task children =>
    match task.plan with
    | none => node (restart closing task) (reopenAll none children)
    | some plan =>
      node (restart closing {task with plan := some (plan.reopened children)})
        (reopenAll (some plan) children)

def reopenAll (plan : Option Plan) : List Tree → List Tree
  | [] => []
  | child :: rest => reopen (plan.any fun plan => closes plan child) child :: reopenAll plan rest

end

/-- `retry`. -/
def retry : Tree → Except String Tree
  | node task children =>
    match task.delivery.filter (·.ready) with
    | some recovery =>
      match children.findIdx? fun child => child.value.id == recovery.child with
      | none => .error "The delivery-only retry is no longer applicable to this Task."
      | some i =>
        match children[i]? with
        | some (node child nested) =>
          if !child.status.isTerminal then .error "The delivery-only retry is no longer applicable to this Task."
          else if task.status != .error then .error "Transition is not allowed."
          else
            let child := {child with status := .dispatch, pauses := [], blocked := false, delivery := some {recovery with ready := false}}
            .ok (node {task with status := .plan, pauses := [.plan], blocked := false, delivery := some {recovery with ready := false}}
              (children.set i (node child nested)))
        | none => .error "The delivery-only retry is no longer applicable to this Task."
    | none =>
      if task.status != .error then .error "Transition is not allowed."
      else if task.unclear then .ok (node {task with status := .create, pauses := [], blocked := false} children)
      else
        match task.plan with
        | some _ =>
          if !ended (node task children) then .error "An action is running."
          else
            match reopen false (node task children) with
            | node task children => .ok (node {task with pauses := []} children)
        | none => .ok (node {task with status := .dispatch, pauses := [], blocked := false} children)

/-! ### Events -/

/-- How an attempt ends. -/
inductive Ending
  | succeeded (blocked : Bool)
  | failed
  | suspended (reason : Pause)

inductive Event
  /-- The dispatcher routes a Task to the planner or to its execution. -/
  | dispatch (cost : ℚ) (planned : Bool)
  | advance (reply : Reply)
  | begin
  | finish (ending : Ending) (cost : ℚ)
  /-- The scheduler decides on an attempt that failed. -/
  | settle (again : Bool)
  | interrupt
  | suspend (reason : Pause)
  | release (reason : Pause)
  | retry

/-- `_update_task_after_execution`. -/
def updateAfterExecution (task : Task) (ending : Ending) (base cost : ℚ) : Task :=
  let task := {task with cost := base + cost, attempt := none}
  match ending with
  | .succeeded blocked => {task with status := .success, pauses := [], blocked}
  | .failed => {task with status := .error, pauses := [], lease := true, blocked := false}
  | .suspended reason => {task with status := .dispatch}.suspend reason

/-- An event at the root of the tree. -/
def apply (event : Event) : Tree → Option Tree
  | node task children =>
    match event with
    | .dispatch cost planned =>
      if task.status == .create then some (node
        {task.charge cost with status := if planned then .plan else .dispatch} children) else none
    | .advance reply => some (Planner.advance reply (node task children)).tree
    | .begin =>
      if task.plan.isNone && task.status == .dispatch && task.pauses.isEmpty then
        some (node {task with status := .exec, attempt := some task.cost, attempts := task.attempts + 1} children)
      else none
    | .finish ending cost =>
      if task.status == .exec then task.attempt.map fun base =>
        node (updateAfterExecution task ending base cost) children else none
    | .settle again =>
      if task.status == .error && task.lease
      then some (node {task with lease := false, status := if again then .dispatch else .error} children) else none
    | .interrupt =>
      if task.status == .exec
        then some (node {task with status := .dispatch, attempt := none} children) else none
    | .suspend reason => some (node (task.suspend reason) children)
    | .release reason => some (node (task.release reason) children)
    | .retry => (Planner.retry (node task children)).toOption

end Galaris.Agent.Planner
