import Galaris.Base.Search
import Galaris.Task.Ledger

/-! Explicit replacement of a Task by a successor (`replacement.py`, `replacement_tree.py`).

The admission writes both Tasks in one transaction: it stops the predecessor, or every
member of its tree, and freezes what each of them had of a lease and of a run. The
successor is held until a reconciler finds the frozen Tasks stopped. A reconciler looks
at the rows in one transaction, asks the drivers to stop what still runs without one, and
decides in another, so that it decides on rows it reads again and on receipts of its own. -/
namespace Galaris.Tasks.Replacement

open Transition

/-! ### The rows -/

/-- `data["_agent_run_identity"]`, but the run itself. -/
structure Driver where
  driverCode : Option String := none
  localInterrupt : Bool := false
  attemptId : Option Nat := none
  deriving DecidableEq, Repr

/-- `data["_agent_run_identity"]`. -/
structure RunIdentity where
  requestRunId : Nat
  driver : Driver
  deriving DecidableEq, Repr

inductive Scope
  | here | remote
  deriving DecidableEq, Repr

inductive ReceiptState
  | requested | confirmed | unknown
  deriving DecidableEq, Repr

/-- `HarnessCancellationReceipt`. -/
structure Receipt where
  runId : Nat
  scope : Scope
  state : ReceiptState
  deriving DecidableEq, Repr

/-- What the admission froze of a Task, and the receipt that was stored for it since. -/
structure Stop where
  leaseToken : Option Nat
  run : Option RunIdentity
  completed : Bool
  cancellation : Option Receipt := none
  deriving DecidableEq, Repr

/-- `snapshot`. -/
structure Frozen where
  taskId : Nat
  agentId : Option Nat
  parentId : Option Nat
  stop : Stop
  deriving DecidableEq, Repr

inductive Decision
  | pending | confirmed | conflict
  deriving DecidableEq, Repr

/-- `data["_replacement"]`; `members` is there where the descendants are coordinated. -/
structure State where
  decision : Decision := .pending
  actionKey : String
  stop : Stop
  members : Option (List Frozen) := none
  deriving DecidableEq, Repr

/-- `data["awaiting_reply"]`, by whether its kind is a process. -/
inductive Wait
  | process | other
  deriving DecidableEq, Repr

/-- Where a Task stands: its agent, its conversation, its parent, and what it waits for. -/
structure Place where
  agentId : Option Nat := none
  connectionId : Option Nat := none
  groupId : Option String := none
  goalId : Option Nat := none
  parentId : Option Nat := none
  awaitingReply : Option Wait := none
  deriving DecidableEq, Repr

/-- A Task with its attempts; `successor` is `data["_replacement_successor"]`. -/
structure Row where
  id : Nat
  record : Record
  place : Place := {}
  driver : Driver := {}
  revision : Nat := 1
  sourceTaskId : Option Nat := none
  successor : Option Nat := none
  replacement : Option State := none
  deriving DecidableEq, Repr

namespace Row

def status (row : Row) : TaskStatus := row.record.task.status

def terminal (row : Row) : Bool := row.status.terminal

def leaseToken (row : Row) : Option Nat := row.record.task.leaseToken

def deleted (row : Row) : Bool := row.record.task.deleted

def run (row : Row) : Option RunIdentity := row.record.task.identity.map fun runId => ⟨runId, row.driver⟩

/-- `replacement_pending`. -/
def replacementPending (row : Row) : Bool := row.replacement.any fun state => state.decision != .confirmed

/-- What an admission freezes. -/
def stop (row : Row) : Stop where
  leaseToken := row.leaseToken
  run := row.run
  completed := row.status == .success

def snapshot (row : Row) : Frozen where
  taskId := row.id
  agentId := row.place.agentId
  parentId := row.place.parentId
  stop := row.stop

/-- The row as it is saved: a change is a new revision. -/
def saved (row row' : Row) : Row := if row' = row then row else {row' with revision := row.revision + 1}

end Row

/-- A worker between the two transactions of a reconciliation: its copy of the state, whether it
found the frozen Tasks as they were, and the Task whose driver it asks. -/
structure Pass where
  successorId : Nat
  sourceId : Nat
  state : State
  unchanged : Bool
  asking : Option Nat := none
  deriving DecidableEq, Repr

structure Store where
  rows : List Row
  passes : Nat → Option Pass := fun _ => none

namespace Store

/-- A query for one row, which does not see deleted rows. -/
def get (store : Store) (id : Nat) : Option Row := store.rows.find? fun row => row.id == id && !row.deleted

/-- The links from parents to children. -/
def links (store : Store) : List (Nat × Nat) :=
  store.rows.filterMap fun row => row.place.parentId.map fun parent => (parent, row.id)

/-- `members`: the rows of the tree, deleted ones included. -/
def members (store : Store) (root : Nat) : List Row :=
  store.rows.filter fun row => Search.search store.links row.id (store.links.length + 2) [root] []

/-- A transaction that changes one row. -/
def update (store : Store) (id : Nat) (f : Row → Row) : Store :=
  {store with rows := store.rows.map fun row => if row.id = id then f row else row}

def setPass (store : Store) (worker : Nat) (pass : Option Pass) : Store :=
  {store with passes := Function.update store.passes worker pass}

end Store

/-- An owner of external coordination: the Tasks that it blocks now, and whether it registered a
coordinator. -/
structure Owner where
  blocked : List Nat
  coordinates : Bool
  deriving DecidableEq, Repr

def blocks (owners : List Owner) (rows : List Row) : Bool :=
  owners.any fun owner => rows.any fun row => owner.blocked.contains row.id

/-! ### Admission -/

/-- `_has_coordination`. -/
def hasCoordination (owners : List Owner) (store : Store) (task : Row) : Bool :=
  task.place.goalId.isSome || task.place.awaitingReply.isSome ||
    ((store.members task.id).any fun row =>
      row.id != task.id && (!row.terminal || row.leaseToken.isSome || row.place.goalId.isSome)) ||
    blocks owners (store.members task.id)

/-- `stage`. -/
def stage (owners : List Owner) (store : Store) (root : Row) : Option (List Row) :=
  let rows := store.members root.id
  if rows.any fun row => row.deleted || row.place.goalId.isSome || row.place.awaitingReply == some .other then none
  else if blocks (owners.filter fun owner => !owner.coordinates) rows then none
  else some rows

structure Request where
  draft : Row
  predecessorId : Nat
  expectedRevision : Nat
  actionKey : String
  coordinateDescendants : Bool
  deriving DecidableEq, Repr

/-- The stop of a member: `request_cancellation` where it is active. -/
def cancelMember (C : Settings) (row : Row) : Row :=
  if row.terminal then row
  else {row with record := {row.record with task := (requestCancellation C row.record.task).getD row.record.task}}

/-- The Task that the admission adds. -/
def admitted (request : Request) (predecessor : Row) (members : List Row) : Row :=
  {request.draft with
    record := {request.draft.record with task := request.draft.record.task.suspend .replacement}
    sourceTaskId := some predecessor.id
    replacement := some {
      actionKey := request.actionKey
      stop := predecessor.stop
      members := if request.coordinateDescendants then some (members.map Row.snapshot) else none}}

/-- What the admission writes to a row that was there. -/
def displaced (C : Settings) (request : Request) (predecessor : Row) (members : List Row) (row : Row) : Row :=
  let stopped := if members.any fun member => member.id == row.id then cancelMember C row else row
  row.saved (if row.id = predecessor.id then {stopped with successor := some request.draft.id} else stopped)

/-- The members that are stopped, where what they wait for is resolved or coordinated. -/
def resolved (owners : List Owner) (store : Store) (request : Request) (predecessor : Row) : Option (List Row) :=
  if request.coordinateDescendants then stage owners store predecessor
  else if hasCoordination owners store predecessor then none
  else some [predecessor]

/-- `prepare_replacement`; the draft is not stored yet, and its identifier is a new one. -/
def prepareReplacement (C : Settings) (owners : List Owner) (request : Request) (store : Store) : Option Store := do
  let predecessor ← store.get request.predecessorId
  if predecessor.place.agentId ≠ request.draft.place.agentId ∨ predecessor.place.parentId.isSome ∨
      predecessor.place.connectionId ≠ request.draft.place.connectionId ∨
      predecessor.place.groupId ≠ request.draft.place.groupId then none
  else match predecessor.successor with
    | some existing =>
      if (store.get existing).any fun row => row.replacement.any fun state => state.actionKey == request.actionKey then
        some store
      else none
    | none =>
      if predecessor.revision ≠ request.expectedRevision then none
      else do
        let members ← resolved owners store request predecessor
        return {store with
          rows := store.rows.map (displaced C request predecessor members) ++ [admitted request predecessor members]}

/-! ### Reconciliation -/

/-- `predecessor_matches`. -/
def predecessorMatches (predecessor successor : Row) (state : State) : Bool :=
  !predecessor.deleted && predecessor.terminal &&
    predecessor.place.agentId == successor.place.agentId &&
    predecessor.place.connectionId == successor.place.connectionId &&
    predecessor.place.groupId == successor.place.groupId &&
    predecessor.run == state.stop.run &&
    (predecessor.leaseToken.isNone || predecessor.leaseToken == state.stop.leaseToken)

/-- The receipt confirms that the frozen run stopped, where it ran. -/
def Stop.receipted (stop : Stop) : Bool :=
  stop.cancellation.any fun receipt => stop.run.any fun run =>
    receipt.runId == run.requestRunId && receipt.state == .confirmed &&
      (receipt.scope == .remote || run.driver.localInterrupt)

/-- The attempt of the frozen lease, or else that of the frozen run. -/
def Stop.attempt (stop : Stop) (row : Row) : Option Attempt :=
  match stop.leaseToken with
  | some token => row.record.attempts.find? fun attempt => attempt.token == token
  | none =>
    match stop.run.bind fun run => run.driver.attemptId with
    | some number => row.record.attempts.find? fun attempt => attempt.number == number
    | none => none

/-- The attempt is finished, and its execution stopped. -/
def Stop.attempted (stop : Stop) (row : Row) : Bool :=
  (stop.attempt row).any fun attempt =>
    attempt.finishedAt.isSome &&
      ((attempt.stopped && stop.run.all fun run => run.driver.localInterrupt) ||
        attempt.events.any fun event =>
          (event.kind == .runCompleted || event.kind == .runFailed) && event.executionStopped &&
            event.runId == stop.run.map RunIdentity.requestRunId)

/-- `predecessor_stopped`. -/
def predecessorStopped (predecessor : Row) (stop : Stop) : Bool :=
  if predecessor.leaseToken.isSome || !predecessor.terminal then false
  else stop.completed || (stop.leaseToken.isNone && stop.run.isNone) || stop.receipted || stop.attempted predecessor

/-- `stable`. -/
def stable (rows : List Row) (records : List Frozen) : Bool :=
  (rows.all fun row => records.any fun record => record.taskId == row.id) &&
    records.all fun record => rows.any fun task =>
      task.id == record.taskId && !task.deleted && task.terminal && task.place.agentId == record.agentId &&
        task.place.parentId == record.parentId && task.run == record.stop.run &&
        (task.leaseToken.isNone || task.leaseToken == record.stop.leaseToken)

/-- The root is among the rows of the tree, and matches. -/
def rootMatches (rows : List Row) (root : Nat) (successor : Row) (state : State) : Bool :=
  rows.any fun row => row.id == root && predecessorMatches row successor state

/-- The first transaction, on a successor that was listed as pending before. -/
def look (store : Store) (successorId : Nat) : Option Pass := do
  let successor ← store.get successorId
  let sourceId ← successor.sourceTaskId
  let state ← successor.replacement
  match state.members with
  | some records =>
    let rows := store.members sourceId
    return ⟨successorId, sourceId, state, rootMatches rows sourceId successor state && stable rows records, none⟩
  | none => do
    let predecessor ← store.get sourceId
    let unchanged := predecessorMatches predecessor successor state
    let asks := unchanged && !predecessorStopped predecessor state.stop &&
      state.stop.run.any fun run => run.driver.driverCode.isSome
    return ⟨successorId, sourceId, state, unchanged, if asks then some sourceId else none⟩

/-- What `reconcile` reads of one record before it asks the driver; the records come in any order. -/
def ask (store : Store) (taskId : Nat) (pass : Pass) : Option Pass := do
  let records ← pass.state.members
  let record ← records.find? fun record => record.taskId == taskId
  if !pass.unchanged || pass.asking.isSome then none
  else
    let needsStop := (store.get taskId).any fun task =>
      task.run == record.stop.run && task.place.agentId == record.agentId && !predecessorStopped task record.stop
    if needsStop && record.stop.run.any fun run => run.driver.driverCode.isSome then
      some {pass with asking := some taskId}
    else some pass

/-- The answer of the driver, which raised where there is none. -/
def receive (receipt : Option Receipt) (pass : Pass) : Option Pass := do
  let taskId ← pass.asking
  let write (stop : Stop) : Stop := {stop with cancellation := receipt.orElse fun _ => stop.cancellation}
  return {pass with
    asking := none
    state := match pass.state.members with
      | some records => {pass.state with members := some (records.map fun record =>
          if record.taskId = taskId then {record with stop := write record.stop} else record)}
      | none => {pass.state with stop := write pass.state.stop}}

def Stop.confirmed (stop : Stop) : Bool := stop.cancellation.any fun receipt => receipt.state == .confirmed

/-- The confirmed receipts that were saved meanwhile are kept over those of the worker. -/
def overlay (saved records : List Frozen) : List Frozen :=
  saved.foldl (fun records kept =>
    if kept.stop.confirmed then records.map fun record =>
      if record.taskId = kept.taskId ∧ record.stop.run = kept.stop.run then
        {record with stop := {record.stop with cancellation := kept.stop.cancellation}}
      else record
    else records) records

/-- The receipt of the worker is stored, where no confirmed one is. -/
def Stop.receive (current mine : Stop) : Stop :=
  if mine.cancellation.isSome && !current.confirmed then {current with cancellation := mine.cancellation} else current

/-- The decision on the predecessor alone. -/
def decideAlone (owners : List Owner) (store : Store) (predecessor successor : Row)
    (current : State) (pass : Pass) : State :=
  if !predecessorMatches predecessor successor current || hasCoordination owners store predecessor then
    {current with decision := .conflict}
  else
    let current := {current with stop := current.stop.receive pass.state.stop}
    if predecessorStopped predecessor current.stop then {current with decision := .confirmed} else current

/-- The decision on the tree. -/
def decideTree (owners : List Owner) (store : Store) (root successor : Row) (current : State) (records : List Frozen) :
    State :=
  let records := overlay (current.members.getD []) records
  let rows := store.members root.id
  let unchanged := predecessorMatches root successor current && stable rows records
  let stopped := unchanged && (records.all fun record => rows.any fun row =>
    row.id == record.taskId && predecessorStopped row record.stop) && !blocks owners rows
  {current with
    members := some records
    decision := if !unchanged then .conflict else if stopped then .confirmed else current.decision}

/-- The decision of a pass. -/
def Pass.decision (owners : List Owner) (store : Store) (predecessor successor : Row) (current : State) (pass : Pass) :
    State :=
  match pass.state.members with
  | some records => decideTree owners store predecessor successor current records
  | none => decideAlone owners store predecessor successor current pass

/-- What the decision writes to the successor. -/
def settled (state : State) (row : Row) : Row :=
  row.saved {row with
    replacement := some state
    record := if state.decision = .confirmed then {row.record with task := row.record.task.release .replacement}
      else row.record}

/-- The last transaction of a pass. -/
def commit (owners : List Owner) (pass : Pass) (store : Store) : Store :=
  match store.get pass.sourceId, store.get pass.successorId with
  | some predecessor, some successor =>
    match successor.replacement with
    | some current =>
      if successor.terminal || current.decision != .pending then store
      else store.update successor.id (settled (pass.decision owners store predecessor successor current))
    | none => store
  | _, _ => store

/-! ### The system -/

inductive StoreEvent
  | insert (row : Row)
  | prepare (request : Request) (owners : List Owner)
  | command (id : Nat) (command : Command) (driver : Driver)
  | edit (id : Nat) (place : Place)
  | look (worker successorId : Nat)
  | ask (worker taskId : Nat)
  | receive (worker : Nat) (receipt : Option Receipt)
  | commit (worker : Nat) (owners : List Owner)
  | crash (worker : Nat)
  deriving DecidableEq, Repr

/-- A transaction of another writer on a row; an agent run that it admits is of the driver. -/
def Row.command (C : Settings) (command : Command) (driver : Driver) (row : Row) : Option Row :=
  if command.claims && row.replacementPending then some row
  else do
    let record ← command.apply C row.record
    -- an attempt alone is no revision of its Task
    return if record.task = row.record.task then {row with record := record}
      else row.saved {row with
        record := record
        driver := if record.task.identity = row.record.task.identity then row.driver else driver}

/-- A row that a writer has just built. -/
def Row.new (row : Row) : Bool := row.leaseToken.isNone && row.successor.isNone && row.replacement.isNone

namespace Store

def fresh (store : Store) (id : Nat) : Bool := store.rows.all fun row => row.id != id

/-- A transaction that may refuse the row. -/
def onRow (id : Nat) (f : Row → Option Row) (store : Store) : Option Store := do
  let row ← store.rows.find? fun row => row.id == id
  let row ← f row
  return store.update id fun _ => row

def apply (C : Settings) (store : Store) : StoreEvent → Option Store
  | .insert row =>
    if store.fresh row.id && row.new then
      some {store with rows := store.rows ++ [row]}
    else none
  | .prepare request owners =>
    if store.fresh request.draft.id && request.draft.new then prepareReplacement C owners request store else none
  | .command id command driver => store.onRow id (Row.command C command driver)
  | .edit id place => store.onRow id fun row => some (row.saved {row with place := place})
  | .look worker successorId => do
    let pass ← Replacement.look store successorId
    return store.setPass worker (some pass)
  | .ask worker taskId => do
    let pass ← store.passes worker
    let pass ← Replacement.ask store taskId pass
    return store.setPass worker (some pass)
  | .receive worker receipt => do
    let pass ← store.passes worker
    let pass ← Replacement.receive receipt pass
    return store.setPass worker (some pass)
  | .commit worker owners => do
    let pass ← store.passes worker
    if pass.asking.isSome then none
    else return (Replacement.commit owners pass store).setPass worker none
  | .crash worker => some (store.setPass worker none)

end Store

/-- A run of the store. -/
abbrev Runs (C : Settings) : Store → List StoreEvent → Store → Prop := Steps (Executes (Store.apply C))

end Galaris.Tasks.Replacement
