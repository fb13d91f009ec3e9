import Galaris.Base.Search
import Galaris.Base.Transition
import Mathlib.Algebra.Order.Ring.Rat
import Mathlib.Data.Nat.Bitwise

/-! Admission budgets shared by a causal task tree (`app/task/budget.py`), with the claims of the
scheduler that ask for them (`_claim_locked_task`).

An admission is not one step: it reads its tree, takes the advisory lock of its scope, reads
the usage that is recorded, and then counts the leases; the lease it writes is seen by others
when its transaction commits. The events are these statements, in any interleaving of claims,
with calls that are recorded and leases that are renewed, released or expire in between. A
claim holds the row of its Task to its end, and its lock too. Costs are rational numbers where the code
has floats; only their order and the monotony of sums are used. -/
namespace Galaris.Tasks.Budget

/-- A UUID, as an integer. -/
abbrev Id := Nat

structure Row where
  id : Id
  parentId : Option Id
  sourceTaskId : Option Id
  goalId : Option Id
  createdAt : Nat
deriving DecidableEq, Repr

/-- `parent_id or source_task_id`. -/
def Row.above (row : Row) : Option Id := row.parentId.or row.sourceTaskId

/-- The Tasks, archived ones included. -/
structure Forest where
  rows : List Row
  ids : (rows.map (·.id)).Nodup

/-- The runtime settings; a maximum of 0 is none. -/
structure Settings where
  maxTokens : Nat
  maxCost : ℚ
  maxSeconds : Nat
  reserveTokens : Nat
  reserveCost : ℚ
  shareGoal : Bool
  leaseSeconds : Nat
  maxCost_nonneg : 0 ≤ maxCost
  reserveCost_pos : 0 < reserveCost

namespace Settings

def enabled (settings : Settings) : Bool :=
  settings.maxTokens ≠ 0 || settings.maxCost ≠ 0 || settings.maxSeconds ≠ 0

def tokenReserve (settings : Settings) : Nat := min settings.reserveTokens settings.maxTokens

def costReserve (settings : Settings) : ℚ := min settings.reserveCost settings.maxCost

end Settings

/-- A call that was recorded. -/
structure Call where
  task : Id
  tokens : Int
  cost : ℚ
deriving DecidableEq, Repr

/-- Why a phase is deferred; a Task may have another error as well. -/
inductive Message
  | userCapacity | cycle | time | tokens | cost | other (text : String)
deriving DecidableEq, Repr

/-! ### The lineage of a Task -/

namespace Forest
variable (forest : Forest)

def get? (id : Id) : Option Row := forest.rows.find? (·.id = id)

/-- The loop of `_root`; `error` is its `ValueError`. -/
def climb : Nat → List Id → Row → Option (Except Unit Row)
  | 0, _, _ => none
  | fuel + 1, seen, root =>
    match root.above with
    | none => some (.ok root)
    | some parentId =>
      if root.id ∈ seen then some (.error ())
      else
        match forest.get? parentId with
        | none => some (.ok root)
        | some parent => climb fuel (root.id :: seen) parent

/-- `_root`, with a turn for every Task and the end. -/
def root (task : Row) : Option (Except Unit Row) := forest.climb (forest.rows.length + 1) [] task

/-- From a Task to those that it is the parent or the source of. -/
def edges : List (Id × Id) := forest.rows.filterMap fun row => row.above.map fun above => (above, row.id)

/-- The first Tasks of `_lineage`. -/
def seeds (root : Row) (goal : Option Id) : List Row :=
  forest.rows.filter fun row =>
    match goal with
    | some goal => row.goalId = some goal
    | none => row.id = root.id

/-- `_lineage`: the recursive query follows the edges. -/
def lineage (root : Row) (goal : Option Id) : List Id :=
  (forest.rows.filter fun row => (forest.seeds root goal).any fun seed =>
    Search.search forest.edges row.id (forest.edges.length + 2) [seed.id] []).map (·.id)

/-- `_started_at`. -/
def startedAt (root : Row) (goal : Option Id) : Nat :=
  match goal with
  | none => root.createdAt
  | some goal =>
    let members := forest.lineage root (some goal)
    (((forest.rows.filter fun row => row.id ∈ members).map (·.createdAt)).min?).getD root.createdAt

end Forest

/-- What an admission is about: the tree of a Task, or its goal. -/
structure Scope where
  root : Row
  goal : Option Id
deriving DecidableEq, Repr

namespace Scope

def lockKey (scope : Scope) : Nat := (scope.goal.getD scope.root.id &&& (1 <<< 63 - 1)) ^^^ 0x425544474554

def ids (forest : Forest) (scope : Scope) : List Id := forest.lineage scope.root scope.goal

end Scope

def scopeOf (settings : Settings) (root task : Row) : Scope :=
  ⟨root, if settings.shareGoal then root.goalId.or task.goalId else none⟩

/-! ### Accounting -/

/-- `aggregate_task_lineage_usage`. -/
def usedTokens (calls : List Call) (ids : List Id) : Nat :=
  ((calls.filter fun call : Call => call.task ∈ ids).map fun call : Call => call.tokens).sum.toNat

def usedCost (calls : List Call) (ids : List Id) : ℚ :=
  max 0 ((calls.filter fun call : Call => call.task ∈ ids).map fun call : Call => call.cost).sum

/-- A lease is there, and has no end or a later one. -/
def live (now : Nat) (lease : Option (Option Nat)) : Bool :=
    lease.any fun expires => expires.all fun expires => now < expires

/-- Why the reservation does not fit. -/
def refusal (settings : Settings) (now startedAt tokens : Nat) (cost : ℚ) (active : Nat) : Option Message :=
  if settings.maxSeconds ≠ 0 ∧ startedAt + settings.maxSeconds ≤ now then some .time
  else if settings.maxTokens ≠ 0 ∧ settings.maxTokens < tokens + (active + 1) * settings.tokenReserve then some .tokens
  else if settings.maxCost ≠ 0 ∧ settings.maxCost < cost + (active + 1) * settings.costReserve then some .cost
  else none

/-! ### Claims -/

/-- How far the transaction of a claim is: it has the lock of its scope, it has read the usage, or
it has written its lease. Without a budget there is no scope. -/
inductive Claim
  | locked (now : Nat) (scope : Scope)
  | charged (now : Nat) (scope : Scope) (startedAt tokens : Nat) (cost : ℚ)
  | admitted (now : Nat) (scope : Option Scope)
deriving DecidableEq, Repr

namespace Claim

def now : Claim → Nat
  | .locked now _ => now
  | .charged now _ _ _ _ => now
  | .admitted now _ => now

def scope : Claim → Option Scope
  | .locked _ scope => some scope
  | .charged _ scope _ _ _ => some scope
  | .admitted _ scope => scope

def isAdmitted : Claim → Bool
  | .admitted _ _ => true
  | _ => false

end Claim

structure State where
  clock : Nat
  /-- The lease of a Task with its end. -/
  leases : Id → Option (Option Nat)
  calls : List Call
  /-- The claims that did not end. -/
  claims : Id → Option Claim
  lastError : Id → Option Message
  nextAttemptAt : Id → Option Nat

/-- What the limit per user says: there is room, it is reached, or it cannot be read now. -/
inductive Capacity
  | free | full | unknown
deriving DecidableEq, Repr

inductive Event
  | claim (task : Id) (capacity : Capacity)
  | charge (task : Id)
  | decide (task : Id)
  | commit (task : Id)
  | rollback (task : Id)
  | record (call : Call)
  | renew (task : Id)
  | release (task : Id)
  | tick (seconds : Nat)
deriving DecidableEq, Repr

namespace State

/-- The claim of a Task goes on, or ends without a lease. -/
def setClaim (s : State) (task : Id) (claim : Option Claim) : State :=
    {s with claims := Function.update s.claims task claim}

/-- The phase is deferred. -/
def refuse (s : State) (task : Id) (message : Message) (nextAttemptAt : Nat) : State :=
  { s.setClaim task none with
    lastError := Function.update s.lastError task (some message)
    nextAttemptAt := Function.update s.nextAttemptAt task (some nextAttemptAt) }

/-- The errors that `cleared` names are taken off. -/
def clear (s : State) (task : Id) (cleared : List Message) : State :=
  { s with lastError := Function.update s.lastError task ((s.lastError task).filter fun error => error ∉ cleared) }

/-- Another claim has the advisory lock. -/
def busy (forest : Forest) (s : State) (key : Nat) : Bool :=
  forest.rows.any fun row => ((s.claims row.id).bind (·.scope)).any fun scope => scope.lockKey = key

/-- `_active_leases`. -/
def activeLeases (forest : Forest) (s : State) (ids : List Id) (now : Nat) (excluding : Id) : Nat :=
  (forest.rows.filter fun row => row.id ∈ ids && row.id ≠ excluding && live now (s.leases row.id)).length

end State

variable (forest : Forest) (settings : Settings)

/-- `admit`, up to its lock. -/
def admitTask (s : State) (task : Row) : Capacity → Option State
  | .full => some (s.refuse task.id .userCapacity (s.clock + 5))
  | .unknown => some s
  | .free =>
    if settings.enabled then
      match forest.root task with
      | none => none
      | some (.error _) => some (s.refuse task.id .cycle (s.clock + 60))
      | some (.ok root) =>
        let scope := scopeOf settings root task
        if s.busy forest scope.lockKey then some (s.clear task.id [.userCapacity])
        else some (s.setClaim task.id (some (.locked s.clock scope)))
    else some (s.setClaim task.id (some (.admitted s.clock none)))

def apply (s : State) : Event → Option State
  | .claim task capacity =>
    match forest.get? task with
    | none => none
    | some row =>
      if (s.claims task).isNone && !live s.clock (s.leases task) &&
        ((s.nextAttemptAt task).all fun next => next ≤ s.clock) then
        admitTask forest settings s row capacity
      else none
  | .charge task =>
    match s.claims task with
    | some (.locked now scope) =>
      let ids := scope.ids forest
      some (s.setClaim task
        (some (.charged now scope (forest.startedAt scope.root scope.goal) (usedTokens s.calls ids)
          (usedCost s.calls ids))))
    | _ => none
  | .decide task =>
    match s.claims task with
    | some (.charged now scope startedAt tokens cost) =>
      match refusal settings now startedAt tokens cost (s.activeLeases forest (scope.ids forest) now task) with
      | some message => some (s.refuse task message (now + 60))
      | none => some (s.setClaim task (some (.admitted now (some scope))))
    | _ => none
  | .commit task =>
    match s.claims task with
    | some (.admitted now scope) =>
      let cleared : List Message :=
        if scope.isSome then [.userCapacity, .time, .tokens, .cost, .cycle] else [.userCapacity]
      some
        { (s.setClaim task none).clear task cleared with
          leases := Function.update s.leases task (some (some (now + settings.leaseSeconds)))
          nextAttemptAt := Function.update s.nextAttemptAt task none }
    | _ => none
  | .rollback task => if (s.claims task).isSome then some (s.setClaim task none) else none
  | .record call => some {s with calls := s.calls ++ [call]}
  | .renew task =>
    match s.leases task with
    | some (some expires) =>
      if (s.claims task).isNone ∧ s.clock < expires then
        some {s with leases := Function.update s.leases task (some (some (s.clock + settings.leaseSeconds)))}
      else none
    | _ => none
  | .release task =>
    if (s.claims task).isNone then some {s with leases := Function.update s.leases task none} else none
  | .tick seconds => some {s with clock := s.clock + seconds}

end Galaris.Tasks.Budget
