import Galaris.Base.Transition

/-! The authorization of one operation (`app/tools/authorization.py`).

A request records what was asked (`Terms`) and a status that callers, approvers and workers
rewrite. Arguments, configurations and deferred payloads are compared by their fingerprint,
as the source stores them.

`claim_action` is not one step. A caller reads its context and the clock first (`present`),
then waits for the locks of the agent policy, the approver and the request; what it does
once it has them is one transaction (`claim`). All other operations read the clock while
they hold the row. -/
namespace Galaris.Tools

open Transition

abbrev Fingerprint := String

inductive Mode
  | ask | enabled | disabled
deriving DecidableEq, Repr

inductive RequestStatus
  | pending | approved | denied | expired | invalidated | executing | completed | failed | outcomeUnknown
deriving DecidableEq, Repr

namespace RequestStatus

/-- Not claimed and not closed. -/
def open' : RequestStatus → Bool
  | .pending | .approved => true
  | _ => false

/-- Never executable again. -/
def closed : RequestStatus → Bool
  | .denied | .expired | .invalidated | .completed | .failed => true
  | _ => false

end RequestStatus

inductive Source
  | mcp | runtime | domain
deriving DecidableEq, Repr

inductive DecisionSource
  | human | runtimePolicy
deriving DecidableEq, Repr

/-- What an approval is bound to. -/
structure Terms where
  arguments : Fingerprint
  configuration : Fingerprint
  mode : Mode
  policySource : String
  approver : Nat
deriving DecidableEq, Repr

structure Request where
  source : Source
  /-- A tool of the runtime itself, without a connection. -/
  runtimeTool : Bool
  terms : Terms
  status : RequestStatus
  decisionSource : Option DecisionSource
  decidedAt : Option Nat
  expiresAt : Nat
  claimedAt : Option Nat
  finishedAt : Option Nat
  keepsArguments : Bool
  runtimePermission : Option Nat
  dispatchExpected : Bool
  deferredPayload : Option Fingerprint
  dispatchClaimedAt : Option Nat
deriving DecidableEq, Repr

/-- A remembered decision for an action type of a runtime. -/
structure RuntimePermission where
  id : Nat
  allowed : Bool
deriving DecidableEq, Repr

def day : Nat := 24 * 60 * 60

/-! ### `claim_action` -/

/-- The opaque token of an earlier answer: what it is bound to, and until when. -/
structure Continuation where
  arguments : Fingerprint
  expiresAt : Nat
deriving DecidableEq, Repr

/-- What a caller presents for this operation key, before it has read the clock. -/
structure Action where
  source : Source
  isTool : Bool
  connected : Bool
  arguments : Fingerprint
  configuration : Fingerprint
  approver : Option Nat
  continuation : Option Continuation
deriving DecidableEq, Repr

def Action.runtimeTool (action : Action) : Bool := action.source == .runtime && action.isTool && !action.connected

/-- A caller that waits for the locks of its claim. -/
structure Call where
  action : Action
  readAt : Nat
deriving DecidableEq, Repr

/-- What the locked transaction reads besides the request. -/
structure ClaimView where
  manager : Nat
  approverActive : Bool
  /-- The mode and its origin, unless the context, the grant or the connection changed. -/
  resolved : Option (Mode × String)
  permission : Option RuntimePermission
  /-- An equal request of the context was denied and has not expired. -/
  refused : Bool
  quotaFull : Bool
  /-- The runtime grant and the human-paused scope allow a dispatch. -/
  dispatchReady : Bool
deriving DecidableEq, Repr

inductive ClaimResult
  | rejected
  | unrequested
  | required
  | closed (status : RequestStatus)
  | claimed
deriving DecidableEq, Repr

/-- The terms presented at the claim. -/
def Call.terms (call : Call) (view : ClaimView) (mode : Mode) (origin : String) : Terms :=
  { arguments := call.action.arguments
    configuration := call.action.configuration
    mode := mode
    policySource := origin
    approver := call.action.approver.getD view.manager }

/-- `permission_still_valid`. -/
def permissionStillValid (permission : Option RuntimePermission) (row : Request) : Bool :=
  row.runtimePermission.isNone ||
    permission.any fun current => current.allowed && row.runtimePermission == some current.id

/-- The new row of an operation without request. -/
def Call.request (call : Call) (terms : Terms) (permission : Option RuntimePermission) : Request :=
  let remembered := if call.action.runtimeTool then permission else none
  { source := call.action.source
    runtimeTool := call.action.runtimeTool
    terms := terms
    status := if remembered.isSome then .approved else .pending
    decisionSource := if remembered.isSome then some .runtimePolicy else none
    decidedAt := if remembered.isSome then some call.readAt else none
    expiresAt := call.readAt + day
    claimedAt := none
    finishedAt := none
    keepsArguments := true
    runtimePermission := remembered.map (·.id)
    dispatchExpected := false
    deferredPayload := none
    dispatchClaimedAt := none }

namespace Request

/-- An open request whose time is over or whose terms are not those presented is closed first. -/
def revalidate (row : Request) (call : Call) (terms : Terms) (permission : Option RuntimePermission) : Request :=
  if !row.status.open' then row
  else if row.expiresAt ≤ call.readAt then {row with status := .expired}
  else if row.terms ≠ terms || !permissionStillValid permission row ||
      (row.status == .approved && row.decisionSource.isNone) then {row with status := .invalidated}
  else row

/-- A request found expired or invalidated gives up its arguments. -/
def settle (row : Request) (readAt : Nat) : Request :=
  if row.status == .expired || row.status == .invalidated then
    {row with keepsArguments := false, finishedAt := some readAt}
  else row

def sameOperation (row : Request) (terms : Terms) : Bool :=
  row.terms.arguments == terms.arguments && row.terms.configuration == terms.configuration

/-- What the claim answers, and the row once the status is written. -/
def consume (row : Request) (call : Call) (terms : Terms) (dispatchReady : Bool) : Request × ClaimResult :=
  if !row.sameOperation terms then (row, .closed .invalidated)
  else
    match row.status with
    | .pending => (row, .required)
    | .approved =>
      if dispatchReady then ({row with status := .executing, claimedAt := some call.readAt}, .claimed)
      else (row, .required)
    | status => (row, .closed status)

def claim (row : Request) (call : Call) (terms : Terms) (view : ClaimView) : Request × ClaimResult :=
  let outcome := (row.revalidate call terms view.permission).consume call terms view.dispatchReady
  (outcome.1.settle call.readAt, outcome.2)

end Request

/-- The locked transaction of `claim_action`. -/
def claimAction (call : Call) (view : ClaimView) (row : Option Request) : Option Request × ClaimResult :=
  match view.resolved with
  | none => (row, .rejected)
  | some (.disabled, _) => (row, .rejected)
  | some (mode, origin) =>
    if !view.approverActive then (row, .rejected)
    else
      let terms := call.terms view mode origin
      match row with
      | some row =>
        let outcome := row.claim call terms view
        (some outcome.1, outcome.2)
      | none =>
        if call.action.continuation.isSome then (none, .closed .invalidated)
        else if mode = .enabled then (none, .unrequested)
        else if view.refused then (none, .closed .denied)
        else if view.quotaFull then (none, .rejected)
        else
          let outcome := (call.request terms view.permission).claim call terms view
          (some outcome.1, outcome.2)

/-! ### `answer_action` -/

/-- A human answer, and what its transaction reads besides the request. -/
structure Answer where
  user : Nat
  approved : Bool
  remember : Bool
  /-- The policy is found, the user is active and may decide. -/
  entitled : Bool
  manager : Nat
  permission : Option RuntimePermission
  hasTool : Bool
  /-- `can_remember_action`, apart from the status, the expiry and the mode of the row. -/
  rememberable : Bool
  /-- The id of the permission that `remember_permission` stores. -/
  permissionId : Nat
deriving DecidableEq, Repr

namespace Request

/-- `can_remember_action`. -/
def canRemember (row : Request) (answer : Answer) (now : Nat) : Bool :=
  row.status == .pending && now < row.expiresAt && row.terms.mode == .ask && answer.rememberable

/-- A remembered answer becomes the policy of the runtime or of the connection function. -/
def remember (row : Request) (answer : Answer) (now : Nat) : Option Request :=
  if row.expiresAt ≤ now || !row.canRemember answer now then none
  else if row.source = .runtime then some {row with runtimePermission := some answer.permissionId}
  else if !answer.hasTool then none
  else some {row with
    terms := {row.terms with mode := if answer.approved then .enabled else .disabled, policySource := "connection"}}

/-- The first decision, unless the request has expired. -/
def decide' (row : Request) (approved : Bool) (now : Nat) : Request :=
  if row.expiresAt ≤ now then {row with status := .expired, keepsArguments := false, finishedAt := some now}
  else if approved then {row with status := .approved, decisionSource := some .human, decidedAt := some now}
  else {row with
    status := .denied
    decisionSource := some .human
    decidedAt := some now
    keepsArguments := false
    finishedAt := some now}

/-- `answer_action`; `none` where it returns without a commit. -/
def answer (row : Request) (answer : Answer) (now : Nat) : Option Request :=
  if !answer.entitled || row.terms.approver ≠ answer.user then none
  else if row.source ≠ .domain && row.terms.approver ≠ answer.manager then none
  else if row.status ≠ .pending then none
  else if row.runtimeTool && answer.permission.any (!·.allowed) then none
  else (if answer.remember then row.remember answer now else some row).map (·.decide' answer.approved now)

/-! ### Closing, expiry and the end of the action -/

/-- `invalidate_authorization_context`, and the reconciliation of a request that is no longer usable. -/
def invalidate (row : Request) (now : Nat) : Request :=
  if row.status.open' then {row with status := .invalidated, keepsArguments := false, finishedAt := some now}
  else row

/-- The expiry of `reconcile_authorizations`. -/
def expire (row : Request) (now : Nat) : Request :=
  if row.status.open' && row.expiresAt ≤ now then
    {row with status := .expired, keepsArguments := false, finishedAt := some now}
  else row

/-- An execution without outcome for a day is classified by `reconcile_authorizations`. -/
def abandon (row : Request) (now : Nat) : Request :=
  if row.status == .executing && row.claimedAt.any (· + day < now) then
    {row with status := .outcomeUnknown, finishedAt := some now}
  else row

end Request

inductive Outcome
  | completed | failed | outcomeUnknown
deriving DecidableEq, Repr

def Outcome.status : Outcome → RequestStatus
  | .completed => .completed
  | .failed => .failed
  | .outcomeUnknown => .outcomeUnknown

/-- `finish_action`; a call that prepared a deferred dispatch is completed by its worker only. -/
def Request.finish (row : Request) (outcome : Outcome) (receipt deferred : Bool) (now : Nat) : Request :=
  if row.status ≠ .executing &&
      !(row.status == .outcomeUnknown && outcome ≠ .outcomeUnknown && receipt) then row
  else if row.dispatchExpected && !deferred && outcome = .completed then row
  else {row with
    status := outcome.status
    finishedAt := some now
    keepsArguments := row.keepsArguments && outcome = .outcomeUnknown}

/-! ### Deferred dispatches -/

/-- `register_deferred_dispatch`. -/
def Request.registerDispatch (row : Request) (payload : Fingerprint) : Option Request :=
  if row.status ≠ .executing || row.dispatchExpected then none
  else some {row with dispatchExpected := true, deferredPayload := some payload}

/-- What a worker presents for its dispatch, and what the transaction reads besides the request. -/
structure DispatchView where
  payload : Fingerprint
  manager : Nat
  approverActive : Bool
  /-- The connection, the tool and its definition are there, with their mode, its origin and
  the fingerprint of the configuration. -/
  live : Option (Mode × String × Fingerprint)
  available : Bool
deriving DecidableEq, Repr

inductive DispatchResult
  | closed | invalidated | suspended | continued | dispatched
deriving DecidableEq, Repr

namespace Request

def dispatchValid (row : Request) (view : DispatchView) (now : Nat) : Bool :=
  now < row.expiresAt && row.deferredPayload == some view.payload && row.decisionSource.isSome &&
    row.terms.approver == view.manager && view.approverActive &&
    view.live == some (row.terms.mode, row.terms.policySource, row.terms.configuration)

/-- `claim_deferred_dispatch`; a continuation only revalidates a dispatch that was claimed. -/
def claimDispatch (row : Request) (view : DispatchView) (continuation : Bool) (now : Nat) : Request × DispatchResult :=
  if !(row.status == .executing || (continuation && row.status == .completed)) || !row.dispatchExpected ||
      row.dispatchClaimedAt.isSome ≠ continuation then (row, .closed)
  else if !row.dispatchValid view now then
    (if row.status = .executing then
      {row with status := .invalidated, keepsArguments := false, finishedAt := some now} else row, .invalidated)
  else if !view.available then (row, .suspended)
  else if continuation then (row, .continued)
  else ({row with dispatchClaimedAt := some now}, .dispatched)

/-- `release_buffered_dispatch`. -/
def releaseBuffered (row : Request) : Request :=
  if row.status = .executing ∧ row.dispatchExpected = true then {row with dispatchClaimedAt := none} else row

end Request

/-! ### The operation over time -/

/-- A decision on the request, as it was recorded. -/
structure Decision where
  approved : Bool
  terms : Terms
  at' : Nat
deriving DecidableEq, Repr

/-- A claim that was allowed to execute: what it presented, and when the transaction was. -/
structure Grant where
  terms : Terms
  at' : Nat
deriving DecidableEq, Repr

/-- What happened so far: the decisions, the claims allowed to execute, the deferred dispatches
that were prepared, and those that were claimed, with the status of the request at that moment. -/
structure History where
  decisions : List Decision
  grants : List Grant
  prepared : List Fingerprint
  dispatches : List RequestStatus
deriving DecidableEq, Repr

/-- One operation key: the clock, the callers that wait for the locks of their claim, the request. -/
structure Operation where
  now : Nat
  calls : List Call
  row : Option Request
  history : History
deriving DecidableEq, Repr

/-- No request yet. -/
def Operation.new : Operation := ⟨0, [], none, ⟨[], [], [], []⟩⟩

inductive OperationEvent
  | wait (seconds : Nat)
  | present (action : Action)
  | claim (i : Nat) (view : ClaimView)
  | answer (answer : Answer)
  | invalidate
  | expire
  | abandon
  | finish (outcome : Outcome) (receipt deferred : Bool)
  | registerDispatch (payload : Fingerprint)
  | claimDispatch (view : DispatchView) (continuation : Bool)
  | releaseBuffered
deriving Repr

/-- The token is bound to these arguments and has not expired. -/
def Action.continuationValid (action : Action) (now : Nat) : Bool :=
  action.continuation.all fun token => token.arguments == action.arguments && now < token.expiresAt

/-- The decision that a row records, as long as it is not closed or claimed. -/
def Request.decision (row : Request) : List Decision :=
  match row.status, row.decidedAt with
  | .approved, some at' => [⟨true, row.terms, at'⟩]
  | .denied, some at' => [⟨false, row.terms, at'⟩]
  | _, _ => []

namespace Operation

def onRow (op : Operation) (f : Request → Request) : Option Operation :=
  op.row.map fun row => {op with row := some (f row)}

/-- The operation after a claim that got its locks; a row that it creates may be decided by a
remembered permission. -/
def claimed (op : Operation) (call : Call) (view : ClaimView) (outcome : Option Request × ClaimResult) : Operation :=
  match view.resolved with
  | none => op
  | some (mode, origin) =>
    let terms := call.terms view mode origin
    {op with
      row := outcome.1
      history := {op.history with
        decisions :=
          if op.row.isNone && outcome.1.isSome then (call.request terms view.permission).decision
          else op.history.decisions
        grants := if outcome.2 = .claimed then op.history.grants ++ [⟨terms, op.now⟩] else op.history.grants}}

def apply (op : Operation) : OperationEvent → Option Operation
  | .wait seconds => some {op with now := op.now + seconds}
  | .present action =>
    if action.continuationValid op.now then some {op with calls := op.calls ++ [⟨action, op.now⟩]} else none
  | .claim i view => op.calls[i]?.map fun call =>
    ({op with calls := op.calls.eraseIdx i}).claimed call view (claimAction call view op.row)
  | .answer answer => op.row.bind fun row => (row.answer answer op.now).map fun row =>
    {op with row := some row, history := {op.history with decisions := op.history.decisions ++ row.decision}}
  | .invalidate => op.onRow (·.invalidate op.now)
  | .expire => op.onRow (·.expire op.now)
  | .abandon => op.onRow (·.abandon op.now)
  | .finish outcome receipt deferred => op.onRow (·.finish outcome receipt deferred op.now)
  | .registerDispatch payload => op.row.bind fun row => (row.registerDispatch payload).map fun row =>
    {op with row := some row, history := {op.history with prepared := op.history.prepared ++ [payload]}}
  | .claimDispatch view continuation => op.row.map fun row =>
    let outcome := row.claimDispatch view continuation op.now
    {op with
      row := some outcome.1
      history := {op.history with dispatches :=
        if outcome.2 = .dispatched then op.history.dispatches ++ [row.status] else op.history.dispatches}}
  | .releaseBuffered => op.onRow (·.releaseBuffered)

end Operation

/-- A run of callers, approvers and workers on one operation key. -/
abbrev Authorizations : Operation → List OperationEvent → Operation → Prop := Steps (Executes Operation.apply)

end Galaris.Tools
