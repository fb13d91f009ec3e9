import Mathlib.Data.List.Basic

/-! The effect journal of a run of the internal harness (`checkpoint.py`).

A tool call is recorded as started before it is dispatched, and its result is recorded
after. The checkpoint of a run holds the records beside the history of the model, and a
later process attempt resumes from it: what is recorded is answered from the journal, a
read or an idempotent call may be made again, and a call whose outcome nothing tells
blocks the resume. Of messages there are the tool calls of a response and the tool
returns of a request. A record is referred to by its place in the journal. -/
namespace Galaris.Harness

/-! ### Messages -/

/-- `ToolEffectPolicy`; a record without one is of a call that is not idempotent. -/
inductive EffectPolicy
  | read | idempotent | nonIdempotent
  deriving DecidableEq, Repr

/-- The call may be made again. -/
def EffectPolicy.retryable (policy : EffectPolicy) : Bool := policy != .nonIdempotent

inductive EffectStatus
  | started | outcomeUnknown | completed | failed | errorReported | interrupted | waitingForAuthorization
  deriving DecidableEq, Repr

inductive Outcome
  | returned | rejected | unknown
  deriving DecidableEq, Repr

/-- A result, by what is asked of its shape: a list, an object whose status is "interrupted", or an
error of the schema "galaris.tool-error/v1". -/
inductive ToolResult
  | plain (text : String)
  | list (text : String)
  | interrupted (instruction : String)
  | toolError (outcome : Outcome) (text : String)
  deriving DecidableEq, Repr

/-- `_response_ref`. -/
structure ResponseRef where
  runId : Option String
  timestamp : Nat
  providerId : Option String
  deriving DecidableEq, Repr

structure ToolCall where
  name : String
  callId : String
  arguments : String
  deriving DecidableEq, Repr

/-- A `ToolReturnPart`; `retried` is its outcome. -/
structure ToolReturn where
  name : String
  callId : String
  content : ToolResult
  retried : Bool := false
  deriving DecidableEq, Repr

inductive Message
  | response (ref : ResponseRef) (calls : List ToolCall)
  | request (returns : List ToolReturn)
  deriving DecidableEq, Repr

abbrev History := List Message

/-- The two parts are of one call. -/
def ToolReturn.sameCall (a b : ToolReturn) : Bool := a.callId == b.callId && a.name == b.name

/-- `_is_interruption`. -/
def ToolResult.isInterruption : ToolResult → Bool
  | .interrupted _ => true
  | _ => false

namespace History

/-- The tool returns of the request at a place. -/
def returnsAt (history : History) (index : Nat) : List ToolReturn :=
  match history[index]? with
  | some (.request returns) => returns
  | _ => []

/-- The last place that meets a condition. -/
def lastIndex (history : History) (p : Message → Bool) : Option Nat :=
  (List.range history.length).reverse.find? fun index => history[index]?.any p

/-- `_effect_response_index`. -/
def responseIndex (history : History) (ref : Option ResponseRef) (startedAt : Option Nat) (name callId : String) :
    Option Nat :=
  history.lastIndex fun message =>
    match message with
    | .response found calls =>
      match ref with
      | some ref => found == ref
      | none =>
        !(startedAt.any fun started => decide (started < found.timestamp)) &&
          calls.any fun call => call.callId == callId && call.name == name
    | .request _ => false

/-- The place of the last response, and its reference. -/
def lastResponse (history : History) : Option (Nat × ResponseRef) :=
  (List.range history.length).reverse.findSome? fun index =>
    match (history[index]? : Option Message) with
    | some (.response ref _) => some (index, ref)
    | _ => none

/-- `_replace_tool_return`, for the response at a place. -/
def replaceToolReturn (history : History) (index : Option Nat) (replacement : ToolReturn) : History :=
  match index with
  | none => history
  | some index =>
    match history[index + 1]? with
    | some (.request returns) =>
      history.set (index + 1) (.request ((returns.filter fun part => !part.sameCall replacement) ++ [replacement]))
    | _ => history.insertIdx (index + 1) (.request [replacement])

end History

/-! ### Records -/

def checkpointVersion : Nat := 5

/-- `_COMPATIBLE_CHECKPOINT_VERSIONS`. -/
def compatibleCheckpointVersions : List Nat := [1, 2, 3, 4, 5]

/-- One record of `effects`. The signature is the pair that is hashed. -/
structure Effect where
  operationId : Option Nat
  recoveryScope : Option String := none
  startedAt : Option Nat := none
  toolName : String
  toolCallId : String
  responseRef : Option ResponseRef := none
  signature : String × String
  status : EffectStatus
  policyVersion : Option Nat := none
  policy : EffectPolicy
  outcome : Option Outcome := none
  result : Option ToolResult := none
  error : String := ""
  authorizationRequestId : Option Nat := none
  authorizationContinuation : Option String := none
  deriving DecidableEq, Repr

namespace Effect

/-- Nothing tells how the call ended. -/
def unresolved (effect : Effect) : Bool := effect.status == .started || effect.status == .outcomeUnknown

/-- The call blocks a resume while it is unresolved. -/
def ambiguous (effect : Effect) : Bool := effect.unresolved && effect.policy == .nonIdempotent

/-- A result or an error is recorded. -/
def recorded (effect : Effect) : Bool :=
  effect.status == .completed || effect.status == .failed || effect.status == .errorReported

/-- A failure of a call that is not idempotent, which was not rejected before its effect. -/
def unacknowledged (effect : Effect) : Bool :=
  effect.status == .failed && effect.outcome != some .rejected && effect.policy == .nonIdempotent

def responseIndex (effect : Effect) (history : History) : Option Nat :=
  history.responseIndex effect.responseRef effect.startedAt effect.toolName effect.toolCallId

/-- The return of a recorded result. -/
def toolReturn (effect : Effect) : ToolReturn :=
  if effect.status == .failed then ⟨effect.toolName, effect.toolCallId, .plain effect.error, true⟩
  else ⟨effect.toolName, effect.toolCallId, effect.result.getD (.plain ""), false⟩

end Effect

/-- `AgentRunCheckpoint.data`. -/
structure Checkpoint where
  version : Nat
  resumeSafe : Bool
  resumeReconcilable : Bool
  history : History
  effects : List Effect
  waitingForChildren : Bool
  deriving DecidableEq, Repr

/-- `HarnessRunCheckpoint`: the journal of one process attempt; `replay` has the queues of all
signatures in one. -/
structure Journal where
  effects : List Effect := []
  history : History := []
  compatible : Bool := true
  replay : List Nat := []
  repaired : Bool := false
  waitingForChildren : Bool := false
  deriving DecidableEq, Repr

/-- The places of the records that meet a condition. -/
def places (effects : List Effect) (p : Effect → Bool) : List Nat :=
  (List.range effects.length).filter fun i => effects[i]?.any p

/-! ### Resume -/

/-- `__post_init__`. -/
def load : Option Checkpoint → Journal
  | none => {}
  | some checkpoint =>
    if !compatibleCheckpointVersions.contains checkpoint.version then
      {compatible := false, waitingForChildren := checkpoint.waitingForChildren}
    else
      let effects := checkpoint.effects.map fun effect =>
        if effect.unacknowledged then {effect with status := .outcomeUnknown} else effect
      { effects := effects
        history := checkpoint.history
        replay := places effects fun effect => effect.recorded && !effect.policy.retryable
        repaired := checkpoint.effects.any Effect.unacknowledged
        waitingForChildren := checkpoint.waitingForChildren }

/-- What `recover_effect` answers for a record. -/
inductive Recovery
  | raises
  | nothing
  | receipt (result : ToolResult)
  deriving DecidableEq, Repr

/-- The process can ask for a receipt of the record. -/
def recoverable (scope : Option String) (effect : Effect) : Bool :=
  (effect.unresolved || effect.status == .errorReported) && effect.operationId.isSome && scope.isSome &&
    effect.recoveryScope == scope

/-- One turn of the recovery, and whether it raised. -/
def recoverEffect (recover : Effect → Recovery) (scope : Option String) (i : Nat)
    (journal : Journal) : Journal × Bool :=
  match journal.effects[i]? with
  | none => (journal, false)
  | some effect =>
    if !recoverable scope effect then (journal, false)
    else
      match recover effect with
      | .raises => (journal, effect.status != .errorReported)
      | .nothing => (journal, false)
      | .receipt result =>
        let recovered := {effect with status := .completed, outcome := some .returned, result := some result}
        ({journal with
          effects := journal.effects.set i recovered
          -- a reported error is in its queue already
          replay := if effect.status == .errorReported then journal.replay else journal.replay ++ [i]
          history := journal.history.replaceToolReturn (recovered.responseIndex journal.history) recovered.toolReturn
          repaired := true}, false)

/-- The recovery of the records at places, up to the one that raises. -/
def recoverEffects (recover : Effect → Recovery) (scope : Option String) : List Nat → Journal → Journal × Bool
  | [], journal => (journal, false)
  | i :: rest, journal =>
    match recoverEffect recover scope i journal with
    | (journal, true) => (journal, true)
    | (journal, false) => recoverEffects recover scope rest journal

/-- The rejection of the call that the history has. -/
def recordedFailure (history : History) (effect : Effect) : Option ToolReturn :=
  if !effect.unresolved then none
  else (effect.responseIndex history).bind fun index =>
    (history.returnsAt (index + 1)).find? fun part =>
      part.retried && part.name == effect.toolName && part.callId == effect.toolCallId &&
        match part.content with
        | .list _ => true
        | _ => false

def ToolReturn.text (part : ToolReturn) : String :=
  match part.content with
  | .plain text | .list text | .interrupted text | .toolError _ text => text

/-- `_repair_recorded_failures`. -/
def repairRecordedFailures (journal : Journal) : Journal :=
  let failures := places journal.effects fun effect => (recordedFailure journal.history effect).isSome
  {journal with
    effects := journal.effects.map fun effect =>
      match recordedFailure journal.history effect with
      | some failure => {effect with status := .failed, outcome := some .rejected, error := failure.text}
      | none => effect
    replay := journal.replay ++ failures
    repaired := journal.repaired || !failures.isEmpty}

/-- A record of an older version, of a tool that may be called again by its contract now. -/
def conservative (native : String → EffectPolicy) (effect : Effect) : Bool :=
  effect.policyVersion != some checkpointVersion && effect.ambiguous && (native effect.toolName).retryable

/-- `_repair_conservative_effect_policies`. -/
def repairConservativeEffectPolicies (native : String → EffectPolicy) (journal : Journal) : Journal :=
  {journal with
    effects := journal.effects.map fun effect =>
      if conservative native effect then {effect with policy := native effect.toolName} else effect
    repaired := journal.repaired || journal.effects.any (conservative native)}

/-- `_close_retryable_effects`. -/
def closeRetryableEffects (effects : List Effect) (history : History) : History :=
  if history.isEmpty then history
  else effects.foldl (fun history effect => history.replaceToolReturn (effect.responseIndex history)
    ⟨effect.toolName, effect.toolCallId,
      .interrupted "Call this read/idempotent tool again if its result is needed.", false⟩)
    history

/-- `UnsafeCheckpointError`, of its format or as a `ToolOutcomeUnknownError` with the names of the
tools, and the exception of a recovery. -/
inductive Refusal
  | format
  | toolOutcomeUnknown (names : List String)
  | recovery
  deriving DecidableEq, Repr

/-- The exception is an `UnsafeCheckpointError`. -/
def Refusal.unsafeCheckpoint : Refusal → Bool
  | .recovery => false
  | _ => true

/-- `ensure_resumable`. -/
def ensureResumable (native : String → EffectPolicy) (journal : Journal) : Journal × Option Refusal :=
  if !journal.compatible then (journal, some .format)
  else
    let journal := repairConservativeEffectPolicies native (repairRecordedFailures journal)
    if journal.effects.any Effect.ambiguous then
      ({journal with
        effects := journal.effects.map fun effect =>
          if effect.ambiguous then {effect with status := .outcomeUnknown} else effect
        repaired := journal.repaired || journal.effects.any fun effect =>
          effect.ambiguous && effect.status != .outcomeUnknown},
        some (.toolOutcomeUnknown ((journal.effects.filter Effect.ambiguous).map Effect.toolName)))
    else
      let retryable := journal.effects.filter Effect.unresolved
      ({journal with
        history := closeRetryableEffects retryable journal.history
        effects := journal.effects.map fun effect =>
          if effect.unresolved then {effect with status := .interrupted} else effect
        repaired := journal.repaired || !retryable.isEmpty}, none)

/-- The interruptions that older recoveries put beside another call are taken out. -/
def withoutMisplaced (history : History) : History :=
  history.mapIdx fun index message =>
    match message, (if index = 0 then none else (history[index - 1]? : Option Message)) with
    | .request returns, some (.response _ calls) => .request (returns.filter fun part =>
        !(part.content.isInterruption && !(calls.any fun call => call.name == part.name && call.callId == part.callId)))
    | _, _ => message

/-- What becomes of one call of a response: nothing, or a return. -/
def closeCall (effects : List Effect) (history : History) (index : Nat) (ref : ResponseRef) (call : ToolCall)
    (current : History) : Option History :=
  let effect := effects.reverse.find? fun effect =>
    effect.toolName == call.name && effect.toolCallId == call.callId && effect.responseIndex history == some index
  let previous := (history.returnsAt (index + 1)).reverse.find? fun part =>
    part.name == call.name && part.callId == call.callId
  if effect.any fun effect => effect.status == .waitingForAuthorization then none
  else if previous.isSome && !((previous.any fun part => part.content.isInterruption) &&
    effect.any Effect.recorded) then none
  else
    match effect.filter Effect.recorded with
    | some effect => some (current.replaceToolReturn (effect.responseIndex current) effect.toolReturn)
    | none => some (current.replaceToolReturn (current.responseIndex (some ref) none call.name call.callId)
        ⟨call.name, call.callId, .interrupted "No result was recorded. Call this tool again if still needed.", false⟩)

/-- `_close_unanswered_calls`. -/
def closeUnansweredCalls (journal : Journal) : Journal :=
  let history := withoutMisplaced journal.history
  let calls := (List.range history.length).flatMap fun index =>
    match (history[index]? : Option Message) with
    | some (.response ref calls) => calls.map fun call => (index, ref, call)
    | _ => []
  let closed := calls.foldl (fun state place =>
    match closeCall journal.effects history place.1 place.2.1 place.2.2 state.1 with
    | some closed => (closed, true)
    | none => state) (history, journal.repaired || history != journal.history)
  {journal with history := closed.1, repaired := closed.2}

/-- `prepare_resume`, but the save at its end. -/
def prepareResume (recover : Effect → Recovery) (scope : Option String) (native : String → EffectPolicy)
    (journal : Journal) : Journal × Option Refusal :=
  let recovered := if journal.compatible then recoverEffects recover scope (List.range journal.effects.length) journal
    else (journal, false)
  if recovered.2 then (recovered.1, some .recovery)
  else
    match ensureResumable native recovered.1 with
    | (journal, none) => (closeUnansweredCalls journal, none)
    | (journal, refusal) => (journal, refusal)

/-- `_save`. -/
def Journal.checkpoint (scope : Option String) (journal : Journal) : Checkpoint where
  version := checkpointVersion
  resumeSafe := !journal.effects.any Effect.ambiguous
  resumeReconcilable := scope.isSome && (journal.effects.filter Effect.ambiguous).all fun effect =>
    ["console_exec", "console_start"].contains effect.toolName && effect.operationId.isSome &&
      effect.recoveryScope == scope
  history := journal.history
  effects := journal.effects
  waitingForChildren := journal.waitingForChildren

/-! ### Calls -/

/-- A call as the toolset gets it; the policy is that of the tool now. -/
structure Call where
  name : String
  arguments : String
  callId : Option String
  messages : History
  policy : EffectPolicy
  deriving DecidableEq, Repr

/-- `_signature`. -/
def Call.signature (call : Call) : String × String := (call.name, call.arguments)

/-- The record of the call is at the head of its queue. -/
def Journal.queued (call : Call) (journal : Journal) (i : Nat) : Bool :=
  journal.effects[i]?.any fun effect => effect.signature == call.signature

/-- `take_replay`: the record that answers the call. -/
def takeReplay (call : Call) (journal : Journal) : Option (Nat × Journal) :=
  (journal.replay.find? (journal.queued call)).map fun i => (i, {journal with replay := journal.replay.erase i})

/-- The record is the pending one of the call. -/
def pendingFor (call : Call) (effect : Effect) : Bool :=
  (effect.status == .waitingForAuthorization ||
    (effect.status == .interrupted && effect.policy.retryable &&
      call.messages.lastResponse.any fun response => effect.responseRef == some response.2)) &&
    some effect.toolCallId == call.callId && effect.signature == call.signature

/-- A new record. -/
def newEffect (call : Call) (scope : Option String) (fresh now : Nat) : Effect where
  operationId := some fresh
  recoveryScope := if ["console_exec", "console_start"].contains call.name then scope else none
  startedAt := some now
  toolName := call.name
  toolCallId := call.callId.getD (toString fresh)
  responseRef := call.messages.lastResponse.map Prod.snd
  signature := call.signature
  status := .started
  policyVersion := some checkpointVersion
  policy := call.policy

/-- `started`, but its save: the journal, the record, and whether the call goes on; otherwise it
raises a `ToolOutcomeUnknownError`. -/
def started (call : Call) (scope : Option String) (fresh now : Nat) (journal : Journal) : Journal × Nat × Bool :=
  match journal.effects.findIdx? (pendingFor call) with
  | some i =>
    let refused := journal.effects[i]?.any (fun effect => effect.status == .interrupted) &&
      call.policy == .nonIdempotent
    ({journal with effects := journal.effects.modify i fun effect =>
        if refused then {effect with status := .outcomeUnknown, policy := call.policy}
          else {effect with status := .started}},
      i, !refused)
  | none =>
    ({journal with effects := journal.effects ++ [newEffect call scope fresh now], history := call.messages},
      journal.effects.length, true)

/-- `waiting_for_authorization`, but its save. -/
def waitingForAuthorization (i requestId : Nat) (continuation : Option String) (journal : Journal) : Journal :=
  {journal with effects := journal.effects.modify i fun effect =>
    {effect with
      status := .waitingForAuthorization
      outcome := some .rejected
      authorizationRequestId := some requestId
      authorizationContinuation := continuation.orElse fun _ => effect.authorizationContinuation}}

/-- The history with the returns of the current response. -/
def completedHistory (effects : List Effect) (messages : History) (fallback : ToolReturn) : History :=
  let returns := (messages.lastResponse.map fun response =>
    (effects.filter fun effect => effect.recorded && effect.responseIndex messages == some response.1).map
      Effect.toolReturn).getD []
  let returns := if returns.isEmpty then [fallback] else returns
  match messages.getLast? with
  | some (.request parts) =>
    messages.dropLast ++ [.request ((parts.filter fun part => !returns.any part.sameCall) ++ returns)]
  | _ => messages ++ [.request returns]

/-- `completed`, but its save; `toolError` is there where the tool raised or reported a failure. -/
def completed (i : Nat) (call : Call) (result : ToolResult) (toolError : Option Outcome)
    (journal : Journal) : Journal :=
  let effects := journal.effects.modify i fun effect =>
    {effect with
      authorizationContinuation := none
      status := if toolError.isSome then .errorReported else .completed
      outcome := some (toolError.getD .returned)
      result := some result}
  {journal with
    effects := effects
    history := completedHistory effects call.messages
      ⟨call.name, ((effects[i]?).map Effect.toolCallId).getD "", result, false⟩}

/-! ### Deferred calls -/

/-- `authorization_status`. -/
inductive AuthorizationStatus
  | pending | approved | denied | expired | invalidated | executing | completed | failed | outcomeUnknown
  deriving DecidableEq, Repr

/-- What the model gets for a call that is not approved. -/
def AuthorizationStatus.closed (status : AuthorizationStatus) : ToolResult :=
  .plain (match status with
    | .pending => "pending" | .approved => "approved" | .denied => "denied" | .expired => "expired"
    | .invalidated => "invalidated" | .executing => "executing" | .completed => "completed" | .failed => "failed"
    | .outcomeUnknown => "outcome_unknown")

/-- The call of a record that is made again, in the last response. -/
def deferredCall (history : History) (effect : Effect) : Option String :=
  if effect.status != .interrupted || !effect.policy.retryable then none
  else history.lastResponse.bind fun response =>
    if effect.responseIndex history != some response.1 then none
    else
      match history[response.1]? with
      | some (.response _ calls) => (calls.find? fun call => call.callId == effect.toolCallId &&
          call.name == effect.toolName && (call.name, call.arguments) == effect.signature).map ToolCall.callId
      | _ => none

/-- The history without the interruptions of the calls that are made again. -/
def deferredHistory (approvals : List String) (history : History) : History :=
  match history.lastResponse with
  | none => history
  | some response =>
    if approvals.isEmpty then history
    else
      let parts := (history.drop (response.1 + 1)).flatMap fun message =>
        match message with
        | .request returns =>
          returns.filter fun part =>
            !(approvals.contains part.callId && part.content.isInterruption)
        | .response _ _ => []
      history.take (response.1 + 1) ++ if parts.isEmpty then [] else [.request parts]

/-- The pending calls in order: the approved ones, or the request that is still pending. -/
def deferAuthorizations (status : Nat → AuthorizationStatus) : List Nat → Journal → List String →
    Journal × Except Nat (List String)
  | [], journal, approvals => (journal, .ok approvals)
  | i :: rest, journal, approvals =>
    match journal.effects[i]? with
    | none => deferAuthorizations status rest journal approvals
    | some effect =>
      if effect.status != .waitingForAuthorization then deferAuthorizations status rest journal approvals
      else
        let requestId := effect.authorizationRequestId.getD 0
        match status requestId with
        | .pending => (journal, .error requestId)
        | .approved => deferAuthorizations status rest journal (approvals ++ [effect.toolCallId])
        | closed =>
          let denied := {effect with
            status := .completed
            authorizationContinuation := none
            result := some closed.closed
            outcome := if closed == .executing || closed == .outcomeUnknown then some .unknown else effect.outcome}
          deferAuthorizations status rest {journal with effects := journal.effects.set i denied} approvals

/-- `deferred_results`: the calls that are approved, or the request that is still pending. -/
def deferredResults (status : Nat → AuthorizationStatus) (journal : Journal) : Journal × Except Nat (List String) :=
  let again := journal.effects.filterMap (deferredCall journal.history)
  deferAuthorizations status (List.range journal.effects.length)
    {journal with history := deferredHistory again journal.history} again

/-! ### The checkpoint policy (`checkpoint_policy.py`) -/

/-- `CheckpointAssessment.state`. -/
inductive AssessmentState
  | safe | reconcile | notSafe
  deriving DecidableEq, Repr

structure Assessment where
  state : AssessmentState
  reason : String := ""
  deriving DecidableEq, Repr

/-- What makes one record unsafe. -/
def Effect.problem (version : Nat) (effect : Effect) : Option String :=
  if effect.status == .interrupted && !effect.policy.retryable then some "Interrupted effect is not replay-safe."
  else if effect.status == .errorReported &&
      !([4, 5].contains version && (effect.outcome == some .rejected || effect.outcome == some .unknown) &&
        effect.result.any fun result =>
          match result with
          | .toolError outcome _ => some outcome == effect.outcome
          | _ => false) then some "Invalid reported tool error."
  else if effect.status == .waitingForAuthorization &&
      (version != 5 || effect.outcome != some .rejected || effect.authorizationRequestId.isNone) then
    some "Invalid authorization waiting record."
  else none

/-- `assess`. -/
def assess (checkpoint : Checkpoint) : Assessment :=
  if !compatibleCheckpointVersions.contains checkpoint.version
    then ⟨.notSafe, "Unsupported internal checkpoint version."⟩
  else
    match checkpoint.effects.findSome? (Effect.problem checkpoint.version) with
    | some reason => ⟨.notSafe, reason⟩
    | none =>
      let unresolved := checkpoint.effects.filter fun effect => effect.ambiguous || effect.unacknowledged
      if !unresolved.isEmpty then
        let recoverable := [3, 4, 5].contains checkpoint.version && checkpoint.resumeReconcilable &&
          unresolved.all fun effect => ["console_exec", "console_start"].contains effect.toolName &&
            effect.operationId.isSome && effect.recoveryScope.isSome
        ⟨if recoverable then .reconcile else .notSafe, "Unacknowledged effects require reconciliation."⟩
      else if checkpoint.resumeSafe then ⟨.safe, ""⟩
      else ⟨.notSafe, "No effect safety marker."⟩

/-- `rebase`. -/
def rebase (checkpoint : Checkpoint) : Option Checkpoint :=
  if (assess checkpoint).state == .notSafe then none else some {checkpoint with history := []}

end Galaris.Harness
