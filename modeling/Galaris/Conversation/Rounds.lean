import Galaris.Base.Transition
import Mathlib.Data.List.Sort

/-! The text rounds of one room (`app/conversation/service.py`, `contact_authorization.py`).

An inbound message is admitted as an input of the room's pending round (FROZEN). A worker
claims a round with a lease, runs it, and completes, fails or interrupts it; people pause,
stop, resume or restart it; a round may wait for an approval of a tool or of a contact. Every
operation here is one transaction on the rounds of the room; one that does nothing or raises
is no step. A reply is sent between two transactions: the first writes SENDING, the second
what became of it.

Fields that none of these decisions reads are left out: topic, language, requester, memory,
result and the times of a round. -/
namespace Galaris.Conversation

abbrev Id := Nat

abbrev Token := Nat

/-- Messages are numbered in the order of their time and id. -/
abbrev Message := Nat

inductive Status
  | frozen | claimed | running | waitingApproval | paused | succeeded | superseded | errorResolved | cancelled
deriving DecidableEq, Repr

namespace Status

/-- `ACTIVE_ROUND_STATUSES`. -/
def active : Status → Bool
  | .frozen | .claimed | .running | .waitingApproval | .paused => true
  | _ => false

/-- `PROCESSING_ROUND_STATUSES`. -/
def processing : Status → Bool
  | .claimed | .running => true
  | _ => false

end Status

inductive Delivery
  | pending | sending | delivered | skipped | unknown
deriving DecidableEq, Repr

inductive Action
  | pause | stop | resume | respond | restart
deriving DecidableEq, Repr

/-- `REQUESTED_ACTIONS`. -/
def Action.requested : Action → Bool
  | .pause | .stop | .respond => true
  | _ => false

/-- What `assess_checkpoint` says of the checkpoint that is saved, if it can be read. -/
inductive Checkpoint
  | safe | uncertain (reason : String) | unreadable
deriving DecidableEq, Repr

inductive AttemptStatus
  | claimed | success | error | interrupted | superseded | waitingApproval | userStopped | userPaused
deriving DecidableEq, Repr

structure Attempt where
  number : Nat
  leaseToken : Token
  status : AttemptStatus
  error : Option String
  finishedAt : Option Nat
deriving DecidableEq, Repr

/-- A message as an input of a round. -/
structure Input where
  message : Message
  sequence : Nat
  consumed : Bool
deriving DecidableEq, Repr

structure Round where
  id : Id
  status : Status
  contactPermissionKey : Option String
  contactAuthorizationPending : Bool
  effectStarted : Bool
  deliveryState : Delivery
  leaseToken : Option Token
  leaseExpiresAt : Option Nat
  attempts : List Attempt
  attemptCount : Nat
  controlAction : Option Action
  responseOnly : Bool
  resolvedByRoundId : Option Id
  checkpoint : Option Checkpoint
  lastError : Option String
  inputs : List Input
deriving DecidableEq, Repr

def leaseSeconds : Nat := 45

def maxFailures : Nat := 2

namespace Round

/-- A round with no inputs yet. -/
def new (id : Id) (status : Status) (key : Option String) (awaitingContact : Bool) : Round where
  id := id
  status := status
  contactPermissionKey := key
  contactAuthorizationPending := awaitingContact
  effectStarted := false
  deliveryState := .pending
  leaseToken := none
  leaseExpiresAt := none
  attempts := []
  attemptCount := 0
  controlAction := none
  responseOnly := false
  resolvedByRoundId := none
  checkpoint := none
  lastError := none
  inputs := []

/-- `_finish_attempt`: the last attempt, whatever it is. -/
def finishAttempt (round : Round) (now : Nat) (status : AttemptStatus) (error : Option String) : Round :=
  { round with
    attempts := round.attempts.map fun attempt =>
      if attempt.number = round.attemptCount
        then {attempt with status := status, error := error, finishedAt := some now}
      else attempt }

/-- `_mark_round_inputs_consumed`. -/
def markInputsConsumed (round : Round) : Round :=
  {round with inputs := round.inputs.map fun input => {input with consumed := true}}

/-- `_clear_round_lease`. -/
def clearLease (round : Round) : Round := {round with leaseToken := none, leaseExpiresAt := none}

/-- `_owns_round`. -/
def owned (round : Round) (token : Token) (now : Nat) : Bool :=
  round.status.processing && round.leaseToken == some token && round.leaseExpiresAt.any fun expires => now < expires

/-- `_failure_count`. -/
def failureCount (round : Round) : Nat := round.attempts.countP fun attempt => attempt.status == .error

/-- `_ensure_safe_checkpoint` does not raise. -/
def safeCheckpoint (round : Round) : Bool :=
  match round.checkpoint with
  | some .safe => true
  | some _ => false
  | none => !round.effectStarted

/-- `available_round_actions`, for a text round. -/
def availableActions (round : Round) : List Action :=
  if round.contactAuthorizationPending && (round.status == .paused || round.status == .cancelled) then
    if round.status == .paused then [.stop] else []
  else if [Delivery.sending, .unknown, .delivered].contains round.deliveryState then []
  else if round.controlAction.any (·.requested) then if round.controlAction == some .stop then [] else [.stop]
  else
    match round.status with
    | .frozen | .claimed | .running | .waitingApproval =>
      if round.responseOnly then [.pause, .stop] else [.pause, .stop, .respond]
    | .paused => [.resume, .stop, .respond]
    | .cancelled => if round.resolvedByRoundId.isNone then [.restart] else []
    | _ => []

/-- The messages that are not consumed, of two rounds. -/
def openMessages (source target : Round) : List Message :=
  (((source.inputs ++ target.inputs).filter fun input : Input => !input.consumed).map
    fun input : Input => input.message)

/-- The inputs of the target once those of the source are merged into it. -/
def mergedInputs (source target : Round) : List Input :=
  (((openMessages source target).insertionSort (· ≤ ·)).dedup.zipIdx 1).map fun row => ⟨row.1, row.2, false⟩

end Round

/-- What is handed to the messenger for a round: its reply, or the notice of its failure. -/
inductive Dispatch
  | reply | notice
deriving DecidableEq, Repr

/-- Where a worker is on its way from one transaction to the next. -/
inductive Stage
  | ready | sent | done
deriving DecidableEq, Repr

/-- A worker that replies, that has claimed a notice, or that sends one. -/
inductive Sender
  | reply (round : Id) (token : Token) (stage : Stage)
  | claimed (round : Id)
  | notice (round : Id) (token : Token) (stage : Stage)
deriving DecidableEq, Repr

/-- The rounds of the room in the order of their creation; the workers that send, and what they sent. -/
structure State where
  rounds : List Round
  clock : Nat
  senders : List Sender
  dispatched : List (Id × Dispatch)

namespace State

def get? (s : State) (id : Id) : Option Round := s.rounds.find? (·.id = id)

/-- The round is written. -/
def put (s : State) (round : Round) : State :=
  {s with rounds := s.rounds.map fun other => if other.id = round.id then round else other}

/-- A new round. -/
def add (s : State) (round : Round) : State := {s with rounds := s.rounds ++ [round]}

/-- `_pending_successor`. -/
def successor? (s : State) (round : Round) : Option Round :=
  s.rounds.find? fun other => other.status == .frozen && other.id ≠ round.id

/-- `_merge_inputs`, of a source that this supersedes. -/
def mergeInto (s : State) (source target : Round) : State :=
  (s.put {target with inputs := source.mergedInputs target}).put
    {source with status := .superseded, resolvedByRoundId := some target.id}

/-- A round of the room is processed. -/
def busy (s : State) : Bool := s.rounds.any (·.status.processing)

end State

/-! ### Admission -/

/-- The message is an input of a round already. -/
def admitted (s : State) (message : Message) : Bool := s.rounds.any fun round => round.inputs.any (·.message = message)

/-- The round that waits for a contact. -/
def awaitingRound (s : State) (key : Option String) : Option Round :=
  s.rounds.find? fun round =>
    round.status == .paused && round.contactPermissionKey == key && round.contactAuthorizationPending

/-- The round that a message joins. -/
def pendingRound (s : State) (key : Option String) (awaitingContact : Bool) : Option Round :=
  if awaitingContact then awaitingRound s key
  else
    match s.rounds.find? (·.status == .frozen) with
    | some round => some round
    | none =>
      if key.isSome then
        (awaitingRound s key).map fun round => {round with status := .frozen, contactAuthorizationPending := false}
      else none

/-- The next input of the round. -/
def Round.append (round : Round) (message : Message) : Round :=
  let last := (round.inputs.map (·.sequence)).foldl max 0
  {round with inputs := round.inputs ++ [⟨message, last + 1, false⟩]}

/-- A round that waits is superseded by the round of the new message. -/
def supersede (target : Id) (s : State) (previous : Round) : State :=
  match s.get? target with
  | none => s
  | some round =>
    if previous.status == .paused || !previous.effectStarted then s.mergeInto {previous with checkpoint := none} round
    else s.put {previous with status := .superseded, checkpoint := none}

/-- The rounds that a new message supersedes. -/
def waitingRounds (s : State) : List Round :=
  s.rounds.filter fun round =>
    (round.status == .waitingApproval || round.status == .paused) && !round.contactAuthorizationPending

/-- The round that an admission writes, and the state without it. -/
def admissionRound (s : State) (fresh : Id) (key : Option String) (awaitingContact : Bool) : State × Round :=
  let new := Round.new fresh (if awaitingContact then .paused else .frozen) key awaitingContact
  match pendingRound s key awaitingContact with
  | none => (s.add new, new)
  | some round =>
    if round.effectStarted then
      let done := {round.markInputsConsumed with status := .succeeded, deliveryState := .skipped, checkpoint := none}
      ((s.put done).add new, new)
    else (s, {round with contactPermissionKey := if key.isSome then key else round.contactPermissionKey})

/-- `admit_message`; `fresh` is the id of a new round. -/
def admitMessage (s : State) (message : Message) (fresh : Id) (key : Option String)
    (awaitingContact : Bool) : Option State :=
  if admitted s message || (s.get? fresh).isSome then none
  else
    let (s, round) := admissionRound s fresh key awaitingContact
    let s := s.put (round.append message)
    if awaitingContact then some s else some ((waitingRounds s).foldl (supersede round.id) s)

/-! ### Requested control -/

def unsafeResume : String := "The saved execution cannot safely resume; verify the previous tool effects first."

/-- `apply_requested_control`; `none` where no command is requested. -/
def applyRequestedControl (s : State) (round : Round) : Option State :=
  match round.controlAction with
  | some .stop =>
    let round := {(round.finishAttempt s.clock .userStopped none).clearLease with lastError := none}
    some (s.put {round.markInputsConsumed with status := .cancelled, deliveryState := .skipped, controlAction := none})
  | some .pause =>
    let round := {(round.finishAttempt s.clock .userPaused none).clearLease with
      lastError := none, status := .paused, controlAction := none}
    match s.successor? round with
    | some successor => some (s.mergeInto {round with checkpoint := none} successor)
    | none => some (s.put round)
  | some .respond =>
    let round := {(round.finishAttempt s.clock .userPaused none).clearLease with
      lastError := none, status := .paused, controlAction := none}
    match s.successor? round with
    | some _ => some (s.put round)
    | none =>
      if round.safeCheckpoint then some (s.put {round with status := .frozen, responseOnly := true})
      else some (s.put {round with lastError := some unsafeResume})
  | _ => none

/-! ### Workers -/

/-- `_claim_round`; `authorized` is the answer of `contact_round_authorized`. -/
def claimRound (s : State) (round : Round) (token : Token) (authorized : Bool) : State :=
  if round.contactPermissionKey.isSome && !authorized then
    s.put {round.clearLease with status := .paused, contactAuthorizationPending := true}
  else
    s.put { round with
      status := .claimed
      leaseToken := some token
      leaseExpiresAt := some (s.clock + leaseSeconds)
      attemptCount := round.attemptCount + 1
      attempts := round.attempts ++ [⟨round.attemptCount + 1, token, .claimed, none, none⟩] }

/-- Why a round that stopped cannot resume. -/
def interruptError (round : Round) : Option String :=
  if round.deliveryState == .sending then
    some "Conversation worker stopped during response delivery; delivery must be reconciled."
  else
    match round.checkpoint with
    | some .safe => none
    | some (.uncertain reason) => some ("Conversation checkpoint cannot safely resume: " ++ reason)
    | some .unreadable => some "Conversation recovery checkpoint is unreadable; effects were not replayed."
    | none =>
      if round.effectStarted
        then some "Conversation worker stopped after an effect without a recovery checkpoint."
        else none

/-- `_interrupt_round`, and whether the round is pending again; `receipt` is whether the messenger
has accepted the reply. -/
def interruptRound (s : State) (round : Round) (receipt : Bool) : State × Bool :=
  match applyRequestedControl s round with
  | some s => (s, false)
  | none =>
    if round.deliveryState == .sending && receipt then
      let round := {round with status := .succeeded, deliveryState := .delivered, lastError := none, checkpoint := none}
      (s.put (round.markInputsConsumed.finishAttempt s.clock .success none).clearLease, false)
    else
      match interruptError round with
      | some error =>
        let round :=
          { round with
            status := .errorResolved
            lastError := some error
            deliveryState := if round.deliveryState == Delivery.sending then .unknown else .pending }
        (s.put (round.markInputsConsumed.finishAttempt s.clock .error (some error)).clearLease, false)
      | none =>
        let round := round.finishAttempt s.clock .interrupted
          (some "Conversation worker interrupted; execution will resume.")
        let round := {round.clearLease with lastError := none}
        match s.successor? round with
        | some successor =>
          if round.effectStarted then (s.put {round.markInputsConsumed with status := .succeeded}, false)
          else (s.mergeInto round successor, false)
        | none => (s.put {round with status := .frozen}, true)

/-- The outcome of a turn. -/
structure Outcome where
  effectStarted : Bool
  waitingForAuthorization : Bool
  interrupted : Bool
  text : Bool
deriving DecidableEq, Repr

/-- `complete_round`, to the transaction that writes SENDING, or to its end without a reply. -/
def completeRound (s : State) (before : Round) (token : Token) (outcome : Outcome) : State :=
  let successor := s.successor? before
  let round := {before with effectStarted := before.effectStarted || outcome.effectStarted}
  match applyRequestedControl s round with
  | some s => s
  | none =>
    let round := {round with lastError := none}
    if outcome.waitingForAuthorization then
      s.put ({round with status := .waitingApproval}.clearLease.finishAttempt s.clock .waitingApproval none)
    else if outcome.interrupted && successor.isNone && !round.effectStarted then
      s.put ({round with status := .frozen}.clearLease.finishAttempt s.clock .superseded none)
    else
      match successor with
      | some successor =>
        if round.effectStarted then
          s.put (({round with status := .succeeded}.markInputsConsumed).clearLease.finishAttempt s.clock .success none)
        else s.mergeInto (round.clearLease.finishAttempt s.clock .superseded none) successor
      | none =>
        if outcome.interrupted then
          s.put (({round with status := .succeeded}.markInputsConsumed).clearLease.finishAttempt s.clock .success none)
        else if outcome.text then
          let s := s.put {round with effectStarted := true, deliveryState := Delivery.sending, lastError := before.lastError}
          {s with senders := s.senders ++ [.reply round.id token .ready]}
        else
          let round := {round with status := .succeeded, checkpoint := none, deliveryState := .skipped}
          s.put (round.markInputsConsumed.clearLease.finishAttempt s.clock .success none)

/-- The second transaction of `complete_round`: the reply was sent, or sending raised. -/
def finishReply (s : State) (round : Round) : Except String Unit → State
  | .ok _ =>
    let round := {round with status := .succeeded, checkpoint := none, lastError := none, deliveryState := .delivered}
    s.put (round.markInputsConsumed.clearLease.finishAttempt s.clock .success none)
  | .error error =>
    let round := {round with status := .errorResolved, deliveryState := .unknown, lastError := some error}
    s.put (round.markInputsConsumed.clearLease.finishAttempt s.clock .error (some error))

/-- `fail_round`. -/
def failRound (s : State) (round : Round) (error : String) : State :=
  match applyRequestedControl s round with
  | some s => s
  | none =>
    let round := {round with lastError := some error}.finishAttempt s.clock .error (some error)
    match s.successor? round, round.effectStarted with
    | some successor, false => s.mergeInto round.clearLease successor
    | _, _ =>
      if !round.effectStarted && round.failureCount < maxFailures then s.put {round.clearLease with status := .frozen}
      else
        s.put {round.markInputsConsumed.clearLease with status := .errorResolved, deliveryState := .pending}

/-! ### Notices of failure -/

/-- `claim_next_round_notification` closes a notice whose lease expired. -/
def expireNotice (s : State) (round : Round) : State :=
  s.put {round.clearLease with
    deliveryState := .unknown
    lastError := some "Delivery worker lease expired after dispatch may have started."}

/-- `claim_next_round_notification` leases one that is pending. -/
def claimNotice (s : State) (round : Round) (token : Token) : State :=
  s.put {round with deliveryState := .sending, leaseToken := some token, leaseExpiresAt := some (s.clock + leaseSeconds)}

/-- The second transaction of `deliver_round_notification`. -/
def finishNotice (s : State) (round : Round) : Except String Unit → State
  | .ok _ => s.put {round.clearLease with deliveryState := .delivered}
  | .error error => s.put {round.clearLease with deliveryState := .unknown, lastError := some error}

/-! ### Commands, authorizations -/

/-- The command changes nothing: it is applied, or requested, already. -/
def alreadyApplied (round : Round) (action : Action) : Bool :=
  round.controlAction == some action || (action == .pause && round.status == .paused) ||
    (action == .stop && round.status == .cancelled) || (action == .resume && round.status == .frozen) ||
    (action == .respond && round.responseOnly && (round.status == .frozen || round.status.processing)) ||
    (action == .restart && round.status == .cancelled && round.resolvedByRoundId.isSome)

/-- Another round of the room is not done; a pause does not count. -/
def otherWorkPending (s : State) (round : Round) : Bool :=
  s.rounds.any fun other => other.id ≠ round.id && other.status.active && other.status ≠ .paused

/-- The round that a restart adds. -/
def restarted (round : Round) (fresh : Id) : Round :=
  { Round.new fresh .frozen none false with
    effectStarted := round.effectStarted
    responseOnly := round.responseOnly
    checkpoint := round.checkpoint
    inputs := round.inputs.map fun input => {input with consumed := false} }

/-- `control_round`; `fresh` is the id of a new round. -/
def controlRound (s : State) (round : Round) (action : Action) (expectedAttempt : Nat) (fresh : Id) : Option State :=
  if expectedAttempt ≠ round.attemptCount || alreadyApplied round action ||
    !round.availableActions.contains action then none
  else if (action == .resume || action == .restart || action == .respond) && otherWorkPending s round then none
  else if action == .restart then
    if round.safeCheckpoint && (s.get? fresh).isNone then
      some ((s.add (restarted round fresh)).put {round with resolvedByRoundId := some fresh})
    else none
  else if action == .resume || (action == .respond && round.status == .paused) then
    if round.safeCheckpoint then
      some (s.put {round with
        status := .frozen, controlAction := none, responseOnly := round.responseOnly || action == .respond})
    else none
  else
    let round := {round with controlAction := some action}
    if round.status.processing then some (s.put round) else applyRequestedControl s round

/-- `_wake_authorization_context`; `pending` is whether an authorization of the round is still pending. -/
def wakeRound (s : State) (round : Round) (pending : Bool) : Option State :=
  if round.status ≠ .waitingApproval then none
  else
    match s.successor? round with
    | some successor =>
      if round.effectStarted then some (s.put {round with status := .superseded, checkpoint := none})
      else some (s.mergeInto {round with checkpoint := none} successor)
    | none => if pending then none else some (s.put {round with status := .frozen})

/-- `reconcile_contact_authorizations`, for one round and the decision on its contact. -/
def reconcileContact (s : State) (round : Round) (allowed authorized : Bool) : Option State :=
  if round.status ≠ .paused || round.contactPermissionKey.isNone || !round.contactAuthorizationPending then none
  else if !allowed then some (s.put {round with status := .cancelled, deliveryState := .skipped})
  else if authorized && !s.rounds.any (·.status == .frozen) then
    some (s.put {round with status := .frozen, contactAuthorizationPending := false})
  else none

/-! ### Runs -/

inductive Event
  | admission (message : Message) (fresh : Id) (key : Option String) (awaitingContact : Bool)
  | claim (round : Id) (token : Token) (authorized : Bool)
  | reclaim (round : Id) (token : Token) (authorized receipt : Bool)
  | start (round : Id) (token : Token)
  | renew (round : Id) (token : Token)
  | saveCheckpoint (round : Id) (token : Token) (checkpoint : Checkpoint)
  | permit (round : Id) (token : Token) (authorized : Bool)
  | complete (round : Id) (token : Token) (outcome : Outcome)
  | finishReply (round : Id) (token : Token) (result : Except String Unit)
  | fail (round : Id) (token : Token) (error : String)
  | interrupt (round : Id) (token : Token) (receipt : Bool)
  | control (round : Id) (action : Action) (expectedAttempt : Nat) (fresh : Id)
  | wake (round : Id) (pending : Bool)
  | reconcile (round : Id) (allowed authorized : Bool)
  | expireNotice (round : Id)
  | claimNotice (round : Id) (token : Token)
  | deliverNotice (round : Id)
  | send (sender : Sender)
  | finishNotice (round : Id) (token : Token) (result : Except String Unit)
  | tick (seconds : Nat)

/-- The round, where the worker owns it. -/
def State.owned? (s : State) (id : Id) (token : Token) : Option Round := (s.get? id).filter (·.owned token s.clock)

/-- The lease of a processed round expired. -/
def expired (s : State) (round : Round) : Bool :=
    round.status.processing && round.leaseExpiresAt.any fun expires => expires < s.clock

/-- A lease token that no attempt has. -/
def freshToken (s : State) (token : Token) : Bool :=
  s.rounds.all fun round => round.leaseToken ≠ some token && round.attempts.all (·.leaseToken ≠ token)

/-- A worker goes on. -/
def State.advance (s : State) (sender : Sender) (next : List Sender) : State :=
    {s with senders := s.senders.erase sender ++ next}

/-- A worker sends what it has; it does not read the round again. -/
def sendNow (s : State) (sender : Sender) : Option State :=
  if sender ∈ s.senders then
    match sender with
    | .reply id token .ready =>
      some {s.advance sender [.reply id token .sent] with
        dispatched := s.dispatched ++ [(id, .reply)]}
    | .notice id token .ready =>
      some {s.advance sender [.notice id token .sent] with
        dispatched := s.dispatched ++ [(id, .notice)]}
    | _ => none
  else none

/-- The worker of the claim has come to its reply. -/
def replying (s : State) (id : Id) (token : Token) : Bool :=
  [Stage.ready, .sent, .done].any fun stage => .reply id token stage ∈ s.senders

/-- Errors are stored up to this length. -/
def stored (error : String) : String := (error.take 2000).toString

def apply (s : State) : Event → Option State
  | .admission message fresh key awaitingContact => admitMessage s message fresh key awaitingContact
  | .claim id token authorized => do
    let round ← s.get? id
    if round.status ≠ .frozen || s.busy || !freshToken s token then none
    else if round.inputs.isEmpty then some (s.put {round with status := .cancelled})
    else some (claimRound s round token authorized)
  | .reclaim id token authorized receipt => do
    let round ← s.get? id
    if !expired s round || !freshToken s token then none
    else
      match interruptRound s round receipt with
      | (s, false) => some s
      | (s, true) => (s.get? id).map fun round => claimRound s round token authorized
  | .start id token => (s.owned? id token).map fun round => s.put {round with status := .running}
  | .renew id token =>
    (s.owned? id token).map fun round =>
      s.put {round with leaseExpiresAt := some (s.clock + leaseSeconds)}
  | .saveCheckpoint id token checkpoint =>
    (s.owned? id token).map fun round => s.put {round with checkpoint := some checkpoint}
  | .permit id token authorized => do
    let round ← s.owned? id token
    if round.status ≠ .running || round.controlAction.any (·.requested) ||
        (round.contactPermissionKey.isSome && !authorized) || (s.successor? round).isSome then none
    else some (s.put {round with effectStarted := true})
  | .complete id token outcome =>
    if replying s id token then none else (s.owned? id token).map fun round => completeRound s round token outcome
  | .finishReply id token result =>
    let sender := Sender.reply id token .sent
    if sender ∈ s.senders then
      match s.owned? id token with
      | some round => some ((finishReply s round (result.mapError stored)).advance sender [.reply id token .done])
      | none => some (s.advance sender [.reply id token .done])
    else none
  | .fail id token error => (s.owned? id token).map fun round => failRound s round (stored error)
  | .interrupt id token receipt => do
    let round ← s.get? id
    if round.leaseToken == some token && round.status.processing then some (interruptRound s round receipt).1 else none
  | .control id action expectedAttempt fresh => do
    let round ← s.get? id
    controlRound s round action expectedAttempt fresh
  | .wake id pending => do
    let round ← s.get? id
    wakeRound s round pending
  | .reconcile id allowed authorized => do
    let round ← s.get? id
    reconcileContact s round allowed authorized
  | .expireNotice id => do
    let round ← s.get? id
    if round.deliveryState == .sending && round.status == .errorResolved &&
      round.leaseExpiresAt.any (fun expires => expires < s.clock) then
      some (expireNotice s round)
    else none
  | .claimNotice id token => do
    let round ← s.get? id
    if round.status == .errorResolved && round.deliveryState == .pending && freshToken s token then
      let s := claimNotice s round token
      some {s with senders := s.senders ++ [.claimed id]}
    else none
  | .deliverNotice id =>
    if .claimed id ∈ s.senders then
      match (s.get? id).bind fun round => if round.deliveryState == .sending then round.leaseToken else none with
      | some token => some (s.advance (.claimed id) [.notice id token .ready])
      | none => some (s.advance (.claimed id) [])
    else none
  | .send sender => sendNow s sender
  | .finishNotice id token result =>
    let sender := Sender.notice id token .sent
    if sender ∈ s.senders then
      match (s.get? id).filter fun round => round.deliveryState == .sending && round.leaseToken == some token with
      | some round => some ((finishNotice s round (result.mapError stored)).advance sender [.notice id token .done])
      | none => some (s.advance sender [.notice id token .done])
    else none
  | .tick seconds => some {s with clock := s.clock + seconds}

end Galaris.Conversation
