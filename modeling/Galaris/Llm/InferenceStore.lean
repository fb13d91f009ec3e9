import Galaris.Base.Transition
import Galaris.FileShare.ResourceUri
import Mathlib.Logic.Function.Basic

/-! Inferences and their attempts (`app/llm/inference_store.py`, `app/llm/inference_journal.py`).

An event is one transaction, which locks the inference first, or a statement of one that reads; a
transaction that raises is rolled back. `now` is each reading of the clock of the database. The rows
of an inference (its attempts, its calls and their journals) are kept with it; commands are a table of
their own, since their identities are global. -/
namespace Galaris.Llm.InferenceStore

open Transition

/-- UUIDs. -/
abbrev Id := Nat

/-! ### Results of inferences -/

inductive MessageType
  | text | audio | image | video | tool
deriving DecidableEq, Repr

/-- `AIMessage`, accounting apart. -/
structure Message where
  type : MessageType
  content : String
  toolName : Option String
  toolArguments : Bool
  externalId : Option String
  streamId : Option String
  snapshot : Bool
  streamComplete : Option Bool
  success : Bool
deriving DecidableEq, Repr

inductive Status
  | prepared | queued | running | pausing | stopping | paused | stopped | completed | failed | interrupted
deriving DecidableEq, Repr

/-- The keys of `metadata` that are written here. -/
structure Metadata where
  error : Option String
  deadlineExceeded : Bool
  inference : Option Id
  attempt : Option Nat
  call : Option Id
  status : Option Status
  sdkMessages : List String
deriving DecidableEq, Repr

/-- `AIResult`, accounting apart. -/
structure AIResult where
  prompt : String
  systemPrompt : String
  messages : List Message
  result : String
  structuredOutput : Option String
  toolsUsed : List String
  metadata : Metadata
  success : Bool
deriving DecidableEq, Repr

def noMetadata : Metadata := ⟨none, false, none, none, none, none, []⟩

/-- A result without messages. -/
def AIResult.empty (prompt systemPrompt : String) (success : Bool) : AIResult :=
  ⟨prompt, systemPrompt, [], "", none, [], noMetadata, success⟩

/-- What raises. -/
inductive Error
  | lookup (text : String)
  | lostLease (text : String)
  | conflict (text : String)
  | value (text : String)
deriving DecidableEq, Repr

def given (text : Option String) : Bool := text.any (· ≠ "")

/-- `has_visible_content`. -/
def Message.visible (message : Message) : Bool :=
  !message.content.toList.all Texts.isSpace || (message.type == .tool && message.toolArguments)

/-- A message that is appended to. -/
def Message.extended (last message : Message) : Message :=
  {last with content := last.content ++ message.content, streamComplete := message.streamComplete.or last.streamComplete,
             success := last.success && message.success}

/-- `AIResult.add_message`. -/
def AIResult.addMessage (result : AIResult) (message : Message) : Except Error AIResult :=
  let named := fun other : Message => given message.streamId && other.streamId == message.streamId
  let replaced := fun (messages : List Message) (successor : Message) =>
    (messages.takeWhile fun other => !named other) ++ successor :: (messages.dropWhile fun other => !named other).tail
  match result.messages.find? named with
  | some existing =>
    let sameToolCall := message.snapshot && message.externalId.isSome && existing.type == .tool &&
      message.type == .tool &&
      existing.externalId == message.externalId
    if existing.type ≠ message.type || (existing.toolName ≠ message.toolName && !sameToolCall) then
      .error (.value "A streamed AIMessage cannot change its type or tool.")
    else if message.snapshot then
      let messages := replaced result.messages message
      .ok {result with
        toolsUsed := if existing.toolName ≠ message.toolName && given message.toolName then
            result.toolsUsed.map fun name => if some name = existing.toolName then message.toolName.getD name else name
          else result.toolsUsed
        messages
        result := if message.type = .text then String.join
          ((messages.filter (·.type = .text)).map (·.content)) else result.result}
    else
      .ok {result with
        result := if message.type = .text then result.result ++ message.content else result.result
        messages := replaced result.messages (existing.extended message)}
  | none =>
    let result := {result with
      result := if message.type = .text then result.result ++ message.content else result.result
      toolsUsed := if given message.toolName then result.toolsUsed ++ message.toolName.toList else result.toolsUsed}
    let emptyToolStart := message.type == .tool && message.streamId.isSome && message.externalId.isSome
    if !message.visible && !emptyToolStart then .ok result
    else
      match result.messages.getLast? with
      | some last =>
        if message.type = .text && message.streamId.isNone && last.type = .text && last.streamId.isNone then
          .ok {result with messages := result.messages.dropLast ++ [last.extended message]}
        else .ok {result with messages := result.messages ++ [message]}
      | none => .ok {result with messages := [message]}

/-! ### Rows -/

/-- `InferenceRequest`; the body is what nothing here reads. -/
structure Request where
  prompt : String
  systemPrompt : String
  deadlineSeconds : Option Nat
  body : String
deriving DecidableEq, Repr

/-- `LLMExecutionAuthority`. -/
structure Authority where
  requester : Option Id
  source : String
deriving DecidableEq, Repr

/-- `LLMInferenceAttempt`. -/
structure Attempt where
  number : Nat
  status : Status
  leaseToken : Option Id
  leaseExpiresAt : Option Nat
  startedAt : Option Nat
  completedAt : Option Nat
  result : Option AIResult
  finalSequence : Option Nat
deriving DecidableEq, Repr

/-- `LLMCall`; the attempt is the one with this number. -/
structure Call where
  id : Id
  attempt : Nat
  running : Bool
  prompt : String
  systemPrompt : String
  error : Option String
deriving DecidableEq, Repr

inductive Payload
  | request
  | message (message : Message)
  | result (result : AIResult)
  | wire (text : String)
deriving DecidableEq, Repr

def Payload.isResult : Payload → Bool
  | .result _ => true
  | _ => false

/-- `LLMCallEvent`. -/
structure CallEvent where
  call : Id
  sequence : Nat
  inferenceSequence : Option Nat
  payload : Payload
deriving DecidableEq, Repr

/-- `LLMInference`, with its attempts, their calls and the journals of these. -/
structure Inference where
  id : Id
  request : Request
  replayOf : Option Id
  authority : Option Authority
  status : Status
  generation : Nat
  revision : Nat
  deadlineAt : Option Nat
  eventSequence : Nat
  attempts : List Attempt
  calls : List Call
  events : List CallEvent
deriving DecidableEq, Repr

inductive Action
  | start | pause | stop | resume | replay
deriving DecidableEq, Repr

/-- `LLMInferenceCommand`. -/
structure Command where
  id : Id
  inference : Id
  attempt : Nat
  action : Action
  expectedRevision : Option Nat
  appliedAt : Option Nat
  replayId : Option Id
deriving DecidableEq, Repr

/-- `InferenceOwner`. -/
structure Owner where
  inference : Id
  attempt : Nat
  token : Id
deriving DecidableEq, Repr

structure Store where
  inferences : Id → Option Inference
  commands : List Command

/-- `LEASE_SECONDS`. -/
def leaseSeconds : Nat := 30

/-- `TERMINAL_ATTEMPTS`. -/
def Status.terminal : Status → Bool
  | .paused | .stopped | .completed | .failed | .interrupted => true
  | _ => false

def newAttempt (number : Nat) (status : Status) : Attempt := ⟨number, status, none, none, none, none, none, none⟩

def lost {α : Type} (text : String) : Except Error α := .error (.lostLease text)

namespace Inference

def current (inf : Inference) : Option Attempt := inf.attempts.find? (·.number = inf.generation)

/-- The attempt is written back. -/
def put (inf : Inference) (attempt : Attempt) : Inference :=
  {inf with attempts := inf.attempts.map fun other => if other.number = attempt.number then attempt else other}

def expired (inf : Inference) (now : Nat) : Bool := inf.deadlineAt.any (· ≤ now)

def callsOf (inf : Inference) (attempt : Nat) : List Call := inf.calls.filter (·.attempt = attempt)

/-- The journal of a call, in its order. -/
def journal (inf : Inference) (call : Id) : List CallEvent :=
  (inf.events.filter (·.call = call)).mergeSort fun a b => a.sequence ≤ b.sequence

end Inference

def CallEvent.message? (event : CallEvent) : Option Message :=
  match event.payload with
  | .message message => some message
  | _ => none

/-- The message events of an attempt, in the order of the inference. -/
def Inference.messageEvents (inf : Inference) (attempt : Nat) : List CallEvent :=
  (inf.events.filter fun event => event.message?.isSome &&
    inf.calls.any fun call => call.id = event.call && call.attempt = attempt).mergeSort
    fun a b => a.inferenceSequence.getD 0 ≤ b.inferenceSequence.getD 0

/-- The messages of these events are added. -/
def AIResult.replayed (result : AIResult) (events : List CallEvent) : Except Error AIResult :=
  (events.filterMap (·.message?)).foldlM AIResult.addMessage result

/-- `_close_abandoned_calls`, of one call. -/
def closeCall (error : String) (inf : Inference) (call : Call) : Except Error Inference :=
  let inf := if call.running then
      {inf with calls := inf.calls.map fun other => if other.id = call.id then {other with
        running := false, error := some error} else other}
    else inf
  let rows := inf.journal call.id
  match rows.getLast? with
  | none => .ok inf
  | some last =>
    if last.payload.isResult then .ok inf
    else do
      let result ← (AIResult.empty call.prompt call.systemPrompt false).replayed rows
      let result := {result with metadata := {result.metadata with call := some call.id, error := some error}}
      .ok {inf with eventSequence := inf.eventSequence + 1,
                    events := inf.events ++
                      [⟨call.id, last.sequence + 1, some (inf.eventSequence + 1), .result result⟩]}

/-- `_close_abandoned_calls`. -/
def closeAbandonedCalls (inf : Inference) (attempt : Nat) (error : String) : Except Error Inference :=
  (inf.callsOf attempt).foldlM (closeCall error) inf

namespace Store

def put (s : Store) (inf : Inference) : Store := {s with inferences := Function.update s.inferences inf.id (some inf)}

/-- `locked`. -/
def locked (s : Store) (id : Id) : Except Error (Inference × Attempt) :=
  match s.inferences id with
  | none => .error (.lookup "Inference not found.")
  | some inf =>
    match inf.current with
    | none => .error (.lookup "No row was found when one was required")
    | some attempt => .ok (inf, attempt)

/-- `owned`. -/
def owned (s : Store) (owner : Owner) (now : Nat) : Except Error (Inference × Attempt) := do
  let (inf, attempt) ← s.locked owner.inference
  if attempt.number ≠ owner.attempt || attempt.leaseToken ≠ some owner.token || attempt.status ≠ .running ||
      !attempt.leaseExpiresAt.any (now < ·) then
    lost "This inference attempt no longer owns execution."
  else .ok (inf, attempt)

/-- `create`. -/
def create (s : Store) (key : Id) (request : Request) (replayOf : Option Id)
    (authority : Option Authority) (prepared : Bool) (now : Nat) :
    Except Error Store :=
  match s.inferences key with
  | none =>
    let status := if prepared then .prepared else .queued
    .ok (s.put ⟨key, request, replayOf, authority, status, 1, 1,
      if request.deadlineSeconds.any (· ≠ 0) then request.deadlineSeconds.map (now + ·) else none,
        0, [newAttempt 1 status], [], []⟩)
  | some existing =>
    if existing.request ≠ request || existing.replayOf ≠ replayOf || existing.authority ≠ authority then
      .error (.value "An inference identity cannot be reused for another request.")
    else .ok s

/-- The commands of an attempt that is over are applied. -/
def settled (s : Store) (inference : Id) (attempt : Nat) (now : Nat) : Store :=
  {s with commands := s.commands.map fun command =>
    if command.inference = inference && command.attempt = attempt &&
      command.appliedAt.isNone then {command with appliedAt := some now} else command}

/-- `_finish`. -/
def finishAttempt (s : Store) (inf : Inference) (attempt : Attempt) (result : AIResult)
    (status : Status) (now : Nat) : Except Error Store :=
  if attempt.status.terminal then lost "The inference attempt is already terminal."
  else
    let result := {result with metadata :=
      {result.metadata with inference := some inf.id, attempt := some attempt.number, status := some status}}
    .ok ((s.put ({inf with eventSequence := inf.eventSequence + 1, status, revision := inf.revision + 1}.put
      {attempt with status, completedAt := some now, leaseExpiresAt := none, finalSequence := some (inf.eventSequence + 1),
                    result := some result})).settled inf.id attempt.number now)

/-- `claim`. -/
def claim (s : Store) (key token now : Nat) : Except Error Store := do
  let (inf, attempt) ← s.locked key
  if inf.status ≠ .queued || attempt.status ≠ .queued then .ok s
  else if inf.expired now then
    let result := AIResult.empty inf.request.prompt "" false
    s.finishAttempt inf attempt
      {result with
        metadata := {result.metadata with error := some "Inference deadline exceeded.", deadlineExceeded := true}}
      .failed now
  else
    .ok (s.put ({inf with status := .running, revision := inf.revision + 1}.put
      {attempt with
        status := .running, leaseToken := some token, startedAt := some now
        leaseExpiresAt := some (now + leaseSeconds)}))

/-- `heartbeat`; what it answers reads the deadline only. -/
def heartbeat (s : Store) (owner : Owner) (checked now : Nat) : Except Error Store := do
  let (inf, attempt) ← s.owned owner checked
  .ok (s.put (inf.put {attempt with leaseExpiresAt := some (now + leaseSeconds)}))

/-- The status that a request of a command leads to. -/
def requested : Status → Option Status
  | .pausing => some .paused
  | .stopping => some .stopped
  | _ => none

/-- `finish`. -/
def finish (s : Store) (owner : Owner) (result : AIResult) (interrupted : Bool)
    (checked expiry now : Nat) : Except Error Store := do
  let (inf, attempt) ← s.owned owner checked
  let late := (requested inf.status).isNone && inf.expired expiry
  let result := if late then
      {result with metadata := {result.metadata with error := some "Inference deadline exceeded.", deadlineExceeded := true}}
    else result
  let status := (requested inf.status).getD
    (if late then .failed else if interrupted then .interrupted else if result.success then .completed else .failed)
  if status = .completed then s.finishAttempt inf attempt result status now
  else
    let inf ← closeAbandonedCalls inf attempt.number (result.metadata.error.getD "Inference interrupted.")
    let persisted ← (AIResult.empty result.prompt result.systemPrompt true).replayed (inf.messageEvents attempt.number)
    let result := {result with
      success := false, structuredOutput := none, metadata :=
        {result.metadata with sdkMessages := [], status := some status},
      messages := persisted.messages, result := persisted.result, toolsUsed := persisted.toolsUsed}
    s.finishAttempt inf attempt result status now

/-- The actions of `command` on the inference itself. -/
def control (s : Store) (inf : Inference) (attempt : Attempt) (action : Action) (now : Nat) : Except Error Store :=
  match action with
  | .replay => .ok s
  | .start =>
    if inf.status ≠ .prepared then .error (.value "Only a prepared inference can start.")
    else .ok (s.put ({inf with status := .queued}.put {attempt with status := .queued}))
  | .resume =>
    if inf.status ≠ .paused && inf.status ≠ .interrupted
      then .error (.value "Only a paused or interrupted inference can resume.")
    else if inf.expired now then .error (.value "The inference deadline expired; resume cannot renew its budget.")
    else .ok (s.put {inf with generation := inf.generation + 1, status := .queued,
                              attempts := inf.attempts ++ [newAttempt (inf.generation + 1) .queued]})
  | .pause | .stop =>
    if inf.status = .completed || inf.status = .failed || inf.status = .stopped then
      .error (.value "A completed inference is immutable; use replay.")
    else if attempt.status = .running then
      if action = .pause && inf.status = .stopping
        then .error (.value "A stop already requested cannot become a pause.")
      else .ok (s.put {inf with status := if action = .pause then .pausing else .stopping})
    else if attempt.status = .prepared || attempt.status = .queued then
      s.finishAttempt inf attempt (.empty inf.request.prompt inf.request.systemPrompt false)
        (if action = .pause then .paused else .stopped) now
    else if action = .stop then .ok (s.put {inf with status := .stopped})
    else .ok s

def command? (s : Store) (id : Id) : Option Command := s.commands.find? (·.id = id)

/-- The revision of an inference that a command wrote. -/
def revised (s : Store) (key : Id) : Store :=
  match s.inferences key with
  | none => s
  | some inf => s.put {inf with revision := inf.revision + 1}

/-- Whether what was requested of an inference is still to be done. -/
def requests (s : Store) (key : Id) : Bool :=
  (s.inferences key).any fun inf => inf.status == .pausing || inf.status == .stopping

/-- The effect of a command. -/
def performed (s : Store) (inf : Inference) (attempt : Attempt) (action : Action)
    (fresh now : Nat) : Except Error Store :=
  if action = .replay then s.create fresh inf.request (some inf.id) inf.authority false now
    else s.control inf attempt action now

/-- `command`; `fresh` is the identity that a replay is given. -/
def command (s : Store) (key : Id) (action : Action) (id : Id) (expectedRevision : Option Nat) (fresh now : Nat) :
    Except Error (Store × Command) := do
  let (inf, attempt) ← s.locked key
  match s.command? id with
  | some previous =>
    if previous.inference ≠ key || previous.action ≠ action || previous.expectedRevision ≠ expectedRevision then
      .error (.value "A command identity cannot be reused for another action.")
    else .ok (s, previous)
  | none =>
    if expectedRevision.any (· ≠ inf.revision) then
      .error (.conflict "Inference revision changed; read the current state before retrying.")
    else do
      let s ← s.performed inf attempt action fresh now
      let receipt : Command := ⟨id, key, attempt.number, action, expectedRevision,
        if !s.requests key || action = .replay then some now else none, if action = .replay then some fresh else none⟩
      let s := if action = .replay then s else s.revised key
      .ok ({s with commands := s.commands ++ [receipt]}, receipt)

/-- `recover_expired`, of one of the inferences that it selected. -/
def recoverOne (s : Store) (key now : Nat) : Except Error Store := do
  let (inf, attempt) ← s.locked key
  if attempt.status ≠ .running || !attempt.leaseExpiresAt.any (· ≤ now) then .ok s
  else
    let interim ← (AIResult.empty inf.request.prompt inf.request.systemPrompt false).replayed
      (inf.messageEvents attempt.number)
    let interim := {interim with metadata :=
      {interim.metadata with error := some "The execution lease expired. Explicit resume is required."}}
    let inf ← closeAbandonedCalls inf attempt.number "Inference execution lease expired."
    s.finishAttempt inf attempt interim ((requested inf.status).getD .interrupted) now

/-- `recover_expired`; which inferences it selects, another transaction may since have changed. -/
def recoverExpired (s : Store) (keys : List Id) (now : Nat) : Except Error Store := keys.foldlM (recoverOne · · now) s

/-- `_persist_running_call`, of an inference; a call that is captured has a journal. -/
def persistRunningCall (s : Store) (owner : Owner) (call : Id) (prompt systemPrompt : String)
    (captured : Bool) (now : Nat) :
    Except Error Store := do
  let (inf, attempt) ← s.owned owner now
  if inf.calls.any (·.id = call) then .error (.value "duplicate key value violates unique constraint")
  else
    .ok (s.put {inf with
      calls := inf.calls ++ [⟨call, attempt.number, true, prompt, systemPrompt, none⟩]
      events := if captured then inf.events ++ [⟨call, 0, none, .request⟩] else inf.events})

/-- `finalize_call`: the trace of a call ends; the journal is not its own. -/
def finalizeCall (s : Store) (key call : Id) (error : Option String) : Store :=
  match s.inferences key with
  | none => s
  | some inf =>
    s.put {inf with calls := inf.calls.map fun other => if other.id = call then {other with
      running := false, error} else other}

/-- The payload that is appended next to the journal of a call, and the sequence of the last. -/
def appendEvent (call : Id) (state : Inference × Nat) (payload : Payload) : Inference × Nat :=
  ({state.1 with eventSequence := state.1.eventSequence + 1,
                 events := state.1.events ++
                   [⟨call, state.2 + 1, some (state.1.eventSequence + 1), payload⟩]}, state.2 + 1)

/-- `append_events`, of an owner. -/
def appendEvents (s : Store) (owner : Owner) (call : Id) (payloads : List Payload) (now : Nat) : Except Error Store :=
  if payloads.isEmpty then .ok s
  else if payloads.any (· = .request) then .error (.value "Invalid inference event kind.")
  else if payloads.dropLast.any Payload.isResult then .error (.value "The terminal result must be the last event.")
  else do
    let (inf, _) ← s.owned owner now
    match inf.calls.find? (·.id = call) with
    | none => .error (.lookup "The inference call no longer exists.")
    | some row =>
      if row.attempt ≠ owner.attempt then lost "This writer does not own the inference attempt."
      else
        match (inf.journal call).getLast? with
        | none => .error (.lookup "This call has no inference journal.")
        | some last =>
          if last.payload.isResult then .error (.value "An inference journal is already terminal.")
          else .ok (s.put (payloads.foldl (appendEvent call) (inf, last.sequence)).1)

end Store

/-! ### Clients -/

/-- `InferenceRunEvent`. -/
inductive RunEvent
  | message (sequence : Nat) (call : Id) (message : Message)
  | result (sequence : Nat) (result : AIResult)
deriving DecidableEq, Repr

def RunEvent.sequence : RunEvent → Nat
  | .message sequence _ _ => sequence
  | .result sequence _ => sequence

def RunEvent.isResult : RunEvent → Bool
  | .message _ _ _ => false
  | .result _ _ => true

/-- A row as it is sent. -/
def CallEvent.run (event : CallEvent) : Option RunEvent :=
  event.message?.map fun message => .message (event.inferenceSequence.getD 0) event.call message

/-- A client that pages the events of an attempt: the attempt and the limit that its transaction has read,
if it is in one. -/
structure Reader where
  inference : Id
  attempt : Nat
  cursor : Nat
  reading : Option (Attempt × Nat)
  received : List RunEvent
deriving DecidableEq, Repr

/-- The result has been received. -/
def Reader.over (reader : Reader) : Bool := reader.received.any RunEvent.isResult

/-- The rows of `read_event_batch`. -/
def batchRows (inf : Inference) (attempt cursor limit : Nat) : List CallEvent :=
  ((inf.messageEvents attempt).filter fun event => event.inferenceSequence.any (cursor < ·)).take limit

/-- `read_event_batch`, of the attempt that it has read first. -/
def readEventBatch (inf : Inference) (attempt : Attempt) (cursor limit : Nat) : List RunEvent :=
  let events := (batchRows inf attempt.number cursor limit).filterMap CallEvent.run
  match attempt.finalSequence, attempt.result with
  | some final, some result =>
    if events.length < limit && cursor < final then events ++ [.result final result] else events
  | _, _ => events

/-- `events`: the cursor is the sequence of the last. -/
def Reader.receive (reader : Reader) (batch : List RunEvent) : Reader :=
  {reader with
    cursor := (batch.getLast?.map RunEvent.sequence).getD reader.cursor, reading := none
    received := reader.received ++ batch}

structure State extends Store where
  readers : Id → Option Reader

inductive Event
  | create (key : Id) (request : Request) (authority : Option Authority) (prepared : Bool) (now : Nat)
  | claim (key token now : Nat)
  | heartbeat (owner : Owner) (checked now : Nat)
  | finish (owner : Owner) (result : AIResult) (interrupted : Bool) (checked expiry now : Nat)
  | command (key : Id) (action : Action) (id : Id) (expectedRevision : Option Nat) (fresh now : Nat)
  | recover (keys : List Id) (now : Nat)
  | persistCall (owner : Owner) (call : Id) (prompt systemPrompt : String) (captured : Bool) (now : Nat)
  | finalizeCall (key call : Id) (error : Option String)
  | append (owner : Owner) (call : Id) (payloads : List Payload) (now : Nat)
  | page (reader key attempt : Nat)
  | look (reader limit : Nat)
  | fetch (reader : Nat)
deriving DecidableEq, Repr

namespace State

/-- What is raised is rolled back. -/
def committed (s : State) (result : Except Error Store) : State :=
  match result with
  | .ok store => {s with toStore := store}
  | .error _ => s

/-- A client begins; its cursor is 0. -/
def page (s : State) (reader key attempt : Nat) : State :=
  if (s.readers reader).isNone then {s with
    readers := Function.update s.readers reader (some ⟨key, attempt, 0, none, []⟩)} else s

/-- The first statement of `read_event_batch`. -/
def look (s : State) (id limit : Nat) : State :=
  match s.readers id with
  | none => s
  | some reader =>
    if reader.over || limit = 0 || 500 < limit then s
    else
      match (s.inferences reader.inference).bind fun inf => inf.attempts.find? (·.number = reader.attempt) with
      | none => s
      | some attempt =>
        {s with readers := Function.update s.readers id (some {reader with
          reading := some (attempt, limit)})}

/-- The second statement of `read_event_batch`, and what the client does with its answer. -/
def fetch (s : State) (id : Nat) : State :=
  match s.readers id with
  | none => s
  | some reader =>
    match reader.reading, s.inferences reader.inference with
    | some (attempt, limit), some inf =>
      {s with readers := Function.update s.readers id (some (reader.receive (readEventBatch inf attempt reader.cursor limit)))}
    | _, _ => s

end State

/-- What an event does. -/
def apply (s : State) : Event → State
  | .create key request authority prepared now => s.committed (s.create key request none authority prepared now)
  | .claim key token now => s.committed (s.claim key token now)
  | .heartbeat owner checked now => s.committed (s.heartbeat owner checked now)
  | .finish owner result interrupted checked expiry now =>
    s.committed (s.finish owner result interrupted checked expiry now)
  | .command key action id expectedRevision fresh now =>
    s.committed ((s.command key action id expectedRevision fresh now).map Prod.fst)
  | .recover keys now => s.committed (s.recoverExpired keys now)
  | .persistCall owner call prompt systemPrompt captured now =>
    s.committed (s.persistRunningCall owner call prompt systemPrompt captured now)
  | .finalizeCall key call error => {s with toStore := s.finalizeCall key call error}
  | .append owner call payloads now => s.committed (s.appendEvents owner call payloads now)
  | .page reader key attempt => s.page reader key attempt
  | .look reader limit => s.look reader limit
  | .fetch reader => s.fetch reader

/-- The store without inferences. -/
def start : State := ⟨⟨fun _ => none, []⟩, fun _ => none⟩

def Applies (s : State) (event : Event) (t : State) : Prop := apply s event = t

end Galaris.Llm.InferenceStore
