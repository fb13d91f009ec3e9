import Galaris.Base.Transition
import Mathlib.Algebra.Order.Ring.Int

/-! The status and the outcome of a process run (`process_service.py`).

Six paths write the run row: a callback, a refresh of the remote engine, a
cancellation in two halves, a start job that succeeds, fails or is retried, and the
bookkeeping of a failed refresh. Each runs in one transaction under the row lock,
some of them after a network call made without it; `Op` is such a transaction, with
the response of the network call as its argument, and `apply` is what it leaves.
Whatever the interleaving, the status moves along `transitions`, the first terminal
outcome stays, and an event delivered again is answered from the journal. -/
namespace Galaris.Process

/-! ### The row -/

inductive Status
  | queued | running | waiting | success | error | cancelling | cancelled | unknown
  deriving DecidableEq, Repr

/-- `TERMINAL_STATUSES`. -/
def Status.isTerminal : Status → Bool
  | .success | .error | .cancelled => true
  | _ => false

/-- `TRANSITIONS`. -/
def transitions : Status → List Status
  | .queued => [.running, .waiting, .success, .error, .cancelled, .unknown]
  | .running => [.waiting, .success, .error, .cancelling, .cancelled, .unknown]
  | .waiting => [.running, .success, .error, .cancelling, .cancelled, .unknown]
  | .unknown => [.running, .waiting, .success, .error, .cancelling, .cancelled]
  | .cancelling => [.cancelled, .success, .error]
  | .success => []
  | .error => []
  | .cancelled => []

def canTransition (current target : Status) : Bool :=
  current == target || (transitions current).contains target

abbrev Time := Nat

/-- An entry of the run's journal (`ProcessRunEvent`). -/
structure RunEvent where
  eventId : Option String := none
  source : String := "galaris"
  eventType : String
  deriving DecidableEq

/-- What the engine's observation leaves in `engine_metadata`. -/
structure Metadata where
  lastStateChangeAt : Option Time := none
  lastObservedAt : Option Time := none
  refreshFailures : Nat := 0
  lastRefreshError : Option String := none
  lastRefreshErrorCode : Option String := none
  lastRefreshFailedAt : Option Time := none
  nextRefreshAt : Option Time := none
  observationDegraded : Bool := false
  remoteMayContinue : Option Bool := none
  stopEvidence : Option (Status × Time) := none
  failedNode : Option String := none
  deriving DecidableEq

/-- The columns of `ProcessRun` that the paths below read or write. -/
structure ProcessRun (V : Type) where
  engineCode : String
  engineRunId : Option String := none
  correlationId : String := ""
  callbackToken : String := ""
  status : Status := .queued
  output : Option V := none
  rawSnapshot : Option V := none
  metadata : Metadata := {}
  errorCode : Option String := none
  errorMessage : Option String := none
  startedAt : Option Time := none
  finishedAt : Option Time := none
  awaitTaskId : Option String := none
  awaitResolvedAt : Option Time := none
  events : List RunEvent := []

inductive JobStatus
  | pending | cancelled | done | failed
  deriving DecidableEq

/-- `ProcessStartJob`. -/
structure StartJob where
  status : JobStatus := .pending
  attempts : Nat := 0
  availableAt : Time := 0
  lockedAt : Option Time := none
  deriving DecidableEq

/-- A run and its start job. -/
structure RunRow (V : Type) where
  run : ProcessRun V
  job : Option StartJob := none

structure EngineError where
  code : String
  message : String
  nodeName : Option String := none
  deriving DecidableEq

structure EngineRunSnapshot (V : Type) where
  status : Status
  engineRunId : Option String := none
  output : Option V := none
  error : Option EngineError := none
  raw : V

/-- The statuses a callback may report. -/
def callbackStatuses : List Status := [.running, .waiting, .success, .error, .cancelled]

structure CallbackEvent (V : Type) where
  eventId : String
  status : Status
  engineRunId : Option String := none
  eventType : Option String := none
  error : Option EngineError := none
  output : Option V := none
  known : status ∈ callbackStatuses

/-- What an engine identifies a run by; `refresh_run` compares it before and after the call. -/
structure EngineRunReference where
  engineRunId : Option String
  correlationId : String
  deriving DecidableEq

def ProcessRun.engineRunReference {V : Type} (run : ProcessRun V) : EngineRunReference :=
  ⟨run.engineRunId, run.correlationId⟩

/-- Settings and the diagnostic sanitizer, read but never decided on here. -/
structure Settings (V : Type) where
  sanitize : V → V
  sanitizeText : String → String
  stalenessSeconds : Nat
  maxFailures : Nat
  startMaxRetries : Nat
  retryBackoff : Nat

/-- Python's `a or b` on optional text: the empty string counts as absent. -/
def orText (a b : Option String) : Option String := a.filter (· != "") <|> b

/-! ### The transition of one row -/

section Operations
variable {V : Type} (S : Settings V)

def appendEvent (run : ProcessRun V) (event : RunEvent) : ProcessRun V :=
  {run with events := run.events ++ [event]}

/-- `_transition`: the journal records the request, accepted or not. -/
def transition (run : ProcessRun V) (target : Status) (eventType : String) (now : Time)
    (source : String := "galaris") : ProcessRun V × Bool :=
  let accepted := !run.status.isTerminal && canTransition run.status target
  let run := appendEvent run ⟨none, source, eventType⟩
  if !accepted || target == run.status then (run, accepted)
  else
    ({run with
      status := target
      metadata := {run.metadata with lastStateChangeAt := some now}
      startedAt := if (target == .running || target == .waiting) && run.startedAt.isNone
        then some now else run.startedAt
      finishedAt := if target.isTerminal then some now else run.finishedAt}, true)

def setError (run : ProcessRun V) (code message : String) : ProcessRun V :=
  {run with errorCode := some code, errorMessage := some message}

def setRemoteMayContinue (run : ProcessRun V) (value : Bool) : ProcessRun V :=
  {run with metadata := {run.metadata with remoteMayContinue := some value}}

/-- `_apply_snapshot`. -/
def applySnapshot (run : ProcessRun V) (snapshot : EngineRunSnapshot V) (eventType : String)
    (now : Time) : ProcessRun V :=
  let (run, accepted) := transition run snapshot.status eventType now
  if !accepted then run
  else
    -- Exact business JSON is owned by the internal run.
    let output := match snapshot.output with
      | some output => some (if run.engineCode == "galaris" then output else S.sanitize output)
      | none => run.output
    let unavailable := run.errorCode == some "observation_unavailable"
    let run := {run with
      engineRunId := orText snapshot.engineRunId run.engineRunId
      output := output
      rawSnapshot := some (S.sanitize snapshot.raw)
      metadata := {run.metadata with
        lastObservedAt := some now, refreshFailures := 0, lastRefreshError := none,
        nextRefreshAt := none, observationDegraded := false}
      errorCode := if unavailable then none else run.errorCode
      errorMessage := if unavailable then none else run.errorMessage}
    match snapshot.error with
    | none => run
    | some error =>
      {run with
        errorCode := some error.code
        errorMessage := some (S.sanitizeText error.message)
        metadata := {run.metadata with failedNode := orText error.nodeName run.metadata.failedNode}}

/-- `_resolve_await_if_terminal`: the fan-in of the awaiting Task happens at most once. -/
def resolveAwaitIfTerminal (run : ProcessRun V) (now : Time) : ProcessRun V :=
  if !run.status.isTerminal || run.awaitTaskId.isNone || run.awaitResolvedAt.isSome then run
  else {run with awaitResolvedAt := some now}

/-! ### The paths -/

/-- `receive_callback`. The rejected token and the internal engine raise: nothing is written. -/
def receiveCallback (run : ProcessRun V) (token : String) (event : CallbackEvent V) (now : Time) :
    ProcessRun V :=
  if token != run.callbackToken || run.engineCode == "galaris" then run
  else if run.events.any (fun e => e.eventId == some event.eventId) then resolveAwaitIfTerminal run now
  else
    let run := appendEvent run
      ⟨some event.eventId, run.engineCode, (orText event.eventType none).getD "engine.callback.received"⟩
    let (run, accepted) := transition run event.status
      (if event.status.isTerminal then "run.completed" else "run.progress") now run.engineCode
    let run := if accepted then
      {run with
        engineRunId := orText event.engineRunId run.engineRunId
        output := (event.output.map S.sanitize) <|> run.output
        errorCode := (event.error.map (·.code)) <|> run.errorCode
        errorMessage := (event.error.map fun e => S.sanitizeText e.message) <|> run.errorMessage}
      else run
    resolveAwaitIfTerminal run now

/-- The second half of `refresh_run`, after the engine answered. `uncertainTerminal` and
`reference` were read before the call, without the lock. -/
def refreshRun (run : ProcessRun V) (uncertainTerminal : Bool) (reference : EngineRunReference)
    (snapshot : EngineRunSnapshot V) (now : Time) : ProcessRun V :=
  if uncertainTerminal then
    -- A read can establish physical termination without rewriting the logical outcome.
    if snapshot.status.isTerminal && run.engineRunReference == reference
        && (snapshot.engineRunId.isNone || snapshot.engineRunId == reference.engineRunId) then
      appendEvent {run with metadata := {run.metadata with
        remoteMayContinue := some false, stopEvidence := some (snapshot.status, now)}}
        {eventType := "engine.replacement_stop.confirmed"}
    else run
  else resolveAwaitIfTerminal (applySnapshot S run snapshot "engine.refresh" now) now

/-- `refresh_run` when the engine's authorization was closed. -/
def authorizationClosed (run : ProcessRun V) (now : Time) : ProcessRun V :=
  if run.status.isTerminal then run
  else
    let run := setError run "authorization_invalidated"
      "The authorization for further process effects is unavailable."
    resolveAwaitIfTerminal (transition run .error "authorization.invalidated" now).1 now

structure ProcessEngineError where
  code : String
  message : String
  retryable : Bool
  deriving DecidableEq

/-- `_record_refresh_failure`. -/
def recordRefreshFailure (run : ProcessRun V) (exc : ProcessEngineError) (now : Time) : ProcessRun V :=
  if run.status.isTerminal then run
  else
    let failures := run.metadata.refreshFailures + 1
    let delay := min 3600 (max 1 S.stalenessSeconds * 2 ^ min (failures - 1) 10)
    let degraded := failures >= S.maxFailures || !exc.retryable
    let metadata := {run.metadata with
      refreshFailures := failures
      lastRefreshError := some (S.sanitizeText exc.message)
      lastRefreshErrorCode := some exc.code
      lastRefreshFailedAt := some now
      nextRefreshAt := some (now + delay)
      observationDegraded := degraded}
    let run := appendEvent {run with metadata := metadata} {eventType := "engine.refresh.failed"}
    if degraded then
      let run := setError run "observation_unavailable" (S.sanitizeText exc.message)
      if run.status == .running || run.status == .waiting then
        (transition run .unknown "engine.observation.degraded" now).1
      else run
    else run

/-- What `cancel_run` finds out about the engine and about the lock on the start job. -/
structure CancelView where
  jobVisible : Bool
  supportsCancel : Bool
  integrated : Bool
  deriving DecidableEq

/-- The first half of `cancel_run`, up to the request sent to the engine. -/
def cancelRequested (row : RunRow V) (view : CancelView) (now : Time) : RunRow V :=
  let run := row.run
  let pending := row.job.filter fun job =>
    view.jobVisible && job.status == .pending && job.lockedAt.isNone
  if run.status.isTerminal then {row with run := resolveAwaitIfTerminal run now}
  else match run.status, pending with
  | .queued, some job =>
    ⟨resolveAwaitIfTerminal (transition run .cancelled "run.cancelled" now).1 now,
      some {job with status := .cancelled}⟩
  | _, _ =>
    if !view.supportsCancel then
      if view.integrated then row
      else
        let run := setRemoteMayContinue run true
        {row with run := resolveAwaitIfTerminal (transition run .cancelled "run.cancelled" now).1 now}
    else {row with run := (transition run .cancelling "engine.cancel.requested" now).1}

/-- The second half of `cancel_run`: the engine confirmed, or cannot cancel. -/
def cancelAnswered (run : ProcessRun V) (answer : Option (EngineRunSnapshot V)) (now : Time) :
    ProcessRun V :=
  match answer with
  | some snapshot =>
    let run := applySnapshot S run snapshot "engine.cancel.confirmed" now
    resolveAwaitIfTerminal (setRemoteMayContinue run false) now
  | none =>
    let run := setRemoteMayContinue run true
    resolveAwaitIfTerminal (transition run .cancelled "run.cancelled" now).1 now

/-- A worker takes the start job of a queued run; of any other run it closes the job. -/
def startClaimed (row : RunRow V) (now : Time) : RunRow V :=
  match row.job with
  | none => row
  | some job =>
    let job := {job with attempts := job.attempts + 1, lockedAt := some now}
    if row.run.status != .queued then
      {row with job := some {job with status := if row.run.status == .cancelled then .cancelled else .done}}
    else {row with job := some job}

structure EngineStartResult (V : Type) where
  engineRunId : Option String := none
  raw : V

/-- `process_start_jobs` when the engine accepted the start. -/
def startSucceeded (row : RunRow V) (result : EngineStartResult V) (now : Time) : RunRow V :=
  let run := if row.run.status.isTerminal then row.run
    else {row.run with
      engineRunId := orText result.engineRunId row.run.engineRunId
      rawSnapshot := some (S.sanitize result.raw)}
  let job := row.job.map fun job => {job with status := .done, lockedAt := none}
  if run.status == .queued then ⟨(transition run .running "engine.start.accepted" now).1, job⟩
  else ⟨appendEvent run {eventType := "engine.start.accepted"}, job⟩

/-- `process_start_jobs` when the start failed: preserved, retried or final. -/
def startFailed (row : RunRow V) (exc : ProcessEngineError) (now : Time) : RunRow V :=
  let run := row.run
  let attempt := (row.job.map (·.attempts)).getD 0
  if run.status.isTerminal then
    -- A callback can finish the run before the start response arrives.
    ⟨resolveAwaitIfTerminal (appendEvent run {eventType := "engine.start.failed"}) now,
      row.job.map fun job => {job with status := .done, lockedAt := none}⟩
  else if exc.retryable && decide (attempt < S.startMaxRetries) && run.status == .queued then
    let delay := min (S.retryBackoff * 2 ^ (attempt - 1)) 3600
    ⟨resolveAwaitIfTerminal (appendEvent run {eventType := "engine.start.retry"}) now,
      row.job.map fun job => {job with availableAt := now + delay, lockedAt := none}⟩
  else
    let unknown := exc.code == "authorization_outcome_unknown"
    let run := setError run (if exc.retryable then "engine_unreachable" else exc.code)
      (S.sanitizeText exc.message)
    let run := (transition run (if unknown then .unknown else .error)
      (if unknown then "run.outcome_unknown" else "run.failed") now).1
    ⟨resolveAwaitIfTerminal run now, row.job.map fun job => {job with status := .failed, lockedAt := none}⟩

/-- One transaction of one of the paths. -/
inductive Op (V : Type)
  | callback (token : String) (event : CallbackEvent V)
  | refresh (uncertainTerminal : Bool) (reference : EngineRunReference) (snapshot : EngineRunSnapshot V)
  | authorizationClosed
  | refreshFailure (exc : ProcessEngineError)
  | cancelRequested (view : CancelView)
  | cancelAnswered (answer : Option (EngineRunSnapshot V))
  | startClaimed
  | startSucceeded (result : EngineStartResult V)
  | startFailed (exc : ProcessEngineError)
  | resolveAwait

def apply (row : RunRow V) (op : Op V) (now : Time) : RunRow V :=
  match op with
  | .callback token event => {row with run := receiveCallback S row.run token event now}
  | .refresh uncertain reference snapshot =>
    {row with run := refreshRun S row.run uncertain reference snapshot now}
  | .authorizationClosed => {row with run := Process.authorizationClosed row.run now}
  | .refreshFailure exc => {row with run := recordRefreshFailure S row.run exc now}
  | .cancelRequested view => Process.cancelRequested row view now
  | .cancelAnswered answer => {row with run := Process.cancelAnswered S row.run answer now}
  | .startClaimed => Process.startClaimed row now
  | .startSucceeded result => Process.startSucceeded S row result now
  | .startFailed exc => Process.startFailed S row exc now
  | .resolveAwait => {row with run := resolveAwaitIfTerminal row.run now}

/-- The paths in any order, each at its own time. -/
def step (row : RunRow V) (a : Op V × Time) (row' : RunRow V) : Prop := apply S row a.1 a.2 = row'

end Operations

/-! ### What one path can do to the row -/

/-- The outcome a caller reads. -/
structure Outcome (V : Type) where
  status : Status
  output : Option V
  errorCode : Option String
  errorMessage : Option String
  finishedAt : Option Time

section Rules
variable {V : Type} {S : Settings V}

def ProcessRun.outcome (run : ProcessRun V) : Outcome V :=
  ⟨run.status, run.output, run.errorCode, run.errorMessage, run.finishedAt⟩

/-- The status stands or takes one transition, a terminal outcome stands, and the
journal only grows. -/
structure Moves (r t : ProcessRun V) : Prop where
  status : t.status = r.status ∨ t.status ∈ transitions r.status
  frozen : r.status.isTerminal = true → t.outcome = r.outcome
  journal : r.events <+: t.events

theorem Moves.refl (r : ProcessRun V) : Moves r r := ⟨.inl rfl, fun _ => rfl, List.prefix_rfl⟩

/-- What leaves the outcome alone composes with one move, before it or after it. -/
theorem Moves.after {r t u : ProcessRun V} (h : Moves r t) (he : u.outcome = t.outcome)
    (hj : t.events <+: u.events) : Moves r u := by
  have hs : u.status = t.status := congrArg Outcome.status he
  exact ⟨by rw [hs]; exact h.status, fun hr => he.trans (h.frozen hr), h.journal.trans hj⟩

theorem Moves.before {r t u : ProcessRun V} (he : t.outcome = r.outcome) (hj : r.events <+: t.events)
    (h : Moves t u) : Moves r u := by
  have hs : t.status = r.status := congrArg Outcome.status he
  exact ⟨by rw [← hs]; exact h.status, fun hr => (h.frozen (by rw [hs]; exact hr)).trans he,
    hj.trans h.journal⟩

/-- While the run is active only its status and its journal are bound. -/
theorem Moves.active {r t u : ProcessRun V} (h : Moves r t) (ha : r.status.isTerminal = false)
    (hs : u.status = t.status) (hj : u.events = t.events) : Moves r u :=
  ⟨by rw [hs]; exact h.status, fun hr => absurd hr (by simp [ha]), by rw [hj]; exact h.journal⟩

theorem moves_appendEvent (run : ProcessRun V) (event : RunEvent) : Moves run (appendEvent run event) :=
  (Moves.refl run).after rfl (List.prefix_append _ _)

theorem moves_transition (run : ProcessRun V) (target : Status) (eventType : String) (now : Time)
    (source : String) : Moves run (transition run target eventType now source).1 := by
  unfold transition
  cases ha : (!run.status.isTerminal && canTransition run.status target)
  · exact moves_appendEvent run _
  · have hactive : run.status.isTerminal = false := by simp_all
    have hcan : canTransition run.status target = true := by simp_all
    by_cases heq : target = run.status
    · simp only [Bool.not_true, heq, beq_self_eq_true, Bool.or_true, if_true, appendEvent]
      exact moves_appendEvent run _
    · have hallowed : target ∈ transitions run.status := by
        simp only [canTransition, Bool.or_eq_true, beq_iff_eq, List.contains_eq_mem,
          decide_eq_true_eq] at hcan
        exact hcan.resolve_left fun h => heq h.symm
      refine ⟨.inr ?_, fun hr => absurd hr (by simp [hactive]), ?_⟩
      · simpa [appendEvent, heq] using hallowed
      · simp [appendEvent, heq]

/-- Only an active run accepts a transition. -/
theorem active_of_accepted {run : ProcessRun V} {target : Status} {eventType : String} {now : Time}
    {source : String} (h : (transition run target eventType now source).2 = true) :
    run.status.isTerminal = false := by
  unfold transition at h
  cases ht : run.status.isTerminal
  · rfl
  · simp [ht] at h

theorem resolveAwait_outcome (run : ProcessRun V) (now : Time) :
    (resolveAwaitIfTerminal run now).outcome = run.outcome := by
  unfold resolveAwaitIfTerminal
  split <;> rfl

theorem resolveAwait_events (run : ProcessRun V) (now : Time) :
    (resolveAwaitIfTerminal run now).events = run.events := by
  unfold resolveAwaitIfTerminal
  split <;> rfl

theorem Moves.resolved {r t : ProcessRun V} (h : Moves r t) (now : Time) :
    Moves r (resolveAwaitIfTerminal t now) :=
  h.after (resolveAwait_outcome t now) (resolveAwait_events t now ▸ List.prefix_rfl)

theorem moves_applySnapshot (run : ProcessRun V) (snapshot : EngineRunSnapshot V) (eventType : String)
    (now : Time) : Moves run (applySnapshot S run snapshot eventType now) := by
  have hmove := moves_transition run snapshot.status eventType now "galaris"
  unfold applySnapshot
  cases ht : transition run snapshot.status eventType now with
  | mk moved accepted =>
    rw [ht] at hmove
    cases accepted with
    | false => exact hmove
    | true =>
      have hactive := active_of_accepted (show (transition run snapshot.status eventType now).2 = true by rw [ht])
      cases he : snapshot.error <;> exact hmove.active hactive rfl rfl

theorem moves_receiveCallback (run : ProcessRun V) (token : String) (event : CallbackEvent V) (now : Time) :
    Moves run (receiveCallback S run token event now) := by
  unfold receiveCallback
  split
  · exact .refl run
  split
  · exact (Moves.refl run).resolved now
  · -- a first delivery: the event is recorded, then the transition decides
    extract_lets recorded
    have hrecorded : Moves run recorded := moves_appendEvent run _
    have hmove := moves_transition recorded event.status
      (if event.status.isTerminal = true then "run.completed" else "run.progress") now recorded.engineCode
    have hactive : (transition recorded event.status
        (if event.status.isTerminal = true then "run.completed" else "run.progress") now
        recorded.engineCode).2 = true → recorded.status.isTerminal = false := active_of_accepted
    generalize transition recorded event.status
      (if event.status.isTerminal = true then "run.completed" else "run.progress") now recorded.engineCode
      = result at hmove hactive ⊢
    obtain ⟨moved, accepted⟩ := result
    have htotal : Moves run moved := .before (t := recorded) rfl hrecorded.journal hmove
    cases accepted with
    | false => exact htotal.resolved now
    | true =>
      apply Moves.resolved
      exact htotal.active (hactive rfl) rfl rfl

theorem moves_refreshRun (run : ProcessRun V) (uncertain : Bool) (reference : EngineRunReference)
    (snapshot : EngineRunSnapshot V) (now : Time) :
    Moves run (refreshRun S run uncertain reference snapshot now) := by
  unfold refreshRun
  split
  · split
    · -- only the evidence of the physical stop is written
      exact (Moves.refl run).after rfl (List.prefix_append _ _)
    · exact .refl run
  · exact (moves_applySnapshot run snapshot _ now).resolved now

/-- A move that starts after the diagnostics of an active run were written. -/
theorem Moves.failed {r t : ProcessRun V} {code message : String} (ha : r.status.isTerminal = false)
    (h : Moves (setError r code message) t) : Moves r t :=
  ⟨h.status, fun hr => absurd (ha.symm.trans hr) (by decide), h.journal⟩

theorem Moves.marked {r t : ProcessRun V} {value : Bool} (h : Moves (setRemoteMayContinue r value) t) :
    Moves r t :=
  .before (t := setRemoteMayContinue r value) rfl List.prefix_rfl h

theorem moves_authorizationClosed (run : ProcessRun V) (now : Time) :
    Moves run (authorizationClosed run now) := by
  unfold authorizationClosed
  cases ht : run.status.isTerminal
  · exact Moves.resolved ((moves_transition _ .error _ now _).failed ht) now
  · exact .refl run

theorem moves_recordRefreshFailure (run : ProcessRun V) (exc : ProcessEngineError) (now : Time) :
    Moves run (recordRefreshFailure S run exc now) := by
  unfold recordRefreshFailure
  cases ht : run.status.isTerminal
  · dsimp only
    -- the failure is counted and journalled before it may degrade the run
    generalize hnoted : appendEvent {run with metadata := _} {eventType := "engine.refresh.failed"} = noted
    have hmove : Moves run noted := hnoted ▸ (Moves.refl run).after rfl (List.prefix_append _ _)
    have hactive : noted.status.isTerminal = false := hnoted ▸ ht
    simp only [Bool.false_eq_true, if_false]
    split
    · split
      · have hlast := (moves_transition (setError noted "observation_unavailable" (S.sanitizeText exc.message))
          .unknown "engine.observation.degraded" now "galaris").failed hactive
        exact .before (t := noted) (hnoted ▸ rfl) hmove.journal hlast
      · exact hmove.active ht rfl rfl
    · exact hmove
  · exact .refl run

theorem moves_cancelRequested (row : RunRow V) (view : CancelView) (now : Time) :
    Moves row.run (cancelRequested row view now).run := by
  unfold cancelRequested
  dsimp only
  split
  · exact (Moves.refl _).resolved now
  split
  · exact (moves_transition _ .cancelled _ now _).resolved now
  split
  · split
    · exact .refl _
    · exact Moves.resolved (moves_transition _ .cancelled _ now _).marked now
  · exact moves_transition _ .cancelling _ now _

theorem moves_cancelAnswered (run : ProcessRun V) (answer : Option (EngineRunSnapshot V)) (now : Time) :
    Moves run (cancelAnswered S run answer now) := by
  cases answer with
  | some snapshot =>
    have hmove := moves_applySnapshot (S := S) run snapshot "engine.cancel.confirmed" now
    exact Moves.resolved (hmove.after (u := setRemoteMayContinue _ false) rfl List.prefix_rfl) now
  | none => exact Moves.resolved (moves_transition _ .cancelled _ now _).marked now

theorem startClaimed_run (row : RunRow V) (now : Time) : (startClaimed row now).run = row.run := by
  unfold startClaimed
  split
  · rfl
  · dsimp only
    split <;> rfl

theorem moves_startSucceeded (row : RunRow V) (result : EngineStartResult V) (now : Time) :
    Moves row.run (startSucceeded S row result now).run := by
  unfold startSucceeded
  dsimp only
  generalize hrun : (if row.run.status.isTerminal = true then row.run else _) = run
  have hsame : run.outcome = row.run.outcome ∧ row.run.events <+: run.events := by
    subst hrun
    split <;> exact ⟨rfl, List.prefix_rfl⟩
  split
  · exact .before hsame.1 hsame.2 (moves_transition run .running _ now _)
  · exact .before hsame.1 hsame.2 (moves_appendEvent run _)

theorem moves_startFailed (row : RunRow V) (exc : ProcessEngineError) (now : Time) :
    Moves row.run (startFailed S row exc now).run := by
  unfold startFailed
  dsimp only
  cases ht : row.run.status.isTerminal
  · simp only [Bool.false_eq_true, if_false]
    split
    · exact (moves_appendEvent _ _).resolved now
    · exact Moves.resolved ((moves_transition _ _ _ now _).failed ht) now
  · exact (moves_appendEvent _ _).resolved now

/-- Every path moves the row at most once. -/
theorem moves_apply (row : RunRow V) (op : Op V) (now : Time) :
    Moves row.run (apply S row op now).run := by
  cases op with
  | callback token event => exact moves_receiveCallback row.run token event now
  | refresh uncertain reference snapshot => exact moves_refreshRun row.run uncertain reference snapshot now
  | authorizationClosed => exact moves_authorizationClosed row.run now
  | refreshFailure exc => exact moves_recordRefreshFailure row.run exc now
  | cancelRequested view => exact moves_cancelRequested row view now
  | cancelAnswered answer => exact moves_cancelAnswered row.run answer now
  | startClaimed =>
    show Moves row.run (Process.startClaimed row now).run
    rw [startClaimed_run]
    exact .refl row.run
  | startSucceeded result => exact moves_startSucceeded row result now
  | startFailed exc => exact moves_startFailed row exc now
  | resolveAwait => exact (Moves.refl row.run).resolved now

/-! ### Whole runs -/

open Transition (Steps)

/-- A terminal outcome stands to the end of the run. -/
theorem outcome_stands {row later : RunRow V} {ops : List (Op V × Time)} (h : Steps (step S) row ops later)
    (ht : row.run.status.isTerminal = true) : later.run.outcome = row.run.outcome := by
  have hinv : later.run.outcome = row.run.outcome ∧ later.run.status.isTerminal = true := by
    refine h.invariant (P := fun r => r.run.outcome = row.run.outcome ∧ r.run.status.isTerminal = true)
      ?_ ⟨rfl, ht⟩
    rintro r a t ⟨hr, hterminal⟩ rfl
    have hfrozen := (moves_apply r a.1 a.2 (S := S)).frozen hterminal
    have hstatus : (apply S r a.1 a.2).run.status = r.run.status := congrArg Outcome.status hfrozen
    exact ⟨hfrozen.trans hr, by rw [hstatus]; exact hterminal⟩
  exact hinv.1

theorem journal_grows {row later : RunRow V} {ops : List (Op V × Time)} (h : Steps (step S) row ops later) :
    row.run.events <+: later.run.events :=
  h.related (R := fun r t => r.run.events <+: t.run.events) (fun _ => List.prefix_rfl)
    (fun _ _ _ => List.IsPrefix.trans) (fun r a _ ha => ha ▸ (moves_apply r a.1 a.2).journal)

/-- The event of a callback that was let in is in the journal. -/
def Delivered (run : ProcessRun V) (eventId : String) : Prop :=
  ∃ e ∈ run.events, e.eventId = some eventId

theorem delivered_receiveCallback (run : ProcessRun V) (event : CallbackEvent V) (now : Time)
    (hengine : run.engineCode ≠ "galaris") :
    Delivered (receiveCallback S run run.callbackToken event now) event.eventId := by
  unfold receiveCallback
  have hin : (run.callbackToken != run.callbackToken || run.engineCode == "galaris") = false := by
    simp [hengine]
  simp only [hin, Bool.false_eq_true, if_false]
  split
  · next hdup =>
    obtain ⟨e, he, hid⟩ := List.any_eq_true.mp hdup
    exact ⟨e, by rw [resolveAwait_events]; exact he, by simpa using hid⟩
  · generalize hsrc : appendEvent run ⟨some event.eventId, run.engineCode,
      (orText event.eventType none).getD "engine.callback.received"⟩ = recorded
    have hmem : ∃ e ∈ recorded.events, e.eventId = some event.eventId := by
      subst hsrc
      exact ⟨_, List.mem_append_right _ (List.mem_singleton.mpr rfl), rfl⟩
    obtain ⟨e, he, hid⟩ := hmem
    refine ⟨e, ?_, hid⟩
    have hmove := moves_transition recorded event.status
      (if event.status.isTerminal = true then "run.completed" else "run.progress") now recorded.engineCode
    generalize transition recorded event.status
      (if event.status.isTerminal = true then "run.completed" else "run.progress") now recorded.engineCode
      = result at hmove ⊢
    rw [resolveAwait_events]
    have hin := hmove.journal.subset he
    cases hresult : result.2 <;> simpa using hin

/-- A delivered event changes nothing but the await when it comes again. -/
theorem receiveCallback_again (run : ProcessRun V) (token : String) (event : CallbackEvent V) (now : Time)
    (h : Delivered run event.eventId) :
    receiveCallback S run token event now =
      {run with awaitResolvedAt := (receiveCallback S run token event now).awaitResolvedAt} := by
  obtain ⟨e, he, hid⟩ := h
  have hdup : run.events.any (fun e => e.eventId == some event.eventId) = true :=
    List.any_eq_true.mpr ⟨e, he, by simp [hid]⟩
  unfold receiveCallback
  rw [if_pos hdup]
  split
  · rfl
  · unfold resolveAwaitIfTerminal
    split <;> rfl

/-- **First terminal outcome wins.** From any row and in any interleaving of the paths:
each path moves the status along `transitions` or leaves it; a terminal outcome is
never rewritten; and an event that was let in once is, whenever it comes again,
answered without touching any field but the await. -/
theorem first_terminal_outcome_wins (S : Settings V) (row later : RunRow V)
    (ops : List (Op V × Time)) (op : Op V) (now : Time)
    (hafter : Steps (step S) (apply S row op now) ops later) :
    ((apply S row op now).run.status = row.run.status ∨
      (apply S row op now).run.status ∈ transitions row.run.status) ∧
    (row.run.status.isTerminal = true → later.run.outcome = row.run.outcome) ∧
    (∀ event : CallbackEvent V, op = .callback row.run.callbackToken event →
      row.run.engineCode ≠ "galaris" →
      ∀ token again at', again.eventId = event.eventId →
        receiveCallback S later.run token again at' =
          {later.run with awaitResolvedAt := (receiveCallback S later.run token again at').awaitResolvedAt}) := by
  refine ⟨(moves_apply row op now).status, fun ht => ?_, ?_⟩
  · have hrun : Steps (step S) row ((op, now) :: ops) later := .cons rfl hafter
    exact outcome_stands hrun ht
  · rintro event rfl hengine token again at' hid
    apply receiveCallback_again
    obtain ⟨e, he, heid⟩ := delivered_receiveCallback (S := S) row.run event now hengine
    exact ⟨e, (journal_grows hafter).subset he, by rw [hid]; exact heid⟩

end Rules

/-- A remote run whose success callback comes twice, around a cancellation. -/
def remoteRun : RunRow Nat := {run := {engineCode := "n8n", callbackToken := "secret", status := .running}}

def successEvent : CallbackEvent Nat :=
  {eventId := "evt-1", status := .success, output := some 42, known := by decide}

def plainSettings : Settings Nat :=
  {sanitize := id, sanitizeText := id, stalenessSeconds := 60, maxFailures := 5, startMaxRetries := 3,
    retryBackoff := 10}

theorem first_terminal_outcome_wins_twice_delivered :
    let done := apply plainSettings remoteRun (.callback "secret" successEvent) 7
    let later := apply plainSettings done (.cancelRequested ⟨false, true, false⟩) 8
    done.run.status ∈ transitions .running ∧ later.run.outcome = done.run.outcome ∧
      receiveCallback plainSettings later.run "secret" successEvent 9 =
        {later.run with awaitResolvedAt :=
          (receiveCallback plainSettings later.run "secret" successEvent 9).awaitResolvedAt} := by
  intro done later
  have hafter : Transition.Steps (step plainSettings) done [(.cancelRequested ⟨false, true, false⟩, 8)] later :=
    .cons rfl (.nil later)
  have hfirst := first_terminal_outcome_wins plainSettings remoteRun later
    [(.cancelRequested ⟨false, true, false⟩, 8)] (.callback "secret" successEvent) 7 hafter
  have hsecond := first_terminal_outcome_wins plainSettings done later [] (.cancelRequested ⟨false, true, false⟩) 8
    (.nil later)
  exact ⟨hfirst.1.resolve_left (by decide), hsecond.2.1 rfl,
    hfirst.2.2 successEvent rfl (by decide) "secret" successEvent 9 rfl⟩

end Galaris.Process
