import Galaris.Base.ThreeWay
import Galaris.Task.Effects

/-! Questions of a Task to a human, and the responses (`input_requests.py`).

The marker of a request is pending, then answered (the run that asked is still going) or
delivered, and a delivered response may have been consumed by the run itself. The end of a
run merges what its session changed of `task.data` into the row as it is now, and looks at
the marker before it takes the result as the outcome of the Task. -/
namespace Galaris.Tasks

open Transition

/-! ### Requests and responses -/

/-- The keys of `task.data` that are no field of `Task`. -/
abbrev Data (V : Type) := AList fun _ : String => V

/-- `request_task_input`. -/
def requestTaskInput (key : String) (task : Task) : Option Task :=
  if task.status.terminal || task.cancelRequested then none
  else if task.input.any fun marker => marker.status == .pending && marker.key != key then none
  else
    let task := {task with input := some {key := key, status := .pending, runId := task.identity}}
    some (if task.status == .exec then task else task.suspend .input)

/-- The parts that are not empty, joined by a blank line. -/
def appendContext (previous response : String) : String :=
  "\n\n".intercalate ([previous, response].filter fun part => part ≠ "")

/-- `answer_task_input`. -/
def answerTaskInput (key response : String) (task : Task) : Option Task :=
  if task.status.terminal || task.cancelRequested then none
  else
    match task.input with
    | none => none
    | some marker =>
      if marker.key ≠ key then none
      else if marker.status ≠ .pending then (if marker.response = some response then some task else none)
      else if 2000000 < (appendContext task.inputContext response).utf8ByteSize then none
      else
        let task := {task with
          input := some {marker with
            runId := marker.runId.orElse fun _ => task.identity
            status := if task.status == .exec then .answered else .delivered
            response := some response}
          inputContext := appendContext task.inputContext response}
        some (if task.status == .exec then task else task.release .input)

/-- `consume_task_input`. -/
def consumeTaskInput (key : String) (task : Task) : Option Task :=
  if task.status.terminal || task.cancelRequested then none
  else
    match task.input with
    | none => some task
    | some marker =>
      if marker.key = key ∧ marker.status ≠ .pending then
        some ({task with input := some {marker with status := .delivered, consumed := true}}.release .input)
      else some task

/-! ### The end of a run -/

/-- What the session of a run has loaded of `task.data`, and what it made of the keys that are
no field of `Task`. -/
structure Session (V : Type) where
  identity : Option Nat
  checkpoint : Option Checkpoint
  before : Data V
  mine : Data V

/-- `_apply_run_result` on what the session has loaded, merged into the row as it is now. -/
def Session.applyRunResult {V : Type} (session : Session V) (result : ExecutionResult) (task : Task) : Task :=
  {task with
    executionResult := some result
    identity := ThreeWay.key session.identity none task.identity
    checkpoint := ThreeWay.key session.checkpoint
      (if result.success || result.disposition == .waitingForChildren then none
        else session.checkpoint) task.checkpoint}

/-- `_apply_run_result` and `_update_task_after_execution`. -/
def Session.finishRun {V : Type} (session : Session V) (result : ExecutionResult) (awaits delegated blocked : Bool)
    (feedback : Option String) (task : Task) : Option Task :=
  updateAfterExecution result awaits delegated blocked feedback (session.applyRunResult result task)

/-! ### The system -/

/-- The Task with its data and its history: the responses that were accepted, the requests whose
response was neither consumed nor followed by an execution, and how many times the response to
the last request made the Task execute again. -/
structure Dialogue (V : Type) where
  record : Record
  others : Data V
  accepted : List String := []
  unserved : List String := []
  caused : Nat := 0

inductive DialogueEvent (V : Type)
  | request (key : String)
  | answer (key response : String)
  | consume (key : String)
  | endRun (session : Session V) (result : ExecutionResult) (awaits delegated blocked : Bool) (feedback : Option String)
  | save (key : String) (value : Option V)
  | command (command : Command)

/-- The commands that leave the input requests and the end of a run to their own events. -/
def Command.ofDialogue : Command → Bool
  | .write .. | .finishRun .. => false
  | _ => true

/-- The end of the run makes the Task execute again for the response: its delivery, or the end at
EXEC of the run that asked. -/
def servesResponse (runId : Option Nat) (task : Task) : Bool :=
  task.input.any fun marker => marker.status == .answered || (questionTurn marker runId && task.status == .exec)

namespace Dialogue
variable {V : Type} [DecidableEq V]

/-- The Task has an open request. -/
def pending (dialogue : Dialogue V) : Bool := dialogue.record.task.input.any fun marker => marker.status == .pending

/-- The committed transaction of an event. -/
def apply (C : Settings) (dialogue : Dialogue V) : DialogueEvent V → Option (Dialogue V)
  | .request key => do
    let record ← dialogue.record.onTask (requestTaskInput key)
    return {dialogue with record := record, caused := 0}
  | .answer key response => do
    let record ← dialogue.record.onTask (answerTaskInput key response)
    return if dialogue.pending then
      {dialogue with
        record := record
        accepted := dialogue.accepted ++ [response]
        unserved := key :: dialogue.unserved
        caused := if dialogue.record.task.status == .exec then dialogue.caused else dialogue.caused + 1}
    else {dialogue with record := record}
  | .consume key => do
    let record ← dialogue.record.onTask (consumeTaskInput key)
    return {dialogue with record := record, unserved := dialogue.unserved.filter (· ≠ key)}
  | .endRun session result awaits delegated blocked feedback => do
    let record ← dialogue.record.onTask (session.finishRun result awaits delegated blocked feedback)
    return {dialogue with
      record := record
      others := ThreeWay.merge session.before session.mine dialogue.others
      caused := if servesResponse result.runId dialogue.record.task then dialogue.caused + 1 else dialogue.caused}
  | .save key value => some {dialogue with
      others := match value with
        | some value => dialogue.others.insert key value
        | none => dialogue.others.erase key}
  | .command command => do
    let record ← if command.ofDialogue then command.apply C dialogue.record else none
    return {dialogue with record := record, unserved := if command = .start then [] else dialogue.unserved}

end Dialogue

/-! ### The other commands -/

/-- The change leaves the request and the responses alone, and starts no execution. -/
structure Silent (task task' : Task) : Prop where
  input : task'.input = task.input
  inputContext : task'.inputContext = task.inputContext
  exec : task'.status = .exec → task.status = .exec
  reasons : PauseReason.input ∈ task'.pauseReasons → PauseReason.input ∈ task.pauseReasons

theorem Silent.refl (task : Task) : Silent task task := ⟨rfl, rfl, id, id⟩

theorem Silent.trans {task task' task'' : Task} (h : Silent task task') (k : Silent task' task'') :
    Silent task task'' :=
  ⟨k.input.trans h.input, k.inputContext.trans h.inputContext, fun hexec => h.exec (k.exec hexec),
    fun hmem => h.reasons (k.reasons hmem)⟩

/-- Its pauses are cleared, or as they were. -/
theorem Silent.cleared {task task' : Task} (hinput : task'.input = task.input)
    (hcontext : task'.inputContext = task.inputContext) (hexec : task'.status = .exec → task.status = .exec)
    (hreasons : task'.pauseReasons = []) : Silent task task' := by
  refine ⟨hinput, hcontext, hexec, fun hmem => ?_⟩
  rw [hreasons] at hmem
  cases hmem

theorem Silent.on {task task' : Task} {event : TaskEvent} (h : task.on event = some task')
    (hevent : (TRANSITIONS event).target ≠ .exec) : Silent task task' := by
  obtain ⟨_, rfl⟩ := Task.on_eq_some.mp h
  exact ⟨rfl, rfl, fun hexec => absurd hexec hevent, id⟩

theorem interrupted_silent (task : Task) : Silent task (interrupted task) :=
  ⟨rfl, rfl, fun hexec => absurd hexec (interrupted_ne_exec task), id⟩

theorem suspend_silent {task : Task} {reason : PauseReason} (hreason : reason ≠ .input) :
    Silent task (task.suspend reason) := by
  rw [Task.suspend_eq]
  refine ⟨rfl, rfl, id, fun hmem => ?_⟩
  rw [← Task.suspend_eq] at hmem
  exact (Task.of_mem_suspend hmem).resolve_right fun hsame => hreason hsame.symm

theorem failClaim_silent {C : Settings} {now token : Nat} {phase : TaskStatus} {exc : Raised} {record record' : Record}
    (h : failClaim C now token phase exc record = some record') : Silent record.task record'.task := by
  cases failClaim_cases h with
  | stale _ => exact .refl _
  | success _ _ => exact ⟨rfl, rfl, id, id⟩
  | retry _ _ _ =>
    refine ⟨rfl, rfl, fun hexec => ?_, id⟩
    have hresume : ∀ phase status, resumePhase phase status ≠ .exec := by
      intro phase status
      cases status <;> cases phase <;> decide
    exact absurd hexec (hresume phase record.task.status)
  | abandon _ _ _ => exact .cleared rfl rfl nofun rfl

theorem finishInlineExecution_silent {now token : Nat} {error : Option String} {cancelled : Bool}
    {record record' : Record}
    (h : finishInlineExecution now token error cancelled record = some record') : Silent record.task record'.task := by
  unfold finishInlineExecution at h
  split at h
  · cases h
    exact .refl _
  · simp only [Option.bind_eq_bind, Option.pure_def] at h
    split at h
    · obtain ⟨ended, hended, h⟩ := Option.bind_eq_some_iff.mp h
      have hsilent : Silent record.task ended := .on hended (by cases cancelled <;> decide)
      cases h
      refine hsilent.trans ?_
      cases error with
      | none => exact .cleared rfl rfl id rfl
      | some failure => exact .cleared rfl rfl id rfl
    · cases h
      cases error with
      | none => exact ⟨rfl, rfl, id, id⟩
      | some failure => exact ⟨rfl, rfl, id, id⟩

theorem recoverOrphan_silent {C : Settings} {now : Nat} {record record' : Record}
    (h : recoverOrphan C now record = some record') : Silent record.task record'.task := by
  unfold recoverOrphan at h
  simp only [Option.bind_eq_bind, Option.pure_def] at h
  split at h
  · cases h
    exact .refl _
  · split at h
    · obtain ⟨recovered, hrecovered, h⟩ := Option.bind_eq_some_iff.mp h
      obtain ⟨routed, hrouted, h⟩ := Option.bind_eq_some_iff.mp h
      cases h
      exact ((Silent.on hrecovered (by decide)).trans (.on hrouted (by decide))).trans ⟨rfl, rfl, id, id⟩
    · obtain ⟨failed, hfailed, h⟩ := Option.bind_eq_some_iff.mp h
      cases h
      exact (Silent.on hfailed (by decide)).trans (.cleared rfl rfl id rfl)

theorem forceTerminate_silent {C : Settings} {now : Nat} {record record' : Record}
    (h : forceTerminate C now record = some record') : Silent record.task record'.task := by
  unfold forceTerminate at h
  simp only [Option.bind_eq_bind, Option.pure_def] at h
  split at h
  · cases h
    exact .cleared rfl rfl id rfl
  · obtain ⟨ended, hended, h⟩ := Option.bind_eq_some_iff.mp h
    cases h
    exact (Silent.on hended (by decide)).trans (.cleared rfl rfl id rfl)

theorem retryTask_silent {C : Settings} {event : TaskEvent} {task task' : Task}
    (h : retryTask C event task = some task') :
    Silent task task' := by
  have hprepared : Silent task (prepareRunRetry C task) := by
    unfold prepareRunRetry
    split
    · exact .refl _
    · split <;> exact ⟨rfl, rfl, id, id⟩
  unfold retryTask at h
  split at h
  · cases h
  · next hretries =>
    simp only [Option.bind_eq_bind, Option.pure_def] at h
    obtain ⟨moved, hmoved, h⟩ := Option.bind_eq_some_iff.mp h
    have htarget : ∀ event : TaskEvent, event.retries = true → (TRANSITIONS event).target ≠ .exec := by
      intro event
      cases event <;> decide
    have hsilent : Silent task moved := by
      refine Silent.trans ?_ (.on hmoved (htarget event (by simpa using hretries)))
      split
      · exact .refl _
      · exact hprepared
    split at h
    · obtain ⟨routed, hrouted, h⟩ := Option.bind_eq_some_iff.mp h
      cases h
      exact (hsilent.trans (.on hrouted (by decide))).trans (.cleared rfl rfl id rfl)
    · cases h
      exact hsilent.trans (.cleared rfl rfl id rfl)

theorem pauseTree_silent {here : Bool} {task task' : Task} (h : pauseTree here task = some task') :
    Silent task task' := by
  have hheld : Silent task (task.suspend .user) := suspend_silent (by decide)
  obtain ⟨_, hsame⟩ | ⟨_, hsame | ⟨flag, hsame⟩⟩ := pauseTree_eq_some h
  · rw [hsame]
    exact .refl _
  · rw [hsame]
    exact hheld
  · rw [hsame]
    have hflag : Silent (task.suspend .user) {task.suspend .user with cancelRequested := flag} := ⟨rfl, rfl, id, id⟩
    exact (hheld.trans hflag).trans (interrupted_silent _)

/-- No command but `start` says anything to the human, or starts an execution. -/
theorem command_silent {C : Settings} {record record' : Record} {command : Command}
    (hdialogue : command.ofDialogue = true)
    (hstart : command ≠ .start) (h : command.apply C record = some record') : Silent record.task record'.task := by
  cases command with
  | claim now token =>
    obtain ⟨_, rfl⟩ := Record.insert_eq_some.mp h
    obtain hsame | ⟨_, htaken⟩ := claim_cases C now token record
    · rw [hsame]
      exact .refl _
    · rw [htaken]
      exact ⟨rfl, rfl, id, id⟩
  | claimInline now token =>
    obtain ⟨_, rfl⟩ := Record.insert_eq_some.mp h
    obtain hsame | ⟨_, htaken⟩ := claimInline_cases C now token record
    · rw [hsame]
      exact .refl _
    · rw [htaken]
      exact .cleared rfl rfl id rfl
  | deferClaim now until' error =>
    cases h
    obtain hsame | ⟨_, hdeferred⟩ := deferClaim_cases now until' error record
    · rw [hsame]
      exact .refl _
    · rw [hdeferred]
      exact ⟨rfl, rfl, id, id⟩
  | releaseUnstarted now token =>
    cases h
    obtain hsame | ⟨_, hreleased⟩ := releaseUnstartedClaim_cases C now token record
    · rw [hsame]
      exact .refl _
    · rw [hreleased]
      exact ⟨rfl, rfl, id, id⟩
  | renew now token =>
    cases h
    obtain hsame | ⟨_, hrenewed⟩ := renewLease_cases C now token record
    · rw [hsame]
      exact .refl _
    · rw [hrenewed]
      exact ⟨rfl, rfl, id, id⟩
  | complete now token =>
    obtain rfl | ⟨_, rfl⟩ := complete_cases h
    · exact .refl _
    · exact ⟨rfl, rfl, id, id⟩
  | fail now token exc =>
    obtain ⟨_, _, hfail⟩ := fail_eq_some h
    exact failClaim_silent hfail
  | release now token =>
    obtain ⟨_, rfl⟩ | ⟨_, rfl⟩ := releaseCancelledClaim_cases h
    · exact .refl _
    · exact (interrupted_silent record.task).trans ⟨rfl, rfl, id, id⟩
  | finishInline now token error cancelled => exact finishInlineExecution_silent h
  | recoverOrphan now => exact recoverOrphan_silent h
  | recoverExpired now =>
    obtain rfl | ⟨attempt, _, _, hfail⟩ := recoverExpired_cases h
    · exact .refl _
    · exact failClaim_silent hfail
  | activate now token fresh =>
    obtain ⟨_, _, rfl⟩ := activateAgentRun_eq_some h
    exact ⟨rfl, rfl, id, id⟩
  | progress now token checkpoint result =>
    obtain ⟨_, rfl⟩ := persistAgentRunState_eq_some h
    exact ⟨rfl, rfl, id, id⟩
  | appendEvent token entry =>
    cases h
    exact .refl _
  | cancel =>
    obtain ⟨hcancel, _⟩ := Record.onTask_eq_some.mp h
    obtain ⟨ended, hended, hcancelled⟩ := Option.bind_eq_some_iff.mp hcancel
    rw [← Option.some.inj hcancelled]
    exact (Silent.on hended (by decide)).trans (.cleared rfl rfl id rfl)
  | forceTerminate now => exact forceTerminate_silent h
  | pause here =>
    obtain ⟨hpause, _⟩ := Record.onTask_eq_some.mp h
    exact pauseTree_silent hpause
  | resume childDone =>
    obtain ⟨reasons, rfl, hsubset, _⟩ := resume_eq_some h
    exact ⟨rfl, rfl, id, hsubset _⟩
  | preempt here =>
    obtain ⟨hpreempt, _⟩ := Record.onTask_eq_some.mp h
    rw [preempt_eq] at hpreempt
    rw [← Option.some.inj hpreempt]
    refine Silent.trans ?_ (interrupted_silent _)
    cases here <;> exact ⟨rfl, rfl, id, id⟩
  | retry event =>
    obtain ⟨hretry, _⟩ := Record.onTask_eq_some.mp h
    exact retryTask_silent hretry
  | start => exact absurd rfl hstart
  | _ => cases hdialogue

end Galaris.Tasks
