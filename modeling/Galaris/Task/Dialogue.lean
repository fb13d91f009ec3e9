import Galaris.Task.Input

/-! What becomes of a response: it is appended once, the Task executes again for it unless its
run consumed it, and no more than once. The history is kept by the key of the request, which `ask_input`
draws fresh for every question.

The invariant holds in every run (`Dialogue.Inv`). A response makes the Task execute again a
second time when the run that asked ends failed and keeps its checkpoint: the next execution
is the same logical run, so its end is taken for the turn of the question again
(`input_while_not_repeated`). -/
namespace Galaris.Tasks

open Transition

/-! ### What an event does to the request -/

theorem requestTaskInput_cases {key : String} {task task' : Task} (h : requestTaskInput key task = some task') :
    ∃ reasons, task' = {task with
        input := some {key := key, status := .pending, runId := task.identity}, pauseReasons := reasons} ∧
      (task.status = .exec → reasons = task.pauseReasons) := by
  unfold requestTaskInput at h
  split at h
  · cases h
  · split at h
    · cases h
    · cases h
      by_cases hexec : task.status = .exec
      · exact ⟨task.pauseReasons, by simp [hexec], fun _ => rfl⟩
      · rw [if_neg (by simpa using hexec), Task.suspend_eq]
        exact ⟨_, rfl, fun h => absurd h hexec⟩

/-- The marker of a request whose response was accepted. -/
def InputRequest.received (marker : InputRequest) (task : Task) (response : String) : InputRequest :=
  {marker with
    runId := marker.runId.orElse fun _ => task.identity
    status := if task.status = .exec then .answered else .delivered
    response := some response}

theorem answerTaskInput_cases {key response : String} {task task' : Task}
    (h : answerTaskInput key response task = some task') :
    ∃ marker, task.input = some marker ∧
      (marker.status ≠ .pending ∧ task' = task ∨
        marker.status = .pending ∧ task' = {task with
          input := some (marker.received task response)
          inputContext := appendContext task.inputContext response
          pauseReasons := if task.status = .exec then task.pauseReasons
              else task.pauseReasons.filter (· ≠ .input)}) := by
  unfold answerTaskInput at h
  split at h
  · cases h
  · cases hinput : task.input with
    | none =>
      rw [hinput] at h
      cases h
    | some marker =>
      rw [hinput] at h
      refine ⟨marker, rfl, ?_⟩
      dsimp only at h
      split at h
      · cases h
      · split at h
        · next hanswered =>
          split at h
          · cases h
            exact .inl ⟨hanswered, rfl⟩
          · cases h
        · next hpending =>
          split at h
          · cases h
          · cases h
            refine .inr ⟨not_not.mp hpending, ?_⟩
            by_cases hexec : task.status = .exec <;> simp [hexec, InputRequest.received, Task.release]

theorem consumeTaskInput_cases {key : String} {task task' : Task} (h : consumeTaskInput key task = some task') :
    task' = task ∨ ∃ marker, task.input = some marker ∧ marker.key = key ∧ marker.status ≠ .pending ∧
      task' = {task with
        input := some {marker with status := .delivered, consumed := true}
        pauseReasons := task.pauseReasons.filter (· ≠ .input)} := by
  unfold consumeTaskInput at h
  split at h
  · cases h
  · cases hinput : task.input with
    | none =>
      rw [hinput] at h
      exact .inl (Option.some.inj h).symm
    | some marker =>
      rw [hinput] at h
      dsimp only at h
      split at h
      · next hkey => exact .inr ⟨marker, rfl, hkey.1, hkey.2, (Option.some.inj h).symm⟩
      · exact .inl (Option.some.inj h).symm

/-! ### What the end of a run does to it -/

/-- The marker after the end of a run: a response is delivered. -/
def InputRequest.folded (marker : InputRequest) : InputRequest :=
  if marker.status = .answered then {marker with status := .delivered} else marker

theorem InputRequest.folded_pending {marker : InputRequest} (h : marker.status = .pending) :
    marker.folded = marker := by
  simp [InputRequest.folded, h]

theorem InputRequest.folded_delivered {marker : InputRequest} (h : marker.status ≠ .pending) :
    marker.folded = {marker with status := .delivered} := by
  obtain ⟨key, status, runId, response, consumed⟩ := marker
  cases status with
  | pending => exact absurd rfl h
  | answered => rfl
  | delivered => rfl

theorem InputRequest.folded_consumed (marker : InputRequest) : marker.folded.consumed = marker.consumed := by
  unfold InputRequest.folded
  split <;> rfl

/-- The request after `suspend_on_pending_input`, and whether the Task is held for it. -/
structure Folded (task task' : Task) (waits : Bool) : Prop where
  input : task'.input = task.input.map InputRequest.folded
  inputContext : task'.inputContext = task.inputContext
  held : PauseReason.input ∈ task'.pauseReasons →
    (∃ marker, task.input = some marker ∧ marker.status = .pending) ∨ waits = false ∧
    PauseReason.input ∈ task.pauseReasons

theorem suspendOnPendingInput_folded {runId : Option Nat} {task task' : Task} {waits : Bool}
    (h : suspendOnPendingInput runId task = some (task', waits)) : Folded task task' waits := by
  unfold suspendOnPendingInput at h
  cases hinput : task.input with
  | none =>
    rw [hinput] at h
    cases h
    exact ⟨hinput.trans (by rw [hinput]; rfl), rfl, fun hmem => .inr ⟨rfl, hmem⟩⟩
  | some marker =>
    rw [hinput] at h
    simp only [Option.bind_eq_bind, Option.pure_def] at h
    split at h
    · next hdelivered =>
      cases h
      simp only [Bool.and_eq_true, beq_iff_eq] at hdelivered
      refine ⟨?_, rfl, fun hmem => .inr ⟨rfl, hmem⟩⟩
      simp [hinput, InputRequest.folded, hdelivered.1]
    · have hfolds : ∀ {stopped : Task}, Silent task stopped →
          (if (marker.status == .pending) = true then some (stopped.suspend .input, true)
            else some ({stopped with input := some {marker with status := .delivered}}.release .input, true)) =
            some (task', waits) → Folded task task' waits := by
        intro stopped hsilent hend
        by_cases hpending : marker.status = .pending
        · rw [if_pos (by simpa using hpending), Task.suspend_eq] at hend
          cases hend
          refine ⟨?_, hsilent.inputContext, fun _ => .inl ⟨marker, hinput, hpending⟩⟩
          rw [hinput, Option.map_some, InputRequest.folded_pending hpending, ← hinput]
          exact hsilent.input
        · rw [if_neg (by simpa using hpending)] at hend
          cases hend
          refine ⟨?_, hsilent.inputContext, fun hmem => absurd rfl (Task.mem_release.mp hmem).2⟩
          rw [hinput, Option.map_some, InputRequest.folded_delivered hpending]
          rfl
      split at h
      · obtain ⟨stopped, hstopped, hend⟩ := Option.bind_eq_some_iff.mp h
        exact hfolds (.on hstopped (by decide)) hend
      · rw [Option.bind_some] at h
        exact hfolds (.refl task) h

theorem suspendForApproval_silent {task task' : Task} (h : suspendForApproval task = some task') :
    Silent task task' := by
  have hheld : ∀ task : Task, Silent task (task.suspend .approval) := fun _ => suspend_silent (by decide)
  unfold suspendForApproval at h
  simp only [Option.bind_eq_bind, Option.pure_def] at h
  split at h
  · obtain ⟨stopped, hstopped, h⟩ := Option.bind_eq_some_iff.mp h
    cases h
    exact (Silent.on hstopped (by decide)).trans (hheld _)
  · cases h
    exact hheld _

theorem suspendOnPendingChildren_silent {awaits delegated : Bool} {task task' : Task} {waits : Bool}
    (h : suspendOnPendingChildren awaits delegated task = some (task', waits)) : Silent task task' := by
  unfold suspendOnPendingChildren at h
  split at h
  · cases h
    exact .refl _
  · obtain ⟨stopped, hstopped, h⟩ := Option.bind_eq_some_iff.mp h
    cases h
    refine (Silent.on hstopped (by decide)).trans ?_
    have hheld : ∀ (task : Task) (reason : PauseReason), reason ≠ .input → Silent task (task.suspend reason) :=
      fun _ _ => suspend_silent
    cases awaits <;> cases delegated
    · exact .refl _
    · exact hheld _ .child (by decide)
    · exact hheld _ .await (by decide)
    · exact (hheld _ .await (by decide)).trans (hheld _ .child (by decide))

/-- What follows `suspend_on_pending_input` leaves the request alone. -/
theorem updateAfterExecution_silent {result : ExecutionResult} {awaits delegated blocked : Bool}
    {feedback : Option String}
    {task task' : Task} (h : updateAfterExecution result awaits delegated blocked feedback task = some task') :
    ∃ stopped waits, suspendOnPendingInput result.runId task = some (stopped, waits) ∧ Silent stopped task' := by
  unfold updateAfterExecution at h
  simp only [Option.bind_eq_bind, Option.pure_def] at h
  obtain ⟨⟨stopped, input⟩, hinput, hbody⟩ := Option.bind_eq_some_iff.mp h
  refine ⟨stopped, input, hinput, ?_⟩
  have hnoted : ∀ {task : Task} {result : Option ExecutionResult} {feedback : Option String},
      Silent task {task with executionResult := result, feedback := feedback} := ⟨rfl, rfl, id, id⟩
  cases input with
  | true =>
    simp only [if_true, Bool.not_true, Bool.and_false, Bool.false_and, Bool.false_eq_true, if_false,
      Option.bind_some] at hbody
    split at hbody
    · obtain ⟨approved, happroved, hend⟩ := Option.bind_eq_some_iff.mp hbody
      cases hend
      exact (suspendForApproval_silent happroved).trans hnoted
    · cases hbody
      exact hnoted
  | false =>
    simp only [Bool.false_eq_true, if_false, Bool.not_false, Bool.and_true, Option.bind_some] at hbody
    split at hbody
    · next hauthorization =>
      obtain ⟨approved, happroved, hrest⟩ := Option.bind_eq_some_iff.mp hbody
      obtain ⟨⟨waiting, children⟩, hchildren, hend⟩ := Option.bind_eq_some_iff.mp hrest
      simp only [hauthorization, Bool.not_true, Bool.and_false, Bool.false_and, Bool.false_eq_true, if_false] at hend
      cases hend
      exact ((suspendForApproval_silent happroved).trans (suspendOnPendingChildren_silent hchildren)).trans hnoted
    · next hauthorization =>
      obtain ⟨⟨waiting, children⟩, hchildren, hend⟩ := Option.bind_eq_some_iff.mp hbody
      have hcleared : Silent stopped stopped.clearPauses := .cleared rfl rfl id rfl
      have hwaiting : Silent stopped waiting := hcleared.trans (suspendOnPendingChildren_silent hchildren)
      cases children with
      | true =>
        simp only [Bool.not_true, Bool.false_and, Bool.false_eq_true, if_false] at hend
        cases hend
        exact hwaiting.trans hnoted
      | false =>
        simp only [Bool.eq_false_iff.mpr hauthorization, Bool.not_false, Bool.and_self, Bool.true_and, if_true] at hend
        obtain ⟨ended, hended, hnoting⟩ := Option.bind_eq_some_iff.mp hend
        cases hnoting
        exact (hwaiting.trans (.on hended (by split <;> split <;> decide))).trans hnoted

/-- The end of a run, as the request sees it. -/
structure RunFolded (runId : Option Nat) (task task' : Task) : Prop where
  input : task'.input = task.input.map InputRequest.folded
  inputContext : task'.inputContext = task.inputContext
  held : PauseReason.input ∈ task'.pauseReasons →
    (∃ marker, task.input = some marker ∧ marker.status = .pending) ∨
      waitsForInput runId task = false ∧ PauseReason.input ∈ task.pauseReasons
  stopped : task'.status ≠ .exec
  ended : task'.status.terminal = true → task.status.terminal = false →
    waitsForInput runId task = false ∧ task.status = .exec

theorem Session.finishRun_folded {V : Type} {session : Session V} {result : ExecutionResult}
    {awaits delegated blocked : Bool}
    {feedback : Option String} {task task' : Task}
    (h : session.finishRun result awaits delegated blocked feedback task = some task') :
    RunFolded result.runId task task' := by
  obtain ⟨stopped, waits, hstopped, hsilent⟩ := updateAfterExecution_silent h
  have hfolded := suspendOnPendingInput_folded hstopped
  have hends := updateAfterExecution_cases h
  refine ⟨hsilent.input.trans hfolded.input, hsilent.inputContext.trans hfolded.inputContext,
    fun hmem => ?_, ?_, fun hterminal hactive => ?_⟩
  · refine (hfolded.held (hsilent.reasons hmem)).imp id fun hold => ⟨?_, hold.2⟩
    obtain ⟨_, hnone, _⟩ | ⟨htrue, _, _⟩ := suspendOnPendingInput_cases hstopped
    · exact hnone
    · rw [hold.1] at htrue
      cases htrue
  · cases hends with
    | waits _ hwaits =>
      rw [hwaits.status]
      exact interrupted_ne_exec _
    | children _ _ _ _ hdispatch _ =>
      rw [hdispatch]
      decide
    | outcome _ _ _ _ hstatus _ =>
      intro hexec
      have hended := runOutcome_terminal result blocked
      rw [← hstatus, hexec] at hended
      cases hended
  · cases hends with
    | waits _ hwaits =>
      rw [hwaits.status, interrupted_terminal] at hterminal
      exact absurd (hactive.symm.trans hterminal) (by decide)
    | children _ _ _ _ hdispatch _ =>
      rw [hdispatch] at hterminal
      cases hterminal
    | outcome _ hnone hexec _ _ _ => exact ⟨(Bool.or_eq_false_iff.mp hnone).1, hexec⟩

/-! ### The invariant -/

namespace Dialogue
variable {V : Type}

/-- What every run keeps of a request and its responses. -/
structure Inv (dialogue : Dialogue V) : Prop where
  running : dialogue.record.task.status = .exec → PauseReason.input ∉ dialogue.record.task.pauseReasons
  held : PauseReason.input ∈ dialogue.record.task.pauseReasons → dialogue.pending = true
  /-- While the Task runs, a response that is not served has a request that is open or answered, or
  that the run has replaced and consumed. -/
  unserved : dialogue.record.task.status = .exec → dialogue.unserved ≠ [] →
    ∃ marker, dialogue.record.task.input = some marker ∧ (marker.status = .delivered → marker.consumed = true)
  waiting : ∀ marker, dialogue.record.task.input = some marker → marker.status ≠ .delivered →
    marker.consumed = false ∧ dialogue.caused = 0
  delivered : ∀ marker, dialogue.record.task.input = some marker → marker.status = .delivered →
    marker.consumed = false →
    1 ≤ dialogue.caused

/-- A Task that has asked nothing yet. -/
structure Founded (dialogue : Dialogue V) : Prop where
  input : dialogue.record.task.input = none
  reasons : PauseReason.input ∉ dialogue.record.task.pauseReasons
  accepted : dialogue.accepted = []
  unserved : dialogue.unserved = []
  caused : dialogue.caused = 0

theorem Founded.inv {dialogue : Dialogue V} (h : Founded dialogue) : Inv dialogue := by
  refine ⟨fun _ => h.reasons, fun hmem => absurd hmem h.reasons, fun _ hne => absurd h.unserved hne, ?_, ?_⟩
  all_goals
    intro marker hmarker
    rw [h.input] at hmarker
    cases hmarker

theorem pending_iff {dialogue : Dialogue V} :
    dialogue.pending = true ↔ ∃ marker, dialogue.record.task.input = some marker ∧ marker.status = .pending := by
  simp [pending, Option.any_eq_true]

/-- A change that is silent keeps the invariant. -/
theorem Inv.silent {dialogue : Dialogue V} (h : dialogue.Inv) {record : Record}
    (hsilent : Silent dialogue.record.task record.task) :
    Inv {dialogue with record := record} := by
  refine ⟨fun hexec hmem => h.running (hsilent.exec hexec) (hsilent.reasons hmem), fun hmem => ?_, fun hexec hne => ?_,
    fun marker hmarker => ?_, fun marker hmarker => ?_⟩
  · obtain ⟨marker, hmarker, hpending⟩ := pending_iff.mp (h.held (hsilent.reasons hmem))
    exact pending_iff.mpr ⟨marker, hsilent.input.trans hmarker, hpending⟩
  · obtain ⟨marker, hmarker, hserved⟩ := h.unserved (hsilent.exec hexec) hne
    exact ⟨marker, hsilent.input.trans hmarker, hserved⟩
  · exact h.waiting marker (hsilent.input.symm.trans hmarker)
  · exact h.delivered marker (hsilent.input.symm.trans hmarker)

variable [DecidableEq V]

theorem Inv.request {dialogue dialogue' : Dialogue V} {C : Settings} {key : String} (h : dialogue.Inv)
    (happly : dialogue.apply C (.request key) = some dialogue') : dialogue'.Inv := by
  obtain ⟨record, hrecord, hdone⟩ := Option.bind_eq_some_iff.mp happly
  obtain ⟨hrequest, _⟩ := Record.onTask_eq_some.mp hrecord
  obtain ⟨reasons, htask, hrunning⟩ := requestTaskInput_cases hrequest
  cases hdone
  have hinput : record.task.input =
      some {key := key, status := .pending, runId := dialogue.record.task.identity} := by rw [htask]
  refine ⟨fun hexec => ?_, fun _ => pending_iff.mpr ⟨_, hinput, rfl⟩, fun _ _ => ⟨_, hinput, nofun⟩,
    fun marker hmarker _ => ?_, fun marker hmarker hdelivered _ => ?_⟩
  · have hbefore : dialogue.record.task.status = .exec := by
      dsimp only at hexec
      rw [htask] at hexec
      exact hexec
    show PauseReason.input ∉ record.task.pauseReasons
    rw [htask]
    show PauseReason.input ∉ reasons
    rw [hrunning hbefore]
    exact h.running hbefore
  · cases hinput.symm.trans hmarker
    exact ⟨rfl, rfl⟩
  · cases hinput.symm.trans hmarker
    cases hdelivered

theorem Inv.answer {dialogue dialogue' : Dialogue V} {C : Settings} {key response : String} (h : dialogue.Inv)
    (happly : dialogue.apply C (.answer key response) = some dialogue') : dialogue'.Inv := by
  obtain ⟨record, hrecord, hdone⟩ := Option.bind_eq_some_iff.mp happly
  obtain ⟨hanswer, hattempts⟩ := Record.onTask_eq_some.mp hrecord
  obtain ⟨marker, hmarker, ⟨hstatus, hsame⟩ | ⟨hstatus, htask⟩⟩ := answerTaskInput_cases hanswer
  · -- a response that was accepted before is accepted again, and changes nothing
    have hnot : ¬ dialogue.pending = true := by
      rw [pending_iff]
      rintro ⟨other, hother, hpending⟩
      cases hmarker.symm.trans hother
      exact hstatus hpending
    have hkept : record = dialogue.record := by
      obtain ⟨task, attempts⟩ := record
      exact congrArg₂ Record.mk hsame hattempts
    rw [if_neg hnot] at hdone
    cases hdone
    rw [hkept]
    exact ⟨h.running, h.held, h.unserved, h.waiting, h.delivered⟩
  · rw [if_pos (pending_iff.mpr ⟨marker, hmarker, hstatus⟩)] at hdone
    cases hdone
    have hinput : record.task.input = some (marker.received dialogue.record.task response) := by rw [htask]
    have hphase : record.task.status = dialogue.record.task.status := by rw [htask]
    have hreasons : record.task.pauseReasons = if dialogue.record.task.status = .exec
        then dialogue.record.task.pauseReasons
        else dialogue.record.task.pauseReasons.filter (· ≠ .input) := by rw [htask]
    obtain ⟨hconsumed, hcaused⟩ := h.waiting marker hmarker (by rw [hstatus]; decide)
    have hfree : PauseReason.input ∉ record.task.pauseReasons := by
      rw [hreasons]
      split
      · next hexec => exact h.running hexec
      · simp
    refine ⟨fun _ => hfree, fun hmem => absurd hmem hfree, fun hexec _ => ⟨_, hinput, fun hdelivered => ?_⟩,
      fun other hother hwaiting => ?_, fun other hother hdelivered _ => ?_⟩
    · simp [InputRequest.received, hphase.symm.trans hexec] at hdelivered
    · cases hinput.symm.trans hother
      have hexec : dialogue.record.task.status = .exec := by
        by_contra hne
        exact hwaiting (if_neg hne)
      exact ⟨hconsumed, by simp [hexec, hcaused]⟩
    · cases hinput.symm.trans hother
      have hne : dialogue.record.task.status ≠ .exec := by
        intro hexec
        simp [InputRequest.received, hexec] at hdelivered
      simp [hne]

theorem Inv.consume {dialogue dialogue' : Dialogue V} {C : Settings} {key : String} (h : dialogue.Inv)
    (happly : dialogue.apply C (.consume key) = some dialogue') : dialogue'.Inv := by
  obtain ⟨record, hrecord, hdone⟩ := Option.bind_eq_some_iff.mp happly
  obtain ⟨hconsume, _⟩ := Record.onTask_eq_some.mp hrecord
  cases hdone
  have hfewer : dialogue.unserved.filter (· ≠ key) ≠ [] → dialogue.unserved ≠ [] := by
    intro hne hnil
    exact hne (by rw [hnil]; rfl)
  obtain hsame | ⟨marker, hmarker, _, hstatus, htask⟩ := consumeTaskInput_cases hconsume
  · refine ⟨fun hexec => ?_, fun hmem => ?_, fun hexec hne => ?_, fun marker hmarker => ?_, fun marker hmarker => ?_⟩
    all_goals dsimp only at *
    · rw [hsame] at hexec ⊢
      exact h.running hexec
    · rw [hsame] at hmem
      obtain ⟨marker, hmarker, hpending⟩ := pending_iff.mp (h.held hmem)
      exact pending_iff.mpr ⟨marker, by rw [hsame]; exact hmarker, hpending⟩
    · rw [hsame] at hexec ⊢
      exact h.unserved hexec (hfewer hne)
    · rw [hsame] at hmarker
      exact h.waiting marker hmarker
    · rw [hsame] at hmarker
      exact h.delivered marker hmarker
  · have hinput : record.task.input = some {marker with status := .delivered, consumed := true} := by rw [htask]
    have hfree : PauseReason.input ∉ record.task.pauseReasons := by
      rw [htask]
      simp
    refine ⟨fun _ => hfree, fun hmem => absurd hmem hfree, fun _ _ => ⟨_, hinput, fun _ => rfl⟩,
      fun other hother hwaiting => ?_, fun other hother _ hfresh => ?_⟩
    · cases hinput.symm.trans hother
      exact absurd rfl hwaiting
    · cases hinput.symm.trans hother
      cases hfresh

theorem Inv.endRun {dialogue dialogue' : Dialogue V} {C : Settings} {session : Session V} {result : ExecutionResult}
    {awaits delegated blocked : Bool} {feedback : Option String} (h : dialogue.Inv)
    (happly : dialogue.apply C (.endRun session result awaits delegated blocked feedback) =
      some dialogue') : dialogue'.Inv := by
  obtain ⟨record, hrecord, hdone⟩ := Option.bind_eq_some_iff.mp happly
  obtain ⟨hfinish, _⟩ := Record.onTask_eq_some.mp hrecord
  have hfolded := Session.finishRun_folded hfinish
  cases hdone
  have hbefore : ∀ {marker'}, record.task.input = some marker' →
      ∃ marker, dialogue.record.task.input = some marker ∧ marker' = marker.folded := by
    intro marker' hmarker'
    rw [hfolded.input] at hmarker'
    obtain ⟨marker, hmarker, hsame⟩ := Option.map_eq_some_iff.mp hmarker'
    exact ⟨marker, hmarker, hsame.symm⟩
  refine ⟨fun hexec => absurd hexec hfolded.stopped, fun hmem => ?_, fun hexec => absurd hexec hfolded.stopped,
    fun marker' hmarker' hwaiting => ?_, fun marker' hmarker' hdelivered hfresh => ?_⟩
  · have hpending : ∃ marker, dialogue.record.task.input = some marker ∧ marker.status = .pending := by
      obtain hpending | ⟨hnone, hold⟩ := hfolded.held hmem
      · exact hpending
      · exact pending_iff.mp (h.held hold)
    obtain ⟨marker, hmarker, hstatus⟩ := hpending
    refine pending_iff.mpr ⟨marker, ?_, hstatus⟩
    exact hfolded.input.trans (by rw [hmarker, Option.map_some, InputRequest.folded_pending hstatus])
  · obtain ⟨marker, hmarker, rfl⟩ := hbefore hmarker'
    have hpending : marker.status = .pending := by
      by_contra hne
      rw [InputRequest.folded_delivered hne] at hwaiting
      exact hwaiting rfl
    obtain ⟨hconsumed, hcaused⟩ := h.waiting marker hmarker (by rw [hpending]; decide)
    rw [InputRequest.folded_consumed]
    refine ⟨hconsumed, ?_⟩
    have hnone : servesResponse result.runId dialogue.record.task = false := by
      simp [servesResponse, questionTurn, hmarker, hpending]
    simp [hnone, hcaused]
  · obtain ⟨marker, hmarker, rfl⟩ := hbefore hmarker'
    rw [InputRequest.folded_consumed] at hfresh
    show 1 ≤ if servesResponse result.runId dialogue.record.task = true then dialogue.caused + 1 else dialogue.caused
    cases hstatus : marker.status with
    | answered =>
      have hserves : servesResponse result.runId dialogue.record.task = true := by
        simp [servesResponse, hmarker, hstatus]
      rw [if_pos hserves]
      exact Nat.le_add_left 1 _
    | delivered =>
      have hcaused := h.delivered marker hmarker hstatus hfresh
      split
      · exact Nat.le_add_right_of_le hcaused
      · exact hcaused
    | pending =>
      rw [InputRequest.folded_pending hstatus, hstatus] at hdelivered
      cases hdelivered

theorem Inv.command {dialogue dialogue' : Dialogue V} {C : Settings} {command : Command} (h : dialogue.Inv)
    (happly : dialogue.apply C (.command command) = some dialogue') : dialogue'.Inv := by
  simp only [apply, Option.bind_eq_bind, Option.pure_def] at happly
  split at happly
  · next hdialogue =>
    obtain ⟨record, hrecord, hdone⟩ := Option.bind_eq_some_iff.mp happly
    by_cases hstart : command = .start
    · subst hstart
      obtain ⟨hexecution, _⟩ := Record.onTask_eq_some.mp hrecord
      obtain ⟨hpaused, _, htask⟩ := startExecution_eq_some.mp hexecution
      cases hdone
      have hfree : PauseReason.input ∉ record.task.pauseReasons := by
        rw [htask]
        intro hmem
        simp only [Task.paused, Bool.not_eq_false', List.isEmpty_iff] at hpaused
        rw [hpaused] at hmem
        cases hmem
      refine ⟨fun _ => hfree, fun hmem => absurd hmem hfree, fun _ hne => absurd rfl hne, fun marker hmarker => ?_,
        fun marker hmarker => ?_⟩
      · dsimp only at hmarker
        rw [htask] at hmarker
        exact h.waiting marker hmarker
      · dsimp only at hmarker
        rw [htask] at hmarker
        exact h.delivered marker hmarker
    · rw [if_neg hstart] at hdone
      cases hdone
      exact h.silent (command_silent hdialogue hstart hrecord)
  · cases happly

theorem Inv.step {dialogue dialogue' : Dialogue V} {C : Settings} {event : DialogueEvent V} (h : dialogue.Inv)
    (happly : dialogue.apply C event = some dialogue') : dialogue'.Inv := by
  cases event with
  | request key => exact h.request happly
  | answer key response => exact h.answer happly
  | consume key => exact h.consume happly
  | endRun session result awaits delegated blocked feedback => exact h.endRun happly
  | save key value =>
    cases happly
    exact ⟨h.running, h.held, h.unserved, h.waiting, h.delivered⟩
  | command command => exact h.command happly

/-! ### The responses in the context -/

/-- The responses that were accepted between two states are those appended to the context, in order. -/
def Appends (dialogue dialogue' : Dialogue V) : Prop :=
  ∃ responses, dialogue'.accepted = dialogue.accepted ++ responses ∧
    dialogue'.record.task.inputContext = responses.foldl appendContext dialogue.record.task.inputContext

omit [DecidableEq V] in
theorem Appends.none {dialogue dialogue' : Dialogue V} (haccepted : dialogue'.accepted = dialogue.accepted)
    (hcontext : dialogue'.record.task.inputContext = dialogue.record.task.inputContext) : Appends dialogue dialogue' :=
  ⟨[], by rw [haccepted, List.append_nil], hcontext⟩

omit [DecidableEq V] in
theorem Appends.trans {dialogue dialogue' dialogue'' : Dialogue V} (h : Appends dialogue dialogue')
    (k : Appends dialogue' dialogue'') : Appends dialogue dialogue'' := by
  obtain ⟨first, hfirst, hcontext⟩ := h
  obtain ⟨second, hsecond, hcontext'⟩ := k
  exact ⟨first ++ second, by rw [hsecond, hfirst, List.append_assoc], by rw [hcontext', hcontext, List.foldl_append]⟩

theorem appends_step {C : Settings} {dialogue dialogue' : Dialogue V} {event : DialogueEvent V}
    (happly : dialogue.apply C event = some dialogue') : Appends dialogue dialogue' := by
  cases event with
  | request key =>
    obtain ⟨record, hrecord, hdone⟩ := Option.bind_eq_some_iff.mp happly
    obtain ⟨reasons, htask, _⟩ := requestTaskInput_cases (Record.onTask_eq_some.mp hrecord).1
    cases hdone
    exact .none rfl (by rw [htask])
  | answer key response =>
    obtain ⟨record, hrecord, hdone⟩ := Option.bind_eq_some_iff.mp happly
    obtain ⟨marker, hmarker, ⟨hstatus, hsame⟩ | ⟨hstatus, htask⟩⟩ :=
      answerTaskInput_cases (Record.onTask_eq_some.mp hrecord).1
    · have hnot : ¬ dialogue.pending = true := by
        rw [pending_iff]
        rintro ⟨other, hother, hpending⟩
        cases hmarker.symm.trans hother
        exact hstatus hpending
      rw [if_neg hnot] at hdone
      cases hdone
      exact .none rfl (by rw [hsame])
    · rw [if_pos (pending_iff.mpr ⟨marker, hmarker, hstatus⟩)] at hdone
      cases hdone
      exact ⟨[response], rfl, by rw [htask]; rfl⟩
  | consume key =>
    obtain ⟨record, hrecord, hdone⟩ := Option.bind_eq_some_iff.mp happly
    cases hdone
    obtain hsame | ⟨marker, _, _, _, htask⟩ := consumeTaskInput_cases (Record.onTask_eq_some.mp hrecord).1
    · exact .none rfl (by rw [hsame])
    · exact .none rfl (by rw [htask])
  | endRun session result awaits delegated blocked feedback =>
    obtain ⟨record, hrecord, hdone⟩ := Option.bind_eq_some_iff.mp happly
    cases hdone
    exact .none rfl (Session.finishRun_folded (Record.onTask_eq_some.mp hrecord).1).inputContext
  | save key value =>
    cases happly
    exact .none rfl rfl
  | command command =>
    simp only [apply, Option.bind_eq_bind, Option.pure_def] at happly
    split at happly
    · next hdialogue =>
      obtain ⟨record, hrecord, hdone⟩ := Option.bind_eq_some_iff.mp happly
      by_cases hstart : command = .start
      · subst hstart
        obtain ⟨_, _, htask⟩ := startExecution_eq_some.mp (Record.onTask_eq_some.mp hrecord).1
        cases hdone
        exact .none rfl (by rw [htask])
      · cases hdone
        exact .none rfl (command_silent hdialogue hstart hrecord).inputContext
    · cases happly

/-! ### What becomes of a response -/

/-- The run that asked ends at EXEC after its response was delivered, and did not consume it. -/
def repeats (dialogue : Dialogue V) : DialogueEvent V → Bool
  | .endRun _ result .. =>
    dialogue.record.task.status == .exec && dialogue.record.task.input.any fun marker =>
      questionTurn marker result.runId
  | _ => false

/-- The run ends with an outcome: it has consumed the response to its last request, but not that
to a request which it replaced. -/
def drops (dialogue : Dialogue V) : DialogueEvent V → Bool
  | .endRun _ result awaits delegated _ _ =>
    dialogue.record.task.status == .exec && dialogue.record.task.input.any InputRequest.consumed &&
      !dialogue.unserved.isEmpty && !awaits && !delegated && result.disposition != .waitingForAuthorization
  | _ => false

/-- A response makes the Task execute again once. -/
theorem Inv.once {C : Settings} {dialogue dialogue' : Dialogue V} {event : DialogueEvent V} (h : dialogue.Inv)
    (hrepeats : dialogue.repeats event = false) (happly : dialogue.apply C event = some dialogue')
    (honce : dialogue.caused ≤ 1) : dialogue'.caused ≤ 1 := by
  cases event with
  | request key =>
    obtain ⟨record, _, hdone⟩ := Option.bind_eq_some_iff.mp happly
    cases hdone
    exact Nat.zero_le 1
  | answer key response =>
    obtain ⟨record, _, hdone⟩ := Option.bind_eq_some_iff.mp happly
    split at hdone
    · next hpending =>
      obtain ⟨marker, hmarker, hstatus⟩ := pending_iff.mp hpending
      obtain ⟨_, hcaused⟩ := h.waiting marker hmarker (by rw [hstatus]; decide)
      cases hdone
      dsimp only
      split
      · exact honce
      · rw [hcaused]
    · cases hdone
      exact honce
  | consume key =>
    obtain ⟨record, _, hdone⟩ := Option.bind_eq_some_iff.mp happly
    cases hdone
    exact honce
  | endRun session result awaits delegated blocked feedback =>
    obtain ⟨record, _, hdone⟩ := Option.bind_eq_some_iff.mp happly
    cases hdone
    dsimp only
    split
    · next hserves =>
      obtain ⟨marker, hmarker, hserves⟩ := (Option.any_eq_true _ _).mp hserves
      have hanswered : marker.status = .answered := by
        obtain hanswered | hturn := Bool.or_eq_true_iff.mp hserves
        · exact beq_iff_eq.mp hanswered
        · simp only [repeats, hmarker, Option.any_some] at hrepeats
          rw [Bool.and_comm, hrepeats] at hturn
          cases hturn
      rw [(h.waiting marker hmarker (by rw [hanswered]; decide)).2]
    · exact honce
  | save key value =>
    cases happly
    exact honce
  | command command =>
    obtain ⟨record, _, hdone⟩ : ∃ record : Record, True ∧ dialogue'.caused = dialogue.caused := by
      simp only [apply, Option.bind_eq_bind, Option.pure_def] at happly
      split at happly
      · obtain ⟨record, _, hdone⟩ := Option.bind_eq_some_iff.mp happly
        cases hdone
        exact ⟨record, trivial, rfl⟩
      · cases happly
    rw [hdone]
    exact honce

/-- A run that ends with an outcome leaves no response unserved. -/
theorem Inv.served {C : Settings} {dialogue dialogue' : Dialogue V} {session : Session V} {result : ExecutionResult}
    {awaits delegated blocked : Bool} {feedback : Option String} (h : dialogue.Inv)
    (hdrops : dialogue.drops (.endRun session result awaits delegated blocked feedback) = false)
    (happly : dialogue.apply C (.endRun session result awaits delegated blocked feedback) = some dialogue')
    (hactive : dialogue.record.task.status.terminal = false)
    (hterminal : dialogue'.record.task.status.terminal = true) :
    dialogue.unserved = [] := by
  obtain ⟨record, hrecord, hdone⟩ := Option.bind_eq_some_iff.mp happly
  obtain ⟨hfinish, _⟩ := Record.onTask_eq_some.mp hrecord
  cases hdone
  have hends := updateAfterExecution_cases hfinish
  cases hends with
  | waits _ hwaits =>
    rw [hwaits.status, interrupted_terminal] at hterminal
    exact absurd (hactive.symm.trans hterminal) (by decide)
  | children _ _ _ _ hdispatch _ =>
    rw [hdispatch] at hterminal
    cases hterminal
  | outcome hempty hnone hexec _ _ _ =>
    by_contra hne
    obtain ⟨marker, hmarker, hconsumed⟩ := h.unserved hexec hne
    rw [Bool.or_eq_false_iff] at hempty hnone
    have hdelivered : marker.status = .delivered := by
      have hwaits := hnone.1
      simp only [waitsForInput, Session.applyRunResult, hmarker, Option.any_some, Bool.not_eq_false', Bool.and_eq_true,
        beq_iff_eq] at hwaits
      exact hwaits.1
    have hopen : dialogue.unserved.isEmpty = false := by simpa using hne
    have hphase : dialogue.record.task.status = .exec := hexec
    simp [drops, hphase, hmarker, hconsumed hdelivered, hopen, hempty.1, hempty.2] at hdrops
    rw [hdrops] at hnone
    exact absurd hnone.2 (by decide)

/-- A run that repeats the turn of the question makes the Task execute a second time, and changes
nothing that keeps the next run from doing the same. -/
theorem Inv.repeats_again {C : Settings} {dialogue dialogue' : Dialogue V} {session : Session V}
    {result : ExecutionResult}
    {awaits delegated blocked : Bool} {feedback : Option String} (h : dialogue.Inv)
    (hrepeats : dialogue.repeats (.endRun session result awaits delegated blocked feedback) = true)
    (happly : dialogue.apply C (.endRun session result awaits delegated blocked feedback) = some dialogue') :
    2 ≤ dialogue'.caused ∧ dialogue'.record.task.status = .dispatch ∧
      dialogue'.record.task.input = dialogue.record.task.input := by
  obtain ⟨record, hrecord, hdone⟩ := Option.bind_eq_some_iff.mp happly
  obtain ⟨hfinish, _⟩ := Record.onTask_eq_some.mp hrecord
  have hends := updateAfterExecution_cases hfinish
  have hfolded := Session.finishRun_folded hfinish
  cases hdone
  simp only [repeats, Bool.and_eq_true, beq_iff_eq, Option.any_eq_true] at hrepeats
  obtain ⟨hexec, marker, hmarker, hturn⟩ := hrepeats
  have hquestion := hturn
  simp only [questionTurn, Bool.and_eq_true, beq_iff_eq, Bool.not_eq_true'] at hquestion
  obtain ⟨⟨⟨hdelivered, hfresh⟩, _⟩, _⟩ := hquestion
  have hserves : servesResponse result.runId dialogue.record.task = true := by
    simp [servesResponse, hmarker, hturn, hexec]
  have hcaused := h.delivered marker hmarker hdelivered hfresh
  refine ⟨?_, ?_, ?_⟩
  · dsimp only
    rw [if_pos hserves]
    exact Nat.succ_le_succ hcaused
  · have hwaiting : waitsForInput result.runId (session.applyRunResult result dialogue.record.task) = true := by
      simp [waitsForInput, Session.applyRunResult, hmarker, hturn]
    cases hends with
    | waits _ hwaits => exact hwaits.status.trans (interrupted_of_exec hexec)
    | children _ hnone _ _ _ _ =>
      rw [hwaiting] at hnone
      cases hnone
    | outcome _ hnone _ _ _ _ =>
      rw [hwaiting] at hnone
      cases hnone
  · show record.task.input = dialogue.record.task.input
    rw [hfolded.input, hmarker, Option.map_some, InputRequest.folded, if_neg (by rw [hdelivered]; decide)]

/-- A run that drops a response ends the Task. -/
theorem Inv.drops_ends {C : Settings} {dialogue dialogue' : Dialogue V} {session : Session V} {result : ExecutionResult}
    {awaits delegated blocked : Bool} {feedback : Option String} (h : dialogue.Inv)
    (hdrops : dialogue.drops (.endRun session result awaits delegated blocked feedback) = true)
    (happly : dialogue.apply C (.endRun session result awaits delegated blocked feedback) = some dialogue') :
    dialogue'.record.task.status.terminal = true ∧ dialogue'.unserved ≠ [] := by
  obtain ⟨record, hrecord, hdone⟩ := Option.bind_eq_some_iff.mp happly
  obtain ⟨hfinish, _⟩ := Record.onTask_eq_some.mp hrecord
  have hends := updateAfterExecution_cases hfinish
  cases hdone
  simp only [drops, Bool.and_eq_true, beq_iff_eq, Option.any_eq_true, Bool.not_eq_true', bne_iff_ne] at hdrops
  obtain ⟨⟨⟨⟨⟨_, marker, hmarker, hconsumed⟩, hunserved⟩, hawaits⟩, hdelegated⟩, hauthorization⟩ := hdrops
  refine ⟨?_, by simpa using hunserved⟩
  have hdelivered : marker.status = .delivered := by
    by_contra hne
    rw [(h.waiting marker hmarker hne).1] at hconsumed
    cases hconsumed
  have hnone : waitsForInput result.runId (session.applyRunResult result dialogue.record.task) = false := by
    simp [waitsForInput, questionTurn, Session.applyRunResult, hmarker, hdelivered, hconsumed]
  cases hends with
  | waits hwaits _ =>
    rw [hnone, Bool.false_or] at hwaits
    exact absurd (beq_iff_eq.mp hwaits) hauthorization
  | children hchildren _ _ _ _ _ =>
    rw [hawaits, hdelegated] at hchildren
    cases hchildren
  | outcome _ _ _ _ hstatus _ => exact hstatus ▸ runOutcome_terminal result blocked

/-- A key that the session did not change is as another session wrote it. -/
theorem endRun_merged {C : Settings} {dialogue dialogue' : Dialogue V} {session : Session V} {result : ExecutionResult}
    {awaits delegated blocked : Bool} {feedback : Option String}
    (happly : dialogue.apply C (.endRun session result awaits delegated blocked feedback) =
      some dialogue') (key : String)
    (hkey : session.mine.lookup key = session.before.lookup key) :
        dialogue'.others.lookup key = dialogue.others.lookup key := by
  obtain ⟨record, _, hdone⟩ := Option.bind_eq_some_iff.mp happly
  cases hdone
  exact (ThreeWay.lookup_merge _ _ _ key).trans (ThreeWay.key_kept _ hkey)

/-- So are the request, which is delivered at most, and the responses. -/
theorem endRun_request {C : Settings} {dialogue dialogue' : Dialogue V} {session : Session V} {result : ExecutionResult}
    {awaits delegated blocked : Bool} {feedback : Option String}
    (happly : dialogue.apply C (.endRun session result awaits delegated blocked feedback) = some dialogue') :
    dialogue'.record.task.input = dialogue.record.task.input.map InputRequest.folded ∧
      dialogue'.record.task.inputContext = dialogue.record.task.inputContext := by
  obtain ⟨record, hrecord, hdone⟩ := Option.bind_eq_some_iff.mp happly
  have hfolded := Session.finishRun_folded (Record.onTask_eq_some.mp hrecord).1
  cases hdone
  exact ⟨hfolded.input, hfolded.inputContext⟩

/-- A Task that waits for a response is not ended by its run. -/
theorem endRun_pending {C : Settings} {dialogue dialogue' : Dialogue V} {session : Session V} {result : ExecutionResult}
    {awaits delegated blocked : Bool} {feedback : Option String}
    (happly : dialogue.apply C (.endRun session result awaits delegated blocked feedback) = some dialogue')
    (hpending : dialogue.pending = true) (hactive : dialogue.record.task.status.terminal = false) :
    dialogue'.record.task.status.terminal = false := by
  obtain ⟨record, hrecord, hdone⟩ := Option.bind_eq_some_iff.mp happly
  have hfolded := Session.finishRun_folded (Record.onTask_eq_some.mp hrecord).1
  cases hdone
  obtain ⟨marker, hmarker, hstatus⟩ := pending_iff.mp hpending
  refine Bool.eq_false_iff.mpr fun hterminal => ?_
  have hnone := (hfolded.ended hterminal hactive).1
  simp [waitsForInput, hmarker, hstatus] at hnone

end Dialogue

/-- A run of the dialogue whose steps meet `allowed`. -/
abbrev DialogueRuns {V : Type} [DecidableEq V] (C : Settings) (allowed : Dialogue V → DialogueEvent V → Prop) :
    Dialogue V → List (DialogueEvent V) → Dialogue V → Prop :=
  Steps (Guarded (Executes (Dialogue.apply C)) allowed)

/-- What the input requests promise of every state that a run reaches. -/
structure InputKept {V : Type} [DecidableEq V] (C : Settings)
    (allowed : Dialogue V → DialogueEvent V → Prop) : Prop where
  /-- The end of a run does not end a Task that waits for a response. -/
  pending : ∀ founded events dialogue session result awaits delegated blocked feedback dialogue',
    Dialogue.Founded founded →
    DialogueRuns C allowed founded events dialogue →
    dialogue.apply C (.endRun session result awaits delegated blocked feedback) = some dialogue' →
      dialogue.pending = true →
    dialogue.record.task.status.terminal = false → dialogue'.record.task.status.terminal = false
  /-- Every response that was accepted is appended once, in order. -/
  appended : ∀ founded events dialogue, Dialogue.Founded founded → DialogueRuns C allowed founded events dialogue →
    dialogue.record.task.inputContext = dialogue.accepted.foldl appendContext founded.record.task.inputContext
  /-- Nothing but an open request holds the Task for input. -/
  freed : ∀ founded events dialogue, Dialogue.Founded founded → DialogueRuns C allowed founded events dialogue →
    PauseReason.input ∈ dialogue.record.task.pauseReasons → dialogue.pending = true
  /-- A run that ends the Task leaves no response that was neither consumed nor followed by an execution. -/
  served : ∀ founded events dialogue session result awaits delegated blocked feedback dialogue',
    Dialogue.Founded founded →
    DialogueRuns C allowed founded events dialogue →
    allowed dialogue (.endRun session result awaits delegated blocked feedback) →
    dialogue.apply C (.endRun session result awaits delegated blocked feedback) = some dialogue' →
    dialogue.record.task.status.terminal = false → dialogue'.record.task.status.terminal = true → dialogue.unserved = []
  /-- The end of a run keeps what other sessions wrote to the keys that its session did not change. -/
  merged : ∀ founded events dialogue session result awaits delegated blocked feedback dialogue',
    Dialogue.Founded founded →
    DialogueRuns C allowed founded events dialogue →
    dialogue.apply C (.endRun session result awaits delegated blocked feedback) = some dialogue' →
    (∀ key, session.mine.lookup key = session.before.lookup key →
      dialogue'.others.lookup key = dialogue.others.lookup key) ∧
      dialogue'.record.task.input = dialogue.record.task.input.map InputRequest.folded ∧
      dialogue'.record.task.inputContext = dialogue.record.task.inputContext
  /-- The response to a request makes the Task execute again at most once. -/
  once : ∀ founded events dialogue, Dialogue.Founded founded → DialogueRuns C allowed founded events dialogue →
    dialogue.caused ≤ 1

/-- The input requests keep their promises in the runs where no execution that follows the delivery
of a response ends as the turn of its question, and no run ends the Task without the response to a
request that it replaced. The first executes the Task a second time, and leaves the request as it
was; the second drops the response. -/
theorem input_while_not_repeated {V : Type} [DecidableEq V] (C : Settings) :
    InputKept C (fun (dialogue : Dialogue V) event => dialogue.repeats event = false ∧ dialogue.drops event = false) ∧
      ∀ (founded : Dialogue V) events dialogue session result awaits delegated blocked feedback dialogue',
        Dialogue.Founded founded → Steps (Executes (Dialogue.apply C)) founded events dialogue →
        dialogue.apply C (.endRun session result awaits delegated blocked feedback) = some dialogue' →
        (dialogue.repeats (.endRun session result awaits delegated blocked feedback) = true →
          2 ≤ dialogue'.caused ∧ dialogue'.record.task.status = .dispatch ∧
            dialogue'.record.task.input = dialogue.record.task.input) ∧
        (dialogue.drops (.endRun session result awaits delegated blocked feedback) = true →
          dialogue'.record.task.status.terminal = true ∧ dialogue'.unserved ≠ []) := by
  have hreached : ∀ {founded : Dialogue V} {events dialogue}, Dialogue.Founded founded →
      Steps (Executes (Dialogue.apply C)) founded events dialogue → dialogue.Inv := by
    intro founded events dialogue hfounded hrun
    exact hrun.invariant (fun _ _ _ hinv hstep => hinv.step hstep) hfounded.inv
  refine ⟨⟨?_, ?_, ?_, ?_, ?_, ?_⟩, ?_⟩
  · intro founded events dialogue session result awaits delegated blocked feedback dialogue' _ _ happly
    exact Dialogue.endRun_pending happly
  · intro founded events dialogue hfounded hrun
    obtain ⟨responses, haccepted, hcontext⟩ :=
      hrun.related (fun _ => Dialogue.Appends.none rfl rfl) (fun _ _ _ => Dialogue.Appends.trans)
        (fun _ _ _ hstep => Dialogue.appends_step hstep.2)
    rw [haccepted, hfounded.accepted, List.nil_append]
    exact hcontext
  · intro founded events dialogue hfounded hrun
    exact (hreached hfounded hrun.unguard).held
  · intro founded events dialogue session result awaits delegated blocked feedback dialogue'
      hfounded hrun hallowed happly
    exact (hreached hfounded hrun.unguard).served hallowed.2 happly
  · intro founded events dialogue session result awaits delegated blocked feedback dialogue' _ _ happly
    exact ⟨Dialogue.endRun_merged happly, Dialogue.endRun_request happly⟩
  · intro founded events dialogue hfounded hrun
    have hboth : dialogue.Inv ∧ dialogue.caused ≤ 1 := by
      refine hrun.invariant (P := fun dialogue => dialogue.Inv ∧ dialogue.caused ≤ 1) ?_
        ⟨hfounded.inv, by simp [hfounded.caused]⟩
      intro before event after hbefore hstep
      exact ⟨hbefore.1.step hstep.2, hbefore.1.once hstep.1.1 hstep.2 hbefore.2⟩
    exact hboth.2
  · intro founded events dialogue session result awaits delegated blocked feedback dialogue' hfounded hrun happly
    have hinv := hreached hfounded hrun
    exact ⟨fun hrepeats => hinv.repeats_again hrepeats happly, fun hdrops => hinv.drops_ends hdrops happly⟩

/-- A Task in the run 5, which has saved a checkpoint. -/
def interviewing : Dialogue String where
  record := ⟨{
    status := .exec
    lease := some ⟨7, 120⟩
    attemptCount := 1
    identity := some 5
    checkpoint := some ⟨5, "safe"⟩}, [{number := 1, phase := .dispatch, token := 7}]⟩
  others := ∅

/-- The end of a failed run, whose session has loaded the row as it is. -/
def failedTurn : DialogueEvent String :=
  .endRun ⟨some 5, some ⟨5, "safe"⟩, ∅, ∅⟩ {success := false, runId := some 5} false false false none

/-- The run asks, is answered, and fails; the Task resumes it, it fails again, and the Task is to
execute once more: no failure is counted, and the request is as it was. -/
theorem failed_turn_is_repeated : ¬InputKept .shipped fun (_ : Dialogue String) _ => True := by
  intro hkept
  let events : List (DialogueEvent String) :=
    [.request "age", .answer "age" "37", failedTurn, .command (.complete 10 7), .command (.claim 11 8), .command .start,
      .command (.activate 11 8 9), failedTurn]
  have hruns : (events.foldlM (Dialogue.apply .shipped) interviewing).any
      (fun dialogue => dialogue.caused == 2) = true := by
    decide +kernel
  obtain ⟨dialogue, hdialogue, hcaused⟩ := (Option.any_eq_true _ _).mp hruns
  have honce := hkept.once interviewing events dialogue ⟨rfl, by decide, rfl, rfl, rfl⟩
    (.guard (fun _ _ => trivial) (.of_foldlM hdialogue))
  rw [beq_iff_eq.mp hcaused] at honce
  exact absurd honce (by decide)

end Galaris.Tasks
