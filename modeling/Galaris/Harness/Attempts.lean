import Galaris.Base.Transition
import Galaris.Harness.Journal

/-! The process attempts of one logical run (`call_tool` of `wrap_toolsets`).

The calls of a batch run side by side in one process, and share its journal. The lock of
the journal is held from a change to the end of its save, so that between a change and
its save there is only a crash, or the save that raises. A process ends at any time, and
leaves what was saved. `entered` has the records whose dispatch was entered, each as
often as it was; a dispatch that ends in a request for an authorization is not among
them. -/
namespace Galaris.Harness

open Transition

/-! ### A call in a process -/

/-- How far a call is that is not answered from the journal; `saving` holds the lock. -/
inductive Stage
  | queued
  | saving (i : Nat) (dispatches : Bool)
  | ready (i : Nat)
  | running (i : Nat)
  | done
  deriving DecidableEq, Repr

structure Flight where
  call : Call
  stage : Stage
  deriving DecidableEq, Repr

/-- One process attempt, which has prepared its resume. -/
structure Process where
  journal : Journal
  scope : Option String
  approvals : List String := []
  flights : List Flight := []
  deriving DecidableEq, Repr

structure Run where
  saved : Option Checkpoint := none
  process : Option Process := none
  entered : List Nat := []

/-- How `wrapped.call_tool` ends; `reports` says that the result reports a failure. -/
inductive Answer
  | returned (result : ToolResult) (reports : Bool)
  | raised (text : String)
  deriving DecidableEq, Repr

/-- `tool_error_outcome`; `rejected` says that the tool rejected the call before its effect. -/
def Answer.toolErrorOutcome (answer : Answer) (policy : EffectPolicy) (rejected : Bool) : Option Outcome :=
  match answer with
  | .returned _ false => none
  | _ => some (if rejected || policy == .read then .rejected else .unknown)

/-- The result that is recorded (`_tool_error_result`, `_returned_tool_error`). -/
def Answer.recorded (answer : Answer) (outcome : Option Outcome) : ToolResult :=
  match answer, outcome with
  | .returned result _, none => result
  | .returned _ _, some outcome => .toolError outcome "The tool reported a failure."
  | .raised text, outcome => .toolError (outcome.getD .unknown) text

namespace Process

def locked (process : Process) : Bool := process.flights.any fun flight =>
  match flight.stage with
  | .saving _ _ => true
  | _ => false

def setStage (k : Nat) (stage : Stage) (process : Process) : Process :=
  {process with flights := process.flights.modify k fun flight => {flight with stage := stage}}

/-- The deferred call runs only where it is approved. -/
def held (call : Call) (process : Process) : Bool :=
  (process.journal.effects.any fun effect => effect.status == .waitingForAuthorization &&
    some effect.toolCallId == call.callId && effect.signature == call.signature) &&
    !(call.callId.any process.approvals.contains)

end Process

/-! ### The system -/

inductive RunEvent
  | resume (recover : Effect → Recovery) (scope : Option String) (native : String → EffectPolicy)
  | defer (status : Nat → AuthorizationStatus)
  | call (call : Call)
  | start (k fresh now : Nat)
  | save (k : Nat)
  | saveFails (k : Nat)
  | dispatch (k : Nat)
  | answer (k : Nat) (answer : Answer) (rejected waits : Bool)
  | authorize (k requestId : Nat) (continuation : Option String)
  | abandon (k : Nat)
  | interrupt (messages : History)
  | rebase
  | crash

namespace Run

/-- A step of the process that is there. -/
def inProcess (run : Run) (f : Process → Option Run) : Option Run := run.process.bind f

/-- A step of one call. -/
def inFlight (run : Run) (k : Nat) (f : Process → Flight → Option Run) : Option Run :=
  run.process.bind fun process => process.flights[k]?.bind (f process)

def apply (run : Run) : RunEvent → Option Run
  | .resume recover scope native =>
    if run.process.isSome then none
    else
      let prepared := prepareResume recover scope native (load run.saved)
      some {run with
        saved := if prepared.1.repaired then some (prepared.1.checkpoint scope) else run.saved
        process := if prepared.2.isNone then some {journal := prepared.1, scope := scope} else none}
  | .defer status => run.inProcess fun process =>
    if !process.flights.isEmpty then none
    else
      match deferredResults status process.journal with
      | (journal, .ok approvals) =>
        some {run with process := some {process with journal := journal, approvals := approvals}}
      | (_, .error _) => some {run with process := none}
  | .call call => run.inProcess fun process =>
    if process.held call then none
    else
      match takeReplay call process.journal with
      | some (_, journal) => some {run with process := some {process with journal := journal}}
      | none => some {run with process := some {process with flights := process.flights ++ [⟨call, .queued⟩]}}
  | .start k fresh now => run.inFlight k fun process flight =>
    if flight.stage ≠ .queued ∨ process.locked then none
    else
      let begun := started flight.call process.scope fresh now process.journal
      some {run with process := some ({process with journal := begun.1}.setStage k (.saving begun.2.1 begun.2.2))}
  | .save k => run.inFlight k fun process flight =>
    match flight.stage with
    | .saving i dispatches => some {run with
        saved := some (process.journal.checkpoint process.scope)
        process := some (process.setStage k (if dispatches then .ready i else .done))}
    | _ => none
  | .saveFails k => run.inFlight k fun process flight =>
    match flight.stage with
    | .saving _ _ => some {run with process := some (process.setStage k .done)}
    | _ => none
  | .dispatch k => run.inFlight k fun process flight =>
    match flight.stage with
    | .ready i => some {run with process := some (process.setStage k (.running i)), entered := i :: run.entered}
    | _ => none
  | .answer k answer rejected waits => run.inFlight k fun process flight =>
    match flight.stage with
    | .running i =>
      if process.locked then none
      else
        let toolError := answer.toolErrorOutcome flight.call.policy rejected
        let journal := {process.journal with
          waitingForChildren := process.journal.waitingForChildren || (waits && toolError.isNone)}
        let journal := completed i flight.call (answer.recorded toolError) toolError journal
        some {run with process := some ({process with journal := journal}.setStage k (.saving i false))}
    | _ => none
  | .authorize k requestId continuation => run.inFlight k fun process flight =>
    match flight.stage with
    | .running i =>
      if process.locked then none
      else some {run with
        process := some ({process with
          journal := waitingForAuthorization i requestId continuation process.journal}.setStage k
          (.saving i false))
        entered := run.entered.erase i}
    | _ => none
  | .abandon k => run.inFlight k fun process flight =>
    match flight.stage with
    | .saving _ _ => none
    | _ => some {run with process := some (process.setStage k .done)}
  | .interrupt messages => run.inProcess fun process =>
    if process.locked || messages.isEmpty then none
    else
      let journal := {process.journal with history := messages}
      some {run with
        saved := some (journal.checkpoint process.scope)
        process := some {process with journal := journal}}
  | .rebase =>
    if run.process.isSome then none
    else run.saved.bind fun checkpoint => (Harness.rebase checkpoint).map fun checkpoint =>
      {run with saved := some checkpoint}
  | .crash => some {run with process := none}

end Run

/-- A run of the attempts. -/
abbrev Attempts : Run → List RunEvent → Run → Prop := Steps (Executes Run.apply)

end Galaris.Harness
