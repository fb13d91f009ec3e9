import Galaris.Process.Bpmn.Accepted
import Galaris.Process.Native.Moves

/-! The debugger of a typed run (`control_run`, `native_runs.py`; `get_run`, `native_engine.py`).

A command changes the controls of the run; a pass of the engine visits the rows of the frontier and asks the
controls whether a ready one may be admitted. A step admits one row, its root, and then the rows below it.
`stepRoot_active` says when the root stays in the frontier, `step_admits` what a step admits. -/
namespace Galaris.Process.Native
open Bpmn Transition

/-! ### Commands -/

inductive Action
  | pause | resume | step | breakpoints
  deriving DecidableEq, Repr

/-- What a command answers, without the identity of the run. -/
structure ControlReceipt where
  paused : Bool
  breakpoints : List String
  debuggerRevision : Nat
  deriving DecidableEq, Repr

/-- The debugger's entry of the journal under a command key. -/
structure ControlEvent where
  key : String
  action : Action
  nodes : List String
  receipt : ControlReceipt
  deriving DecidableEq, Repr

/-- A run with its debugger: `status` is the one of the row, which the refresh keeps. -/
structure Debugged where
  run : Run := {}
  status : Status := .queued
  revision : Nat := 0
  journal : List ControlEvent := []

mutual

/-- The nodes of the graph and of its bodies. -/
def knownNodes : Workflow → List String
  | ⟨_, nodes, _, _, _, _, _⟩ => nodes.map (·.id) ++ innerNodes nodes

def innerNodes : List Node → List String
  | [] => []
  | node :: rest => bodyNodes node ++ innerNodes rest

def bodyNodes : Node → List String
  | ⟨_, _, _, _, _, _, some body, _, _⟩ => knownNodes body
  | ⟨_, _, _, _, _, _, none, _, _⟩ => []

end

/-- The controls after a command that is neither refused nor a repetition. -/
def Run.controlled (run : Run) (action : Action) (nodes : List String) : Run :=
  match action with
  | .breakpoints => {run with breakpoints := nodes.eraseDups}
  | _ => {run with
      paused := action != .resume
      stepPending := action == .step
      stepRoot := if action = .step then run.stepRoot else none
      breakpointSkip := if action = .resume && run.breakpointHit.isSome then run.breakpointHit else run.breakpointSkip}

/-- `control_run`, once the caller may control the run. -/
def control (G : Workflow) (s : Debugged) (key : Option String) (expected : Option Nat)
    (action : Action) (nodes : List String) :
    Except String (Debugged × ControlReceipt) :=
  match key.bind fun key => s.journal.find? fun event => event.key == key with
  | some previous =>
    if previous.action != action ||
      previous.nodes != nodes then .error "The command key belongs to a different debugger command"
    else .ok (s, previous.receipt)
  | none =>
    if s.status.isTerminal then .error "A terminal run cannot be controlled"
    else if (s.run.status == .unknown || s.run.error.any (·.1 == "effect_outcome_unknown")) &&
      (action == .resume || action == .step) then
      .error "An uncertain Tool effect requires reconciliation before another admission"
    else if expected.any (· != s.revision) then .error "Debugger state changed; refresh before issuing another command"
    else if action == .breakpoints && !nodes.all (knownNodes G).contains then .error "Unknown breakpoint node"
    else if action == .step && s.run.stepRoot.isSome then .error "The current step has not completed"
    else
      let run := s.run.controlled action nodes
      let receipt : ControlReceipt := ⟨run.paused, run.breakpoints, s.revision + 1⟩
      let journal := s.journal ++ (key.map fun key => ⟨key, action, nodes, receipt⟩).toList
      .ok ({s with run, revision := s.revision + 1, journal}, receipt)

/-! ### Passes -/

/-- What the controls say to a row of the frontier, with what they have become. -/
inductive Passage
  | held (run : Run)
  /-- A ready row is `admitted` where it is no descendant of the root. -/
  | passed (run : Run) (admitted : Bool)

/-- The row is below the root of a step. -/
def Run.descends (run : Run) (o : Occurrence) : Bool := run.stepRoot.any fun root => o.context.ancestors.contains root

/-- The admission of a row in `get_run`. -/
def Run.admission (run : Run) (o : Occurrence) (ancestorPaused : Bool) : Passage :=
  if o.status != .ready then .passed run false
  else if ancestorPaused then .held run
  else
    let descendant := run.descends o
    if run.paused && !descendant && !run.stepPending then .held run
    else if run.breakpoints.contains o.nodeKey && !descendant && !run.stepPending &&
      run.breakpointSkip != some o.id then
      .held {run with paused := true, breakpointHit := some o.id}
    else
      let skipped := if run.breakpointSkip = some o.id
        then {run with breakpointSkip := none, breakpointHit := none} else run
      let stepped := if run.stepPending
        then {skipped with stepPending := false, stepRoot := some o.id, paused := true} else skipped
      .passed stepped !descendant

/-- The engine goes on with the run; one that has not ended and is not cancelled is running. -/
def Debugged.live (s : Debugged) : Bool := !s.status.isTerminal && s.run.status == .running && !s.run.cancelRequested

/-- The end of a pass: nothing is left but convergences and loops that wait. -/
def Run.settle (G : Workflow) (run : Run) (ancestorPaused : Bool) : Run :=
  let stuck (o : Occurrence) : Bool :=
    o.status == .waiting &&
      match localGraph G o.context.bodyPath with
      | some graph =>
        match graph.node o.nodeKey with
        | some node => node.kind == .parallel || node.kind.isLoop || converges graph node.id && !o.context.converged
        | none => false
      | none => false
  if !run.paused && !ancestorPaused && !run.active.isEmpty && run.active.all stuck then
    {run with
      status := .error
      error := some ("unmatched_parallel_join", "Parallel convergence cannot receive the remaining branches")}
  else run

/-- What happens to a run. -/
inductive Event
  | control (key : Option String) (expected : Option Nat) (action : Action) (nodes : List String)
  /-- `_start_run`. -/
  | start (input : Json) (data : Value) (files : Json)
  /-- A pass visits a row; `ancestorPaused` is `_ancestor_paused`. -/
  | visit (id : Nat) (ancestorPaused : Bool) (given : Given)
  | settle (ancestorPaused : Bool)
  /-- `cancel_run`, once everything has stopped or not. -/
  | cancel (stopped failure : Bool)
  /-- The row of the run takes a status over. -/
  | refresh (status : Status)

section System
variable (E : Evaluator) (G : Workflow)

/-- A row of the frontier is visited. -/
def Debugged.visited (s : Debugged) (id : Nat) (ancestorPaused : Bool) (given : Given) : Debugged :=
  match s.run.find id with
  | some o =>
    if s.live && o.active then
      match s.run.admission o ancestorPaused with
      | .held run => {s with run}
      | .passed run _ => {s with run := Native.step E G run o given}
    else s
  | none => s

def next (s : Debugged) : Event → Debugged
  | .control key expected action nodes =>
    match control G s key expected action nodes with
    | .ok (s, _) => s
    | .error _ => s
  | .start input data files =>
    if s.run.occurrences.isEmpty && !s.run.cancelRequested && !s.status.isTerminal then
      match G.nodes.find? fun node => node.kind == .start with
      | some start => {s with run := s.run.enqueue start.id {values := {input, data, files}}}
      | none => s
    else s
  | .visit id ancestorPaused given => s.visited E G id ancestorPaused given
  | .settle ancestorPaused => if s.live then {s with run := s.run.settle G ancestorPaused} else s
  | .cancel stopped failure =>
    let status : Status := if stopped then if failure then .error else .cancelled else .cancelling
    {s with run := {s.run with cancelRequested := true, paused := true, status}}
  | .refresh status => {s with status}

end System

/-! ### The root of a step -/

/-- The row is still in the frontier. -/
def Run.Holds (run : Run) (id : Nat) : Prop := ∃ o, run.find id = some o ∧ o.active = true

/-- A root, unless it is `id`, is still in the frontier. -/
def RootedBut (run : Run) (id : Nat) : Prop := ∀ root, run.stepRoot = some root → root ≠ id → run.Holds root

/-- The root of a step is still in the frontier. -/
def Rooted (run : Run) : Prop := ∀ root, run.stepRoot = some root → run.Holds root

section Rows
variable {run : Run} {o : Occurrence}

theorem Rooted.but (h : Rooted run) (id : Nat) : RootedBut run id := fun root hroot _ => h root hroot

theorem find_map (run : Run) {change : Occurrence → Occurrence} (hid : ∀ o, (change o).id = o.id) (id : Nat) :
    (run.occurrences.map change).find? (fun o => o.id == id) = (run.find id).map change := by
  rw [Run.find, List.find?_map]
  refine congrArg (Option.map change) (congrArg (fun p => run.occurrences.find? p) (funext fun o => ?_))
  rw [Function.comp_apply, hid]

theorem Run.Holds.update {id : Nat} (h : run.Holds id) (hrow : id = o.id → o.active = true) :
    (run.update o).Holds id := by
  obtain ⟨row, hfind, hactive⟩ := h
  have hsame : row.id = id := by simpa using List.find?_some hfind
  have hfind' : (run.update o).find id = some (if row.id = o.id then o else row) := by
    rw [Run.update, Run.find, find_map run (fun other => by split <;> simp_all), hfind]
    rfl
  refine ⟨_, hfind', ?_⟩
  split
  case isTrue heq => exact hrow (hsame.symm.trans heq)
  case isFalse => exact hactive

theorem Run.Holds.enqueue {id : Nat} (h : run.Holds id) (key : String) (context : Context) :
    (run.enqueue key context).Holds id := by
  obtain ⟨row, hfind, hactive⟩ := h
  refine ⟨row, ?_, hactive⟩
  rw [Run.enqueue, Run.find, List.find?_append]
  have hfound : run.occurrences.find? (fun o => o.id == id) = some row := hfind
  rw [hfound, Option.some_or]

/-- A row is rewritten: it may leave the frontier where it is no root. -/
theorem Rooted.update (h : Rooted run) (hrow : run.stepRoot = some o.id → o.active = true) : Rooted (run.update o) :=
  fun root hroot => (h root hroot).update fun heq => hrow (heq ▸ hroot)

theorem Rooted.enqueue (h : Rooted run) (key : String) (context : Context) : Rooted (run.enqueue key context) :=
  fun root hroot => (h root hroot).enqueue key context

/-- Completion clears the root it completes. -/
theorem RootedBut.finish (h : RootedBut run o.id) (values : Values) (flows : List Flow) :
    Rooted (Native.finish run o values flows) := by
  have hrows : ∀ (flows : List Flow) (context : Context) (run : Run), RootedBut run o.id →
      RootedBut (flows.foldl (fun run flow =>
          run.enqueue flow.target {context with incomingFlow := some flow.id}) run) o.id := by
    intro flows context
    induction flows with
    | nil => exact fun run h => h
    | cons flow rest ih => exact fun run h => ih _ fun root hroot hne => (h root hroot hne).enqueue flow.target _
  intro root hroot
  have hall := hrows flows (successorContext o values flows.length) run h
  rw [Native.finish] at hroot
  dsimp only at hroot
  split at hroot
  case isTrue => exact nomatch hroot
  case isFalse hother => exact hall root hroot fun heq => hother (heq ▸ hroot)

end Rows

/-- The controls that a call does not touch. -/
structure SameControls (run run' : Run) : Prop where
  stepRoot : run'.stepRoot = run.stepRoot
  stepPending : run'.stepPending = run.stepPending
  paused : run'.paused = run.paused
  cancelRequested : run'.cancelRequested = run.cancelRequested

theorem SameControls.refl (run : Run) : SameControls run run := ⟨rfl, rfl, rfl, rfl⟩

/-- A call leaves the root in the frontier; one that raises may have given up its own row only. -/
def Sound (run : Run) (id : Nat) : Result Run → Prop
  | .ok run' => Rooted run'
  | .error failure => failure.run.stepRoot = run.stepRoot ∧ RootedBut failure.run id

section Calls
variable {E : Evaluator} {graph : Workflow} {node : Node} {run : Run} {o : Occurrence}

theorem attempt_sound {α : Type} {start : Run} {id : Nat} (h : RootedBut run id)
    (hroot : run.stepRoot = start.stepRoot) {x : Except String α}
    {f : α → Result Run} (hf : ∀ a, x = .ok a → Sound start id (f a)) : Sound start id (attempt run x >>= f) := by
  cases x with
  | ok a => exact hf a rfl
  | error message => exact ⟨hroot, h⟩

theorem complete_sound {start : Run} {id : Nat} (h : RootedBut run id)
    (hroot : run.stepRoot = start.stepRoot) (hid : o.id = id) (values : Values) (forward : Bool) :
    Sound start id (complete E graph node run o values forward) := by
  subst hid
  have hrow : RootedBut (run.update {o with status := .success, output := values.output}) o.id :=
    fun root hroot hne => (h root hroot hne).update fun heq => absurd heq hne
  rw [complete]
  exact attempt_sound hrow hroot fun flows _ => hrow.finish values flows

/-- The root goes on where the arrivals converge: it is none of them, or the one that goes on for all. -/
def Spares (graph : Workflow) (run : Run) (o : Occurrence) : Prop :=
  blockedAt graph run o = true ∨ ∀ root, run.stepRoot = some root →
    (∀ item ∈ arrivalsAt run o, item.id ≠ root) ∨ root = (canonicalOf o (arrivalsAt run o)).id

theorem joinTyped_rooted (h : Rooted run) (hspares : Spares graph run o) {run' : Run} {proceed : Bool}
    (hjoin : joinTyped graph run o = .ok (run', proceed)) : Rooted run' ∧ run'.stepRoot = run.stepRoot := by
  obtain ⟨-, rfl, -⟩ | ⟨results, hopen, -, rfl, -⟩ := joinTyped_ok hjoin
  · exact ⟨h.update fun _ => rfl, rfl⟩
  · refine ⟨fun root hroot => ?_, rfl⟩
    obtain ⟨row, hfind, hactive⟩ := h root hroot
    have hsame : row.id = root := by simpa using List.find?_some hfind
    have hkeeps := (hspares.resolve_left (by rw [hopen]; exact Bool.false_ne_true)) root hroot
    have hfound : (absorb (arrivalsAt run o) (canonicalOf o (arrivalsAt run o))
        (mergedValues (arrivalsAt run o) (canonicalOf o (arrivalsAt run o)) results)
        run).find root = some (if row.id = (canonicalOf o (arrivalsAt run o)).id then
          mergedRow (arrivalsAt run o) (canonicalOf o (arrivalsAt run o))
            (mergedValues (arrivalsAt run o) (canonicalOf o (arrivalsAt run o)) results)
        else if (arrivalsAt run o).any fun arrival =>
            arrival.id == row.id then {row with status := .success} else row) := by
      rw [absorb, Run.find, find_map run (fun item => by
        split <;> first | (split <;> rfl) | exact (by assumption : item.id = _).symm), hfind]
      rfl
    refine ⟨_, hfound, ?_⟩
    rw [hsame]
    split
    case isTrue => rfl
    case isFalse hother =>
      have hnone : ((arrivalsAt run o).any fun arrival => arrival.id == root) = false := by
        refine List.any_eq_false.mpr fun item hitem => ?_
        rw [beq_iff_eq]
        exact (hkeeps.resolve_right hother) item hitem
      rw [hnone]
      exact hactive

theorem advanceLoop_sound (h : Rooted run) : Sound run o.id (advanceLoop E graph node run o) := by
  rw [advanceLoop]
  split
  case isTrue => exact h
  case isFalse =>
    split
    case h_1 => exact ⟨rfl, h.but _⟩
    case h_2 body hbody =>
      refine attempt_sound (h.but _) rfl fun ⟨proceed, values, loop⟩ _ => ?_
      dsimp only
      split
      case isTrue => exact complete_sound (h.but _) rfl rfl _ true
      case isFalse =>
        split
        case h_1 => exact ⟨rfl, h.but _⟩
        case h_2 start _ => exact (h.update fun _ => rfl).enqueue start.id _

theorem returnToLoop_sound (h : Rooted run) (values : Values) (output : Value) (returning : Nat) :
    Sound run o.id (returnToLoop run o values output returning) := by
  rw [returnToLoop]
  split
  case h_1 => exact ⟨rfl, h.but _⟩
  case h_2 parent hparent =>
    split
    case h_1 => exact ⟨rfl, h.but _⟩
    case h_2 loop _ =>
      split
      case isTrue =>
        refine h.update fun hroot => ?_
        obtain ⟨row, hfind, hactive⟩ := h _ hroot
        have hparent' : parent.id = returning := by simpa using List.find?_some hparent
        rw [hparent', hparent] at hfind
        cases hfind
        exact hactive
      case isFalse =>
        exact attempt_sound (h.but _) rfl fun written _ => h.update fun _ => rfl

theorem advanceDecision_sound (h : Rooted run) (given : Given) :
    Sound run o.id (advanceDecision E graph node run o given) := by
  rw [advanceDecision]
  split
  case h_1 => exact h.update fun _ => rfl
  case h_2 => exact ⟨rfl, h.but _⟩
  case h_3 result _ =>
    split
    case h_1 decision _ => exact complete_sound (h.but _) rfl rfl _ true
    case h_2 => exact ⟨rfl, h.but _⟩

theorem advanceActivity_sound (h : Rooted run) (given : Given) :
    Sound run o.id (advanceActivity E graph node run o given) := by
  rw [advanceActivity]
  split
  case h_1 => exact h.update fun _ => rfl
  case h_2 => exact ⟨rfl, h.but _⟩
  case h_3 result _ => exact complete_sound (h.but _) rfl rfl _ true

theorem Sound.of {run' : Run} {id : Nat} {result : Result Run} (h : Sound run' id result)
    (hroot : run'.stepRoot = run.stepRoot) : Sound run id result := by
  cases result with
  | ok _ => exact h
  | error _ => exact ⟨h.1.trans hroot, h.2⟩

/-- A row of the run is read again. -/
theorem Rooted.refresh (h : Rooted run) {id : Nat} {row : Occurrence}
    (hfound : run.find id = some row) (data : Value) (files : Json) :
    Rooted (run.update (workspaceValues row data files)) := by
  refine h.update fun hroot => ?_
  obtain ⟨other, hfind, hactive⟩ := h _ hroot
  have hid : row.id = id := by simpa using List.find?_some hfound
  have hsame : run.find row.id = some row := hid.symm ▸ hfound
  exact Option.some.inj (hfind.symm.trans hsame) ▸ hactive

theorem advanceParallel_sound (h : Rooted run) (hspares : Spares graph run o) (given : Given) :
    Sound run o.id (advanceParallel E graph node run o given) := by
  rw [advanceParallel]
  refine attempt_sound (h.but _) rfl fun ⟨run', proceed⟩ hjoin => ?_
  obtain ⟨hrooted, hroot⟩ := joinTyped_rooted h hspares hjoin
  dsimp only
  split
  case isTrue => exact hrooted
  case isFalse =>
    split
    case h_1 => exact ⟨hroot, hrooted.but _⟩
    case h_2 row hfound =>
      have hid : row.id = o.id := by simpa using List.find?_some hfound
      have hid : (workspaceValues row given.data given.files).id = o.id := hid
      exact complete_sound (hrooted.but _) hroot hid _ true

theorem returnToLoop_controls {values : Values} {output : Value} {returning : Nat} {run' : Run}
    (h : returnToLoop run o values output returning = .ok run') :
    SameControls run run' := by
  rw [returnToLoop] at h
  split at h
  case h_1 => exact nomatch h
  case h_2 =>
    split at h
    case h_1 => exact nomatch h
    case h_2 =>
      dsimp only at h
      split at h
      case isTrue =>
        cases h
        exact ⟨rfl, rfl, rfl, rfl⟩
      case isFalse =>
        obtain ⟨written, -, h⟩ := Results.bind_eq_ok.mp h
        cases h
        exact ⟨rfl, rfl, rfl, rfl⟩

theorem returnToRun_controls {output output' : Value} {run' : Run}
    (h : returnToRun E graph run o output = .ok (run', output')) :
    run'.occurrences = run.occurrences ∧ SameControls run run' := by
  rw [returnToRun] at h
  dsimp only at h
  split at h
  case isTrue =>
    rw [pure_bind] at h
    cases h
    exact ⟨rfl, ⟨rfl, rfl, rfl, rfl⟩⟩
  case isFalse =>
    split at h
    case h_1 =>
      obtain ⟨normalized, -, h⟩ := Results.bind_eq_ok.mp h
      cases h
      exact ⟨rfl, ⟨rfl, rfl, rfl, rfl⟩⟩
    case h_2 => exact nomatch h

theorem advanceEnd_sound (h : Rooted run) : Sound run o.id (advanceEnd E graph node run o) := by
  rw [advanceEnd]
  dsimp only
  split
  case isTrue => exact ⟨rfl, h.but _⟩
  case isFalse =>
    split
    case h_1 returning _ =>
      have hsound := returnToLoop_sound (o := o) h {o.context.values with
          output := some o.context.values.data} o.context.values.data returning
      cases hreturned : returnToLoop run o {o.context.values with
          output := some o.context.values.data} o.context.values.data returning with
      | error failure =>
        rw [hreturned] at hsound
        exact hsound
      | ok run' =>
        rw [hreturned] at hsound
        exact complete_sound (Rooted.but hsound _) (returnToLoop_controls hreturned).stepRoot rfl _ false
    case h_2 =>
      cases hreturned : returnToRun E graph run o o.context.values.data with
      | error failure =>
        have hsame := returnToRun_error hreturned
        exact ⟨congrArg Run.stepRoot hsame, hsame ▸ h.but _⟩
      | ok returned =>
        obtain ⟨run', output⟩ := returned
        obtain ⟨hrows, hcontrols⟩ := returnToRun_controls hreturned
        have hrooted : RootedBut run' o.id := fun root hroot' _ => by
          obtain ⟨row, hfind, hactive⟩ := h root (hcontrols.stepRoot ▸ hroot')
          exact ⟨row, by rw [Run.find, hrows]; exact hfind, hactive⟩
        exact complete_sound hrooted hcontrols.stepRoot rfl _ false

theorem act_sound (h : Rooted run) (hspares : node.kind = .parallel →
    converges graph node.id = true → Spares graph run o) (given : Given) :
    Sound run o.id (act E graph node run o given) := by
  rw [act]
  split
  case isTrue => exact advanceDecision_sound h given
  case isFalse =>
    split
    case isTrue => exact advanceActivity_sound h given
    case isFalse =>
      split
      case isTrue => exact advanceLoop_sound h
      case isFalse =>
        split
        case isTrue hparallel =>
          obtain ⟨hkind, hconverges⟩ : node.kind = .parallel ∧ converges graph node.id = true := by
            simpa using hparallel
          exact advanceParallel_sound h (hspares hkind hconverges) given
        case isFalse =>
          split
          case isTrue => exact advanceEnd_sound h
          case isFalse => exact complete_sound (h.but _) rfl rfl _ true

/-- The row at its convergence, and the run: a parallel gateway reads the data again before its arrivals converge. -/
def atConvergence (node : Node) (run : Run) (o : Occurrence) (given : Given) : Run × Occurrence :=
  if node.kind = .parallel then
    let row := workspaceValues o given.data given.files
    (run.update row, row)
  else (run, o)

/-- Where the row converges, the root goes on. -/
def Converges (graph : Workflow) (node : Node) (run : Run) (o : Occurrence) (given : Given) : Prop :=
  awaitsMerge graph node o = true → Spares graph (atConvergence node run o given).1 (atConvergence node run o given).2

theorem advance_sound (h : Rooted run) (hfound : run.find o.id = some o) (given : Given)
    (hconverges : Converges graph node run o given) :
    Sound run o.id (advance E graph node run o given) := by
  rw [advance]
  split
  case isTrue hjoin =>
    obtain ⟨⟨hkind, hmany⟩, hfresh⟩ : (node.kind ≠ .parallel ∧ converges graph node.id = true) ∧
      o.context.converged = false := by simpa using hjoin
    have hspares := hconverges (by simp [awaitsMerge, hmany, hfresh])
    rw [atConvergence, if_neg hkind] at hspares
    refine attempt_sound (h.but _) rfl fun result hok => ?_
    obtain ⟨run', proceed⟩ := result
    obtain ⟨hrooted, hroot⟩ := joinTyped_rooted h hspares hok
    dsimp only
    split
    case isTrue => exact hrooted
    case isFalse =>
      split
      case h_1 => exact ⟨hroot, hrooted.but _⟩
      case h_2 row hrow =>
        have hid : row.id = o.id := by simpa using List.find?_some hrow
        have hact : Sound (run'.update (workspaceValues row given.data given.files)) row.id
            (act E graph node (run'.update (workspaceValues row given.data given.files))
              (workspaceValues row given.data given.files) given) :=
          act_sound (hrooted.refresh hrow given.data given.files) (fun hparallel => absurd hparallel hkind) given
        exact (hid ▸ hact).of hroot
  case isFalse =>
    rw [pure_bind]
    dsimp only
    rw [if_neg (by exact Bool.false_ne_true), hfound]
    have hact : Sound (run.update (workspaceValues o given.data given.files)) o.id
        (act E graph node (run.update (workspaceValues o given.data given.files))
          (workspaceValues o given.data given.files) given) :=
      act_sound (h.refresh hfound given.data given.files) (fun hkind hmany => by
        have hspares := hconverges (by simp [awaitsMerge, hmany, hkind])
        rw [atConvergence, if_pos hkind] at hspares
        exact hspares) given
    exact hact.of rfl

/-- A call leaves the root in the frontier where its convergence does and where it does not fail on the root. -/
theorem step_rooted {G : Workflow} (h : Rooted run) (hfound : run.find o.id = some o) (given : Given)
    (hconverges : ∀ graph node, Placed G o graph node → Converges graph node run o given)
    (hfails : run.stepRoot = some o.id → ∀ graph node, Placed G o graph node → ∀ failure,
      advance E graph node run o given ≠ .error failure) :
    Rooted (step E G run o given) := by
  rw [step]
  split
  case h_1 => exact h
  case h_2 graph hgraph =>
    split
    case h_1 => exact h
    case h_2 node hnode =>
      have hsound := advance_sound (E := E) h hfound given (hconverges graph node ⟨hgraph, hnode⟩)
      cases hadvance : advance E graph node run o given with
      | ok run' =>
        rw [hadvance] at hsound
        exact hsound
      | error failure =>
        rw [hadvance] at hsound
        obtain ⟨hroot, hrooted⟩ := hsound
        intro root hroot'
        have hother : root ≠ o.id := fun heq => hfails (hroot.symm.trans
            (hroot'.trans (congrArg some heq))) graph node ⟨hgraph, hnode⟩ failure hadvance
        have hid : ((failure.run.find o.id).getD o).id = o.id := by
          cases hrow : failure.run.find o.id with
          | none => rfl
          | some row => simpa using List.find?_some hrow
        exact (hrooted root hroot' hother).update fun heq => absurd (heq.trans hid) hother

/-- What a move does to the controls; one that fails cancels the run. -/
theorem Move.controls {G : Workflow} {run' : Run} (h : Move E G run run') : run'.cancelRequested = true ∨
    run'.stepPending = run.stepPending ∧ run'.paused = run.paused ∧ (run.stepRoot = none → run'.stepRoot = none) ∧
      (run.cancelRequested = true → run'.cancelRequested = true) := by
  have hfinish : ∀ (flows : List Flow) (context : Context) (run : Run), SameControls run
      (flows.foldl (fun run flow => run.enqueue flow.target {context with incomingFlow := some flow.id}) run) := by
    intro flows context
    induction flows with
    | nil => exact SameControls.refl
    | cons flow rest ih => exact fun run => ⟨(ih _).stepRoot, (ih _).stepPending, (ih _).paused, (ih _).cancelRequested⟩
  have hcomplete : ∀ (start : Run) (o : Occurrence) (values : Values) (flows : List Flow), SameControls run start →
      (Native.finish start o values flows).cancelRequested = true ∨
      (Native.finish start o values flows).stepPending = run.stepPending ∧
        (Native.finish start o values flows).paused = run.paused ∧
        (run.stepRoot = none → (Native.finish start o values flows).stepRoot = none) ∧
        (run.cancelRequested = true → (Native.finish start o values flows).cancelRequested = true) := by
    intro start o values flows hstart
    have hrows := hfinish flows (successorContext o values flows.length) start
    refine .inr ⟨hrows.stepPending.trans hstart.stepPending, hrows.paused.trans hstart.paused, fun hnone => ?_,
      fun hcancel => hrows.cancelRequested.trans (hstart.cancelRequested.trans hcancel)⟩
    rw [Native.finish]
    dsimp only
    rw [hrows.stepRoot, hstart.stepRoot, hnone]
    rfl
  cases h with
  | wait => exact .inr ⟨rfl, rfl, id, id⟩
  | merge => exact .inr ⟨rfl, rfl, id, id⟩
  | refresh => exact .inr ⟨rfl, rfl, id, id⟩
  | await => exact .inr ⟨rfl, rfl, id, id⟩
  | complete => exact hcomplete _ _ _ _ ⟨rfl, rfl, rfl, rfl⟩
  | enter => exact .inr ⟨rfl, rfl, id, id⟩
  | comeBack _ _ _ _ _ _ _ hreturned =>
    have hcontrols := returnToLoop_controls hreturned
    exact hcomplete _ _ _ _ ⟨hcontrols.stepRoot, hcontrols.stepPending, hcontrols.paused, hcontrols.cancelRequested⟩
  | finish _ _ _ _ _ _ _ hreturned =>
    have hcontrols := (returnToRun_controls hreturned).2
    exact hcomplete _ _ _ _ ⟨hcontrols.stepRoot, hcontrols.stepPending, hcontrols.paused, hcontrols.cancelRequested⟩
  | fail => exact .inl rfl

end Calls

/-! ### Runs -/

/-- What the controls keep of the run of a row. -/
structure Keeps (run : Run) (o : Occurrence) (run' : Run) : Prop where
  rows : run'.occurrences = run.occurrences
  status : run'.status = run.status
  root : run'.stepRoot = run.stepRoot ∨ run'.stepRoot = some o.id

def Passage.run : Passage → Run
  | held run => run
  | passed run _ => run

theorem admission_keeps (run : Run) (o : Occurrence) (ancestorPaused : Bool) :
    Keeps run o (run.admission o ancestorPaused).run := by
  rw [Run.admission]
  dsimp only
  split
  case isTrue => exact ⟨rfl, rfl, .inl rfl⟩
  case isFalse =>
    split
    case isTrue => exact ⟨rfl, rfl, .inl rfl⟩
    case isFalse =>
      split
      case isTrue => exact ⟨rfl, rfl, .inl rfl⟩
      case isFalse =>
        split
        case isTrue => exact ⟨rfl, rfl, .inl rfl⟩
        case isFalse =>
          simp only [Passage.run]
          split
          case isTrue => exact ⟨by split <;> rfl, by split <;> rfl, .inr rfl⟩
          case isFalse => exact ⟨by split <;> rfl, by split <;> rfl, .inl (by split <;> rfl)⟩

theorem Keeps.rooted {run run' : Run} {o : Occurrence} (h : Keeps run o run') (hrooted : Rooted run)
    (hfound : run.find o.id = some o) (hactive : o.active = true) :
    Rooted run' := by
  have hfind : ∀ id, run'.find id = run.find id := fun id => by rw [Run.find, Run.find, h.rows]
  intro root hroot
  obtain hsame | hnew := h.root
  · obtain ⟨row, hrow, hactive⟩ := hrooted root (hsame ▸ hroot)
    exact ⟨row, (hfind root).trans hrow, hactive⟩
  · cases hroot.symm.trans hnew
    exact ⟨o, (hfind o.id).trans hfound, hactive⟩

theorem rooted_of_eq {run run' : Run} (h : Rooted run) (hrows : run'.occurrences = run.occurrences)
    (hroot : ∀ root, run'.stepRoot = some root → run.stepRoot = some root) :
    Rooted run' := fun root hroot' => by
  obtain ⟨row, hfind, hactive⟩ := h root (hroot root hroot')
  exact ⟨row, by rw [Run.find, hrows]; exact hfind, hactive⟩

/-- A command that is obeyed, or one that changes nothing. -/
theorem control_ok {G : Workflow} {s s' : Debugged} {key : Option String} {expected : Option Nat}
    {action : Action} {nodes : List String} {receipt : ControlReceipt}
    (h : control G s key expected action nodes = .ok (s', receipt)) :
    s' = s ∨ (action = .step → s.run.stepRoot = none) ∧ s'.run = s.run.controlled action nodes ∧
        s'.revision = s.revision + 1 ∧ s'.status = s.status := by
  rw [control] at h
  split at h
  case h_1 =>
    split at h
    case isTrue => exact nomatch h
    case isFalse =>
      cases h
      exact .inl rfl
  case h_2 =>
    split at h
    case isTrue => exact nomatch h
    case isFalse =>
      split at h
      case isTrue => exact nomatch h
      case isFalse =>
        split at h
        case isTrue => exact nomatch h
        case isFalse =>
          split at h
          case isTrue => exact nomatch h
          case isFalse =>
            split at h
            case isTrue => exact nomatch h
            case isFalse hfree =>
              cases h
              refine .inr ⟨fun hstep => ?_, rfl, rfl, rfl⟩
              simpa [hstep] using hfree

theorem controlled_root (run : Run) (action : Action) (nodes : List String) {root : Nat}
    (h : (run.controlled action nodes).stepRoot = some root) :
    run.stepRoot = some root := by
  cases action with
  | step => exact h
  | breakpoints => exact h
  | pause => exact nomatch h
  | resume => exact nomatch h

theorem controlled_rows (run : Run) (action : Action) (nodes : List String) :
    (run.controlled action nodes).occurrences = run.occurrences := by
  cases action <;> rfl

section System
variable {E : Evaluator} {G : Workflow} {s : Debugged}

/-- What a visit does to the run. -/
theorem visited_cases (s : Debugged) (id : Nat) (ancestorPaused : Bool) (given : Given) :
    (s.visited E G id ancestorPaused given = s ∧ ∀ o, s.run.find id = some o → (s.live && o.active) = false) ∨
    ∃ o, s.run.find id = some o ∧ s.live = true ∧ o.active = true ∧
      ((∃ run, s.run.admission o ancestorPaused = .held run ∧ s.visited E G id ancestorPaused given = {s with run}) ∨
        ∃ run admitted, s.run.admission o ancestorPaused = .passed run admitted ∧
          s.visited E G id ancestorPaused given = {s with run := step E G run o given}) := by
  cases hfind : s.run.find id with
  | none =>
    refine .inl ⟨?_, fun o hsame => absurd hsame.symm (Option.some_ne_none o)⟩
    rw [Debugged.visited, hfind]
  | some o =>
    by_cases hgoes : (s.live && o.active) = true
    · obtain ⟨hlive, hactive⟩ := Bool.and_eq_true_iff.mp hgoes
      refine .inr ⟨o, rfl, hlive, hactive, ?_⟩
      cases hadmission : s.run.admission o ancestorPaused with
      | held run =>
        refine .inl ⟨run, rfl, ?_⟩
        rw [Debugged.visited, hfind]
        dsimp only
        rw [if_pos hgoes, hadmission]
      | passed run admitted =>
        refine .inr ⟨run, admitted, rfl, ?_⟩
        rw [Debugged.visited, hfind]
        dsimp only
        rw [if_pos hgoes, hadmission]
    · refine .inl ⟨?_, fun o hsame => Option.some.inj hsame ▸ Bool.eq_false_iff.mpr hgoes⟩
      rw [Debugged.visited, hfind]
      exact if_neg hgoes

variable (E G) in
/-- A visit where the root, if the row is let through to its node, goes on where rows converge and where
nothing raises on it. -/
def Mild (s : Debugged) : Event → Prop
  | .visit id ancestorPaused given =>
    ∀ o run admitted graph node, s.run.find id = some o →
      s.run.admission o ancestorPaused = .passed run admitted → Placed G o graph node →
      Converges graph node run o given ∧
        (run.stepRoot = some o.id → ∀ failure, advance E graph node run o given ≠ .error failure)
  | _ => True

theorem next_rooted {event : Event} (h : Rooted s.run) (hmild : Mild E G s event) : Rooted (next E G s event).run := by
  cases event with
  | control key expected action nodes =>
    rw [next]
    split
    case h_1 s' receipt hcontrol =>
      obtain rfl | ⟨-, hrun, -⟩ := control_ok hcontrol
      · exact h
      · exact hrun ▸ rooted_of_eq h (controlled_rows s.run action nodes) fun _ => controlled_root s.run action nodes
    case h_2 => exact h
  | start input data files =>
    rw [next]
    split
    case isTrue =>
      split
      case h_1 start _ => exact h.enqueue start.id _
      case h_2 => exact h
    case isFalse => exact h
  | visit id ancestorPaused given =>
    obtain ⟨hsame, -⟩ | ⟨o, hfind, -, hactive, ⟨run, hheld, hvisited⟩ | ⟨run, admitted, hpassed,
      hvisited⟩⟩ := @visited_cases E G s id ancestorPaused given
    · rw [next, hsame]
      exact h
    · have hkeeps := admission_keeps s.run o ancestorPaused
      rw [hheld] at hkeeps
      have hid : o.id = id := by simpa using List.find?_some hfind
      rw [next, hvisited]
      exact hkeeps.rooted h (hid.symm ▸ hfind) hactive
    · have hkeeps := admission_keeps s.run o ancestorPaused
      rw [hpassed] at hkeeps
      have hid : o.id = id := by simpa using List.find?_some hfind
      have hfound : run.find o.id = some o := by
        rw [Run.find, show run.occurrences = s.run.occurrences from hkeeps.rows]
        exact hid.symm ▸ hfind
      rw [next, hvisited]
      exact step_rooted (hkeeps.rooted h (hid.symm ▸ hfind) hactive) hfound given
        (fun graph node hplaced => (hmild o run admitted graph node hfind hpassed hplaced).1)
        fun hroot graph node hplaced => (hmild o run admitted graph node hfind hpassed hplaced).2 hroot
  | settle ancestorPaused =>
    rw [next]
    split
    case isTrue =>
      rw [Run.settle]
      dsimp only
      split
      case isTrue => exact h
      case isFalse => exact h
    case isFalse => exact h
  | cancel stopped failure => exact h
  | refresh status => exact h

/-- The root of a step is in the frontier, in every run whose visits are mild. -/
theorem stepRoot_active {events : List Event} (h : Steps
    (Guarded (fun s event s' => s' = next E G s event) (Mild E G)) {} events s) : Rooted s.run :=
  h.invariant (P := fun s => Rooted s.run)
    (fun _ _ _ hrooted hstep => hstep.2 ▸ next_rooted hrooted hstep.1) fun _ hroot => nomatch hroot

/-! ### Steps -/

/-- The visit admits its row: it is ready, and no descendant of the root. -/
def Passage.admits : Passage → Bool
  | .passed _ admitted => admitted
  | .held _ => false

def admits (s : Debugged) : Event → Bool
  | .visit id ancestorPaused _ => (s.run.find id).any fun o =>
    s.live && o.active && match s.run.admission o ancestorPaused
      with | .passed _ admitted => admitted | .held _ => false
  | _ => false

/-- The visit finds a ready row that no ancestor of the run holds. -/
def offers (s : Debugged) : Event → Bool
  | .visit id ancestorPaused _ => (s.run.find id).any fun o => s.live && o.status == .ready && !ancestorPaused
  | _ => false

variable (E G) in
/-- How many events there are of a kind, along the run. -/
def tally (kind : Debugged → Event → Bool) (s : Debugged) : List Event → Nat
  | [] => 0
  | event :: rest => (kind s event).toNat + tally kind (next E G s event) rest

/-- No command follows but breakpoints. -/
def Quiet : Event → Prop
  | .control _ _ action _ => action = .breakpoints
  | _ => True

/-- A step that admits the next row it is offered. -/
structure Awaiting (run : Run) : Prop where
  paused : run.paused = true
  stepPending : run.stepPending = true
  stepRoot : run.stepRoot = none

/-- A step that has admitted its row. -/
structure Stepped (run : Run) : Prop where
  paused : run.paused = true
  stepPending : run.stepPending = false

/-- The run goes on in one of the two ways, unless it is cancelled. -/
def Unless (P : Run → Prop) (run : Run) : Prop := run.cancelRequested = true ∨ P run

theorem Unless.move {P : Run → Prop} (move : ∀ {run run' : Run}, P run →
    run'.stepPending = run.stepPending → run'.paused = run.paused →
    (run.stepRoot = none → run'.stepRoot = none) →
    P run') {run run' : Run} (h : Unless P run) (hmove : Move E G run run') : Unless P run' := by
  obtain hcancel | ⟨hpending, hpaused, hroot, hcancel⟩ := hmove.controls
  · exact .inl hcancel
  · exact h.imp hcancel fun h => move h hpending hpaused hroot

theorem Awaiting.step {run : Run} {o : Occurrence} (h : Unless Awaiting run)
    (hrunning : run.status = .running) (hfound : run.find o.id = some o)
    (hactive : o.active = true) (given : Given) : Unless Awaiting (step E G run o given) := by
  refine (step_moves hrunning hfound hactive given).keeps
    (fun _ _ _ h hmove => h.move (fun h hpending hpaused hroot => ?_) hmove) h
  exact ⟨hpaused.trans h.paused, hpending.trans h.stepPending, hroot h.stepRoot⟩

theorem Stepped.step {run : Run} {o : Occurrence} (h : Unless Stepped run)
    (hrunning : run.status = .running) (hfound : run.find o.id = some o)
    (hactive : o.active = true) (given : Given) : Unless Stepped (step E G run o given) := by
  refine (step_moves hrunning hfound hactive given).keeps
    (fun _ _ _ h hmove => h.move (fun h hpending hpaused _ => ?_) hmove) h
  exact ⟨hpaused.trans h.paused, hpending.trans h.stepPending⟩

theorem admission_waiting {run : Run} {o : Occurrence} (h : o.status ≠ .ready) (ancestorPaused : Bool) :
    run.admission o ancestorPaused = .passed run false := by
  rw [Run.admission, if_pos (by simpa using h)]

theorem Awaiting.admission {run : Run} {o : Occurrence} (h : Awaiting run)
    (hready : o.status = .ready) (ancestorPaused : Bool) :
    ancestorPaused = true ∧ run.admission o ancestorPaused = .held run ∨
    ancestorPaused = false ∧ ∃ run', run.admission o ancestorPaused = .passed run' true ∧ Stepped run' := by
  have hbelow : run.descends o = false := by rw [Run.descends, h.stepRoot]; rfl
  cases ancestorPaused with
  | true => exact .inl ⟨rfl, by simp [Run.admission, hready]⟩
  | false =>
    refine .inr ⟨rfl, ?_⟩
    rw [Run.admission]
    dsimp only
    rw [hready, hbelow, h.stepPending, if_neg (by decide), if_neg (by decide), if_neg (by simp), if_neg (by simp)]
    exact ⟨_, rfl, rfl, rfl⟩

theorem Stepped.admission {run : Run} {o : Occurrence} (h : Stepped run) (ancestorPaused : Bool) :
    run.admission o ancestorPaused = .held run ∨ ∃ run',
        run.admission o ancestorPaused = .passed run' false ∧ Stepped run' := by
  by_cases hready : o.status = .ready
  case neg => exact .inr ⟨run, admission_waiting hready ancestorPaused, h⟩
  case pos =>
    cases ancestorPaused with
    | true => exact .inl (by simp [Run.admission, hready])
    | false =>
      cases hbelow : run.descends o with
      | false => exact .inl (by simp [Run.admission, hready, hbelow, h.paused, h.stepPending])
      | true =>
        refine .inr ⟨_, by simp [Run.admission, hready, hbelow, h.stepPending]; rfl, ?_⟩
        split
        case isTrue => exact ⟨h.paused, rfl⟩
        case isFalse => exact h

/-- What goes on through the events that visit no row and command nothing goes on through a quiet event that
visits none. -/
theorem Unless.next {P : Run → Prop} (same : ∀ {run run' : Run}, P run →
    run'.stepPending = run.stepPending → run'.paused = run.paused →
    run'.stepRoot = run.stepRoot → P run') (hpaused : ∀ {run : Run}, P run → run.paused = true)
    (h : Unless P s.run) {event : Event} (hquiet : Quiet event)
    (hvisit : ∀ id ancestorPaused given, event = .visit id ancestorPaused given →
      Unless P (next E G s event).run) : Unless P (next E G s event).run := by
  have hkeep : ∀ {run : Run}, run.stepPending = s.run.stepPending → run.paused = s.run.paused →
      run.stepRoot = s.run.stepRoot →
      run.cancelRequested = s.run.cancelRequested → Unless P run :=
    fun hpending hpaused hroot hcancel =>
      h.imp (fun hcancelled => hcancel.trans hcancelled) fun h => same h hpending hpaused hroot
  cases event with
  | control key expected action nodes =>
    obtain rfl : action = .breakpoints := hquiet
    rw [Native.next]
    split
    case h_1 s' receipt hcontrol =>
      obtain rfl | ⟨-, hrun, -⟩ := control_ok hcontrol
      · exact h
      · exact hrun ▸ hkeep rfl rfl rfl rfl
    case h_2 => exact h
  | start input data files =>
    rw [Native.next]
    split
    case isTrue =>
      split
      case h_1 => exact hkeep rfl rfl rfl rfl
      case h_2 => exact h
    case isFalse => exact h
  | visit id ancestorPaused given => exact hvisit id ancestorPaused given rfl
  | settle ancestorPaused =>
    rw [Native.next]
    split
    case isTrue =>
      rw [Run.settle]
      dsimp only
      split
      case isTrue hsettles =>
        refine h.imp id fun h => ?_
        rw [hpaused h] at hsettles
        exact nomatch hsettles
      case isFalse => exact h
    case isFalse => exact h
  | cancel stopped failure => exact .inl rfl
  | refresh status => exact h

theorem live_spec (h : s.live = true) : s.run.status = .running ∧ s.run.cancelRequested = false := by
  rw [Debugged.live] at h
  simp only [Bool.and_eq_true, beq_iff_eq, Bool.not_eq_true'] at h
  exact ⟨h.1.2, h.2⟩

theorem Unless.of_live {P : Run → Prop} (h : Unless P s.run) (hlive : s.live = true) : P s.run :=
  h.resolve_left (by rw [(live_spec hlive).2]; exact Bool.false_ne_true)

/-- A row that the controls let through is where it was, in a run that goes on. -/
theorem passed_spec {id : Nat} {o : Occurrence} {ancestorPaused admitted : Bool} {run : Run}
    (hlive : s.live = true) (hfind : s.run.find id = some o)
    (hpassed : s.run.admission o ancestorPaused = .passed run admitted) :
    run.status = .running ∧ run.find o.id = some o := by
  have hkeeps := admission_keeps s.run o ancestorPaused
  rw [hpassed] at hkeeps
  have hid : o.id = id := by simpa using List.find?_some hfind
  refine ⟨hkeeps.status.trans (live_spec hlive).1, ?_⟩
  rw [Run.find, show run.occurrences = s.run.occurrences from hkeeps.rows]
  exact hid.symm ▸ hfind

/-- A step that has admitted its row admits no other. -/
theorem Stepped.next {event : Event} (h : Unless Stepped s.run) (hquiet : Quiet event) :
    admits s event = false ∧ Unless Stepped (next E G s event).run := by
  constructor
  case left =>
    cases event with
    | visit id ancestorPaused given =>
      rw [admits, Option.any_eq_false]
      intro o hfind
      cases hgoes : s.live && o.active with
      | false => rfl
      | true =>
        obtain hheld | ⟨run, hpassed, -⟩ :=
          (h.of_live (Bool.and_eq_true_iff.mp hgoes).1).admission (o := o) ancestorPaused
        · rw [hheld]
          rfl
        · rw [hpassed]
          rfl
    | _ => rfl
  case right =>
    refine h.next (fun h hpending hpaused _ =>
      ⟨hpaused.trans h.paused, hpending.trans h.stepPending⟩) (fun h => h.paused) hquiet ?_
    rintro id ancestorPaused given rfl
    rw [Native.next]
    obtain ⟨hsame, -⟩ | ⟨o, hfind, hlive, hactive, ⟨run, hheld, hvisited⟩ | ⟨run, admitted, hpassed,
      hvisited⟩⟩ := @visited_cases E G s id ancestorPaused given
    · rw [hsame]
      exact h
    · obtain hheld' | ⟨run', hpassed, -⟩ := (h.of_live hlive).admission (o := o) ancestorPaused
      · obtain rfl : s.run = run := Passage.held.inj (hheld'.symm.trans hheld)
        rw [hvisited]
        exact h
      · exact nomatch hheld.symm.trans hpassed
    · obtain hheld | ⟨run', hpassed', hstepped⟩ := (h.of_live hlive).admission (o := o) ancestorPaused
      · exact nomatch hheld.symm.trans hpassed
      · cases hpassed'.symm.trans hpassed
        obtain ⟨hrunning, hfound⟩ := passed_spec hlive hfind hpassed
        rw [hvisited]
        exact Stepped.step (.inr hstepped) hrunning hfound hactive given

/-- A step admits the next row it is offered. -/
theorem Awaiting.next {event : Event} (h : Unless Awaiting s.run) (hquiet : Quiet event) :
    admits s event = offers s event ∧
      if offers s event then Unless Stepped (next E G s event).run else Unless Awaiting (next E G s event).run := by
  by_cases hvisit : ∃ id ancestorPaused given, event = .visit id ancestorPaused given
  case neg =>
    have hnext : Unless Awaiting (Native.next E G s event).run :=
      h.next (fun h hpending hpaused hroot => ⟨hpaused.trans h.paused, hpending.trans h.stepPending,
        hroot.trans h.stepRoot⟩) (fun h => h.paused) hquiet
        fun id ancestorPaused given heq => absurd ⟨id, ancestorPaused, given, heq⟩ hvisit
    cases event with
    | visit id ancestorPaused given => exact absurd ⟨id, ancestorPaused, given, rfl⟩ hvisit
    | control => exact ⟨rfl, hnext⟩
    | start => exact ⟨rfl, hnext⟩
    | settle => exact ⟨rfl, hnext⟩
    | cancel => exact ⟨rfl, hnext⟩
    | refresh => exact ⟨rfl, hnext⟩
  case pos =>
    obtain ⟨id, ancestorPaused, given, rfl⟩ := hvisit
    rw [Native.next]
    obtain ⟨hsame, hidle⟩ | ⟨o, hfind, hlive, hactive, hcases⟩ := @visited_cases E G s id ancestorPaused given
    · have hoffers : offers s (.visit id ancestorPaused given) = false := by
        rw [offers, Option.any_eq_false]
        intro o hfind
        have hidle := hidle o hfind
        rw [Occurrence.active] at hidle
        revert hidle
        cases s.live <;> cases o.status == .ready <;> simp
      have hadmits : admits s (.visit id ancestorPaused given) = false := by
        rw [admits, Option.any_eq_false]
        intro o hfind
        rw [hidle o hfind]
        rfl
      rw [hadmits, hoffers, hsame]
      exact ⟨rfl, h⟩
    · have hoffers : offers s (.visit id ancestorPaused given) = (o.status == .ready && !ancestorPaused) := by
        rw [offers, hfind, Option.any_some, hlive, Bool.true_and]
      have hadmits : admits s (.visit id ancestorPaused given) = (s.run.admission o ancestorPaused).admits := by
        rw [admits, hfind, Option.any_some, hlive, hactive]
        rfl
      rw [hadmits, hoffers]
      obtain ⟨run, hheld, hvisited⟩ | ⟨run, admitted, hpassed, hvisited⟩ := hcases
      · by_cases hready : o.status = .ready
        case neg => cases hheld.symm.trans (admission_waiting hready ancestorPaused)
        case pos =>
          obtain ⟨rfl, hheld'⟩ | ⟨-, run', hpassed, -⟩ := (h.of_live hlive).admission hready ancestorPaused
          · obtain rfl : s.run = run := Passage.held.inj (hheld'.symm.trans hheld)
            rw [hheld, hvisited, Passage.admits]
            simp [h]
          · cases hheld.symm.trans hpassed
      · obtain ⟨hrunning, hfound⟩ := passed_spec hlive hfind hpassed
        rw [hvisited]
        by_cases hready : o.status = .ready
        case neg =>
          cases (admission_waiting hready ancestorPaused).symm.trans hpassed
          rw [hpassed, Passage.admits]
          simp [hready, Awaiting.step h hrunning hfound hactive]
        case pos =>
          obtain ⟨-, hheld⟩ | ⟨rfl, run', hpassed', hstepped⟩ := (h.of_live hlive).admission hready ancestorPaused
          · cases hheld.symm.trans hpassed
          · cases hpassed'.symm.trans hpassed
            rw [hpassed, Passage.admits]
            simp [hready, Stepped.step (.inr hstepped) hrunning hfound hactive]

/-- Once it has admitted its row, a step admits none until the next command. -/
theorem Stepped.tally_admits {events : List Event} (h : Unless Stepped s.run)
    (hquiet : ∀ event ∈ events, Quiet event) : tally E G admits s events = 0 := by
  induction events generalizing s with
  | nil => rfl
  | cons event rest ih =>
    obtain ⟨hadmits, hnext⟩ := @Stepped.next E G s event h (hquiet event List.mem_cons_self)
    rw [tally, hadmits, ih hnext fun event hevent => hquiet event (List.mem_cons_of_mem _ hevent)]
    rfl

/-- A step admits the first row it is offered, and no other until the next command. -/
theorem Awaiting.tally_admits {events : List Event} (h : Unless Awaiting s.run)
    (hquiet : ∀ event ∈ events, Quiet event) :
    tally E G admits s events = min 1 (tally E G offers s events) := by
  induction events generalizing s with
  | nil => rfl
  | cons event rest ih =>
    have hrest : ∀ event ∈ rest, Quiet event := fun event hevent => hquiet event (List.mem_cons_of_mem _ hevent)
    obtain ⟨hadmits, hnext⟩ := @Awaiting.next E G s event h (hquiet event List.mem_cons_self)
    rw [tally, tally, hadmits]
    cases hoffers : offers s event with
    | true =>
      rw [hoffers, if_pos rfl] at hnext
      rw [Stepped.tally_admits hnext hrest, Bool.toNat_true, Nat.add_zero]
      exact (Nat.min_eq_left (Nat.le_add_right _ _)).symm
    | false =>
      rw [hoffers, if_neg Bool.false_ne_true] at hnext
      rw [ih hnext hrest, Bool.toNat_false, Nat.zero_add, Nat.zero_add]

/-- A step that is accepted admits the first ready row that is visited before the next command, and no other
but descendants of its root. -/
theorem step_admits {s' : Debugged} {key : Option String} {expected : Option Nat}
    {nodes : List String} {receipt : ControlReceipt}
    (haccepted : control G s key expected .step nodes = .ok (s', receipt)) (hfresh : s' ≠ s)
    {events : List Event} (hquiet : ∀ event ∈ events, Quiet event) :
    tally E G admits s' events = min 1 (tally E G offers s' events) := by
  obtain hsame | ⟨hroot, hrun, -⟩ := control_ok haccepted
  · exact absurd hsame hfresh
  · refine Awaiting.tally_admits (.inr ?_) hquiet
    rw [hrun]
    exact ⟨rfl, rfl, hroot rfl⟩

/-- In every run whose visits are mild the root of a step is in the frontier, and a step that is accepted
admits exactly one ready row that is no descendant of its root, once it is offered one. -/
theorem debugger_steps {events : List Event}
    (h : Steps (Guarded (fun s event s' => s' = next E G s event) (Mild E G)) {} events s) :
    Rooted s.run ∧ ∀ s' key expected nodes receipt later, control G s key expected .step nodes =
      .ok (s', receipt) → s' ≠ s → (∀ event ∈ later, Quiet event) →
      tally E G admits s' later = min 1 (tally E G offers s' later) :=
  ⟨stepRoot_active h, fun _ _ _ _ _ _ haccepted hfresh hquiet => step_admits haccepted hfresh hquiet⟩

end System

/-- Two branches that converge at once. -/
def joining : Workflow where
  schemaVersion := .v2
  nodes := [{id := "start", kind := .start}, {id := "split", kind := .parallel},
    {id := "join", kind := .parallel}, {id := "end", kind := .end}]
  flows := [⟨"begin", "start", "split", none⟩, ⟨"left", "split", "join", none⟩,
    ⟨"right", "split", "join", none⟩, ⟨"finish", "join", "end", none⟩]
  inputs := some []
  outputs := some []

def plain : Evaluator := ⟨fun _ _ => .ok .null, fun _ value => .ok value⟩

def nothing : Value := ⟨.obj [], List.nodup_nil, trivial⟩

def given : Given := {data := nothing, integrated := nothing}

/-- The same with a gateway on the left branch. -/
def uneven : Workflow := {joining with
  nodes := {id := "middle", kind := .parallel} :: joining.nodes
  flows := [⟨"begin", "start", "split", none⟩, ⟨"left", "split", "middle", none⟩,
    ⟨"on", "middle", "join", none⟩, ⟨"right", "split", "join", none⟩, ⟨"finish", "join", "end", none⟩]}

/-- The branches part, and the run is paused. -/
def parted : Debugged :=
  [.start .null nothing .null, .visit 1 false given, .visit 2 false given, .control none none .pause []].foldl
    (next plain uneven) {}

/-- The next row steps. -/
def stepping : Debugged := next plain uneven parted (.control none none .step [])

theorem mild_visit {E : Evaluator} {G graph : Workflow} {s : Debugged} {id : Nat} {ancestorPaused admitted : Bool}
    {given : Given} {o : Occurrence} {run : Run} {node : Node} (hfind : s.run.find id = some o)
    (hpassed : s.run.admission o ancestorPaused = .passed run admitted) (hplaced : Placed G o graph node)
    (hconverges : Converges graph node run o given)
    (hadvances : run.stepRoot = some o.id → ∃ run', advance E graph node run o given = .ok run') :
    Mild E G s (.visit id ancestorPaused given) := by
  intro o' run' admitted' graph' node' hfind' hpassed' hplaced'
  obtain rfl := Option.some.inj (hfind.symm.trans hfind')
  obtain ⟨rfl, -⟩ := Passage.passed.inj (hpassed.symm.trans hpassed')
  obtain rfl := Option.some.inj (hplaced.local'.symm.trans hplaced'.local')
  obtain rfl := Option.some.inj (hplaced.node'.symm.trans hplaced'.node')
  refine ⟨hconverges, fun hroot failure herror => ?_⟩
  obtain ⟨run', hok⟩ := hadvances hroot
  exact nomatch hok.symm.trans herror

/-- The step admits the arrival at the join, which waits there as the root, and not the gateway of the other branch. -/
theorem debugger_steps_uneven :
    (Rooted (next plain uneven stepping (.visit 4 false given)).run ∧
      (next plain uneven stepping (.visit 4 false given)).run.stepRoot = some 4) ∧
    tally plain uneven offers stepping [.visit 4 false given, .visit 3 false given] = 2 ∧
      tally plain uneven admits stepping [.visit 4 false given, .visit 3 false given] =
        min 1 (tally plain uneven offers stepping [.visit 4 false given, .visit 3 false given]) := by
  have hparted : Steps (Guarded (fun s event s' => s' = next plain uneven s event) (Mild plain uneven)) {}
      [.start .null nothing .null, .visit 1 false given, .visit 2 false given, .control none none .pause []]
      parted := by
    refine .cons ⟨trivial, rfl⟩ (.cons ⟨?_, rfl⟩ (.cons ⟨?_, rfl⟩ (.cons ⟨trivial, rfl⟩ (.nil _))))
    · exact mild_visit rfl rfl ⟨rfl, rfl⟩ (fun h => absurd h (by decide)) nofun
    · exact mild_visit rfl rfl ⟨rfl, rfl⟩ (fun h => absurd h (by decide)) nofun
  have hstepped : Guarded (fun s event s' => s' = next plain uneven s event) (Mild plain uneven) parted
      (.control none none .step []) stepping := ⟨trivial, rfl⟩
  have harrived : Mild plain uneven stepping (.visit 4 false given) :=
    mild_visit rfl rfl ⟨rfl, rfl⟩ (fun _ => .inl rfl) fun _ => ⟨_, rfl⟩
  refine ⟨⟨?_, by rfl⟩, by rfl, ?_⟩
  · exact (debugger_steps (hparted.append (.cons hstepped (.single ⟨harrived, rfl⟩)))).1
  · refine (debugger_steps hparted).2 stepping none none [] _ _ rfl (fun h => ?_) (by simp [Quiet])
    exact absurd (congrArg (·.revision) h) (by decide)

/-- A step that admits the first of two arrivals: the second goes on for both, and the first, which is done,
is still the root. -/
def absorption : List Event :=
  [.start .null nothing .null, .visit 1 false given, .visit 2 false given,
    .control none none .pause [], .control none none .step [], .visit 3 false given]

theorem root_absorbed : (∀ S, Accepted S joining) ∧ ¬ Rooted (absorption.foldl (next plain joining) {}).run ∧
    (control joining (absorption.foldl (next plain joining) {}) none none .step []).toOption.isNone = true := by
  have hroot : (absorption.foldl (next plain joining) {}).run.stepRoot = some 3 := by rfl
  have hdone : ((absorption.foldl (next plain joining) {}).run.find 3).map (·.active) = some false := by rfl
  refine ⟨fun _ => rfl, fun h => ?_, by rfl⟩
  obtain ⟨row, hfind, hactive⟩ := h 3 hroot
  rw [hfind, Option.map_some, hactive] at hdone
  exact nomatch hdone

end Galaris.Process.Native
