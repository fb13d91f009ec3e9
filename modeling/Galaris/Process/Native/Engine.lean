import Galaris.Base.Search
import Galaris.Process.Bpmn.Codec
import Galaris.Process.RunData

/-! The internal engine (`native_engine.py`): one call of `_advance` on a typed run.

A run holds occurrences of nodes: the tokens of the workflow. Advancing one of them lets
the arrivals at a convergence wait for each other (`joinTyped`), performs the activity,
starts the next iteration of a loop (`advanceLoop`), ends one (`advanceEnd`), and passes
the values on along the flows (`complete`). What an activity does, and what the run data
is when it is read, is given to the call (`Given`). -/
namespace Galaris.Process.Native
open Bpmn

/-! ### Occurrences -/

/-- The `values` of an occurrence: what its expressions can name. -/
structure Values where
  input : Json := .null
  data : Value
  results : Dict Value := ∅
  files : Json := .arr []
  output : Option Value := none
  decision : Option Bool := none
  item : Option Json := none
  index : Option Nat := none

/-- An entry of the stack `forks`: a split, and the values there. -/
structure Fork where
  key : Nat
  base : Values
  count : Nat

/-- The state of a loop between its iterations. -/
structure Loop where
  index : Nat := 0
  results : List Value := []
  items : Option (List Json) := none
  ends : List (Nat × Values) := []

structure Context where
  bodyPath : List String := []
  returnNode : Option Nat := none
  ancestors : List Nat := []
  incomingFlow : Option String := none
  forks : List Fork := []
  values : Values
  loop : Option Loop := none
  converged : Bool := false

inductive OccurrenceStatus
  | ready | waiting | success | error | unknown
  deriving DecidableEq, Repr

/-- `ProcessNodeRun`. Its identity and its `admission_order` are both distinct in a run;
`id` stands for either. -/
structure Occurrence where
  id : Nat
  nodeKey : String
  status : OccurrenceStatus := .ready
  output : Option Value := none
  context : Context

namespace Occurrence

/-- Ready or waiting. -/
def active (o : Occurrence) : Bool := o.status == .ready || o.status == .waiting

/-- The invocation scope that a convergence compares. -/
def frame (o : Occurrence) : List String × Option Nat := (o.context.bodyPath, o.context.returnNode)

end Occurrence

/-- The run and its native state. `events` are the completed occurrences, from the journal. -/
structure Run where
  status : Status := .running
  error : Option (String × String) := none
  output : Option Value := none
  endResults : List (Nat × Value) := []
  sequence : Nat := 1
  frontierSequence : Nat := 0
  frontierCursor : Option Nat := none
  frontierCutoff : Option Nat := none
  paused : Bool := false
  stepPending : Bool := false
  stepRoot : Option Nat := none
  breakpoints : List String := []
  breakpointHit : Option Nat := none
  breakpointSkip : Option Nat := none
  cancelRequested : Bool := false
  occurrences : List Occurrence := []
  events : List Nat := []

namespace Run

def find (run : Run) (id : Nat) : Option Occurrence := run.occurrences.find? fun o => o.id == id

/-- The rows that are ready or waiting. -/
def active (run : Run) : List Occurrence := run.occurrences.filter Occurrence.active

def update (run : Run) (o : Occurrence) : Run :=
  {run with occurrences := run.occurrences.map fun other => if other.id = o.id then o else other}

/-- `enqueue`. -/
def enqueue (run : Run) (nodeKey : String) (context : Context) : Run :=
  {run with
    frontierSequence := run.frontierSequence + 1
    occurrences := run.occurrences ++ [{id := run.frontierSequence + 1, nodeKey := nodeKey, context := context}]}

end Run

/-- `local_graph`; the source raises where this is `none`. -/
def localGraph (graph : Workflow) : List String → Option Workflow
  | [] => some graph
  | key :: rest =>
    match (graph.node key).bind Node.body with
    | some body => localGraph body rest
    | none => none

/-! ### What a call is given -/

/-- `expressions.evaluate`, and `values.normalize` for the output of the process. -/
structure Evaluator where
  evaluate : String → Values → Except String Json
  normalize : List Variable → Value → Except String Value

/-- What `_effect` does: nothing yet, a result, or an error; `unknown` where the outcome
of a started call is. -/
inductive Effect
  | outstanding
  | returned (result : Value)
  | raised (message : String) (unknown : Bool)

/-- What the call reads outside the run: the run data and the files, again once the result
is integrated, and the effect of the activity. -/
structure Given where
  data : Value
  files : Json := .arr []
  effect : Effect := .outstanding
  integrated : Value
  integratedFiles : Json := .arr []

/-- A call that raised, with what it had changed by then. -/
structure Failure where
  run : Run
  message : String
  unknown : Bool := false

abbrev Result (α : Type) := Except Failure α

def raise {α : Type} (run : Run) (message : String) : Result α := .error ⟨run, message, false⟩

/-- What `evaluate` raises in a call is raised there. -/
def attempt {α : Type} (run : Run) : Except String α → Result α
  | .ok a => .ok a
  | .error message => raise run message

section Calls
variable (E : Evaluator)

/-! ### Completion -/

/-- The first flow whose condition holds. -/
def chooseFlow (values : Values) : List Flow → Except String (Option Flow)
  | [] => .ok none
  | flow :: rest =>
    match flow.condition with
    | none => chooseFlow values rest
    | some condition => do
      let holds ← E.evaluate condition values
      if truthy holds then return some flow else chooseFlow values rest

/-- The flows a completed occurrence takes; an IF takes one, the default flow where no
condition holds. -/
def takenFlows (graph : Workflow) (node : Node) (values : Values) (forward : Bool) : Except String (List Flow) :=
  let flows := if forward then graph.outgoing node.id else []
  if node.kind == .if then
    match flows.find? fun flow => flow.condition.isNone with
    | none => .error "StopIteration"
    | some default => do
      let chosen ← chooseFlow E values flows
      return [chosen.getD default]
  else .ok flows

/-- The context that successors get, but for the flow they arrive by. -/
def successorContext (o : Occurrence) (values : Values) (count : Nat) : Context :=
  {o.context with
    loop := none
    converged := false
    values := values
    forks := if 1 < count then o.context.forks ++ [⟨o.id, values, count⟩] else o.context.forks}

/-- The run once `o` is completed and its successors are admitted. -/
def finish (run : Run) (o : Occurrence) (values : Values) (flows : List Flow) : Run :=
  let context := successorContext o values flows.length
  let run := flows.foldl (fun run flow => run.enqueue flow.target {context with incomingFlow := some flow.id}) run
  {run with
    stepRoot := if run.stepRoot = some o.id then none else run.stepRoot
    sequence := run.sequence + 1
    events := run.events ++ [o.id]}

/-- `_complete`, where the lease is held and the run is not cancelled. -/
def complete (graph : Workflow) (node : Node) (run : Run) (o : Occurrence) (values : Values) (forward : Bool) :
    Result Run := do
  let run := run.update {o with status := .success, output := values.output}
  let flows ← attempt run (takenFlows E graph node values forward)
  return finish run o values flows

/-! ### Convergence -/

/-- `reaches_target`. -/
def reachesTarget (graph : Workflow) (source target : String) : Bool :=
  let edges := graph.flows.map fun flow => (flow.source, flow.target)
  Search.search edges target (edges.length + 2) [source] []

/-- The active occurrences of the invocation. -/
def invocation (run : Run) (o : Occurrence) : List Occurrence := run.active.filter fun item => item.frame == o.frame

def arrivalsAt (run : Run) (o : Occurrence) : List Occurrence :=
  (invocation run o).filter fun item => item.nodeKey == o.nodeKey

/-- Some active occurrence of the invocation can still reach the node. -/
def blockedAt (graph : Workflow) (run : Run) (o : Occurrence) : Bool :=
  (invocation run o).any fun item => item.nodeKey != o.nodeKey && reachesTarget graph item.nodeKey o.nodeKey

/-- The arrival of greatest admission order. -/
def canonicalOf (o : Occurrence) (arrivals : List Occurrence) : Occurrence :=
  arrivals.foldl (fun best item => if best.id < item.id then item else best) o

/-- The entries that two stacks share. -/
def commonForks : List Fork → List Fork → List Fork
  | left :: lefts, right :: rights => if left.key = right.key then left :: commonForks lefts rights else []
  | _, _ => []

def sharedForks : List Occurrence → List Fork
  | [] => []
  | first :: rest => rest.foldl (fun common arrival => commonForks common arrival.context.forks) first.context.forks

/-- One entry of one branch: what the baseline has is skipped, what another branch wrote
must be the same. -/
def mergeEntry (describe : String → String) (baseline written : Dict Value) (key : String) (value : Value) :
    Except String (Dict Value) :=
  if (baseline.lookup key).any (· == value) then .ok written
  else if (written.lookup key).any (· != value) then .error (describe key)
  else .ok (written.insert key value)

/-- What the branches changed since the baseline. -/
def mergeResults (describe : String → String) (baseline : Dict Value) (branches : List (Dict Value)) :
    Except String (Dict Value) :=
  branches.foldlM (fun written branch =>
    branch.entries.foldlM (fun written entry => mergeEntry describe baseline written entry.1 entry.2) written) ∅

def bothWrite (what key : String) : String := what ++ " both write results." ++ key

/-- The last split that all arrivals come from. -/
def matchingFork (arrivals : List Occurrence) : Option Fork := (sharedForks arrivals).getLast?

/-- The results of the arrivals, merged over those at the split. -/
def mergeArrivals (arrivals : List Occurrence) : Except String (Dict Value) := do
  let baseline := ((matchingFork arrivals).map (·.base.results)).getD ∅
  let written ← mergeResults (bothWrite "Parallel branches") baseline (arrivals.map (·.context.values.results))
  return written ∪ baseline

/-- The rows once `canonical` stands for all arrivals. -/
def absorb (arrivals : List Occurrence) (canonical : Occurrence) (values : Values) (run : Run) : Run :=
  {run with occurrences := run.occurrences.map fun item =>
    if item.id = canonical.id then
      {canonical with
        status := .ready
        context := {canonical.context with
          forks := (sharedForks arrivals).dropLast
          values := values
          converged := true}}
    else if arrivals.any fun arrival => arrival.id == item.id then {item with status := .success}
    else item}

/-- `_join_typed`, short of the completion: the rows it leaves, and whether `o` goes on. -/
def joinTyped (graph : Workflow) (run : Run) (o : Occurrence) : Except String (Run × Bool) := do
  if blockedAt graph run o then return (run.update {o with status := .waiting}, false)
  let arrivals := arrivalsAt run o
  if !decide (arrivals.map (·.context.incomingFlow)).Nodup then throw "Parallel join has duplicate arrivals"
  let canonical := canonicalOf o arrivals
  let results ← mergeArrivals arrivals
  let base := ((matchingFork arrivals).map (·.base)).getD canonical.context.values
  return (absorb arrivals canonical {base with results := results} run, canonical.id == o.id)

/-! ### Loops -/

def isArray : Json → Option (List Json)
  | .arr items => some items
  | _ => none

/-- `{"iterations": results}`. -/
def Value.iterations (results : List Value) : Value where
  json := .obj [("iterations", .arr (results.map Value.json))]
  wellFormed := by
    refine ⟨List.nodup_singleton _, ?_, trivial⟩
    show Json.WellFormedItems (results.map Value.json)
    induction results with
    | nil => trivial
    | cons value rest ih => exact ⟨value.wellFormed, ih⟩

/-- The items of a FOR, evaluated once. -/
def loopItems (node : Node) (values : Values) (loop : Loop) : Except String (List Json) :=
  match loop.items with
  | some items => .ok items
  | none => do
    let items ← E.evaluate (((node.config.lookup "items").bind fun value =>
      match value with | .str s => some s | _ => none).getD "") values
    match isArray items with
    | some items => return items
    | none => throw "FOR requires an array"

/-- Whether a loop goes on, with the values and the state it goes on with. -/
def loopProceeds (node : Node) (values : Values) (loop : Loop) : Except String (Bool × Values × Loop) :=
  if node.kind == .for_ then do
    let items ← loopItems E node values loop
    let loop := {loop with items := some items}
    match items[loop.index]? with
    | some item => return (true, {values with item := some item, index := some loop.index}, loop)
    | none => return (false, values, loop)
  else do
    let values := {values with index := some loop.index}
    let holds ← E.evaluate (((node.config.lookup "condition").bind fun value =>
      match value with | .str s => some s | _ => none).getD "") values
    return (truthy holds, values, loop)

/-- `_loop`. -/
def advanceLoop (graph : Workflow) (node : Node) (run : Run) (o : Occurrence) : Result Run := do
  if o.status == .waiting then return run
  match node.body with
  | none => raise run "AssertionError"
  | some body =>
    let (proceed, values, loop) ← attempt run
      (loopProceeds E node o.context.values (o.context.loop.getD {}))
    let o := {o with context := {o.context with values := values, loop := some loop}}
    if !proceed then
      let output := Value.iterations loop.results
      complete E graph node run o
        {values with output := some output, results := values.results.insert node.id output} true
    else
      match body.nodes.find? fun item => item.kind == .start with
      | none => raise run "StopIteration"
      | some start =>
        return (run.update {o with status := .waiting}).enqueue start.id
          {o.context with
            loop := none
            bodyPath := o.context.bodyPath ++ [node.id]
            returnNode := some o.id
            ancestors := o.context.ancestors ++ [o.id]
            forks := []}

/-- Another row of the body of the loop is active. -/
def bodyPending (run : Run) (loop end' : Nat) : Bool :=
  run.active.any fun item => item.id != end' && item.id != loop &&
    (item.context.returnNode == some loop || item.context.ancestors.contains loop)

/-- `loop["ends"] = {**loop["ends"], id: values}`. -/
def addEnd (ends : List (Nat × Values)) (id : Nat) (values : Values) : List (Nat × Values) :=
  ends.filter (fun entry => entry.1 != id) ++ [(id, values)]

/-- What an end inside a loop does to the loop. -/
def returnToLoop (run : Run) (o : Occurrence) (values : Values) (output : Value) (returning : Nat) : Result Run :=
  match run.find returning with
  | none => raise run "AssertionError"
  | some parent =>
    match parent.context.loop with
    | none => raise run "KeyError: loop"
    | some loop =>
      let ends := addEnd loop.ends o.id values
      if bodyPending run parent.id o.id then
        .ok (run.update {parent with context := {parent.context with loop := some {loop with ends := ends}}})
      else do
        let baseline := parent.context.values.results
        let written ← attempt run
          (mergeResults (bothWrite "Loop end events") baseline (ends.map (·.2.results)))
        return run.update {parent with
          status := .ready
          context := {parent.context with
            loop := some {loop with index := loop.index + 1, results := loop.results ++ [output], ends := []}
            values := {parent.context.values with data := output, results := written ∪ baseline}}}

/-- What an end of the process does to the run. -/
def returnToRun (graph : Workflow) (run : Run) (o : Occurrence) (output : Value) : Result (Run × Value) := do
  let pending := run.active.any fun item => item.id != o.id
  let output ←
    if pending then pure output
    else match graph.outputs with
      | some outputs => attempt run (E.normalize outputs output)
      | none => raise run "AssertionError"
  let run := {run with endResults := run.endResults.filter (fun entry => entry.1 != o.id) ++ [(o.id, output)]}
  if pending then return (run, output)
  else return ({run with status := .success, output := some output}, output)

def isObject : Json → Bool
  | .obj _ => true
  | _ => false

/-- `_end`. -/
def advanceEnd (graph : Workflow) (node : Node) (run : Run) (o : Occurrence) : Result Run := do
  let values := o.context.values
  let output := values.data
  if !isObject output.json then raise run "Process output must be an object"
  match o.context.returnNode with
  | some returning =>
    let values := {values with output := some output}
    let run ← returnToLoop run o values output returning
    complete E graph node run o values false
  | none =>
    let (run, output) ← returnToRun E graph run o output
    complete E graph node run o {values with output := some output} false

/-! ### One call -/

/-- `unwrap(result["decision"])`, where it is a boolean. -/
def decisionOf (result : Value) : Option Bool :=
  match result.json with
  | .obj entries =>
    match (entries.lookup "decision").bind envelope with
    | some (_, .bool b) => some b
    | _ => none
  | _ => none

/-- `_workspace_values`: the run data as it is now. -/
def workspaceValues (o : Occurrence) (data : Value) (files : Json) : Occurrence :=
  {o with context := {o.context with values := {o.context.values with data := data, files := files}}}

/-- The row of an outstanding activity. -/
def Run.await (run : Run) (o : Occurrence) : Run := run.update {o with status := .waiting}

/-- An IF whose mode asks an agent, code or a human. -/
def advanceDecision (graph : Workflow) (node : Node) (run : Run) (o : Occurrence) (given : Given) : Result Run :=
  match given.effect with
  | .outstanding => .ok (run.await o)
  | .raised message unknown => .error ⟨run, message, unknown⟩
  | .returned result =>
    match decisionOf result with
    | some decision =>
      let values := {o.context.values with decision := some decision, output := some result}
      complete E graph node run {o with context := {o.context with values := values}} values true
    | none => raise run "An IF result must be a boolean"

/-- An activity; its result is integrated into the run data before it is passed on. -/
def advanceActivity (graph : Workflow) (node : Node) (run : Run) (o : Occurrence) (given : Given) : Result Run :=
  match given.effect with
  | .outstanding => .ok (run.await o)
  | .raised message unknown => .error ⟨run, message, unknown⟩
  | .returned result =>
    let o := workspaceValues o given.integrated given.integratedFiles
    let values := {o.context.values with
      output := some result
      results := o.context.values.results.insert node.id result}
    complete E graph node run {o with context := {o.context with values := values}} values true

/-- The join of a parallel gateway, which completes at once. -/
def advanceParallel (graph : Workflow) (node : Node) (run : Run) (o : Occurrence) (given : Given) : Result Run := do
  let (run, proceed) ← attempt run (joinTyped graph run o)
  if !proceed then return run
  match run.find o.id with
  | none => raise run "AssertionError"
  | some o =>
    let o := workspaceValues o given.data given.files
    complete E graph node run o o.context.values true

/-- Several flows lead to the node. -/
def converges (graph : Workflow) (key : String) : Bool := decide (1 < (graph.incoming key).length)

/-- `_advance` once the arrivals have converged. -/
def act (graph : Workflow) (node : Node) (run : Run) (o : Occurrence) (given : Given) : Result Run :=
  if node.kind == .if && node.mode.isSome then advanceDecision E graph node run o given
  else if node.kind.isActivity then advanceActivity E graph node run o given
  else if node.kind.isLoop then advanceLoop E graph node run o
  else if node.kind == .parallel && converges graph node.id then advanceParallel E graph node run o given
  else if node.kind == .end then advanceEnd E graph node run o
  else complete E graph node run o o.context.values true

/-- `_advance`, short of its error handler. -/
def advance (graph : Workflow) (node : Node) (run : Run) (o : Occurrence) (given : Given) : Result Run := do
  let (run, proceed) ←
    if node.kind != .parallel && converges graph node.id &&
      !o.context.converged then attempt run (joinTyped graph run o)
    else pure (run, true)
  if !proceed then return run
  match run.find o.id with
  | none => raise run "AssertionError"
  | some o =>
    let o := workspaceValues o given.data given.files
    act E graph node (run.update o) o given

/-- The error handler of `_advance`: the occurrence fails and the run is cancelled. -/
def fail (failure : Failure) (o : Occurrence) (node : Node) : Run :=
  let run := failure.run
  let row := (run.find o.id).getD o
  let external := node.kind == .toolCall || node.kind == .rest || node.kind == .program
  {run.update {row with status := if failure.unknown && external then .unknown else .error} with
    status := .cancelling
    cancelRequested := true
    paused := run.paused || (failure.unknown && external)
    error := some (if failure.unknown && external then "effect_outcome_unknown" else "node_failed", failure.message)}

/-- One call of `_advance` on an active occurrence of a running run. -/
def step (G : Workflow) (run : Run) (o : Occurrence) (given : Given) : Run :=
  match localGraph G o.context.bodyPath with
  | none => run
  | some graph =>
    match graph.node o.nodeKey with
    | none => run
    | some node =>
      match advance E graph node run o given with
      | .ok run => run
      | .error failure => fail failure o node

end Calls

end Galaris.Process.Native
