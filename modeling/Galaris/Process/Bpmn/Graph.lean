import Galaris.Process.Values

/-! The executable Galaris profile of BPMN (`bpmn.py`).

A workflow is a graph of nodes and sequence flows; a loop node holds another workflow as
its body. `validateGraph` is what the repository accepts: identifiers that are unique
across every body, one start from which every node is reached, no cycle, and the
configuration each kind of node needs. -/
namespace Galaris.Process.Bpmn

/-! ### The graph -/

structure Flow where
  id : String
  source : String
  target : String
  condition : Option String := none
  deriving DecidableEq

inductive NodeKind
  | start | «end» | task | humanTask | toolCall | rest | code | program | call | «if» | parallel | for_ | while_
  deriving DecidableEq, Repr

def NodeKind.name : NodeKind → String
  | .start => "start"
  | .end => "end"
  | .task => "task"
  | .humanTask => "human_task"
  | .toolCall => "tool_call"
  | .rest => "rest"
  | .code => "code"
  | .program => "program"
  | .call => "call"
  | .if => "if"
  | .parallel => "parallel"
  | .for_ => "for"
  | .while_ => "while"

def NodeKind.all : List NodeKind :=
  [.start, .end, .task, .humanTask, .toolCall, .rest, .code, .program, .call, .if, .parallel, .for_, .while_]

def NodeKind.ofName (name : String) : Option NodeKind := NodeKind.all.find? fun kind => kind.name == name

/-- `ACTIVITY_KINDS`. -/
def NodeKind.isActivity : NodeKind → Bool
  | .task | .humanTask | .toolCall | .rest | .code | .program | .call => true
  | _ => false

def NodeKind.isLoop : NodeKind → Bool
  | .for_ | .while_ => true
  | _ => false

inductive ActorKind
  | agent | human
  deriving DecidableEq

structure Actor where
  id : String
  name : String
  kind : ActorKind
  agentId : Option Nat := none
  userId : Option Nat := none
  deriving DecidableEq

inductive SchemaVersion
  | v1 | v2
  deriving DecidableEq

abbrev Config := List (String × Json)

mutual

structure Node where
  id : String
  kind : NodeKind
  title : String := ""
  config : Config := []
  x : Rat := 0
  y : Rat := 0
  body : Option Workflow := none
  inputs : Option (List Variable) := none
  outputs : Option (List Variable) := none

structure Workflow where
  schemaVersion : SchemaVersion := .v1
  nodes : List Node
  flows : List Flow
  actors : List Actor := []
  executionAgentId : Option Nat := none
  inputs : Option (List Variable) := none
  outputs : Option (List Variable) := none

end

namespace Workflow

def typed (graph : Workflow) : Bool := graph.schemaVersion == .v2

def outgoing (graph : Workflow) (key : String) : List Flow := graph.flows.filter fun flow => flow.source == key

def incoming (graph : Workflow) (key : String) : List Flow := graph.flows.filter fun flow => flow.target == key

/-- `graph.node`; the source raises where this is `none`. -/
def node (graph : Workflow) (key : String) : Option Node := graph.nodes.find? fun node => node.id == key

/-- The identifiers of this graph, without those of its bodies. -/
def identities (graph : Workflow) : List String := graph.nodes.map (·.id) ++ graph.flows.map (·.id)

end Workflow

/-! ### What the validation calls -/

/-- `parse_expression`, which rests on Python's own parser, and `str` of a value that is
not text. Python's grammar has no empty expression. -/
structure Services extends Boundary where
  parseExpression : String → Except String Unit
  str : Json → String
  parseExpression_empty : parseExpression "" ≠ .ok ()

/-- `str(value)`. -/
def Services.text (S : Services) : Json → String
  | .str s => s
  | value => S.str value

section Validation
variable (S : Services)

/-- `str(config.get(key, "")).strip()` is empty. -/
def blankText (config : Config) (key : String) : Bool := ((config.lookup key).map S.text).all isBlank

def isText (json : Option Json) (text : String) : Bool :=
  match json with
  | some (.str s) => s == text
  | _ => false

/-- Raises `message` where `failed`. -/
def reject (failed : Bool) (message : String) : Except String Unit :=
  if failed then .error message else .ok ()

/-! ### Checks of one node's configuration -/

/-- The mode of an IF, where it is configured; Python's `None` counts as absent. -/
def Node.mode (node : Node) : Option Json := (node.config.lookup "mode").filter fun value => !value.isNull

def checkAiMode (typed : Bool) (node : Node) : Except String Unit := do
  match node.config.lookup "ai_mode" with
  | none => return ()
  | some mode =>
    reject (node.kind != .if || !typed || !(isText (some mode) "task" || isText (some mode) "llm"))
      "AI execution modes belong to typed IF activities and require task or llm"
  if node.kind == .if && isText node.mode "ai" && isText (node.config.lookup "ai_mode") "llm" then
    match node.config.lookup "llm_id" with
    | some (.int n) => reject (n ≤ 0) "A simple LLM IF requires a configured model"
    | _ => throw "A simple LLM IF requires a configured model"

def checkIfMode (typed : Bool) (actors : List Actor) (node : Node) : Except String Unit := do
  if node.kind == .if && node.mode.isSome then
    let isCode := isText node.mode "code"
    let isHuman := isText node.mode "human"
    reject (!typed || !(isText node.mode "ai" || isCode || isHuman))
      "IF processing modes require the typed profile and ai, code or human"
    reject (isCode && blankText S node.config "code") "A code IF requires Python source"
    reject (!isCode && blankText S node.config "prompt") "An AI or human IF requires instructions"
    let key := ((node.config.lookup "actor").map S.text).getD ""
    let assigned := actors.find? fun actor => actor.id == key
    reject (isHuman && !(assigned.any fun actor => actor.kind == .human)) "A human IF requires a human actor"
    reject (!isHuman && assigned.any fun actor => actor.kind != .agent) "An AI actor permits only AI or code processing"

def isBoolean : Json → Bool
  | .bool _ => true
  | _ => false

def isScript : Json → Bool
  | .str source => source.length ≤ 100000
  | _ => false

def checkScripts (typed : Bool) (node : Node) : Except String Unit := do
  reject ((node.config.lookup "external_output_typed").any (!isBoolean ·))
    (node.id ++ ": external_output_typed must be a boolean")
  reject ((node.config.lookup "dataset_code").any (!isBoolean ·)) (node.id ++ ": dataset_code must be a boolean")
  ["preprocess", "postprocess", "code"].forM fun script =>
    reject ((node.config.lookup script).any fun source => !typed || !isScript source)
      (node.id ++ ": scripts require bounded Python source and the typed profile")
  reject (node.kind == .code && (!typed || blankText S node.config "code"))
    (node.id ++ ": a Code activity requires Python source and the typed profile")

def checkDeclarations (typed : Bool) (node : Node) : Except String Unit := do
  if typed && node.kind.isActivity then
    match node.inputs, node.outputs with
    | some inputs, some outputs =>
      validateDeclarations S.toBoundary (node.id ++ ".inputs") inputs
      validateDeclarations S.toBoundary (node.id ++ ".outputs") outputs
    | _, _ => throw (node.id ++ ": each activity requires explicit inputs and outputs")
  else
    reject (node.inputs.isSome || node.outputs.isSome) (node.id ++ ": declarations belong to typed activities")

/-- The type of actor an activity requires, where it requires one. -/
def requiredActor (typed : Bool) (kind : NodeKind) : Option ActorKind :=
  if kind == .humanTask then some .human
  else if kind == .task || typed && kind.isActivity then some .agent
  else none

def checkActor (typed : Bool) (actors : List Actor) (node : Node) : Except String Unit :=
  match (node.config.lookup "actor").filter fun value => !value.isNull with
  | some (.str key) =>
    match actors.find? fun actor => actor.id == key with
    | some actor =>
      reject ((requiredActor typed node.kind).any (· != actor.kind)) "Human and agent tasks cannot exchange actor types"
    | none => .error "An activity references an unknown actor"
  | some _ => .error "An activity references an unknown actor"
  | none => reject (node.kind == .humanTask) "A human task requires a human actor"

def checkNode (typed : Bool) (actors : List Actor) (node : Node) : Except String Unit := do
  checkAiMode typed node
  checkIfMode S typed actors node
  checkScripts S typed node
  checkDeclarations S typed node
  checkActor typed actors node

/-! ### Checks of the graph -/

def checkProfile (graph : Workflow) : Except String Unit := do
  if graph.typed then
    match graph.inputs, graph.outputs with
    | some inputs, some outputs =>
      validateDeclarations S.toBoundary "process.inputs" inputs
      validateDeclarations S.toBoundary "process.outputs" outputs
    | _, _ => throw "The typed profile requires explicit process inputs and outputs"
  else
    reject (graph.inputs.isSome || graph.outputs.isSome) "Data declarations require the galaris.bpmn/v2 profile"

def checkActors (actors : List Actor) : Except String Unit := do
  reject (!decide (actors.map (·.id)).Nodup) "Actor identifiers must be unique within a graph"
  actors.forM fun actor =>
    reject (isBlank actor.name || (actor.kind == .agent && actor.userId.isSome) ||
        (actor.kind == .human && actor.agentId.isSome))
      "An actor must have a name and an assignment of its own type"

def checkFlow (graph : Workflow) (flow : Flow) : Except String Unit := do
  match graph.node flow.source, graph.node flow.target with
  | some source, some _ =>
    match flow.condition with
    | none => return ()
    | some condition =>
      S.parseExpression condition
      reject (source.kind != .if) "Conditions belong to exclusive gateways"
  | _, _ => throw "A sequence flow references an unknown node"

/-- `walk`: the nodes finished so far, the last one first. `active` is the path to `key`,
which holds no node twice, so that `fuel` covers it. -/
def walk (graph : Workflow) : Nat → List String → String → List String → Except String (List String)
  | 0, _, _, _ => .error "Cycles must be expressed with a FOR or WHILE subprocess"
  | fuel + 1, active, key, visited =>
    if active.contains key then .error "Cycles must be expressed with a FOR or WHILE subprocess"
    else if visited.contains key then .ok visited
    else do
      let visited ← (graph.outgoing key).foldlM
        (fun visited flow => walk graph fuel (key :: active) flow.target visited) visited
      return key :: visited

def checkReachable (graph : Workflow) : Except String Unit := do
  match graph.nodes.filter fun node => node.kind == .start with
  | [start] =>
    let visited ← walk graph (graph.nodes.length + 1) [] start.id []
    reject (!graph.nodes.all fun node => visited.contains node.id) "Every node must be reachable from the start"
  | _ => throw "A workflow requires exactly one start and at least one end"

def checkEnds (graph : Workflow) : Except String Unit :=
  reject ((graph.nodes.filter fun node => node.kind == .start).length != 1 ||
      !graph.nodes.any fun node => node.kind == .end)
    "A workflow requires exactly one start and at least one end"

/-- Everything before the last loop over the nodes; the identifiers seen so far, with
those of this graph. -/
def checkGraph (graph : Workflow) (seen : List String) : Except String (List String) := do
  checkProfile S graph
  reject (!decide graph.identities.Nodup) "Node and flow identifiers must be unique"
  reject (graph.identities.any seen.contains) "BPMN identifiers must also be unique across subprocess bodies"
  checkActors graph.actors
  graph.nodes.forM (checkNode S graph.typed graph.actors)
  checkEnds graph
  graph.flows.forM (checkFlow S graph)
  checkReachable graph
  return graph.identities ++ seen

/-- The degrees of a node and the branches of an IF. -/
def checkFlows (graph : Workflow) (node : Node) : Except String Unit := do
  let outgoing := graph.outgoing node.id
  reject ((node.kind == .end && !outgoing.isEmpty) || (node.kind != .end && outgoing.isEmpty))
    "Only end events may have no outgoing flow"
  reject (node.kind == .start && !(graph.incoming node.id).isEmpty) "Start events cannot have incoming flows"
  if node.kind == .if then
    let conditions := outgoing.map (·.condition)
    reject (node.mode.isSome && !(outgoing.length == 2 && conditions.contains (some "decision") &&
        conditions.contains none))
      "A configured IF requires exactly one True and one False output"
    reject ((outgoing.filter fun flow => flow.condition.isNone).length != 1)
      "An IF gateway requires exactly one default flow"

/-- `items` or `condition`, by the kind of loop. -/
def loopExpression (kind : NodeKind) : String := if kind == .for_ then "items" else "condition"

/-- What a node's own configuration must name. -/
def checkActivity (graph : Workflow) (node : Node) : Except String Unit := do
  reject ((node.kind == .task || node.kind == .humanTask) && blankText S node.config "prompt")
    "Each Task requires instructions for its prompt"
  reject (node.kind == .call && blankText S node.config "process_code") "A call activity requires a process code"
  reject (node.kind == .toolCall && blankText S node.config "tool") "A tool activity requires an operation name"
  reject (node.kind == .rest && (!graph.typed || blankText S node.config "tool_code"))
    "A REST activity requires the typed profile and a Tool code"
  reject (node.kind == .parallel && decide (1 < (graph.incoming node.id).length) &&
      decide (1 < (graph.outgoing node.id).length))
    "Use distinct parallel split and join gateways"

/-- What a loop needs besides an accepted body. -/
def checkLoop (kind : NodeKind) (config : Config) (version bodyVersion : SchemaVersion) : Except String Unit := do
  reject (bodyVersion != version) "Inline subprocesses must use the same data profile"
  match config.lookup (loopExpression kind) with
  | some (.str expression) => S.parseExpression expression
  | _ => throw "A loop requires an items or condition expression"

mutual

/-- `validate_graph`, from the identifiers seen in the enclosing graphs to those seen after. -/
def validateWorkflow : Workflow → List String → Except String (List String)
  | ⟨version, nodes, flows, actors, agent, inputs, outputs⟩, seen => do
    let graph : Workflow := ⟨version, nodes, flows, actors, agent, inputs, outputs⟩
    let seen ← checkGraph S graph seen
    validateNodes graph nodes seen

def validateNodes (graph : Workflow) : List Node → List String → Except String (List String)
  | [], seen => .ok seen
  | node :: rest, seen => do
    checkFlows graph node
    let seen ← validateBody graph.schemaVersion node seen
    checkActivity S graph node
    validateNodes graph rest seen

def validateBody (version : SchemaVersion) : Node → List String → Except String (List String)
  | ⟨_, kind, _, config, _, _, some body, _, _⟩, seen =>
    if kind.isLoop then do
      let seen ← validateWorkflow body seen
      checkLoop S kind config version body.schemaVersion
      return seen
    else .error "Only loop nodes have inline bodies"
  | ⟨_, kind, _, _, _, _, none, _, _⟩, seen =>
    if kind.isLoop then .error "A loop requires a subprocess body" else .ok seen

end

/-- `validate_graph`. -/
def validateGraph (graph : Workflow) : Except String Unit := do
  let _ ← validateWorkflow S graph []

end Validation

end Galaris.Process.Bpmn
