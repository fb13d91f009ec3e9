import Galaris.Process.Bpmn.Accepted
import Mathlib.Data.List.Dedup

/-! The BPMN 2.0 form of a workflow (`bpmn.py`).

`toBpmn` writes an element tree: nodes and flows under their BPMN tags, what BPMN has
no place for as JSON in extension elements, and the coordinates in a diagram. `compile`
reads it back. Both share the configuration object of a node, in which the encoder
keeps the declarations and the kinds that a BPMN tag does not tell apart. -/
namespace Galaris.Process.Bpmn

/-! ### Element trees -/

inductive Namespace
  | bpmn | galaris | di | dc | dd | other
  deriving DecidableEq

structure Tag where
  ns : Namespace
  name : String
  deriving DecidableEq

/-- An XML element. Empty text is absent text, as an XML parser reads it. -/
inductive Element
  | mk (tag : Tag) (attrib : List (String × String)) (text : String) (children : List Element)

namespace Element

def tag : Element → Tag
  | mk tag _ _ _ => tag

def attrib : Element → List (String × String)
  | mk _ attrib _ _ => attrib

def text : Element → String
  | mk _ _ text _ => text

def children : Element → List Element
  | mk _ _ _ children => children

/-- `element.get(key, "")`. -/
def get (element : Element) (key : String) : String := (element.attrib.lookup key).getD ""

mutual

/-- `root.iter()`. -/
def iter : Element → List Element
  | mk tag attrib text children => mk tag attrib text children :: iterAll children

def iterAll : List Element → List Element
  | [] => []
  | element :: rest => element.iter ++ iterAll rest

end

/-- `children` that carry the tag. -/
def findAll (children : List Element) (tag : Tag) : List Element :=
  children.filter fun child => child.tag == tag

end Element

def bpmnTag (name : String) : Tag := ⟨.bpmn, name⟩
def galarisTag (name : String) : Tag := ⟨.galaris, name⟩
def shapeTag : Tag := ⟨.di, "BPMNShape"⟩
def extensionTag : Tag := bpmnTag "extensionElements"

/-- The child of the extension elements under `children` that carries the tag. -/
def findExtension (children : List Element) (name : String) : Option Element :=
  ((Element.findAll children extensionTag).flatMap Element.children).find? fun child => child.tag == galarisTag name

/-! ### The libraries below -/

/-- `json`, `float`, `str` and `ElementTree`: each reads what it writes. -/
structure Libraries extends Services where
  dumps : Json → String
  loads : String → Option Json
  loads_dumps : ∀ {json : Json}, json.WellFormed → loads (dumps json) = some json
  loads_empty : loads "" = none
  floatText : Rat → String
  parseFloat : String → Option Rat
  parseFloat_floatText : ∀ x, parseFloat (floatText x) = some x
  addFloat : Rat → Nat → Rat
  serialize : Element → String
  parseXml : String → Option Element
  parseXml_serialize : ∀ element, parseXml (serialize element) = some element
  /-- The text holds a document type or an entity declaration. -/
  prohibited : String → Bool
  prohibited_serialize : ∀ element, prohibited (serialize element) = false

/-! ### Writing -/

/-- The tag of a kind without a body (`_TAGS_BACK`, and the two kinds that share a tag). -/
def tagName : NodeKind → String
  | .start => "startEvent"
  | .end => "endEvent"
  | .task => "task"
  | .humanTask => "userTask"
  | .toolCall | .rest => "serviceTask"
  | .program | .code => "scriptTask"
  | .call => "callActivity"
  | .if => "exclusiveGateway"
  | .parallel => "parallelGateway"
  | .for_ | .while_ => "subProcess"

def nodeTag (node : Node) : String := if node.body.isSome then "subProcess" else tagName node.kind

/-- `config[key] = value`. -/
def setKey (config : Config) (key : String) (value : Json) : Config :=
  if (Json.keys config).contains key then
    config.map fun entry => if entry.1 == key then (key, value) else entry
  else config ++ [(key, value)]

/-- `config.pop(key)`. -/
def popKey (config : Config) (key : String) : Config := config.filter fun entry => entry.1 != key

def dumpVariables (declared : List Variable) : Json := .arr (declared.map Variable.dump)

/-- The encoder's own entries, in the order it writes them. -/
def controlEntries (node : Node) : Config :=
  (if node.body.isSome then [("loop_kind", .str node.kind.name)] else []) ++
    ((if node.kind == .rest || node.kind == .code then [("activity_kind", .str node.kind.name)] else []) ++
      (node.inputs.toList.map (("inputs", dumpVariables ·)) ++ node.outputs.toList.map (("outputs", dumpVariables ·))))

/-- The configuration with the encoder's own entries. -/
def encodedConfig (node : Node) : Config :=
  (controlEntries node).foldl (fun config entry => setKey config entry.1 entry.2) node.config

def ActorKind.name : ActorKind → String
  | .agent => "agent"
  | .human => "human"

def dumpId : Option Nat → Json
  | some n => .int n
  | none => .null

def Actor.dump (actor : Actor) : Json :=
  .obj [("id", .str actor.id), ("name", .str actor.name), ("kind", .str actor.kind.name),
    ("agent_id", dumpId actor.agentId), ("user_id", dumpId actor.userId)]

def SchemaVersion.name : SchemaVersion → String
  | .v1 => "galaris.bpmn/v1"
  | .v2 => "galaris.bpmn/v2"

/-- `workflow.model_dump(exclude={"nodes", "flows"})`. -/
def Workflow.settings (graph : Workflow) : Json :=
  .obj ([("schema_version", .str graph.schemaVersion.name), ("actors", .arr (graph.actors.map Actor.dump)),
      ("execution_agent_id", dumpId graph.executionAgentId)] ++
    graph.inputs.toList.map (("inputs", dumpVariables ·)) ++ graph.outputs.toList.map (("outputs", dumpVariables ·)))

/-- `identifier`: underscores are appended until the name is free, which takes at most one
more than there are names. -/
def identifier (used : List String) (base : String) : String :=
  (((List.range (used.length + 1)).map fun k => base ++ String.ofList (List.replicate k '_')).find?
    fun candidate => !used.contains candidate).getD base

/-- What `write` leaves: children for the parent, elements for the diagram, and the
identifiers taken by then. -/
structure Written where
  elements : List Element := []
  plane : List Element := []
  used : List String

section Writing
variable (L : Libraries)

def laneElement (graph : Workflow) (actor : Actor) (id : String) : Element :=
  .mk (bpmnTag "lane") [("id", id), ("name", actor.name)] ""
    ((graph.nodes.filter fun node => isText (node.config.lookup "actor") actor.id).map fun node =>
      .mk (bpmnTag "flowNodeRef") [] node.id [])

def writeLaneList (graph : Workflow) : List Actor → List String → List Element × List String
  | [], used => ([], used)
  | actor :: rest, used =>
    let id := identifier used ("Lane_" ++ actor.id)
    let (lanes, used) := writeLaneList graph rest (id :: used)
    (laneElement graph actor id :: lanes, used)

def writeLanes (graph : Workflow) (used : List String) : Written :=
  if graph.actors.isEmpty then {used := used}
  else
    let id := identifier used "Lanes"
    let (lanes, used) := writeLaneList graph graph.actors (id :: used)
    {elements := [.mk (bpmnTag "laneSet") [("id", id)] "" lanes], used := used}

def shapeElement (node : Node) (id : String) : Element :=
  .mk shapeTag [("id", id), ("bpmnElement", node.id)] ""
    [.mk ⟨.dc, "Bounds"⟩ [("x", L.floatText node.x), ("y", L.floatText node.y), ("width", "160"),
      ("height", "70")] "" []]

def flowElement (flow : Flow) : Element :=
  .mk (bpmnTag "sequenceFlow") [("id", flow.id), ("sourceRef", flow.source), ("targetRef", flow.target)] ""
    (flow.condition.toList.map fun condition => .mk (bpmnTag "conditionExpression") [] condition [])

def edgeElement (graph : Workflow) (flow : Flow) (id : String) : Element :=
  .mk ⟨.di, "BPMNEdge"⟩ [("id", id), ("bpmnElement", flow.id)] ""
    (([flow.source, flow.target].filterMap graph.node).map fun node =>
      .mk ⟨.dd, "waypoint"⟩ [("x", L.floatText (L.addFloat node.x 80)),
        ("y", L.floatText (L.addFloat node.y 35))] "" [])

def writeFlows (graph : Workflow) : List Flow → List String → Written
  | [], used => {used := used}
  | flow :: rest, used =>
    let id := identifier used ("Edge_" ++ flow.id)
    let written := writeFlows graph rest (id :: used)
    {written with
      elements := flowElement flow :: written.elements
      plane := edgeElement L graph flow id :: written.plane}

def settingsElement (graph : Workflow) : Element :=
  .mk (galarisTag "workflow") [] (L.dumps graph.settings) []

def configElement (node : Node) : Element :=
  .mk (galarisTag "config") [] (L.dumps (.obj (encodedConfig node))) []

/-- A node under its tag; `inner` is what the body of a loop wrote into it. -/
def nodeElement (node : Node) (settings : List Element) (inner : List Element) : Element :=
  .mk (bpmnTag (nodeTag node)) [("id", node.id), ("name", node.title)] ""
    (.mk extensionTag [] "" (configElement L node :: settings) :: inner)

mutual

/-- `write`: the lanes, the nodes and the flows of a graph. -/
def writeWorkflow : Workflow → List String → Written
  | ⟨version, nodes, flows, actors, agent, inputs, outputs⟩, used =>
    let graph : Workflow := ⟨version, nodes, flows, actors, agent, inputs, outputs⟩
    let lanes := writeLanes graph used
    let body := writeNodes nodes lanes.used
    let links := writeFlows L graph flows body.used
    ⟨lanes.elements ++ (body.elements ++ links.elements), body.plane ++ links.plane, links.used⟩

def writeNodes : List Node → List String → Written
  | [], used => {used := used}
  | node :: rest, used =>
    let first := writeNode node used
    let others := writeNodes rest first.used
    ⟨first.elements ++ others.elements, first.plane ++ others.plane, others.used⟩

def writeNode : Node → List String → Written
  | ⟨id, kind, title, config, x, y, some body, inputs, outputs⟩, used =>
    let node : Node := ⟨id, kind, title, config, x, y, some body, inputs, outputs⟩
    let inner := writeWorkflow body used
    let shape := identifier inner.used ("Shape_" ++ id)
    ⟨[nodeElement L node [settingsElement L body] inner.elements], inner.plane ++ [shapeElement L node shape],
      shape :: inner.used⟩
  | ⟨id, kind, title, config, x, y, none, inputs, outputs⟩, used =>
    let node : Node := ⟨id, kind, title, config, x, y, none, inputs, outputs⟩
    let shape := identifier used ("Shape_" ++ id)
    ⟨[nodeElement L node [] []], [shapeElement L node shape], shape :: used⟩

end

/-- The tree of `to_bpmn`. -/
def document (graph : Workflow) (code : String) : Element :=
  let used := allIds graph
  let process := identifier used ("Process_" ++ code)
  let used := process :: used
  let diagram := identifier used "Diagram"
  let used := diagram :: used
  let plane := identifier used "Plane"
  let written := writeWorkflow L graph (plane :: used)
  .mk (bpmnTag "definitions") [("targetNamespace", "https://galaris.ai/bpmn/v1")] ""
    [.mk (bpmnTag "process") [("id", process), ("isExecutable", "true")] ""
        (.mk extensionTag [] "" [settingsElement L graph] :: written.elements),
      .mk ⟨.di, "BPMNDiagram"⟩ [("id", diagram)] ""
        [.mk ⟨.di, "BPMNPlane"⟩ [("id", plane), ("bpmnElement", process)] "" written.plane]]

/-- `to_bpmn`. -/
def toBpmn (graph : Workflow) (code : String) : Except String String := do
  validateGraph L.toServices graph
  return L.serialize (document L graph code)

end Writing

/-! ### Reading -/

/-- `bool(value)`. -/
def truthy : Json → Bool
  | .null => false
  | .bool b => b
  | .int n => n != 0
  | .float x => x != 0
  | .str s => s != ""
  | .arr items => !items.isEmpty
  | .obj entries => !entries.isEmpty

/-- A node as `parse` collects it, before `Node` validates it. -/
structure RawNode where
  id : String
  kind : Json
  title : String
  config : Config
  inputs : Option Json
  outputs : Option Json
  x : Rat
  y : Rat
  body : Option Workflow

/-- `^[A-Za-z_][A-Za-z0-9_.-]*$`, at most 255 characters. -/
def isIdentifier (s : String) : Bool :=
  match s.toList with
  | [] => false
  | c :: rest =>
    (c.isAlpha || c == '_') && rest.all (fun c => c.isAlphanum || c == '_' || c == '.' || c == '-') &&
      decide (s.length ≤ 255)

/-- The keys of retired data contracts, which `Node` drops from a configuration. -/
def legacyKeys : List String :=
  ["input_schema", "output_schema", "output_mapping", "output", "result_format", "result_condition", "files",
    "catch", "retry"]

/-- `Node.discard_legacy_data_contracts`. -/
def discardLegacy (kind : Json) (config : Config) : Config :=
  let config := config.filter fun entry => !legacyKeys.contains entry.1
  if isText (some kind) "tool_call" || isText (some kind) "program" then config else popKey config "input"

/-- The nodes reached from `result` along the flows (`reachable`). -/
def reachable (flows : List Flow) : Nat → List String → List String → List String
  | 0, _, result => result
  | _ + 1, [], result => result
  | fuel + 1, source :: pending, result =>
    let targets := ((flows.filter fun flow => flow.source == source).map (·.target)).filter fun target =>
      !result.contains target
    let targets := targets.dedup
    reachable flows fuel (targets.reverse ++ pending) (result ++ targets)

section Reading
variable (L : Libraries)

/-- A declared list: `None` where the key is absent or null. -/
def loadVariables : Option Json → Option (Option (List Variable))
  | none => some none
  | some .null => some none
  | some (.arr items) => (items.mapM (Variable.load L.toBoundary)).map some
  | some _ => none

/-- `Node.model_validate`, `none` where it raises. -/
def loadNode (raw : RawNode) : Option Node :=
  match raw.kind, loadVariables L raw.inputs, loadVariables L raw.outputs with
  | .str kind, some inputs, some outputs =>
    match NodeKind.ofName kind with
    | some nodeKind =>
      if isIdentifier raw.id then
        some ⟨raw.id, nodeKind, raw.title, discardLegacy raw.kind raw.config, raw.x, raw.y, raw.body, inputs, outputs⟩
      else none
    | none => none
  | _, _, _ => none

/-- The identity of an assignee: null or a positive integer. -/
def loadId : Option Json → Option (Option Nat)
  | none => some none
  | some .null => some none
  | some (.int n) => if 0 < n then some (some n.toNat) else none
  | some _ => none

def ActorKind.ofName : String → Option ActorKind
  | "agent" => some .agent
  | "human" => some .human
  | _ => none

/-- The constraints on the fields of an actor. -/
def Actor.valid (actor : Actor) : Bool :=
  isIdentifier actor.id && decide (1 ≤ actor.name.length) && decide (actor.name.length ≤ 255)

/-- `Actor.model_validate`, `none` where it raises. -/
def loadActor : Json → Option Actor
  | .obj entries =>
    if (Json.keys entries).all fun key => ["id", "name", "kind", "agent_id", "user_id"].contains key then
      match entries.lookup "id", entries.lookup "name", entries.lookup "kind", loadId (entries.lookup "agent_id"),
          loadId (entries.lookup "user_id") with
      | some (.str id), some (.str name), some (.str kind), some agent, some user =>
        ((ActorKind.ofName kind).map fun kind => ⟨id, name, kind, agent, user⟩).filter Actor.valid
      | _, _, _, _, _ => none
    else none
  | _ => none

def loadActors : Option Json → Option (List Actor)
  | none => some []
  | some (.arr items) => items.mapM loadActor
  | some _ => none

def loadVersion : Option Json → Option SchemaVersion
  | none => some .v1
  | some (.str "galaris.bpmn/v1") => some .v1
  | some (.str "galaris.bpmn/v2") => some .v2
  | some _ => none

/-- The handlers whose paths `Workflow.discard_legacy_data_contracts` removes. -/
def retiredHandlers (props : Config) (nodes : List RawNode) : List String :=
  (nodes.filterMap fun node => ((node.config.lookup "catch").filter truthy).map L.toServices.text) ++
    (((props.lookup "error_handler").filter truthy).map L.toServices.text).toList

/-- The nodes and flows that are left once those paths are gone. -/
def withoutHandlers (props : Config) (nodes : List RawNode) (flows : List Flow) : List RawNode × List Flow :=
  let targets := (retiredHandlers L props nodes).dedup
  if targets.isEmpty then (nodes, flows)
  else
    let starts := ((nodes.filter fun node => isText (some node.kind) "start").map (·.id)).dedup
    let ordinary := reachable flows (starts.length + flows.length + 1) starts starts
    let removed := (reachable flows (targets.length + flows.length + 1) targets targets).filter fun key =>
      !ordinary.contains key
    (nodes.filter fun node => !removed.contains node.id,
      flows.filter fun flow => !removed.contains flow.source && !removed.contains flow.target)

/-- The keys a workflow may be given, the retired ones among them. -/
def workflowKeys : List String :=
  ["schema_version", "nodes", "flows", "actors", "execution_agent_id", "inputs", "outputs", "input_schema",
    "output_schema", "files", "error_handler"]

/-- `Workflow.model_validate({**props, "nodes": nodes, "flows": flows})`. -/
def loadWorkflow (props : Config) (nodes : List RawNode) (flows : List Flow) : Option Workflow :=
  let (nodes, flows) := withoutHandlers L props nodes flows
  if (Json.keys props).all workflowKeys.contains then
    match loadVersion (props.lookup "schema_version"), nodes.mapM (loadNode L), loadActors (props.lookup "actors"),
        loadId (props.lookup "execution_agent_id"), loadVariables L (props.lookup "inputs"),
        loadVariables L (props.lookup "outputs") with
    | some version, some nodes, some actors, some agent, some inputs, some outputs =>
      some ⟨version, nodes, flows, actors, agent, inputs, outputs⟩
    | _, _, _, _, _, _ => none
  else none

/-- `json.loads` of the text of an extension element, which must be an object. -/
def loadExtension (children : List Element) (name : String) : Except String Config :=
  match findExtension children name with
  | none => .ok []
  | some element =>
    match L.loads (if element.text == "" then "\x7b\x7d" else element.text) with
    | some (.obj entries) => .ok entries
    | _ => .error "Invalid extension object"

/-- `Flow(...)` from a `sequenceFlow`. -/
def parseFlow (child : Element) : Except String Flow :=
  let condition := (child.children.find? fun element =>
      element.tag == bpmnTag "conditionExpression").bind fun element =>
    if element.text == "" then none else some element.text
  let flow : Flow := ⟨child.get "id", child.get "sourceRef", child.get "targetRef", condition⟩
  if isIdentifier flow.id then .ok flow else .error "Invalid flow identifier"

/-- `_TAGS`, and `subProcess`. -/
def kindOfTag : String → Option NodeKind
  | "startEvent" => some .start
  | "endEvent" => some .end
  | "task" => some .task
  | "userTask" => some .humanTask
  | "serviceTask" => some .toolCall
  | "scriptTask" => some .program
  | "callActivity" => some .call
  | "exclusiveGateway" => some .if
  | "parallelGateway" => some .parallel
  | _ => none

/-- The kind a child denotes: its tag's, its loop's, or the service kind that overrides it. -/
def parseKind (tag : String) (config : Config) : Except String Json := do
  let kind ← if tag == "subProcess" then pure ((config.lookup "loop_kind").getD (.str "for"))
    else match kindOfTag tag with
      | some kind => pure (.str kind.name)
      | none => throw ("Unsupported BPMN element: " ++ tag)
  match (config.lookup "activity_kind").filter fun value => !value.isNull with
  | none => return kind
  | some service =>
    if (tag == "serviceTask" && isText (some service) "rest") ||
      (tag == "scriptTask" && isText (some service) "code") then
      return service
    else throw "Unsupported service activity kind"

/-- The configuration that is left once the encoder's keys are popped. -/
def remainingConfig (tag : String) (config : Config) : Config :=
  let config := popKey (popKey (popKey config "inputs") "outputs") "activity_kind"
  if tag == "subProcess" then popKey config "loop_kind" else config

/-- A node under a BPMN tag, without its body. -/
def parseNode (positions : String → Option (Rat × Rat)) (child : Element) (body : Option Workflow) :
    Except String RawNode := do
  let config ← loadExtension L child.children "config"
  let kind ← parseKind child.tag.name config
  let id := child.get "id"
  let (x, y) := (positions id).getD (0, 0)
  return ⟨id, kind, child.get "name", remainingConfig child.tag.name config, config.lookup "inputs",
    config.lookup "outputs", x, y, body⟩

/-- The end of `parse`: the workflow of an element whose children gave `nodes` and `flows`. -/
def assemble (children : List Element) (nodes : List RawNode) (flows : List Flow) : Except String Workflow := do
  let props ← loadExtension L children "workflow"
  match loadWorkflow L props nodes flows with
  | none => throw "Invalid workflow"
  | some graph =>
    validateGraph L.toServices graph
    return graph

mutual

/-- The nodes and the flows among the children of an element, in order. -/
def parseChildren (positions : String → Option (Rat × Rat)) : List Element → Except String (List RawNode × List Flow)
  | [] => .ok ([], [])
  | child :: rest => do
    let (nodes, flows) ← parseChild positions child
    let (others, links) ← parseChildren positions rest
    return (nodes ++ others, flows ++ links)

def parseChild (positions : String → Option (Rat × Rat)) : Element → Except String (List RawNode × List Flow)
  | .mk tag attrib text children => do
    let child : Element := .mk tag attrib text children
    if tag == extensionTag || tag == bpmnTag "laneSet" then return ([], [])
    if tag == bpmnTag "sequenceFlow" then
      let flow ← parseFlow child
      return ([], [flow])
    if tag.ns != .bpmn then throw "Unsupported BPMN element"
    if tag.name == "subProcess" then
      let (nodes, flows) ← parseChildren positions children
      let body ← assemble L children nodes flows
      let node ← parseNode L positions child (some body)
      return ([node], [])
    let node ← parseNode L positions child none
    return ([node], [])

end

/-- The element a shape stands for, with the corner of its bounds where it has any. -/
def shapePosition (shape : Element) : Except String (Option (String × (Rat × Rat))) :=
  match shape.children.find? fun child => child.tag == ⟨.dc, "Bounds"⟩ with
  | none => .ok none
  | some bounds =>
    match L.parseFloat ((bounds.attrib.lookup "x").getD "0"), L.parseFloat ((bounds.attrib.lookup "y").getD "0") with
    | some x, some y => .ok (some (shape.get "bpmnElement", (x, y)))
    | _, _ => .error "could not convert string to float"

/-- `positions`; the last shape of an element stands. -/
def positionsOf (root : Element) : Except String (List (String × (Rat × Rat))) := do
  let positions ← (Element.findAll root.iter shapeTag).mapM (shapePosition L)
  return positions.reduceOption

def xmlIds (root : Element) : List String := root.iter.filterMap fun element => element.attrib.lookup "id"

/-- `compile_bpmn`. -/
def compile (xml : String) : Except String Workflow := do
  reject (decide (2000000 < xml.utf8ByteSize) || L.prohibited xml)
    "BPMN exceeds the XML limit or contains forbidden entities"
  match L.parseXml xml with
  | none => throw "Invalid BPMN XML"
  | some root =>
    reject (root.tag != bpmnTag "definitions") "BPMN definitions namespace is required"
    reject (!decide (xmlIds root).Nodup) "BPMN XML identifiers must be globally unique"
    match Element.findAll root.children (bpmnTag "process") with
    | [process] =>
      let positions ← positionsOf L root
      let (nodes, flows) ← parseChildren L (positions.reverse.lookup ·) process.children
      assemble L process.children nodes flows
    | _ => throw "Exactly one executable process is required"

end Reading

end Galaris.Process.Bpmn
