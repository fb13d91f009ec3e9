import Galaris.Process.Bpmn.Written

/-! What the decoder makes of a written workflow.

The encoder keeps its own keys in the configuration of a node: the declarations, the kind
of a loop, the kind that shares a tag. Where the user's configuration has none of them
(`unreserved`), each element is parsed to the node or flow it was written from, and the
document to the workflow itself (`compile_toBpmn`). -/
namespace Galaris.Process.Bpmn

open Results

variable {L : Libraries}

/-! ### The configuration of a node -/

/-- The keys that the encoder shares with the configuration. -/
def reservedKeys (loop : Bool) : List String :=
  ["inputs", "outputs", "activity_kind"] ++ if loop then ["loop_kind"] else []

def hasReserved (loop : Bool) (config : Config) : Bool := (reservedKeys loop).any (Json.keys config).contains

mutual

/-- No node of the graph or of its bodies has a reserved key. -/
def unreserved : Workflow → Bool
  | ⟨_, nodes, _, _, _, _, _⟩ => unreservedNodes nodes

def unreservedNodes : List Node → Bool
  | [] => true
  | node :: rest => unreservedNode node && unreservedNodes rest

def unreservedNode : Node → Bool
  | ⟨_, _, _, config, _, _, some body, _, _⟩ => !hasReserved true config && unreserved body
  | ⟨_, _, _, config, _, _, none, _, _⟩ => !hasReserved false config

end

theorem hasReserved_eq_false {loop : Bool} {config : Config} :
    hasReserved loop config = false ↔ ∀ key ∈ reservedKeys loop, key ∉ Json.keys config := by
  simp [hasReserved]

/-- New keys are appended. -/
theorem foldl_setKey {entries config : Config} (hnodup : (Json.keys entries).Nodup)
    (hnew : ∀ key ∈ Json.keys entries, key ∉ Json.keys config) :
    entries.foldl (fun config entry => setKey config entry.1 entry.2) config = config ++ entries := by
  induction entries generalizing config with
  | nil => simp
  | cons entry rest ih =>
    obtain ⟨key, value⟩ := entry
    simp only [Json.keys, List.map_cons, List.nodup_cons, List.mem_cons, forall_eq_or_imp] at hnodup hnew
    have hset : setKey config key value = config ++ [(key, value)] := by
      have habsent : (Json.keys config).contains key = false := by simpa [Json.keys] using hnew.1
      rw [setKey, habsent]
      rfl
    rw [List.foldl_cons, hset, ih hnodup.2, List.append_assoc]
    · rfl
    · intro other hother
      simp only [Json.keys, List.map_append, List.map_cons, List.map_nil, List.mem_append, List.mem_singleton,
        not_or]
      exact ⟨hnew.2 other hother, fun heq => hnodup.1 (heq ▸ hother)⟩

/-- The keys of the encoder's entries are reserved, and distinct. -/
theorem controlEntries_keys (node : Node) :
    (Json.keys (controlEntries node)).Nodup ∧
      ∀ key ∈ Json.keys (controlEntries node), key ∈ reservedKeys node.body.isSome := by
  obtain ⟨id, kind, title, config, x, y, body, inputs, outputs⟩ := node
  cases body <;> cases inputs <;> cases outputs <;> cases kind <;>
    simp [controlEntries, Json.keys, reservedKeys]

theorem encodedConfig_eq {node : Node} (h : hasReserved node.body.isSome node.config = false) :
    encodedConfig node = node.config ++ controlEntries node := by
  obtain ⟨hnodup, hreserved⟩ := controlEntries_keys node
  exact foldl_setKey hnodup fun key hkey => hasReserved_eq_false.mp h key (hreserved key hkey)

/-- A reserved key is looked up among the encoder's entries. -/
theorem lookup_encodedConfig {node : Node} (h : hasReserved node.body.isSome node.config = false) (key : String)
    (hkey : key ∈ reservedKeys node.body.isSome) :
    (encodedConfig node).lookup key = (controlEntries node).lookup key := by
  have hnone : node.config.lookup key = none := by
    rw [List.lookup_eq_none_iff]
    intro entry hentry
    have habsent := hasReserved_eq_false.mp h key hkey
    simp only [Json.keys, List.mem_map, not_exists, not_and] at habsent
    simpa using fun heq => habsent entry hentry heq.symm
  rw [encodedConfig_eq h, List.lookup_append, hnone]
  rfl

/-- What is left has none of the reserved keys. -/
theorem remainingConfig_eq (tag : String) (config : Config) :
    remainingConfig tag config =
      config.filter fun entry => !(reservedKeys (tag == "subProcess")).contains entry.1 := by
  unfold remainingConfig reservedKeys popKey
  cases tag == "subProcess"
  · simp only [Bool.false_eq_true, if_false, List.filter_filter]
    refine List.filter_congr fun entry _ => ?_
    rw [Bool.eq_iff_iff]
    simp
    tauto
  · simp only [if_true, List.filter_filter]
    refine List.filter_congr fun entry _ => ?_
    rw [Bool.eq_iff_iff]
    simp
    tauto

theorem hasReserved_remaining (tag : String) (config : Config) :
    hasReserved (tag == "subProcess") (remainingConfig tag config) = false := by
  rw [hasReserved_eq_false, remainingConfig_eq]
  intro key hkey hmem
  obtain ⟨entry, hentry, rfl⟩ := List.mem_map.mp hmem
  have hnot := (List.mem_filter.mp hentry).2
  simp [hkey] at hnot

/-- Where the user's configuration has none of the keys, it is what is left. -/
theorem remainingConfig_encoded {node : Node} {tag : String} (h : hasReserved node.body.isSome node.config = false)
    (htag : (tag == "subProcess") = node.body.isSome) : remainingConfig tag (encodedConfig node) = node.config := by
  rw [remainingConfig_eq, htag, encodedConfig_eq h, List.filter_append]
  have hmine : node.config.filter (fun entry => !(reservedKeys node.body.isSome).contains entry.1) = node.config := by
    refine List.filter_eq_self.mpr fun entry hentry => ?_
    simp only [Bool.not_eq_true', List.contains_eq_mem, decide_eq_false_iff_not]
    exact fun hkey => hasReserved_eq_false.mp h _ hkey (List.mem_map.mpr ⟨entry, hentry, rfl⟩)
  have hcontrol : (controlEntries node).filter
      (fun entry => !(reservedKeys node.body.isSome).contains entry.1) = [] := by
    refine List.filter_eq_nil_iff.mpr fun entry hentry => ?_
    have hkey := (controlEntries_keys node).2 entry.1 (List.mem_map.mpr ⟨entry, hentry, rfl⟩)
    simp [hkey]
  rw [hmine, hcontrol, List.append_nil]

/-! ### The workflows that can be built -/

/-- Declarations that hold dicts. -/
def DeclaredFields (declared : Option (List Variable)) : Prop :=
  ∀ vs ∈ declared, ∀ v ∈ vs, v.dump.WellFormed

/-- What the fields of a node satisfy by themselves. -/
structure NodeFields (node : Node) : Prop where
  id : isIdentifier node.id = true
  config : (Json.obj node.config).WellFormed
  current : discardLegacy (.str node.kind.name) node.config = node.config
  inputs : DeclaredFields node.inputs
  outputs : DeclaredFields node.outputs

/-- What the fields of a workflow satisfy by themselves, short of its nodes. -/
structure WorkflowFields (graph : Workflow) : Prop where
  flows : ∀ flow ∈ graph.flows, isIdentifier flow.id = true
  actors : ∀ actor ∈ graph.actors,
    actor.valid = true ∧ (∀ n ∈ actor.agentId, 0 < n) ∧ ∀ n ∈ actor.userId, 0 < n
  agent : ∀ n ∈ graph.executionAgentId, 0 < n
  inputs : DeclaredFields graph.inputs
  outputs : DeclaredFields graph.outputs

mutual

/-- The workflow is one that `Workflow` can be built to, with its bodies. -/
def Built : Workflow → Prop
  | ⟨version, nodes, flows, actors, agent, inputs, outputs⟩ =>
    WorkflowFields ⟨version, nodes, flows, actors, agent, inputs, outputs⟩ ∧ BuiltNodes nodes

def BuiltNodes : List Node → Prop
  | [] => True
  | node :: rest => BuiltNode node ∧ BuiltNodes rest

def BuiltNode : Node → Prop
  | ⟨id, kind, title, config, x, y, some body, inputs, outputs⟩ =>
    NodeFields ⟨id, kind, title, config, x, y, some body, inputs, outputs⟩ ∧ Built body
  | ⟨id, kind, title, config, x, y, none, inputs, outputs⟩ =>
    NodeFields ⟨id, kind, title, config, x, y, none, inputs, outputs⟩

end

/-! ### Declarations and settings -/

theorem validateDeclarations_loads {B : Boundary} {path : String} {declared : List Variable}
    (h : validateDeclarations B path declared = .ok ()) {v : Variable} (hv : v ∈ declared) :
    Variable.load B v.dump = some v := by
  unfold validateDeclarations at h
  split at h
  · cases h
  · rw [bind_eq_ok] at h
    obtain ⟨names, hnames, -⟩ := h
    obtain ⟨seen, out, hstep⟩ := foldlM_eq_ok hnames v hv
    cases hload : Variable.load B v.dump with
    | none =>
      rw [hload] at hstep
      cases hstep
    | some v' => rw [Variable.load_dump hload]

theorem loadVariables_dump {declared : Option (List Variable)} {path : String}
    (h : ∀ vs ∈ declared, validateDeclarations L.toBoundary path vs = .ok ()) :
    loadVariables L (declared.map dumpVariables) = some declared := by
  cases declared with
  | none => rfl
  | some declared =>
    have hloads : (declared.map Variable.dump).mapM (Variable.load L.toBoundary) = some declared := by
      rw [List.mapM_map]
      have hmap : declared.mapM (Variable.load L.toBoundary ∘ Variable.dump) = some (declared.map id) :=
      mapM_eq_some fun v hv => validateDeclarations_loads (h declared rfl) hv
      rw [List.map_id] at hmap
      exact hmap
    simp only [Option.map_some, dumpVariables, loadVariables, hloads]

theorem loadId_dumpId {id : Option Nat} (h : ∀ n ∈ id, 0 < n) : loadId (some (dumpId id)) = some id := by
  cases id with
  | none => rfl
  | some n =>
    have hpos : n ≠ 0 := Nat.ne_of_gt (h n rfl)
    simp [dumpId, loadId, Nat.pos_iff_ne_zero, hpos]

theorem loadActor_dump {actor : Actor} (hvalid : actor.valid = true) (hagent : ∀ n ∈ actor.agentId, 0 < n)
    (huser : ∀ n ∈ actor.userId, 0 < n) : loadActor actor.dump = some actor := by
  have hkind : ActorKind.ofName actor.kind.name = some actor.kind := by cases actor.kind <;> rfl
  have hvalid' : Actor.valid ⟨actor.id, actor.name, actor.kind, actor.agentId, actor.userId⟩ = true := hvalid
  unfold loadActor Actor.dump
  simp [Json.keys, List.lookup_cons, loadId_dumpId hagent, loadId_dumpId huser, hkind, hvalid']

theorem loadVersion_name (version : SchemaVersion) : loadVersion (some (.str version.name)) = some version := by
  cases version <;> rfl

theorem ofName_name (kind : NodeKind) : NodeKind.ofName kind.name = some kind := by
  cases kind <;> rfl

/-! ### Extension elements -/

theorem loads_dumps_text {json : Json} (h : json.WellFormed) :
    L.loads (if L.dumps json == "" then "{}" else L.dumps json) = some json := by
  have hload := L.loads_dumps h
  have hne : L.dumps json ≠ "" := fun hempty => by
    rw [hempty, L.loads_empty] at hload
    cases hload
  simp [hne, hload]

/-- The extension is found in the first child, where no other child is one. -/
theorem findExtension_cons {settings rest : List Element} {name : String}
    (hrest : ∀ element ∈ rest, element.tag ≠ extensionTag) :
    findExtension (.mk extensionTag [] "" settings :: rest) name =
      settings.find? fun child => child.tag == galarisTag name := by
  have hnone : Element.findAll rest extensionTag = [] :=
    List.filter_eq_nil_iff.mpr fun element helement => by simpa using hrest element helement
  have hself : Element.findAll (.mk extensionTag [] "" settings :: rest) extensionTag =
      .mk extensionTag [] "" settings :: Element.findAll rest extensionTag := by
    simp [Element.findAll, Element.tag]
  rw [findExtension, hself, hnone]
  simp [Element.children]

/-- What was dumped into the extension `name` is loaded from it. -/
theorem loadExtension_dumps {settings rest : List Element} {name : String} {entries : Config}
    (hrest : ∀ element ∈ rest, element.tag ≠ extensionTag) (hentries : (Json.obj entries).WellFormed)
    (hfind : (settings.find? fun child => child.tag == galarisTag name) =
      some (.mk (galarisTag name) [] (L.dumps (.obj entries)) [])) :
    loadExtension L (.mk extensionTag [] "" settings :: rest) name = .ok entries := by
  rw [loadExtension, findExtension_cons hrest, hfind]
  have hloads : ∀ text, text = L.dumps (.obj entries) →
      L.loads (if text == "" then "\x7b\x7d" else text) = some (.obj entries) := by
    rintro _ rfl
    exact loads_dumps_text hentries
  dsimp only
  rw [hloads]
  rfl

theorem nodeTag_ne (node : Node) : ∀ name ∈ ["extensionElements", "laneSet", "sequenceFlow"], nodeTag node ≠ name := by
  unfold nodeTag
  split
  · decide
  · cases node.kind <;> decide

/-- No element that is written for the contents of a graph is an extension. -/
def NoExtension (elements : List Element) : Prop := ∀ element ∈ elements, element.tag ≠ extensionTag

theorem NoExtension.append {xs ys : List Element} (h : NoExtension xs) (k : NoExtension ys) : NoExtension (xs ++ ys) :=
  fun element helement => (List.mem_append.mp helement).elim (h element) (k element)

theorem writeLanes_noExtension (graph : Workflow) (used : List String) :
    NoExtension (writeLanes graph used).elements := by
  unfold writeLanes
  split
  · exact fun _ h => absurd h List.not_mem_nil
  · intro element helement
    rw [List.mem_singleton.mp helement]
    show bpmnTag "laneSet" ≠ extensionTag
    decide

theorem writeFlows_noExtension (graph : Workflow) (flows : List Flow) (used : List String) :
    NoExtension (writeFlows L graph flows used).elements := by
  induction flows generalizing used with
  | nil => exact fun _ h => absurd h List.not_mem_nil
  | cons flow rest ih =>
    intro element helement
    rcases List.mem_cons.mp helement with rfl | hrest
    · show bpmnTag "sequenceFlow" ≠ extensionTag
      decide
    · exact ih _ element hrest

theorem writeNode_noExtension (node : Node) (used : List String) : NoExtension (writeNode L node used).elements := by
  have hnode (node : Node) (settings inner : List Element) : NoExtension [nodeElement L node settings inner] := by
    intro element helement heq
    rw [List.mem_singleton.mp helement] at heq
    exact nodeTag_ne node _ (by decide) (congrArg Tag.name heq)
  obtain ⟨id, kind, title, config, x, y, body, inputs, outputs⟩ := node
  cases body with
  | none =>
    rw [writeNode]
    exact hnode _ _ _
  | some body =>
    rw [writeNode]
    exact hnode _ _ _

theorem writeNodes_noExtension (nodes : List Node) (used : List String) :
    NoExtension (writeNodes L nodes used).elements := by
  induction nodes generalizing used with
  | nil =>
    rw [writeNodes]
    exact fun _ h => absurd h List.not_mem_nil
  | cons node rest ih =>
    rw [writeNodes]
    exact (writeNode_noExtension node used).append (ih _)

theorem writeWorkflow_noExtension (graph : Workflow) (used : List String) :
    NoExtension (writeWorkflow L graph used).elements := by
  obtain ⟨version, nodes, flows, actors, agent, inputs, outputs⟩ := graph
  rw [writeWorkflow]
  exact (writeLanes_noExtension _ _).append ((writeNodes_noExtension _ _).append (writeFlows_noExtension _ _ _))

/-! ### One element -/

/-- A node as it is collected from the document. -/
def rawNode (node : Node) : RawNode :=
  ⟨node.id, .str node.kind.name, node.title, node.config, node.inputs.map dumpVariables, node.outputs.map dumpVariables,
    node.x, node.y, node.body⟩

theorem parseFlow_flowElement {flow : Flow} (hid : isIdentifier flow.id = true)
    (hcondition : flow.condition ≠ some "") :
    parseFlow (flowElement flow) = .ok flow := by
  obtain ⟨id, source, target, condition⟩ := flow
  cases condition with
  | none =>
    show (if isIdentifier id = true then Except.ok (⟨id, source, target, none⟩ : Flow) else _) = _
    rw [if_pos hid]
  | some condition =>
    have hne : condition ≠ "" := fun h => hcondition (congrArg some h)
    show (if isIdentifier id = true then
      Except.ok (⟨id, source, target, if condition == "" then none else some condition⟩ : Flow) else _) = _
    rw [if_pos hid]
    simp [hne]

theorem lookup_controlEntries (node : Node) :
    (controlEntries node).lookup "inputs" = node.inputs.map dumpVariables ∧
      (controlEntries node).lookup "outputs" = node.outputs.map dumpVariables ∧
      (controlEntries node).lookup "activity_kind" =
        (if node.kind == .rest || node.kind == .code then some (.str node.kind.name) else none) := by
  obtain ⟨id, kind, title, config, x, y, body, inputs, outputs⟩ := node
  cases body <;> cases inputs <;> cases outputs <;> cases kind <;> exact ⟨rfl, rfl, rfl⟩

/-- The tag and the encoder's entries denote the kind. -/
theorem parseKind_encoded {node : Node} (h : hasReserved node.body.isSome node.config = false)
    (hloop : node.kind.isLoop = node.body.isSome) :
    parseKind (nodeTag node) (encodedConfig node) = .ok (.str node.kind.name) := by
  have hactivity := lookup_encodedConfig h "activity_kind" (by simp [reservedKeys])
  have hkind : node.body.isSome = true →
      (encodedConfig node).lookup "loop_kind" = some (.str node.kind.name) := fun hbody => by
    rw [lookup_encodedConfig h "loop_kind" (by simp [reservedKeys, hbody]), controlEntries, if_pos hbody]
    rfl
  rw [(lookup_controlEntries node).2.2] at hactivity
  obtain ⟨id, kind, title, config, x, y, body, inputs, outputs⟩ := node
  simp only [parseKind, hactivity]
  cases body with
  | none =>
    cases kind <;> first | rfl | cases hloop
  | some body =>
    rw [show nodeTag ⟨id, kind, title, config, x, y, some body, inputs, outputs⟩ = "subProcess" from rfl, hkind rfl]
    cases kind <;> first | rfl | cases hloop

theorem nodeTag_subProcess {node : Node} (hloop : node.kind.isLoop = node.body.isSome) :
    (nodeTag node == "subProcess") = node.body.isSome := by
  obtain ⟨id, kind, title, config, x, y, body, inputs, outputs⟩ := node
  cases body <;> cases kind <;> first | rfl | cases hloop

theorem variables_wellFormed {declared : Option (List Variable)} (h : DeclaredFields declared) {key : String} :
    Json.WellFormedEntries (declared.toList.map fun ds => (key, dumpVariables ds)) := by
  cases declared with
  | none => trivial
  | some declared =>
    refine ⟨?_, trivial⟩
    have hall := h declared rfl
    show Json.WellFormedItems (declared.map Variable.dump)
    clear h
    induction declared with
    | nil => trivial
    | cons v rest ih =>
      exact ⟨hall v List.mem_cons_self, ih fun w hw => hall w (List.mem_cons_of_mem _ hw)⟩

theorem wellFormedEntries_append {xs ys : Config} (h : Json.WellFormedEntries xs) (k : Json.WellFormedEntries ys) :
    Json.WellFormedEntries (xs ++ ys) := by
  rw [Json.wellFormedEntries_iff] at h k ⊢
  intro key x hmem
  exact (List.mem_append.mp hmem).elim (h key x) (k key x)

theorem encodedConfig_wellFormed {node : Node} (hfields : NodeFields node)
    (h : hasReserved node.body.isSome node.config = false) : (Json.obj (encodedConfig node)).WellFormed := by
  obtain ⟨hnodup, hreserved⟩ := controlEntries_keys node
  rw [encodedConfig_eq h]
  refine ⟨?_, wellFormedEntries_append hfields.config.2 ?_⟩
  · simp only [Json.keys, List.map_append]
    refine List.nodup_append.mpr ⟨hfields.config.1, hnodup, fun x hx y hy heq => ?_⟩
    exact hasReserved_eq_false.mp h y (hreserved y hy) (heq ▸ hx)
  · unfold controlEntries
    refine wellFormedEntries_append ?_ (wellFormedEntries_append ?_
      (wellFormedEntries_append (variables_wellFormed hfields.inputs) (variables_wellFormed hfields.outputs)))
    · split <;> simp [Json.WellFormedEntries, Json.WellFormed]
    · split <;> simp [Json.WellFormedEntries, Json.WellFormed]

/-- The element of a node is parsed to the node, around what its children gave. -/
theorem parseNode_nodeElement {positions : String → Option (Rat × Rat)} {node : Node} {settings inner : List Element}
    (hfields : NodeFields node) (hreserved : hasReserved node.body.isSome node.config = false)
    (hloop : node.kind.isLoop = node.body.isSome) (hposition : positions node.id = some (node.x, node.y))
    (hinner : NoExtension inner) :
    parseNode L positions (nodeElement L node settings inner) node.body = .ok (rawNode node) := by
  have hload : loadExtension L (nodeElement L node settings inner).children "config" = .ok (encodedConfig node) :=
    loadExtension_dumps hinner (encodedConfig_wellFormed hfields hreserved) rfl
  have hinputs := lookup_encodedConfig hreserved "inputs" (by simp [reservedKeys])
  have houtputs := lookup_encodedConfig hreserved "outputs" (by simp [reservedKeys])
  obtain ⟨hin, hout, -⟩ := lookup_controlEntries node
  have hget : (nodeElement L node settings inner).get "id" = node.id := rfl
  have hname : (nodeElement L node settings inner).get "name" = node.title := rfl
  have htag : (nodeElement L node settings inner).tag.name = nodeTag node := rfl
  simp only [parseNode, bind_eq_ok, pure_eq_ok]
  refine ⟨_, hload, _, by rw [htag]; exact parseKind_encoded hreserved hloop, ?_⟩
  rw [hget, hname, htag, hposition, hinputs, houtputs, hin, hout,
    remainingConfig_encoded hreserved (nodeTag_subProcess hloop)]
  rfl

/-! ### A graph -/

theorem settings_wellFormed {graph : Workflow} (hfields : WorkflowFields graph) : graph.settings.WellFormed := by
  obtain ⟨version, nodes, flows, actors, agent, inputs, outputs⟩ := graph
  have hid (id : Option Nat) : (dumpId id).WellFormed := by cases id <;> trivial
  have hactors : Json.WellFormedItems (actors.map Actor.dump) := by
    clear hfields
    induction actors with
    | nil => trivial
    | cons actor rest ih =>
      refine ⟨⟨by simp [Json.keys], ?_⟩, ih⟩
      exact ⟨trivial, trivial, trivial, hid _, hid _, trivial⟩
  refine ⟨?_, wellFormedEntries_append (wellFormedEntries_append ⟨trivial, hactors, hid _, trivial⟩
    (variables_wellFormed hfields.inputs)) (variables_wellFormed hfields.outputs)⟩
  cases inputs <;> cases outputs <;> simp [Json.keys]

/-- The declarations that a profile requires are valid ones. -/
theorem declared_ok {B : Boundary} {typed : Bool} {inPath outPath missing unwanted : String}
    {inputs outputs : Option (List Variable)}
    (h : (if typed = true then
        match inputs, outputs with
        | some inputs, some outputs => do
          validateDeclarations B inPath inputs
          validateDeclarations B outPath outputs
        | _, _ => throw missing
      else reject (inputs.isSome || outputs.isSome) unwanted) = .ok ()) :
    (∀ vs ∈ inputs, validateDeclarations B inPath vs = .ok ()) ∧
      ∀ vs ∈ outputs, validateDeclarations B outPath vs = .ok () := by
  split at h
  · cases inputs with
    | none => cases h
    | some inputs =>
      cases outputs with
      | none => cases h
      | some outputs =>
        simp only [bind_eq_ok] at h
        obtain ⟨_, hin, hout⟩ := h
        exact ⟨fun vs hvs => by cases hvs; exact hin, fun vs hvs => by cases hvs; exact hout⟩
  · rw [reject_eq_ok] at h
    rw [Bool.or_eq_false_iff, Option.isSome_eq_false_iff, Option.isSome_eq_false_iff, Option.isNone_iff_eq_none,
      Option.isNone_iff_eq_none] at h
    obtain ⟨rfl, rfl⟩ := h
    exact ⟨fun _ hvs => absurd hvs (Option.not_mem_none _), fun _ hvs => absurd hvs (Option.not_mem_none _)⟩

theorem loadNode_rawNode {typed : Bool} {actors : List Actor} {node : Node} (hfields : NodeFields node)
    (hcheck : checkNode L.toServices typed actors node = .ok ()) : loadNode L (rawNode node) = some node := by
  simp only [checkNode, bind_eq_ok] at hcheck
  obtain ⟨_, -, _, -, _, -, _, hdeclared, -⟩ := hcheck
  obtain ⟨hin, hout⟩ := declared_ok hdeclared
  obtain ⟨id, kind, title, config, x, y, body, inputs, outputs⟩ := node
  simp only [loadNode, rawNode, loadVariables_dump hin, loadVariables_dump hout, ofName_name, hfields.id, if_true,
    hfields.current]

theorem discardLegacy_keys {kind : Json} {config : Config} {entry : String × Json}
    (h : entry ∈ discardLegacy kind config) : entry.1 ∉ legacyKeys := by
  have hkept : entry ∈ config.filter fun entry => !legacyKeys.contains entry.1 := by
    unfold discardLegacy at h
    split at h
    · exact h
    · exact (List.mem_filter.mp h).1
  simpa using (List.mem_filter.mp hkept).2

theorem retiredHandlers_current {props : Config} {nodes : List Node} (hnodes : ∀ node ∈ nodes, NodeFields node)
    (hprops : props.lookup "error_handler" = none) : retiredHandlers L props (nodes.map rawNode) = [] := by
  have hcatch : (nodes.map rawNode).filterMap (fun node =>
      ((node.config.lookup "catch").filter truthy).map L.toServices.text) = [] := by
    rw [List.filterMap_eq_nil_iff]
    intro raw hraw
    obtain ⟨node, hnode, rfl⟩ := List.mem_map.mp hraw
    have hnone : node.config.lookup "catch" = none := by
      rw [List.lookup_eq_none_iff, ← (hnodes node hnode).current]
      intro entry hentry
      have hlegacy := discardLegacy_keys hentry
      rw [bne_iff_ne]
      exact fun heq => hlegacy (heq ▸ by decide)
    rw [show (rawNode node).config = node.config from rfl, hnone]
    rfl
  rw [retiredHandlers, hcatch, hprops]
  rfl

/-- The settings and the collected nodes are validated to the graph. -/
theorem loadWorkflow_settings {graph : Workflow} (hfields : WorkflowFields graph) (hok : GraphOk L.toServices graph)
    (hnodes : ∀ node ∈ graph.nodes, NodeFields node) {props : Config} (hprops : graph.settings = .obj props) :
    loadWorkflow L props (graph.nodes.map rawNode) graph.flows = some graph := by
  obtain ⟨hin, hout⟩ := declared_ok hok.profile
  have hloaded : (graph.nodes.map rawNode).mapM (loadNode L) = some graph.nodes := by
    rw [List.mapM_map]
    have hmap : graph.nodes.mapM (loadNode L ∘ rawNode) = some (graph.nodes.map id) := mapM_eq_some fun node hnode =>
      loadNode_rawNode (hnodes node hnode) (hok.nodes node hnode)
    rw [List.map_id] at hmap
    exact hmap
  have hactors : (graph.actors.map Actor.dump).mapM loadActor = some graph.actors := by
    rw [List.mapM_map]
    have hmap : graph.actors.mapM (loadActor ∘ Actor.dump) = some (graph.actors.map id) :=
        mapM_eq_some fun actor hactor =>
      loadActor_dump (hfields.actors actor hactor).1 (hfields.actors actor hactor).2.1 (hfields.actors actor hactor).2.2
    rw [List.map_id] at hmap
    exact hmap
  have hhandlers (h : props.lookup "error_handler" = none) :
      withoutHandlers L props (graph.nodes.map rawNode) graph.flows = (graph.nodes.map rawNode, graph.flows) := by
    rw [withoutHandlers, retiredHandlers_current hnodes h]
    rfl
  have hagent := loadId_dumpId hfields.agent
  have hvin := loadVariables_dump hin
  have hvout := loadVariables_dump hout
  obtain ⟨version, nodes, flows, actors, agent, inputs, outputs⟩ := graph
  cases hprops
  unfold loadWorkflow
  cases inputs <;> cases outputs <;>
    simp_all [List.lookup_cons, Json.keys, workflowKeys, loadVersion_name, loadActors]

/-- The end of the parse gives the graph whose settings it finds. -/
theorem assemble_written {graph : Workflow} {settings rest : List Element} (haccepted : Accepted L.toServices graph)
    (hfields : WorkflowFields graph) (hnodes : ∀ node ∈ graph.nodes, NodeFields node) (hrest : NoExtension rest)
    (hfind : (settings.find? fun child => child.tag == galarisTag "workflow") = some (settingsElement L graph)) :
    assemble L (.mk extensionTag [] "" settings :: rest) (graph.nodes.map rawNode) graph.flows = .ok graph := by
  have hload := loadExtension_dumps (L := L) hrest (settings_wellFormed hfields) hfind
  have hgraph := loadWorkflow_settings hfields haccepted.graphOk hnodes rfl
  simp only [assemble, bind_eq_ok]
  refine ⟨_, hload, ?_⟩
  rw [hgraph]
  simp only [bind_eq_ok, pure_eq_ok]
  exact ⟨(), haccepted, trivial⟩

section Children
variable {positions : String → Option (Rat × Rat)}

theorem parseChildren_append {xs ys : List Element} {nodes others : List RawNode} {flows links : List Flow}
    (h : parseChildren L positions xs = .ok (nodes, flows)) (k : parseChildren L positions ys = .ok (others, links)) :
    parseChildren L positions (xs ++ ys) = .ok (nodes ++ others, flows ++ links) := by
  induction xs generalizing nodes flows with
  | nil =>
    rw [parseChildren] at h
    cases h
    exact k
  | cons child rest ih =>
    simp only [parseChildren, List.cons_append, bind_eq_ok, pure_eq_ok] at h ⊢
    obtain ⟨first, hfirst, remaining, hremaining, heq⟩ := h
    cases heq
    refine ⟨first, hfirst, _, ih hremaining, ?_⟩
    simp

theorem parseChildren_extension {settings rest : List Element} :
    parseChildren L positions (.mk extensionTag [] "" settings :: rest) = parseChildren L positions rest := by
  rw [parseChildren, parseChild]
  cases parseChildren L positions rest <;> rfl

theorem parseChildren_lanes (graph : Workflow) (used : List String) :
    parseChildren L positions (writeLanes graph used).elements = .ok ([], []) := by
  unfold writeLanes
  split
  · rw [parseChildren]
  · rw [parseChildren, parseChild, parseChildren]
    rfl

theorem parseChildren_flows {graph : Workflow} {flows : List Flow} (used : List String)
    (hids : ∀ flow ∈ flows, isIdentifier flow.id = true) (hconditions : ∀ flow ∈ flows, flow.condition ≠ some "") :
    parseChildren L positions (writeFlows L graph flows used).elements = .ok ([], flows) := by
  induction flows generalizing used with
  | nil =>
    rw [writeFlows, parseChildren]
  | cons flow rest ih =>
    have hflow := parseFlow_flowElement (hids flow List.mem_cons_self) (hconditions flow List.mem_cons_self)
    have hrest := ih (identifier used ("Edge_" ++ flow.id) :: used)
      (fun f hf => hids f (List.mem_cons_of_mem _ hf)) (fun f hf => hconditions f (List.mem_cons_of_mem _ hf))
    have hfirst : parseChild L positions (flowElement flow) = .ok ([], [flow]) := by
      rw [flowElement, parseChild]
      rw [flowElement] at hflow
      simp only [hflow]
      rfl
    rw [writeFlows, parseChildren, hfirst]
    simp only [hrest]
    rfl

/-- What the parser asks of the tag of a node. -/
theorem nodeTag_beq {node : Node} (hloop : node.kind.isLoop = node.body.isSome) :
    (bpmnTag (nodeTag node) == extensionTag) = false ∧ (bpmnTag (nodeTag node) == bpmnTag "laneSet") = false ∧
      (bpmnTag (nodeTag node) == bpmnTag "sequenceFlow") = false ∧ ((bpmnTag (nodeTag node)).ns != .bpmn) = false ∧
      ((bpmnTag (nodeTag node)).name == "subProcess") = node.body.isSome := by
  have hne (name : String) (hname : name ∈ ["extensionElements", "laneSet", "sequenceFlow"]) :
      (bpmnTag (nodeTag node) == bpmnTag name) = false := by
    rw [beq_eq_false_iff_ne]
    exact fun heq => nodeTag_ne node name hname (congrArg Tag.name heq)
  exact ⟨hne _ (by decide), hne _ (by decide), hne _ (by decide), rfl, nodeTag_subProcess hloop⟩

theorem parseChild_leaf {node : Node} {raw : RawNode} (hbody : node.body = none)
    (hloop : node.kind.isLoop = node.body.isSome)
    (h : parseNode L positions (nodeElement L node [] []) none = .ok raw) :
    parseChild L positions (nodeElement L node [] []) = .ok ([raw], []) := by
  obtain ⟨hext, hlane, hflow, hns, hsub⟩ := nodeTag_beq hloop
  rw [hbody] at hsub
  rw [nodeElement] at h ⊢
  rw [parseChild]
  simp only [hext, hlane, hflow, hns, hsub, h, Bool.or_self, Bool.false_eq_true, if_false, Option.isSome_none]
  rfl

theorem parseChild_loop {node : Node} {raw : RawNode} {body : Workflow} {settings inner : List Element}
    (hbody : node.body = some body) (hloop : node.kind.isLoop = node.body.isSome) {nodes : List RawNode}
    {flows : List Flow} (hchildren : parseChildren L positions inner = .ok (nodes, flows))
    (hassemble : assemble L (.mk extensionTag [] "" (configElement L node :: settings) :: inner) nodes flows = .ok body)
    (h : parseNode L positions (nodeElement L node settings inner) (some body) = .ok raw) :
    parseChild L positions (nodeElement L node settings inner) = .ok ([raw], []) := by
  obtain ⟨hext, hlane, hflow, hns, hsub⟩ := nodeTag_beq hloop
  rw [hbody] at hsub
  rw [nodeElement] at h ⊢
  rw [parseChild]
  simp only [hext, hlane, hflow, hns, hsub, parseChildren_extension, hchildren, Bool.or_self,
    Bool.false_eq_true, if_false,
    Option.isSome_some, if_true]
  show (do
    let body ← assemble L (.mk extensionTag [] "" (configElement L node :: settings) :: inner) nodes flows
    let node ← parseNode L positions _ (some body)
    pure ([node], [])) = _
  rw [hassemble]
  show (do
    let node ← parseNode L positions _ (some body)
    pure ([node], [])) = _
  rw [h]
  rfl

end Children

/-! ### A workflow -/

theorem Built.fields {graph : Workflow} (h : Built graph) : WorkflowFields graph := by
  obtain ⟨version, nodes, flows, actors, agent, inputs, outputs⟩ := graph
  exact h.1

theorem BuiltNode.fields {node : Node} (h : BuiltNode node) : NodeFields node := by
  obtain ⟨id, kind, title, config, x, y, body, inputs, outputs⟩ := node
  cases body with
  | none => exact h
  | some body => exact h.1

theorem BuiltNodes.fields {nodes : List Node} (h : BuiltNodes nodes) : ∀ node ∈ nodes, NodeFields node := by
  induction nodes with
  | nil => exact fun _ hnode => absurd hnode List.not_mem_nil
  | cons node rest ih => exact List.forall_mem_cons.mpr ⟨BuiltNode.fields h.1, ih h.2⟩

theorem Built.nodes {graph : Workflow} (h : Built graph) : BuiltNodes graph.nodes := by
  obtain ⟨version, nodes, flows, actors, agent, inputs, outputs⟩ := graph
  exact h.2

/-- A condition of an accepted graph is an expression, so it has text. -/
theorem GraphOk.condition {S : Services} {graph : Workflow} (h : GraphOk S graph) {flow : Flow}
    (hflow : flow ∈ graph.flows) : flow.condition ≠ some "" := by
  intro heq
  have hcheck := h.flows flow hflow
  unfold checkFlow at hcheck
  split at hcheck
  · rw [heq] at hcheck
    simp only [bind_eq_ok] at hcheck
    obtain ⟨_, hparse, -⟩ := hcheck
    exact S.parseExpression_empty hparse
  · cases hcheck

section Parse
variable {positions : String → Option (Rat × Rat)}

mutual

theorem parseWorkflow_written : ∀ {graph : Workflow} (used : List String), Accepted L.toServices graph → Built graph →
    unreserved graph = true → Located positions graph →
      parseChildren L positions (writeWorkflow L graph used).elements = .ok (graph.nodes.map rawNode, graph.flows)
  | ⟨version, nodes, flows, actors, agent, inputs, outputs⟩, used, haccepted, hbuilt, hunreserved, hlocated => by
    let graph : Workflow := ⟨version, nodes, flows, actors, agent, inputs, outputs⟩
    have hnodes := parseNodes_written (writeLanes graph used).used (fun node hnode => haccepted.nodeOk hnode) hbuilt.2
      hunreserved hlocated
    have hflows : parseChildren L positions
        (writeFlows L graph flows (writeNodes L nodes (writeLanes graph used).used).used).elements = .ok ([], flows) :=
      parseChildren_flows _ hbuilt.1.flows fun flow hflow => haccepted.graphOk.condition hflow
    rw [writeWorkflow]
    simpa using parseChildren_append (parseChildren_lanes _ used) (parseChildren_append hnodes hflows)

theorem parseNodes_written : ∀ {graph : Workflow} {nodes : List Node} (used : List String),
    (∀ node ∈ nodes, NodeOk L.toServices graph node) → BuiltNodes nodes → unreservedNodes nodes = true →
      (∀ p ∈ positionsInNodes nodes, positions p.1 = some p.2) →
        parseChildren L positions (writeNodes L nodes used).elements = .ok (nodes.map rawNode, [])
  | _, [], used, _, _, _, _ => by
    rw [writeNodes, parseChildren]
    rfl
  | graph, node :: rest, used, hok, hbuilt, hunreserved, hlocated => by
    rw [unreservedNodes, Bool.and_eq_true] at hunreserved
    rw [positionsInNodes] at hlocated
    have hfirst := parseNode_written used (hok node List.mem_cons_self) hbuilt.1 hunreserved.1
      fun p hp => hlocated p (List.mem_append_left _ hp)
    have hrest := parseNodes_written (writeNode L node used).used
      (fun n hn => hok n (List.mem_cons_of_mem _ hn)) hbuilt.2 hunreserved.2
      fun p hp => hlocated p (List.mem_append_right _ hp)
    rw [writeNodes]
    exact parseChildren_append hfirst hrest

theorem parseNode_written : ∀ {graph : Workflow} {node : Node} (used : List String),
    NodeOk L.toServices graph node → BuiltNode node → unreservedNode node = true →
      (∀ p ∈ positionsInNode node, positions p.1 = some p.2) →
        parseChildren L positions (writeNode L node used).elements = .ok ([rawNode node], [])
  | graph, ⟨id, kind, title, config, x, y, some body, inputs, outputs⟩, used, hok, hbuilt, hunreserved, hlocated => by
    let node : Node := ⟨id, kind, title, config, x, y, some body, inputs, outputs⟩
    rw [unreservedNode, Bool.and_eq_true, Bool.not_eq_true'] at hunreserved
    rw [positionsInNode] at hlocated
    obtain ⟨haccepted, -, -⟩ := hok.body body rfl
    have hinner := parseWorkflow_written used haccepted hbuilt.2 hunreserved.2
      fun p hp => hlocated p (List.mem_append_left _ hp)
    have hnoExtension := writeWorkflow_noExtension (L := L) body used
    have hbody : assemble L (.mk extensionTag [] "" (configElement L node :: [settingsElement L body]) ::
        (writeWorkflow L body used).elements) (body.nodes.map rawNode) body.flows = .ok body :=
      assemble_written haccepted (Built.fields hbuilt.2) (BuiltNodes.fields (Built.nodes hbuilt.2)) hnoExtension rfl
    have hnode : parseNode L positions
        (nodeElement L node [settingsElement L body] (writeWorkflow L body used).elements)
        (some body) = .ok (rawNode node) :=
      parseNode_nodeElement hbuilt.1 hunreserved.1 hok.loop (hlocated (id, (x, y)) (by simp)) hnoExtension
    rw [writeNode, parseChildren, parseChild_loop rfl hok.loop hinner hbody hnode, parseChildren]
    rfl
  | graph, ⟨id, kind, title, config, x, y, none, inputs, outputs⟩, used, hok, hbuilt, hunreserved, hlocated => by
    let node : Node := ⟨id, kind, title, config, x, y, none, inputs, outputs⟩
    rw [unreservedNode, Bool.not_eq_true'] at hunreserved
    rw [positionsInNode] at hlocated
    have hnode : parseNode L positions (nodeElement L node [] []) none = .ok (rawNode node) :=
      parseNode_nodeElement hbuilt hunreserved hok.loop (hlocated (id, (x, y)) (by simp))
        fun _ h => absurd h List.not_mem_nil
    rw [writeNode, parseChildren, parseChild_leaf rfl hok.loop hnode, parseChildren]
    rfl

end

end Parse

/-- The identifiers that are taken when the contents of the process are written. -/
def documentUsed (graph : Workflow) (code : String) : List String :=
  let used := identifier (allIds graph) ("Process_" ++ code) :: allIds graph
  let used := identifier used "Diagram" :: used
  identifier used "Plane" :: used

/-- Where no configuration has a reserved key, the workflow itself is read back. -/
theorem compile_toBpmn {graph : Workflow} {code xml : String} (hxml : toBpmn L graph code = .ok xml)
    (hsize : xml.utf8ByteSize ≤ 2000000) (hbuilt : Built graph) (hunreserved : unreserved graph = true) :
    compile L xml = .ok graph := by
  simp only [toBpmn, bind_eq_ok, pure_eq_ok] at hxml
  obtain ⟨_, hvalid, rfl⟩ := hxml
  have haccepted : Accepted L.toServices graph := hvalid
  obtain ⟨positions, hpositions, hlocated⟩ := positionsOf_document (L := L) code haccepted.allIds_nodup
  have hchildren := parseWorkflow_written (L := L) (documentUsed graph code) haccepted hbuilt hunreserved hlocated
  have hassemble : assemble L (.mk extensionTag [] "" [settingsElement L graph] ::
      (writeWorkflow L graph (documentUsed graph code)).elements) (graph.nodes.map rawNode) graph.flows = .ok graph :=
    assemble_written haccepted hbuilt.fields hbuilt.nodes.fields (writeWorkflow_noExtension graph _) rfl
  have hprocess : Element.findAll (document L graph code).children (bpmnTag "process") =
      [.mk (bpmnTag "process") [("id", identifier (allIds graph) ("Process_" ++ code)), ("isExecutable", "true")] ""
        (.mk extensionTag [] "" [settingsElement L graph] ::
          (writeWorkflow L graph (documentUsed graph code)).elements)] := rfl
  have hids : (!decide (xmlIds (document L graph code)).Nodup) = false := by
    simp [document_ids_nodup code haccepted.allIds_nodup]
  simp only [compile, bind_eq_ok, reject_eq_ok]
  refine ⟨(), by simp [L.prohibited_serialize, hsize], ?_⟩
  rw [L.parseXml_serialize]
  simp only [bind_eq_ok, reject_eq_ok, hids, hprocess]
  exact ⟨(), rfl, (), trivial, positions, hpositions, (graph.nodes.map rawNode, graph.flows),
    parseChildren_extension.trans hchildren, hassemble⟩

end Galaris.Process.Bpmn
