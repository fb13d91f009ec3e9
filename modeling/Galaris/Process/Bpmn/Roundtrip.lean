import Galaris.Process.Bpmn.Parsed
import Galaris.Process.Bpmn.Texts

/-! The round trip of a workflow.

A workflow that the encoder wrote comes back equal exactly where no configuration has a
key that the encoder keeps for itself: what is read never has one, and equal workflows
have the same keys (`compile_same_iff`). -/
namespace Galaris.Process.Bpmn

open Results Coding

variable {L : Libraries}

/-! ### Python's equality of workflows -/

def sameDefault : Option TypedValue → Option TypedValue → Bool
  | none, none => true
  | some d, some e => d.type == e.type && d.value.same e.value
  | _, _ => false

def sameVariable (v w : Variable) : Bool :=
  v.name == w.name && v.type == w.type && v.nullable == w.nullable && sameDefault v.default w.default

def sameVariables : List Variable → List Variable → Bool
  | [], [] => true
  | v :: vs, w :: ws => sameVariable v w && sameVariables vs ws
  | _, _ => false

def sameDeclared : Option (List Variable) → Option (List Variable) → Bool
  | none, none => true
  | some vs, some ws => sameVariables vs ws
  | _, _ => false

/-- The fields of a node but its body. -/
def Node.sameFields (node other : Node) : Bool :=
  node.id == other.id && node.kind == other.kind && node.title == other.title &&
    (Json.obj node.config).same (.obj other.config) && node.x == other.x && node.y == other.y &&
    sameDeclared node.inputs other.inputs && sameDeclared node.outputs other.outputs

/-- The fields of a workflow but its nodes. -/
def Workflow.sameFields (graph other : Workflow) : Bool :=
  graph.schemaVersion == other.schemaVersion && graph.flows == other.flows && graph.actors == other.actors &&
    graph.executionAgentId == other.executionAgentId && sameDeclared graph.inputs other.inputs &&
    sameDeclared graph.outputs other.outputs

mutual

/-- `graph == other`. -/
def Workflow.same : Workflow → Workflow → Bool
  | ⟨version, nodes, flows, actors, agent, inputs, outputs⟩, other =>
    (Workflow.mk version nodes flows actors agent inputs outputs).sameFields other && sameNodes nodes other.nodes

def sameNodes : List Node → List Node → Bool
  | [], [] => true
  | node :: rest, other :: others => node.same other && sameNodes rest others
  | _, _ => false

def Node.same : Node → Node → Bool
  | ⟨id, kind, title, config, x, y, some body, inputs, outputs⟩, other =>
    (Node.mk id kind title config x y (some body) inputs outputs).sameFields other &&
      match other.body with
      | some otherBody => body.same otherBody
      | none => false
  | ⟨id, kind, title, config, x, y, none, inputs, outputs⟩, other =>
    (Node.mk id kind title config x y none inputs outputs).sameFields other && other.body.isNone

end

theorem sameVariable_refl {v : Variable} (h : v.dump.WellFormed) : sameVariable v v = true := by
  obtain ⟨name, type, nullable, default⟩ := v
  cases default with
  | none => simp [sameVariable, sameDefault]
  | some d =>
    have hvalue : d.value.WellFormed := by
      have hentries := (Json.wellFormedEntries_iff _).mp h.2 "default" d.dump (by simp)
      exact (Json.wellFormedEntries_iff _).mp hentries.2 "value" d.value (by simp)
    simp [sameVariable, sameDefault, Json.same_refl hvalue]

theorem sameDeclared_refl {declared : Option (List Variable)} (h : DeclaredFields declared) :
    sameDeclared declared declared = true := by
  cases declared with
  | none => rfl
  | some vs =>
    have hall := h vs rfl
    rw [sameDeclared]
    clear h
    induction vs with
    | nil => rfl
    | cons v rest ih =>
      rw [sameVariables, sameVariable_refl (hall v List.mem_cons_self),
        ih fun w hw => hall w (List.mem_cons_of_mem _ hw)]
      rfl

theorem Node.sameFields_refl {node : Node} (h : NodeFields node) : node.sameFields node = true := by
  simp [sameFields, Json.same_refl h.config, sameDeclared_refl h.inputs, sameDeclared_refl h.outputs]

mutual

theorem Workflow.same_refl : ∀ {graph : Workflow}, Built graph → graph.same graph = true
  | ⟨version, nodes, flows, actors, agent, inputs, outputs⟩, h => by
    rw [Workflow.same, sameNodes_refl h.2, Bool.and_true]
    simp [Workflow.sameFields, sameDeclared_refl h.1.inputs, sameDeclared_refl h.1.outputs]

theorem sameNodes_refl : ∀ {nodes : List Node}, BuiltNodes nodes → sameNodes nodes nodes = true
  | [], _ => by rw [sameNodes]
  | node :: rest, h => by rw [sameNodes, Node.same_refl h.1, sameNodes_refl h.2]; rfl

theorem Node.same_refl : ∀ {node : Node}, BuiltNode node → node.same node = true
  | ⟨id, kind, title, config, x, y, some body, inputs, outputs⟩, h => by
    rw [Node.same, Node.sameFields_refl h.1]
    exact Workflow.same_refl h.2
  | ⟨id, kind, title, config, x, y, none, inputs, outputs⟩, h => by
    rw [Node.same, Node.sameFields_refl h]
    rfl

end

theorem Node.sameFields_config {node other : Node} (h : node.sameFields other = true) :
    (Json.obj node.config).same (.obj other.config) = true := by
  simp only [sameFields, Bool.and_eq_true] at h
  exact h.1.1.1.1.2

/-- Equal configurations have the same keys. -/
theorem hasReserved_same {loop : Bool} {config other : Config} (h : (Json.obj config).same (.obj other) = true)
    (hother : hasReserved loop other = false) : hasReserved loop config = false := by
  rw [hasReserved_eq_false] at hother ⊢
  intro key hkey hmem
  rw [Json.same, Bool.and_eq_true, Json.sameEntries_iff] at h
  obtain ⟨⟨_, x⟩, hentry, rfl⟩ := List.mem_map.mp hmem
  obtain ⟨y, hlookup, -⟩ := h.2 _ x hentry
  exact hother _ hkey (List.mem_map.mpr ⟨_, Json.mem_of_lookup hlookup, rfl⟩)

mutual

theorem unreserved_same : ∀ {graph other : Workflow}, graph.same other = true → unreserved other = true →
    unreserved graph = true
  | ⟨version, nodes, flows, actors, agent, inputs, outputs⟩,
    ⟨version', nodes', flows', actors', agent', inputs', outputs'⟩,
      h, hother => by
    rw [Workflow.same, Bool.and_eq_true] at h
    rw [unreserved] at hother ⊢
    exact unreservedNodes_same h.2 hother

theorem unreservedNodes_same : ∀ {nodes others : List Node}, sameNodes nodes others = true →
    unreservedNodes others = true → unreservedNodes nodes = true
  | [], _, _, _ => by rw [unreservedNodes]
  | node :: rest, [], h, _ => absurd (show false = true from h) Bool.false_ne_true
  | node :: rest, other :: others, h, hother => by
    rw [sameNodes, Bool.and_eq_true] at h
    rw [unreservedNodes, Bool.and_eq_true] at hother ⊢
    exact ⟨unreservedNode_same h.1 hother.1, unreservedNodes_same h.2 hother.2⟩

theorem unreservedNode_same : ∀ {node other : Node}, node.same other = true → unreservedNode other = true →
    unreservedNode node = true
  | ⟨id, kind, title, config, x, y, some body, inputs, outputs⟩,
      ⟨id', kind', title', config', x', y', some body', inputs', outputs'⟩, h, hother => by
    rw [Node.same, Bool.and_eq_true] at h
    rw [unreservedNode, Bool.and_eq_true, Bool.not_eq_true'] at hother ⊢
    exact ⟨hasReserved_same (Node.sameFields_config h.1) hother.1, unreserved_same h.2 hother.2⟩
  | ⟨id, kind, title, config, x, y, none, inputs, outputs⟩,
      ⟨id', kind', title', config', x', y', none, inputs', outputs'⟩, h, hother => by
    rw [Node.same, Bool.and_eq_true] at h
    rw [unreservedNode, Bool.not_eq_true'] at hother ⊢
    exact hasReserved_same (Node.sameFields_config h.1) hother
  | ⟨id, kind, title, config, x, y, some body, inputs, outputs⟩,
      ⟨id', kind', title', config', x', y', none, inputs', outputs'⟩, h, _ => by
    rw [Node.same, Bool.and_eq_true] at h
    exact absurd h.2 Bool.false_ne_true
  | ⟨id, kind, title, config, x, y, none, inputs, outputs⟩,
      ⟨id', kind', title', config', x', y', some body', inputs', outputs'⟩, h, _ => by
    rw [Node.same, Bool.and_eq_true] at h
    exact absurd h.2 Bool.false_ne_true

end

/-! ### What is read has no reserved key -/

/-- A collected node without reserved keys, in itself and in its body. -/
structure RawUnreserved (raw : RawNode) : Prop where
  config : hasReserved raw.body.isSome raw.config = false
  body : ∀ body ∈ raw.body, unreserved body = true

theorem hasReserved_sublist {loop : Bool} {config kept : Config} (hsub : kept ⊆ config)
    (h : hasReserved loop config = false) : hasReserved loop kept = false := by
  rw [hasReserved_eq_false] at h ⊢
  intro key hkey hmem
  exact h key hkey (List.map_subset _ hsub hmem)

theorem discardLegacy_subset (kind : Json) (config : Config) : discardLegacy kind config ⊆ config := by
  unfold discardLegacy
  split
  · exact List.filter_subset_self _
  · exact List.Subset.trans (List.filter_subset_self _) (List.filter_subset_self _)

theorem loadNode_unreserved {raw : RawNode} {node : Node} (hraw : RawUnreserved raw) (h : loadNode L raw = some node) :
    unreservedNode node = true := by
  obtain ⟨id, kind, title, config, inputs, outputs, x, y, body⟩ := raw
  have hconfig := hasReserved_sublist (discardLegacy_subset kind config) hraw.config
  unfold loadNode at h
  split at h
  · split at h
    · split at h
      · cases h
        cases body with
        | none =>
          rw [unreservedNode, Bool.not_eq_true']
          exact hconfig
        | some body =>
          rw [unreservedNode, Bool.and_eq_true, Bool.not_eq_true']
          exact ⟨hconfig, hraw.body body rfl⟩
      · cases h
    · cases h
  · cases h

theorem mapM_loadNode_unreserved {raws : List RawNode} {nodes : List Node} (hraws : ∀ raw ∈ raws, RawUnreserved raw)
    (h : raws.mapM (loadNode L) = some nodes) : unreservedNodes nodes = true := by
  induction raws generalizing nodes with
  | nil =>
    cases h
    rfl
  | cons raw rest ih =>
    rw [List.mapM_cons] at h
    simp only [Option.bind_eq_bind, Option.bind_eq_some_iff, Option.pure_def, Option.some.injEq] at h
    obtain ⟨node, hnode, others, hothers, rfl⟩ := h
    rw [unreservedNodes, loadNode_unreserved (hraws raw List.mem_cons_self) hnode,
      ih (fun r hr => hraws r (List.mem_cons_of_mem _ hr)) hothers]
    rfl

theorem withoutHandlers_subset (props : Config) (nodes : List RawNode) (flows : List Flow) :
    (withoutHandlers L props nodes flows).1 ⊆ nodes := by
  unfold withoutHandlers
  dsimp only
  split
  · exact List.Subset.refl _
  · exact List.filter_subset_self _

theorem assemble_unreserved {children : List Element} {nodes : List RawNode} {flows : List Flow} {graph : Workflow}
    (hnodes : ∀ raw ∈ nodes, RawUnreserved raw) (h : assemble L children nodes flows = .ok graph) :
    unreserved graph = true := by
  simp only [assemble, bind_eq_ok] at h
  obtain ⟨props, -, h⟩ := h
  split at h
  · cases h
  · next loaded hload =>
    simp only [bind_eq_ok, pure_eq_ok] at h
    obtain ⟨_, -, rfl⟩ := h
    unfold loadWorkflow at hload
    dsimp only at hload
    split at hload
    · split at hload
      · next hloaded _ _ _ _ =>
        cases hload
        rw [unreserved]
        exact mapM_loadNode_unreserved (fun raw hraw => hnodes raw (withoutHandlers_subset _ _ _ hraw)) hloaded
      · cases hload
    · cases hload

theorem parseNode_unreserved {positions : String → Option (Rat × Rat)} {child : Element} {body : Option Workflow}
    {raw : RawNode} (h : parseNode L positions child body = .ok raw)
    (htag : (child.tag.name == "subProcess") = body.isSome) (hbody : ∀ graph ∈ body, unreserved graph = true) :
    RawUnreserved raw := by
  simp only [parseNode, bind_eq_ok, pure_eq_ok] at h
  obtain ⟨config, -, kind, -, rfl⟩ := h
  refine ⟨?_, hbody⟩
  rw [← htag]
  exact hasReserved_remaining _ _

mutual

theorem parseChildren_unreserved {positions : String → Option (Rat × Rat)} :
    ∀ {children : List Element} {nodes : List RawNode} {flows : List Flow},
      parseChildren L positions children = .ok (nodes, flows) → ∀ raw ∈ nodes, RawUnreserved raw
  | [], nodes, flows, h => by
    rw [parseChildren] at h
    cases h
    exact fun _ h => absurd h List.not_mem_nil
  | child :: rest, nodes, flows, h => by
    simp only [parseChildren, bind_eq_ok, pure_eq_ok] at h
    obtain ⟨⟨first, _⟩, hfirst, ⟨others, _⟩, hothers, heq⟩ := h
    cases heq
    intro raw hraw
    rcases List.mem_append.mp hraw with hmine | hother
    · exact parseChild_unreserved hfirst raw hmine
    · exact parseChildren_unreserved hothers raw hother

theorem parseChild_unreserved {positions : String → Option (Rat × Rat)} :
    ∀ {child : Element} {nodes : List RawNode} {flows : List Flow},
      parseChild L positions child = .ok (nodes, flows) → ∀ raw ∈ nodes, RawUnreserved raw
  | .mk tag attrib text children, nodes, flows, h => by
    rw [parseChild] at h
    split at h
    · cases h
      exact fun _ h => absurd h List.not_mem_nil
    split at h
    · simp only [bind_eq_ok, pure_eq_ok] at h
      obtain ⟨flow, -, heq⟩ := h
      cases heq
      exact fun _ h => absurd h List.not_mem_nil
    split at h
    · next hsub =>
      split at h
      · cases h
      · simp only [bind_eq_ok, pure_eq_ok] at h
        obtain ⟨⟨inner, links⟩, hinner, body, hbody, node, hnode, heq⟩ := h
        cases heq
        have hunreserved := assemble_unreserved (parseChildren_unreserved hinner) hbody
        intro raw hraw
        rw [List.mem_singleton.mp hraw]
        exact parseNode_unreserved hnode hsub fun graph hgraph => by cases hgraph; exact hunreserved
    · next hsub =>
      split at h
      · cases h
      · simp only [bind_eq_ok, pure_eq_ok] at h
        obtain ⟨node, hnode, heq⟩ := h
        cases heq
        intro raw hraw
        rw [List.mem_singleton.mp hraw]
        have hleaf : (tag.name == "subProcess") = false := by simpa using hsub
        exact parseNode_unreserved hnode hleaf fun _ hgraph => absurd hgraph (Option.not_mem_none _)

end

theorem compile_unreserved {xml : String} {graph : Workflow} (h : compile L xml = .ok graph) :
    unreserved graph = true := by
  simp only [compile, bind_eq_ok] at h
  obtain ⟨_, -, h⟩ := h
  split at h
  · cases h
  · simp only [bind_eq_ok] at h
    obtain ⟨_, -, _, -, h⟩ := h
    split at h
    · simp only [bind_eq_ok] at h
      obtain ⟨positions, -, ⟨nodes, flows⟩, hchildren, hassemble⟩ := h
      exact assemble_unreserved (parseChildren_unreserved hchildren) hassemble
    · cases h

/-! ### The round trip -/

/-- **Main theorem.** What `to_bpmn` wrote within the size limit is compiled to an equal
workflow if and only if no configuration, at any depth, has a key that the encoder keeps
for itself. -/
theorem compile_same_iff {graph : Workflow} {code xml : String} (hbuilt : Built graph)
    (hxml : toBpmn L graph code = .ok xml) (hsize : xml.utf8ByteSize ≤ 2000000) :
    (∃ graph', compile L xml = .ok graph' ∧ graph.same graph' = true) ↔ unreserved graph = true := by
  constructor
  · rintro ⟨graph', hcompile, hsame⟩
    exact unreserved_same hsame (compile_unreserved hcompile)
  · intro hunreserved
    exact ⟨graph, compile_toBpmn hxml hsize hbuilt hunreserved, Workflow.same_refl hbuilt⟩

/-! ### The smallest process -/

/-- A start, with a configuration, and an end. -/
def smallest (config : Config) : Workflow where
  nodes := [{id := "begin", kind := .start, config := config}, {id := "finish", kind := .end}]
  flows := [{id := "go", source := "begin", target := "finish"}]

theorem smallest_built {config : Config} (hconfig : (Json.obj config).WellFormed)
    (hcurrent : discardLegacy (.str "start") config = config) : Built (smallest config) := by
  refine ⟨⟨?_, nofun, nofun, nofun, nofun⟩, ⟨?_, hconfig, hcurrent, nofun, nofun⟩,
    ⟨?_, ⟨.nil, trivial⟩, rfl, nofun, nofun⟩, trivial⟩
  · intro flow hflow
    rw [List.mem_singleton.mp hflow]
    decide
  · show isIdentifier "begin" = true
    decide
  · show isIdentifier "finish" = true
    decide

/-- The JSON of the document, with the text of the configuration. -/
def smallestJsons (config : Config) (text : String) : List (Json × String) :=
  [((smallest config).settings,
      "\x7b\"schema_version\": \"galaris.bpmn/v1\", \"actors\": [], \"execution_agent_id\": null\x7d"),
    (.obj config, text), (.obj [], "\x7b\x7d")]

/-- The document up to the text of the configuration, and after it. -/
def smallestHead : List String :=
  ["<bpmn:definitions xmlns:bpmn=\"http://www.omg.org/spec/BPMN/20100524/MODEL\" ",
    "xmlns:bpmndi=\"http://www.omg.org/spec/BPMN/20100524/DI\" xmlns:dc=\"http://www.omg.org/spec/DD/20100524/DC\" ",
    "xmlns:di=\"http://www.omg.org/spec/DD/20100524/DI\" xmlns:galaris=\"https://galaris.ai/bpmn/v1\" ",
    "targetNamespace=\"https://galaris.ai/bpmn/v1\"><bpmn:process id=\"Process_flow\" isExecutable=\"true\">",
    "<bpmn:extensionElements><galaris:workflow>",
    "\x7b\"schema_version\": \"galaris.bpmn/v1\", \"actors\": [], \"execution_agent_id\": null\x7d",
    "</galaris:workflow></bpmn:extensionElements><bpmn:startEvent id=\"begin\" name=\"\">",
    "<bpmn:extensionElements><galaris:config>"]

def smallestTail : List String :=
  ["</galaris:config></bpmn:extensionElements></bpmn:startEvent><bpmn:endEvent id=\"finish\" name=\"\">",
    "<bpmn:extensionElements><galaris:config>\x7b\x7d</galaris:config></bpmn:extensionElements></bpmn:endEvent>",
    "<bpmn:sequenceFlow id=\"go\" sourceRef=\"begin\" targetRef=\"finish\" /></bpmn:process>",
    "<bpmndi:BPMNDiagram id=\"Diagram\"><bpmndi:BPMNPlane id=\"Plane\" bpmnElement=\"Process_flow\">",
    "<bpmndi:BPMNShape id=\"Shape_begin\" bpmnElement=\"begin\">",
    "<dc:Bounds x=\"0.0\" y=\"0.0\" width=\"160\" height=\"70\" /></bpmndi:BPMNShape>",
    "<bpmndi:BPMNShape id=\"Shape_finish\" bpmnElement=\"finish\">",
    "<dc:Bounds x=\"0.0\" y=\"0.0\" width=\"160\" height=\"70\" /></bpmndi:BPMNShape>",
    "<bpmndi:BPMNEdge id=\"Edge_go\" bpmnElement=\"go\"><di:waypoint x=\"80.0\" y=\"35.0\" />",
    "<di:waypoint x=\"80.0\" y=\"35.0\" /></bpmndi:BPMNEdge></bpmndi:BPMNPlane></bpmndi:BPMNDiagram></bpmn:definitions>"]

def joined : List String → String
  | [] => ""
  | part :: rest => part ++ joined rest

theorem joined_size (parts : List String) : (joined parts).utf8ByteSize = (parts.map String.utf8ByteSize).sum := by
  induction parts with
  | nil => rfl
  | cons part rest ih => rw [joined, String.utf8ByteSize_append, ih, List.map_cons, List.sum_cons]

def smallestText (config : String) : String := joined (smallestHead ++ config :: smallestTail)

theorem smallestText_size {config : String} (h : config.utf8ByteSize ≤ 1000) :
    (smallestText config).utf8ByteSize ≤ 2000000 := by
  have hhead : (smallestHead.map String.utf8ByteSize).sum ≤ 1000 := by decide +kernel
  have htail : (smallestTail.map String.utf8ByteSize).sum ≤ 1000 := by decide +kernel
  rw [smallestText, joined_size, List.map_append, List.map_cons, List.sum_append, List.sum_cons]
  omega

theorem smallestText_head (config : String) : (smallestText config).toList.head? = some '<' := by
  have hhead :
      ("<bpmn:definitions xmlns:bpmn=\"http://www.omg.org/spec/BPMN/20100524/MODEL\" ").toList.head? = some '<' := by
    decide +kernel
  rw [smallestText, smallestHead, List.cons_append, joined, String.toList_append, List.head?_append, hhead]
  rfl

section Smallest
variable {config : Config} {written : String} (hjsons : Distinct (smallestJsons config written))
  (hempty : ∀ entry ∈ smallestJsons config written, entry.2 ≠ "")

/-- The tree of the smallest process. -/
noncomputable def smallestDocument : Element :=
  have hnone : Distinct ([] : List (Element × String)) := ⟨.nil, nofun⟩
  document (libraries hjsons hempty hnone) (smallest config) "flow"

theorem smallestText_distinct : Distinct [(smallestDocument hjsons hempty, smallestText written)] := by
  refine ⟨List.nodup_singleton _, fun entry hentry => ?_⟩
  rw [List.mem_singleton.mp hentry, smallestText_head]
  decide

/-- Libraries that write the smallest process as its document. -/
noncomputable def smallestLibraries : Libraries := libraries hjsons hempty (smallestText_distinct hjsons hempty)

theorem toBpmn_smallest (hvalid : ∀ S, validateGraph S (smallest config) = .ok ()) :
    toBpmn (smallestLibraries hjsons hempty) (smallest config) "flow" = .ok (smallestText written) := by
  have hkeys : ([(smallestDocument hjsons hempty, smallestText written)].map (·.1)).Nodup := List.nodup_singleton _
  simp only [toBpmn, bind_eq_ok, pure_eq_ok]
  exact ⟨(), hvalid _, text_of_mem hkeys (List.mem_singleton.mpr rfl)⟩

end Smallest

/-- A configuration of the user's own. -/
def noteConfig : Config := [("note", .str "first")]
def noteText : String := "\x7b\"note\": \"first\"\x7d"

theorem note_jsons : Distinct (smallestJsons noteConfig noteText) := ⟨by decide +kernel, by decide +kernel⟩

theorem note_jsons_ne_empty : ∀ entry ∈ smallestJsons noteConfig noteText, entry.2 ≠ "" := by decide

theorem note_built : Built (smallest noteConfig) := smallest_built ⟨by decide, trivial, trivial⟩ rfl

theorem compile_same_iff_note : ∃ graph', compile (smallestLibraries note_jsons note_jsons_ne_empty)
    (smallestText noteText) = .ok graph' ∧ (smallest noteConfig).same graph' = true :=
  (compile_same_iff note_built (toBpmn_smallest note_jsons note_jsons_ne_empty fun _ => rfl)
    (smallestText_size (by decide +kernel))).mpr rfl

/-- A configuration with a key of the encoder. -/
def inputsConfig : Config := [("inputs", .arr [])]
def inputsText : String := "\x7b\"inputs\": []\x7d"

theorem inputs_jsons : Distinct (smallestJsons inputsConfig inputsText) := ⟨by decide +kernel, by decide +kernel⟩

theorem inputs_jsons_ne_empty : ∀ entry ∈ smallestJsons inputsConfig inputsText, entry.2 ≠ "" := by decide

theorem inputs_built : Built (smallest inputsConfig) := smallest_built ⟨by decide, trivial, trivial⟩ rfl

/-- A key `inputs` of a configuration is read as a declaration. -/
theorem reserved_key_is_lost : ¬ ∀ (L : Libraries) (graph : Workflow) (code xml : String), Built graph →
    toBpmn L graph code = .ok xml → xml.utf8ByteSize ≤ 2000000 →
      ∃ graph', compile L xml = .ok graph' ∧ graph.same graph' = true := by
  intro h
  obtain ⟨graph', hcompile, hsame⟩ := h _ (smallest inputsConfig) "flow" _ inputs_built
    (toBpmn_smallest inputs_jsons inputs_jsons_ne_empty fun _ => rfl) (smallestText_size (by decide +kernel))
  have hunreserved := unreserved_same hsame (compile_unreserved hcompile)
  exact absurd hunreserved (by decide)

end Galaris.Process.Bpmn
