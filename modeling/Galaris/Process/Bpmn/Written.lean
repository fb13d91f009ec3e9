import Galaris.Process.Bpmn.Codec
import Mathlib.Data.List.Perm.Subperm
import Mathlib.Data.List.Perm.Lattice
import Mathlib.Data.List.ReduceOption

/-! What the encoder writes.

The identifiers of a document are distinct: those of the workflow and its bodies, and the
fresh ones that the encoder makes up (`document_ids_nodup`). Every node has one shape, in
which its coordinates are found again (`positionsOf_document`). -/
namespace Galaris.Process.Bpmn

open Results

variable {L : Libraries}

/-! ### Fresh identifiers -/

/-- Underscores lead to a free name: of one name more than are used, one is not used. -/
theorem identifier_fresh (used : List String) (base : String) : identifier used base ∉ used := by
  let candidates := (List.range (used.length + 1)).map fun k => base ++ String.ofList (List.replicate k '_')
  have hnodup : candidates.Nodup := by
    refine List.Nodup.map ?_ List.nodup_range
    intro j k heq
    have hlength := congrArg String.length heq
    simpa using hlength
  have hfree : ∃ candidate ∈ candidates, candidate ∉ used := by
    by_contra hnone
    have hsub : candidates ⊆ used := fun candidate hmem => by
      by_contra hnot
      exact hnone ⟨candidate, hmem, hnot⟩
    have hle := (List.subperm_of_subset hnodup hsub).length_le
    simp only [candidates, List.length_map, List.length_range] at hle
    omega
  obtain ⟨candidate, hmem, hnot⟩ := hfree
  unfold identifier
  cases hfind : candidates.find? fun candidate => !used.contains candidate with
  | none =>
    have hall := List.find?_eq_none.mp hfind candidate hmem
    simp [hnot] at hall
  | some found =>
    have hfound := List.find?_some hfind
    simpa using hfound

theorem takes_identifier (used : List String) (base : String) :
    Takes used [identifier used base] (identifier used base :: used) where
  nodup := List.nodup_singleton _
  fresh id hid := by
    rw [List.mem_singleton.mp hid]
    exact identifier_fresh used base
  out := .refl _

/-- The `id` attributes below. -/
def idsOf (elements : List Element) : List String :=
  (Element.iterAll elements).filterMap fun element => element.attrib.lookup "id"

theorem idsOf_nil : idsOf [] = [] := by simp [idsOf, Element.iterAll]

theorem iterAll_append (xs ys : List Element) :
    Element.iterAll (xs ++ ys) = Element.iterAll xs ++ Element.iterAll ys := by
  induction xs with
  | nil => simp [Element.iterAll]
  | cons x rest ih => simp [Element.iterAll, ih]

theorem idsOf_append (xs ys : List Element) : idsOf (xs ++ ys) = idsOf xs ++ idsOf ys := by
  simp [idsOf, iterAll_append]

theorem idsOf_cons (tag : Tag) (attrib : List (String × String)) (text : String) (children rest : List Element) :
    idsOf (.mk tag attrib text children :: rest) =
      (attrib.lookup "id").toList ++ (idsOf children ++ idsOf rest) := by
  simp only [idsOf, Element.iterAll, Element.iter, List.cons_append, List.filterMap_cons, Element.attrib,
    List.filterMap_append]
  cases attrib.lookup "id" <;> rfl

/-- A written part holds the identifiers `ids` of the graph, and fresh ones. -/
def Writes (used : List String) (w : Written) (ids : List String) : Prop :=
  ∃ new, Takes used new w.used ∧ (idsOf w.elements ++ idsOf w.plane).Perm (ids ++ new)

theorem Writes.append {used : List String} {v w : Written} {xs ys : List String} (h : Writes used v xs)
    (k : Writes v.used w ys) :
    Writes used ⟨v.elements ++ w.elements, v.plane ++ w.plane, w.used⟩ (xs ++ ys) := by
  obtain ⟨new, htakes, hperm⟩ := h
  obtain ⟨new', htakes', hperm'⟩ := k
  refine ⟨new ++ new', htakes.append htakes', ?_⟩
  rw [List.perm_iff_count] at hperm hperm' ⊢
  intro id
  have h1 := hperm id
  have h2 := hperm' id
  simp only [idsOf_append, List.count_append] at h1 h2 ⊢
  omega

theorem idsOf_noIds {elements : List Element}
    (h : ∀ element ∈ elements, element.attrib.lookup "id" = none ∧ element.children = []) :
    idsOf elements = [] := by
  induction elements with
  | nil => exact idsOf_nil
  | cons element rest ih =>
    obtain ⟨tag, attrib, text, children⟩ := element
    obtain ⟨hid, hchildren⟩ := h _ List.mem_cons_self
    rw [idsOf_cons, ih fun e he => h e (List.mem_cons_of_mem _ he)]
    simp only [Element.attrib, Element.children] at hid hchildren
    rw [hid, hchildren, idsOf_nil]
    rfl

theorem writeLaneList_takes (graph : Workflow) (actors : List Actor) (used : List String) :
    ∃ new, Takes used new (writeLaneList graph actors used).2 ∧
      idsOf (writeLaneList graph actors used).1 = new := by
  induction actors generalizing used with
  | nil => exact ⟨[], .nil used, idsOf_nil⟩
  | cons actor rest ih =>
    obtain ⟨new, htakes, hids⟩ := ih (identifier used ("Lane_" ++ actor.id) :: used)
    refine ⟨_, (takes_identifier used ("Lane_" ++ actor.id)).append htakes, ?_⟩
    rw [writeLaneList]
    simp only [laneElement, idsOf_cons]
    rw [hids, idsOf_noIds]
    · rfl
    · intro element helement
      obtain ⟨node, -, rfl⟩ := List.mem_map.mp helement
      exact ⟨rfl, rfl⟩

theorem writeLanes_writes (graph : Workflow) (used : List String) : Writes used (writeLanes graph used) [] := by
  unfold writeLanes
  split
  · exact ⟨[], .nil used, by simp [idsOf_nil]⟩
  · obtain ⟨new, htakes, hids⟩ := writeLaneList_takes graph graph.actors (identifier used "Lanes" :: used)
    refine ⟨_, (takes_identifier used "Lanes").append htakes, ?_⟩
    simp only [idsOf_cons, hids, idsOf_nil, List.append_nil]
    exact .refl _

theorem writeFlows_writes (graph : Workflow) (flows : List Flow) (used : List String) :
    Writes used (writeFlows L graph flows used) (flows.map (·.id)) := by
  induction flows generalizing used with
  | nil => exact ⟨[], .nil used, by simp [writeFlows, idsOf_nil]⟩
  | cons flow rest ih =>
    have hfirst : Writes used ⟨[flowElement flow], [edgeElement L graph flow (identifier used ("Edge_" ++ flow.id))],
        identifier used ("Edge_" ++ flow.id) :: used⟩ [flow.id] := by
      refine ⟨_, takes_identifier used ("Edge_" ++ flow.id), ?_⟩
      simp only [flowElement, edgeElement, idsOf_cons, idsOf_nil]
      rw [idsOf_noIds, idsOf_noIds]
      · exact .refl _
      · intro element helement
        obtain ⟨node, -, rfl⟩ := List.mem_map.mp helement
        exact ⟨rfl, rfl⟩
      · intro element helement
        obtain ⟨condition, -, rfl⟩ := List.mem_map.mp helement
        exact ⟨rfl, rfl⟩
    exact hfirst.append (ih _)

theorem idsOf_shapeElement (node : Node) (id : String) : idsOf [shapeElement L node id] = [id] := rfl

theorem idsOf_nodeElement (node : Node) (settings inner : List Element) (hsettings : idsOf settings = []) :
    idsOf [nodeElement L node settings inner] = node.id :: idsOf inner := by
  simp only [nodeElement, configElement, idsOf_cons, idsOf_nil, hsettings, List.append_nil]
  rfl

mutual

theorem writeWorkflow_writes : ∀ (graph : Workflow) (used : List String),
    Writes used (writeWorkflow L graph used) (allIds graph)
  | ⟨version, nodes, flows, actors, agent, inputs, outputs⟩, used => by
    have hlanes := writeLanes_writes ⟨version, nodes, flows, actors, agent, inputs, outputs⟩ used
    have hnodes := writeNodes_writes nodes
        (writeLanes ⟨version, nodes, flows, actors, agent, inputs, outputs⟩ used).used
    have hflows := writeFlows_writes (L := L) ⟨version, nodes, flows, actors, agent, inputs, outputs⟩ flows
      (writeNodes L nodes (writeLanes ⟨version, nodes, flows, actors, agent, inputs, outputs⟩ used).used).used
    obtain ⟨new, htakes, hperm⟩ := (hlanes.append hnodes).append hflows
    rw [writeWorkflow, allIds]
    refine ⟨new, htakes, ?_⟩
    rw [List.perm_iff_count] at hperm ⊢
    intro id
    have hcount := hperm id
    have hnone : idsOf (writeLanes ⟨version, nodes, flows, actors, agent, inputs, outputs⟩ used).plane = [] := by
      unfold writeLanes
      split <;> exact idsOf_nil
    simp only [idsOf_append, List.count_append, List.count_nil, hnone] at hcount ⊢
    omega

theorem writeNodes_writes : ∀ (nodes : List Node) (used : List String),
    Writes used (writeNodes L nodes used) (nodes.map (·.id) ++ innerIds nodes)
  | [], used => by
    rw [writeNodes, innerIds]
    exact ⟨[], .nil used, by simp [idsOf_nil]⟩
  | node :: rest, used => by
    have hfirst := writeNode_writes node used
    have hrest := writeNodes_writes rest (writeNode L node used).used
    obtain ⟨new, htakes, hperm⟩ := hfirst.append hrest
    rw [writeNodes, innerIds]
    refine ⟨new, htakes, hperm.trans (List.Perm.append_right new ?_)⟩
    rw [List.perm_iff_count]
    intro id
    simp only [List.count_append, List.map_cons, List.count_cons, List.count_nil]
    omega

theorem writeNode_writes : ∀ (node : Node) (used : List String),
    Writes used (writeNode L node used) ([node.id] ++ bodyIds node)
  | ⟨id, kind, title, config, x, y, some body, inputs, outputs⟩, used => by
    obtain ⟨new, htakes, hperm⟩ := writeWorkflow_writes body used
    rw [writeNode, bodyIds]
    refine ⟨_, htakes.append (takes_identifier _ ("Shape_" ++ id)), ?_⟩
    rw [List.perm_iff_count] at hperm ⊢
    intro key
    have hcount := hperm key
    rw [idsOf_nodeElement _ _ _ rfl, idsOf_append, idsOf_shapeElement]
    simp only [List.count_append, List.count_cons, List.count_nil] at hcount ⊢
    omega
  | ⟨id, kind, title, config, x, y, none, inputs, outputs⟩, used => by
    rw [writeNode, bodyIds]
    refine ⟨_, takes_identifier used ("Shape_" ++ id), ?_⟩
    rw [idsOf_nodeElement _ _ _ idsOf_nil, idsOf_shapeElement, idsOf_nil]
    exact .refl _

end

/-- The identifiers of the document are distinct. -/
theorem document_ids_nodup {graph : Workflow} (code : String) (h : (allIds graph).Nodup) :
    (xmlIds (document L graph code)).Nodup := by
  obtain ⟨new, htakes, hperm⟩ := writeWorkflow_writes (L := L) graph
    (identifier (identifier (identifier (allIds graph) ("Process_" ++ code) :: allIds graph) "Diagram" ::
      identifier (allIds graph) ("Process_" ++ code) :: allIds graph) "Plane" ::
      identifier (identifier (allIds graph) ("Process_" ++ code) :: allIds graph) "Diagram" ::
      identifier (allIds graph) ("Process_" ++ code) :: allIds graph)
  have hnames := (((takes_identifier (allIds graph) ("Process_" ++ code)).append
    (takes_identifier _ "Diagram")).append (takes_identifier _ "Plane")).append htakes
  have hall : (allIds graph ++ ([identifier (allIds graph) ("Process_" ++ code)] ++
      [identifier (identifier (allIds graph) ("Process_" ++ code) :: allIds graph) "Diagram"] ++
      [identifier (identifier (identifier (allIds graph) ("Process_" ++ code) :: allIds graph) "Diagram" ::
        identifier (allIds graph) ("Process_" ++ code) :: allIds graph) "Plane"] ++ new)).Nodup :=
    List.nodup_append.mpr ⟨h, hnames.nodup, fun x hx y hy heq => hnames.fresh y hy (heq ▸ hx)⟩
  refine (List.Perm.nodup_iff ?_).mpr hall
  have hids : xmlIds (document L graph code) = idsOf [document L graph code] := by
    simp [xmlIds, idsOf, Element.iterAll]
  rw [hids, document]
  simp only [idsOf_cons, idsOf_nil, settingsElement]
  rw [List.perm_iff_count] at hperm ⊢
  intro id
  have hcount := hperm id
  simp [List.count_cons] at hcount ⊢
  omega

/-! ### Coordinates -/

def shapesOf (elements : List Element) : List Element := Element.findAll (Element.iterAll elements) shapeTag

theorem shapesOf_append (xs ys : List Element) : shapesOf (xs ++ ys) = shapesOf xs ++ shapesOf ys := by
  simp [shapesOf, iterAll_append, Element.findAll]

theorem shapesOf_cons {tag : Tag} (htag : tag ≠ shapeTag) (attrib : List (String × String)) (text : String)
    (children rest : List Element) :
    shapesOf (.mk tag attrib text children :: rest) = shapesOf children ++ shapesOf rest := by
  simp [shapesOf, Element.iterAll, Element.iter, Element.findAll, Element.tag, htag]

theorem shapesOf_nil : shapesOf [] = [] := by simp [shapesOf, Element.iterAll, Element.findAll]

theorem shapesOf_leaves {elements : List Element}
    (h : ∀ element ∈ elements, element.tag ≠ shapeTag ∧ element.children = []) : shapesOf elements = [] := by
  induction elements with
  | nil => exact shapesOf_nil
  | cons element rest ih =>
    obtain ⟨tag, attrib, text, children⟩ := element
    obtain ⟨htag, hchildren⟩ := h _ List.mem_cons_self
    simp only [Element.tag, Element.children] at htag hchildren
    rw [shapesOf_cons htag, hchildren, shapesOf_nil, ih fun e he => h e (List.mem_cons_of_mem _ he)]
    rfl

mutual

/-- The nodes of the graph and of its bodies with their coordinates, in the order of their shapes. -/
def positionsIn : Workflow → List (String × (Rat × Rat))
  | ⟨_, nodes, _, _, _, _, _⟩ => positionsInNodes nodes

def positionsInNodes : List Node → List (String × (Rat × Rat))
  | [] => []
  | node :: rest => positionsInNode node ++ positionsInNodes rest

def positionsInNode : Node → List (String × (Rat × Rat))
  | ⟨id, _, _, _, x, y, some body, _, _⟩ => positionsIn body ++ [(id, (x, y))]
  | ⟨id, _, _, _, x, y, none, _, _⟩ => [(id, (x, y))]

end

theorem writeLanes_shapes (graph : Workflow) (used : List String) :
    shapesOf (writeLanes graph used).elements = [] ∧ shapesOf (writeLanes graph used).plane = [] := by
  have hlist (actors : List Actor) (used : List String) : shapesOf (writeLaneList graph actors used).1 = [] := by
    induction actors generalizing used with
    | nil => exact shapesOf_nil
    | cons actor rest ih =>
      rw [writeLaneList]
      simp only [laneElement]
      rw [shapesOf_cons (by decide), ih, shapesOf_leaves]
      · rfl
      · intro element helement
        obtain ⟨node, -, rfl⟩ := List.mem_map.mp helement
        exact ⟨fun h => (by cases congrArg Tag.ns h), rfl⟩
  unfold writeLanes
  split
  · exact ⟨shapesOf_nil, shapesOf_nil⟩
  · exact ⟨by rw [shapesOf_cons (by decide), hlist, shapesOf_nil]; rfl, shapesOf_nil⟩

theorem writeFlows_shapes (graph : Workflow) (flows : List Flow) (used : List String) :
    shapesOf (writeFlows L graph flows used).elements = [] ∧ shapesOf (writeFlows L graph flows used).plane = [] := by
  induction flows generalizing used with
  | nil => exact ⟨shapesOf_nil, shapesOf_nil⟩
  | cons flow rest ih =>
    rw [writeFlows]
    simp only [flowElement, edgeElement]
    rw [shapesOf_cons (by decide), shapesOf_cons (by decide), (ih _).1, (ih _).2, shapesOf_leaves, shapesOf_leaves]
    · exact ⟨rfl, rfl⟩
    · intro element helement
      obtain ⟨node, -, rfl⟩ := List.mem_map.mp helement
      exact ⟨fun h => (by cases congrArg Tag.ns h), rfl⟩
    · intro element helement
      obtain ⟨condition, -, rfl⟩ := List.mem_map.mp helement
      exact ⟨fun h => (by cases congrArg Tag.ns h), rfl⟩

theorem nodeElement_shapes (node : Node) (settings inner : List Element) (hsettings : shapesOf settings = []) :
    shapesOf [nodeElement L node settings inner] = shapesOf inner := by
  have htag : bpmnTag (nodeTag node) ≠ shapeTag := fun h => by cases congrArg Tag.ns h
  simp only [nodeElement, configElement]
  rw [shapesOf_cons htag, shapesOf_cons (by decide), shapesOf_cons (by decide), hsettings, shapesOf_nil]
  simp

theorem shapeElement_shapes (node : Node) (id : String) :
    (shapesOf [shapeElement L node id]).map (shapePosition L) = [.ok (some (node.id, (node.x, node.y)))] := by
  have hshape : shapesOf [shapeElement L node id] = [shapeElement L node id] := rfl
  have hbounds : ((shapeElement L node id).children.find? fun child =>
      child.tag == ⟨.dc, "Bounds"⟩) = some (.mk ⟨.dc, "Bounds"⟩
      [("x", L.floatText node.x), ("y", L.floatText node.y), ("width", "160"), ("height", "70")] "" []) := rfl
  have hx : ∀ x, x = L.floatText node.x → L.parseFloat x = some node.x := fun x h => h ▸ L.parseFloat_floatText node.x
  have hy : ∀ y, y = L.floatText node.y → L.parseFloat y = some node.y := fun y h => h ▸ L.parseFloat_floatText node.y
  rw [hshape]
  simp only [List.map_cons, List.map_nil, List.cons.injEq, and_true]
  rw [shapePosition, hbounds]
  dsimp only
  rw [hx, hy]
  all_goals rfl

mutual

theorem writeWorkflow_shapes : ∀ (graph : Workflow) (used : List String),
    shapesOf (writeWorkflow L graph used).elements = [] ∧
      (shapesOf (writeWorkflow L graph used).plane).map (shapePosition L) =
        (positionsIn graph).map fun p => .ok (some p)
  | ⟨version, nodes, flows, actors, agent, inputs, outputs⟩, used => by
    have hlanes := writeLanes_shapes ⟨version, nodes, flows, actors, agent, inputs, outputs⟩ used
    have hnodes := writeNodes_shapes nodes
        (writeLanes ⟨version, nodes, flows, actors, agent, inputs, outputs⟩ used).used
    have hflows := writeFlows_shapes (L := L) ⟨version, nodes, flows, actors, agent, inputs, outputs⟩ flows
      (writeNodes L nodes (writeLanes ⟨version, nodes, flows, actors, agent, inputs, outputs⟩ used).used).used
    rw [writeWorkflow, positionsIn]
    simp only [shapesOf_append, hlanes.1, hnodes.1, hflows.1, hflows.2, List.append_nil, hnodes.2, and_self]

theorem writeNodes_shapes : ∀ (nodes : List Node) (used : List String),
    shapesOf (writeNodes L nodes used).elements = [] ∧
      (shapesOf (writeNodes L nodes used).plane).map (shapePosition L) =
        (positionsInNodes nodes).map fun p => .ok (some p)
  | [], used => ⟨shapesOf_nil, rfl⟩
  | node :: rest, used => by
    have hfirst := writeNode_shapes node used
    have hrest := writeNodes_shapes rest (writeNode L node used).used
    rw [writeNodes, positionsInNodes]
    simp only [shapesOf_append, hfirst.1, hrest.1, List.map_append, hfirst.2, hrest.2, List.append_nil, and_self]

theorem writeNode_shapes : ∀ (node : Node) (used : List String),
    shapesOf (writeNode L node used).elements = [] ∧
      (shapesOf (writeNode L node used).plane).map (shapePosition L) =
        (positionsInNode node).map fun p => .ok (some p)
  | ⟨id, kind, title, config, x, y, some body, inputs, outputs⟩, used => by
    obtain ⟨helements, hplane⟩ := writeWorkflow_shapes body used
    rw [writeNode, positionsInNode]
    refine ⟨?_, ?_⟩
    · rw [nodeElement_shapes _ _ _ rfl, helements]
    · rw [shapesOf_append, List.map_append, hplane, shapeElement_shapes, List.map_append]
      rfl
  | ⟨id, kind, title, config, x, y, none, inputs, outputs⟩, used => by
    rw [writeNode, positionsInNode]
    exact ⟨by rw [nodeElement_shapes _ _ _ shapesOf_nil, shapesOf_nil], shapeElement_shapes _ _⟩

end

mutual

theorem positionsIn_count (id : String) : ∀ (graph : Workflow),
    ((positionsIn graph).map (·.1)).count id ≤ (allIds graph).count id
  | ⟨version, nodes, flows, actors, agent, inputs, outputs⟩ => by
    have hnodes := positionsInNodes_count id nodes
    rw [positionsIn, allIds]
    simp only [List.count_append] at hnodes ⊢
    omega

theorem positionsInNodes_count (id : String) : ∀ (nodes : List Node),
    ((positionsInNodes nodes).map (·.1)).count id ≤ (nodes.map (·.id) ++ innerIds nodes).count id
  | [] => by simp [positionsInNodes]
  | node :: rest => by
    have hfirst := positionsInNode_count id node
    have hrest := positionsInNodes_count id rest
    rw [positionsInNodes, innerIds]
    simp only [List.map_append, List.map_cons, List.count_append, List.count_cons] at hfirst hrest ⊢
    omega

theorem positionsInNode_count (id : String) : ∀ (node : Node),
    ((positionsInNode node).map (·.1)).count id ≤ (if node.id == id then 1 else 0) + (bodyIds node).count id
  | ⟨nid, _, _, _, x, y, some body, _, _⟩ => by
    have hbody := positionsIn_count id body
    rw [positionsInNode, bodyIds]
    simp only [List.map_append, List.map_cons, List.map_nil, List.count_append, List.count_cons, List.count_nil]
    omega
  | ⟨nid, _, _, _, x, y, none, _, _⟩ => by
    rw [positionsInNode, bodyIds]
    simp only [List.map_cons, List.map_nil, List.count_cons, List.count_nil]
    omega

end

/-- Every node of the graph and of its bodies finds its own coordinates. -/
def Located (positions : String → Option (Rat × Rat)) (graph : Workflow) : Prop :=
  ∀ p ∈ positionsIn graph, positions p.1 = some p.2

theorem lookup_of_mem {β : Type} {entries : List (String × β)} (hnodup : (entries.map (·.1)).Nodup)
    {p : String × β} (hp : p ∈ entries) : entries.lookup p.1 = some p.2 := by
  rw [List.lookup_eq_some_iff]
  obtain ⟨pre, post, rfl⟩ := List.append_of_mem hp
  refine ⟨pre, post, rfl, fun q hq => ?_⟩
  rw [List.map_append, List.nodup_append] at hnodup
  have hne := hnodup.2.2 q.1 (List.mem_map.mpr ⟨q, hq, rfl⟩) p.1 (by simp)
  simpa using fun heq => hne heq.symm

theorem mapM_ok {α β γ : Type} {f : α → Except String β} {g : γ → β} {xs : List α} {ys : List γ}
    (h : xs.map f = ys.map fun y => .ok (g y)) : xs.mapM f = .ok (ys.map g) := by
  induction xs generalizing ys with
  | nil =>
    cases ys with
    | nil => rfl
    | cons y rest => cases h
  | cons x rest ih =>
    cases ys with
    | nil => cases h
    | cons y others =>
      rw [List.map_cons, List.map_cons, List.cons.injEq] at h
      rw [List.mapM_cons, h.1, ih h.2]
      rfl

/-- The diagram gives back the coordinates of an accepted workflow. -/
theorem positionsOf_document {graph : Workflow} (code : String) (h : (allIds graph).Nodup) :
    ∃ positions, positionsOf L (document L graph code) = .ok positions ∧
      Located (positions.reverse.lookup ·) graph := by
  refine ⟨positionsIn graph, ?_, fun p hp => ?_⟩
  · have hshapes : (Element.findAll (document L graph code).iter shapeTag).map (shapePosition L) =
        (positionsIn graph).map fun p => .ok (some p) := by
      have hiter : Element.findAll (document L graph code).iter shapeTag = shapesOf [document L graph code] := by
        simp [shapesOf, Element.iterAll]
      rw [hiter, document]
      rw [shapesOf_cons (by decide), shapesOf_cons (by decide), shapesOf_cons (by decide), shapesOf_cons (by decide),
        shapesOf_cons (by decide), (writeWorkflow_shapes graph _).1]
      have hsettings : shapesOf [settingsElement L graph] = [] := rfl
      rw [hsettings, shapesOf_nil]
      simp only [List.nil_append, List.append_nil]
      exact (writeWorkflow_shapes graph _).2
    simp only [positionsOf, bind_eq_ok, pure_eq_ok]
    refine ⟨_, mapM_ok hshapes, ?_⟩
    rw [List.reduceOption, List.filterMap_map]
    exact List.filterMap_some
  · have hnodup : ((positionsIn graph).map (·.1)).Nodup := by
      rw [List.nodup_iff_count_le_one] at h ⊢
      exact fun id => (positionsIn_count id graph).trans (h id)
    refine lookup_of_mem ?_ (List.mem_reverse.mpr hp)
    rw [List.map_reverse]
    exact List.nodup_reverse.mpr hnodup

end Galaris.Process.Bpmn
