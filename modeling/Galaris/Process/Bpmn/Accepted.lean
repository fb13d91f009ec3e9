import Galaris.Base.Results
import Galaris.Process.Bpmn.Graph
import Mathlib.Data.List.Perm.Basic
import Mathlib.Data.List.Nodup

/-! What `validate_graph` accepts.

The validation threads one set of identifiers through a graph and its bodies. From its
success: the checks of each graph hold (`GraphOk`), identifiers are distinct across all
bodies (`allIds_nodup`), each body is accepted on its own (`Accepted.body`), and the
search from the start puts the nodes in an order that every flow goes down (`Ranked`). -/
namespace Galaris.Process.Bpmn

open Results

variable {S : Services}

theorem reject_eq_ok {failed : Bool} {message : String} {u : Unit} :
    reject failed message = .ok u ↔ failed = false := by
  cases failed <;> simp [reject]

/-! ### One graph -/

/-- The checks of one graph, short of the identifiers of the enclosing ones. -/
structure GraphOk (S : Services) (graph : Workflow) : Prop where
  profile : checkProfile S graph = .ok ()
  identities : graph.identities.Nodup
  actors : checkActors graph.actors = .ok ()
  nodes : ∀ node ∈ graph.nodes, checkNode S graph.typed graph.actors node = .ok ()
  ends : checkEnds graph = .ok ()
  flows : ∀ flow ∈ graph.flows, checkFlow S graph flow = .ok ()
  reachable : checkReachable graph = .ok ()

theorem checkGraph_eq_ok_iff {graph : Workflow} {seen out : List String} :
    checkGraph S graph seen = .ok out ↔
      GraphOk S graph ∧ (∀ id ∈ graph.identities, id ∉ seen) ∧ out = graph.identities ++ seen := by
  have hseen : graph.identities.any seen.contains = false ↔ ∀ id ∈ graph.identities, id ∉ seen := by
    simp [List.any_eq_false]
  have hnodup : (!decide graph.identities.Nodup) = false ↔ graph.identities.Nodup := by simp
  simp only [checkGraph, bind_eq_ok, reject_eq_ok, forM_eq_ok, hseen, hnodup, pure_eq_ok]
  constructor
  · rintro ⟨_, h1, _, h2, _, h3, _, h4, _, h5, _, h6, _, h7, _, h8, h9⟩
    exact ⟨⟨h1, h2, h4, h5, h6, h7, h8⟩, h3, h9.symm⟩
  · rintro ⟨⟨h1, h2, h4, h5, h6, h7, h8⟩, h3, h9⟩
    exact ⟨(), h1, (), h2, (), h3, (), h4, (), h5, (), h6, (), h7, (), h8, h9.symm⟩

/-! ### A graph and its bodies -/

mutual

/-- The identifiers of the graph and of its bodies. -/
def allIds : Workflow → List String
  | ⟨_, nodes, flows, _, _, _, _⟩ => nodes.map (·.id) ++ flows.map (·.id) ++ innerIds nodes

def innerIds : List Node → List String
  | [] => []
  | node :: rest => bodyIds node ++ innerIds rest

def bodyIds : Node → List String
  | ⟨_, _, _, _, _, _, some body, _, _⟩ => allIds body
  | ⟨_, _, _, _, _, _, none, _, _⟩ => []

end

/-- From `seen`, `out` was reached by taking the identifiers `ids`, all of them new. -/
structure Takes (seen ids out : List String) : Prop where
  nodup : ids.Nodup
  fresh : ∀ id ∈ ids, id ∉ seen
  out : out.Perm (ids ++ seen)

theorem Takes.nil (seen : List String) : Takes seen [] seen :=
  ⟨.nil, fun _ h => absurd h List.not_mem_nil, .refl _⟩

theorem Takes.append {seen mid out xs ys : List String} (h : Takes seen xs mid) (k : Takes mid ys out) :
    Takes seen (xs ++ ys) out where
  nodup := List.nodup_append.mpr ⟨h.nodup, k.nodup, fun x hx y hy heq =>
    k.fresh y hy (h.out.mem_iff.mpr (List.mem_append_left _ (heq ▸ hx)))⟩
  fresh id hid hseen := by
    rcases List.mem_append.mp hid with hx | hy
    · exact h.fresh id hx hseen
    · exact k.fresh id hy (h.out.mem_iff.mpr (List.mem_append_right _ hseen))
  out := by
    refine k.out.trans ?_
    refine (List.Perm.append_left ys h.out).trans ?_
    rw [← List.append_assoc]
    exact List.Perm.append_right seen List.perm_append_comm

theorem checkGraph_takes {graph : Workflow} {seen out : List String} (h : checkGraph S graph seen = .ok out) :
    Takes seen graph.identities out := by
  obtain ⟨hok, hfresh, rfl⟩ := checkGraph_eq_ok_iff.mp h
  exact ⟨hok.identities, hfresh, .refl _⟩

mutual

theorem validateWorkflow_takes : ∀ {graph : Workflow} {seen out : List String},
    validateWorkflow S graph seen = .ok out → Takes seen (allIds graph) out
  | ⟨version, nodes, flows, actors, agent, inputs, outputs⟩, seen, out, h => by
    rw [validateWorkflow, bind_eq_ok] at h
    obtain ⟨mid, hgraph, hnodes⟩ := h
    rw [allIds]
    exact (checkGraph_takes hgraph).append (validateNodes_takes hnodes)

theorem validateNodes_takes : ∀ {graph : Workflow} {nodes : List Node} {seen out : List String},
    validateNodes S graph nodes seen = .ok out → Takes seen (innerIds nodes) out
  | _, [], seen, out, h => by
    rw [validateNodes] at h
    cases h
    exact .nil _
  | graph, node :: rest, seen, out, h => by
    simp only [validateNodes, bind_eq_ok] at h
    obtain ⟨_, -, mid, hbody, _, -, hrest⟩ := h
    rw [innerIds]
    exact (validateBody_takes hbody).append (validateNodes_takes hrest)

theorem validateBody_takes : ∀ {version : SchemaVersion} {node : Node} {seen out : List String},
    validateBody S version node seen = .ok out → Takes seen (bodyIds node) out
  | _, ⟨_, kind, _, _, _, _, some body, _, _⟩, seen, out, h => by
    rw [validateBody] at h
    split at h
    · simp only [bind_eq_ok, pure_eq_ok] at h
      obtain ⟨mid, hbody, _, -, rfl⟩ := h
      rw [bodyIds]
      exact validateWorkflow_takes hbody
    · cases h
  | _, ⟨_, kind, _, _, _, _, none, _, _⟩, seen, out, h => by
    rw [validateBody] at h
    split at h
    · cases h
    · cases h
      exact .nil _

end

/-- Success only depends on the seen identifiers through those of the graph. -/
theorem checkGraph_from {graph : Workflow} {seen seen' out : List String} (h : checkGraph S graph seen = .ok out)
    (hfresh : ∀ id ∈ graph.identities, id ∉ seen') : checkGraph S graph seen' = .ok (graph.identities ++ seen') :=
  checkGraph_eq_ok_iff.mpr ⟨(checkGraph_eq_ok_iff.mp h).1, hfresh, rfl⟩

mutual

theorem validateWorkflow_from : ∀ {graph : Workflow} {seen seen' out : List String},
    validateWorkflow S graph seen = .ok out → (∀ id ∈ allIds graph, id ∉ seen') →
      ∃ out', validateWorkflow S graph seen' = .ok out'
  | ⟨version, nodes, flows, actors, agent, inputs, outputs⟩, seen, seen', out, h, hfresh => by
    have hnodup := (validateWorkflow_takes h).nodup
    rw [validateWorkflow, bind_eq_ok] at h
    obtain ⟨mid, hgraph, hnodes⟩ := h
    rw [allIds] at hfresh hnodup
    have hgraph' := checkGraph_from hgraph fun id hid => hfresh id (List.mem_append_left _ hid)
    obtain ⟨out', hout⟩ := validateNodes_from hnodes fun id hid hseen => by
      rcases List.mem_append.mp hseen with hmine | hseen
      · exact (List.nodup_append.mp hnodup).2.2 id hmine id hid rfl
      · exact hfresh id (List.mem_append_right _ hid) hseen
    exact ⟨out', by rw [validateWorkflow, bind_eq_ok]; exact ⟨_, hgraph', hout⟩⟩

theorem validateNodes_from : ∀ {graph : Workflow} {nodes : List Node} {seen seen' out : List String},
    validateNodes S graph nodes seen = .ok out → (∀ id ∈ innerIds nodes, id ∉ seen') →
      ∃ out', validateNodes S graph nodes seen' = .ok out'
  | _, [], seen, seen', out, h, _ => ⟨seen', by rw [validateNodes]⟩
  | graph, node :: rest, seen, seen', out, h, hfresh => by
    have hnodup := (validateNodes_takes h).nodup
    simp only [validateNodes, bind_eq_ok] at h
    obtain ⟨_, hflows, mid, hbody, _, hactivity, hrest⟩ := h
    rw [innerIds] at hfresh hnodup
    obtain ⟨mid', hmid⟩ := validateBody_from hbody fun id hid => hfresh id (List.mem_append_left _ hid)
    obtain ⟨out', hout⟩ := validateNodes_from hrest fun id hid hseen => by
      rcases List.mem_append.mp ((validateBody_takes hmid).out.mem_iff.mp hseen) with hmine | hseen
      · exact (List.nodup_append.mp hnodup).2.2 id hmine id hid rfl
      · exact hfresh id (List.mem_append_right _ hid) hseen
    refine ⟨out', ?_⟩
    simp only [validateNodes, bind_eq_ok]
    exact ⟨_, hflows, mid', hmid, _, hactivity, hout⟩

theorem validateBody_from : ∀ {version : SchemaVersion} {node : Node} {seen seen' out : List String},
    validateBody S version node seen = .ok out → (∀ id ∈ bodyIds node, id ∉ seen') →
      ∃ out', validateBody S version node seen' = .ok out'
  | _, ⟨_, kind, _, _, _, _, some body, _, _⟩, seen, seen', out, h, hfresh => by
    rw [validateBody] at h
    split at h
    · next hloop =>
      simp only [bind_eq_ok, pure_eq_ok] at h
      obtain ⟨mid, hbody, _, hcheck, rfl⟩ := h
      rw [bodyIds] at hfresh
      obtain ⟨out', hout⟩ := validateWorkflow_from hbody hfresh
      refine ⟨out', ?_⟩
      rw [validateBody, if_pos hloop]
      simp only [bind_eq_ok, pure_eq_ok]
      exact ⟨out', hout, _, hcheck, rfl⟩
    · cases h
  | _, ⟨_, kind, _, _, _, _, none, _, _⟩, seen, seen', out, h, _ => by
    rw [validateBody] at h
    split at h
    · cases h
    · next hloop => exact ⟨seen', by rw [validateBody, if_neg hloop]⟩

end

/-! ### Acceptance -/

/-- `validate_graph` returns. -/
def Accepted (S : Services) (graph : Workflow) : Prop := validateGraph S graph = .ok ()

/-- What acceptance says of a node of the graph. -/
structure NodeOk (S : Services) (graph : Workflow) (node : Node) : Prop where
  config : checkNode S graph.typed graph.actors node = .ok ()
  flows : checkFlows graph node = .ok ()
  activity : checkActivity S graph node = .ok ()
  loop : node.kind.isLoop = node.body.isSome
  body : ∀ body, node.body = some body → Accepted S body ∧ body.schemaVersion = graph.schemaVersion ∧
    checkLoop S node.kind node.config graph.schemaVersion body.schemaVersion = .ok ()

theorem accepted_iff {graph : Workflow} : Accepted S graph ↔ ∃ out, validateWorkflow S graph [] = .ok out := by
  simp only [Accepted, validateGraph, bind_eq_ok, pure_eq_ok]
  exact ⟨fun ⟨out, h, _⟩ => ⟨out, h⟩, fun ⟨out, h⟩ => ⟨out, h, trivial⟩⟩

theorem Accepted.allIds_nodup {graph : Workflow} (h : Accepted S graph) : (allIds graph).Nodup := by
  obtain ⟨out, hout⟩ := accepted_iff.mp h
  exact (validateWorkflow_takes hout).nodup

theorem Accepted.graphOk {graph : Workflow} (h : Accepted S graph) : GraphOk S graph := by
  obtain ⟨out, hout⟩ := accepted_iff.mp h
  obtain ⟨version, nodes, flows, actors, agent, inputs, outputs⟩ := graph
  rw [validateWorkflow, bind_eq_ok] at hout
  obtain ⟨mid, hgraph, -⟩ := hout
  exact (checkGraph_eq_ok_iff.mp hgraph).1

theorem validateBody_ok {version : SchemaVersion} {node : Node} {seen out : List String}
    (h : validateBody S version node seen = .ok out) :
    node.kind.isLoop = node.body.isSome ∧ ∀ body, node.body = some body →
      Accepted S body ∧ body.schemaVersion = version ∧
        checkLoop S node.kind node.config version body.schemaVersion = .ok () := by
  obtain ⟨id, kind, title, config, x, y, body, inputs, outputs⟩ := node
  cases body with
  | none =>
    rw [validateBody] at h
    split at h
    · cases h
    · next hloop => exact ⟨by simpa using hloop, nofun⟩
  | some body =>
    rw [validateBody] at h
    split at h
    · next hloop =>
      simp only [bind_eq_ok, pure_eq_ok] at h
      obtain ⟨mid, hbody, _, hcheck, rfl⟩ := h
      refine ⟨hloop, fun body' heq => ?_⟩
      cases heq
      refine ⟨accepted_iff.mpr (validateWorkflow_from hbody fun _ _ => List.not_mem_nil), ?_, hcheck⟩
      simp only [checkLoop, bind_eq_ok, reject_eq_ok] at hcheck
      obtain ⟨_, hversion, -⟩ := hcheck
      simpa using hversion
    · cases h

theorem validateNodes_ok {graph : Workflow} {nodes : List Node} {seen out : List String}
    (h : validateNodes S graph nodes seen = .ok out) {node : Node} (hnode : node ∈ nodes) :
    checkFlows graph node = .ok () ∧ checkActivity S graph node = .ok () ∧
      ∃ seen' out', validateBody S graph.schemaVersion node seen' = .ok out' := by
  induction nodes generalizing seen with
  | nil => cases hnode
  | cons first rest ih =>
    simp only [validateNodes, bind_eq_ok] at h
    obtain ⟨_, hflows, mid, hbody, _, hactivity, hrest⟩ := h
    rcases List.mem_cons.mp hnode with rfl | hnode
    · exact ⟨hflows, hactivity, seen, mid, hbody⟩
    · exact ih hrest hnode

theorem Accepted.nodeOk {graph : Workflow} (h : Accepted S graph) {node : Node} (hnode : node ∈ graph.nodes) :
    NodeOk S graph node := by
  have hconfig := h.graphOk.nodes node hnode
  obtain ⟨out, hout⟩ := accepted_iff.mp h
  obtain ⟨version, nodes, flows, actors, agent, inputs, outputs⟩ := graph
  rw [validateWorkflow, bind_eq_ok] at hout
  obtain ⟨mid, -, hnodes⟩ := hout
  obtain ⟨hflows, hactivity, seen', out', hbody⟩ := validateNodes_ok hnodes hnode
  obtain ⟨hloop, hbodies⟩ := validateBody_ok hbody
  exact ⟨hconfig, hflows, hactivity, hloop, hbodies⟩

/-! ### The search from the start -/

/-- What a search leaves on top of `visited`: new keys off the path `active`, each after
all the targets of its flows. -/
structure Finishes (graph : Workflow) (active visited visited' : List String) : Prop where
  grown : visited <:+ visited'
  nodup : visited.Nodup → visited'.Nodup
  apart : ∀ key ∈ visited', key ∈ visited ∨ key ∉ active
  ordered : ∀ key post, (key :: post) <:+ visited' →
    (key :: post) <:+ visited ∨ ∀ flow ∈ graph.outgoing key, flow.target ∈ post

theorem Finishes.refl (graph : Workflow) (active visited : List String) :
    Finishes graph active visited visited :=
  ⟨List.suffix_rfl, id, fun _ h => .inl h, fun _ _ h => .inl h⟩

theorem Finishes.trans {graph : Workflow} {active xs ys zs : List String} (h : Finishes graph active xs ys)
    (k : Finishes graph active ys zs) : Finishes graph active xs zs where
  grown := h.grown.trans k.grown
  nodup hx := k.nodup (h.nodup hx)
  apart key hkey := by
    rcases k.apart key hkey with hy | hnot
    · exact h.apart key hy
    · exact .inr hnot
  ordered key post hsuffix := by
    rcases k.ordered key post hsuffix with hy | htargets
    · exact h.ordered key post hy
    · exact .inr htargets

theorem foldlM_finishes {graph : Workflow} {active : List String}
    {step : List String → Flow → Except String (List String)}
    {flows : List Flow} (hstep : ∀ flow ∈ flows, ∀ xs ys, step xs flow = .ok ys →
      Finishes graph active xs ys ∧ flow.target ∈ ys)
    {xs ys : List String} (h : flows.foldlM step xs = .ok ys) :
    Finishes graph active xs ys ∧ ∀ flow ∈ flows, flow.target ∈ ys := by
  induction flows generalizing xs with
  | nil =>
    cases h
    exact ⟨.refl _ _ _, fun _ h => absurd h List.not_mem_nil⟩
  | cons flow rest ih =>
    rw [List.foldlM_cons, bind_eq_ok] at h
    obtain ⟨mid, hfirst, hrest⟩ := h
    obtain ⟨hmid, htarget⟩ := hstep flow List.mem_cons_self xs mid hfirst
    obtain ⟨hys, htargets⟩ := ih (fun f hf => hstep f (List.mem_cons_of_mem _ hf)) hrest
    exact ⟨hmid.trans hys, List.forall_mem_cons.mpr ⟨hys.grown.subset htarget, htargets⟩⟩

theorem walk_finishes {graph : Workflow} : ∀ {fuel : Nat} {active : List String} {key : String}
    {visited visited' : List String}, walk graph fuel active key visited = .ok visited' →
      Finishes graph active visited visited' ∧ key ∈ visited'
  | 0, _, _, _, _, h => by cases h
  | fuel + 1, active, key, visited, visited', h => by
    rw [walk] at h
    split at h
    · cases h
    split at h
    · next hvisited =>
      cases h
      exact ⟨.refl _ _ _, by simpa using hvisited⟩
    · next hactive hvisited =>
      simp only [bind_eq_ok, pure_eq_ok] at h
      obtain ⟨mid, hfold, rfl⟩ := h
      have hnew : key ∉ visited := by simpa using hvisited
      have hoff : key ∉ active := by simpa using hactive
      obtain ⟨hmid, htargets⟩ := foldlM_finishes (fun _ _ _ _ hstep => walk_finishes hstep) hfold
      -- while its flows were searched the key was on the path, so it was not finished
      have hkey : key ∉ mid := fun hin =>
        (hmid.apart key hin).elim hnew fun hnot => hnot List.mem_cons_self
      refine ⟨⟨hmid.grown.trans (List.suffix_cons _ _), ?_, ?_, ?_⟩, List.mem_cons_self⟩
      · exact fun hv => List.nodup_cons.mpr ⟨hkey, hmid.nodup hv⟩
      · intro k hk
        rcases List.mem_cons.mp hk with rfl | hk
        · exact .inr hoff
        · exact (hmid.apart k hk).imp_right fun hnot h => hnot (List.mem_cons_of_mem _ h)
      · intro k post hsuffix
        rcases List.suffix_cons_iff.mp hsuffix with heq | hsuffix
        · cases heq
          exact .inr htargets
        · exact hmid.ordered k post hsuffix

/-- An order of the nodes that every flow goes down. -/
structure Ranked (graph : Workflow) (order : List String) : Prop where
  nodup : order.Nodup
  nodes : ∀ node ∈ graph.nodes, node.id ∈ order
  flows : ∀ flow ∈ graph.flows, order.idxOf flow.source < order.idxOf flow.target

/-- In a list without repetitions, what stands in the rest stands further down. -/
theorem idxOf_lt_of_suffix {order post : List String} {key target : String} (hnodup : order.Nodup)
    (hsuffix : (key :: post) <:+ order) (htarget : target ∈ post) : order.idxOf key < order.idxOf target := by
  obtain ⟨pre, rfl⟩ := hsuffix
  have hparts := List.nodup_append.mp hnodup
  have hkey : key ∉ pre := fun hin => hparts.2.2 key hin key List.mem_cons_self rfl
  have hafter : target ∉ pre := fun hin => hparts.2.2 target hin target (List.mem_cons_of_mem _ htarget) rfl
  have hne : key ≠ target := fun heq => (List.nodup_cons.mp hparts.2.1).1 (heq ▸ htarget)
  rw [List.idxOf_append_of_notMem hkey, List.idxOf_append_of_notMem hafter, List.idxOf_cons_self,
    List.idxOf_cons_ne _ hne]
  omega

/-- The start of an accepted graph, from which every node is reached. -/
theorem GraphOk.start {graph : Workflow} (h : GraphOk S graph) : ∃ start,
    (graph.nodes.filter fun node => node.kind == .start) = [start] ∧
      ∃ order, walk graph (graph.nodes.length + 1) [] start.id [] = .ok order ∧
        ∀ node ∈ graph.nodes, node.id ∈ order := by
  have hreach := h.reachable
  unfold checkReachable at hreach
  split at hreach
  · next start hstart =>
    simp only [bind_eq_ok, reject_eq_ok] at hreach
    obtain ⟨order, hwalk, hall⟩ := hreach
    refine ⟨start, hstart, order, hwalk, fun node hnode => ?_⟩
    simp only [Bool.not_eq_false', List.all_eq_true] at hall
    simpa using hall node hnode
  · cases hreach

theorem GraphOk.endpoints {graph : Workflow} (h : GraphOk S graph) {flow : Flow} (hflow : flow ∈ graph.flows) :
    (∃ source ∈ graph.nodes, source.id = flow.source) ∧ ∃ target ∈ graph.nodes, target.id = flow.target := by
  have hcheck := h.flows flow hflow
  unfold checkFlow at hcheck
  split at hcheck
  · next source target hsource htarget =>
    exact ⟨⟨source, List.mem_of_find?_eq_some hsource, by simpa using List.find?_some hsource⟩,
      target, List.mem_of_find?_eq_some htarget, by simpa using List.find?_some htarget⟩
  · cases hcheck

/-- An accepted graph has an order that every flow goes down. -/
theorem GraphOk.ranked {graph : Workflow} (h : GraphOk S graph) : ∃ order, Ranked graph order := by
  obtain ⟨start, -, order, hwalk, hall⟩ := h.start
  obtain ⟨hfinishes, -⟩ := walk_finishes hwalk
  refine ⟨order, hfinishes.nodup .nil, hall, fun flow hflow => ?_⟩
  obtain ⟨⟨source, hsource, hid⟩, -⟩ := h.endpoints hflow
  obtain ⟨pre, post, hsplit⟩ := List.append_of_mem (hid ▸ hall source hsource)
  have hsuffix : (flow.source :: post) <:+ order := ⟨pre, hsplit.symm⟩
  rcases hfinishes.ordered flow.source post hsuffix with hnil | htargets
  · simp at hnil
  · exact idxOf_lt_of_suffix (hfinishes.nodup .nil) hsuffix
      (htargets flow (List.mem_filter.mpr ⟨hflow, by simp⟩))

end Galaris.Process.Bpmn
